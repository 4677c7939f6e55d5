import LetPrint.Proofs.Reading

/-! # Which programs are accepted

A list of tokens is accepted exactly if it is a nonempty list of clauses in which every identifier
that is referred to was declared before the parse or by an earlier clause. Names are declared when a
clause has ended, so an initializer does not see the name of its own clause.
-/
namespace LetPrint

namespace Clause
variable {env : Environment}

/-- Every identifier that a clause refers to is declared already or by an earlier clause. -/
def Scoped (env : Environment) (clauses : List Clause) : Prop :=
  ∀ front clause back, clauses = front ++ clause :: back → ∀ identifier,
    clause.use? = some identifier → identifier.text ∈ env.declared ∨
      ∃ earlier ∈ front, earlier.binder? = some identifier.text

theorem mem_declared_declareIn {c : Clause} {name : String} :
    name ∈ (c.declareIn env).declared ↔ name ∈ env.declared ∨ c.binder? = some name := by
  unfold declareIn
  cases hb : c.binder? with
  | none => simp
  | some other =>
    simp only [Environment.declare, Environment.addName, Option.some.injEq]
    split_ifs with hmem
    · constructor
      · exact Or.inl
      · rintro (h | rfl)
        · exact h
        · exact hmem
    · simp [eq_comm]

theorem mem_declared_foldl {clauses : List Clause} {name : String} :
    name ∈ (clauses.foldl declareIn env).declared ↔
      name ∈ env.declared ∨ ∃ c ∈ clauses, c.binder? = some name := by
  induction clauses generalizing env with
  | nil => simp
  | cons c clauses ih => simp [ih, mem_declared_declareIn, or_assoc]

theorem bindings_foldl (clauses : List Clause) :
    (clauses.foldl declareIn env).bindings = env.bindings := by
  induction clauses generalizing env with
  | nil => rfl
  | cons c clauses ih =>
    rw [List.foldl_cons, ih]
    unfold declareIn
    cases c.binder? <;> rfl

theorem stray?_eq_none_iff {c : Clause} :
    c.stray? env = none ↔ ∀ identifier, c.use? = some identifier →
      identifier.text ∈ env.declared := by
  constructor
  · intro h identifier hu
    by_contra hd
    have hsome := stray?_eq_some_iff.mpr ⟨hu,hd⟩
    rw [h] at hsome
    cases hsome
  · intro h
    cases hs : c.stray? env with
    | none => rfl
    | some identifier =>
      obtain ⟨hu,hd⟩ := stray?_eq_some_iff.mp hs
      exact absurd (h identifier hu) hd

/-- The last clause of scoped clauses refers to no name that those before it leave undeclared. -/
theorem scoped_concat {clauses : List Clause} {c : Clause} : Scoped env (clauses ++ [c]) ↔
    Scoped env clauses ∧ c.stray? (clauses.foldl declareIn env) = none := by
  rw [stray?_eq_none_iff]
  constructor
  · intro h
    constructor
    · intro front clause back hc
      exact h front clause (back ++ [c]) (by simp [hc])
    · intro identifier hu
      exact mem_declared_foldl.mpr (h clauses c [] rfl identifier hu)
  · rintro ⟨hscoped,hlast⟩ front clause back hc identifier hu
    rcases List.eq_nil_or_concat' back with rfl | ⟨middle,other,rfl⟩
    · obtain ⟨rfl,hsame⟩ := List.append_inj' hc rfl
      cases hsame
      exact mem_declared_foldl.mp (hlast identifier hu)
    · have hsplit : clauses ++ [c] = (front ++ clause :: middle) ++ [other] := by simp [hc]
      obtain ⟨rfl,_⟩ := List.append_inj' hsplit rfl
      exact hscoped front clause middle rfl identifier hu

theorem scoped_nil : Scoped env [] := by
  intro front clause back h
  simp at h

end Clause

namespace Scan
variable {env : Environment}

theorem scoped_of_next {s s' : Scan} {token : Token} (h : s.next token = some s') :
    Clause.Scoped env s'.done ↔ Clause.Scoped env s.done ∧ s.stray? env = none := by
  rcases next_cases h with ⟨hd,hshift⟩ | ⟨clause,hp,_,_,hd⟩
  · simp [hd, Language.stray?_of_shift hshift]
  · rw [hd, Clause.scoped_concat]
    simp [stray?, hp, environment]

theorem scoped_of_foldlM {s s' : Scan} {tokens : List Token}
    (h : tokens.foldlM next s = some s') (hs' : Clause.Scoped env s'.done) :
    Clause.Scoped env s.done := by
  induction tokens generalizing s with
  | nil =>
    cases h
    exact hs'
  | cons token tokens ih =>
    simp only [List.foldlM_cons, bind, Option.bind_eq_some_iff] at h
    obtain ⟨mid,hn,hm⟩ := h
    exact ((scoped_of_next hn).mp (ih hm)).1

theorem outcome_append {s s' : Scan} {tokens : List Token} (items : List (Except Error Token))
    (h : tokens.foldlM next s = some s') (hs' : Clause.Scoped env s'.done) :
    s.outcome env (tokens.map .ok ++ items) = s'.outcome env items := by
  induction tokens generalizing s with
  | nil =>
    cases h
    rfl
  | cons token tokens ih =>
    simp only [List.foldlM_cons, bind, Option.bind_eq_some_iff] at h
    obtain ⟨mid,hn,hm⟩ := h
    have hstray := ((scoped_of_next hn).mp (scoped_of_foldlM hm hs')).2
    rw [List.map_cons, List.cons_append, outcome]
    simp only [hn, hstray]
    exact ih hm

def accepted (env : Environment) (clauses : List Clause) : Outcome × Environment :=
  (.accepted (.program ⟨clauses.map Clause.stmt, Phrase.spanOf (clauses.map Clause.stmt)⟩),
    clauses.foldl Clause.declareIn env)

theorem outcome_of_scoped {clauses : List Clause} (hne : clauses ≠ [])
    (hscoped : Clause.Scoped env clauses) :
    outcome env {} ((clauses.flatMap Clause.tokens).map .ok) = accepted env clauses := by
  rcases List.eq_nil_or_concat' clauses with rfl | ⟨front,last,rfl⟩
  · exact absurd rfl hne
  · have hall := all_clauses front last
    obtain ⟨hfront,hlast⟩ := Clause.scoped_concat.mp hscoped
    have hread := outcome_append [] hall hfront
    rw [List.append_nil] at hread
    rw [List.flatMap_append, List.flatMap_singleton, hread, outcome]
    simp [Stage.pending?_stage, stray?, environment, hlast, accepted]

/-- What is accepted consists of clauses in scope. -/
theorem scoped_of_outcome {s : Scan} {tokens : List Token} {value : Fragment} {after : Environment}
    (hs : Clause.Scoped env s.done)
    (h : s.outcome env (tokens.map .ok) = (.accepted value, after)) :
    ∃ clauses, clauses ≠ [] ∧ s.tokens ++ tokens = clauses.flatMap Clause.tokens ∧
      Clause.Scoped env clauses := by
  induction tokens generalizing s with
  | nil =>
    rw [List.map_nil, outcome] at h
    cases hp : s.stage.pending? with
    | none =>
      rw [hp] at h
      cases h
    | some clause =>
      cases hstray : s.stray? env with
      | some identifier =>
        rw [hp, hstray] at h
        cases h
      | none =>
        have htokens : s.stage.tokens = clause.tokens := by
          rw [Stage.eq_stage_of_pending? hp, Stage.tokens_stage]
        refine ⟨s.done ++ [clause],by simp,by simp [Scan.tokens, htokens],?_⟩
        refine Clause.scoped_concat.mpr ⟨hs,?_⟩
        simpa [stray?, hp, environment] using hstray
  | cons token tokens ih =>
    rw [List.map_cons, outcome] at h
    cases hn : s.next token with
    | none =>
      rw [hn] at h
      cases h
    | some s' =>
      cases hstray : s.stray? env with
      | some identifier =>
        rw [hn, hstray] at h
        cases h
      | none =>
        rw [hn, hstray] at h
        obtain ⟨clauses,hne,ht,hscoped⟩ := ih ((scoped_of_next hn).mpr ⟨hs,hstray⟩) h
        refine ⟨clauses,hne,?_,hscoped⟩
        rw [← ht, tokens_of_next hn]
        simp

end Scan

namespace Phrase

/-- A text without its first and last byte, where these are whole characters. -/
def Within (literal content : String) : Prop :=
  ∃ first last : String, literal = first ++ content ++ last ∧
    first.utf8ByteSize = 1 ∧ last.utf8ByteSize = 1

theorem exists_singleton {s : String} (h : s.utf8ByteSize = 1) :
    ∃ c : Char, s = .singleton c ∧ c.utf8Size = 1 := by
  have hs : String.ofList s.toList = s := String.ofList_toList
  cases hl : s.toList with
  | nil =>
    rw [← hs, hl] at h
    cases h
  | cons c cs =>
    have hsplit : s = .singleton c ++ .ofList cs := by
      rw [← hs, hl, String.singleton_eq_ofList, ← String.ofList_append]
      rfl
    have hpos := c.utf8Size_pos
    rw [hsplit, String.utf8ByteSize_append, String.utf8ByteSize_singleton] at h
    have hempty : String.ofList cs = "" := String.utf8ByteSize_eq_zero_iff.mp (by omega)
    exact ⟨c,by rw [hsplit, hempty, String.append_empty],by omega⟩

theorem unquoted_of_within {literal content : String} (h : Within literal content) :
    unquoted literal = content := by
  obtain ⟨first,last,rfl,hfirst,hlast⟩ := h
  obtain ⟨a,rfl,ha⟩ := exists_singleton hfirst
  obtain ⟨b,rfl,hb⟩ := exists_singleton hlast
  have hlist : (String.singleton a ++ content ++ .singleton b).toList =
      a :: (content.toList ++ [b]) := by simp
  unfold unquoted
  rw [hlist]
  simp [ha, hb]

theorem unquoted_of_not_within {literal : String} (h : ∀ content, ¬ Within literal content) :
    unquoted literal = "" := by
  unfold unquoted
  split
  · next first rest hlist =>
    split
    · next last hlast =>
      split_ifs with hsizes
      · refine absurd ?_ (h (.ofList rest.dropLast))
        refine ⟨.singleton first,.singleton last,?_,?_,?_⟩
        · have hrest : rest = rest.dropLast ++ [last] := by
            obtain ⟨front,rfl⟩ := List.getLast?_eq_some_iff.mp hlast
            simp
          apply String.toList_injective
          simp [hlist, ← hrest]
        · rw [String.utf8ByteSize_singleton]
          exact hsizes.1
        · rw [String.utf8ByteSize_singleton]
          exact hsizes.2
      · rfl
    · rfl
  · rfl

end Phrase

namespace Language

theorem value_parse_reader (announced : Bool) (items : List (Except Error Token))
    (env : Environment) : (reader.parse ⟨items, announced⟩ env).value =
      match (Scan.outcome env {} items).1.toProgram with
      | .ok program => (.ok program, (Scan.outcome env {} items).2)
      | .error error =>
        (.error error, (Scan.outcome env {} items).2.rollback env.checkpoint) := by
  simp only [Parser.parse, Traced.value_bind, value_drive_reader]
  cases (Scan.outcome env {} items).1.toProgram <;> rfl

/-- A list of tokens is accepted exactly if it is a nonempty list of clauses in scope. The program
holds the statements of the clauses in order, the names that they introduce become declared, and no
value changes. -/
theorem parse_ok_iff_scoped : ∃ p, parser.value = .ok p ∧
    ∀ (tokens : List Token) (announced : Bool) (env : Environment),
    ((∃ program, (p.parse ⟨tokens.map .ok, announced⟩ env).value.1 = .ok program) ↔
      ∃ clauses, clauses ≠ [] ∧ tokens = clauses.flatMap Clause.tokens ∧
        Clause.Scoped env clauses) ∧
    (∀ clauses, clauses ≠ [] → tokens = clauses.flatMap Clause.tokens →
      Clause.Scoped env clauses → ∃ after,
        (p.parse ⟨tokens.map .ok, announced⟩ env).value =
          (.ok ⟨clauses.map Clause.stmt, Phrase.spanOf (clauses.map Clause.stmt)⟩, after) ∧
        (∀ name, name ∈ after.declared ↔
          name ∈ env.declared ∨ ∃ c ∈ clauses, c.binder? = some name) ∧
        after.bindings = env.bindings) ∧
    (∀ literal : Lexeme .stringLiteral, ∃ content,
      (Operand.text literal).expr = .text content literal.token.span ∧
      (Phrase.Within literal.text content ∨
        content = "" ∧ ∀ other, ¬ Phrase.Within literal.text other)) := by
  refine ⟨reader,parser_value,fun tokens announced env => ?_⟩
  have hparse := value_parse_reader announced (tokens.map .ok) env
  have hok : ∀ clauses, clauses ≠ [] → tokens = clauses.flatMap Clause.tokens →
      Clause.Scoped env clauses → (reader.parse ⟨tokens.map .ok, announced⟩ env).value =
        (.ok ⟨clauses.map Clause.stmt, Phrase.spanOf (clauses.map Clause.stmt)⟩,
          clauses.foldl Clause.declareIn env) := by
    intro clauses hne ht hscoped
    rw [hparse, ht, Scan.outcome_of_scoped hne hscoped]
    rfl
  refine ⟨⟨?_,?_⟩,?_,?_⟩
  · rintro ⟨program,h⟩
    cases hout : Scan.outcome env {} (tokens.map .ok) with
    | mk outcome after =>
      rw [hout] at hparse
      cases outcome with
      | accepted value => exact Scan.scoped_of_outcome Clause.scoped_nil hout
      | failed error =>
        rw [hparse] at h
        cases h
      | stalled =>
        rw [hparse] at h
        cases h
  · rintro ⟨clauses,hne,ht,hscoped⟩
    exact ⟨_,congrArg Prod.fst (hok clauses hne ht hscoped)⟩
  · intro clauses hne ht hscoped
    exact ⟨_,hok clauses hne ht hscoped,fun name => Clause.mem_declared_foldl,
      Clause.bindings_foldl clauses⟩
  · intro literal
    refine ⟨_,rfl,?_⟩
    by_cases h : ∃ content, Phrase.Within literal.text content
    · obtain ⟨content,hc⟩ := h
      rw [Phrase.unquoted_of_within hc]
      exact Or.inl hc
    · push Not at h
      exact Or.inr ⟨Phrase.unquoted_of_not_within h,h⟩

/-- A name may be printed after its clause, not before it. -/
theorem parse_let_print : ∃ p, parser.value = .ok p ∧ ∃ after,
    (p.parse ⟨[.ok ⟨.letKeyword, "let", .start⟩, .ok ⟨.identifier, "a", ⟨1, 5, 4⟩⟩,
      .ok ⟨.printKeyword, "print", ⟨1, 7, 6⟩⟩, .ok ⟨.identifier, "a", ⟨1, 13, 12⟩⟩],
      false⟩ {}).value =
    (.ok ⟨[.bind "a" none ⟨⟨1, 1, 0⟩, ⟨1, 6, 5⟩⟩,
      .print (.name "a" ⟨⟨1, 13, 12⟩, ⟨1, 14, 13⟩⟩) ⟨⟨1, 7, 6⟩, ⟨1, 14, 13⟩⟩],
      ⟨⟨1, 1, 0⟩, ⟨1, 14, 13⟩⟩⟩, after) := by
  obtain ⟨p,hp,hparse⟩ := parse_ok_iff_scoped
  let first : Clause := .declare ⟨"let", .start⟩ ⟨"a", ⟨1, 5, 4⟩⟩
  let second : Clause := .print ⟨"print", ⟨1, 7, 6⟩⟩ (.name ⟨"a", ⟨1, 13, 12⟩⟩)
  have hfirst : Clause.Scoped {} ([] ++ [first]) := Clause.scoped_concat.mpr ⟨Clause.scoped_nil,rfl⟩
  have hscoped : Clause.Scoped {} ([first] ++ [second]) :=
    Clause.scoped_concat.mpr ⟨hfirst,rfl⟩
  obtain ⟨after,hresult,_⟩ := (hparse _ false {}).2.1 [first, second] (by simp) rfl hscoped
  exact ⟨p,hp,after,hresult⟩

end Language

end LetPrint
