import LetPrint.Proofs.Placeless

/-! # Layout

The white space between the tokens of a source may be laid out in another way, as long as words stay
apart. Then the same tokens are read at other places, and since places carry no meaning the source
runs as it did.
-/
namespace LetPrint
open Scanner

/-- The same tokens with other white space around them, up to the end or to a character at which no
token starts. White space may come and go, except where a word would lose or gain a word character
right behind it. -/
inductive Relaid : List Char → List Char → Prop
  | blank {gap gap' : List Char} (white : ∀ c ∈ gap, Text.isSpace c = true)
    (white' : ∀ c ∈ gap', Text.isSpace c = true) : Relaid gap gap'
  | stuck {gap gap' more more' : List Char} {c : Char} (white : ∀ c ∈ gap, Text.isSpace c = true)
    (white' : ∀ c ∈ gap', Text.isSpace c = true) (space : Text.isSpace c = false)
    (fails : token? (c :: more) = none) (fails' : token? (c :: more') = none) :
    Relaid (gap ++ c :: more) (gap' ++ c :: more')
  | token {gap gap' chars rest rest' : List Char} {kind : Kind}
    (white : ∀ c ∈ gap, Text.isSpace c = true) (white' : ∀ c ∈ gap', Text.isSpace c = true)
    (token : token? (chars ++ rest) = some (kind, chars))
    (apart : kind.Stops rest ↔ kind.Stops rest') (others : Relaid rest rest') :
    Relaid (gap ++ (chars ++ rest)) (gap' ++ (chars ++ rest'))

namespace Scanner
variable {rest rest' : List Char}

theorem stops_wordKind {run : List Char} {next : Option Char} :
    (wordKind run next).Stops rest ↔ rest.head?.any Text.isWord = false := by
  unfold wordKind
  split_ifs <;> exact Iff.rfl

theorem stops_iff_of_any_isWord (h : rest.head?.any Text.isWord = false)
    (h' : rest'.head?.any Text.isWord = false) (kind : Kind) : kind.Stops rest ↔ kind.Stops rest' :=
  iff_of_true (stops_of_any_isWord h kind) (stops_of_any_isWord h' kind)

theorem stops_congr (h : rest.head? = rest'.head?) {kind : Kind} :
    kind.Stops rest ↔ kind.Stops rest' := by
  cases kind with
  | stringLiteral | assignOperator => exact Iff.rfl
  | undefinedLiteral | identifier | printKeyword | letKeyword =>
    simp only [Kind.Stops, h]

theorem takeWhile_eq_nil_congr (h : rest.head? = rest'.head?)
    (hrest : rest.takeWhile isNameChar = []) : rest'.takeWhile isNameChar = [] := by
  cases rest' with
  | nil => rfl
  | cons c cs =>
    obtain ⟨more,rfl⟩ := List.head?_eq_some_iff.mp h
    by_cases hc : isNameChar c = true
    · simp [hc] at hrest
    · simp [hc]

/-- A token stays what it is if the next character stays, or if words end before the next character
in both texts. -/
theorem token?_congr {chars : List Char} {kind : Kind}
    (h : token? (chars ++ rest) = some (kind, chars))
    (hrest : rest.head? = rest'.head? ∨ kind.Stops rest ∧ kind.Stops rest') :
    token? (chars ++ rest') = some (kind, chars) := by
  rcases token?_cases h with ⟨rfl,hspells⟩ | ⟨rfl,hstart,hall,hrun⟩ | ⟨rfl,rfl⟩
  · have htoken : token? ((String.ofList chars).toList ++ rest') =
        some (.stringLiteral, (String.ofList chars).toList) := token?_of_spells hspells trivial
    rwa [String.toList_ofList] at htoken
  · rcases hrest with hhead | ⟨hstops,hstops'⟩
    · rw [token?_run hstart hall (takeWhile_eq_nil_congr hhead hrun), hhead]
    · rw [stops_wordKind] at hstops hstops'
      rw [token?_run hstart hall (takeWhile_eq_nil hstops'), wordKind, wordKind, hstops, hstops']
  · rfl

end Scanner

namespace Relaid
variable {text other : List Char}

theorem head?_of_white {gap rest : List Char} {c : Char} (white : ∀ c ∈ gap, Text.isSpace c = true)
    (h : (gap ++ rest).head? = some c) (hword : Text.isWord c = true) : rest.head? = some c := by
  cases gap with
  | nil => exact h
  | cons d gap =>
    obtain rfl : d = c := Option.some.inj h
    rw [Text.not_isWord_of_isSpace (white d List.mem_cons_self)] at hword
    cases hword

/-- White space in front of the texts may differ as well. -/
theorem spaced (h : Relaid text other) {front front' : List Char}
    (white : ∀ c ∈ front, Text.isSpace c = true) (white' : ∀ c ∈ front', Text.isSpace c = true) :
    Relaid (front ++ text) (front' ++ other) := by
  have hwhite : ∀ {front gap : List Char}, (∀ c ∈ front, Text.isSpace c = true) →
      (∀ c ∈ gap, Text.isSpace c = true) → ∀ c ∈ front ++ gap, Text.isSpace c = true := by
    intro front gap hfront hgap c hc
    exact (List.mem_append.mp hc).elim (hfront c) (hgap c)
  cases h with
  | blank gap gap' => exact .blank (hwhite white gap) (hwhite white' gap')
  | stuck gap gap' space fails fails' =>
    rw [← List.append_assoc, ← List.append_assoc]
    exact .stuck (hwhite white gap) (hwhite white' gap') space fails fails'
  | token gap gap' htoken apart others =>
    rw [← List.append_assoc, ← List.append_assoc front']
    exact .token (hwhite white gap) (hwhite white' gap') htoken apart others

theorem behind {chars rest rest' : List Char} {kind : Kind} (others : Relaid rest rest')
    (htoken : token? (chars ++ rest) = some (kind, chars))
    (apart : kind.Stops rest ↔ kind.Stops rest') : Relaid (chars ++ rest) (chars ++ rest') := by
  exact .token (List.forall_mem_nil _) (List.forall_mem_nil _) htoken apart others

theorem refl (text : List Char) : Relaid text text := by
  induction hlength : text.length using Nat.strongRecOn generalizing text with
  | ind n ih =>
    cases text with
    | nil => exact .blank (List.forall_mem_nil _) (List.forall_mem_nil _)
    | cons c cs =>
      cases hspace : Text.isSpace c with
      | true =>
        have hc : ∀ d ∈ [c], Text.isSpace d = true := List.forall_mem_singleton.mpr hspace
        exact (ih cs.length (by simp [← hlength]) cs rfl).spaced hc hc
      | false =>
        cases htoken : token? (c :: cs) with
        | none =>
          exact .stuck (List.forall_mem_nil _) (List.forall_mem_nil _) hspace htoken htoken
        | some found =>
          obtain ⟨kind,chars⟩ := found
          obtain ⟨⟨rest,hrest⟩,hne⟩ := token?_takes htoken
          rw [← hrest] at htoken ⊢
          have hshorter : rest.length < n := by
            have hpos := List.length_pos_iff.mpr hne
            rw [← hlength, ← hrest, List.length_append]
            omega
          exact (ih rest.length hshorter rest rfl).behind htoken Iff.rfl

/-- Behind whole tokens, white space may be replaced by other white space. -/
theorem between {place : Position} {front gap gap' : List Char} (back : List Char)
    (hclean : ∀ e, .error e ∉ scanFrom place front) (hne : gap ≠ []) (hne' : gap' ≠ [])
    (white : ∀ c ∈ gap, Text.isSpace c = true) (white' : ∀ c ∈ gap', Text.isSpace c = true) :
    Relaid (front ++ (gap ++ back)) (front ++ (gap' ++ back)) := by
  have hends : ∀ {gap : List Char}, gap ≠ [] → (∀ c ∈ gap, Text.isSpace c = true) →
      (gap ++ back).head?.any Text.isWord = false := by
    intro gap hne white
    refine EndsWord.any_isWord fun c hc => ?_
    rw [List.head?_append_of_ne_nil _ hne] at hc
    exact white c (List.mem_of_mem_head? hc)
  fun_induction scanFrom place front with
  | case1 => exact (refl back).spaced white white'
  | case2 place c cs hspace ih =>
    have hc : ∀ d ∈ [c], Text.isSpace d = true := List.forall_mem_singleton.mpr hspace
    exact (ih hclean).spaced hc hc
  | case3 place c cs hspace htoken => exact absurd List.mem_cons_self (hclean _)
  | case4 place c cs hspace kind chars htoken ih =>
    obtain ⟨rest,hrest,_,_⟩ := scanFrom_of_token? place htoken
    rw [hrest, List.drop_left] at ih hclean
    have hothers := ih fun e he => hclean e (List.mem_cons_of_mem _ he)
    rw [hrest] at htoken ⊢
    rw [List.append_assoc, List.append_assoc]
    cases rest with
    | nil =>
      have hstops := stops_of_any_isWord (hends hne white) kind
      have hend := stops_of_any_isWord (rfl : ([] : List Char).head?.any Text.isWord = false) kind
      exact hothers.behind (token?_congr htoken (Or.inr ⟨hend,hstops⟩))
        (stops_iff_of_any_isWord (hends hne white) (hends hne' white') kind)
    | cons d rest =>
      have hhead : ∀ more : List Char, (d :: rest ++ more).head? = some d := fun _ => rfl
      have hsame := (hhead (gap ++ back)).trans (hhead (gap' ++ back)).symm
      exact hothers.behind (token?_congr htoken (Or.inl rfl)) (stops_congr hsame)

/-- Two word characters with which the texts start are the same one. -/
theorem head?_eq (h : Relaid text other) {c d : Char} (hc : text.head? = some c)
    (hcword : Text.isWord c = true) (hd : other.head? = some d) (hdword : Text.isWord d = true) :
    text.head? = other.head? := by
  cases h with
  | blank white _ =>
    rw [← List.append_nil text] at hc
    cases head?_of_white white hc hcword
  | stuck white white' _ _ _ =>
    obtain rfl := Option.some.inj (head?_of_white white hc hcword)
    obtain rfl := Option.some.inj (head?_of_white white' hd hdword)
    rw [hc, hd]
  | @token _ _ chars rest rest' _ white white' htoken _ _ =>
    have hne := (token?_takes htoken).2
    have hfirst := head?_of_white white hc hcword
    have hsecond := head?_of_white white' hd hdword
    rw [List.head?_append_of_ne_nil _ hne] at hfirst hsecond
    rw [hc, hd, ← hfirst, ← hsecond]

theorem token?_eq {chars rest rest' : List Char} {kind : Kind}
    (h : Relaid rest rest') (htoken : token? (chars ++ rest) = some (kind, chars))
    (apart : kind.Stops rest ↔ kind.Stops rest') : token? (chars ++ rest') = some (kind, chars) := by
  by_cases hstops : kind.Stops rest
  · exact token?_congr htoken (Or.inr ⟨hstops,apart.mp hstops⟩)
  · have hword : ∀ {text : List Char}, ¬ kind.Stops text →
        ∃ c, text.head? = some c ∧ Text.isWord c = true := by
      intro text hgoes
      cases hhead : text.head? with
      | none => exact absurd (stops_of_any_isWord (by rw [hhead]; rfl) kind) hgoes
      | some c =>
        refine ⟨c,rfl,?_⟩
        by_contra hword
        exact hgoes (stops_of_any_isWord (by simpa [hhead] using hword) kind)
    obtain ⟨c,hc,hcword⟩ := hword hstops
    obtain ⟨d,hd,hdword⟩ := hword (apart.not.mp hstops)
    exact token?_congr htoken (Or.inl (h.head?_eq hc hcword hd hdword))

/-- Laid out in another way, a text is lexed to the same items at other places. -/
theorem bare_scanFrom (h : Relaid text other) (place place' : Position) :
    (scanFrom place text).map (bareResult Token.bare) =
      (scanFrom place' other).map (bareResult Token.bare) := by
  induction h generalizing place place' with
  | blank white white' => rw [scanFrom_blank white, scanFrom_blank white']
  | stuck white white' space fails fails' =>
    have hspace := Bool.eq_false_iff.mp space
    rw [scanFrom_spaces white, scanFrom_spaces white', scanFrom_of_none _ hspace fails,
      scanFrom_of_none _ hspace fails']
    rfl
  | token white white' htoken apart others ih =>
    rw [scanFrom_spaces white, scanFrom_spaces white', scanFrom_append _ htoken,
      scanFrom_append _ (others.token?_eq htoken apart), List.map_cons, List.map_cons, ih]
    rfl

end Relaid

namespace Session

/-- Streams that differ in places only are parsed to programs, or to errors, that differ in places
only, and with the same environment. Such programs do the same on every machine, and a source that
is laid out in another way has the same run. -/
theorem places_carry_no_meaning : ∃ p, Language.parser.value = .ok p ∧
    (∀ (env : Environment) (items others : List (Except Error Token)) (announced announced' : Bool),
      items.map (bareResult Token.bare) = others.map (bareResult Token.bare) →
      bareRun Program.bare (p.parse ⟨items, announced⟩ env).value =
        bareRun Program.bare (p.parse ⟨others, announced'⟩ env).value) ∧
    (∀ (m : Machine) (program other : Program), program.bare = other.bare →
      bareRun id (program.exec m).value = bareRun id (other.exec m).value) ∧
    ∀ (s : Session) (sink : Sink) (a b : String), Relaid a.toList b.toList →
      bareRun id (s.run a sink).value = bareRun id (s.run b sink).value := by
  refine ⟨Language.reader,Language.parser_value,?_,?_,?_⟩
  · intro env items others announced announced' h
    exact Language.parse_placeless h announced announced' env
  · intro m program other h
    exact Program.exec_placeless h m
  · intro s sink a b h
    exact run_placeless (h.bare_scanFrom .start .start) s sink

/-- A source that ends in an error and the same source on two lines; a stream with an error in it,
and a program with a name that has no value. -/
theorem places_carry_no_meaning_lines : ∃ p, Language.parser.value = .ok p ∧
    bareRun id (run {} "let a = 'x'?" {}).value = bareRun id (run {} "let a =\n\t'x'?" {}).value ∧
    bareRun Program.bare (p.parse ⟨[.ok ⟨.letKeyword, "let", ⟨1, 1, 0⟩⟩,
        .error ⟨.io "closed", some ⟨1, 4, 3⟩⟩], false⟩ {}).value =
      bareRun Program.bare (p.parse ⟨[.ok ⟨.letKeyword, "let", ⟨3, 2, 9⟩⟩,
        .error ⟨.io "closed", some ⟨7, 1, 40⟩⟩], false⟩ {}).value ∧
    bareRun id (Program.exec ⟨{}, {}⟩ ⟨[.print (.name "b" .atStart) .atStart], .atStart⟩).value =
      bareRun id (Program.exec ⟨{}, {}⟩ ⟨[.print (.name "b" ⟨⟨2, 1, 4⟩, ⟨2, 2, 5⟩⟩) .atStart],
        ⟨⟨1, 1, 0⟩, ⟨2, 2, 5⟩⟩⟩).value := by
  obtain ⟨p,hp,hparse,hexec,hrun⟩ := places_carry_no_meaning
  refine ⟨p,hp,hrun {} {} _ _ ?_,hparse {} _ _ false false rfl,hexec ⟨{}, {}⟩ _ _ rfl⟩
  have hfront : scan "let a =" = [⟨.letKeyword, "let", ⟨1, 1, 0⟩⟩,
      ⟨.identifier, "a", ⟨1, 5, 4⟩⟩, ⟨.assignOperator, "=", ⟨1, 7, 6⟩⟩].map .ok := by
    rw [← Lexer.scan_languageRules]
    decide +kernel
  have hclean : ∀ e, .error e ∉ scanFrom .start "let a =".toList := by
    intro e he
    rw [← scan, hfront] at he
    simp at he
  have hgap : ∀ c ∈ [' '], Text.isSpace c = true := List.forall_mem_singleton.mpr rfl
  have hgap' : ∀ c ∈ ['\n', '\t'], Text.isSpace c = true :=
    List.forall_mem_cons.mpr ⟨rfl,List.forall_mem_singleton.mpr rfl⟩
  exact .between "'x'?".toList hclean (List.cons_ne_nil _ _) (List.cons_ne_nil _ _) hgap hgap'

end Session

end LetPrint
