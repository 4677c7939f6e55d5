import LetPrint.Proofs.Pulling
import LetPrint.Proofs.Scoping

/-! # Which error is reported

A parse of the language stops at the first item that is an error, that cannot follow the tokens
before it, or that shows that an undeclared identifier has been referred to. The first two come
before the third, because an item is pulled before the clause in front of it is reduced. Nothing
after the item is pulled.
-/
namespace LetPrint

namespace Language
variable {env : Environment} {front : List Token} {rest : List (Except Error Token)}

open Classical in
/-- The names of the terminals that may legally follow tokens, in order. -/
noncomputable def followers (front : List Token) : List String :=
  (Terminal.all.filter fun t => decide (grammar.Legal (front.map Token.kind) t)).map Terminal.name

/-- The terminal that is looked at when items are still to come; an error is none. -/
def ahead : List (Except Error Token) → Option Terminal
  | [] => some .endOfInput
  | .ok token :: _ => some token.terminal
  | .error _ :: _ => none

/-- Tokens end with an identifier that a clause refers to, although it was not declared before and
no earlier clause introduces it. -/
def EndsStray (env : Environment) (front : List Token) (identifier : Lexeme .identifier) : Prop :=
  ∃ (clauses : List Clause) (last : Clause),
    front = clauses.flatMap Clause.tokens ++ last.tokens ∧ last.use? = some identifier ∧
    identifier.text ∉ env.declared ∧ ∀ c ∈ clauses, c.binder? ≠ some identifier.text

/-- Reading stops with an error between the tokens before an item and that item. -/
inductive Stops (env : Environment) (front : List Token) :
    List (Except Error Token) → Error → Prop
  | error (e : Error) (rest : List (Except Error Token)) : Stops env front (.error e :: rest) e
  | token (token : Token) (rest : List (Except Error Token))
    (illegal : ¬ grammar.Legal (front.map Token.kind) token.terminal) :
    Stops env front (.ok token :: rest)
      ⟨.unexpectedToken token.text (followers front), some token.position⟩
  | finish (illegal : ¬ grammar.Legal (front.map Token.kind) .endOfInput) :
    Stops env front [] ⟨.unexpectedEnd (followers front), front.getLast?.map (·.span.stop)⟩
  | stray {rest : List (Except Error Token)} {t : Terminal} {identifier : Lexeme .identifier}
    (next : ahead rest = some t) (legal : grammar.Legal (front.map Token.kind) t)
    (undeclared : EndsStray env front identifier) :
    Stops env front rest ⟨.identifierNotDefined identifier.text, some identifier.position⟩

/-- Reading stops with an error at the item of a number, or at the end of the items. -/
def StopsAt (env : Environment) (items : List (Except Error Token)) (k : ℕ) (e : Error) : Prop :=
  ∃ front rest, items = front.map .ok ++ rest ∧ front.length = k ∧ Stops env front rest e

/-- Reading stops with an error at an item and at no earlier one. -/
def FirstStop (env : Environment) (items : List (Except Error Token)) (k : ℕ) (e : Error) : Prop :=
  StopsAt env items k e ∧ ∀ j < k, ∀ other, ¬ StopsAt env items j other

theorem stopsAt_length {e : Error} :
    StopsAt env (front.map .ok ++ rest) front.length e ↔ Stops env front rest e := by
  constructor
  · rintro ⟨front',rest',hitems,hlen,hstops⟩
    obtain ⟨hfront,rfl⟩ := List.append_inj hitems (by simp [hlen])
    have hinj : Function.Injective (Except.ok : Token → Except Error Token) :=
      fun _ _ h => Except.ok.inj h
    rwa [hinj.list_map hfront]
  · intro h
    exact ⟨front,rest,rfl,rfl,h⟩

end Language

def Scan.stop? (s : Scan) (env : Environment) : List (Except Error Token) → Option Error
  | [] =>
    match s.stage.pending? with
    | none => some ⟨.unexpectedEnd s.expected, s.lastEnd⟩
    | some _ => (s.stray? env).map Lexeme.notDefined
  | .error e :: _ => some e
  | .ok token :: _ =>
    match s.next token with
    | none => some (.located (.unexpectedToken token.text s.expected) token.position)
    | some _ => (s.stray? env).map Lexeme.notDefined

namespace Language
variable {env : Environment} {front : List Token} {rest : List (Except Error Token)} {s : Scan}

theorem followers_eq (h : Scan.all front = some s) : followers front = s.expected := by
  have hfilter : Terminal.all.filter (· ∈ s.stage.expects) = s.stage.expects := by
    cases s.stage <;> rfl
  unfold followers Scan.expected
  simp only [legal_iff h, hfilter]

theorem endsStray_iff (h : Scan.all front = some s) {identifier : Lexeme .identifier} :
    EndsStray env front identifier ↔ s.stray? env = some identifier := by
  constructor
  · rintro ⟨clauses,last,rfl,hu,hd,hc⟩
    rw [Scan.all_clauses] at h
    cases h
    simp only [Scan.stray?, Stage.pending?_stage, Option.bind_some, Clause.stray?_eq_some_iff]
    refine ⟨hu,fun hmem => ?_⟩
    rcases Clause.mem_declared_foldl.mp hmem with hold | ⟨c,hm,hb⟩
    · exact hd hold
    · exact hc c hm hb
  · intro hs
    obtain ⟨clause,hp,hclause⟩ := Option.bind_eq_some_iff.mp hs
    obtain ⟨hu,hd⟩ := Clause.stray?_eq_some_iff.mp hclause
    refine ⟨s.done,clause,?_,hu,?_,?_⟩
    · rw [← Scan.tokens_of_all h, Scan.tokens, Stage.eq_stage_of_pending? hp, Stage.tokens_stage]
    · intro hold
      exact hd (Clause.mem_declared_foldl.mpr (Or.inl hold))
    · intro c hc hb
      exact hd (Clause.mem_declared_foldl.mpr (Or.inr ⟨c,hc,hb⟩))

theorem stop?_of_stops (h : Scan.all front = some s) {e : Error} (hstops : Stops env front rest e) :
    s.stop? env rest = some e := by
  cases hstops with
  | error e rest => rfl
  | token token rest illegal =>
    cases hn : s.next token with
    | none =>
      rw [followers_eq h]
      simp [Scan.stop?, hn, Error.located]
    | some s' => exact absurd ((legal_token_iff h).mpr ⟨s',hn⟩) illegal
  | finish illegal =>
    cases hp : s.stage.pending? with
    | none =>
      rw [followers_eq h, ← Scan.tokens_of_all h]
      simp [Scan.stop?, hp, Scan.lastEnd]
    | some c => exact absurd ((legal_end_iff h).mpr ⟨c,hp⟩) illegal
  | @stray rest t identifier next legal undeclared =>
    have hstray := (endsStray_iff h).mp undeclared
    cases rest with
    | nil =>
      cases next
      obtain ⟨c,hp⟩ := (legal_end_iff h).mp legal
      simp [Scan.stop?, hp, hstray, Lexeme.notDefined, Error.located]
    | cons item rest =>
      cases item with
      | error error => cases next
      | ok token =>
        cases next
        obtain ⟨s',hn⟩ := (legal_token_iff h).mp legal
        simp [Scan.stop?, hn, hstray, Lexeme.notDefined, Error.located]

theorem stops_of_stop? (h : Scan.all front = some s) {e : Error}
    (hstop : s.stop? env rest = some e) : Stops env front rest e := by
  cases rest with
  | nil =>
    cases hp : s.stage.pending? with
    | none =>
      simp only [Scan.stop?, hp, Option.some.injEq] at hstop
      rw [← hstop, ← followers_eq h, Scan.lastEnd, Scan.tokens_of_all h]
      refine .finish fun legal => ?_
      obtain ⟨c,hc⟩ := (legal_end_iff h).mp legal
      rw [hp] at hc
      cases hc
    | some c =>
      simp only [Scan.stop?, hp] at hstop
      obtain ⟨identifier,hs,rfl⟩ := Option.map_eq_some_iff.mp hstop
      exact .stray rfl ((legal_end_iff h).mpr ⟨c,hp⟩) ((endsStray_iff h).mpr hs)
  | cons item rest =>
    cases item with
    | error error =>
      obtain rfl : error = e := Option.some.inj hstop
      exact .error error rest
    | ok token =>
      cases hn : s.next token with
      | none =>
        simp only [Scan.stop?, hn, Option.some.injEq] at hstop
        rw [← hstop, ← followers_eq h]
        refine .token token rest fun legal => ?_
        obtain ⟨s',hs'⟩ := (legal_token_iff h).mp legal
        rw [hn] at hs'
        cases hs'
      | some s' =>
        simp only [Scan.stop?, hn] at hstop
        obtain ⟨identifier,hs,rfl⟩ := Option.map_eq_some_iff.mp hstop
        exact .stray rfl ((legal_token_iff h).mpr ⟨s',hn⟩) ((endsStray_iff h).mpr hs)

/-- Reading stops exactly where, and with what, the clauses read so far make it stop. -/
theorem stops_iff (h : Scan.all front = some s) {e : Error} :
    Stops env front rest e ↔ s.stop? env rest = some e :=
  ⟨stop?_of_stops h,stops_of_stop? h⟩

theorem outcome_of_stop? {e : Error} (h : s.stop? env rest = some e) :
    s.outcome env rest = (.failed e, s.environment env) := by
  cases rest with
  | nil =>
    unfold Scan.outcome
    cases hp : s.stage.pending? with
    | none =>
      simp only [Scan.stop?, hp, Option.some.injEq] at h
      rw [← h]
    | some c =>
      simp only [Scan.stop?, hp] at h
      obtain ⟨identifier,hs,rfl⟩ := Option.map_eq_some_iff.mp h
      rw [hs]
  | cons item rest =>
    cases item with
    | error error =>
      cases h
      rfl
    | ok token =>
      unfold Scan.outcome
      cases hn : s.next token with
      | none =>
        simp only [Scan.stop?, hn, Option.some.injEq] at h
        rw [← h]
      | some s' =>
        simp only [Scan.stop?, hn] at h
        obtain ⟨identifier,hs,rfl⟩ := Option.map_eq_some_iff.mp h
        rw [hs]

theorem outcome_of_stop?_nil (h : s.stop? env [] = none) :
    ∃ program after, s.outcome env [] = (.accepted (.program program), after) := by
  unfold Scan.outcome
  cases hp : s.stage.pending? with
  | none => simp [Scan.stop?, hp] at h
  | some c =>
    have hs : s.stray? env = none := by simpa [Scan.stop?, hp] using h
    rw [hs]
    exact ⟨_,_,rfl⟩

theorem outcome_of_stop?_cons {item : Except Error Token} (h : s.stop? env (item :: rest) = none) :
    ∃ token s', item = .ok token ∧ s.next token = some s' ∧
      s.outcome env (item :: rest) = s'.outcome env rest := by
  cases item with
  | error error => cases h
  | ok token =>
    cases hn : s.next token with
    | none => simp [Scan.stop?, hn] at h
    | some s' =>
      have hs : s.stray? env = none := by simpa [Scan.stop?, hn] using h
      refine ⟨token,s',rfl,hn,?_⟩
      rw [Scan.outcome]
      simp only [hn, hs]

theorem not_stopsAt_length (h : Scan.all front = some s) (hstop : s.stop? env rest = none)
    (e : Error) : ¬ StopsAt env (front.map .ok ++ rest) front.length e := by
  rw [stopsAt_length, stops_iff h, hstop]
  simp

theorem StopsAt.le_length {items : List (Except Error Token)} {k : ℕ} {e : Error}
    (h : StopsAt env items k e) : k ≤ items.length := by
  obtain ⟨front,rest,rfl,rfl,_⟩ := h
  simp

theorem all_concat (h : Scan.all front = some s) {token : Token} {s' : Scan}
    (hn : s.next token = some s') : Scan.all (front ++ [token]) = some s' := by
  rw [Scan.all_append, h]
  simp [hn]

theorem firstStop_of_stop? (h : Scan.all front = some s) {e : Error}
    (hstop : s.stop? env rest = some e)
    (hbefore : ∀ j < front.length, ∀ e, ¬ StopsAt env (front.map .ok ++ rest) j e) :
    FirstStop env (front.map .ok ++ rest) front.length e ∧
      ∀ other, StopsAt env (front.map .ok ++ rest) front.length other → other = e := by
  refine ⟨⟨stopsAt_length.mpr ((stops_iff h).mpr hstop),hbefore⟩,fun other hother => ?_⟩
  have hsome := (stops_iff h).mp (stopsAt_length.mp hother)
  exact Option.some.inj (hsome.symm.trans hstop)

/-- From any place before the first stop on, reading fails at the first stop or accepts. -/
theorem outcome_cases (rest : List (Except Error Token)) {front : List Token} {s : Scan}
    (h : Scan.all front = some s)
    (hbefore : ∀ j < front.length, ∀ e, ¬ StopsAt env (front.map .ok ++ rest) j e) :
    (∃ k e after, s.outcome env rest = (.failed e, after) ∧
      FirstStop env (front.map .ok ++ rest) k e ∧
      ∀ other, StopsAt env (front.map .ok ++ rest) k other → other = e) ∨
    (∃ program after, s.outcome env rest = (.accepted (.program program), after)) ∧
      ∀ k e, ¬ StopsAt env (front.map .ok ++ rest) k e := by
  induction rest generalizing front s with
  | nil =>
    cases hstop : s.stop? env [] with
    | some e =>
      exact Or.inl ⟨front.length,e,_,outcome_of_stop? hstop,firstStop_of_stop? h hstop hbefore⟩
    | none =>
      refine Or.inr ⟨outcome_of_stop?_nil hstop,fun k e hk => ?_⟩
      have hle := hk.le_length
      simp only [List.append_nil, List.length_map] at hle
      rcases Nat.lt_or_eq_of_le hle with hlt | rfl
      · exact hbefore k hlt e hk
      · exact not_stopsAt_length h hstop e hk
  | cons item rest ih =>
    cases hstop : s.stop? env (item :: rest) with
    | some e =>
      exact Or.inl ⟨front.length,e,_,outcome_of_stop? hstop,firstStop_of_stop? h hstop hbefore⟩
    | none =>
      have hhere := not_stopsAt_length h hstop
      obtain ⟨token,s',rfl,hn,houtcome⟩ := outcome_of_stop?_cons hstop
      have hitems : front.map .ok ++ .ok token :: rest = (front ++ [token]).map .ok ++ rest := by
        simp
      rw [houtcome, hitems]
      rw [hitems] at hbefore hhere
      refine ih (all_concat h hn) fun j hj e => ?_
      rw [List.length_append, List.length_singleton] at hj
      rcases Nat.lt_or_eq_of_le (Nat.le_of_lt_succ hj) with hlt | rfl
      · exact hbefore j hlt e
      · exact hhere e

theorem outcome_failed_iff {items : List (Except Error Token)} {e : Error} :
    (Scan.outcome env {} items).1 = .failed e ↔ ∃ k, FirstStop env items k e := by
  have hall : Scan.all [] = some {} := rfl
  rcases outcome_cases items hall (fun j hj => absurd hj (Nat.not_lt_zero j)) with
    ⟨k,e',after,houtcome,hfirst,hunique⟩ | ⟨⟨program,after,houtcome⟩,hnone⟩
  · rw [houtcome]
    constructor
    · intro h
      cases h
      exact ⟨k,hfirst⟩
    · rintro ⟨k',hstop,hleast⟩
      rcases Nat.lt_trichotomy k k' with hlt | rfl | hlt
      · exact absurd hfirst.1 (hleast k hlt e')
      · rw [hunique e hstop]
      · exact absurd hstop (hfirst.2 k' hlt e)
  · rw [houtcome]
    constructor
    · intro h
      cases h
    · rintro ⟨k,hstop,_⟩
      exact absurd hstop (hnone k e)

theorem toProgram_outcome {items : List (Except Error Token)} {e : Error} :
    (Scan.outcome env {} items).1.toProgram = .error e ↔
      (Scan.outcome env {} items).1 = .failed e := by
  have hall : Scan.all [] = some {} := rfl
  rcases outcome_cases items hall (fun j hj => absurd hj (Nat.not_lt_zero j)) with
    ⟨k,e',after,houtcome,_⟩ | ⟨⟨program,after,houtcome⟩,_⟩
  · rw [houtcome]
    simp [Outcome.toProgram]
  · rw [houtcome]
    simp [Outcome.toProgram, Fragment.toProgram]

theorem Stops.head {item : Except Error Token} {more : List (Except Error Token)} {e : Error}
    (h : Stops env front (item :: rest) e) : Stops env front (item :: more) e := by
  cases h with
  | error => exact .error _ _
  | token token _ illegal => exact .token token _ illegal
  | stray next legal undeclared =>
    have hahead : ahead (item :: more) = ahead (item :: rest) := by cases item <;> rfl
    exact .stray (hahead.trans next) legal undeclared

/-- Whether reading stops at an item does not depend on the items after it. -/
theorem StopsAt.of_take {items other : List (Except Error Token)} {k : ℕ} {e : Error}
    (h : StopsAt env items k e) (hk : k < items.length)
    (htake : items.take (k + 1) = other.take (k + 1)) : StopsAt env other k e := by
  obtain ⟨front,rest,rfl,rfl,hstops⟩ := h
  cases rest with
  | nil => simp at hk
  | cons item rest =>
    have hother : other = front.map .ok ++ item :: other.drop (front.length + 1) := by
      nth_rewrite 1 [← List.take_append_drop (front.length + 1) other]
      rw [← htake]
      simp [List.take_append]
    rw [hother]
    exact stopsAt_length.mpr hstops.head

theorem FirstStop.of_take {items other : List (Except Error Token)} {k : ℕ} {e : Error}
    (h : FirstStop env items k e) (hk : k < items.length) (hother : k < other.length)
    (htake : items.take (k + 1) = other.take (k + 1)) : FirstStop env other k e := by
  refine ⟨h.1.of_take hk htake,fun j hj e' hj' => ?_⟩
  refine h.2 j hj e' (hj'.of_take (Nat.lt_trans hj hother) ?_)
  have hle : j + 1 ≤ k + 1 := by omega
  rw [← Nat.min_eq_left hle, ← List.take_take, ← List.take_take, htake]

theorem parse_congr {p : Parser} {feed feed' : Feed} (h : p.drive feed env = p.drive feed' env) :
    p.parse feed env = p.parse feed' env := by
  simp only [Parser.parse, h]

/-- What follows the item where reading stops first is not pulled. -/
theorem FirstStop.drive_eq {items : List (Except Error Token)} {k : ℕ} {e : Error}
    (h : FirstStop env items k e) (hk : k < items.length) (announced : Bool)
    (more : List (Except Error Token)) :
    reader.drive ⟨items.take (k + 1) ++ more, announced⟩ env =
      reader.drive ⟨items.take (k + 1), announced⟩ env := by
  have hlen : (items.take (k + 1)).length = k + 1 := List.length_take_of_le hk
  have hfailed : ∀ more,
      (reader.drive ⟨items.take (k + 1) ++ more, announced⟩ env).value.1 = .failed e := by
    intro more
    have htake : items.take (k + 1) = (items.take (k + 1) ++ more).take (k + 1) := by
      rw [List.take_append_of_le_length (by omega), List.take_take, Nat.min_self]
    have hfirst := h.of_take hk (by simp only [List.length_append]; omega) htake
    rw [value_drive_reader]
    exact outcome_failed_iff.mpr ⟨k,hfirst⟩
  have hne : items.take (k + 1) ≠ [] := by
    intro hnil
    rw [hnil] at hlen
    cases hlen
  obtain ⟨other,hother⟩ : ∃ other : Error, e ≠ other := by
    by_cases heq : e = ⟨.io "", none⟩
    · exact ⟨⟨.io "-", none⟩,by rw [heq]; decide⟩
    · exact ⟨_,heq⟩
  refine Parser.drive_append hne (fun more => ?_) other ?_ more
  · rw [hfailed more]
    simp
  · rw [hfailed]
    simpa using hother

/-- A parse fails with an error exactly if reading first stops with it at some item, and then
nothing after this item plays any part in the parse. -/
theorem parse_error_iff_firstStop : ∃ p, parser.value = .ok p ∧
    ∀ (items : List (Except Error Token)) (announced : Bool) (env : Environment),
    (∀ e, (p.parse ⟨items, announced⟩ env).value.1 = .error e ↔ ∃ k, FirstStop env items k e) ∧
    (∀ k e, FirstStop env items k e → k < items.length → ∀ more,
      p.parse ⟨items.take (k + 1) ++ more, announced⟩ env = p.parse ⟨items, announced⟩ env) := by
  refine ⟨reader,parser_value,fun items announced env => ⟨fun e => ?_,?_⟩⟩
  · rw [← outcome_failed_iff, ← toProgram_outcome, value_parse_reader]
    cases (Scan.outcome env {} items).1.toProgram <;> simp
  · intro k e h hk more
    have hitems := h.drive_eq hk announced (items.drop (k + 1))
    rw [List.take_append_drop] at hitems
    exact parse_congr ((h.drive_eq hk announced more).trans hitems.symm)

/-- An undeclared name at the end of the items stops reading there, and the clause has to be
legal: an operator after the name comes first. -/
theorem firstStop_print : ∃ p, parser.value = .ok p ∧
    (∃ k, FirstStop {} [.ok ⟨.printKeyword, "print", .start⟩, .ok ⟨.identifier, "a", ⟨1, 7, 6⟩⟩] k
      ⟨.identifierNotDefined "a", some ⟨1, 7, 6⟩⟩) ∧
    ∃ k, FirstStop {} [.ok ⟨.printKeyword, "print", .start⟩, .ok ⟨.identifier, "a", ⟨1, 7, 6⟩⟩,
        .ok ⟨.assignOperator, "=", ⟨1, 9, 8⟩⟩] k
      ⟨.unexpectedToken "=" ["PrintKeyword", "LetKeyword", "EOF"], some ⟨1, 9, 8⟩⟩ := by
  obtain ⟨p,hp,hparse⟩ := parse_error_iff_firstStop
  obtain rfl : reader = p := Except.ok.inj (parser_value.symm.trans hp)
  refine ⟨reader,hp,?_,?_⟩
  · refine ((hparse _ false {}).1 _).mp ?_
    rw [value_parse_reader]
    rfl
  · refine ((hparse _ false {}).1 _).mp ?_
    rw [value_parse_reader]
    rfl

end Language

end LetPrint
