import LetPrint.Proofs.Halting

/-! # A parser never meets a fault

All along a parse the states are a path through the merged automaton, with one value for each of its
edges. So whatever the table asks for can be done: a right-hand side that is to be reduced lies at
the end of the path, and the state before it was left by an item that waits for the nonterminal.
-/
namespace LetPrint

namespace Grammar
variable {g : Grammar}

/-- The end of input is used in no production. -/
def EndFree (g : Grammar) : Prop := ∀ r ∈ g.productions, Symbol.terminal .endOfInput ∉ r.rhs

instance (g : Grammar) : Decidable g.EndFree :=
  inferInstanceAs (Decidable (∀ r ∈ g.productions, _))

theorem exists_item_of_edge {state target : ℕ} {x : Symbol}
    (he : (g.lalr.edgesAt state).lookup x = some target) :
    ∃ i ∈ g.lalr.itemsAt state, g.next i = some x := by
  obtain ⟨items,hm,hn,hx,_⟩ := lookup_edgesAt.mp he
  obtain ⟨i,hi,hix⟩ := mem_nextSymbols.mp hx
  exact ⟨i,mem_itemsAt.mpr ⟨items,hm,hn,hi⟩,hix⟩

theorem EndFree.edge_ne (h : g.EndFree) {state target : ℕ} {x : Symbol}
    (he : (g.lalr.edgesAt state).lookup x = some target) : x ≠ .terminal .endOfInput := by
  rintro rfl
  obtain ⟨i,hi,hix⟩ := exists_item_of_edge he
  exact h _ (production_mem (validItem_of_mem_itemsAt hi).1) (List.mem_of_getElem? hix)

section Paths
variable {states : List ℕ} {symbols : List Symbol}

theorem Path.length_eq (h : g.Path states symbols) : states.length = symbols.length + 1 := by
  induction h with
  | start => rfl
  | step _ _ ih => simp_all

theorem Path.forall_lt (h : g.Path states symbols) : ∀ q ∈ states, q < g.lalr.states.length := by
  induction h with
  | start =>
    intro q hq
    obtain rfl := List.mem_singleton.mp hq
    obtain ⟨items,hm,hn,_⟩ := mem_itemsAt.mp (start_mem_itemsAt (g := g))
    rw [← hn]
    simpa [Automaton.merged] using numberOf_lt hm
  | step _ edge ih =>
    intro q hq
    rcases List.mem_cons.mp hq with rfl | hq
    · exact edge_lt edge
    · exact ih q hq

/-- An item that has read its whole production has left a state that goes on with the
nonterminal. -/
theorem Path.exists_goto (h : g.Path states symbols) {n : ℕ} {t : Terminal} (hn : n ≠ 0)
    (hi : ⟨n, (g.rhs n).length, t⟩ ∈ g.lalr.itemsAt (states.headD 0)) :
    ∃ target, (g.lalr.edgesAt ((states.drop (g.rhs n).length).headD 0)).lookup
      (.nonTerminal (g.production n).lhs) = some target := by
  obtain ⟨_,_,u,hu⟩ := h.read hi
  rcases initial_cases hu rfl with ⟨_,he⟩ | ⟨i,hi,hpredicted⟩
  · cases he
    exact absurd rfl hn
  · obtain ⟨a,hnext,_,ha,_⟩ := mem_predictions.mp hpredicted
    obtain ⟨_,rfl⟩ := mem_productionsOf.mp ha
    obtain ⟨target,ht,_⟩ := exists_edge hi hnext
    exact ⟨target,ht⟩

/-- What an item has read takes up that many states above the first. -/
theorem Path.dot_lt_length (h : g.Path states symbols) {n d : ℕ} {t : Terminal}
    (hi : ⟨n, d, t⟩ ∈ g.lalr.itemsAt (states.headD 0)) : d < states.length := by
  obtain ⟨htake,_,_⟩ := h.read hi
  have hread := congrArg List.length htake
  have hvalid : d ≤ (g.rhs n).length := (validItem_of_mem_itemsAt hi).2
  rw [List.length_reverse, List.length_take, List.length_take] at hread
  rw [h.length_eq]
  omega

end Paths

end Grammar

namespace Parser
variable {p : Parser} {c : Config}

/-- Where a parse of a feed begins, unless the feed begins with an error. -/
def entry (feed : Feed) (env : Environment) : Option Config :=
  match feed.items with
  | [] => some (initial env none feed)
  | .ok token :: rest => some (initial env (some token) { feed with items := rest })
  | .error _ :: _ => none

theorem entry_start (tokens : List Token) (announced : Bool) (env : Environment) :
    entry ⟨tokens.map .ok, announced⟩ env = some (start tokens announced env) := by
  cases tokens <;> rfl

/-- The configurations that a parse of a feed goes through. -/
def Visits (p : Parser) (feed : Feed) (env : Environment) (c : Config) : Prop :=
  ∃ first, entry feed env = some first ∧ Relation.ReflTransGen p.Next first c

theorem entry_eq_initial {feed : Feed} {env : Environment} {first : Config}
    (h : entry feed env = some first) : ∃ lookahead rest, first = initial env lookahead rest := by
  unfold entry at h
  split at h
  · cases h
    exact ⟨_,_,rfl⟩
  · cases h
    exact ⟨_,_,rfl⟩
  · cases h

structure Sound (p : Parser) (c : Config) : Prop where
  aligned : c.Aligned
  path : ∃ symbols, p.grammar.Path c.states symbols

/-- Whatever the table asks for can be done. -/
structure Faultless (p : Parser) (c : Config) : Prop where
  shift : ∀ state, p.table.action c.top c.terminal = some (.shift state) →
    ∃ token, c.lookahead = some token
  reduce : ∀ n, p.table.action c.top c.terminal = some (.reduce n) →
    (p.grammar.rhs n).length ≤ c.values.length ∧ (p.grammar.rhs n).length < c.states.length ∧
    ∃ state, p.table.goto ((c.states.drop (p.grammar.rhs n).length).headD 0)
      (p.grammar.production n).lhs = some state
  accept : p.table.action c.top c.terminal = some .accept → c.values ≠ []

/-- What a parse may fail on: a terminal without an action, an error in the feed, a reduction. -/
def Blames (p : Parser) (c : Config) (error : Error) (env : Environment) : Prop :=
  p.table.action c.top c.terminal = none ∧ error = p.unexpected c ∧ env = c.env ∨
  (∃ state, p.table.action c.top c.terminal = some (.shift state)) ∧
    (∃ rest, c.feed.items = .error error :: rest) ∧ env = c.env ∨
  ∃ n, p.table.action c.top c.terminal = some (.reduce n) ∧
    (p.reduction n c.env (c.values.take (p.grammar.rhs n).length).reverse).value =
      (.error error, env)

section Built
variable (hb : Table.build p.grammar = .ok p.table)
include hb

theorem Sound.next (h : p.Sound c) {c' : Config} (hnext : p.Next c c') : p.Sound c' :=
  ⟨hnext.aligned h.aligned,hnext.path hb h.path⟩

theorem Visits.sound {feed : Feed} {env : Environment} (h : p.Visits feed env c) : p.Sound c := by
  obtain ⟨first,hfirst,hsteps⟩ := h
  obtain ⟨lookahead,rest,rfl⟩ := entry_eq_initial hfirst
  induction hsteps with
  | refl => exact ⟨rfl,[],.start⟩
  | tail _ hnext ih => exact ih.next hb hnext

theorem Sound.forall_lt (h : p.Sound c) : ∀ q ∈ c.states, q < p.table.stateCount := by
  obtain ⟨symbols,hpath⟩ := h.path
  rw [Table.stateCount_of_build hb]
  exact hpath.forall_lt

theorem Sound.faultless (h : p.Sound c) (hend : p.grammar.EndFree) : p.Faultless c := by
  obtain ⟨haligned,symbols,hpath⟩ := h
  unfold Config.Aligned at haligned
  constructor
  · intro state ha
    -- what is shifted stands in a production, where the end of input never does
    have hne := hend.edge_ne (Table.edge_of_action_shift hb ha)
    cases hl : c.lookahead with
    | some token => exact ⟨token,rfl⟩
    | none =>
      rw [Config.terminal, hl] at hne
      exact absurd rfl hne
  · intro n ha
    obtain ⟨hn,hitem⟩ := Table.item_of_action_reduce hb ha
    have hroom := hpath.dot_lt_length hitem
    obtain ⟨target,ht⟩ := hpath.exists_goto hn hitem
    refine ⟨by omega,hroom,target,?_⟩
    rw [Table.goto_eq_lookup hb, ht]
  · intro ha hempty
    have hroom := hpath.dot_lt_length (Table.item_of_action_accept hb ha).2
    rw [hempty, List.length_nil] at haligned
    omega

end Built

theorem Faultless.blames (h : p.Faultless c) {error : Error} {env : Environment}
    (hstep : (p.step c).value = .halted (.failed error) env) : p.Blames c error env := by
  have hdoes := does_step p c
  rw [hstep] at hdoes
  cases hdoes with
  | unexpected ha => exact Or.inl ⟨ha,rfl,rfl⟩
  | shiftPastEnd ha hl =>
    obtain ⟨token,ht⟩ := h.shift _ ha
    rw [hl] at ht
    cases ht
  | pullError ha _ hi => exact Or.inr (Or.inl ⟨⟨_,ha⟩,⟨_,hi⟩,rfl⟩)
  | underflow ha hshort =>
    obtain ⟨hv,hs,_⟩ := h.reduce _ ha
    omega
  | reduceError ha _ _ hr => exact Or.inr (Or.inr ⟨_,ha,hr⟩)
  | noGoto ha _ _ _ hg =>
    obtain ⟨_,_,state,ht⟩ := h.reduce _ ha
    rw [hg] at ht
    cases ht
  | emptyStack ha hv => exact absurd hv (h.accept ha)

theorem ends_of_run {shifts : ℕ} {result : Outcome × Environment}
    (h : (p.run shifts c).value = result) (hne : result.1 ≠ .stalled) : p.Ends c result := by
  rcases run_cases (p := p) shifts c with hends | ⟨hstalled,_⟩
  · rwa [h] at hends
  · rw [h] at hstalled
    exact absurd hstalled hne

/-- A failed parse fails at the front of the feed or at a configuration that it visits. -/
theorem visits_of_drive_failed {feed : Feed} {env after : Environment} {error : Error}
    (h : (p.drive feed env).value = (.failed error, after)) :
    (∃ rest, feed.items = .error error :: rest) ∧ after = env ∨
      ∃ c, p.Visits feed env c ∧ (p.step c).value = .halted (.failed error) after := by
  rw [value_drive] at h
  split at h
  · next hi =>
    obtain ⟨last,hsteps,hhalted⟩ := ends_of_run h (by simp)
    exact Or.inr ⟨last,⟨_,by simp only [entry, hi],hsteps⟩,hhalted⟩
  · next token rest hi =>
    obtain ⟨last,hsteps,hhalted⟩ := ends_of_run h (by simp)
    exact Or.inr ⟨last,⟨_,by simp only [entry, hi],hsteps⟩,hhalted⟩
  · next first rest hi =>
    cases h
    exact Or.inl ⟨⟨rest,hi⟩,rfl⟩

/-- A parser with a table never meets a fault, whatever its feed and its reductions: in all
configurations that a parse goes through the states are a path of the automaton with one value for
each edge, and what the table asks for can be done. So a failed parse has met an error in the feed,
a reduction that failed or a terminal without an action. -/
theorem parse_faultless {g : Grammar} {table : Table} (hb : Table.build g = .ok table)
    (hend : g.EndFree) (reduction : ℕ → Reduction) (feed : Feed) (env : Environment) :
    (∀ state t target, table.action state t = some (.shift target) → target < table.stateCount) ∧
    (∀ state a target, table.goto state a = some target → target < table.stateCount) ∧
    (∀ c, (mk g table reduction).Visits feed env c →
      c.states.length = c.values.length + 1 ∧ (∃ symbols, g.Path c.states symbols) ∧
      (∀ q ∈ c.states, q < table.stateCount) ∧ (mk g table reduction).Faultless c) ∧
    ∀ error after, ((mk g table reduction).drive feed env).value = (.failed error, after) →
      (∃ rest, feed.items = .error error :: rest) ∧ after = env ∨
      ∃ c, (mk g table reduction).Visits feed env c ∧
        (mk g table reduction).Blames c error after := by
  have hsound : ∀ c, (mk g table reduction).Visits feed env c → (mk g table reduction).Sound c :=
    fun c hc => Visits.sound (p := mk g table reduction) hb hc
  have hfaultless : ∀ c, (mk g table reduction).Visits feed env c →
      (mk g table reduction).Faultless c :=
    fun c hc => Sound.faultless (p := mk g table reduction) hb (hsound c hc) hend
  refine ⟨fun _ _ _ ha => Table.action_lt hb ha,fun _ _ _ hg => Table.goto_lt hb hg,?_,?_⟩
  · intro c hc
    have h := hsound c hc
    exact ⟨h.aligned,h.path,Sound.forall_lt (p := mk g table reduction) hb h,hfaultless c hc⟩
  · intro error after hfailed
    rcases visits_of_drive_failed hfailed with hfront | ⟨c,hc,hstep⟩
    · exact Or.inl hfront
    · exact Or.inr ⟨c,hc,(hfaultless c hc).blames hstep⟩

/-- One of these parses is that of two names with an error behind them. -/
theorem parse_faultless_names : ∃ table, Table.build names = .ok table ∧ names.EndFree ∧
    let feed : Feed := ⟨[.ok ⟨.identifier, "a", .start⟩, .ok ⟨.identifier, "b", .start⟩,
      .error (.located (.unrecognisedToken "?") .start)], false⟩
    (∃ c, (mk names table declareOnce).Visits feed {} c) ∧
    ∀ c, (mk names table declareOnce).Visits feed {} c → c.Aligned ∧
      (∃ symbols, names.Path c.states symbols) ∧ (mk names table declareOnce).Faultless c := by
  have hbuilt : (Table.build names).isOk = true := by decide +kernel
  have hend : names.EndFree := by decide
  cases hb : Table.build names with
  | error conflict =>
    rw [hb] at hbuilt
    cases hbuilt
  | ok table =>
    refine ⟨table,rfl,hend,⟨_,_,rfl,Relation.ReflTransGen.refl⟩,fun c hc => ?_⟩
    obtain ⟨_,_,hall,_⟩ := parse_faultless hb hend declareOnce _ {}
    obtain ⟨haligned,hpath,_,hfaultless⟩ := hall c hc
    exact ⟨haligned,hpath,hfaultless⟩

end Parser

end LetPrint
