import LetPrint.Proofs.Tables

/-! # A table says exactly what the items ask for

The items of a merged state ask for actions on terminals. Demands are entered one by one, the same
demand as often as it comes up, and the first that differs from what stands there ends the
construction. Rows are made in the order of the states. So there is a table exactly if no state asks
for two actions on one terminal, and otherwise the first state that does is the one reported.
-/
namespace LetPrint

namespace Grammar
variable {g : Grammar} {state : ℕ} {t : Terminal}

/-- What the items of a merged state ask for on a terminal: to shift a terminal behind a dot, to
reduce a complete production on its lookahead, to accept at the end of input when production zero is
complete. -/
inductive Asks (g : Grammar) (state : ℕ) : Terminal → Action → Prop
  | shift {i : Item} {t : Terminal} {target : ℕ} (hi : i ∈ g.lalr.itemsAt state)
    (hnext : g.next i = some (.terminal t))
    (hedge : (g.lalr.edgesAt state).lookup (.terminal t) = some target) :
    g.Asks state t (.shift target)
  | reduce {i : Item} (hi : i ∈ g.lalr.itemsAt state) (hnext : g.next i = none)
    (hp : 0 < i.production) : g.Asks state i.lookahead (.reduce i.production)
  | accept {i : Item} (hi : i ∈ g.lalr.itemsAt state) (hnext : g.next i = none)
    (hp : i.production = 0) (hlook : i.lookahead = .endOfInput) :
    g.Asks state .endOfInput .accept

/-- A state asks for two different actions on a terminal. -/
def Clashes (g : Grammar) (state : ℕ) : Prop :=
  ∃ t a b, g.Asks state t a ∧ g.Asks state t b ∧ a ≠ b

theorem asks_iff {a : Action} : g.Asks state t a ↔
    (t, a) ∈ (g.lalr.itemsAt state).filterMap (Table.demand g (g.lalr.edgesAt state)) := by
  rw [List.mem_filterMap]
  constructor
  · rintro (⟨hi,hnext,hedge⟩ | ⟨hi,hnext,hp⟩ | ⟨hi,hnext,hp,hlook⟩)
    · exact ⟨_,hi,by simp [Table.demand, hnext, hedge]⟩
    · exact ⟨_,hi,by simp [Table.demand, hnext, Nat.ne_of_gt hp]⟩
    · exact ⟨_,hi,by simp [Table.demand, hnext, hp, hlook]⟩
  · rintro ⟨i,hi,hd⟩
    unfold Table.demand at hd
    split at hd
    · next s hs =>
      obtain ⟨n,hn,he⟩ := Option.map_eq_some_iff.mp hd
      cases he
      exact .shift hi hs hn
    · cases hd
    · next hnone =>
      split_ifs at hd with hp hlook
      · cases hd
        exact .accept hi hnone hp hlook
      · cases hd
        exact .reduce hi hnone (Nat.pos_of_ne_zero hp)

theorem not_clashes_of_forall (action : Terminal → Option Action)
    (h : ∀ t a, g.Asks state t a → action t = some a) : ¬ g.Clashes state := by
  rintro ⟨t,a,b,ha,hb,hne⟩
  exact hne (Option.some.inj ((h t a ha).symm.trans (h t b hb)))

theorem exists_asks_shift {i : Item} (hi : i ∈ g.lalr.itemsAt state)
    (hnext : g.next i = some (.terminal t)) : ∃ target, g.Asks state t (.shift target) := by
  obtain ⟨target,hedge,_⟩ := exists_edge hi hnext
  exact ⟨target,.shift hi hnext hedge⟩

end Grammar

namespace Table
variable {g : Grammar} {c : Conflict}

/-- A failed entry meets a demand that differs from an earlier one. -/
theorem enter_error {state : ℕ} {actions demands : List (Terminal × Action)}
    (h : enter state actions demands = .error c) : c.state = state ∧ c.existing ≠ c.wanted ∧
      (c.terminal, c.wanted) ∈ demands ∧
      (actions.lookup c.terminal = some c.existing ∨ (c.terminal, c.existing) ∈ demands) := by
  induction demands generalizing actions with
  | nil => cases h
  | cons demand rest ih =>
    obtain ⟨s,wanted⟩ := demand
    simp only [enter] at h
    cases hl : actions.lookup s with
    | none =>
      rw [hl] at h
      obtain ⟨hs,hne,hw,he⟩ := ih h
      refine ⟨hs,hne,List.mem_cons_of_mem _ hw,?_⟩
      rw [lookup_append_singleton hl, or_assoc] at he
      exact he.imp_right List.mem_cons.mpr
    | some existing =>
      simp only [hl] at h
      split_ifs at h with he
      · obtain ⟨hs,hne,hw,hex⟩ := ih h
        exact ⟨hs,hne,List.mem_cons_of_mem _ hw,hex.imp_right (List.mem_cons_of_mem _)⟩
      · cases h
        exact ⟨rfl,he,List.mem_cons_self,Or.inl hl⟩

theorem rowOf_error {state : ℕ} {items : List Item} {edges : List (Symbol × ℕ)}
    (h : rowOf g state items edges = .error c) :
    enter state [] (items.filterMap (demand g edges)) = .error c := by
  unfold rowOf at h
  cases he : enter state [] (items.filterMap (demand g edges)) with
  | error conflict =>
    rw [he] at h
    cases h
    rfl
  | ok actions =>
    rw [he] at h
    cases h

theorem rowsFrom_error {state : ℕ} {entries : List (List Item × List (Symbol × ℕ))}
    (h : rowsFrom g state entries = .error c) : ∃ k entry, entries[k]? = some entry ∧
      rowOf g (state + k) entry.1 entry.2 = .error c ∧
      ∀ j < k, ∀ before, entries[j]? = some before →
        ∃ row, rowOf g (state + j) before.1 before.2 = .ok row := by
  induction entries generalizing state with
  | nil => cases h
  | cons entry rest ih =>
    simp only [rowsFrom] at h
    cases hrow : rowOf g state entry.1 entry.2 with
    | error conflict =>
      rw [hrow] at h
      cases h
      exact ⟨0,entry,rfl,hrow,by simp⟩
    | ok row =>
      cases hrest : rowsFrom g (state + 1) rest with
      | ok rows =>
        rw [hrow, hrest] at h
        cases h
      | error conflict =>
        rw [hrow, hrest] at h
        cases h
        obtain ⟨k,found,hk,hfound,hearlier⟩ := ih hrest
        refine ⟨k + 1,found,hk,?_,?_⟩
        · rwa [show state + (k + 1) = state + 1 + k by omega]
        · intro j hj before hbefore
          cases j with
          | zero =>
            cases hbefore
            exact ⟨row,hrow⟩
          | succ j =>
            rw [show state + (j + 1) = state + 1 + j by omega]
            exact hearlier j (by omega) before hbefore

abbrev rowAt (g : Grammar) (state : ℕ) : Except Conflict Row :=
  rowOf g state (g.lalr.itemsAt state) (g.lalr.edgesAt state)

theorem getElem?_entries {state : ℕ} (h : state < g.lalr.states.length) :
    (g.lalr.states.zip g.lalr.edges)[state]? =
      some (g.lalr.itemsAt state, g.lalr.edgesAt state) := by
  have hedges : state < g.lalr.edges.length := by rwa [lalr_lengths]
  simp [Automaton.itemsAt, Automaton.edgesAt, h, hedges]

theorem build_error (h : build g = .error c) : ∃ state, rowAt g state = .error c ∧
    ∀ s < state, ∃ row, rowAt g s = .ok row := by
  unfold build ofAutomaton at h
  cases hr : rowsFrom g 0 (g.lalr.states.zip g.lalr.edges) with
  | ok rows =>
    rw [hr] at h
    cases h
  | error conflict =>
    rw [hr] at h
    cases h
    obtain ⟨k,entry,hk,hrow,hearlier⟩ := rowsFrom_error hr
    have hlt : k < g.lalr.states.length := by
      have hzip := (List.getElem?_eq_some_iff.mp hk).1
      rw [List.length_zip] at hzip
      omega
    rw [getElem?_entries hlt] at hk
    cases hk
    refine ⟨k,by simpa using hrow,fun s hs => ?_⟩
    obtain ⟨row,hrow⟩ := hearlier s hs _ (getElem?_entries (by omega))
    exact ⟨row,by simpa using hrow⟩

theorem not_clashes_of_rowAt {state : ℕ} {row : Row} (h : rowAt g state = .ok row) :
    ¬ g.Clashes state := by
  refine Grammar.not_clashes_of_forall (row.actions.lookup ·) fun t a ha => ?_
  exact (lookup_enter (rowOf_ok h).1).mpr (Or.inr (Grammar.asks_iff.mp ha))

/-- A conflict names two different demands of its state, and no earlier state has such. -/
theorem asks_of_build_error (h : build g = .error c) : c.existing ≠ c.wanted ∧
    g.Asks c.state c.terminal c.existing ∧ g.Asks c.state c.terminal c.wanted ∧
    ∀ s < c.state, ¬ g.Clashes s := by
  obtain ⟨state,hrow,hearlier⟩ := build_error h
  obtain ⟨rfl,hne,hwanted,hexisting⟩ := enter_error (rowOf_error hrow)
  refine ⟨hne,Grammar.asks_iff.mpr ?_,Grammar.asks_iff.mpr hwanted,fun s hs => ?_⟩
  · simpa using hexisting
  · obtain ⟨row,hok⟩ := hearlier s hs
    exact not_clashes_of_rowAt hok

variable {table : Table}

theorem action_eq_some_iff_asks (h : build g = .ok table) {state : ℕ} {t : Terminal} {a : Action} :
    table.action state t = some a ↔ g.Asks state t a := by
  rw [action_eq_some_iff h, Grammar.asks_iff, List.mem_filterMap]

theorem not_clashes_of_build (h : build g = .ok table) (state : ℕ) : ¬ g.Clashes state :=
  Grammar.not_clashes_of_forall (table.action state) fun _ _ ha => (action_eq_some_iff_asks h).mpr ha

theorem exists_build_iff : (∃ table, build g = .ok table) ↔ ∀ state, ¬ g.Clashes state := by
  constructor
  · rintro ⟨table,h⟩
    exact not_clashes_of_build h
  · intro h
    cases hb : build g with
    | ok table => exact ⟨table,rfl⟩
    | error c =>
      obtain ⟨hne,hexisting,hwanted,_⟩ := asks_of_build_error hb
      exact absurd ⟨_,_,_,hexisting,hwanted,hne⟩ (h c.state)

theorem eq_none_of_stateCount_le {state : ℕ} (hs : table.stateCount ≤ state) (t : Terminal)
    (a : NonTerminal) : table.action state t = none ∧ table.goto state a = none := by
  have hnone : table.rows[state]? = none := List.getElem?_eq_none hs
  simp [action, goto, hnone]

/-- A grammar has a table exactly if no state asks for two actions on one terminal. The table has
the demands of the items as its actions and the edges of the merged automaton as its gotos, and
nothing else. A conflict is one of the first state that has any, and it reports a terminal and two
different actions that this state asks for. -/
theorem build_says_what_items_ask (g : Grammar) :
    (∀ s t i, i ∈ g.lalr.itemsAt s → g.next i = some (.terminal t) →
      ∃ target, g.Asks s t (.shift target)) ∧
    ((∃ table, build g = .ok table) ↔ ∀ s, ¬ g.Clashes s) ∧
    (∀ table, build g = .ok table → table.stateCount = g.lalr.states.length ∧
      (∀ s t a, table.action s t = some a ↔ g.Asks s t a) ∧
      (∀ s a, table.goto s a = (g.lalr.edgesAt s).lookup (.nonTerminal a)) ∧
      ∀ s, table.stateCount ≤ s → ∀ t a, table.action s t = none ∧ table.goto s a = none) ∧
    ∀ c, build g = .error c →
      c.toError g = ⟨.grammarConflict c.state c.terminal.name
        (c.existing.describe g ++ " / " ++ c.wanted.describe g), none⟩ ∧
      c.existing ≠ c.wanted ∧ g.Asks c.state c.terminal c.existing ∧
      g.Asks c.state c.terminal c.wanted ∧ ∀ s < c.state, ¬ g.Clashes s := by
  refine ⟨fun _ _ _ => Grammar.exists_asks_shift,exists_build_iff,fun table hb => ?_,
    fun c hc => ⟨rfl,asks_of_build_error hc⟩⟩
  exact ⟨stateCount_of_build hb,fun s t a => action_eq_some_iff_asks hb,goto_eq_lookup hb,
    fun s hs t a => eq_none_of_stateCount_le hs t a⟩

/-- A name that may be a statement or an expression. -/
def twofold : Grammar :=
  ⟨.program, [⟨.program, [.nonTerminal .stmt]⟩, ⟨.program, [.nonTerminal .expr]⟩,
    ⟨.stmt, [.token .identifier]⟩, ⟨.expr, [.token .identifier]⟩]⟩

def single : Grammar := ⟨.program, [⟨.program, [.token .identifier]⟩]⟩

/-- After the name two reductions are asked for at the end of input; without the second reading
there is one, and no fourth state. -/
theorem build_twofold :
    (∃ c, build twofold = .error c ∧ c.state = 1 ∧ c.terminal = .endOfInput ∧
      twofold.Asks 1 .endOfInput c.existing ∧ twofold.Asks 1 .endOfInput c.wanted ∧
      c.existing ≠ c.wanted ∧ ¬ twofold.Clashes 0) ∧
    ∃ table, build single = .ok table ∧ single.Asks 1 .endOfInput (.reduce 1) ∧
      table.action 1 .endOfInput = some (.reduce 1) ∧ table.action 3 .endOfInput = none := by
  obtain ⟨_,_,_,hclash⟩ := build_says_what_items_ask twofold
  obtain ⟨_,_,htable,_⟩ := build_says_what_items_ask single
  have hfails : build twofold = .error ⟨1, .endOfInput, .reduce 3, .reduce 4⟩ := by decide +kernel
  obtain ⟨_,hne,hexisting,hwanted,hleast⟩ := hclash _ hfails
  have hbuilt : build single = .ok ⟨[⟨[(.token .identifier, .shift 1)], [(.program, 2)]⟩,
      ⟨[(.endOfInput, .reduce 1)], []⟩, ⟨[(.endOfInput, .accept)], []⟩]⟩ := by decide +kernel
  obtain ⟨_,hactions,_,hbeyond⟩ := htable _ hbuilt
  exact ⟨⟨_,hfails,rfl,rfl,hexisting,hwanted,hne,hleast 0 (by decide)⟩,
    _,hbuilt,(hactions 1 _ _).mp rfl,rfl,(hbeyond 3 (by decide) .endOfInput .program).1⟩

end Table

end LetPrint
