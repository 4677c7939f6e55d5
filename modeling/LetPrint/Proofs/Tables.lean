import LetPrint.Automaton.Table
import LetPrint.Proofs.Merged

/-! # What a table says

A table that could be built has an action exactly where an item of the state demands it, and its
gotos are the edges of the merged automaton.
-/
namespace LetPrint

namespace Table
variable {g : Grammar}

theorem lookup_append_singleton {actions : List (Terminal × Action)} {s t : Terminal}
    {a b : Action} (h : actions.lookup s = none) :
    (actions ++ [(s, b)]).lookup t = some a ↔ actions.lookup t = some a ∨ (t, a) = (s, b) := by
  by_cases hs : t = s
  · subst t
    simp [List.lookup_append, h, eq_comm]
  · have hb : (t == s) = false := beq_eq_false_iff_ne.mpr hs
    simp only [List.lookup_append, List.lookup_cons, hb, List.lookup_nil, Option.or_none,
      Prod.mk.injEq, hs, false_and, or_false]

/-- Entered demands are the only new actions, and none of them is lost. -/
theorem lookup_enter {state : ℕ} {demands actions entered : List (Terminal × Action)}
    (h : enter state actions demands = .ok entered) {t : Terminal} {a : Action} :
    entered.lookup t = some a ↔ actions.lookup t = some a ∨ (t, a) ∈ demands := by
  induction demands generalizing actions with
  | nil =>
    cases h
    simp
  | cons demand rest ih =>
    obtain ⟨s,wanted⟩ := demand
    simp only [enter] at h
    cases hl : actions.lookup s with
    | none =>
      rw [hl] at h
      rw [ih h, lookup_append_singleton hl, List.mem_cons, or_assoc]
    | some existing =>
      simp only [hl] at h
      split_ifs at h with he
      subst wanted
      rw [ih h, List.mem_cons]
      constructor
      · rintro (ha | ha)
        · exact Or.inl ha
        · exact Or.inr (Or.inr ha)
      · rintro (ha | ha | ha)
        · exact Or.inl ha
        · cases ha
          exact Or.inl hl
        · exact Or.inr ha

theorem rowOf_ok {state : ℕ} {items : List Item} {edges : List (Symbol × ℕ)} {row : Row}
    (h : rowOf g state items edges = .ok row) :
    enter state [] (items.filterMap (demand g edges)) = .ok row.actions ∧
      row.gotos = gotosOf edges := by
  unfold rowOf at h
  cases he : enter state [] (items.filterMap (demand g edges)) with
  | error conflict =>
    rw [he] at h
    cases h
  | ok actions =>
    rw [he] at h
    cases h
    exact ⟨rfl,rfl⟩

theorem rowsFrom_ok {state : ℕ} {entries : List (List Item × List (Symbol × ℕ))} {rows : List Row}
    (h : rowsFrom g state entries = .ok rows) : rows.length = entries.length ∧
      ∀ k items edges, entries[k]? = some (items, edges) →
        ∃ row, rows[k]? = some row ∧ rowOf g (state + k) items edges = .ok row := by
  induction entries generalizing state rows with
  | nil =>
    cases h
    exact ⟨rfl,by simp⟩
  | cons entry rest ih =>
    obtain ⟨items,edges⟩ := entry
    simp only [rowsFrom] at h
    cases hrow : rowOf g state items edges with
    | error conflict =>
      rw [hrow] at h
      cases h
    | ok row =>
      cases hrest : rowsFrom g (state + 1) rest with
      | error conflict =>
        rw [hrow, hrest] at h
        cases h
      | ok others =>
        rw [hrow, hrest] at h
        cases h
        obtain ⟨hlen,hrows⟩ := ih hrest
        refine ⟨by simp [hlen],?_⟩
        intro k its eds hk
        cases k with
        | zero =>
          simp only [List.getElem?_cons_zero, Option.some.injEq, Prod.mk.injEq] at hk
          obtain ⟨rfl,rfl⟩ := hk
          exact ⟨row,rfl,hrow⟩
        | succ k =>
          obtain ⟨found,hf,hr⟩ := hrows k its eds (by simpa using hk)
          refine ⟨found,by simpa using hf,?_⟩
          rwa [show state + (k + 1) = state + 1 + k by omega]

variable {table : Table}

theorem lalr_lengths : g.lalr.edges.length = g.lalr.states.length := by
  simp [Automaton.merged]

theorem rows_of_build (h : build g = .ok table) :
    table.rows.length = g.lalr.states.length ∧
      ∀ state < g.lalr.states.length, ∃ row, table.rows[state]? = some row ∧
        rowOf g state (g.lalr.itemsAt state) (g.lalr.edgesAt state) = .ok row := by
  unfold build ofAutomaton at h
  cases hr : rowsFrom g 0 (g.lalr.states.zip g.lalr.edges) with
  | error conflict =>
    rw [hr] at h
    cases h
  | ok rows =>
    rw [hr] at h
    cases h
    obtain ⟨hlen,hrows⟩ := rowsFrom_ok hr
    have hedges := lalr_lengths (g := g)
    refine ⟨by simp [hlen, hedges],fun state hs => ?_⟩
    have hs' : state < g.lalr.edges.length := by omega
    obtain ⟨row,hrow,hof⟩ := hrows state (g.lalr.itemsAt state) (g.lalr.edgesAt state) (by
      simp [Automaton.itemsAt, Automaton.edgesAt, hs, hs'])
    exact ⟨row,hrow,by simpa using hof⟩

theorem stateCount_of_build (h : build g = .ok table) :
    table.stateCount = g.lalr.states.length := (rows_of_build h).1

theorem stateCount_pos (h : build g = .ok table) : 0 < table.stateCount := by
  rw [stateCount_of_build h]
  by_contra hzero
  have hempty : g.lalr.states = [] := List.length_eq_zero_iff.mp (by omega)
  have hitem : _ ∈ g.lalr.itemsAt 0 := Grammar.start_mem_itemsAt
  rw [Automaton.itemsAt, hempty] at hitem
  cases hitem

theorem lookup_gotosOf (edges : List (Symbol × ℕ)) (a : NonTerminal) :
    (gotosOf edges).lookup a = edges.lookup (.nonTerminal a) := by
  induction edges with
  | nil => rfl
  | cons edge rest ih =>
    obtain ⟨x,target⟩ := edge
    cases x with
    | terminal t =>
      have hb : (Symbol.nonTerminal a == .terminal t) = false := beq_eq_false_iff_ne.mpr (by simp)
      simp only [gotosOf, List.filterMap_cons, List.lookup_cons, hb] at ih ⊢
      rw [ih]
    | nonTerminal b =>
      have hb : (Symbol.nonTerminal a == .nonTerminal b) = (a == b) := by
        by_cases hab : a = b
        · simp [hab]
        · simp [hab]
      simp only [gotosOf, List.filterMap_cons, List.lookup_cons, hb] at ih ⊢
      rw [ih]

/-- The action on a terminal is what an item of the state demands. -/
theorem action_eq_some_iff (h : build g = .ok table) {state : ℕ} {t : Terminal} {a : Action} :
    table.action state t = some a ↔
      ∃ i ∈ g.lalr.itemsAt state, demand g (g.lalr.edgesAt state) i = some (t, a) := by
  obtain ⟨hlen,hrows⟩ := rows_of_build h
  by_cases hs : state < g.lalr.states.length
  · obtain ⟨row,hrow,hof⟩ := hrows state hs
    have henter := lookup_enter (rowOf_ok hof).1 (t := t) (a := a)
    simp only [action, hrow, Option.bind_eq_bind, Option.bind_some, henter, List.lookup_nil,
      reduceCtorEq, false_or, List.mem_filterMap]
  · have hnone : table.rows[state]? = none := List.getElem?_eq_none (by omega)
    have hempty : g.lalr.itemsAt state = [] := by simp [Automaton.itemsAt, Nat.le_of_not_lt hs]
    simp [action, hnone, hempty]

theorem goto_eq_lookup (h : build g = .ok table) (state : ℕ) (a : NonTerminal) :
    table.goto state a = (g.lalr.edgesAt state).lookup (.nonTerminal a) := by
  obtain ⟨hlen,hrows⟩ := rows_of_build h
  by_cases hs : state < g.lalr.states.length
  · obtain ⟨row,hrow,hof⟩ := hrows state hs
    simp only [goto, hrow, Option.bind_eq_bind, Option.bind_some, (rowOf_ok hof).2,
      lookup_gotosOf]
  · have hnone : table.rows[state]? = none := List.getElem?_eq_none (by omega)
    have hempty : g.lalr.edgesAt state = [] := by
      have hedges := lalr_lengths (g := g)
      simp [Automaton.edgesAt, show g.lalr.edges.length ≤ state by omega]
    simp [goto, hnone, hempty]

section Items
variable {state : ℕ} {i : Item}

theorem action_shift_of_edge (h : build g = .ok table) {t : Terminal} {target : ℕ}
    (he : (g.lalr.edgesAt state).lookup (.terminal t) = some target) :
    table.action state t = some (.shift target) := by
  obtain ⟨items,hm,hn,hx,_⟩ := Grammar.lookup_edgesAt.mp he
  obtain ⟨j,hj,ht⟩ := Grammar.mem_nextSymbols.mp hx
  exact (action_eq_some_iff h).mpr
    ⟨j,Grammar.mem_itemsAt.mpr ⟨items,hm,hn,hj⟩,by simp [demand, ht, he]⟩

theorem action_reduce (h : build g = .ok table) (hi : i ∈ g.lalr.itemsAt state)
    (hn : g.next i = none) (hp : i.production ≠ 0) :
    table.action state i.lookahead = some (.reduce i.production) :=
  (action_eq_some_iff h).mpr ⟨i,hi,by simp [demand, hn, hp]⟩

theorem action_accept (h : build g = .ok table)
    (hi : ⟨0, 1, .endOfInput⟩ ∈ g.lalr.itemsAt state) :
    table.action state .endOfInput = some .accept := by
  refine (action_eq_some_iff h).mpr ⟨_,hi,?_⟩
  simp [demand, Grammar.next, Grammar.rhs, Grammar.production, Grammar.productions,
    Grammar.accepting]

theorem edge_of_action_shift (h : build g = .ok table) {t : Terminal} {target : ℕ}
    (ha : table.action state t = some (.shift target)) :
    (g.lalr.edgesAt state).lookup (.terminal t) = some target := by
  obtain ⟨i,_,hd⟩ := (action_eq_some_iff h).mp ha
  unfold demand at hd
  split at hd
  · next s hs =>
    obtain ⟨n,hn,he⟩ := Option.map_eq_some_iff.mp hd
    cases he
    exact hn
  · cases hd
  · split_ifs at hd <;> cases hd

theorem item_of_action_reduce (h : build g = .ok table) {t : Terminal} {p : ℕ}
    (ha : table.action state t = some (.reduce p)) :
    p ≠ 0 ∧ ⟨p, (g.rhs p).length, t⟩ ∈ g.lalr.itemsAt state := by
  obtain ⟨⟨q,d,u⟩,hi,hd⟩ := (action_eq_some_iff h).mp ha
  unfold demand at hd
  split at hd
  · obtain ⟨n,_,he⟩ := Option.map_eq_some_iff.mp hd
    cases he
  · cases hd
  · next hn =>
    have hdot : (g.rhs q).length ≤ d := List.getElem?_eq_none_iff.mp hn
    have hvalid : d ≤ (g.rhs q).length := (Grammar.validItem_of_mem_itemsAt hi).2
    obtain rfl : d = (g.rhs q).length := by omega
    split_ifs at hd with hq
    · cases hd
    · cases hd
      exact ⟨hq,hi⟩

theorem item_of_action_accept (h : build g = .ok table) {t : Terminal}
    (ha : table.action state t = some .accept) :
    t = .endOfInput ∧ ⟨0, 1, .endOfInput⟩ ∈ g.lalr.itemsAt state := by
  obtain ⟨⟨q,d,u⟩,hi,hd⟩ := (action_eq_some_iff h).mp ha
  unfold demand at hd
  split at hd
  · obtain ⟨n,_,he⟩ := Option.map_eq_some_iff.mp hd
    cases he
  · cases hd
  · next hn =>
    have hdot : (g.rhs q).length ≤ d := List.getElem?_eq_none_iff.mp hn
    have hvalid : d ≤ (g.rhs q).length := (Grammar.validItem_of_mem_itemsAt hi).2
    split_ifs at hd with hq hu
    · simp only at hq hu
      subst q u
      cases hd
      have hone : (g.rhs 0).length = 1 := rfl
      obtain rfl : d = 1 := by omega
      exact ⟨rfl,hi⟩
    · cases hd

theorem action_lt (h : build g = .ok table) {t : Terminal} {target : ℕ}
    (ha : table.action state t = some (.shift target)) : target < table.stateCount := by
  rw [stateCount_of_build h]
  exact Grammar.edge_lt (edge_of_action_shift h ha)

theorem goto_lt (h : build g = .ok table) {a : NonTerminal} {target : ℕ}
    (hg : table.goto state a = some target) : target < table.stateCount := by
  rw [stateCount_of_build h]
  exact Grammar.edge_lt ((goto_eq_lookup h state a).symm.trans hg)

end Items

end Table

end LetPrint
