import LetPrint.Proofs.Canonical

/-! # The merged automaton

A merged state holds the items of all canonical states with its core. Since the core of a goto
depends on the core alone, these states agree on where a symbol leads, and the first edge stands for
all of them.
-/
namespace LetPrint

namespace Automaton

def itemsAt (a : Automaton) (state : ℕ) : List Item := a.states.getD state []

def edgesAt (a : Automaton) (state : ℕ) : List (Symbol × ℕ) := a.edges.getD state []

theorem lookup_filterMap_edges (edges : List (Symbol × ℕ)) (l : List Symbol) (x : Symbol) :
    (l.filterMap fun s => (edges.lookup s).map (s, ·)).lookup x =
      if x ∈ l then edges.lookup x else none := by
  induction l with
  | nil => simp
  | cons s l ih =>
    cases h : edges.lookup s with
    | none =>
      simp only [List.filterMap_cons, h, Option.map_none, ih, List.mem_cons]
      by_cases hx : x = s
      · subst x
        simp [h]
      · simp [hx]
    | some target =>
      simp only [List.filterMap_cons, h, Option.map_some, List.lookup_cons, ih, List.mem_cons]
      by_cases hx : x = s
      · subst x
        simp [h]
      · have hb : (x == s) = false := beq_eq_false_iff_ne.mpr hx
        simp [hb, hx]

@[simp] theorem lookup_firstEdges (edges : List (Symbol × ℕ)) (x : Symbol) :
    (firstEdges edges).lookup x = edges.lookup x := by
  rw [firstEdges, lookup_filterMap_edges, if_pos x.mem_all]

theorem itemsAt_merged (a : Automaton) {state : ℕ} (h : state < a.cores.length) :
    a.merged.itemsAt state =
      Item.ascending ((a.members a.mergedNumbers state).flatMap (·.1)) := by
  simp [itemsAt, merged, h]

theorem edgesAt_merged (a : Automaton) {state : ℕ} (h : state < a.cores.length) :
    a.merged.edgesAt state = firstEdges (((a.members a.mergedNumbers state).flatMap (·.2)).map
      fun edge => (edge.1, a.mergedNumbers.getD edge.2 0)) := by
  simp [edgesAt, merged, h]

theorem itemsAt_merged_of_le (a : Automaton) {state : ℕ} (h : a.cores.length ≤ state) :
    a.merged.itemsAt state = [] := by
  simp [itemsAt, merged, h]

theorem edgesAt_merged_of_le (a : Automaton) {state : ℕ} (h : a.cores.length ≤ state) :
    a.merged.edgesAt state = [] := by
  simp [edgesAt, merged, h]

end Automaton

namespace Grammar
variable {g : Grammar}

abbrev lr1 (g : Grammar) : List (List Item) := g.canonicalStates (FirstSets.ofGrammar g)

/-- The automaton whose table a grammar gets. -/
abbrev lalr (g : Grammar) : Automaton := (Automaton.canonical g).merged

def numberOf (g : Grammar) (items : List Item) : ℕ :=
  (Automaton.canonical g).cores.idxOf (coreOf items)

def edgesOf (g : Grammar) (items : List Item) : List (Symbol × ℕ) :=
  (g.nextSymbols items).map fun x =>
    (x, g.lr1.idxOf (g.goto (FirstSets.ofGrammar g) items x))

theorem coreOf_mem_cores {items : List Item} (h : items ∈ g.lr1) :
    coreOf items ∈ (Automaton.canonical g).cores :=
  Reach.mem_fresh.mpr ⟨List.mem_map_of_mem h,by simp⟩

theorem numberOf_lt {items : List Item} (h : items ∈ g.lr1) :
    g.numberOf items < (Automaton.canonical g).cores.length :=
  List.idxOf_lt_length_of_mem (coreOf_mem_cores h)

theorem coreOf_eq_of_numberOf_eq {items other : List Item} (h : items ∈ g.lr1)
    (he : g.numberOf items = g.numberOf other) : coreOf items = coreOf other :=
  (List.idxOf_inj (coreOf_mem_cores h)).mp he

theorem numberOf_startItems : g.numberOf (g.startItems (FirstSets.ofGrammar g)) = 0 := by
  have hhead : g.lr1.head? = some (g.startItems (FirstSets.ofGrammar g)) := head?_canonicalStates
  obtain ⟨rest,hs⟩ := List.head?_eq_some_iff.mp hhead
  have hcores : (Automaton.canonical g).cores = Reach.fresh [] (g.lr1.map coreOf) := rfl
  rw [numberOf, hcores, hs]
  simp [Reach.fresh]

theorem members_canonical (state : ℕ) :
    (Automaton.canonical g).members (Automaton.canonical g).mergedNumbers state =
      (g.lr1.filter (g.numberOf · = state)).map fun items => (items, g.edgesOf items) := by
  have hzip : ((Automaton.canonical g).states.zip (Automaton.canonical g).edges).zip
      (Automaton.canonical g).mergedNumbers =
      g.lr1.map fun items => ((items, g.edgesOf items), g.numberOf items) := by
    change (g.lr1.zip (g.lr1.map g.edgesOf)).zip (g.lr1.map g.numberOf) = _
    induction g.lr1 with
    | nil => rfl
    | cons items rest ih => simp [ih]
  rw [Automaton.members, hzip, List.filter_map, List.map_map]
  rfl

theorem getD_mergedNumbers {items : List Item} (h : items ∈ g.lr1) :
    (Automaton.canonical g).mergedNumbers.getD (g.lr1.idxOf items) 0 = g.numberOf items := by
  change (g.lr1.map g.numberOf).getD (g.lr1.idxOf items) 0 = g.numberOf items
  simp [List.getD_eq_getElem?_getD, List.getElem?_idxOf h]

theorem mem_itemsAt {state : ℕ} {i : Item} :
    i ∈ g.lalr.itemsAt state ↔ ∃ items ∈ g.lr1, g.numberOf items = state ∧ i ∈ items := by
  by_cases h : state < (Automaton.canonical g).cores.length
  · rw [Automaton.itemsAt_merged _ h, members_canonical]
    simp [and_assoc]
  · rw [Automaton.itemsAt_merged_of_le _ (Nat.le_of_not_lt h)]
    constructor
    · intro hi
      cases hi
    · rintro ⟨items,hm,rfl,_⟩
      exact absurd (numberOf_lt hm) h

/-- Every canonical state of a merged state goes with a symbol into the same merged state. -/
theorem numberOf_goto_eq {items other : List Item} (hi : items ∈ g.lr1)
    (he : g.numberOf items = g.numberOf other) (x : Symbol) :
    g.numberOf (g.goto (FirstSets.ofGrammar g) items x) =
      g.numberOf (g.goto (FirstSets.ofGrammar g) other x) := by
  unfold numberOf
  rw [coreOf_goto_eq (coreOf_eq_of_numberOf_eq hi he)]

theorem mem_mergedEdges {state : ℕ} {x : Symbol} {target : ℕ} :
    (x, target) ∈ (((Automaton.canonical g).members (Automaton.canonical g).mergedNumbers
        state).flatMap (·.2)).map (fun edge =>
          (edge.1, (Automaton.canonical g).mergedNumbers.getD edge.2 0)) ↔
      ∃ items ∈ g.lr1, g.numberOf items = state ∧ x ∈ g.nextSymbols items ∧
        g.numberOf (g.goto (FirstSets.ofGrammar g) items x) = target := by
  simp only [members_canonical, List.mem_map, List.mem_flatMap, List.mem_filter, decide_eq_true_eq,
    edgesOf]
  constructor
  · rintro ⟨⟨y,n⟩,⟨⟨items,edges⟩,⟨_,⟨hi,hn⟩,hp⟩,hy⟩,he⟩
    cases hp
    obtain ⟨z,hz,hzy⟩ := List.mem_map.mp hy
    cases hzy
    cases he
    obtain ⟨i,hm,hx⟩ := mem_nextSymbols.mp hz
    exact ⟨items,hi,hn,hz,(getD_mergedNumbers (goto_mem_canonicalStates hi hm hx)).symm⟩
  · rintro ⟨items,hi,hn,hx,rfl⟩
    obtain ⟨i,hm,hix⟩ := mem_nextSymbols.mp hx
    refine ⟨_,⟨_,⟨items,⟨hi,hn⟩,rfl⟩,List.mem_map.mpr ⟨x,hx,rfl⟩⟩,?_⟩
    rw [getD_mergedNumbers (goto_mem_canonicalStates hi hm hix)]

/-- An edge of a merged state is an edge of any canonical state that it stands for. -/
theorem lookup_edgesAt {state : ℕ} {x : Symbol} {target : ℕ} :
    (g.lalr.edgesAt state).lookup x = some target ↔
      ∃ items ∈ g.lr1, g.numberOf items = state ∧ x ∈ g.nextSymbols items ∧
        g.numberOf (g.goto (FirstSets.ofGrammar g) items x) = target := by
  by_cases h : state < (Automaton.canonical g).cores.length
  · rw [Automaton.edgesAt_merged _ h, Automaton.lookup_firstEdges, ← mem_mergedEdges]
    constructor
    · intro hl
      obtain ⟨front,back,he,_⟩ := List.lookup_eq_some_iff.mp hl
      rw [he]
      simp
    · intro hm
      cases hl : List.lookup x _ with
      | none =>
        have hne := List.lookup_eq_none_iff.mp hl _ hm
        simp at hne
      | some found =>
        obtain ⟨front,back,he,_⟩ := List.lookup_eq_some_iff.mp hl
        have hf : (x, found) ∈ front ++ (x, found) :: back := by simp
        rw [← he] at hf
        obtain ⟨items,hi,hn,_,ht⟩ := mem_mergedEdges.mp hm
        obtain ⟨other,ho,hno,_,hto⟩ := mem_mergedEdges.mp hf
        rw [← ht, ← hto, numberOf_goto_eq hi (hn.trans hno.symm) x]
  · rw [Automaton.edgesAt_merged_of_le _ (Nat.le_of_not_lt h)]
    constructor
    · intro hl
      cases hl
    · rintro ⟨items,hi,rfl,_⟩
      exact absurd (numberOf_lt hi) h

theorem start_mem_itemsAt : ⟨0, 0, .endOfInput⟩ ∈ g.lalr.itemsAt 0 :=
  mem_itemsAt.mpr ⟨_,startItems_mem_canonicalStates,numberOf_startItems,
    mem_closure_of_mem (by simp)⟩

theorem itemsAt_closed {state : ℕ} {i j : Item} (hi : i ∈ g.lalr.itemsAt state)
    (hj : j ∈ g.predictions (FirstSets.ofGrammar g) i) : j ∈ g.lalr.itemsAt state := by
  obtain ⟨items,hm,hn,him⟩ := mem_itemsAt.mp hi
  exact mem_itemsAt.mpr ⟨items,hm,hn,canonicalStates_closed hm him hj⟩

theorem validItem_of_mem_itemsAt {state : ℕ} {i : Item} (hi : i ∈ g.lalr.itemsAt state) :
    g.ValidItem i := by
  obtain ⟨items,hm,_,him⟩ := mem_itemsAt.mp hi
  exact (itemSet_of_mem_canonicalStates hm).2 i him

theorem exists_edge {state : ℕ} {i : Item} {x : Symbol} (hi : i ∈ g.lalr.itemsAt state)
    (hx : g.next i = some x) : ∃ target, (g.lalr.edgesAt state).lookup x = some target ∧
      i.advance ∈ g.lalr.itemsAt target := by
  obtain ⟨items,hm,hn,him⟩ := mem_itemsAt.mp hi
  refine ⟨_,lookup_edgesAt.mpr ⟨items,hm,hn,mem_nextSymbols.mpr ⟨i,him,hx⟩,rfl⟩,?_⟩
  exact mem_itemsAt.mpr ⟨_,goto_mem_canonicalStates hm him hx,rfl,advance_mem_goto him hx⟩

/-- An item behind an edge with its dot inside has moved over the symbol of the edge; its lookahead
may have come from another canonical state. -/
theorem exists_before_edge {state target : ℕ} {x : Symbol} {p d : ℕ} {t : Terminal}
    (he : (g.lalr.edgesAt state).lookup x = some target)
    (hj : ⟨p, d + 1, t⟩ ∈ g.lalr.itemsAt target) :
    ∃ u, ⟨p, d, u⟩ ∈ g.lalr.itemsAt state ∧ (g.rhs p)[d]? = some x := by
  obtain ⟨items,hm,hn,hx,ht⟩ := lookup_edgesAt.mp he
  obtain ⟨other,ho,hno,hjo⟩ := mem_itemsAt.mp hj
  have hcore : (p, d + 1) ∈ coreOf (g.goto (FirstSets.ofGrammar g) items x) := by
    rw [← coreOf_eq_of_numberOf_eq ho (hno.trans ht.symm)]
    exact mem_coreOf.mpr ⟨t,hjo⟩
  obtain ⟨u,hu⟩ := mem_coreOf.mp hcore
  rcases goto_cases hu with ⟨⟨q,e,v⟩,him,hnext,hadv⟩ | ⟨k,_,hk⟩
  · cases hadv
    exact ⟨v,mem_itemsAt.mpr ⟨items,hm,hn,him⟩,hnext⟩
  · obtain ⟨a,_,hd,_⟩ := mem_predictions.mp hk
    cases hd

/-- An item with the dot at the start is the first of all, or called for by another. -/
theorem initial_cases {state : ℕ} {j : Item} (hj : j ∈ g.lalr.itemsAt state) (hd : j.dot = 0) :
    state = 0 ∧ j = ⟨0, 0, .endOfInput⟩ ∨
      ∃ i ∈ g.lalr.itemsAt state, j ∈ g.predictions (FirstSets.ofGrammar g) i := by
  obtain ⟨items,hm,hn,hjm⟩ := mem_itemsAt.mp hj
  rcases canonicalStates_initial hm hjm hd with ⟨rfl,he⟩ | ⟨i,hi,hij⟩
  · exact Or.inl ⟨hn.symm.trans numberOf_startItems,he⟩
  · exact Or.inr ⟨i,mem_itemsAt.mpr ⟨items,hm,hn,hi⟩,hij⟩

theorem edge_lt {state target : ℕ} {x : Symbol}
    (he : (g.lalr.edgesAt state).lookup x = some target) : target < g.lalr.states.length := by
  obtain ⟨items,hm,_,hx,rfl⟩ := lookup_edgesAt.mp he
  obtain ⟨i,hi,hix⟩ := mem_nextSymbols.mp hx
  simpa [Automaton.merged] using numberOf_lt (goto_mem_canonicalStates hm hi hix)

theorem StartFree.next_ne (h : g.StartFree) {state : ℕ} {i : Item}
    (hi : i ∈ g.lalr.itemsAt state) : g.next i ≠ some (.nonTerminal .start) := by
  intro hn
  have hmem := production_mem (validItem_of_mem_itemsAt hi).1
  exact h _ hmem (List.mem_of_getElem? hn)

theorem StartFree.edge_ne (h : g.StartFree) {state target : ℕ} {x : Symbol}
    (he : (g.lalr.edgesAt state).lookup x = some target) : x ≠ .nonTerminal .start := by
  rintro rfl
  obtain ⟨items,hm,hn,hx,_⟩ := lookup_edgesAt.mp he
  obtain ⟨i,hi,hix⟩ := mem_nextSymbols.mp hx
  exact h.next_ne (mem_itemsAt.mpr ⟨items,hm,hn,hi⟩) hix

end Grammar

end LetPrint
