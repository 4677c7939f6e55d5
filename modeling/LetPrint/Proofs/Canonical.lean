import LetPrint.Proofs.ItemSets
import Mathlib.Data.Finset.Powerset

/-! # The canonical collection

The walk over item sets ends before its fuel does, since an ascending set of items is a subset of
the finitely many items of the grammar. So the collection holds the start, is closed under goto, and
holds nothing else.
-/
namespace LetPrint

namespace Grammar
variable {g : Grammar}

def itemsOf (g : Grammar) (p : ℕ) : List Item :=
  (List.range ((g.rhs p).length + 1)).flatMap fun d => Terminal.all.map fun t => ⟨p, d, t⟩

def allItems (g : Grammar) : List Item := (List.range g.productions.length).flatMap g.itemsOf

theorem mem_allItems {i : Item} : i ∈ g.allItems ↔ g.ValidItem i := by
  obtain ⟨p,d,t⟩ := i
  simp only [allItems, itemsOf, ValidItem, List.mem_flatMap, List.mem_map, List.mem_range,
    Nat.lt_succ_iff, Item.mk.injEq]
  constructor
  · rintro ⟨_,hp,_,hd,_,_,rfl,rfl,rfl⟩
    exact ⟨hp,hd⟩
  · rintro ⟨hp,hd⟩
    exact ⟨p,hp,d,hd,t,t.mem_all,rfl,rfl,rfl⟩

theorem map_production_range :
    (List.range g.productions.length).map g.production = g.productions := by
  refine List.ext_getElem (by simp) fun n h₁ h₂ => ?_
  simp [production, h₂]

theorem length_itemsOf (p : ℕ) :
    (g.itemsOf p).length = ((g.production p).rhs.length + 1) * Terminal.all.length := by
  simp [itemsOf, List.length_flatMap, rhs]

theorem length_flatMap_itemsOf (numbers : List ℕ) : (numbers.flatMap g.itemsOf).length =
    (numbers.map g.production).foldr (fun r n => r.rhs.length + 1 + n) 0 *
      Terminal.all.length := by
  induction numbers with
  | nil => simp
  | cons p numbers ih =>
    rw [List.flatMap_cons, List.length_append, length_itemsOf, ih, ← Nat.add_mul]
    rfl

theorem length_allItems : g.allItems.length = g.itemCount := by
  rw [allItems, length_flatMap_itemsOf, map_production_range, itemCount]

/-- An ascending list of items of the grammar. -/
def ItemSet (g : Grammar) (items : List Item) : Prop :=
  Item.Ascending items ∧ ∀ i ∈ items, g.ValidItem i

theorem itemSet_goto {sets : FirstSets} {items : List Item} (h : g.ItemSet items) (x : Symbol) :
    g.ItemSet (g.goto sets items x) :=
  ⟨ascending_closure,fun _ hj => validItem_of_mem_goto h.2 hj⟩

theorem itemSet_startItems {sets : FirstSets} : g.ItemSet (g.startItems sets) := by
  refine ⟨ascending_closure,fun j hj => ?_⟩
  rcases closure_cases hj with h | ⟨k,_,hk⟩
  · obtain rfl := List.mem_singleton.mp h
    exact ⟨by simp [productions],by simp⟩
  · exact validItem_of_mem_predictions hk

theorem length_le_of_itemSets {l : List (List Item)} (hn : l.Nodup)
    (hl : ∀ items ∈ l, g.ItemSet items) : l.length ≤ 2 ^ g.itemCount := by
  have hinj : (l.map List.toFinset).Nodup := by
    refine List.Nodup.map_on ?_ hn
    intro xs hx ys hy he
    refine (hl xs hx).1.eq_of_mem_iff (hl ys hy).1 fun i => ?_
    rw [← List.mem_toFinset, he, List.mem_toFinset]
  have hsub : (l.map List.toFinset).toFinset ⊆ g.allItems.toFinset.powerset := by
    intro s hs
    rw [List.mem_toFinset] at hs
    obtain ⟨items,hi,rfl⟩ := List.mem_map.mp hs
    rw [Finset.mem_powerset]
    intro i him
    rw [List.mem_toFinset] at him ⊢
    exact mem_allItems.mpr ((hl items hi).2 i him)
  calc l.length = (l.map List.toFinset).toFinset.card := by
        rw [List.toFinset_card_of_nodup hinj, List.length_map]
    _ ≤ g.allItems.toFinset.powerset.card := Finset.card_le_card hsub
    _ = 2 ^ g.allItems.toFinset.card := Finset.card_powerset _
    _ ≤ 2 ^ g.itemCount := by
        refine Nat.pow_le_pow_right (by omega) ?_
        rw [← length_allItems]
        exact List.toFinset_card_le _

section States
variable {sets : FirstSets}

theorem startItems_mem_canonicalStates : g.startItems sets ∈ g.canonicalStates sets :=
  Reach.seed_mem_closure (by simp)

theorem head?_canonicalStates : (g.canonicalStates sets).head? = some (g.startItems sets) :=
  Reach.head?_closure_singleton _

theorem mem_successors {items next : List Item} :
    next ∈ g.successors sets items ↔ ∃ x ∈ g.nextSymbols items, g.goto sets items x = next := by
  simp [successors]

theorem itemSet_of_mem_successors (items : List Item) (h : g.ItemSet items) :
    ∀ next ∈ g.successors sets items, g.ItemSet next := by
  intro next hs
  obtain ⟨x,_,rfl⟩ := mem_successors.mp hs
  exact itemSet_goto h x

theorem itemSet_of_mem_canonicalStates {items : List Item}
    (h : items ∈ g.canonicalStates sets) : g.ItemSet items := by
  refine Reach.closure_least (P := g.ItemSet) ?_ itemSet_of_mem_successors h
  intro start hs
  obtain rfl := List.mem_singleton.mp hs
  exact itemSet_startItems

theorem goto_mem_canonicalStates {items : List Item} (h : items ∈ g.canonicalStates sets)
    {i : Item} (hi : i ∈ items) {x : Symbol} (hx : g.next i = some x) :
    g.goto sets items x ∈ g.canonicalStates sets := by
  refine Reach.closure_closed (P := g.ItemSet) ?_ itemSet_of_mem_successors ?_ h
    (mem_successors.mpr ⟨x,mem_nextSymbols.mpr ⟨i,hi,hx⟩,rfl⟩)
  · intro start hs
    obtain rfl := List.mem_singleton.mp hs
    exact itemSet_startItems
  · intro l hn hl
    exact length_le_of_itemSets hn hl

/-- The walk has come to its end: more fuel finds no more states. -/
theorem canonicalStates_add (more : ℕ) : Reach.closure (g.successors sets) (2 ^ g.itemCount + more)
    [g.startItems sets] = g.canonicalStates sets := by
  refine Reach.closure_add (P := g.ItemSet) ?_ itemSet_of_mem_successors ?_ more
  · exact List.forall_mem_singleton.mpr itemSet_startItems
  · intro l hn hl
    exact length_le_of_itemSets hn hl

theorem canonicalStates_cases {items : List Item} (h : items ∈ g.canonicalStates sets) :
    items = g.startItems sets ∨
      ∃ before ∈ g.canonicalStates sets, ∃ x, items = g.goto sets before x := by
  refine (Reach.closure_least (P := fun items => items ∈ g.canonicalStates sets ∧
    (items = g.startItems sets ∨
      ∃ before ∈ g.canonicalStates sets, ∃ x, items = g.goto sets before x)) ?_ ?_ h).2
  · intro start hs
    obtain rfl := List.mem_singleton.mp hs
    exact ⟨startItems_mem_canonicalStates,Or.inl rfl⟩
  · rintro before ⟨hb,_⟩ next hn
    obtain ⟨x,hx,rfl⟩ := mem_successors.mp hn
    obtain ⟨i,hi,hix⟩ := mem_nextSymbols.mp hx
    exact ⟨goto_mem_canonicalStates hb hi hix,Or.inr ⟨before,hb,x,rfl⟩⟩

theorem canonicalStates_closed {items : List Item} (h : items ∈ g.canonicalStates sets)
    {i j : Item} (hi : i ∈ items) (hj : j ∈ g.predictions sets i) : j ∈ items := by
  rcases canonicalStates_cases h with rfl | ⟨before,_,x,rfl⟩
  · exact mem_closure_of_mem_predictions hi hj
  · exact mem_closure_of_mem_predictions hi hj

/-- Only the start state holds an item with the dot at the start that no other item calls for. -/
theorem canonicalStates_initial {items : List Item} (h : items ∈ g.canonicalStates sets)
    {j : Item} (hj : j ∈ items) (hd : j.dot = 0) :
    items = g.startItems sets ∧ j = ⟨0, 0, .endOfInput⟩ ∨
      ∃ i ∈ items, j ∈ g.predictions sets i := by
  rcases canonicalStates_cases h with rfl | ⟨before,_,x,rfl⟩
  · rcases closure_cases hj with hk | hk
    · exact Or.inl ⟨rfl,List.mem_singleton.mp hk⟩
    · exact Or.inr hk
  · rcases goto_cases hj with ⟨i,_,_,rfl⟩ | hk
    · simp [Item.advance] at hd
    · exact Or.inr hk

end States

end Grammar

end LetPrint
