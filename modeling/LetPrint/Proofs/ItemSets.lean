import LetPrint.Proofs.FirstSets
import LetPrint.Proofs.ItemOrder

/-! # Closure and goto of item sets

A closed item set holds what its items call for and nothing else. Which productions and dots it
holds depends only on those of its kernel, never on lookaheads.
-/
namespace LetPrint

namespace Grammar
variable {g : Grammar} {sets : FirstSets}

theorem mem_productionsOf {a : NonTerminal} {p : ℕ} :
    p ∈ g.productionsOf a ↔ p < g.productions.length ∧ (g.production p).lhs = a := by
  simp only [productionsOf, List.mem_map, List.mem_filter, decide_eq_true_eq, Prod.exists,
    exists_eq_right, List.mem_zipIdx_iff_getElem?, production, List.getD_eq_getElem?_getD]
  constructor
  · rintro ⟨r,hr,ha⟩
    exact ⟨(List.getElem?_eq_some_iff.mp hr).1,by simpa [hr] using ha⟩
  · rintro ⟨hp,ha⟩
    rw [List.getElem?_eq_getElem hp] at ha
    exact ⟨_,List.getElem?_eq_getElem hp,by simpa using ha⟩

theorem mem_predictions {i j : Item} :
    j ∈ g.predictions sets i ↔ ∃ a, g.next i = some (.nonTerminal a) ∧ j.dot = 0 ∧
      j.production ∈ g.productionsOf a ∧
      j.lookahead ∈ sets.ofSequence (g.beyond i) i.lookahead := by
  unfold predictions
  split
  · next a ha =>
    simp only [List.mem_flatMap, List.mem_map, ha, Option.some.injEq, Symbol.nonTerminal.injEq]
    constructor
    · rintro ⟨p,hp,t,ht,rfl⟩
      exact ⟨a,rfl,rfl,hp,ht⟩
    · rintro ⟨b,rfl,hd,hp,ht⟩
      refine ⟨j.production,hp,j.lookahead,ht,?_⟩
      rw [← hd]
  · next hn =>
    constructor
    · intro h
      cases h
    · rintro ⟨a,ha,_⟩
      exact absurd ha (hn a)

/-- A production of the grammar with the dot inside its right-hand side. -/
def ValidItem (g : Grammar) (i : Item) : Prop :=
  i.production < g.productions.length ∧ i.dot ≤ (g.rhs i.production).length

theorem ValidItem.advance {i : Item} {x : Symbol} (h : g.ValidItem i) (hx : g.next i = some x) :
    g.ValidItem i.advance := by
  refine ⟨h.1,?_⟩
  obtain ⟨hlt,_⟩ := List.getElem?_eq_some_iff.mp hx
  simp only [Item.advance]
  omega

theorem validItem_of_mem_predictions {i j : Item} (hj : j ∈ g.predictions sets i) :
    g.ValidItem j := by
  obtain ⟨a,_,hd,hp,_⟩ := mem_predictions.mp hj
  exact ⟨(mem_productionsOf.mp hp).1,by omega⟩

def initialItems (g : Grammar) : List Item :=
  (List.range g.productions.length).flatMap fun p => Terminal.all.map fun t => ⟨p, 0, t⟩

theorem length_initialItems : g.initialItems.length = g.freshItems := by
  simp [initialItems, freshItems, List.length_flatMap]

theorem mem_initialItems_of_mem_predictions {i j : Item} (hj : j ∈ g.predictions sets i) :
    j ∈ g.initialItems := by
  obtain ⟨a,_,hd,hp,_⟩ := mem_predictions.mp hj
  simp only [initialItems, List.mem_flatMap, List.mem_range, List.mem_map]
  refine ⟨j.production,(mem_productionsOf.mp hp).1,j.lookahead,j.lookahead.mem_all,?_⟩
  rw [← hd]

section Closure
variable {kernel : List Item}

theorem mem_closure_of_mem {i : Item} (hi : i ∈ kernel) : i ∈ g.closure sets kernel :=
  Item.mem_ascending.mpr (Reach.seed_mem_closure hi)

theorem mem_closure_of_mem_predictions {i j : Item} (hi : i ∈ g.closure sets kernel)
    (hj : j ∈ g.predictions sets i) : j ∈ g.closure sets kernel := by
  refine Item.mem_ascending.mpr (Reach.closure_closed (P := (· ∈ kernel ++ g.initialItems))
    ?_ ?_ ?_ (Item.mem_ascending.mp hi) hj)
  · intro k hk
    exact List.mem_append_left _ hk
  · intro k _ l hl
    exact List.mem_append_right _ (mem_initialItems_of_mem_predictions hl)
  · intro l hl hsub
    have hlen := (List.subperm_of_subset hl hsub).length_le
    rwa [List.length_append, length_initialItems] at hlen

theorem closure_least {P : Item → Prop} (hkernel : ∀ i ∈ kernel, P i)
    (hstep : ∀ i, P i → ∀ j ∈ g.predictions sets i, P j) {i : Item}
    (hi : i ∈ g.closure sets kernel) : P i :=
  Reach.closure_least hkernel hstep (Item.mem_ascending.mp hi)

theorem closure_cases {i : Item} (hi : i ∈ g.closure sets kernel) :
    i ∈ kernel ∨ ∃ j ∈ g.closure sets kernel, i ∈ g.predictions sets j := by
  refine (closure_least (P := fun i => i ∈ g.closure sets kernel ∧
    (i ∈ kernel ∨ ∃ j ∈ g.closure sets kernel, i ∈ g.predictions sets j)) ?_ ?_ hi).2
  · intro k hk
    exact ⟨mem_closure_of_mem hk,Or.inl hk⟩
  · intro k hk l hl
    exact ⟨mem_closure_of_mem_predictions hk.1 hl,Or.inr ⟨k,hk.1,hl⟩⟩

theorem ascending_closure : Item.Ascending (g.closure sets kernel) := Item.ascending_ascending _

/-- A prediction stays when its source gets another lookahead; only its own lookahead may change. -/
theorem exists_prediction {i j : Item} (u : Terminal) (hj : j ∈ g.predictions sets i) :
    ∃ v, ⟨j.production, j.dot, v⟩ ∈ g.predictions sets ⟨i.production, i.dot, u⟩ := by
  obtain ⟨a,ha,hd,hp,hl⟩ := mem_predictions.mp hj
  obtain ⟨v,hv⟩ := FirstSets.exists_mem_ofSequence u hl
  exact ⟨v,mem_predictions.mpr ⟨a,ha,hd,hp,hv⟩⟩

theorem closure_core_mono {other : List Item}
    (h : ∀ p d t, ⟨p, d, t⟩ ∈ kernel → ∃ u, ⟨p, d, u⟩ ∈ other) {p d : ℕ} {t : Terminal}
    (hi : ⟨p, d, t⟩ ∈ g.closure sets kernel) : ∃ u, ⟨p, d, u⟩ ∈ g.closure sets other := by
  refine closure_least (P := fun i => ∃ u, ⟨i.production, i.dot, u⟩ ∈ g.closure sets other)
    ?_ ?_ hi
  · intro i hk
    obtain ⟨u,hu⟩ := h i.production i.dot i.lookahead hk
    exact ⟨u,mem_closure_of_mem hu⟩
  · rintro i ⟨u,hu⟩ j hj
    obtain ⟨v,hv⟩ := exists_prediction u hj
    exact ⟨v,mem_closure_of_mem_predictions hu hv⟩

end Closure

section Goto
variable {items : List Item} {x : Symbol}

theorem mem_gotoKernel {j : Item} :
    j ∈ (items.filter (g.next · = some x)).map Item.advance ↔
      ∃ i ∈ items, g.next i = some x ∧ i.advance = j := by
  simp [and_assoc]

theorem advance_mem_goto {i : Item} (hi : i ∈ items) (hx : g.next i = some x) :
    i.advance ∈ g.goto sets items x :=
  mem_closure_of_mem (mem_gotoKernel.mpr ⟨i,hi,hx,rfl⟩)

theorem goto_cases {j : Item} (hj : j ∈ g.goto sets items x) :
    (∃ i ∈ items, g.next i = some x ∧ i.advance = j) ∨
      ∃ k ∈ g.goto sets items x, j ∈ g.predictions sets k := by
  rcases closure_cases hj with h | h
  · exact Or.inl (mem_gotoKernel.mp h)
  · exact Or.inr h

theorem validItem_of_mem_goto (hitems : ∀ i ∈ items, g.ValidItem i) {j : Item}
    (hj : j ∈ g.goto sets items x) : g.ValidItem j := by
  rcases goto_cases hj with ⟨i,hi,hx,rfl⟩ | ⟨k,_,hk⟩
  · exact (hitems i hi).advance hx
  · exact validItem_of_mem_predictions hk

theorem goto_core_mono {other : List Item}
    (h : ∀ p d t, ⟨p, d, t⟩ ∈ items → ∃ u, ⟨p, d, u⟩ ∈ other) {p d : ℕ} {t : Terminal}
    (hi : ⟨p, d, t⟩ ∈ g.goto sets items x) : ∃ u, ⟨p, d, u⟩ ∈ g.goto sets other x := by
  refine closure_core_mono ?_ hi
  intro q e u hq
  obtain ⟨⟨q',e',u'⟩,hm,hx,he⟩ := mem_gotoKernel.mp hq
  cases he
  obtain ⟨v,hv⟩ := h q' e' u' hm
  exact ⟨v,mem_gotoKernel.mpr ⟨⟨q',e',v⟩,hv,hx,rfl⟩⟩

theorem coreOf_goto_eq {other : List Item} (h : coreOf items = coreOf other) :
    coreOf (g.goto sets items x) = coreOf (g.goto sets other x) := by
  have hcore : ∀ p d, (∃ t, ⟨p, d, t⟩ ∈ items) ↔ ∃ t, ⟨p, d, t⟩ ∈ other := by
    intro p d
    rw [← mem_coreOf, ← mem_coreOf, h]
  refine coreOf_eq_of_mem_iff ascending_closure ascending_closure fun p d => ?_
  constructor
  · rintro ⟨t,ht⟩
    exact goto_core_mono (fun q e u hu => (hcore q e).mp ⟨u,hu⟩) ht
  · rintro ⟨t,ht⟩
    exact goto_core_mono (fun q e u hu => (hcore q e).mpr ⟨u,hu⟩) ht

theorem mem_nextSymbols : x ∈ g.nextSymbols items ↔ ∃ i ∈ items, g.next i = some x := by
  simp [nextSymbols]

end Goto

end Grammar

end LetPrint
