import LetPrint.Automaton.Merged
import LetPrint.Proofs.Reach
import Mathlib.Data.List.Sort

/-! # Ascending item sets

The order of items is a strict total order, so an ascending list is determined by its members. The
same holds for the core of an ascending list.
-/
namespace LetPrint

namespace Item

theorem before_iff {i j : Item} : i.before j = true ↔ i.production < j.production ∨
    i.production = j.production ∧ (i.dot < j.dot ∨
      i.dot = j.dot ∧ i.lookahead.rank < j.lookahead.rank) := by
  simp [before]

theorem before_irrefl (i : Item) : ¬ i.before i = true := by
  rw [before_iff]
  omega

theorem before_trans {i j k : Item} (hij : i.before j = true) (hjk : j.before k = true) :
    i.before k = true := by
  rw [before_iff] at hij hjk ⊢
  omega

theorem before_or_before {i j : Item} (hne : i ≠ j) : i.before j = true ∨ j.before i = true := by
  by_contra h
  rw [not_or, before_iff, before_iff] at h
  obtain ⟨p,d,t⟩ := i
  obtain ⟨q,e,u⟩ := j
  simp only at h
  have hp : p = q := by omega
  have hd : d = e := by omega
  have ht : t = u := Terminal.rank_injective (by omega)
  exact hne (by rw [hp,hd,ht])

def Ascending (items : List Item) : Prop := items.Pairwise fun i j => i.before j = true

@[simp] theorem mem_insert {i j : Item} {items : List Item} :
    j ∈ insert i items ↔ j = i ∨ j ∈ items := by
  induction items with
  | nil => simp [insert]
  | cons k rest ih =>
    simp only [insert]
    split_ifs with he hb
    · subst k
      simp
    · simp
    · simp only [List.mem_cons, ih]
      tauto

theorem Ascending.insert {items : List Item} (h : Ascending items) (i : Item) :
    Ascending (i.insert items) := by
  induction items with
  | nil => simp [Item.insert, Ascending]
  | cons k rest ih =>
    obtain ⟨hk,hrest⟩ := List.pairwise_cons.mp h
    simp only [Item.insert]
    split_ifs with he hb
    · exact h
    · refine List.pairwise_cons.mpr ⟨?_,h⟩
      intro j hj
      rcases List.mem_cons.mp hj with rfl | hj
      · exact hb
      · exact before_trans hb (hk j hj)
    · refine List.pairwise_cons.mpr ⟨?_,ih hrest⟩
      intro j hj
      rcases mem_insert.mp hj with rfl | hj
      · exact (before_or_before he).resolve_left hb
      · exact hk j hj

@[simp] theorem mem_ascending {j : Item} {items : List Item} : j ∈ ascending items ↔ j ∈ items := by
  induction items with
  | nil => simp [ascending]
  | cons i rest ih =>
    change j ∈ insert i (ascending rest) ↔ j ∈ i :: rest
    rw [mem_insert, ih, List.mem_cons]

theorem ascending_ascending (items : List Item) : Ascending (ascending items) := by
  induction items with
  | nil => exact List.Pairwise.nil
  | cons i rest ih => exact ih.insert i

theorem Ascending.nodup {items : List Item} (h : Ascending items) : items.Nodup := by
  refine List.Pairwise.imp ?_ h
  intro i j hij he
  subst j
  exact before_irrefl i hij

theorem Ascending.eq_of_mem_iff {xs ys : List Item} (hx : Ascending xs) (hy : Ascending ys)
    (h : ∀ i, i ∈ xs ↔ i ∈ ys) : xs = ys := by
  have hperm : xs.Perm ys := (List.perm_ext_iff_of_nodup hx.nodup hy.nodup).mpr h
  refine List.Perm.eq_of_pairwise ?_ hx hy hperm
  intro i j _ _ hij hji
  exact absurd (before_trans hij hji) (before_irrefl i)

end Item

def CoreLe (a b : Nat × Nat) : Prop := a.1 < b.1 ∨ a.1 = b.1 ∧ a.2 ≤ b.2

@[simp] theorem mem_coreOf {items : List Item} {p d : Nat} :
    (p, d) ∈ coreOf items ↔ ∃ t, ⟨p, d, t⟩ ∈ items := by
  simp only [coreOf, Reach.mem_fresh, List.mem_map, List.not_mem_nil, not_false_eq_true, and_true]
  constructor
  · rintro ⟨⟨q,e,t⟩,hi,he⟩
    cases he
    exact ⟨t,hi⟩
  · rintro ⟨t,hi⟩
    exact ⟨_,hi,rfl⟩

theorem nodup_coreOf (items : List Item) : (coreOf items).Nodup := Reach.nodup_fresh _ _

theorem coreOf_pairwise {items : List Item} (h : Item.Ascending items) :
    (coreOf items).Pairwise CoreLe := by
  refine List.Pairwise.sublist (Reach.fresh_sublist _ _) (List.pairwise_map.mpr ?_)
  refine List.Pairwise.imp ?_ h
  intro i j hij
  rw [Item.before_iff] at hij
  simp only [CoreLe]
  omega

theorem coreOf_eq_of_mem_iff {xs ys : List Item} (hx : Item.Ascending xs) (hy : Item.Ascending ys)
    (h : ∀ p d, (∃ t, ⟨p, d, t⟩ ∈ xs) ↔ ∃ t, ⟨p, d, t⟩ ∈ ys) : coreOf xs = coreOf ys := by
  have hperm : (coreOf xs).Perm (coreOf ys) := by
    rw [List.perm_ext_iff_of_nodup (nodup_coreOf xs) (nodup_coreOf ys)]
    rintro ⟨p,d⟩
    rw [mem_coreOf, mem_coreOf, h]
  refine List.Perm.eq_of_pairwise ?_ (coreOf_pairwise hx) (coreOf_pairwise hy) hperm
  intro a b _ _ hab hba
  simp only [CoreLe] at hab hba
  exact Prod.ext (by omega) (by omega)

end LetPrint
