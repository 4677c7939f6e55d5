import LetPrint.Grammar.First
import Mathlib.Data.List.Nodup

/-! # What a walk reaches

The result of a walk holds its seeds and stays inside every closed set around them. It is closed
itself as soon as the fuel is at least the number of nodes in one such set, and more fuel than that
changes nothing.
-/
namespace LetPrint.Reach
variable {α : Type} [DecidableEq α]

@[simp] theorem mem_fresh {seen xs : List α} {x : α} :
    x ∈ fresh seen xs ↔ x ∈ xs ∧ x ∉ seen := by
  induction xs generalizing seen with
  | nil => simp [fresh]
  | cons y rest ih =>
    by_cases hy : y ∈ seen
    · simp only [fresh, if_pos hy, ih, List.mem_cons]
      constructor
      · rintro ⟨hx,hs⟩
        exact ⟨Or.inr hx,hs⟩
      · rintro ⟨rfl | hx,hs⟩
        · exact absurd hy hs
        · exact ⟨hx,hs⟩
    · simp only [fresh, if_neg hy, List.mem_cons, ih, not_or]
      by_cases hxy : x = y
      · subst x
        simp [hy]
      · simp [hxy]

theorem nodup_fresh (seen xs : List α) : (fresh seen xs).Nodup := by
  induction xs generalizing seen with
  | nil => simp [fresh]
  | cons y rest ih =>
    by_cases hy : y ∈ seen
    · simpa only [fresh, if_pos hy] using ih seen
    · simp only [fresh, if_neg hy, List.nodup_cons]
      exact ⟨by simp,ih (y :: seen)⟩

theorem fresh_sublist (seen xs : List α) : (fresh seen xs).Sublist xs := by
  induction xs generalizing seen with
  | nil => simp [fresh]
  | cons y rest ih =>
    by_cases hy : y ∈ seen
    · simpa only [fresh, if_pos hy] using (ih seen).cons y
    · simpa only [fresh, if_neg hy] using (ih (y :: seen)).cons_cons y

variable {next : α → List α}

theorem nodup_visit {y : α} {visited waiting : List α} (xs : List α)
    (hn : (visited ++ y :: waiting).Nodup) :
    (y :: visited ++ (waiting ++ fresh (y :: visited ++ waiting) xs)).Nodup := by
  have hm : (y :: visited ++ waiting).Nodup := List.perm_middle.nodup_iff.mp hn
  rw [← List.append_assoc]
  apply List.Nodup.append hm (nodup_fresh _ _)
  intro x hx hf
  exact (mem_fresh.mp hf).2 hx

theorem forall_visit {P : α → Prop} (hnext : ∀ x, P x → ∀ y ∈ next x, P y) {y : α}
    {visited waiting : List α} (hv : ∀ x ∈ visited, P x) (hw : ∀ x ∈ y :: waiting, P x)
    (seen : List α) :
    (∀ x ∈ y :: visited, P x) ∧ ∀ x ∈ waiting ++ fresh seen (next y), P x := by
  have hy := hw y List.mem_cons_self
  constructor
  · intro x hx
    rcases List.mem_cons.mp hx with rfl | hx
    · exact hy
    · exact hv x hx
  · intro x hx
    rcases List.mem_append.mp hx with hx | hx
    · exact hw x (List.mem_cons_of_mem y hx)
    · exact hnext y hy x (mem_fresh.mp hx).1

theorem subset_walk (fuel : ℕ) (visited waiting : List α) {x : α}
    (hx : x ∈ visited ∨ x ∈ waiting) : x ∈ walk next fuel visited waiting := by
  induction fuel generalizing visited waiting with
  | zero => simpa [walk] using hx
  | succ fuel ih =>
    cases waiting with
    | nil => simpa [walk] using hx
    | cons y waiting =>
      apply ih
      rcases hx with hx | hx
      · exact Or.inl (List.mem_cons_of_mem y hx)
      · rcases List.mem_cons.mp hx with rfl | hx
        · exact Or.inl List.mem_cons_self
        · exact Or.inr (List.mem_append_left _ hx)

/-- A closed set that holds all visited and waiting nodes holds the whole result. -/
theorem walk_least {P : α → Prop} (hnext : ∀ x, P x → ∀ y ∈ next x, P y) (fuel : ℕ)
    (visited waiting : List α) (hv : ∀ x ∈ visited, P x) (hw : ∀ x ∈ waiting, P x) :
    ∀ x ∈ walk next fuel visited waiting, P x := by
  induction fuel generalizing visited waiting with
  | zero =>
    intro x hx
    rcases List.mem_append.mp hx with hx | hx
    · exact hv x (List.mem_reverse.mp hx)
    · exact hw x hx
  | succ fuel ih =>
    cases waiting with
    | nil =>
      intro x hx
      exact hv x (List.mem_reverse.mp hx)
    | cons y waiting =>
      have hall := forall_visit hnext hv hw (y :: visited ++ waiting)
      exact ih _ _ hall.1 hall.2

theorem nodup_walk (fuel : ℕ) (visited waiting : List α) (hn : (visited ++ waiting).Nodup) :
    (walk next fuel visited waiting).Nodup := by
  induction fuel generalizing visited waiting with
  | zero => exact ((List.reverse_perm visited).append_right waiting).nodup_iff.mpr hn
  | succ fuel ih =>
    cases waiting with
    | nil => simpa [walk] using hn
    | cons y waiting => exact ih _ _ (nodup_visit (next y) hn)

omit [DecidableEq α] in
theorem waiting_eq_nil {P : α → Prop} {size : ℕ}
    (hsize : ∀ l : List α, l.Nodup → (∀ x ∈ l, P x) → l.length ≤ size) {visited waiting : List α}
    (hv : ∀ x ∈ visited, P x) (hw : ∀ x ∈ waiting, P x) (hn : (visited ++ waiting).Nodup)
    (hfull : size ≤ visited.length) : waiting = [] := by
  have hlen := hsize (visited ++ waiting) hn (by
    intro x hx
    rcases List.mem_append.mp hx with hx | hx
    · exact hv x hx
    · exact hw x hx)
  rw [List.length_append] at hlen
  exact List.eq_nil_of_length_eq_zero (by omega)

/-- Every visited node leads to visited and waiting nodes only. Once all nodes of the closed set `P`
are visited nothing can wait, so the result is closed. -/
theorem walk_closed {P : α → Prop} (hnext : ∀ x, P x → ∀ y ∈ next x, P y) (fuel size : ℕ)
    (hsize : ∀ l : List α, l.Nodup → (∀ x ∈ l, P x) → l.length ≤ size)
    (visited waiting : List α) (hv : ∀ x ∈ visited, P x) (hw : ∀ x ∈ waiting, P x)
    (hn : (visited ++ waiting).Nodup) (hfuel : size ≤ visited.length + fuel)
    (hled : ∀ x ∈ visited, ∀ y ∈ next x, y ∈ visited ∨ y ∈ waiting) :
    ∀ x ∈ walk next fuel visited waiting, ∀ y ∈ next x, y ∈ walk next fuel visited waiting := by
  induction fuel generalizing visited waiting with
  | zero =>
    obtain rfl := waiting_eq_nil hsize hv hw hn hfuel
    simpa [walk] using hled
  | succ fuel ih =>
    cases waiting with
    | nil => simpa [walk] using hled
    | cons z waiting =>
      have hall := forall_visit hnext hv hw (z :: visited ++ waiting)
      apply ih _ _ hall.1 hall.2 (nodup_visit (next z) hn)
      · simp only [List.length_cons]
        omega
      · intro x hx y hy
        by_cases hseen : y ∈ z :: visited ++ waiting
        · rcases List.mem_append.mp hseen with h | h
          · exact Or.inl h
          · exact Or.inr (List.mem_append_left _ h)
        · rcases List.mem_cons.mp hx with rfl | hx
          · exact Or.inr (List.mem_append_right _ (mem_fresh.mpr ⟨hy,hseen⟩))
          · exfalso
            rcases hled x hx y hy with h | h
            · exact hseen (by simp [h])
            · rcases List.mem_cons.mp h with rfl | h
              · exact hseen (by simp)
              · exact hseen (by simp [h])

/-- More fuel than there are nodes to visit finds nothing more. -/
theorem walk_add {P : α → Prop} (hnext : ∀ x, P x → ∀ y ∈ next x, P y) (fuel size more : ℕ)
    (hsize : ∀ l : List α, l.Nodup → (∀ x ∈ l, P x) → l.length ≤ size)
    (visited waiting : List α) (hv : ∀ x ∈ visited, P x) (hw : ∀ x ∈ waiting, P x)
    (hn : (visited ++ waiting).Nodup) (hfuel : size ≤ visited.length + fuel) :
    walk next (fuel + more) visited waiting = walk next fuel visited waiting := by
  induction fuel generalizing visited waiting with
  | zero =>
    obtain rfl := waiting_eq_nil hsize hv hw hn hfuel
    cases more <;> simp [walk]
  | succ fuel ih =>
    rw [Nat.add_right_comm]
    cases waiting with
    | nil => rfl
    | cons z waiting =>
      have hall := forall_visit hnext hv hw (z :: visited ++ waiting)
      apply ih _ _ hall.1 hall.2 (nodup_visit (next z) hn)
      simp only [List.length_cons]
      omega

theorem prefix_walk (fuel : ℕ) (visited waiting : List α) :
    visited.reverse ++ waiting <+: walk next fuel visited waiting := by
  induction fuel generalizing visited waiting with
  | zero => exact List.prefix_rfl
  | succ fuel ih =>
    cases waiting with
    | nil => simp [walk]
    | cons y waiting =>
      refine List.IsPrefix.trans ?_ (ih (y :: visited) _)
      rw [List.reverse_cons, ← List.append_assoc]
      simp

section Map
variable {β : Type} [DecidableEq β] {f : α → β} {P : α → Prop}
  (hf : ∀ x, P x → ∀ y, P y → f x = f y → x = y)
include hf

theorem fresh_map (seen : List α) {xs : List α} (hseen : ∀ x ∈ seen, P x) (hxs : ∀ x ∈ xs, P x) :
    fresh (seen.map f) (xs.map f) = (fresh seen xs).map f := by
  induction xs generalizing seen with
  | nil => rfl
  | cons x xs ih =>
    obtain ⟨hx,hxs⟩ := List.forall_mem_cons.mp hxs
    have hmem : f x ∈ seen.map f ↔ x ∈ seen := by
      constructor
      · intro h
        obtain ⟨y,hy,he⟩ := List.mem_map.mp h
        rwa [← hf y (hseen y hy) x hx he]
      · exact List.mem_map_of_mem
    by_cases h : x ∈ seen
    · simpa only [List.map_cons, fresh, if_pos h, if_pos (hmem.mpr h)] using ih seen hseen hxs
    · have hrest := ih (x :: seen) (List.forall_mem_cons.mpr ⟨hx,hseen⟩) hxs
      simpa only [List.map_cons, fresh, if_neg h, if_neg (mt hmem.mp h), List.cons.injEq,
        true_and] using hrest

/-- A walk over renamed nodes finds the same nodes in the same order. -/
theorem walk_map {next' : β → List β} (hnext : ∀ x, P x → ∀ y ∈ next x, P y)
    (hmap : ∀ x, P x → next' (f x) = (next x).map f) (fuel : ℕ) (visited : List α)
    {waiting : List α} (hv : ∀ x ∈ visited, P x) (hw : ∀ x ∈ waiting, P x) :
    walk next' fuel (visited.map f) (waiting.map f) = (walk next fuel visited waiting).map f := by
  induction fuel generalizing visited waiting with
  | zero => simp [walk]
  | succ fuel ih =>
    cases waiting with
    | nil => simp [walk]
    | cons y waiting =>
      have hall := forall_visit hnext hv hw (y :: visited ++ waiting)
      have hy := hw y List.mem_cons_self
      have hseen : ∀ x ∈ y :: visited ++ waiting, P x := by
        intro x hx
        rcases List.mem_append.mp hx with hx | hx
        · exact hall.1 x hx
        · exact hw x (List.mem_cons_of_mem y hx)
      have hfresh := fresh_map hf _ hseen (hnext y hy)
      rw [List.map_append, List.map_cons] at hfresh
      rw [List.map_cons, walk, walk, hmap y hy, hfresh, ← List.map_append, ← List.map_cons]
      exact ih (y :: visited) hall.1 hall.2

end Map

variable {fuel : ℕ} {seeds : List α}

theorem seed_mem_closure {x : α} (hx : x ∈ seeds) : x ∈ closure next fuel seeds :=
  subset_walk fuel [] _ (Or.inr (by simpa using hx))

theorem closure_least {P : α → Prop} (hseeds : ∀ x ∈ seeds, P x)
    (hnext : ∀ x, P x → ∀ y ∈ next x, P y) {x : α} (hx : x ∈ closure next fuel seeds) : P x := by
  apply walk_least hnext fuel [] (fresh [] seeds) (by simp) _ x hx
  intro y hy
  exact hseeds y (mem_fresh.mp hy).1

theorem head?_closure_singleton (x : α) : (closure next fuel [x]).head? = some x := by
  obtain ⟨rest,h⟩ := @prefix_walk α _ next fuel [] (fresh [] [x])
  rw [closure, ← h]
  simp [fresh]

theorem nodup_closure : (closure next fuel seeds).Nodup :=
  nodup_walk fuel [] _ (by simpa using nodup_fresh [] seeds)

theorem closure_add {P : α → Prop} (hseeds : ∀ x ∈ seeds, P x)
    (hnext : ∀ x, P x → ∀ y ∈ next x, P y)
    (hfuel : ∀ l : List α, l.Nodup → (∀ x ∈ l, P x) → l.length ≤ fuel) (more : ℕ) :
    closure next (fuel + more) seeds = closure next fuel seeds := by
  apply walk_add hnext fuel fuel more hfuel [] (fresh [] seeds) (by simp) _
    (by simpa using nodup_fresh [] seeds) (by simp)
  intro z hz
  exact hseeds z (mem_fresh.mp hz).1

theorem closure_map {β : Type} [DecidableEq β] {f : α → β} {next' : β → List β} {P : α → Prop}
    (hf : ∀ x, P x → ∀ y, P y → f x = f y → x = y) (hseeds : ∀ x ∈ seeds, P x)
    (hnext : ∀ x, P x → ∀ y ∈ next x, P y) (hmap : ∀ x, P x → next' (f x) = (next x).map f) :
    closure next' fuel (seeds.map f) = (closure next fuel seeds).map f := by
  have hfresh := fresh_map hf [] (by simp) hseeds
  rw [List.map_nil] at hfresh
  rw [closure, closure, hfresh]
  refine walk_map hf hnext hmap fuel [] (by simp) fun x hx => ?_
  exact hseeds x (mem_fresh.mp hx).1

theorem closure_closed {P : α → Prop} (hseeds : ∀ x ∈ seeds, P x)
    (hnext : ∀ x, P x → ∀ y ∈ next x, P y)
    (hfuel : ∀ l : List α, l.Nodup → (∀ x ∈ l, P x) → l.length ≤ fuel)
    {x y : α} (hx : x ∈ closure next fuel seeds) (hy : y ∈ next x) :
    y ∈ closure next fuel seeds := by
  apply walk_closed hnext fuel fuel hfuel [] (fresh [] seeds) (by simp) _
    (by simpa using nodup_fresh [] seeds) (by simp) (by simp) x hx y hy
  intro z hz
  exact hseeds z (mem_fresh.mp hz).1

end LetPrint.Reach
