import LetPrint.Parser
import LetPrint.Proofs.Tables
import Mathlib.Data.List.Chain
import Mathlib.Data.Nat.Digits.Defs
import Mathlib.Logic.Relation

/-! # How long a parser can reduce

Between two shifts only the stack of states decides what is reduced. A stack that comes back, or a
state that grows itself again above itself, repeats for ever. So reductions that end stay within the
stacks of bounded height, no stack twice, and their number is below the budget.
-/
namespace LetPrint

namespace Parser
variable {p : Parser} {t : Terminal}

/-- The states after the reduction that the table asks for, if it asks for one. -/
def reduceStates (p : Parser) (t : Terminal) (states : List ℕ) : Option (List ℕ) :=
  match p.table.action (states.headD 0) t with
  | some (.reduce production) =>
    let rule := p.grammar.production production
    if states.length ≤ rule.rhs.length then none
    else
      let rest := states.drop rule.rhs.length
      (p.table.goto (rest.headD 0) rule.lhs).map (· :: rest)
  | _ => none

def Reduces (p : Parser) (t : Terminal) (before after : List ℕ) : Prop :=
  p.reduceStates t before = some after

/-- Reducing comes to an end. -/
def Settles (p : Parser) (t : Terminal) (states : List ℕ) : Prop :=
  Acc (fun after before => p.Reduces t before after) states

theorem Reduces.unique {s u v : List ℕ} (hu : p.Reduces t s u) (hv : p.Reduces t s v) : u = v :=
  Option.some.inj (hu.symm.trans hv)

theorem settles_of_reduces {s u : List ℕ} (h : p.Reduces t s u) (hu : p.Settles t u) :
    p.Settles t s := by
  constructor
  intro v hv
  rwa [← Reduces.unique h hv]

/-- A reduction looks at no more of the stack than the states that it takes away and the one below
them. -/
theorem Reduces.local {s v : List ℕ} (h : p.Reduces t s v) : ∃ k target, k < s.length ∧
    v = target :: s.drop k ∧
    ∀ u : List ℕ, u.take (k + 1) = s.take (k + 1) → p.Reduces t u (target :: u.drop k) := by
  unfold Reduces reduceStates at h
  split at h
  · next production ha =>
    simp only at h
    split_ifs at h with hlen
    obtain ⟨target,hg,rfl⟩ := Option.map_eq_some_iff.mp h
    refine ⟨_,target,by omega,rfl,fun u hu => ?_⟩
    have hk : (p.grammar.production production).rhs.length < u.length := by
      have hl := congrArg List.length hu
      simp only [List.length_take] at hl
      omega
    have hhead : u.headD 0 = s.headD 0 := by
      have hh := congrArg (List.headD · 0) hu
      simpa [List.headD_eq_head?_getD, List.head?_take] using hh
    have hrest : (u.drop (p.grammar.production production).rhs.length).headD 0 =
        (s.drop (p.grammar.production production).rhs.length).headD 0 := by
      have hh := congrArg (·[(p.grammar.production production).rhs.length]?) hu
      simp only [List.getElem?_take_of_lt (Nat.lt_succ_self _)] at hh
      rw [List.headD_eq_head?_getD, List.headD_eq_head?_getD, List.head?_drop, List.head?_drop, hh]
    simp only [Reduces, reduceStates, hhead, ha, hrest, hg, Nat.not_le.mpr hk, if_false,
      Option.map_some]
  · cases h

/-- What stands below a stack does not change its reductions. -/
theorem Reduces.append {s v : List ℕ} (h : p.Reduces t s v) (below : List ℕ) :
    p.Reduces t (s ++ below) (v ++ below) := by
  obtain ⟨k,target,hk,rfl,hlocal⟩ := h.local
  have hr := hlocal (s ++ below) (List.take_append_of_le_length hk)
  rwa [List.drop_append_of_le_length hk.le] at hr

theorem reduces_append_of_reflTransGen {s v : List ℕ} (h : Relation.ReflTransGen (p.Reduces t) s v)
    (below : List ℕ) : Relation.ReflTransGen (p.Reduces t) (s ++ below) (v ++ below) :=
  h.lift (· ++ below) fun _ _ hr => hr.append below

theorem settles_of_reflTransGen {s v : List ℕ} (h : Relation.ReflTransGen (p.Reduces t) s v)
    (hv : p.Settles t v) : p.Settles t s := by
  induction h using Relation.ReflTransGen.head_induction_on with
  | refl => exact hv
  | head hr _ ih => exact settles_of_reduces hr ih

theorem Settles.of_reflTransGen {s v : List ℕ} (hs : p.Settles t s)
    (h : Relation.ReflTransGen (p.Reduces t) s v) : p.Settles t v := by
  induction h with
  | refl => exact hs
  | tail _ hr ih => exact ih.inv hr

/-- A stack that comes back with more below its top never settles. -/
theorem not_settles_of_loop {s more : List ℕ}
    (h : Relation.TransGen (p.Reduces t) s (s ++ more)) (below : List ℕ) :
    ¬ p.Settles t (s ++ below) := by
  intro hs
  have hacc := hs.transGen
  generalize hw : s ++ below = w at hacc
  induction hacc generalizing below with
  | intro w _ ih =>
    subst w
    have hgrown : Relation.TransGen (p.Reduces t) (s ++ below) (s ++ (more ++ below)) := by
      have hl : Relation.TransGen (p.Reduces t) (s ++ below) (s ++ more ++ below) :=
        h.lift (· ++ below) fun _ _ hr => hr.append below
      rwa [List.append_assoc] at hl
    exact ih _ (Relation.transGen_swap.mp hgrown) (more ++ below)
      (hs.of_reflTransGen hgrown.to_reflTransGen) rfl

/-- Every state of the list has grown what stands directly above it. -/
def Grown (p : Parser) (t : Terminal) (states : List ℕ) : Prop :=
  ∀ front above q below, states = front ++ above ++ q :: below →
    Relation.ReflTransGen (p.Reduces t) [q] (above ++ [q])

theorem grown_singleton (q : ℕ) : p.Grown t [q] := by
  intro front above r below h
  have hlen := congrArg List.length h
  simp only [List.length_append, List.length_cons, List.length_nil] at hlen
  have habove : above = [] := List.eq_nil_of_length_eq_zero (by omega)
  rw [habove]
  exact Relation.ReflTransGen.refl

theorem Grown.push {states : List ℕ} {k target : ℕ} (h : p.Grown t states)
    (hlocal : ∀ u : List ℕ, u.take (k + 1) = states.take (k + 1) →
      p.Reduces t u (target :: u.drop k)) (hk : k < states.length) :
    p.Grown t (target :: states.drop k) := by
  intro front above q below he
  cases front with
  | cons top front =>
    simp only [List.cons_append, List.cons.injEq] at he
    refine h (states.take k ++ front) above q below ?_
    rw [List.append_assoc, List.append_assoc, ← List.append_assoc front, ← he.2,
      List.take_append_drop]
  | nil =>
    cases above with
    | nil => exact Relation.ReflTransGen.refl
    | cons top above =>
      simp only [List.nil_append, List.cons_append, List.cons.injEq] at he
      obtain ⟨rfl,he⟩ := he
      -- The states above `q` were `take k` and `above`; the reduction puts the target for `take k`.
      have hsplit : states.take k ++ above ++ [q] ++ below = states := by
        rw [List.append_assoc, List.singleton_append, List.append_assoc, ← he,
          List.take_append_drop]
      have hgrown := h [] (states.take k ++ above) q below (by simpa using hsplit.symm)
      have htake : (states.take k ++ above ++ [q] ++ below).take (k + 1) =
          (states.take k ++ above ++ [q]).take (k + 1) :=
        List.take_append_of_le_length (by simp; omega)
      have hdrop : (states.take k ++ above ++ [q]).drop k = above ++ [q] := by
        rw [List.append_assoc, List.drop_append_of_le_length (by simp; omega)]
        simp
      have hstep := hlocal _ (by rw [← htake, hsplit])
      rw [hdrop] at hstep
      exact hgrown.tail hstep

/-- The states that were pushed since a stack, over what is left of that stack. -/
def GrownOver (p : Parser) (t : Terminal) (base states : List ℕ) : Prop :=
  ∃ pushed rest, states = pushed ++ rest ∧ p.Grown t pushed ∧ rest <:+ base

theorem GrownOver.step {base s v : List ℕ} (h : p.GrownOver t base s) (hr : p.Reduces t s v) :
    p.GrownOver t base v := by
  obtain ⟨pushed,rest,rfl,hgrown,hsuffix⟩ := h
  obtain ⟨k,target,hk,rfl,hlocal⟩ := hr.local
  by_cases hkp : k < pushed.length
  · refine ⟨target :: pushed.drop k,rest,?_,hgrown.push ?_ hkp,hsuffix⟩
    · rw [List.drop_append_of_le_length hkp.le, List.cons_append]
    · intro u hu
      exact hlocal u (by rw [hu, List.take_append_of_le_length hkp])
  · refine ⟨[target],rest.drop (k - pushed.length),?_,grown_singleton target,
      (List.drop_suffix _ _).trans hsuffix⟩
    rw [List.drop_append, List.drop_eq_nil_of_le (Nat.le_of_not_lt hkp)]
    rfl

theorem grownOver_of_reflTransGen {s v : List ℕ} (h : Relation.ReflTransGen (p.Reduces t) s v) :
    p.GrownOver t s v := by
  induction h with
  | refl =>
    refine ⟨[],s,rfl,?_,List.suffix_rfl⟩
    intro front above q below he
    simp at he
  | tail _ hr ih => exact ih.step hr

theorem nodup_of_no_repetition {l : List ℕ}
    (h : ∀ front q middle back, l ≠ front ++ q :: (middle ++ q :: back)) : l.Nodup := by
  induction l with
  | nil => exact List.nodup_nil
  | cons q l ih =>
    refine List.nodup_cons.mpr ⟨?_,ih fun front r middle back he => ?_⟩
    · intro hq
      obtain ⟨middle,back,he⟩ := List.append_of_mem hq
      exact h [] q middle back (by rw [he]; rfl)
    · exact h (q :: front) r middle back (by rw [he]; rfl)

/-- A state cannot have grown itself if the stack settles. -/
theorem Grown.nodup {pushed rest : List ℕ} (h : p.Grown t pushed)
    (hs : p.Settles t (pushed ++ rest)) : pushed.Nodup := by
  refine nodup_of_no_repetition fun front q middle back he => ?_
  have hfront := h [] front q (middle ++ q :: back) (by simpa using he)
  have hloop := h front (q :: middle) q back (by simpa using he)
  have htop : p.Settles t (q :: (middle ++ q :: back) ++ rest) := by
    refine settles_of_reflTransGen ?_ hs
    have hr := reduces_append_of_reflTransGen hfront (middle ++ q :: back ++ rest)
    rw [he]
    simpa using hr
  have htrans : Relation.TransGen (p.Reduces t) [q] ([q] ++ (middle ++ [q])) := by
    rcases Relation.reflTransGen_iff_eq_or_transGen.mp hloop with heq | htr
    · have hlen := congrArg List.length heq
      simp at hlen
    · simpa using htr
  exact not_settles_of_loop htrans _ htop

theorem Reduces.forall_lt {s v : List ℕ} (h : p.Reduces t s v)
    (hgoto : ∀ q a target, p.table.goto q a = some target → target < p.table.stateCount)
    (hs : ∀ q ∈ s, q < p.table.stateCount) : ∀ q ∈ v, q < p.table.stateCount := by
  unfold Reduces reduceStates at h
  split at h
  · next production ha =>
    simp only at h
    split_ifs at h with hlen
    obtain ⟨target,hg,rfl⟩ := Option.map_eq_some_iff.mp h
    intro q hq
    rcases List.mem_cons.mp hq with rfl | hq
    · exact hgoto _ _ _ hg
    · exact hs q (List.mem_of_mem_drop hq)
  · cases h

/-- Stacks of bounded height over `n` states, written as numbers to the base `n + 2`. -/
theorem length_le_pow {seen : List (List ℕ)} {n height : ℕ} (hn : seen.Nodup)
    (hb : ∀ s ∈ seen, s.length ≤ height ∧ ∀ q ∈ s, q < n) :
    seen.length ≤ (n + 2) ^ height := by
  have hdigit : ∀ s ∈ seen, ∀ d ∈ s.map (· + 1), d < n + 2 := by
    intro s hs d hd
    obtain ⟨q,hq,rfl⟩ := List.mem_map.mp hd
    have hlt := (hb s hs).2 q hq
    omega
  have hread : ∀ s ∈ seen, Nat.digits (n + 2) (Nat.ofDigits (n + 2) (s.map (· + 1))) =
      s.map (· + 1) := by
    intro s hs
    refine Nat.digits_ofDigits (n + 2) (by omega) _ (hdigit s hs) fun hne => ?_
    obtain ⟨q,_,he⟩ := List.mem_map.mp (List.getLast_mem hne)
    omega
  have hcodes : (seen.map fun s => Nat.ofDigits (n + 2) (s.map (· + 1))).Nodup := by
    refine List.Nodup.map_on ?_ hn
    intro u hu v hv he
    have hmap : u.map (· + 1) = v.map (· + 1) := by rw [← hread u hu, he, hread v hv]
    exact List.map_injective_iff.mpr (fun a b h => by simpa using h) hmap
  have hrange : (seen.map fun s => Nat.ofDigits (n + 2) (s.map (· + 1))) ⊆
      List.range ((n + 2) ^ height) := by
    intro c hc
    obtain ⟨s,hs,rfl⟩ := List.mem_map.mp hc
    have hlt := Nat.ofDigits_lt_base_pow_length (by omega) (hdigit s hs)
    rw [List.length_map] at hlt
    exact List.mem_range.mpr (hlt.trans_le (Nat.pow_le_pow_right (by omega) (hb s hs).1))
  have hle := (List.subperm_of_subset hcodes hrange).length_le
  rwa [List.length_map, List.length_range] at hle

/-- While reductions settle the stack grows by no more than the number of states. -/
theorem length_le_of_settles {s v : List ℕ}
    (h : Relation.ReflTransGen (p.Reduces t) s v) (hs : p.Settles t s)
    (hv : ∀ q ∈ v, q < p.table.stateCount) : v.length ≤ s.length + p.table.stateCount := by
  obtain ⟨pushed,rest,rfl,hgrown,hsuffix⟩ := grownOver_of_reflTransGen h
  have hnodup := hgrown.nodup (hs.of_reflTransGen h)
  have hsub : pushed ⊆ List.range p.table.stateCount := by
    intro q hq
    exact List.mem_range.mpr (hv q (List.mem_append_left _ hq))
  have hpushed := (List.subperm_of_subset hnodup hsub).length_le
  have hrest := hsuffix.length_le
  rw [List.length_range] at hpushed
  rw [List.length_append]
  omega

theorem reflTransGen_of_mem_path {s v : List ℕ} {path : List (List ℕ)}
    (h : List.IsChain (p.Reduces t) (s :: path)) (hv : v ∈ s :: path) :
    Relation.ReflTransGen (p.Reduces t) s v := by
  induction path generalizing s with
  | nil =>
    obtain rfl := List.mem_singleton.mp hv
    exact Relation.ReflTransGen.refl
  | cons u path ih =>
    obtain ⟨hr,hchain⟩ := List.isChain_cons_cons.mp h
    rcases List.mem_cons.mp hv with rfl | hv
    · exact Relation.ReflTransGen.refl
    · exact Relation.ReflTransGen.head hr (ih hchain hv)

theorem nodup_path {s : List ℕ} {path : List (List ℕ)} (hs : p.Settles t s)
    (h : List.IsChain (p.Reduces t) (s :: path)) : (s :: path).Nodup := by
  induction path generalizing s with
  | nil => simp
  | cons u path ih =>
    obtain ⟨hr,hchain⟩ := List.isChain_cons_cons.mp h
    refine List.nodup_cons.mpr ⟨fun hm => ?_,ih (hs.inv hr) hchain⟩
    have hloop : Relation.TransGen (p.Reduces t) s (s ++ []) := by
      rw [List.append_nil]
      exact Relation.TransGen.head' hr (reflTransGen_of_mem_path hchain hm)
    exact not_settles_of_loop hloop [] (by simpa using hs)

/-- Reductions that settle are fewer than the budget. -/
theorem path_length_lt {s : List ℕ} {path : List (List ℕ)}
    (hgoto : ∀ q a target, p.table.goto q a = some target → target < p.table.stateCount)
    (hlt : ∀ q ∈ s, q < p.table.stateCount) (hs : p.Settles t s)
    (h : List.IsChain (p.Reduces t) (s :: path)) :
    path.length < (p.table.stateCount + 2) ^ (s.length + (p.table.stateCount + 2)) := by
  have hall : ∀ v ∈ s :: path, v.length ≤ s.length + p.table.stateCount ∧
      ∀ q ∈ v, q < p.table.stateCount := by
    intro v hv
    have hr := reflTransGen_of_mem_path h hv
    have hvlt : ∀ q ∈ v, q < p.table.stateCount := by
      clear hv
      induction hr with
      | refl => exact hlt
      | tail _ hstep ih => exact hstep.forall_lt hgoto ih
    exact ⟨length_le_of_settles hr hs hvlt,hvlt⟩
  have hle := length_le_pow (nodup_path hs h) hall
  have hpow : (p.table.stateCount + 2) ^ (s.length + p.table.stateCount) ≤
      (p.table.stateCount + 2) ^ (s.length + (p.table.stateCount + 2)) :=
    Nat.pow_le_pow_right (by omega) (by omega)
  rw [List.length_cons] at hle
  omega

end Parser

end LetPrint
