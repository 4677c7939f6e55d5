import LetPrint.Proofs.Tables

/-! # Merging by core

Which symbols lead on from a canonical state, and to which cores, depends on its core alone. So all
canonical states of a merged state put the same edges into it. Merged states are numbered as their
cores first appear. A complete item brings its lookahead from one canonical state, and that state
has all shifts of its core, so merging makes no shift clash with a reduction for the first time.
-/
namespace LetPrint

namespace Reach
variable {α : Type} [DecidableEq α]

theorem fresh_prefix (seen xs ys : List α) : fresh seen xs <+: fresh seen (xs ++ ys) := by
  induction xs generalizing seen with
  | nil => exact List.nil_prefix
  | cons x xs ih =>
    simp only [List.cons_append, fresh]
    split_ifs with hx
    · exact ih seen
    · exact List.cons_prefix_cons.mpr ⟨rfl,ih (x :: seen)⟩

theorem exists_earlier [BEq α] [LawfulBEq α] {xs : List α} {k : ℕ} {y z : α}
    (hk : xs[k]? = some z) (hlt : (fresh [] xs).idxOf y < (fresh [] xs).idxOf z) :
    ∃ j < k, xs[j]? = some y := by
  have hz : z ∈ xs.take (k + 1) := by
    apply List.mem_of_getElem? (i := k)
    rwa [List.getElem?_take_of_lt (Nat.lt_succ_self k)]
  have hfront : z ∈ fresh [] (xs.take (k + 1)) := mem_fresh.mpr ⟨hz,by simp⟩
  obtain ⟨back,hback⟩ := fresh_prefix [] (xs.take (k + 1)) (xs.drop (k + 1))
  rw [List.take_append_drop] at hback
  rw [← hback, List.idxOf_append_of_mem hfront] at hlt
  have hbound := List.idxOf_lt_length_of_mem hfront
  have hy : y ∈ xs.take (k + 1) := by
    by_contra hnot
    have hout : y ∉ fresh [] (xs.take (k + 1)) := fun h => hnot (mem_fresh.mp h).1
    rw [List.idxOf_append_of_notMem hout] at hlt
    omega
  obtain ⟨j,hj⟩ := List.getElem?_of_mem hy
  have hjk : j < k + 1 := by
    have hlen := (List.getElem?_eq_some_iff.mp hj).1
    rw [List.length_take] at hlen
    omega
  rw [List.getElem?_take_of_lt hjk] at hj
  refine ⟨j,?_,hj⟩
  by_contra hge
  obtain rfl : j = k := by omega
  rw [hk] at hj
  cases hj
  rw [List.idxOf_append_of_mem hfront] at hlt
  exact Nat.lt_irrefl _ hlt

end Reach

namespace Table
variable {g : Grammar} {edges : List (Symbol × ℕ)} {i : Item} {t : Terminal}

theorem demand_eq_shift_iff {target : ℕ} : demand g edges i = some (t, .shift target) ↔
    g.next i = some (.terminal t) ∧ edges.lookup (.terminal t) = some target := by
  unfold demand
  split
  · next u hu =>
    rw [hu]
    constructor
    · intro h
      obtain ⟨n,hn,he⟩ := Option.map_eq_some_iff.mp h
      cases he
      exact ⟨rfl,hn⟩
    · rintro ⟨he,hn⟩
      cases he
      rw [hn, Option.map_some]
  · next a ha => simp [ha]
  · next hnone => split_ifs <;> simp [hnone]

/-- Where an item asks for anything but a shift, the edges of its state do not matter. -/
theorem demand_congr {action : Action} (hne : ∀ n, action ≠ .shift n)
    (h : demand g edges i = some (t, action)) (other : List (Symbol × ℕ)) :
    demand g other i = some (t, action) := by
  unfold demand at h ⊢
  split at h
  · obtain ⟨n,_,he⟩ := Option.map_eq_some_iff.mp h
    cases he
    exact absurd rfl (hne n)
  · cases h
  · exact h

end Table

namespace Automaton
variable {a : Automaton}

def coreAt (a : Automaton) (state : ℕ) : List (ℕ × ℕ) := coreOf (a.itemsAt state)

/-- An item of the state asks for the action on the terminal. -/
def Demands (a : Automaton) (g : Grammar) (state : ℕ) (t : Terminal) (action : Action) : Prop :=
  ∃ i ∈ a.itemsAt state, Table.demand g (a.edgesAt state) i = some (t, action)

def SameCore (a : Automaton) (s t : ℕ) : Prop :=
  s < a.states.length ∧ t < a.states.length ∧ a.coreAt s = a.coreAt t

theorem SameCore.symm {s t : ℕ} (h : a.SameCore s t) : a.SameCore t s := ⟨h.2.1,h.1,h.2.2.symm⟩

theorem length_states_merged : a.merged.states.length = a.cores.length := by
  simp [merged]

theorem getElem?_mergedNumbers (s : ℕ) :
    a.mergedNumbers[s]? = (a.states[s]?).map fun items => a.cores.idxOf (coreOf items) := by
  simp [mergedNumbers]

theorem getElem?_mergedNumbers_of_lt {s : ℕ} (hs : s < a.states.length) :
    a.mergedNumbers[s]? = some (a.cores.idxOf (a.coreAt s)) := by
  simp [getElem?_mergedNumbers, coreAt, itemsAt, hs]

theorem lt_of_mergedNumbers {s n : ℕ} (h : a.mergedNumbers[s]? = some n) :
    s < a.states.length := by
  have hlt := (List.getElem?_eq_some_iff.mp h).1
  rwa [mergedNumbers, List.length_map] at hlt

theorem coreAt_mem_cores {s : ℕ} (hs : s < a.states.length) : a.coreAt s ∈ a.cores := by
  refine Reach.mem_fresh.mpr ⟨List.mem_map_of_mem ?_,by simp⟩
  simp [itemsAt, hs]

/-- States have one number exactly if they have one core. -/
theorem mergedNumbers_eq_iff {s t : ℕ} (hs : s < a.states.length) (ht : t < a.states.length) :
    a.mergedNumbers[s]? = a.mergedNumbers[t]? ↔ a.coreAt s = a.coreAt t := by
  rw [getElem?_mergedNumbers_of_lt hs, getElem?_mergedNumbers_of_lt ht, Option.some.injEq]
  exact List.idxOf_inj (coreAt_mem_cores hs)

theorem mem_mergedNumbers {m : ℕ} : m ∈ a.mergedNumbers ↔ m < a.merged.states.length := by
  rw [length_states_merged]
  constructor
  · intro hm
    obtain ⟨s,hs⟩ := List.getElem?_of_mem hm
    have hlt := lt_of_mergedNumbers hs
    rw [getElem?_mergedNumbers_of_lt hlt] at hs
    cases hs
    exact List.idxOf_lt_length_of_mem (coreAt_mem_cores hlt)
  · intro hm
    have hcore : a.cores[m] ∈ a.states.map coreOf := (Reach.mem_fresh.mp (List.getElem_mem hm)).1
    obtain ⟨items,hi,he⟩ := List.mem_map.mp hcore
    refine List.mem_map.mpr ⟨items,hi,?_⟩
    rw [he]
    exact (Reach.nodup_fresh _ _).idxOf_getElem m hm

/-- A number appears only after all smaller ones. -/
theorem exists_earlier_number {s n m : ℕ} (hs : a.mergedNumbers[s]? = some n) (hm : m < n) :
    ∃ r < s, a.mergedNumbers[r]? = some m := by
  have hlt := lt_of_mergedNumbers hs
  rw [getElem?_mergedNumbers_of_lt hlt] at hs
  cases hs
  have hn := List.idxOf_lt_length_of_mem (coreAt_mem_cores hlt)
  have hmlt : m < a.cores.length := by omega
  have hidx : a.cores.idxOf a.cores[m] = m := (Reach.nodup_fresh _ _).idxOf_getElem m hmlt
  have hcore : (a.states.map coreOf)[s]? = some (a.coreAt s) := by
    simp [coreAt, itemsAt, hlt]
  obtain ⟨r,hr,hrs⟩ := Reach.exists_earlier hcore (y := a.cores[m]) (by
    change a.cores.idxOf a.cores[m] < a.cores.idxOf (a.coreAt s)
    rwa [hidx])
  refine ⟨r,hr,?_⟩
  rw [List.getElem?_map] at hrs
  obtain ⟨items,hi,he⟩ := Option.map_eq_some_iff.mp hrs
  rw [getElem?_mergedNumbers, hi, Option.map_some, he, hidx]

end Automaton

namespace Grammar
open Automaton (canonical)
variable {g : Grammar}

theorem exists_of_coreOf_eq {items other : List Item} (h : coreOf items = coreOf other) {i : Item}
    (hi : i ∈ items) : ∃ u, ⟨i.production, i.dot, u⟩ ∈ other := by
  rw [← mem_coreOf, ← h, mem_coreOf]
  exact ⟨i.lookahead,hi⟩

theorem nextSymbols_subset {items other : List Item} (h : coreOf items = coreOf other) {x : Symbol}
    (hx : x ∈ g.nextSymbols items) : x ∈ g.nextSymbols other := by
  obtain ⟨i,hi,hnext⟩ := mem_nextSymbols.mp hx
  obtain ⟨u,hu⟩ := exists_of_coreOf_eq h hi
  exact mem_nextSymbols.mpr ⟨_,hu,hnext⟩

theorem lookup_edgesOf {items : List Item} {x : Symbol} {target : ℕ} :
    (g.edgesOf items).lookup x = some target ↔ x ∈ g.nextSymbols items ∧
      g.lr1.idxOf (g.goto (FirstSets.ofGrammar g) items x) = target := by
  by_cases hx : x ∈ g.nextSymbols items
  · simp [edgesOf, List.lookup_graph _ hx, hx]
  · have hnone : (g.edgesOf items).lookup x = none := by
      rw [List.lookup_eq_none_iff]
      intro edge hedge
      obtain ⟨y,hy,rfl⟩ := List.mem_map.mp hedge
      have hne : x ≠ y := by
        rintro rfl
        exact hx hy
      exact bne_iff_ne.mpr hne
    simp [hnone, hx]

theorem goto_mem_lr1 {items : List Item} (hm : items ∈ g.lr1) {x : Symbol}
    (hx : x ∈ g.nextSymbols items) : g.goto (FirstSets.ofGrammar g) items x ∈ g.lr1 := by
  obtain ⟨i,hi,hnext⟩ := mem_nextSymbols.mp hx
  exact goto_mem_canonicalStates hm hi hnext

section Canonical
variable {s t : ℕ}

theorem itemsAt_canonical_mem (hs : s < g.lr1.length) :
    (canonical g).itemsAt s ∈ g.lr1 := by
  have hitems : (canonical g).itemsAt s = g.lr1[s] := by
    change g.lr1.getD s [] = g.lr1[s]
    simp [hs]
  rw [hitems]
  exact List.getElem_mem hs

theorem itemsAt_canonical_idxOf {items : List Item} (hm : items ∈ g.lr1) :
    (canonical g).itemsAt (g.lr1.idxOf items) = items := by
  change g.lr1.getD (g.lr1.idxOf items) [] = items
  simp [List.getElem?_idxOf hm]

theorem edgesAt_canonical (hs : s < g.lr1.length) :
    (canonical g).edgesAt s = g.edgesOf ((canonical g).itemsAt s) := by
  change (g.lr1.map g.edgesOf).getD s [] = g.edgesOf (g.lr1.getD s [])
  simp [hs]

theorem lookup_edgesAt_canonical (hs : s < g.lr1.length) {x : Symbol} {target : ℕ} :
    ((canonical g).edgesAt s).lookup x = some target ↔
      x ∈ g.nextSymbols ((canonical g).itemsAt s) ∧ g.lr1.idxOf
        (g.goto (FirstSets.ofGrammar g) ((canonical g).itemsAt s) x) = target := by
  rw [edgesAt_canonical hs, lookup_edgesOf]

theorem number_canonical (hs : s < g.lr1.length) :
    (canonical g).mergedNumbers[s]? =
      some (g.numberOf ((canonical g).itemsAt s)) :=
  Automaton.getElem?_mergedNumbers_of_lt hs

theorem number_idxOf {items : List Item} (hm : items ∈ g.lr1) :
    (canonical g).mergedNumbers[g.lr1.idxOf items]? = some (g.numberOf items) := by
  rw [number_canonical (List.idxOf_lt_length_of_mem hm), itemsAt_canonical_idxOf hm]

/-- What a state does with a symbol depends on its core. -/
theorem edge_of_sameCore (h : (canonical g).SameCore s t) {x : Symbol} {s' : ℕ}
    (he : ((canonical g).edgesAt s).lookup x = some s') :
    ∃ t', ((canonical g).edgesAt t).lookup x = some t' ∧
      (canonical g).SameCore s' t' := by
  obtain ⟨hs,ht,hcore⟩ := h
  obtain ⟨hx,rfl⟩ := (lookup_edgesAt_canonical hs).mp he
  have hy := nextSymbols_subset hcore hx
  have hleft := goto_mem_lr1 (itemsAt_canonical_mem hs) hx
  have hright := goto_mem_lr1 (itemsAt_canonical_mem ht) hy
  refine ⟨_,(lookup_edgesAt_canonical ht).mpr ⟨hy,rfl⟩,List.idxOf_lt_length_of_mem hleft,
    List.idxOf_lt_length_of_mem hright,?_⟩
  rw [Automaton.coreAt, Automaton.coreAt, itemsAt_canonical_idxOf hleft,
    itemsAt_canonical_idxOf hright]
  exact coreOf_goto_eq hcore

theorem rel_edges_of_sameCore (h : (canonical g).SameCore s t) (x : Symbol) :
    Option.Rel (canonical g).SameCore (((canonical g).edgesAt s).lookup x)
      (((canonical g).edgesAt t).lookup x) := by
  cases hs : ((canonical g).edgesAt s).lookup x with
  | some s' =>
    obtain ⟨t',ht,hsame⟩ := edge_of_sameCore h hs
    rw [ht]
    exact .some hsame
  | none =>
    cases ht : ((canonical g).edgesAt t).lookup x with
    | none => exact .none
    | some t' =>
      obtain ⟨s',hs',_⟩ := edge_of_sameCore h.symm ht
      rw [hs] at hs'
      cases hs'

/-- Any canonical state gives its merged state all its edges. -/
theorem lookup_edgesAt_of_number {m : ℕ}
    (hm : (canonical g).mergedNumbers[s]? = some m) (x : Symbol) :
    (g.lalr.edgesAt m).lookup x = (((canonical g).edgesAt s).lookup x).bind
      fun target => (canonical g).mergedNumbers[target]? := by
  have hs : s < g.lr1.length := Automaton.lt_of_mergedNumbers hm
  rw [number_canonical hs] at hm
  cases hm
  have hmem := itemsAt_canonical_mem hs
  refine Option.ext fun target => ?_
  rw [lookup_edgesAt, Option.bind_eq_some_iff]
  constructor
  · rintro ⟨items,hi,hn,hx,rfl⟩
    have hy := nextSymbols_subset (coreOf_eq_of_numberOf_eq hi hn) hx
    refine ⟨_,(lookup_edgesAt_canonical hs).mpr ⟨hy,rfl⟩,?_⟩
    rw [number_idxOf (goto_mem_lr1 hmem hy), numberOf_goto_eq hi hn]
  · rintro ⟨s',he,hn⟩
    obtain ⟨hx,rfl⟩ := (lookup_edgesAt_canonical hs).mp he
    rw [number_idxOf (goto_mem_lr1 hmem hx)] at hn
    cases hn
    exact ⟨_,hmem,rfl,hx,rfl⟩

theorem exists_number_of_mem_itemsAt {m : ℕ} {i : Item} (hi : i ∈ g.lalr.itemsAt m) :
    ∃ s, (canonical g).mergedNumbers[s]? = some m ∧
      i ∈ (canonical g).itemsAt s := by
  obtain ⟨items,hm,rfl,him⟩ := mem_itemsAt.mp hi
  exact ⟨g.lr1.idxOf items,number_idxOf hm,by rwa [itemsAt_canonical_idxOf hm]⟩

/-- A merged state shifts a terminal only if each of its canonical states does. -/
theorem demands_shift_of_number {m target : ℕ} {u : Terminal}
    (hm : (canonical g).mergedNumbers[s]? = some m)
    (hd : g.lalr.Demands g m u (.shift target)) :
    ∃ s', (canonical g).mergedNumbers[s']? = some target ∧
      (canonical g).Demands g s u (.shift s') := by
  obtain ⟨i,_,hi⟩ := hd
  obtain ⟨_,hedge⟩ := Table.demand_eq_shift_iff.mp hi
  rw [lookup_edgesAt_of_number hm, Option.bind_eq_some_iff] at hedge
  obtain ⟨s',he,hn⟩ := hedge
  obtain ⟨hx,_⟩ := (lookup_edgesAt_canonical (Automaton.lt_of_mergedNumbers hm)).mp he
  obtain ⟨j,hj,hnext⟩ := mem_nextSymbols.mp hx
  exact ⟨s',hn,j,hj,Table.demand_eq_shift_iff.mpr ⟨hnext,he⟩⟩

end Canonical

/-- Merging by core is well defined: what leads on from a state, and to which cores, its core
decides, so each canonical state gives its merged state the same edges. Merged states are numbered
as their cores first appear, from the start state on. A merged state where a shift competes with
another action has a canonical state where they compete already. -/
theorem merging_by_core (g : Grammar) :
    (∀ s t, (canonical g).SameCore s t → ∀ x,
      Option.Rel (canonical g).SameCore (((canonical g).edgesAt s).lookup x)
        (((canonical g).edgesAt t).lookup x)) ∧
    (∀ s m, (canonical g).mergedNumbers[s]? = some m → ∀ x,
      (g.lalr.edgesAt m).lookup x = (((canonical g).edgesAt s).lookup x).bind
        fun target => (canonical g).mergedNumbers[target]?) ∧
    (∀ s t, s < (canonical g).states.length → t < (canonical g).states.length →
      ((canonical g).mergedNumbers[s]? = (canonical g).mergedNumbers[t]? ↔
        (canonical g).coreAt s = (canonical g).coreAt t)) ∧
    (canonical g).mergedNumbers.length = (canonical g).states.length ∧
    (∀ m, m ∈ (canonical g).mergedNumbers ↔ m < g.lalr.states.length) ∧
    (canonical g).mergedNumbers[0]? = some 0 ∧
    (canonical g).itemsAt 0 = g.startItems (FirstSets.ofGrammar g) ∧
    (∀ s n m : ℕ, (canonical g).mergedNumbers[s]? = some n → m < n →
      ∃ r < s, (canonical g).mergedNumbers[r]? = some m) ∧
    ∀ m u target action, g.lalr.Demands g m u (.shift target) → g.lalr.Demands g m u action →
      (∀ n, action ≠ .shift n) → ∃ s s',
        (canonical g).mergedNumbers[s]? = some m ∧
        (canonical g).mergedNumbers[s']? = some target ∧
        (canonical g).Demands g s u (.shift s') ∧
        (canonical g).Demands g s u action := by
  have hstart : (canonical g).itemsAt 0 = g.startItems (FirstSets.ofGrammar g) := by
    have hhead : g.lr1.head? = some (g.startItems (FirstSets.ofGrammar g)) := head?_canonicalStates
    change g.lr1.getD 0 [] = _
    rw [List.getD_eq_getElem?_getD, ← List.head?_eq_getElem?, hhead, Option.getD_some]
  have hpos : 0 < g.lr1.length := List.length_pos_of_mem startItems_mem_canonicalStates
  refine ⟨fun _ _ h x => rel_edges_of_sameCore h x,fun _ _ h x => lookup_edgesAt_of_number h x,
    fun _ _ hs ht => Automaton.mergedNumbers_eq_iff hs ht,by simp [Automaton.mergedNumbers],
    fun _ => Automaton.mem_mergedNumbers,?_,hstart,
    fun _ _ _ hs hm => Automaton.exists_earlier_number hs hm,?_⟩
  · rw [number_canonical hpos, hstart, numberOf_startItems]
  · rintro m u target action hshift ⟨i,hi,hd⟩ hne
    -- The other action comes with an item, and the state of that item shifts as its core does.
    obtain ⟨s,hs,his⟩ := exists_number_of_mem_itemsAt hi
    obtain ⟨s',hs',hdemands⟩ := demands_shift_of_number hs hshift
    exact ⟨s,s',hs,hs',hdemands,i,his,Table.demand_congr hne hd _⟩

/-- Names side by side, in pairs of brackets or in none. -/
def bracketed : Grammar :=
  ⟨.program, [⟨.program, [.nonTerminal .expr]⟩,
    ⟨.program, [.token .letKeyword, .nonTerminal .program, .token .printKeyword]⟩,
    ⟨.expr, [.nonTerminal .expr, .nonTerminal .expr]⟩, ⟨.expr, [.token .identifier]⟩]⟩

/-- Fourteen states become eight. Two names before a third may be put together or not, and the
bracket is not to blame. -/
theorem merging_bracketed :
    (canonical bracketed).mergedNumbers = [0, 1, 2, 3, 4, 1, 2, 5, 4, 6, 5, 7, 6, 7] ∧
    bracketed.lalr.Demands bracketed 6 (.token .identifier) (.shift 1) ∧
    bracketed.lalr.Demands bracketed 6 (.token .identifier) (.reduce 3) ∧
    ∃ s s', (canonical bracketed).mergedNumbers[s]? = some 6 ∧
      (canonical bracketed).mergedNumbers[s']? = some 1 ∧
      (canonical bracketed).Demands bracketed s (.token .identifier) (.shift s') ∧
      (canonical bracketed).Demands bracketed s (.token .identifier) (.reduce 3) := by
  have hnumbers : (canonical bracketed).mergedNumbers =
      [0, 1, 2, 3, 4, 1, 2, 5, 4, 6, 5, 7, 6, 7] := by decide +kernel
  have hshift : bracketed.lalr.Demands bracketed 6 (.token .identifier) (.shift 1) := by
    unfold Automaton.Demands
    decide +kernel
  have hreduce : bracketed.lalr.Demands bracketed 6 (.token .identifier) (.reduce 3) := by
    unfold Automaton.Demands
    decide +kernel
  obtain ⟨_,_,_,_,_,_,_,_,hclash⟩ := merging_by_core bracketed
  exact ⟨hnumbers,hshift,hreduce,hclash 6 _ 1 _ hshift hreduce (by simp)⟩

end Grammar

end LetPrint
