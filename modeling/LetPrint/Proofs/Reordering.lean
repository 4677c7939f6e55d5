import LetPrint.Proofs.Conflicts
import LetPrint.Proofs.Cores
import LetPrint.Proofs.Rounds
import Mathlib.Data.Fin.Rev

/-! # The order of the productions does not matter

Productions are known by their numbers, and item sets are kept in the order of these. When the
productions of a grammar get other numbers, an item set is put in another order, but it stays the
same set, and the same symbols lead on from it. So the walk finds the same states one after the
other, the cores first appear at the same places, and the table is the same but for the numbers of
the productions.
-/
namespace LetPrint

def Action.renumber (numbers : ℕ → ℕ) : Action → Action
  | shift state => shift state
  | reduce production => reduce (numbers production)
  | accept => accept

def Item.renumber (numbers : ℕ → ℕ) (i : Item) : Item :=
  { i with production := numbers i.production }

/-- The productions of one grammar are those of another under other numbers, zero apart. -/
structure Renumbering (g h : Grammar) where
  numbers : ℕ ≃ ℕ
  zero : numbers 0 = 0
  lt_iff (p : ℕ) : numbers p < h.productions.length ↔ p < g.productions.length
  production_eq (p : ℕ) : h.production (numbers p) = g.production p

namespace Renumbering
variable {g h : Grammar}

def symm (e : Renumbering g h) : Renumbering h g where
  numbers := e.numbers.symm
  zero := by rw [Equiv.symm_apply_eq, e.zero]
  lt_iff p := by rw [← e.lt_iff, Equiv.apply_symm_apply]
  production_eq p := by rw [← e.production_eq, Equiv.apply_symm_apply]

variable (e : Renumbering g h)
include e

theorem mem_productions {r : Rule} (hr : r ∈ g.productions) : r ∈ h.productions := by
  obtain ⟨p,rfl⟩ := Grammar.exists_production hr
  rw [← e.production_eq]
  exact Grammar.production_mem ((e.lt_iff p).mpr p.isLt)

theorem derives {u v : List Symbol} (hd : g.Derives u v) : h.Derives u v := by
  have hsub : g.Produces ≤ h.Produces := by
    rintro _ _ ⟨front,back,hr⟩
    exact .replace front back (e.mem_productions hr)
  exact Relation.ReflTransGen.mono hsub u v hd

theorem ofGrammar_eq : FirstSets.ofGrammar h = FirstSets.ofGrammar g := by
  refine FirstSets.tidy_ofGrammar.eq_of_knows FirstSets.tidy_ofGrammar ?_
  rintro ⟨a,_ | t⟩
  · simp only [FirstSets.knows, FirstSets.nullable_ofGrammar, Grammar.mem_nullable_iff,
      decide_eq_true_eq]
    exact ⟨e.symm.derives,e.derives⟩
  · simp only [FirstSets.knows, FirstSets.mem_get_iff, decide_eq_true_eq]
    exact exists_congr fun rest => ⟨e.symm.derives,e.derives⟩

section Items

abbrev item (i : Item) : Item := i.renumber e.numbers

@[simp] theorem symm_item (i : Item) : e.symm.item (e.item i) = i := by
  simp [Item.renumber, symm]

@[simp] theorem item_symm (i : Item) : e.item (e.symm.item i) = i := by
  simp [Item.renumber, symm]

theorem next_item (i : Item) : h.next (e.item i) = g.next i := by
  simp [Grammar.next, Grammar.rhs, Item.renumber, e.production_eq]

theorem beyond_item (i : Item) : h.beyond (e.item i) = g.beyond i := by
  simp [Grammar.beyond, Grammar.rhs, Item.renumber, e.production_eq]

variable {sets : FirstSets}

theorem item_mem_predictions {i j : Item} (hj : j ∈ g.predictions sets i) :
    e.item j ∈ h.predictions sets (e.item i) := by
  obtain ⟨a,ha,hd,hp,hl⟩ := Grammar.mem_predictions.mp hj
  obtain ⟨hlt,hlhs⟩ := Grammar.mem_productionsOf.mp hp
  refine Grammar.mem_predictions.mpr ⟨a,(e.next_item i).trans ha,hd,?_,?_⟩
  · refine Grammar.mem_productionsOf.mpr ⟨(e.lt_iff _).mpr hlt,?_⟩
    rw [← hlhs, ← e.production_eq]
    rfl
  · rwa [e.beyond_item]

theorem item_mem_closure {kernel other : List Item} (hk : ∀ i ∈ kernel, e.item i ∈ other)
    {i : Item} (hi : i ∈ g.closure sets kernel) : e.item i ∈ h.closure sets other := by
  refine Grammar.closure_least (P := fun i => e.item i ∈ h.closure sets other) ?_ ?_ hi
  · intro k hkernel
    exact Grammar.mem_closure_of_mem (hk k hkernel)
  · intro k hclosed l hl
    exact Grammar.mem_closure_of_mem_predictions hclosed (e.item_mem_predictions hl)

theorem item_mem_goto {items other : List Item} (hitems : ∀ i ∈ items, e.item i ∈ other)
    {x : Symbol} {j : Item} (hj : j ∈ g.goto sets items x) : e.item j ∈ h.goto sets other x := by
  refine e.item_mem_closure ?_ hj
  intro k hk
  obtain ⟨i,hi,hx,rfl⟩ := Grammar.mem_gotoKernel.mp hk
  exact Grammar.mem_gotoKernel.mpr ⟨e.item i,hitems i hi,(e.next_item i).trans hx,rfl⟩

def items (items : List Item) : List Item := Item.ascending (items.map e.item)

theorem ascending_items (items : List Item) : Item.Ascending (e.items items) :=
  Item.ascending_ascending _

@[simp] theorem mem_items {items : List Item} {j : Item} :
    j ∈ e.items items ↔ e.symm.item j ∈ items := by
  simp only [Renumbering.items, Item.mem_ascending, List.mem_map]
  constructor
  · rintro ⟨i,hi,rfl⟩
    rwa [symm_item]
  · intro hj
    exact ⟨_,hj,e.item_symm j⟩

theorem item_mem_items {items : List Item} {i : Item} (hi : i ∈ items) :
    e.item i ∈ e.items items := by
  rwa [mem_items, symm_item]

theorem symm_items {items : List Item} (ha : Item.Ascending items) :
    e.symm.items (e.items items) = items := by
  refine (e.symm.ascending_items _).eq_of_mem_iff ha fun i => ?_
  rw [mem_items, mem_items]
  exact iff_of_eq (congrArg (· ∈ items) (e.symm_item i))

theorem nextSymbols_items (items : List Item) :
    h.nextSymbols (e.items items) = g.nextSymbols items := by
  refine List.filter_congr fun x _ => Bool.eq_iff_iff.mpr ?_
  simp only [List.any_eq_true, decide_eq_true_eq]
  constructor
  · rintro ⟨j,hj,hx⟩
    exact ⟨_,e.mem_items.mp hj,(e.symm.next_item j).trans hx⟩
  · rintro ⟨i,hi,hx⟩
    exact ⟨_,e.item_mem_items hi,(e.next_item i).trans hx⟩

theorem goto_items (items : List Item) (x : Symbol) :
    h.goto sets (e.items items) x = e.items (g.goto sets items x) := by
  refine Grammar.ascending_closure.eq_of_mem_iff (e.ascending_items _) fun j => ?_
  rw [mem_items]
  constructor
  · intro hj
    exact e.symm.item_mem_goto (fun i hi => e.mem_items.mp hi) hj
  · intro hj
    have hback := e.item_mem_goto (fun i hi => e.item_mem_items hi) hj
    rwa [item_symm] at hback

theorem item_mem_startItems {i : Item} (hi : i ∈ g.startItems sets) :
    e.item i ∈ h.startItems sets := by
  refine e.item_mem_closure (fun k hk => ?_) hi
  rw [List.mem_singleton.mp hk, List.mem_singleton, item, Item.renumber, e.zero]

theorem startItems_eq : h.startItems sets = e.items (g.startItems sets) := by
  refine Grammar.ascending_closure.eq_of_mem_iff (e.ascending_items _) fun j => ?_
  rw [mem_items]
  constructor
  · exact e.symm.item_mem_startItems
  · intro hj
    have hback := e.item_mem_startItems hj
    rwa [item_symm] at hback

theorem successors_items (items : List Item) :
    h.successors sets (e.items items) = (g.successors sets items).map e.items := by
  simp only [Grammar.successors, nextSymbols_items, List.map_map]
  exact List.map_congr_left fun x _ => e.goto_items items x

end Items

theorem lr1_eq : h.lr1 = g.lr1.map e.items := by
  have hinj : ∀ xs, g.ItemSet xs → ∀ ys, g.ItemSet ys → e.items xs = e.items ys → xs = ys := by
    intro xs hxs ys hys he
    rw [← e.symm_items hxs.1, he, e.symm_items hys.1]
  let sets := FirstSets.ofGrammar g
  let start := g.startItems sets
  calc h.lr1 = Reach.closure (h.successors sets) (2 ^ h.itemCount + 2 ^ g.itemCount)
          [h.startItems sets] := by rw [Grammar.canonicalStates_add, Grammar.lr1, e.ofGrammar_eq]
    _ = Reach.closure (h.successors sets) (2 ^ g.itemCount + 2 ^ h.itemCount)
          ([start].map e.items) := by rw [Nat.add_comm, e.startItems_eq, List.map_singleton]
    _ = (Reach.closure (g.successors sets) (2 ^ g.itemCount + 2 ^ h.itemCount)
          [start]).map e.items := Reach.closure_map hinj
            (List.forall_mem_singleton.mpr Grammar.itemSet_startItems)
            Grammar.itemSet_of_mem_successors fun items _ => e.successors_items items
    _ = g.lr1.map e.items := by rw [Grammar.canonicalStates_add]

theorem items_mem_lr1 {items : List Item} (hm : items ∈ g.lr1) : e.items items ∈ h.lr1 := by
  rw [e.lr1_eq]
  exact List.mem_map_of_mem hm

section Cores

def core (core : List (ℕ × ℕ)) : List (ℕ × ℕ) :=
  coreOf (e.items (core.map fun c => ⟨c.1, c.2, .endOfInput⟩))

theorem coreOf_items (items : List Item) : coreOf (e.items items) = e.core (coreOf items) := by
  refine coreOf_eq_of_mem_iff (e.ascending_items _) (e.ascending_items _) fun p d => ?_
  simp only [mem_items, Item.renumber, List.mem_map, Prod.exists, mem_coreOf]
  constructor
  · rintro ⟨t,ht⟩
    exact ⟨.endOfInput,_,_,⟨t,ht⟩,rfl⟩
  · rintro ⟨_,_,_,⟨t,ht⟩,he⟩
    cases he
    exact ⟨t,ht⟩

theorem symm_core {items : List Item} (ha : Item.Ascending items) :
    e.symm.core (e.core (coreOf items)) = coreOf items := by
  rw [← coreOf_items, ← coreOf_items, e.symm_items ha]

theorem cores_eq : (Automaton.canonical h).cores = (Automaton.canonical g).cores.map e.core := by
  change Reach.fresh [] (h.lr1.map coreOf) = (Reach.fresh [] (g.lr1.map coreOf)).map e.core
  have hinj : ∀ c, c ∈ g.lr1.map coreOf → ∀ d, d ∈ g.lr1.map coreOf → e.core c = e.core d →
      c = d := by
    intro c hc d hd he
    obtain ⟨xs,hxs,rfl⟩ := List.mem_map.mp hc
    obtain ⟨ys,hys,rfl⟩ := List.mem_map.mp hd
    rw [← e.symm_core (Grammar.itemSet_of_mem_canonicalStates hxs).1, he,
      e.symm_core (Grammar.itemSet_of_mem_canonicalStates hys).1]
  have hfresh := Reach.fresh_map hinj [] (by simp) fun c hc => hc
  rw [← hfresh, e.lr1_eq, List.map_map, List.map_map, List.map_nil]
  exact congrArg _ (List.map_congr_left fun items _ => e.coreOf_items items)

theorem length_states : h.lalr.states.length = g.lalr.states.length := by
  rw [Automaton.length_states_merged, Automaton.length_states_merged, e.cores_eq, List.length_map]

theorem numberOf_items {items : List Item} (hm : items ∈ g.lr1) :
    h.numberOf (e.items items) = g.numberOf items := by
  have hlt := Grammar.numberOf_lt hm
  have hcore : (Automaton.canonical g).cores[g.numberOf items] = coreOf items :=
    List.getElem_idxOf hlt
  have hlt' : g.numberOf items < (Automaton.canonical h).cores.length := by
    rwa [e.cores_eq, List.length_map]
  have hget : (Automaton.canonical h).cores[g.numberOf items] = e.core (coreOf items) := by
    simp only [e.cores_eq, List.getElem_map, hcore]
  rw [Grammar.numberOf, e.coreOf_items, ← hget]
  exact (Reach.nodup_fresh _ _).idxOf_getElem _ hlt'

end Cores

section States
variable {state : ℕ}

theorem item_mem_itemsAt {i : Item} (hi : i ∈ g.lalr.itemsAt state) :
    e.item i ∈ h.lalr.itemsAt state := by
  obtain ⟨items,hm,rfl,him⟩ := Grammar.mem_itemsAt.mp hi
  exact Grammar.mem_itemsAt.mpr
    ⟨e.items items,e.items_mem_lr1 hm,e.numberOf_items hm,e.item_mem_items him⟩

theorem item_mem_itemsAt_iff {i : Item} :
    e.item i ∈ h.lalr.itemsAt state ↔ i ∈ g.lalr.itemsAt state := by
  refine ⟨fun hi => ?_,e.item_mem_itemsAt⟩
  have hback := e.symm.item_mem_itemsAt hi
  rwa [symm_item] at hback

theorem lookup_of_lookup {x : Symbol} {target : ℕ}
    (hx : (g.lalr.edgesAt state).lookup x = some target) :
    (h.lalr.edgesAt state).lookup x = some target := by
  obtain ⟨items,hm,rfl,hnext,rfl⟩ := Grammar.lookup_edgesAt.mp hx
  refine Grammar.lookup_edgesAt.mpr
    ⟨e.items items,e.items_mem_lr1 hm,e.numberOf_items hm,?_,?_⟩
  · rwa [nextSymbols_items]
  · rw [e.ofGrammar_eq, goto_items, e.numberOf_items (Grammar.goto_mem_lr1 hm hnext)]

theorem lookup_eq (x : Symbol) :
    (h.lalr.edgesAt state).lookup x = (g.lalr.edgesAt state).lookup x :=
  Option.ext fun _ => ⟨e.symm.lookup_of_lookup,e.lookup_of_lookup⟩

abbrev action (a : Action) : Action := a.renumber e.numbers

@[simp] theorem symm_action (a : Action) : e.symm.action (e.action a) = a := by
  cases a <;> simp [Action.renumber, symm]

variable {t : Terminal} {a : Action}

theorem asks (ha : g.Asks state t a) : h.Asks state t (e.action a) := by
  cases ha with
  | shift hi hnext hedge =>
    exact .shift (e.item_mem_itemsAt hi) ((e.next_item _).trans hnext) (e.lookup_of_lookup hedge)
  | @reduce i hi hnext hp =>
    refine .reduce (e.item_mem_itemsAt hi) ((e.next_item _).trans hnext) ?_
    rw [Nat.pos_iff_ne_zero] at hp ⊢
    exact fun hzero => hp (e.numbers.injective (hzero.trans e.zero.symm))
  | accept hi hnext hp hlook =>
    refine .accept (e.item_mem_itemsAt hi) ((e.next_item _).trans hnext) ?_ hlook
    exact (congrArg e.numbers hp).trans e.zero

theorem clashes (hc : g.Clashes state) : h.Clashes state := by
  obtain ⟨t,a,b,ha,hb,hne⟩ := hc
  refine ⟨t,_,_,e.asks ha,e.asks hb,fun he => hne ?_⟩
  rw [← e.symm_action a, he, symm_action]

theorem clashes_iff : h.Clashes state ↔ g.Clashes state := ⟨e.symm.clashes,e.clashes⟩

end States

section Tables
variable {table other : Table} (hg : Table.build g = .ok table) (hh : Table.build h = .ok other)
include hg hh

theorem stateCount_eq : other.stateCount = table.stateCount := by
  rw [Table.stateCount_of_build hg, Table.stateCount_of_build hh, e.length_states]

theorem action_eq (state : ℕ) (t : Terminal) :
    other.action state t = (table.action state t).map e.action := by
  refine Option.ext fun a => ?_
  rw [Table.action_eq_some_iff_asks hh, Option.map_eq_some_iff]
  constructor
  · intro ha
    refine ⟨e.symm.action a,(Table.action_eq_some_iff_asks hg).mpr (e.symm.asks ha),?_⟩
    exact e.symm.symm_action a
  · rintro ⟨b,hb,rfl⟩
    exact e.asks ((Table.action_eq_some_iff_asks hg).mp hb)

theorem goto_eq (state : ℕ) (a : NonTerminal) : other.goto state a = table.goto state a := by
  rw [Table.goto_eq_lookup hg, Table.goto_eq_lookup hh, e.lookup_eq]

end Tables

theorem exists_build_iff :
    (∃ other, Table.build h = .ok other) ↔ ∃ table, Table.build g = .ok table := by
  rw [Table.exists_build_iff, Table.exists_build_iff]
  exact forall_congr' fun state => not_congr e.clashes_iff

theorem state_le {c d : Conflict} (hc : Table.build g = .error c)
    (hd : Table.build h = .error d) : d.state ≤ c.state := by
  obtain ⟨hne,hexisting,hwanted,_⟩ := Table.asks_of_build_error hc
  obtain ⟨_,_,_,hleast⟩ := Table.asks_of_build_error hd
  by_contra hlt
  exact hleast c.state (Nat.lt_of_not_le hlt) (e.clashes ⟨_,_,_,hexisting,hwanted,hne⟩)

end Renumbering

/-- The number that a production had before the rules were moved; production zero stays. -/
def renumber {n : ℕ} (σ : Equiv.Perm (Fin n)) : ℕ → ℕ
  | 0 => 0
  | k + 1 => if hk : k < n then σ ⟨k, hk⟩ + 1 else k + 1

theorem renumber_of_lt {n : ℕ} (σ : Equiv.Perm (Fin n)) {k : ℕ} (hk : k < n) :
    renumber σ (k + 1) = σ ⟨k, hk⟩ + 1 := dif_pos hk

theorem renumber_of_le {n : ℕ} (σ : Equiv.Perm (Fin n)) {k : ℕ} (hk : n ≤ k) :
    renumber σ (k + 1) = k + 1 := dif_neg (Nat.not_lt.mpr hk)

theorem renumber_symm {n : ℕ} (σ : Equiv.Perm (Fin n)) (p : ℕ) :
    renumber σ.symm (renumber σ p) = p := by
  cases p with
  | zero => rfl
  | succ k =>
    rcases Nat.lt_or_ge k n with hk | hk
    · rw [renumber_of_lt σ hk, renumber_of_lt σ.symm (σ ⟨k, hk⟩).isLt, Fin.eta,
        Equiv.symm_apply_apply]
    · rw [renumber_of_le σ hk, renumber_of_le σ.symm hk]

namespace Grammar
variable (g : Grammar) (σ : Equiv.Perm (Fin g.rules.length))

/-- The grammar with its rules in another order; production zero stays the first. -/
def reorder : Grammar := ⟨g.root, List.ofFn fun k => g.rules.get (σ k)⟩

theorem length_productions_reorder :
    (g.reorder σ).productions.length = g.productions.length := by
  simp [reorder, productions]

theorem production_renumber (p : ℕ) : g.production (renumber σ p) = (g.reorder σ).production p := by
  cases p with
  | zero => rfl
  | succ k =>
    rcases Nat.lt_or_ge k g.rules.length with hk | hk
    · simp [renumber_of_lt σ hk, production, productions, reorder, hk]
    · simp [renumber_of_le σ hk, production, productions, reorder, accepting, hk]

def renumbering : Renumbering (g.reorder σ) g where
  numbers := ⟨renumber σ, renumber σ.symm, renumber_symm σ, renumber_symm σ.symm⟩
  zero := rfl
  lt_iff p := by
    rw [length_productions_reorder]
    cases p with
    | zero => rfl
    | succ k =>
      rcases Nat.lt_or_ge k g.rules.length with hk | hk
      · simp [renumber_of_lt σ hk, productions, hk]
      · simp [renumber_of_le σ hk]
  production_eq p := g.production_renumber σ p

end Grammar

namespace Table

/-- The order of the rules does not matter. With the rules of a grammar in another order there are
as many states, and under each number one that holds the same items. There is a table exactly if
there was one. It has the same actions, but for the numbers of the productions that are reduced, and
the same gotos. A conflict is one of the same state. -/
theorem build_reorder (g : Grammar) (σ : Equiv.Perm (Fin g.rules.length)) :
    (g.reorder σ).lalr.states.length = g.lalr.states.length ∧
    (∀ s i, i ∈ (g.reorder σ).lalr.itemsAt s ↔ i.renumber (renumber σ) ∈ g.lalr.itemsAt s) ∧
    ((∃ other, build (g.reorder σ) = .ok other) ↔ ∃ table, build g = .ok table) ∧
    (∀ table other, build g = .ok table → build (g.reorder σ) = .ok other →
      other.stateCount = table.stateCount ∧
      (∀ s t, table.action s t = (other.action s t).map (Action.renumber (renumber σ))) ∧
      ∀ s a, other.goto s a = table.goto s a) ∧
    ∀ c d, build g = .error c → build (g.reorder σ) = .error d → d.state = c.state := by
  let e := g.renumbering σ
  refine ⟨e.length_states.symm,fun s i => e.item_mem_itemsAt_iff.symm,e.exists_build_iff.symm,
    fun table other hg hh => ?_,fun c d hc hd => ?_⟩
  · exact ⟨(e.stateCount_eq hh hg).symm,e.action_eq hh hg,fun s a => (e.goto_eq hh hg s a).symm⟩
  · exact Nat.le_antisymm (e.symm.state_le hc hd) (e.state_le hd hc)

def choice : Grammar :=
  ⟨.program, [⟨.program, [.token .identifier]⟩, ⟨.program, [.token .letKeyword]⟩]⟩

/-- Read from the last rule to the first: the choice has a table where a reduction has the other
number, and the two readings clash where they did. -/
theorem build_reversed :
    (∃ table other, build choice = .ok table ∧ build (choice.reorder Fin.revPerm) = .ok other ∧
      table.action 1 .endOfInput = some (.reduce 1) ∧
      other.action 1 .endOfInput = some (.reduce 2) ∧ other.stateCount = table.stateCount) ∧
    ∃ c d, build twofold = .error c ∧ build (twofold.reorder Fin.revPerm) = .error d ∧
      d.state = c.state := by
  obtain ⟨_,_,_,htables,_⟩ := build_reorder choice Fin.revPerm
  obtain ⟨_,_,_,_,hconflicts⟩ := build_reorder twofold Fin.revPerm
  have hbuilt : build choice = .ok ⟨[⟨[(.token .identifier, .shift 1),
      (.token .letKeyword, .shift 2)], [(.program, 3)]⟩, ⟨[(.endOfInput, .reduce 1)], []⟩,
      ⟨[(.endOfInput, .reduce 2)], []⟩, ⟨[(.endOfInput, .accept)], []⟩]⟩ := by decide +kernel
  have hother : build (choice.reorder Fin.revPerm) = .ok ⟨[⟨[(.token .letKeyword, .shift 2),
      (.token .identifier, .shift 1)], [(.program, 3)]⟩, ⟨[(.endOfInput, .reduce 2)], []⟩,
      ⟨[(.endOfInput, .reduce 1)], []⟩, ⟨[(.endOfInput, .accept)], []⟩]⟩ := by decide +kernel
  have hfails : build twofold = .error ⟨1, .endOfInput, .reduce 3, .reduce 4⟩ := by decide +kernel
  have hclash : build (twofold.reorder Fin.revPerm) =
      .error ⟨1, .endOfInput, .reduce 1, .reduce 2⟩ := by decide +kernel
  obtain ⟨hcount,_,_⟩ := htables _ _ hbuilt hother
  exact ⟨⟨_,_,hbuilt,hother,rfl,rfl,hcount⟩,_,_,hfails,hclash,hconflicts _ _ hfails hclash⟩

end Table

end LetPrint
