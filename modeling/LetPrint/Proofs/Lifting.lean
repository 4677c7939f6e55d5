import LetPrint.Proofs.Climbing
import Mathlib.Data.Fintype.EquivFin

/-! # Symbols that productions wrap

A production wraps its first symbol if all symbols behind it can be empty. On a terminal on which
such productions are reduced they cannot lead round in a circle: one state would expand the whole
circle, and two of its items would come to rest in different ways.
-/
namespace LetPrint

namespace Grammar
variable {g : Grammar} {t : Terminal} {items : List Item} {x y : Symbol} {n : ℕ}

/-- A production of one symbol begins with another, and what comes behind can be empty. -/
structure Wraps (g : Grammar) (n : ℕ) (x y : Symbol) : Prop where
  ne_zero : n ≠ 0
  lt : n < g.productions.length
  lhs : .nonTerminal (g.production n).lhs = y
  rhs : ∃ rest, g.rhs n = x :: rest ∧ allIn g.nullable rest = true

/-- A production that wraps a symbol may be reduced on the terminal in some place. -/
def Lifts (g : Grammar) (t : Terminal) (x y : Symbol) : Prop :=
  ∃ n, g.Wraps n x y ∧ ∃ items ∈ g.lr1, ⟨n, 0, t⟩ ∈ items

/-- The items hold all productions of a symbol with one lookahead. -/
def Expands (g : Grammar) (t : Terminal) (items : List Item) (x : Symbol) : Prop :=
  ∀ n < g.productions.length, .nonTerminal (g.production n).lhs = x → ⟨n, 0, t⟩ ∈ items

theorem expands_of_next (hm : items ∈ g.lr1) {i : Item} (hi : i ∈ items)
    (hnext : g.next i = some x)
    (ht : t ∈ (FirstSets.ofGrammar g).ofSequence (g.beyond i) i.lookahead) :
    g.Expands t items x := by
  intro n hn hlhs
  rw [← hlhs] at hnext
  exact canonicalStates_closed hm hi
    (mem_predictions.mpr ⟨_,hnext,rfl,mem_productionsOf.mpr ⟨hn,rfl⟩,ht⟩)

theorem Wraps.next_eq (h : g.Wraps n x y) (t : Terminal) : g.next ⟨n, 0, t⟩ = some x := by
  obtain ⟨rest,hrhs,_⟩ := h.rhs
  rw [next, hrhs]
  rfl

theorem Wraps.allIn_beyond (h : g.Wraps n x y) (t : Terminal) :
    allIn g.nullable (g.beyond ⟨n, 0, t⟩) = true := by
  obtain ⟨rest,hrhs,hrest⟩ := h.rhs
  rw [beyond, hrhs]
  exact hrest

/-- What a symbol is expanded with, the symbols that it wraps are expanded with too. -/
theorem Wraps.expands (h : g.Wraps n x y) (hm : items ∈ g.lr1) (hy : g.Expands t items y) :
    g.Expands t items x :=
  expands_of_next hm (hy n h.lt h.lhs) (h.next_eq t)
    (FirstSets.mem_ofSequence_of_allIn (h.allIn_beyond t))

theorem expands_of_reflTransGen (hm : items ∈ g.lr1) {u : Terminal}
    (h : Relation.ReflTransGen (g.Lifts t) x y) (hy : g.Expands u items y) :
    g.Expands u items x := by
  induction h using Relation.ReflTransGen.head_induction_on with
  | refl => exact hy
  | head hlift _ ih =>
    obtain ⟨n,hwraps,_⟩ := hlift
    exact hwraps.expands hm ih

theorem Lifts.exists_expands (h : g.Lifts t x y) : ∃ items ∈ g.lr1, g.Expands t items y := by
  obtain ⟨n,hwraps,items,hm,hi⟩ := h
  refine ⟨items,hm,?_⟩
  rcases canonicalStates_initial hm hi rfl with ⟨_,he⟩ | ⟨j,hj,hij⟩
  · cases he
    exact absurd rfl hwraps.ne_zero
  · obtain ⟨a,hnext,_,hn,ht⟩ := mem_predictions.mp hij
    obtain ⟨_,rfl⟩ := mem_productionsOf.mp hn
    rw [← hwraps.lhs]
    exact expands_of_next hm hj hnext ht

theorem allIn_reverse {known : List NonTerminal} {xs : List Symbol} :
    allIn known xs.reverse = true ↔ allIn known xs = true := by
  simp only [allIn_iff, List.mem_reverse]

/-- Two symbols are lifted to each other. -/
def Around (g : Grammar) (t : Terminal) (x y : Symbol) : Prop :=
  Relation.ReflTransGen (g.Lifts t) x y ∧ Relation.ReflTransGen (g.Lifts t) y x

theorem exists_lift_around (hcycle : Relation.TransGen (g.Lifts t) x x) (hy : g.Around t x y) :
    ∃ n z, g.Around t x z ∧ g.Lifts t y z ∧ g.Wraps n y z := by
  have hround : Relation.TransGen (g.Lifts t) y x := hcycle.trans_right hy.2
  obtain ⟨z,hyz,hzx⟩ := Relation.TransGen.head'_iff.mp hround
  obtain ⟨n,hwraps,_⟩ := id hyz
  exact ⟨n,z,⟨hy.1.tail hyz,hzx⟩,hyz,hwraps⟩

/-- An item has been called for with its own lookahead somewhere. -/
theorem exists_initial (hm : items ∈ g.lr1) {d : ℕ} (hi : ⟨n, d, t⟩ ∈ items) :
    ∃ others ∈ g.lr1, ⟨n, 0, t⟩ ∈ others := by
  induction d generalizing items with
  | zero => exact ⟨items,hm,hi⟩
  | succ d ih =>
    rcases canonicalStates_cases hm with rfl | ⟨before,hbefore,x,rfl⟩
    · exact absurd (dot_eq_zero_of_mem_startItems hi) (Nat.succ_ne_zero d)
    · rcases goto_cases hi with ⟨⟨m,e,u⟩,hj,_,he⟩ | ⟨j,_,hj⟩
      · cases he
        exact ih hbefore hj
      · obtain ⟨_,_,hdot,_⟩ := mem_predictions.mp hj
        exact absurd hdot (Nat.succ_ne_zero d)

end Grammar

namespace Parser
variable {p : Parser} {t : Terminal} {items : List Item} {x y : Symbol} {n : ℕ}

section Built
variable (hb : Table.build p.grammar = .ok p.table)
  (hstart : p.grammar.StartFree ∨ ¬ p.grammar.Derives [.nonTerminal p.grammar.root] [])
include hb hstart

/-- Where a wrapped symbol comes next and the terminal behind it, the production that wraps it is
the only item: behind the symbol all items come to rest in the same way. -/
theorem eq_of_wraps (hground : p.grammar.Grounded) (hwraps : p.grammar.Wraps n x y)
    (hm : items ∈ p.grammar.lr1) (hitem : ⟨n, 0, t⟩ ∈ items) {i : Item} (hi : i ∈ items)
    (hzero : i.production ≠ 0) (hnext : p.grammar.next i = some x)
    (ht : t ∈ (FirstSets.ofGrammar p.grammar).ofSequence (p.grammar.beyond i) i.lookahead) :
    i = ⟨n, 0, t⟩ := by
  have hgoto := Grammar.goto_mem_canonicalStates hm hi hnext
  have hwrap := Grammar.mem_itemsAt.mpr
    ⟨_,hgoto,rfl,Grammar.advance_mem_goto hitem (hwraps.next_eq t)⟩
  have hother := Grammar.mem_itemsAt.mpr ⟨_,hgoto,rfl,Grammar.advance_mem_goto hi hnext⟩
  obtain ⟨above,hlen,hrest⟩ := rests_of_allIn hb hstart hwrap (Nat.succ_ne_zero 0) hwraps.ne_zero
    (hwraps.allIn_beyond t)
  rcases rests_or_allIn hb hstart hground hother ht with
    ⟨upper,target,hshift⟩ | ⟨hlook,hempty⟩
  · cases (hrest.unique hshift).2
  · obtain ⟨upper,hlen',hrest'⟩ := rests_of_allIn hb hstart hother (Nat.succ_ne_zero _) hzero hempty
    rw [hlook] at hrest'
    obtain ⟨rfl,haction⟩ := hrest.unique hrest'
    obtain ⟨m,d,u⟩ := i
    obtain rfl : n = m := Action.reduce.inj haction
    obtain rfl : u = t := hlook
    simp only [Item.advance] at hlen hlen'
    obtain rfl : d = 0 := by omega
    rfl

/-- The root is not wrapped where it is expanded at the end of input: it would be reduced and
accepted there. -/
theorem not_wraps_root (hwraps : p.grammar.Wraps n (.nonTerminal p.grammar.root) y)
    (hy : p.grammar.Expands .endOfInput
      (p.grammar.startItems (FirstSets.ofGrammar p.grammar)) y) : False := by
  have hm : p.grammar.startItems (FirstSets.ofGrammar p.grammar) ∈ p.grammar.lr1 :=
    Grammar.startItems_mem_canonicalStates
  have hitem := hy n hwraps.lt hwraps.lhs
  have hnext := hwraps.next_eq .endOfInput
  have hgoto := Grammar.goto_mem_canonicalStates hm hitem hnext
  have hwrap := Grammar.mem_itemsAt.mpr ⟨_,hgoto,rfl,Grammar.advance_mem_goto hitem hnext⟩
  have hfirst : ⟨0, 0, .endOfInput⟩ ∈ p.grammar.startItems (FirstSets.ofGrammar p.grammar) :=
    Grammar.mem_closure_of_mem (by simp)
  have haccept := Grammar.mem_itemsAt.mpr ⟨_,hgoto,rfl,Grammar.advance_mem_goto hfirst rfl⟩
  obtain ⟨above,_,hrest⟩ := rests_of_allIn hb hstart hwrap (Nat.succ_ne_zero 0) hwraps.ne_zero
    (hwraps.allIn_beyond .endOfInput)
  have hrest' := rests_of_action (climbs_nil p _ _) (Table.action_accept hb haccept) (by simp)
  cases (hrest.unique hrest').2

/-- The root is on no circle: expanded at the end of input, it would expand what wraps it. -/
theorem not_around_root (hcycle : Relation.TransGen (p.grammar.Lifts t) x x) :
    ¬ p.grammar.Around t x (.nonTerminal p.grammar.root) := by
  intro hroot
  have hm : p.grammar.startItems (FirstSets.ofGrammar p.grammar) ∈ p.grammar.lr1 :=
    Grammar.startItems_mem_canonicalStates
  have hexpands : p.grammar.Expands .endOfInput
      (p.grammar.startItems (FirstSets.ofGrammar p.grammar)) (.nonTerminal p.grammar.root) :=
    Grammar.expands_of_next hm (i := ⟨0, 0, .endOfInput⟩)
      (Grammar.mem_closure_of_mem (by simp)) rfl (FirstSets.mem_ofSequence_of_allIn rfl)
  obtain ⟨n,y,hy,_,hwraps⟩ := Grammar.exists_lift_around hcycle hroot
  exact not_wraps_root hb hstart hwraps
    (Grammar.expands_of_reflTransGen hm (hy.2.trans hroot.1) hexpands)

/-- No symbol is lifted to itself: one state would expand the whole circle, but nothing in that
state can have called for it first. -/
theorem not_lifts_cycle (hground : p.grammar.Grounded) (x : Symbol) :
    ¬ Relation.TransGen (p.grammar.Lifts t) x x := by
  intro hcycle
  obtain ⟨n,y,hy,hxy,hwraps⟩ := Grammar.exists_lift_around hcycle
    ⟨Relation.ReflTransGen.refl,Relation.ReflTransGen.refl⟩
  obtain ⟨items,hm,hexpands⟩ := hxy.exists_expands
  have hall : ∀ z, p.grammar.Around t x z → p.grammar.Expands t items z := fun z hz =>
    Grammar.expands_of_reflTransGen hm (hz.2.trans hy.1) hexpands
  have hnone : ∀ i ∈ items,
      ¬ ∃ n y z, p.grammar.Around t x z ∧ p.grammar.Wraps n y z ∧ i = ⟨n, 0, t⟩ := by
    refine Grammar.canonicalStates_least hm ?_ ?_ ?_
    · rintro _ ⟨n,y,z,_,hw,he⟩
      cases he
      exact hw.ne_zero rfl
    · rintro i _ hdot ⟨n,y,z,_,_,rfl⟩
      exact hdot rfl
    · rintro i hi hout j hj ⟨n,y,z,hz,hw,rfl⟩
      obtain ⟨a,hnext,_,hn,ht⟩ := Grammar.mem_predictions.mp hj
      obtain ⟨_,rfl⟩ := Grammar.mem_productionsOf.mp hn
      rw [hw.lhs] at hnext
      have hzero : i.production ≠ 0 := by
        intro hi0
        have hroot : p.grammar.next i = some (.nonTerminal p.grammar.root) := by
          rw [Grammar.next, hi0, Grammar.dot_eq_zero_of_called hj hi0]
          rfl
        rw [hnext] at hroot
        exact not_around_root hb hstart hcycle (Option.some.inj hroot ▸ hz)
      obtain ⟨m,w,hwx,_,hwrapz⟩ := Grammar.exists_lift_around hcycle hz
      have hitem := hall w hwx m hwrapz.lt hwrapz.lhs
      exact hout ⟨m,z,w,hwx,hwrapz,eq_of_wraps hb hstart hground hwrapz hm hitem hi hzero hnext ht⟩
  exact hnone _ (hexpands n hwraps.lt hwraps.lhs) ⟨n,x,y,hy,hwraps,rfl⟩

theorem wellFounded_lifts (hground : p.grammar.Grounded) :
    WellFounded fun y x => p.grammar.Lifts t x y := by
  have hfinite : Finite Symbol :=
    Fintype.finite ⟨Symbol.all.toFinset,fun x => List.mem_toFinset.mpr x.mem_all⟩
  have htrans : IsTrans Symbol fun y x => Relation.TransGen (p.grammar.Lifts t) x y :=
    ⟨fun _ _ _ hzy hyx => hyx.trans hzy⟩
  have hirrefl : Std.Irrefl fun y x => Relation.TransGen (p.grammar.Lifts t) x y :=
    ⟨not_lifts_cycle hb hstart hground⟩
  refine Subrelation.wf ?_ (Finite.wellFounded_of_trans_of_irrefl
    fun y x => Relation.TransGen (p.grammar.Lifts t) x y)
  intro y x h
  exact Relation.TransGen.single h

end Built

end Parser

end LetPrint
