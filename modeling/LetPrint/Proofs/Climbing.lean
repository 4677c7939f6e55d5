import LetPrint.Proofs.Acceptance
import LetPrint.Proofs.Beginnings

/-! # What a single state grows

Left alone on a terminal, a state reduces only what derives the empty string. If an item of the
state can go on with the terminal, the states that grow are those of its symbols, and they come to
rest where the terminal is shifted or the item is complete. Since the table has one action for each
terminal, all items of a state come to rest in the same way.
-/
namespace LetPrint

namespace Grammar
variable {g : Grammar}

def ahead (g : Grammar) (i : Item) : List Symbol := (g.rhs i.production).drop i.dot

/-- The terminal can come next for an item: it begins what is behind the dot or follows it. -/
def Meets (g : Grammar) (t : Terminal) (i : Item) : Prop :=
  t ∈ (FirstSets.ofGrammar g).ofSequence (g.ahead i) i.lookahead

theorem next_eq_some_of_ahead {i : Item} {x : Symbol} {xs : List Symbol} (h : g.ahead i = x :: xs) :
    g.next i = some x := by
  rw [next, ← List.head?_drop, ← ahead, h]
  rfl

theorem beyond_of_ahead {i : Item} {x : Symbol} {xs : List Symbol} (h : g.ahead i = x :: xs) :
    g.beyond i = xs := by
  rw [beyond, ← List.tail_drop, ← ahead, h]
  rfl

theorem ahead_of_next {i : Item} {x : Symbol} (h : g.next i = some x) :
    g.ahead i = x :: g.beyond i := by
  obtain ⟨hlt,hx⟩ := List.getElem?_eq_some_iff.mp h
  rw [ahead, List.drop_eq_getElem_cons hlt, hx]
  rfl

theorem dot_eq_zero_of_called {sets : FirstSets} {i j : Item} (hj : j ∈ g.predictions sets i)
    (hi : i.production = 0) : i.dot = 0 := by
  obtain ⟨a,hnext,_⟩ := mem_predictions.mp hj
  obtain ⟨hlt,_⟩ := List.getElem?_eq_some_iff.mp hnext
  rw [hi] at hlt
  have hone : (g.rhs 0).length = 1 := rfl
  omega

/-- An item meets the terminal with which it calls for something empty. -/
theorem meets_of_called {i j : Item} {t : Terminal}
    (hj : j ∈ g.predictions (FirstSets.ofGrammar g) i) (hlook : j.lookahead = t)
    (hempty : allIn g.nullable (g.ahead j) = true) : g.Meets t i := by
  obtain ⟨a,hnext,hdot,hp,hl⟩ := mem_predictions.mp hj
  obtain ⟨hlt,rfl⟩ := mem_productionsOf.mp hp
  rw [ahead, hdot, List.drop_zero] at hempty
  have hnull := mem_nullable_of_allIn (production_mem hlt) hempty
  rw [Meets, ahead_of_next hnext, ← List.singleton_append, ← hlook]
  exact FirstSets.mem_ofSequence_append (allIn_cons.mpr ⟨⟨_,hnull,rfl⟩,rfl⟩) hl

/-- The items of a canonical state: the first of all, those with the dot inside, and what they call
for. -/
theorem canonicalStates_least {sets : FirstSets} {items : List Item}
    (h : items ∈ g.canonicalStates sets) {P : Item → Prop}
    (hstart : items = g.startItems sets → P ⟨0, 0, .endOfInput⟩)
    (hmoved : ∀ i ∈ items, i.dot ≠ 0 → P i)
    (hcalled : ∀ i ∈ items, P i → ∀ j ∈ g.predictions sets i, P j) : ∀ i ∈ items, P i := by
  have hclosed : ∀ i, i ∈ items ∧ P i → ∀ j ∈ g.predictions sets i, j ∈ items ∧ P j :=
    fun i hi j hj => ⟨canonicalStates_closed h hi.1 hj,hcalled i hi.1 hi.2 j hj⟩
  intro i hi
  refine (?_ : i ∈ items ∧ P i).2
  rcases canonicalStates_cases h with rfl | ⟨before,_,x,rfl⟩
  · refine closure_least (fun k hk => ?_) hclosed hi
    have hseed : k ∈ g.startItems sets := mem_closure_of_mem hk
    obtain rfl := List.mem_singleton.mp hk
    exact ⟨hseed,hstart rfl⟩
  · refine closure_least (fun k hk => ?_) hclosed hi
    have hseed : k ∈ g.goto sets before x := mem_closure_of_mem hk
    obtain ⟨j,_,_,rfl⟩ := mem_gotoKernel.mp hk
    exact ⟨hseed,hmoved _ hseed (Nat.succ_ne_zero j.dot)⟩

end Grammar

namespace Parser
variable {p : Parser} {t : Terminal} {q : ℕ} {above : List ℕ}

theorem reduces_iff {s v : List ℕ} : p.Reduces t s v ↔
    ∃ n target, p.table.action (s.headD 0) t = some (.reduce n) ∧
      (p.grammar.rhs n).length < s.length ∧
      p.table.goto ((s.drop (p.grammar.rhs n).length).headD 0) (p.grammar.production n).lhs =
        some target ∧ v = target :: s.drop (p.grammar.rhs n).length := by
  constructor
  · intro h
    unfold Reduces reduceStates at h
    split at h
    · next n ha =>
      simp only at h
      split_ifs at h with hlen
      obtain ⟨target,hg,rfl⟩ := Option.map_eq_some_iff.mp h
      exact ⟨n,target,ha,Nat.lt_of_not_le hlen,hg,rfl⟩
    · cases h
  · rintro ⟨n,target,ha,hlen,hg,rfl⟩
    unfold Grammar.rhs at hlen hg
    simp only [Reduces, reduceStates, ha, hg, Nat.not_le.mpr hlen, if_false, Option.map_some,
      Grammar.rhs]

/-- Reductions put states above a state that stands alone. -/
def Climbs (p : Parser) (t : Terminal) (q : ℕ) (above : List ℕ) : Prop :=
  Relation.ReflTransGen (p.Reduces t) [q] (above ++ [q])

theorem climbs_nil (p : Parser) (t : Terminal) (q : ℕ) : p.Climbs t q [] :=
  Relation.ReflTransGen.refl

theorem headD_append_cons (above : List ℕ) (q : ℕ) (below : List ℕ) :
    (above ++ q :: below).headD 0 = above.headD q := by
  cases above <;> rfl

theorem headD_append (more above : List ℕ) (q : ℕ) :
    (more ++ above).headD q = more.headD (above.headD q) := by
  cases more <;> rfl

/-- A reduction of no more than the states above a state does not need what is below it. -/
theorem reduces_above {n target : ℕ} (ha : p.table.action (above.headD q) t = some (.reduce n))
    (hle : (p.grammar.rhs n).length ≤ above.length)
    (hg : p.table.goto ((above.drop (p.grammar.rhs n).length).headD q)
      (p.grammar.production n).lhs = some target) :
    p.Reduces t (above ++ [q]) (target :: above.drop (p.grammar.rhs n).length ++ [q]) := by
  refine reduces_iff.mpr ⟨n,target,?_,?_,?_,?_⟩
  · rwa [headD_append_cons]
  · rw [List.length_append, List.length_singleton]
    omega
  · rwa [List.drop_append_of_le_length hle, headD_append_cons]
  · rw [List.drop_append_of_le_length hle, List.cons_append]

theorem Climbs.trans {more : List ℕ} (h : p.Climbs t q above)
    (hmore : p.Climbs t (above.headD q) more) : p.Climbs t q (more ++ above) := by
  refine Relation.ReflTransGen.trans h ?_
  cases above with
  | nil => simpa [Climbs] using hmore
  | cons top above => simpa using reduces_append_of_reflTransGen hmore (above ++ [q])

/-- States that have grown above a state, with the action for the terminal there, and no reduction
that goes on without what is below the state. -/
structure Rests (p : Parser) (t : Terminal) (q : ℕ) (above : List ℕ) (action : Action) : Prop where
  climbs : p.Climbs t q above
  action_eq : p.table.action (above.headD q) t = some action
  still : ∀ v, ¬ p.Reduces t (above ++ [q]) v

theorem rests_of_action {action : Action} (hclimbs : p.Climbs t q above)
    (haction : p.table.action (above.headD q) t = some action)
    (hreduce : ∀ n, action = .reduce n → above.length < (p.grammar.rhs n).length) :
    p.Rests t q above action := by
  refine ⟨hclimbs,haction,fun v hv => ?_⟩
  obtain ⟨n,target,ha,hlen,_⟩ := reduces_iff.mp hv
  rw [headD_append_cons, haction] at ha
  have hless := hreduce n (Option.some.inj ha)
  rw [List.length_append, List.length_singleton] at hlen
  omega

theorem Rests.unique {other : List ℕ} {a b : Action} (h : p.Rests t q above a)
    (h' : p.Rests t q other b) : above = other ∧ a = b := by
  have hstacks : above ++ [q] = other ++ [q] := by
    have hunique : Relator.RightUnique (p.Reduces t) := fun _ _ _ => Reduces.unique
    rcases Relation.ReflTransGen.total_of_right_unique hunique h.climbs h'.climbs with hr | hr
    · rcases Relation.ReflTransGen.cases_head hr with he | ⟨v,hv,_⟩
      · exact he
      · exact absurd hv (h.still v)
    · rcases Relation.ReflTransGen.cases_head hr with he | ⟨v,hv,_⟩
      · exact he.symm
      · exact absurd hv (h'.still v)
  have habove := List.append_cancel_right hstacks
  refine ⟨habove,?_⟩
  have haction := h.action_eq
  rw [habove, h'.action_eq] at haction
  exact (Option.some.inj haction).symm

theorem Rests.settles {action : Action} (h : p.Rests t q above action) : p.Settles t [q] := by
  refine settles_of_reflTransGen h.climbs ⟨_,fun v hv => ?_⟩
  exact absurd hv (h.still v)

/-- Only a grammar in which `start` is used and can be empty calls for an empty production zero. -/
theorem ne_zero_of_called
    (hstart : p.grammar.StartFree ∨ ¬ p.grammar.Derives [.nonTerminal p.grammar.root] [])
    {i : Item} (hi : i ∈ p.grammar.lalr.itemsAt q) {n : ℕ}
    (hnext : p.grammar.next i = some (.nonTerminal (p.grammar.production n).lhs))
    (hempty : Grammar.allIn p.grammar.nullable (p.grammar.rhs n) = true) : n ≠ 0 := by
  rintro rfl
  rcases hstart with hfree | hroot
  · exact hfree.next_ne hi hnext
  · exact hroot (Grammar.derives_nil_iff.mpr hempty)

section Built
variable (hb : Table.build p.grammar = .ok p.table)
  (hstart : p.grammar.StartFree ∨ ¬ p.grammar.Derives [.nonTerminal p.grammar.root] [])
include hb hstart

-- A nonterminal found empty in some round has a production of nonterminals found before, so the
-- outer induction is on the round and the inner one on the symbols behind the dot.
theorem climbs_of_nullableAfter (k : ℕ) {i : Item} {front back : List Symbol}
    (hi : i ∈ p.grammar.lalr.itemsAt q) (hahead : p.grammar.ahead i = front ++ back)
    (hfront : Grammar.allIn (p.grammar.nullableAfter k) front = true)
    (ht : t ∈ (FirstSets.ofGrammar p.grammar).ofSequence back i.lookahead) :
    ∃ above, p.Climbs t q above ∧ above.length = front.length ∧
      ⟨i.production, i.dot + front.length, i.lookahead⟩ ∈
        p.grammar.lalr.itemsAt (above.headD q) := by
  induction k generalizing q i front back with
  | zero =>
    cases front with
    | nil => exact ⟨[],climbs_nil p t q,rfl,hi⟩
    | cons x front =>
      obtain ⟨⟨a,ha,_⟩,_⟩ := Grammar.allIn_cons.mp hfront
      cases ha
  | succ k ih =>
    induction front generalizing q i with
    | nil => exact ⟨[],climbs_nil p t q,rfl,hi⟩
    | cons x front ihf =>
      obtain ⟨⟨a,ha,rfl⟩,hrest⟩ := Grammar.allIn_cons.mp hfront
      obtain ⟨r,hr,rfl,hrhs⟩ := Grammar.mem_nullableRound.mp ha
      obtain ⟨n,rfl⟩ := Grammar.exists_production hr
      have hnext := Grammar.next_eq_some_of_ahead hahead
      have hbeyond := Grammar.beyond_of_ahead hahead
      have hempty := Grammar.allIn_mono (Grammar.nullableAfter_subset_nullable k) hrhs
      have hn := ne_zero_of_called hstart hi hnext hempty
      have hcalled : ⟨n, 0, t⟩ ∈ p.grammar.lalr.itemsAt q := by
        refine Grammar.itemsAt_closed hi (Grammar.mem_predictions.mpr
          ⟨_,hnext,rfl,Grammar.mem_productionsOf.mpr ⟨n.isLt,rfl⟩,?_⟩)
        rw [hbeyond]
        exact FirstSets.mem_ofSequence_append
          (Grammar.allIn_mono (Grammar.nullableAfter_subset_nullable _) hrest) ht
      have hwhole : p.grammar.ahead ⟨n, 0, t⟩ = p.grammar.rhs n ++ [] := by simp [Grammar.ahead]
      obtain ⟨upper,hupper,hlen,hcomplete⟩ := ih hcalled hwhole hrhs
        (FirstSets.mem_ofSequence_of_allIn rfl)
      obtain ⟨target,hedge,hadvance⟩ := Grammar.exists_edge hi hnext
      have hdrop : upper.drop (p.grammar.rhs n).length = [] := List.drop_eq_nil_of_le hlen.le
      have hreduce := reduces_above
        (Table.action_reduce hb hcomplete (by simp [Grammar.next]) hn) hlen.ge
        (by rw [hdrop]; exact (Table.goto_eq_lookup hb q _).trans hedge)
      rw [hdrop] at hreduce
      obtain ⟨more,hmore,hcount,hitem⟩ := ihf hadvance hbeyond hrest ht
      refine ⟨more ++ [target],Climbs.trans (hupper.tail hreduce) hmore,by simp [hcount],?_⟩
      rw [headD_append]
      simpa [Item.advance, Nat.add_comm, Nat.add_left_comm] using hitem

/-- Where a symbol behind a dot leads to the terminal, the terminal is shifted in the end. -/
theorem rests_of_leads (hground : p.grammar.Grounded) {i : Item} {x : Symbol} {xs : List Symbol}
    (hi : i ∈ p.grammar.lalr.itemsAt q) (hahead : p.grammar.ahead i = x :: xs)
    (hx : p.grammar.Leads x (.terminal t)) :
    ∃ above target, p.Rests t q above (.shift target) := by
  induction hx using Relation.ReflTransGen.head_induction_on generalizing q i xs with
  | refl =>
    obtain ⟨target,hedge,_⟩ := Grammar.exists_edge hi (Grammar.next_eq_some_of_ahead hahead)
    exact ⟨[],target,rests_of_action (climbs_nil p t q) (Table.action_shift_of_edge hb hedge)
      (by simp)⟩
  | @head x y hy hyt ih =>
    obtain ⟨r,hr,rfl,hyr⟩ := Grammar.mem_leadsTo.mp hy
    obtain ⟨n,rfl⟩ := Grammar.exists_production hr
    obtain ⟨front,back,hsplit,hfront⟩ := Grammar.exists_split_of_mem_leading hyr
    have hrhs : p.grammar.rhs n = front ++ y :: back := hsplit
    have hnext := Grammar.next_eq_some_of_ahead hahead
    have hcalled : ∃ u, ⟨n, 0, u⟩ ∈ p.grammar.lalr.itemsAt q := by
      obtain ⟨u,hu⟩ := FirstSets.exists_mem_ofSequence_of_forall i.lookahead fun a ha =>
        hground _ (Grammar.production_mem (Grammar.validItem_of_mem_itemsAt hi).1) a
          (List.mem_of_mem_drop (ha : _ ∈ p.grammar.beyond i))
      exact ⟨u,Grammar.itemsAt_closed hi (Grammar.mem_predictions.mpr
        ⟨_,hnext,rfl,Grammar.mem_productionsOf.mpr ⟨n.isLt,rfl⟩,hu⟩)⟩
    obtain ⟨u,hu⟩ := hcalled
    obtain ⟨upper,hupper,_,hitem⟩ := climbs_of_nullableAfter hb hstart _ hu
      (by simpa [Grammar.ahead] using hrhs) hfront (FirstSets.mem_ofSequence_of_leads hyt)
    have hback : p.grammar.ahead ⟨n, 0 + front.length, u⟩ = y :: back := by
      have hdrop := congrArg (List.drop front.length) hrhs
      rw [List.drop_left] at hdrop
      simpa [Grammar.ahead] using hdrop
    obtain ⟨more,target,hmore⟩ := ih hitem hback
    refine ⟨more ++ upper,target,rests_of_action (hupper.trans hmore.climbs) ?_ (by simp)⟩
    rw [headD_append]
    exact hmore.action_eq

/-- An item with nothing but empty symbols behind its dot is completed on its lookahead. -/
theorem completes_of_allIn {i : Item} (hi : i ∈ p.grammar.lalr.itemsAt q)
    (hempty : Grammar.allIn p.grammar.nullable (p.grammar.ahead i) = true) :
    ∃ above, p.Climbs i.lookahead q above ∧
      above.length + i.dot = (p.grammar.rhs i.production).length ∧
      ⟨i.production, (p.grammar.rhs i.production).length, i.lookahead⟩ ∈
        p.grammar.lalr.itemsAt (above.headD q) := by
  obtain ⟨above,habove,hlen,hitem⟩ := climbs_of_nullableAfter hb hstart _ hi
    (List.append_nil _).symm hempty (FirstSets.mem_ofSequence_of_allIn rfl)
  have hvalid := (Grammar.validItem_of_mem_itemsAt hi).2
  have hdots : i.dot + (p.grammar.ahead i).length = (p.grammar.rhs i.production).length := by
    simp only [Grammar.ahead, List.length_drop]
    omega
  rw [hdots] at hitem
  exact ⟨above,habove,by omega,hitem⟩

/-- If its dot is inside, it comes to rest there: what is reduced is below the state. -/
theorem rests_of_allIn {i : Item} (hi : i ∈ p.grammar.lalr.itemsAt q) (hdot : i.dot ≠ 0)
    (hn : i.production ≠ 0)
    (hempty : Grammar.allIn p.grammar.nullable (p.grammar.ahead i) = true) :
    ∃ above, above.length + i.dot = (p.grammar.rhs i.production).length ∧
      p.Rests i.lookahead q above (.reduce i.production) := by
  obtain ⟨above,habove,hlen,hitem⟩ := completes_of_allIn hb hstart hi hempty
  have haction := Table.action_reduce hb hitem (by simp [Grammar.next]) hn
  refine ⟨above,hlen,rests_of_action habove haction fun n he => ?_⟩
  cases he
  omega

/-- An item that meets the terminal grows until the terminal is shifted, unless nothing but empty
symbols is behind its dot. -/
theorem rests_or_allIn (hground : p.grammar.Grounded) {i : Item}
    (hi : i ∈ p.grammar.lalr.itemsAt q) (hmeets : p.grammar.Meets t i) :
    (∃ above target, p.Rests t q above (.shift target)) ∨
      i.lookahead = t ∧ Grammar.allIn p.grammar.nullable (p.grammar.ahead i) = true := by
  rcases FirstSets.mem_ofSequence_iff.mp hmeets with ⟨x,hx,hxt⟩ | ⟨hempty,rfl⟩
  · left
    obtain ⟨front,back,hahead,hfront⟩ := Grammar.exists_split_of_mem_leading hx
    obtain ⟨upper,hupper,_,hitem⟩ := climbs_of_nullableAfter hb hstart _ hi hahead hfront
      (FirstSets.mem_ofSequence_of_leads hxt)
    have hback : p.grammar.ahead ⟨i.production, i.dot + front.length, i.lookahead⟩ = x :: back := by
      have hdrop := congrArg (List.drop front.length) hahead
      rwa [List.drop_left, Grammar.ahead, List.drop_drop] at hdrop
    obtain ⟨more,target,hmore⟩ := rests_of_leads hb hstart hground hitem hback hxt
    refine ⟨more ++ upper,target,rests_of_action (hupper.trans hmore.climbs) ?_ (by simp)⟩
    rw [headD_append]
    exact hmore.action_eq
  · exact Or.inr ⟨rfl,hempty⟩

/-- A state that stands alone comes to rest. -/
theorem settles_singleton (hground : p.grammar.Grounded) (q : ℕ) : p.Settles t [q] := by
  constructor
  intro v hv
  refine Acc.inv ?_ hv
  obtain ⟨n,target,ha,hlen,_⟩ := reduces_iff.mp hv
  obtain ⟨hn,hitem⟩ := Table.item_of_action_reduce hb ha
  have hempty : p.grammar.rhs n = [] := List.eq_nil_of_length_eq_zero (by simpa using hlen)
  obtain ⟨items,hm,rfl,him⟩ := Grammar.mem_itemsAt.mp hitem
  have hrests : ∀ i ∈ items, (i.production = 0 → i.dot = 0) → p.grammar.Meets t i →
      ∃ above action, p.Rests t (p.grammar.numberOf items) above action := by
    refine Grammar.canonicalStates_least hm ?_ ?_ ?_
    · rintro rfl _ hmeets
      rw [Grammar.numberOf_startItems]
      rcases rests_or_allIn hb hstart hground Grammar.start_mem_itemsAt hmeets with
        ⟨above,target,hrest⟩ | ⟨rfl,hvanish⟩
      · exact ⟨above,_,hrest⟩
      · obtain ⟨above,habove,_,haccept⟩ :=
          completes_of_allIn hb hstart Grammar.start_mem_itemsAt hvanish
        exact ⟨above,_,rests_of_action habove (Table.action_accept hb haccept) (by simp)⟩
    · intro i hi hdot hzero hmeets
      have hiq := Grammar.mem_itemsAt.mpr ⟨items,hm,rfl,hi⟩
      rcases rests_or_allIn hb hstart hground hiq hmeets with ⟨above,target,hrest⟩ | ⟨rfl,hvanish⟩
      · exact ⟨above,_,hrest⟩
      · obtain ⟨above,_,hrest⟩ :=
          rests_of_allIn hb hstart hiq hdot (fun h => hdot (hzero h)) hvanish
        exact ⟨above,_,hrest⟩
    · intro i hi hrests j hj _ hmeets
      have hjq := Grammar.mem_itemsAt.mpr ⟨items,hm,rfl,Grammar.canonicalStates_closed hm hi hj⟩
      rcases rests_or_allIn hb hstart hground hjq hmeets with
        ⟨above,target,hrest⟩ | ⟨hlook,hvanish⟩
      · exact ⟨above,_,hrest⟩
      · exact hrests (Grammar.dot_eq_zero_of_called hj) (Grammar.meets_of_called hj hlook hvanish)
  have hmeets : p.grammar.Meets t ⟨n, (p.grammar.rhs n).length, t⟩ := by
    refine FirstSets.mem_ofSequence_of_allIn ?_
    simp [Grammar.ahead, Grammar.allIn]
  obtain ⟨above,action,hrest⟩ := hrests _ him (fun h => absurd h hn) hmeets
  exact hrest.settles

end Built

end Parser

end LetPrint
