import LetPrint.Proofs.Cores
import LetPrint.Proofs.Rightmost
import LetPrint.Proofs.Rounds
import LetPrint.Proofs.ViablePrefixes

/-! # The canonical automaton recognises viable prefixes

An item is valid for symbols if a rightmost derivation gets to them with the item's production as
its next step. Closure and goto keep items valid, since what follows a called nonterminal can be
derived to terminals first. Conversely each nonterminal of a rightmost derivation was called for
where it stands, with every lookahead that what is behind it can yield. So the state behind symbols
holds exactly the items that are valid for them.
-/
namespace LetPrint

namespace Automaton

/-- The state that symbols lead to, if there is an edge for each of them. -/
def follow (a : Automaton) (state : ℕ) : List Symbol → Option ℕ
  | [] => some state
  | x :: xs => do
    let target ← (a.edgesAt state).lookup x
    a.follow target xs

end Automaton

namespace Grammar
open Automaton (canonical)
open LetPrint.Parser (enclosed)
variable {g : Grammar} {symbols : List Symbol} {i j : Item}

/-- Every nonterminal of a production derives a list of terminals. -/
def Fruitful (g : Grammar) : Prop :=
  ∀ r ∈ g.productions, ∀ a, Symbol.nonTerminal a ∈ r.rhs →
    ∃ word : List Terminal, g.Derives [.nonTerminal a] (word.map .terminal)

/-- An item is valid for symbols if a rightmost derivation gets to its nonterminal, with terminals
behind it, and the symbols are what stands before the nonterminal and before the dot. Its lookahead
is the first of the terminals, or the end of input if there are none. -/
def Valid (g : Grammar) (uses : ℕ → Prop) (symbols : List Symbol) (i : Item) : Prop :=
  g.ValidItem i ∧ uses i.production ∧ ∃ (front : List Symbol) (word : List Terminal),
    g.RightmostDerives uses [.nonTerminal .start]
      (front ++ .nonTerminal (g.production i.production).lhs :: word.map .terminal) ∧
    symbols = front ++ (g.rhs i.production).take i.dot ∧ i.lookahead = word.headD .endOfInput

/-- The item set behind symbols, empty if they lead nowhere. -/
def itemsAfter (g : Grammar) (symbols : List Symbol) : List Item :=
  symbols.foldl (g.goto (FirstSets.ofGrammar g)) (g.startItems (FirstSets.ofGrammar g))

theorem itemsAfter_concat (symbols : List Symbol) (x : Symbol) : g.itemsAfter (symbols ++ [x]) =
    g.goto (FirstSets.ofGrammar g) (g.itemsAfter symbols) x := by
  rw [itemsAfter, List.foldl_append]
  rfl

theorem rhs_eq_of_next {x : Symbol} (h : g.next i = some x) :
    g.rhs i.production = (g.rhs i.production).take i.dot ++ x :: g.beyond i := by
  rw [← ahead_of_next h, ahead, List.take_append_drop]

section Soundness

theorem valid_start : g.Valid g.Enters [] ⟨0, 0, .endOfInput⟩ :=
  ⟨⟨by simp [productions],by simp⟩,fun _ => rfl,[],[],Relation.ReflTransGen.refl,rfl,rfl⟩

theorem Valid.advance {uses : ℕ → Prop} {x : Symbol} (h : g.Valid uses symbols i)
    (hx : g.next i = some x) : g.Valid uses (symbols ++ [x]) i.advance := by
  obtain ⟨hitem,huses,front,word,hderives,rfl,hlook⟩ := h
  refine ⟨hitem.advance hx,huses,front,word,hderives,?_,hlook⟩
  have htake : (g.rhs i.production).take (i.dot + 1) = (g.rhs i.production).take i.dot ++ [x] := by
    rw [List.take_add_one, show (g.rhs i.production)[i.dot]? = some x from hx]
    rfl
  rw [Item.advance, htake, List.append_assoc]

/-- Nonterminals that come out of right-hand sides derive terminals, and so do all symbols that are
derived from them. -/
theorem Fruitful.exists_yields (hfruit : g.Fruitful) {xs ys : List Symbol} (h : g.Derives xs ys)
    (hxs : ∀ a, Symbol.nonTerminal a ∈ xs → ∃ r ∈ g.productions, .nonTerminal a ∈ r.rhs) :
    ∃ word, g.Yields ys word := by
  have hys : ∀ a, Symbol.nonTerminal a ∈ ys → ∃ r ∈ g.productions, .nonTerminal a ∈ r.rhs := by
    induction h with
    | refl => exact hxs
    | tail _ hp ih =>
      cases hp with
      | @replace front back r hr =>
        intro a ha
        rcases List.mem_append.mp ha with ha | ha
        · rcases List.mem_append.mp ha with ha | ha
          · exact ih a (List.mem_append_left _ ha)
          · exact ⟨r,hr,ha⟩
        · exact ih a (List.mem_append_right _ (List.mem_cons_of_mem _ ha))
  clear h
  induction ys with
  | nil => exact ⟨[],.nil⟩
  | cons y ys ih =>
    obtain ⟨word,hword⟩ := ih fun a ha => hys a (List.mem_cons_of_mem _ ha)
    cases y with
    | terminal t => exact ⟨t :: word,.terminal t hword⟩
    | nonTerminal a =>
      obtain ⟨r,hr,ha⟩ := hys a List.mem_cons_self
      obtain ⟨first,hfirst⟩ := hfruit r hr a ha
      exact ⟨first ++ word,(yields_iff_derives.mpr hfirst).append hword⟩

/-- A lookahead of a called item begins something that the symbols behind the nonterminal yield, or
comes after them. -/
theorem Fruitful.exists_yields_of_mem_ofSequence (hfruit : g.Fruitful) {xs : List Symbol}
    (hxs : ∀ a, Symbol.nonTerminal a ∈ xs → ∃ r ∈ g.productions, .nonTerminal a ∈ r.rhs)
    {t after : Terminal} (h : t ∈ (FirstSets.ofGrammar g).ofSequence xs after) :
    ∃ word, g.Yields xs word ∧ t = word.headD after := by
  obtain ⟨rest,hrest⟩ := FirstSets.mem_ofSequence_iff_derives.mp h
  obtain ⟨word,hword⟩ := hfruit.exists_yields hrest fun a ha => hxs a (by simpa using ha)
  have hall := yields_iff_derives.mpr (hrest.trans hword.derives)
  obtain ⟨front,back,hsplit,hfront,hback⟩ := hall.exists_split
  obtain rfl : back = [after] := Yields.eq_of_terminals [after] hback
  refine ⟨front,hfront,?_⟩
  cases hword with
  | terminal _ _ =>
    cases front with
    | nil => exact (List.cons.inj hsplit).1
    | cons s front => exact (List.cons.inj hsplit).1

theorem Valid.called (hstart : g.StartFree) (hfruit : g.Fruitful) (h : g.Valid g.Enters symbols i)
    (hj : j ∈ g.predictions (FirstSets.ofGrammar g) i) : g.Valid g.Enters symbols j := by
  obtain ⟨hitem,henters,front,word,hderives,rfl,hlook⟩ := h
  obtain ⟨a,hnext,hdot,hp,hl⟩ := mem_predictions.mp hj
  obtain ⟨_,rfl⟩ := mem_productionsOf.mp hp
  have hrhs := rhs_eq_of_next hnext
  have hbeyond : ∀ x ∈ g.beyond i, x ∈ g.rhs i.production := fun x hx => List.mem_of_mem_drop hx
  obtain ⟨last,hlast,hfirst⟩ := hfruit.exists_yields_of_mem_ofSequence
    (fun a ha => ⟨_,production_mem hitem.1,hbeyond _ ha⟩) hl
  -- the calling production comes first, then what is behind the nonterminal goes to terminals
  have hstep := ReplacesLast.replace front word hitem.1 henters
  have hbehind := hlast.rightmost hstart (fun hs => hstart.rhs hitem.1 (hbeyond _ hs))
    (front ++ (g.rhs i.production).take i.dot ++
      [.nonTerminal (g.production j.production).lhs]) word
  have henters' : g.Enters j.production := by
    intro hlhs
    rw [hlhs] at hrhs
    exact absurd (by rw [hrhs]; simp) (hstart.rhs hitem.1)
  refine ⟨validItem_of_mem_predictions hj,henters',front ++ (g.rhs i.production).take i.dot,
    last ++ word,?_,?_,?_⟩
  · have hform : front ++ (g.rhs i.production).take i.dot ++
        [.nonTerminal (g.production j.production).lhs] ++ g.beyond i =
        front ++ g.rhs i.production := by
      conv_rhs => rw [hrhs]
      simp
    rw [hform] at hbehind
    refine (hderives.tail hstep).trans ?_
    simpa using hbehind
  · rw [hdot, List.take_zero, List.append_nil]
  · rw [hfirst, hlook]
    cases last <;> rfl

theorem valid_of_mem_closure (hstart : g.StartFree) (hfruit : g.Fruitful) {kernel : List Item}
    (hkernel : ∀ k ∈ kernel, g.Valid g.Enters symbols k)
    (hi : i ∈ g.closure (FirstSets.ofGrammar g) kernel) : g.Valid g.Enters symbols i :=
  closure_least hkernel (fun _ hk _ hj => hk.called hstart hfruit hj) hi

theorem valid_of_mem_itemsAfter (hstart : g.StartFree) (hfruit : g.Fruitful)
    (hi : i ∈ g.itemsAfter symbols) : g.Valid g.Enters symbols i := by
  induction symbols using List.reverseRecOn generalizing i with
  | nil =>
    refine valid_of_mem_closure hstart hfruit (fun k hk => ?_) hi
    obtain rfl := List.mem_singleton.mp hk
    exact valid_start
  | append_singleton symbols x ih =>
    rw [itemsAfter_concat] at hi
    refine valid_of_mem_closure hstart hfruit (fun k hk => ?_) hi
    obtain ⟨j,hj,hx,rfl⟩ := mem_gotoKernel.mp hk
    exact (ih hj).advance hx

end Soundness

section Completeness

theorem mem_itemsAfter_of_called (hi : i ∈ g.itemsAfter symbols)
    (hj : j ∈ g.predictions (FirstSets.ofGrammar g) i) : j ∈ g.itemsAfter symbols := by
  induction symbols using List.reverseRecOn with
  | nil => exact mem_closure_of_mem_predictions hi hj
  | append_singleton symbols x _ =>
    rw [itemsAfter_concat] at hi ⊢
    exact mem_closure_of_mem_predictions hi hj

theorem mem_itemsAfter_take {p : ℕ} {t : Terminal} (hi : ⟨p, 0, t⟩ ∈ g.itemsAfter symbols) {d : ℕ}
    (hd : d ≤ (g.rhs p).length) :
    ⟨p, d, t⟩ ∈ g.itemsAfter (symbols ++ (g.rhs p).take d) := by
  induction d with
  | zero => simpa using hi
  | succ d ih =>
    have hx : (g.rhs p)[d]? = some (g.rhs p)[d] := List.getElem?_eq_getElem hd
    rw [List.take_add_one, hx, Option.toList_some, ← List.append_assoc, itemsAfter_concat]
    exact advance_mem_goto (ih (by omega)) hx

/-- Every nonterminal of the form was called for where it stands, with each lookahead that what is
behind it can yield. -/
def Called (g : Grammar) (form : List Symbol) : Prop :=
  ∀ front p back word, p < g.productions.length → g.Enters p →
    form = front ++ .nonTerminal (g.production p).lhs :: back → g.Yields back word →
    ⟨p, 0, word.headD .endOfInput⟩ ∈ g.itemsAfter front

theorem called_start : g.Called [.nonTerminal .start] := by
  intro front p back word _ henters hform hback
  obtain ⟨rfl,hlhs,rfl⟩ : front = [] ∧ .start = (g.production p).lhs ∧ back = [] := by
    cases front with
    | nil => simpa using hform
    | cons => simp at hform
  cases hback
  obtain rfl := henters hlhs.symm
  exact mem_closure_of_mem (by simp)

theorem split_of_append_eq {xs ys front back : List Symbol} {z : Symbol}
    (h : xs ++ ys = front ++ z :: back) : (∃ mid, xs = front ++ z :: mid ∧ back = mid ++ ys) ∨
      ∃ mid, front = xs ++ mid ∧ ys = mid ++ z :: back := by
  rcases List.append_eq_append_iff.mp h with hright | ⟨mid,hxs,hback⟩
  · exact Or.inr hright
  · rcases List.append_eq_cons_iff.mp hback.symm with ⟨rfl,hys⟩ | ⟨rest,rfl,hrest⟩
    · exact Or.inr ⟨[],by simpa using hxs.symm,hys⟩
    · exact Or.inl ⟨rest,hxs,hrest⟩

/-- A production that was called for calls for its nonterminals once it has read what is before
them. -/
theorem called_inside {q p : ℕ} {t : Terminal} (hq : ⟨q, 0, t⟩ ∈ g.itemsAfter symbols)
    {before behind : List Symbol}
    (hrhs : g.rhs q = before ++ .nonTerminal (g.production p).lhs :: behind)
    (hp : p < g.productions.length) {word : List Terminal} (hword : g.Yields behind word) :
    ⟨p, 0, word.headD t⟩ ∈ g.itemsAfter (symbols ++ before) := by
  have hread := mem_itemsAfter_take hq (d := before.length) (by simp [hrhs])
  rw [show (g.rhs q).take before.length = before by rw [hrhs, List.take_left]] at hread
  refine mem_itemsAfter_of_called hread (mem_predictions.mpr
    ⟨(g.production p).lhs,by simp [next, hrhs],rfl,mem_productionsOf.mpr ⟨hp,rfl⟩,?_⟩)
  have hbeyond : g.beyond ⟨q, before.length, t⟩ = behind := by
    simp [beyond, hrhs, List.drop_append]
  rw [hbeyond]
  exact FirstSets.headD_mem_ofSequence t hword.derives

theorem Called.replaceLast {form next : List Symbol} (h : g.Called form)
    (hstep : g.ReplacesLast g.Enters form next) : g.Called next := by
  cases hstep with
  | @replace before last q hq henters =>
    intro front p back word hp henters' hform hback
    rcases split_of_append_eq hform with ⟨mid,hmid,rfl⟩ | ⟨mid,_,hlast⟩
    · rcases split_of_append_eq hmid with ⟨between,rfl,rfl⟩ | ⟨inside,rfl,hrhs⟩
      · -- it stood there before the step, and the step is part of what is behind it
        refine h front p _ word hp henters' (by rw [List.append_assoc, List.cons_append]) ?_
        exact (Produces.replace between _ (production_mem hq)).yields hback
      · obtain ⟨first,behind,rfl,hfirst,hbehind⟩ := hback.exists_split
        have hq' := h before q _ behind hq henters rfl hbehind
        have hinside := called_inside hq' hrhs hp hfirst
        cases first <;> exact hinside
    · have hmem : Symbol.nonTerminal (g.production p).lhs ∈ last.map .terminal := by
        rw [hlast]
        simp
      simp at hmem

theorem called_of_rightmost {form : List Symbol}
    (h : g.RightmostDerives g.Enters [.nonTerminal .start] form) : g.Called form := by
  induction h with
  | refl => exact called_start
  | tail _ hstep ih => exact ih.replaceLast hstep

theorem Valid.mem_itemsAfter (h : g.Valid g.Enters symbols i) : i ∈ g.itemsAfter symbols := by
  obtain ⟨hitem,henters,front,word,hderives,rfl,hlook⟩ := h
  have hcalled := called_of_rightmost hderives front _ _ word hitem.1 henters rfl
    (yields_terminals word)
  rw [← hlook] at hcalled
  exact mem_itemsAfter_take hcalled hitem.2

end Completeness

section Following
variable {s t : ℕ}

theorem goto_nil {sets : FirstSets} (x : Symbol) : g.goto sets [] x = [] := by
  refine List.eq_nil_iff_forall_not_mem.mpr fun i hi => ?_
  exact closure_least (P := fun _ => False) (by simp) (fun _ h => h.elim) hi

theorem foldl_goto_nil {sets : FirstSets} (symbols : List Symbol) :
    symbols.foldl (g.goto sets) [] = [] := by
  induction symbols with
  | nil => rfl
  | cons x symbols ih => rw [List.foldl_cons, goto_nil, ih]

theorem goto_eq_nil_of_not_mem {sets : FirstSets} {items : List Item} {x : Symbol}
    (h : x ∉ g.nextSymbols items) : g.goto sets items x = [] := by
  have hkernel : items.filter (g.next · = some x) = [] := by
    refine List.filter_eq_nil_iff.mpr fun i hi => ?_
    simpa using fun hx => h (mem_nextSymbols.mpr ⟨i,hi,hx⟩)
  have hnil : g.goto sets [] x = [] := goto_nil x
  rw [← hnil, goto, hkernel, goto]
  rfl

theorem ne_nil_of_mem_lr1 {items : List Item} (h : items ∈ g.lr1) : items ≠ [] := by
  refine Reach.closure_least (P := (· ≠ [])) ?_ ?_ h
  · intro start hs
    obtain rfl := List.mem_singleton.mp hs
    exact List.ne_nil_of_mem (mem_closure_of_mem List.mem_cons_self)
  · intro items _ next hnext
    obtain ⟨x,hx,rfl⟩ := mem_successors.mp hnext
    obtain ⟨i,hi,hix⟩ := mem_nextSymbols.mp hx
    exact List.ne_nil_of_mem (advance_mem_goto hi hix)

theorem eq_of_itemsAt_canonical_eq (hs : s < g.lr1.length) (ht : t < g.lr1.length)
    (h : (canonical g).itemsAt s = (canonical g).itemsAt t) : s = t := by
  have hnodup : g.lr1.Nodup := Reach.nodup_closure
  change g.lr1.getD s [] = g.lr1.getD t [] at h
  simp only [List.getD_eq_getElem?_getD, List.getElem?_eq_getElem hs, List.getElem?_eq_getElem ht,
    Option.getD_some] at h
  exact (hnodup.getElem_inj_iff).mp h

theorem itemsAt_canonical_zero :
    (canonical g).itemsAt 0 = g.startItems (FirstSets.ofGrammar g) := by
  change g.lr1.getD 0 [] = _
  rw [List.getD_eq_getElem?_getD, ← List.head?_eq_getElem?, head?_canonicalStates, Option.getD_some]

/-- Symbols lead from a state to the state whose items they leave, and nowhere if they leave
none. -/
theorem follow_eq_some_iff (hs : s < g.lr1.length) :
    (canonical g).follow s symbols = some t ↔ t < g.lr1.length ∧ (canonical g).itemsAt t =
      symbols.foldl (g.goto (FirstSets.ofGrammar g)) ((canonical g).itemsAt s) := by
  induction symbols generalizing s with
  | nil =>
    simp only [Automaton.follow, Option.some.injEq, List.foldl_nil]
    constructor
    · rintro rfl
      exact ⟨hs,rfl⟩
    · rintro ⟨ht,he⟩
      exact (eq_of_itemsAt_canonical_eq ht hs he).symm
  | cons x symbols ih =>
    rw [Automaton.follow, List.foldl_cons]
    by_cases hx : x ∈ g.nextSymbols ((canonical g).itemsAt s)
    · have hmem := goto_mem_lr1 (itemsAt_canonical_mem hs) hx
      rw [(lookup_edgesAt_canonical hs).mpr ⟨hx,rfl⟩, Option.bind_eq_bind, Option.bind_some,
        ih (List.idxOf_lt_length_of_mem hmem), itemsAt_canonical_idxOf hmem]
    · have hnone : ((canonical g).edgesAt s).lookup x = none := by
        rw [Option.eq_none_iff_forall_ne_some]
        intro target hlook
        exact hx ((lookup_edgesAt_canonical hs).mp hlook).1
      rw [hnone, Option.bind_eq_bind, Option.bind_none, goto_eq_nil_of_not_mem hx, foldl_goto_nil]
      constructor
      · intro h
        cases h
      · rintro ⟨ht,he⟩
        exact absurd he (ne_nil_of_mem_lr1 (itemsAt_canonical_mem ht))

theorem follow_zero_eq_some_iff : (canonical g).follow 0 symbols = some s ↔
    s < g.lr1.length ∧ (canonical g).itemsAt s = g.itemsAfter symbols := by
  have hpos : 0 < g.lr1.length := List.length_pos_of_mem startItems_mem_canonicalStates
  rw [follow_eq_some_iff hpos, itemsAt_canonical_zero, itemsAfter]

theorem exists_itemsAfter_eq {items : List Item} (h : items ∈ g.lr1) :
    ∃ symbols, g.itemsAfter symbols = items := by
  refine Reach.closure_least (P := fun items => ∃ symbols, g.itemsAfter symbols = items) ?_ ?_ h
  · intro start hs
    obtain rfl := List.mem_singleton.mp hs
    exact ⟨[],rfl⟩
  · rintro _ ⟨symbols,rfl⟩ next hnext
    obtain ⟨x,_,rfl⟩ := mem_successors.mp hnext
    exact ⟨symbols ++ [x],itemsAfter_concat symbols x⟩

theorem itemsAfter_mem_lr1 (h : i ∈ g.itemsAfter symbols) : g.itemsAfter symbols ∈ g.lr1 := by
  induction symbols using List.reverseRecOn generalizing i with
  | nil => exact startItems_mem_canonicalStates
  | append_singleton symbols x ih =>
    rw [itemsAfter_concat] at h ⊢
    have hx : x ∈ g.nextSymbols (g.itemsAfter symbols) := by
      by_contra hx
      rw [goto_eq_nil_of_not_mem hx] at h
      cases h
    obtain ⟨j,hj,_⟩ := mem_nextSymbols.mp hx
    exact goto_mem_lr1 (ih hj) hx

end Following

/-- The canonical collection is complete, repeats no item set, and all its states are reached from
the first. In a grammar whose nonterminals derive terminals, symbols lead to a state exactly if an
item is valid for them, and the state holds the items that are valid for them and no others.
Production zero is the only one of `start` that a derivation may use. -/
theorem canonical_viable_prefixes (g : Grammar) :
    (∀ more, Reach.closure (g.successors (FirstSets.ofGrammar g)) (2 ^ g.itemCount + more)
      [g.startItems (FirstSets.ofGrammar g)] = (canonical g).states) ∧
    (canonical g).states.Nodup ∧
    (∀ s < (canonical g).states.length, ∃ symbols, (canonical g).follow 0 symbols = some s) ∧
    (g.StartFree → g.Fruitful → ∀ symbols,
      ((∃ s, (canonical g).follow 0 symbols = some s) ↔ ∃ i, g.Valid g.Enters symbols i) ∧
      ∀ s, (canonical g).follow 0 symbols = some s →
        ∀ i, i ∈ (canonical g).itemsAt s ↔ g.Valid g.Enters symbols i) := by
  refine ⟨canonicalStates_add,Reach.nodup_closure,fun s hs => ?_,fun hstart hfruit symbols => ?_⟩
  · obtain ⟨symbols,he⟩ := exists_itemsAfter_eq (itemsAt_canonical_mem hs)
    exact ⟨symbols,follow_zero_eq_some_iff.mpr ⟨hs,he.symm⟩⟩
  · have hvalid : ∀ i, i ∈ g.itemsAfter symbols ↔ g.Valid g.Enters symbols i :=
      fun i => ⟨valid_of_mem_itemsAfter hstart hfruit,Valid.mem_itemsAfter⟩
    refine ⟨⟨?_,?_⟩,?_⟩
    · rintro ⟨s,hs⟩
      obtain ⟨hlt,he⟩ := follow_zero_eq_some_iff.mp hs
      obtain ⟨i,hi⟩ := List.exists_mem_of_ne_nil _ (ne_nil_of_mem_lr1 (itemsAt_canonical_mem hlt))
      exact ⟨i,(hvalid i).mp (he ▸ hi)⟩
    · rintro ⟨i,hi⟩
      have hmem := itemsAfter_mem_lr1 hi.mem_itemsAfter
      exact ⟨_,follow_zero_eq_some_iff.mpr
        ⟨List.idxOf_lt_length_of_mem hmem,itemsAt_canonical_idxOf hmem⟩⟩
    · intro s hs i
      rw [(follow_zero_eq_some_iff.mp hs).2, hvalid]

theorem Productive.fruitful (h : g.Productive) : g.Fruitful := by
  intro r hr a ha
  obtain ⟨kinds,hkinds⟩ := h r hr a ha
  refine ⟨kinds.map .token,?_⟩
  rwa [List.map_map]

/-- Inside a pair of brackets a name is followed by the closing bracket and not by the end of input;
two names lead nowhere. -/
theorem viable_prefixes_enclosed :
    enclosed.StartFree ∧ enclosed.Fruitful ∧
    enclosed.Valid enclosed.Enters [.token .letKeyword, .token .identifier]
      ⟨3, 1, .token .printKeyword⟩ ∧
    ¬ enclosed.Valid enclosed.Enters [.token .letKeyword, .token .identifier]
      ⟨3, 1, .endOfInput⟩ ∧
    ¬ ∃ i, enclosed.Valid enclosed.Enters [.token .identifier, .token .identifier] i := by
  have hstart : enclosed.StartFree := by decide
  have hfruit := Parser.productive_enclosed.fruitful
  have hname : (canonical enclosed).follow 0 [.token .letKeyword, .token .identifier] =
      some 5 := by decide +kernel
  have hnames : (canonical enclosed).follow 0 [.token .identifier, .token .identifier] =
      none := by decide +kernel
  obtain ⟨_,_,_,hviable⟩ := canonical_viable_prefixes enclosed
  have hitems := (hviable hstart hfruit _).2 5 hname
  refine ⟨hstart,hfruit,(hitems _).mp (by decide +kernel),mt (hitems _).mpr (by decide +kernel),?_⟩
  intro hvalid
  obtain ⟨s,hs⟩ := (hviable hstart hfruit _).1.mpr hvalid
  rw [hnames] at hs
  cases hs

def secondStart : Grammar :=
  ⟨.program, [⟨.program, [.token .identifier]⟩, ⟨.start, [.token .letKeyword]⟩]⟩

/-- If a derivation may use any production of `start`, items of its second production are valid that
no state holds, and what they have read leads nowhere. -/
theorem second_start_unreached :
    secondStart.StartFree ∧ secondStart.Fruitful ∧
    secondStart.Valid (fun _ => True) [] ⟨2, 0, .endOfInput⟩ ∧
    (canonical secondStart).follow 0 [] = some 0 ∧
    ⟨2, 0, .endOfInput⟩ ∉ (canonical secondStart).itemsAt 0 ∧
    (∃ i, secondStart.Valid (fun _ => True) [.token .letKeyword] i) ∧
    (canonical secondStart).follow 0 [.token .letKeyword] = none := by
  have hnext : secondStart.next ⟨2, 0, .endOfInput⟩ = some (.token .letKeyword) := by decide
  have hvalid : secondStart.Valid (fun _ => True) [] ⟨2, 0, .endOfInput⟩ :=
    ⟨⟨by decide,by decide⟩,trivial,[],[],Relation.ReflTransGen.refl,rfl,rfl⟩
  have hsymbols : ∀ r ∈ secondStart.productions, ∀ a ∈ NonTerminal.all,
      Symbol.nonTerminal a ∈ r.rhs → a = .program := by decide
  have hfruit : secondStart.Fruitful := by
    intro r hr a ha
    obtain rfl := hsymbols r hr a a.mem_all ha
    exact ⟨[.token .identifier],derives_rhs (r := ⟨.program,[.token .identifier]⟩) (by decide)⟩
  exact ⟨by decide,hfruit,hvalid,rfl,by decide +kernel,⟨_,hvalid.advance hnext⟩,by decide +kernel⟩

end Grammar

end LetPrint
