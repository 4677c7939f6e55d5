import LetPrint.Proofs.Faultless

/-! # Errors are found at the first possible token

If every nonterminal of a production derives some tokens, each item of a state that a path leads to
can be completed to a sentence. So what a parser has shifted is the beginning of a sentence, also
after reductions that only the lookaheads of another merged state asked for. A token without an
action cannot come next in any sentence: until it is shifted the parse does not depend on what
follows it, and sentences are accepted.
-/
namespace LetPrint

namespace Grammar
variable {g : Grammar}

/-- Every nonterminal of a production derives a list of tokens. -/
def Productive (g : Grammar) : Prop :=
  ∀ r ∈ g.productions, ∀ a, Symbol.nonTerminal a ∈ r.rhs →
    ∃ kinds : List Kind, g.Derives [.nonTerminal a] (kinds.map Symbol.token)

/-- Symbols, the last one first, begin something that the root derives and that goes on with what an
item still expects. -/
def Completes (g : Grammar) (symbols : List Symbol) (i : Item) : Prop :=
  ∃ kinds : List Kind, g.Derives [.nonTerminal g.root]
    (symbols.reverse ++ g.ahead i ++ kinds.map Symbol.token)

/-- A list of kinds with which some sentence begins. -/
def Viable (g : Grammar) (kinds : List Kind) : Prop := ∃ more, g.Sentence (kinds ++ more)

theorem Productive.grounded (h : g.Productive) : g.Grounded := by
  intro r hr a ha
  obtain ⟨kinds,hkinds⟩ := h r hr a ha
  cases kinds with
  | nil => exact Or.inl hkinds
  | cons kind kinds => exact Or.inr ⟨_,_,hkinds⟩

/-- The items of a state are the first of all, those that have read something, and what they call
for. -/
theorem itemsAt_least {state : ℕ} {P : Item → Prop} (hstart : state = 0 → P ⟨0, 0, .endOfInput⟩)
    (hmoved : ∀ i ∈ g.lalr.itemsAt state, i.dot ≠ 0 → P i)
    (hcalled : ∀ i ∈ g.lalr.itemsAt state, P i →
      ∀ j ∈ g.predictions (FirstSets.ofGrammar g) i, P j) :
    ∀ i ∈ g.lalr.itemsAt state, P i := by
  intro i hi
  obtain ⟨items,hm,hn,him⟩ := mem_itemsAt.mp hi
  have hmem : ∀ j ∈ items, j ∈ g.lalr.itemsAt state :=
    fun j hj => mem_itemsAt.mpr ⟨items,hm,hn,hj⟩
  refine canonicalStates_least hm ?_ (fun j hj => hmoved j (hmem j hj))
    (fun j hj => hcalled j (hmem j hj)) i him
  rintro rfl
  exact hstart (hn.symm.trans numberOf_startItems)

theorem Path.exists_item {states : List ℕ} {symbols : List Symbol} (h : g.Path states symbols) :
    ∃ i, i ∈ g.lalr.itemsAt (states.headD 0) := by
  cases h with
  | start => exact ⟨_,start_mem_itemsAt⟩
  | step _ edge =>
    obtain ⟨i,hi,hx⟩ := exists_item_of_edge edge
    obtain ⟨target,ht,hadvance⟩ := exists_edge hi hx
    rw [edge] at ht
    cases ht
    exact ⟨_,hadvance⟩

section Completion
variable (hend : g.EndFree) (hprod : g.Productive)
include hend hprod

theorem exists_tokens_of_subset {r : Rule} (hr : r ∈ g.productions) {xs : List Symbol}
    (hxs : xs ⊆ r.rhs) : ∃ kinds : List Kind, g.Derives xs (kinds.map Symbol.token) := by
  induction xs with
  | nil => exact ⟨[],Relation.ReflTransGen.refl⟩
  | cons x xs ih =>
    obtain ⟨hx,hxs⟩ := List.cons_subset.mp hxs
    obtain ⟨rest,hrest⟩ := ih hxs
    obtain ⟨first,hfirst⟩ : ∃ kinds : List Kind, g.Derives [x] (kinds.map Symbol.token) := by
      cases x with
      | nonTerminal a => exact hprod r hr a hx
      | terminal t =>
        cases t with
        | token kind => exact ⟨[kind],Relation.ReflTransGen.refl⟩
        | endOfInput => exact absurd hx (hend r hr)
    refine ⟨first ++ rest,?_⟩
    rw [List.map_append]
    exact Derives.append hfirst hrest

theorem exists_tokens_ahead {state : ℕ} {i : Item} (hi : i ∈ g.lalr.itemsAt state) :
    ∃ kinds : List Kind, g.Derives (g.ahead i) (kinds.map Symbol.token) :=
  exists_tokens_of_subset hend hprod (production_mem (validItem_of_mem_itemsAt hi).1)
    (List.drop_subset _ _)

/-- A called item begins where the calling one stands, and the rest of the latter derives tokens. -/
theorem Completes.called {state : ℕ} {symbols : List Symbol} {i j : Item}
    (h : g.Completes symbols i) (hi : i ∈ g.lalr.itemsAt state)
    (hj : j ∈ g.predictions (FirstSets.ofGrammar g) i) : g.Completes symbols j := by
  obtain ⟨kinds,hkinds⟩ := h
  obtain ⟨a,hnext,hdot,hp,_⟩ := mem_predictions.mp hj
  obtain ⟨hlt,rfl⟩ := mem_productionsOf.mp hp
  obtain ⟨behind,hbehind⟩ := exists_tokens_of_subset hend hprod
    (production_mem (validItem_of_mem_itemsAt hi).1) (List.drop_subset (i.dot + 1) _)
  have hahead : g.ahead j = (g.production j.production).rhs := by
    rw [ahead, hdot, List.drop_zero]
    rfl
  have hrule := (derives_rhs (production_mem hlt)).append hbehind
  refine ⟨behind ++ kinds,hkinds.trans ?_⟩
  rw [ahead_of_next hnext, hahead, List.map_append, List.append_assoc, List.append_assoc]
  refine Derives.append_left ?_ _
  rw [← List.append_assoc]
  exact Derives.append_right hrule _

/-- Every item of the last state of a path can be completed. -/
theorem Path.completes {states : List ℕ} {symbols : List Symbol} (h : g.Path states symbols) :
    ∀ i ∈ g.lalr.itemsAt (states.headD 0), g.Completes symbols i := by
  induction h with
  | start =>
    refine itemsAt_least (fun _ => ⟨[],Relation.ReflTransGen.refl⟩)
      (fun i hi hdot => absurd (dot_eq_zero hi) hdot) ?_
    exact fun i hi hc j hj => hc.called hend hprod hi hj
  | @step state target states x symbols path edge ih =>
    refine itemsAt_least (fun hzero => absurd hzero (edge_ne_zero edge)) ?_
      (fun i hi hc j hj => hc.called hend hprod hi hj)
    rintro ⟨n,d,t⟩ hi hdot
    obtain ⟨d,rfl⟩ := Nat.exists_eq_succ_of_ne_zero hdot
    obtain ⟨u,hu,hx⟩ := exists_before_edge edge hi
    obtain ⟨kinds,hkinds⟩ := ih _ hu
    refine ⟨kinds,?_⟩
    rw [ahead_of_next (i := ⟨n, d, u⟩) hx] at hkinds
    simpa [ahead, beyond] using hkinds

theorem Path.viable {states : List ℕ} {symbols : List Symbol} (h : g.Path states symbols)
    {kinds : List Kind} (hkinds : g.Derives symbols.reverse (kinds.map Symbol.token)) :
    g.Viable kinds := by
  obtain ⟨i,hi⟩ := h.exists_item
  obtain ⟨behind,hbehind⟩ := h.completes hend hprod i hi
  obtain ⟨front,hfront⟩ := exists_tokens_ahead hend hprod hi
  refine ⟨front ++ behind,hbehind.trans ?_⟩
  rw [List.map_append, List.map_append, ← List.append_assoc]
  exact Derives.append_right (hkinds.append hfront) _

end Completion

end Grammar

namespace Config

/-- Two configurations that can only differ in what is still to be read. -/
structure Twin (c d : Config) : Prop where
  states_eq : c.states = d.states
  values_eq : c.values = d.values
  env_eq : c.env = d.env

theorem Twin.top_eq {c d : Config} (h : c.Twin d) : c.top = d.top := by
  unfold top
  rw [h.states_eq]

theorem Reads.unique {c : Config} {tokens other : List Token} (h : c.Reads tokens)
    (h' : c.Reads other) : tokens = other := by
  have hhead := h.1.symm.trans h'.1
  have hinj : Function.Injective (Except.ok (ε := Error) (α := Token)) := fun _ _ => Except.ok.inj
  have htail := List.map_injective_iff.mpr hinj (h.2.symm.trans h'.2)
  cases tokens <;> cases other <;> simp_all

end Config

namespace Parser
variable {p : Parser} {c c' d : Config}

theorem reads_of_reduced (h : (p.step c).value = .reduced c') {tokens : List Token} :
    c'.Reads tokens ↔ c.Reads tokens := by
  obtain ⟨_,_,_,_,_,_,_,_,_,rfl⟩ := step_reduced h
  rfl

theorem exists_twin_of_shifted {token : Token} {rest more : List Token} (h : c.Twin d)
    (hstep : (p.step c).value = .shifted c') (hc : c.Reads (token :: rest))
    (hd : d.Reads (token :: more)) : ∃ d', p.Next d d' ∧ c'.Twin d' ∧ c'.Reads rest ∧
      d'.Reads more := by
  obtain ⟨_,state,_,ha,_⟩ := step_shifted hstep
  rw [hc.terminal_eq] at ha
  obtain ⟨u,hu,hpushed⟩ := step_of_action_shift hc ha
  obtain rfl := Next.unique hu (Or.inl hstep)
  rw [h.top_eq] at ha
  obtain ⟨d',hd',hpushed'⟩ := step_of_action_shift hd ha
  refine ⟨d',hd',⟨?_,?_,?_⟩,hpushed.reads,hpushed'.reads⟩
  · rw [hpushed.states_eq, hpushed'.states_eq, h.states_eq]
  · rw [hpushed.values_eq, hpushed'.values_eq, h.values_eq]
  · rw [hpushed.env_eq, hpushed'.env_eq, h.env_eq]

theorem exists_twin_of_reduced (h : c.Twin d) (hstep : (p.step c).value = .reduced c')
    (hterminal : c.terminal = d.terminal) :
    ∃ d', (p.step d).value = .reduced d' ∧ c'.Twin d' := by
  obtain ⟨n,state,value,env,ha,hv,hs,hr,hg,rfl⟩ := step_reduced hstep
  have hvalue := value_step p d
  rw [← h.top_eq, ← hterminal, ha] at hvalue
  rw [h.states_eq] at hs hg
  rw [h.values_eq] at hv hr
  rw [h.env_eq] at hr
  have hroom : ¬ (d.values.length < (p.grammar.rhs n).length ∨
      d.states.length ≤ (p.grammar.rhs n).length) := by omega
  simp only [value_reduce, if_neg hroom, hr, hg] at hvalue
  refine ⟨_,hvalue,?_,?_,rfl⟩
  · simp [Config.afterReduce, h.states_eq]
  · simp [Config.afterReduce, h.values_eq]

section Stuck
variable (hb : Table.build p.grammar = .ok p.table) {announced : Bool} {env : Environment}
include hb

/-- As long as a token is not shifted, the steps of a parse do not depend on what follows it. -/
theorem exists_twin {front rest : List Token} {token : Token} (more : List Token)
    (hsteps : Relation.ReflTransGen p.Next (start (front ++ token :: rest) announced env) c)
    (between : List Token) (hreads : c.Reads (between ++ token :: rest)) :
    ∃ d, Relation.ReflTransGen p.Next (start (front ++ token :: more) announced env) d ∧
      c.Twin d ∧ d.Reads (between ++ token :: more) := by
  induction hsteps generalizing between with
  | refl =>
    have hstart : (start (front ++ token :: rest) announced env).Reads (front ++ token :: rest) :=
      ⟨rfl,rfl⟩
    obtain rfl := List.append_cancel_right (hstart.unique hreads)
    exact ⟨_,Relation.ReflTransGen.refl,⟨rfl,rfl,rfl⟩,rfl,rfl⟩
  | @tail c c' hbefore hnext ih =>
    rcases hnext with hs | hr
    · obtain ⟨_,_,before,_,_,hc,_⟩ := spells_of_steps hb hbefore
      obtain ⟨next,_,hl,_,_⟩ := step_shifted hs
      obtain ⟨after,rfl⟩ : ∃ after, before = next :: after :=
        List.head?_eq_some_iff.mp (hc.1.symm.trans hl)
      obtain ⟨_,_,_,hafter,_⟩ := exists_twin_of_shifted (d := c) ⟨rfl,rfl,rfl⟩ hs hc hc
      obtain rfl := hafter.unique hreads
      obtain ⟨d,hd,htwin,hdreads⟩ := ih (next :: between) hc
      obtain ⟨d',hd',htwin',_,hreads'⟩ := exists_twin_of_shifted htwin hs hc hdreads
      exact ⟨d',hd.tail hd',htwin',hreads'⟩
    · have hsame := (reads_of_reduced hr).mp hreads
      obtain ⟨d,hd,htwin,hdreads⟩ := ih between hsame
      have hterminal : c.terminal = d.terminal := by
        rw [hsame.terminal_eq, hdreads.terminal_eq]
        cases between <;> rfl
      obtain ⟨d',hd',htwin'⟩ := exists_twin_of_reduced htwin hr hterminal
      exact ⟨d',hd.tail (Or.inr hd'),htwin',(reads_of_reduced hd').mpr hdreads⟩

theorem viable_of_steps (hend : p.grammar.EndFree) (hprod : p.grammar.Productive)
    {front rest : List Token}
    (hsteps : Relation.ReflTransGen p.Next (start (front ++ rest) announced env) c)
    (hreads : c.Reads rest) : p.grammar.Viable (front.map Token.kind) := by
  obtain ⟨symbols,shifted,others,hpath,hinput,hothers,hderives⟩ := spells_of_steps hb hsteps
  obtain rfl := hothers.unique hreads
  obtain rfl := List.append_cancel_right hinput
  refine hpath.viable hend hprod ?_
  rwa [List.map_map]

section Total
variable (hstart : p.grammar.StartFree) (htotal : NeverFails p.grammar p.reduction)
include hstart htotal

/-- The parse of a sentence gets to no terminal without an action. -/
theorem not_sentence_of_unexpected {tokens : List Token}
    (hsteps : Relation.ReflTransGen p.Next (start tokens announced env) c)
    (ha : p.table.action c.top c.terminal = none) :
    ¬ p.grammar.Sentence (tokens.map Token.kind) := by
  intro hsentence
  obtain ⟨value,after,hdrive⟩ := drive_of_derives hb hstart htotal
    (by rwa [Grammar.Sentence, List.map_map] at hsentence) announced env
  rw [drive_eq_run] at hdrive
  have hstep : (p.step c).value = .failed (p.unexpected c) c.env := by rw [value_step, ha]
  have hfails : p.Ends (start tokens announced env) (.failed (p.unexpected c), c.env) :=
    ⟨c,hsteps,hstep⟩
  cases hfails.unique (ends_of_run hdrive (by simp))

/-- What has no action after tokens were read cannot follow them in any sentence. -/
theorem not_legal_of_unexpected {front rest : List Token}
    (hsteps : Relation.ReflTransGen p.Next (start (front ++ rest) announced env) c)
    (hreads : c.Reads rest) (ha : p.table.action c.top c.terminal = none) :
    ¬ p.grammar.Legal (front.map Token.kind) (following rest) := by
  cases rest with
  | nil =>
    rw [List.append_nil] at hsteps
    exact not_sentence_of_unexpected hb hstart htotal hsteps ha
  | cons token rest =>
    rintro ⟨kinds,hsentence⟩
    let more : List Token := kinds.map fun kind => ⟨kind, "", .start⟩
    have hkinds : kinds = more.map Token.kind := by simp [more, Function.comp_def]
    obtain ⟨d,hd,htwin,hdreads⟩ := exists_twin hb more hsteps [] hreads
    rw [htwin.top_eq, hreads.terminal_eq] at ha
    refine not_sentence_of_unexpected hb hstart htotal hd ?_ ?_
    · rw [hdreads.terminal_eq]
      exact ha
    · rw [hkinds] at hsentence
      simpa using hsentence

/-- A parse that halts accepts a sentence, or stands before a terminal without an action. -/
theorem halted_cases (hend : p.grammar.EndFree) {tokens : List Token}
    {result : Outcome × Environment} (h : p.Ends (start tokens announced env) result) :
    (∃ value, result.1 = .accepted value) ∧ p.grammar.Sentence (tokens.map Token.kind) ∨
    ∃ front rest c, tokens = front ++ rest ∧ c.Reads rest ∧
      Relation.ReflTransGen p.Next (start tokens announced env) c ∧
      p.table.action c.top c.terminal = none ∧ result = (.failed (p.unexpected c), c.env) := by
  obtain ⟨outcome,after⟩ := result
  have hcases := h.outcome_cases
  obtain ⟨c,hsteps,hhalted⟩ := h
  have hspells := spells_of_steps hb hsteps
  rcases hcases with ⟨value,rfl⟩ | ⟨error,rfl⟩
  · refine Or.inl ⟨⟨value,rfl⟩,?_⟩
    have hderives := derives_of_accept hb hstart hspells (action_of_accepted hhalted)
    rwa [Grammar.Sentence, List.map_map]
  · obtain ⟨_,front,rest,_,htokens,hreads,_⟩ := hspells
    have hsound : p.Sound c := Visits.sound hb ⟨_,entry_start tokens announced env,hsteps⟩
    rcases (hsound.faultless hb hend).blames hhalted with
      ⟨ha,rfl,rfl⟩ | ⟨_,⟨others,hi⟩,_⟩ | ⟨n,ha,hr⟩
    · exact Or.inr ⟨front,rest,c,htokens,hreads,hsteps,ha,rfl⟩
    · rw [hreads.2] at hi
      cases rest with
      | nil => cases hi
      | cons _ rest => cases rest <;> cases hi
    · obtain ⟨hne,hitem⟩ := Table.item_of_action_reduce hb ha
      obtain ⟨hlen,_⟩ := (hsound.faultless hb hend).reduce n ha
      obtain ⟨value,env',hok⟩ := htotal n hne (Grammar.validItem_of_mem_itemsAt hitem).1 c.env
        (c.values.take (p.grammar.rhs n).length).reverse (by simp [hlen])
      rw [hok] at hr
      cases hr

end Total

end Stuck

/-- With reductions that never fail a parser accepts a sentence or finds the first error: what
stands before the token that it reports begins a sentence, and with the token it does so no longer.
The end of input is reported if the tokens begin a sentence and are none. -/
theorem fails_at_first_illegal {g : Grammar} {table : Table} {reduction : ℕ → Reduction}
    (hb : Table.build g = .ok table) (hstart : g.StartFree) (hend : g.EndFree)
    (hprod : g.Productive) (htotal : NeverFails g reduction) (tokens : List Token)
    (announced : Bool) (env : Environment) :
    (∃ value, ((mk g table reduction).drive ⟨tokens.map .ok, announced⟩ env).value.1 =
        .accepted value) ∧ g.Sentence (tokens.map Token.kind) ∨
    ∃ front rest c, tokens = front ++ rest ∧
      (mk g table reduction).Visits ⟨tokens.map .ok, announced⟩ env c ∧ c.Reads rest ∧
      ((mk g table reduction).drive ⟨tokens.map .ok, announced⟩ env).value =
        (.failed ((mk g table reduction).unexpected c), c.env) ∧
      let expected := (table.expected c.top).map Terminal.name
      match rest with
      | token :: _ => (mk g table reduction).unexpected c =
            .located (.unexpectedToken token.text expected) token.position ∧
          g.Viable (front.map Token.kind) ∧ ¬ g.Viable ((front ++ [token]).map Token.kind)
      | [] => (mk g table reduction).unexpected c = ⟨.unexpectedEnd expected, c.lastEnd⟩ ∧
          (∃ more ≠ [], g.Sentence (tokens.map Token.kind ++ more)) ∧
          ¬ g.Sentence (tokens.map Token.kind) := by
  have hroom : (start tokens announced env).remaining < tokens.length + 1 := by
    cases tokens <;> simp [start, initial, Config.remaining]
  have hends := run_halts (p := mk g table reduction) hb (Or.inl hstart) hprod.grounded hroom
  rw [drive_eq_run]
  rcases halted_cases (p := mk g table reduction) hb hstart htotal hend hends with
    haccepts | ⟨front,rest,c,htokens,hreads,hsteps,ha,hresult⟩
  · exact Or.inl haccepts
  · refine Or.inr ⟨front,rest,c,htokens,⟨_,entry_start tokens announced env,hsteps⟩,hreads,
      hresult,?_⟩
    rw [htokens] at hsteps
    have hviable := viable_of_steps (p := mk g table reduction) hb hend hprod hsteps hreads
    have hillegal := not_legal_of_unexpected (p := mk g table reduction) hb hstart htotal hsteps
      hreads ha
    have hlookahead := hreads.1
    cases rest with
    | cons token rest =>
      refine ⟨by simp [unexpected, hlookahead],hviable,?_⟩
      rintro ⟨more,hmore⟩
      exact hillegal ⟨more,by simpa using hmore⟩
    | nil =>
      obtain rfl : tokens = front := by rw [htokens, List.append_nil]
      refine ⟨by simp [unexpected, hlookahead],?_,hillegal⟩
      obtain ⟨more,hmore⟩ := hviable
      refine ⟨more,?_,hmore⟩
      rintro rfl
      rw [List.append_nil] at hmore
      exact hillegal hmore

def enclosed : Grammar :=
  ⟨.program, [⟨.program, [.nonTerminal .expr]⟩,
    ⟨.program, [.token .letKeyword, .nonTerminal .program, .token .printKeyword]⟩,
    ⟨.expr, [.token .identifier]⟩]⟩

theorem productive_enclosed : enclosed.Productive := by
  have hexpr : enclosed.Derives [.nonTerminal .expr] ([Kind.identifier].map Symbol.token) :=
    Grammar.derives_rhs (r := ⟨.expr,[.token .identifier]⟩) (by decide)
  have hprogram : enclosed.Derives [.nonTerminal .program] [.nonTerminal .expr] :=
    Grammar.derives_rhs (r := ⟨.program,[.nonTerminal .expr]⟩) (by decide)
  have hsymbols : ∀ r ∈ enclosed.productions, ∀ a ∈ NonTerminal.all,
      Symbol.nonTerminal a ∈ r.rhs → a = .program ∨ a = .expr := by decide
  intro r hr a ha
  rcases hsymbols r hr a a.mem_all ha with rfl | rfl
  · exact ⟨_,hprogram.trans hexpr⟩
  · exact ⟨_,hexpr⟩

/-- A closing bracket behind a name, with none opened before it: the name is reduced as it would
have to be inside brackets, and still it is the bracket that is reported. -/
theorem first_illegal_enclosed : ∃ table, Table.build enclosed = .ok table ∧ enclosed.StartFree ∧
    enclosed.EndFree ∧ enclosed.Productive ∧ NeverFails enclosed blindly ∧
    enclosed.Viable [.identifier] ∧ ¬ enclosed.Viable [.identifier, .printKeyword] := by
  let name : Token := ⟨.identifier, "a", .start⟩
  let bracket : Token := ⟨.printKeyword, "print", ⟨1, 3, 2⟩⟩
  have hfails : (Table.build enclosed).toOption.map (fun table =>
      match ((mk enclosed table blindly).drive ⟨[name, bracket].map .ok, false⟩ {}).value.1 with
      | .failed ⟨.unexpectedToken text _,_⟩ => text == "print"
      | _ => false) = some true := by decide +kernel
  have htotal := neverFails_blindly enclosed
  cases hb : Table.build enclosed with
  | error conflict =>
    rw [hb] at hfails
    cases hfails
  | ok table =>
    rw [hb, Except.toOption, Option.map_some, Option.some.injEq] at hfails
    refine ⟨table,rfl,by decide,by decide,productive_enclosed,htotal,?_⟩
    rcases fails_at_first_illegal hb (by decide) (by decide) productive_enclosed htotal
        [name, bracket] false {} with ⟨⟨value,hv⟩,_⟩ | ⟨front,rest,c,htokens,_,_,hv,hrest⟩
    · rw [hv] at hfails
      cases hfails
    · rw [hv] at hfails
      rcases List.append_eq_cons_iff.mp htokens.symm with ⟨rfl,rfl⟩ | ⟨more,rfl,hmore⟩
      · rw [hrest.1] at hfails
        cases hfails
      · rcases List.append_eq_cons_iff.mp hmore.symm with ⟨rfl,rfl⟩ | ⟨last,rfl,hlast⟩
        · exact hrest.2
        · obtain ⟨_,rfl⟩ := List.append_eq_nil_iff.mp hlast.symm
          rw [hrest.1] at hfails
          cases hfails

end Parser

end LetPrint
