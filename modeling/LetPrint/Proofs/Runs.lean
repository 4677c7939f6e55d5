import LetPrint.Proofs.Settling

/-! # Steps and runs of a parser

What one step can do is said once, without the log. A run with enough fuel ends where the steps end;
the fuel is enough as soon as the reductions between shifts settle.
-/
namespace LetPrint

namespace Config

def afterShift (c : Config) (token : Token) (state : ℕ) (lookahead : Option Token)
    (items : List (Except Error Token)) : Config :=
  { states := state :: c.states
    values := .token token :: c.values
    env := c.env
    lookahead := lookahead
    feed := { c.feed with items := items }
    lastEnd := some token.span.stop }

def afterReduce (c : Config) (length state : ℕ) (value : Fragment) (env : Environment) : Config :=
  { c with
    states := state :: c.states.drop length
    values := value :: c.values.drop length
    env := env }

/-- There is one value for every state above the first. -/
def Aligned (c : Config) : Prop := c.states.length = c.values.length + 1

/-- Two configurations that can only differ in their values and environments. -/
structure Alike (c d : Config) : Prop where
  states_eq : c.states = d.states
  lookahead_eq : c.lookahead = d.lookahead
  feed_eq : c.feed = d.feed

theorem Alike.terminal_eq {c d : Config} (h : c.Alike d) : c.terminal = d.terminal := by
  unfold terminal
  rw [h.lookahead_eq]

theorem Alike.top_eq {c d : Config} (h : c.Alike d) : c.top = d.top := by
  unfold top
  rw [h.states_eq]

/-- The number of items that are still to be shifted. -/
def remaining (c : Config) : ℕ := c.feed.items.length + if c.lookahead.isSome then 1 else 0

end Config

namespace Parser
variable {p : Parser} {c : Config}

theorem value_shift (c : Config) (state : ℕ) : (shift c state).value =
    match c.lookahead with
    | none => .fault .shiftPastEnd c.env
    | some token =>
      match c.feed.items with
      | [] => .shifted (c.afterShift token state none [])
      | .ok next :: rest => .shifted (c.afterShift token state (some next) rest)
      | .error error :: _ => .failed error c.env := by
  obtain ⟨states,values,env,lookahead,⟨items,announced⟩,lastEnd⟩ := c
  cases lookahead with
  | none => rfl
  | some token =>
    cases items with
    | nil => rfl
    | cons item rest =>
      cases item with
      | error error => rfl
      | ok next => rfl

theorem value_reduce (c : Config) (n : ℕ) : (p.reduce c n).value =
    if c.values.length < (p.grammar.rhs n).length ∨ c.states.length ≤ (p.grammar.rhs n).length then
      .fault (.stackUnderflow (p.grammar.production n)) c.env
    else
      match (p.reduction n c.env (c.values.take (p.grammar.rhs n).length).reverse).value with
      | (.error error, env) => .failed error env
      | (.ok value, env) =>
        match p.table.goto ((c.states.drop (p.grammar.rhs n).length).headD 0)
            (p.grammar.production n).lhs with
        | none => .fault (.noGoto ((c.states.drop (p.grammar.rhs n).length).headD 0)
            (p.grammar.production n).lhs) env
        | some state => .reduced (c.afterReduce (p.grammar.rhs n).length state value env) := by
  delta Grammar.rhs
  unfold reduce
  by_cases h : c.values.length < (p.grammar.production n).rhs.length ∨
      c.states.length ≤ (p.grammar.production n).rhs.length
  · have hb : (decide (c.values.length < (p.grammar.production n).rhs.length) ||
        decide (c.states.length ≤ (p.grammar.production n).rhs.length)) = true := by simpa using h
    simp only [if_pos h, if_pos hb]
    rfl
  · have hb : ¬ (decide (c.values.length < (p.grammar.production n).rhs.length) ||
        decide (c.states.length ≤ (p.grammar.production n).rhs.length)) = true := by simpa using h
    simp only [if_neg h, if_neg hb, Traced.value_bind]
    cases hv : (p.reduction n c.env
        (c.values.take (p.grammar.production n).rhs.length).reverse).value with
    | mk result env =>
      cases result with
      | error error => rfl
      | ok value =>
        simp only
        cases p.table.goto ((c.states.drop (p.grammar.production n).rhs.length).headD 0)
            (p.grammar.production n).lhs with
        | none => rfl
        | some state => rfl

theorem value_step (p : Parser) (c : Config) : (p.step c).value =
    match p.table.action c.top c.terminal with
    | none => .failed (p.unexpected c) c.env
    | some (.shift state) => (shift c state).value
    | some (.reduce n) => (p.reduce c n).value
    | some .accept => accept c := by
  unfold step
  cases p.table.action c.top c.terminal with
  | none => rfl
  | some action => cases action <;> rfl

/-- Everything that a step can do, with what has to be the case for it. -/
inductive Does (p : Parser) (c : Config) : Step → Prop
  | unexpected (action : p.table.action c.top c.terminal = none) :
    p.Does c (.halted (.failed (p.unexpected c)) c.env)
  | shiftPastEnd {state : ℕ} (action : p.table.action c.top c.terminal = some (.shift state))
    (lookahead : c.lookahead = none) : p.Does c (.halted (.failed (.ofFault .shiftPastEnd)) c.env)
  | shiftLast {state : ℕ} {token : Token}
    (action : p.table.action c.top c.terminal = some (.shift state))
    (lookahead : c.lookahead = some token) (items : c.feed.items = []) :
    p.Does c (.shifted (c.afterShift token state none []))
  | shift {state : ℕ} {token next : Token} {rest : List (Except Error Token)}
    (action : p.table.action c.top c.terminal = some (.shift state))
    (lookahead : c.lookahead = some token) (items : c.feed.items = .ok next :: rest) :
    p.Does c (.shifted (c.afterShift token state (some next) rest))
  | pullError {state : ℕ} {token : Token} {error : Error} {rest : List (Except Error Token)}
    (action : p.table.action c.top c.terminal = some (.shift state))
    (lookahead : c.lookahead = some token) (items : c.feed.items = .error error :: rest) :
    p.Does c (.halted (.failed error) c.env)
  | underflow {n : ℕ} (action : p.table.action c.top c.terminal = some (.reduce n))
    (short : c.values.length < (p.grammar.rhs n).length ∨
      c.states.length ≤ (p.grammar.rhs n).length) :
    p.Does c (.halted (.failed (.ofFault (.stackUnderflow (p.grammar.production n)))) c.env)
  | reduceError {n : ℕ} {error : Error} {env : Environment}
    (action : p.table.action c.top c.terminal = some (.reduce n))
    (values : (p.grammar.rhs n).length ≤ c.values.length)
    (states : (p.grammar.rhs n).length < c.states.length)
    (reduction : (p.reduction n c.env (c.values.take (p.grammar.rhs n).length).reverse).value =
      (.error error, env)) : p.Does c (.halted (.failed error) env)
  | noGoto {n : ℕ} {value : Fragment} {env : Environment}
    (action : p.table.action c.top c.terminal = some (.reduce n))
    (values : (p.grammar.rhs n).length ≤ c.values.length)
    (states : (p.grammar.rhs n).length < c.states.length)
    (reduction : (p.reduction n c.env (c.values.take (p.grammar.rhs n).length).reverse).value =
      (.ok value, env))
    (goto : p.table.goto ((c.states.drop (p.grammar.rhs n).length).headD 0)
      (p.grammar.production n).lhs = none) :
    p.Does c (.halted (.failed (.ofFault (.noGoto
      ((c.states.drop (p.grammar.rhs n).length).headD 0) (p.grammar.production n).lhs))) env)
  | reduce {n state : ℕ} {value : Fragment} {env : Environment}
    (action : p.table.action c.top c.terminal = some (.reduce n))
    (values : (p.grammar.rhs n).length ≤ c.values.length)
    (states : (p.grammar.rhs n).length < c.states.length)
    (reduction : (p.reduction n c.env (c.values.take (p.grammar.rhs n).length).reverse).value =
      (.ok value, env))
    (goto : p.table.goto ((c.states.drop (p.grammar.rhs n).length).headD 0)
      (p.grammar.production n).lhs = some state) :
    p.Does c (.reduced (c.afterReduce (p.grammar.rhs n).length state value env))
  | emptyStack (action : p.table.action c.top c.terminal = some .accept) (values : c.values = []) :
    p.Does c (.halted (.failed (.ofFault .emptyValueStack)) c.env)
  | accept {value : Fragment} {rest : List Fragment}
    (action : p.table.action c.top c.terminal = some .accept) (values : c.values = value :: rest) :
    p.Does c (.halted (.accepted value) c.env)

theorem does_step (p : Parser) (c : Config) : p.Does c (p.step c).value := by
  rw [value_step]
  cases ha : p.table.action c.top c.terminal with
  | none => exact .unexpected ha
  | some action =>
    cases action with
    | shift state =>
      simp only [value_shift]
      cases hl : c.lookahead with
      | none => exact .shiftPastEnd ha hl
      | some token =>
        cases hi : c.feed.items with
        | nil => exact .shiftLast ha hl hi
        | cons item rest =>
          cases item with
          | ok next => exact .shift ha hl hi
          | error error => exact .pullError ha hl hi
    | reduce n =>
      simp only [value_reduce]
      split_ifs with hlen
      · exact .underflow ha hlen
      · simp only [not_or, Nat.not_lt, Nat.not_le] at hlen
        split
        · next hr => exact .reduceError ha hlen.1 hlen.2 hr
        · next hr =>
          split
          · next hg => exact .noGoto ha hlen.1 hlen.2 hr hg
          · next hg => exact .reduce ha hlen.1 hlen.2 hr hg
    | accept =>
      simp only [Parser.accept]
      cases hv : c.values with
      | nil => exact .emptyStack ha hv
      | cons value rest => exact .accept ha hv

theorem step_shifted {c' : Config} (h : (p.step c).value = .shifted c') :
    ∃ token state, c.lookahead = some token ∧
      p.table.action c.top c.terminal = some (.shift state) ∧
      (c.feed.items = [] ∧ c' = c.afterShift token state none [] ∨
        ∃ next rest, c.feed.items = .ok next :: rest ∧
          c' = c.afterShift token state (some next) rest) := by
  have hdoes := does_step p c
  rw [h] at hdoes
  cases hdoes with
  | shiftLast ha hl hi => exact ⟨_,_,hl,ha,Or.inl ⟨hi,rfl⟩⟩
  | shift ha hl hi => exact ⟨_,_,hl,ha,Or.inr ⟨_,_,hi,rfl⟩⟩

theorem step_reduced {c' : Config} (h : (p.step c).value = .reduced c') :
    ∃ n state value env, p.table.action c.top c.terminal = some (.reduce n) ∧
      (p.grammar.rhs n).length ≤ c.values.length ∧ (p.grammar.rhs n).length < c.states.length ∧
      (p.reduction n c.env (c.values.take (p.grammar.rhs n).length).reverse).value =
        (.ok value, env) ∧
      p.table.goto ((c.states.drop (p.grammar.rhs n).length).headD 0)
        (p.grammar.production n).lhs = some state ∧
      c' = c.afterReduce (p.grammar.rhs n).length state value env := by
  have hdoes := does_step p c
  rw [h] at hdoes
  cases hdoes with
  | reduce ha hv hs hr hg => exact ⟨_,_,_,_,ha,hv,hs,hr,hg,rfl⟩

theorem action_of_accepted {value : Fragment} {env : Environment}
    (h : (p.step c).value = .halted (.accepted value) env) :
    p.table.action c.top c.terminal = some .accept := by
  have hdoes := does_step p c
  rw [h] at hdoes
  cases hdoes with
  | accept ha _ => exact ha

section Reduce
variable {n : ℕ} (popped : List ℕ) {states : List ℕ} (taken : List Fragment)
  {values : List Fragment} {env : Environment}
  (ha : p.table.action c.top c.terminal = some (.reduce n)) (hs : c.states = popped ++ states)
  (hpopped : popped.length = (p.grammar.rhs n).length) (hstates : states ≠ [])
  (hv : c.values = taken.reverse ++ values) (htaken : taken.length = (p.grammar.rhs n).length)
include ha hs hpopped hstates hv htaken

theorem value_reduce_of_split : (p.step c).value =
    match (p.reduction n c.env taken).value with
    | (.error error, env) => .failed error env
    | (.ok value, env) =>
      match p.table.goto (states.headD 0) (p.grammar.production n).lhs with
      | none => .fault (.noGoto (states.headD 0) (p.grammar.production n).lhs) env
      | some state =>
        .reduced { c with states := state :: states, values := value :: values, env := env } := by
  have hpos : 0 < states.length := List.length_pos_iff.mpr hstates
  have hroom : ¬ (c.values.length < (p.grammar.rhs n).length ∨
      c.states.length ≤ (p.grammar.rhs n).length) := by
    simp only [hs, hv, List.length_append, List.length_reverse]
    omega
  have htake : (c.values.take (p.grammar.rhs n).length).reverse = taken := by
    simp [hv, ← htaken]
  have hdrop : c.states.drop (p.grammar.rhs n).length = states := by simp [hs, ← hpopped]
  have hdropv : c.values.drop (p.grammar.rhs n).length = values := by simp [hv, ← htaken]
  rw [value_step, ha]
  simp only [value_reduce, if_neg hroom, htake, Config.afterReduce, hdrop, hdropv]

theorem step_reduce {state : ℕ} {value : Fragment}
    (hr : (p.reduction n c.env taken).value = (.ok value, env))
    (hg : p.table.goto (states.headD 0) (p.grammar.production n).lhs = some state) :
    (p.step c).value =
      .reduced { c with states := state :: states, values := value :: values, env := env } := by
  rw [value_reduce_of_split popped taken ha hs hpopped hstates hv htaken, hr]
  simp only [hg]

theorem step_reduce_error {error : Error}
    (hr : (p.reduction n c.env taken).value = (.error error, env)) :
    (p.step c).value = .halted (.failed error) env := by
  rw [value_reduce_of_split popped taken ha hs hpopped hstates hv htaken, hr]
  rfl

end Reduce

def Next (p : Parser) (c c' : Config) : Prop :=
  (p.step c).value = .shifted c' ∨ (p.step c).value = .reduced c'

/-- Steps lead to a step that ends the parse in this way. -/
def Ends (p : Parser) (c : Config) (result : Outcome × Environment) : Prop :=
  ∃ c', Relation.ReflTransGen p.Next c c' ∧ (p.step c').value = .halted result.1 result.2

theorem Next.unique {u v : Config} (hu : p.Next c u) (hv : p.Next c v) : u = v := by
  rcases hu with hu | hu <;> rcases hv with hv | hv <;> rw [hu] at hv <;> cases hv <;> rfl

theorem not_next_of_halted {outcome : Outcome} {env : Environment}
    (h : (p.step c).value = .halted outcome env) (c' : Config) : ¬ p.Next c c' := by
  rintro (hs | hr)
  · rw [h] at hs
    cases hs
  · rw [h] at hr
    cases hr

theorem Ends.of_reflTransGen {c' : Config} {result : Outcome × Environment}
    (hsteps : Relation.ReflTransGen p.Next c c') (h : p.Ends c' result) : p.Ends c result := by
  obtain ⟨last,hl,hh⟩ := h
  exact ⟨last,hsteps.trans hl,hh⟩

theorem Ends.after {c' : Config} {result : Outcome × Environment} (h : p.Ends c result)
    (hsteps : Relation.ReflTransGen p.Next c c') : p.Ends c' result := by
  induction hsteps with
  | refl => exact h
  | tail _ hnext ih =>
    obtain ⟨last,hl,hh⟩ := ih
    rcases Relation.ReflTransGen.cases_head hl with rfl | ⟨u,hu,hul⟩
    · exact absurd hnext (not_next_of_halted hh _)
    · obtain rfl := Next.unique hnext hu
      exact ⟨last,hul,hh⟩

theorem Ends.unique {r r' : Outcome × Environment} (h : p.Ends c r) (h' : p.Ends c r') :
    r = r' := by
  obtain ⟨last,hl,hh⟩ := h
  obtain ⟨last',hl',hh'⟩ := h'.after hl
  rcases Relation.ReflTransGen.cases_head hl' with rfl | ⟨u,hu,_⟩
  · rw [hh] at hh'
    obtain ⟨ho,he⟩ := Step.halted.inj hh'
    exact Prod.ext ho he
  · exact absurd hu (not_next_of_halted hh u)

theorem reduces_of_step_reduced {c' : Config} (h : (p.step c).value = .reduced c') :
    p.Reduces c.terminal c.states c'.states := by
  obtain ⟨n,state,value,env,ha,_,hlen,_,hg,rfl⟩ := step_reduced h
  unfold Config.top at ha
  unfold Grammar.rhs at hlen hg
  simp only [Reduces, reduceStates, ha, hg, Nat.not_le.mpr hlen, if_false, Option.map_some,
    Config.afterReduce, Grammar.rhs]

/-- The fuel of `settle` runs out after as many reductions, or the steps lead to one that does not
reduce. -/
theorem settle_cases (fuel : ℕ) (c : Config) :
    (∃ path env, path.length = fuel ∧ List.IsChain (p.Reduces c.terminal) (c.states :: path) ∧
      (p.settle fuel c).value = .halted .stalled env) ∨
    ∃ c', Relation.ReflTransGen p.Next c c' ∧ (p.settle fuel c).value = (p.step c').value ∧
      (∀ x, (p.step c').value ≠ .reduced x) ∧ c'.remaining = c.remaining := by
  induction fuel generalizing c with
  | zero => exact Or.inl ⟨[],c.env,rfl,List.IsChain.singleton _,rfl⟩
  | succ fuel ih =>
    cases hs : (p.step c).value with
    | shifted next =>
      refine Or.inr ⟨c,Relation.ReflTransGen.refl,?_,by simp [hs],rfl⟩
      simp [settle, hs]
    | halted outcome env =>
      refine Or.inr ⟨c,Relation.ReflTransGen.refl,?_,by simp [hs],rfl⟩
      simp [settle, hs]
    | reduced next =>
      have hsettle : (p.settle (fuel + 1) c).value = (p.settle fuel next).value := by
        simp [settle, hs]
      have hreduces := reduces_of_step_reduced hs
      obtain ⟨n,state,value,env,_,_,_,_,_,hnext⟩ := step_reduced hs
      have hterminal : next.terminal = c.terminal := by rw [hnext]; rfl
      have hremaining : next.remaining = c.remaining := by rw [hnext]; rfl
      rw [hsettle]
      rcases ih next with ⟨path,env',hlen,hchain,hv⟩ | ⟨c',hsteps,hv,hne,hrem⟩
      · rw [hterminal] at hchain
        exact Or.inl ⟨next.states :: path,env',by simp [hlen],
          List.isChain_cons_cons.mpr ⟨hreduces,hchain⟩,hv⟩
      · exact Or.inr ⟨c',Relation.ReflTransGen.head (Or.inr hs) hsteps,hv,hne,
          hrem.trans hremaining⟩

theorem remaining_of_step_shifted {c' : Config} (h : (p.step c).value = .shifted c') :
    c'.remaining + 1 = c.remaining := by
  obtain ⟨token,state,hl,_,⟨hi,rfl⟩ | ⟨next,rest,hi,rfl⟩⟩ := step_shifted h
  · simp [Config.remaining, Config.afterShift, hl, hi]
  · simp [Config.remaining, Config.afterShift, hl, hi]

/-- A run ends where the steps end, unless its room for shifts or a budget of reductions runs
out. -/
theorem run_cases (shifts : ℕ) (c : Config) : p.Ends c (p.run shifts c).value ∨
    (p.run shifts c).value.1 = .stalled ∧ (shifts ≤ c.remaining ∨
      ∃ c' path, Relation.ReflTransGen p.Next c c' ∧ path.length = p.budget c' ∧
        List.IsChain (p.Reduces c'.terminal) (c'.states :: path)) := by
  induction shifts generalizing c with
  | zero => exact Or.inr ⟨rfl,Or.inl (Nat.zero_le _)⟩
  | succ shifts ih =>
    rcases settle_cases (p := p) (p.budget c) c with
      ⟨path,env,hlen,hchain,hv⟩ | ⟨c',hsteps,hv,hne,hrem⟩
    · refine Or.inr ⟨?_,Or.inr ⟨c,path,Relation.ReflTransGen.refl,hlen,hchain⟩⟩
      simp [run, hv]
    · cases hs : (p.step c').value with
      | reduced next => exact absurd hs (hne next)
      | halted outcome env =>
        refine Or.inl ⟨c',hsteps,?_⟩
        simp [run, hv, hs]
      | shifted next =>
        have hrun : (p.run (shifts + 1) c).value = (p.run shifts next).value := by
          simp [run, hv, hs]
        have hnext := hsteps.tail (Or.inl hs)
        have hless := remaining_of_step_shifted hs
        rw [hrun]
        rcases ih next with hends | ⟨hst,hroom | ⟨c'',path,hs'',hlen,hchain⟩⟩
        · exact Or.inl (hends.of_reflTransGen hnext)
        · exact Or.inr ⟨hst,Or.inl (by omega)⟩
        · exact Or.inr ⟨hst,Or.inr ⟨c'',path,hnext.trans hs'',hlen,hchain⟩⟩

theorem Next.aligned {c' : Config} (h : p.Next c c') (hc : c.Aligned) : c'.Aligned := by
  unfold Config.Aligned at hc ⊢
  rcases h with h | h
  · obtain ⟨token,state,_,_,⟨_,rfl⟩ | ⟨next,rest,_,rfl⟩⟩ := step_shifted h
    · simp [Config.afterShift, hc]
    · simp [Config.afterShift, hc]
  · obtain ⟨n,state,value,env,_,hv,_,_,_,rfl⟩ := step_reduced h
    simp only [Config.afterReduce, List.length_cons, List.length_drop]
    omega

/-- The same parser with reductions that never fail. -/
def silent (p : Parser) : Parser :=
  { p with reduction := fun _ env _ => pure (.ok (.stmtList []), env) }

@[simp] theorem silent_grammar : p.silent.grammar = p.grammar := rfl

@[simp] theorem silent_table : p.silent.table = p.table := rfl

theorem silent_reduces : p.silent.Reduces = p.Reduces := rfl

theorem step_reduce_aligned {n state : ℕ} {value : Fragment} {after : Environment}
    (hc : c.Aligned) (ha : p.table.action c.top c.terminal = some (.reduce n))
    (hlen : (p.grammar.rhs n).length < c.states.length)
    (hr : (p.reduction n c.env (c.values.take (p.grammar.rhs n).length).reverse).value =
      (.ok value, after))
    (hg : p.table.goto ((c.states.drop (p.grammar.rhs n).length).headD 0)
      (p.grammar.production n).lhs = some state) :
    (p.step c).value = .reduced (c.afterReduce (p.grammar.rhs n).length state value after) := by
  have hlenv : (p.grammar.rhs n).length ≤ c.values.length := by
    unfold Config.Aligned at hc
    omega
  have hv : c.values = (c.values.take (p.grammar.rhs n).length).reverse.reverse ++
      c.values.drop (p.grammar.rhs n).length := by simp
  exact step_reduce _ _ ha (List.take_append_drop _ _).symm
    (by simp [Nat.le_of_lt hlen]) (by simpa using hlen) hv (by simp [hlenv]) hr hg

theorem silent_step_reduce {n state : ℕ} (hc : c.Aligned)
    (ha : p.table.action c.top c.terminal = some (.reduce n))
    (hlen : (p.grammar.rhs n).length < c.states.length)
    (hg : p.table.goto ((c.states.drop (p.grammar.rhs n).length).headD 0)
      (p.grammar.production n).lhs = some state) : (p.silent.step c).value =
    .reduced (c.afterReduce (p.grammar.rhs n).length state (.stmtList []) c.env) :=
  step_reduce_aligned (p := p.silent) hc ha hlen rfl hg

/-- Whatever steps a parser takes, its silent version takes them too. -/
theorem Next.silent {c' d : Config} (h : p.Next c c') (halike : c.Alike d) (hd : d.Aligned) :
    ∃ d', p.silent.Next d d' ∧ c'.Alike d' := by
  rcases h with h | h
  · obtain ⟨token,state,hl,ha,hcases⟩ := step_shifted h
    have hshift := value_step p.silent d
    rw [silent_table, ← halike.top_eq, ← halike.terminal_eq, ha] at hshift
    simp only [value_shift, ← halike.lookahead_eq, hl, ← halike.feed_eq] at hshift
    rcases hcases with ⟨hi,rfl⟩ | ⟨next,rest,hi,rfl⟩
    · simp only [hi] at hshift
      refine ⟨_,Or.inl hshift,?_,rfl,?_⟩
      · simp [Config.afterShift, halike.states_eq]
      · simp [Config.afterShift, halike.feed_eq]
    · simp only [hi] at hshift
      refine ⟨_,Or.inl hshift,?_,rfl,?_⟩
      · simp [Config.afterShift, halike.states_eq]
      · simp [Config.afterShift, halike.feed_eq]
  · obtain ⟨n,state,value,env,ha,_,hlen,_,hg,rfl⟩ := step_reduced h
    rw [halike.top_eq, halike.terminal_eq] at ha
    rw [halike.states_eq] at hlen hg
    refine ⟨_,Or.inr (silent_step_reduce hd ha hlen hg),?_,halike.lookahead_eq,halike.feed_eq⟩
    simp [Config.afterReduce, halike.states_eq]

theorem exists_silent {c' d : Config} (h : Relation.ReflTransGen p.Next c c')
    (halike : c.Alike d) (hd : d.Aligned) :
    ∃ d', Relation.ReflTransGen p.silent.Next d d' ∧ c'.Alike d' ∧ d'.Aligned := by
  induction h with
  | refl => exact ⟨d,Relation.ReflTransGen.refl,halike,hd⟩
  | tail _ hnext ih =>
    obtain ⟨d',hsteps,halike',hd'⟩ := ih
    obtain ⟨d'',hnext',halike''⟩ := hnext.silent halike' hd'
    exact ⟨d'',hsteps.tail hnext',halike'',hnext'.aligned hd'⟩

theorem not_reduces_of_silent_halted {outcome : Outcome} {env : Environment} (hc : c.Aligned)
    (h : (p.silent.step c).value = .halted outcome env) (states : List ℕ) :
    ¬ p.Reduces c.terminal c.states states := by
  intro hr
  unfold Reduces reduceStates at hr
  split at hr
  · next n ha =>
    simp only at hr
    split_ifs at hr with hlen
    obtain ⟨target,hg,rfl⟩ := Option.map_eq_some_iff.mp hr
    rw [silent_step_reduce hc ha (Nat.lt_of_not_le hlen) hg] at h
    cases h
  · cases hr

/-- A parse that ends when its reductions never fail settles between its shifts. -/
theorem settles_of_silent_ends {result : Outcome × Environment} (hc : c.Aligned)
    (h : p.silent.Ends c result) : p.Settles c.terminal c.states := by
  obtain ⟨last,hl,hh⟩ := h
  induction hl using Relation.ReflTransGen.head_induction_on with
  | refl =>
    constructor
    intro states hr
    exact absurd hr (not_reduces_of_silent_halted hc hh states)
  | head hnext _ ih =>
    have hsettles := ih (hnext.aligned hc)
    rcases hnext with hs | hr
    · constructor
      intro states hred
      obtain ⟨token,state,_,ha,_⟩ := step_shifted hs
      unfold Reduces reduceStates at hred
      unfold Config.top at ha
      rw [silent_table] at ha
      rw [ha] at hred
      cases hred
    · obtain ⟨n,state,value,env,_,_,_,_,_,hafter⟩ := step_reduced hr
      have hterminal := congrArg Config.terminal hafter
      have hreduces := reduces_of_step_reduced hr
      rw [silent_reduces] at hreduces
      rw [hterminal] at hsettles
      exact settles_of_reduces hreduces hsettles

section Built

theorem Next.forall_lt {c' : Config} (hb : Table.build p.grammar = .ok p.table) (h : p.Next c c')
    (hc : ∀ q ∈ c.states, q < p.table.stateCount) : ∀ q ∈ c'.states, q < p.table.stateCount := by
  rcases h with h | h
  · obtain ⟨token,state,_,ha,hc'⟩ := step_shifted h
    have hstates : c'.states = state :: c.states := by
      rcases hc' with ⟨_,rfl⟩ | ⟨next,rest,_,rfl⟩ <;> rfl
    rw [hstates]
    intro q hq
    rcases List.mem_cons.mp hq with rfl | hq
    · exact Table.action_lt hb ha
    · exact hc q hq
  · exact (reduces_of_step_reduced h).forall_lt (fun _ _ _ hg => Table.goto_lt hb hg) hc

theorem run_ends (hb : Table.build p.grammar = .ok p.table) {shifts : ℕ}
    (hc : ∀ q ∈ c.states, q < p.table.stateCount) (hroom : c.remaining < shifts)
    (hsettles : ∀ c', Relation.ReflTransGen p.Next c c' → p.Settles c'.terminal c'.states) :
    p.Ends c (p.run shifts c).value := by
  rcases run_cases (p := p) shifts c with h | ⟨_,hr | ⟨c',path,hsteps,hlen,hchain⟩⟩
  · exact h
  · omega
  · have hlt : ∀ q ∈ c'.states, q < p.table.stateCount := by
      clear hlen hchain
      induction hsteps with
      | refl => exact hc
      | tail _ hnext ih => exact hnext.forall_lt hb ih
    have hpath := path_length_lt (fun _ _ _ hg => Table.goto_lt hb hg) hlt (hsettles c' hsteps)
      hchain
    rw [hlen] at hpath
    exact absurd hpath (Nat.lt_irrefl _)

end Built

theorem value_drive (p : Parser) (feed : Feed) (env : Environment) : (p.drive feed env).value =
    match feed.items with
    | [] => (p.run 1 (initial env none feed)).value
    | .ok token :: rest =>
      (p.run (rest.length + 2) (initial env (some token) { feed with items := rest })).value
    | .error error :: _ => (.failed error, env) := by
  obtain ⟨items,announced⟩ := feed
  cases items with
  | nil => rfl
  | cons item rest =>
    cases item with
    | error error => rfl
    | ok token => rfl

end Parser

end LetPrint
