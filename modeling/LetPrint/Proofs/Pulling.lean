import LetPrint.Proofs.Runs

/-! # What a parse pulls from its feed

A step pulls at most one item, and only a shift pulls. So a parse either pulls past the items it is
given or takes no notice of what follows them: not in its result and not in its log. It has pulled
past them if it reports any error that is put there.
-/
namespace LetPrint

def Config.more (c : Config) (items : List (Except Error Token)) : Config :=
  { c with feed := { c.feed with items := c.feed.items ++ items } }

def Step.more (items : List (Except Error Token)) : Step → Step
  | shifted c => shifted (c.more items)
  | reduced c => reduced (c.more items)
  | halted outcome env => halted outcome env

namespace Parser
variable {p : Parser}

theorem reduce_more (c : Config) (n : ℕ) (items : List (Except Error Token)) :
    p.reduce (c.more items) n = Step.more items <$> p.reduce c n := by
  unfold reduce
  by_cases h : (decide (c.values.length < (p.grammar.production n).rhs.length) ||
      decide (c.states.length ≤ (p.grammar.production n).rhs.length)) = true
  · have h' : (decide ((c.more items).values.length < (p.grammar.production n).rhs.length) ||
        decide ((c.more items).states.length ≤ (p.grammar.production n).rhs.length)) = true := h
    simp only [if_pos h, if_pos h']
    rfl
  · have h' : ¬ (decide ((c.more items).values.length < (p.grammar.production n).rhs.length) ||
        decide ((c.more items).states.length ≤ (p.grammar.production n).rhs.length)) = true := h
    have hred : p.reduction n (c.more items).env
        ((c.more items).values.take (p.grammar.production n).rhs.length).reverse =
        p.reduction n c.env (c.values.take (p.grammar.production n).rhs.length).reverse := rfl
    simp only [if_neg h, if_neg h', hred]
    obtain ⟨⟨result,env⟩,log⟩ :=
      p.reduction n c.env (c.values.take (p.grammar.production n).rhs.length).reverse
    cases result with
    | error error => rfl
    | ok value =>
      cases hg : p.table.goto ((c.states.drop (p.grammar.production n).rhs.length).headD 0)
          (p.grammar.production n).lhs with
      | none =>
        have hg' : p.table.goto
            (((c.more items).states.drop (p.grammar.production n).rhs.length).headD 0)
            (p.grammar.production n).lhs = none := hg
        simp only [bind, Traced.bind, hg']
        rfl
      | some state =>
        have hg' : p.table.goto
            (((c.more items).states.drop (p.grammar.production n).rhs.length).headD 0)
            (p.grammar.production n).lhs = some state := hg
        simp only [bind, Traced.bind, hg']
        rfl

/-- A step takes no notice of what follows the feed, or reports any error that follows it. -/
theorem step_more (c : Config) :
    (∀ items, p.step (c.more items) = Step.more items <$> p.step c) ∨
    ∃ env, ∀ error rest,
      (p.step (c.more (.error error :: rest))).value = .halted (.failed error) env := by
  cases ha : p.table.action c.top c.terminal with
  | none =>
    refine Or.inl fun items => ?_
    have ha' : p.table.action (c.more items).top (c.more items).terminal = none := ha
    simp only [step, ha, ha']
    rfl
  | some action =>
    have ha' : ∀ items, p.table.action (c.more items).top (c.more items).terminal = some action :=
      fun _ => ha
    cases action with
    | accept =>
      refine Or.inl fun items => ?_
      simp only [step, ha, ha']
      obtain ⟨states,values,env,lookahead,feed,lastEnd⟩ := c
      cases values <;> rfl
    | reduce n =>
      refine Or.inl fun items => ?_
      simp only [step, ha, ha']
      exact reduce_more c n items
    | shift state =>
      simp only [step, ha, ha']
      obtain ⟨states,values,env,lookahead,⟨feed,announced⟩,lastEnd⟩ := c
      cases lookahead with
      | none => exact Or.inl fun items => rfl
      | some token =>
        cases feed with
        | nil => exact Or.inr ⟨env,fun error rest => rfl⟩
        | cons item feed =>
          cases item with
          | ok next => exact Or.inl fun items => rfl
          | error error => exact Or.inl fun items => rfl

theorem settle_more (fuel : ℕ) (c : Config) :
    (∀ items, p.settle fuel (c.more items) = Step.more items <$> p.settle fuel c) ∨
    ∃ env, ∀ error rest,
      (p.settle fuel (c.more (.error error :: rest))).value = .halted (.failed error) env := by
  induction fuel generalizing c with
  | zero => exact Or.inl fun items => rfl
  | succ fuel ih =>
    rcases step_more (p := p) c with hsame | ⟨env,herror⟩
    · rcases hstep : p.step c with ⟨result,log⟩
      cases result with
      | shifted next =>
        refine Or.inl fun items => ?_
        simp only [settle, hsame, hstep]
        rfl
      | halted outcome env =>
        refine Or.inl fun items => ?_
        simp only [settle, hsame, hstep]
        rfl
      | reduced next =>
        have hsettle : ∀ items, p.settle (fuel + 1) (c.more items) =
            ⟨(p.settle fuel (next.more items)).value,
              log ++ (p.settle fuel (next.more items)).log⟩ := by
          intro items
          simp only [settle, hsame, hstep]
          rfl
        rcases ih next with hnext | ⟨env,hnext⟩
        · refine Or.inl fun items => ?_
          rw [hsettle, hnext]
          simp only [settle, hstep]
          rfl
        · refine Or.inr ⟨env,fun error rest => ?_⟩
          rw [hsettle]
          exact hnext error rest
    · refine Or.inr ⟨env,fun error rest => ?_⟩
      simp [settle, herror]

theorem run_more (shifts : ℕ) (c : Config) :
    (∀ items, p.run shifts (c.more items) = p.run shifts c) ∨
    ∃ env, ∀ error rest,
      (p.run shifts (c.more (.error error :: rest))).value = (.failed error, env) := by
  induction shifts generalizing c with
  | zero => exact Or.inl fun items => rfl
  | succ shifts ih =>
    have hbudget : ∀ items, p.budget (c.more items) = p.budget c := fun _ => rfl
    rcases settle_more (p := p) (p.budget c) c with hsame | ⟨env,herror⟩
    · rcases hsettle : p.settle (p.budget c) c with ⟨result,log⟩
      cases result with
      | reduced next =>
        refine Or.inl fun items => ?_
        simp only [run, hbudget, hsame, hsettle]
        rfl
      | halted outcome env =>
        refine Or.inl fun items => ?_
        simp only [run, hbudget, hsame, hsettle]
        rfl
      | shifted next =>
        have hrun : ∀ items, p.run (shifts + 1) (c.more items) =
            ⟨(p.run shifts (next.more items)).value,
              log ++ (p.run shifts (next.more items)).log⟩ := by
          intro items
          simp only [run, hbudget, hsame, hsettle]
          rfl
        rcases ih next with hnext | ⟨env,hnext⟩
        · refine Or.inl fun items => ?_
          rw [hrun, hnext]
          simp only [run, hsettle]
          rfl
        · refine Or.inr ⟨env,fun error rest => ?_⟩
          rw [hrun]
          exact hnext error rest
    · refine Or.inr ⟨env,fun error rest => ?_⟩
      simp [run, hbudget, herror]

/-- More room for shifts changes nothing once a run has come to its end. -/
theorem run_add {shifts : ℕ} {c : Config} (h : (p.run shifts c).value.1 ≠ .stalled) (m : ℕ) :
    p.run (shifts + m) c = p.run shifts c := by
  induction shifts generalizing c with
  | zero => exact absurd rfl h
  | succ shifts ih =>
    rw [show shifts + 1 + m = shifts + m + 1 by omega]
    rcases hsettle : p.settle (p.budget c) c with ⟨result,log⟩
    cases result with
    | reduced next =>
      simp only [run, hsettle]
      rfl
    | halted outcome env =>
      simp only [run, hsettle]
      rfl
    | shifted next =>
      have hrun : ∀ k, p.run (k + 1) c =
          ⟨(p.run k next).value, log ++ (p.run k next).log⟩ := by
        intro k
        simp only [run, hsettle]
        rfl
      have hnext : (p.run shifts next).value.1 ≠ .stalled := by
        rw [hrun] at h
        exact h
      rw [hrun, hrun, ih hnext]

theorem drive_cons (token : Token) (rest : List (Except Error Token)) (announced : Bool)
    (env : Environment) : p.drive ⟨.ok token :: rest, announced⟩ env =
      let run := p.run (rest.length + 2) (initial env (some token) ⟨rest, announced⟩)
      ⟨run.value, (if announced then [.lexed token] else []) ++ run.log⟩ := rfl

/-- A parse that does not report some error put after the items takes no notice of what follows
them. -/
theorem drive_append {items : List (Except Error Token)} {announced : Bool} {env : Environment}
    (hne : items ≠ [])
    (hends : ∀ more, (p.drive ⟨items ++ more, announced⟩ env).value.1 ≠ .stalled) (error : Error)
    (hdeaf : (p.drive ⟨items ++ [.error error], announced⟩ env).value.1 ≠ .failed error)
    (more : List (Except Error Token)) :
    p.drive ⟨items ++ more, announced⟩ env = p.drive ⟨items, announced⟩ env := by
  cases items with
  | nil => exact absurd rfl hne
  | cons item rest =>
    cases item with
    | error error => rfl
    | ok token =>
      let c := initial env (some token) ⟨rest, announced⟩
      have hc : ∀ more, initial env (some token) ⟨rest ++ more, announced⟩ = c.more more :=
        fun _ => rfl
      have hrun : ∀ more m, p.run ((rest ++ more).length + 2 + m) (c.more more) =
          p.run ((rest ++ more).length + 2) (c.more more) := by
        intro more m
        refine run_add ?_ m
        have h := hends more
        rw [List.cons_append, drive_cons, hc] at h
        exact h
      have hlong : ∀ more', more'.length ≤ more.length + 1 →
          p.run (rest.length + more.length + 3) (c.more more') =
            p.run ((rest ++ more').length + 2) (c.more more') := by
        intro more' hle
        rw [← hrun more' (more.length + 1 - more'.length)]
        congr 1
        simp only [List.length_append]
        omega
      rcases run_more (p := p) (rest.length + more.length + 3) c with hsame | ⟨after,herror⟩
      · have hequal : p.run ((rest ++ more).length + 2) (c.more more) =
            p.run ((rest ++ []).length + 2) (c.more []) := by
          rw [← hlong more (by omega), ← hlong [] (by simp), hsame, hsame]
        rw [← List.append_nil (.ok token :: rest), List.append_assoc, List.nil_append,
          List.cons_append, List.cons_append, drive_cons, drive_cons, hc, hc, hequal]
      · have hreported := herror error []
        rw [hlong [.error error] (by simp)] at hreported
        refine absurd ?_ hdeaf
        rw [List.cons_append, drive_cons, hc]
        exact congrArg Prod.fst hreported

end Parser

end LetPrint
