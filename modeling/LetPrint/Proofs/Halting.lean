import LetPrint.Proofs.Lifting

/-! # Parsers of grounded grammars halt

Between two shifts every state of the stack comes to rest alone. A reduction that goes on from there
takes the state itself away, so the stack gets lower, or its last symbol is put into a production
that wraps it. Both come to an end.
-/
namespace LetPrint

namespace Parser
variable {p : Parser} {t : Terminal} {x : Symbol} {n : ℕ}

section Stack
variable (hb : Table.build p.grammar = .ok p.table) {q : ℕ} {above below : List ℕ}
  {symbols : List Symbol}
include hb

/-- A reduction takes its right-hand side off the end of the path and puts its nonterminal there. -/
theorem path_of_reduce {s : List ℕ} {target : ℕ} (hpath : p.grammar.Path s symbols)
    (ha : p.table.action (s.headD 0) t = some (.reduce n))
    (hg : p.table.goto ((s.drop (p.grammar.rhs n).length).headD 0) (p.grammar.production n).lhs =
      some target) :
    symbols.take (p.grammar.rhs n).length = (p.grammar.rhs n).reverse ∧
      p.grammar.Path (target :: s.drop (p.grammar.rhs n).length)
        (.nonTerminal (p.grammar.production n).lhs :: symbols.drop (p.grammar.rhs n).length) := by
  obtain ⟨_,hitem⟩ := Table.item_of_action_reduce hb ha
  obtain ⟨htake,hbelow,_⟩ := hpath.read hitem
  rw [List.take_of_length_le (Nat.le_refl _)] at htake
  exact ⟨htake,hbelow.push ((Table.goto_eq_lookup hb _ _).symm.trans hg)⟩

/-- The symbols that a state grows above itself can be empty. -/
theorem Climbs.path (h : p.Climbs t q above) (hpath : p.grammar.Path (q :: below) symbols) :
    ∃ front, front.length = above.length ∧ Grammar.allIn p.grammar.nullable front = true ∧
      p.grammar.Path (above ++ q :: below) (front ++ symbols) := by
  have hgrown : ∀ s, Relation.ReflTransGen (p.Reduces t) [q] s → ∃ upper front,
      s = upper ++ [q] ∧ front.length = upper.length ∧
      Grammar.allIn p.grammar.nullable front = true ∧
      p.grammar.Path (upper ++ q :: below) (front ++ symbols) := by
    intro s hs
    induction hs with
    | refl => exact ⟨[],[],rfl,rfl,rfl,hpath⟩
    | tail _ hr ih =>
      obtain ⟨upper,front,rfl,hlen,hempty,hupper⟩ := ih
      obtain ⟨n,target,ha,hk,hg,rfl⟩ := reduces_iff.mp hr
      have hle : (p.grammar.rhs n).length ≤ upper.length := by
        rw [List.length_append, List.length_singleton] at hk
        omega
      rw [headD_append_cons, ← headD_append_cons upper q below] at ha
      rw [List.drop_append_of_le_length hle] at hg ⊢
      rw [headD_append_cons, ← headD_append_cons _ q below,
        ← List.drop_append_of_le_length hle] at hg
      obtain ⟨htake,hpath'⟩ := path_of_reduce hb hupper ha hg
      rw [List.drop_append_of_le_length hle, List.drop_append_of_le_length (by omega)] at hpath'
      rw [List.take_append_of_le_length (by omega)] at htake
      have hsplit := List.take_append_drop (p.grammar.rhs n).length front
      rw [← hsplit, Grammar.allIn_append, htake] at hempty
      refine ⟨target :: upper.drop _,_ :: front.drop _,rfl,by simp [hlen],?_,hpath'⟩
      refine Grammar.allIn_cons.mpr ⟨⟨_,?_,rfl⟩,hempty.2⟩
      refine Grammar.mem_nullable_of_allIn
        (Grammar.production_mem (Grammar.validItem_of_mem_itemsAt
          (Table.item_of_action_reduce hb ha).2).1) (Grammar.allIn_reverse.mp hempty.1)
  obtain ⟨upper,front,he,hlen,hempty,hupper⟩ := hgrown _ h
  obtain rfl := List.append_cancel_right he
  exact ⟨front,hlen,hempty,hupper⟩

/-- A reduction of symbols that were grown and the one before them lifts that symbol. -/
theorem lifts_of_reduce {s : ℕ} {front : List Symbol}
    (ha : p.table.action s t = some (.reduce n))
    (hempty : Grammar.allIn p.grammar.nullable front = true)
    (hread : front ++ [x] = (p.grammar.rhs n).reverse) :
    p.grammar.Lifts t x (.nonTerminal (p.grammar.production n).lhs) := by
  obtain ⟨hn,hitem⟩ := Table.item_of_action_reduce hb ha
  obtain ⟨items,hm,_,him⟩ := Grammar.mem_itemsAt.mp hitem
  have hvalid := (Grammar.validItem_of_mem_itemsAt hitem).1
  have hrhs : p.grammar.rhs n = x :: front.reverse := by
    rw [← List.reverse_reverse (p.grammar.rhs n), ← hread]
    simp
  exact ⟨n,⟨hn,hvalid,rfl,_,hrhs,Grammar.allIn_reverse.mpr hempty⟩,
    Grammar.exists_initial hm him⟩

theorem Next.path {c c' : Config} (h : p.Next c c')
    (hc : ∃ symbols, p.grammar.Path c.states symbols) :
    ∃ symbols, p.grammar.Path c'.states symbols := by
  obtain ⟨symbols,hpath⟩ := hc
  rcases h with hs | hr
  · obtain ⟨token,state,_,ha,hcases⟩ := step_shifted hs
    have hstates : c'.states = state :: c.states := by
      rcases hcases with ⟨_,rfl⟩ | ⟨next,rest,_,rfl⟩ <;> rfl
    rw [hstates]
    exact ⟨_,hpath.push (Table.edge_of_action_shift hb ha)⟩
  · obtain ⟨n,target,ha,_,hg,he⟩ := reduces_iff.mp (reduces_of_step_reduced hr)
    rw [he]
    exact ⟨_,(path_of_reduce hb hpath ha hg).2⟩

end Stack

theorem Ends.outcome_cases {c : Config} {result : Outcome × Environment} (h : p.Ends c result) :
    (∃ value, result.1 = .accepted value) ∨ ∃ error, result.1 = .failed error := by
  obtain ⟨outcome,env⟩ := result
  obtain ⟨last,_,hhalted⟩ := h
  have hdoes := does_step p last
  rw [hhalted] at hdoes
  cases hdoes with
  | accept _ _ => exact Or.inl ⟨_,rfl⟩
  | _ => exact Or.inr ⟨_,rfl⟩

section Halts
variable (hb : Table.build p.grammar = .ok p.table)
  (hstart : p.grammar.StartFree ∨ ¬ p.grammar.Derives [.nonTerminal p.grammar.root] [])
  (hground : p.grammar.Grounded)
include hb hstart hground

/-- A stack settles if all lower stacks do, and all stacks of its height whose last symbol is lifted
from its own. -/
theorem settles_of_lower {q : ℕ} {below : List ℕ} {symbols : List Symbol}
    (hpath : p.grammar.Path (q :: below) (x :: symbols))
    (hlower : ∀ s others, p.grammar.Path s others → s.length < below.length + 1 → p.Settles t s)
    (hlifted : ∀ target y, p.grammar.Lifts t x y → p.grammar.Path (target :: below) (y :: symbols) →
      p.Settles t (target :: below)) : p.Settles t (q :: below) := by
  -- while reductions stay above the state they are those of the state alone, which settles
  have hall : ∀ s, p.Settles t s → ∀ above, s = above ++ [q] → p.Climbs t q above →
      p.Settles t (above ++ q :: below) := by
    intro s hs
    induction hs with
    | intro s _ ih =>
      rintro above rfl hclimbs
      constructor
      intro v hv
      obtain ⟨n,target,ha,hk,hg,rfl⟩ := reduces_iff.mp hv
      rcases Nat.lt_or_ge above.length (p.grammar.rhs n).length with hout | hin
      · obtain ⟨front,hlen,hempty,hupper⟩ := hclimbs.path hb hpath
        obtain ⟨htake,hafter⟩ := path_of_reduce hb hupper ha hg
        rcases Nat.lt_or_eq_of_le (Nat.succ_le_of_lt hout) with hmore | heq
        · refine hlower _ _ hafter ?_
          simp only [List.length_cons, List.length_drop, List.length_append] at hk ⊢
          omega
        · have hstates : (p.grammar.rhs n).length = (above ++ [q]).length := by simp [← heq]
          have hsymbols : (p.grammar.rhs n).length = (front ++ [x]).length := by simp [hlen, ← heq]
          rw [List.append_cons front, hsymbols, List.take_left] at htake
          rw [List.append_cons above, List.append_cons front] at hafter
          rw [List.append_cons above, hstates, List.drop_left]
          rw [hsymbols, List.drop_left, ← hsymbols, hstates, List.drop_left] at hafter
          exact hlifted target _ (lifts_of_reduce hb ha hempty htake) hafter
      · rw [headD_append_cons] at ha
        rw [List.drop_append_of_le_length hin] at hg ⊢
        rw [headD_append_cons] at hg
        have hr := reduces_above ha hin hg
        exact ih _ hr (target :: above.drop _) rfl (Relation.ReflTransGen.tail hclimbs hr)
  exact hall _ (settles_singleton hb hstart hground q) [] rfl (climbs_nil p t q)

theorem settles_of_path {s : List ℕ} {symbols : List Symbol} (hpath : p.grammar.Path s symbols) :
    p.Settles t s := by
  induction hk : s.length using Nat.strong_induction_on generalizing s symbols with
  | _ k ih =>
    cases hpath with
    | start => exact settles_singleton hb hstart hground 0
    | @step state target states x symbols path edge =>
      have hlift : ∀ y top, p.grammar.Path (top :: state :: states) (y :: symbols) →
          p.Settles t (top :: state :: states) := by
        intro y
        induction y using (wellFounded_lifts hb hstart hground (t := t)).induction with
        | _ y ihy =>
          intro top htop
          refine settles_of_lower hb hstart hground htop ?_ ?_
          · intro s others hs hlt
            exact ih s.length (by simpa [← hk] using hlt) hs rfl
          · intro top' z hz hpath'
            exact ihy z hz top' hpath'
      exact hlift x target (path.step edge)

theorem settles_of_steps {c c' : Config} (hsteps : Relation.ReflTransGen p.Next c c')
    (hc : ∃ symbols, p.grammar.Path c.states symbols) : p.Settles c'.terminal c'.states := by
  have hpath : ∃ symbols, p.grammar.Path c'.states symbols := by
    induction hsteps with
    | refl => exact hc
    | tail _ hnext ih => exact hnext.path hb ih
  obtain ⟨symbols,hsymbols⟩ := hpath
  exact settles_of_path hb hstart hground hsymbols

theorem run_halts {shifts : ℕ} {env : Environment} {lookahead : Option Token} {feed : Feed}
    (hroom : (initial env lookahead feed).remaining < shifts) :
    p.Ends (initial env lookahead feed) (p.run shifts (initial env lookahead feed)).value := by
  refine run_ends hb ?_ hroom fun c' hsteps => ?_
  · simp [initial, Table.stateCount_pos hb]
  · exact settles_of_steps hb hstart hground hsteps ⟨[],.start⟩

end Halts

/-- The parser of a grounded grammar ends on every feed, whatever its reductions do: it accepts or
fails after finitely many steps. The start symbol may be used in the grammar if the root cannot be
empty. -/
theorem drive_halts {g : Grammar} {table : Table} (hb : Table.build g = .ok table)
    (hground : g.Grounded) (hstart : g.StartFree ∨ ¬ g.Derives [.nonTerminal g.root] [])
    (reduction : ℕ → Reduction) (feed : Feed) (env : Environment) :
    ((∃ value, ((mk g table reduction).drive feed env).value.1 = .accepted value) ∨
      ∃ error, ((mk g table reduction).drive feed env).value.1 = .failed error) ∧
    match feed.items with
    | [] => (mk g table reduction).Ends (initial env none feed)
        ((mk g table reduction).drive feed env).value
    | .ok token :: rest => (mk g table reduction).Ends
        (initial env (some token) { feed with items := rest })
        ((mk g table reduction).drive feed env).value
    | .error error :: _ =>
        ((mk g table reduction).drive feed env).value = (.failed error, env) := by
  rw [value_drive]
  obtain ⟨items,announced⟩ := feed
  cases items with
  | nil =>
    have hroom : (initial env none ⟨[],announced⟩).remaining < 1 := by
      simp [initial, Config.remaining]
    have hends := run_halts (p := mk g table reduction) hb hstart hground hroom
    exact ⟨hends.outcome_cases,hends⟩
  | cons item rest =>
    cases item with
    | error error => exact ⟨Or.inr ⟨error,rfl⟩,rfl⟩
    | ok token =>
      have hroom : (initial env (some token) ⟨rest,announced⟩).remaining < rest.length + 2 := by
        simp [initial, Config.remaining]
      have hends := run_halts (p := mk g table reduction) hb hstart hground hroom
      exact ⟨hends.outcome_cases,hends⟩

theorem grounded_names : names.Grounded := by
  have hempty : names.Derives [.nonTerminal .program] [] :=
    Grammar.derives_rhs (r := ⟨.program,[]⟩) (by decide)
  intro r hr a ha
  have hprogram : ∀ r ∈ names.productions, ∀ x ∈ r.rhs,
      x = .nonTerminal .program ∨ x = .token .identifier := by decide
  rcases hprogram r hr _ ha with he | he
  · cases he
    exact Or.inl hempty
  · cases he

/-- A name and an error in the feed end the parse one way or the other. -/
theorem drive_halts_names : ∃ table, Table.build names = .ok table ∧ names.Grounded ∧
    names.StartFree ∧
    let feed : Feed := ⟨[.ok ⟨.identifier, "a", .start⟩,
      .error (.located (.unrecognisedToken "?") .start)], false⟩
    (∃ value, ((mk names table declareOnce).drive feed {}).value.1 = .accepted value) ∨
      ∃ error, ((mk names table declareOnce).drive feed {}).value.1 = .failed error := by
  have hbuilt : (Table.build names).isOk = true := by decide +kernel
  have hstart : names.StartFree := by decide
  cases hb : Table.build names with
  | error conflict =>
    rw [hb] at hbuilt
    cases hbuilt
  | ok table =>
    exact ⟨table,rfl,grounded_names,hstart,
      (drive_halts hb grounded_names (Or.inl hstart) declareOnce _ {}).1⟩

section Unending
variable {c : Config}

/-- A parse that keeps an invariant and goes on wherever it holds does not end. -/
theorem not_ends_of_invariant {P : Config → Prop}
    (hstep : ∀ c, P c → ∃ c', p.Next c c' ∧ P c') (hc : P c) (result : Outcome × Environment) :
    ¬ p.Ends c result := by
  rintro ⟨last,hsteps,hhalted⟩
  have hlast : P last := by
    clear hhalted
    induction hsteps with
    | refl => exact hc
    | tail _ hnext ih =>
      obtain ⟨c',hnext',hc'⟩ := hstep _ ih
      rwa [Next.unique hnext hnext']
  obtain ⟨c',hnext,_⟩ := hstep last hlast
  exact not_next_of_halted hhalted c' hnext

theorem drive_stalled_of_not_ends {tokens : List Token} {announced : Bool} {env : Environment}
    (h : ∀ result, ¬ p.Ends (start tokens announced env) result) :
    (p.drive ⟨tokens.map .ok,announced⟩ env).value.1 = .stalled := by
  rw [drive_eq_run]
  rcases run_cases (p := p) (tokens.length + 1) (start tokens announced env) with
    hends | ⟨hstalled,_⟩
  · exact absurd hends (h _)
  · exact hstalled

end Unending

/-- Phrases of which the last part has no beginning, so that nothing calls for what comes before
it. -/
def spinning : Grammar :=
  ⟨.program, [⟨.program, [.token .assignOperator, .nonTerminal .program]⟩,
    ⟨.program, [.nonTerminal .stmtList, .nonTerminal .stmt, .nonTerminal .expr]⟩,
    ⟨.stmtList, [.nonTerminal .stmtList]⟩, ⟨.stmtList, [.token .stringLiteral]⟩,
    ⟨.stmt, [.token .identifier]⟩, ⟨.expr, [.nonTerminal .expr, .token .letKeyword]⟩]⟩

/-- A grammar that uses its start symbol, although the root can be empty. -/
def growing : Grammar :=
  ⟨.program, [⟨.program, []⟩, ⟨.program, [.nonTerminal .stmt, .token .printKeyword]⟩,
    ⟨.stmt, [.nonTerminal .program, .nonTerminal .stmt, .token .letKeyword]⟩,
    ⟨.stmt, [.nonTerminal .start, .token .identifier]⟩]⟩

theorem grounded_growing : growing.Grounded := by
  have hprogram : growing.Derives [.nonTerminal .program] [] :=
    Grammar.derives_rhs (r := ⟨.program,[]⟩) (by decide)
  have hstart : growing.Derives [.nonTerminal .start] [] :=
    (Grammar.derives_rhs (r := growing.accepting) (by decide)).trans hprogram
  have hstmt : growing.Derives [.nonTerminal .stmt] [.token .identifier] :=
    (Grammar.derives_rhs (r := ⟨.stmt,[.nonTerminal .start,.token .identifier]⟩) (by decide)).trans
      (Grammar.Derives.append_right hstart [.token .identifier])
  have hsymbols : ∀ r ∈ growing.productions, Symbol.nonTerminal .stmtList ∉ r.rhs ∧
      Symbol.nonTerminal .expr ∉ r.rhs := by decide
  intro r hr a ha
  cases a with
  | start => exact Or.inl hstart
  | program => exact Or.inl hprogram
  | stmtList => exact absurd ha (hsymbols r hr).1
  | stmt => exact Or.inr ⟨_,[],hstmt⟩
  | expr => exact absurd ha (hsymbols r hr).2

section Reducing
variable {g : Grammar} {table : Table} {c : Config} {n state : ℕ} {tokens : List Token}

theorem next_blindly (hc : c.Aligned) (hreads : c.Reads tokens)
    (ha : table.action c.top c.terminal = some (.reduce (n + 1)))
    (hlen : (g.rhs (n + 1)).length < c.states.length)
    (hg : table.goto ((c.states.drop (g.rhs (n + 1)).length).headD 0)
      (g.production (n + 1)).lhs = some state) :
    ∃ c', (mk g table blindly).Next c c' ∧
      c'.states = state :: c.states.drop (g.rhs (n + 1)).length ∧ c'.Reads tokens :=
  ⟨_,Or.inr (step_reduce_aligned (p := mk g table blindly) hc ha hlen rfl hg),rfl,hreads⟩

end Reducing

def strokes (n : ℕ) : List Token :=
  List.replicate n ⟨.assignOperator, "=", .start⟩ ++
    [⟨.stringLiteral, "''", .start⟩, ⟨.identifier, "a", .start⟩]

/-- Before the literal the top state is 0 or 2; behind it state 1 or 4 stands on one of these. -/
def Spins (c : Config) : Prop :=
  c.Aligned ∧ ((∃ n, c.Reads (strokes n) ∧ (c.top = 0 ∨ c.top = 2)) ∨
    c.Reads [⟨.identifier, "a", .start⟩] ∧ ∃ q below, (q = 0 ∨ q = 2) ∧
      (c.states = 1 :: q :: below ∨ c.states = 4 :: q :: below))

def SpinningTable (table : Table) : Prop :=
  (∀ q, q = 0 ∨ q = 2 → table.action q (.token .assignOperator) = some (.shift 2) ∧
    table.action q (.token .stringLiteral) = some (.shift 1) ∧
    table.goto q .stmtList = some 4) ∧
  table.action 1 (.token .identifier) = some (.reduce 4) ∧
  table.action 4 (.token .identifier) = some (.reduce 3)

theorem build_spinning : ∃ table, Table.build spinning = .ok table ∧ SpinningTable table := by
  have hentries : (Table.build spinning).toOption.map (fun table =>
      ([0, 2].map fun q => (table.action q (.token .assignOperator),
        table.action q (.token .stringLiteral), table.goto q .stmtList),
      table.action 1 (.token .identifier), table.action 4 (.token .identifier))) =
      some ([(some (.shift 2), some (.shift 1), some 4),
        (some (.shift 2), some (.shift 1), some 4)],
        some (.reduce 4), some (.reduce 3)) := by decide +kernel
  cases hb : Table.build spinning with
  | error conflict =>
    rw [hb] at hentries
    cases hentries
  | ok table =>
    rw [hb] at hentries
    simp only [Except.toOption, Option.map_some, Option.some.injEq, Prod.mk.injEq, List.map_cons,
      List.map_nil, List.cons.injEq, and_true] at hentries
    obtain ⟨⟨hzero,htwo⟩,hone,hfour⟩ := hentries
    refine ⟨table,rfl,?_,hone,hfour⟩
    rintro q (rfl | rfl)
    · exact hzero
    · exact htwo

theorem Spins.next {table : Table} (ht : SpinningTable table) {c : Config} (hc : Spins c) :
    ∃ c', (mk spinning table blindly).Next c c' ∧ Spins c' := by
  obtain ⟨hentry,hone,hfour⟩ := ht
  obtain ⟨haligned,⟨n,hreads,htop⟩ | ⟨hreads,q,below,hq,hstates⟩⟩ := hc
  · obtain ⟨hassign,hliteral,_⟩ := hentry c.top htop
    cases n with
    | zero =>
      obtain ⟨c',hnext,hpushed⟩ := step_of_action_shift (p := mk spinning table blindly) hreads
        hliteral
      refine ⟨c',hnext,hnext.aligned haligned,Or.inr ⟨hpushed.reads,?_⟩⟩
      cases hs : c.states with
      | nil => simp [Config.Aligned, hs] at haligned
      | cons q below =>
        simp only [Config.top, hs, List.headD_cons] at htop
        exact ⟨q,below,htop,Or.inl (by rw [hpushed.states_eq, hs]; rfl)⟩
    | succ n =>
      obtain ⟨c',hnext,hpushed⟩ := step_of_action_shift (p := mk spinning table blindly) hreads
        hassign
      refine ⟨c',hnext,hnext.aligned haligned,Or.inl ⟨n,hpushed.reads,Or.inr ?_⟩⟩
      simp [Config.top, hpushed.states_eq]
  · obtain ⟨_,_,hgoto⟩ := hentry q hq
    obtain ⟨top,n,hs,ha,hlhs,hlen⟩ : ∃ top n, c.states = top :: q :: below ∧
        table.action top (.token .identifier) = some (.reduce (n + 1)) ∧
        (spinning.production (n + 1)).lhs = .stmtList ∧ (spinning.rhs (n + 1)).length = 1 := by
      rcases hstates with hs | hs
      · exact ⟨1,3,hs,hone,rfl,rfl⟩
      · exact ⟨4,2,hs,hfour,rfl,rfl⟩
    obtain ⟨c',hnext,hstates',hreads'⟩ := next_blindly (g := spinning) (n := n) haligned hreads
      (by rw [hreads.terminal_eq, Config.top, hs]; exact ha) (by simp [hs, hlen])
      (by rw [hs, hlen, hlhs]; exact hgoto)
    refine ⟨c',hnext,hnext.aligned haligned,Or.inr ⟨hreads',q,below,hq,Or.inr ?_⟩⟩
    rw [hstates', hs, hlen]
    rfl

theorem build_growing : ∃ table, Table.build growing = .ok table ∧
    ∀ q, q = 0 ∨ q = 2 → table.action q (.token .identifier) = some (.reduce 1) ∧
      table.goto q .program = some 2 := by
  have hentries : (Table.build growing).toOption.map (fun table => [0, 2].map fun q =>
      (table.action q (.token .identifier), table.goto q .program)) =
      some [(some (.reduce 1), some 2), (some (.reduce 1), some 2)] := by decide +kernel
  cases hb : Table.build growing with
  | error conflict =>
    rw [hb] at hentries
    cases hentries
  | ok table =>
    rw [hb] at hentries
    simp only [Except.toOption, Option.map_some, Option.some.injEq, Prod.mk.injEq, List.map_cons,
      List.map_nil, List.cons.injEq, and_true] at hentries
    refine ⟨table,rfl,?_⟩
    rintro q (rfl | rfl)
    · exact hentries.1
    · exact hentries.2

def Grows (c : Config) : Prop :=
  c.Aligned ∧ c.Reads [⟨.identifier, "a", .start⟩] ∧ (c.top = 0 ∨ c.top = 2)

theorem Grows.next {table : Table}
    (ht : ∀ q, q = 0 ∨ q = 2 → table.action q (.token .identifier) = some (.reduce 1) ∧
      table.goto q .program = some 2) {c : Config} (hc : Grows c) :
    ∃ c', (mk growing table blindly).Next c c' ∧ Grows c' := by
  obtain ⟨haligned,hreads,htop⟩ := hc
  obtain ⟨ha,hg⟩ := ht c.top htop
  have hlen : (growing.rhs 1).length = 0 := rfl
  have hpos : 0 < c.states.length := by
    unfold Config.Aligned at haligned
    omega
  obtain ⟨c',hnext,hstates,hreads'⟩ := next_blindly (g := growing) (n := 0) haligned hreads
    (by rw [hreads.terminal_eq]; exact ha) hpos hg
  refine ⟨c',hnext,hnext.aligned haligned,hreads',Or.inr ?_⟩
  simp [Config.top, hstates]

/-- Two tables without a conflict that go on for ever. Where a phrase has no beginning the stack of
the parser stays as it is; where the start symbol is used and can be empty it grows. -/
theorem drive_unending :
    (∃ table, Table.build spinning = .ok table ∧ spinning.StartFree ∧
      (∀ result, ¬ (mk spinning table blindly).Ends (start (strokes 40) false {}) result) ∧
      ((mk spinning table blindly).drive ⟨(strokes 40).map .ok, false⟩ {}).value.1 = .stalled) ∧
    ∃ table, Table.build growing = .ok table ∧ growing.Grounded ∧
      (∀ result, ¬ (mk growing table blindly).Ends
        (start [⟨.identifier, "a", .start⟩] false {}) result) ∧
      ((mk growing table blindly).drive ⟨[.ok ⟨.identifier, "a", .start⟩], false⟩ {}).value.1 =
        .stalled := by
  constructor
  · obtain ⟨table,hb,ht⟩ := build_spinning
    have hstart : Spins (start (strokes 40) false {}) :=
      ⟨rfl,Or.inl ⟨40,⟨rfl,rfl⟩,Or.inl rfl⟩⟩
    have hends := not_ends_of_invariant (fun _ => Spins.next ht) hstart
    exact ⟨table,hb,by decide,hends,drive_stalled_of_not_ends hends⟩
  · obtain ⟨table,hb,ht⟩ := build_growing
    have hstart : Grows (start [⟨.identifier, "a", .start⟩] false {}) :=
      ⟨rfl,⟨rfl,rfl⟩,Or.inl rfl⟩
    have hends := not_ends_of_invariant (fun _ => Grows.next ht) hstart
    exact ⟨table,hb,grounded_growing,hends,drive_stalled_of_not_ends hends⟩

end Parser

end LetPrint
