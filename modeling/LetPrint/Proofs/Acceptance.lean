import LetPrint.Proofs.PostOrder

/-! # Parsers accept exactly the sentences of their grammar

The states on the stack of a parse are a path through the merged automaton, and the symbols along it
derive the tokens shifted so far. A reduction finds its right-hand side at the end of the path,
whatever lookaheads merging has added, so an accepted list of tokens is a sentence. Every sentence
has a parse tree and is accepted with the value of that tree.
-/
namespace LetPrint

namespace Grammar
variable {g : Grammar}

/-- The states of a path through the merged automaton, the last one first, and its symbols. -/
inductive Path (g : Grammar) : List ℕ → List Symbol → Prop
  | start : g.Path [0] []
  | step {state target : ℕ} {states : List ℕ} {x : Symbol} {symbols : List Symbol}
    (path : g.Path (state :: states) symbols)
    (edge : (g.lalr.edgesAt state).lookup x = some target) :
    g.Path (target :: state :: states) (x :: symbols)

theorem Path.push {states : List ℕ} {symbols : List Symbol} {x : Symbol} {target : ℕ}
    (h : g.Path states symbols)
    (he : (g.lalr.edgesAt (states.headD 0)).lookup x = some target) :
    g.Path (target :: states) (x :: symbols) := by
  cases h with
  | start => exact .step .start he
  | step path edge => exact .step (.step path edge) he

theorem dot_eq_zero_of_mem_startItems {n d : ℕ} {t : Terminal}
    (hi : ⟨n, d, t⟩ ∈ g.startItems (FirstSets.ofGrammar g)) : d = 0 := by
  rcases closure_cases hi with hseed | ⟨j,_,hj⟩
  · cases List.mem_singleton.mp hseed
    rfl
  · obtain ⟨_,_,hdot,_⟩ := mem_predictions.mp hj
    exact hdot

theorem dot_eq_zero {i : Item} (hi : i ∈ g.lalr.itemsAt 0) : i.dot = 0 := by
  obtain ⟨items,hm,hn,him⟩ := mem_itemsAt.mp hi
  have hcore := coreOf_eq_of_numberOf_eq hm (hn.trans numberOf_startItems.symm)
  have hmem : (i.production, i.dot) ∈ coreOf items := mem_coreOf.mpr ⟨i.lookahead,him⟩
  rw [hcore] at hmem
  obtain ⟨t,ht⟩ := mem_coreOf.mp hmem
  exact dot_eq_zero_of_mem_startItems ht

theorem edge_ne_zero {state target : ℕ} {x : Symbol}
    (he : (g.lalr.edgesAt state).lookup x = some target) : target ≠ 0 := by
  rintro rfl
  obtain ⟨items,hm,hn,hx,_⟩ := lookup_edgesAt.mp he
  obtain ⟨i,hi,hix⟩ := mem_nextSymbols.mp hx
  obtain ⟨target,ht,hadvance⟩ := exists_edge (mem_itemsAt.mpr ⟨items,hm,hn,hi⟩) hix
  rw [he] at ht
  cases ht
  exact Nat.succ_ne_zero _ (dot_eq_zero hadvance)

theorem Path.eq_nil_of_headD_eq_zero {states : List ℕ} {symbols : List Symbol}
    (h : g.Path states symbols) (htop : states.headD 0 = 0) : symbols = [] := by
  cases h with
  | start => rfl
  | step _ edge => exact absurd htop (edge_ne_zero edge)

/-- What an item has read is at the end of the path, and the item starts in the state before it. -/
theorem Path.read {states : List ℕ} {symbols : List Symbol} (h : g.Path states symbols) {n d : ℕ}
    {t : Terminal} (hi : ⟨n, d, t⟩ ∈ g.lalr.itemsAt (states.headD 0)) :
    symbols.take d = ((g.rhs n).take d).reverse ∧ g.Path (states.drop d) (symbols.drop d) ∧
      ∃ u, ⟨n, 0, u⟩ ∈ g.lalr.itemsAt ((states.drop d).headD 0) := by
  induction d generalizing states symbols t with
  | zero => exact ⟨rfl,h,t,hi⟩
  | succ d ih =>
    cases h with
    | start => exact absurd (dot_eq_zero hi) (Nat.succ_ne_zero d)
    | @step state target states x symbols path edge =>
      obtain ⟨u,hu,hx⟩ := exists_before_edge edge hi
      obtain ⟨htake,hpath,hitem⟩ := ih path hu
      refine ⟨?_,hpath,hitem⟩
      rw [List.take_succ_cons, htake, List.take_add_one, hx]
      simp

end Grammar

namespace Parser
variable {p : Parser} {c : Config}

/-- The tokens shifted so far can be derived from the symbols on the path of the states. -/
def Spells (p : Parser) (input : List Token) (c : Config) : Prop :=
  ∃ symbols shifted rest, p.grammar.Path c.states symbols ∧ input = shifted ++ rest ∧
    c.Reads rest ∧ p.grammar.Derives symbols.reverse (shifted.map Token.symbol)

theorem step_shifted_spells (hb : Table.build p.grammar = .ok p.table) {input : List Token}
    (h : p.Spells input c) {c' : Config} (hs : (p.step c).value = .shifted c') :
    p.Spells input c' := by
  obtain ⟨symbols,shifted,rest,hpath,hinput,hreads,hderives⟩ := h
  obtain ⟨token,state,hl,ha,_⟩ := step_shifted hs
  obtain ⟨more,rfl⟩ : ∃ more, rest = token :: more :=
    List.head?_eq_some_iff.mp (hreads.1.symm.trans hl)
  rw [hreads.terminal_eq] at ha
  obtain ⟨d,hnext,hpushed⟩ := step_of_action_shift hreads ha
  obtain rfl := Next.unique hnext (Or.inl hs)
  refine ⟨token.symbol :: symbols,shifted ++ [token],more,?_,by simp [hinput],hpushed.reads,?_⟩
  · rw [hpushed.states_eq]
    exact hpath.push (Table.edge_of_action_shift hb ha)
  · simpa using Grammar.Derives.append_right hderives [token.symbol]

theorem step_reduced_spells (hb : Table.build p.grammar = .ok p.table) {input : List Token}
    (h : p.Spells input c) {c' : Config} (hs : (p.step c).value = .reduced c') :
    p.Spells input c' := by
  obtain ⟨symbols,shifted,rest,hpath,hinput,hreads,hderives⟩ := h
  obtain ⟨n,state,value,env,ha,_,_,_,hg,rfl⟩ := step_reduced hs
  obtain ⟨_,hitem⟩ := Table.item_of_action_reduce hb ha
  obtain ⟨htake,hbelow,_⟩ := hpath.read hitem
  rw [List.take_of_length_le (Nat.le_refl _)] at htake
  have hedge := hbelow.push ((Table.goto_eq_lookup hb _ _).symm.trans hg)
  have hrule := Grammar.derives_rhs
    (Grammar.production_mem (Grammar.validItem_of_mem_itemsAt hitem).1)
  refine ⟨_,shifted,rest,hedge,hinput,hreads,?_⟩
  have hsymbols : symbols.reverse =
      (symbols.drop (p.grammar.rhs n).length).reverse ++ p.grammar.rhs n := by
    have hsplit := List.take_append_drop (p.grammar.rhs n).length symbols
    rw [htake] at hsplit
    rw [← congrArg List.reverse hsplit]
    simp
  rw [hsymbols] at hderives
  rw [List.reverse_cons]
  exact (Grammar.Derives.append_left hrule _).trans hderives

theorem Next.spells (hb : Table.build p.grammar = .ok p.table) {input : List Token} {c' : Config}
    (hnext : p.Next c c') (h : p.Spells input c) : p.Spells input c' := by
  rcases hnext with hs | hr
  · exact step_shifted_spells hb h hs
  · exact step_reduced_spells hb h hr

theorem start_spells (p : Parser) (tokens : List Token) (announced : Bool) (env : Environment) :
    p.Spells tokens (start tokens announced env) :=
  ⟨[],[],tokens,.start,rfl,⟨rfl,rfl⟩,Relation.ReflTransGen.refl⟩

theorem spells_of_steps (hb : Table.build p.grammar = .ok p.table) {tokens : List Token}
    {announced : Bool} {env : Environment} {c' : Config}
    (hsteps : Relation.ReflTransGen p.Next (start tokens announced env) c') :
    p.Spells tokens c' := by
  induction hsteps with
  | refl => exact start_spells p tokens announced env
  | tail _ hnext ih => exact hnext.spells hb ih

/-- Where the action is to accept, the whole input has been derived from the root. -/
theorem derives_of_accept (hb : Table.build p.grammar = .ok p.table) (hstart : p.grammar.StartFree)
    {input : List Token} (h : p.Spells input c)
    (ha : p.table.action c.top c.terminal = some .accept) :
    p.grammar.Derives [.nonTerminal p.grammar.root] (input.map Token.symbol) := by
  obtain ⟨symbols,shifted,rest,hpath,hinput,hreads,hderives⟩ := h
  obtain ⟨hend,hitem⟩ := Table.item_of_action_accept hb ha
  obtain ⟨htake,hbelow,u,hu⟩ := hpath.read hitem
  have hroot : symbols.take 1 = [.nonTerminal p.grammar.root] := htake
  have hempty : symbols.drop 1 = [] := by
    rcases Grammar.initial_cases hu rfl with ⟨hzero,_⟩ | ⟨i,hi,hpredicted⟩
    · exact hbelow.eq_nil_of_headD_eq_zero hzero
    · obtain ⟨a,hnext,_,ha,_⟩ := Grammar.mem_predictions.mp hpredicted
      rw [← (Grammar.mem_productionsOf.mp ha).2] at hnext
      exact absurd hnext (hstart.next_ne hi)
  have hrest : rest = [] := by
    rw [hreads.terminal_eq] at hend
    cases rest with
    | nil => rfl
    | cons token rest => cases hend
  have hsymbols : symbols = [.nonTerminal p.grammar.root] := by
    rw [← List.take_append_drop 1 symbols, hroot, hempty]
    rfl
  rw [hsymbols] at hderives
  rw [hinput, hrest, List.append_nil]
  exact hderives

/-- No reduction fails on as many values as its production has symbols. Production zero is left out:
it is accepted and never reduced. -/
def NeverFails (g : Grammar) (reduction : ℕ → Reduction) : Prop :=
  ∀ n, n ≠ 0 → n < g.productions.length → ∀ env values, values.length = (g.rhs n).length →
    ∃ value after, (reduction n env values).value = (.ok value, after)

/-- Hands on the last value at production zero, and the same value everywhere else. -/
def blindly : ℕ → Reduction
  | 0 => .last
  | _ + 1 => fun env _ => pure (.ok (.stmtList []), env)

theorem neverFails_blindly (g : Grammar) : NeverFails g blindly := by
  intro n hne _ env values _
  cases n with
  | zero => exact absurd rfl hne
  | succ n => exact ⟨_,env,rfl⟩

section Total
variable {g : Grammar} {reduction : ℕ → Reduction}

mutual

theorem NeverFails.tree_eval (h : NeverFails g reduction) (hstart : g.StartFree) {x : Symbol} :
    (tree : Tree g x) → x ≠ .nonTerminal .start →
      ∀ env, ∃ value after, tree.eval reduction env = (.ok value, after)
  | .leaf token, _, env => ⟨_,env,rfl⟩
  | .node n children, hx, env => by
    have hne : n.val ≠ 0 := by
      intro hzero
      rw [hzero] at hx
      exact hx rfl
    have hrhs : Symbol.nonTerminal .start ∉ g.rhs n := hstart _ (Grammar.production_mem n.isLt)
    obtain ⟨values,after,hv,hlen⟩ := h.forest_eval hstart children hrhs env
    simp only [Tree.eval, hv]
    exact h n hne n.isLt after values hlen

theorem NeverFails.forest_eval (h : NeverFails g reduction) (hstart : g.StartFree)
    {xs : List Symbol} : (forest : Forest g xs) → Symbol.nonTerminal .start ∉ xs → ∀ env,
      ∃ values after, forest.eval reduction env = (.ok values, after) ∧ values.length = xs.length
  | .nil, _, env => ⟨[],env,rfl,rfl⟩
  | .cons tree rest, hxs, env => by
    obtain ⟨hx,hrest⟩ := List.ne_and_not_mem_of_not_mem_cons hxs
    obtain ⟨value,after,hv⟩ := h.tree_eval hstart tree hx.symm env
    obtain ⟨values,last,hvs,hlen⟩ := h.forest_eval hstart rest hrest after
    exact ⟨value :: values,last,by simp only [Forest.eval, hv, hvs],by simp [hlen]⟩

end

end Total

/-- Steps lead to where the action is to accept. -/
def ReachesAccept (p : Parser) (c : Config) : Prop :=
  ∃ c', Relation.ReflTransGen p.Next c c' ∧ p.table.action c'.top c'.terminal = some .accept

theorem reachesAccept_of_drive {tokens : List Token} {announced : Bool} {env after : Environment}
    {value : Fragment}
    (h : (p.drive ⟨tokens.map .ok, announced⟩ env).value = (.accepted value, after)) :
    p.ReachesAccept (start tokens announced env) := by
  rw [drive_eq_run] at h
  rcases run_cases (p := p) (tokens.length + 1) (start tokens announced env) with
    hends | ⟨hstalled,_⟩
  · rw [h] at hends
    obtain ⟨last,hsteps,hhalted⟩ := hends
    exact ⟨last,hsteps,action_of_accepted hhalted⟩
  · rw [h] at hstalled
    cases hstalled

theorem derives_of_reachesAccept (hb : Table.build p.grammar = .ok p.table)
    (hstart : p.grammar.StartFree) {tokens : List Token} {announced : Bool} {env : Environment}
    (h : p.ReachesAccept (start tokens announced env)) :
    p.grammar.Derives [.nonTerminal p.grammar.root] (tokens.map Token.symbol) := by
  obtain ⟨last,hsteps,ha⟩ := h
  exact derives_of_accept hb hstart (spells_of_steps hb hsteps) ha

theorem drive_of_derives (hb : Table.build p.grammar = .ok p.table) (hstart : p.grammar.StartFree)
    (htotal : NeverFails p.grammar p.reduction) {tokens : List Token}
    (h : p.grammar.Derives [.nonTerminal p.grammar.root] (tokens.map Token.symbol))
    (announced : Bool) (env : Environment) : ∃ value after,
      (p.drive ⟨tokens.map .ok, announced⟩ env).value = (.accepted value, after) := by
  obtain ⟨tree,rfl⟩ := Grammar.derives_iff_exists_tree.mp h
  have hroot : Symbol.nonTerminal p.grammar.root ≠ .nonTerminal .start := by
    intro heq
    exact hstart p.grammar.accepting List.mem_cons_self (by simp [Grammar.accepting, heq])
  obtain ⟨value,after,hv⟩ := htotal.tree_eval hstart tree hroot env
  refine ⟨value,after,?_⟩
  rw [drive_tree hb hstart, hv]
  rfl

/-- With reductions that never fail, a parse gets to the action that accepts, and accepts, exactly
on the tokens that can be derived from the root. -/
theorem accepts_iff_derives {g : Grammar} {table : Table} {reduction : ℕ → Reduction}
    (hb : Table.build g = .ok table) (hstart : g.StartFree) (htotal : NeverFails g reduction)
    (tokens : List Token) (announced : Bool) (env : Environment) :
    ((mk g table reduction).ReachesAccept (start tokens announced env) ↔
      g.Derives [.nonTerminal g.root] (tokens.map Token.symbol)) ∧
    ((∃ value after, ((mk g table reduction).drive ⟨tokens.map .ok, announced⟩ env).value =
        (.accepted value, after)) ↔
      g.Derives [.nonTerminal g.root] (tokens.map Token.symbol)) := by
  have hreached : (mk g table reduction).ReachesAccept (start tokens announced env) →
      g.Derives [.nonTerminal g.root] (tokens.map Token.symbol) :=
    derives_of_reachesAccept (p := mk g table reduction) hb hstart
  have hdrive : g.Derives [.nonTerminal g.root] (tokens.map Token.symbol) → ∃ value after,
      ((mk g table reduction).drive ⟨tokens.map .ok, announced⟩ env).value =
        (.accepted value, after) :=
    fun h => drive_of_derives (p := mk g table reduction) hb hstart htotal h announced env
  constructor
  · constructor
    · exact hreached
    · intro h
      obtain ⟨value,after,hv⟩ := hdrive h
      exact reachesAccept_of_drive hv
  · constructor
    · rintro ⟨value,after,hv⟩
      exact hreached (reachesAccept_of_drive hv)
    · exact hdrive

/-- A list of two equal names is accepted as soon as no reduction objects. -/
theorem accepts_twice : ∃ table, Table.build names = .ok table ∧ names.StartFree ∧
    NeverFails names blindly ∧ ∃ value after, ((mk names table blindly).drive
      ⟨(twice "a").tokens.map .ok, false⟩ {}).value = (.accepted value, after) := by
  have hbuilt : (Table.build names).isOk = true := by decide +kernel
  have hstart : names.StartFree := by decide
  cases hb : Table.build names with
  | error conflict =>
    rw [hb] at hbuilt
    cases hbuilt
  | ok table =>
    refine ⟨table,rfl,hstart,neverFails_blindly names,?_⟩
    exact (accepts_iff_derives hb hstart (neverFails_blindly names) _ false {}).2.mpr
      (twice "a").derives

end Parser

end LetPrint
