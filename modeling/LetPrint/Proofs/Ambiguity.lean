import LetPrint.Proofs.PostOrder

/-! # Ambiguous grammars have no table

A parser that notes the production of every reduction notes, on the yield of a tree, the productions
of that tree in post-order. Read from its end this list gives back the tree. So two trees of one
list of token kinds cannot both be followed, and where there are two, building the table fails.
-/
namespace LetPrint

/-- A parse tree that keeps of its tokens the kinds only. -/
inductive Shape where
  | leaf (kind : Kind)
  | node (production : ℕ) (children : List Shape)

def Token.blank (token : Token) : Token := ⟨token.kind, "", .start⟩

variable {g : Grammar}

mutual

def Tree.shape : {x : Symbol} → Tree g x → Shape
  | _, .leaf token => .leaf token.kind
  | _, .node n children => .node n children.shapes

def Forest.shapes : {xs : List Symbol} → Forest g xs → List Shape
  | _, .nil => []
  | _, .cons tree rest => tree.shape :: rest.shapes

end

mutual

def Tree.blank : {x : Symbol} → Tree g x → Tree g x
  | _, .leaf token => .leaf token.blank
  | _, .node n children => .node n children.blank

def Forest.blank : {xs : List Symbol} → Forest g xs → Forest g xs
  | _, .nil => .nil
  | _, .cons tree rest => .cons tree.blank rest.blank

end

mutual

theorem Tree.tokens_blank {x : Symbol} : (tree : Tree g x) →
    tree.blank.tokens = tree.tokens.map Token.blank
  | .leaf token => rfl
  | .node n children => children.tokens_blank

theorem Forest.tokens_blank {xs : List Symbol} : (forest : Forest g xs) →
    forest.blank.tokens = forest.tokens.map Token.blank
  | .nil => rfl
  | .cons tree rest => by
    simp only [Forest.blank, Forest.tokens, List.map_append, tree.tokens_blank, rest.tokens_blank]

end

mutual

theorem Tree.shape_blank {x : Symbol} : (tree : Tree g x) → tree.blank.shape = tree.shape
  | .leaf token => rfl
  | .node n children => congrArg (Shape.node n) children.shapes_blank

theorem Forest.shapes_blank {xs : List Symbol} : (forest : Forest g xs) →
    forest.blank.shapes = forest.shapes
  | .nil => rfl
  | .cons tree rest => by
    simp only [Forest.blank, Forest.shapes, tree.shape_blank, rest.shapes_blank]

end

theorem map_blank_of_map_kind {first second : List Token}
    (h : first.map Token.kind = second.map Token.kind) :
    first.map Token.blank = second.map Token.blank := by
  have hblank : Token.blank = (fun kind => ⟨kind, "", .start⟩) ∘ Token.kind := rfl
  rw [hblank, ← List.map_map, h, List.map_map]

mutual

/-- The productions of a tree, each after those below it. -/
def Tree.postOrder : {x : Symbol} → Tree g x → List ℕ
  | _, .leaf _ => []
  | _, .node n children => children.postOrder ++ [n.val]

def Forest.postOrder : {xs : List Symbol} → Forest g xs → List ℕ
  | _, .nil => []
  | _, .cons tree rest => tree.postOrder ++ rest.postOrder

end

mutual

-- The last production is that of the root and says how many trees end before it, so the lists are
-- taken apart from behind; what comes before the tree is carried along.
theorem Tree.shape_eq_of_postOrder {x y : Symbol} (first : Tree g x) (second : Tree g y)
    (hxy : x = y) (before before' : List ℕ)
    (h : before ++ first.postOrder = before' ++ second.postOrder) :
    first.shape = second.shape ∧ before = before' := by
  match first, second with
  | .leaf token, .leaf other =>
    simp only [Tree.postOrder, List.append_nil] at h
    simp only [Symbol.terminal.injEq, Terminal.token.injEq] at hxy
    exact ⟨congrArg Shape.leaf hxy,h⟩
  | .leaf token, .node n children => cases hxy
  | .node n children, .leaf token => cases hxy
  | .node n children, .node m others =>
    simp only [Tree.postOrder, ← List.append_assoc] at h
    obtain ⟨hfront,hlast⟩ := List.append_inj' h rfl
    have hnm : n = m := Fin.ext (List.singleton_inj.mp hlast)
    have hchildren := children.shapes_eq_of_postOrder others (by rw [hnm]) before before' hfront
    refine ⟨?_,hchildren.2⟩
    simp only [Tree.shape, hnm, hchildren.1]

theorem Forest.shapes_eq_of_postOrder {xs ys : List Symbol} (first : Forest g xs)
    (second : Forest g ys) (hxy : xs = ys) (before before' : List ℕ)
    (h : before ++ first.postOrder = before' ++ second.postOrder) :
    first.shapes = second.shapes ∧ before = before' := by
  match first, second with
  | .nil, .nil =>
    simp only [Forest.postOrder, List.append_nil] at h
    exact ⟨rfl,h⟩
  | .nil, .cons tree rest => cases hxy
  | .cons tree rest, .nil => cases hxy
  | .cons tree rest, .cons other others =>
    obtain ⟨hx,hxs⟩ := List.cons.inj hxy
    simp only [Forest.postOrder, ← List.append_assoc] at h
    obtain ⟨hrest,hfront⟩ := rest.shapes_eq_of_postOrder others hxs _ _ h
    obtain ⟨htree,hbefore⟩ := tree.shape_eq_of_postOrder other hx before before' hfront
    refine ⟨?_,hbefore⟩
    simp only [Forest.shapes, htree, hrest]

end

namespace Parser

def tally (n : ℕ) : String := String.ofList (List.replicate n '|')

theorem tally_injective : Function.Injective tally := by
  intro n m h
  have hlist : List.replicate n '|' = List.replicate m '|' := String.ofList_injective h
  simpa using congrArg List.length hlist

/-- An environment in which productions are noted. -/
def noted (env : Environment) (productions : List ℕ) : Environment :=
  { env with declared := env.declared ++ productions.map tally }

theorem noted_nil (env : Environment) : noted env [] = env := by
  simp [noted]

theorem noted_append (env : Environment) (productions more : List ℕ) :
    noted env (productions ++ more) = noted (noted env productions) more := by
  simp [noted]

theorem noted_injective (env : Environment) : Function.Injective (noted env) := by
  intro productions more h
  have hdeclared := congrArg Environment.declared h
  exact List.map_injective_iff.mpr tally_injective (List.append_cancel_left hdeclared)

def noting (n : ℕ) : Reduction := fun env _ => pure (.ok (.stmtList []), noted env [n])

mutual

theorem tree_eval_noting {x : Symbol} : (tree : Tree g x) → ∀ env, ∃ value,
    tree.eval noting env = (.ok value, noted env tree.postOrder)
  | .leaf token, env => ⟨.token token,by rw [Tree.postOrder, noted_nil]; rfl⟩
  | .node n children, env => by
    obtain ⟨values,hvalues⟩ := forest_eval_noting children env
    refine ⟨.stmtList [],?_⟩
    simp only [Tree.eval, hvalues, noting, Traced.value_pure]
    rw [Tree.postOrder, noted_append]

theorem forest_eval_noting {xs : List Symbol} : (forest : Forest g xs) → ∀ env, ∃ values,
    forest.eval noting env = (.ok values, noted env forest.postOrder)
  | .nil, env => ⟨[],by rw [Forest.postOrder, noted_nil]; rfl⟩
  | .cons tree rest, env => by
    obtain ⟨value,hvalue⟩ := tree_eval_noting tree env
    obtain ⟨values,hvalues⟩ := forest_eval_noting rest (noted env tree.postOrder)
    refine ⟨value :: values,?_⟩
    simp only [Forest.eval, hvalue, hvalues]
    rw [Forest.postOrder, noted_append]

end

/-- With a table, trees of the root with one yield have one post-order: the parse notes it. -/
theorem postOrder_eq_of_tokens_eq {table : Table} (hb : Table.build g = .ok table)
    (hstart : g.StartFree) {first second : Tree g (.nonTerminal g.root)}
    (h : first.tokens = second.tokens) : first.postOrder = second.postOrder := by
  let p : Parser := ⟨g, table, noting⟩
  obtain ⟨value,hvalue⟩ := tree_eval_noting first {}
  obtain ⟨value',hvalue'⟩ := tree_eval_noting second {}
  have hfirst := drive_tree (p := p) hb hstart first false {}
  have hsecond := drive_tree (p := p) hb hstart second false {}
  rw [h] at hfirst
  have hsame := hfirst.symm.trans hsecond
  change (_, (first.eval noting {}).2) = (_, (second.eval noting {}).2) at hsame
  rw [hvalue, hvalue'] at hsame
  exact noted_injective {} (congrArg Prod.snd hsame)

theorem shape_eq_of_kinds_eq {table : Table} (hb : Table.build g = .ok table)
    (hstart : g.StartFree) {first second : Tree g (.nonTerminal g.root)}
    (h : first.tokens.map Token.kind = second.tokens.map Token.kind) :
    first.shape = second.shape := by
  have hblank : first.blank.tokens = second.blank.tokens := by
    rw [first.tokens_blank, second.tokens_blank, map_blank_of_map_kind h]
  have hpost := postOrder_eq_of_tokens_eq hb hstart hblank
  have hshape := first.blank.shape_eq_of_postOrder second.blank rfl [] [] (by rw [hpost])
  rw [← first.shape_blank, ← second.shape_blank]
  exact hshape.1

/-- If some kinds of tokens are the yield of two trees that differ in a production, the table of the
grammar has a conflict, and so there is no parser. -/
theorem build_error_of_ambiguous (hstart : g.StartFree)
    (first second : Tree g (.nonTerminal g.root))
    (hkinds : first.tokens.map Token.kind = second.tokens.map Token.kind)
    (hdiffer : first.shape ≠ second.shape) : ∃ conflict, Table.build g = .error conflict ∧
      ∀ reduction, (build g reduction).value = .error ⟨.grammarConflict conflict.state
        conflict.terminal.name (conflict.existing.describe g ++ " / " ++ conflict.wanted.describe g),
        none⟩ := by
  cases hb : Table.build g with
  | ok table => exact absurd (shape_eq_of_kinds_eq hb hstart hkinds) hdiffer
  | error conflict =>
    refine ⟨conflict,rfl,fun reduction => ?_⟩
    unfold Table.build at hb
    simp only [build, hb]
    rfl

/-- Sequences of names that may be put together from any two parts, with two productions for a
name. -/
def pairings : Grammar :=
  ⟨.expr, [⟨.expr, [.nonTerminal .expr, .nonTerminal .expr]⟩, ⟨.expr, [.token .identifier]⟩,
    ⟨.expr, [.token .identifier]⟩]⟩

def pairings.name (production : Fin 2) (text : String) : Tree pairings (.nonTerminal .expr) :=
  match production with
  | 0 => .node ⟨2, by decide⟩ (.cons (.leaf ⟨.identifier, text, .start⟩) .nil)
  | 1 => .node ⟨3, by decide⟩ (.cons (.leaf ⟨.identifier, text, .start⟩) .nil)

def pairings.pair (left right : Tree pairings (.nonTerminal .expr)) :
    Tree pairings (.nonTerminal .expr) :=
  .node ⟨1, by decide⟩ (.cons left (.cons right .nil))

/-- Three names can be paired from the left or from the right, and a single name can be read in two
ways. -/
theorem build_pairings : pairings.StartFree ∧
    (∃ left right : Tree pairings (.nonTerminal .expr), left.tokens.map Token.kind =
      right.tokens.map Token.kind ∧ left.tokens.length = 3 ∧ left.shape ≠ right.shape) ∧
    (pairings.name 0 "a").shape ≠ (pairings.name 1 "b").shape ∧
    ∃ conflict, Table.build pairings = .error conflict := by
  have hstart : pairings.StartFree := by decide
  let left := pairings.pair (pairings.pair (pairings.name 0 "a") (pairings.name 0 "b"))
    (pairings.name 0 "c")
  let right := pairings.pair (pairings.name 0 "x") (pairings.pair (pairings.name 0 "y")
    (pairings.name 0 "z"))
  have hpaired : left.shape ≠ right.shape := by
    intro h
    simp [left, right, pairings.pair, pairings.name, Tree.shape, Forest.shapes] at h
  have hread : (pairings.name 0 "a").shape ≠ (pairings.name 1 "b").shape := by
    intro h
    simp [pairings.name, Tree.shape] at h
  obtain ⟨conflict,hb,_⟩ := build_error_of_ambiguous hstart left right rfl hpaired
  exact ⟨hstart,⟨left,right,rfl,rfl,hpaired⟩,hread,conflict,hb⟩

end Parser

end LetPrint
