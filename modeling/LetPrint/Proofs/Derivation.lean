import LetPrint.Grammar.Basic
import Mathlib.Logic.Relation
import Mathlib.Data.List.Basic

/-! # Derivations and parse trees

A derivation replaces nonterminals by right-hand sides, one at a time and anywhere. A parse tree
names the production of each inner node and has tokens as leaves. A list of tokens can be derived
from symbols exactly if it is the yield of a forest over them.
-/
namespace LetPrint

namespace Grammar
variable {g : Grammar}

/-- No production has the nonterminal `start` on its right-hand side. -/
def StartFree (g : Grammar) : Prop := ∀ r ∈ g.productions, Symbol.nonTerminal .start ∉ r.rhs

instance (g : Grammar) : Decidable g.StartFree :=
  inferInstanceAs (Decidable (∀ r ∈ g.productions, Symbol.nonTerminal .start ∉ r.rhs))

/-- One nonterminal is replaced by the right-hand side of a production. -/
inductive Produces (g : Grammar) : List Symbol → List Symbol → Prop
  | replace (front back : List Symbol) {r : Rule} (hr : r ∈ g.productions) :
    g.Produces (front ++ .nonTerminal r.lhs :: back) (front ++ r.rhs ++ back)

abbrev Derives (g : Grammar) : List Symbol → List Symbol → Prop :=
  Relation.ReflTransGen g.Produces

theorem Produces.append_left {u v : List Symbol} (h : g.Produces u v) (front : List Symbol) :
    g.Produces (front ++ u) (front ++ v) := by
  cases h with
  | replace before after hr => simpa using Produces.replace (front ++ before) after hr

theorem Produces.append_right {u v : List Symbol} (h : g.Produces u v) (back : List Symbol) :
    g.Produces (u ++ back) (v ++ back) := by
  cases h with
  | replace before after hr => simpa using Produces.replace before (after ++ back) hr

theorem Derives.append_left {u v : List Symbol} (h : g.Derives u v) (front : List Symbol) :
    g.Derives (front ++ u) (front ++ v) :=
  h.lift (front ++ ·) fun _ _ hp => hp.append_left front

theorem Derives.append_right {u v : List Symbol} (h : g.Derives u v) (back : List Symbol) :
    g.Derives (u ++ back) (v ++ back) :=
  h.lift (· ++ back) fun _ _ hp => hp.append_right back

theorem Derives.append {u v u' v' : List Symbol} (h : g.Derives u v) (h' : g.Derives u' v') :
    g.Derives (u ++ u') (v ++ v') :=
  Relation.ReflTransGen.trans (Derives.append_right h u') (Derives.append_left h' v)

theorem derives_rhs {r : Rule} (hr : r ∈ g.productions) :
    g.Derives [.nonTerminal r.lhs] r.rhs := by
  simpa using Relation.ReflTransGen.single (Produces.replace [] [] hr)

theorem production_mem {n : Nat} (hn : n < g.productions.length) :
    g.production n ∈ g.productions := by
  simp only [production, List.getD_eq_getElem?_getD, List.getElem?_eq_getElem hn, Option.getD_some]
  exact List.getElem_mem hn

theorem exists_production {r : Rule} (hr : r ∈ g.productions) :
    ∃ n : Fin g.productions.length, g.production n = r := by
  obtain ⟨n,hn,he⟩ := List.mem_iff_getElem.mp hr
  refine ⟨⟨n,hn⟩,?_⟩
  simpa [production, hn] using he

end Grammar

abbrev Token.symbol (token : Token) : Symbol := .token token.kind

mutual

/-- A parse tree of a symbol: a token, or a production over the trees of its right-hand side. -/
inductive Tree (g : Grammar) : Symbol → Type
  | leaf (token : Token) : Tree g token.symbol
  | node (production : Fin g.productions.length) (children : Forest g (g.rhs production)) :
    Tree g (.nonTerminal (g.production production).lhs)

inductive Forest (g : Grammar) : List Symbol → Type
  | nil : Forest g []
  | cons {x : Symbol} {xs : List Symbol} (tree : Tree g x) (rest : Forest g xs) : Forest g (x :: xs)

end

variable {g : Grammar}

mutual

def Tree.tokens : {x : Symbol} → Tree g x → List Token
  | _, .leaf token => [token]
  | _, .node _ children => children.tokens

def Forest.tokens : {xs : List Symbol} → Forest g xs → List Token
  | _, .nil => []
  | _, .cons tree rest => tree.tokens ++ rest.tokens

end

mutual

theorem Tree.derives {x : Symbol} : (tree : Tree g x) →
    g.Derives [x] (tree.tokens.map Token.symbol)
  | .leaf token => Relation.ReflTransGen.refl
  | .node n children => (Grammar.derives_rhs (Grammar.production_mem n.isLt)).trans children.derives

theorem Forest.derives {xs : List Symbol} : (forest : Forest g xs) →
    g.Derives xs (forest.tokens.map Token.symbol)
  | .nil => Relation.ReflTransGen.refl
  | .cons tree rest => by
    simpa [Forest.tokens] using Grammar.Derives.append tree.derives rest.derives

end

theorem Forest.exists_append {xs ys : List Symbol} (left : Forest g xs) (right : Forest g ys) :
    ∃ joined : Forest g (xs ++ ys), joined.tokens = left.tokens ++ right.tokens := by
  induction xs with
  | nil =>
    cases left
    exact ⟨right,rfl⟩
  | cons x xs ih =>
    cases left with
    | cons tree rest =>
      obtain ⟨joined,hj⟩ := ih rest
      exact ⟨.cons tree joined,by simp [Forest.tokens, hj]⟩

theorem Forest.exists_split {xs ys : List Symbol} (whole : Forest g (xs ++ ys)) :
    ∃ (left : Forest g xs) (right : Forest g ys), whole.tokens = left.tokens ++ right.tokens := by
  induction xs with
  | nil => exact ⟨.nil,whole,rfl⟩
  | cons x xs ih =>
    cases whole with
    | cons tree rest =>
      obtain ⟨left,right,h⟩ := ih rest
      exact ⟨.cons tree left,right,by simp [Forest.tokens, h]⟩

theorem Forest.exists_leaves (tokens : List Token) :
    ∃ forest : Forest g (tokens.map Token.symbol), forest.tokens = tokens := by
  induction tokens with
  | nil => exact ⟨.nil,rfl⟩
  | cons token tokens ih =>
    obtain ⟨forest,h⟩ := ih
    exact ⟨.cons (.leaf token) forest,by simp [Forest.tokens, Tree.tokens, h]⟩

/-- One step of a derivation, read backwards, joins the trees of a right-hand side. -/
theorem Grammar.Produces.exists_forest {u v : List Symbol} (h : g.Produces u v)
    (after : Forest g v) : ∃ forest : Forest g u, forest.tokens = after.tokens := by
  cases h with
  | replace front back hr =>
    obtain ⟨n,rfl⟩ := Grammar.exists_production hr
    obtain ⟨left,right,hlr⟩ := after.exists_split
    obtain ⟨first,children,hfc⟩ := left.exists_split
    obtain ⟨forest,hf⟩ := first.exists_append (.cons (.node n children) right)
    refine ⟨forest,?_⟩
    rw [hf, hlr, hfc, List.append_assoc]
    rfl

theorem Grammar.Derives.exists_forest {u : List Symbol} {tokens : List Token}
    (h : g.Derives u (tokens.map Token.symbol)) :
    ∃ forest : Forest g u, forest.tokens = tokens := by
  induction h using Relation.ReflTransGen.head_induction_on with
  | refl => exact Forest.exists_leaves tokens
  | head hp _ ih =>
    obtain ⟨after,ha⟩ := ih
    obtain ⟨forest,hf⟩ := hp.exists_forest after
    exact ⟨forest,hf.trans ha⟩

theorem Grammar.derives_iff_exists_tree {x : Symbol} {tokens : List Token} :
    g.Derives [x] (tokens.map Token.symbol) ↔ ∃ tree : Tree g x, tree.tokens = tokens := by
  constructor
  · intro h
    obtain ⟨forest,hf⟩ := Grammar.Derives.exists_forest h
    cases forest with
    | cons tree rest =>
      cases rest
      exact ⟨tree,by simpa [Forest.tokens] using hf⟩
  · rintro ⟨tree,rfl⟩
    exact tree.derives

/-- Tokens split into pieces, one for every symbol, of which a relation holds. -/
def Splits (M : Symbol → List Token → Prop) : List Symbol → List Token → Prop
  | [], tokens => tokens = []
  | x :: xs, tokens => ∃ front back, tokens = front ++ back ∧ M x front ∧ Splits M xs back

section Meaning
variable {M : Symbol → List Token → Prop}

mutual

/-- A relation between symbols and tokens that holds of leaves and is passed on by all productions
holds of the yield of every tree. -/
theorem Tree.meaning (hleaf : ∀ token : Token, M token.symbol [token])
    (hnode : ∀ r ∈ g.productions, ∀ tokens, Splits M r.rhs tokens → M (.nonTerminal r.lhs) tokens)
    {x : Symbol} : (tree : Tree g x) → M x tree.tokens
  | .leaf token => hleaf token
  | .node n children =>
    hnode _ (Grammar.production_mem n.isLt) _ (children.meaning hleaf hnode)

theorem Forest.meaning (hleaf : ∀ token : Token, M token.symbol [token])
    (hnode : ∀ r ∈ g.productions, ∀ tokens, Splits M r.rhs tokens → M (.nonTerminal r.lhs) tokens)
    {xs : List Symbol} : (forest : Forest g xs) → Splits M xs forest.tokens
  | .nil => rfl
  | .cons tree rest => ⟨_,_,rfl,tree.meaning hleaf hnode,rest.meaning hleaf hnode⟩

end

end Meaning

namespace Grammar

/-- Kinds that can be derived from the root. -/
def Sentence (g : Grammar) (kinds : List Kind) : Prop :=
  g.Derives [.nonTerminal g.root] (kinds.map Symbol.token)

/-- A terminal may follow kinds: some sentence starts with them and it, or ends with them. -/
def Legal (g : Grammar) (front : List Kind) : Terminal → Prop
  | .token kind => ∃ rest, g.Sentence (front ++ kind :: rest)
  | .endOfInput => g.Sentence front

theorem sentence_iff_exists_tree {tokens : List Token} : g.Sentence (tokens.map Token.kind) ↔
    ∃ tree : Tree g (.nonTerminal g.root), tree.tokens = tokens := by
  unfold Sentence
  rw [List.map_map]
  exact derives_iff_exists_tree

end Grammar

end LetPrint
