import LetPrint.Proofs.Derivation

/-! # Rightmost derivations

Symbols yield terminals if each of them does, a nonterminal through one of its productions. This is
what derivations to terminals come to, whatever is replaced first, and in particular every such
derivation can be done from the right.
-/
namespace LetPrint

namespace Grammar
variable {g : Grammar} {xs ys : List Symbol} {word : List Terminal}

/-- Terminals derived from symbols, symbol by symbol. -/
inductive Yields (g : Grammar) : List Symbol → List Terminal → Prop
  | nil : g.Yields [] []
  | terminal (t : Terminal) {xs : List Symbol} {word : List Terminal} (rest : g.Yields xs word) :
    g.Yields (.terminal t :: xs) (t :: word)
  | production {p : ℕ} {xs : List Symbol} {front back : List Terminal}
    (hp : p < g.productions.length) (first : g.Yields (g.rhs p) front) (rest : g.Yields xs back) :
    g.Yields (.nonTerminal (g.production p).lhs :: xs) (front ++ back)

theorem Yields.append {front back : List Terminal} (h : g.Yields xs front) (h' : g.Yields ys back) :
    g.Yields (xs ++ ys) (front ++ back) := by
  induction h with
  | nil => exact h'
  | terminal t _ ih => exact .terminal t ih
  | production hp first _ _ ih =>
    rw [List.append_assoc]
    exact .production hp first ih

theorem Yields.exists_split (h : g.Yields (xs ++ ys) word) :
    ∃ front back, word = front ++ back ∧ g.Yields xs front ∧ g.Yields ys back := by
  induction xs generalizing word with
  | nil => exact ⟨[],word,rfl,.nil,h⟩
  | cons x xs ih =>
    cases h with
    | terminal t rest =>
      obtain ⟨front,back,rfl,hxs,hys⟩ := ih rest
      exact ⟨t :: front,back,rfl,.terminal t hxs,hys⟩
    | @production _ _ first _ hp hfirst rest =>
      obtain ⟨front,back,rfl,hxs,hys⟩ := ih rest
      exact ⟨first ++ front,back,(List.append_assoc _ _ _).symm,.production hp hfirst hxs,hys⟩

theorem yields_terminals (word : List Terminal) : g.Yields (word.map .terminal) word := by
  induction word with
  | nil => exact .nil
  | cons t word ih => exact .terminal t ih

theorem Yields.eq_of_terminals (word : List Terminal) {other : List Terminal}
    (h : g.Yields (word.map .terminal) other) : other = word := by
  induction word generalizing other with
  | nil =>
    cases h
    rfl
  | cons t word ih =>
    cases h with
    | terminal _ rest => rw [ih rest]

theorem Produces.yields (h : g.Produces xs ys) (hys : g.Yields ys word) : g.Yields xs word := by
  cases h with
  | replace front back hr =>
    obtain ⟨p,rfl⟩ := exists_production hr
    obtain ⟨left,last,rfl,hleft,hlast⟩ := hys.exists_split
    obtain ⟨first,middle,rfl,hfirst,hmiddle⟩ := hleft.exists_split
    rw [List.append_assoc]
    exact hfirst.append (.production p.isLt hmiddle hlast)

theorem Yields.derives (h : g.Yields xs word) : g.Derives xs (word.map .terminal) := by
  induction h with
  | nil => exact Relation.ReflTransGen.refl
  | terminal t _ ih => exact Derives.append_left ih [.terminal t]
  | production hp _ _ ihfirst ihrest =>
    rw [List.map_append]
    exact Derives.append ((derives_rhs (production_mem hp)).trans ihfirst) ihrest

theorem yields_iff_derives : g.Yields xs word ↔ g.Derives xs (word.map .terminal) := by
  constructor
  · exact Yields.derives
  · intro h
    induction h using Relation.ReflTransGen.head_induction_on with
    | refl => exact yields_terminals word
    | head hp _ ih => exact hp.yields ih

/-- The last nonterminal is replaced, by a production of a number that may be used. -/
inductive ReplacesLast (g : Grammar) (uses : ℕ → Prop) : List Symbol → List Symbol → Prop
  | replace (front : List Symbol) (word : List Terminal) {p : ℕ} (hp : p < g.productions.length)
    (huses : uses p) :
    g.ReplacesLast uses (front ++ .nonTerminal (g.production p).lhs :: word.map .terminal)
      (front ++ g.rhs p ++ word.map .terminal)

abbrev RightmostDerives (g : Grammar) (uses : ℕ → Prop) : List Symbol → List Symbol → Prop :=
  Relation.ReflTransGen (g.ReplacesLast uses)

/-- Production zero, and the productions of all nonterminals but `start`. -/
def Enters (g : Grammar) (p : ℕ) : Prop := (g.production p).lhs = .start → p = 0

theorem StartFree.rhs (h : g.StartFree) {p : ℕ} (hp : p < g.productions.length) :
    Symbol.nonTerminal .start ∉ g.rhs p := h _ (production_mem hp)

/-- Behind any symbols and before terminals, what symbols yield can be derived from the right. -/
theorem Yields.rightmost (hstart : g.StartFree) (h : g.Yields xs word)
    (hxs : Symbol.nonTerminal .start ∉ xs) (front : List Symbol) (back : List Terminal) :
    g.RightmostDerives g.Enters (front ++ xs ++ back.map .terminal)
      (front ++ (word ++ back).map .terminal) := by
  induction h generalizing front back with
  | nil =>
    rw [List.append_nil]
    exact Relation.ReflTransGen.refl
  | terminal t _ ih =>
    have hrest := ih (fun h => hxs (List.mem_cons_of_mem _ h)) (front ++ [.terminal t]) back
    simpa using hrest
  | @production p xs first last hp _ _ ihfirst ihrest =>
    obtain ⟨hne,hxs⟩ := not_or.mp (mt List.mem_cons.mpr hxs)
    have henters : g.Enters p := fun hlhs => absurd (by rw [hlhs]) hne
    have hbehind := ihrest hxs (front ++ [.nonTerminal (g.production p).lhs]) back
    have hinside := ihfirst (hstart.rhs hp) front (last ++ back)
    have hstep := ReplacesLast.replace front (last ++ back) hp henters
    refine Relation.ReflTransGen.trans ?_ (Relation.ReflTransGen.head hstep ?_)
    · simpa using hbehind
    · simpa using hinside

end Grammar

end LetPrint
