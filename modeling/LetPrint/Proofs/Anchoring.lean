import LetPrint.Proofs.Places

/-! # Patterns that start where the lexer stands

A pattern is put in a group behind the test of the start, as text. If every bar of the text that
comes out stands inside a group, then the test is the first thing that the matcher meets, so a match
is a beginning of what is left of the source, and tokens stand where their positions say. A bar
outside all groups makes a branch without the test, and its matches may begin anywhere.
-/
namespace LetPrint

namespace Pattern

/-- Whether every bar stands inside a group, when some groups are open already. -/
def barsInside : ℕ → List Piece → Bool
  | _, [] => true
  | depth, .groupOpen _ :: rest => barsInside (depth + 1) rest
  | depth, .groupClose :: rest => barsInside (depth - 1) rest
  | depth, .bar :: rest => 0 < depth && barsInside depth rest
  | depth, _ :: rest => barsInside depth rest

/-- Whether every bar of a pattern text stands inside a group. -/
def barsEnclosed (text : List Char) : Bool := (readPieces text.length text).all (barsInside 0)

def startTest : Nested := ⟨look .textStart, 0⟩

/-- The outermost of the open groups has one branch, which begins with the test of the start. When
no other group is open, something stands behind the test already, so that no count can reach it. -/
def Rooted : List OpenGroup → OpenGroup → Prop
  | [], current => current.branches = [] ∧ ∃ last parts, current.parts = last :: parts ++ [startTest]
  | around :: outer, _ => ∃ root parts, (around :: outer).getLast? = some root ∧
    root.branches = [] ∧ root.parts = parts ++ [startTest]

theorem Rooted.push {outer : List OpenGroup} {current : OpenGroup} (h : Rooted outer current)
    (p : Nested) : Rooted outer (current.push p) := by
  cases outer with
  | nil =>
    obtain ⟨hb,last,parts,hp⟩ := h
    exact ⟨hb,p,last :: parts,congrArg (p :: ·) hp⟩
  | cons around outer => exact h

theorem Rooted.opened {outer : List OpenGroup} {current : OpenGroup} (h : Rooted outer current)
    (inner : OpenGroup) : Rooted (current :: outer) inner := by
  cases outer with
  | nil =>
    obtain ⟨hb,last,parts,hp⟩ := h
    exact ⟨current,last :: parts,rfl,hb,hp⟩
  | cons around outer =>
    obtain ⟨root,parts,hlast,hroot⟩ := h
    exact ⟨root,parts,by rw [List.getLast?_cons_cons, hlast],hroot⟩

theorem Rooted.closed {outer : List OpenGroup} {around current : OpenGroup}
    (h : Rooted (around :: outer) current) (p : Nested) : Rooted outer (around.push p) := by
  obtain ⟨root,parts,hlast,hb,hp⟩ := h
  cases outer with
  | nil =>
    obtain rfl : around = root := Option.some.inj hlast
    exact ⟨hb,p,parts,congrArg (p :: ·) hp⟩
  | cons other outer => exact ⟨root,parts,by rwa [List.getLast?_cons_cons] at hlast,hb,hp⟩

theorem Rooted.counted {outer : List OpenGroup} {current : OpenGroup} {p : Nested}
    {parts : List Nested} (h : Rooted outer current) (hparts : current.parts = p :: parts)
    (p' : Nested) : Rooted outer { current with parts := p' :: parts } := by
  cases outer with
  | nil =>
    obtain ⟨hb,last,rest,hp⟩ := h
    rw [hparts] at hp
    exact ⟨hb,p',rest,congrArg (p' :: ·) (List.cons.inj hp).2⟩
  | cons around outer => exact h

theorem branches_chain (ps : List Pattern) :
    (chain (look .textStart :: ps)).branches = [chain (look .textStart :: ps)] := by
  cases ps <;> rfl

theorem sequence_start (ps : List Pattern) : ∃ rest,
    sequence (look .textStart :: ps) = chain (look .textStart :: rest) := ⟨_,rfl⟩

theorem choice_singleton {p : Pattern} (h : p.branches = [p]) : choice [p] = p := by
  have hsome : ∃ fuel, [p].foldr (fun p n => p.weight + n) 1 = fuel + 1 := ⟨p.weight,rfl⟩
  obtain ⟨fuel,hfuel⟩ := hsome
  rw [choice, hfuel, choiceWithin, List.flatMap_singleton, h]

/-- The test of the start comes first in what a rooted group holds. -/
theorem Rooted.content {current : OpenGroup} (h : Rooted [] current) :
    ∃ rest, current.content.pattern = chain (look .textStart :: rest) := by
  obtain ⟨hb,last,parts,hp⟩ := h
  obtain ⟨rest,hrest⟩ := sequence_start ((last :: parts).reverse.map (·.pattern))
  have hbranch : current.nextBranch.branches.reverse.map (·.pattern) =
      [chain (look .textStart :: rest)] := by
    rw [← hrest]
    simp [OpenGroup.nextBranch, hb, hp, Nested.combine, startTest]
  refine ⟨rest,?_⟩
  rw [OpenGroup.content, Nested.combine, hbranch]
  exact choice_singleton (branches_chain rest)

theorem assemble_rooted {next : ℕ} {outer : List OpenGroup} {current : OpenGroup}
    {pieces : List Piece} {nested : Nested} (h : assemble next outer current pieces = some nested)
    (hroot : Rooted outer current) (hbars : barsInside outer.length pieces = true) :
    ∃ rest, nested.pattern = chain (look .textStart :: rest) := by
  fun_induction assemble next outer current pieces with
  | case1 next current =>
    cases h
    exact hroot.content
  | case2 => cases h
  | case3 next outer current p depth rest ih => exact ih h (hroot.push _) hbars
  | case4 next outer current rest ih => exact ih h (hroot.opened _) hbars
  | case5 next outer current opening rest _ ih => exact ih h (hroot.opened _) hbars
  | case6 => cases h
  | case7 next current rest around outer ih => exact ih h (hroot.closed _) hbars
  | case8 next outer current rest ih =>
    -- the bar stands in an inner group, so the outermost one gets no second branch
    rw [barsInside, Bool.and_eq_true, decide_eq_true_eq] at hbars
    obtain ⟨around,outer,rfl⟩ := List.exists_cons_of_length_pos hbars.1
    exact ih h hroot hbars.2
  | case9 => cases h
  | case10 next outer current least most greedy rest p parts hparts ih =>
    exact ih h (hroot.counted hparts _) hbars

theorem exists_pieces {pattern : String} {pieces : List Piece}
    (h : readPieces (Lexer.anchoredText pattern).length (Lexer.anchoredText pattern) =
      some pieces) :
    ∃ rest, pieces = .atom (look .textStart) 0 :: .groupOpen .plain :: rest := by
  have htext : Lexer.anchoredText pattern =
      '\\' :: 'A' :: '(' :: '?' :: ':' :: (pattern.toList ++ [')']) := rfl
  have htest : ∀ cs, readPiece ('\\' :: 'A' :: cs) = some (.atom (look .textStart) 0, cs) :=
    fun _ => rfl
  have hopen : ∀ cs, readPiece ('(' :: '?' :: ':' :: cs) = some (.groupOpen .plain, cs) :=
    fun _ => rfl
  rw [htext] at h
  simp only [List.length_cons, readPieces, htest, hopen, bind, Option.bind_some, pure,
    Option.bind_eq_some_iff, Option.some.injEq] at h
  obtain ⟨_,⟨rest,_,rfl⟩,rfl⟩ := h
  exact ⟨rest,rfl⟩

/-- A pattern whose bars are all enclosed begins with the test of the start. -/
theorem read?_anchored {pattern : String} {p : Pattern}
    (h : read? (Lexer.anchoredText pattern) = some p)
    (hbars : barsEnclosed (Lexer.anchoredText pattern) = true) :
    ∃ rest, p = chain (look .textStart :: rest) := by
  simp only [read?, bind, Option.bind_eq_some_iff] at h
  obtain ⟨pieces,hpieces,h⟩ := h
  rw [barsEnclosed, hpieces] at hbars
  obtain ⟨rest,rfl⟩ := exists_pieces hpieces
  have hroot : Rooted [{ parts := [startTest] }] {} := ⟨_,[],rfl,rfl,rfl⟩
  split_ifs at h with hnames
  · obtain ⟨nested,hnested,hdepth⟩ := Option.bind_eq_some_iff.mp h
    split_ifs at hdepth
    cases hdepth
    have hrest : assemble 1 [{ parts := [startTest] }] {} rest = some nested := hnested
    exact assemble_rooted hrest hroot hbars
  · cases h

end Pattern

namespace Matcher
variable {matcher : Matcher}

theorem nodes_chain (rest : List Pattern) :
    (ofPattern (Pattern.chain (.look .textStart :: rest))).nodes[0]? = some (.look .textStart) := by
  cases rest <;> rfl

section Start
variable (h : matcher.nodes[0]? = some (.look .textStart))
include h

theorem length?_eq_none (c : Char) (text : List Char) : matcher.length? (some c) text = none := by
  have hwave : matcher.wave ⟨some c, text.head?⟩ [0] = ⟨[], false⟩ := by
    simp [wave, follow, h, Place.passes]
  rw [length?, lengthFrom_end hwave]
  rfl

theorem findFrom_eq_none (c : Char) (text : List Char) : matcher.findFrom (some c) text = none := by
  induction text generalizing c with
  | nil => rw [findFrom, length?_eq_none h, Option.map_none]
  | cons d rest ih =>
    rw [findFrom, length?_eq_none h]
    split_ifs
    · rfl
    · exact ih d

/-- A matcher that tests for the start before anything else finds a beginning of the text. -/
theorem prefix_of_find? {text found : List Char} (hfound : matcher.find? text = some found) :
    found <+: text := by
  cases text with
  | nil =>
    obtain ⟨_,_,rfl⟩ := Option.map_eq_some_iff.mp hfound
    exact List.prefix_rfl
  | cons c rest =>
    rw [find?, findFrom, findFrom_eq_none h] at hfound
    cases hlength : matcher.length? none (c :: rest) with
    | none => simp [hlength] at hfound
    | some n =>
      rw [hlength] at hfound
      cases hfound
      exact List.take_prefix n (c :: rest)

end Start

end Matcher

namespace Lexer
variable {lexer : Lexer}

theorem exists_of_mem_mapM {α β : Type} {f : α → Except Error β} {xs : List α} {ys : List β}
    (h : xs.mapM f = .ok ys) {y : β} (hy : y ∈ ys) : ∃ x ∈ xs, f x = .ok y := by
  induction xs generalizing ys with
  | nil =>
    cases h
    cases hy
  | cons x xs ih =>
    rw [List.mapM_cons] at h
    cases hx : f x with
    | error e => simp [hx, bind, Except.bind] at h
    | ok first =>
      cases hxs : xs.mapM f with
      | error e => simp [hx, hxs, bind, Except.bind] at h
      | ok others =>
        simp only [hx, hxs, bind, Except.bind, pure, Except.pure, Except.ok.injEq] at h
        subst h
        rcases List.mem_cons.mp hy with rfl | hmem
        · exact ⟨x,List.mem_cons_self,hx⟩
        · obtain ⟨x',hx',hy'⟩ := ih hxs hmem
          exact ⟨x',List.mem_cons_of_mem x hx',hy'⟩

theorem exists_pattern_of_mem {table : List (Kind × String)} {ignored : List String}
    {rules : List LexicalRule} (h : readRules table ignored = .ok rules) {rule : LexicalRule}
    (hrule : rule ∈ rules) :
    ∃ kind, ∃ pattern ∈ table.map Prod.snd ++ ignored, readRule kind pattern = .ok rule := by
  change (table.mapM (fun entry => readRule (some entry.1) entry.2) >>= fun tokens =>
    ignored.mapM (readRule none) >>= fun skipped => pure (tokens ++ skipped)) = .ok rules at h
  cases htokens : table.mapM fun entry => readRule (some entry.1) entry.2 with
  | error e => simp [htokens, bind, Except.bind] at h
  | ok tokens =>
    cases hskipped : ignored.mapM (readRule none) with
    | error e => simp [htokens, hskipped, bind, Except.bind] at h
    | ok skipped =>
      simp only [htokens, hskipped, bind, Except.bind, pure, Except.pure, Except.ok.injEq] at h
      subst h
      rcases List.mem_append.mp hrule with hmem | hmem
      · obtain ⟨⟨kind,pattern⟩,hentry,hread⟩ := exists_of_mem_mapM htokens hmem
        exact ⟨some kind,pattern,List.mem_append_left _ (List.mem_map_of_mem hentry),hread⟩
      · obtain ⟨pattern,hpattern,hread⟩ := exists_of_mem_mapM hskipped hmem
        exact ⟨none,pattern,List.mem_append_right _ hpattern,hread⟩

theorem readRules_of_build {table : List (Kind × String)} {ignored : List String}
    (h : (build table ignored).value = .ok lexer) : readRules table ignored = .ok lexer.rules := by
  unfold build at h
  cases hrules : readRules table ignored with
  | error e =>
    rw [hrules] at h
    cases h
  | ok rules =>
    rw [hrules] at h
    cases h
    rfl

theorem nodes_of_readRule {kind : Option Kind} {pattern : String} {rule : LexicalRule}
    (h : readRule kind pattern = .ok rule)
    (hbars : Pattern.barsEnclosed (anchoredText pattern) = true) :
    rule.matcher.nodes[0]? = some (.look .textStart) := by
  unfold readRule at h
  split at h
  · next p hp =>
    cases h
    obtain ⟨rest,rfl⟩ := Pattern.read?_anchored (Option.filter_eq_some_iff.mp hp).1 hbars
    exact Matcher.nodes_chain rest
  · cases h

section Start
variable (h : ∀ rule ∈ lexer.rules, rule.matcher.nodes[0]? = some (.look .textStart))
include h

theorem prefix_of_firstMatch {text found : List Char} {kind : Option Kind}
    (hfound : lexer.firstMatch text = some (kind, found)) : found <+: text := by
  obtain ⟨rule,hrule,hmatch⟩ := List.exists_of_findSome?_eq_some hfound
  split at hmatch
  · next c cs hfind =>
    cases hmatch
    exact Matcher.prefix_of_find? (h rule hrule) hfind
  · cases hmatch

/-- A match is a beginning of the text, so the lexer goes on behind its last character. -/
theorem scanFrom_of_firstMatch {c : Char} {cs found : List Char} {kind : Option Kind} (fuel : ℕ)
    (position : Position) (hmatch : lexer.firstMatch (c :: cs) = some (kind, found)) :
    ∃ rest, found ++ rest = c :: cs ∧ lexer.scanFrom (fuel + 1) position (c :: cs) =
      (kind.map fun kind => .ok ⟨kind, String.ofList found, position⟩).toList ++
        lexer.scanFrom fuel (position.advance found) rest := by
  obtain ⟨rest,hrest⟩ := prefix_of_firstMatch h hmatch
  have hdrop : Text.dropBytes (Text.byteCount found) (c :: cs) = some rest := by
    rw [← hrest, Text.dropBytes_append]
  refine ⟨rest,hrest,?_⟩
  simp only [scanFrom, hmatch, hdrop]
  cases kind <;> rfl

/-- Wherever a lexer stands, it stands between two characters. -/
theorem scanFrom_unsplit (fuel : ℕ) (position : Position) (text : List Char) (offset : ℕ) :
    .error (.ofFault (.splitCharacter offset)) ∉ lexer.scanFrom fuel position text := by
  induction fuel generalizing position text with
  | zero => simp [scanFrom]
  | succ fuel ih =>
    cases text with
    | nil => simp [scanFrom]
    | cons c cs =>
      cases hmatch : lexer.firstMatch (c :: cs) with
      | none => simp [scanFrom, hmatch, Error.located, Error.ofFault]
      | some result =>
        obtain ⟨rest,_,hscan⟩ := scanFrom_of_firstMatch h fuel position hmatch
        rw [hscan]
        simp [ih]

theorem exists_place_of_mem {fuel : ℕ} {position : Position} {text : List Char} {token : Token}
    (hmem : .ok token ∈ lexer.scanFrom fuel position text) : ∃ lead trail,
      text = lead ++ token.text.toList ++ trail ∧ token.position = position.advance lead := by
  induction fuel generalizing position text with
  | zero => simp [scanFrom] at hmem
  | succ fuel ih =>
    cases text with
    | nil => simp [scanFrom] at hmem
    | cons c cs =>
      cases hmatch : lexer.firstMatch (c :: cs) with
      | none => simp [scanFrom, hmatch] at hmem
      | some result =>
        obtain ⟨rest,hrest,hscan⟩ := scanFrom_of_firstMatch h fuel position hmatch
        rw [hscan, List.mem_append, Option.mem_toList, Option.map_eq_some_iff] at hmem
        rw [← hrest]
        rcases hmem with ⟨kind,_,heq⟩ | hlater
        · cases heq
          exact ⟨[],rest,by simp,rfl⟩
        · obtain ⟨lead,trail,rfl,hplace⟩ := ih hlater
          exact ⟨result.2 ++ lead,trail,by simp,by rw [hplace, Position.advance_append]⟩

end Start

/-- A lexer with no bar outside the groups of its patterns never stops inside a character, and every
token has the text that the source has at its offset. -/
theorem scan_at_offsets {table : List (Kind × String)} {ignored : List String}
    (hbuild : (build table ignored).value = .ok lexer)
    (hbars : ∀ pattern ∈ table.map Prod.snd ++ ignored,
      Pattern.barsEnclosed (anchoredText pattern) = true)
    {source : String} (hsize : source.utf8ByteSize < 2 ^ 63) :
    (∀ offset, .error (.ofFault (.splitCharacter offset)) ∉ lexer.scan source) ∧
    ∀ token, .ok token ∈ lexer.scan source → ∃ rest,
      Text.dropBytes token.position.offset.toNat source.toList =
        some (token.text.toList ++ rest) := by
  have hread := readRules_of_build hbuild
  have hrules : ∀ rule ∈ lexer.rules, rule.matcher.nodes[0]? = some (.look .textStart) := by
    intro rule hrule
    obtain ⟨kind,pattern,hpattern,hrule⟩ := exists_pattern_of_mem hread hrule
    exact nodes_of_readRule hrule (hbars pattern hpattern)
  refine ⟨scanFrom_unsplit hrules _ _ _,?_⟩
  intro token hmem
  obtain ⟨lead,trail,htext,hplace⟩ := exists_place_of_mem hrules hmem
  have hlead : Text.byteCount lead < 2 ^ 63 := by
    rw [← Text.byteCount_toList, htext, List.append_assoc, Text.byteCount_append] at hsize
    omega
  rw [htext, hplace, List.append_assoc]
  exact ⟨trail,Position.dropBytes_advance_start hlead _⟩

/-- A pattern that closes the group it is put in and opens another, and one with a bar of its own.
-/
theorem scan_regrouped : ∃ lexer,
    (build [(.identifier, "a)(b"), (.stringLiteral, "é|x")] ["\\s+"]).value = .ok lexer ∧
    lexer.scan "ab éx" = [.ok ⟨.identifier, "ab", ⟨1, 1, 0⟩⟩, .ok ⟨.stringLiteral, "é", ⟨1, 4, 3⟩⟩,
      .ok ⟨.stringLiteral, "x", ⟨1, 5, 5⟩⟩] ∧
    (∀ offset, .error (.ofFault (.splitCharacter offset)) ∉ lexer.scan "ab éx") ∧
    ∃ rest, Text.dropBytes 5 "ab éx".toList = some ("x".toList ++ rest) := by
  have hscan : (build [(.identifier, "a)(b"), (.stringLiteral, "é|x")] ["\\s+"]).value.map
      (·.scan "ab éx") = .ok [.ok ⟨.identifier, "ab", ⟨1, 1, 0⟩⟩,
        .ok ⟨.stringLiteral, "é", ⟨1, 4, 3⟩⟩, .ok ⟨.stringLiteral, "x", ⟨1, 5, 5⟩⟩] := by
    decide +kernel
  have hbars : ∀ pattern ∈ ["a)(b", "é|x"] ++ ["\\s+"],
      Pattern.barsEnclosed (anchoredText pattern) = true := by decide +kernel
  cases hbuild : (build [(.identifier, "a)(b"), (.stringLiteral, "é|x")] ["\\s+"]).value with
  | error e =>
    rw [hbuild] at hscan
    cases hscan
  | ok lexer =>
    rw [hbuild] at hscan
    have hitems := Except.ok.inj hscan
    have hsize : "ab éx".utf8ByteSize < 2 ^ 63 := by decide
    obtain ⟨hwhole,htexts⟩ := scan_at_offsets hbuild hbars hsize
    exact ⟨lexer,rfl,hitems,hwhole,htexts ⟨.stringLiteral, "x", ⟨1, 5, 5⟩⟩ (by simp [hitems])⟩

/-- The second branch of `a)|(?:b` is not tied to the place where the lexer stands. A match further
right becomes a token here, and its length may lead into a character. -/
theorem scan_loose_branch : ∃ lexer, (build [(.identifier, "a)|(?:b")] []).value = .ok lexer ∧
    lexer.scan "xb" = [.ok ⟨.identifier, "b", ⟨1, 1, 0⟩⟩, .ok ⟨.identifier, "b", ⟨1, 2, 1⟩⟩] ∧
    (∀ rest, Text.dropBytes 0 "xb".toList ≠ some ("b".toList ++ rest)) ∧
    lexer.scan "éb" =
      [.ok ⟨.identifier, "b", ⟨1, 1, 0⟩⟩, .error (.ofFault (.splitCharacter 1))] := by
  have hscan : (build [(.identifier, "a)|(?:b")] []).value.map
      (fun lexer => (lexer.scan "xb", lexer.scan "éb")) = .ok
        ([.ok ⟨.identifier, "b", ⟨1, 1, 0⟩⟩, .ok ⟨.identifier, "b", ⟨1, 2, 1⟩⟩],
          [.ok ⟨.identifier, "b", ⟨1, 1, 0⟩⟩, .error (.ofFault (.splitCharacter 1))]) := by
    decide +kernel
  cases hbuild : (build [(.identifier, "a)|(?:b")] []).value with
  | error e =>
    rw [hbuild] at hscan
    cases hscan
  | ok lexer =>
    rw [hbuild] at hscan
    obtain ⟨hfirst,hsecond⟩ := Prod.mk.inj (Except.ok.inj hscan)
    refine ⟨lexer,rfl,hfirst,?_,hsecond⟩
    intro rest heq
    cases heq

end Lexer

end LetPrint
