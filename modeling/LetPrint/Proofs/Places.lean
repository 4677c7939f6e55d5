import LetPrint.Proofs.Scanner
import Mathlib.Algebra.Group.Nat.Defs
import Mathlib.Data.List.Induction

/-! # Places of tokens

The three counters of a position are moved on piece by piece, over tokens and over the white space
between them. They always measure the text before them, and this text is the tokens and gaps read so
far, so nothing of a source is lost up to its end or to the character that no pattern matches.
-/
namespace LetPrint

theorem Text.utf8ByteSize_ofList (cs : List Char) :
    (String.ofList cs).utf8ByteSize = Text.byteCount cs := by
  induction cs with
  | nil => rfl
  | cons c cs ih =>
    rw [← List.singleton_append, String.ofList_append, String.utf8ByteSize_append, ih,
      ← String.singleton_eq_ofList, String.utf8ByteSize_singleton]
    rfl

theorem Text.byteCount_toList (source : String) :
    Text.byteCount source.toList = source.utf8ByteSize := by
  rw [← Text.utf8ByteSize_ofList, String.ofList_toList]

theorem Text.byteCount_append (xs ys : List Char) :
    Text.byteCount (xs ++ ys) = Text.byteCount xs + Text.byteCount ys := by
  induction xs with
  | nil => exact (Nat.zero_add _).symm
  | cons c xs ih =>
    rw [List.cons_append, Text.byteCount, Text.byteCount, ih, Nat.add_assoc]

theorem Text.length_le_byteCount (cs : List Char) : cs.length ≤ Text.byteCount cs := by
  induction cs with
  | nil => exact Nat.le_refl 0
  | cons c cs ih =>
    have hpos := c.utf8Size_pos
    simp only [List.length_cons, Text.byteCount]
    omega

namespace Position

/-- A position has the bytes, the lines and the last column of the text before it. -/
structure Measures (p : Position) (before : List Char) : Prop where
  offset_eq : p.offset.toNat = (String.ofList before).utf8ByteSize
  line_eq : p.line.toNat = 1 + before.count '\n'
  column_eq : p.column.toNat = 1 + (before.reverse.takeWhile (· ≠ '\n')).length
  line_le : p.line.toNat ≤ p.offset.toNat + 1
  column_le : p.column.toNat ≤ p.offset.toNat + 1

theorem advance_append (p : Position) (xs ys : List Char) :
    p.advance (xs ++ ys) = (p.advance xs).advance ys := List.foldl_append

theorem offset_step (p : Position) (c : Char) :
    (p.step c).offset = p.offset + .ofNat c.utf8Size := by
  unfold step
  split_ifs <;> rfl

theorem offset_advance (p : Position) (cs : List Char) :
    (p.advance cs).offset = p.offset + .ofNat (Text.byteCount cs) := by
  induction cs generalizing p with
  | nil => exact (UInt64.add_zero _).symm
  | cons c cs ih =>
    have hstep := ih (p.step c)
    rw [offset_step] at hstep
    rw [Text.byteCount, UInt64.ofNat_add, ← UInt64.add_assoc]
    exact hstep

theorem line_advance (p : Position) (cs : List Char) :
    (p.advance cs).line = p.line + .ofNat (cs.count '\n') := by
  induction cs using List.reverseRecOn with
  | nil => exact (UInt64.add_zero _).symm
  | append_singleton cs c ih =>
    rw [advance_append, List.count_append, UInt64.ofNat_add, ← UInt64.add_assoc, ← ih]
    by_cases hc : c = '\n'
    · simp [advance, step, hc]
    · simp [advance, step, hc]

theorem column_advance_start (before : List Char) : (start.advance before).column =
    .ofNat (1 + (before.reverse.takeWhile (· ≠ '\n')).length) := by
  induction before using List.reverseRecOn with
  | nil => rfl
  | append_singleton before c ih =>
    rw [advance_append, List.reverse_append, List.reverse_singleton, List.singleton_append,
      List.takeWhile_cons]
    by_cases hc : c = '\n'
    · simp [advance, step, hc]
    · simp only [advance] at ih
      simp [advance, step, hc, ih, UInt64.ofNat_add, UInt64.add_assoc]

theorem toNat_offset_advance_start {before : List Char} (h : Text.byteCount before < 2 ^ 63) :
    (start.advance before).offset.toNat = Text.byteCount before := by
  have hsize : Text.byteCount before < UInt64.size := by
    simp only [UInt64.size]
    omega
  rw [offset_advance]
  exact (congrArg UInt64.toNat (UInt64.zero_add _)).trans (UInt64.toNat_ofNat_of_lt' hsize)

theorem offset_le_advance_append {before more : List Char}
    (h : Text.byteCount (before ++ more) < 2 ^ 63) :
    (start.advance before).offset ≤ (start.advance (before ++ more)).offset := by
  rw [UInt64.le_iff_toNat_le, toNat_offset_advance_start h]
  rw [Text.byteCount_append] at h ⊢
  rw [toNat_offset_advance_start (by omega)]
  omega

/-- A text of fewer than `2 ^ 63` bytes is counted without wrapping around. -/
theorem measures_advance_start {before : List Char} (h : Text.byteCount before < 2 ^ 63) :
    (start.advance before).Measures before := by
  have hsize : UInt64.size = 2 ^ 64 := rfl
  have hoffset := toNat_offset_advance_start h
  have hlength := Text.length_le_byteCount before
  have hlines : before.count '\n' ≤ before.length := List.count_le_length
  have hcolumns : (before.reverse.takeWhile (· ≠ '\n')).length ≤ before.reverse.length :=
    (List.takeWhile_prefix _).length_le
  rw [List.length_reverse] at hcolumns
  have hline : (start.advance before).line.toNat = 1 + before.count '\n' := by
    have hone : start.line = .ofNat 1 := rfl
    rw [line_advance, hone, ← UInt64.ofNat_add]
    exact UInt64.toNat_ofNat_of_lt' (by omega)
  have hcolumn : (start.advance before).column.toNat =
      1 + (before.reverse.takeWhile (· ≠ '\n')).length := by
    rw [column_advance_start]
    exact UInt64.toNat_ofNat_of_lt' (by omega)
  refine ⟨?_,hline,hcolumn,by omega,by omega⟩
  rw [hoffset, Text.utf8ByteSize_ofList]

theorem dropBytes_advance_start {before : List Char} (h : Text.byteCount before < 2 ^ 63)
    (after : List Char) :
    Text.dropBytes (start.advance before).offset.toNat (before ++ after) = some after := by
  rw [toNat_offset_advance_start h, Text.dropBytes_append]

end Position

/-- A token with the gap before it. -/
structure Piece where
  gap : List Char
  token : Token

namespace Piece

def textOf (pieces : List Piece) : List Char :=
  pieces.flatMap fun piece => piece.gap ++ piece.token.text.toList

theorem textOf_cons (piece : Piece) (pieces : List Piece) :
    textOf (piece :: pieces) = piece.gap ++ piece.token.text.toList ++ textOf pieces := rfl

theorem textOf_append (front back : List Piece) :
    textOf (front ++ back) = textOf front ++ textOf back := List.flatMap_append

end Piece

namespace Scanner

theorem token?_of_isSpace {c : Char} (h : Text.isSpace c = true) (cs : List Char) :
    token? (c :: cs) = none := by
  have hquote : isQuote c = false := by
    by_contra hq
    rcases Lexer.eq_of_isQuote (Bool.not_eq_false _ ▸ hq) with rfl | rfl <;> revert h <;> decide
  have hname : isNameStart c = false := by
    by_contra hn
    rw [Lexer.not_isSpace_of_isNameStart c (Bool.not_eq_false _ ▸ hn)] at h
    cases h
  have hassign : c ≠ '=' := by
    rintro rfl
    revert h
    decide
  simp [token?, hquote, hname, hassign]

theorem scanFrom_of_token? {text chars : List Char} {kind : Kind} (position : Position)
    (h : token? text = some (kind, chars)) : ∃ rest, text = chars ++ rest ∧ chars ≠ [] ∧
      scanFrom position text =
        .ok ⟨kind, String.ofList chars, position⟩ :: scanFrom (position.advance chars) rest := by
  obtain ⟨⟨rest,hrest⟩,hne⟩ := token?_takes h
  refine ⟨rest,hrest.symm,hne,?_⟩
  cases text with
  | nil => cases h
  | cons c cs =>
    have hspace : ¬ Text.isSpace c = true := by
      intro hs
      rw [token?_of_isSpace hs] at h
      cases h
    rw [scanFrom, if_neg hspace]
    split
    · next hnone =>
      rw [h] at hnone
      cases hnone
    · next kind' chars' hsome =>
      rw [h] at hsome
      cases hsome
      rw [← hrest, List.drop_left]

theorem scanFrom_append {chars rest : List Char} {kind : Kind} (position : Position)
    (h : token? (chars ++ rest) = some (kind, chars)) : scanFrom position (chars ++ rest) =
      .ok ⟨kind, String.ofList chars, position⟩ :: scanFrom (position.advance chars) rest := by
  obtain ⟨left,hleft,_,hscan⟩ := scanFrom_of_token? position h
  obtain rfl := List.append_cancel_left hleft
  exact hscan

theorem scanFrom_of_none {c : Char} {cs : List Char} (position : Position)
    (hspace : ¬ Text.isSpace c = true) (h : token? (c :: cs) = none) : scanFrom position (c :: cs) =
      [.error (.located (.unrecognisedToken (String.ofList [c])) position)] := by
  rw [scanFrom, if_neg hspace]
  split
  · rfl
  · next hsome =>
    rw [h] at hsome
    cases hsome

/-- A stream cut into its pieces, its last gap and what is left, when some text has been read. -/
structure Cuts (before text : List Char) (stream : List (Except Error Token))
    (pieces : List Piece) (gap rest : List Char) : Prop where
  text_eq : text = Piece.textOf pieces ++ gap ++ rest
  gaps : ∀ piece ∈ pieces, ∀ c ∈ piece.gap, Text.isSpace c = true
  last : ∀ c ∈ gap, Text.isSpace c = true
  positions : ∀ front piece back, pieces = front ++ piece :: back →
    piece.token.position = Position.start.advance (before ++ Piece.textOf front ++ piece.gap)
  ending : rest = [] ∧ stream = pieces.map (fun piece => .ok piece.token) ∨
    ∃ c more, rest = c :: more ∧ stream = pieces.map (fun piece => .ok piece.token) ++
      [.error (.located (.unrecognisedToken (String.ofList [c]))
        (Position.start.advance (before ++ Piece.textOf pieces ++ gap)))]

theorem Cuts.cons {before gap chars text : List Char} {kind : Kind}
    {stream : List (Except Error Token)} {pieces : List Piece} {last rest : List Char}
    (hgap : ∀ c ∈ gap, Text.isSpace c = true)
    (h : Cuts (before ++ gap ++ chars) text stream pieces last rest) :
    Cuts before (gap ++ chars ++ text)
      (.ok ⟨kind, String.ofList chars, Position.start.advance (before ++ gap)⟩ :: stream)
      (⟨gap, ⟨kind, String.ofList chars, Position.start.advance (before ++ gap)⟩⟩ :: pieces)
      last rest where
  text_eq := by simp [Piece.textOf_cons, h.text_eq]
  gaps := by
    intro piece hp
    rcases List.mem_cons.mp hp with rfl | hp
    · exact hgap
    · exact h.gaps piece hp
  last := h.last
  positions := by
    intro front piece back he
    cases front with
    | nil =>
      obtain ⟨rfl,_⟩ := List.cons.inj he
      simp [Piece.textOf]
    | cons first front =>
      obtain ⟨rfl,htail⟩ := List.cons.inj he
      rw [h.positions front piece back htail, Piece.textOf_cons]
      simp
  ending := by
    rcases h.ending with ⟨hrest,hstream⟩ | ⟨c,more,hrest,hstream⟩
    · exact Or.inl ⟨hrest,by rw [hstream, List.map_cons]⟩
    · refine Or.inr ⟨c,more,hrest,?_⟩
      rw [hstream, Piece.textOf_cons, List.map_cons]
      simp

theorem exists_cuts (before text : List Char) : ∃ pieces gap rest,
    Cuts before text (scanFrom (Position.start.advance before) text) pieces gap rest := by
  induction hn : text.length using Nat.strong_induction_on generalizing before text with
  | _ n ih =>
    obtain ⟨gap,tail,rfl,hgap,htail⟩ : ∃ gap tail, text = gap ++ tail ∧
        (∀ c ∈ gap, Text.isSpace c = true) ∧ ∀ c ∈ tail.head?, ¬ Text.isSpace c = true := by
      refine ⟨_,_,List.takeWhile_append_dropWhile.symm,fun c hc => List.mem_takeWhile_imp hc,?_⟩
      intro c hc
      have hnot := List.head?_dropWhile_not Text.isSpace text
      rw [hc] at hnot
      simpa using hnot
    rw [scanFrom_spaces hgap, ← Position.advance_append]
    cases tail with
    | nil =>
      refine ⟨[],gap,[],by simp [Piece.textOf],by simp,hgap,by simp,Or.inl ⟨rfl,?_⟩⟩
      rw [scanFrom]
      rfl
    | cons c cs =>
      cases htoken : token? (c :: cs) with
      | none =>
        refine ⟨[],gap,c :: cs,by simp [Piece.textOf],by simp,hgap,by simp,Or.inr ⟨c,cs,rfl,?_⟩⟩
        rw [scanFrom_of_none _ (htail c rfl) htoken]
        simp [Piece.textOf]
      | some token =>
        obtain ⟨kind,chars⟩ := token
        obtain ⟨rest,hrest,hne,hscan⟩ :=
          scanFrom_of_token? (Position.start.advance (before ++ gap)) htoken
        have hpos := List.length_pos_iff.mpr hne
        have hless : rest.length < n := by
          rw [hrest] at hn
          simp only [List.length_append] at hn
          omega
        obtain ⟨pieces,last,left,hcuts⟩ := ih rest.length hless (before ++ gap ++ chars) rest rfl
        rw [hscan, hrest, ← Position.advance_append, ← List.append_assoc gap]
        exact ⟨_,last,left,hcuts.cons hgap⟩

end Scanner

namespace Lexer

/-- The tokens of the language and the gaps between them make up the source up to its end or to the
error. A token is what the source has at its offset, gaps are white space, and every position
measures what is before it. No source is as long as `2 ^ 63` bytes, so no counter wraps around. -/
theorem scan_lossless : ∃ lexer, language.value = .ok lexer ∧
    ∀ source : String, source.utf8ByteSize < 2 ^ 63 →
    ∃ (pieces : List Piece) (gap rest : List Char) (ending : List (Except Error Token)),
      lexer.scan source = pieces.map (fun piece => .ok piece.token) ++ ending ∧
      source.toList = Piece.textOf pieces ++ gap ++ rest ∧
      (∀ piece ∈ pieces, ∀ c ∈ piece.gap, Text.isSpace c = true) ∧
      (∀ c ∈ gap, Text.isSpace c = true) ∧
      (∀ front piece back, pieces = front ++ piece :: back →
        piece.token.position.Measures (Piece.textOf front ++ piece.gap) ∧
        Text.dropBytes piece.token.position.offset.toNat source.toList =
          some (piece.token.text.toList ++ (Piece.textOf back ++ gap ++ rest))) ∧
      (rest = [] ∧ ending = [] ∨ ∃ c more position, rest = c :: more ∧
        ending = [.error (.located (.unrecognisedToken (String.ofList [c])) position)] ∧
        position.Measures (Piece.textOf pieces ++ gap) ∧
        Text.dropBytes position.offset.toNat source.toList = some rest) := by
  refine ⟨⟨languageRules⟩,language_value,fun source hsize => ?_⟩
  obtain ⟨pieces,gap,rest,hcuts⟩ := Scanner.exists_cuts [] source.toList
  have hscan : scan ⟨languageRules⟩ source = Scanner.scanFrom .start source.toList :=
    scan_languageRules source
  have hshort : ∀ {before after : List Char}, source.toList = before ++ after →
      Text.byteCount before < 2 ^ 63 := by
    intro before after he
    rw [← Text.byteCount_toList, he, Text.byteCount_append] at hsize
    omega
  have hplaced : ∀ front piece back, pieces = front ++ piece :: back →
      piece.token.position.Measures (Piece.textOf front ++ piece.gap) ∧
      Text.dropBytes piece.token.position.offset.toNat source.toList =
        some (piece.token.text.toList ++ (Piece.textOf back ++ gap ++ rest)) := by
    intro front piece back he
    have htext : source.toList = (Piece.textOf front ++ piece.gap) ++
        (piece.token.text.toList ++ (Piece.textOf back ++ gap ++ rest)) := by
      rw [hcuts.text_eq, he, Piece.textOf_append, Piece.textOf_cons]
      simp
    rw [hcuts.positions front piece back he]
    refine ⟨Position.measures_advance_start (hshort htext),?_⟩
    rw [htext]
    exact Position.dropBytes_advance_start (hshort htext) _
  rcases hcuts.ending with ⟨hrest,hstream⟩ | ⟨c,more,hrest,hstream⟩
  · refine ⟨pieces,gap,rest,[],?_,hcuts.text_eq,hcuts.gaps,hcuts.last,hplaced,Or.inl ⟨hrest,rfl⟩⟩
    rw [hscan, List.append_nil]
    exact hstream
  · have hend := hshort hcuts.text_eq
    refine ⟨pieces,gap,rest,_,hscan.trans hstream,hcuts.text_eq,hcuts.gaps,hcuts.last,hplaced,
      Or.inr ⟨c,more,_,hrest,rfl,Position.measures_advance_start hend,?_⟩⟩
    rw [hcuts.text_eq]
    exact Position.dropBytes_advance_start hend rest

/-- A character of two bytes and a line break stand before a token and before the error. -/
theorem scan_lossless_unrecognised : let source := "'é'\n =?"
    ∃ lexer, language.value = .ok lexer ∧ source.utf8ByteSize < 2 ^ 63 ∧
      ∃ (pieces : List Piece) (gap : List Char),
        pieces.map Piece.token =
          [⟨.stringLiteral, "'é'", ⟨1, 1, 0⟩⟩, ⟨.assignOperator, "=", ⟨2, 2, 6⟩⟩] ∧
        source.toList = Piece.textOf pieces ++ gap ++ ['?'] ∧
        Position.Measures ⟨2, 3, 7⟩ (Piece.textOf pieces ++ gap) ∧
        Text.dropBytes 7 source.toList = some ['?'] := by
  intro source
  obtain ⟨lexer,hlexer,hlossless⟩ := scan_lossless
  refine ⟨lexer,hlexer,by decide,?_⟩
  obtain rfl := Except.ok.inj (language_value.symm.trans hlexer)
  let tokens : List Token :=
    [⟨.stringLiteral, "'é'", ⟨1, 1, 0⟩⟩, ⟨.assignOperator, "=", ⟨2, 2, 6⟩⟩]
  let error : Error := .located (.unrecognisedToken "?") ⟨2, 3, 7⟩
  have hscan : scan ⟨languageRules⟩ source = tokens.map .ok ++ [.error error] := by decide +kernel
  obtain ⟨pieces,gap,rest,ending,hstream,htext,_,_,_,hend⟩ := hlossless source (by decide)
  rw [hscan] at hstream
  rcases hend with ⟨_,rfl⟩ | ⟨c,more,position,rfl,rfl,hmeasures,hdrop⟩
  · have hmem : .error error ∈ tokens.map Except.ok ++ [.error error] := by simp
    rw [hstream] at hmem
    simp at hmem
  · obtain ⟨htokens,herror⟩ := List.append_inj' hstream rfl
    have hplace : (⟨2, 3, 7⟩ : Position) = position := by
      simp only [error, Error.located, List.cons.injEq, Except.error.injEq, Error.mk.injEq,
        Option.some.injEq] at herror
      exact herror.1.2
    subst hplace
    have hrest : Text.dropBytes 7 source.toList = some ['?'] := by decide
    rw [← Option.some.inj (hrest.symm.trans hdrop)] at htext
    have hok : (pieces.map Piece.token).map Except.ok = _ := (List.map_map).trans htokens.symm
    exact ⟨pieces,gap,List.map_injective_iff.mpr (fun _ _ => Except.ok.inj) hok,htext,hmeasures,
      hrest⟩

end Lexer

end LetPrint
