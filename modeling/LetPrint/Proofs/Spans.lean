import LetPrint.Proofs.Slices
import LetPrint.Proofs.Strays
import LetPrint.Proofs.Writing

/-! # What the spans of statements cover

The span of a statement is put together from the places of its first and its last token. The text
between them is all that the statement depends on: lexed and parsed alone it gives the same
statement, at places counted from its start.
-/
namespace LetPrint

namespace Clause

theorem start_span (c : Clause) : c.tokens.head?.map Token.position = some c.stmt.span.start := by
  cases c <;> rfl

theorem stop_span (c : Clause) :
    c.tokens.getLast?.map (·.span.stop) = some c.stmt.span.stop := by
  cases c with
  | print keyword operand => cases operand <;> rfl
  | declare keyword name => rfl
  | define keyword name operator initializer => cases initializer <;> rfl

theorem exists_token_of_operand? {c : Clause} {e : Expr} (h : c.stmt.operand? = some e) :
    ∃ token ∈ c.tokens, e.span = token.span := by
  cases c with
  | print keyword operand =>
    cases h
    exact ⟨operand.token,by simp [tokens],by cases operand <;> rfl⟩
  | declare keyword name => cases h
  | define keyword name operator initializer =>
    cases h
    exact ⟨initializer.token,by simp [tokens],by cases initializer <;> rfl⟩

end Clause

/-- A clause with the text that its span covers and the gap before it. -/
structure Passage where
  gap : List Char
  text : List Char
  clause : Clause

namespace Passage

def stmt (passage : Passage) : Stmt := passage.clause.stmt

def textOf (passages : List Passage) : List Char :=
  passages.flatMap fun passage => passage.gap ++ passage.text

/-- The text of a passage starts at a place and is read as its clause there. -/
structure Stands (passage : Passage) (place : Position) : Prop where
  gap : ∀ c ∈ passage.gap, Text.isSpace c = true
  start : passage.stmt.span.start = place
  stop : passage.stmt.span.stop = place.advance passage.text
  scan : Scanner.scanFrom place passage.text = passage.clause.tokens.map .ok

/-- The span of a passage covers its text behind the text before it: it runs from the start of the
first token to the end of the last, and the spans of operands are inside. -/
structure Spanned (passage : Passage) (before : List Char) : Prop where
  start : passage.stmt.span.start.Measures before
  stop : passage.stmt.span.stop.Measures (before ++ passage.text)
  first : passage.clause.tokens.head?.map Token.position = some passage.stmt.span.start
  last : passage.clause.tokens.getLast?.map (·.span.stop) = some passage.stmt.span.stop
  operand : ∀ e, passage.stmt.operand? = some e → ∃ lead inner trail,
    passage.text = lead ++ inner ++ trail ∧ e.span.start.Measures (before ++ lead) ∧
      e.span.stop.Measures (before ++ lead ++ inner)

/-- Passages follow one another from a place on. -/
def Laid : Position → List Passage → Prop
  | _, [] => True
  | place, passage :: rest => passage.Stands (place.advance passage.gap) ∧
    Laid (place.advance (passage.gap ++ passage.text)) rest

theorem laid_append {place : Position} {front back : List Passage} :
    Laid place (front ++ back) ↔ Laid place front ∧ Laid (place.advance (textOf front)) back := by
  induction front generalizing place with
  | nil => simp [Laid, textOf, Position.advance]
  | cons passage front ih =>
    have htext : textOf (passage :: front) = passage.gap ++ passage.text ++ textOf front := rfl
    rw [List.cons_append, Laid, ih, Laid, and_assoc, htext, Position.advance_append _ (_ ++ _)]

theorem Laid.stands {place : Position} {front back : List Passage} {passage : Passage}
    (h : Laid place (front ++ passage :: back)) :
    passage.Stands (place.advance (textOf front ++ passage.gap)) := by
  rw [Position.advance_append]
  exact (laid_append.mp h).2.1

/-- A text that is read as clauses consists of their passages and a last gap. -/
theorem exists_laid {place : Position} {text : List Char} {clauses : List Clause}
    (h : Scanner.scanFrom place text = (clauses.flatMap Clause.tokens).map .ok) :
    ∃ passages gap, text = textOf passages ++ gap ∧ (∀ c ∈ gap, Text.isSpace c = true) ∧
      passages.map clause = clauses ∧ Laid place passages := by
  induction clauses generalizing place text with
  | nil => exact ⟨[],text,rfl,Scanner.isSpace_of_scanFrom_nil h,rfl,trivial⟩
  | cons c clauses ih =>
    have hne : c.tokens ≠ [] := by
      obtain ⟨token,rest,htokens⟩ := c.exists_tokens_eq_cons
      simp [htokens]
    have hstart : ∃ gap rest, text = gap ++ rest ∧ (∀ c ∈ gap, Text.isSpace c = true) ∧
        c.stmt.span.start = place.advance gap ∧ Scanner.scanFrom (place.advance gap) rest =
          (c.tokens ++ clauses.flatMap Clause.tokens).map .ok := by
      obtain ⟨token,rest,htokens⟩ := c.exists_tokens_eq_cons
      have hstart := c.start_span
      rw [List.flatMap_cons, htokens] at h
      rw [htokens] at hstart ⊢
      obtain ⟨gap,left,htext,hgap,hplace,hscan⟩ := Scanner.exists_gap h
      exact ⟨gap,left,htext,hgap,by simpa [hplace] using hstart.symm,hscan⟩
    obtain ⟨gap,rest,rfl,hgap,hplace,hscan⟩ := hstart
    obtain ⟨slice,left,rfl,hslice,hleft,hstop⟩ := Scanner.exists_cut hne hscan
    rw [c.stop_span] at hstop
    rw [← Position.advance_append] at hleft
    obtain ⟨passages,last,rfl,hlast,hclauses,hlaid⟩ := ih hleft
    exact ⟨⟨gap, slice, c⟩ :: passages,last,by simp [textOf],hlast,by simp [hclauses],
      ⟨hgap,hplace,Option.some.inj hstop,hslice⟩,hlaid⟩

section Offsets
variable {before : List Char} {passages : List Passage}

theorem Laid.offset_le (h : Laid (Position.start.advance before) passages)
    (hsize : Text.byteCount (before ++ textOf passages) < 2 ^ 63) : ∀ passage ∈ passages,
      (Position.start.advance before).offset ≤ passage.stmt.span.start.offset := by
  intro passage hmem
  obtain ⟨front,back,rfl⟩ := List.append_of_mem hmem
  rw [h.stands.start, ← Position.advance_append]
  apply Position.offset_le_advance_append
  simp only [textOf, List.flatMap_append, List.flatMap_cons, Text.byteCount_append] at hsize ⊢
  omega

theorem Laid.pairwise (h : Laid (Position.start.advance before) passages)
    (hsize : Text.byteCount (before ++ textOf passages) < 2 ^ 63) :
    (passages.map stmt).Pairwise fun s t => s.span.stop.offset ≤ t.span.start.offset := by
  induction passages generalizing before with
  | nil => exact .nil
  | cons passage rest ih =>
    obtain ⟨hstands,hrest⟩ := h
    have htext : before ++ textOf (passage :: rest) =
        (before ++ (passage.gap ++ passage.text)) ++ textOf rest := by simp [textOf]
    rw [← Position.advance_append] at hrest
    rw [htext] at hsize
    refine List.pairwise_cons.mpr ⟨?_,ih hrest hsize⟩
    intro later hmem
    obtain ⟨other,hother,rfl⟩ := List.mem_map.mp hmem
    rw [hstands.stop, ← Position.advance_append, ← Position.advance_append]
    exact hrest.offset_le hsize other hother

end Offsets

section Stands
variable {passage : Passage} {place : Position} (h : passage.Stands place)
include h

theorem Stands.exists_place {token : Token} (htoken : token ∈ passage.clause.tokens) :
    ∃ lead trail, passage.text = lead ++ token.text.toList ++ trail ∧
      token.position = place.advance lead := by
  apply Scanner.exists_place_of_mem
  rw [h.scan]
  exact List.mem_map_of_mem htoken

theorem Stands.exists_operand {e : Expr} (he : passage.stmt.operand? = some e) :
    ∃ lead inner trail, passage.text = lead ++ inner ++ trail ∧
      e.span = ⟨place.advance lead, place.advance (lead ++ inner)⟩ := by
  obtain ⟨token,htoken,hspan⟩ := Clause.exists_token_of_operand? he
  obtain ⟨lead,trail,htext,hplace⟩ := h.exists_place htoken
  refine ⟨lead,token.text.toList,trail,htext,?_⟩
  rw [hspan, Token.span, Position.after, hplace, Position.advance_append]

section Relative
variable (hlines : passage.text.count '\n' < 2 ^ 64)
include hlines

theorem Stands.stmt_relative :
    (passage.clause.relocated place.relative).stmt = passage.stmt.relocated place.relative := by
  apply Clause.stmt_relocated
  intro token htoken
  obtain ⟨lead,trail,htext,hplace⟩ := h.exists_place htoken
  have hcarried := place.carried_relative hlines
  rw [htext] at hcarried
  rw [hplace]
  exact hcarried.left.advance lead

/-- The text of a passage, read alone, has the tokens of its clause, counted from its start. -/
theorem Stands.scan_alone : Scanner.scan (String.ofList passage.text) =
    ((passage.clause.relocated place.relative).tokens).map .ok := by
  have hscan : Scanner.scanFrom (place.relative place) passage.text = _ :=
    Scanner.scanFrom_relocated (place.carried_relative hlines)
  rw [Position.relative_self, h.scan, List.map_map] at hscan
  rw [Scanner.scan, String.toList_ofList, hscan, Clause.tokens_relocated, List.map_map]
  rfl

theorem Stands.parse_alone {env : Environment} (hstray : passage.clause.stray? env = none) :
    (Language.reader.parse (Lexer.feed ⟨Lexer.languageRules⟩ (String.ofList passage.text))
      env).value.1 =
        .ok (Program.relocated place.relative ⟨[passage.stmt], passage.stmt.span⟩) := by
  let alone := passage.clause.relocated place.relative
  have hscan : Scanner.scan (String.ofList passage.text) =
      ([alone].flatMap Clause.tokens).map .ok := by
    rw [List.flatMap_singleton, h.scan_alone hlines]
  have hscoped : Clause.Scoped env [alone] := by
    refine Clause.scoped_cons.mpr ⟨?_,Clause.scoped_nil⟩
    rw [passage.clause.stray?_relocated, hstray]
    rfl
  rw [Language.feed_eq, hscan, Language.value_parse_clauses true env (by simp),
    Clause.firstStray?_eq_none_iff.mpr hscoped]
  simp only [List.map_cons, List.map_nil, alone, h.stmt_relative hlines, Program.relocated,
    ← Stmt.span_relocated]
  rfl

end Relative

end Stands

theorem Stands.spanned {passage : Passage} {before : List Char}
    (h : passage.Stands (Position.start.advance before))
    (hsize : Text.byteCount (before ++ passage.text) < 2 ^ 63) : passage.Spanned before := by
  refine ⟨?_,?_,passage.clause.start_span,passage.clause.stop_span,?_⟩
  · rw [h.start]
    rw [Text.byteCount_append] at hsize
    exact Position.measures_advance_start (by omega)
  · rw [h.stop, ← Position.advance_append]
    exact Position.measures_advance_start hsize
  · intro e he
    obtain ⟨lead,inner,trail,htext,hspan⟩ := h.exists_operand he
    simp only [htext, Text.byteCount_append] at hsize
    rw [hspan, ← Position.advance_append, ← Position.advance_append, ← List.append_assoc]
    refine ⟨lead,inner,trail,htext,Position.measures_advance_start ?_,
      Position.measures_advance_start ?_⟩
    · rw [Text.byteCount_append]
      omega
    · simp only [Text.byteCount_append]
      omega

theorem stray?_of_scoped {env known : Environment} {front back : List Passage} {passage : Passage}
    (h : Clause.Scoped env ((front ++ passage :: back).map clause))
    (hknown : ∀ name, name ∈ known.declared ↔
      name ∈ env.declared ∨ ∃ earlier ∈ front, earlier.stmt.binder? = some name) :
    passage.clause.stray? known = none := by
  rw [Clause.stray?_eq_none_iff]
  intro identifier huse
  rw [hknown]
  rcases h (front.map clause) passage.clause (back.map clause) (by simp) identifier huse with
    hold | ⟨earlier,hmem,hbinder⟩
  · exact Or.inl hold
  · obtain ⟨other,hother,rfl⟩ := List.mem_map.mp hmem
    exact Or.inr ⟨other,hother,(Clause.binder?_stmt _).trans hbinder⟩

end Passage

namespace Language

theorem spanOf_eq {statements : List Stmt} (h : statements ≠ []) :
    ∃ first last, statements.head? = some first ∧ statements.getLast? = some last ∧
      Phrase.spanOf statements = ⟨first.span.start, last.span.stop⟩ := by
  refine ⟨_,_,List.head?_eq_some_head h,List.getLast?_eq_some_getLast h,?_⟩
  rw [Phrase.spanOf, List.head?_eq_some_head h, List.getLast?_eq_some_getLast h]

/-- The statements of a source cover texts of their own, with white space alone between them. Each
of these texts gives its statement when it is parsed alone where the names are declared that were
declared before the statement, at places counted from its start. No source is as long as `2 ^ 63`
bytes. -/
theorem parse_spans : ∃ lexer p, Lexer.language.value = .ok lexer ∧ parser.value = .ok p ∧
    ∀ env source program after, source.utf8ByteSize < 2 ^ 63 →
      (p.parse (lexer.feed source) env).value = (.ok program, after) →
    ∃ (passages : List Passage) (gap : List Char),
      source.toList = Passage.textOf passages ++ gap ∧
      (∀ c ∈ gap, Text.isSpace c = true) ∧
      (∀ passage ∈ passages, ∀ c ∈ passage.gap, Text.isSpace c = true) ∧
      lexer.scan source = (passages.flatMap fun passage => passage.clause.tokens).map .ok ∧
      program.statements = passages.map Passage.stmt ∧
      (program.statements.Pairwise fun s t => s.span.stop.offset ≤ t.span.start.offset) ∧
      (∃ first last, program.statements.head? = some first ∧
        program.statements.getLast? = some last ∧
        program.span = ⟨first.span.start, last.span.stop⟩) ∧
      ∀ front passage back, passages = front ++ passage :: back →
        passage.Spanned (Passage.textOf front ++ passage.gap) ∧
        ∀ known : Environment, (∀ name, name ∈ known.declared ↔
            name ∈ env.declared ∨ ∃ earlier ∈ front, earlier.stmt.binder? = some name) →
          (p.parse (lexer.feed (String.ofList passage.text)) known).value.1 =
            .ok (Program.relocated passage.stmt.span.start.relative
              ⟨[passage.stmt], passage.stmt.span⟩) := by
  refine ⟨⟨Lexer.languageRules⟩,reader,Lexer.language_value,parser_value,?_⟩
  intro env source program after hsize h
  rw [feed_eq] at h
  obtain ⟨clauses,hscan,hscoped,_,_⟩ := clauses_of_parse h
  have hne : clauses ≠ [] := by
    rintro rfl
    rw [hscan, value_parse_reader] at h
    cases h
  have hprogram : program = ⟨clauses.map Clause.stmt, Phrase.spanOf (clauses.map Clause.stmt)⟩ := by
    have hparse := value_parse_clauses true env hne
    rw [Clause.firstStray?_eq_none_iff.mpr hscoped, ← hscan, h] at hparse
    exact Except.ok.inj hparse
  obtain ⟨passages,gap,htext,hgap,hclauses,hlaid⟩ := Passage.exists_laid hscan
  subst hclauses
  have hstmts : (passages.map Passage.clause).map Clause.stmt = passages.map Passage.stmt := by
    rw [List.map_map]
    rfl
  rw [hstmts] at hprogram
  have hshort : Text.byteCount (Passage.textOf passages) < 2 ^ 63 := by
    rw [← Text.byteCount_toList, htext, Text.byteCount_append] at hsize
    omega
  refine ⟨passages,gap,htext,hgap,?_,?_,by rw [hprogram],?_,?_,?_⟩
  · intro passage hmem
    obtain ⟨front,back,rfl⟩ := List.append_of_mem hmem
    exact hlaid.stands.gap
  · rw [Lexer.scan_languageRules, hscan, List.flatMap_map]
  · rw [hprogram]
    have hfirst : Passage.Laid (Position.start.advance []) passages := hlaid
    exact hfirst.pairwise hshort
  · rw [hprogram]
    apply spanOf_eq
    simpa using hne
  · rintro front passage back rfl
    have hpassage :
        Text.byteCount (Passage.textOf front ++ passage.gap ++ passage.text) < 2 ^ 63 := by
      simp only [Passage.textOf, List.flatMap_append, List.flatMap_cons,
        Text.byteCount_append] at hshort ⊢
      omega
    have hlines : passage.text.count '\n' < 2 ^ 64 := by
      have hcount : passage.text.count '\n' ≤ passage.text.length := List.count_le_length
      have hlength := Text.length_le_byteCount passage.text
      rw [Text.byteCount_append] at hpassage
      omega
    refine ⟨hlaid.stands.spanned hpassage,?_⟩
    intro known hknown
    rw [hlaid.stands.start]
    apply hlaid.stands.parse_alone hlines
    exact Passage.stray?_of_scoped hscoped hknown

/-- A statement over two lines that stands right behind a string with a character of two bytes. -/
theorem parse_spans_adjacent :
    let source := "\nlet a='é'print\n a let b"
    let known : Environment := ⟨["a"], []⟩
    ∃ (lexer : Lexer) (p : Parser) (program : Program) (after : Environment)
      (front back : List Passage) (passage : Passage) (gap : List Char),
      Lexer.language.value = .ok lexer ∧ parser.value = .ok p ∧
      (p.parse (lexer.feed source) {}).value = (.ok program, after) ∧
      source.toList = Passage.textOf (front ++ passage :: back) ++ gap ∧
      program.statements.length = 3 ∧ front.length = 1 ∧
      passage.Spanned (Passage.textOf front ++ passage.gap) ∧
      passage.stmt.span = ⟨⟨2, 10, 11⟩, ⟨3, 3, 19⟩⟩ ∧
      (p.parse (lexer.feed (String.ofList passage.text)) known).value.1 =
        .ok ⟨[.print (.name "a" ⟨⟨2, 2, 7⟩, ⟨2, 3, 8⟩⟩) ⟨⟨1, 1, 0⟩, ⟨2, 3, 8⟩⟩],
          ⟨⟨1, 1, 0⟩, ⟨2, 3, 8⟩⟩⟩ := by
  intro source known
  obtain ⟨lexer,p,hlexer,hp,hspans⟩ := parse_spans
  obtain rfl := Except.ok.inj (Lexer.language_value.symm.trans hlexer)
  obtain rfl := Except.ok.inj (parser_value.symm.trans hp)
  let text : Expr := .text "é" ⟨⟨2, 7, 7⟩, ⟨2, 10, 11⟩⟩
  let name : Expr := .name "a" ⟨⟨3, 2, 18⟩, ⟨3, 3, 19⟩⟩
  let program : Program := ⟨[.bind "a" (some text) ⟨⟨2, 1, 1⟩, ⟨2, 10, 11⟩⟩,
    .print name ⟨⟨2, 10, 11⟩, ⟨3, 3, 19⟩⟩, .bind "b" none ⟨⟨3, 4, 20⟩, ⟨3, 9, 25⟩⟩],
    ⟨⟨2, 1, 1⟩, ⟨3, 9, 25⟩⟩⟩
  have hparse : (reader.parse (Lexer.feed ⟨Lexer.languageRules⟩ source) {}).value =
      (.ok program, ⟨["a", "b"], []⟩) := by decide +kernel
  obtain ⟨passages,gap,htext,_,_,_,hpassages,_,_,hslices⟩ :=
    hspans {} source program _ (by decide) hparse
  obtain ⟨first,_,rfl,hfirst,hothers⟩ := List.map_eq_cons_iff.mp hpassages.symm
  obtain ⟨passage,back,rfl,hpassage,_⟩ := List.map_eq_cons_iff.mp hothers
  obtain ⟨hspanned,halone⟩ := hslices [first] passage back rfl
  have hknown : ∀ name, name ∈ known.declared ↔ name ∈ ({} : Environment).declared ∨
      ∃ earlier ∈ [first], earlier.stmt.binder? = some name := by
    intro name
    simp [known, hfirst, eq_comm]
  have hparsed := halone known hknown
  have hplaced : Program.relocated (Position.relative ⟨2, 10, 11⟩)
      ⟨[.print name ⟨⟨2, 10, 11⟩, ⟨3, 3, 19⟩⟩], ⟨⟨2, 10, 11⟩, ⟨3, 3, 19⟩⟩⟩ =
        ⟨[.print (.name "a" ⟨⟨2, 2, 7⟩, ⟨2, 3, 8⟩⟩) ⟨⟨1, 1, 0⟩, ⟨2, 3, 8⟩⟩],
          ⟨⟨1, 1, 0⟩, ⟨2, 3, 8⟩⟩⟩ := by decide
  rw [hpassage, Stmt.span, hplaced] at hparsed
  exact ⟨_,_,program,_,[first],back,passage,gap,hlexer,hp,hparse,htext,rfl,rfl,hspanned,
    congrArg Stmt.span hpassage,hparsed⟩

end Language

end LetPrint
