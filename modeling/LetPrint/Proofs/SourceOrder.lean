import LetPrint.Proofs.Settled

/-! # Runs in source order

A run first parses the whole source and then evaluates the statements on an environment that changes
as it goes. What it prints can be read off the source from front to back: every operand has the
value that the latest earlier binding of its name gave it, or else the one it had before the run.
-/
namespace LetPrint

namespace Scanner

/-- A text that starts and ends with the same quote and has none between. -/
def Quoted (text content : String) : Prop :=
  ∃ quote, isQuote quote = true ∧ quote ∉ content.toList ∧
    text.toList = quote :: content.toList ++ [quote]

theorem wordKind_ne (run : List Char) (next : Option Char) : wordKind run next ≠ .stringLiteral := by
  unfold wordKind
  split_ifs <;> simp

theorem quoted_of_token? {text chars : List Char}
    (h : token? text = some (.stringLiteral, chars)) :
    ∃ content, Quoted (String.ofList chars) content := by
  cases text with
  | nil => cases h
  | cons c cs =>
    simp only [token?] at h
    split_ifs at h with hquote hclosed hname hassign
    · obtain ⟨-,rfl⟩ := Prod.mk.inj (Option.some.inj h)
      refine ⟨String.ofList (cs.takeWhile (isInside c)),c,hquote,?_,by simp⟩
      rw [String.toList_ofList]
      intro hmem
      have hinside := List.mem_takeWhile_imp hmem
      simp [isInside] at hinside
    · exact absurd (Prod.mk.inj (Option.some.inj h)).1 (wordKind_ne _ _)
    · cases h

/-- The strings of a source stand between quotes. -/
theorem quoted_of_mem {position : Position} {text : List Char} {token : Token}
    (h : .ok token ∈ scanFrom position text) (hkind : token.kind = .stringLiteral) :
    ∃ content, Quoted token.text content := by
  fun_induction scanFrom position text with
  | case1 => cases h
  | case2 position c cs hspace ih => exact ih h
  | case3 position c cs hspace htoken => simp at h
  | case4 position c cs hspace kind chars htoken ih =>
    rcases List.mem_cons.mp h with heq | hmem
    · cases heq
      cases hkind
      exact quoted_of_token? htoken
    · exact ih hmem

theorem unquoted_of_quoted {text content : String} (h : Quoted text content) :
    Phrase.unquoted text = content := by
  obtain ⟨quote,hquote,_,htext⟩ := h
  have hsize : quote.utf8Size = 1 := by
    rcases Lexer.eq_of_isQuote hquote with rfl | rfl <;> rfl
  unfold Phrase.unquoted
  rw [htext]
  simp [hsize]

end Scanner

def Value.line (value : Value) : List UInt8 := Text.bytes (value.render.toList ++ ['\n'])

theorem Sink.writeLine_of_room_eq_none {sink : Sink} (h : sink.room = none) (value : Value) :
    sink.writeLine value.render = (.ok (), { sink with written := sink.written ++ value.line }) := by
  unfold writeLine writeBytes
  rw [h]
  rfl

/-- The values that statements print, the latest statement first: every operand has its value at
that point. -/
def Stmt.printed (old : String → Option Value) : List Stmt → List (Option Value)
  | [] => []
  | print operand _ :: earlier => printed old earlier ++ [operand.value? (valueAfter old earlier)]
  | bind _ _ _ :: earlier => printed old earlier

/-- On a sink that takes everything, a run writes the lines of what its statements print. -/
theorem printed_execAll {statements : List Stmt} {m m' : Machine}
    (h : (execAll m statements).value = (.ok (), m')) (hroom : m.sink.room = none) :
    ∃ values : List Value, Stmt.printed m.env.value? statements.reverse = values.map some ∧
      m'.sink = { m.sink with written := m.sink.written ++ values.flatMap Value.line } := by
  refine execAll_induction (P := fun front m' => ∃ values : List Value,
    Stmt.printed m.env.value? front.reverse = values.map some ∧ m'.sink =
      { m.sink with written := m.sink.written ++ values.flatMap Value.line }) h ⟨[],rfl,by simp⟩ ?_
  rintro front stmt mid next result hfront ⟨values,hprinted,hsink⟩ hdoes
  rw [List.reverse_concat]
  cases hdoes with
  | bind _ => exact ⟨values,hprinted,hsink⟩
  | @print operand span value sink hvalue hline =>
    have hmid : mid.sink.room = none := by rw [hsink, hroom]
    rw [Sink.writeLine_of_room_eq_none hmid] at hline
    cases hline
    refine ⟨values ++ [value],?_,?_⟩
    · rw [funext (value?_execAll hfront)] at hvalue
      rw [Stmt.printed, hprinted, hvalue, List.map_append, List.map_singleton]
    · rw [hsink, List.flatMap_append, List.flatMap_singleton, List.append_assoc]

namespace Session

/-- A parsed source prints, in order, the values that its operands have where they stand, and leaves
every name with the value that its last binding gave it. -/
theorem run_in_source_order (s : Session) (hs : s.env.Settled) (source : String)
    {program : Program} {parsed : Session}
    (hparse : (s.parseSource source).value = (.ok program, parsed)) (sink : Sink)
    (hroom : sink.room = none) (hflush : sink.flushFails = false) :
    ∃ (lexer : Lexer) (clauses : List Clause) (values : List Value) (after : Session),
      Lexer.language.value = .ok lexer ∧
      lexer.scan source = (clauses.flatMap Clause.tokens).map .ok ∧
      (∀ token ∈ clauses.flatMap Clause.tokens, token.kind = .stringLiteral → ∃ content,
        Scanner.Quoted token.text content ∧ Phrase.unquoted token.text = content) ∧
      Stmt.printed s.env.value? (clauses.map Clause.stmt).reverse = values.map some ∧
      (s.run source sink).value = (.ok (), after, { sink with
        written := sink.written ++ values.flatMap Value.line, flushes := sink.flushes + 1 }) ∧
      ∀ name, after.env.value? name =
        Stmt.valueAfter s.env.value? (clauses.map Clause.stmt).reverse name := by
  obtain ⟨clauses,hscan,_,hstatements,hparsed⟩ := clauses_of_parseSource hparse
  cases hrun : (s.run source sink).value with
  | mk result rest =>
    obtain ⟨after,sink'⟩ := rest
    cases result with
    | error e =>
      -- in a settled session the sink would be at fault
      rcases sink_of_run_error hs hparse hrun with ⟨_,hfails⟩ | ⟨_,hfails⟩
      · rw [hroom] at hfails
        cases hfails
      · rw [hflush] at hfails
        cases hfails
    | ok _ =>
      obtain ⟨last,hlast,rfl,rfl⟩ := execAll_of_run_ok hparse hrun
      obtain ⟨values,hprinted,hsink⟩ := printed_execAll hlast hroom
      have hvalue := value?_execAll hlast
      rw [hparsed, Clause.value?_foldl, hstatements] at hprinted hvalue
      refine ⟨⟨Lexer.languageRules⟩,clauses,values,{ parsed with env := last.env },
        Lexer.language_value,?_,?_,hprinted,?_,hvalue⟩
      · rw [Lexer.scan_languageRules, hscan]
      · intro token hmem hkind
        have hitem : .ok token ∈ Scanner.scan source := by
          rw [hscan]
          exact List.mem_map_of_mem hmem
        obtain ⟨content,hquoted⟩ := Scanner.quoted_of_mem hitem hkind
        exact ⟨content,hquoted,Scanner.unquoted_of_quoted hquoted⟩
      · rw [hsink]

/-- A copy keeps the value that it took when its source is bound anew, and the old value of a name
is there until its first binding. -/
theorem run_rebinding : ∃ (s : Session) (source : String) (values : List Value) (after : Session),
    s.env = ⟨["a"], [("a", .text "old")]⟩ ∧ s.env.Settled ∧
    source = "print a let a = 'x' let b = a let a print b print a print undefined" ∧
    (s.parseSource source).value.1.isOk = true ∧
    (s.run source {}).value =
      (.ok (), after, { written := values.flatMap Value.line, flushes := 1 }) ∧
    values.flatMap Value.line = Text.bytes "old\nx\nundefined\nundefined\n".toList ∧
    after.env.value? "a" = some .undefined ∧ after.env.value? "b" = some (.text "x") := by
  let s : Session := { env := ⟨["a"], [("a", .text "old")]⟩ }
  let source := "print a let a = 'x' let b = a let a print b print a print undefined"
  have hs : s.env.Settled := by
    intro name
    by_cases h : name = "a"
    · subst h
      decide
    · simp [s, Environment.isBound, Environment.value?, List.lookup_cons, beq_false_of_ne h, h]
  have hok : (s.parseSource source).value.1.isOk = true := by decide +kernel
  have heval : (s.run source {}).value = (.ok (),
      ⟨⟨["a", "b"], [("a", .undefined), ("b", .text "x")]⟩, true, true⟩,
      { written := Text.bytes "old\nx\nundefined\nundefined\n".toList, flushes := 1 }) := by
    decide +kernel
  cases hp : (s.parseSource source).value with
  | mk parse parsed =>
    cases parse with
    | error e =>
      rw [hp] at hok
      cases hok
    | ok program =>
      obtain ⟨_,_,values,after,_,_,_,_,hrun,_⟩ := run_in_source_order s hs source hp {} rfl rfl
      have hlines := congrArg (·.2.2.written) (hrun.symm.trans heval)
      have henv := congrArg (·.2.1.env) (hrun.symm.trans heval)
      dsimp only at hlines henv
      rw [List.nil_append] at hlines
      refine ⟨s,source,values,after,rfl,hs,rfl,by rw [hp]; rfl,hrun,hlines,?_,?_⟩
      · rw [henv]
        rfl
      · rw [henv]
        rfl

end Session

end LetPrint
