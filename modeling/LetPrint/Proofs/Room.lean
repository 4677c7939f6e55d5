import LetPrint.Proofs.SourceOrder

/-! # Evaluation with limited room

A run can stop for two reasons: a statement refers to a name that never got a value, or the sink has
no room for the next line. Where the first would happen can be read off the statements alone, and so
can everything that is printed before it. The sink decides only whether the run comes that far: it
takes the first bytes of this output, and the run stops in the line that is cut.
-/
namespace LetPrint

namespace Sink
variable {sink : Sink} {room : ℕ}

/-- The sink with those of the bytes that it has room for. -/
def filled (sink : Sink) (room : ℕ) (bytes : List UInt8) : Sink :=
  { sink with written := sink.written ++ bytes.take room, room := some (room - bytes.length) }

theorem filled_nil (h : sink.room = some room) : sink.filled room [] = sink := by
  unfold filled
  rw [List.take_nil, List.append_nil, List.length_nil, Nat.sub_zero, ← h]

theorem filled_append (sink : Sink) (room : ℕ) (front back : List UInt8) :
    sink.filled room (front ++ back) =
      (sink.filled room front).filled (room - front.length) back := by
  unfold filled
  rw [List.take_append, ← List.append_assoc, List.length_append, Nat.sub_add_eq]

theorem filled_append_of_le (sink : Sink) {front : List UInt8} (h : room ≤ front.length)
    (back : List UInt8) : sink.filled room (front ++ back) = sink.filled room front := by
  unfold filled
  rw [List.take_append_of_le_length h, List.length_append,
    Nat.sub_eq_zero_of_le h, Nat.sub_eq_zero_of_le (by omega)]

theorem writeLine_of_room_eq_some (h : sink.room = some room) (value : Value) :
    sink.writeLine value.render =
      (if value.line.length ≤ room then .ok () else .error sink.full,
        sink.filled room value.line) := by
  unfold writeLine writeBytes
  rw [h]
  rfl

end Sink

namespace Stmt
variable {old : String → Option Value} {front : List Stmt}

/-- A statement refers to a name that had no value and that no statement before it binds. -/
def Dangles (old : String → Option Value) (front : List Stmt) (stmt : Stmt) : Prop :=
  ∃ identifier span, stmt.operand? = some (.name identifier span) ∧ old identifier = none ∧
    ∀ earlier ∈ front, earlier.binder? ≠ some identifier

def Sound (old : String → Option Value) (front : List Stmt) : Prop :=
  ∀ earlier stmt later, front = earlier ++ stmt :: later → ¬ Dangles old earlier stmt

/-- The statements before the first one that dangles, and the others. -/
structure Reaches (old : String → Option Value) (front back : List Stmt) : Prop where
  sound : Sound old front
  stops : ∀ stmt later, back = stmt :: later → Dangles old front stmt

/-- The bytes that statements print, each operand with its value at that point. -/
def output (old : String → Option Value) (statements : List Stmt) : List UInt8 :=
  ((printed old statements.reverse).filterMap id).flatMap Value.line

theorem sound_nil : Sound old [] := by
  intro earlier stmt later h
  simp at h

theorem sound_concat {stmt : Stmt} :
    Sound old (front ++ [stmt]) ↔ Sound old front ∧ ¬ Dangles old front stmt := by
  constructor
  · intro h
    refine ⟨?_,h front stmt [] rfl⟩
    rintro earlier other later rfl
    exact h earlier other (later ++ [stmt]) (by simp)
  · rintro ⟨hfront,hstmt⟩ earlier other later h
    rcases List.eq_nil_or_concat' later with rfl | ⟨middle,last,rfl⟩
    · obtain ⟨rfl,hsame⟩ := List.append_inj' h rfl
      cases hsame
      exact hstmt
    · have hsplit : front ++ [stmt] = (earlier ++ other :: middle) ++ [last] := by simp [h]
      obtain ⟨rfl,_⟩ := List.append_inj' hsplit rfl
      exact hfront earlier other middle rfl

/-- Sound statements go on to the first one that dangles. -/
theorem Sound.exists_reaches (h : Sound old front) (rest : List Stmt) : ∃ middle back,
    rest = middle ++ back ∧ Reaches old (front ++ middle) back := by
  induction rest generalizing front with
  | nil => exact ⟨[],[],rfl,by simpa using h,by simp⟩
  | cons stmt rest ih =>
    by_cases hstmt : Dangles old front stmt
    · refine ⟨[],stmt :: rest,rfl,by simpa using h,?_⟩
      intro other later heq
      cases heq
      simpa using hstmt
    · obtain ⟨middle,back,rfl,hreaches⟩ := ih (sound_concat.mpr ⟨h,hstmt⟩)
      exact ⟨stmt :: middle,back,rfl,by simpa using hreaches⟩

theorem valueAfter_of_not_mem {name : String} {statements : List Stmt}
    (h : ∀ stmt ∈ statements, stmt.binder? ≠ some name) :
    valueAfter old statements name = old name := by
  induction statements with
  | nil => rfl
  | cons stmt rest ih =>
    obtain ⟨hstmt,hrest⟩ := List.forall_mem_cons.mp h
    cases stmt with
    | print operand span => exact ih hrest
    | bind identifier initializer span =>
      have hne : name ≠ identifier := fun heq => hstmt (by rw [heq]; rfl)
      rw [valueAfter, if_neg hne, ih hrest]

/-- An operand has a value where its statement does not dangle, if the names with a value are the
old ones and those that are bound. -/
theorem isSome_of_not_dangles {stmt : Stmt} {e : Expr} (h : ¬ Dangles old front stmt)
    (hvalues : ∀ name, (valueAfter old front.reverse name).isSome = true ↔
      (old name).isSome = true ∨ ∃ earlier ∈ front, earlier.binder? = some name)
    (he : stmt.operand? = some e) : (e.value? (valueAfter old front.reverse)).isSome = true := by
  cases e with
  | text content span => rfl
  | undefined span => rfl
  | name identifier span =>
    rw [Expr.value?, hvalues]
    by_contra hnone
    push Not at hnone
    exact h ⟨identifier,span,he,by simpa using hnone.1,hnone.2⟩

theorem Sound.isSome_valueAfter (h : Sound old front) (name : String) :
    (valueAfter old front.reverse name).isSome = true ↔
      (old name).isSome = true ∨ ∃ stmt ∈ front, stmt.binder? = some name := by
  induction front using List.reverseRecOn generalizing name with
  | nil => simp [valueAfter]
  | append_singleton front stmt ih =>
    obtain ⟨hfront,hstmt⟩ := sound_concat.mp h
    rw [List.reverse_concat]
    cases stmt with
    | print operand span =>
      rw [valueAfter, ih hfront]
      simp
    | bind identifier initializer span =>
      rw [valueAfter]
      split_ifs with hname
      · have hsome : (Expr.initial? (valueAfter old front.reverse) initializer).isSome = true := by
          cases initializer with
          | none => rfl
          | some e => exact isSome_of_not_dangles hstmt (ih hfront) rfl
        simp [hsome, hname]
      · rw [ih hfront]
        simp [Ne.symm hname]

theorem Sound.none_not_mem_printed (h : Sound old front) : none ∉ printed old front.reverse := by
  induction front using List.reverseRecOn with
  | nil => simp [printed]
  | append_singleton front stmt ih =>
    obtain ⟨hfront,hstmt⟩ := sound_concat.mp h
    rw [List.reverse_concat]
    cases stmt with
    | bind identifier initializer span => exact ih hfront
    | print operand span =>
      have hsome := isSome_of_not_dangles hstmt hfront.isSome_valueAfter rfl
      rw [printed, List.mem_append, not_or]
      refine ⟨ih hfront,?_⟩
      intro hmem
      rw [← List.mem_singleton.mp hmem] at hsome
      cases hsome

theorem output_concat_print (operand : Expr) (span : Span) :
    output old (front ++ [.print operand span]) = output old front ++
      (operand.value? (valueAfter old front.reverse)).toList.flatMap Value.line := by
  cases h : operand.value? (valueAfter old front.reverse) with
  | none => simp [output, printed, h]
  | some value => simp [output, printed, h]

theorem output_concat_bind (identifier : String) (initializer : Option Expr) (span : Span) :
    output old (front ++ [.bind identifier initializer span]) = output old front := by
  simp [output, printed]

theorem exists_output_append (back : List Stmt) :
    ∃ more, output old (front ++ back) = output old front ++ more := by
  induction back using List.reverseRecOn with
  | nil => exact ⟨[],by simp⟩
  | append_singleton back stmt ih =>
    obtain ⟨more,hmore⟩ := ih
    rw [← List.append_assoc]
    cases stmt with
    | bind identifier initializer span => exact ⟨more,by rw [output_concat_bind, hmore]⟩
    | print operand span =>
      rw [output_concat_print, hmore, List.append_assoc]
      exact ⟨_,rfl⟩

section Run
variable {m mid : Machine} (h : (execAll m front).value = (.ok (), mid))
include h

/-- After a run that succeeds, the statements that dangle are those whose name has no value. -/
theorem dangles_iff {stmt : Stmt} : Dangles m.env.value? front stmt ↔
    ∃ identifier span, stmt.operand? = some (.name identifier span) ∧
      mid.env.value? identifier = none := by
  have hunbound : ∀ name, mid.env.value? name = none ↔
      m.env.value? name = none ∧ ∀ earlier ∈ front, earlier.binder? ≠ some name := by
    intro name
    have hbound := not_congr (isBound_execAll h name)
    simpa [Environment.isBound] using hbound
  simp only [Dangles, hunbound]

theorem not_dangles_of_value? {stmt : Stmt} {e : Expr} {value : Value}
    (he : stmt.operand? = some e) (hvalue : e.value? mid.env.value? = some value) :
    ¬ Dangles m.env.value? front stmt := by
  rw [dangles_iff h]
  rintro ⟨identifier,span,hoperand,hnone⟩
  cases he.symm.trans hoperand
  rw [Expr.value?, hnone] at hvalue
  cases hvalue

theorem not_dangles_of_does {stmt : Stmt} {value : Value} {next : Machine}
    (hdoes : stmt.Does mid (.ok value, next)) : ¬ Dangles m.env.value? front stmt := by
  cases hdoes with
  | print hvalue _ => exact not_dangles_of_value? h rfl hvalue
  | @bind identifier initializer span value hinitial =>
    cases initializer with
    | some e => exact not_dangles_of_value? h rfl hinitial
    | none =>
      rintro ⟨_,_,hoperand,_⟩
      cases hoperand

theorem sound_of_execAll : Sound m.env.value? front := by
  refine execAll_induction (P := fun front _ => Sound m.env.value? front) h sound_nil ?_
  intro front stmt mid next value hfront hsound hdoes
  exact sound_concat.mpr ⟨hsound,not_dangles_of_does hfront hdoes⟩

/-- A run that succeeds has had room for its output. -/
theorem sink_of_execAll {room : ℕ} (hroom : m.sink.room = some room) :
    (output m.env.value? front).length ≤ room ∧
      mid.sink = m.sink.filled room (output m.env.value? front) := by
  refine execAll_induction (P := fun front mid => (output m.env.value? front).length ≤ room ∧
    mid.sink = m.sink.filled room (output m.env.value? front)) h
    ⟨Nat.zero_le room,(Sink.filled_nil hroom).symm⟩ ?_
  rintro front stmt mid next result hfront ⟨hlength,hsink⟩ hdoes
  cases hdoes with
  | bind _ =>
    rw [output_concat_bind]
    exact ⟨hlength,hsink⟩
  | @print operand span value sink hvalue hline =>
    have hmid : mid.sink.room = some (room - (output m.env.value? front).length) := by
      rw [hsink]
      rfl
    rw [Sink.writeLine_of_room_eq_some hmid] at hline
    obtain ⟨hresult,rfl⟩ := Prod.mk.inj hline
    split_ifs at hresult with hfits
    rw [funext (value?_execAll hfront)] at hvalue
    rw [output_concat_print, hvalue, Option.toList_some, List.flatMap_singleton,
      Sink.filled_append, ← hsink, List.length_append]
    exact ⟨by omega,rfl⟩

end Run

/-- The statements before the print in whose line an output first has more bytes than there is room
for. -/
def CutAt (old : String → Option Value) (room : ℕ) (front executed : List Stmt) : Prop :=
  ∃ operand span later, front = executed ++ .print operand span :: later ∧
    (output old executed).length ≤ room ∧
    room < (output old (executed ++ [.print operand span])).length

/-- How a run ends on a sink that has room for some bytes more, where the statements `front` come
before the first one that dangles. -/
structure EndsWithin (m : Machine) (room : ℕ) (front back executed : List Stmt)
    (result : Except Error Unit) (last : Machine) : Prop where
  overflow : room < (output m.env.value? front).length →
    CutAt m.env.value? room front executed ∧ result = .error m.sink.full
  dangling : (output m.env.value? front).length ≤ room → ∀ stmt later, back = stmt :: later →
    executed = front ∧ ∃ identifier span, stmt.operand? = some (.name identifier span) ∧
      result = .error (.located (.identifierNotDefined identifier) span.start)
  done : (output m.env.value? front).length ≤ room → back = [] →
    executed = front ∧ result = .ok ()
  sink : last.sink = { m.sink with
    written := m.sink.written ++ (output m.env.value? front).take room
    room := some (room - (output m.env.value? front).length) }
  values : ∀ name, last.env.value? name = valueAfter m.env.value? executed.reverse name

section Ends
variable {m mid : Machine} {room : ℕ} (hroom : m.sink.room = some room)
  (h : (execAll m front).value = (.ok (), mid))
include hroom h

theorem endsWithin_of_ok : EndsWithin m room front [] front (.ok ()) mid := by
  obtain ⟨hlength,hsink⟩ := sink_of_execAll h hroom
  refine ⟨?_,by simp,fun _ _ => ⟨rfl,rfl⟩,hsink,value?_execAll h⟩
  intro hover
  omega

theorem endsWithin_of_unbound {stmt : Stmt} {identifier : String} {span : Span}
    (hoperand : stmt.operand? = some (.name identifier span)) (back : List Stmt) :
    EndsWithin m room front (stmt :: back) front
      (.error (.located (.identifierNotDefined identifier) span.start)) mid := by
  obtain ⟨hlength,hsink⟩ := sink_of_execAll h hroom
  refine ⟨?_,?_,by simp,hsink,value?_execAll h⟩
  · intro hover
    omega
  · intro _ other later heq
    cases heq
    exact ⟨rfl,identifier,span,hoperand,rfl⟩

/-- The line that does not fit is the last one of which anything is written, whatever would be
printed after it. -/
theorem endsWithin_of_full {operand : Expr} {span : Span} {value : Value} {error : Error}
    {sink : Sink} (hvalue : operand.value? mid.env.value? = some value)
    (hline : mid.sink.writeLine value.render = (.error error, sink)) (middle back : List Stmt) :
    EndsWithin m room (front ++ .print operand span :: middle) back front (.error error)
      { mid with sink := sink } := by
  obtain ⟨hlength,hsink⟩ := sink_of_execAll h hroom
  have hmid : mid.sink.room = some (room - (output m.env.value? front).length) := by
    rw [hsink]
    rfl
  rw [Sink.writeLine_of_room_eq_some hmid] at hline
  obtain ⟨hresult,rfl⟩ := Prod.mk.inj hline
  split_ifs at hresult with hfits
  cases hresult
  have hfront : output m.env.value? (front ++ [.print operand span]) =
      output m.env.value? front ++ value.line := by
    rw [output_concat_print, ← funext (value?_execAll h), hvalue, Option.toList_some,
      List.flatMap_singleton]
  -- what would be printed behind the cut line finds no room either
  obtain ⟨more,hmore⟩ : ∃ more, output m.env.value? (front ++ [.print operand span] ++ middle) =
      output m.env.value? (front ++ [.print operand span]) ++ more := exists_output_append middle
  rw [List.append_assoc, List.singleton_append] at hmore
  have hcut : room < (output m.env.value? (front ++ [.print operand span])).length := by
    rw [hfront, List.length_append]
    omega
  have hover : room < (output m.env.value? (front ++ .print operand span :: middle)).length := by
    rw [hmore, List.length_append]
    omega
  have hvalues : ∀ name, mid.env.value? name = _ := value?_execAll h
  refine ⟨?_,?_,?_,?_,hvalues⟩
  · intro _
    refine ⟨⟨operand,span,middle,rfl,hlength,hcut⟩,?_⟩
    rw [(sameFaults_execAll h).full_eq]
  · intro hle
    omega
  · intro hle
    omega
  · change mid.sink.filled _ value.line = m.sink.filled room _
    rw [hmore, Sink.filled_append_of_le _ (by omega), hfront, Sink.filled_append, ← hsink]

end Ends

end Stmt

/-- A program on a sink with limited room prints what stands before its first dangling reference, as
far as there is room for it, and gives names the values of the statements that were completed. -/
theorem Program.exec_within_room (m : Machine) {room : ℕ} (hroom : m.sink.room = some room)
    (program : Program) : ∃ front back executed result last,
      program.statements = front ++ back ∧ Stmt.Reaches m.env.value? front back ∧
      none ∉ Stmt.printed m.env.value? front.reverse ∧
      (program.exec m).value = (result, last) ∧
      Stmt.EndsWithin m room front back executed result last ∧
      ∀ name, (∀ stmt ∈ executed, stmt.binder? ≠ some name) →
        last.env.value? name = m.env.value? name := by
  have hends : ∃ front back executed result last, program.statements = front ++ back ∧
      Stmt.Reaches m.env.value? front back ∧ (program.exec m).value = (result, last) ∧
      Stmt.EndsWithin m room front back executed result last := by
    cases hrun : (program.exec m).value with
    | mk result last =>
      cases result with
      | ok _ =>
        exact ⟨program.statements,[],program.statements,_,_,by simp,
          ⟨Stmt.sound_of_execAll hrun,by simp⟩,rfl,Stmt.endsWithin_of_ok hroom hrun⟩
      | error e =>
        obtain ⟨front,stmt,back,mid,hsplit,hfront,hstmt⟩ := execAll_error hrun
        have hsound := Stmt.sound_of_execAll hfront
        have hdoes := stmt.does_exec mid
        rw [hstmt] at hdoes
        cases hdoes with
        | unbound hoperand hnone =>
          refine ⟨front,stmt :: back,front,_,_,hsplit,⟨hsound,?_⟩,rfl,
            Stmt.endsWithin_of_unbound hroom hfront hoperand back⟩
          intro other later heq
          cases heq
          exact (Stmt.dangles_iff hfront).mpr ⟨_,_,hoperand,hnone⟩
        | @full operand span value _ _ hvalue hline =>
          have hstmt : ¬ Stmt.Dangles m.env.value? front (.print operand span) :=
            Stmt.not_dangles_of_value? hfront rfl hvalue
          -- the run ends here, but the statements go on to the first one that dangles
          obtain ⟨middle,rest,rfl,hreaches⟩ :=
            (Stmt.sound_concat.mpr ⟨hsound,hstmt⟩).exists_reaches back
          rw [List.append_assoc, List.singleton_append] at hreaches
          exact ⟨_,rest,front,_,_,by simp [hsplit],hreaches,rfl,
            Stmt.endsWithin_of_full hroom hfront hvalue hline middle rest⟩
  obtain ⟨front,back,executed,result,last,hsplit,hreaches,hrun,hends⟩ := hends
  refine ⟨front,back,executed,result,last,hsplit,hreaches,
    hreaches.sound.none_not_mem_printed,hrun,hends,?_⟩
  intro name hname
  rw [hends.values, Stmt.valueAfter_of_not_mem]
  intro stmt hmem
  exact hname stmt (List.mem_reverse.mp hmem)

/-- The line of an `é` is cut inside the character, so that the name without a value is not found.
-/
theorem Program.exec_cut_inside_character : ∃ (m last : Machine) (program : Program)
    (front back executed : List Stmt), m.sink.room = some 1 ∧
      program.statements = [.bind "a" (some (.text "é" .atStart)) .atStart,
        .print (.name "a" .atStart) .atStart, .bind "b" none .atStart,
        .print (.name "c" .atStart) .atStart] ∧
      program.statements = front ++ back ∧ Stmt.Reaches m.env.value? front back ∧
      (program.exec m).value = (.error m.sink.full, last) ∧
      Stmt.EndsWithin m 1 front back executed (.error m.sink.full) last ∧
      last.sink.written = [0xC3] ∧ last.env.value? "a" = some (.text "é") ∧
      last.env.value? "b" = none := by
  let m : Machine := ⟨{}, { room := some 1 }⟩
  let program : Program := ⟨[.bind "a" (some (.text "é" .atStart)) .atStart,
    .print (.name "a" .atStart) .atStart, .bind "b" none .atStart,
    .print (.name "c" .atStart) .atStart], .atStart⟩
  have heval : (program.exec m).value = (.error m.sink.full,
      ⟨⟨["a"], [("a", .text "é")]⟩, { written := [0xC3], room := some 0 }⟩) := by decide +kernel
  obtain ⟨front,back,executed,result,last,hsplit,hreaches,_,hrun,hends,_⟩ :=
    exec_within_room m rfl program
  obtain ⟨rfl,rfl⟩ := Prod.mk.inj (hrun.symm.trans heval)
  exact ⟨m,_,program,front,back,executed,rfl,rfl,hsplit,hreaches,heval,hends,rfl,rfl,rfl⟩

end LetPrint
