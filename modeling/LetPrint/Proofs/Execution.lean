import LetPrint.Evaluation
import LetPrint.Proofs.Environments
import Mathlib.Data.List.Induction

/-! # What statements do

What one statement can do is said once; what holds before a run of statements and is kept by each of
them holds after the run. The value of a name is then found by looking back for its latest binding,
without any environment that changes on the way.
-/
namespace LetPrint

namespace Sink

/-- Two sinks that fail in the same ways. -/
structure SameFaults (sink other : Sink) : Prop where
  room_eq : other.room.isSome = sink.room.isSome
  flushFails_eq : other.flushFails = sink.flushFails
  full_eq : other.full = sink.full
  flushFailed_eq : other.flushFailed = sink.flushFailed

theorem SameFaults.refl (sink : Sink) : sink.SameFaults sink := ⟨rfl,rfl,rfl,rfl⟩

theorem SameFaults.trans {a b c : Sink} (h : a.SameFaults b) (h' : b.SameFaults c) :
    a.SameFaults c :=
  ⟨h'.room_eq.trans h.room_eq,h'.flushFails_eq.trans h.flushFails_eq,
    h'.full_eq.trans h.full_eq,h'.flushFailed_eq.trans h.flushFailed_eq⟩

theorem sameFaults_writeLine (sink : Sink) (text : String) :
    sink.SameFaults (sink.writeLine text).2 := by
  unfold writeLine writeBytes
  cases hroom : sink.room with
  | none => exact ⟨by simp [hroom],rfl,rfl,rfl⟩
  | some room => exact ⟨by simp [hroom],rfl,rfl,rfl⟩

theorem writeLine_error {sink : Sink} {text : String} {e : Error}
    (h : (sink.writeLine text).1 = .error e) : e = sink.full ∧ sink.room.isSome = true := by
  unfold writeLine writeBytes at h
  cases hroom : sink.room with
  | none =>
    rw [hroom] at h
    cases h
  | some room =>
    simp only [hroom] at h
    split_ifs at h
    cases h
    exact ⟨rfl,rfl⟩

theorem flush_error {sink : Sink} {e : Error} (h : sink.flush = .error e) :
    e = sink.flushFailed ∧ sink.flushFails = true := by
  unfold flush at h
  split_ifs at h with hfails
  cases h
  exact ⟨rfl,hfails⟩

end Sink

def Expr.value? (values : String → Option Value) : Expr → Option Value
  | text content _ => some (.text content)
  | undefined _ => some .undefined
  | name identifier _ => values identifier

def Expr.initial? (values : String → Option Value) : Option Expr → Option Value
  | some e => e.value? values
  | none => some .undefined

theorem Expr.eval_cases (env : Environment) (e : Expr) :
    (∃ value, e.value? env.value? = some value ∧ e.eval env = .ok value) ∨
      ∃ identifier span, e = .name identifier span ∧ env.value? identifier = none ∧
        e.eval env = .error (.located (.identifierNotDefined identifier) span.start) := by
  cases e with
  | text content span => exact Or.inl ⟨_,rfl,rfl⟩
  | undefined span => exact Or.inl ⟨_,rfl,rfl⟩
  | name identifier span =>
    cases hv : env.value? identifier with
    | some value => exact Or.inl ⟨value,hv,by simp [eval, Environment.get, hv]⟩
    | none => exact Or.inr ⟨identifier,span,rfl,hv,by simp [eval, Environment.get, hv]⟩

namespace Stmt

def operand? : Stmt → Option Expr
  | print operand _ => some operand
  | bind _ initializer _ => initializer

def binder? : Stmt → Option String
  | print _ _ => none
  | bind identifier _ _ => some identifier

@[simp] theorem binder?_print (operand : Expr) (span : Span) :
    (print operand span).binder? = none := rfl

@[simp] theorem binder?_bind (identifier : String) (initializer : Option Expr) (span : Span) :
    (bind identifier initializer span).binder? = some identifier := rfl

/-- The value of a name after statements, the latest first: its latest binding gives it, with the
values that names had there, or else it is the old one. -/
def valueAfter (old : String → Option Value) : List Stmt → String → Option Value
  | [], name => old name
  | print _ _ :: earlier, name => valueAfter old earlier name
  | bind identifier initializer _ :: earlier, name =>
    if name = identifier then Expr.initial? (valueAfter old earlier) initializer
    else valueAfter old earlier name

/-- Everything that a statement can do, with what has to be the case for it. -/
inductive Does (m : Machine) : Stmt → Except Error Value × Machine → Prop
  | unbound {stmt : Stmt} {identifier : String} {span : Span}
    (operand : stmt.operand? = some (.name identifier span))
    (value : m.env.value? identifier = none) :
    Does m stmt (.error (.located (.identifierNotDefined identifier) span.start), m)
  | full {operand : Expr} {span : Span} {value : Value} {error : Error} {sink : Sink}
    (operandValue : operand.value? m.env.value? = some value)
    (line : m.sink.writeLine value.render = (.error error, sink)) :
    Does m (.print operand span) (.error error, { m with sink := sink })
  | print {operand : Expr} {span : Span} {value : Value} {sink : Sink}
    (operandValue : operand.value? m.env.value? = some value)
    (line : m.sink.writeLine value.render = (.ok (), sink)) :
    Does m (.print operand span) (.ok .undefined, { m with sink := sink })
  | bind {identifier : String} {initializer : Option Expr} {span : Span} {value : Value}
    (initial : Expr.initial? m.env.value? initializer = some value) :
    Does m (.bind identifier initializer span)
      (.ok .undefined, { m with env := m.env.bind identifier value })

theorem does_print (m : Machine) (operand : Expr) (span : Span) :
    Does m (.print operand span) ((print operand span).exec m).value := by
  rcases operand.eval_cases m.env with ⟨value,hv,he⟩ | ⟨identifier,place,rfl,hv,he⟩
  · simp only [exec, he, Machine.print]
    cases hline : m.sink.writeLine value.render with
    | mk result sink =>
      cases result with
      | error error => exact .full hv hline
      | ok _ => exact .print hv hline
  · simp only [exec, he]
    exact .unbound rfl hv

theorem does_bind (m : Machine) (identifier : String) (initializer : Option Expr) (span : Span) :
    Does m (.bind identifier initializer span) ((bind identifier initializer span).exec m).value := by
  cases initializer with
  | none => exact .bind rfl
  | some e =>
    rcases e.eval_cases m.env with ⟨value,hv,he⟩ | ⟨other,place,rfl,hv,he⟩
    · simp only [exec, Expr.evalInitializer, he]
      exact .bind hv
    · simp only [exec, Expr.evalInitializer, he]
      exact .unbound rfl hv

theorem does_exec (m : Machine) (stmt : Stmt) : stmt.Does m (stmt.exec m).value := by
  cases stmt with
  | print operand span => exact does_print m operand span
  | bind identifier initializer span => exact does_bind m identifier initializer span

/-- A statement that fails leaves the environment alone. It refers to a name without a value, or
the sink is full. -/
theorem exec_error {m m' : Machine} {stmt : Stmt} {e : Error}
    (h : (stmt.exec m).value = (.error e, m')) : m'.env = m.env ∧
      ((∃ identifier span, stmt.operand? = some (.name identifier span) ∧
        m.env.value? identifier = none) ∨ e = m.sink.full ∧ m.sink.room.isSome = true) := by
  have hdoes := does_exec m stmt
  rw [h] at hdoes
  cases hdoes with
  | unbound hoperand hvalue => exact ⟨rfl,Or.inl ⟨_,_,hoperand,hvalue⟩⟩
  | full _ hline =>
    exact ⟨rfl,Or.inr (Sink.writeLine_error (congrArg Prod.fst hline))⟩

end Stmt

theorem value_execAll_cons (m : Machine) (stmt : Stmt) (rest : List Stmt) :
    (execAll m (stmt :: rest)).value =
      match (stmt.exec m).value with
      | (.error e, m) => (.error e, m)
      | (.ok _, m) => (execAll m rest).value := by
  rw [execAll, Traced.value_bind, Traced.value_bind]
  cases (stmt.exec m).value with
  | mk result m => cases result <;> rfl

theorem execAll_concat {front : List Stmt} {stmt : Stmt} {m m' : Machine}
    (h : (execAll m (front ++ [stmt])).value = (.ok (), m')) : ∃ mid value,
      (execAll m front).value = (.ok (), mid) ∧ (stmt.exec mid).value = (.ok value, m') := by
  induction front generalizing m with
  | nil =>
    rw [List.nil_append, value_execAll_cons] at h
    cases hs : (stmt.exec m).value with
    | mk result mid =>
      rw [hs] at h
      cases result with
      | error e => cases h
      | ok value =>
        cases h
        exact ⟨m,value,rfl,hs⟩
  | cons first front ih =>
    rw [List.cons_append, value_execAll_cons] at h
    cases hs : (first.exec m).value with
    | mk result mid =>
      rw [hs] at h
      cases result with
      | error e => cases h
      | ok value =>
        obtain ⟨last,value',hlast,hstmt⟩ := ih h
        refine ⟨last,value',?_,hstmt⟩
        rw [value_execAll_cons, hs]
        exact hlast

/-- What holds before a run and is kept by every statement that succeeds holds after a run that
succeeds. -/
theorem execAll_induction {P : List Stmt → Machine → Prop} {statements : List Stmt} {m m' : Machine}
    (h : (execAll m statements).value = (.ok (), m')) (hm : P [] m)
    (hstep : ∀ {front stmt mid next value}, (execAll m front).value = (.ok (), mid) → P front mid →
      stmt.Does mid (.ok value, next) → P (front ++ [stmt]) next) : P statements m' := by
  induction statements using List.reverseRecOn generalizing m' with
  | nil =>
    cases h
    exact hm
  | append_singleton front stmt ih =>
    obtain ⟨mid,value,hfront,hstmt⟩ := execAll_concat h
    have hdoes := stmt.does_exec mid
    rw [hstmt] at hdoes
    exact hstep hfront (ih hfront) hdoes

theorem execAll_error {statements : List Stmt} {m m' : Machine} {e : Error}
    (h : (execAll m statements).value = (.error e, m')) : ∃ front stmt back mid,
      statements = front ++ stmt :: back ∧ (execAll m front).value = (.ok (), mid) ∧
        (stmt.exec mid).value = (.error e, m') := by
  induction statements generalizing m with
  | nil => cases h
  | cons stmt rest ih =>
    rw [value_execAll_cons] at h
    cases hs : (stmt.exec m).value with
    | mk result mid =>
      rw [hs] at h
      cases result with
      | error error =>
        cases h
        exact ⟨[],stmt,rest,m,rfl,rfl,hs⟩
      | ok value =>
        obtain ⟨front,failing,back,last,rfl,hfront,hfailing⟩ := ih h
        refine ⟨stmt :: front,failing,back,last,rfl,?_,hfailing⟩
        rw [value_execAll_cons, hs]
        exact hfront

section Run
variable {statements : List Stmt} {m m' : Machine}
  (h : (execAll m statements).value = (.ok (), m'))
include h

theorem value?_execAll (name : String) :
    m'.env.value? name = Stmt.valueAfter m.env.value? statements.reverse name := by
  revert name
  refine execAll_induction (P := fun front m' => ∀ name, m'.env.value? name =
    Stmt.valueAfter m.env.value? front.reverse name) h (fun _ => rfl) ?_
  intro front stmt mid next value _ hmid hdoes name
  -- the statement just executed is the head of the reversed list, where `valueAfter` looks first
  rw [List.reverse_concat]
  cases hdoes with
  | print _ _ => exact hmid name
  | bind hinitial =>
    rw [Environment.value?_bind, Stmt.valueAfter, ← hmid name, ← hinitial, funext hmid]

/-- Names get whatever a binding gives its name from the statements that bind them. -/
theorem binders_execAll {P : Environment → Prop} {name : String}
    (hbind : ∀ env other value, P (env.bind other value) ↔ P env ∨ name = other) :
    P m'.env ↔ P m.env ∨ ∃ stmt ∈ statements, stmt.binder? = some name := by
  refine execAll_induction (P := fun front m' => P m'.env ↔ P m.env ∨
    ∃ stmt ∈ front, stmt.binder? = some name) h (by simp) ?_
  intro front stmt mid next value _ hmid hdoes
  cases hdoes with
  | print _ _ => simp [hmid]
  | @bind identifier _ _ _ _ =>
    have hname : identifier = name ↔ name = identifier := eq_comm
    simp [hbind, hmid, hname, or_assoc]

theorem isBound_execAll (name : String) : m'.env.isBound name = true ↔
    m.env.isBound name = true ∨ ∃ stmt ∈ statements, stmt.binder? = some name :=
  binders_execAll (P := fun env => env.isBound name = true) h fun _ _ _ => Environment.isBound_bind

theorem mem_declared_execAll (name : String) : name ∈ m'.env.declared ↔
    name ∈ m.env.declared ∨ ∃ stmt ∈ statements, stmt.binder? = some name :=
  binders_execAll (P := fun env => name ∈ env.declared) h fun _ _ _ => Environment.mem_declared_bind

theorem sound_execAll (hm : m.env.Sound) : m'.env.Sound := by
  intro name hname
  rw [mem_declared_execAll h]
  rcases (isBound_execAll h name).mp hname with hbound | hbinder
  · exact Or.inl (hm name hbound)
  · exact Or.inr hbinder

theorem sameFaults_execAll : m.sink.SameFaults m'.sink := by
  refine execAll_induction (P := fun _ m' => m.sink.SameFaults m'.sink) h (.refl m.sink) ?_
  intro front stmt mid next value _ hmid hdoes
  cases hdoes with
  | @print _ _ printed _ _ hline =>
    have hfaults := mid.sink.sameFaults_writeLine printed.render
    rw [hline] at hfaults
    exact hmid.trans hfaults
  | bind _ => exact hmid

end Run

end LetPrint
