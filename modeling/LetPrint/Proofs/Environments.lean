import LetPrint.Environment
import Mathlib.Data.List.Basic

/-! # Laws of environments

A name has the value of its last binding, and bound names are declared, whatever is done to an
environment. So a rollback gives back exactly the environment of its checkpoint when nothing but
declarations came after it.
-/
namespace LetPrint

namespace Environment
variable {env after last : Environment} {name other : String} {names : List String}

theorem mem_addName : other ∈ addName name names ↔ other ∈ names ∨ other = name := by
  unfold addName
  split_ifs with h
  · constructor
    · exact Or.inl
    · rintro (hmem | rfl)
      · exact hmem
      · exact h
  · simp

theorem lookup_putValue (name other : String) (value : Value) (bindings : List (String × Value)) :
    (putValue name value bindings).lookup other =
      if other = name then some value else bindings.lookup other := by
  induction bindings with
  | nil =>
    rw [putValue, List.lookup_cons]
    split_ifs with h
    · simp [h]
    · rw [beq_false_of_ne h]
  | cons entry rest ih =>
    obtain ⟨key,old⟩ := entry
    rw [putValue]
    split_ifs with hkey hother hother
    · simp [hother]
    · subst hkey
      simp only [List.lookup_cons, beq_false_of_ne hother]
    · subst hother
      rw [List.lookup_cons, beq_false_of_ne (Ne.symm hkey), ih, if_pos rfl]
    · rw [List.lookup_cons, List.lookup_cons, ih, if_neg hother]

theorem value?_bind (env : Environment) (name other : String) (value : Value) :
    (env.bind name value).value? other = if other = name then some value else env.value? other :=
  lookup_putValue name other value env.bindings

@[simp] theorem value?_rollback (env : Environment) (names : List String) (other : String) :
    (env.rollback names).value? other = env.value? other := rfl

@[simp] theorem isBound_rollback (env : Environment) (names : List String) (other : String) :
    (env.rollback names).isBound other = env.isBound other := rfl

theorem isBound_bind {value : Value} : (env.bind name value).isBound other = true ↔
    env.isBound other = true ∨ other = name := by
  unfold isBound
  rw [value?_bind]
  split_ifs with h <;> simp [h]

theorem mem_declared_declare :
    other ∈ (env.declare name).declared ↔ other ∈ env.declared ∨ other = name := mem_addName

theorem mem_declared_bind {value : Value} :
    other ∈ (env.bind name value).declared ↔ other ∈ env.declared ∨ other = name := mem_addName

theorem mem_declared_rollback : other ∈ (env.rollback names).declared ↔
    other ∈ env.declared ∧ (other ∈ names ∨ env.isBound other = true) := by
  simp [rollback]

/-- Every bound name is declared. -/
def Sound (env : Environment) : Prop := ∀ name, env.isBound name = true → name ∈ env.declared

/-- The declared names are the bound ones. -/
def Settled (env : Environment) : Prop := ∀ name, name ∈ env.declared ↔ env.isBound name = true

theorem Settled.sound (h : env.Settled) : env.Sound := fun name hname => (h name).mpr hname

/-- What the operations on environments lead to, whatever names a rollback is told to keep. -/
inductive Reachable : Environment → Prop
  | empty : Reachable {}
  | declare {env : Environment} (h : Reachable env) (name : String) : Reachable (env.declare name)
  | bind {env : Environment} (h : Reachable env) (name : String) (value : Value) :
    Reachable (env.bind name value)
  | rollback {env : Environment} (h : Reachable env) (names : List String) :
    Reachable (env.rollback names)

theorem sound_empty : Sound {} := by
  intro name h
  cases h

theorem settled_empty : Settled {} := by
  intro name
  constructor
  · intro h
    cases h
  · intro h
    cases h

theorem Sound.declare (h : env.Sound) (name : String) : (env.declare name).Sound := by
  intro other hother
  exact mem_declared_declare.mpr (Or.inl (h other hother))

theorem Sound.bind (h : env.Sound) (name : String) (value : Value) :
    (env.bind name value).Sound := by
  intro other hother
  rw [mem_declared_bind]
  rcases isBound_bind.mp hother with hbound | rfl
  · exact Or.inl (h other hbound)
  · exact Or.inr rfl

theorem Settled.bind (h : env.Settled) (name : String) (value : Value) :
    (env.bind name value).Settled := by
  intro other
  rw [mem_declared_bind, isBound_bind, h other]

theorem Sound.rollback (h : env.Sound) (names : List String) : (env.rollback names).Sound := by
  intro other hother
  exact mem_declared_rollback.mpr ⟨h other hother,Or.inr hother⟩

theorem Reachable.sound (h : env.Reachable) : env.Sound := by
  induction h with
  | empty => exact sound_empty
  | declare _ name ih => exact ih.declare name
  | bind _ name value ih => exact ih.bind name value
  | rollback _ names ih => exact ih.rollback names

/-- Nothing but declarations of new names came after an environment. -/
structure Extends (env after : Environment) : Prop where
  bindings_eq : after.bindings = env.bindings
  declared_eq : ∃ names, after.declared = env.declared ++ names ∧ ∀ name ∈ names,
    name ∉ env.declared

theorem Extends.refl (env : Environment) : env.Extends env := ⟨rfl,[],by simp,by simp⟩

theorem Extends.trans (h : env.Extends after) (h' : after.Extends last) : env.Extends last := by
  obtain ⟨names,hnames,hnew⟩ := h.declared_eq
  obtain ⟨names',hnames',hnew'⟩ := h'.declared_eq
  refine ⟨h'.bindings_eq.trans h.bindings_eq,names ++ names',?_,?_⟩
  · rw [hnames', hnames, List.append_assoc]
  · intro name hmem
    rcases List.mem_append.mp hmem with hname | hname
    · exact hnew name hname
    · intro hold
      apply hnew' name hname
      rw [hnames]
      exact List.mem_append_left names hold

theorem extends_declare (env : Environment) (name : String) : env.Extends (env.declare name) := by
  refine ⟨rfl,?_⟩
  unfold declare addName
  split_ifs with h
  · exact ⟨[],by simp,by simp⟩
  · exact ⟨[name],rfl,by simpa using h⟩

theorem Extends.isBound_eq (h : env.Extends after) (name : String) :
    after.isBound name = env.isBound name := by
  unfold isBound value?
  rw [h.bindings_eq]

theorem rollback_of_extends (hs : env.Sound) (h : env.Extends after) :
    after.rollback env.checkpoint = env := by
  obtain ⟨names,hnames,hnew⟩ := h.declared_eq
  have hunbound : ∀ name ∈ names, after.isBound name = false := by
    intro name hname
    rw [h.isBound_eq, Bool.eq_false_iff]
    exact fun hbound => hnew name hname (hs name hbound)
  rw [rollback, h.bindings_eq, hnames, List.filter_append, List.filter_eq_self.mpr,
    List.filter_eq_nil_iff.mpr, List.append_nil]
  · intro name hname
    simp [checkpoint, hnew name hname, hunbound name hname]
  · intro name hname
    simp [checkpoint, hname]

end Environment

end LetPrint
