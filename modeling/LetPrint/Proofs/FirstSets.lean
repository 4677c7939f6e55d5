import LetPrint.Grammar.First
import LetPrint.Proofs.Derivation
import LetPrint.Proofs.Reach
import Mathlib.Data.List.Perm.Subperm

/-! # First sets miss nothing

The rounds for nullable nonterminals reach their fixpoint, and the walk over leading symbols reaches
all that can be reached. So whatever begins a word derived from symbols is in their first set.
-/
namespace LetPrint

namespace Grammar
variable {g : Grammar}

theorem allIn_iff {known : List NonTerminal} {xs : List Symbol} :
    allIn known xs = true ↔ ∀ x ∈ xs, ∃ a ∈ known, x = .nonTerminal a := by
  simp only [allIn, List.all_eq_true]
  refine forall₂_congr fun x _ => ?_
  cases x with
  | terminal t => simp
  | nonTerminal a => simp

theorem allIn_append {known : List NonTerminal} {xs ys : List Symbol} :
    allIn known (xs ++ ys) = true ↔ allIn known xs = true ∧ allIn known ys = true := by
  simp only [allIn_iff, List.mem_append, or_imp, forall_and]

theorem mem_nullableRound {known : List NonTerminal} {a : NonTerminal} :
    a ∈ g.nullableRound known ↔ ∃ r ∈ g.productions, r.lhs = a ∧ allIn known r.rhs = true := by
  simp [nullableRound]

theorem nullableRound_mono {known more : List NonTerminal} (h : known ⊆ more) :
    g.nullableRound known ⊆ g.nullableRound more := by
  intro a ha
  obtain ⟨r,hr,hl,hin⟩ := mem_nullableRound.mp ha
  refine mem_nullableRound.mpr ⟨r,hr,hl,allIn_iff.mpr ?_⟩
  intro x hx
  obtain ⟨b,hb,he⟩ := allIn_iff.mp hin x hx
  exact ⟨b,h hb,he⟩

theorem nullableAfter_subset (n : ℕ) : g.nullableAfter n ⊆ g.nullableAfter (n + 1) := by
  induction n with
  | zero => simp [nullableAfter]
  | succ n ih => exact nullableRound_mono ih

/-- Two rounds are filters of the same list, so a round that is no longer than the last is the
same. -/
theorem nullableRound_eq_of_length_le {known more : List NonTerminal} (h : known ⊆ more)
    (hlen : (g.nullableRound more).length ≤ (g.nullableRound known).length) :
    g.nullableRound more = g.nullableRound known := by
  have hsub : (g.nullableRound known).Sublist (g.nullableRound more) := by
    refine List.monotone_filter_right _ fun a ha => ?_
    have hm : a ∈ g.nullableRound known := List.mem_filter.mpr ⟨a.mem_all,ha⟩
    exact (List.mem_filter.mp (nullableRound_mono h hm)).2
  exact (hsub.eq_of_length_le hlen).symm

theorem nullableAfter_stable_or (n : ℕ) :
    g.nullableAfter (n + 1) = g.nullableAfter n ∨ n < (g.nullableAfter (n + 1)).length := by
  induction n with
  | zero =>
    cases h : g.nullableAfter 1 with
    | nil => exact Or.inl rfl
    | cons a rest => exact Or.inr (by simp)
  | succ n ih =>
    rcases ih with he | hlt
    · exact Or.inl (congrArg g.nullableRound he)
    · by_cases hlen : (g.nullableAfter (n + 1 + 1)).length ≤ (g.nullableAfter (n + 1)).length
      · exact Or.inl (nullableRound_eq_of_length_le (nullableAfter_subset n) hlen)
      · exact Or.inr (by omega)

theorem nullableRound_nullable : g.nullableRound g.nullable = g.nullable := by
  rcases nullableAfter_stable_or (g := g) NonTerminal.all.length with h | h
  · exact h
  · have hle : (g.nullableAfter (NonTerminal.all.length + 1)).length ≤ NonTerminal.all.length :=
      List.length_filter_le _ _
    omega

theorem mem_nullable_of_allIn {r : Rule} (hr : r ∈ g.productions)
    (h : allIn g.nullable r.rhs = true) : r.lhs ∈ g.nullable := by
  rw [← nullableRound_nullable]
  exact mem_nullableRound.mpr ⟨r,hr,rfl,h⟩

theorem Produces.allIn_nullable {u v : List Symbol} (h : g.Produces u v)
    (hv : allIn g.nullable v = true) : allIn g.nullable u = true := by
  cases h with
  | replace front back hr =>
    rw [allIn_append, allIn_append] at hv
    obtain ⟨⟨hf,hrhs⟩,hb⟩ := hv
    refine allIn_append.mpr ⟨hf,allIn_iff.mpr ?_⟩
    intro x hx
    rcases List.mem_cons.mp hx with rfl | hx
    · exact ⟨_,mem_nullable_of_allIn hr hrhs,rfl⟩
    · exact allIn_iff.mp hb x hx

theorem Derives.allIn_nullable {u v : List Symbol} (h : g.Derives u v)
    (hv : allIn g.nullable v = true) : allIn g.nullable u = true := by
  induction h using Relation.ReflTransGen.head_induction_on with
  | refl => exact hv
  | head hp _ ih => exact hp.allIn_nullable ih

theorem mem_leading_append {known : List NonTerminal} {xs ys : List Symbol} {y : Symbol} :
    y ∈ leading known (xs ++ ys) ↔
      y ∈ leading known xs ∨ allIn known xs = true ∧ y ∈ leading known ys := by
  induction xs with
  | nil => simp [leading, allIn]
  | cons x xs ih =>
    cases x with
    | terminal t => simp [leading, allIn]
    | nonTerminal a =>
      by_cases ha : a ∈ known
      · have hall : allIn known (.nonTerminal a :: xs) = allIn known xs := by simp [allIn, ha]
        simp only [List.cons_append, leading, if_pos ha, List.mem_cons, ih, hall, or_assoc]
      · have hall : allIn known (.nonTerminal a :: xs) = false := by simp [allIn, ha]
        simp [leading, ha, hall]

/-- One symbol leads to another through the productions of nonterminals. -/
def Leads (g : Grammar) : Symbol → Symbol → Prop :=
  Relation.ReflTransGen fun x y => y ∈ g.leadsTo g.nullable x

/-- A leading symbol after a step was one before, or is led to by one. -/
theorem Produces.exists_leading {u v : List Symbol} (h : g.Produces u v) {y : Symbol}
    (hy : y ∈ leading g.nullable v) : ∃ x ∈ leading g.nullable u, g.Leads x y := by
  cases h with
  | @replace front back r hr =>
    have hmid : allIn g.nullable front = true → Symbol.nonTerminal r.lhs ∈
        leading g.nullable (front ++ .nonTerminal r.lhs :: back) := by
      intro hf
      exact mem_leading_append.mpr (Or.inr ⟨hf,by simp [leading]⟩)
    rw [List.append_assoc, mem_leading_append, mem_leading_append] at hy
    rcases hy with hy | ⟨hf,hy | ⟨hrhs,hy⟩⟩
    · exact ⟨y,mem_leading_append.mpr (Or.inl hy),Relation.ReflTransGen.refl⟩
    · refine ⟨_,hmid hf,Relation.ReflTransGen.single ?_⟩
      simp only [leadsTo, List.mem_flatMap, List.mem_filter, decide_eq_true_eq]
      exact ⟨r,⟨hr,rfl⟩,hy⟩
    · refine ⟨y,mem_leading_append.mpr (Or.inr ⟨hf,?_⟩),Relation.ReflTransGen.refl⟩
      simp [leading, mem_nullable_of_allIn hr hrhs, hy]

theorem Derives.exists_leading {u v : List Symbol} (h : g.Derives u v) {y : Symbol}
    (hy : y ∈ leading g.nullable v) : ∃ x ∈ leading g.nullable u, g.Leads x y := by
  induction h using Relation.ReflTransGen.head_induction_on with
  | refl => exact ⟨y,hy,Relation.ReflTransGen.refl⟩
  | head hp _ ih =>
    obtain ⟨z,hz,hzy⟩ := ih
    obtain ⟨x,hx,hxz⟩ := hp.exists_leading hz
    exact ⟨x,hx,Relation.ReflTransGen.trans hxz hzy⟩

theorem length_le_of_nodup_symbols {l : List Symbol} (h : l.Nodup) :
    l.length ≤ Symbol.all.length :=
  (List.subperm_of_subset h fun x _ => x.mem_all).length_le

theorem mem_firstOf_of_leads {a : NonTerminal} {t : Terminal}
    (h : g.Leads (.nonTerminal a) (.terminal t)) : t ∈ g.firstOf g.nullable a := by
  have hreach : ∀ y, g.Leads (.nonTerminal a) y →
      y ∈ Reach.closure (g.leadsTo g.nullable) Symbol.all.length [.nonTerminal a] := by
    intro y hy
    induction hy with
    | refl => exact Reach.seed_mem_closure (by simp)
    | tail _ hz ih =>
      exact Reach.closure_closed (P := fun _ => True) (by simp) (by simp)
        (fun l hl _ => length_le_of_nodup_symbols hl) ih hz
  simp only [firstOf, List.mem_filter, t.mem_all, true_and, decide_eq_true_eq]
  exact hreach _ h

end Grammar

namespace FirstSets
variable {g : Grammar}

@[simp] theorem nullable_ofGrammar : (ofGrammar g).nullable = g.nullable := by
  simp only [ofGrammar]

@[simp] theorem get_ofGrammar (a : NonTerminal) : (ofGrammar g).get a = g.firstOf g.nullable a := by
  simp only [get, ofGrammar, List.lookup_graph _ a.mem_all, Option.getD_some]

@[simp] theorem mem_ofSequence {sets : FirstSets} {xs : List Symbol} {after t : Terminal} :
    t ∈ sets.ofSequence xs after ↔ t ∈ sets.beginnings after xs := by
  simp [ofSequence]

theorem mem_beginnings_iff {sets : FirstSets} {after t : Terminal} {xs : List Symbol} :
    t ∈ sets.beginnings after xs ↔
      (∃ a, .nonTerminal a ∈ Grammar.leading sets.nullable xs ∧ t ∈ sets.get a) ∨
      .terminal t ∈ Grammar.leading sets.nullable xs ∨
      Grammar.allIn sets.nullable xs = true ∧ t = after := by
  induction xs with
  | nil => simp [beginnings, Grammar.leading, Grammar.allIn]
  | cons x xs ih =>
    cases x with
    | terminal u => simp [beginnings, Grammar.leading, Grammar.allIn]
    | nonTerminal a =>
      by_cases ha : a ∈ sets.nullable
      · have hall : Grammar.allIn sets.nullable (.nonTerminal a :: xs) =
            Grammar.allIn sets.nullable xs := by simp [Grammar.allIn, ha]
        simp only [beginnings, Grammar.leading, if_pos ha, List.mem_append, ih, hall,
          List.mem_cons, Symbol.nonTerminal.injEq, or_and_right, exists_or, exists_eq_left,
          reduceCtorEq, false_or, or_assoc]
      · have hall : Grammar.allIn sets.nullable (.nonTerminal a :: xs) = false := by
          simp [Grammar.allIn, ha]
        simp [beginnings, Grammar.leading, ha, hall]

/-- The first terminal of a derived word, or what comes after an empty one, is among the
beginnings. -/
theorem headD_mem_ofSequence {xs : List Symbol} {word : List Terminal} (after : Terminal)
    (h : g.Derives xs (word.map Symbol.terminal)) :
    word.headD after ∈ (ofGrammar g).ofSequence xs after := by
  rw [mem_ofSequence, mem_beginnings_iff]
  cases word with
  | nil => exact Or.inr (Or.inr ⟨Grammar.Derives.allIn_nullable h rfl,rfl⟩)
  | cons t rest =>
    have ht : Symbol.terminal t ∈ Grammar.leading g.nullable ((t :: rest).map .terminal) := by
      simp [Grammar.leading]
    obtain ⟨x,hx,hxt⟩ := Grammar.Derives.exists_leading h ht
    cases x with
    | nonTerminal a =>
      exact Or.inl ⟨a,hx,by simpa using Grammar.mem_firstOf_of_leads hxt⟩
    | terminal u =>
      have hu : Symbol.terminal u = .terminal t := by
        rcases Relation.ReflTransGen.cases_head hxt with he | ⟨y,hy,_⟩
        · exact he
        · simp [Grammar.leadsTo] at hy
      exact Or.inr (Or.inl (hu ▸ hx))

/-- Whether anything begins symbols does not depend on what comes after them. -/
theorem exists_mem_ofSequence {sets : FirstSets} {xs : List Symbol} {after t : Terminal}
    (other : Terminal) (h : t ∈ sets.ofSequence xs after) : ∃ u, u ∈ sets.ofSequence xs other := by
  simp only [mem_ofSequence, mem_beginnings_iff] at h ⊢
  rcases h with h | h | ⟨h,_⟩
  · exact ⟨t,Or.inl h⟩
  · exact ⟨t,Or.inr (Or.inl h)⟩
  · exact ⟨other,Or.inr (Or.inr ⟨h,rfl⟩)⟩

end FirstSets

end LetPrint
