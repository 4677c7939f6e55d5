import LetPrint.Proofs.FirstSets

/-! # First sets hold nothing else

What the rounds find nullable derives the empty string, and what the walk over leading symbols
reaches is led to. So a terminal begins symbols exactly if a leading symbol leads to it, or if it
comes after them and all of them can be empty.
-/
namespace LetPrint

namespace Grammar
variable {g : Grammar}

/-- Every nonterminal of a right-hand side derives the empty string or something that begins with a
terminal. -/
def Grounded (g : Grammar) : Prop :=
  ∀ r ∈ g.productions, ∀ a, Symbol.nonTerminal a ∈ r.rhs →
    g.Derives [.nonTerminal a] [] ∨ ∃ t rest, g.Derives [.nonTerminal a] (.terminal t :: rest)

theorem allIn_cons {known : List NonTerminal} {x : Symbol} {xs : List Symbol} :
    allIn known (x :: xs) = true ↔ (∃ a ∈ known, x = .nonTerminal a) ∧ allIn known xs = true := by
  simp only [allIn_iff, List.forall_mem_cons]

theorem allIn_mono {known more : List NonTerminal} (h : known ⊆ more) {xs : List Symbol}
    (hxs : allIn known xs = true) : allIn more xs = true := by
  refine allIn_iff.mpr fun x hx => ?_
  obtain ⟨a,ha,he⟩ := allIn_iff.mp hxs x hx
  exact ⟨a,h ha,he⟩

theorem nullableAfter_subset_nullable (k : ℕ) : g.nullableAfter k ⊆ g.nullable := by
  induction k with
  | zero => simp [nullableAfter]
  | succ k ih =>
    intro a ha
    rw [← nullableRound_nullable]
    exact nullableRound_mono ih ha

theorem derives_nil_of_forall {xs : List Symbol} (h : ∀ x ∈ xs, g.Derives [x] []) :
    g.Derives xs [] := by
  induction xs with
  | nil => exact Relation.ReflTransGen.refl
  | cons x xs ih =>
    have hx := h x List.mem_cons_self
    have hxs := ih fun y hy => h y (List.mem_cons_of_mem x hy)
    exact Derives.append hx hxs

theorem derives_nil_of_mem_nullableAfter {k : ℕ} {a : NonTerminal} (h : a ∈ g.nullableAfter k) :
    g.Derives [.nonTerminal a] [] := by
  induction k generalizing a with
  | zero => cases h
  | succ k ih =>
    obtain ⟨r,hr,rfl,hrhs⟩ := mem_nullableRound.mp h
    refine (derives_rhs hr).trans (derives_nil_of_forall fun x hx => ?_)
    obtain ⟨b,hb,rfl⟩ := allIn_iff.mp hrhs x hx
    exact ih hb

theorem derives_nil_iff {xs : List Symbol} : g.Derives xs [] ↔ allIn g.nullable xs = true := by
  constructor
  · intro h
    exact Derives.allIn_nullable h rfl
  · intro h
    refine derives_nil_of_forall fun x hx => ?_
    obtain ⟨a,ha,rfl⟩ := allIn_iff.mp h x hx
    exact derives_nil_of_mem_nullableAfter ha

theorem leads_of_mem_firstOf {a : NonTerminal} {t : Terminal}
    (h : t ∈ g.firstOf g.nullable a) : g.Leads (.nonTerminal a) (.terminal t) := by
  simp only [firstOf, List.mem_filter, t.mem_all, true_and, decide_eq_true_eq] at h
  refine Reach.closure_least (P := g.Leads (.nonTerminal a)) ?_ ?_ h
  · intro x hx
    obtain rfl := List.mem_singleton.mp hx
    exact Relation.ReflTransGen.refl
  · intro x hx y hy
    exact Relation.ReflTransGen.tail hx hy

theorem Leads.eq_of_terminal {s t : Terminal} (h : g.Leads (.terminal s) (.terminal t)) :
    s = t := by
  rcases Relation.ReflTransGen.cases_head h with he | ⟨y,hy,_⟩
  · exact Symbol.terminal.inj he
  · simp [leadsTo] at hy

theorem mem_leadsTo {x y : Symbol} : y ∈ g.leadsTo g.nullable x ↔
    ∃ r ∈ g.productions, .nonTerminal r.lhs = x ∧ y ∈ leading g.nullable r.rhs := by
  cases x with
  | terminal t => simp [leadsTo]
  | nonTerminal a => simp [leadsTo, and_assoc]

/-- Before a leading symbol there are symbols that can be empty only. -/
theorem exists_split_of_mem_leading {known : List NonTerminal} {xs : List Symbol} {x : Symbol}
    (h : x ∈ leading known xs) :
    ∃ front back, xs = front ++ x :: back ∧ allIn known front = true := by
  induction xs with
  | nil => cases h
  | cons y ys ih =>
    cases y with
    | terminal t =>
      obtain rfl := List.mem_singleton.mp h
      exact ⟨[],ys,rfl,rfl⟩
    | nonTerminal a =>
      rcases List.mem_cons.mp h with rfl | h
      · exact ⟨[],ys,rfl,rfl⟩
      · by_cases ha : a ∈ known
        · rw [if_pos ha] at h
          obtain ⟨front,back,rfl,hfront⟩ := ih h
          exact ⟨.nonTerminal a :: front,back,rfl,allIn_cons.mpr ⟨⟨a,ha,rfl⟩,hfront⟩⟩
        · rw [if_neg ha] at h
          cases h

theorem head_mem_leading (known : List NonTerminal) (x : Symbol) (xs : List Symbol) :
    x ∈ leading known (x :: xs) := by
  cases x <;> simp [leading]

end Grammar

namespace FirstSets
variable {g : Grammar} {xs ys : List Symbol} {after t : Terminal}

theorem mem_ofSequence_iff : t ∈ (ofGrammar g).ofSequence xs after ↔
    (∃ x ∈ Grammar.leading g.nullable xs, g.Leads x (.terminal t)) ∨
      Grammar.allIn g.nullable xs = true ∧ t = after := by
  rw [mem_ofSequence, mem_beginnings_iff, nullable_ofGrammar, ← or_assoc]
  refine or_congr_left ?_
  constructor
  · rintro (⟨a,ha,ht⟩ | ht)
    · rw [get_ofGrammar] at ht
      exact ⟨_,ha,Grammar.leads_of_mem_firstOf ht⟩
    · exact ⟨_,ht,Relation.ReflTransGen.refl⟩
  · rintro ⟨x,hx,hxt⟩
    cases x with
    | terminal s => exact Or.inr (hxt.eq_of_terminal ▸ hx)
    | nonTerminal a => exact Or.inl ⟨a,hx,by simpa using Grammar.mem_firstOf_of_leads hxt⟩

/-- Symbols that can be empty do not hide what begins the symbols behind them. -/
theorem mem_ofSequence_append (hxs : Grammar.allIn g.nullable xs = true)
    (h : t ∈ (ofGrammar g).ofSequence ys after) :
    t ∈ (ofGrammar g).ofSequence (xs ++ ys) after := by
  rw [mem_ofSequence_iff] at h ⊢
  rcases h with ⟨x,hx,hxt⟩ | ⟨hys,rfl⟩
  · exact Or.inl ⟨x,Grammar.mem_leading_append.mpr (Or.inr ⟨hxs,hx⟩),hxt⟩
  · exact Or.inr ⟨Grammar.allIn_append.mpr ⟨hxs,hys⟩,rfl⟩

theorem mem_ofSequence_of_leads {x : Symbol} (h : g.Leads x (.terminal t)) :
    t ∈ (ofGrammar g).ofSequence (x :: xs) after :=
  mem_ofSequence_iff.mpr (Or.inl ⟨x,Grammar.head_mem_leading _ x xs,h⟩)

theorem mem_ofSequence_of_allIn (hxs : Grammar.allIn g.nullable xs = true) :
    t ∈ (ofGrammar g).ofSequence xs t :=
  mem_ofSequence_iff.mpr (Or.inr ⟨hxs,rfl⟩)

/-- In a grounded grammar something begins every list of symbols behind a dot. -/
theorem exists_mem_ofSequence_of_forall (after : Terminal)
    (h : ∀ a, Symbol.nonTerminal a ∈ xs →
      g.Derives [.nonTerminal a] [] ∨ ∃ t rest, g.Derives [.nonTerminal a] (.terminal t :: rest)) :
    ∃ t, t ∈ (ofGrammar g).ofSequence xs after := by
  induction xs with
  | nil => exact ⟨after,mem_ofSequence_of_allIn rfl⟩
  | cons x xs ih =>
    cases x with
    | terminal t => exact ⟨t,mem_ofSequence_of_leads Relation.ReflTransGen.refl⟩
    | nonTerminal a =>
      rcases h a List.mem_cons_self with hnil | ⟨t,rest,hfirst⟩
      · obtain ⟨t,ht⟩ := ih fun b hb => h b (List.mem_cons_of_mem _ hb)
        exact ⟨t,mem_ofSequence_append (Grammar.derives_nil_iff.mp hnil) ht⟩
      · obtain ⟨x,hx,hxt⟩ := Grammar.Derives.exists_leading hfirst
          (Grammar.head_mem_leading _ (.terminal t) rest)
        refine ⟨t,mem_ofSequence_iff.mpr (Or.inl ⟨x,?_,hxt⟩)⟩
        rw [← List.singleton_append, Grammar.mem_leading_append]
        exact Or.inl hx

end FirstSets

end LetPrint
