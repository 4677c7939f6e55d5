import LetPrint.Proofs.Beginnings

/-! # First sets are exact

A nonterminal is nullable, and can begin with a terminal, exactly if a derivation says so. The same
sets come out of a joint loop: the productions are gone through in their order, each adds at once
what it tells from all that is known so far, and the loop ends with the first round that adds
nothing. What is known only grows and is finite, so such a round comes, and then every production
has been heard.
-/
namespace LetPrint

namespace Grammar
variable {g : Grammar}

theorem exists_derives_of_mem_leading {xs : List Symbol} {x : Symbol}
    (h : x ∈ leading g.nullable xs) : ∃ rest, g.Derives xs (x :: rest) := by
  obtain ⟨front,back,rfl,hfront⟩ := exists_split_of_mem_leading h
  exact ⟨back,Derives.append_right (derives_nil_iff.mpr hfront) (x :: back)⟩

theorem Leads.exists_derives {x y : Symbol} (h : g.Leads x y) :
    ∃ rest, g.Derives [x] (y :: rest) := by
  induction h with
  | refl => exact ⟨[],Relation.ReflTransGen.refl⟩
  | @tail y z _ hz ih =>
    obtain ⟨rest,hrest⟩ := ih
    obtain ⟨r,hr,rfl,hlead⟩ := mem_leadsTo.mp hz
    obtain ⟨back,hback⟩ := exists_derives_of_mem_leading hlead
    have hrule := (derives_rhs hr).trans hback
    exact ⟨back ++ rest,hrest.trans (Derives.append_right hrule rest)⟩

theorem leads_of_derives {a : NonTerminal} {y : Symbol} {rest : List Symbol}
    (h : g.Derives [.nonTerminal a] (y :: rest)) : g.Leads (.nonTerminal a) y := by
  obtain ⟨x,hx,hxy⟩ := h.exists_leading (head_mem_leading _ y rest)
  obtain rfl : x = .nonTerminal a := by simpa [leading] using hx
  exact hxy

theorem leading_mono {known more : List NonTerminal} (h : known ⊆ more) {xs : List Symbol}
    {x : Symbol} (hx : x ∈ leading known xs) : x ∈ leading more xs := by
  obtain ⟨front,back,rfl,hfront⟩ := exists_split_of_mem_leading hx
  exact mem_leading_append.mpr (Or.inr ⟨allIn_mono h hfront,head_mem_leading more x back⟩)

theorem mem_nullable_iff {a : NonTerminal} : a ∈ g.nullable ↔ g.Derives [.nonTerminal a] [] := by
  rw [derives_nil_iff]
  simp [allIn]

end Grammar

namespace FirstSets
variable {g : Grammar} {sets : FirstSets} {r : Rule} {k : NonTerminal × Option Terminal}

theorem mem_get_iff {a : NonTerminal} {t : Terminal} : t ∈ (ofGrammar g).get a ↔
    ∃ rest, g.Derives [.nonTerminal a] (.terminal t :: rest) := by
  rw [get_ofGrammar]
  constructor
  · intro h
    exact (Grammar.leads_of_mem_firstOf h).exists_derives
  · rintro ⟨rest,h⟩
    exact Grammar.mem_firstOf_of_leads (Grammar.leads_of_derives h)

theorem mem_ofSequence_iff_derives {xs : List Symbol} {after t : Terminal} :
    t ∈ (ofGrammar g).ofSequence xs after ↔
      ∃ rest, g.Derives (xs ++ [.terminal after]) (.terminal t :: rest) := by
  rw [mem_ofSequence_iff]
  constructor
  · rintro (⟨x,hx,hxt⟩ | ⟨hxs,rfl⟩)
    · obtain ⟨back,hback⟩ := Grammar.exists_derives_of_mem_leading hx
      obtain ⟨front,hfront⟩ := hxt.exists_derives
      have hall := hback.trans (Grammar.Derives.append_right hfront back)
      exact ⟨front ++ back ++ [.terminal after],Grammar.Derives.append_right hall _⟩
    · exact ⟨[],Grammar.Derives.append_right (Grammar.derives_nil_iff.mpr hxs) _⟩
  · rintro ⟨rest,h⟩
    obtain ⟨x,hx,hxt⟩ := h.exists_leading (Grammar.head_mem_leading _ (.terminal t) rest)
    rcases Grammar.mem_leading_append.mp hx with hx | ⟨hxs,hx⟩
    · exact Or.inl ⟨x,hx,hxt⟩
    · obtain rfl : x = .terminal after := by simpa [Grammar.leading] using hx
      exact Or.inr ⟨hxs,hxt.eq_of_terminal.symm⟩

/-- What sets know of a nonterminal: that it is nullable, or that it can begin with a terminal. -/
def knows (sets : FirstSets) : NonTerminal × Option Terminal → Bool
  | (a, none) => a ∈ sets.nullable
  | (a, some t) => t ∈ sets.get a

/-- The sets that know certain things and list them in order. -/
def ofKnown (known : NonTerminal × Option Terminal → Bool) : FirstSets :=
  ⟨NonTerminal.all.filter fun a => known (a, none),
   NonTerminal.all.map fun a => (a, Terminal.all.filter fun t => known (a, some t))⟩

/-- What a production tells of its nonterminal when the sets are known. -/
def tells (sets : FirstSets) (r : Rule) : NonTerminal × Option Terminal → Bool
  | (a, none) => a = r.lhs && Grammar.allIn sets.nullable r.rhs
  | (a, some t) => a = r.lhs && (Grammar.leading sets.nullable r.rhs).any fun
    | .terminal u => u = t
    | .nonTerminal b => t ∈ sets.get b

def revise (sets : FirstSets) (r : Rule) : FirstSets :=
  ofKnown fun k => sets.knows k || sets.tells r k

/-- One round through the productions of a grammar. -/
def round (g : Grammar) (sets : FirstSets) : FirstSets := g.productions.foldl revise sets

def rounds (g : Grammar) : ℕ → FirstSets
  | 0 => ofKnown fun _ => false
  | n + 1 => round g (rounds g n)

@[simp] theorem knows_ofKnown (known : NonTerminal × Option Terminal → Bool) :
    (ofKnown known).knows k = known k := by
  obtain ⟨a,_ | t⟩ := k
  · simp [knows, ofKnown]
  · simp [knows, ofKnown, get, List.lookup_graph _ a.mem_all]

theorem knows_revise :
    (sets.revise r).knows k = true ↔ sets.knows k = true ∨ sets.tells r k = true := by
  simp [revise]

def Tidy (sets : FirstSets) : Prop := sets = ofKnown sets.knows

theorem tidy_ofKnown (known : NonTerminal × Option Terminal → Bool) : (ofKnown known).Tidy := by
  rw [Tidy, show (ofKnown known).knows = known from funext fun k => knows_ofKnown known]

theorem Tidy.eq_of_knows {others : FirstSets} (h : sets.Tidy) (h' : others.Tidy)
    (he : ∀ k, sets.knows k = true ↔ others.knows k = true) : sets = others := by
  have hknows : sets.knows = others.knows := funext fun k => Bool.eq_iff_iff.mpr (he k)
  rw [h, h', hknows]

theorem tidy_foldl (rules : List Rule) (h : sets.Tidy) : (rules.foldl revise sets).Tidy := by
  induction rules generalizing sets with
  | nil => exact h
  | cons r rules ih => exact ih (tidy_ofKnown _)

theorem tidy_rounds (n : ℕ) : (rounds g n).Tidy := by
  induction n with
  | zero => exact tidy_ofKnown _
  | succ n ih => exact tidy_foldl _ ih

theorem tidy_ofGrammar : (ofGrammar g).Tidy := by
  have hnull : g.nullable = NonTerminal.all.filter (· ∈ g.nullable) := by
    conv_lhs => rw [← Grammar.nullableRound_nullable]
    refine List.filter_congr fun a ha => Bool.eq_iff_iff.mpr ?_
    conv_rhs => rw [← Grammar.nullableRound_nullable]
    simp [Grammar.mem_nullableRound]
  have hfirst : ∀ a, g.firstOf g.nullable a =
      Terminal.all.filter (· ∈ (ofGrammar g).get a) := by
    intro a
    refine List.filter_congr fun t ht => Bool.eq_iff_iff.mpr ?_
    simp [Grammar.firstOf]
  rw [Tidy, ofKnown]
  simp only [knows]
  conv_lhs => rw [ofGrammar]
  congr 1
  refine List.map_congr_left fun a _ => ?_
  rw [← hfirst a]

/-- Revising never forgets. -/
theorem knows_foldl (rules : List Rule) (h : sets.knows k = true) :
    (rules.foldl revise sets).knows k = true := by
  induction rules generalizing sets with
  | nil => exact h
  | cons r rules ih => exact ih (knows_revise.mpr (Or.inl h))

/-- If nothing is new in the end, no production has told anything new on the way. -/
theorem revise_eq_of_foldl_eq (hsets : sets.Tidy) {rules : List Rule}
    (h : rules.foldl revise sets = sets) : ∀ r ∈ rules, sets.revise r = sets := by
  induction rules with
  | nil => simp
  | cons r rules ih =>
    have hr : sets.revise r = sets := by
      refine (tidy_ofKnown _).eq_of_knows hsets fun k => ⟨fun hk => ?_,fun hk => ?_⟩
      · rw [← h]
        exact knows_foldl rules hk
      · exact knows_revise.mpr (Or.inl hk)
    rw [List.foldl_cons, hr] at h
    exact List.forall_mem_cons.mpr ⟨hr,ih h⟩

/-- Every production tells only what the sets know already. -/
def Heard (g : Grammar) (sets : FirstSets) : Prop :=
  ∀ r ∈ g.productions, ∀ k, sets.tells r k = true → sets.knows k = true

theorem tells_some {a : NonTerminal} {t : Terminal} : sets.tells r (a, some t) = true ↔
    a = r.lhs ∧ ∃ x ∈ Grammar.leading sets.nullable r.rhs,
      x = .terminal t ∨ ∃ b, x = .nonTerminal b ∧ t ∈ sets.get b := by
  simp only [tells, Bool.and_eq_true, decide_eq_true_eq, List.any_eq_true]
  refine and_congr_right fun _ => exists_congr fun x => and_congr_right fun _ => ?_
  cases x with
  | terminal u => simp
  | nonTerminal b => simp

theorem heard_of_round_eq (hsets : sets.Tidy) (h : round g sets = sets) : Heard g sets := by
  intro r hr k hk
  rw [← revise_eq_of_foldl_eq hsets h r hr]
  exact knows_revise.mpr (Or.inr hk)

theorem heard_ofGrammar : Heard g (ofGrammar g) := by
  rintro r hr ⟨a,_ | t⟩ hk
  · simp only [tells, nullable_ofGrammar, Bool.and_eq_true, decide_eq_true_eq] at hk
    obtain ⟨rfl,hrhs⟩ := hk
    simpa [knows] using Grammar.mem_nullable_of_allIn hr hrhs
  · obtain ⟨rfl,x,hx,htold⟩ := tells_some.mp hk
    rw [nullable_ofGrammar] at hx
    have hlead : x ∈ g.leadsTo g.nullable (.nonTerminal r.lhs) :=
      Grammar.mem_leadsTo.mpr ⟨r,hr,rfl,hx⟩
    have hleads : g.Leads x (.terminal t) := by
      rcases htold with rfl | ⟨b,rfl,ht⟩
      · exact Relation.ReflTransGen.refl
      · rw [get_ofGrammar] at ht
        exact Grammar.leads_of_mem_firstOf ht
    simpa [knows] using Grammar.mem_firstOf_of_leads (Relation.ReflTransGen.head hlead hleads)

section Comparison
variable {others : FirstSets} (h : ∀ k, sets.knows k = true → others.knows k = true)
include h

theorem nullable_subset_of_knows : sets.nullable ⊆ others.nullable := by
  intro a ha
  simpa [knows] using h (a, none) (by simpa [knows] using ha)

theorem tells_mono (ht : sets.tells r k = true) : others.tells r k = true := by
  obtain ⟨a,_ | t⟩ := k
  · simp only [tells, Bool.and_eq_true, decide_eq_true_eq] at ht ⊢
    exact ⟨ht.1,Grammar.allIn_mono (nullable_subset_of_knows h) ht.2⟩
  · obtain ⟨ha,x,hx,htold⟩ := tells_some.mp ht
    refine tells_some.mpr ⟨ha,x,Grammar.leading_mono (nullable_subset_of_knows h) hx,?_⟩
    refine htold.imp_right fun ⟨b,hb,hget⟩ => ⟨b,hb,?_⟩
    simpa [knows] using h (b, some t) (by simpa [knows] using hget)

theorem foldl_le_of_heard {rules : List Rule} (hrules : ∀ r ∈ rules, ∀ k,
    others.tells r k = true → others.knows k = true)
    (hk : (rules.foldl revise sets).knows k = true) : others.knows k = true := by
  induction rules generalizing sets with
  | nil => exact h k hk
  | cons r rules ih =>
    obtain ⟨hr,hrules⟩ := List.forall_mem_cons.mp hrules
    refine ih (fun j hj => ?_) hrules hk
    rcases knows_revise.mp hj with hj | hj
    · exact h j hj
    · exact hr j (tells_mono h hj)

end Comparison

section Heard
variable (h : Heard g sets)
include h

theorem Heard.nullable_subset : g.nullable ⊆ sets.nullable := by
  rw [Grammar.nullable]
  induction NonTerminal.all.length with
  | zero => simp [Grammar.nullableAfter]
  | succ n ih =>
    intro a ha
    obtain ⟨r,hr,rfl,hrhs⟩ := Grammar.mem_nullableRound.mp ha
    have htold : sets.tells r (r.lhs, none) = true := by
      simpa [tells] using Grammar.allIn_mono ih hrhs
    simpa [knows] using h r hr _ htold

theorem Heard.mem_get_of_leads {x : Symbol} {t : Terminal} (hx : g.Leads x (.terminal t)) :
    ∀ a, x = .nonTerminal a → t ∈ sets.get a := by
  -- from the terminal back along the leading symbols, whose productions have all been heard
  induction hx using Relation.ReflTransGen.head_induction_on with
  | refl => simp
  | @head x y hxy hyt ih =>
    rintro a rfl
    obtain ⟨r,hr,he,hlead⟩ := Grammar.mem_leadsTo.mp hxy
    cases he
    have htold : sets.tells r (r.lhs, some t) = true := by
      refine tells_some.mpr ⟨rfl,y,Grammar.leading_mono h.nullable_subset hlead,?_⟩
      cases y with
      | terminal u => exact Or.inl (by rw [Grammar.Leads.eq_of_terminal hyt])
      | nonTerminal b => exact Or.inr ⟨b,rfl,ih b rfl⟩
    simpa [knows] using h r hr _ htold

/-- The first sets know no more than any sets that have heard every production. -/
theorem Heard.knows (hk : (ofGrammar g).knows k = true) : sets.knows k = true := by
  obtain ⟨a,_ | t⟩ := k
  · simp only [FirstSets.knows, nullable_ofGrammar, decide_eq_true_eq] at hk ⊢
    exact h.nullable_subset hk
  · simp only [FirstSets.knows, get_ofGrammar, decide_eq_true_eq] at hk ⊢
    exact h.mem_get_of_leads (Grammar.leads_of_mem_firstOf hk) a rfl

end Heard

theorem rounds_le (n : ℕ) : ∀ k, (rounds g n).knows k = true → (ofGrammar g).knows k = true := by
  induction n with
  | zero => simp [rounds]
  | succ n ih =>
    intro k hk
    exact foldl_le_of_heard ih heard_ofGrammar hk

/-- A round adds nothing exactly when the first sets are reached. -/
theorem round_eq_iff (n : ℕ) : rounds g (n + 1) = rounds g n ↔ rounds g n = ofGrammar g := by
  constructor
  · intro h
    refine (tidy_rounds n).eq_of_knows tidy_ofGrammar fun k => ⟨rounds_le n k,fun hk => ?_⟩
    exact (heard_of_round_eq (tidy_rounds n) h).knows hk
  · intro h
    refine (tidy_rounds (n + 1)).eq_of_knows (tidy_rounds n) fun k => ⟨fun hk => ?_,fun hk => ?_⟩
    · rw [h]
      exact rounds_le (n + 1) k hk
    · exact knows_foldl _ hk

def matters : List (NonTerminal × Option Terminal) :=
  NonTerminal.all.flatMap fun a => (none :: Terminal.all.map some).map (a, ·)

theorem mem_matters (k : NonTerminal × Option Terminal) : k ∈ matters := by
  obtain ⟨a,_ | t⟩ := k <;> simp [matters]

theorem length_known_lt {n : ℕ} (h : rounds g (n + 1) ≠ rounds g n) :
    (matters.filter (rounds g n).knows).length <
      (matters.filter (rounds g (n + 1)).knows).length := by
  have hsub : (matters.filter (rounds g n).knows).Sublist
      (matters.filter (rounds g (n + 1)).knows) :=
    List.monotone_filter_right _ fun _ hk => knows_foldl _ hk
  by_contra hle
  have he := hsub.eq_of_length_le (Nat.le_of_not_lt hle)
  refine h ((tidy_rounds (n + 1)).eq_of_knows (tidy_rounds n) fun k => ?_)
  have hk : k ∈ matters.filter (rounds g (n + 1)).knows ↔
      k ∈ matters.filter (rounds g n).knows := by rw [he]
  simpa [mem_matters] using hk

theorem stable_or_length_le (n : ℕ) : (∃ m < n, rounds g (m + 1) = rounds g m) ∨
    n ≤ (matters.filter (rounds g n).knows).length := by
  induction n with
  | zero => exact Or.inr (Nat.zero_le _)
  | succ n ih =>
    rcases ih with ⟨m,hm,he⟩ | hle
    · exact Or.inl ⟨m,by omega,he⟩
    · by_cases h : rounds g (n + 1) = rounds g n
      · exact Or.inl ⟨n,by omega,h⟩
      · have hlt := length_known_lt h
        exact Or.inr (by omega)

theorem exists_stable_round : ∃ n ≤ matters.length, rounds g (n + 1) = rounds g n := by
  rcases stable_or_length_le (g := g) (matters.length + 1) with ⟨m,hm,he⟩ | hle
  · exact ⟨m,by omega,he⟩
  · have hfilter := List.length_filter_le (rounds g (matters.length + 1)).knows matters
    omega

/-- First sets are exact. The joint loop over the productions comes to a round that adds nothing,
after one round at most for each of the forty things to be known, and it has found the first sets
then and only then. They say which nonterminals derive the empty string, which terminals can begin
what a nonterminal derives, and which can begin what symbols before a terminal derive. -/
theorem ofGrammar_exact (g : Grammar) :
    (∃ n ≤ 40, rounds g (n + 1) = rounds g n) ∧
    (∀ n, rounds g (n + 1) = rounds g n ↔ rounds g n = ofGrammar g) ∧
    (∀ a, a ∈ (ofGrammar g).nullable ↔ g.Derives [.nonTerminal a] []) ∧
    (∀ a t, t ∈ (ofGrammar g).get a ↔
      ∃ rest, g.Derives [.nonTerminal a] (.terminal t :: rest)) ∧
    ∀ xs after t, t ∈ (ofGrammar g).ofSequence xs after ↔
      ∃ rest, g.Derives (xs ++ [.terminal after]) (.terminal t :: rest) := by
  refine ⟨exists_stable_round,round_eq_iff,fun a => ?_,fun a t => mem_get_iff,
    fun xs after t => mem_ofSequence_iff_derives⟩
  rw [nullable_ofGrammar, Grammar.mem_nullable_iff]

end FirstSets

end LetPrint
