import LetPrint.Proofs.Phrases
import LetPrint.Proofs.Runs

/-! # Parsing only declares

The reductions of phrases declare names and change nothing else about the environment. Hence no
parse does more, whatever its grammar is, and a failed one leaves the environment as it was.
-/
namespace LetPrint

open Environment

/-- A reduction that does nothing to the environment but declare names. -/
def Reduction.Declares (r : Reduction) : Prop :=
  ∀ (env : Environment) (values : List Fragment), env.Extends (r env values).value.2

/-- The reduction of a phrase declares at most one name. -/
theorem Phrase.env_reduction (phrase : Phrase) (env : Environment) (parts : List Fragment) :
    (phrase.reduction env parts).value.2 = env ∨
      ∃ name, (phrase.reduction env parts).value.2 = env.declare name := by
  have hdoes := phrase.does_reduction env parts
  generalize (phrase.reduction env parts).value = result at hdoes ⊢
  cases hdoes with
  | introduce _ _ _ => exact Or.inr ⟨_,rfl⟩
  | _ => exact Or.inl rfl

theorem Reduction.env_of_phrase {r : Reduction}
    (h : r = .last ∨ ∃ phrase : Phrase, r = phrase.reduction) (env : Environment)
    (values : List Fragment) :
    (r env values).value.2 = env ∨ ∃ name, (r env values).value.2 = env.declare name := by
  rcases h with rfl | ⟨phrase,rfl⟩
  · left
    unfold last
    split <;> rfl
  · exact phrase.env_reduction env values

theorem Reduction.declares_of_phrase {r : Reduction}
    (h : r = .last ∨ ∃ phrase : Phrase, r = phrase.reduction) : r.Declares := by
  intro env values
  rcases env_of_phrase h env values with hsame | ⟨name,hdeclared⟩
  · rw [hsame]
    exact Extends.refl env
  · rw [hdeclared]
    exact extends_declare env name

theorem phraseReductions_cases (phrases : List Phrase) (n : ℕ) :
    phraseReductions phrases n = .last ∨
      ∃ phrase : Phrase, phraseReductions phrases n = phrase.reduction := by
  cases n with
  | zero => exact Or.inl rfl
  | succ n =>
    rw [phraseReductions]
    cases phrases[n]? with
    | none => exact Or.inl rfl
    | some phrase => exact Or.inr ⟨phrase,rfl⟩

def Step.env : Step → Environment
  | shifted config => config.env
  | reduced config => config.env
  | halted _ env => env

namespace Parser
variable {p : Parser}

section Related
variable {R : Environment → Environment → Prop} (hrefl : ∀ env, R env env)
  (htrans : ∀ {env mid after}, R env mid → R mid after → R env after)
  (hp : ∀ n env values, R env (p.reduction n env values).value.2)

include hrefl hp in
theorem related_step (c : Config) : R c.env (p.step c).value.env := by
  have hreduction : ∀ {n result env},
      (p.reduction n c.env (c.values.take (p.grammar.rhs n).length).reverse).value = (result, env) →
        R c.env env := by
    intro n result env h
    have hrelated := hp n c.env (c.values.take (p.grammar.rhs n).length).reverse
    rwa [h] at hrelated
  generalize hs : (p.step c).value = result
  have hdoes := does_step p c
  rw [hs] at hdoes
  cases hdoes with
  | reduceError _ _ _ h => exact hreduction h
  | noGoto _ _ _ h => exact hreduction h
  | reduce _ _ _ h => exact hreduction h
  | _ => exact hrefl c.env

include hrefl htrans hp

theorem related_settle (fuel : ℕ) (c : Config) : R c.env (p.settle fuel c).value.env := by
  induction fuel generalizing c with
  | zero => exact hrefl c.env
  | succ fuel ih =>
    have hstep := related_step hrefl hp c
    rw [settle, Traced.value_bind]
    cases hs : (p.step c).value with
    | reduced next =>
      rw [hs] at hstep
      exact htrans hstep (ih next)
    | shifted next =>
      rw [hs] at hstep
      exact hstep
    | halted outcome env =>
      rw [hs] at hstep
      exact hstep

theorem related_run (shifts : ℕ) (c : Config) : R c.env (p.run shifts c).value.2 := by
  induction shifts generalizing c with
  | zero => exact hrefl c.env
  | succ shifts ih =>
    have hsettle := related_settle hrefl htrans hp (p.budget c) c
    rw [run, Traced.value_bind]
    cases hs : (p.settle (p.budget c) c).value with
    | shifted next =>
      rw [hs] at hsettle
      exact htrans hsettle (ih next)
    | reduced next =>
      rw [hs] at hsettle
      exact hsettle
    | halted outcome env =>
      rw [hs] at hsettle
      exact hsettle

/-- What relates the environments before and after every reduction relates those of a parse. -/
theorem related_drive (feed : Feed) (env : Environment) : R env (p.drive feed env).value.2 := by
  rw [value_drive]
  split
  · exact related_run hrefl htrans hp _ (initial env none feed)
  · exact related_run hrefl htrans hp _ (initial env _ _)
  · exact hrefl env

end Related

/-- A failed parse leaves the environment as it was. -/
theorem env_of_parse_error (hp : ∀ n, (p.reduction n).Declares) {feed : Feed} {env : Environment}
    {e : Error} (hs : env.Sound) (h : (p.parse feed env).value.1 = .error e) :
    (p.parse feed env).value.2 = env := by
  have hdrive : env.Extends (p.drive feed env).value.2 :=
    related_drive Extends.refl Extends.trans hp feed env
  rw [parse, Traced.value_bind] at h ⊢
  cases hd : (p.drive feed env).value with
  | mk outcome after =>
    rw [hd] at h hdrive
    cases ho : outcome.toProgram with
    | ok program =>
      simp only [ho] at h
      cases h
    | error error =>
      -- the drive has only declared new names since the checkpoint
      simp only [ho]
      exact rollback_of_extends hs hdrive

end Parser

end LetPrint
