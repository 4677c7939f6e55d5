import LetPrint.Language
import LetPrint.Proofs.Environments
import Mathlib.Data.List.Forall2

/-! # Building phrases

A phrase is built from a certain number of parts, most of them of a certain kind. Their number is
checked first, then their kinds from left to right, and only then a name is looked up or declared.
So a reduction builds its phrase, or else it leaves the environment as it was.
-/
namespace LetPrint

open Environment

def Fragment.Suits (f : Fragment) (wanted : Option FragmentKind) : Prop :=
  ∀ kind ∈ wanted, f.kind = kind

def Fragment.Takes {α : Type} (convert : Fragment → Except Error α) (kind : FragmentKind) : Prop :=
  ∀ f : Fragment, (f.kind = kind ∧ ∃ a, convert f = .ok a) ∨
    (f.kind ≠ kind ∧ convert f = .error (f.unfit kind))

namespace Fragment

theorem takes_toToken : Takes toToken .token := by
  intro f
  cases f with
  | token t => exact Or.inl ⟨rfl,t,rfl⟩
  | _ => exact Or.inr ⟨nofun,rfl⟩

theorem takes_toExpr : Takes toExpr .expression := by
  intro f
  cases f with
  | expr e => exact Or.inl ⟨rfl,e,rfl⟩
  | _ => exact Or.inr ⟨nofun,rfl⟩

theorem takes_toStmt : Takes toStmt .statement := by
  intro f
  cases f with
  | stmt s => exact Or.inl ⟨rfl,s,rfl⟩
  | _ => exact Or.inr ⟨nofun,rfl⟩

theorem takes_toStmtList : Takes toStmtList .statementList := by
  intro f
  cases f with
  | stmtList statements => exact Or.inl ⟨rfl,statements,rfl⟩
  | _ => exact Or.inr ⟨nofun,rfl⟩

theorem eq_of_toToken {f : Fragment} {t : Token} (h : f.toToken = .ok t) : f = .token t := by
  cases f with
  | token t' => rw [Except.ok.inj h]
  | _ => cases h

end Fragment

namespace Phrase

def misfit? : List (Option FragmentKind) → List Fragment → Option Error
  | some kind :: kinds, part :: parts =>
    if part.kind = kind then misfit? kinds parts else some (part.unfit kind)
  | none :: kinds, _ :: parts => misfit? kinds parts
  | _, _ => none

/-- The error of parts in the wrong number, or else of the first that is not of the kind wanted. -/
def refusal? (kinds : List (Option FragmentKind)) (parts : List Fragment) : Option Error :=
  if parts.length = kinds.length then misfit? kinds parts
  else some (wrongArity kinds.length parts)

/-- A result that is the refusal, if there is one, and a good value otherwise. -/
inductive Answers {α : Type} (good : α → Prop) : Option Error → Except Error α → Prop
  | refused (e : Error) : Answers good (some e) (.error e)
  | built {a : α} (h : good a) : Answers good none (.ok a)

section Answering
variable {α β : Type} {good : α → Prop} {kinds : List (Option FragmentKind)}
  {part : Fragment} {parts : List Fragment}

theorem misfit?_eq_none_iff (h : parts.length = kinds.length) :
    misfit? kinds parts = none ↔ List.Forall₂ Fragment.Suits parts kinds := by
  induction kinds generalizing parts with
  | nil =>
    rw [List.eq_nil_of_length_eq_zero h]
    simp [misfit?]
  | cons wanted kinds ih =>
    obtain ⟨part,rest,rfl⟩ := List.exists_cons_of_length_eq_add_one h
    have hrest := ih (Nat.succ.inj h)
    rw [List.forall₂_cons, ← hrest]
    cases wanted with
    | none => simp [misfit?, Fragment.Suits]
    | some kind =>
      rw [misfit?]
      split_ifs with hkind <;> simp [Fragment.Suits, hkind]

theorem refusal?_eq_none_iff :
    refusal? kinds parts = none ↔ List.Forall₂ Fragment.Suits parts kinds := by
  unfold refusal?
  split_ifs with hlength
  · exact misfit?_eq_none_iff hlength
  · constructor
    · intro h
      cases h
    · intro h
      exact absurd h.length_eq hlength

theorem answers_of_length (h : parts.length ≠ kinds.length) :
    Answers good (refusal? kinds parts) (.error (wrongArity kinds.length parts)) := by
  rw [refusal?, if_neg h]
  exact .refused _

/-- A conversion checks the first of the parts that are left. -/
theorem answers_bind {convert : Fragment → Except Error β} {kind : FragmentKind}
    (hc : Fragment.Takes convert kind) {next : β → Except Error α}
    (h : ∀ b, convert part = .ok b → Answers good (misfit? kinds parts) (next b)) :
    Answers good (misfit? (some kind :: kinds) (part :: parts)) (convert part >>= next) := by
  rw [misfit?]
  rcases hc part with ⟨hkind,b,hb⟩ | ⟨hkind,herror⟩
  · rw [if_pos hkind, hb]
    exact h b hb
  · rw [if_neg hkind, herror]
    exact .refused _

theorem Answers.map {good' : β → Prop} {refusal : Option Error} {result : Except Error α}
    {f : α → β} (h : Answers good refusal result) (hf : ∀ a, good a → good' (f a)) :
    Answers good' refusal (result >>= fun a => pure (f a)) := by
  cases h with
  | refused e => exact .refused e
  | built hgood => exact .built (hf _ hgood)

end Answering

/-- The kinds of the parts of a phrase, in order; none is wanted of a part that is not looked at. -/
def wanted : Phrase → List (Option FragmentKind)
  | program => [some .statementList]
  | firstStatement => [some .statement]
  | nextStatement => [some .statementList, some .statement]
  | print => [some .token, some .expression]
  | declaration => [some .token, some .token]
  | definition => [some .token, some .token, none, some .expression]
  | textLiteral => [some .token]
  | undefinedLiteral => [some .token]
  | reference => [some .token]

def kind : Phrase → FragmentKind
  | program => .program
  | firstStatement | nextStatement => .statementList
  | print | declaration | definition => .statement
  | textLiteral | undefinedLiteral | reference => .expression

def Fits (phrase : Phrase) (parts : List Fragment) : Prop :=
  List.Forall₂ Fragment.Suits parts phrase.wanted

/-- The name that a phrase introduces, which is the text of its identifier. -/
inductive Introduces : Phrase → List Fragment → String → Prop
  | declaration (keyword : Fragment) (identifier : Token) :
    Introduces .declaration [keyword, .token identifier] identifier.text
  | definition (keyword : Fragment) (identifier : Token) (operator initializer : Fragment) :
    Introduces .definition [keyword, .token identifier, operator, initializer] identifier.text

/-- The identifier of a reference is declared; other phrases refer to nothing. -/
def Resolves (phrase : Phrase) (env : Environment) (parts : List Fragment) : Prop :=
  phrase = .reference → ∀ identifier : Token, parts = [.token identifier] →
    identifier.text ∈ env.declared

/-- Everything that the reduction of a phrase can do, with what has to be the case for it. -/
inductive Does (phrase : Phrase) (env : Environment) (parts : List Fragment) :
    Except Error Fragment × Environment → Prop
  | refuse {e : Error} (refused : refusal? phrase.wanted parts = some e) :
    phrase.Does env parts (.error e, env)
  | stray {identifier : Token} (isReference : phrase = .reference)
    (only : parts = [.token identifier]) (undeclared : identifier.text ∉ env.declared) :
    phrase.Does env parts
      (.error (.located (.identifierNotDefined identifier.text) identifier.position), env)
  | build {f : Fragment} (fits : phrase.Fits parts) (kind_eq : f.kind = phrase.kind)
    (resolves : phrase.Resolves env parts) (silent : ∀ name, ¬ phrase.Introduces parts name) :
    phrase.Does env parts (.ok f, env)
  | introduce {f : Fragment} {name : String} (fits : phrase.Fits parts)
    (kind_eq : f.kind = phrase.kind) (introduces : phrase.Introduces parts name) :
    phrase.Does env parts (.ok f, env.declare name)

theorem Introduces.unique {phrase : Phrase} {parts : List Fragment} {name other : String}
    (h : phrase.Introduces parts name) (h' : phrase.Introduces parts other) : name = other := by
  cases h with
  | declaration keyword identifier =>
    cases h'
    rfl
  | definition keyword identifier operator initializer =>
    cases h'
    rfl

section Builders
variable (parts : List Fragment)

theorem answers_program :
    Answers (·.kind = .program) (refusal? program.wanted parts) (buildProgram parts) := by
  match parts with
  | [list] => exact answers_bind Fragment.takes_toStmtList fun _ _ => .built rfl
  | [] | _ :: _ :: _ => exact answers_of_length (by simp [wanted])

theorem answers_first :
    Answers (·.kind = .statementList) (refusal? firstStatement.wanted parts)
      (buildFirst parts) := by
  match parts with
  | [stmt] => exact answers_bind Fragment.takes_toStmt fun _ _ => .built rfl
  | [] | _ :: _ :: _ => exact answers_of_length (by simp [wanted])

theorem answers_next :
    Answers (·.kind = .statementList) (refusal? nextStatement.wanted parts) (buildNext parts) := by
  match parts with
  | [list, stmt] =>
    refine answers_bind Fragment.takes_toStmtList fun _ _ => ?_
    exact answers_bind Fragment.takes_toStmt fun _ _ => .built rfl
  | [] | [_] | _ :: _ :: _ :: _ => exact answers_of_length (by simp [wanted])

theorem answers_print :
    Answers (·.kind = .statement) (refusal? print.wanted parts) (buildPrint parts) := by
  match parts with
  | [keyword, operand] =>
    refine answers_bind Fragment.takes_toToken fun _ _ => ?_
    exact answers_bind Fragment.takes_toExpr fun _ _ => .built rfl
  | [] | [_] | _ :: _ :: _ :: _ => exact answers_of_length (by simp [wanted])

theorem answers_declaration :
    Answers (fun (f, name) => f.kind = .statement ∧ Introduces .declaration parts name)
      (refusal? declaration.wanted parts) (buildDeclaration parts) := by
  match parts with
  | [keyword, identifier] =>
    refine answers_bind Fragment.takes_toToken fun _ _ => ?_
    refine answers_bind Fragment.takes_toToken fun token htoken => .built ⟨rfl,?_⟩
    rw [Fragment.eq_of_toToken htoken]
    exact .declaration keyword token
  | [] | [_] | _ :: _ :: _ :: _ => exact answers_of_length (by simp [wanted])

theorem answers_definition :
    Answers (fun (f, name) => f.kind = .statement ∧ Introduces .definition parts name)
      (refusal? definition.wanted parts) (buildDefinition parts) := by
  match parts with
  | [keyword, identifier, operator, initializer] =>
    refine answers_bind Fragment.takes_toToken fun _ _ => ?_
    refine answers_bind Fragment.takes_toToken fun token htoken => ?_
    refine answers_bind Fragment.takes_toExpr fun _ _ => .built ⟨rfl,?_⟩
    rw [Fragment.eq_of_toToken htoken]
    exact .definition keyword token operator initializer
  | [] | [_] | [_, _] | [_, _, _] | _ :: _ :: _ :: _ :: _ :: _ =>
    exact answers_of_length (by simp [wanted])

theorem answers_onlyToken :
    Answers (fun token => parts = [.token token]) (refusal? [some .token] parts)
      (onlyToken parts) := by
  match parts with
  | [part] =>
    -- the conversion is the last step here, with nothing to bind its token to
    rw [← bind_pure (onlyToken [part])]
    refine answers_bind Fragment.takes_toToken fun token htoken => .built ?_
    rw [Fragment.eq_of_toToken htoken]
  | [] | _ :: _ :: _ => exact answers_of_length (by simp)

end Builders

section Reductions
variable {phrase : Phrase} (env : Environment) (parts : List Fragment)

theorem does_pureReduction {build : List Fragment → Except Error Fragment}
    (h : Answers (·.kind = phrase.kind) (refusal? phrase.wanted parts) (build parts))
    (hphrase : phrase ≠ .reference) (hsilent : ∀ name, ¬ phrase.Introduces parts name) :
    phrase.Does env parts (pureReduction build env parts).value := by
  rw [pureReduction, Traced.value_pure]
  generalize hrefusal : refusal? phrase.wanted parts = refusal at h
  generalize build parts = result at h
  cases h with
  | refused e => exact .refuse hrefusal
  | built hkind =>
    exact .build (refusal?_eq_none_iff.mp hrefusal) hkind (absurd · hphrase) hsilent

theorem does_declaringReduction {build : List Fragment → Except Error (Fragment × String)}
    (h : Answers (fun (f, name) => f.kind = phrase.kind ∧ phrase.Introduces parts name)
      (refusal? phrase.wanted parts) (build parts)) :
    phrase.Does env parts (declaringReduction build env parts).value := by
  rw [declaringReduction]
  generalize hrefusal : refusal? phrase.wanted parts = refusal at h
  generalize build parts = result at h ⊢
  cases h with
  | refused e => exact .refuse hrefusal
  | built hgood => exact .introduce (refusal?_eq_none_iff.mp hrefusal) hgood.1 hgood.2

theorem does_referenceReduction :
    reference.Does env parts (referenceReduction env parts).value := by
  have h := answers_onlyToken parts
  rw [referenceReduction]
  generalize hrefusal : refusal? [some .token] parts = refusal at h
  generalize onlyToken parts = result at h ⊢
  cases h with
  | refused e => exact .refuse hrefusal
  | @built identifier honly =>
    dsimp only
    split_ifs with hdeclared
    · refine .build (refusal?_eq_none_iff.mp hrefusal) rfl ?_ nofun
      intro _ other hother
      rw [honly] at hother
      cases hother
      exact of_decide_eq_true hdeclared
    · exact .stray rfl honly fun hmem => hdeclared (decide_eq_true hmem)

theorem does_reduction (phrase : Phrase) (env : Environment) (parts : List Fragment) :
    phrase.Does env parts (phrase.reduction env parts).value := by
  cases phrase with
  | program => exact does_pureReduction env parts (answers_program parts) nofun nofun
  | firstStatement => exact does_pureReduction env parts (answers_first parts) nofun nofun
  | nextStatement => exact does_pureReduction env parts (answers_next parts) nofun nofun
  | print => exact does_pureReduction env parts (answers_print parts) nofun nofun
  | declaration => exact does_declaringReduction env parts (answers_declaration parts)
  | definition => exact does_declaringReduction env parts (answers_definition parts)
  | textLiteral =>
    exact does_pureReduction env parts ((answers_onlyToken parts).map fun _ _ => rfl) nofun nofun
  | undefinedLiteral =>
    exact does_pureReduction env parts ((answers_onlyToken parts).map fun _ _ => rfl) nofun nofun
  | reference => exact does_referenceReduction env parts

end Reductions

section Results
variable {phrase : Phrase} {env : Environment} {parts : List Fragment}
  {result : Except Error Fragment × Environment}

theorem Introduces.resolves {name : String} (h : phrase.Introduces parts name) :
    phrase.Resolves env parts := by
  rintro rfl
  cases h

theorem Does.ok_iff (h : phrase.Does env parts result) : (∃ f, result.1 = .ok f) ↔
    phrase.Fits parts ∧ phrase.Resolves env parts := by
  cases h with
  | refuse refused =>
    refine ⟨nofun,?_⟩
    rintro ⟨hfits,_⟩
    rw [refusal?_eq_none_iff.mpr hfits] at refused
    cases refused
  | stray isReference only undeclared =>
    refine ⟨nofun,?_⟩
    rintro ⟨_,hresolves⟩
    exact absurd (hresolves isReference _ only) undeclared
  | build fits _ resolves _ => exact ⟨fun _ => ⟨fits,resolves⟩,fun _ => ⟨_,rfl⟩⟩
  | introduce fits _ introduces =>
    exact ⟨fun _ => ⟨fits,introduces.resolves⟩,fun _ => ⟨_,rfl⟩⟩

theorem Does.of_error {e : Error} (h : phrase.Does env parts result) (he : result.1 = .error e) :
    result.2 = env ∧ (refusal? phrase.wanted parts = some e ∨ ∃ identifier : Token,
      phrase = .reference ∧ parts = [.token identifier] ∧ identifier.text ∉ env.declared ∧
        e = .located (.identifierNotDefined identifier.text) identifier.position) := by
  cases h with
  | refuse refused =>
    cases he
    exact ⟨rfl,Or.inl refused⟩
  | stray isReference only undeclared =>
    cases he
    exact ⟨rfl,Or.inr ⟨_,isReference,only,undeclared,rfl⟩⟩
  | build _ _ _ _ => cases he
  | introduce _ _ _ => cases he

theorem Does.of_ok {f : Fragment} (h : phrase.Does env parts result) (hf : result.1 = .ok f) :
    f.kind = phrase.kind ∧ result.2.bindings = env.bindings ∧
      ∀ name, name ∈ result.2.declared ↔ name ∈ env.declared ∨ phrase.Introduces parts name := by
  cases h with
  | refuse _ => cases hf
  | stray _ _ _ => cases hf
  | build _ kind_eq _ silent =>
    cases hf
    refine ⟨kind_eq,rfl,fun name => ⟨Or.inl,?_⟩⟩
    rintro (hold | hnew)
    · exact hold
    · exact absurd hnew (silent name)
  | introduce _ kind_eq introduces =>
    cases hf
    refine ⟨kind_eq,rfl,fun name => ?_⟩
    rw [mem_declared_declare]
    constructor
    · rintro (hold | rfl)
      · exact Or.inl hold
      · exact Or.inr introduces
    · rintro (hold | hnew)
      · exact Or.inl hold
      · exact Or.inr (hnew.unique introduces)

end Results

/-- The reduction of a phrase builds it exactly if the parts are as many as it has and of the kinds
that it wants and, for a reference, the identifier is declared. An error reports the first of these
that fails, and the environment is then as it was. What is built is of the kind of the phrase; all
values stay, and nothing becomes declared but the identifier of a declaration or definition. -/
theorem reduction_builds_or_keeps (phrase : Phrase) (env : Environment) (parts : List Fragment) :
    ((∃ fragment, (phrase.reduction env parts).value.1 = .ok fragment) ↔
      phrase.Fits parts ∧ phrase.Resolves env parts) ∧
    (∀ e, (phrase.reduction env parts).value.1 = .error e →
      (phrase.reduction env parts).value.2 = env ∧
      (refusal? phrase.wanted parts = some e ∨ ∃ identifier : Token,
        phrase = .reference ∧ parts = [.token identifier] ∧ identifier.text ∉ env.declared ∧
          e = .located (.identifierNotDefined identifier.text) identifier.position)) ∧
    ∀ fragment, (phrase.reduction env parts).value.1 = .ok fragment →
      fragment.kind = phrase.kind ∧
      (phrase.reduction env parts).value.2.bindings = env.bindings ∧
      ∀ name, name ∈ (phrase.reduction env parts).value.2.declared ↔
        name ∈ env.declared ∨ phrase.Introduces parts name := by
  have hdoes := does_reduction phrase env parts
  exact ⟨hdoes.ok_iff,fun _ he => hdoes.of_error he,fun _ hf => hdoes.of_ok hf⟩

/-- A definition does not look at its third part. With a statement in the place of its initializer
it is refused only after its identifier has been taken, and even so it declares nothing. -/
theorem reduction_builds_or_keeps_definition :
    let env : Environment := ⟨["a"], [("a", .text "x")]⟩
    let parts (initializer : Fragment) : List Fragment :=
      [.token ⟨.letKeyword, "let", ⟨1, 1, 0⟩⟩, .token ⟨.identifier, "b", ⟨1, 5, 4⟩⟩, .stmtList [],
        initializer]
    let span : Span := ⟨⟨1, 9, 8⟩, ⟨1, 10, 9⟩⟩
    let built := (definition.reduction env (parts (.expr (.name "a" span)))).value
    let refused := (definition.reduction env (parts (.stmt (.bind "a" none span)))).value
    (∃ fragment, built.1 = .ok fragment ∧ fragment.kind = .statement) ∧
    built.2.bindings = [("a", .text "x")] ∧
    (∀ name, name ∈ built.2.declared ↔ name = "a" ∨ name = "b") ∧
    refused = (.error (.ofFault (.wrongFragment .expression .statement)), env) := by
  intro env parts span built refused
  obtain ⟨hok,_,hbuilt⟩ :=
    reduction_builds_or_keeps .definition env (parts (.expr (.name "a" span)))
  obtain ⟨_,herror,_⟩ :=
    reduction_builds_or_keeps .definition env (parts (.stmt (.bind "a" none span)))
  have hfits : definition.Fits (parts (.expr (.name "a" span))) :=
    refusal?_eq_none_iff.mp (by decide)
  obtain ⟨fragment,hfragment⟩ := hok.mpr ⟨hfits,nofun⟩
  obtain ⟨hkind,hbindings,hdeclared⟩ := hbuilt fragment hfragment
  refine ⟨⟨fragment,hfragment,hkind⟩,hbindings,?_,?_⟩
  · intro name
    have hnew : definition.Introduces (parts (.expr (.name "a" span))) "b" := .definition _ _ _ _
    rw [hdeclared name, List.mem_singleton]
    exact or_congr_right ⟨fun h => h.unique hnew,fun h => h ▸ hnew⟩
  · exact Prod.ext rfl (herror _ rfl).1

end Phrase

end LetPrint
