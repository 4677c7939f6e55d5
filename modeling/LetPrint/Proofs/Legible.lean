import LetPrint.Token
import Mathlib.Data.List.Basic

/-! # Legible writing

Writing is legible if what was written can be told from every text that starts with it. Numbers and
names are legible with a character behind them that they do not hold, the characters of a quoted
text are legible one by one, and so is the whole up to its closing quote. Hence the line of a token
in a listing gives back the token, whatever its text looks like.
-/
namespace LetPrint

namespace Text
variable {α : Type} {write : α → List Char} {stop : Char}

/-- What was written, and where it ends, can be told from the text that starts with it. -/
def Legible (write : α → List Char) : Prop :=
  ∀ ⦃a b : α⦄ ⦃x y : List Char⦄, write a ++ x = write b ++ y → a = b ∧ x = y

theorem Legible.injective (h : Legible write) : Function.Injective write := by
  intro a b hab
  exact (@h a b [] [] (by rw [hab])).1

theorem Legible.append {β : Type} {write' : β → List Char} (h : Legible write)
    (h' : Legible write') : Legible fun p : α × β => write p.1 ++ write' p.2 := by
  intro p q x y heq
  simp only [List.append_assoc] at heq
  obtain ⟨hfirst,hrest⟩ := h heq
  obtain ⟨hsecond,hxy⟩ := h' hrest
  exact ⟨Prod.ext hfirst hsecond,hxy⟩

theorem Legible.behind (h : Legible write) (front : List Char) :
    Legible fun a => front ++ write a := by
  intro a b x y heq
  simp only [List.append_assoc, List.append_cancel_left_eq] at heq
  exact h heq

theorem append_stop_inj {cs ds x y : List Char} (hc : stop ∉ cs) (hd : stop ∉ ds)
    (h : cs ++ stop :: x = ds ++ stop :: y) : cs = ds ∧ x = y := by
  induction cs generalizing ds with
  | nil =>
    cases ds with
    | nil => exact ⟨rfl,(List.cons.inj h).2⟩
    | cons d ds => exact absurd ((List.cons.inj h).1 ▸ List.mem_cons_self) hd
  | cons c cs ih =>
    cases ds with
    | nil => exact absurd ((List.cons.inj h).1 ▸ List.mem_cons_self) hc
    | cons d ds =>
      obtain ⟨rfl,htail⟩ := List.cons.inj h
      obtain ⟨rfl,hxy⟩ := ih (fun hm => hc (List.mem_cons_of_mem c hm))
        (fun hm => hd (List.mem_cons_of_mem c hm)) htail
      exact ⟨rfl,hxy⟩

theorem legible_stopped (hinj : Function.Injective write) (hstop : ∀ a, stop ∉ write a) :
    Legible fun a => write a ++ [stop] := by
  intro a b x y h
  simp only [List.append_assoc, List.singleton_append] at h
  obtain ⟨hab,hxy⟩ := append_stop_inj (hstop a) (hstop b) h
  exact ⟨hinj hab,hxy⟩

/-- Legible texts in a row are legible up to a character with which none of them starts. -/
theorem Legible.row (h : Legible write) (hstart : ∀ a, ∃ c cs, write a = c :: cs ∧ c ≠ stop) :
    Legible fun as : List α => as.flatMap write ++ [stop] := by
  intro as bs x y heq
  simp only [List.append_assoc, List.singleton_append] at heq
  induction as generalizing bs with
  | nil =>
    cases bs with
    | nil => exact ⟨rfl,(List.cons.inj heq).2⟩
    | cons b bs =>
      obtain ⟨c,cs,hb,hc⟩ := hstart b
      rw [List.flatMap_cons, hb] at heq
      exact absurd (List.cons.inj heq).1.symm hc
  | cons a as ih =>
    cases bs with
    | nil =>
      obtain ⟨c,cs,ha,hc⟩ := hstart a
      rw [List.flatMap_cons, ha] at heq
      exact absurd (List.cons.inj heq).1 hc
    | cons b bs =>
      simp only [List.flatMap_cons, List.append_assoc] at heq
      obtain ⟨rfl,hrest⟩ := h heq
      obtain ⟨rfl,hxy⟩ := ih hrest
      exact ⟨rfl,hxy⟩

def digitChars : List Char := "0123456789abcdef".toList

section Digits
variable {b : ℕ} (hb : 1 < b) (hb' : b ≤ 16)
include hb hb'

theorem mem_digitChars_of_mem_toDigits {n : ℕ} {c : Char} (h : c ∈ Nat.toDigits b n) :
    c ∈ digitChars := by
  have hdigit : ∀ d < 16, d.digitChar ∈ digitChars := by decide
  induction n using Nat.strongRecOn with
  | ind n ih =>
    rw [Nat.toDigits_eq_if hb] at h
    split_ifs at h with hn
    · rw [List.mem_singleton.mp h]
      exact hdigit n (by omega)
    · have hmod := Nat.mod_lt n (by omega : 0 < b)
      rcases List.mem_append.mp h with hfront | hlast
      · exact ih (n / b) (Nat.div_lt_self (by omega) hb) hfront
      · rw [List.mem_singleton.mp hlast]
        exact hdigit (n % b) (by omega)

theorem toDigits_injective : Function.Injective (Nat.toDigits b) := by
  have hdigit : ∀ d < 16, ∀ e < 16, d.digitChar = e.digitChar → d = e := by decide
  intro n m h
  induction n using Nat.strongRecOn generalizing m with
  | ind n ih =>
    rw [Nat.toDigits_eq_if hb, @Nat.toDigits_eq_if b m hb] at h
    split_ifs at h with hn hm hm
    · exact hdigit n (by omega) m (by omega) (List.singleton_inj.mp h)
    · have hlength := congrArg List.length h
      have hpos := List.length_pos_iff.mpr (@Nat.toDigits_ne_nil (m / b) b)
      simp only [List.length_append, List.length_singleton] at hlength
      omega
    · have hlength := congrArg List.length h
      have hpos := List.length_pos_iff.mpr (@Nat.toDigits_ne_nil (n / b) b)
      simp only [List.length_append, List.length_singleton] at hlength
      omega
    · obtain ⟨hfront,hlast⟩ := List.append_inj' h rfl
      have hn' := Nat.mod_lt n (by omega : 0 < b)
      have hm' := Nat.mod_lt m (by omega : 0 < b)
      have hquotient := ih (n / b) (Nat.div_lt_self (by omega) hb) hfront
      have hremainder := hdigit _ (by omega) _ (by omega) (List.singleton_inj.mp hlast)
      rw [← Nat.div_add_mod n b, hquotient, hremainder, Nat.div_add_mod]

theorem legible_toDigits (hstop : stop ∉ digitChars) :
    Legible fun n => Nat.toDigits b n ++ [stop] :=
  legible_stopped (toDigits_injective hb hb') fun _ hmem =>
    hstop (mem_digitChars_of_mem_toDigits hb hb' hmem)

end Digits

def shortEscapes : List (Char × Char) :=
  [('\x00', '0'), ('\t', 't'), ('\r', 'r'), ('\n', 'n'), ('"', '"'), ('\\', '\\')]

/-- The three ways in which a character stands between quotes. -/
inductive Quotes (c : Char) : List Char → Prop
  | short {letter : Char} (escape : (c, letter) ∈ shortEscapes) : Quotes c ['\\', letter]
  | number : Quotes c (spelledByNumber c)
  | plain (backslash : c ≠ '\\') (quote : c ≠ '"') (newline : c ≠ '\n') : Quotes c [c]

theorem quotes_quotedChar (c : Char) : Quotes c (quotedChar c) := by
  unfold quotedChar
  split_ifs with hnull htab hreturn hnewline hquote hbackslash
  · exact .short (by simp [shortEscapes, hnull])
  · exact .short (by simp [shortEscapes, htab])
  · exact .short (by simp [shortEscapes, hreturn])
  · exact .short (by simp [shortEscapes, hnewline])
  · exact .short (by simp [shortEscapes, hquote])
  · exact .short (by simp [shortEscapes, hbackslash])
  · exact .number
  · exact .plain hbackslash hquote hnewline

theorem Quotes.unique {c d : Char} {cs ds x y : List Char} (hc : Quotes c cs) (hd : Quotes d ds)
    (h : cs ++ x = ds ++ y) : c = d ∧ x = y := by
  have hletters : ∀ e ∈ shortEscapes, e.2 ≠ 'u' ∧ ∀ e' ∈ shortEscapes, e.2 = e'.2 → e = e' := by
    decide
  cases hc with
  | @short letter hescape =>
    cases hd with
    | @short letter' hescape' =>
      simp only [List.cons_append, List.nil_append, List.cons.injEq, true_and] at h
      have hpair := (hletters _ hescape).2 _ hescape' h.1
      exact ⟨congrArg Prod.fst hpair,h.2⟩
    | number =>
      simp only [spelledByNumber, List.cons_append, List.cons.injEq, true_and] at h
      exact absurd h.1 (hletters _ hescape).1
    | plain hbackslash _ _ => exact absurd (List.cons.inj h).1.symm hbackslash
  | number =>
    cases hd with
    | @short letter' hescape' =>
      simp only [spelledByNumber, List.cons_append, List.cons.injEq, true_and] at h
      exact absurd h.1.symm (hletters _ hescape').1
    | number =>
      simp only [spelledByNumber, List.cons_append, List.cons.injEq, true_and] at h
      obtain ⟨hnumber,hxy⟩ := legible_toDigits (by decide) (by decide) (by decide) h
      exact ⟨Char.toNat_inj.mp hnumber,hxy⟩
    | plain hbackslash _ _ => exact absurd (List.cons.inj h).1.symm hbackslash
  | plain hbackslash _ _ =>
    cases hd with
    | short _ => exact absurd (List.cons.inj h).1 hbackslash
    | number => exact absurd (List.cons.inj h).1 hbackslash
    | plain _ _ _ => exact List.cons.inj h

theorem legible_quotedChar : Legible quotedChar := fun c d _ _ h =>
  (quotes_quotedChar c).unique (quotes_quotedChar d) h

theorem Quotes.exists_start {c : Char} {cs : List Char} (h : Quotes c cs) :
    ∃ first rest, cs = first :: rest ∧ first ≠ '"' := by
  cases h with
  | short _ => exact ⟨_,_,rfl,by decide⟩
  | number => exact ⟨_,_,rfl,by decide⟩
  | plain _ hquote _ => exact ⟨_,_,rfl,hquote⟩

theorem Quotes.newline_not_mem {c : Char} {cs : List Char} (h : Quotes c cs) : '\n' ∉ cs := by
  cases h with
  | @short letter hescape =>
    have hletters : ∀ e ∈ shortEscapes, '\n' ∉ ['\\', e.2] := by decide
    exact hletters _ hescape
  | number =>
    have hdigits : '\n' ∉ Nat.toDigits 16 c.toNat := by
      intro hmem
      have hdigit := mem_digitChars_of_mem_toDigits (by decide) (by decide) hmem
      revert hdigit
      decide
    simp [spelledByNumber, hdigits]
  | plain _ _ hnewline => simpa using hnewline.symm

theorem legible_quoted : Legible fun text : String => text.toList.flatMap quotedChar ++ ['"'] := by
  intro s t x y h
  obtain ⟨hst,hxy⟩ := legible_quotedChar.row (fun c => (quotes_quotedChar c).exists_start) h
  exact ⟨String.toList_injective hst,hxy⟩

theorem newline_not_mem_quoted (text : String) : '\n' ∉ (quoted text).toList := by
  have hchars : '\n' ∉ text.toList.flatMap quotedChar := by
    rw [List.mem_flatMap]
    rintro ⟨c,_,hmem⟩
    exact (quotes_quotedChar c).newline_not_mem hmem
  simp [quoted, hchars]

theorem bytes_injective : Function.Injective bytes := by
  intro cs ds h
  have hstrings : String.ofList cs = String.ofList ds := by
    apply String.toByteArray_inj.mp
    rw [String.toByteArray_ofList, String.toByteArray_ofList]
    exact congrArg List.toByteArray h
  exact String.ofList_injective hstrings

end Text

namespace Token
open Text

theorem legible_kind : Legible fun kind : Kind => kind.name.toList ++ [' '] := by
  refine legible_stopped ?_ ?_
  · intro a b h
    revert h
    cases a <;> cases b <;> decide
  · intro a
    cases a <;> decide

theorem toList_repr (n : ℕ) : n.repr.toList = Nat.toDigits 10 n := by
  rw [Nat.repr_eq_ofList_toDigits, String.toList_ofList]

theorem newline_not_mem_render (t : Token) : '\n' ∉ t.render.toList := by
  have hkind : '\n' ∉ t.kind.name.toList := by
    cases t.kind <;> decide
  have hnumber : ∀ n, '\n' ∉ Nat.toDigits 10 n := by
    intro n hmem
    have hdigit := mem_digitChars_of_mem_toDigits (by decide) (by decide) hmem
    revert hdigit
    decide
  simp [render, hkind, hnumber, newline_not_mem_quoted]

theorem legible_render : Legible fun t : Token => t.render.toList := by
  have hnumber : ∀ {stop}, stop ∉ digitChars → Legible fun n => Nat.toDigits 10 n ++ [stop] :=
    legible_toDigits (by decide) (by decide)
  have hcomma := hnumber (by decide : ',' ∉ digitChars)
  have hbracket := hnumber (by decide : ')' ∉ digitChars)
  have hparts := legible_kind.append ((legible_quoted.behind ['"']).append
    ((hcomma.behind [' ', '(']).append ((hcomma.behind [' ']).append (hbracket.behind [' ']))))
  intro t t' x y h
  obtain ⟨kind,text,line,column,offset⟩ := t
  obtain ⟨kind',text',line',column',offset'⟩ := t'
  obtain ⟨hpair,hxy⟩ := @hparts (kind, text, line.toNat, column.toNat, offset.toNat)
    (kind', text', line'.toNat, column'.toNat, offset'.toNat) x y
    (by simpa [render, quoted, toList_repr] using h)
  simp only [Prod.mk.injEq, UInt64.toNat_inj] at hpair
  obtain ⟨rfl,rfl,rfl,rfl,rfl⟩ := hpair
  exact ⟨rfl,hxy⟩

end Token

end LetPrint
