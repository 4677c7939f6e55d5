import LetPrint.Lexer
import Mathlib.Data.List.Basic
import Mathlib.Tactic.SplitIfs

/-! # What simple patterns match

The threads of a matcher are followed through a text until none is left. For the shapes of pattern
that the language needs there is at most one thread after each character, so the length of the match
is read off the text: the longest run of a set, the stretch up to a closing character, or a word
with a boundary after it.
-/
namespace LetPrint

def Text.Ranges.has (r : Text.Ranges) (c : Char) : Bool := r.contains c.toNat

@[simp] theorem Text.Ranges.has_single (c d : Char) :
    (Text.Ranges.single c).has d = decide (d = c) := by
  have hinj : d.toNat = c.toNat ↔ d = c := Char.toNat_inj
  simp only [has, single, contains, Bool.or_false]
  split_ifs with hlt
  · have hne : d ≠ c := fun h => absurd hlt (by simp [h])
    simp [hne]
  · rw [decide_eq_decide, ← hinj]
    omega

@[simp] theorem Wave.threadsAfter_nil (accepts : Bool) (c : Char) :
    (Wave.mk [] accepts).threadsAfter c = [] := rfl

theorem Wave.threadsAfter_cons (chars : Text.Ranges) (next : ℕ) (reads : List (Text.Ranges × ℕ))
    (accepts : Bool) (c : Char) : (Wave.mk ((chars, next) :: reads) accepts).threadsAfter c =
      (if chars.has c then [next] else []) ++ (Wave.mk reads accepts).threadsAfter c := by
  cases h : chars.contains c.toNat <;> simp [threadsAfter, Text.Ranges.has, h]

namespace Matcher
variable {matcher : Matcher} {threads : List ℕ} {n : ℕ} {best : Option ℕ} {before : Option Char}

@[simp] theorem follow_nil (place : Place) (fuel : ℕ) (seen : Std.TreeSet ℕ)
    (reads : List (Text.Ranges × ℕ)) :
    matcher.follow place fuel [] seen reads = ⟨reads.reverse, false⟩ := by
  cases fuel <;> rfl

theorem wave_read {a : ℕ} {chars : Text.Ranges} (h : matcher.nodes[a]? = some (.read chars))
    (place : Place) : matcher.wave place [a] = ⟨[(chars, a + 1)], false⟩ := by
  simp [wave, follow, h]

theorem wave_look {a : ℕ} {test : Look} (h : matcher.nodes[a]? = some (.look test))
    (h' : matcher.nodes[a + 1]? = some .accept) (place : Place) :
    matcher.wave place [a] = ⟨[], place.passes test⟩ := by
  have hsize : 0 < matcher.nodes.size := Nat.zero_lt_of_lt (Array.getElem?_eq_some_iff.mp h).1
  obtain ⟨fuel,hfuel⟩ := Nat.exists_eq_add_of_lt hsize
  have hseen : ((∅ : Std.TreeSet ℕ).insert a).contains (a + 1) = false := by
    simp [Std.TreeSet.contains_insert]
  cases hpass : place.passes test with
  | false => simp [wave, follow, h, hpass]
  | true => simp [wave, follow, h, h', hpass, hseen, hfuel, Nat.mul_add, ← Nat.add_assoc]

/-- The place where threads stand decides whether a match ends there and which threads go on. -/
theorem lengthFrom_eq (threads : List ℕ) (n : ℕ) (best : Option ℕ) (before : Option Char)
    (text : List Char) {wave : Wave} (h : matcher.wave ⟨before, text.head?⟩ threads = wave) :
    matcher.lengthFrom threads n best before text =
      match text with
      | [] => if wave.accepts then some n else best
      | c :: rest =>
        match wave.threadsAfter c with
        | [] => if wave.accepts then some n else best
        | t :: ts => matcher.lengthFrom (t :: ts) (n + 1)
          (if wave.accepts then some n else best) (some c) rest := by
  subst h
  cases text <;> rfl

theorem lengthFrom_end {accepts : Bool} {text : List Char}
    (h : matcher.wave ⟨before, text.head?⟩ threads = ⟨[], accepts⟩) :
    matcher.lengthFrom threads n best before text = if accepts then some n else best := by
  rw [lengthFrom_eq _ _ _ _ _ h]
  cases text <;> rfl

/-- Threads that accept, or read one more character of a set and come to the same again, take the
longest run of the set. -/
theorem lengthFrom_run {chars : Text.Ranges} (loop : ℕ)
    (h : ∀ place, matcher.wave place threads = ⟨[(chars, loop)], true⟩)
    (hloop : ∀ place, matcher.wave place [loop] = ⟨[(chars, loop)], true⟩) (text : List Char) :
    matcher.lengthFrom threads n best before text =
      some (n + (text.takeWhile chars.has).length) := by
  induction text generalizing threads n best before with
  | nil =>
    rw [lengthFrom_eq _ _ _ _ _ (h _)]
    rfl
  | cons c rest ih =>
    rw [lengthFrom_eq _ _ _ _ _ (h _), List.takeWhile_cons]
    cases hc : chars.has c with
    | false => simp [Wave.threadsAfter_cons, hc]
    | true =>
      simp only [Wave.threadsAfter_cons, hc, ↓reduceIte, Wave.threadsAfter_nil, List.append_nil]
      rw [ih hloop, List.length_cons]
      congr 1
      omega

/-- Threads that read a character of a set and come to the same again, or a closing character and
accept, take what stands before the first character outside the set, if that closes. -/
theorem lengthFrom_until {inside close : Text.Ranges} (loop done : ℕ)
    (h : ∀ place, matcher.wave place threads = ⟨[(inside, loop), (close, done)], false⟩)
    (hloop : ∀ place, matcher.wave place [loop] = ⟨[(inside, loop), (close, done)], false⟩)
    (hdone : ∀ place, matcher.wave place [done] = ⟨[], true⟩)
    (hclose : ∀ c, close.has c = true → inside.has c = false) (text : List Char) :
    matcher.lengthFrom threads n none before text =
      if (text.dropWhile inside.has).head?.any close.has then
        some (n + (text.takeWhile inside.has).length + 1) else none := by
  induction text generalizing threads n before with
  | nil =>
    rw [lengthFrom_eq _ _ _ _ _ (h _)]
    rfl
  | cons c rest ih =>
    rw [lengthFrom_eq _ _ _ _ _ (h _), List.takeWhile_cons, List.dropWhile_cons]
    simp only [Wave.threadsAfter_cons, Wave.threadsAfter_nil, List.append_nil]
    cases hc : close.has c with
    | true =>
      simp [hclose c hc, hc, lengthFrom_end (hdone _)]
    | false =>
      cases hi : inside.has c with
      | false => simp [hc]
      | true =>
        simp only [↓reduceIte, Bool.false_eq_true, List.append_nil]
        rw [ih hloop, List.length_cons]
        split_ifs
        · congr 1
          omega
        · rfl

/-- A matcher whose matches start with the text matches a beginning of it. -/
theorem find?_eq (h : matcher.anchored = true) (text : List Char) :
    matcher.find? text = (matcher.length? none text).map text.take := by
  cases text with
  | nil =>
    rw [find?, findFrom]
    congr 1
    funext n
    exact List.take_nil.symm
  | cons c rest =>
    rw [find?, findFrom]
    cases matcher.length? none (c :: rest) <;> simp [h]

end Matcher

namespace Pattern

def fromStart (p : Pattern) : Pattern := .seq (.look .textStart) p

def runOf (first rest : Text.Ranges) : Pattern :=
  fromStart (.seq (.set first) (.repeated (.set rest) 0 none true))

def between (mark : Char) (inside : Text.Ranges) : Pattern :=
  .seq (.literal [mark]) (.seq (.repeated (.set inside) 0 none true) (.literal [mark]))

def wholeWord (word : List Char) : Pattern :=
  fromStart (.seq (.literal word) (.look .wordBoundary))

end Pattern

namespace Matcher
variable {matcher : Matcher} (c : Char) (cs : List Char)

theorem find?_cons {first : Text.Ranges} {next : ℕ} (h : matcher.anchored = true)
    (hstart : ∀ after, matcher.wave ⟨none, after⟩ [0] = ⟨[(first, next)], false⟩) :
    matcher.find? (c :: cs) = if first.has c then
      (matcher.lengthFrom [next] 1 none (some c) cs).map (c :: cs).take else none := by
  rw [find?_eq h, length?, lengthFrom_eq _ _ _ _ _ (hstart _)]
  cases hc : first.has c <;> simp [Wave.threadsAfter_cons, hc]

theorem find?_run {first rest : Text.Ranges} (next loop : ℕ) (h : matcher.anchored = true)
    (hstart : ∀ after, matcher.wave ⟨none, after⟩ [0] = ⟨[(first, next)], false⟩)
    (hnext : ∀ place, matcher.wave place [next] = ⟨[(rest, loop)], true⟩)
    (hloop : ∀ place, matcher.wave place [loop] = ⟨[(rest, loop)], true⟩) :
    matcher.find? (c :: cs) =
      if first.has c then some (c :: cs.takeWhile rest.has) else none := by
  rw [find?_cons c cs h hstart, lengthFrom_run loop hnext hloop]
  have hrun : cs.takeWhile rest.has <+: cs := List.takeWhile_prefix rest.has
  have htake := List.prefix_iff_eq_take.mp hrun
  simp [Nat.add_comm 1, ← htake]

theorem find?_repeated (chars : Text.Ranges) :
    (ofPattern (.fromStart (.repeated (.set chars) 1 none true))).find? (c :: cs) =
      if chars.has c then some (c :: cs.takeWhile chars.has) else none :=
  find?_run c cs 2 2 rfl (fun _ => rfl) (fun _ => rfl) (fun _ => rfl)

theorem find?_runOf (first : Text.Ranges) {rest : Text.Ranges} (h : rest ≠ []) :
    (ofPattern (.runOf first rest)).find? (c :: cs) =
      if first.has c then some (c :: cs.takeWhile rest.has) else none := by
  obtain ⟨r,rs,rfl⟩ := List.exists_cons_of_ne_nil h
  exact find?_run c cs 2 4 rfl (fun _ => rfl) (fun _ => rfl) (fun _ => rfl)

theorem find?_char (mark : Char) : (ofPattern (.fromStart (.literal [mark]))).find? (c :: cs) =
    if c = mark then some [c] else none := by
  set matcher := ofPattern (.fromStart (.literal [mark]))
  have hstart : ∀ after, matcher.wave ⟨none, after⟩ [0] = ⟨[(.single mark, 2)], false⟩ :=
    fun _ => rfl
  have hdone : ∀ place, matcher.wave place [2] = ⟨[], true⟩ := fun _ => rfl
  rw [find?_cons c cs rfl hstart, lengthFrom_end (hdone _)]
  simp

theorem map_take_until (inside : Text.Ranges) (mark : Char) :
    (if (cs.dropWhile inside.has).head?.any (Text.Ranges.single mark).has then
      some (1 + (cs.takeWhile inside.has).length + 1) else none).map (c :: cs).take =
    if (cs.dropWhile inside.has).head? = some mark then
      some (c :: cs.takeWhile inside.has ++ [mark]) else none := by
  have hcs := List.takeWhile_append_dropWhile (p := inside.has) (l := cs)
  cases hd : cs.dropWhile inside.has with
  | nil => simp
  | cons d rest =>
    rw [hd] at hcs
    by_cases hmark : d = mark
    · subst hmark
      simp only [List.head?_cons, Option.any_some, Text.Ranges.has_single, decide_true, ↓reduceIte,
        Option.map_some, Option.some.injEq]
      rw [Nat.add_comm 1, List.take_succ_cons]
      nth_rewrite 2 [← hcs]
      rw [List.take_length_add_append]
      rfl
    · simp [hmark]

/-- Texts between marks of two kinds: up to the next mark of the same kind, if nothing outside the
set comes before it. -/
theorem find?_between {a b : Char} {insideA insideB : Text.Ranges} (hab : a ≠ b)
    (ha : insideA.has a = false) (hb : insideB.has b = false) (hA : insideA ≠ [])
    (hB : insideB ≠ []) :
    (ofPattern (.fromStart (.alt (.between a insideA) (.between b insideB)))).find? (c :: cs) =
      if c = a then
        if (cs.dropWhile insideA.has).head? = some a then
          some (c :: cs.takeWhile insideA.has ++ [a]) else none
      else if c = b then
        if (cs.dropWhile insideB.has).head? = some b then
          some (c :: cs.takeWhile insideB.has ++ [b]) else none
      else none := by
  obtain ⟨r,rs,rfl⟩ := List.exists_cons_of_ne_nil hA
  obtain ⟨r',rs',rfl⟩ := List.exists_cons_of_ne_nil hB
  set matcher := ofPattern (.fromStart (.alt (.between a (r :: rs)) (.between b (r' :: rs'))))
  have hstart : ∀ after, matcher.wave ⟨none, after⟩ [0] =
    ⟨[(.single a, 3), (.single b, 9)], false⟩ := fun _ => rfl
  have hclose : ∀ {inside : Text.Ranges} {mark : Char}, inside.has mark = false →
      ∀ d, (Text.Ranges.single mark).has d = true → inside.has d = false := by
    intro inside mark hmark d hd
    rw [Text.Ranges.has_single, decide_eq_true_eq] at hd
    rw [hd]
    exact hmark
  have hfirst : matcher.lengthFrom [3] 1 none (some c) cs = _ :=
    lengthFrom_until 5 7 (fun _ => rfl) (fun _ => rfl) (fun _ => rfl) (hclose ha) cs
  have hsecond : matcher.lengthFrom [9] 1 none (some c) cs = _ :=
    lengthFrom_until 11 13 (fun _ => rfl) (fun _ => rfl) (fun _ => rfl) (hclose hb) cs
  rw [find?_eq rfl, length?, lengthFrom_eq _ _ _ _ _ (hstart _)]
  by_cases hca : c = a
  · subst hca
    simp only [Wave.threadsAfter_cons, Text.Ranges.has_single, hab, decide_true, decide_false,
      ↓reduceIte, Wave.threadsAfter_nil, Bool.false_eq_true, List.append_nil, Nat.zero_add]
    rw [hfirst, map_take_until]
  · by_cases hcb : c = b
    · subst hcb
      simp only [Wave.threadsAfter_cons, Text.Ranges.has_single, hca, decide_true, decide_false,
        ↓reduceIte, Wave.threadsAfter_nil, Bool.false_eq_true, List.append_nil, List.nil_append,
        Nat.zero_add]
      rw [hsecond, map_take_until]
    · simp [Wave.threadsAfter_cons, hca, hcb]

section WholeWord
variable {word : List Char}

theorem getElem?_wholeWord {front back : List Char} (h : word = front ++ back) (i : ℕ) :
    (ofPattern (.wholeWord word)).nodes[front.length + 1 + i]? =
      (back.map (fun c => Node.read (.single c)) ++ [.look .wordBoundary, .accept])[i]? := by
  have hnodes : (ofPattern (.wholeWord word)).nodes.toList =
      (.look .textStart :: front.map fun c => .read (.single c)) ++
        (back.map (fun c => .read (.single c)) ++ [.look .wordBoundary, .accept]) := by
    simp [ofPattern, Pattern.wholeWord, Pattern.fromStart, Pattern.nodes, h]
  rw [← Array.getElem?_toList, hnodes, List.getElem?_append_right (by simp)]
  simp

/-- After a part of a word, what is left of it has to follow, and then no word character. -/
theorem lengthFrom_wholeWord (front back : List Char) (h : word = front ++ back)
    (hword : ∀ d ∈ word, Text.isWord d = true) {n : ℕ} {before : Char}
    (hbefore : Text.isWord before = true) (text : List Char) :
    (ofPattern (.wholeWord word)).lengthFrom [front.length + 1] n none (some before) text =
      if back <+: text ∧ (text.drop back.length).head?.any Text.isWord = false then
        some (n + back.length) else none := by
  induction back generalizing front n before text with
  | nil =>
    have hlook := getElem?_wholeWord h 0
    have haccept := getElem?_wholeWord h 1
    rw [lengthFrom_end (wave_look hlook haccept _)]
    simp [Place.passes, Place.wordBefore, Place.wordAfter, hbefore]
  | cons b back ih =>
    have hread := getElem?_wholeWord h 0
    rw [lengthFrom_eq _ _ _ _ _ (wave_read hread _)]
    cases text with
    | nil => simp
    | cons c rest =>
      by_cases hc : c = b
      · subst hc
        have hfront : word = (front ++ [c]) ++ back := by simp [h]
        have hrest := ih (n := n + 1) (front ++ [c]) hfront (hword c (by simp [h])) rest
        rw [List.length_append, List.length_singleton] at hrest
        simp only [Wave.threadsAfter_cons, Text.Ranges.has_single, decide_true, ↓reduceIte,
          Wave.threadsAfter_nil, List.append_nil, Bool.false_eq_true]
        rw [hrest]
        simp [List.cons_prefix_cons, Nat.add_assoc, Nat.add_comm 1]
      · have hne : b ≠ c := fun h => hc h.symm
        simp [Wave.threadsAfter_cons, hc, hne, List.cons_prefix_cons]

theorem find?_wholeWord (hne : word ≠ []) (hword : ∀ d ∈ word, Text.isWord d = true) :
    (ofPattern (.wholeWord word)).find? (c :: cs) =
      if word <+: c :: cs ∧ ((c :: cs).drop word.length).head?.any Text.isWord = false then
        some word else none := by
  obtain ⟨b,back,rfl⟩ := List.exists_cons_of_ne_nil hne
  have hstart : ∀ after, (ofPattern (.wholeWord (b :: back))).wave ⟨none, after⟩ [0] =
      ⟨[(.single b, 2)], false⟩ := fun _ => rfl
  have hb : Text.isWord b = true := hword b List.mem_cons_self
  rw [find?_cons c cs rfl hstart]
  by_cases hc : c = b
  · subst hc
    have hlength : (ofPattern (.wholeWord (c :: back))).lengthFrom [2] 1 none (some c) cs = _ :=
      lengthFrom_wholeWord [c] back rfl hword hb cs
    simp only [Text.Ranges.has_single, decide_true, ↓reduceIte, hlength, List.length_cons,
      List.drop_succ_cons, List.cons_prefix_cons, true_and]
    split_ifs with h
    · have htake := List.prefix_iff_eq_take.mp h.1
      simp [Nat.add_comm 1, ← htake]
    · rfl
  · have hne : b ≠ c := fun h => hc h.symm
    simp [hc, hne, List.cons_prefix_cons]

end WholeWord

end Matcher

end LetPrint
