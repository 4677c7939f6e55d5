import LetPrint.Proofs.Relocation
import LetPrint.Proofs.Spelling

/-! # Slices of a source

In a source that is lexed without an error, a token ends where what stands behind it does not
matter, even if nothing does. So the stream can be cut behind any token, and the text up to there
has the first part of the stream. A text that is cut out stands at a place of its own, from which
the places inside it are counted.
-/
namespace LetPrint

namespace Position

/-- A place of a text that stands at `base`, counted from the start of the text. -/
def relative (base p : Position) : Position :=
  ⟨p.line - base.line + 1,
    if p.line = base.line then p.column - base.column + 1 else p.column,
    p.offset - base.offset⟩

theorem relative_self (base : Position) : base.relative base = start := by
  simp [relative, start]

theorem relative_step {base p : Position} {c : Char} (h : c = '\n' → p.line + 1 ≠ base.line) :
    base.relative (p.step c) = (base.relative p).step c := by
  have hmove : ∀ a b c : UInt64, a + b - c = a - c + b := by grind
  unfold step relative
  by_cases hc : c = '\n'
  · simp only [if_pos hc, if_neg (h hc), hmove]
  · simp only [if_neg hc, hmove]
    split_ifs <;> rfl

/-- A text with fewer than `2 ^ 64` line feeds does not lead back to the line it starts in. -/
theorem line_advance_ne (base : Position) {cs : List Char} (h : cs.count '\n' + 1 < 2 ^ 64) :
    (base.advance cs).line + 1 ≠ base.line := by
  intro heq
  have hzero : UInt64.ofNat (cs.count '\n' + 1) = 0 := by
    rw [line_advance, UInt64.add_assoc] at heq
    rw [UInt64.ofNat_add]
    exact UInt64.add_eq_left.mp heq
  have hcount : cs.count '\n' + 1 = 0 := by
    rw [← UInt64.toNat_ofNat_of_lt' h, hzero]
    rfl
  omega

theorem carried_relative (base : Position) {text : List Char} (h : text.count '\n' < 2 ^ 64) :
    base.Carried base.relative text := by
  intro front hfront
  rw [relative_self]
  induction front using List.reverseRecOn with
  | nil => exact relative_self base
  | append_singleton cs c ih =>
    rw [advance_append, advance_append, ← ih ((List.prefix_append cs [c]).trans hfront)]
    apply relative_step
    rintro rfl
    apply line_advance_ne
    have hcount := hfront.sublist.count_le '\n'
    rw [List.count_append, List.count_singleton_self] at hcount
    omega

end Position

namespace Scanner
variable {position : Position} {text : List Char}

theorem isSpace_of_scanFrom_nil (h : scanFrom position text = []) :
    ∀ c ∈ text, Text.isSpace c = true := by
  fun_induction scanFrom position text with
  | case1 => simp
  | case2 position c cs hspace ih => exact List.forall_mem_cons.mpr ⟨hspace,ih h⟩
  | case3 => cases h
  | case4 => cases h

theorem exists_place_of_mem {token : Token} (h : .ok token ∈ scanFrom position text) :
    ∃ lead trail, text = lead ++ token.text.toList ++ trail ∧
      token.position = position.advance lead := by
  fun_induction scanFrom position text with
  | case1 => cases h
  | case2 position c cs hspace ih =>
    obtain ⟨lead,trail,rfl,hplace⟩ := ih h
    exact ⟨c :: lead,trail,rfl,hplace⟩
  | case3 => simp at h
  | case4 position c cs hspace kind chars htoken ih =>
    obtain ⟨rest,hrest,_,_⟩ := scanFrom_of_token? position htoken
    rw [hrest, List.drop_left] at ih h
    rw [hrest]
    rcases List.mem_cons.mp h with heq | hmem
    · cases heq
      exact ⟨[],rest,by simp,rfl⟩
    · obtain ⟨lead,trail,rfl,hplace⟩ := ih hmem
      exact ⟨chars ++ lead,trail,by simp,by rw [hplace, Position.advance_append]⟩

theorem exists_gap {token : Token} {tokens : List Token}
    (h : scanFrom position text = (token :: tokens).map .ok) : ∃ gap rest,
      text = gap ++ rest ∧ (∀ c ∈ gap, Text.isSpace c = true) ∧
      token.position = position.advance gap ∧
      scanFrom (position.advance gap) rest = (token :: tokens).map .ok := by
  fun_induction scanFrom position text with
  | case1 => cases h
  | case2 position c cs hspace ih =>
    obtain ⟨gap,rest,rfl,hgap,hplace,hscan⟩ := ih h
    exact ⟨c :: gap,rest,rfl,List.forall_mem_cons.mpr ⟨hspace,hgap⟩,hplace,hscan⟩
  | case3 => cases h
  | case4 position c cs hspace kind chars htoken ih =>
    obtain ⟨rest,hrest,_,hscan⟩ := scanFrom_of_token? position htoken
    rw [hrest, List.drop_left] at h
    obtain ⟨hfirst,_⟩ := List.cons.inj h
    cases hfirst
    exact ⟨[],c :: cs,rfl,by simp,rfl,hscan.trans h⟩

/-- A stream of tokens can be cut behind a token: the first part is the stream of the text up to the
end of the token. -/
theorem exists_cut {front back : List Token} (hne : front ≠ [])
    (h : scanFrom position text = (front ++ back).map .ok) : ∃ slice rest,
      text = slice ++ rest ∧ scanFrom position slice = front.map .ok ∧
      scanFrom (position.advance slice) rest = back.map .ok ∧
      front.getLast?.map (·.span.stop) = some (position.advance slice) := by
  obtain ⟨first,others,rfl⟩ := List.exists_cons_of_ne_nil hne
  fun_induction scanFrom position text generalizing first others with
  | case1 => cases h
  | case2 position c cs hspace ih =>
    obtain ⟨slice,rest,rfl,hslice,hrest,hstop⟩ := ih first others hne h
    refine ⟨c :: slice,rest,rfl,?_,hrest,hstop⟩
    rw [scanFrom, if_pos hspace, hslice]
  | case3 => cases h
  | case4 position c cs hspace kind chars htoken ih =>
    obtain ⟨rest,hrest,_,_⟩ := scanFrom_of_token? position htoken
    rw [hrest, List.drop_left] at ih h
    rw [hrest] at htoken ⊢
    obtain ⟨hfirst,hothers⟩ := List.cons.inj h
    cases hfirst
    have hclean : ∀ e, .error e ∉ scanFrom (position.advance chars) rest := by
      intro e he
      rw [hothers] at he
      simp at he
    have hfirst : ∀ short, short <+: rest → scanFrom position (chars ++ short) =
        .ok ⟨kind, String.ofList chars, position⟩ :: scanFrom (position.advance chars) short :=
      fun short hshort => scanFrom_append position (token?_cutoff _ htoken hclean hshort)
    cases others with
    | nil =>
      refine ⟨chars,rest,rfl,?_,hothers,?_⟩
      · have hscan := hfirst [] List.nil_prefix
        rw [List.append_nil, scanFrom] at hscan
        exact hscan
      · simp [Token.span, Position.after]
    | cons second others =>
      obtain ⟨slice,left,rfl,hslice,hleft,hstop⟩ := ih second others (by simp) hothers
      refine ⟨chars ++ slice,left,by simp,?_,?_,?_⟩
      · rw [hfirst slice (List.prefix_append slice left), hslice]
        rfl
      · rw [Position.advance_append, hleft]
      · rw [List.getLast?_cons_cons, hstop, Position.advance_append]

end Scanner

end LetPrint
