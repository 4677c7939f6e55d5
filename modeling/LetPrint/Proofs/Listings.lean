import LetPrint.Proofs.Legible
import LetPrint.Proofs.Places
import LetPrint.Proofs.Sessions

/-! # Listings of tokens

A listing has a line for each token of a source, up to its end or to its error. It is written line
by line, but a sink cannot tell this from the whole listing written at once, so what it takes is a
beginning of the listing. Since lines are legible, the listing gives back the tokens.
-/
namespace LetPrint

def Token.line (t : Token) : List Char := t.render.toList ++ ['\n']

def Token.listing (tokens : List Token) : List UInt8 := Text.bytes (tokens.flatMap line)

namespace Token

theorem legible_line : Text.Legible line := by
  intro t t' x y h
  simp only [line, List.append_assoc] at h
  obtain ⟨rfl,hrest⟩ := legible_render h
  exact ⟨rfl,List.append_cancel_left hrest⟩

theorem exists_line_start (t : Token) : ∃ c cs, t.line = c :: cs ∧ c ≠ '\n' := by
  have hne : t.render.toList ≠ [] := by simp [render]
  obtain ⟨c,cs,hrender⟩ := List.exists_cons_of_ne_nil hne
  refine ⟨c,cs ++ ['\n'],by rw [line, hrender, List.cons_append],?_⟩
  rintro rfl
  exact t.newline_not_mem_render (hrender ▸ List.mem_cons_self)

theorem listing_injective : Function.Injective listing := by
  intro tokens tokens' h
  have hlines := Text.bytes_injective h
  exact (legible_line.row exists_line_start).injective (congrArg (· ++ ['\n']) hlines)

theorem listing_cons (t : Token) (tokens : List Token) :
    listing (t :: tokens) = Text.bytes (t.render.toList ++ ['\n']) ++ listing tokens :=
  List.flatMap_append

end Token

namespace Sink

/-- Writing is over at the first error. -/
def andThen (result : Except Error Unit × Sink) (more : Sink → Except Error Unit × Sink) :
    Except Error Unit × Sink :=
  match result with
  | (.error e, sink) => (.error e, sink)
  | (.ok (), sink) => more sink

theorem writeBytes_nil (sink : Sink) : sink.writeBytes [] = (.ok (), sink) := by
  obtain ⟨written,room,_,_,_,_⟩ := sink
  cases room <;> simp [writeBytes]

theorem writeBytes_of_room {sink : Sink} {bytes : List UInt8}
    (h : ∀ n, sink.room = some n → bytes.length ≤ n) : ∃ room, sink.writeBytes bytes =
      (.ok (), { sink with written := sink.written ++ bytes, room := room }) := by
  cases hroom : sink.room with
  | none => exact ⟨none,by simp [writeBytes, hroom]⟩
  | some n =>
    have hfits := h n hroom
    exact ⟨some (n - bytes.length),by simp [writeBytes, hroom, hfits, List.take_of_length_le]⟩

theorem writeBytes_append (sink : Sink) (front back : List UInt8) :
    sink.writeBytes (front ++ back) = andThen (sink.writeBytes front) (·.writeBytes back) := by
  cases hroom : sink.room with
  | none => simp [writeBytes, andThen, hroom]
  | some room =>
    by_cases hfits : front.length ≤ room
    · have hback : front.length + back.length ≤ room ↔ back.length ≤ room - front.length := by
        omega
      simp [writeBytes, andThen, hroom, hfits, hback, List.take_append,
        List.take_of_length_le hfits, Nat.sub_add_eq, full]
    -- what does not fit is cut where it would be cut alone, and there is no room behind it
    · have hall : ¬ front.length + back.length ≤ room := by omega
      have hnone : room - (front.length + back.length) = room - front.length := by omega
      have hcut : room ≤ front.length := by omega
      simp [writeBytes, andThen, hroom, hfits, hall, hnone, List.take_append_of_le_length hcut]

theorem written_andThen_flushAfter (result : Except Error Unit × Sink)
    (outcome : Except Error Unit) :
    (andThen result (·.flushAfter outcome)).2.written = result.2.written := by
  obtain ⟨first,sink⟩ := result
  cases first with
  | error e => rfl
  | ok _ => cases outcome <;> rfl

end Sink

namespace Session
variable {s : Session} {source : String}

/-- Lines are written as if the whole listing were written at once. -/
theorem value_writeLines (sink : Sink) (tokens : List Token) (ending : List (Except Error Token)) :
    (writeLines sink (tokens.map .ok ++ ending)).value =
      Sink.andThen (sink.writeBytes (Token.listing tokens)) fun sink =>
        (writeLines sink ending).value := by
  induction tokens generalizing sink with
  | nil =>
    have hnil : Token.listing [] = [] := rfl
    rw [hnil, Sink.writeBytes_nil]
    rfl
  | cons t tokens ih =>
    rw [Token.listing_cons, Sink.writeBytes_append, List.map_cons, List.cons_append, writeLines,
      Traced.value_bind, Sink.writeLine]
    cases hline : sink.writeBytes (Text.bytes (t.render.toList ++ ['\n'])) with
    | mk result after =>
      cases result with
      | error e => rfl
      | ok _ => exact ih after

theorem value_collect (tokens : List Token) (ending : List (Except Error Token)) :
    (collect (tokens.map .ok ++ ending)).value = (collect ending).value.map (tokens ++ ·) := by
  induction tokens with
  | nil =>
    rw [List.map_nil, List.nil_append]
    cases (collect ending).value <;> rfl
  | cons t tokens ih =>
    rw [List.map_cons, List.cons_append, collect, Traced.value_bind, Traced.value_map, ih]
    cases (collect ending).value <;> rfl

theorem exists_tokens_ending (source : String) :
    ∃ (tokens : List Token) (ending : List (Except Error Token)),
      Scanner.scan source = tokens.map .ok ++ ending ∧
        (ending = [] ∨ ∃ e, ending = [.error e]) := by
  obtain ⟨pieces,gap,rest,hcuts⟩ := Scanner.exists_cuts [] source.toList
  refine ⟨pieces.map Piece.token,?_⟩
  rw [List.map_map]
  rcases hcuts.ending with ⟨_,hstream⟩ | ⟨c,more,_,hstream⟩
  · exact ⟨[],hstream.trans (List.append_nil _).symm,Or.inl rfl⟩
  · exact ⟨_,hstream,Or.inr ⟨_,rfl⟩⟩

theorem value_lexSource (s : Session) (source : String) : (s.lexSource source).value =
    ((collect (Scanner.scan source)).value, { s with lexerReady := true }) := by
  rw [lexSource, Traced.value_bind, value_lexer_eq, ← Lexer.scan_languageRules]
  rfl

theorem value_writeTokens (s : Session) {source : String} {tokens : List Token}
    {ending : List (Except Error Token)} {outcome : Except Error Unit}
    (hscan : Scanner.scan source = tokens.map .ok ++ ending)
    (hending : ∀ sink, (writeLines sink ending).value = (outcome, sink)) (sink : Sink) :
    ∃ after, (s.writeTokens source sink).value = (after.1, { s with lexerReady := true }, after.2) ∧
      after = Sink.andThen (sink.writeBytes (Token.listing tokens)) (·.flushAfter outcome) := by
  refine ⟨_,?_,rfl⟩
  rw [writeTokens, Traced.value_bind, value_lexer_eq, Traced.value_bind, Lexer.scan_languageRules,
    hscan, value_writeLines]
  simp only [hending]
  cases sink.writeBytes (Token.listing tokens) with
  | mk result after => cases result <;> rfl

/-- Writing the tokens of a source lists those before its end or its error, and gives the error that
lexing it gives. A sink with limited room gets the beginning of the listing. No line is broken and
no two listings are equal, so the tokens can be told from the listing. -/
theorem writeTokens_lists : (∀ t : Token, '\n' ∉ t.render.toList) ∧
    Function.Injective Token.render ∧ Function.Injective Token.listing ∧
    ∀ (s : Session) (source : String), ∃ lexer tokens ending result,
      Lexer.language.value = .ok lexer ∧ lexer.scan source = tokens.map .ok ++ ending ∧
      (ending = [] ∧ result = .ok tokens ∨ ∃ e, ending = [.error e] ∧ result = .error e) ∧
      (s.lexSource source).value.1 = result ∧
      (∀ sink : Sink, (∀ n, sink.room = some n → (Token.listing tokens).length ≤ n) →
        sink.flushFails = false →
        (s.writeTokens source sink).value.1 = result.map (fun _ => ()) ∧
        (s.writeTokens source sink).value.2.2.written = sink.written ++ Token.listing tokens) ∧
      ∀ (sink : Sink) (n : ℕ), sink.room = some n →
        (s.writeTokens source sink).value.2.2.written = sink.written ++
          (Token.listing tokens).take (min n (Token.listing tokens).length) := by
  refine ⟨Token.newline_not_mem_render,?_,Token.listing_injective,fun s source => ?_⟩
  · intro t t' h
    exact Token.legible_render.injective (congrArg String.toList h)
  obtain ⟨tokens,ending,hscan,hending⟩ := exists_tokens_ending source
  obtain ⟨result,hresult,hlexed,hlines⟩ : ∃ result : Except Error (List Token),
      (ending = [] ∧ result = .ok tokens ∨ ∃ e, ending = [.error e] ∧ result = .error e) ∧
      (collect ending).value.map (tokens ++ ·) = result ∧
      ∀ sink, (writeLines sink ending).value = (result.map fun _ => (), sink) := by
    rcases hending with rfl | ⟨e,rfl⟩
    · exact ⟨.ok tokens,Or.inl ⟨rfl,rfl⟩,by simp [collect, Except.map],fun _ => rfl⟩
    · exact ⟨.error e,Or.inr ⟨e,rfl,rfl⟩,rfl,fun _ => rfl⟩
  refine ⟨⟨Lexer.languageRules⟩,tokens,ending,result,Lexer.language_value,?_,hresult,?_,?_,?_⟩
  · rw [Lexer.scan_languageRules, hscan]
  · rw [value_lexSource, hscan, value_collect, hlexed]
  · intro sink hroom hflush
    obtain ⟨after,hvalue,rfl⟩ := value_writeTokens s hscan hlines sink
    obtain ⟨room,hwritten⟩ := Sink.writeBytes_of_room hroom
    rw [hvalue, hwritten]
    cases result with
    | error e => exact ⟨rfl,rfl⟩
    | ok _ => simp [Sink.andThen, Sink.flushAfter, Sink.flush, hflush, Except.map]
  · intro sink n hroom
    obtain ⟨after,hvalue,rfl⟩ := value_writeTokens s hscan hlines sink
    rw [hvalue, Sink.written_andThen_flushAfter, Sink.writeBytes, hroom, ← List.take_eq_take_min]

/-- The second text looks like the end of a line, and the sink of the last run is full before its
line is over. -/
theorem writeTokens_lists_quotes :
    let source := "let '\" (1, 1, 0)\\n'?"
    let error : Error := .located (.unrecognisedToken "?") ⟨1, 20, 19⟩
    let listing := Token.listing
      [⟨.letKeyword, "let", ⟨1, 1, 0⟩⟩, ⟨.stringLiteral, "'\" (1, 1, 0)\\n'", ⟨1, 5, 4⟩⟩]
    (lexSource {} source).value.1 = .error error ∧
      (writeTokens {} source {}).value.1 = .error error ∧
      (writeTokens {} source {}).value.2.2.written = listing ∧
      (writeTokens {} source { room := some 40 }).value.2.2.written = listing.take 40 := by
  intro source error listing
  obtain ⟨lexer,tokens,ending,result,hlexer,hscan,hresult,hlexed,hfree,hfull⟩ :=
    writeTokens_lists.2.2.2 {} source
  have hevaluated : (lexSource {} source).value.1 = .error error := by decide +kernel
  obtain rfl := hlexed.symm.trans hevaluated
  obtain rfl := Except.ok.inj (Lexer.language_value.symm.trans hlexer)
  have hstream : Lexer.scan ⟨Lexer.languageRules⟩ source =
      [⟨.letKeyword, "let", ⟨1, 1, 0⟩⟩,
        ⟨.stringLiteral, "'\" (1, 1, 0)\\n'", ⟨1, 5, 4⟩⟩].map .ok ++ [.error error] := by
    decide +kernel
  obtain ⟨_,hcontra⟩ | ⟨e,rfl,_⟩ := hresult
  · cases hcontra
  have htokens := (List.append_inj' (hscan.symm.trans hstream) rfl).1
  obtain rfl := List.map_injective_iff.mpr (fun _ _ => Except.ok.inj) htokens
  have hroom : 40 ≤ listing.length := by decide +kernel
  obtain ⟨hok,hwritten⟩ := hfree {} (fun _ h => nomatch h) rfl
  refine ⟨hevaluated,hok,hwritten,?_⟩
  rw [hfull { room := some 40 } 40 rfl, min_eq_left hroom]
  rfl

end Session

end LetPrint
