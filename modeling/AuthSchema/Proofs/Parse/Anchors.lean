import AuthSchema.Proofs.Parse.Recovery
import AuthSchema.Proofs.Parse.Viable
import AuthSchema.Proofs.Token.Segmentation

/-!
Where the errors of a text stand, also when reading goes on behind them.

* Each error is about tokens of the text, or about its end, and quotes what stands there.
* A failed production stops at its error or shortly behind it, and never passes the token at which
  reading goes on. So errors come in document order.
* A token is reported at most twice: as the end of a faulty member, and as the end of its body.
-/

namespace AuthSchema

/-- Blanks or comments, and nothing else, lie between two tokens of a source. -/
def Token.SpacedBefore (source : String) (first second : Token) : Prop :=
  first.stop.offset < second.start.offset ∧
    SkippedIn source first.stop.offset second.start.offset

/-- An error that stands on the tokens it is about, and quotes them as they are written. -/
def SyntaxError.AnchoredIn (source : String) (error : SyntaxError) : Prop :=
  match error.cause with
  | .unknownToken text =>
    ∃ token ∈ (tokenize source).tokens, token.kind = .unknown ∧ token.text = text ∧
      error.range = token.range
  | .unexpected _ found =>
    ∃ token ∈ (tokenize source).tokens, token.kind ≠ .unknown ∧ token.text = found ∧
      error.range = token.range
  | .unexpectedEnd _ => error.range = .empty (tokenize source).stop
  | .spacedPath path =>
    -- The three tokens of the path follow one another, with a gap before or behind the slash.
    ∃ first slash second, [first, slash, second] <:+: (tokenize source).tokens ∧
      first.kind = .identifier ∧ slash.kind = .slash ∧ second.kind = .identifier ∧
      path = first.text ++ "/" ++ second.text ∧
      error.range = ⟨first.range.start, second.range.stop⟩ ∧
      (first.SpacedBefore source slash ∨ slash.SpacedBefore source second)
  | .nestedTooDeeply =>
    ∃ token ∈ (tokenize source).tokens, token.kind = .leftParen ∧ error.range = token.range

/-- An error that stands on what it is about, and starts between two positions. -/
structure SyntaxError.StandsBetween (source : String) (start stop : Position)
    (error : SyntaxError) : Prop where
  anchored : error.AnchoredIn source
  reached : start ≤ error.range.start
  stops : error.range.start ≤ stop

/-- Where the next token starts, or the text stops. -/
def nextStart (source : String) : List Token → Position
  | [] => (tokenize source).stop
  | token :: _ => token.range.start

section Tokens

variable {source : String} {token : Token} {tokens ahead rest : List Token}

/-- No token reaches beyond the end of the text. -/
theorem stop_le_of_mem_tokenize (listed : token ∈ (tokenize source).tokens) :
    token.range.stop ≤ (tokenize source).stop := by
  obtain ⟨before, rest, split, starts, stops⟩ := stands_of_mem_tokenize listed
  -- The rest of the text is passed over between the two.
  have whole : (tokenize source).stop = token.stop.position.after rest := by
    show (Place.origin.after source.toList).position = _
    rw [split, Place.after_append, Place.after_append, starts, stops, Place.position_after]
  rw [whole]
  exact token.stop.position.le_after rest

/-- Behind a token, the next one starts later than it does, and so does the end of the text. -/
theorem start_lt_nextStart (within : token :: ahead <:+ (tokenize source).tokens)
    (behind : rest <:+ ahead) : token.range.start < nextStart source rest := by
  have ordered := (ordered_tokenize source).sublist within.sublist
  have proper := ordered.proper token List.mem_cons_self
  cases rest with
  | nil =>
    -- The token has characters of its own, and those are in the text.
    exact proper.trans_le (stop_le_of_mem_tokenize (within.subset List.mem_cons_self))
  | cons next rest =>
    -- What follows starts where the token stops, or later.
    have later : next ∈ ahead := behind.subset List.mem_cons_self
    exact proper.trans_le ((List.pairwise_cons.mp ordered.before).1 next later)

/-- Further on, the next token does not start earlier. -/
theorem nextStart_le_nextStart (within : tokens <:+ (tokenize source).tokens)
    (behind : rest <:+ tokens) : nextStart source tokens ≤ nextStart source rest := by
  -- Nothing was taken, and so both start alike, or the first token was taken with others behind it.
  cases tokens with
  | nil => rw [List.suffix_nil.mp behind]
  | cons token ahead =>
    rcases List.suffix_cons_iff.mp behind with rfl | later
    · exact le_refl _
    · exact (start_lt_nextStart within later).le

/-- Between two tokens that follow one another lies a gap of the segmentation. -/
theorem mem_gapSpans (count offset : Nat) (before : List Token) (first second : Token)
    (after : List Token) :
    (first.stop.offset, second.start.offset) ∈
      gapSpans count offset (before ++ first :: second :: after) := by
  -- The offset is general, since each token in front changes where the gaps start.
  induction before generalizing offset with
  | nil => simp [gapSpans]
  | cons token before ih =>
    -- A token in front has a gap of its own before it, and changes none behind it.
    rw [List.cons_append, gapSpans]
    exact List.mem_cons_of_mem _ (ih token.stop.offset)

/-- Tokens that follow one another without touching have blanks or comments between them. -/
theorem Token.spacedBefore_of_not_adjacent {first second : Token}
    (next : [first, second] <:+: (tokenize source).tokens)
    (apart : first.isAdjacent second = false) : first.SpacedBefore source second := by
  -- The gaps between tokens are those of the segmentation, of which this is one.
  obtain ⟨before, after, split⟩ := next
  have segments := (segments_tokenize source).tokens
  rw [← split, List.append_assoc] at segments
  refine ⟨?_, segments.gaps _ (mem_gapSpans _ _ before first second after)⟩
  -- One stops where the other starts or before, and not just there.
  have order := (List.pairwise_append.mp segments.before).2.1
  have stops := (List.pairwise_cons.mp order).1 second (by simp)
  have differ : first.stop.offset ≠ second.start.offset := by
    simpa [Token.isAdjacent] using apart
  omega

end Tokens

section Reports

variable {source : String} {fault : Fault} {depth : Nat} {used rest : List Token}

/-- An error about what is ahead stands there. -/
theorem start_report_expected (source : String) (what : Expectation) (ahead : List Token) :
    ((Fault.expected what).report ahead (tokenize source).stop).range.start =
      nextStart source ahead := by
  -- The next token is where the error stands, whether it is known or not.
  cases ahead with
  | nil => rfl
  | cons token ahead =>
    rw [Fault.report]
    split <;> rfl

/-- An error about what is ahead quotes it, or is about the end of the text. -/
theorem anchoredIn_report_expected (what : Expectation)
    (within : rest <:+ (tokenize source).tokens) :
    ((Fault.expected what).report rest (tokenize source).stop).AnchoredIn source := by
  cases rest with
  | nil => rfl
  | cons token rest =>
    have listed := within.subset List.mem_cons_self
    rw [Fault.report]
    split
    · -- A token of no kind is reported as such, whatever was expected.
      rename_i unknown
      exact ⟨token, listed, unknown, rfl, rfl⟩
    · rename_i known
      exact ⟨token, listed, known, rfl, rfl⟩

/-- A path that is spaced is reported from its first name to its second. -/
theorem cover_of_infix {first slash second : Token}
    (next : [first, slash, second] <:+: (tokenize source).tokens) :
    first.range.cover second.range = ⟨first.range.start, second.range.stop⟩ := by
  -- The slash is between the two names, so that they come in order.
  have ordered := (ordered_tokenize source).sublist next.sublist
  refine Range.cover_of_before (ordered.proper first (by simp)) ?_ (ordered.proper second (by simp))
  exact (List.pairwise_cons.mp ordered.before).1 second (by simp)

/-- An error stands on what it is about, and that is among the tokens taken or next to them. -/
theorem standsBetween_report (within : used ++ rest <:+ (tokenize source).tokens)
    (placed : fault.EndsAt depth used) :
    (fault.report rest (tokenize source).stop).StandsBetween source
      (nextStart source (used ++ rest)) (nextStart source rest) := by
  have left : rest <:+ used ++ rest := List.suffix_append used rest
  cases fault with
  | expected what =>
    -- Nothing of what the error is about was taken.
    have here := start_report_expected source what rest
    exact ⟨anchoredIn_report_expected what (left.trans within),
      here ▸ nextStart_le_nextStart within left, here.le⟩
  | tooDeep opening =>
    -- The parenthesis that is one too many was the last token to be taken.
    obtain ⟨⟨before, rfl⟩, isOpening, -⟩ := placed
    have atOpening : opening :: rest <:+ before ++ [opening] ++ rest := by simp
    have inText := atOpening.trans within
    exact ⟨⟨opening, inText.subset List.mem_cons_self, isOpening, rfl⟩,
      nextStart_le_nextStart within atOpening,
      (start_lt_nextStart inText (List.suffix_refl rest)).le⟩
  | spacedPath first second =>
    -- The path was taken whole before its blanks were looked at, so its first name lies behind.
    obtain ⟨before, slash, rfl, isFirst, isSlash, isSecond, apart⟩ := placed
    have atFirst : first :: slash :: second :: rest <:+
        before ++ [first, slash, second] ++ rest := by
      simp
    have inText := atFirst.trans within
    have next : [first, slash, second] <:+: (tokenize source).tokens :=
      (List.prefix_append [first, slash, second] rest).isInfix.trans inText.isInfix
    have range_eq := cover_of_infix next
    have spaced : first.SpacedBefore source slash ∨ slash.SpacedBefore source second := by
      rw [Bool.and_eq_false_iff] at apart
      rcases apart with before | behind
      · have pair : [first, slash] <:+: [first, slash, second] := ⟨[], [second], rfl⟩
        exact .inl (Token.spacedBefore_of_not_adjacent (pair.trans next) before)
      · have pair : [slash, second] <:+: [first, slash, second] := ⟨[first], [], rfl⟩
        exact .inr (Token.spacedBefore_of_not_adjacent (pair.trans next) behind)
    have behind : rest <:+ slash :: second :: rest := List.suffix_append [slash, second] rest
    have starts : (first.range.cover second.range).start = first.range.start := by rw [range_eq]
    exact ⟨⟨first, slash, second, next, isFirst, isSlash, isSecond, rfl, range_eq, spaced⟩,
      starts ▸ nextStart_le_nextStart within atFirst,
      starts ▸ (start_lt_nextStart inText behind).le⟩

/-- What an error stands on has a start and a stop, in order and in the text. -/
theorem SyntaxError.AnchoredIn.within {error : SyntaxError} (anchored : error.AnchoredIn source) :
    error.range.start ≤ error.range.stop ∧ error.range.stop ≤ (tokenize source).stop := by
  -- Each cause names tokens of the text, and these are proper and end within it.
  have onToken : ∀ token ∈ (tokenize source).tokens,
      token.range.start ≤ token.range.stop ∧ token.range.stop ≤ (tokenize source).stop :=
    fun token listed => ⟨((ordered_tokenize source).proper token listed).le,
      stop_le_of_mem_tokenize listed⟩
  unfold AnchoredIn at anchored
  split at anchored
  · obtain ⟨token, listed, _, _, range_eq⟩ := anchored
    exact range_eq ▸ onToken token listed
  · obtain ⟨token, listed, _, _, range_eq⟩ := anchored
    exact range_eq ▸ onToken token listed
  · rw [anchored]
    exact ⟨le_refl _, le_refl _⟩
  · obtain ⟨first, slash, second, next, _, _, _, _, range_eq, _⟩ := anchored
    have atFirst := onToken first (next.subset (by simp))
    have atSecond := onToken second (next.subset (by simp))
    -- The first name stops before the second one starts.
    have ordered := (ordered_tokenize source).sublist next.sublist
    have before := (List.pairwise_cons.mp ordered.before).1 second (by simp)
    rw [range_eq]
    exact ⟨(atFirst.1.trans before).trans atSecond.1, atSecond.2⟩
  · obtain ⟨token, listed, _, range_eq⟩ := anchored
    exact range_eq ▸ onToken token listed

end Reports

/-- Errors from a position on: in order, one of them there at most, and two anywhere at most. -/
structure Paced (source : String) (start : Position) (errors : List SyntaxError) : Prop where
  anchored : ∀ error ∈ errors, error.AnchoredIn source
  reached : ∀ error ∈ errors, start ≤ error.range.start
  ordered : errors.Pairwise fun first second => first.range.start ≤ second.range.start
  twice : ∀ position, errors.countP (·.range.start = position) ≤ 2
  once : errors.countP (·.range.start = start) ≤ 1

namespace Paced

variable {source : String} {start middle : Position} {error : SyntaxError}
  {errors : List SyntaxError}

/-- Without errors there is nothing to be out of order. -/
theorem nil (source : String) (start : Position) : Paced source start [] :=
  ⟨by simp, by simp, .nil, by simp, by simp⟩

/-- No error starts at a position that all of them start behind. -/
theorem countP_eq_zero (behind : ∀ error ∈ errors, start < error.range.start) :
    errors.countP (·.range.start = start) = 0 := by
  -- An error that starts here would start behind here.
  rw [List.countP_eq_zero]
  intro error listed here
  exact absurd (by simpa using here) (behind error listed).ne'

/-- All errors from a position on start behind any position before it. -/
theorem behind (paced : Paced source middle errors) (before : start < middle) :
    ∀ error ∈ errors, start < error.range.start :=
  fun error listed => before.trans_le (paced.reached error listed)

/-- Errors from a position on are errors from any position before it, where none of them starts. -/
theorem later (paced : Paced source middle errors) (before : start < middle) :
    Paced source start errors where
  anchored := paced.anchored
  reached error listed := (paced.behind before error listed).le
  ordered := paced.ordered
  twice := paced.twice
  once := by
    rw [countP_eq_zero (paced.behind before)]
    omega

/-- An error in front of others, of which one at most starts where it does, and none before it. -/
theorem cons (paced : Paced source start errors) (anchored : error.AnchoredIn source)
    (reached : start ≤ error.range.start) (behind : ∀ other ∈ errors, start < other.range.start)
    (order : ∀ other ∈ errors, error.range.start ≤ other.range.start)
    (others : errors.countP (·.range.start = error.range.start) ≤ 1) :
    Paced source start (error :: errors) where
  anchored := List.forall_mem_cons.mpr ⟨anchored, paced.anchored⟩
  reached := List.forall_mem_cons.mpr ⟨reached, paced.reached⟩
  ordered := List.pairwise_cons.mpr ⟨order, paced.ordered⟩
  twice position := by
    rw [List.countP_cons]
    by_cases here : error.range.start = position
    · -- The error starts here, and one more of the others may.
      subst here
      simp only [decide_true, if_true]
      omega
    · -- The error starts elsewhere, so that the others count alone.
      have elsewhere := paced.twice position
      simp only [here, decide_false, Bool.false_eq_true, if_false]
      omega
  once := by
    rw [List.countP_cons, countP_eq_zero behind]
    split <;> omega

/-- An error on the way to the position that the others start from. -/
theorem cons_before (paced : Paced source middle errors) (before : start < middle)
    (stands : error.StandsBetween source start middle) : Paced source start (error :: errors) := by
  refine (paced.later before).cons stands.anchored stands.reached (paced.behind before) ?_ ?_
  · exact fun other listed => stands.stops.trans (paced.reached other listed)
  · -- Of the others, only one may start where they all start from, and none earlier.
    rcases stands.stops.lt_or_eq with early | same
    · rw [countP_eq_zero (paced.behind early)]
      omega
    · exact same ▸ paced.once

/-- An error just at the position that the others start behind. -/
theorem cons_at (paced : Paced source start errors) (anchored : error.AnchoredIn source)
    (here : error.range.start = start) (behind : ∀ other ∈ errors, start < other.range.start) :
    Paced source start (error :: errors) := by
  -- All others start behind the error, so that it is the only one where it stands.
  refine paced.cons anchored here.ge behind ?_ ?_
  · exact fun other listed => here ▸ paced.reached other listed
  · rw [here, countP_eq_zero behind]
    omega

end Paced

namespace Parse

variable {source : String} {room : Nat} {stop : Position} {token : Token} {fault : Fault}
  {tokens ahead rest : List Token}

/-- Skipping to the end of a member passes over what frames no declaration. -/
theorem skipMember_append_suffix {taken : List Token}
    (inner : ∀ token ∈ taken, isInner token.kind = true) (stop : Position) (rest : List Token) :
    (skipMember stop (taken ++ rest)).2 <:+ rest := by
  -- Every token that is taken is inner, and the skipping passes over it.
  induction taken generalizing stop with
  | nil => exact skipMember_suffix stop rest
  | cons token taken ih =>
    rw [List.forall_mem_cons] at inner
    rw [List.cons_append, skipMember, endsMember_of_inner inner.1]
    exact ih inner.2 _

/-- A faulty member stops before the token at which the body goes on, or at it. -/
theorem skipMember_suffix_of_failed (failed : member token ahead = .failed fault rest)
    (stop : Position) : (skipMember stop ahead).2 <:+ rest := by
  -- Behind a keyword, the production takes nothing that the skipping would stop at.
  have ofTaken : (∃ taken, ahead = taken ++ rest ∧ ∀ token ∈ taken, isInner token.kind = true) →
      (skipMember stop ahead).2 <:+ rest := by
    intro took
    obtain ⟨taken, rfl, inner⟩ := took
    exact skipMember_append_suffix inner stop rest
  have left : (member token ahead).rest = rest := by rw [failed, Outcome.rest_failed]
  -- Which production ran is told by the keyword, and without one nothing was taken.
  unfold member at left failed
  split at left
  · rw [Outcome.rest_map] at left
    exact ofTaken (left ▸ takes_relation token ahead)
  · rw [Outcome.rest_map] at left
    exact ofTaken (left ▸ takes_permission token ahead)
  · rw [← left]
    exact (skipMember_suffix stop ahead).trans (List.suffix_cons token ahead)

/-- The error of a faulty member stands in it, up to where the body goes on. -/
theorem standsBetween_of_member_failed (within : token :: ahead <:+ (tokenize source).tokens)
    (failed : member token ahead = .failed fault rest) (stop : Position) :
    (fault.report rest (tokenize source).stop).StandsBetween source
      token.range.start (nextStart source (skipMember stop ahead).2) := by
  -- The production follows the grammar, which says where among its tokens the fault is.
  have follows := follows_member token ahead
  rw [failed] at follows
  cases follows with
  | @failed _ used _ split viable stuck placed =>
    rw [split] at within
    have stands := standsBetween_report within placed
    have left : rest <:+ (tokenize source).tokens := (List.suffix_append used rest).trans within
    have onward := nextStart_le_nextStart left (skipMember_suffix_of_failed failed stop)
    rw [← split] at stands
    exact { stands with stops := stands.stops.trans onward }

/-- Errors that may follow those of a body, given what is left behind it. -/
structure Resumes (source : String) (rest : List Token) (errors : List SyntaxError) : Prop where
  paced : Paced source (nextStart source rest) errors
  /-- What ends a body that is not closed is not reported again behind it. -/
  behind : (nextKind rest = none ∨ nextKind rest = some .definition) →
    ∀ error ∈ errors, nextStart source rest < error.range.start

/-- The errors of a body, and then those that may follow them. -/
theorem paced_body (within : tokens <:+ (tokenize source).tokens) {later : List SyntaxError}
    (resumes : Resumes source (body (tokenize source).stop room stop tokens).rest later) :
    Paced source (nextStart source tokens)
      ((body (tokenize source).stop room stop tokens).errors ++ later) := by
  -- The induction follows the body, and each step starts behind the token it takes.
  fun_induction body (tokenize source).stop room stop tokens with
  | case1 stop tokens => exact resumes.paced
  | case2 stop room =>
    -- The end of the text is reported here, and nothing is left to be read behind it.
    exact resumes.paced.cons_at rfl rfl (resumes.behind (.inl rfl))
  | case3 stop room token ahead closes =>
    -- Nothing is reported at the closing brace, and all others are behind it.
    exact resumes.paced.later (start_lt_nextStart within (List.suffix_refl ahead))
  | case4 stop room token ahead _ opens =>
    -- The next definition is reported here, and its own errors stand behind its keyword.
    exact resumes.paced.cons_at (anchoredIn_report_expected _ within)
      (start_report_expected _ _ _) (resumes.behind (.inr (congrArg some opens)))
  | case5 stop room token ahead _ _ value rest read ih =>
    -- A member without a fault only moves the start.
    have behind := suffix_of_member_done read
    exact (ih (behind.trans ((List.suffix_cons token ahead).trans within)) resumes).later
      (start_lt_nextStart within behind)
  | case6 stop room token ahead _ _ fault rest failed next ih =>
    -- The fault stands no further than the token at which the body goes on.
    have behind := skipMember_suffix token.range.stop ahead
    exact (ih (behind.trans ((List.suffix_cons token ahead).trans within)) resumes).cons_before
      (start_lt_nextStart within behind)
      (standsBetween_of_member_failed within failed token.range.stop)

/-- The error of a faulty header stands in it, and behind its keyword where it has one. -/
theorem standsBetween_of_headerAt_failed (within : token :: ahead <:+ (tokenize source).tokens)
    (failed : headerAt token ahead = .failed fault rest) :
    (fault.report rest (tokenize source).stop).StandsBetween source
      token.range.start (nextStart source (skipToDefinition ahead)) ∧
      (token.kind = .definition →
        token.range.start < (fault.report rest (tokenize source).stop).range.start) := by
  have behind : ahead <:+ (tokenize source).tokens := (List.suffix_cons token ahead).trans within
  unfold headerAt at failed
  split at failed
  · have follows := recognizes_header token maxNesting ahead
    have takes := takes_header token ahead
    rw [failed] at follows takes
    cases follows with
    | @failed _ used _ split viable stuck placed =>
      rw [split] at behind
      have stands := standsBetween_report behind placed
      rw [← split] at stands behind
      have past := (start_lt_nextStart within (List.suffix_refl ahead)).trans_le stands.reached
      -- The header takes no further keyword, and so the skipping stops behind it.
      obtain ⟨taken, took, noKeyword⟩ := takes
      have onward : skipToDefinition ahead <:+ rest := by
        rw [took, skipToDefinition, List.dropWhile_append_of_pos noKeyword]
        exact List.dropWhile_suffix _
      have left : rest <:+ ahead := ⟨taken, took.symm⟩
      have stops := stands.stops.trans (nextStart_le_nextStart (left.trans behind) onward)
      exact ⟨⟨stands.anchored, past.le, stops⟩, fun _ => past⟩
  · rename_i noDefinition
    cases failed
    -- The token itself is reported, and the skipping goes on behind it.
    have here := start_report_expected source (.token .definition) (token :: ahead)
    have skipped : skipToDefinition ahead <:+ ahead := List.dropWhile_suffix _
    have onward := start_lt_nextStart within skipped
    exact ⟨⟨anchoredIn_report_expected _ within, here.ge, here.le.trans onward.le⟩,
      fun isDefinition => absurd isDefinition noDefinition⟩

/-- The errors of a document, which may follow those of a body in front of it. -/
theorem resumes_document (within : tokens <:+ (tokenize source).tokens) :
    Resumes source tokens (document (tokenize source).stop room tokens).errors := by
  -- The induction follows the document, whose bodies are followed by the rest of it.
  fun_induction document (tokenize source).stop room tokens with
  | case1 tokens => exact ⟨.nil _ _, by simp⟩
  | case2 room => exact ⟨.nil _ _, by simp⟩
  | case3 room token ahead found rest read inner later ih =>
    have behind := suffix_of_headerAt_done read
    have inText := behind.trans ((List.suffix_cons token ahead).trans within)
    have onward := ih ((body_rest_suffix _ _ _ _).trans inText)
    have paced := paced_body inText onward
    -- The whole definition lies behind its keyword.
    have past := start_lt_nextStart within behind
    exact ⟨paced.later past, fun _ => paced.behind past⟩
  | case4 room token ahead fault rest failed later ih =>
    have behind : skipToDefinition ahead <:+ ahead := List.dropWhile_suffix _
    have onward := ih (behind.trans ((List.suffix_cons token ahead).trans within))
    obtain ⟨stands, past⟩ := standsBetween_of_headerAt_failed within failed
    have further := start_lt_nextStart within behind
    -- The fault stands before the next definition, and behind its keyword where it has one.
    refine ⟨onward.paced.cons_before further stands, ?_⟩
    intro opens
    have isDefinition : token.kind = .definition := by simpa using opens
    exact List.forall_mem_cons.mpr ⟨past isDefinition, onward.paced.behind further⟩

end Parse

/--
Errors stand on what they are about, and come in document order.

* Each one has a range in the text, on the tokens that it quotes or at the end of the text.
* No error starts before an earlier one, and no three errors start at the same position.
-/
theorem errors_anchored_in_order (options : Parse.Options) (source : String) :
    (∀ error ∈ (parseWith options source).errors, error.range.start ≤ error.range.stop ∧
      error.range.stop ≤ (tokenize source).stop ∧ error.AnchoredIn source) ∧
    ((parseWith options source).errors.Pairwise fun first second =>
      first.range.start ≤ second.range.start) ∧
    ∀ position, (parseWith options source).errors.countP (·.range.start = position) ≤ 2 := by
  -- The errors of the report are those of the document.
  have errors_eq : (parseWith options source).errors =
      (Parse.readTokens options source).errors := by
    rw [Parse.parseWith_eq]
  have paced : Paced source _ (Parse.readTokens options source).errors :=
    (Parse.resumes_document (List.suffix_refl _)).paced
  rw [errors_eq]
  refine ⟨?_, paced.ordered, paced.twice⟩
  -- What an error stands on keeps its range inside the text.
  intro error listed
  have anchored := paced.anchored error listed
  exact ⟨anchored.within.1, anchored.within.2, anchored⟩

/-- A relation without a type in a body that is not closed, and then a spaced path. -/
def unclosedBody : String :=
  "definition a \x7b relation r: definition b / c \x7b"

/-- The second keyword is reported as no type and as no end of the body, then comes the path. -/
theorem errors_anchored_in_order_unclosedBody :
    (parseWith .bestEffort unclosedBody).errors =
      [⟨.unexpected .typeName "definition", ⟨⟨1, 28⟩, ⟨1, 38⟩⟩⟩,
        ⟨.unexpected (.token .rightBrace) "definition", ⟨⟨1, 28⟩, ⟨1, 38⟩⟩⟩,
        ⟨.spacedPath "b/c", ⟨⟨1, 39⟩, ⟨1, 44⟩⟩⟩] ∧
      SyntaxError.AnchoredIn unclosedBody ⟨.spacedPath "b/c", ⟨⟨1, 39⟩, ⟨1, 44⟩⟩⟩ ∧
      (parseWith .bestEffort unclosedBody).errors.countP (·.range.start = ⟨1, 28⟩) = 2 ∧
      ∀ position, (parseWith .bestEffort unclosedBody).errors.countP
        (·.range.start = position) ≤ 2 := by
  have errors_eq : (parseWith .bestEffort unclosedBody).errors =
      [⟨.unexpected .typeName "definition", ⟨⟨1, 28⟩, ⟨1, 38⟩⟩⟩,
        ⟨.unexpected (.token .rightBrace) "definition", ⟨⟨1, 28⟩, ⟨1, 38⟩⟩⟩,
        ⟨.spacedPath "b/c", ⟨⟨1, 39⟩, ⟨1, 44⟩⟩⟩] := by
    decide +kernel
  obtain ⟨anchored, _, twice⟩ := errors_anchored_in_order .bestEffort unclosedBody
  have path := anchored ⟨.spacedPath "b/c", ⟨⟨1, 39⟩, ⟨1, 44⟩⟩⟩ (by simp [errors_eq])
  have here : (parseWith .bestEffort unclosedBody).errors.countP
      (·.range.start = ⟨1, 28⟩) = 2 := by
    rw [errors_eq]
    decide
  exact ⟨errors_eq, path.2.2, here, twice⟩

end AuthSchema
