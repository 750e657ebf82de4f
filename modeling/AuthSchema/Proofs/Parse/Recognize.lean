import Mathlib.Computability.Language
import Mathlib.Order.CompletePartialOrder
import AuthSchema.Proofs.Parse.Run

/-!
Productions as recognizers of a language over the kinds of tokens.

* A finished run takes a phrase, and what may come next can only be read behind that phrase.
* A failed run takes the beginning of a phrase. Where something else was expected, the token ahead
  goes on with no phrase at all, and neither does the end of the text.
* Sequences, choices by the token ahead and repetitions keep to this.
-/

namespace AuthSchema

open Computability

/-- The kinds of some tokens. -/
def kindsOf (tokens : List Token) : List TokenKind :=
  tokens.map Token.kind

/-- No tokens have no kinds. -/
@[simp] theorem kindsOf_nil : kindsOf [] = [] :=
  rfl

/-- The kinds of some tokens start with that of the first one. -/
@[simp] theorem kindsOf_cons (token : Token) (tokens : List Token) :
    kindsOf (token :: tokens) = token.kind :: kindsOf tokens :=
  rfl

/-- The kinds of two parts are those of the first and then those of the second. -/
@[simp] theorem kindsOf_append (first second : List Token) :
    kindsOf (first ++ second) = kindsOf first ++ kindsOf second :=
  List.map_append

/-- The words of one letter, which is one of some kinds. -/
def single (kinds : Set TokenKind) : Language TokenKind :=
  {word | ∃ kind ∈ kinds, word = [kind]}

section Words

variable {kinds starts : Set TokenKind} {first second later : Language TokenKind}
  {kind : TokenKind} {word : List TokenKind}

/-- A kind is a word when it is one of those that are listed. -/
@[simp] theorem singleton_mem_single : [kind] ∈ single kinds ↔ kind ∈ kinds := by
  constructor
  -- Words of one letter are equal when their letters are.
  · rintro ⟨_, listed, same⟩
    exact List.singleton_inj.mp same ▸ listed
  · intro listed
    exact ⟨kind, listed, rfl⟩

/-- A word of a letter and a rest starts with one of the kinds. -/
theorem mem_single_mul :
    word ∈ single kinds * later ↔ ∃ kind ∈ kinds, ∃ rest ∈ later, word = kind :: rest := by
  -- A word that is split has its letter in front.
  rw [Language.mem_mul]
  constructor
  · rintro ⟨_, ⟨kind, listed, rfl⟩, rest, behind, rfl⟩
    exact ⟨kind, listed, rest, behind, rfl⟩
  · rintro ⟨kind, listed, rest, behind, rfl⟩
    exact ⟨[kind], ⟨kind, listed, rfl⟩, rest, behind, rfl⟩

/-- A word that starts with a kind has its rest in what follows the letter. -/
@[simp] theorem cons_mem_single_mul :
    kind :: word ∈ single kinds * later ↔ kind ∈ kinds ∧ word ∈ later := by
  rw [mem_single_mul]
  simp

/-- A word that starts with a letter is not empty. -/
@[simp] theorem nil_notMem_single_mul : [] ∉ single kinds * later := by
  rw [mem_single_mul]
  simp

/-- Words none of which starts with one of some kinds. -/
def Avoids (words : Language TokenKind) (starts : Set TokenKind) : Prop :=
  ∀ kind ∈ starts, ∀ word, kind :: word ∉ words

/-- Words that avoid some kinds avoid fewer of them. -/
theorem Avoids.mono (avoids : Avoids first starts) {fewer : Set TokenKind}
    (within : fewer ⊆ starts) : Avoids first fewer :=
  fun kind listed => avoids kind (within listed)

/-- There is nothing to avoid where no kind is listed. -/
theorem avoids_empty : Avoids first ∅ :=
  fun kind impossible => absurd impossible (Set.notMem_empty kind)

/-- The empty word starts with no kind. -/
theorem avoids_one : Avoids 1 starts := by
  intro kind _ word
  simp

/-- Words that start with one of some kinds avoid all other kinds. -/
theorem avoids_single_mul (apart : Disjoint kinds starts) :
    Avoids (single kinds * later) starts := by
  -- The first letter would be of both sets.
  intro kind listed word among
  exact Set.disjoint_left.mp apart (cons_mem_single_mul.mp among).1 listed

/-- A word of a choice starts as one of the two choices does. -/
theorem Avoids.add (avoids : Avoids first starts) (others : Avoids second starts) :
    Avoids (first + second) starts := by
  intro kind listed word among
  -- Membership in a choice tells which of the two has the word.
  rcases (Language.mem_add _ _ _).mp among with here | there
  · exact avoids kind listed word here
  · exact others kind listed word there

/-- A word of two parts starts with the first part, or with the second where the first is empty. -/
theorem Avoids.mul (avoids : Avoids first starts) (others : Avoids second starts) :
    Avoids (first * second) starts := by
  intro kind listed word among
  obtain ⟨front, inFirst, back, inSecond, split⟩ := Language.mem_mul.mp among
  -- An empty first part leaves the start to the second one.
  cases front with
  | nil =>
    rw [List.nil_append] at split
    exact others kind listed word (split ▸ inSecond)
  | cons head front =>
    obtain ⟨rfl, rfl⟩ := List.cons.inj split
    exact avoids head listed front inFirst

/-- A repetition is over at once, or goes on with one more item. -/
theorem mem_kstar_mul : word ∈ first∗ * later ↔ word ∈ later ∨ word ∈ first * (first∗ * later) := by
  -- A star is the empty word or one item in front of the star.
  have unfolded : first∗ * later = later + first * (first∗ * later) := by
    nth_rewrite 1 [← Language.one_add_self_mul_kstar_eq_kstar]
    rw [add_mul, one_mul, mul_assoc]
  nth_rewrite 1 [unfolded]
  exact Language.mem_add _ _ _

/-- A repetition starts as its items do. -/
theorem Avoids.kstar (avoids : Avoids first starts) : Avoids first∗ starts := by
  intro kind listed word among
  -- Without the empty ones among its parts, a word starts with the first of them.
  obtain ⟨parts, split, all⟩ := Language.mem_kstar_iff_exists_nonempty.mp among
  cases parts with
  | nil => simp at split
  | cons part parts =>
    obtain ⟨inFirst, nonempty⟩ := all part List.mem_cons_self
    obtain ⟨head, rest, rfl⟩ := List.exists_cons_of_ne_nil nonempty
    obtain ⟨rfl, _⟩ := List.cons.inj split
    exact avoids kind listed rest inFirst

/-- Words that open and close equally many parentheses. -/
def Balanced (words : Language TokenKind) : Prop :=
  ∀ word ∈ words, word.count .leftParen = word.count .rightParen

/-- A letter that is no parenthesis opens and closes none. -/
theorem balanced_single (noParen : ∀ kind ∈ kinds, kind ≠ .leftParen ∧ kind ≠ .rightParen) :
    Balanced (single kinds) := by
  -- A word of one letter counts the letter alone.
  rintro _ ⟨kind, listed, rfl⟩
  simp [noParen kind listed]

/-- A choice between balanced words is balanced. -/
theorem Balanced.add (balanced : Balanced first) (others : Balanced second) :
    Balanced (first + second) := by
  intro word among
  rcases (Language.mem_add _ _ _).mp among with here | there
  · exact balanced word here
  · exact others word there

/-- Balanced words one after the other are balanced. -/
theorem Balanced.mul (balanced : Balanced first) (others : Balanced second) :
    Balanced (first * second) := by
  intro word among
  -- Each of the two parts closes what it opens.
  obtain ⟨front, inFirst, back, inSecond, rfl⟩ := Language.mem_mul.mp among
  rw [List.count_append, List.count_append, balanced front inFirst, others back inSecond]

/-- Balanced words in a row are balanced. -/
theorem Balanced.kstar (balanced : Balanced first) : Balanced first∗ := by
  intro word among
  obtain ⟨parts, rfl, all⟩ := Language.mem_kstar.mp among
  clear among
  -- The induction is on the parts, each of which is balanced by itself.
  induction parts with
  | nil => rfl
  | cons part parts ih =>
    have here := balanced part (all part List.mem_cons_self)
    have there := ih fun other listed => all other (List.mem_cons_of_mem _ listed)
    rw [List.flatten_cons, List.count_append, List.count_append, here, there]

end Words

/-- A word that starts with the kind of the token ahead, or is empty where no token is. -/
def StartsAt (tokens : List Token) (word : List TokenKind) : Prop :=
  word.head? = nextKind tokens

/-- A word that starts at the rest starts at the whole behind the tokens taken. -/
theorem StartsAt.append {rest : List Token} {word : List TokenKind} (starts : StartsAt rest word)
    (used : List Token) : StartsAt (used ++ rest) (kindsOf used ++ word) := by
  -- With nothing taken, the rest is the whole.
  cases used with
  | nil => exact starts
  | cons token used => rfl

/-- A word that starts otherwise than the token ahead does not start at it. -/
theorem StartsAt.notMem_single_mul {tokens : List Token} {word : List TokenKind}
    (starts : StartsAt tokens word) {kinds : Set TokenKind}
    (other : ∀ kind ∈ kinds, nextKind tokens ≠ some kind) (later : Language TokenKind) :
    word ∉ single kinds * later := by
  -- The word would start with a kind of the set, and it starts with the kind ahead.
  intro among
  obtain ⟨kind, listed, rest, _, rfl⟩ := mem_single_mul.mp among
  exact other kind listed starts.symm

/-- Where a fault that is not about the token ahead stands, among the tokens taken so far. -/
def Fault.EndsAt (depth : Nat) (used : List Token) : Fault → Prop
  | .expected _ => True
  | .spacedPath first second =>
    ∃ before slash, used = before ++ [first, slash, second] ∧ first.kind = .identifier ∧
      slash.kind = .slash ∧ second.kind = .identifier ∧
      (first.isAdjacent slash && slash.isAdjacent second) = false
  | .tooDeep opening =>
    (∃ before, used = before ++ [opening]) ∧ opening.kind = .leftParen ∧
      (kindsOf used).count .leftParen = (kindsOf used).count .rightParen + depth

/-- More tokens in front leave a fault at the end, and add the parentheses that they leave open. -/
theorem Fault.EndsAt.append {fault : Fault} {depth outer : Nat} {used : List Token}
    (ends : fault.EndsAt depth used) (front : List Token)
    (opens : (kindsOf front).count .leftParen + depth =
      (kindsOf front).count .rightParen + outer) : fault.EndsAt outer (front ++ used) := by
  cases fault with
  | expected what => trivial
  | spacedPath first second =>
    -- Where a path ends does not depend on what comes before it.
    obtain ⟨before, slash, rfl, kinds⟩ := ends
    exact ⟨front ++ before, slash, by simp, kinds⟩
  | tooDeep opening =>
    obtain ⟨⟨before, rfl⟩, isOpening, count⟩ := ends
    refine ⟨⟨front ++ before, by simp⟩, isOpening, ?_⟩
    -- The parentheses that the front leaves open are open at the fault as well.
    rw [kindsOf_append front, List.count_append, List.count_append]
    omega

/--
What an outcome says about the tokens it came from, as to a language of phrases.

The kinds that could go on with a phrase are left out of what comes behind it.
-/
inductive Outcome.Follows {α : Type} (phrases : Language TokenKind) (goesOn : Set TokenKind)
    (depth : Nat) (tokens : List Token) : Outcome α → Prop where
  /-- The tokens taken are a phrase, and no other phrase leaves room for what is ahead. -/
  | done {value : α} {used rest : List Token} (split : tokens = used ++ rest)
    (phrase : kindsOf used ∈ phrases)
    (residual : ∀ later, Avoids later goesOn → ∀ word, StartsAt rest word →
      kindsOf used ++ word ∈ phrases * later → word ∈ later) :
    Follows phrases goesOn depth tokens (.done value rest)
  /-- The tokens taken are the beginning of a phrase, and what is ahead does not go on with it. -/
  | failed {fault : Fault} {used rest : List Token} (split : tokens = used ++ rest)
    (viable : ∃ word, kindsOf used ++ word ∈ phrases)
    (stuck : ∀ what, fault = .expected what → ∀ later, Avoids later goesOn → ∀ word,
      StartsAt rest word → kindsOf used ++ word ∉ phrases * later)
    (placed : fault.EndsAt depth used) :
    Follows phrases goesOn depth tokens (.failed fault rest)

namespace Outcome.Follows

variable {α β : Type} {outcome : Outcome α} {phrases wider first second : Language TokenKind}
  {goesOn more firstGoesOn secondGoesOn : Set TokenKind} {depth outer : Nat}
  {tokens ahead rest : List Token}

/-- There is a phrase, which the outcome has come to or is on the way to. -/
theorem exists_mem (follows : outcome.Follows phrases goesOn depth tokens) :
    ∃ word, word ∈ phrases := by
  -- A failed run has only the beginning of one.
  cases follows with
  | done split phrase residual => exact ⟨_, phrase⟩
  | failed split viable stuck placed =>
    obtain ⟨word, phrase⟩ := viable
    exact ⟨_, phrase⟩

/-- The value of an outcome makes no difference to what it follows. -/
theorem map (follows : outcome.Follows phrases goesOn depth tokens) (change : α → β) :
    (outcome.map change).Follows phrases goesOn depth tokens := by
  -- Only the value is another one, and no clause speaks of it.
  cases follows with
  | done split phrase residual => exact .done split phrase residual
  | failed split viable stuck placed => exact .failed split viable stuck placed

/-- More phrases make no difference where the token ahead rules out all others. -/
theorem widen (follows : outcome.Follows phrases goesOn depth tokens) (le : phrases ≤ wider)
    (within : goesOn ⊆ more)
    (only : ∀ later, Avoids later more → ∀ word, StartsAt tokens word → word ∈ wider * later →
      word ∈ phrases * later) : outcome.Follows wider more depth tokens := by
  cases follows with
  | @done value used rest split phrase residual =>
    refine .done split (le phrase) ?_
    intro later avoids word starts among
    refine residual later (avoids.mono within) word starts ?_
    -- The token ahead of all is still the first one, whatever was taken behind it.
    exact only later avoids _ (split ▸ starts.append used) among
  | @failed fault used rest split viable stuck placed =>
    -- What is viable stays so, since the phrases are among the wider ones.
    obtain ⟨word, phrase⟩ := viable
    refine .failed split ⟨word, le phrase⟩ ?_ placed
    intro what expected later avoids word starts among
    refine stuck what expected later (avoids.mono within) word starts ?_
    exact only later avoids _ (split ▸ starts.append used) among

/-- A second choice that the token ahead rules out makes no difference. -/
theorem inl (follows : outcome.Follows first firstGoesOn depth tokens)
    (within : firstGoesOn ⊆ goesOn)
    (ruledOut : ∀ later, Avoids later goesOn → ∀ word, StartsAt tokens word →
      word ∉ second * later) : outcome.Follows (first + second) goesOn depth tokens := by
  refine follows.widen le_self_add within ?_
  intro later avoids word starts among
  -- A word of either choice with something behind it is one of the two alone.
  rw [add_mul] at among
  exact ((Language.mem_add _ _ _).mp among).resolve_right (ruledOut later avoids word starts)

/-- A first choice that the token ahead rules out makes no difference. -/
theorem inr (follows : outcome.Follows second secondGoesOn depth tokens)
    (within : secondGoesOn ⊆ goesOn)
    (ruledOut : ∀ later, Avoids later goesOn → ∀ word, StartsAt tokens word →
      word ∉ first * later) : outcome.Follows (first + second) goesOn depth tokens := by
  -- The order of the two choices is of no matter.
  rw [add_comm]
  exact follows.inl within ruledOut

/-- Where no phrase starts with the token ahead, a failure takes nothing. -/
theorem refuse {what : Expectation} {word : List TokenKind} (phrase : word ∈ phrases)
    (stuck : ∀ later, Avoids later goesOn → ∀ word, StartsAt tokens word →
      word ∉ phrases * later) :
    (Outcome.failed (.expected what) tokens : Outcome α).Follows phrases goesOn depth tokens :=
  .failed (List.nil_append tokens).symm ⟨word, phrase⟩ (fun _ _ => stuck) trivial

/-- A token in front of what is followed is one more letter in front of the phrases. -/
theorem lead (follows : outcome.Follows phrases goesOn depth ahead) {token : Token}
    {kinds : Set TokenKind} (leads : token.kind ∈ kinds)
    (opens : [token.kind].count .leftParen + depth = [token.kind].count .rightParen + outer) :
    outcome.Follows (single kinds * phrases) goesOn outer (token :: ahead) := by
  cases follows with
  | @done value used rest split phrase residual =>
    -- One token more was taken, and one letter more stands in front of each word.
    have whole : token :: ahead = (token :: used) ++ rest := congrArg (token :: ·) split
    refine .done whole (by simpa using ⟨leads, phrase⟩) ?_
    intro later avoids word starts among
    rw [kindsOf_cons, List.cons_append, mul_assoc, cons_mem_single_mul] at among
    exact residual later avoids word starts among.2
  | @failed fault used rest split viable stuck placed =>
    have whole : token :: ahead = (token :: used) ++ rest := congrArg (token :: ·) split
    obtain ⟨word, phrase⟩ := viable
    -- The fault stands where it did, with one more token in front of it.
    refine .failed whole ⟨word, by simpa using ⟨leads, phrase⟩⟩ ?_ (placed.append [token] opens)
    intro what expected later avoids word starts among
    rw [kindsOf_cons, List.cons_append, mul_assoc, cons_mem_single_mul] at among
    exact stuck what expected later avoids word starts among.2

/-- A sign or keyword in front leaves as many parentheses open as there were. -/
theorem leadSign (follows : outcome.Follows phrases goesOn depth ahead) {token : Token}
    {kinds : Set TokenKind} (leads : token.kind ∈ kinds)
    (noParen : token.kind ≠ .leftParen ∧ token.kind ≠ .rightParen) :
    outcome.Follows (single kinds * phrases) goesOn depth (token :: ahead) :=
  follows.lead leads (by simp [noParen])

/-- What follows behind a finished outcome follows behind its phrase. -/
theorem andThen {value : α} {outcome : Outcome β}
    (follows : (Outcome.done value rest).Follows first firstGoesOn depth tokens)
    (next : outcome.Follows second secondGoesOn depth rest) (balanced : Balanced first)
    (avoid : ∀ later, Avoids later goesOn → Avoids (second * later) firstGoesOn)
    (within : secondGoesOn ⊆ goesOn) : outcome.Follows (first * second) goesOn depth tokens := by
  cases follows with
  -- The first part has finished, so what is behind it starts at the rest.
  | @done _ used _ split phrase residual =>
    -- Whatever is derived from all tokens derives what the second part is about from the rest.
    have peel : ∀ {left : List Token} {part : List Token}, rest = part ++ left →
        ∀ later, Avoids later goesOn → ∀ word, StartsAt left word →
          kindsOf (used ++ part) ++ word ∈ first * second * later →
            kindsOf part ++ word ∈ second * later := by
      intro left part behind later avoids word starts among
      rw [kindsOf_append, List.append_assoc, mul_assoc] at among
      exact residual _ (avoid later avoids) _ (behind ▸ starts.append part) among
    cases next with
    | @done _ part left behind inSecond residualNext =>
      have whole : tokens = (used ++ part) ++ left := by rw [split, behind, List.append_assoc]
      refine .done whole ?_ ?_
      · rw [kindsOf_append]
        exact Language.append_mem_mul phrase inSecond
      · intro later avoids word starts among
        exact residualNext later (avoids.mono within) word starts
          (peel behind later avoids word starts among)
    | @failed fault part left behind viable stuck placed =>
      have whole : tokens = (used ++ part) ++ left := by rw [split, behind, List.append_assoc]
      obtain ⟨word, inSecond⟩ := viable
      refine .failed whole ⟨word, ?_⟩ ?_ (placed.append used (by rw [balanced _ phrase]))
      · rw [kindsOf_append, List.append_assoc]
        exact Language.append_mem_mul phrase inSecond
      · intro what expected later avoids word starts among
        exact stuck what expected later (avoids.mono within) word starts
          (peel behind later avoids word starts among)

/-- A failure stays one, whatever should have come behind. -/
theorem abandon {fault : Fault}
    (follows : (Outcome.failed fault rest : Outcome α).Follows first firstGoesOn depth tokens)
    {word : List TokenKind} (inSecond : word ∈ second)
    (avoid : ∀ later, Avoids later goesOn → Avoids (second * later) firstGoesOn) :
    (Outcome.failed fault rest : Outcome β).Follows (first * second) goesOn depth tokens := by
  cases follows with
  | @failed _ used _ split viable stuck placed =>
    obtain ⟨front, phrase⟩ := viable
    -- What completes the first part and any second part complete both.
    refine .failed split ⟨front ++ word, ?_⟩ ?_ placed
    · rw [← List.append_assoc]
      exact Language.append_mem_mul phrase inSecond
    · intro what expected later avoids word starts among
      rw [mul_assoc] at among
      exact stuck what expected _ (avoid later avoids) word starts among

end Outcome.Follows

namespace Production

variable {α β : Type} {first second : Language TokenKind}
  {goesOn firstGoesOn secondGoesOn : Set TokenKind} {depth : Nat}

/-- Every run follows the phrases of a language, behind which some kinds do not come. -/
def Recognizes (production : Production α) (phrases : Language TokenKind)
    (goesOn : Set TokenKind) (depth : Nat) : Prop :=
  ∀ tokens, (production.run tokens).Follows phrases goesOn depth tokens

/-- Taking nothing recognizes nothing, and leaves everything to what comes behind. -/
theorem recognizes_pure (value : α) : (pure value : Production α).Recognizes 1 goesOn depth := by
  intro tokens
  -- Everything is left, and the empty word is all there is to recognize.
  refine .done (List.nil_append tokens).symm rfl ?_
  intro later _ word _ among
  rwa [one_mul] at among

/-- Taking a token recognizes its kind, behind which anything may come. -/
theorem recognizes_take (kind : TokenKind) (expected : Expectation) :
    (take kind expected).Recognizes (single {kind}) goesOn depth := by
  intro tokens
  -- Only the token ahead decides, and a word that starts at it starts with its kind.
  by_cases asked : nextKind tokens = some kind
  · obtain ⟨token, rest, rfl, isKind⟩ := nextKind_eq_some_iff.mp asked
    rw [run_take_of_kind isKind]
    refine .done (List.singleton_append).symm (singleton_mem_single.mpr isKind) ?_
    intro later _ word _ among
    exact (cons_mem_single_mul.mp among).2
  · rw [run_take_of_ne asked]
    refine .refuse (singleton_mem_single.mpr rfl) ?_
    intro later _ word starts
    exact starts.notMem_single_mul (by simpa using asked) later

/-- Two productions in a row recognize phrases in a row. -/
theorem recognizes_bind {production : Production α} {next : α → Production β}
    (recognizes : production.Recognizes first firstGoesOn depth)
    (recognizesNext : ∀ value, (next value).Recognizes second secondGoesOn depth)
    (balanced : Balanced first) {word : List TokenKind} (inSecond : word ∈ second)
    (avoid : ∀ later, Avoids later goesOn → Avoids (second * later) firstGoesOn)
    (within : secondGoesOn ⊆ goesOn) :
    (production >>= next).Recognizes (first * second) goesOn depth := by
  intro tokens
  have follows := recognizes tokens
  rw [run_bind]
  -- The second production only runs where the first one has finished.
  cases ran : production.run tokens with
  | done value rest =>
    rw [ran] at follows
    exact follows.andThen (recognizesNext value rest) balanced avoid within
  | failed fault rest =>
    rw [ran] at follows
    exact follows.abandon inSecond avoid

/-- A sign and then a production recognize the kind of the sign in front of the phrases. -/
theorem recognizes_take_bind {kind : TokenKind} {expected : Expectation}
    {next : Token → Production β} (noParen : kind ≠ .leftParen ∧ kind ≠ .rightParen)
    (recognizesNext : ∀ token, (next token).Recognizes second goesOn depth) :
    (take kind expected >>= next).Recognizes (single {kind} * second) goesOn depth := by
  -- Without parentheses in the sign, it leaves none open.
  have balanced : Balanced (single {kind}) := balanced_single (by simpa using noParen)
  obtain ⟨word, inSecond⟩ := (recognizesNext default []).exists_mem
  -- Nothing goes on with a sign, so that nothing has to be avoided behind it.
  exact recognizes_bind (recognizes_take kind expected) recognizesNext balanced inSecond
    (fun _ _ => avoids_empty) (Set.Subset.refl goesOn)

/-- What is made of a value makes no difference to what is recognized. -/
theorem recognizes_map {production : Production α} (change : α → β)
    (recognizes : production.Recognizes first goesOn depth) :
    (production >>= fun value => pure (change value)).Recognizes first goesOn depth := by
  intro tokens
  have follows := (recognizes tokens).map change
  rw [run_bind]
  -- The value is changed only where the production has finished.
  cases ran : production.run tokens with
  | done value rest => rwa [ran] at follows
  | failed fault rest => rwa [ran] at follows

/--
The token ahead chooses between two productions, of which the second does not start with it.

The first is followed from the token on.
-/
theorem recognizes_branch {kind : TokenKind} {next : Option Token → Production β}
    (followsSome : ∀ token ahead, token.kind = kind →
      ((next (some token)).run ahead).Follows (single {kind} * first) goesOn depth (token :: ahead))
    (recognizesNone : (next none).Recognizes second goesOn depth)
    (apart : Avoids second {kind}) (nullable : [] ∈ second → kind ∈ goesOn) :
    (take? kind >>= next).Recognizes (single {kind} * first + second) goesOn depth := by
  intro tokens
  rw [run_bind]
  by_cases asked : nextKind tokens = some kind
  · obtain ⟨token, rest, rfl, isKind⟩ := nextKind_eq_some_iff.mp asked
    rw [run_take?_of_kind isKind]
    refine (followsSome token rest isKind).inl (Set.Subset.refl goesOn) ?_
    -- A word of the other choice starts otherwise, or is empty and leaves the token to others.
    intro later avoids word starts other
    obtain ⟨front, inSecond, back, behind, rfl⟩ := Language.mem_mul.mp other
    cases front with
    | nil =>
      obtain ⟨left, rfl⟩ := List.head?_eq_some_iff.mp (starts.trans asked)
      exact avoids kind (nullable inSecond) left behind
    | cons head front =>
      obtain rfl : head = kind := Option.some.inj (starts.trans asked)
      exact apart head rfl front inSecond
  · rw [run_take?_of_ne asked]
    refine (recognizesNone tokens).inr (Set.Subset.refl goesOn) ?_
    -- Any word of the first choice starts with the kind that is not ahead.
    intro later avoids word starts
    rw [mul_assoc]
    exact starts.notMem_single_mul (by simpa using asked) _

/-- A sign ahead chooses between two productions, of which the second does not start with it. -/
theorem recognizes_choice {kind : TokenKind} {next : Option Token → Production β}
    (noParen : kind ≠ .leftParen ∧ kind ≠ .rightParen)
    (recognizesSome : ∀ token, (next (some token)).Recognizes first goesOn depth)
    (recognizesNone : (next none).Recognizes second goesOn depth)
    (apart : Avoids second {kind}) (nullable : [] ∈ second → kind ∈ goesOn) :
    (take? kind >>= next).Recognizes (single {kind} * first + second) goesOn depth := by
  -- The sign is taken in front of the first choice.
  refine recognizes_branch ?_ recognizesNone apart nullable
  intro token ahead isKind
  exact (recognizesSome token ahead).leadSign isKind (isKind ▸ noParen)

/-- The kinds that lead to one more item of a repetition. -/
def leadsOf (lead : TokenKind → Option β) : Set TokenKind :=
  {kind | (lead kind).isSome}

/-- A repetition recognizes its items one after another, each behind a lead. -/
theorem recognizes_many {lead : TokenKind → Option β} {item : Production α}
    (recognizes : item.Recognizes first firstGoesOn depth) (balanced : Balanced first)
    (noParens : ∀ kind ∈ leadsOf lead, kind ≠ .leftParen ∧ kind ≠ .rightParen)
    (apart : Disjoint (leadsOf lead) firstGoesOn) (within : firstGoesOn ⊆ goesOn)
    (leadsWithin : leadsOf lead ⊆ goesOn) :
    (many lead item).Recognizes (single (leadsOf lead) * first)∗ goesOn depth := by
  -- Behind an item comes a lead or what follows the repetition, and neither goes on with the item.
  have avoid : ∀ later, Avoids later goesOn →
      Avoids ((single (leadsOf lead) * first)∗ * later) firstGoesOn :=
    fun later avoids => (avoids_single_mul apart).kstar.mul (avoids.mono within)
  -- With a lead ahead, the repetition goes on, since what follows it starts otherwise.
  have goOn : ∀ {token : Token} {ahead : List Token} {tag : β} {outcome : Outcome (List (β × α))},
      lead token.kind = some tag →
        outcome.Follows (first * (single (leadsOf lead) * first)∗) goesOn depth ahead →
          outcome.Follows (single (leadsOf lead) * first)∗ goesOn depth (token :: ahead) := by
    intro token ahead tag outcome led follows
    have leads : token.kind ∈ leadsOf lead := by simp [leadsOf, led]
    refine (follows.leadSign leads (noParens _ leads)).widen ?_ (Set.Subset.refl goesOn) ?_
    · -- One more item in front of a repetition is a repetition.
      rw [← mul_assoc]
      exact mul_kstar_le_kstar
    · -- The word goes on with an item, or it is over and starts with a lead, which is ruled out.
      intro later avoids word starts among
      rw [← mul_assoc, mul_assoc]
      refine (mem_kstar_mul.mp among).resolve_left ?_
      intro behind
      obtain ⟨rest, rfl⟩ := List.head?_eq_some_iff.mp (starts.trans (nextKind_cons token ahead))
      exact avoids token.kind (leadsWithin leads) rest behind
  intro tokens
  show (readMany lead item tokens).Follows _ _ _ _
  -- Without a lead ahead the repetition is over, and no further item starts at the token ahead.
  have ended : ∀ {tokens : List Token}, (∀ kind, nextKind tokens = some kind → lead kind = none) →
      (Outcome.done ([] : List (β × α)) tokens).Follows (single (leadsOf lead) * first)∗ goesOn
        depth tokens := by
    intro tokens ends
    refine .done (List.nil_append tokens).symm (Language.nil_mem_kstar _) ?_
    intro later avoids word starts among
    refine (mem_kstar_mul.mp among).resolve_right ?_
    intro onward
    rw [mul_assoc] at onward
    refine starts.notMem_single_mul ?_ _ onward
    intro kind leads next
    simp [leadsOf, ends kind next] at leads
  fun_induction readMany lead item tokens with
  | case1 => exact ended (by simp)
  | case2 token ahead unled =>
    refine ended ?_
    intro kind next
    exact Option.some.inj next ▸ unled
  | case3 token ahead tag led value rest ran ih =>
    -- The item and the repetition behind it are followed one after the other.
    have follows := recognizes ahead
    rw [ran] at follows
    exact goOn led (follows.andThen (ih.map _) balanced avoid (Set.Subset.refl goesOn))
  | case4 token ahead tag led fault rest ran =>
    -- The failed item ends the repetition, which any number of items could have gone on with.
    have follows := recognizes ahead
    rw [ran] at follows
    exact goOn led (follows.abandon (Language.nil_mem_kstar _) avoid)

/-- An item and then further ones, each behind a lead, recognize a list with separators. -/
theorem recognizes_separated {γ : Type} {lead : TokenKind → Option β} {item : Production α}
    {combine : α → List (β × α) → γ} (recognizes : item.Recognizes first firstGoesOn depth)
    (balanced : Balanced first)
    (noParens : ∀ kind ∈ leadsOf lead, kind ≠ .leftParen ∧ kind ≠ .rightParen)
    (apart : Disjoint (leadsOf lead) firstGoesOn) (within : firstGoesOn ⊆ goesOn)
    (leadsWithin : leadsOf lead ⊆ goesOn) :
    (item >>= fun head => many lead item >>= fun more => pure (combine head more)).Recognizes
      (first * (single (leadsOf lead) * first)∗) goesOn depth := by
  -- The list is one item and then the repetition, as two productions in a row.
  refine recognizes_bind recognizes (fun head => ?_) balanced (Language.nil_mem_kstar _) ?_
    (Set.Subset.refl goesOn)
  · exact recognizes_map _ (recognizes_many recognizes balanced noParens apart within leadsWithin)
  · -- A lead is behind the first item, or what follows the list, and neither goes on with an item.
    intro later avoids
    exact (avoids_single_mul apart).kstar.mul (avoids.mono within)

end Production

end AuthSchema
