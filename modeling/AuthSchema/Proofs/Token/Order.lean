import AuthSchema.Proofs.Text.Sort
import AuthSchema.Token.Stream

/-! The tokens of a text follow one another, each from an earlier to a later position. -/

namespace AuthSchema

/-- One token ends before another starts, or where it starts. -/
def Token.Before (first second : Token) : Prop :=
  first.range.stop ≤ second.range.start

/-- Tokens that each take some text, in the order in which they stand there. -/
structure Ordered (tokens : List Token) : Prop where
  /-- Every token ends after it starts. -/
  proper : ∀ token ∈ tokens, token.range.start < token.range.stop
  /-- Every token ends before all later ones start. -/
  before : tokens.Pairwise Token.Before

namespace Ordered

/-- Leaving tokens out keeps the others in order. -/
theorem sublist {tokens part : List Token} (ordered : Ordered tokens)
    (within : part.Sublist tokens) : Ordered part where
  proper token listed := ordered.proper token (within.subset listed)
  before := ordered.before.sublist within

/-- The first part of ordered tokens is ordered. -/
theorem left {first second : List Token} (ordered : Ordered (first ++ second)) : Ordered first :=
  ordered.sublist (List.sublist_append_left first second)

/-- The second part of ordered tokens is ordered. -/
theorem right {first second : List Token} (ordered : Ordered (first ++ second)) :
    Ordered second :=
  ordered.sublist (List.sublist_append_right first second)

/-- The tokens after the first one are ordered. -/
theorem tail {token : Token} {tokens : List Token} (ordered : Ordered (token :: tokens)) :
    Ordered tokens :=
  ordered.sublist (List.sublist_cons_self token tokens)

/-- Ordered tokens start one after another. -/
theorem increasing {tokens : List Token} (ordered : Ordered tokens) :
    Range.Increasing Token.range tokens := by
  -- A token takes some text, and the next one starts after it.
  refine List.Pairwise.imp_of_mem ?_ ordered.before
  intro first second listed _ before
  exact (ordered.proper first listed).trans_le before

/-- Each of several items over ordered tokens has its own tokens in order. -/
theorem item {α : Type} {items : List α} {tokens : α → List Token}
    (ordered : Ordered (items.flatMap tokens)) {item : α} (listed : item ∈ items) :
    Ordered (tokens item) :=
  -- The tokens of one item are a part of those of all items.
  ordered.sublist (List.sublist_flatten_of_mem (List.mem_map_of_mem listed))

/-- Of items over ordered tokens, where a token starts tells at most one. -/
theorem eq_of_start_eq {α : Type} {items : List α} {tokens : α → List Token}
    (ordered : Ordered (items.flatMap tokens)) {first second : α} (firstListed : first ∈ items)
    (secondListed : second ∈ items) {token other : Token} (leaf : token ∈ tokens first)
    (otherLeaf : other ∈ tokens second) (same : token.range.start = other.range.start) :
    first = second := by
  -- Of two different items, all tokens of one start before those of the other.
  have apart := (List.pairwise_flatMap.mp ordered.increasing).2
  have forward : items.Pairwise fun first second => ∀ token ∈ tokens first,
      ∀ other ∈ tokens second, token.range.start = other.range.start → first = second := by
    refine apart.imp ?_
    intro first second before token leaf other otherLeaf same
    exact absurd same (before token leaf other otherLeaf).ne
  have backward : items.Pairwise fun first second => ∀ token ∈ tokens second,
      ∀ other ∈ tokens first, token.range.start = other.range.start → second = first := by
    refine apart.imp ?_
    intro first second before token leaf other otherLeaf same
    exact absurd same (before other otherLeaf token leaf).ne'
  exact forward.forall_of_forall_of_flip (fun _ _ _ _ _ _ _ => rfl) backward firstListed
    secondListed token leaf other otherLeaf same

end Ordered

/-- The tokens from a place on start no earlier than the place, and stand in order. -/
theorem ordered_tokensFrom (place : Place) (text : List Char) :
    Ordered (tokensFrom place text) ∧
      ∀ token ∈ tokensFrom place text, place.position ≤ token.range.start := by
  -- Each lexeme takes at least one character, and the later tokens start after all of it.
  fun_induction tokensFrom place text with
  | case1 => exact ⟨⟨by simp, .nil⟩, by simp⟩
  | case2 place first rest lexeme text stop later trivia ih =>
    -- Blanks and comments move the place on and leave no token.
    refine ⟨ih.1, ?_⟩
    intro token listed
    exact (place.position_le_after text).trans (ih.2 token listed)
  | case3 place first rest lexeme text stop later kind found ih =>
    -- The token takes the first character at least, and stops behind it.
    have proper : place.position < stop.position :=
      place.position_lt_after_cons first (rest.take lexeme.more)
    refine ⟨⟨?_, ?_⟩, ?_⟩
    · intro token listed
      rcases List.mem_cons.mp listed with rfl | listed
      · exact proper
      · exact ih.1.proper token listed
    -- All later tokens start no earlier than where this one stops.
    · exact List.pairwise_cons.mpr ⟨fun token listed => ih.2 token listed, ih.1.before⟩
    · intro token listed
      rcases List.mem_cons.mp listed with rfl | listed
      · exact le_refl _
      · exact proper.le.trans (ih.2 token listed)

/-- The tokens of a text stand in order. -/
theorem ordered_tokenize (source : String) : Ordered (tokenize source).tokens :=
  -- Before the first character no token starts, so that the order holds for all of them.
  (ordered_tokensFrom .origin source.toList).1

end AuthSchema
