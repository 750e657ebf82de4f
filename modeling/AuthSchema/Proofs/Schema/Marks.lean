import Mathlib.Data.List.Flatten
import AuthSchema.Editor.Highlight
import AuthSchema.Proofs.Schema.Members

/-!
The marks of a schema: every place where a name is declared or used, in document order.

* In a schema that is read, each mark ends before the next one starts.
* The names inside one mark stand in it one after another.
-/

namespace AuthSchema

open Grammar

namespace Range

/-- One range lies inside another, and may be all of it. -/
structure Within (inner outer : Range) : Prop where
  start_le : outer.start ≤ inner.start
  stop_le : inner.stop ≤ outer.stop

/-- Whether one range lies inside another is settled by their ends. -/
instance (inner outer : Range) : Decidable (inner.Within outer) :=
  decidable_of_iff (outer.start ≤ inner.start ∧ inner.stop ≤ outer.stop)
    ⟨fun ⟨start_le, stop_le⟩ => ⟨start_le, stop_le⟩,
      fun ⟨start_le, stop_le⟩ => ⟨start_le, stop_le⟩⟩

/-- A range lies inside itself. -/
theorem Within.refl (range : Range) : range.Within range :=
  ⟨le_refl _, le_refl _⟩

/-- A range holds its start and not its stop. -/
theorem contains_iff {range : Range} {position : Position} :
    range.contains position ↔ range.start ≤ position ∧ position < range.stop := by
  simp [contains]

/-- A position in the inner range is one of the outer range. -/
theorem Within.contains {inner outer : Range} (within : inner.Within outer) {position : Position}
    (inside : inner.contains position) : outer.contains position := by
  rw [contains_iff] at inside ⊢
  exact ⟨within.start_le.trans inside.1, inside.2.trans_le within.stop_le⟩

/-- Items that each take some text, and end before all later ones start. -/
structure InSequence {α : Type} (range : α → Range) (items : List α) : Prop where
  proper : ∀ item ∈ items, (range item).start < (range item).stop
  before : items.Pairwise fun first second => (range first).stop ≤ (range second).start

namespace InSequence

variable {α β : Type} {range : α → Range} {items : List α}

/-- Some items of a sequence, in their order, are in sequence. -/
theorem sublist (sequence : InSequence range items) {part : List α}
    (within : part.Sublist items) : InSequence range part where
  proper item listed := sequence.proper item (within.subset listed)
  before := sequence.before.sublist within

/-- Items in sequence start one after another. -/
theorem increasing (sequence : InSequence range items) : Increasing range items := by
  -- An item takes some text, and the next one starts after it.
  refine List.Pairwise.imp_of_mem ?_ sequence.before
  intro first second listed _ before
  exact (sequence.proper first listed).trans_le before

/-- No two items of a sequence have the same range. -/
theorem nodup_map (sequence : InSequence range items) : (items.map range).Nodup := by
  -- Ranges that start apart are different.
  refine List.pairwise_map.mpr (sequence.increasing.imp ?_)
  intro first second earlier same
  exact earlier.ne (congrArg Range.start same)

/-- Items that are made of others follow one another where those do, by the ranges that they get. -/
theorem map_iff {range : β → Range} {change : α → β} :
    InSequence range (items.map change) ↔ InSequence (fun item => range (change item)) items := by
  constructor
  · intro sequence
    exact ⟨fun item listed => sequence.proper (change item) (List.mem_map_of_mem listed),
      List.pairwise_map.mp sequence.before⟩
  · intro sequence
    exact ⟨List.forall_mem_map.mpr sequence.proper, List.pairwise_map.mpr sequence.before⟩

/-- Of items in sequence, those that share some text are the same. -/
theorem eq_of_overlap (sequence : InSequence range items) {first second : α}
    (firstListed : first ∈ items) (secondListed : second ∈ items)
    (forward : (range first).start < (range second).stop)
    (backward : (range second).start < (range first).stop) : first = second := by
  -- Whichever of the two came first in the list would end before the other starts.
  have apart : items.Pairwise fun first second =>
      (range first).start < (range second).stop → (range second).start < (range first).stop →
        first = second :=
    sequence.before.imp fun before _ backward => absurd before backward.not_ge
  have apart' : items.Pairwise fun first second =>
      (range second).start < (range first).stop → (range first).start < (range second).stop →
        second = first :=
    sequence.before.imp fun before forward _ => absurd before forward.not_ge
  exact apart.forall_of_forall_of_flip (fun _ _ _ _ => rfl) apart' firstListed secondListed
    forward backward

/-- Of items in sequence, at most one holds a given position. -/
theorem eq_of_contains (sequence : InSequence range items) {first second : α}
    (firstListed : first ∈ items) (secondListed : second ∈ items) {position : Position}
    (firstHolds : (range first).contains position)
    (secondHolds : (range second).contains position) : first = second := by
  -- A position that both hold is text that both share.
  rw [contains_iff] at firstHolds secondHolds
  exact sequence.eq_of_overlap firstListed secondListed (firstHolds.1.trans_lt secondHolds.2)
    (secondHolds.1.trans_lt firstHolds.2)

end InSequence

end Range

/-- Ranges laid out over tokens, each from one of them to another, with tokens left out between. -/
inductive Laid : List Range → List Token → Prop where
  | nil (tokens : List Token) : Laid [] tokens
  | skip {ranges : List Range} {tokens : List Token} (token : Token) (laid : Laid ranges tokens) :
    Laid ranges (token :: tokens)
  | cons {range : Range} {ranges : List Range} {part tokens : List Token}
    (spans : Spans part range) (laid : Laid ranges tokens) : Laid (range :: ranges) (part ++ tokens)

namespace Laid

variable {first second ranges : List Range} {left right tokens : List Token}

/-- What is laid out over two parts is laid out over both together. -/
theorem append (laid : Laid first left) (later : Laid second right) :
    Laid (first ++ second) (left ++ right) := by
  induction laid with
  | nil tokens =>
    -- The tokens on the left carry nothing, and are left out one by one.
    induction tokens with
    | nil => exact later
    | cons token tokens ih => exact .skip token ih
  | skip token _ ih => exact .skip token ih
  | cons spans _ ih =>
    rw [List.append_assoc]
    exact .cons spans ih

/-- A range is laid out over the tokens that it spans. -/
theorem single {part : List Token} {range : Range} (spans : Spans part range) :
    Laid [range] part := by
  simpa using Laid.cons spans (.nil [])

/-- Every range that is laid out starts with a token. -/
theorem exists_start (laid : Laid ranges tokens) {range : Range} (listed : range ∈ ranges) :
    ∃ token ∈ tokens, token.range.start = range.start := by
  -- A range is the one that is laid out first, or it starts with a token further on.
  induction laid with
  | nil => simp at listed
  | skip token _ ih =>
    obtain ⟨found, among, starts⟩ := ih listed
    exact ⟨found, by simp [among], starts⟩
  | cons spans _ ih =>
    rcases List.mem_cons.mp listed with rfl | listed
    · obtain ⟨token, head, starts⟩ := Option.map_eq_some_iff.mp spans.start_eq
      exact ⟨token, List.mem_append_left _ (List.mem_of_head? head), starts⟩
    · obtain ⟨found, among, starts⟩ := ih listed
      exact ⟨found, List.mem_append_right _ among, starts⟩

end Laid

/-- A range over ordered tokens takes some text. -/
theorem Spans.proper {tokens : List Token} {range : Range} (spans : Spans tokens range)
    (ordered : Ordered tokens) : range.start < range.stop := by
  -- A range stops with the last of its tokens, so there is one.
  obtain ⟨last, atEnd, stops⟩ := Option.map_eq_some_iff.mp spans.stop_eq
  rw [← stops]
  cases tokens with
  | nil => simp at atEnd
  | cons head rest =>
    have starts : head.range.start = range.start := by simpa using spans.start_eq
    rw [← starts]
    -- The last token is the first one, or starts after it.
    rcases List.mem_cons.mp (List.mem_of_getLast? atEnd) with rfl | later
    · exact ordered.proper last (by simp)
    · have before : head.range.stop ≤ last.range.start :=
        List.rel_of_pairwise_cons ordered.before later
      exact ((ordered.proper head (by simp)).trans_le before).trans
        (ordered.proper last (by simp [later]))

/-- Ranges laid out over ordered tokens follow one another. -/
theorem Laid.inSequence {ranges : List Range} {tokens : List Token} (laid : Laid ranges tokens)
    (ordered : Ordered tokens) : Range.InSequence id ranges := by
  induction laid with
  -- Every range starts with a token of its own, so the order of the tokens is that of the ranges.
  | nil => exact ⟨by simp, .nil⟩
  | skip token _ ih => exact ih ordered.tail
  | @cons range ranges part tokens spans laid ih =>
    have later := ih ordered.right
    refine ⟨?_, List.pairwise_cons.mpr ⟨?_, later.before⟩⟩
    · intro other listed
      rcases List.mem_cons.mp listed with rfl | listed
      · exact spans.proper ordered.left
      · exact later.proper other listed
    · -- A later range starts with a token, behind the last one of this part.
      intro other listed
      obtain ⟨token, among, starts⟩ := laid.exists_start listed
      obtain ⟨last, atEnd, stops⟩ := Option.map_eq_some_iff.mp spans.stop_eq
      have before : last.range.stop ≤ token.range.start :=
        (List.pairwise_append.mp ordered.before).2.2 last (List.mem_of_getLast? atEnd) token among
      simpa [← stops, ← starts] using before

/-- A place where a name is declared, or where one or two names are used together. -/
inductive Mark where
  /-- The name of a declaration, with what it is shown as. -/
  | declared (highlight : Highlight)
  /-- A type that a relation admits. -/
  | type (written : SubjectType) (enclosing : Definition)
  /-- A name on its own. -/
  | name (written : NameRef) (enclosing : Definition)
  /-- Both names of an arrow. -/
  | arrow (written : Arrow) (enclosing : Definition)

namespace Mark

/-- Where the mark is written. -/
def range : Mark → Range
  | .declared highlight => highlight.range
  | .type written _ => written.range
  | .name written _ => written.range
  | .arrow written _ => written.range

/-- The references of a mark, of which an arrow has two. -/
def sites : Mark → List Site
  | .declared _ => []
  | .type written enclosing => [⟨.type written, enclosing⟩]
  | .name written enclosing => [⟨.name written, enclosing⟩]
  | .arrow written enclosing =>
    [⟨.name written.left, enclosing⟩, ⟨.arrowTarget written, enclosing⟩]

/-- The highlight of a declared name. -/
def highlight? : Mark → Option Highlight
  | .declared highlight => some highlight
  | _ => none

end Mark

/-- The marks of an expression, from left to right. -/
def Expr.marks (enclosing : Definition) : Expr → List Mark
  | .reference written => [.name written enclosing]
  | .arrow written => [.arrow written enclosing]
  | .nil _ => []
  | .binary _ left right _ => left.marks enclosing ++ right.marks enclosing

/-- The marks of a member: its own name, and then the names that it uses. -/
def Member.marks (enclosing : Definition) (member : Member) : List Mark :=
  .declared ⟨member.nameRange, .ofMember? (some member)⟩ ::
    match member with
    | .relation declared => declared.subjectTypes.map (.type · enclosing)
    | .permission declared => declared.expression.marks enclosing

/-- The marks of a definition: its own name, and then those of its members. -/
def Definition.marks (definition : Definition) : List Mark :=
  .declared ⟨definition.nameRange, .type⟩ ::
    definition.members.flatMap (Member.marks definition)

/-- The marks of a schema. -/
def Schema.marks (schema : Schema) : List Mark :=
  schema.definitions.flatMap Definition.marks

/-- A reference stands among those of a member of the definition around it. -/
theorem Schema.mem_sites {schema : Schema} {site : Site} : site ∈ schema.sites ↔
    site.enclosing ∈ schema.definitions ∧
      ∃ member ∈ site.enclosing.members, site.reference ∈ member.references := by
  -- The enclosing definition of a reference is the one that lists it.
  simp only [Schema.sites, Definition.sites, List.mem_flatMap, List.mem_map]
  constructor
  · rintro ⟨definition, declared, reference, ⟨member, listed, among⟩, rfl⟩
    exact ⟨declared, member, listed, among⟩
  · rintro ⟨declared, member, listed, among⟩
    exact ⟨site.enclosing, declared, site.reference, ⟨member, listed, among⟩, rfl⟩

/-- The references of an expression are those of its marks. -/
theorem Expr.flatMap_sites_marks (enclosing : Definition) (expr : Expr) :
    (expr.marks enclosing).flatMap Mark.sites = expr.references.map (⟨·, enclosing⟩) := by
  -- An arrow is one mark with two references, and any other name is one mark with one.
  induction expr with
  | reference written => rfl
  | arrow written => rfl
  | nil range => rfl
  | binary operator left right range ihLeft ihRight => simp [marks, references, ihLeft, ihRight]

/-- The references of a schema are those of its marks. -/
theorem Schema.sites_eq (schema : Schema) : schema.sites = schema.marks.flatMap Mark.sites := by
  simp only [sites, marks, List.flatMap_assoc]
  congr 1
  funext definition
  simp only [Definition.sites, Definition.marks, List.flatMap_cons, Mark.sites, List.nil_append,
    List.flatMap_assoc, List.map_flatMap]
  congr 1
  funext member
  -- The name of the member is no reference, and its types or its expression hold the others.
  cases member with
  | relation declared =>
    simp only [Member.references, Member.marks, List.flatMap_cons, Mark.sites, List.nil_append,
      List.flatMap_map, List.map_map]
    exact List.map_eq_flatMap
  | permission declared =>
    simp [Member.references, Member.marks, Mark.sites, Expr.flatMap_sites_marks]

/-- A reference belongs to a mark. -/
theorem Schema.exists_mark {schema : Schema} {site : Site} (listed : site ∈ schema.sites) :
    ∃ mark ∈ schema.marks, site ∈ mark.sites := by
  rw [schema.sites_eq] at listed
  exact List.mem_flatMap.mp listed

/-- No mark of an expression is a declared name. -/
theorem Expr.filterMap_highlight?_marks (enclosing : Definition) (expr : Expr) :
    (expr.marks enclosing).filterMap Mark.highlight? = [] := by
  induction expr with
  | reference written => rfl
  | arrow written => rfl
  | nil range => rfl
  | binary operator left right range ihLeft ihRight => simp [marks, ihLeft, ihRight]

/-- The highlights of declared names are those of the marks. -/
theorem Schema.declarationHighlights_eq (schema : Schema) :
    schema.declarationHighlights = schema.marks.filterMap Mark.highlight? := by
  simp only [declarationHighlights, marks, List.filterMap_flatMap]
  congr 1
  funext definition
  simp only [Definition.highlights, Definition.marks, List.filterMap_cons, Mark.highlight?,
    List.filterMap_flatMap, List.map_eq_flatMap]
  congr 2
  -- A member declares one name, and whatever it uses is no declaration.
  funext member
  cases member with
  | relation declared => simp [Member.marks, Mark.highlight?, Function.comp_def]
  | permission declared => simp [Member.marks, Mark.highlight?, Expr.filterMap_highlight?_marks]

/-- A type whose path and suffix stand in it one after the other. -/
structure SubjectType.WellPlaced (written : SubjectType) : Prop where
  path_start : written.pathRange.start = written.range.start
  path_proper : written.pathRange.start < written.pathRange.stop
  path_stop : written.pathRange.stop ≤ written.range.stop
  suffix_paired : written.suffix.isSome = written.suffixRange.isSome
  suffix_after : ∀ place ∈ written.suffixRange, written.pathRange.stop ≤ place.start
  suffix_proper : ∀ place ∈ written.suffixRange, place.start < place.stop
  suffix_stop : ∀ place ∈ written.suffixRange, place.stop = written.range.stop

/-- An arrow whose names stand in it one after the other. -/
structure Arrow.WellPlaced (written : Arrow) : Prop where
  left_start : written.left.range.start = written.range.start
  left_proper : written.left.range.start < written.left.range.stop
  between : written.left.range.stop ≤ written.right.range.start
  right_proper : written.right.range.start < written.right.range.stop
  right_stop : written.right.range.stop = written.range.stop

/-- A suffix that is written has a place. -/
theorem SubjectType.WellPlaced.exists_place {written : SubjectType} (placed : written.WellPlaced)
    {name : String} (suffix : written.suffix = some name) :
    ∃ place, written.suffixRange = some place := by
  rw [← Option.isSome_iff_exists, ← placed.suffix_paired, suffix, Option.isSome_some]

/-- The suffix of a type stands inside it. -/
theorem SubjectType.WellPlaced.suffix_within {written : SubjectType} (placed : written.WellPlaced)
    {place : Range} (present : place ∈ written.suffixRange) : place.Within written.range := by
  -- The suffix comes after the path, and the whole ends with it.
  have start_le := placed.path_proper.le.trans (placed.suffix_after place present)
  rw [placed.path_start] at start_le
  exact ⟨start_le, (placed.suffix_stop place present).le⟩

namespace Arrow.WellPlaced

variable {written : Arrow}

/-- The left name of an arrow stands inside it. -/
theorem left_within (placed : written.WellPlaced) : written.left.range.Within written.range := by
  -- The left name ends before the right one, with which the arrow ends.
  have stop_le := placed.between.trans placed.right_proper.le
  rw [placed.right_stop] at stop_le
  exact ⟨placed.left_start.ge, stop_le⟩

/-- The right name of an arrow stands inside it. -/
theorem right_within (placed : written.WellPlaced) : written.right.range.Within written.range := by
  -- The right name starts behind the left one, with which the arrow starts.
  have start_le := placed.left_proper.le.trans placed.between
  rw [placed.left_start] at start_le
  exact ⟨start_le, placed.right_stop.le⟩

end Arrow.WellPlaced

/-- A mark whose names stand in it one after the other. -/
def Mark.WellPlaced : Mark → Prop
  | .declared _ => True
  | .type written _ => written.WellPlaced
  | .name _ _ => True
  | .arrow written _ => written.WellPlaced

/-- Where a reference is written, with both names for the right side of an arrow. -/
def Reference.extent : Reference → Range
  | .type written => written.range
  | .name written => written.range
  | .arrowTarget written => written.range

/-- A reference that takes some text, whose names stand in it one after the other. -/
def Reference.WellPlaced : Reference → Prop
  | .type written => written.WellPlaced
  | .name written => written.range.start < written.range.stop
  | .arrowTarget written => written.WellPlaced

/-- The references of a mark that is well placed are well placed inside it. -/
theorem Mark.WellPlaced.site {mark : Mark} (placed : mark.WellPlaced)
    (proper : mark.range.start < mark.range.stop) {site : Site} (holds : site ∈ mark.sites) :
    site.reference.WellPlaced ∧ site.reference.extent.Within mark.range := by
  -- All marks but arrows have one reference at most, and it takes the whole mark.
  cases mark with
  | declared highlight => simp [Mark.sites] at holds
  | type written enclosing =>
    obtain rfl : site = ⟨.type written, enclosing⟩ := by simpa [Mark.sites] using holds
    exact ⟨placed, .refl _⟩
  | name written enclosing =>
    obtain rfl : site = ⟨.name written, enclosing⟩ := by simpa [Mark.sites] using holds
    exact ⟨proper, .refl _⟩
  | arrow written enclosing =>
    simp only [Mark.sites, List.mem_cons, List.not_mem_nil, or_false] at holds
    rcases holds with rfl | rfl
    · have placed : written.WellPlaced := placed
      exact ⟨placed.left_proper, placed.left_within⟩
    · exact ⟨placed, .refl _⟩

/-- Marks that are laid out over tokens, each well placed. -/
structure Placed (marks : List Mark) (tokens : List Token) : Prop where
  laid : Laid (marks.map Mark.range) tokens
  wellPlaced : ∀ mark ∈ marks, mark.WellPlaced

namespace Placed

/-- Tokens may carry no mark at all. -/
theorem nil (tokens : List Token) : Placed [] tokens :=
  ⟨.nil tokens, by simp⟩

/-- A mark is placed over the tokens that it spans. -/
theorem single (mark : Mark) {part : List Token} (spans : Spans part mark.range)
    (wellPlaced : mark.WellPlaced) : Placed [mark] part :=
  ⟨.single spans, by simpa using wellPlaced⟩

/-- A token in front leaves the marks behind it where they are. -/
theorem skip {marks : List Mark} {tokens : List Token} (placed : Placed marks tokens)
    (token : Token) : Placed marks (token :: tokens) :=
  ⟨.skip token placed.laid, placed.wellPlaced⟩

/-- Marks over two parts are placed over both together. -/
theorem append {first second : List Mark} {left right : List Token} (placed : Placed first left)
    (later : Placed second right) : Placed (first ++ second) (left ++ right) := by
  refine ⟨?_, ?_⟩
  · rw [List.map_append]
    exact placed.laid.append later.laid
  · intro mark listed
    rcases List.mem_append.mp listed with listed | listed
    · exact placed.wellPlaced mark listed
    · exact later.wellPlaced mark listed

/-- Marks over the tokens of each item are placed over the tokens of all items. -/
theorem flatMap {α : Type} {items : List α} {marks : α → List Mark} {tokens : α → List Token}
    (placed : ∀ item ∈ items, Placed (marks item) (tokens item)) :
    Placed (items.flatMap marks) (items.flatMap tokens) := by
  -- The parts follow one another as the items do.
  induction items with
  | nil => exact .nil []
  | cons item items ih =>
    simp only [List.flatMap_cons]
    exact (placed item (by simp)).append (ih fun other listed => placed other (by simp [listed]))

end Placed

namespace Grammar

/-- The path and the suffix of a type stand in it one after the other. -/
theorem TypeTree.wellPlaced (tree : TypeTree) (ordered : Ordered tree.tokens) :
    tree.subjectType.WellPlaced := by
  obtain ⟨path, suffix⟩ := tree
  have onPath : Spans path.tokens path.range := path.spans ordered.left
  have proper := onPath.proper ordered.left
  -- The last token of the path ends before those of the suffix start.
  have behind : ∀ token ∈ suffix.tokens, path.range.stop ≤ token.range.start := by
    intro token among
    obtain ⟨last, atEnd, stops⟩ := Option.map_eq_some_iff.mp onPath.stop_eq
    rw [← stops]
    exact (List.pairwise_append.mp ordered.before).2.2 last (List.mem_of_getLast? atEnd) token
      among
  -- A type ends with its path, with the name behind the hash, or with the star.
  cases suffix with
  | none =>
    exact ⟨rfl, proper, le_refl _, rfl, by simp [subjectType], by simp [subjectType],
      by simp [subjectType]⟩
  | relation hash name =>
    have after := behind name.token (by simp [SuffixTree.tokens])
    have nameProper : name.token.range.start < name.token.range.stop :=
      ordered.right.proper name.token (by simp [SuffixTree.tokens])
    exact ⟨rfl, proper, after.trans nameProper.le, rfl, by simpa [subjectType] using after,
      by simpa [subjectType] using nameProper, by simp [subjectType]⟩
  | wildcard colon star =>
    have after := behind star.token (by simp [SuffixTree.tokens])
    have starProper : star.token.range.start < star.token.range.stop :=
      ordered.right.proper star.token (by simp [SuffixTree.tokens])
    exact ⟨rfl, proper, after.trans starProper.le, rfl, by simp [subjectType],
      by simp [subjectType], by simp [subjectType]⟩

/-- The names of an arrow stand in it one after the other. -/
theorem ExprTree.arrow_wellPlaced (left : TokenOf .identifier) (sign : TokenOf .arrow)
    (right : TokenOf .identifier) (ordered : Ordered (arrow left sign right).tokens) :
    Arrow.WellPlaced ⟨nameRef left, nameRef right, (arrow left sign right).extent⟩ := by
  -- The first name ends before the second one starts, so that the whole reaches over both.
  have leftProper := ordered.proper left.token (by simp [tokens])
  have rightProper := ordered.proper right.token (by simp [tokens])
  have between : left.token.range.stop ≤ right.token.range.start :=
    List.rel_of_pairwise_cons ordered.before (by simp)
  have whole := Range.cover_of_before leftProper between rightProper
  refine ⟨?_, leftProper, between, rightProper, ?_⟩
  · -- The cover of both names starts with the left one.
    simp [extent, whole, nameRef]
  · -- It stops with the right one.
    simp [extent, whole, nameRef]

/-- The marks of an expression are placed over its tokens. -/
theorem ExprTree.placed (enclosing : Definition) {rank : Rank} (tree : ExprTree rank)
    (ordered : Ordered tree.tokens) : Placed (tree.expr.marks enclosing) tree.tokens := by
  -- Operators and parentheses are left out, and each name or arrow takes its own tokens.
  induction tree with
  | term only ih => exact ih ordered
  | factor only ih => exact ih ordered
  | union left sign right ihLeft ihRight =>
    exact (ihLeft ordered.left).append ((ihRight ordered.right.tail).skip sign.token)
  | exclusion left sign right ihLeft ihRight =>
    exact (ihLeft ordered.left).append ((ihRight ordered.right.tail).skip sign.token)
  | intersection left sign right ihLeft ihRight =>
    exact (ihLeft ordered.left).append ((ihRight ordered.right.tail).skip sign.token)
  | name only => exact .single (.name _ enclosing) (.single only.token) trivial
  | nil keyword => exact .nil _
  | parens opening inner closing ih =>
    have inside := ((ih ordered.tail.left).append (.nil [closing.token])).skip opening.token
    rwa [List.append_nil] at inside
  | arrow left sign right =>
    exact .single (.arrow _ enclosing) (.cover ordered) (arrow_wellPlaced left sign right ordered)

/-- The types of a relation are placed over their tokens. -/
theorem types_placed (enclosing : Definition) (first : TypeTree)
    (more : List (TokenOf .pipe × TypeTree))
    (ordered : Ordered (first.tokens ++ furtherTokens more)) :
    Placed ((first :: more.map Prod.snd).map (.type ·.subjectType enclosing))
      (first.tokens ++ furtherTokens more) := by
  -- Each further type takes the place of the first one for those after it.
  have onFirst : Placed [.type first.subjectType enclosing] first.tokens :=
    .single _ (first.spans ordered.left) (first.wellPlaced ordered.left)
  induction more generalizing first with
  | nil => exact onFirst.append (.nil _)
  | cons item more ih =>
    obtain ⟨bar, type⟩ := item
    have tokens_eq : furtherTokens ((bar, type) :: more) =
        bar.token :: (type.tokens ++ furtherTokens more) := by
      simp [furtherTokens]
    rw [tokens_eq] at ordered ⊢
    have behind := ordered.right.tail
    -- The bar in front of a further type carries no mark.
    have later := ih type behind (.single _ (type.spans behind.left) (type.wellPlaced behind.left))
    exact onFirst.append (later.skip bar.token)

/-- The marks of a member are placed over its tokens. -/
theorem MemberTree.placed (enclosing : Definition) (tree : MemberTree)
    (ordered : Ordered tree.tokens) : Placed (tree.member.marks enclosing) tree.tokens := by
  -- Between the name and what the member uses stands one sign.
  have named : Placed [.declared ⟨tree.member.nameRange, .ofMember? (some tree.member)⟩]
      [tree.name] := by
    refine .single _ ?_ trivial
    rw [Mark.range, tree.nameRange_member]
    exact .single tree.name
  -- Both kinds start with a keyword and the name, and differ in what follows the sign.
  cases tree with
  | relation tree =>
    have types := types_placed enclosing tree.first tree.more ordered.tail.tail.tail
    have marks_eq : tree.relation.subjectTypes.map (Mark.type · enclosing) =
        (tree.first :: tree.more.map Prod.snd).map (.type ·.subjectType enclosing) := by
      simp [RelationTree.relation, RelationTree.types]
    rw [← marks_eq] at types
    exact (named.append (types.skip tree.colon.token)).skip tree.keyword.token
  | permission tree =>
    have inside := tree.expression.placed enclosing ordered.tail.tail.tail
    exact (named.append (inside.skip tree.equals.token)).skip tree.keyword.token

end Grammar

namespace Outline

/-- The tokens of the header and of the members that were kept. -/
def leaves (outline : Outline) : List Token :=
  outline.header.tokens ++ outline.members.flatMap MemberTree.tokens

/-- The leaves are some of the tokens of the definition, in their order. -/
theorem leaves_sublist (outline : Outline) : outline.leaves.Sublist outline.tokens :=
  outline.members_sublist.append_left outline.header.tokens

/-- The marks of an outlined definition are placed over its leaves. -/
theorem placed {outline : Outline} (ordered : Ordered outline.tokens) :
    Placed outline.definition.marks outline.leaves := by
  -- Tokens of faulty members are no leaves, and leaving them out keeps the order.
  have leaves := ordered.sublist outline.leaves_sublist
  have onPath : Ordered outline.header.path.tokens := leaves.left.tail.left
  have named : Placed [.declared ⟨outline.definition.nameRange, .type⟩]
      outline.header.path.tokens :=
    .single _ (outline.header.path.spans onPath) trivial
  have inside := Placed.flatMap fun (tree : MemberTree) (listed : tree ∈ outline.members) =>
    tree.placed outline.definition (leaves.right.item listed)
  -- The keyword comes before the path, and the brace between it and the members.
  have whole := (named.append (inside.skip outline.header.opening.token)).skip
    outline.header.keyword.token
  rw [Definition.marks, members_definition ordered, List.flatMap_map]
  simpa [Outline.leaves, HeaderTree.tokens] using whole

end Outline

section Read

variable {options : Parse.Options} {source : String} {schema : Schema}

/-- In a schema that is read, the marks are placed over ordered tokens. -/
theorem exists_placed (read : (parseWith options source).schema? = some schema) :
    ∃ tokens, Placed schema.marks tokens ∧ Ordered tokens := by
  obtain ⟨outlines, definitions, ordered⟩ := exists_outlines read
  have placed := Placed.flatMap fun outline listed => Outline.placed (ordered.item listed)
  -- The leaves are some of the tokens of the outlines, in the same order.
  have within : (outlines.flatMap Outline.leaves).Sublist (outlines.flatMap Outline.tokens) :=
    .flatMap_right outlines fun outline _ => outline.leaves_sublist
  refine ⟨outlines.flatMap Outline.leaves, ?_, ordered.sublist within⟩
  rwa [Schema.marks, definitions, List.flatMap_map]

/-- In a schema that is read, each mark ends before the next one starts. -/
theorem marks_inSequence (read : (parseWith options source).schema? = some schema) :
    Range.InSequence Mark.range schema.marks := by
  obtain ⟨tokens, placed, ordered⟩ := exists_placed read
  -- The ranges of the marks are in sequence, which is the same as the marks by their ranges.
  have sequence := Range.InSequence.map_iff.mp (placed.laid.inSequence ordered)
  exact sequence

/-- In a schema that is read, no two definitions have their names at one place. -/
theorem nodup_nameRange_definitions (read : (parseWith options source).schema? = some schema) :
    (schema.definitions.map Definition.nameRange).Nodup := by
  -- The names of definitions are some of the marks, one for each.
  have within : (schema.definitions.map fun definition =>
      Mark.declared ⟨definition.nameRange, .type⟩).Sublist schema.marks := by
    rw [List.map_eq_flatMap]
    refine .flatMap_right schema.definitions fun definition _ => ?_
    exact (List.nil_sublist _).cons_cons _
  simpa [Function.comp_def, Mark.range] using ((marks_inSequence read).sublist within).nodup_map

/-- In a schema that is read, no two members have their names at one place. -/
theorem nodup_nameRange_members (read : (parseWith options source).schema? = some schema) :
    (schema.definitions.flatMap fun definition =>
      definition.members.map Member.nameRange).Nodup := by
  -- So are the names of members, which stand behind that of their definition.
  have within : (schema.definitions.flatMap fun definition => definition.members.map fun member =>
      Mark.declared ⟨member.nameRange, .ofMember? (some member)⟩).Sublist schema.marks := by
    refine .flatMap_right schema.definitions fun definition _ => .cons _ ?_
    rw [List.map_eq_flatMap]
    refine .flatMap_right definition.members fun member _ => ?_
    exact (List.nil_sublist _).cons_cons _
  simpa [List.map_flatMap, Function.comp_def, Mark.range] using
    ((marks_inSequence read).sublist within).nodup_map

/-- In a schema that is read, the names inside a mark stand in it one after another. -/
theorem wellPlaced_of_read (read : (parseWith options source).schema? = some schema) {mark : Mark}
    (listed : mark ∈ schema.marks) : mark.WellPlaced := by
  obtain ⟨tokens, placed, _⟩ := exists_placed read
  exact placed.wellPlaced mark listed

/-- In a schema that is read, each reference is well placed inside its mark. -/
theorem exists_mark_of_read (read : (parseWith options source).schema? = some schema) {site : Site}
    (listed : site ∈ schema.sites) :
    ∃ mark ∈ schema.marks, site ∈ mark.sites ∧ site.reference.WellPlaced ∧
      site.reference.extent.Within mark.range := by
  rw [schema.sites_eq] at listed
  obtain ⟨mark, among, holds⟩ := List.mem_flatMap.mp listed
  -- A mark in a sequence takes some text, which is all that its references ask for.
  have proper := (marks_inSequence read).proper mark among
  exact ⟨mark, among, holds, (wellPlaced_of_read read among).site proper holds⟩

/-- In a schema that is read, every relation admits some type. -/
theorem subjectTypes_ne_nil_of_read (read : (parseWith options source).schema? = some schema)
    {definition : Definition} (declared : definition ∈ schema.definitions) {relation : Relation}
    (listed : relation ∈ definition.relations) : relation.subjectTypes ≠ [] := by
  obtain ⟨outlines, definitions, _⟩ := exists_outlines read
  rw [definitions] at declared
  obtain ⟨outline, _, rfl⟩ := List.mem_map.mp declared
  -- A relation comes from a derivation, which has a first type.
  obtain ⟨tree, _, rfl⟩ := MemberTree.exists_relation listed
  simp [RelationTree.relation, RelationTree.types]

end Read

end AuthSchema
