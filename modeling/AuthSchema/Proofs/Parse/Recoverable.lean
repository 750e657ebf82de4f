import AuthSchema.Proofs.Parse.Accept
import AuthSchema.Proofs.Parse.Recovery

/-! The definitions that can be told from a list of tokens by their places in it. -/

namespace AuthSchema.Parse

open Grammar

/-- What a production reads after its keyword, where the first of some tokens is that keyword. -/
def readFrom? {α : Type} (kind : TokenKind) (production : Token → Production α) :
    List Token → Option α
  | [] => none
  | keyword :: ahead =>
    if keyword.kind = kind then ((production keyword).run ahead).value? else none

/-- The place of the first token from a start on that ends something, or else past all tokens. -/
def nextIndex (ends : TokenKind → Bool) (tokens : List Token) (start : Nat) : Nat :=
  start + (tokens.drop start).findIdx (ends ·.kind)

/--
The definition that starts at a place, where a header can be read from there on.

* Its body goes from the brace of the header to the next closing brace or definition.
* Its members are what can be read at each keyword inside the body.
* It stops with the closing brace, or else with the last token before the end of the body.
-/
def definitionAt? (tokens : List Token) (start : Nat) : Option Definition := do
  let keyword ← tokens[start]?
  let found ← readFrom? .definition header (tokens.drop start)
  let opening := nextIndex (· = .leftBrace) tokens start
  let ending := nextIndex endsBody tokens (opening + 1)
  let inside := List.range' (opening + 1) (ending - (opening + 1))
  let last ← (tokens[ending]?.filter (·.kind = .rightBrace)).or tokens[ending - 1]?
  some
    { name := found.name
      nameRange := found.nameRange
      range := ⟨keyword.range.start, last.range.stop⟩
      relations := inside.filterMap fun place => readFrom? .relation relation (tokens.drop place)
      permissions :=
        inside.filterMap fun place => readFrom? .permission permission (tokens.drop place) }

/-- The definitions that start at the places of a list of tokens, one after another. -/
def recoverable (tokens : List Token) : List Definition :=
  (List.range tokens.length).filterMap (definitionAt? tokens)

/-- The first token that ends something comes after those that do not. -/
theorem nextIndex_append {ends : TokenKind → Bool} (before : List Token) {inside : List Token}
    (open_ : ∀ token ∈ inside, ends token.kind = false) {after : List Token}
    (ended : ∀ token, after.head? = some token → ends token.kind = true) :
    nextIndex ends (before ++ (inside ++ after)) before.length = before.length + inside.length := by
  rw [nextIndex, List.drop_left]
  congr 1
  -- The induction is on the tokens that end nothing.
  induction inside with
  | nil =>
    cases after with
    | nil => rfl
    | cons token after => simp [List.findIdx_cons, ended token rfl]
  | cons token inside ih =>
    have later := ih fun other listed => open_ other (List.mem_cons_of_mem _ listed)
    simp [List.findIdx_cons, open_ token (by simp), later]

/-- Reading and then choosing at each token is choosing from what is read at each token. -/
theorem readEach_bind {α β : Type} {read : List Token → Option α} (choose : α → Option β)
    (part rest : List Token) :
    readEach (fun tokens => (read tokens).bind choose) part rest =
      (readEach read part rest).filterMap choose := by
  -- At each token, what is read is chosen from or dropped, and the others are by induction.
  induction part with
  | nil => rfl
  | cons token part ih =>
    rw [readEach, readEach, ih, List.filterMap_append]
    cases read (token :: (part ++ rest)) with
    | none => rfl
    | some value => cases chosen : choose value <;> simp [chosen]

/-- A relation is read at its keyword exactly where a member is read that is one. -/
theorem readFrom?_relation (tokens : List Token) :
    readFrom? .relation relation tokens = (memberFrom? tokens).bind Member.relation? := by
  -- The first token decides on both sides which production runs.
  cases tokens with
  | nil => rfl
  | cons keyword ahead =>
    rw [readFrom?, memberFrom?, member]
    split
    · rename_i isKeyword
      rw [isKeyword]
      cases (relation keyword).run ahead <;> rfl
    · rename_i other
      -- At another keyword a member that is read is a permission.
      split
      · contradiction
      · cases (permission keyword).run ahead <;> rfl
      · rfl

/-- A permission is read at its keyword exactly where a member is read that is one. -/
theorem readFrom?_permission (tokens : List Token) :
    readFrom? .permission permission tokens = (memberFrom? tokens).bind Member.permission? := by
  -- The first token decides on both sides which production runs.
  cases tokens with
  | nil => rfl
  | cons keyword ahead =>
    rw [readFrom?, memberFrom?, member]
    split
    · rename_i isKeyword
      rw [isKeyword]
      cases (permission keyword).run ahead <;> rfl
    · rename_i other
      -- At another keyword a member that is read is a relation.
      split
      · cases (relation keyword).run ahead <;> rfl
      · contradiction
      · rfl

/-- A header is read at its keyword exactly where a header is read at all. -/
theorem readFrom?_header (keyword : Token) (ahead : List Token) :
    readFrom? .definition header (keyword :: ahead) = (headerAt keyword ahead).value? := by
  -- The condition on the keyword is the same on both sides.
  rw [readFrom?, headerAt]
  split
  · rfl
  · rfl

/-- The tokens of a body and those after it are all tokens. -/
theorem bodyPart_append_afterBody (tokens : List Token) :
    bodyPart tokens ++ afterBody tokens = tokens :=
  List.takeWhile_append_dropWhile

/-- The brace of a header is the first one from its keyword on. -/
theorem nextIndex_of_header (before : List Token) (tree : HeaderTree) (rest : List Token) :
    nextIndex (· = .leftBrace) (before ++ (tree.tokens ++ rest)) before.length + 1 =
      (before ++ tree.tokens).length := by
  -- Neither the keyword nor a token of the path is a brace.
  have open_ : ∀ token ∈ tree.keyword.token :: tree.path.tokens,
      decide (token.kind = .leftBrace) = false := by
    intro token listed
    rcases List.mem_cons.mp listed with rfl | listed
    · simp
    · cases path : tree.path with
      | single name => simp_all [PathTree.tokens]
      | pair first slash second =>
        rw [path, PathTree.tokens] at listed
        simp only [List.mem_cons, List.not_mem_nil, or_false] at listed
        rcases listed with rfl | rfl | rfl <;> simp
  have found : nextIndex (· = .leftBrace)
      (before ++ (tree.keyword.token :: tree.path.tokens ++ tree.opening.token :: rest))
      before.length = before.length + (tree.keyword.token :: tree.path.tokens).length :=
    nextIndex_append before open_ (by simp)
  have leaves : tree.tokens ++ rest =
      tree.keyword.token :: tree.path.tokens ++ tree.opening.token :: rest := by
    simp [HeaderTree.tokens]
  rw [leaves, found]
  simp only [HeaderTree.tokens, List.length_append, List.length_cons, List.length_nil]
  omega

/-- A body ends after its tokens. -/
theorem nextIndex_endsBody (before rest : List Token) :
    nextIndex endsBody (before ++ rest) before.length = (before ++ bodyPart rest).length := by
  -- Up to its end no token ends the body, and the first token from there on does.
  have open_ : ∀ token ∈ bodyPart rest, endsBody token.kind = false := by
    intro token listed
    simpa using List.mem_takeWhile_imp listed
  have ended : ∀ token, (afterBody rest).head? = some token → endsBody token.kind = true := by
    intro token first
    have stops := List.head?_dropWhile_not (fun token => !endsBody token.kind) rest
    rw [← afterBody, first] at stops
    simpa using stops
  have found := nextIndex_append before open_ ended
  rwa [bodyPart_append_afterBody, ← List.length_append] at found

/-- The tokens at the end of a body, and right before it. -/
theorem getElem?_body_end (before : List Token) (opening : Token) (rest : List Token) :
    let ending := (before ++ [opening] ++ bodyPart rest).length
    (before ++ [opening] ++ rest)[ending]? = (afterBody rest).head? ∧
      (before ++ [opening] ++ rest)[ending - 1]? = (opening :: bodyPart rest).getLast? := by
  have whole : before ++ [opening] ++ rest =
      before ++ [opening] ++ bodyPart rest ++ afterBody rest := by
    rw [List.append_assoc _ (bodyPart rest), bodyPart_append_afterBody]
  -- The opening brace stands before the end, so that some token does.
  have positive : 0 < (before ++ [opening] ++ bodyPart rest).length := by
    simp only [List.length_append, List.length_singleton]
    omega
  refine ⟨?_, ?_⟩
  · -- The end of the body is right behind its tokens, where the rest starts.
    rw [whole, List.getElem?_append_right (Nat.le_refl _), Nat.sub_self, List.head?_eq_getElem?]
  · -- One before the end is the last of its tokens, the opening brace being one of them.
    rw [whole, List.getElem?_append_left (by omega), ← List.getLast?_eq_getElem?]
    simp [List.getLast?_cons]

/-- A definition stops with its closing brace, or else with the last token before its end. -/
theorem exists_last_of_body (before : List Token) (opening : Token) (rest : List Token) :
    let tokens := before ++ [opening] ++ rest
    let ending := (before ++ [opening] ++ bodyPart rest).length
    ∃ last, (tokens[ending]?.filter (·.kind = .rightBrace)).or tokens[ending - 1]? = some last ∧
      last.range.stop = lastStop opening.range.stop (bodyPart rest ++ (closing? rest).toList) := by
  intro tokens ending
  obtain ⟨atEnd, beforeEnd⟩ := getElem?_body_end before opening rest
  rw [atEnd, beforeEnd, ← closing?]
  cases closing? rest with
  | some brace => exact ⟨brace, rfl, by simp [lastStop]⟩
  | none =>
    -- The last token before the end is the last one inside, or else the opening brace.
    refine ⟨(bodyPart rest).getLast?.getD opening, by simp [List.getLast?_cons], ?_⟩
    cases last : (bodyPart rest).getLast? <;> simp [lastStop, last]

/-- What is read and chosen at the places of a body is chosen from its members. -/
theorem filterMap_places {α : Type} {read : List Token → Option α} {choose : Member → Option α}
    (same : ∀ tokens, read tokens = (memberFrom? tokens).bind choose) (before rest : List Token) :
    (List.range' before.length (bodyPart rest).length).filterMap
        (fun place => read ((before ++ rest).drop place)) =
      (readEach memberFrom? (bodyPart rest) (afterBody rest)).filterMap choose := by
  -- Places in the body are counted from its first token, with all tokens before it passed over.
  rw [← readEach_bind choose, ← funext same, ← filterMap_range'_eq_readEach before,
    bodyPart_append_afterBody]

/-- The definition at a place is the one that can be read from there on. -/
theorem definitionAt?_append (before tokens : List Token) :
    definitionAt? (before ++ tokens) before.length = definitionFrom? tokens := by
  -- Without a token there is neither a keyword nor a header.
  cases tokens with
  | nil => simp [definitionAt?, definitionFrom?]
  | cons token ahead =>
    rw [definitionAt?, List.drop_left, readFrom?_header, definitionFrom?]
    cases read : headerAt token ahead with
    -- Without a header no definition starts here.
    | failed fault rest => simp [Outcome.value?]
    | done found rest =>
      obtain ⟨tree, leaves, rfl, _⟩ := headerAt_sound read
      have first : (before ++ token :: ahead)[before.length]? = some token := by simp
      have keyword_eq : token = tree.keyword.token := (List.cons.inj leaves).1
      -- All places are told by the tokens up to the brace of the header.
      have opening := nextIndex_of_header before tree rest
      have ending := nextIndex_endsBody (before ++ tree.tokens) rest
      have size : (before ++ tree.tokens ++ bodyPart rest).length -
          (before ++ tree.tokens).length = (bodyPart rest).length := by
        rw [List.length_append, Nat.add_sub_cancel_left]
      have relations := filterMap_places readFrom?_relation (before ++ tree.tokens) rest
      have permissions := filterMap_places readFrom?_permission (before ++ tree.tokens) rest
      obtain ⟨last, last_eq, stop_eq⟩ := exists_last_of_body
        (before ++ tree.keyword.token :: tree.path.tokens) tree.opening.token rest
      have upToBrace : before ++ tree.keyword.token :: tree.path.tokens ++ [tree.opening.token] =
          before ++ tree.tokens := by
        simp [HeaderTree.tokens]
      rw [upToBrace] at last_eq
      rw [leaves] at first ⊢
      rw [← List.append_assoc] at opening first ⊢
      simp only [first, Outcome.value?, opening, ending, bind, Option.bind_some, size, last_eq,
        relations, permissions, stop_eq, keyword_eq]
      rfl

/-- The definition at any place is the one that can be read from there on. -/
theorem definitionAt?_eq (tokens : List Token) (start : Nat) :
    definitionAt? tokens start = definitionFrom? (tokens.drop start) := by
  by_cases inside : start ≤ tokens.length
  · -- The tokens up to the place are as many as its number.
    have taken : (tokens.take start).length = start := List.length_take_of_le inside
    have split := definitionAt?_append (tokens.take start) (tokens.drop start)
    rwa [List.take_append_drop, taken] at split
  · -- Past the tokens there is no keyword.
    have past : tokens.length ≤ start := by omega
    rw [List.drop_eq_nil_of_le past, definitionAt?, List.getElem?_eq_none past]
    rfl

/-- What starts at the places of a list of tokens is what starts at its tokens. -/
theorem recoverable_eq (tokens : List Token) :
    recoverable tokens = readEach definitionFrom? tokens [] := by
  -- Nothing stands before the first place and nothing behind the last.
  rw [← filterMap_range'_eq_readEach [], List.nil_append, List.append_nil,
    ← funext (definitionAt?_eq tokens), List.length_nil, ← List.range_eq_range', recoverable]

/-- A definition starts at the places at which a header with an unspaced path starts. -/
theorem definitionAt?_isSome_iff (tokens : List Token) (start : Nat) :
    (definitionAt? tokens start).isSome ↔
      ∃ head : HeaderTree, head.path.Unspaced ∧ head.tokens <+: tokens.drop start := by
  rw [definitionAt?_eq]
  constructor
  · -- What is read as a header is derived as one.
    intro present
    cases split : tokens.drop start with
    | nil => simp [split, definitionFrom?] at present
    | cons token ahead =>
      cases read : headerAt token ahead with
      | failed fault rest => simp [split, definitionFrom?, read] at present
      | done found rest =>
        obtain ⟨tree, leaves, _, unspaced⟩ := headerAt_sound read
        exact ⟨tree, unspaced, rest, leaves.symm⟩
  · -- What is derived as a header is read as one, whatever follows it.
    rintro ⟨tree, unspaced, rest, leaves⟩
    have read := headerAt_complete unspaced rest
    have split : tokens.drop start = tree.keyword.token :: (tree.tokens.tail ++ rest) := by
      rw [← leaves]
      rfl
    rw [split, definitionFrom?, read]
    rfl

/-- A derivation of a definition is read back at its place, whatever is before and after it. -/
theorem definitionAt?_of_tree {before after : List Token} {tree : DefinitionTree}
    (limits : tree.WithinLimits) (ordered : Ordered (before ++ tree.tokens ++ after)) :
    definitionAt? (before ++ tree.tokens ++ after) before.length = some tree.definition := by
  have read := headerAt_complete limits.1
    (tree.members.flatMap MemberTree.tokens ++ tree.closing.token :: after)
  -- Room for one error is enough, since the body has none.
  have inside := body_complete limits.2 tree.closing after default Nat.one_pos
    (headerOf tree.header).range.stop
  have split : tree.tokens ++ after =
      tree.header.keyword.token :: (tree.header.tokens.tail ++
        (tree.members.flatMap MemberTree.tokens ++ tree.closing.token :: after)) := by
    simp [DefinitionTree.tokens, HeaderTree.tokens]
  rw [List.append_assoc, definitionAt?_append, split]
  rw [List.append_assoc, split] at ordered
  rw [definitionFrom?_of_header ordered.right read (by rw [inside]; exact Nat.one_pos), inside,
    define_headerOf tree]

/--
A recovering reader that does not use up its room keeps exactly what can be told from the tokens.

* Its definitions are those that start at the places of the tokens, one after another.
* One starts at each place at which a header with an unspaced path does, and at no other.
* A definition that the grammar derives is kept as it is, whatever is before and after it.
-/
theorem parseWith_eq_recoverable (options : Options) (source : String)
    (recovers : options.recover = true)
    (spare : (parseWith options source).errors.length < max 1 options.maxErrors) :
    let tokens := (tokenize source).tokens
    (parseWith options source).schema? = some ⟨recoverable tokens⟩ ∧
      (∀ start, (definitionAt? tokens start).isSome ↔
        ∃ head : HeaderTree, head.path.Unspaced ∧ head.tokens <+: tokens.drop start) ∧
      ∀ (before after : List Token) (tree : DefinitionTree),
        tokens = before ++ tree.tokens ++ after → tree.WithinLimits →
          definitionAt? tokens before.length = some tree.definition ∧
            tree.definition ∈ recoverable tokens := by
  intro tokens
  have ordered : Ordered tokens := ordered_tokenize source
  refine ⟨?_, definitionAt?_isSome_iff tokens, ?_⟩
  · -- Room is what the options allow for errors, of which not all was used.
    have room_eq : options.room = max 1 options.maxErrors := by rw [Options.room, if_pos recovers]
    rw [parseWith_eq, ← room_eq] at spare
    rw [parseWith_eq]
    -- The errors of the report are those of the document, which has room left.
    have kept : (readTokens options source).definitions = readEach definitionFrom? tokens [] :=
      document_spec ordered spare
    rw [recoverable_eq, ← kept]
    simp [recovers]
  · -- The place of the derivation is one of those that are tried.
    intro before after tree split limits
    have found : definitionAt? tokens before.length = some tree.definition := by
      rw [split] at ordered ⊢
      exact definitionAt?_of_tree limits ordered
    have within : before.length < tokens.length := by
      simp only [split, DefinitionTree.tokens, HeaderTree.tokens, List.length_append,
        List.length_cons]
      omega
    exact ⟨found, List.mem_filterMap.mpr ⟨before.length, List.mem_range.mpr within, found⟩⟩

/--
A faulty permission behind a relation costs its definition only that permission.

The stray sign in front is one error and the permission is the other. The definition behind both is
derived by the grammar, and kept with its member.
-/
theorem parseWith_eq_recoverable_faultyMember :
    let source := ")definition a\x7brelation r:b permission p=)\x7ddefinition b\x7brelation m:a\x7d"
    let tokens := (tokenize source).tokens
    (parseWith .bestEffort source).errors.length = 2 ∧
      (parseWith .bestEffort source).schema? = some ⟨recoverable tokens⟩ ∧
      (recoverable tokens).map (fun found =>
          (found.name, found.relations.map (·.name), found.permissions.map (·.name))) =
        [("a", ["r"], []), ("b", ["m"], [])] ∧
      ∃ tree : DefinitionTree, tree.definition.relations.map (·.name) = ["m"] ∧
        definitionAt? tokens 13 = some tree.definition ∧ tree.definition ∈ recoverable tokens := by
  intro source tokens
  obtain ⟨kept, _, whole⟩ :=
    parseWith_eq_recoverable .bestEffort source rfl (by decide +kernel)
  let head : HeaderTree :=
    ⟨⟨⟨.definition, "definition", ⟨42, 1, 43⟩, ⟨52, 1, 53⟩⟩, rfl⟩,
      .single ⟨⟨.identifier, "b", ⟨53, 1, 54⟩, ⟨54, 1, 55⟩⟩, rfl⟩,
      ⟨⟨.leftBrace, "\x7b", ⟨54, 1, 55⟩, ⟨55, 1, 56⟩⟩, rfl⟩⟩
  let type : TypeTree := ⟨.single ⟨⟨.identifier, "a", ⟨66, 1, 67⟩, ⟨67, 1, 68⟩⟩, rfl⟩, .none⟩
  let inner : RelationTree :=
    ⟨⟨⟨.relation, "relation", ⟨55, 1, 56⟩, ⟨63, 1, 64⟩⟩, rfl⟩,
      ⟨⟨.identifier, "m", ⟨64, 1, 65⟩, ⟨65, 1, 66⟩⟩, rfl⟩,
      ⟨⟨.colon, ":", ⟨65, 1, 66⟩, ⟨66, 1, 67⟩⟩, rfl⟩, type, []⟩
  let tree : DefinitionTree :=
    ⟨head, [.relation inner], ⟨⟨.rightBrace, "\x7d", ⟨67, 1, 68⟩, ⟨68, 1, 69⟩⟩, rfl⟩⟩
  -- What stands before the definition is the stray sign and the definition with the faulty member.
  have split : tokens = tokens.take 13 ++ tree.tokens ++ [] := by decide +kernel
  have limits : tree.WithinLimits := by
    refine ⟨trivial, ?_⟩
    simp [tree, inner, type, MemberTree.WithinLimits, RelationTree.types, PathTree.Unspaced]
  have place : (tokens.take 13).length = 13 := by decide +kernel
  have found := whole _ _ tree split limits
  rw [place] at found
  exact ⟨by decide +kernel, kept, by decide +kernel, tree, rfl, found⟩

end AuthSchema.Parse
