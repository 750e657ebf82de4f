import Mathlib.Data.List.Forall2
import AuthSchema.Proofs.Parse.Accept
import AuthSchema.Proofs.Parse.Step
import AuthSchema.Proofs.Schema.Ranges
import AuthSchema.Proofs.Token.Insertion

/-!
Reading looks at the kinds and texts of tokens, and at whether slashes touch their neighbours.

* Lists of tokens are alike when they agree in that, wherever the tokens stand.
* Alike tokens are read as values that differ in ranges only, or fail for the same cause.
* So what is put between two tokens changes nothing but ranges, unless one of them is a slash.
-/

namespace AuthSchema

/-- Two tokens that differ only in where they stand. -/
structure Token.Like (first second : Token) : Prop where
  kind_eq : first.kind = second.kind
  text_eq : first.text = second.text

/-- Lists of tokens that differ only in where the tokens stand, but not at slashes. -/
inductive Alike : List Token → List Token → Prop where
  | nil : Alike [] []
  | cons {first second : Token} {rest others : List Token} (like : first.Like second)
    (touches : ∀ next ∈ rest.head?, ∀ other ∈ others.head?,
      first.kind = .slash ∨ next.kind = .slash → first.isAdjacent next = second.isAdjacent other)
    (later : Alike rest others) : Alike (first :: rest) (second :: others)

namespace Alike

variable {tokens others : List Token}

/-- Tokens that are alike have the same kind ahead. -/
theorem nextKind_eq (alike : Alike tokens others) : nextKind tokens = nextKind others := by
  cases alike with
  | nil => rfl
  | cons like => exact congrArg some like.kind_eq

/-- Tokens that are all shifted by as many bytes touch each other where they did before. -/
theorem of_shifted {base : Place} {inserted : List Char}
    (shifted : List.Forall₂ (Token.Shifted base inserted) tokens others) :
    Alike tokens others := by
  induction shifted with
  | nil => exact .nil
  | @cons first second rest behind here later ih =>
    -- Kind and text are kept by the shift, so that only the touching is left to show.
    refine .cons ⟨here.kind_eq.symm, here.text_eq.symm⟩ ?_ ih
    intro next ahead other otherAhead _
    cases later with
    | nil => simp at ahead
    | cons there =>
      obtain rfl := Option.some.inj ahead
      obtain rfl := Option.some.inj otherAhead
      -- Both offsets grow by the same number of bytes, and stay equal or different.
      rw [Bool.eq_iff_iff, Token.isAdjacent, Token.isAdjacent, beq_iff_eq, beq_iff_eq,
        here.stop.offset_eq, there.start.offset_eq]
      omega

/-- The same tokens in front of alike ones keep them alike, where no slash meets another token. -/
theorem append_left {later shifted : List Token} (alike : Alike later shifted)
    (earlier : List Token) (lastNoSlash : ∀ token ∈ earlier.getLast?, token.kind ≠ .slash)
    (firstNoSlash : ∀ token ∈ later.head?, token.kind ≠ .slash) :
    Alike (earlier ++ later) (earlier ++ shifted) := by
  induction earlier with
  | nil => exact alike
  | cons token earlier ih =>
    cases earlier with
    | nil =>
      -- The token is the last one before the others, and neither side of the cut is a slash.
      refine .cons ⟨rfl, rfl⟩ ?_ alike
      intro next ahead other _ slash
      rcases slash with here | there
      · exact absurd here (lastNoSlash token rfl)
      · exact absurd there (firstNoSlash next ahead)
    | cons second earlier =>
      refine .cons ⟨rfl, rfl⟩ ?_ (ih (by simpa using lastNoSlash))
      -- Both tokens are the same on both sides, so that they touch or not alike.
      intro next ahead other otherAhead _
      rw [Option.some.inj (ahead.symm.trans otherAhead)]

end Alike

/-- Two faults that are reported with the same cause, where alike tokens are ahead. -/
inductive Fault.Like : Fault → Fault → Prop where
  | expected (what : Expectation) : Like (.expected what) (.expected what)
  | spacedPath {first second other another : Token}
    (same : joinPath first second = joinPath other another) :
    Like (.spacedPath first second) (.spacedPath other another)
  | tooDeep (opening other : Token) : Like (.tooDeep opening) (.tooDeep other)

/-- Like faults before alike tokens are reported with the same cause, wherever these stand. -/
theorem Fault.Like.cause_report {fault other : Fault} (like : fault.Like other)
    {ahead behind : List Token} (alike : Alike ahead behind) (stop otherStop : Position) :
    (fault.report ahead stop).cause = (other.report behind otherStop).cause := by
  cases like with
  | expected what =>
    cases alike with
    | nil => rfl
    | @cons first second _ _ like =>
      -- What is reported is told by the kind and the text of the token ahead.
      simp only [Fault.report, like.kind_eq, like.text_eq]
      split <;> rfl
  | spacedPath same => simp only [Fault.report, same]
  | tooDeep => rfl

/-- Two outcomes with values that are the same in some way, or with like faults. -/
inductive Outcome.Like {α : Type} (Same : α → α → Prop) : Outcome α → Outcome α → Prop where
  | done {value other : α} {rest others : List Token} (same : Same value other)
    (alike : Alike rest others) : Like Same (.done value rest) (.done other others)
  | failed {fault other : Fault} {rest others : List Token} (like : fault.Like other)
    (alike : Alike rest others) : Like Same (.failed fault rest) (.failed other others)

namespace Outcome.Like

variable {α β : Type} {Same : α → α → Prop} {Changed : β → β → Prop}

/-- What is like a finished outcome is finished. -/
theorem of_done {value : α} {rest : List Token} {outcome : Outcome α}
    (like : (Outcome.done value rest).Like Same outcome) :
    ∃ other others, outcome = .done other others ∧ Same value other ∧ Alike rest others := by
  cases like with
  | done same alike => exact ⟨_, _, rfl, same, alike⟩

/-- What is like a failed outcome has failed. -/
theorem of_failed {fault : Fault} {rest : List Token} {outcome : Outcome α}
    (like : (Outcome.failed fault rest).Like Same outcome) :
    ∃ other others, outcome = .failed other others ∧ fault.Like other ∧ Alike rest others := by
  cases like with
  | failed fault alike => exact ⟨_, _, rfl, fault, alike⟩

/-- Like outcomes stay like under changes that keep values the same in some way. -/
theorem map {first second : Outcome α} (like : first.Like Same second) {change another : α → β}
    (keeps : ∀ value other, Same value other → Changed (change value) (another other)) :
    (first.map change).Like Changed (second.map another) := by
  cases like with
  | done same alike => exact .done (keeps _ _ same) alike
  | failed fault alike => exact .failed fault alike

end Outcome.Like

namespace Production

variable {α β : Type} {Same : α → α → Prop} {Later : β → β → Prop}

/-- Two productions that have like outcomes on all tokens that are alike. -/
def Like (Same : α → α → Prop) (first second : Production α) : Prop :=
  ∀ tokens others, Alike tokens others → (first.run tokens).Like Same (second.run others)

/-- The same value is done on both sides. -/
theorem like_pure {value other : α} (same : Same value other) :
    Like Same (pure value) (pure other) :=
  fun _ _ alike => .done same alike

/-- The same fault fails on both sides. -/
theorem like_fail {fault other : Fault} (like : fault.Like other) :
    Like Same (fail fault) (fail other) :=
  fun _ _ alike => .failed like alike

/-- Two productions in a row are like two others, where the second ones are for like values. -/
theorem like_bind {first second : Production α} {next after : α → Production β}
    (like : Like Same first second)
    (likeNext : ∀ value other, Same value other → Like Later (next value) (after other)) :
    Like Later (first >>= next) (second >>= after) := by
  intro tokens others alike
  have outcome := like tokens others alike
  rw [run_bind, run_bind]
  -- The first ones both finish, and leave alike tokens to the second ones, or both fail.
  cases ran : first.run tokens with
  | done value rest =>
    obtain ⟨other, left, result, same, alike⟩ := (ran ▸ outcome).of_done
    rw [result]
    exact likeNext value other same rest left alike
  | failed fault rest =>
    obtain ⟨other, left, result, likeFault, alike⟩ := (ran ▸ outcome).of_failed
    rw [result]
    exact .failed likeFault alike

/-- Alike tokens are both taken or both left. -/
theorem like_take? (kind : TokenKind) : Like (Option.Rel Token.Like) (take? kind) (take? kind) := by
  intro tokens others alike
  -- Whether a token is taken is told by the kind ahead, which is the same on both sides.
  by_cases asked : nextKind tokens = some kind
  · cases alike with
    | nil => simp at asked
    | @cons first second rest behind like _ later =>
      have isKind : first.kind = kind := by simpa using asked
      rw [run_take?_of_kind isKind, run_take?_of_kind (like.kind_eq ▸ isKind)]
      exact .done (.some like) later
  · rw [run_take?_of_ne asked, run_take?_of_ne (alike.nextKind_eq ▸ asked)]
    exact .done .none alike

/-- Taking a token of a kind finishes on both sides or fails on both. -/
theorem like_take (kind : TokenKind) (expected : Expectation) :
    Like Token.Like (take kind expected) (take kind expected) := by
  refine like_bind (like_take? kind) ?_
  intro found other same
  -- A token that was not found fails on both sides, with the same expectation.
  cases same with
  | none => exact like_fail (.expected expected)
  | some like => exact like_pure like

/-- Repetitions of like items after the same leads are alike, item by item. -/
theorem like_many {lead : TokenKind → Option β} {item another : Production α}
    (like : Like Same item another) :
    Like (List.Forall₂ fun first second => first.1 = second.1 ∧ Same first.2 second.2)
      (many lead item) (many lead another) := by
  intro tokens
  show ∀ others, Alike tokens others → (readMany lead item tokens).Like _ _
  -- The induction follows the repetition on one side, and the other side follows suit.
  fun_induction readMany lead item tokens with
  | case1 =>
    intro others alike
    cases alike with
    | nil =>
      rw [run_many, readMany]
      exact .done .nil .nil
  | case2 token ahead unled =>
    intro others alike
    rw [run_many, readMany_of_no_lead]
    · exact .done .nil alike
    -- Both sides have the same kind ahead, and it leads to no item.
    · intro kind next
      rw [← alike.nextKind_eq] at next
      exact Option.some.inj next ▸ unled
  | case3 token ahead tag led value rest ran ih =>
    intro others alike
    cases alike with
    | @cons _ second _ behind likeLead _ later =>
      have led : lead second.kind = some tag := likeLead.kind_eq ▸ led
      -- The item finishes on both sides, and the repetitions go on with alike tokens.
      obtain ⟨found, left, result, same, alike⟩ := (ran ▸ like ahead behind later).of_done
      rw [run_many, readMany_of_lead led result]
      refine (ih left alike).map ?_
      intro items more same'
      exact .cons ⟨rfl, same⟩ same'
  | case4 token ahead tag led fault rest ran =>
    intro others alike
    cases alike with
    | @cons _ second _ behind likeLead _ later =>
      have led : lead second.kind = some tag := likeLead.kind_eq ▸ led
      -- The item fails on both sides, and so do the repetitions.
      obtain ⟨other, left, result, likeFault, alike⟩ := (ran ▸ like ahead behind later).of_failed
      rw [run_many, readMany_of_failed led result]
      exact .failed likeFault alike

end Production

/-- Two values that are the same once it is forgotten where they are written. -/
def SameShape {α : Type} (mapRanges : (Range → Range) → α → α) (first second : α) : Prop :=
  mapRanges (fun _ => default) first = mapRanges (fun _ => default) second

namespace Parse

open Production

/-- A path looks at up to three tokens, and at whether the slash between two names touches them. -/
theorem like_path (expected : Expectation) :
    Like (fun named other => named.1 = other.1) (path expected) (path expected) := by
  intro tokens others alike
  -- Each token that is asked for is there on both sides or on neither.
  by_cases named : nextKind tokens = some .identifier
  case neg =>
    rw [run_path_of_ne named, run_path_of_ne (alike.nextKind_eq ▸ named)]
    exact .failed (.expected expected) alike
  cases alike with
  | nil => simp at named
  | @cons first other rest behind like touches later =>
    have isName : first.kind = .identifier := by simpa using named
    have otherIsName : other.kind = .identifier := like.kind_eq ▸ isName
    by_cases slashed : nextKind rest = some .slash
    case neg =>
      rw [run_path_single isName slashed, run_path_single otherIsName (later.nextKind_eq ▸ slashed)]
      exact .done like.text_eq later
    cases later with
    | nil => simp at slashed
    | @cons slash otherSlash rest behind likeSlash touchesNext later =>
      have isSlash : slash.kind = .slash := by simpa using slashed
      have otherIsSlash : otherSlash.kind = .slash := likeSlash.kind_eq ▸ isSlash
      by_cases paired : nextKind rest = some .identifier
      case neg =>
        rw [run_path_open isName isSlash paired,
          run_path_open otherIsName otherIsSlash (later.nextKind_eq ▸ paired)]
        exact .failed (.expected _) later
      cases later with
      | nil => simp at paired
      | @cons second otherSecond rest behind likeSecond _ later =>
        have isSecond : second.kind = .identifier := by simpa using paired
        have otherIsSecond : otherSecond.kind = .identifier := likeSecond.kind_eq ▸ isSecond
        -- Both names touch the slash on one side exactly when they do on the other.
        have before := touches slash rfl otherSlash rfl (.inr isSlash)
        have after := touchesNext second rfl otherSecond rfl (.inl isSlash)
        have joined : joinPath first second = joinPath other otherSecond := by
          rw [joinPath, joinPath, like.text_eq, likeSecond.text_eq]
        rw [run_path_pair isName isSlash isSecond,
          run_path_pair otherIsName otherIsSlash otherIsSecond, before, after]
        split
        · exact .done joined later
        · exact .failed (.spacedPath joined) later

/-- A type is told by its path and its suffix. -/
theorem like_typeRef : Like (SameShape SubjectType.mapRanges) typeRef typeRef := by
  refine like_bind (like_path .typeName) ?_
  rintro ⟨name, range⟩ ⟨otherName, otherRange⟩ rfl
  refine like_bind (like_take? .hash) ?_
  intro hash? otherHash? same
  cases same with
  | some =>
    refine like_bind (like_take _ _) ?_
    intro relation other like
    exact like_pure (by simp [SameShape, SubjectType.mapRanges, like.text_eq])
  | none =>
    refine like_bind (like_take? .colon) ?_
    intro colon? otherColon? same
    cases same with
    | some =>
      refine like_bind (like_take _ _) ?_
      intro star other like
      exact like_pure rfl
    | none => exact like_pure rfl

/-- What further items are the same without their leads. -/
theorem map_eq_of_items {α β γ : Type} {shape : α → γ} {more others : List (β × α)}
    (same : List.Forall₂ (fun first second => first.1 = second.1 ∧ shape first.2 = shape second.2)
      more others) : (more.map Prod.snd).map shape = (others.map Prod.snd).map shape := by
  -- The leads are paired off with the items and then forgotten.
  induction same with
  | nil => rfl
  | cons here _ ih => rw [List.map_cons, List.map_cons, List.map_cons, List.map_cons, here.2, ih]

/-- A relation is told by its name and its types. -/
theorem like_relation (keyword other : Token) :
    Like (SameShape Relation.mapRanges) (relation keyword) (relation other) := by
  refine like_bind (like_take _ _) fun name otherName likeName => ?_
  refine like_bind (like_take _ _) fun _ _ _ => ?_
  refine like_bind like_typeRef fun first otherFirst sameFirst => ?_
  refine like_bind (like_many like_typeRef) fun more others same => ?_
  have types := map_eq_of_items same
  -- Where a relation ends is told by its last type, and is forgotten.
  refine like_pure ?_
  simp only [SameShape, Relation.mapRanges, List.map_cons, likeName.text_eq, types]
  rw [show SubjectType.mapRanges _ first = SubjectType.mapRanges _ otherFirst from sameFirst]

/-- Two operands whose expressions are the same once ranges are forgotten. -/
def Operand.SameShape (first second : Operand) : Prop :=
  AuthSchema.SameShape Expr.mapRanges first.expr second.expr

/-- Operators combine operands into the same expression, wherever these are written. -/
theorem Operand.SameShape.foldl_combine {more others : List (Operator × Operand)}
    (same : List.Forall₂ (fun first second => first.1 = second.1 ∧ first.2.SameShape second.2)
      more others) {left other : Operand} (sameLeft : left.SameShape other) :
    (more.foldl Operand.combine left).SameShape (others.foldl Operand.combine other) := by
  -- The left operand is general, since each item joins all those before it.
  induction same generalizing left other with
  | nil => exact sameLeft
  | @cons first second _ _ here _ ih =>
    refine ih ?_
    show Expr.binary .. = Expr.binary ..
    rw [here.1]
    exact congrArg₂ (Expr.binary second.1 · · default) sameLeft here.2

/-- Chains of operands of the same shape have the same shape. -/
theorem like_chain {operator : TokenKind → Option Operator} {operand other : Production Operand}
    (like : Like Operand.SameShape operand other) :
    Like Operand.SameShape (chain operator operand) (chain operator other) := by
  refine like_bind like fun first second sameFirst => ?_
  refine like_bind (like_many like) fun more others same => ?_
  exact like_pure (.foldl_combine same sameFirst)

/-- A name is told by its text. -/
theorem like_nameRef (expected : Expectation) :
    Like (SameShape NameRef.mapRanges) (nameRef expected) (nameRef expected) := by
  refine like_bind (like_take _ _) fun token other like => ?_
  exact like_pure (by simp [SameShape, NameRef.mapRanges, like.text_eq])

/-- A name or an arrow is told by its names. -/
theorem like_nameOrArrow : Like Operand.SameShape nameOrArrow nameOrArrow := by
  refine like_bind (like_nameRef _) fun left other same => ?_
  refine like_bind (like_take? _) fun sign? otherSign? sameSign => ?_
  cases sameSign with
  | none => exact like_pure (congrArg Expr.reference same)
  | some =>
    refine like_bind (like_nameRef _) fun right another sameRight => ?_
    exact like_pure (congrArg₂ (fun left right => Expr.arrow ⟨left, right, default⟩) same sameRight)

/-- A factor is told by its tokens, and by what is read in its parentheses. -/
theorem like_factor {nested : Option (Production Operand)}
    (like : ∀ inner, nested = some inner → Like Operand.SameShape inner inner) :
    Like Operand.SameShape (factor nested) (factor nested) := by
  refine like_bind (like_take? _) fun keyword? other? same => ?_
  cases same with
  | some => exact like_pure rfl
  | none =>
    refine like_bind (like_take? _) fun opening? other? same => ?_
    cases same with
    | none => exact like_nameOrArrow
    | @some opening other =>
      -- Where no more nesting is allowed both sides fail at their parentheses.
      cases nested with
      | none => exact like_fail (.tooDeep opening other)
      | some inner =>
        refine like_bind (like inner rfl) fun operand another same => ?_
        refine like_bind (like_take _ _) fun _ _ _ => ?_
        exact like_pure same

/-- An expression is told by its tokens, at every depth. -/
theorem like_expression (depth : Nat) :
    Like Operand.SameShape (expression depth) (expression depth) := by
  -- What stands in parentheses is an expression of one level less.
  induction depth with
  | zero =>
    refine like_chain (like_chain (like_factor ?_))
    intro inner impossible
    cases impossible
  | succ depth ih =>
    refine like_chain (like_chain (like_factor ?_))
    intro inner same
    cases same
    exact ih

/-- A permission is told by its name and its expression. -/
theorem like_permission (keyword other : Token) :
    Like (SameShape Permission.mapRanges) (permission keyword) (permission other) := by
  refine like_bind (like_take _ _) fun name otherName likeName => ?_
  refine like_bind (like_take _ _) fun _ _ _ => ?_
  refine like_bind (like_expression _) fun operand another same => ?_
  have same : operand.expr.mapRanges _ = another.expr.mapRanges _ := same
  exact like_pure (by simp only [SameShape, Permission.mapRanges, likeName.text_eq, same])

/-- A header is told by its path. -/
theorem like_header (keyword other : Token) :
    Like (fun first second => first.name = second.name) (header keyword) (header other) := by
  refine like_bind (like_path _) fun named another same => ?_
  refine like_bind (like_take _ _) fun _ _ _ => ?_
  exact like_pure same

section Document

variable {first second : Token} {ahead behind : List Token}

/-- The keyword ahead decides what a member is, and no keyword is an error. -/
theorem like_member (like : first.Like second)
    (touches : ∀ next ∈ ahead.head?, ∀ other ∈ behind.head?,
      first.kind = .slash ∨ next.kind = .slash → first.isAdjacent next = second.isAdjacent other)
    (alike : Alike ahead behind) :
    (member first ahead).Like (SameShape Member.mapRanges) (member second behind) := by
  unfold member
  -- Both first tokens have the same kind, which decides the production.
  rw [← like.kind_eq]
  split
  · refine (like_relation first second ahead behind alike).map ?_
    intro declared other same
    exact congrArg Member.relation same
  · refine (like_permission first second ahead behind alike).map ?_
    intro declared other same
    exact congrArg Member.permission same
  · exact .failed (.expected _) (.cons like touches alike)

/-- The keyword ahead decides whether there is a header, and no keyword is an error. -/
theorem like_headerAt (like : first.Like second)
    (touches : ∀ next ∈ ahead.head?, ∀ other ∈ behind.head?,
      first.kind = .slash ∨ next.kind = .slash → first.isAdjacent next = second.isAdjacent other)
    (alike : Alike ahead behind) :
    (headerAt first ahead).Like (fun found other => found.name = other.name)
      (headerAt second behind) := by
  -- Both first tokens have the same kind, which decides whether a header follows.
  unfold headerAt
  rw [← like.kind_eq]
  split
  · exact like_header first second ahead behind alike
  · exact .failed (.expected _) (.cons like touches alike)

/-- Skipping a member stops at the same token, whatever the positions. -/
theorem alike_skipMember (alike : Alike ahead behind) (stop otherStop : Position) :
    Alike (skipMember stop ahead).2 (skipMember otherStop behind).2 := by
  -- The positions are general, since each skipped token changes them.
  induction alike generalizing stop otherStop with
  | nil => exact .nil
  | @cons first second rest others like touches later ih =>
    rw [skipMember, skipMember, ← like.kind_eq]
    split
    · exact .cons like touches later
    · exact ih _ _

/-- Skipping to a definition stops at the same token. -/
theorem alike_skipToDefinition (alike : Alike ahead behind) :
    Alike (skipToDefinition ahead) (skipToDefinition behind) := by
  unfold skipToDefinition
  induction alike with
  | nil => exact .nil
  | @cons first second rest others like touches later ih =>
    rw [List.dropWhile_cons, List.dropWhile_cons, ← like.kind_eq]
    split
    · exact ih
    · exact .cons like touches later

/-- Two bodies with the same members apart from ranges, the same causes, and alike tokens left. -/
structure Body.Like (body other : Body) : Prop where
  members : body.members.map (Member.mapRanges fun _ => default) =
    other.members.map (Member.mapRanges fun _ => default)
  causes : body.errors.map SyntaxError.cause = other.errors.map SyntaxError.cause
  rest : Alike body.rest other.rest

namespace Body.Like

variable {body other : Body}

/-- A member of the same shape in front keeps bodies like each other. -/
theorem withMember (like : body.Like other) {member another : Member}
    (same : SameShape Member.mapRanges member another) :
    (body.withMember member).Like (other.withMember another) where
  members := congrArg₂ List.cons same like.members
  causes := like.causes
  rest := like.rest

/-- An error of the same cause in front keeps bodies like each other. -/
theorem withError (like : body.Like other) {error another : SyntaxError}
    (same : error.cause = another.cause) : (body.withError error).Like (other.withError another) where
  members := like.members
  causes := congrArg₂ List.cons same like.causes
  rest := like.rest

/-- Bodies that are closed before alike tokens are like each other. -/
theorem close (alike : Alike ahead behind) (stop otherStop : Position) :
    (Body.close stop ahead).Like (Body.close otherStop behind) :=
  ⟨rfl, rfl, alike⟩

end Body.Like

/-- Bodies over alike tokens take the same steps. -/
theorem like_body {tokens others : List Token} (alike : Alike tokens others) (room : Nat)
    (textStop otherTextStop stop otherStop : Position) :
    (body textStop room stop tokens).Like (body otherTextStop room otherStop others) := by
  -- The induction follows one body, and the other one reads what is like each of its steps.
  fun_induction body textStop room stop tokens generalizing others otherStop with
  | case1 stop tokens =>
    rw [body]
    exact .close alike _ _
  -- The end of the text is the same error on both sides.
  | case2 stop room =>
    cases alike with
    | nil =>
      rw [body_nil (Nat.succ_pos room)]
      exact (Body.Like.close .nil _ _).withError rfl
  | case3 stop room token ahead closes =>
    cases alike with
    | cons like touches later =>
      rw [body_of_close (Nat.succ_pos room) (like.kind_eq ▸ closes)]
      exact .close later _ _
  | case4 stop room token ahead _ opens =>
    cases alike with
    | cons like touches later =>
      have whole := Alike.cons like touches later
      rw [body_of_definition (Nat.succ_pos room) (like.kind_eq ▸ opens)]
      exact (Body.Like.close whole _ _).withError ((Fault.Like.expected _).cause_report whole _ _)
  | case5 stop room token ahead _ _ value rest read ih =>
    cases alike with
    | cons like touches later =>
      -- The member is read on both sides, and both bodies go on behind it.
      obtain ⟨other, left, otherRead, same, alike⟩ :=
        (read ▸ like_member like touches later).of_done
      rw [body_of_member (Nat.succ_pos room) otherRead]
      exact (ih alike _).withMember same
  | case6 stop room token ahead open_ inside fault rest failed next =>
    rename_i ih
    cases alike with
    | cons like touches later =>
      -- The member fails on both sides, and both bodies go on where the skipping stops.
      obtain ⟨other, left, otherFailed, likeFault, alike⟩ :=
        (failed ▸ like_member like touches later).of_failed
      rw [body_of_fault (like.kind_eq ▸ open_) (like.kind_eq ▸ inside) otherFailed]
      exact (ih (alike_skipMember later _ _) _).withError (likeFault.cause_report alike _ _)

/-- The relations and permissions of a definition are told by its members without ranges. -/
theorem withoutRanges_define (found : Header) (inner : Body) :
    (found.define inner).withoutRanges =
      ⟨found.name, default, default,
        (inner.members.map (Member.mapRanges fun _ => default)).filterMap Member.relation?,
        (inner.members.map (Member.mapRanges fun _ => default)).filterMap Member.permission?⟩ := by
  -- Forgetting ranges goes through the sorting of members by their kind.
  simp only [Definition.withoutRanges, Definition.mapRanges, Header.define, List.filterMap_map,
    Function.comp_def, Member.relation?_mapRanges, Member.permission?_mapRanges,
    List.map_filterMap]

/-- Documents over alike tokens have the same definitions apart from ranges, and the same causes. -/
theorem like_document {tokens others : List Token} (alike : Alike tokens others) (room : Nat)
    (textStop otherTextStop : Position) :
    (document textStop room tokens).definitions.map Definition.withoutRanges =
        (document otherTextStop room others).definitions.map Definition.withoutRanges ∧
      (document textStop room tokens).errors.map SyntaxError.cause =
        (document otherTextStop room others).errors.map SyntaxError.cause := by
  -- The induction follows one document, and the other one reads what is like each of its steps.
  fun_induction document textStop room tokens generalizing others with
  | case1 tokens =>
    rw [document]
    exact ⟨rfl, rfl⟩
  | case2 room =>
    cases alike with
    | nil =>
      rw [document_nil]
      exact ⟨rfl, rfl⟩
  | case3 room token ahead found rest read inner later =>
    rename_i ih
    cases alike with
    | cons like touches behind =>
      obtain ⟨other, left, otherRead, same, alike⟩ :=
        (read ▸ like_headerAt like touches behind).of_done
      obtain ⟨another, inside⟩ :
          ∃ another, body otherTextStop (room + 1) other.range.stop left = another := ⟨_, rfl⟩
      have likeBody : inner.Like another := inside ▸ like_body alike _ _ _ _ _
      -- Equally many errors leave both documents the same room.
      have used : inner.errors.length = another.errors.length := by
        simpa using congrArg List.length likeBody.causes
      obtain ⟨definitions, causes⟩ := ih likeBody.rest
      rw [document_of_header (Nat.succ_pos room) otherRead inside, ← used]
      refine ⟨?_, ?_⟩
      · rw [List.map_cons, List.map_cons, withoutRanges_define, withoutRanges_define, same,
          likeBody.members]
        exact congrArg _ definitions
      · rw [List.map_append, List.map_append, likeBody.causes]
        exact congrArg _ causes
  | case4 room token ahead fault rest failed later =>
    rename_i ih
    cases alike with
    | cons like touches behind =>
      -- The header fails on both sides, and both documents go on at the next definition.
      obtain ⟨other, left, otherFailed, likeFault, alike⟩ :=
        (failed ▸ like_headerAt like touches behind).of_failed
      rw [document_of_fault otherFailed]
      obtain ⟨definitions, causes⟩ := ih (alike_skipToDefinition behind)
      exact ⟨definitions, congrArg₂ List.cons (likeFault.cause_report alike _ _) causes⟩

/-- Texts with alike tokens are read as the same schema apart from ranges, or fail alike. -/
theorem like_parseWith (options : Options) {source other : String}
    (alike : Alike (tokenize source).tokens (tokenize other).tokens) :
    (parseWith options source).schema?.map Schema.withoutRanges =
        (parseWith options other).schema?.map Schema.withoutRanges ∧
      (parseWith options source).errors.map SyntaxError.cause =
        (parseWith options other).errors.map SyntaxError.cause := by
  obtain ⟨definitions, causes⟩ :=
    like_document alike options.room (tokenize source).stop (tokenize other).stop
  -- Errors with the same causes are equally many, so that none on one side is none on the other.
  have faultless : (readTokens options source).errors.isEmpty =
      (readTokens options other).errors.isEmpty := by
    rw [← List.isEmpty_map (f := SyntaxError.cause), ← List.isEmpty_map (f := SyntaxError.cause)]
    exact congrArg List.isEmpty causes
  rw [parseWith_eq, parseWith_eq, faultless]
  refine ⟨?_, causes⟩
  -- A strict reader gives up the schema on both sides, or on neither.
  dsimp only
  split
  · exact congrArg (fun definitions => some (Schema.mk definitions)) definitions
  · rfl

end Document

end Parse

/--
Blanks and comments that are put before a token only shift the tokens behind them.

* The tokens are the same, and those that stop before are where they were.
* Those behind keep kinds and texts. Their bytes are shifted by the length of what is put in, their
  lines by its line feeds, and columns only on the line where it is put in.
* Unless a slash is on either side, all readers give the same schema apart from ranges, and the same
  errors apart from where they stand.
-/
theorem parseWith_insert_spacing (front back inserted : String)
    (starts : ∃ token ∈ (tokenize (front ++ back)).tokens,
      token.start.offset = front.utf8ByteSize)
    (blank : ∃ char ∈ inserted.toList.head?, isBlank char) (spacing : Spacing inserted.toList) :
    ((tokenize (front ++ inserted ++ back)).tokens.map fun token => (token.kind, token.text)) =
        ((tokenize (front ++ back)).tokens.map fun token => (token.kind, token.text)) ∧
    ∃ earlier later shifted, (tokenize (front ++ back)).tokens = earlier ++ later ∧
      (tokenize (front ++ inserted ++ back)).tokens = earlier ++ shifted ∧
      (∀ token ∈ earlier, token.stop.offset ≤ front.utf8ByteSize) ∧
      (∃ token ∈ later.head?, token.start.offset = front.utf8ByteSize) ∧
      List.Forall₂ (Token.Shifted (Place.origin.after front.toList) inserted.toList) later
        shifted ∧
      ((∀ token ∈ earlier.getLast?, token.kind ≠ .slash) →
        (∀ token ∈ later.head?, token.kind ≠ .slash) → ∀ options,
          (parseWith options (front ++ inserted ++ back)).schema?.map Schema.withoutRanges =
            (parseWith options (front ++ back)).schema?.map Schema.withoutRanges ∧
          (parseWith options (front ++ inserted ++ back)).errors.map SyntaxError.cause =
            (parseWith options (front ++ back)).errors.map SyntaxError.cause) := by
  obtain ⟨earlier, later, shifted, whole, spaced, stops, first, moved⟩ :=
    exists_tokenize_insert starts blank spacing
  -- Shifting keeps the kind and the text of each token.
  have unchanged : shifted.map (fun token => (token.kind, token.text)) =
      later.map fun token => (token.kind, token.text) := by
    rw [← List.forall₂_eq_eq_eq, List.forall₂_map_left_iff, List.forall₂_map_right_iff]
    refine moved.flip.imp ?_
    intro new old same
    exact Prod.ext same.kind_eq same.text_eq
  refine ⟨by rw [whole, spaced, List.map_append, List.map_append, unchanged], earlier, later,
    shifted, whole, spaced, stops, first, moved, ?_⟩
  intro lastNoSlash firstNoSlash options
  -- All readers take the same steps on both lists of tokens.
  have alike := (Alike.of_shifted moved).append_left earlier lastNoSlash firstNoSlash
  rw [← whole, ← spaced] at alike
  obtain ⟨schemas, causes⟩ := Parse.like_parseWith options alike
  exact ⟨schemas.symm, causes.symm⟩

/-- A text up to the type of its relation. -/
def beforePath : String :=
  "definition a \x7b relation r: "

/-- A path as the type of a relation, and the end of the body. -/
def fromPath : String :=
  "a/b \x7d"

/-- A line comment before a path is put where no slash is, and changes nothing but ranges. -/
theorem parseWith_insert_spacing_before_path :
    (parseWith .strict (beforePath ++ " // é\n" ++ fromPath)).errors = [] ∧
      (parseWith .strict (beforePath ++ " // é\n" ++ fromPath)).schema?.map Schema.withoutRanges =
        (parseWith .strict (beforePath ++ fromPath)).schema?.map Schema.withoutRanges := by
  have spacing : Spacing " // é\n".toList := by
    show Spacing (' ' :: '/' :: '/' :: ([' ', 'é'] ++ '\n' :: []))
    exact .blank (by decide) (.line (by decide) .nil)
  -- The only slash is behind the first name of the path.
  have slash : ∀ token ∈ (tokenize (beforePath ++ fromPath)).tokens, token.kind = .slash →
      beforePath.utf8ByteSize < token.start.offset ∧
        beforePath.utf8ByteSize < token.stop.offset := by
    decide +kernel
  obtain ⟨_, earlier, later, shifted, whole, _, stops, ⟨first, head, starts⟩, _, agree⟩ :=
    parseWith_insert_spacing beforePath fromPath " // é\n" (by decide +kernel)
      ⟨' ', by decide, by decide⟩ spacing
  refine ⟨by decide +kernel, (agree ?_ ?_ .strict).1⟩
  · -- No slash stops before the place where the comment is put.
    intro token last isSlash
    have listed := List.mem_of_getLast? last
    have beyond := (slash token (by simp [whole, listed]) isSlash).2
    have stopped := stops token listed
    omega
  · -- The token behind that place is a name, and the slash starts later.
    intro token ahead isSlash
    obtain rfl : first = token := Option.some.inj (head.symm.trans ahead)
    have beyond := (slash first (by simp [whole, List.mem_of_head? ahead]) isSlash).1
    omega

end AuthSchema
