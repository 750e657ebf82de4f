import AuthSchema.Proofs.Parse.Reread
import AuthSchema.Reference.Basic

/-!
How high the expressions of permissions can be, and so how deep a walk through them can go.

* A walk into both sides of every operator goes exactly as deep as the expression is high.
* Parentheses around parentheses are limited, but operators side by side are not.
* At each level of parentheses, a run of `+` and `-` and a run of `&` make the expression higher.
-/

namespace AuthSchema

open Grammar

/-- Whether an operator binds its sides more tightly than the others. -/
def Operator.isTight : Operator → Bool
  | .intersection => true
  | .union | .exclusion => false

namespace Expr

/-- The number of expressions inside one another, from the whole to the innermost. -/
def height : Expr → Nat
  | .reference _ | .arrow _ | .nil _ => 1
  | .binary _ left right _ => max left.height right.height + 1

/-- The references of an expression, listed with a limited number of calls inside one another. -/
def referencesWithin : Nat → Expr → Option (List Reference)
  | 0, _ => none
  | depth + 1, .binary _ left right _ => do
    -- Both sides are listed from inside the call for the whole.
    let onLeft ← left.referencesWithin depth
    let onRight ← right.referencesWithin depth
    return onLeft ++ onRight
  | _ + 1, leaf => some leaf.references

/-- The number of operators of one rank that are joined from the left at the top. -/
def run (tight : Bool) : Expr → Nat
  | .reference _ | .arrow _ | .nil _ => 0
  | .binary operator left _ _ => if operator.isTight = tight then left.run tight + 1 else 0

/-- The largest number of operators of one rank that are joined from the left anywhere inside. -/
def longestRun : Expr → Nat
  | .reference _ | .arrow _ | .nil _ => 0
  | .binary operator left right _ =>
    max (left.run operator.isTight + 1) (max left.longestRun right.longestRun)

/-- An expression takes as many calls inside one another as it is high. -/
theorem referencesWithin_eq (depth : Nat) (expr : Expr) :
    expr.referencesWithin depth = if expr.height ≤ depth then some expr.references else none := by
  -- The depth is general, since each side has one call less.
  induction expr generalizing depth with
  | reference written => cases depth <;> simp [referencesWithin, height]
  | arrow written => cases depth <;> simp [referencesWithin, height]
  | nil range => cases depth <;> simp [referencesWithin, height]
  | binary operator left right range ihLeft ihRight =>
    cases depth with
    | zero => simp [referencesWithin, height]
    | succ depth =>
      -- The sides have one call less, and the higher one decides whether that is enough.
      simp only [referencesWithin, ihLeft, ihRight, height, references, Nat.add_le_add_iff_right,
        Nat.max_le]
      by_cases left_le : left.height ≤ depth
      · by_cases right_le : right.height ≤ depth
        · simp [left_le, right_le]
        · simp [left_le, right_le]
      · simp [left_le]

/-- Every expression is at least one high. -/
theorem one_le_height (expr : Expr) : 1 ≤ expr.height := by
  cases expr <;> simp [height]

/-- The run at the top is one of the runs inside. -/
theorem run_le_longestRun (tight : Bool) (expr : Expr) : expr.run tight ≤ expr.longestRun := by
  -- Only an operator at the top has a run, and its own rank decides which.
  cases expr with
  | binary operator left right range =>
    simp only [run, longestRun]
    split
    · rename_i same
      rw [same]
      exact Nat.le_max_left _ _
    · exact Nat.zero_le _
  | _ => exact Nat.zero_le _

end Expr

namespace Grammar

/-- How high what is derived can be, below a number of parentheses and with runs of one length. -/
def Rank.ceiling (levels chain : Nat) (expr : Expr) : Rank → Nat
  | .factor => 2 * (levels * chain) + 1
  | .term => 2 * (levels * chain) + expr.run true + 1
  | .expression => 2 * (levels * chain) + chain + expr.run false + 1

/-- A term on the right of `+` or `-` is no higher than what may stand on the left. -/
theorem Rank.height_binary_le_ceiling {levels chain : Nat} {operator : Operator}
    (loose : operator.isTight = false) {left right : Expr} (range : Range)
    (onLeft : left.height ≤ Rank.ceiling levels chain left .expression)
    (onRight : right.height ≤ Rank.ceiling levels chain right .term)
    (rightRuns : right.longestRun ≤ chain) :
    (Expr.binary operator left right range).height ≤
      Rank.ceiling levels chain (.binary operator left right range) .expression := by
  -- Along the right side there is one run of `&` at most, which fits below the left side.
  have run_le := Nat.le_trans (right.run_le_longestRun true) rightRuns
  simp only [ceiling, Expr.height, Expr.run, loose, if_true] at onLeft onRight ⊢
  omega

/-- Each level of parentheses adds one run of each rank at most. -/
theorem ExprTree.height_le_ceiling {rank : Rank} (tree : ExprTree rank) {levels chain : Nat}
    (shallow : tree.nesting ≤ levels) (runs : tree.expr.longestRun ≤ chain) :
    tree.expr.height ≤ rank.ceiling levels chain tree.expr := by
  -- Along a run only its left side grows, and any right side is of the next lower rank.
  induction tree generalizing levels with
  | term only ih =>
    -- A term alone has no run of the outer rank yet.
    have below := ih shallow runs
    have run_le := Nat.le_trans (only.expr.run_le_longestRun true) runs
    simp only [Rank.ceiling, expr] at below ⊢
    omega
  | factor only ih =>
    have below := ih shallow runs
    simp only [Rank.ceiling, expr] at below ⊢
    omega
  | union left sign right ihLeft ihRight =>
    -- The run is one longer than on the left, and so is the height.
    simp only [expr, Expr.longestRun, Nat.max_le] at runs
    obtain ⟨leftShallow, rightShallow⟩ := Nat.max_le.mp shallow
    exact Rank.height_binary_le_ceiling rfl _ (ihLeft leftShallow runs.2.1)
      (ihRight rightShallow runs.2.2) runs.2.2
  | exclusion left sign right ihLeft ihRight =>
    simp only [expr, Expr.longestRun, Nat.max_le] at runs
    obtain ⟨leftShallow, rightShallow⟩ := Nat.max_le.mp shallow
    exact Rank.height_binary_le_ceiling rfl _ (ihLeft leftShallow runs.2.1)
      (ihRight rightShallow runs.2.2) runs.2.2
  | intersection left sign right ihLeft ihRight =>
    simp only [expr, Expr.longestRun, Nat.max_le] at runs
    obtain ⟨leftShallow, rightShallow⟩ := Nat.max_le.mp shallow
    -- Both sides are below the ceiling, of which the left one grows along the run.
    have onLeft := ihLeft leftShallow runs.2.1
    have onRight := ihRight rightShallow runs.2.2
    simp only [Rank.ceiling, expr, Expr.height, Expr.run, Operator.isTight, if_true]
      at onLeft onRight ⊢
    omega
  | name only => simp [Rank.ceiling, expr, Expr.height]
  | arrow left sign right => simp [Rank.ceiling, expr, Expr.height]
  | nil keyword => simp [Rank.ceiling, expr, Expr.height]
  | parens opening inner closing ih =>
    -- What is inside has one level less, and its outermost run takes the place of that level.
    obtain ⟨levels, rfl⟩ : ∃ inside, levels = inside + 1 :=
      Nat.exists_eq_add_one.mpr (Nat.lt_of_lt_of_le (Nat.succ_pos _) shallow)
    have below := ih (Nat.le_of_succ_le_succ shallow) runs
    have run_le := Nat.le_trans (inner.expr.run_le_longestRun false) runs
    simp only [Rank.ceiling, expr, Nat.add_one_mul] at below ⊢
    omega

end Grammar

section Read

variable {options : Parse.Options} {source : String} {schema : Schema}

/-- In a schema that is read, the expression of a permission keeps to the limit of parentheses. -/
theorem exists_exprTree_of_read (read : (parseWith options source).schema? = some schema)
    {definition : Definition} (declared : definition ∈ schema.definitions)
    {permission : Permission} (listed : permission ∈ definition.permissions) :
    ∃ tree : ExprTree .expression, tree.expr = permission.expression ∧
      tree.nesting ≤ Parse.maxNesting := by
  -- The expression was kept as part of a derivation inside the limits.
  obtain ⟨outlines, definitions, _⟩ := exists_outlines read
  rw [definitions] at declared
  obtain ⟨outline, _, rfl⟩ := List.mem_map.mp declared
  obtain ⟨tree, kept, rfl⟩ := MemberTree.exists_permission listed
  exact ⟨tree.expression, rfl, outline.limits.2 _ kept⟩

/-- In a schema that is read, runs of one length make an expression so high at most. -/
theorem height_le_of_read (read : (parseWith options source).schema? = some schema)
    {definition : Definition} (declared : definition ∈ schema.definitions)
    {permission : Permission} (listed : permission ∈ definition.permissions) {chain : Nat}
    (runs : permission.expression.longestRun ≤ chain) :
    permission.expression.height ≤ 2 * (Parse.maxNesting + 1) * chain + 1 := by
  obtain ⟨tree, expr_eq, shallow⟩ := exists_exprTree_of_read read declared listed
  rw [← expr_eq] at runs ⊢
  -- The outermost runs take up one more level than there are parentheses.
  have below := tree.height_le_ceiling shallow runs
  have run_le := Nat.le_trans (tree.expr.run_le_longestRun false) runs
  simp only [Rank.ceiling, Parse.maxNesting] at below ⊢
  omega

end Read

/-- A derivation from a piece of text, inside limits and of a given height. -/
structure Grammar.ExprTree.Raised (place : Place) (text : List Char) (levels chain height : Nat)
    {rank : Rank} (tree : ExprTree rank) : Prop where
  carries : Carries place text tree.tokens
  nesting_le : tree.nesting ≤ levels
  runs_le : tree.expr.longestRun ≤ chain
  height_eq : tree.expr.height = height

namespace Tower

/-- A token of one character. -/
def leaf (kind : TokenKind) (char : Char) (place : Place) : TokenOf kind :=
  ⟨⟨kind, String.ofList [char], place, place.after [char]⟩, rfl⟩

/-- A token of one character is carried by that character alone. -/
theorem carries_leaf {kind : TokenKind} {char : Char}
    (read : Lexeme.ofHead char ([] ++ []) = ⟨some kind, 0⟩) (known : kind ≠ .unknown)
    (place : Place) : Carries place [char] [(leaf kind char place).token] :=
  .single read known

/-- The name that all operators join. -/
def name (place : Place) : TokenOf .identifier :=
  leaf .identifier 'a' place

/-- The name is carried by its letter. -/
theorem carries_name (place : Place) : Carries place ['a'] [(name place).token] :=
  carries_leaf rfl (by decide) place

/-- A text with operators behind it, each of which joins one more name. -/
def joined (sign : Char) (text : List Char) : Nat → List Char
  | 0 => text
  | count + 1 => joined sign text count ++ [' ', sign, ' ', 'a']

/-- A text with a run of `&` and a run of `+` behind it. -/
def withRuns (chain : Nat) (text : List Char) : List Char :=
  joined '+' (joined '&' text chain) chain

/-- A name inside a number of parentheses, with both runs at each level. -/
def factor (chain : Nat) : Nat → List Char
  | 0 => ['a']
  | levels + 1 => ['('] ++ ' ' :: (withRuns chain (factor chain levels) ++ ' ' :: [')'])

variable {place : Place} {text : List Char} {levels chain height : Nat} {rank : Rank}

/-- One more operator makes a derivation higher by one, as long as its run is short. -/
theorem raised_binary {left tree : ExprTree rank}
    (raised : left.Raised place text levels chain height) {more : List Char}
    (carries : Carries place more tree.tokens)
    (nesting_eq : tree.nesting = max left.nesting 0) {operator : Operator} {written : NameRef}
    (expr_eq : tree.expr = .binary operator left.expr (.reference written) tree.extent)
    (short : left.expr.run operator.isTight < chain) :
    tree.Raised place more levels chain (height + 1) := by
  -- The text carries what is joined, and only the run at the top is new.
  refine ⟨carries, ?_, ?_, ?_⟩
  · rw [nesting_eq, Nat.max_zero]
    exact raised.nesting_le
  · have runs := raised.runs_le
    simp only [expr_eq, Expr.longestRun]
    omega
  · -- A name is no higher than what it is joined to.
    have high := left.expr.one_le_height
    simp only [expr_eq, Expr.height, ← raised.height_eq]
    omega

/-- A sign with a name behind it lengthens a run by one, and makes a derivation higher by one. -/
def Joins (place : Place) (levels chain : Nat) (rank : Rank) (tight : Bool) (sign : Char) : Prop :=
  ∀ {text : List Char} {height : Nat} {left : ExprTree rank},
    left.Raised place text levels chain height → left.expr.run tight < chain →
      ∃ tree : ExprTree rank, tree.Raised place (text ++ [' ', sign, ' ', 'a']) levels chain
        (height + 1) ∧ tree.expr.run tight = left.expr.run tight + 1

/-- An ampersand and a name join a term. -/
theorem joins_term : Joins place levels chain .term true '&' := by
  intro text height left raised short
  -- The sign and the name are read behind the text, with a space in front of each.
  let sign := leaf .ampersand '&' (place.after (text ++ [' ']))
  let last := name ((place.after (text ++ [' '])).after ['&', ' '])
  have onSign : Carries _ ['&'] [sign.token] := carries_leaf rfl (by decide) _
  have carries := raised.carries.append_space (onSign.append_space (carries_name _))
  exact ⟨.intersection left sign (.name last), raised_binary raised carries rfl rfl short, rfl⟩

/-- A plus sign and a name join an expression. -/
theorem joins_expression : Joins place levels chain .expression false '+' := by
  intro text height left raised short
  -- As for a term, with the sign of the other rank.
  let sign := leaf .plus '+' (place.after (text ++ [' ']))
  let last := name ((place.after (text ++ [' '])).after ['+', ' '])
  have onSign : Carries _ ['+'] [sign.token] := carries_leaf rfl (by decide) _
  have carries := raised.carries.append_space (onSign.append_space (carries_name _))
  exact ⟨.union left sign (.factor (.name last)), raised_binary raised carries rfl rfl short, rfl⟩

/-- A run that starts afresh makes a derivation higher by its length. -/
theorem exists_joined {tight : Bool} {sign : Char}
    (joins : Joins place levels chain rank tight sign) {left : ExprTree rank}
    (raised : left.Raised place text levels chain height) (fresh : left.expr.run tight = 0)
    {count : Nat} (short : count ≤ chain) :
    ∃ tree : ExprTree rank, tree.Raised place (joined sign text count) levels chain
      (height + count) ∧ tree.expr.run tight = count := by
  -- Each operator of the run joins one more name to all that was joined before.
  induction count with
  | zero => exact ⟨left, raised, fresh⟩
  | succ count ih =>
    obtain ⟨tree, higher, run_eq⟩ := ih (Nat.le_of_succ_le short)
    rw [← run_eq]
    apply joins
    · rw [run_eq]
      exact higher
    · rw [run_eq]
      exact short

/-- A full run of one rank leaves none of the other rank at the top. -/
theorem run_eq_zero_of_full {tight : Bool} {expr : Expr} (runs : expr.longestRun ≤ chain)
    (full : expr.run tight = chain) : expr.run (!tight) = 0 := by
  cases expr with
  | binary operator left right range =>
    -- The operator at the top is of one rank only.
    have other := (Expr.binary operator left right range).run_le_longestRun (!tight)
    simp only [Expr.run] at full other ⊢
    split at full
    · rename_i same
      simp [same]
    · -- Nothing is joined, so that the limit is zero.
      omega
  | _ => rfl

/-- Both runs behind a factor make it higher by their lengths. -/
theorem exists_withRuns {tree : ExprTree .factor}
    (raised : tree.Raised place text levels chain height) (fresh : tree.expr.run true = 0) :
    ∃ whole : ExprTree .expression, whole.Raised place (withRuns chain text) levels chain
      (height + chain + chain) ∧ whole.expr.run true = 0 := by
  -- A factor is a term of no operators, and that term is an expression of none.
  have asTerm : (ExprTree.factor tree).Raised place text levels chain height :=
    ⟨raised.carries, raised.nesting_le, raised.runs_le, raised.height_eq⟩
  obtain ⟨term, onTerm, termRun⟩ := exists_joined joins_term asTerm fresh (Nat.le_refl chain)
  have asExpression : (ExprTree.term term).Raised place (joined '&' text chain) levels chain
      (height + chain) :=
    ⟨onTerm.carries, onTerm.nesting_le, onTerm.runs_le, onTerm.height_eq⟩
  have free : (ExprTree.term term).expr.run false = 0 :=
    run_eq_zero_of_full onTerm.runs_le termRun
  obtain ⟨whole, onWhole, wholeRun⟩ :=
    exists_joined joins_expression asExpression free (Nat.le_refl chain)
  exact ⟨whole, onWhole, run_eq_zero_of_full onWhole.runs_le wholeRun⟩

/-- Wherever a tower stands, it is as high as its levels and runs allow. -/
theorem exists_factor (chain levels : Nat) (place : Place) :
    ∃ tree : ExprTree .factor, tree.Raised place (factor chain levels) levels chain
      (2 * (levels * chain) + 1) ∧ tree.expr.run true = 0 := by
  -- Each level adds both runs, which start afresh inside the parentheses.
  induction levels generalizing place with
  | zero =>
    refine ⟨.name (name place), ⟨carries_name place, Nat.zero_le _, Nat.zero_le _, ?_⟩, rfl⟩
    simp [ExprTree.expr, Expr.height]
  | succ levels ih =>
    -- The parentheses are set around a tower of one level less, with both its runs.
    obtain ⟨inner, raised, fresh⟩ := ih (place.after (['('] ++ [' ']))
    obtain ⟨whole, onWhole, free⟩ := exists_withRuns raised fresh
    let opening := leaf .leftParen '(' place
    let closing := leaf .rightParen ')' ((place.after (['('] ++ [' '])).after
      (withRuns chain (factor chain levels) ++ [' ']))
    have onOpening : Carries place ['('] [opening.token] := carries_leaf rfl (by decide) _
    have onClosing : Carries _ [')'] [closing.token] := carries_leaf rfl (by decide) _
    refine ⟨.parens opening whole closing, ⟨?_, ?_, onWhole.runs_le, ?_⟩, free⟩
    · exact onOpening.append_space (onWhole.carries.append_space onClosing)
    · exact Nat.succ_le_succ onWhole.nesting_le
    · show whole.expr.height = _
      rw [onWhole.height_eq, Nat.add_one_mul levels chain]
      omega

/-- The text of a definition with one permission, whose expression is a tower. -/
def source (chain : Nat) : String :=
  "definition d \x7b permission p =" ++ " " ++
    String.ofList (withRuns chain (factor chain Parse.maxNesting)) ++ " \x7d"

/-- A tower is read, and it is as high as its runs allow. -/
theorem exists_read (chain : Nat) :
    ∃ schema, (parseWith .strict (source chain)).schema? = some schema ∧
      ∃ definition ∈ schema.definitions, ∃ permission ∈ definition.permissions,
        permission.expression.longestRun ≤ chain ∧
          permission.expression.height = 2 * (Parse.maxNesting + 1) * chain + 1 := by
  -- The tower stands behind the opening of a permission, and keeps to the limit of parentheses.
  obtain ⟨inner, raised, fresh⟩ := exists_factor chain Parse.maxNesting
    (Place.origin.after ("definition d \x7b permission p =".toList ++ [' ']))
  obtain ⟨whole, onWhole, _⟩ := exists_withRuns raised fresh
  let tree : PermissionTree :=
    ⟨Sole.permissionKeyword, Sole.permissionName, Sole.permissionEquals, whole⟩
  have limits : (MemberTree.permission tree).WithinLimits := onWhole.nesting_le
  have carries := onWhole.carries
  rw [← String.toList_ofList (l := withRuns chain (factor chain Parse.maxNesting))] at carries
  obtain ⟨closing, accepted⟩ := Sole.parse_eq_ok Sole.carries_permission carries rfl limits
  refine ⟨_, schema?_of_parse_eq_ok accepted, _, List.mem_singleton_self _, tree.permission, ?_,
    onWhole.runs_le, ?_⟩
  · simp [DefinitionTree.definition, MemberTree.permission?]
  · show whole.expr.height = _
    rw [onWhole.height_eq]
    simp only [Parse.maxNesting]
    omega

end Tower

/--
The limit of parentheses makes the height of an expression depend on the length of its runs alone.

* In every schema that is read, an expression with runs of a given length at most is no higher than
  one run of each rank at each level of parentheses, and its references are listed with no more
  calls inside one another than that.
* Some text is read with an expression of exactly that height.
-/
theorem height_limited_by_runs (chain : Nat) :
    (∀ (options : Parse.Options) (source : String) (schema : Schema),
      (parseWith options source).schema? = some schema →
      ∀ definition ∈ schema.definitions, ∀ permission ∈ definition.permissions,
        permission.expression.longestRun ≤ chain →
        permission.expression.height ≤ 2 * (Parse.maxNesting + 1) * chain + 1 ∧
        permission.expression.referencesWithin (2 * (Parse.maxNesting + 1) * chain + 1) =
          some permission.expression.references) ∧
      ∃ source schema, (parseWith .strict source).schema? = some schema ∧
        ∃ definition ∈ schema.definitions, ∃ permission ∈ definition.permissions,
          permission.expression.longestRun ≤ chain ∧
          permission.expression.height = 2 * (Parse.maxNesting + 1) * chain + 1 := by
  constructor
  · intro options source schema read definition declared permission listed runs
    -- The bound is on the height, which is the number of calls that are needed.
    have height_le := height_le_of_read read declared listed runs
    refine ⟨height_le, ?_⟩
    rw [Expr.referencesWithin_eq, if_pos height_le]
  · exact ⟨_, Tower.exists_read chain⟩

/-- A text with two runs of two operators, one of them in parentheses. -/
def nestedRuns : String :=
  "definition d \x7b permission p = a & (b + c - d) & e \x7d"

/-- Both runs have two operators, and 517 calls inside one another are enough for any such text. -/
theorem height_limited_by_runs_nestedRuns :
    ∃ schema, (parseWith .strict nestedRuns).schema? = some schema ∧
      ∃ definition ∈ schema.definitions, ∃ permission ∈ definition.permissions,
        permission.expression.height = 5 ∧
        permission.expression.referencesWithin 517 = some permission.expression.references := by
  obtain ⟨schema, read, definition, declared, permission, listed, runs, height_eq⟩ :
      ∃ schema ∈ (parseWith .strict nestedRuns).schema?, ∃ definition ∈ schema.definitions,
        ∃ permission ∈ definition.permissions, permission.expression.longestRun ≤ 2 ∧
          permission.expression.height = 5 := by
    decide +kernel
  have limited := (height_limited_by_runs 2).1 .strict nestedRuns schema read definition declared
    permission listed runs
  exact ⟨schema, read, definition, declared, permission, listed, height_eq, limited.2⟩

/-- No height limits the expressions of all permissions, since runs may have any length. -/
theorem not_exists_height_bound :
    ¬ ∃ bound, ∀ (options : Parse.Options) (source : String) (schema : Schema),
      (parseWith options source).schema? = some schema →
      ∀ definition ∈ schema.definitions, ∀ permission ∈ definition.permissions,
        permission.expression.height ≤ bound := by
  intro ⟨bound, limited⟩
  -- A tower with runs of the length of the bound is higher than the bound.
  obtain ⟨schema, read, definition, declared, permission, listed, _, height_eq⟩ :=
    Tower.exists_read bound
  have height_le := limited .strict _ schema read definition declared permission listed
  rw [height_eq, Parse.maxNesting] at height_le
  omega

end AuthSchema
