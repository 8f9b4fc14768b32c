import CommCentral.Lib.LdapFilter

/-! Boolean queries of the address book, and the LDAP filters they are converted to. -/
namespace CommCentral.AddrBook

open Lib.LdapFilter

/-- A `wstring`, which ends before the first NUL. -/
structure WString where
  units : List UInt16
  noNul : 0 ∉ units

/-- The text of UTF-16 units. A surrogate on its own is replaced. -/
def decodeUTF16 : List UInt16 → Text
  | [] => []
  | unit :: rest =>
    if unit < 0xD800 ∨ 0xE000 ≤ unit then Char.ofNat unit.toNat :: decodeUTF16 rest
    else
      match rest with
      | [] => ['\uFFFD']
      | low :: rest =>
        if unit < 0xDC00 ∧ 0xDC00 ≤ low ∧ low < 0xE000 then
          Char.ofNat (0x10000 + (unit.toNat - 0xD800) * 0x400 + (low.toNat - 0xDC00)) ::
            decodeUTF16 rest
        else '\uFFFD' :: decodeUTF16 (low :: rest)

def WString.text (value : WString) : Text := decodeUTF16 value.units

/-- `nsIAbBooleanConditionTypes`. -/
inductive ConditionType where
  | Exists
  | DoesNotExist
  | Contains
  | DoesNotContain
  | Is
  | IsNot
  | BeginsWith
  | EndsWith
  | LessThan
  | GreaterThan
  | SoundsLike
  | RegExp
  deriving DecidableEq

/-- `nsIAbBooleanOperationTypes`. -/
inductive Operation where
  | AND
  | OR
  | NOT
  deriving DecidableEq

/-- `nsIAbBooleanConditionString`. -/
structure Condition where
  condition : ConditionType
  name : Text
  value : WString

/-- A condition, or an `nsIAbBooleanExpression`. -/
inductive BooleanExpression where
  | condition (condition : Condition)
  | expression (operation : Operation) (expressions : List BooleanExpression)

/-- `GetFirstAttribute` of the attribute map, with no text for a property without one. -/
abbrev AttributeMap := Text → Text

structure Flags where
  translateCardProperty : Bool
  allowNonConvertableCardProperty : Bool

/-- The flags of `Convert` where none are given. -/
def translateOnly : Flags where
  translateCardProperty := true
  allowNonConvertableCardProperty := false

variable (map : AttributeMap) (flags : Flags)

def filterCondition (condition : Condition) : Text :=
  let ldapAttr := if flags.translateCardProperty then map condition.name else condition.name
  if flags.translateCardProperty && !flags.allowNonConvertableCardProperty && ldapAttr.isEmpty then
    []
  else
    let vUTF8 := condition.value.text
    match condition.condition with
    | .DoesNotExist => '(' :: '!' :: '(' :: (ldapAttr ++ ['=', '*', ')', ')'])
    | .Exists => '(' :: (ldapAttr ++ ['=', '*', ')'])
    | .Contains => '(' :: (ldapAttr ++ '=' :: '*' :: (vUTF8 ++ ['*', ')']))
    | .DoesNotContain => '(' :: '!' :: '(' :: (ldapAttr ++ '=' :: '*' :: (vUTF8 ++ ['*', ')', ')']))
    | .Is => '(' :: (ldapAttr ++ '=' :: (vUTF8 ++ [')']))
    | .IsNot => '(' :: '!' :: '(' :: (ldapAttr ++ '=' :: (vUTF8 ++ [')', ')']))
    | .BeginsWith => '(' :: (ldapAttr ++ '=' :: (vUTF8 ++ ['*', ')']))
    | .EndsWith => '(' :: (ldapAttr ++ '=' :: '*' :: (vUTF8 ++ [')']))
    | .LessThan => '(' :: (ldapAttr ++ '<' :: '=' :: (vUTF8 ++ [')']))
    | .GreaterThan => '(' :: (ldapAttr ++ '>' :: '=' :: (vUTF8 ++ [')']))
    | .SoundsLike => '(' :: (ldapAttr ++ '~' :: '=' :: (vUTF8 ++ [')']))
    | .RegExp => []

/-- The name of a third party's query for whole cards. -/
def cardName : Text := "card:nsIAbCard".toList

/-- A single condition on whole cards is not made a filter of. -/
def isCardQuery : List BooleanExpression → Bool
  | [.condition condition] => condition.name == cardName
  | _ => false

mutual

/-- What is appended to the filter: `FilterCondition` or `FilterExpression`, none where it fails. -/
def filterExpression : BooleanExpression → Option Text
  | .condition condition => some (filterCondition map flags condition)
  | .expression operation expressions =>
    if expressions.isEmpty then some []
    else if isCardQuery expressions then some []
    else
      match operation with
      | .AND => (filterExpressions expressions).map fun inside => '(' :: '&' :: (inside ++ [')'])
      | .OR => (filterExpressions expressions).map fun inside => '(' :: '|' :: (inside ++ [')'])
      | .NOT =>
        if expressions.length > 1 then none
        else (filterExpressions expressions).map fun inside => '(' :: '!' :: (inside ++ [')'])

def filterExpressions : List BooleanExpression → Option Text
  | [] => some []
  | expression :: expressions =>
    match filterExpression expression with
    | none => none
    | some filter => (filterExpressions expressions).map (filter ++ ·)

end

/-- `nsAbBoolExprToLDAPFilter::Convert`. -/
def convert (operation : Operation) (expressions : List BooleanExpression) : Option Text :=
  filterExpression map flags (.expression operation expressions)

def Condition.literalValue (condition : Condition) : Value := encodeText condition.value.text

/-- A condition compares the attribute of its property with its value. -/
def Condition.holds (rules : MatchingRules) (entry : Entry) (condition : Condition) : Bool :=
  let attr := map condition.name
  let value := condition.literalValue
  match condition.condition with
  | .Exists => !(entry attr).isEmpty
  | .DoesNotExist => (entry attr).isEmpty
  | .Contains => (entry attr).any (rules.substrings attr none [value] none)
  | .DoesNotContain => !(entry attr).any (rules.substrings attr none [value] none)
  | .Is => (entry attr).any (rules.compare .equal attr value)
  | .IsNot => !(entry attr).any (rules.compare .equal attr value)
  | .BeginsWith => (entry attr).any (rules.substrings attr (some value) [] none)
  | .EndsWith => (entry attr).any (rules.substrings attr none [] (some value))
  | .LessThan => (entry attr).any (rules.compare .lessOrEqual attr value)
  | .GreaterThan => (entry attr).any (rules.compare .greaterOrEqual attr value)
  | .SoundsLike => (entry attr).any (rules.compare .approx attr value)
  | .RegExp => false

mutual

def BooleanExpression.holds (rules : MatchingRules) (entry : Entry) : BooleanExpression → Bool
  | .condition condition => condition.holds map rules entry
  | .expression .AND expressions => everyHolds rules entry expressions
  | .expression .OR expressions => someHolds rules entry expressions
  -- Of one expression.
  | .expression .NOT expressions => !everyHolds rules entry expressions

def everyHolds (rules : MatchingRules) (entry : Entry) : List BooleanExpression → Bool
  | [] => true
  | expression :: expressions => expression.holds rules entry && everyHolds rules entry expressions

def someHolds (rules : MatchingRules) (entry : Entry) : List BooleanExpression → Bool
  | [] => false
  | expression :: expressions => expression.holds rules entry || someHolds rules entry expressions

end

/-- Every operation has an operand, and a negation has one alone. No condition is a regular
expression. -/
inductive Query : BooleanExpression → Prop where
  | condition {condition : Condition} (noRegExp : condition.condition ≠ .RegExp) :
      Query (.condition condition)
  | expression {operation : Operation} {expressions : List BooleanExpression}
      (some_ : expressions ≠ []) (one : operation = .NOT → expressions.length = 1)
      (inside : ∀ expression ∈ expressions, Query expression) :
      Query (.expression operation expressions)

/-- Every property of the query has an attribute. -/
inductive AllMapped : BooleanExpression → Prop where
  | condition {condition : Condition} (mapped : map condition.name ≠ []) :
      AllMapped (.condition condition)
  | expression {operation : Operation} {expressions : List BooleanExpression}
      (inside : ∀ expression ∈ expressions, AllMapped expression) :
      AllMapped (.expression operation expressions)

end CommCentral.AddrBook
