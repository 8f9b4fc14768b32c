import CommCentral.Lib.Decision

/-! LDAP search filters: what they say of an entry, and their texts (RFC 4515). -/
namespace CommCentral.Lib.LdapFilter

abbrev Text := List Char

/-- An assertion value, in octets. -/
abbrev Value := List UInt8

inductive Comparison where
  | equal
  | approx
  | greaterOrEqual
  | lessOrEqual
  deriving DecidableEq

inductive Assertion where
  | compare (comparison : Comparison) (attr : Text) (value : Value)
  | present (attr : Text)
  | substrings (attr : Text) (initial : Option Value) (any : List Value)
      (final : Option Value)
  | extensible (attr : Text) (dnAttributes : Bool) (rule : Option Text) (value : Value)
  deriving DecidableEq

inductive Filter where
  | and (filters : List Filter)
  | or (filters : List Filter)
  | not (filter : Filter)
  | item (assertion : Assertion)

/-- The values of an entry's attributes. -/
abbrev Entry := Text → List Value

/-- How a directory matches values. Every value begins and ends with nothing. -/
structure MatchingRules where
  compare : Comparison → Text → Value → Value → Bool
  substrings : Text → Option Value → List Value → Option Value → Value → Bool
  extensible : Text → Bool → Option Text → Value → Entry → Bool
  initial_nil : ∀ attr value, substrings attr (some []) [] none value = true
  final_nil : ∀ attr value, substrings attr none [] (some []) value = true

def Assertion.holds (rules : MatchingRules) (entry : Entry) : Assertion → Bool
  | compare comparison attr value => (entry attr).any (rules.compare comparison attr value)
  | present attr => !(entry attr).isEmpty
  | substrings attr initial any final => (entry attr).any (rules.substrings attr initial any final)
  | extensible attr dnAttributes rule value => rules.extensible attr dnAttributes rule value entry

mutual

def Filter.holds (rules : MatchingRules) (entry : Entry) : Filter → Bool
  | .and filters => allHold rules entry filters
  | .or filters => anyHolds rules entry filters
  | .not filter => !filter.holds rules entry
  | .item assertion => assertion.holds rules entry

def allHold (rules : MatchingRules) (entry : Entry) : List Filter → Bool
  | [] => true
  | filter :: filters => filter.holds rules entry && allHold rules entry filters

def anyHolds (rules : MatchingRules) (entry : Entry) : List Filter → Bool
  | [] => false
  | filter :: filters => filter.holds rules entry || anyHolds rules entry filters

end

def isKeyChar (c : Char) : Bool := c.isAlphanum || c == '-'

def isDescr : Text → Bool
  | [] => false
  | c :: rest => c.isAlpha && rest.all isKeyChar

/-- Digits, with no zero in front. -/
def isNumber (text : Text) : Bool :=
  text.all Char.isDigit && (text.length == 1 || text.head?.any (· != '0'))

def isNumericOid (text : Text) : Bool :=
  2 ≤ (text.splitOn '.').length && (text.splitOn '.').all isNumber

def isOid (text : Text) : Bool := isDescr text || isNumericOid text

def isOption (text : Text) : Bool := !text.isEmpty && text.all isKeyChar

def isAttributeDescription (text : Text) : Bool :=
  match text.splitOn ';' with
  | [] => false
  | type :: options => isOid type && options.all isOption

def hexDigit (c : Char) : Option Nat :=
  if c.isDigit then some (c.toNat - '0'.toNat)
  else if 'a' ≤ c ∧ c ≤ 'f' then some (c.toNat - 'a'.toNat + 10)
  else if 'A' ≤ c ∧ c ≤ 'F' then some (c.toNat - 'A'.toNat + 10)
  else none

/-- The characters that are only written as `\` and two hexadecimal digits. -/
def isSpecial (c : Char) : Bool := ['\x00', '(', ')', '*', '\\'].contains c

def encodeText (text : Text) : Value := text.flatMap String.utf8EncodeChar

def decodeValue : Text → Option Value
  | [] => some []
  | c :: rest =>
    if c = '\\' then
      match rest with
      | high :: low :: rest =>
        match hexDigit high, hexDigit low, decodeValue rest with
        | some high, some low, some value => some (UInt8.ofNat (16 * high + low) :: value)
        | _, _, _ => none
      | _ => none
    else if isSpecial c then none
    else (decodeValue rest).map (String.utf8EncodeChar c ++ ·)

/-- The first and the last piece may be missing. -/
def decodeEnd (text : Text) : Option (Option Value) :=
  if text = [] then some none else (decodeValue text).map some

def readPieces (attr : Text) (first : Text) (middle : List Text) (last : Text) :
    Option Assertion :=
  match decodeEnd first, middle.mapM decodeValue, decodeEnd last with
  | some initial, some any, some final => some (.substrings attr initial any final)
  | _, _, _ => none

/-- A value with asterisks. One alone asks for any value. -/
def readSubstrings (attr text : Text) : Option Assertion :=
  match text.splitOn '*' with
  | [] => none
  | first :: pieces =>
    if first = [] ∧ pieces = [[]] then some (.present attr)
    else readPieces attr first pieces.dropLast (pieces.getLastD [])

/-- What follows the colon behind an attribute, which may be missing where a rule is given. -/
def readExtensible (attr text : Text) : Option Assertion :=
  let named := isAttributeDescription attr
  let dnAttributes := ['d', 'n', ':'].isPrefixOf text
  let text := if dnAttributes then text.drop 3 else text
  match text with
  | '=' :: value =>
    if named then (decodeValue value).map (.extensible attr dnAttributes none)
    -- Without an attribute, `dn` is the rule.
    else if attr = [] ∧ dnAttributes then
      (decodeValue value).map (.extensible [] false (some ['d', 'n']))
    else none
  | text =>
    let rule := text.takeWhile (· != ':')
    match text.dropWhile (· != ':') with
    | ':' :: '=' :: value =>
      if isOid rule && (named || attr.isEmpty) then
        (decodeValue value).map (.extensible attr dnAttributes (some rule))
      else none
    | _ => none

def endsAttribute (c : Char) : Bool := ['=', '~', '<', '>', ':'].contains c

def readComparison (comparison : Comparison) (attr text : Text) : Option Assertion :=
  if isAttributeDescription attr then
    (decodeValue text).map (.compare comparison attr)
  else none

def readItem (text : Text) : Option Assertion :=
  let attr := text.takeWhile (!endsAttribute ·)
  match text.dropWhile (!endsAttribute ·) with
  | '=' :: value =>
    if isAttributeDescription attr && value.contains '*' then readSubstrings attr value
    else readComparison .equal attr value
  | '~' :: '=' :: value => readComparison .approx attr value
  | '>' :: '=' :: value => readComparison .greaterOrEqual attr value
  | '<' :: '=' :: value => readComparison .lessOrEqual attr value
  | ':' :: rest => readExtensible attr rest
  | _ => none

mutual

/-- The texts of a filter. An item goes up to the next closing parenthesis. -/
inductive Reads : Text → Filter → Prop where
  | and {text : Text} {filters : List Filter} (list : ReadsList text filters) :
      Reads ('(' :: '&' :: (text ++ [')'])) (.and filters)
  | or {text : Text} {filters : List Filter} (list : ReadsList text filters) :
      Reads ('(' :: '|' :: (text ++ [')'])) (.or filters)
  | not {text : Text} {filter : Filter} (inner : Reads text filter) :
      Reads ('(' :: '!' :: (text ++ [')'])) (.not filter)
  | item {text : Text} {assertion : Assertion} (read : readItem text = some assertion)
      (closed : ')' ∉ text) : Reads ('(' :: (text ++ [')'])) (.item assertion)

inductive ReadsList : Text → List Filter → Prop where
  | one {text : Text} {filter : Filter} (first : Reads text filter) : ReadsList text [filter]
  | cons {text later : Text} {filter : Filter} {filters : List Filter}
      (first : Reads text filter) (rest : ReadsList later filters) :
      ReadsList (text ++ later) (filter :: filters)

end

end CommCentral.Lib.LdapFilter
