import CommCentral.Lib.Decision

/-! The tree of search terms, its evaluation offline and its encoding for a server. -/
namespace CommCentral.Search
open List

variable {Term : Type}

/-- A term and the operator that joins it with the terms to its left. -/
structure SearchTerm (Term : Type) where
  term : Term
  booleanAnd : Bool

/-- `nsMsgSearchBoolExpression`, by which of its members are set. -/
inductive BoolExpression (Term : Type)
  | empty
  | leaf (term : Term)
  | node (leftChild rightChild : BoolExpression Term) (booleanAnd : Bool)

namespace BoolExpression

def leftToRightAddTerm (expression : BoolExpression Term) (newTerm : SearchTerm Term) :
    BoolExpression Term :=
  match expression with
  | .empty => .leaf newTerm.term
  | _ => .node expression (.leaf newTerm.term) newTerm.booleanAnd

/-- The loop of `EncodeImap` and, for a list without groups, of `ConstructExpressionTree`. -/
def ofTerms (searchTerms : List (SearchTerm Term)) : BoolExpression Term :=
  searchTerms.foldl leftToRightAddTerm .empty

def offlineEvaluate (processSearchTerm : Term → Bool) : BoolExpression Term → Bool
  | .empty => true
  | .leaf term => processSearchTerm term
  | .node leftChild rightChild isAnd =>
    let result := leftChild.offlineEvaluate processSearchTerm
    if (result && !isAnd) || (!result && isAnd) then result
    else rightChild.offlineEvaluate processSearchTerm

end BoolExpression

/-- A piece of an encoding: a character, or the encoding of a term, which is one search key
with a space before it. -/
inductive Symbol (Term : Type)
  | char (c : Char)
  | encodingStr (term : Term)
  deriving DecidableEq

def chars (text : String) : List (Symbol Term) := text.toList.map Symbol.char

def Symbol.isSpace : Symbol Term → Bool
  | .char c => c == ' '
  | .encodingStr _ => false

def BoolExpression.generateEncodeStr :
    BoolExpression Term → (buffer : List (Symbol Term)) → List (Symbol Term)
  | .empty, buffer => buffer
  | .leaf term, buffer => buffer ++ [.encodingStr term]
  | .node leftChild rightChild false, buffer =>
    let buffer := buffer ++ chars " (OR"
    let buffer := rightChild.generateEncodeStr (leftChild.generateEncodeStr buffer)
    let buffer := if buffer.getLast?.any Symbol.isSpace then buffer.dropLast else buffer
    buffer ++ chars ")"
  | .node leftChild rightChild true, buffer =>
    rightChild.generateEncodeStr (leftChild.generateEncodeStr buffer)

/-- What a search program says. -/
inductive SearchKey (Term : Type)
  | single (term : Term)
  | or (first second : SearchKey Term)
  | and (first second : SearchKey Term)
  deriving DecidableEq

def SearchKey.eval (value : Term → Bool) : SearchKey Term → Bool
  | .single term => value term
  | .or first second => first.eval value || second.eval value
  | .and first second => first.eval value && second.eval value

mutual

/-- A search key with the space before it. -/
def readSpaced : (fuel : Nat) → List (Symbol Term) → Option (SearchKey Term × List (Symbol Term))
  | 0, _ => none
  | _ + 1, .encodingStr term :: rest => some (.single term, rest)
  | fuel + 1, .char ' ' :: rest => readKey fuel rest
  | _ + 1, _ => none

/-- A group in parentheses or `OR` and two search keys. -/
def readKey : (fuel : Nat) → List (Symbol Term) → Option (SearchKey Term × List (Symbol Term))
  | 0, _ => none
  | fuel + 1, .char '(' :: rest => do
    let (first, rest) ← readKey fuel rest
    let (keys, rest) ← readMore fuel first rest
    match rest with
    | .char ')' :: rest => some (keys, rest)
    | _ => none
  | fuel + 1, .char 'O' :: .char 'R' :: rest => do
    let (first, rest) ← readSpaced fuel rest
    let (second, rest) ← readSpaced fuel rest
    return (.or first second, rest)
  | _ + 1, _ => none

/-- Search keys side by side, up to the end of the group or of the text. -/
def readMore : (fuel : Nat) → SearchKey Term → List (Symbol Term) →
    Option (SearchKey Term × List (Symbol Term))
  | 0, _, _ => none
  | _ + 1, first, [] => some (first, [])
  | _ + 1, first, .char ')' :: rest => some (first, .char ')' :: rest)
  | fuel + 1, first, text => do
    let (next, rest) ← readSpaced fuel text
    readMore fuel (.and first next) rest

end

/-- A search program by the grammar of the server. -/
def readProgram (text : List (Symbol Term)) : Option (SearchKey Term) := do
  let fuel := 3 * text.length + 3
  let (first, rest) ← readSpaced fuel text
  match ← readMore fuel first rest with
  | (keys, []) => some keys
  | _ => none

structure KeyText (text : List (Symbol Term)) (key : SearchKey Term) : Prop where
  reads : ∀ fuel rest, 3 * text.length ≤ fuel →
    readSpaced fuel (text ++ rest) = some (key, rest)
  opens : ∃ symbol rest, text = symbol :: rest ∧ symbol ≠ .char ')'
  closes : ∃ rest symbol, text = rest ++ [symbol] ∧ symbol.isSpace = false

/-- A text of search keys side by side. -/
inductive KeyTexts : List (Symbol Term) → List (SearchKey Term) → Prop
  | nil : KeyTexts [] []
  | cons {text rest key keys} (first : KeyText text key) (later : KeyTexts rest keys) :
    KeyTexts (text ++ rest) (key :: keys)

variable {text rest : List (Symbol Term)}
variable {keys : List (SearchKey Term)}

lemma KeyText.length_pos (keyText : KeyText text key) : 0 < text.length := by
  obtain ⟨symbol, rest, rfl, -⟩ := keyText.opens
  exact Nat.succ_pos _

lemma KeyTexts.concat (texts : KeyTexts text keys) (last : KeyText rest key) :
    KeyTexts (text ++ rest) (keys ++ [key]) := by
  induction texts with
  | nil =>
    have single := KeyTexts.cons last .nil
    rw [append_nil] at single
    exact single
  | cons first later ih =>
    rw [append_assoc]
    exact .cons first ih

lemma KeyText.encodingStr (term : Term) : KeyText [.encodingStr term] (.single term) := by
  refine ⟨?_, ⟨_, [], rfl, by rintro ⟨⟩⟩, ⟨[], _, rfl, rfl⟩⟩
  intro fuel rest enough
  cases fuel with
  | zero => cases enough
  | succ fuel => rfl

lemma readMore_step (fuel : Nat) (first)
    (more : symbol ≠ .char ')') (rest : List (Symbol Term)) :
    readMore (fuel + 1) first (symbol :: rest) =
      (readSpaced fuel (symbol :: rest)).bind fun (next, rest) =>
        readMore fuel (.and first next) rest := by
  rw [readMore]
  · rfl
  · intro same
    cases same
  · intro others same
    exact more (List.cons.inj same).1

/-- The text of a group or of a program ends here. -/
def Stops (text : List (Symbol Term)) : Prop := text = [] ∨ ∃ rest, text = .char ')' :: rest

/-- Search keys side by side are read as their conjunction. -/
theorem readMore_keys (texts : KeyTexts text keys) (stops : Stops rest) (fuel : Nat)
    (enough : 3 * text.length + 1 ≤ fuel) :
    readMore fuel first (text ++ rest) = some (keys.foldl .and first, rest) := by
  induction texts generalizing fuel first with
  | nil =>
    cases fuel with
    | zero => cases enough
    | succ fuel =>
      cases stops with
      | inl nothing =>
        rw [nothing]
        rfl
      | inr closes =>
        obtain ⟨others, rfl⟩ := closes
        rfl
  | @cons text later key keys keyText texts ih =>
    have length := keyText.length_pos
    rw [length_append] at enough
    cases fuel with
    | zero => omega
    | succ fuel =>
      obtain ⟨symbol, others, opens, more⟩ := keyText.opens
      have step : readMore (fuel + 1) first (text ++ (later ++ rest)) =
          (readSpaced fuel (text ++ (later ++ rest))).bind fun (next, rest) =>
            readMore fuel (.and first next) rest := by
        rw [opens]
        exact readMore_step fuel first more _
      rw [append_assoc, step, keyText.reads fuel _ (by omega)]
      exact ih fuel (by omega)

lemma KeyText.orGroup (texts : KeyTexts text (first :: second :: keys)) :
    KeyText (chars " (OR" ++ text ++ chars ")") (keys.foldl .and (.or first second)) := by
  refine ⟨?_, ⟨.char ' ', _, rfl, by rintro ⟨⟩⟩, ⟨_, .char ')', rfl, rfl⟩⟩
  intro fuel rest enough
  cases texts with
  | @cons one _ _ _ ofFirst texts =>
    cases texts with
    | @cons two more _ _ ofSecond texts =>
      have total : (chars " (OR" ++ (one ++ (two ++ more)) ++ chars ")" : List (Symbol Term)).length =
          4 + (one.length + (two.length + more.length)) + 1 := by
        simp only [length_append]
        rfl
      rw [total] at enough
      obtain ⟨fuel, rfl⟩ : ∃ less, fuel = less + 3 := ⟨fuel - 3, by omega⟩
      have keys : readKey (fuel + 1)
          (chars "OR" ++ (one ++ (two ++ (more ++ (chars ")" ++ rest))))) =
          some (.or first second, more ++ (chars ")" ++ rest)) := by
        change (readSpaced fuel (one ++ _)).bind _ = _
        rw [ofFirst.reads fuel _ (by omega)]
        change (readSpaced fuel (two ++ _)).bind _ = _
        rw [ofSecond.reads fuel _ (by omega)]
        rfl
      simp only [append_assoc]
      change (readKey (fuel + 1) (chars "OR" ++ _)).bind _ = _
      rw [keys]
      change (readMore (fuel + 1) (.or first second) (more ++ (chars ")" ++ rest))).bind _ = _
      have stops : Stops (chars ")" ++ rest) := .inr ⟨rest, rfl⟩
      rw [readMore_keys texts stops (fuel + 1) (by omega)]
      rfl

/-- An expression whose encoding is read as these search keys. -/
def Encodes (expression : BoolExpression Term) (keys : List (SearchKey Term)) : Prop :=
  ∃ text, KeyTexts text keys ∧ ∀ buffer, expression.generateEncodeStr buffer = buffer ++ text

/-- The search keys after one more term. -/
def addKey (keys : List (SearchKey Term)) (newTerm : SearchTerm Term) : List (SearchKey Term) :=
  match keys ++ [.single newTerm.term] with
  | first :: second :: others =>
    if newTerm.booleanAnd then first :: second :: others
    else [others.foldl .and (.or first second)]
  | single => single

lemma Encodes.node (encodes : Encodes expression keys) (some : keys ≠ []) (newTerm) :
    Encodes (.node expression (.leaf newTerm.term) newTerm.booleanAnd) (addKey keys newTerm) := by
  obtain ⟨text, texts, generated⟩ := encodes
  have together := texts.concat (KeyText.encodingStr newTerm.term)
  cases keys with
  | nil => exact absurd rfl some
  | cons first keys =>
    cases operator : newTerm.booleanAnd with
    | true =>
      have kept : addKey (first :: keys) newTerm = first :: keys ++ [.single newTerm.term] := by
        cases keys with
        | nil | cons second keys => exact if_pos operator
      rw [kept]
      refine ⟨_, together, fun buffer => ?_⟩
      rw [← append_assoc, ← generated]
      rfl
    | false =>
      have group : ∃ second others, first :: keys ++ [.single newTerm.term] =
          first :: second :: others ∧
            addKey (first :: keys) newTerm = [others.foldl .and (.or first second)] := by
        cases keys with
        | nil => exact ⟨_, [], rfl, if_neg (by rw [operator]; exact Bool.false_ne_true)⟩
        | cons second keys =>
          exact ⟨second, _, rfl, if_neg (by rw [operator]; exact Bool.false_ne_true)⟩
      obtain ⟨second, others, all, added⟩ := group
      rw [added]
      rw [all] at together
      refine ⟨_ ++ [], .cons (.orGroup together) .nil, fun buffer => ?_⟩
      rw [BoolExpression.generateEncodeStr, generated]
      -- The encoding of a term was written last, so there is no space to take away.
      change (if ((buffer ++ chars " (OR" ++ text ++ [Symbol.encodingStr newTerm.term]).getLast?.any
        Symbol.isSpace) = true then _ else _) ++ chars ")" = _
      rw [getLast?_concat]
      change buffer ++ chars " (OR" ++ text ++ [Symbol.encodingStr newTerm.term] ++ chars ")" = _
      simp only [append_assoc, append_nil]

lemma Encodes.leaf (term : Term) : Encodes (.leaf term) [.single term] :=
  ⟨_, .cons (.encodingStr term) .nil, fun _ => rfl⟩

lemma Encodes.readProgram (encodes : Encodes expression (first :: keys)) :
    readProgram (expression.generateEncodeStr []) = some (keys.foldl .and first) := by
  obtain ⟨text, texts, generated⟩ := encodes
  rw [generated, nil_append]
  cases texts with
  | @cons one others _ _ ofFirst texts =>
    rw [Search.readProgram, length_append]
    change (readSpaced _ (one ++ others)).bind _ = _
    rw [ofFirst.reads _ others (by omega)]
    change (readMore _ first others).bind _ = _
    rw [← append_nil others, readMore_keys texts (.inl rfl) _ (by rw [append_nil]; omega)]
    rfl

end CommCentral.Search
