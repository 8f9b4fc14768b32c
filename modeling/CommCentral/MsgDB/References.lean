import Mathlib.Tactic.Common

/-! The references of a header: the scanner for delimited message ids (`GetNextReference`) and
the list that `ParseReferences` reads with it. -/
namespace CommCentral.MsgDB
open List Option

/-- The bytes of a C string before the byte 0 that ends it. -/
abbrev Bytes := List UInt8

def lessThan : UInt8 := 0x3C

def greaterThan : UInt8 := 0x3E

/-- Space, carriage return, line feed or tab. -/
def isBlank (byte : UInt8) : Bool := byte == 0x20 || byte == 0x0D || byte == 0x0A || byte == 0x09

/-- The walk to the next `<`: `whitespaceEndedAt`, and the text behind the `<` that was found. -/
def toLessThan : (whitespaceEndedAt : Option Bytes) → Bytes → Option Bytes × Option Bytes
  | whitespaceEndedAt, [] => (whitespaceEndedAt, none)
  | whitespaceEndedAt, byte :: rest =>
    if isBlank byte then toLessThan whitespaceEndedAt rest
    else if byte = lessThan then (whitespaceEndedAt.or (some rest), some rest)
    else toLessThan (whitespaceEndedAt.or (some (byte :: rest))) rest

/-- The bytes before the next `>` and the text behind it. -/
def toGreaterThan : Bytes → Option (Bytes × Bytes)
  | [] => none
  | byte :: rest =>
    if byte = greaterThan then some ([], rest)
    else (toGreaterThan rest).map fun (reference, behind) => (byte :: reference, behind)

/-- The reference, which may be empty, and the text at the next starting position. -/
def getNextReference (startNextRef : Bytes) (acceptNonDelimitedReferences : Bool) :
    Bytes × Bytes :=
  let (whitespaceEndedAt, behindLessThan) := toLessThan none startNextRef
  let fallback := if acceptNonDelimitedReferences then whitespaceEndedAt.getD [] else []
  match behindLessThan.bind toGreaterThan with
  | some (reference, behind) => (reference, behind)
  | none => (fallback, [])

/-- The loop of `ParseReferences`. A pointer into the string is the text from there on; it points
to the start if nothing was passed. -/
def parseLoop (references messageId : Bytes) : (fuel : Nat) → (startNextRef : Bytes) →
    Option (List Bytes)
  | 0, _ => none
  | fuel + 1, startNextRef =>
    if startNextRef = [] then some []
    else
      let (reference, behind) :=
        getNextReference startNextRef (startNextRef.length = references.length)
      let found := if reference ≠ [] ∧ reference ≠ messageId then [reference] else []
      (parseLoop references messageId fuel behind).map (found ++ ·)

def parseReferences (fuel : Nat) (references messageId : Bytes) : Option (List Bytes) :=
  parseLoop references messageId fuel references

variable (references messageId : Bytes)

lemma parseLoop_nonempty {found : List Bytes}
    (parsed : parseLoop references messageId fuel startNextRef = some found) :
    ∀ reference ∈ found, reference ≠ [] := by
  induction fuel generalizing startNextRef found with
  | zero => cases parsed
  | succ fuel ih =>
    rw [parseLoop] at parsed
    by_cases ended : startNextRef = []
    · rw [if_pos ended, Option.some.injEq] at parsed
      subst parsed
      exact fun _ none => absurd none not_mem_nil
    · rw [if_neg ended] at parsed
      generalize getNextReference startNextRef _ = next at parsed
      obtain ⟨first, behind⟩ := next
      obtain ⟨later, parsedLater, rfl⟩ := map_eq_some_iff.mp parsed
      intro reference mem
      rcases mem_append.mp mem with isFirst | rest
      · by_cases isKept : first ≠ [] ∧ first ≠ messageId
        · rw [if_pos isKept] at isFirst
          exact mem_singleton.mp isFirst ▸ isKept.1
        · rw [if_neg isKept] at isFirst
          exact absurd isFirst not_mem_nil
      · exact ih parsedLater reference rest

/-- The contents of the complete groups from a `<` to the next `>`, left to right. A group that is
open holds the bytes read since its `<`. -/
def groupsFrom : (opened : Option Bytes) → Bytes → List Bytes
  | _, [] => []
  | none, byte :: rest => groupsFrom (if byte = lessThan then some [] else none) rest
  | some group, byte :: rest =>
    if byte = greaterThan then group :: groupsFrom none rest
    else groupsFrom (some (group ++ [byte])) rest

def groups (text : Bytes) : List Bytes := groupsFrom none text

/-- The text without the blanks at its start and without one `<` behind these. -/
def leftTrimmed (text : Bytes) : Bytes :=
  match text.dropWhile isBlank with
  | [] => []
  | byte :: rest => if byte = lessThan then rest else byte :: rest

lemma toLessThan_ended (ended text) : (toLessThan (some ended) text).1 = some ended := by
  induction text with
  | nil => rfl
  | cons byte rest ih =>
    rw [toLessThan]
    split
    · exact ih
    · split
      · rfl
      · exact ih

lemma toLessThan_leftTrimmed (text) : (toLessThan none text).1.getD [] = leftTrimmed text := by
  induction text with
  | nil => rfl
  | cons byte rest ih =>
    rw [toLessThan, leftTrimmed]
    by_cases blank : isBlank byte = true
    · rw [if_pos blank, dropWhile_cons_of_pos blank]
      exact ih
    · rw [if_neg blank, dropWhile_cons_of_neg blank]
      by_cases less : byte = lessThan
      · simp [less]
      · simp [less, toLessThan_ended]

/-- The groups begin behind the `<` that the walk finds. -/
theorem groups_toLessThan (whitespaceEndedAt : Option Bytes) (text : Bytes) :
    groups text = match (toLessThan whitespaceEndedAt text).2 with
      | none => []
      | some behind => groupsFrom (some []) behind := by
  induction text generalizing whitespaceEndedAt with
  | nil => rfl
  | cons byte rest ih =>
    rw [groups, groupsFrom, toLessThan]
    by_cases blank : isBlank byte = true
    · have notLess : byte ≠ lessThan := by
        rintro rfl
        cases blank
      rw [if_pos blank, if_neg notLess]
      exact ih whitespaceEndedAt
    · rw [if_neg blank]
      by_cases less : byte = lessThan
      · rw [if_pos less, if_pos less]
      · rw [if_neg less, if_neg less]
        exact ih _

lemma groupsFrom_toGreaterThan (group text) :
    groupsFrom (some group) text = match toGreaterThan text with
      | none => []
      | some (reference, behind) => (group ++ reference) :: groups behind := by
  induction text generalizing group with
  | nil => rfl
  | cons byte rest ih =>
    rw [groupsFrom, toGreaterThan]
    by_cases greater : byte = greaterThan
    · rw [if_pos greater, if_pos greater]
      exact congrArg (· :: groups rest) (append_nil group).symm
    · rw [if_neg greater, if_neg greater, ih]
      cases toGreaterThan rest with
      | none => rfl
      | some found => exact congrArg (· :: groups found.2) (append_assoc group [byte] found.1)

lemma toLessThan_shortens {text behind : Bytes}
    (found : (toLessThan whitespaceEndedAt text).2 = some behind) :
    behind.length < text.length := by
  induction text generalizing whitespaceEndedAt with
  | nil => cases found
  | cons byte rest ih =>
    rw [toLessThan] at found
    split at found
    · exact Nat.lt_succ_of_lt (ih found)
    · split at found
      · cases found
        exact Nat.lt_succ_self _
      · exact Nat.lt_succ_of_lt (ih found)

lemma toGreaterThan_shortens {text reference behind : Bytes}
    (found : toGreaterThan text = some (reference, behind)) : behind.length < text.length := by
  induction text generalizing reference with
  | nil => cases found
  | cons byte rest ih =>
    rw [toGreaterThan] at found
    split at found
    · cases found
      exact Nat.lt_succ_self _
    · obtain ⟨⟨inner, innerBehind⟩, later, same⟩ := map_eq_some_iff.mp found
      cases same
      exact Nat.lt_succ_of_lt (ih later)

lemma getNextReference_cases (text) (accept : Bool) :
    (∃ reference behind, getNextReference text accept = (reference, behind) ∧
        groups text = reference :: groups behind ∧ behind.length < text.length) ∨
      (groups text = [] ∧
        getNextReference text accept = (if accept then leftTrimmed text else [], [])) := by
  have trimmed := toLessThan_leftTrimmed text
  have whole := groups_toLessThan none text
  rw [getNextReference]
  cases walked : toLessThan none text with
  | mk ended behindLess =>
    rw [walked] at trimmed whole
    dsimp only at trimmed whole ⊢
    rw [trimmed]
    cases behindLess with
    | none => exact .inr ⟨whole, rfl⟩
    | some inside =>
      have shorter : inside.length < text.length := toLessThan_shortens (congrArg Prod.snd walked)
      have first := whole.trans (groupsFrom_toGreaterThan [] inside)
      rw [bind_some]
      cases closed : toGreaterThan inside with
      | none =>
        rw [closed] at first
        exact .inr ⟨first, rfl⟩
      | some found =>
        rw [closed] at first
        have shorter' := toGreaterThan_shortens closed
        exact .inl ⟨found.1, found.2, rfl, first, Nat.lt_trans shorter' shorter⟩

/-- What `ParseReferences` adds to the list. -/
def kept (messageId : Bytes) (found : List Bytes) : List Bytes :=
  found.filter fun reference => reference ≠ [] ∧ reference ≠ messageId

lemma kept_cons (messageId reference) (found) :
    kept messageId (reference :: found) =
      (if reference ≠ [] ∧ reference ≠ messageId then [reference] else []) ++
        kept messageId found := by
  simp only [kept, filter_cons, decide_eq_true_eq]
  split
  · rfl
  · rfl

/-- Behind the start of the string only groups are found. -/
theorem parseLoop_groups (passed : startNextRef.length < references.length)
    (enough : startNextRef.length < fuel) :
    parseLoop references messageId fuel startNextRef =
      some (kept messageId (groups startNextRef)) := by
  induction fuel generalizing startNextRef with
  | zero => exact absurd enough (Nat.not_lt_zero _)
  | succ fuel ih =>
    rw [parseLoop]
    by_cases ended : startNextRef = []
    · rw [if_pos ended, ended]
      rfl
    · have notStart : decide (startNextRef.length = references.length) = false :=
        decide_eq_false (Nat.ne_of_lt passed)
      rw [if_neg ended, notStart]
      rcases getNextReference_cases startNextRef false with
        ⟨reference, behind, next, first, shorter⟩ | ⟨none, next⟩
      · simp only [next]
        rw [ih (by omega) (by omega), first, kept_cons, map_some]
      · have positive := length_pos_iff.mpr ended
        simp only [next, none]
        rw [ih (by simp only [length_nil]; omega) (by simp only [length_nil]; omega)]
        rfl

/-- `ParseReferences` ends. Where the string has complete groups, it finds their contents in order,
and where it has none, the left-trimmed string; in both cases without empty ones and without
the id of the message itself. -/
theorem parseReferences_groups (references messageId : Bytes) {fuel : Nat}
    (enough : references.length < fuel) :
    parseReferences fuel references messageId =
      some (kept messageId
        (if groups references ≠ [] then groups references else [leftTrimmed references])) := by
  obtain ⟨fuel, rfl⟩ : ∃ rest, fuel = rest + 1 := ⟨fuel - 1, by omega⟩
  rw [parseReferences, parseLoop]
  by_cases ended : references = []
  · rw [if_pos ended, ended]
    rfl
  · have positive := length_pos_iff.mpr ended
    rw [if_neg ended, decide_eq_true rfl]
    rcases getNextReference_cases references true with
      ⟨reference, behind, next, first, shorter⟩ | ⟨none, next⟩
    · simp only [next]
      rw [parseLoop_groups references messageId shorter (by omega), first,
        if_pos (cons_ne_nil _ _), kept_cons, map_some]
    · have later : parseLoop references messageId fuel [] = some [] :=
        parseLoop_groups references messageId positive (by simp only [length_nil]; omega)
      simp only [next, none, later, if_true, ne_eq, not_true_eq_false, if_false, kept_cons]
      rfl

/-- `<a> b <c`: only the first group counts. -/
theorem parseReferences_groups_unterminated :
    parseReferences 9 [0x3C, 0x61, 0x3E, 0x20, 0x62, 0x20, 0x3C, 0x63] [0x64] =
      some (kept [0x64] [[0x61]]) :=
  parseReferences_groups [0x3C, 0x61, 0x3E, 0x20, 0x62, 0x20, 0x3C, 0x63] [0x64] (by decide)

end CommCentral.MsgDB
