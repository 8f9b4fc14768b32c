import CommCentral.Jsmime.MimeParser
import Mathlib.Data.List.Nodup

/-! The tree of the parts of a message and the events that go through it: each part is
started once, inside its parent, and ended. -/
namespace CommCentral.Jsmime
open List

/-- The number of the `count`-th part of a multipart. -/
def childNum (partNum : JsString) (count : Nat) : JsString := partPrefix partNum ++ decimal count

/-- The number of the message in a part. -/
def bodyNum (partNum : JsString) : JsString := partNum ++ js "$"

def startedParts (events : List Event) : List JsString :=
  events.filterMap fun
    | .startPart partNum _ _ => some partNum
    | _ => none

def endedParts (events : List Event) : List JsString :=
  events.filterMap fun
    | .endPart partNum => some partNum
    | _ => none

/-- A part that is open, with the number of its parts that have ended. -/
structure OpenPart where
  partNum : JsString
  ended : Nat := 0
  deriving DecidableEq

def OpenPart.endOne (parent : OpenPart) : OpenPart := { parent with ended := parent.ended + 1 }

/-- The part that may be started next in an open one. -/
def OpenPart.Next (parent : OpenPart) (partNum : JsString) : Prop :=
  partNum = childNum parent.partNum (parent.ended + 1) ∨
    parent.ended = 0 ∧ partNum = bodyNum parent.partNum

instance (parent : OpenPart) (partNum : JsString) : Decidable (parent.Next partNum) :=
  inferInstanceAs (Decidable (_ ∨ _))

/-- The open parts after an event, the innermost first; `none` if the event is out of place. -/
def follow : List OpenPart → Event → Option (List OpenPart)
  | [], .startPart partNum _ _ => if partNum = [] then some [{ partNum := partNum }] else none
  | parent :: parts, .startPart partNum _ _ =>
    if parent.Next partNum then some ({ partNum := partNum } :: parent :: parts) else none
  | part :: parts, .deliverPartData partNum _ =>
    if partNum = part.partNum then some (part :: parts) else none
  | part :: parts, .endPart partNum =>
    if partNum = part.partNum then some (parts.modifyHead OpenPart.endOne) else none
  | [], .startMessage => some []
  | [], .endMessage => some []
  | _, _ => none

/-- Every part is started at most once and ended as often, the parts are nested with their
numbers in order, and data comes for the innermost open part. -/
structure WellNested (events : List Event) : Prop where
  startedOnce : (startedParts events).Nodup
  matched : ∀ partNum, (endedParts events).count partNum = (startedParts events).count partNum
  nested : events.foldlM follow [] = some []

structure PartStart where
  headerText : BinaryString
  defaultContentType : Option JsString

inductive PartTree
  | leaf (start : PartStart) (data : List BinaryString)
  | multipart (start : PartStart) (parts : List PartTree)
  | message (start : PartStart) (body : PartTree)

def PartStart.event (start : PartStart) (partNum : JsString) : Event :=
  .startPart partNum start.headerText start.defaultContentType

mutual

def PartTree.events (partNum : JsString) : PartTree → List Event
  | .leaf start data =>
    start.event partNum :: data.map (Event.deliverPartData partNum) ++ [.endPart partNum]
  | .multipart start parts =>
    start.event partNum :: partsEvents partNum 1 parts ++ [.endPart partNum]
  | .message start body =>
    start.event partNum :: body.events (bodyNum partNum) ++ [.endPart partNum]

/-- The events of the parts of a multipart, numbered from `count` on. -/
def partsEvents (partNum : JsString) (count : Nat) : List PartTree → List Event
  | [] => []
  | part :: parts => part.events (childNum partNum count) ++ partsEvents partNum (count + 1) parts

end

lemma partsEvents_concat (partNum) (count : Nat) (parts) (part) :
    partsEvents partNum count (parts ++ [part]) =
      partsEvents partNum count parts ++ part.events (childNum partNum (count + parts.length)) := by
  induction parts generalizing count with
  | nil =>
    change part.events _ ++ [] = [] ++ part.events _
    rw [append_nil, nil_append]
    rfl
  | cons first rest ih =>
    change first.events _ ++ partsEvents partNum (count + 1) (rest ++ [part]) = _
    rw [ih, partsEvents, append_assoc, length_cons, Nat.add_assoc, Nat.add_comm 1]

variable (first second : List Event)

lemma startedParts_append :
    startedParts (first ++ second) = startedParts first ++ startedParts second :=
  filterMap_append

lemma endedParts_append : endedParts (first ++ second) = endedParts first ++ endedParts second :=
  filterMap_append

lemma startedParts_data (partNum : JsString) (data : List BinaryString) :
    startedParts (data.map (Event.deliverPartData partNum)) = [] := by
  induction data with
  | nil => rfl
  | cons piece rest ih => exact ih

lemma endedParts_data (partNum : JsString) (data : List BinaryString) :
    endedParts (data.map (Event.deliverPartData partNum)) = [] := by
  induction data with
  | nil => rfl
  | cons piece rest ih => exact ih

lemma follow_data (part : OpenPart) (stack : List OpenPart) (data : List BinaryString) :
    (data.map (Event.deliverPartData part.partNum)).foldlM follow (part :: stack) =
      some (part :: stack) := by
  induction data with
  | nil => rfl
  | cons piece rest ih =>
    rw [map_cons, foldlM_cons, follow, if_pos rfl]
    exact ih

lemma follow_enclosed {start : PartStart} {inside : List Event}
    (admitted : follow stack (start.event partNum) = some (⟨partNum, 0⟩ :: stack))
    (followed : inside.foldlM follow (⟨partNum, 0⟩ :: stack) = some (⟨partNum, ended⟩ :: stack)) :
    (start.event partNum :: inside ++ [Event.endPart partNum]).foldlM follow stack =
      some (stack.modifyHead OpenPart.endOne) := by
  rw [cons_append, foldlM_cons, admitted]
  change (inside ++ [Event.endPart partNum]).foldlM follow _ = _
  rw [foldlM_append, followed]
  change (follow (⟨partNum, ended⟩ :: stack) (.endPart partNum)).bind some = _
  rw [follow, if_pos rfl]
  rfl

mutual

/-- A traversal counts as one more part that has ended. -/
theorem PartTree.events_nested (partNum : JsString) (tree : PartTree) (stack : List OpenPart)
    (admitted : ∀ start : PartStart,
      follow stack (start.event partNum) = some (⟨partNum, 0⟩ :: stack)) :
    (tree.events partNum).foldlM follow stack = some (stack.modifyHead OpenPart.endOne) := by
  cases tree with
  | leaf start data =>
    rw [PartTree.events]
    exact follow_enclosed (admitted start) (follow_data ⟨partNum, 0⟩ stack data)
  | multipart start parts =>
    rw [PartTree.events]
    exact follow_enclosed (admitted start) (partsEvents_nested partNum 0 parts stack)
  | message start body =>
    rw [PartTree.events]
    refine follow_enclosed (admitted start) (body.events_nested (bodyNum partNum) _ ?_)
    intro start
    exact if_pos (.inr ⟨rfl, rfl⟩)

lemma partsEvents_nested (partNum) (ended : Nat) (parts) (stack) :
    (partsEvents partNum (ended + 1) parts).foldlM follow (⟨partNum, ended⟩ :: stack) =
      some (⟨partNum, ended + parts.length⟩ :: stack) := by
  cases parts with
  | nil => rfl
  | cons part rest =>
    rw [partsEvents, foldlM_append, part.events_nested (childNum partNum (ended + 1))]
    · change (partsEvents partNum (ended + 1 + 1) rest).foldlM follow (⟨partNum, ended + 1⟩ :: stack)
        = _
      rw [partsEvents_nested partNum (ended + 1) rest stack, length_cons, Nat.add_assoc,
        Nat.add_comm 1]
    · intro start
      exact if_pos (.inl rfl)

end

inductive PartStep
  | child (count : Nat)
  | body
  deriving DecidableEq

/-- The part number at the end of a path. -/
def numberAt (partNum : JsString) : List PartStep → JsString
  | [] => partNum
  | .child count :: path => numberAt (childNum partNum count) path
  | .body :: path => numberAt (bodyNum partNum) path

mutual

def PartTree.paths : PartTree → List (List PartStep)
  | .leaf _ _ => [[]]
  | .multipart _ parts => [] :: partsPaths 1 parts
  | .message _ body => [] :: body.paths.map (PartStep.body :: ·)

def partsPaths (count : Nat) : List PartTree → List (List PartStep)
  | [] => []
  | part :: parts => part.paths.map (PartStep.child count :: ·) ++ partsPaths (count + 1) parts

end

mutual

lemma PartTree.started (partNum : JsString) (tree : PartTree) :
    startedParts (tree.events partNum) = tree.paths.map (numberAt partNum) := by
  cases tree with
  | leaf start data =>
    rw [PartTree.events, PartTree.paths, startedParts_append]
    change partNum :: startedParts (data.map _) ++ [] = [partNum]
    rw [startedParts_data]
    rfl
  | multipart start parts =>
    rw [PartTree.events, PartTree.paths, startedParts_append]
    change partNum :: startedParts (partsEvents partNum 1 parts) ++ [] =
      partNum :: (partsPaths 1 parts).map _
    rw [append_nil, partsEvents_started partNum 1 parts]
  | message start body =>
    rw [PartTree.events, PartTree.paths, startedParts_append]
    change partNum :: startedParts (body.events _) ++ [] =
      partNum :: (body.paths.map _).map _
    rw [append_nil, body.started (bodyNum partNum), map_map]
    rfl

lemma partsEvents_started (partNum : JsString) (count : Nat) (parts) :
    startedParts (partsEvents partNum count parts) =
      (partsPaths count parts).map (numberAt partNum) := by
  cases parts with
  | nil => rfl
  | cons part rest =>
    rw [partsEvents, partsPaths, startedParts_append, map_append,
      part.started (childNum partNum count), partsEvents_started partNum (count + 1) rest,
      map_map]
    rfl

end

mutual

lemma PartTree.ended_perm (partNum : JsString) (tree : PartTree) :
    (endedParts (tree.events partNum)).Perm (startedParts (tree.events partNum)) := by
  cases tree with
  | leaf start data =>
    rw [PartTree.events, startedParts_append, endedParts_append]
    change (endedParts (data.map _) ++ [partNum]).Perm (partNum :: startedParts (data.map _) ++ [])
    rw [startedParts_data, endedParts_data]
    exact List.Perm.refl _
  | multipart start parts =>
    rw [PartTree.events, startedParts_append, endedParts_append]
    change (endedParts (partsEvents partNum 1 parts) ++ [partNum]).Perm
      (partNum :: startedParts (partsEvents partNum 1 parts) ++ [])
    rw [append_nil]
    exact (perm_append_singleton _ _).trans ((partsEvents_ended partNum 1 parts).cons _)
  | message start body =>
    rw [PartTree.events, startedParts_append, endedParts_append]
    change (endedParts (body.events _) ++ [partNum]).Perm
      (partNum :: startedParts (body.events _) ++ [])
    rw [append_nil]
    exact (perm_append_singleton _ _).trans ((body.ended_perm (bodyNum partNum)).cons _)

lemma partsEvents_ended (partNum : JsString) (count : Nat) (parts) :
    (endedParts (partsEvents partNum count parts)).Perm
      (startedParts (partsEvents partNum count parts)) := by
  cases parts with
  | nil => exact List.Perm.refl _
  | cons part rest =>
    rw [partsEvents, startedParts_append, endedParts_append]
    exact (part.ended_perm (childNum partNum count)).append
      (partsEvents_ended partNum (count + 1) rest)

end

mutual

lemma PartTree.paths_nodup (tree : PartTree) : tree.paths.Nodup := by
  cases tree with
  | leaf start data => exact nodup_singleton _
  | multipart start parts =>
    rw [PartTree.paths, nodup_cons]
    refine ⟨?_, (partsPaths_nodup 1 parts).1⟩
    intro mem
    obtain ⟨count, path, same, -⟩ := (partsPaths_nodup 1 parts).2 [] mem
    cases same
  | message start body =>
    rw [PartTree.paths, nodup_cons]
    constructor
    · intro mem
      obtain ⟨path, -, same⟩ := mem_map.mp mem
      cases same
    · exact body.paths_nodup.map fun _ _ same => (List.cons.inj same).2

/-- The paths through the parts of a multipart begin with their own numbers. -/
theorem partsPaths_nodup (count : Nat) (parts : List PartTree) :
    (partsPaths count parts).Nodup ∧
      ∀ path ∈ partsPaths count parts,
        ∃ number rest, path = PartStep.child number :: rest ∧ count ≤ number := by
  cases parts with
  | nil =>
    refine ⟨nodup_nil, ?_⟩
    intro path mem
    cases mem
  | cons part later =>
    obtain ⟨nodup, numbered⟩ := partsPaths_nodup (count + 1) later
    rw [partsPaths]
    constructor
    · apply List.Nodup.append
      · exact part.paths_nodup.map fun _ _ same => (List.cons.inj same).2
      · exact nodup
      · intro path here there
        obtain ⟨rest, -, rfl⟩ := mem_map.mp here
        obtain ⟨number, other, same, above⟩ := numbered _ there
        cases same
        exact absurd above (Nat.not_succ_le_self count)
    · intro path mem
      rcases mem_append.mp mem with here | there
      · obtain ⟨rest, -, rfl⟩ := mem_map.mp here
        exact ⟨count, rest, rfl, le_refl _⟩
      · obtain ⟨number, rest, same, above⟩ := numbered _ there
        exact ⟨number, rest, same, Nat.le_of_succ_le above⟩

end

def isDigit (c : UInt16) : Bool := 0x30 ≤ c && c ≤ 0x39

lemma digit_bounds {number : Nat} (mem : digit ∈ Nat.toDigits 10 number) :
    0x30 ≤ digit.toNat ∧ digit.toNat ≤ 0x39 := by
  have bounds := Nat.isDigit_of_mem_toDigits (by omega) (le_refl 10) mem
  rw [Char.isDigit, Bool.and_eq_true, decide_eq_true_eq, decide_eq_true_eq] at bounds
  exact ⟨UInt32.le_iff_toNat_le.mp bounds.1, UInt32.le_iff_toNat_le.mp bounds.2⟩

lemma decimal_digits {number : Nat} (mem : c ∈ decimal number) : isDigit c = true := by
  obtain ⟨digit, ofNumber, rfl⟩ := mem_map.mp mem
  obtain ⟨low, high⟩ := digit_bounds ofNumber
  have same : (UInt16.ofNat digit.toNat).toNat = digit.toNat :=
    UInt16.toNat_ofNat_of_lt' (by change _ < 65536; omega)
  rw [isDigit, Bool.and_eq_true, decide_eq_true_eq, decide_eq_true_eq, UInt16.le_iff_toNat_le,
    UInt16.le_iff_toNat_le, same]
  exact ⟨low, high⟩

lemma decimal_ne_nil (number : Nat) : decimal number ≠ [] := by
  intro nothing
  exact Nat.toDigits_ne_nil (map_eq_nil_iff.mp nothing)

lemma decimal_injective : Function.Injective decimal := by
  intro first second same
  have read (number : Nat) : (decimal number).map (fun c => Char.ofNat c.toNat) =
      Nat.toDigits 10 number := by
    rw [decimal, map_map]
    conv_rhs => rw [← map_id (Nat.toDigits 10 number)]
    apply map_congr_left
    intro digit mem
    have high := (digit_bounds mem).2
    change Char.ofNat (UInt16.ofNat digit.toNat).toNat = digit
    rw [UInt16.toNat_ofNat_of_lt' (by change _ < 65536; omega), Char.ofNat_toNat]
  have digits : Nat.toDigits 10 first = Nat.toDigits 10 second := by
    rw [← read first, same, read second]
  rw [← Nat.ofDigitChars_ten_toDigits (n := first), digits, Nat.ofDigitChars_ten_toDigits]

/-- What a path adds to the number of a part that is not the whole message. -/
def pathText : List PartStep → JsString
  | [] => []
  | .child count :: path => js "." ++ decimal count ++ pathText path
  | .body :: path => js "$" ++ pathText path

lemma numberAt_eq (nonempty : partNum ≠ []) (path) :
    numberAt partNum path = partNum ++ pathText path := by
  induction path generalizing partNum with
  | nil => exact (append_nil _).symm
  | cons step path ih =>
    cases step with
    | child count =>
      have longer : childNum partNum count ≠ [] := by
        intro nothing
        exact decimal_ne_nil count (append_eq_nil_iff.mp nothing).2
      rw [numberAt, ih longer, childNum, partPrefix, if_pos nonempty, pathText]
      simp only [append_assoc]
    | body =>
      have longer : bodyNum partNum ≠ [] := append_ne_nil_of_left_ne_nil nonempty _
      rw [numberAt, ih longer, bodyNum, pathText, append_assoc]

/-- Numbers that no digit follows can be told apart. -/
theorem digits_append_inj {first second later other : JsString}
    (ofFirst : ∀ c ∈ first, isDigit c) (ofSecond : ∀ c ∈ second, isDigit c)
    (ofLater : ∀ c ∈ later.head?, ¬ isDigit c) (ofOther : ∀ c ∈ other.head?, ¬ isDigit c)
    (same : first ++ later = second ++ other) : first = second ∧ later = other := by
  induction first generalizing second with
  | nil =>
    cases second with
    | nil => exact ⟨rfl, same⟩
    | cons c rest =>
      rw [nil_append] at same
      rw [same] at ofLater
      exact absurd (ofSecond c mem_cons_self) (ofLater c rfl)
  | cons c rest ih =>
    cases second with
    | nil =>
      rw [nil_append] at same
      rw [← same] at ofOther
      exact absurd (ofFirst c mem_cons_self) (ofOther c rfl)
    | cons d others =>
      obtain ⟨head, tail⟩ := List.cons.inj same
      obtain ⟨rests, laters⟩ := ih (fun c mem => ofFirst c (mem_cons_of_mem _ mem))
        (fun c mem => ofSecond c (mem_cons_of_mem _ mem)) tail
      exact ⟨by rw [head, rests], laters⟩

lemma pathText_head (path) : ∀ c ∈ (pathText path).head?, ¬ isDigit c := by
  intro c head
  cases path with
  | nil => cases head
  | cons step path =>
    cases step with
    | child count | body =>
      cases head
      decide

lemma pathText_injective : Function.Injective pathText := by
  intro first second same
  induction first generalizing second with
  | nil =>
    cases second with
    | nil => rfl
    | cons step path =>
      cases step with
      | child count => cases same
      | body => cases same
  | cons step path ih =>
    cases second with
    | nil =>
      cases step with
      | child count => cases same
      | body => cases same
    | cons other others =>
      cases step with
      | child count =>
        cases other with
        | child number =>
          have texts : decimal count ++ pathText path = decimal number ++ pathText others :=
            (List.cons.inj same).2
          obtain ⟨numbers, rest⟩ := digits_append_inj (fun _ => decimal_digits)
            (fun _ => decimal_digits) (pathText_head path) (pathText_head others) texts
          rw [decimal_injective numbers, ih rest]
        | body => exact absurd (List.cons.inj same).1 (by decide)
      | body =>
        cases other with
        | child number => exact absurd (List.cons.inj same).1 (by decide)
        | body => rw [ih (List.cons.inj same).2]

/-- Different paths through a message lead to different part numbers. -/
theorem numberAt_injective : Function.Injective (numberAt []) := by
  have ofChild (count : Nat) (path : List PartStep) :
      numberAt [] (.child count :: path) = decimal count ++ pathText path :=
    numberAt_eq (decimal_ne_nil count) path
  have ofBody (path : List PartStep) : numberAt [] (.body :: path) = js "$" ++ pathText path :=
    numberAt_eq (cons_ne_nil _ _) path
  have childHead (count : Nat) (path : List PartStep) :
      ∃ c rest, numberAt [] (.child count :: path) = c :: rest ∧ isDigit c := by
    rw [ofChild]
    cases digits : decimal count with
    | nil => exact absurd digits (decimal_ne_nil count)
    | cons c rest => exact ⟨c, _, rfl, decimal_digits (digits ▸ mem_cons_self)⟩
  intro first second same
  match first, second with
  | [], [] => rfl
  | [], .child count :: path =>
    obtain ⟨c, rest, text, -⟩ := childHead count path
    rw [text] at same
    cases same
  | [], .body :: path =>
    rw [ofBody] at same
    cases same
  | .child count :: path, [] =>
    obtain ⟨c, rest, text, -⟩ := childHead count path
    rw [text] at same
    cases same
  | .body :: path, [] =>
    rw [ofBody] at same
    cases same
  | .child count :: path, .child number :: other =>
    rw [ofChild, ofChild] at same
    obtain ⟨numbers, rest⟩ := digits_append_inj (fun _ => decimal_digits)
      (fun _ => decimal_digits) (pathText_head path) (pathText_head other) same
    rw [decimal_injective numbers, pathText_injective rest]
  | .child count :: path, .body :: other =>
    obtain ⟨c, rest, text, digit⟩ := childHead count path
    rw [text, ofBody] at same
    rw [(List.cons.inj same).1] at digit
    exact absurd digit (by decide)
  | .body :: path, .child count :: other =>
    obtain ⟨c, rest, text, digit⟩ := childHead count other
    rw [text, ofBody] at same
    rw [← (List.cons.inj same).1] at digit
    exact absurd digit (by decide)
  | .body :: path, .body :: other =>
    rw [ofBody, ofBody] at same
    rw [pathText_injective (append_cancel_left same)]

lemma PartTree.wellNested (tree : PartTree) :
    WellNested (.startMessage :: tree.events [] ++ [.endMessage]) := by
  have started : startedParts (.startMessage :: tree.events [] ++ [.endMessage]) =
      startedParts (tree.events []) := by
    rw [startedParts_append]
    exact append_nil _
  have ended : endedParts (.startMessage :: tree.events [] ++ [.endMessage]) =
      endedParts (tree.events []) := by
    rw [endedParts_append]
    exact append_nil _
  constructor
  · rw [started, tree.started]
    exact tree.paths_nodup.map numberAt_injective
  · intro partNum
    rw [started, ended]
    exact (tree.ended_perm []).count_eq partNum
  · have nested := tree.events_nested [] [] fun _ => rfl
    rw [cons_append, foldlM_cons]
    change (tree.events [] ++ [Event.endMessage]).foldlM follow [] = some []
    rw [foldlM_append, nested]
    rfl

end CommCentral.Jsmime
