import CommCentral.Mime.Lines
import CommCentral.Mime.QPDecode
import Mathlib.Order.Basic
import Mathlib.Tactic.SplitIfs

/-! `QPEncoder::Write`: quoted-printable text is made one line at a time in
`out_buffer`; the column is kept between calls, the line buffer and the flag for
trailing whitespace are not. Every access to a buffer is checked, and `none` is an
access out of range. The callback succeeds. -/

namespace CommCentral.Mime

open Lib List Option

/-- The line being written: `mCurrentColumn`, `out_buffer` up to `out`, `white`, and
what the callback was given. -/
structure QPLine where
  column : Nat
  out : List UInt8
  white : Bool
  calls : List (List UInt8)

def hexdigits : List UInt8 :=
  ['0', '1', '2', '3', '4', '5', '6', '7', '8', '9', 'A', 'B', 'C', 'D', 'E', 'F'].map
    Char.toUInt8

/-- A byte written as `=` and two digits. -/
def pushHex (out : List UInt8) (c : UInt8) : Option (List UInt8) := do
  let high ← hexdigits[c.toNat / 16]?
  let low ← hexdigits[c.toNat % 16]?
  pushAll 80 out ['='.toUInt8, high, low]

/-- Whitespace at the end of a line: back up and write its code. -/
def backPatch (out : List UInt8) : Option (List UInt8) := do
  let whitespaceChar ← out.getLast?
  pushHex out.dropLast whitespaceChar

/-- The line is handed to the callback, and the next one starts. -/
def QPLine.flush (line : QPLine) (out : List UInt8) : QPLine :=
  { column := 0, out := [], white := false, calls := line.calls ++ [out] }

def isNewline (c : UInt8) : Bool := c == 0x0D || c == 0x0A

/-- Printable characters except for `=`. -/
def isPrintable (c : UInt8) : Bool := (33 ≤ c && c ≤ 60) || (62 ≤ c && c ≤ 126)

def isBlank (c : UInt8) : Bool := c == 0x20 || c == 0x09

/-- The bytes after an `F` spell the rest of `"From "`, as far as there are any. -/
def mayBeFrom (rest : List UInt8) : Bool :=
  (rest[0]?.all (· == 'r'.toUInt8)) && (rest[1]?.all (· == 'o'.toUInt8)) &&
    (rest[2]?.all (· == 'm'.toUInt8)) && (rest[3]?.all (· == 0x20))

/-- A newline swallows the second byte of a CRLF. -/
def afterNewline (c : UInt8) (rest : List UInt8) : List UInt8 :=
  if c = 0x0D ∧ rest.head? = some 0x0A then rest.tail else rest

/-- Whitespace at the end of the line is replaced, if there is any. -/
def QPLine.patched (line : QPLine) : Option (List UInt8) :=
  if line.white then backPatch line.out else some line.out

/-- The branch of the loop for a newline. -/
def writeNewline (line : QPLine) : Option QPLine := do
  let out ← line.patched
  let out ← pushAll 80 out crlf
  some (line.flush out)

/-- The byte has to be written as hex: it is not printable, or the start of the
line is not safe. -/
def needsHex (column : Nat) (c : UInt8) (rest : List UInt8) : Bool :=
  (column == 0 && c == '.'.toUInt8) || (column == 0 && c == 'F'.toUInt8 && mayBeFrom rest) ||
    !(isPrintable c || isBlank c)

/-- The other branches: the byte as hex, as it is, or as whitespace. -/
def writeByte (c : UInt8) (rest : List UInt8) (line : QPLine) : Option QPLine :=
  if needsHex line.column c rest then
    (pushHex line.out c).map fun out => { line with out, white := false, column := line.column + 3 }
  else
    (push 80 line.out c).map fun out =>
      { line with out, white := isBlank c, column := line.column + 1 }

/-- The soft line break for readability. A space that follows is written in front
of it. -/
def softBreak (rest : List UInt8) (line : QPLine) : Option (List UInt8 × QPLine) := do
  let out ← push 80 line.out '='.toUInt8
  if rest.head? = some 0x20 then
    let out ← pushAll 80 out ['2'.toUInt8, '0'.toUInt8]
    let out ← pushAll 80 out crlf
    some (rest.tail, line.flush out)
  else
    let out ← pushAll 80 out crlf
    some (rest, line.flush out)

/-- The body of the loop at one byte; the result has the bytes that are left. -/
def writeStep (c : UInt8) (rest : List UInt8) (line : QPLine) :
    Option (List UInt8 × QPLine) :=
  if isNewline c then (writeNewline line).map fun line => (afterNewline c rest, line)
  else do
    let line ← writeByte c rest line
    if line.column ≥ 73 then softBreak rest line else some (rest, line)

/-- The loop `for (; in < end; in++)`. -/
def writeLoop : Nat → List UInt8 → QPLine → Option QPLine
  | _, [], line => some line
  | 0, _ :: _, _ => none
  | fuel + 1, c :: rest, line => do
    let (rest, line) ← writeStep c rest line
    writeLoop fuel rest line

/-- `QPEncoder::Write`: the column it leaves, and what the callback was given. -/
def qpWrite (column : Nat) (buffer : List UInt8) : Option (Nat × List (List UInt8)) := do
  let line ← writeLoop buffer.length buffer { column, out := [], white := false, calls := [] }
  some (line.column, if line.out ≠ [] then line.calls ++ [line.out] else line.calls)

/-- Several calls of `Write`, one after the other. -/
def qpWriteAll (column : Nat) : List (List UInt8) → Option (Nat × List (List UInt8))
  | [] => some (column, [])
  | buffer :: buffers => do
    let (column, calls) ← qpWrite column buffer
    let (column, more) ← qpWriteAll column buffers
    some (column, calls ++ more)

/-! ### What is written

What `QPEncoder` writes, read off the bytes: a walk over the input that keeps the column. The
encoder writes units for what the walk finds, and stays inside `out_buffer`. -/

/-- A byte, a line end, or a space that a soft line break is put behind as a line
end of the text. -/
inductive QPItem where
  | byte (c : UInt8)
  | lineEnd
  | splitSpace
  deriving DecidableEq, Repr

namespace QPItem

/-- What the item is in the input, newlines made CRLF. -/
def plain : QPItem → List UInt8
  | byte c => [c]
  | lineEnd => crlf
  | splitSpace => [0x20]

/-- What a decoder makes of what is written for the item. -/
def decoded : QPItem → List UInt8
  | byte c => [c]
  | lineEnd => crlf
  | splitSpace => 0x20 :: crlf

end QPItem

def byteWidth (column : Nat) (c : UInt8) (rest : List UInt8) : Nat :=
  if needsHex column c rest then 3 else 1

/-- One byte of the walk: what it is, the column after it, and whether it takes the
next byte with it. -/
def walkStep (column : Nat) (c : UInt8) (rest : List UInt8) : List QPItem × Nat × Bool :=
  if isNewline c then ([.lineEnd], 0, decide (c = 0x0D ∧ rest.head? = some 0x0A))
  else if column + byteWidth column c rest ≥ 73 then
    if rest.head? = some 0x20 then ([.byte c, .splitSpace], 0, true) else ([.byte c], 0, false)
  else ([.byte c], column + byteWidth column c rest, false)

/-- The walk over the bytes of one call; the flag says that the first byte is
taken already. -/
def walk : Nat → Bool → List UInt8 → List QPItem × Nat
  | column, _, [] => ([], column)
  | column, true, _ :: rest => walk column false rest
  | column, false, c :: rest =>
    let (items, column, taken) := walkStep column c rest
    let (more, column) := walk column taken rest
    (items ++ more, column)

/-- The walk over several calls. -/
def walkAll : Nat → List (List UInt8) → List QPItem
  | _, [] => []
  | column, chunk :: chunks =>
    (walk column false chunk).1 ++ walkAll (walk column false chunk).2 chunks

/-- Each CR, LF or CRLF becomes CRLF. -/
def normalizeNewlines : List UInt8 → List UInt8
  | [] => []
  | [c] => if isNewline c then crlf else [c]
  | c :: d :: rest =>
    if c = 0x0D ∧ d = 0x0A then crlf ++ normalizeNewlines rest
    else (if isNewline c then crlf else [c]) ++ normalizeNewlines (d :: rest)

lemma normalizeNewlines_cons (c : UInt8) (rest) :
    normalizeNewlines (c :: rest) =
      if isNewline c then crlf ++ normalizeNewlines (afterNewline c rest)
      else c :: normalizeNewlines rest := by
  cases rest with
  | nil =>
    rw [normalizeNewlines, afterNewline]
    split
    · rename_i newline
      simp [normalizeNewlines, newline]
    · rename_i notNewline
      simp [normalizeNewlines, notNewline]
  | cons d rest =>
    rw [normalizeNewlines, afterNewline]
    by_cases both : c = 0x0D ∧ d = 0x0A
    · obtain ⟨rfl, rfl⟩ := both
      have newline : isNewline 0x0D = true := by decide
      simp [newline]
    · have notBoth : ¬ (c = 0x0D ∧ (d :: rest).head? = some 0x0A) := by
        simpa using both
      rw [if_neg both, if_neg notBoth]
      split
      · rfl
      · rfl

/-- The bytes left after a step of the walk. -/
def afterStep (taken : Bool) (rest : List UInt8) : List UInt8 := if taken then rest.tail else rest

variable (column : Nat)

lemma walk_taken (taken : Bool) (rest) :
    walk column taken rest = walk column false (afterStep taken rest) := by
  cases taken with
  | false => rfl
  | true => cases rest <;> rfl

lemma walk_cons (c : UInt8) (rest) :
    walk column false (c :: rest) =
      ((walkStep column c rest).1 ++
          (walk (walkStep column c rest).2.1 false
            (afterStep (walkStep column c rest).2.2 rest)).1,
        (walk (walkStep column c rest).2.1 false
            (afterStep (walkStep column c rest).2.2 rest)).2) := by
  have taken := walk_taken (walkStep column c rest).2.1 (walkStep column c rest).2.2 rest
  rw [← taken]
  rfl

lemma afterStep_newline (rest) (newline : isNewline c = true) :
    afterStep (walkStep column c rest).2.2 rest = afterNewline c rest := by
  rw [walkStep, if_pos newline, afterNewline, afterStep]
  simp only [decide_eq_true_iff]

lemma afterStep_length (taken : Bool) (rest) : (afterStep taken rest).length ≤ rest.length := by
  unfold afterStep
  split
  · rw [length_tail]
    exact Nat.sub_le _ _
  · exact Nat.le_refl _

lemma walk_plain (bytes) :
    (walk column false bytes).1.flatMap QPItem.plain = normalizeNewlines bytes := by
  induction length : bytes.length using Nat.strongRecOn generalizing column bytes with
  | ind n ih =>
    cases bytes with
    | nil => rfl
    | cons c rest =>
      have shorter := afterStep_length (walkStep column c rest).2.2 rest
      rw [length_cons] at length
      have later := ih _ (by omega) (walkStep column c rest).2.1
        (afterStep (walkStep column c rest).2.2 rest) rfl
      rw [walk_cons, flatMap_append, later, normalizeNewlines_cons]
      by_cases newline : isNewline c = true
      · rw [afterStep_newline column rest newline, if_pos newline, walkStep, if_pos newline]
        rfl
      · rw [if_neg newline, walkStep, if_neg newline]
        split
        · split
          · rename_i space
            obtain ⟨others, rfl⟩ : ∃ others, rest = 0x20 :: others := by
              cases rest with
              | nil => cases space
              | cons d others => exact ⟨others, by rw [Option.some.inj space]⟩
            have notNewline : ¬ isNewline 0x20 = true := by decide
            rw [normalizeNewlines_cons, if_neg notNewline]
            rfl
          · rfl
        · rfl

/-- A line in the making. `before` is what earlier calls wrote, the units are those
of the whole text, and lines are no longer than the limit. -/
structure QPLine.Valid (limit : Nat) (before : List UInt8) (line : QPLine)
    (units : List QPUnit) : Prop where
  text : before ++ line.calls.flatten ++ line.out = unitsText units
  shown : OnLine limit (unitsText units) line.column
  onLine : line.out.length ≤ line.column
  plain : ∀ unit ∈ units, unit.Plain
  blank : line.white = true → ∃ front out c, units = front ++ [.raw c] ∧
    line.out = out ++ [c] ∧ isBlank c = true

lemma unitsText_append (first second) :
    unitsText (first ++ second) = unitsText first ++ unitsText second :=
  flatMap_append

lemma unitsValue_append (treatNullAsSpace : Bool) (first second) :
    unitsValue treatNullAsSpace (first ++ second) =
      unitsValue treatNullAsSpace first ++ unitsValue treatNullAsSpace second :=
  flatMap_append

lemma hexdigits_get (n : Nat) (small : n < 16) : hexdigits[n]? = some (hexDigit n) := by
  revert n
  decide

lemma hexDigit_unbroken (n : Nat) (small : n < 16) : hexDigit n ∉ crlf := by
  revert n
  decide

lemma pushHex_spec (c : UInt8) (room : out.length + 3 ≤ 80) :
    pushHex out c = some (out ++ (QPUnit.hex c).text) := by
  have small : c.toNat < 256 := c.toNat_lt
  rw [pushHex, hexdigits_get _ (by omega), hexdigits_get _ (by omega)]
  exact pushAll_of_le room

lemma hex_unbroken (c : UInt8) : Unbroken (QPUnit.hex c).text := by
  have small : c.toNat < 256 := c.toNat_lt
  intro d mem
  have equals : '='.toUInt8 ∉ crlf := by decide
  have cases : d = '='.toUInt8 ∨ d = hexDigit (c.toNat / 16) ∨ d = hexDigit (c.toNat % 16) := by
    simpa [QPUnit.text] using mem
  obtain rfl | rfl | rfl := cases
  · exact equals
  · exact hexDigit_unbroken _ (by omega)
  · exact hexDigit_unbroken _ (by omega)

lemma unhexed_plain (c : UInt8) (rest : List UInt8) (kept : ¬ needsHex column c rest = true) :
    (QPUnit.raw c).Plain ∧ Unbroken [c] := by
  have shown : isPrintable c = true ∨ isBlank c = true := by
    unfold needsHex at kept
    simp only [Bool.or_eq_true, Bool.not_eq_true', not_or, Bool.not_eq_false] at kept
    exact kept.2
  refine ⟨⟨?_, ?_⟩, ?_⟩
  · intro same
    rw [same] at shown
    exact absurd shown (by decide)
  · intro same
    rw [same] at shown
    exact absurd shown (by decide)
  · intro d mem isBreak
    rw [mem_singleton.mp mem] at isBreak
    obtain same | same : c = 0x0D ∨ c = 0x0A := by simpa [crlf] using isBreak
    · rw [same] at shown
      exact absurd shown (by decide)
    · rw [same] at shown
      exact absurd shown (by decide)

section
variable {line : QPLine}

section

variable (valid : line.Valid limit before units)
include valid

lemma QPLine.Valid.append (plain : unit.Plain) (unbroken : Unbroken unit.text) {white : Bool}
    (blank : white = true → ∃ c, unit = .raw c ∧ isBlank c = true) :
    QPLine.Valid limit before
      { line with
        out := line.out ++ unit.text, white := white, column := line.column + unit.text.length }
      (units ++ [unit]) := by
  have single : unitsText [unit] = unit.text := append_nil _
  refine ⟨?_, ?_, ?_, ?_, ?_⟩
  · rw [unitsText_append, ← valid.text, single, append_assoc, append_assoc,
      append_assoc]
  · rw [unitsText_append, single]
    exact valid.shown.append unbroken
  · change (line.out ++ unit.text).length ≤ line.column + unit.text.length
    rw [length_append]
    exact Nat.add_le_add_right valid.onLine _
  · intro other mem
    obtain old | new := mem_append.mp mem
    · exact valid.plain other old
    · rw [mem_singleton.mp new]
      exact plain
  · intro isWhite
    obtain ⟨c, rfl, isBlank⟩ := blank isWhite
    exact ⟨units, line.out, c, rfl, rfl, isBlank⟩

lemma writeByte_spec (short : line.column ≤ 72) (c : UInt8) (rest : List UInt8) :
    ∃ line' unit, writeByte c rest line = some line' ∧
      line'.Valid limit before (units ++ [unit]) ∧
      line'.column = line.column + byteWidth line.column c rest ∧ unit.value false = [c] := by
  have onLine := valid.onLine
  unfold writeByte byteWidth
  by_cases hexed : needsHex line.column c rest = true
  · rw [if_pos hexed, if_pos hexed, pushHex_spec c (by omega)]
    refine ⟨_, .hex c, rfl, ?_, rfl, ?_⟩
    · have plain : (QPUnit.hex c).Plain := trivial
      exact valid.append plain (hex_unbroken c) Bool.noConfusion
    · simp [QPUnit.value, QPUnit.shownByte]
  · obtain ⟨plain, unbroken⟩ := unhexed_plain line.column c rest hexed
    rw [if_neg hexed, if_neg hexed, push_of_lt (by omega)]
    exact ⟨_, .raw c, rfl, valid.append plain unbroken fun white => ⟨c, rfl, white⟩, rfl, rfl⟩

/-- The line is handed out with a line end, hard or soft, after `more`. -/
theorem QPLine.Valid.flush (plain : ∀ unit ∈ more, unit.Plain)
    (text : unitsText more = front ++ crlf) (unbroken : Unbroken front)
    (fits : line.column + front.length ≤ limit) :
    QPLine.Valid limit before (line.flush (line.out ++ front ++ crlf)) (units ++ more) := by
  refine ⟨?_, ?_, Nat.zero_le 0, ?_, Bool.noConfusion⟩
  · change before ++ (line.calls ++ [line.out ++ front ++ crlf]).flatten ++ [] = _
    rw [unitsText_append, ← valid.text, text, flatten_append, flatten_singleton,
      append_nil]
    simp only [append_assoc]
  · rw [unitsText_append, text, ← append_assoc]
    exact (valid.shown.append unbroken).lineEnd fits
  · intro unit mem
    obtain old | new := mem_append.mp mem
    · exact valid.plain unit old
    · exact plain unit new

lemma softBreak_spec (short : line.column ≤ 75) (rest) (wide : 76 ≤ limit)
    (wider : rest.head? = some 0x20 → 78 ≤ limit) :
    ∃ line' more, softBreak rest line =
        some (afterStep (decide (rest.head? = some 0x20)) rest, line') ∧
      line'.Valid limit before (units ++ more) ∧ line'.column = 0 ∧
      unitsValue false more = if rest.head? = some 0x20 then 0x20 :: crlf else [] := by
  have onLine := valid.onLine
  unfold softBreak
  rw [push_of_lt (by omega), bind_eq_bind, bind_some]
  by_cases space : rest.head? = some 0x20
  · have limitWide := wider space
    have digits : unitsText [.hex 0x20, .raw 0x0D, .raw 0x0A] =
        ['='.toUInt8, '2'.toUInt8, '0'.toUInt8] ++ crlf := by decide
    have unbroken : Unbroken ['='.toUInt8, '2'.toUInt8, '0'.toUInt8] := by decide
    have plain : ∀ unit ∈ [QPUnit.hex 0x20, .raw 0x0D, .raw 0x0A], unit.Plain := by
      decide
    have next := valid.flush plain digits unbroken (by change line.column + 3 ≤ limit; omega)
    refine ⟨_, _, ?_, next, rfl, by rw [if_pos space]; rfl⟩
    rw [if_pos space, pushAll_of_le, bind_some, pushAll_of_le]
    · simp only [bind_some, space, afterStep, decide_true, if_true, append_assoc]
      rfl
    · simp only [length_append, length_cons, length_nil, crlf]
      omega
    · simp only [length_append, length_cons, length_nil]
      omega
  · have text : unitsText [.soft] = ['='.toUInt8] ++ crlf := rfl
    have unbroken : Unbroken ['='.toUInt8] := by decide
    have plain : ∀ unit ∈ [QPUnit.soft], unit.Plain := by decide
    have next := valid.flush plain text unbroken (by change line.column + 1 ≤ limit; omega)
    refine ⟨_, _, ?_, next, rfl, by rw [if_neg space]; rfl⟩
    rw [if_neg space, pushAll_of_le]
    · simp only [bind_some, space, afterStep, decide_false,
        Bool.false_eq_true, if_false, append_assoc]
    · simp only [length_append, length_cons, length_nil, crlf]
      omega

/-- Backing up over the blank at the end of the line. -/
theorem QPLine.Valid.back {out : List UInt8} (lastUnit : units = front ++ [.raw c])
    (lastByte : line.out = out ++ [c]) (positive : 0 < line.column) :
    QPLine.Valid limit before { line with out := out, white := false, column := line.column - 1 }
      front := by
  have text := valid.text
  have textEq : unitsText units = unitsText front ++ [c] := by
    rw [lastUnit, unitsText_append]
    rfl
  rw [textEq, lastByte, ← append_assoc] at text
  have shown := valid.shown
  have column : line.column = line.column - 1 + 1 := by omega
  rw [textEq, column] at shown
  refine ⟨(append_inj' text rfl).1, shown.back, ?_, ?_, Bool.noConfusion⟩
  · have onLine := valid.onLine
    rw [lastByte, length_append, length_singleton] at onLine
    change out.length ≤ line.column - 1
    omega
  · intro unit mem
    apply valid.plain
    rw [lastUnit]
    exact mem_append_left _ mem

lemma writeNewline_spec (short : line.column ≤ 72) (wide : 76 ≤ limit) :
    ∃ line' units', writeNewline line = some line' ∧ line'.Valid limit before units' ∧
      line'.column = 0 ∧ unitsValue false units' = unitsValue false units ++ crlf := by
  have onLine := valid.onLine
  have newline : ∀ unit ∈ [QPUnit.raw 0x0D, .raw 0x0A], unit.Plain := by decide
  unfold writeNewline
  by_cases white : line.white = true
  · obtain ⟨front, out, c, lastUnit, lastByte, isBlank⟩ := valid.blank white
    have outLength : line.out.length = out.length + 1 := by
      rw [lastByte, length_append]
      rfl
    have patched : line.patched = some (out ++ (QPUnit.hex c).text) := by
      rw [QPLine.patched, if_pos white, backPatch, lastByte, getLast?_concat, dropLast_concat]
      exact pushHex_spec c (by omega)
    have plain : ∀ unit ∈ [QPUnit.hex c, .raw 0x0D, .raw 0x0A], unit.Plain := by
      intro unit mem
      obtain rfl | rest := mem_cons.mp mem
      · exact trivial
      · exact newline unit rest
    have fits : line.column - 1 + (QPUnit.hex c).text.length ≤ limit := by
      change line.column - 1 + 3 ≤ limit
      omega
    have next := (valid.back lastUnit lastByte (by omega)).flush plain rfl (hex_unbroken c) fits
    refine ⟨_, _, ?_, next, rfl, ?_⟩
    · rw [patched, bind_eq_bind, bind_some, pushAll_of_le]
      · rfl
      · rw [length_append]
        change out.length + 3 + 2 ≤ 80
        omega
    · rw [lastUnit, unitsValue_append, unitsValue_append, append_assoc]
      simp [unitsValue, QPUnit.value, QPUnit.shownByte, crlf]
  · have text : unitsText [.raw 0x0D, .raw 0x0A] = [] ++ crlf := rfl
    have next := valid.flush newline text Unbroken.nil (by change line.column ≤ limit; omega)
    refine ⟨_, _, ?_, next, rfl, ?_⟩
    · rw [QPLine.patched, if_neg white, bind_eq_bind, bind_some, pushAll_of_le]
      · rw [append_nil]
        rfl
      · change line.out.length + 2 ≤ 80
        omega
    · rw [unitsValue_append]
      rfl

/-- What the loop does at a byte is what the walk finds there. -/
theorem writeStep_spec (short : line.column ≤ 72) (wide : 76 ≤ limit) (c : UInt8)
    (rest : List UInt8) (wider : .splitSpace ∈ (walkStep line.column c rest).1 → 78 ≤ limit) :
    ∃ line' units', writeStep c rest line =
        some (afterStep (walkStep line.column c rest).2.2 rest, line') ∧
      line'.Valid limit before units' ∧ line'.column = (walkStep line.column c rest).2.1 ∧
      line'.column ≤ 72 ∧
      unitsValue false units' =
        unitsValue false units ++ (walkStep line.column c rest).1.flatMap QPItem.decoded := by
  by_cases newline : isNewline c = true
  · obtain ⟨line', units', written, valid', column, values⟩ := writeNewline_spec valid short wide
    refine ⟨line', units', ?_, valid', ?_, by omega, ?_⟩
    · rw [afterStep_newline _ _ newline, writeStep, if_pos newline, written]
      rfl
    · rw [walkStep, if_pos newline, column]
    · rw [walkStep, if_pos newline, values]
      rfl
  · obtain ⟨next, unit, written, valid', column, value⟩ := writeByte_spec valid short c rest
    have few : byteWidth line.column c rest ≤ 3 := by
      unfold byteWidth
      split <;> omega
    have values : unitsValue false (units ++ [unit]) = unitsValue false units ++ [c] := by
      rw [unitsValue_append]
      exact congrArg (unitsValue false units ++ ·) ((append_nil _).trans value)
    rw [writeStep, if_neg newline, written, bind_eq_bind, bind_some]
    by_cases full : line.column + byteWidth line.column c rest ≥ 73
    · have stepEq : walkStep line.column c rest =
          if rest.head? = some 0x20 then ([.byte c, .splitSpace], 0, true)
          else ([.byte c], 0, false) := by
        rw [walkStep, if_neg newline, if_pos full]
      rw [stepEq] at wider ⊢
      have spaceWide : rest.head? = some 0x20 → 78 ≤ limit := by
        intro space
        apply wider
        rw [if_pos space]
        exact mem_cons_of_mem _ (mem_cons_self ..)
      obtain ⟨last, more, broken, lastValid, lastColumn, moreValues⟩ :=
        softBreak_spec valid' (by omega) rest wide spaceWide
      rw [if_pos (by omega), broken]
      refine ⟨last, units ++ [unit] ++ more, ?_, lastValid, ?_, by omega, ?_⟩
      · split
        · rename_i space
          simp [space]
        · rename_i noSpace
          simp [noSpace]
      · rw [lastColumn]
        split <;> rfl
      · rw [unitsValue_append, values, moreValues]
        split
        · simp [QPItem.decoded]
        · simp [QPItem.decoded]
    · have stepEq : walkStep line.column c rest =
          ([.byte c], line.column + byteWidth line.column c rest, false) := by
        rw [walkStep, if_neg newline, if_neg full]
      rw [stepEq, if_neg (by omega)]
      exact ⟨next, units ++ [unit], rfl, valid', column, by omega, by rw [values]; rfl⟩

end

lemma writeLoop_spec {bytes : List UInt8} (enough : bytes.length ≤ fuel)
    (valid : line.Valid limit before units) (short : line.column ≤ 72) (wide : 76 ≤ limit)
    (wider : .splitSpace ∈ (walk line.column false bytes).1 → 78 ≤ limit) :
    ∃ line' units', writeLoop fuel bytes line = some line' ∧ line'.Valid limit before units' ∧
      line'.column = (walk line.column false bytes).2 ∧ line'.column ≤ 72 ∧
      unitsValue false units' =
        unitsValue false units ++ (walk line.column false bytes).1.flatMap QPItem.decoded := by
  induction fuel generalizing bytes line units with
  | zero =>
    have nothing : bytes = [] := eq_nil_of_length_eq_zero (Nat.le_zero.mp enough)
    subst nothing
    exact ⟨line, units, rfl, valid, rfl, short, (append_nil _).symm⟩
  | succ fuel ih =>
    cases bytes with
    | nil => exact ⟨line, units, rfl, valid, rfl, short, (append_nil _).symm⟩
    | cons c rest =>
      rw [walk_cons] at wider ⊢
      obtain ⟨next, nextUnits, stepped, nextValid, column, nextShort, values⟩ :=
        writeStep_spec valid short wide c rest fun mem => wider (mem_append_left _ mem)
      have shorter := afterStep_length (walkStep line.column c rest).2.2 rest
      rw [length_cons] at enough
      rw [← column] at wider ⊢
      obtain ⟨last, lastUnits, looped, lastValid, lastColumn, lastShort, lastValues⟩ :=
        ih (by omega : (afterStep (walkStep line.column c rest).2.2 rest).length ≤ fuel) nextValid
          nextShort fun mem => wider (mem_append_right _ mem)
      refine ⟨last, lastUnits, ?_, lastValid, lastColumn, lastShort, ?_⟩
      · rw [writeLoop, stepped, bind_eq_bind, bind_some]
        exact looped
      · rw [lastValues, values, flatMap_append, append_assoc]

end

end CommCentral.Mime
