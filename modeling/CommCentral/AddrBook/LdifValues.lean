import CommCentral.AddrBook.LdifImport
import CommCentral.Jsmime.WordForms

/-! The lines that the LDIF export writes for values, and how the import reads them back. -/
namespace CommCentral.AddrBook
open Jsmime List

/-- The value is not written as it is: its first character, or some other one, is not safe. -/
def needsBase64 (value : JsString) : Bool :=
  value.head? == some 0x20 || value.head? == some 0x3A || value.head? == some 0x3C ||
    value.any fun c => c == 0 || c == 0x0D || c == 0x0A || 0x80 ≤ c

/-- What `appendProperty` adds to the output. -/
def appendProperty (lineBreak name value : JsString) : JsString :=
  if value = [] then []
  else if needsBase64 value then name ++ js ":: " ++ btoa (Jsmime.utf8Encode value) ++ lineBreak
  else name ++ js ": " ++ value ++ lineBreak

/-- `b642nib`. -/
def b642nib (c : UInt8) : UInt8 :=
  if 0x41 ≤ c ∧ c ≤ 0x5A then c - 0x41
  else if 0x61 ≤ c ∧ c ≤ 0x7A then c - 0x47
  else if 0x30 ≤ c ∧ c ≤ 0x39 then c + 4
  else if c = 0x2B then 0x3E
  else if c = 0x2F then 0x3F
  else 0xFF

/-- `nib >> 4`, which shifts in the sign that only the padding character's digit has. -/
def highBits (c : UInt8) : UInt8 := if c = 0x3D then 0xFF else b642nib c >>> 4

/-- The check of the first three characters of a group. -/
def passesCheck (c : UInt8) : Bool := c == 0x3D || (c < 0x80 && b642nib c ≤ 0x3F)

/-- The value that is decoded in place, where no byte is written before it has been read. The NUL
behind the text fails the check, but stands for the fourth character of a last group. -/
def decodeValue : Bytes → Option Bytes
  | [] => some []
  | a :: b :: c :: rest =>
    if passesCheck a && passesCheck b && passesCheck c then
      let first := b642nib a <<< 2 ||| highBits b
      if c = 0x3D then some [first]
      else
        let second := (b642nib b &&& 0x0F) <<< 4 ||| b642nib c >>> 2
        match rest with
        | [] => some [first, second, (b642nib c &&& 0x03) <<< 6 ||| b642nib 0]
        | d :: rest =>
          if d = 0x3D then some [first, second]
          else (decodeValue rest).map
            ([first, second, (b642nib c &&& 0x03) <<< 6 ||| b642nib (d &&& 0x7F)] ++ ·)
    else none
  | _ => none

/-- `str_parse_line`: the type and the value of a line. -/
def strParseLine (line : Bytes) : Option (Bytes × Bytes) :=
  let line := (line.takeWhile (· != 0)).dropWhile isSpace
  let type := line.takeWhile (· != 0x3A)
  match line.dropWhile (· != 0x3A) with
  | [] => none
  | _ :: rest =>
    let b64 := rest.head? == some 0x3A
    let value := (if b64 then rest.tail else rest).dropWhile isSpace
    if value = [] then none
    else
      let value := value.filter (· != continuedLineMarker)
      if b64 then (decodeValue value).map (type.rdropWhile isSpace, ·)
      else some (type.rdropWhile isSpace, value)

/-- What the import makes of a text of the file that is one line. -/
def importLine (text : Bytes) : Option (Bytes × Bytes) :=
  strParseLine (strGetline (LdifService.getLdifStringRecord {} text).2.1.mLdifLine).1

section Decode

lemma digit_spec (value : Nat) :
    passesCheck (base64Digit value).toUInt8 = true ∧ (base64Digit value).toUInt8 ≠ 0x3D ∧
      b642nib (base64Digit value).toUInt8 = .ofNat (value % 64) ∧
      (base64Digit value).toUInt8 &&& 0x7F = (base64Digit value).toUInt8 := by
  have all : ∀ v < 64, passesCheck (base64Digits.getD v 0).toUInt8 = true ∧
      (base64Digits.getD v 0).toUInt8 ≠ 0x3D ∧
      b642nib (base64Digits.getD v 0).toUInt8 = .ofNat v ∧
      (base64Digits.getD v 0).toUInt8 &&& 0x7F = (base64Digits.getD v 0).toUInt8 := by
    decide +kernel
  exact all (value % 64) (Nat.mod_lt _ (by decide))

lemma nibbles_spec (u w : Nat) :
    (UInt8.ofNat (u % 64) <<< 2 ||| UInt8.ofNat (w % 64) >>> 4 =
        .ofNat (u % 64 * 4 + w % 64 / 16)) ∧
      ((UInt8.ofNat (u % 64) &&& 0x0F) <<< 4 ||| UInt8.ofNat (w % 64) >>> 2 =
        .ofNat (u % 64 * 16 + w % 64 / 4)) ∧
      ((UInt8.ofNat (u % 64) &&& 0x03) <<< 6 ||| UInt8.ofNat (w % 64) =
        .ofNat (u % 64 * 64 + w % 64)) := by
  have all : ∀ u < 64, ∀ w < 64,
      (UInt8.ofNat u <<< 2 ||| UInt8.ofNat w >>> 4 = .ofNat (u * 4 + w / 16)) ∧
      ((UInt8.ofNat u &&& 0x0F) <<< 4 ||| UInt8.ofNat w >>> 2 = .ofNat (u * 16 + w / 4)) ∧
      ((UInt8.ofNat u &&& 0x03) <<< 6 ||| UInt8.ofNat w = .ofNat (u * 64 + w)) := by
    decide +kernel
  exact all _ (Nat.mod_lt _ (by decide)) _ (Nat.mod_lt _ (by decide))

/-- Base64 text is decoded to the octets that it stands for. -/
theorem decodeValue_btoa (octets : List UInt8) :
    decodeValue ((btoa octets).map UInt16.toUInt8) = some octets := by
  suffices values : decodeValue ((btoa octets).map UInt16.toUInt8) =
      some (base64Octets ((sextets octets).map (· % 64))) by
    rw [values, base64Octets_sextets]
  fun_induction btoa octets with
  | case1 => rfl
  | case2 a =>
    obtain ⟨check1, -, nib1, -⟩ := digit_spec (a.toNat / 4)
    obtain ⟨check2, other2, nib2, -⟩ := digit_spec (a.toNat * 16)
    change decodeValue [_, _, 0x3D, 0x3D] = some [_]
    rw [decodeValue, check1, check2, highBits, if_neg other2, nib1, nib2, (nibbles_spec _ _).1]
    rfl
  | case3 a b =>
    obtain ⟨check1, -, nib1, -⟩ := digit_spec (a.toNat / 4)
    obtain ⟨check2, other2, nib2, -⟩ := digit_spec (a.toNat * 16 + b.toNat / 16)
    obtain ⟨check3, other3, nib3, -⟩ := digit_spec (b.toNat * 4)
    change decodeValue [_, _, _, 0x3D] = some [_, _]
    rw [decodeValue, check1, check2, check3, highBits, if_neg other2, nib1, nib2, nib3,
      if_neg other3,
      (nibbles_spec _ _).1, (nibbles_spec _ _).2.1]
    rfl
  | case4 a b c rest ih =>
    obtain ⟨check1, -, nib1, -⟩ := digit_spec (a.toNat / 4)
    obtain ⟨check2, other2, nib2, -⟩ := digit_spec (a.toNat * 16 + b.toNat / 16)
    obtain ⟨check3, other3, nib3, -⟩ := digit_spec (b.toNat * 4 + c.toNat / 64)
    obtain ⟨-, other4, nib4, ascii4⟩ := digit_spec c.toNat
    change decodeValue (_ :: _ :: _ :: _ :: (btoa rest).map UInt16.toUInt8) =
      some (_ :: _ :: _ :: _)
    rw [decodeValue, check1, check2, check3, highBits, if_neg other2, nib1, nib2, nib3,
      if_neg other3,
      (nibbles_spec _ _).1, (nibbles_spec _ _).2.1]
    simp only [if_neg other4, ascii4, nib4, ih]
    rw [(nibbles_spec _ _).2.2]
    rfl

end Decode

section Lines

/-- Characters that stand for themselves in the file. -/
def IsAscii (text : JsString) : Prop := ∀ c ∈ text, c < 0x80

lemma utf8Encode_ascii {text : JsString} (ascii : IsAscii text) :
    Jsmime.utf8Encode text = text.map UInt16.toUInt8 := by
  have points : codePoints text = text.map UInt16.toNat := by
    fun_induction codePoints text with
    | case1 => rfl
    | case2 c =>
      have low : c < 0x80 := ascii c mem_cons_self
      rw [if_neg (by grind)]
      rfl
    | case3 c d rest pair =>
      have low : c < 0x80 := ascii c mem_cons_self
      grind
    | case4 c d rest other ih =>
      have low : c < 0x80 := ascii c mem_cons_self
      rw [if_neg (by grind), ih fun e mem => ascii e (mem_cons_of_mem _ mem)]
      rfl
  have octets : ∀ c ∈ text, utf8Octets c.toNat = [c.toUInt8] := fun c mem =>
    if_pos (UInt16.lt_iff_toNat_lt.mp (ascii c mem))
  rw [Jsmime.utf8Encode, points, flatMap_map, flatMap_congr octets]
  exact map_eq_flatMap.symm

lemma mLdifLine_eq {text lineBreak : Bytes} (noBreak : LF ∉ text ∧ CR ∉ text)
    (isBreak : lineBreak = [LF] ∨ lineBreak = [CR, LF]) (before) :
    (LdifService.getLdifStringRecord ⟨before, 0, 0⟩ (text ++ lineBreak)).2.1.mLdifLine =
      before ++ text := by
  induction text generalizing before with
  | nil =>
    rw [append_nil]
    rcases isBreak with rfl | rfl <;> rfl
  | cons c rest ih =>
    simp only [mem_cons, not_or] at noBreak
    have next := ih ⟨noBreak.1.2, noBreak.2.2⟩ (before ++ [c])
    rw [cons_append, LdifService.getLdifStringRecord, if_neg (Ne.symm noBreak.1.1),
      if_neg (Ne.symm noBreak.2.1), if_pos ⟨rfl, rfl⟩]
    simpa using next

lemma strGetline_eq {line : Bytes} (noBreak : LF ∉ line) : strGetline line = (line, []) := by
  fun_induction strGetline line <;> simp_all

lemma mem_map_toUInt8 {text : JsString} (ascii : IsAscii text) (low : d < 0x80) :
    d.toUInt8 ∈ text.map UInt16.toUInt8 ↔ d ∈ text := by
  refine ⟨fun mem => ?_, mem_map_of_mem⟩
  obtain ⟨c, inText, same⟩ := mem_map.mp mem
  have lowC := UInt16.lt_iff_toNat_lt.mp (ascii c inText)
  have lowD := UInt16.lt_iff_toNat_lt.mp low
  have numbers := congrArg UInt8.toNat same
  rw [UInt16.toNat_toUInt8, UInt16.toNat_toUInt8] at numbers
  have equal : c = d := UInt16.toNat_inj.mp (by grind)
  exact equal ▸ inText

lemma importLine_eq {content lineBreak : JsString} (ascii : IsAscii content)
    (noBreak : 0x0A ∉ content ∧ 0x0D ∉ content)
    (isBreak : lineBreak = js "\n" ∨ lineBreak = js "\r\n") :
    importLine (Jsmime.utf8Encode (content ++ lineBreak)) =
      strParseLine (content.map UInt16.toUInt8) := by
  have absent : LF ∉ content.map UInt16.toUInt8 ∧ CR ∉ content.map UInt16.toUInt8 :=
    ⟨mt (mem_map_toUInt8 (d := 0x0A) ascii (by decide)).mp noBreak.1,
      mt (mem_map_toUInt8 (d := 0x0D) ascii (by decide)).mp noBreak.2⟩
  have breakAscii : IsAscii lineBreak := by
    rcases isBreak with rfl | rfl <;> unfold IsAscii <;> decide
  have isBreak' : lineBreak.map UInt16.toUInt8 = [LF] ∨
      lineBreak.map UInt16.toUInt8 = [CR, LF] := by
    rcases isBreak with rfl | rfl
    · exact .inl (by decide)
    · exact .inr (by decide)
  have all : IsAscii (content ++ lineBreak) := forall_mem_append.mpr ⟨ascii, breakAscii⟩
  rw [utf8Encode_ascii all, map_append, importLine, mLdifLine_eq absent isBreak', nil_append,
    strGetline_eq absent.1]

section Parse

variable {name : Bytes} (letters : ∀ c ∈ name, isSpace c = false ∧ c ≠ 0x3A ∧ c ≠ 0)
include letters

lemma strParseLine_type (noNul : 0 ∉ rest) :
    strParseLine (name ++ 0x3A :: rest) =
      (let b64 := rest.head? == some 0x3A
       let value := (if b64 then rest.tail else rest).dropWhile isSpace
       if value = [] then none
       else if b64 then
         (decodeValue (value.filter (· != continuedLineMarker))).map (name, ·)
       else some (name, value.filter (· != continuedLineMarker))) := by
  have whole : (name ++ 0x3A :: rest).takeWhile (· != 0) = name ++ 0x3A :: rest := by
    rw [takeWhile_eq_self_iff]
    intro c mem
    grind
  have start : (name ++ 0x3A :: rest).dropWhile isSpace = name ++ 0x3A :: rest := by
    cases name with
    | nil => rfl
    | cons first rest => exact dropWhile_cons_of_neg (by simp [(letters first mem_cons_self).1])
  have front : (name ++ 0x3A :: rest).takeWhile (· != 0x3A) = name := by
    rw [takeWhile_append_of_pos (fun c mem => bne_iff_ne.mpr (letters c mem).2.1),
      takeWhile_cons_of_neg (by simp), append_nil]
  have behind : (name ++ 0x3A :: rest).dropWhile (· != 0x3A) = 0x3A :: rest := by
    rw [dropWhile_append_of_pos (fun c mem => bne_iff_ne.mpr (letters c mem).2.1),
      dropWhile_cons_of_neg (by simp)]
  have trimmed : name.rdropWhile isSpace = name := by
    rw [rdropWhile_eq_self_iff]
    intro filled
    simp [(letters _ (getLast_mem filled)).1]
  rw [strParseLine]
  simp only [whole, start, front, behind, trimmed]

lemma strParseLine_coded {digits : Bytes} (filled : digits ≠ [])
    (safe : ∀ c ∈ digits, c ≠ 0 ∧ isSpace c = false ∧ c ≠ continuedLineMarker) :
    strParseLine (name ++ 0x3A :: 0x3A :: 0x20 :: digits) =
      (decodeValue digits).map (name, ·) := by
  have start : (0x20 :: digits).dropWhile isSpace = digits := by
    obtain ⟨first, rest, rfl⟩ := exists_cons_of_ne_nil filled
    rw [dropWhile_cons_of_pos (by decide), dropWhile_cons_of_neg]
    simp [(safe first mem_cons_self).2.1]
  have plain : digits.filter (· != continuedLineMarker) = digits :=
    filter_eq_self.mpr fun c mem => bne_iff_ne.mpr (safe c mem).2.2
  have noNul : 0 ∉ digits := fun mem => (safe 0 mem).1 rfl
  rw [strParseLine_type letters (by simp [noNul])]
  simp [start, plain, filled]

lemma strParseLine_plain {value : Bytes} (noNul : 0 ∉ value) :
    strParseLine (name ++ 0x3A :: 0x20 :: value) =
      if value.dropWhile isSpace = [] then none
      else some (name, (value.dropWhile isSpace).filter (· != continuedLineMarker)) := by
  have start : (0x20 :: value).dropWhile isSpace = value.dropWhile isSpace :=
    dropWhile_cons_of_pos (by decide)
  rw [strParseLine_type letters (by simp [noNul])]
  simp [start]

end Parse

lemma btoa_chars (octets) : ∀ c ∈ btoa octets,
    c < 0x80 ∧ c ≠ 0x0A ∧ c ≠ 0x0D ∧ c.toUInt8 ≠ 0 ∧ isSpace c.toUInt8 = false ∧
      c.toUInt8 ≠ continuedLineMarker := by
  intro c mem
  rw [btoa_eq] at mem
  rcases mem_append.mp mem with inDigits | inPadding
  · obtain ⟨value, -, rfl⟩ := mem_map.mp inDigits
    have all : ∀ v < 64, base64Digits.getD v 0 < 0x80 ∧ base64Digits.getD v 0 ≠ 0x0A ∧
        base64Digits.getD v 0 ≠ 0x0D ∧ (base64Digits.getD v 0).toUInt8 ≠ 0 ∧
        isSpace (base64Digits.getD v 0).toUInt8 = false ∧
        (base64Digits.getD v 0).toUInt8 ≠ continuedLineMarker := by
      decide +kernel
    exact all (value % 64) (Nat.mod_lt _ (by decide))
  · rw [eq_of_mem_replicate inPadding]
    decide

lemma btoa_ne_nil (some : octets ≠ []) : btoa octets ≠ [] := by
  fun_cases btoa octets <;> simp_all [js]

lemma utf8Encode_ne_nil {value : JsString} (some : value ≠ []) :
    Jsmime.utf8Encode value ≠ [] := by
  have octets : ∀ codePoint, utf8Octets codePoint ≠ [] := by
    intro codePoint
    unfold utf8Octets
    grind
  unfold Jsmime.utf8Encode
  fun_cases codePoints value <;> simp_all

/-- What is left of a text without the white space in front and one character is the text only
if there is nothing to take out. -/
theorem filter_dropWhile_eq_self_iff (text : Bytes) :
    (text.dropWhile isSpace).filter (· != continuedLineMarker) = text ↔
      (∀ c ∈ text.head?, isSpace c = false) ∧ continuedLineMarker ∉ text := by
  constructor
  · intro same
    have noMarker : continuedLineMarker ∉ text := by
      rw [← same]
      simp
    refine ⟨?_, noMarker⟩
    rw [filter_eq_self.mpr fun c mem => bne_iff_ne.mpr
      (ne_of_mem_of_not_mem ((dropWhile_sublist _).mem mem) noMarker),
      dropWhile_eq_self_iff] at same
    cases text with
    | nil => simp
    | cons first rest => simpa using same
  · rintro ⟨starts, noMarker⟩
    have start : text.dropWhile isSpace = text := by
      cases text with
      | nil => rfl
      | cons first rest => exact dropWhile_cons_of_neg (by simp [starts first rfl])
    rw [start]
    exact filter_eq_self.mpr fun c mem => bne_iff_ne.mpr (ne_of_mem_of_not_mem mem noMarker)

end Lines

/-- A name of ASCII letters. -/
def IsName (name : JsString) : Prop := ∀ c ∈ name, (0x41 ≤ c ∧ c ≤ 0x5A) ∨ (0x61 ≤ c ∧ c ≤ 0x7A)

instance : DecidablePred IsName := fun name =>
  inferInstanceAs (Decidable (∀ c ∈ name, (0x41 ≤ c ∧ c ≤ 0x5A) ∨ (0x61 ≤ c ∧ c ≤ 0x7A)))

/-- The written line is read as the name and the value's bytes. -/
def ReadsBack (lineBreak name value : JsString) : Prop :=
  importLine (Jsmime.utf8Encode (appendProperty lineBreak name value)) =
    some (Jsmime.utf8Encode name, Jsmime.utf8Encode value)

instance (lineBreak name value : JsString) : Decidable (ReadsBack lineBreak name value) :=
  inferInstanceAs (Decidable (_ = _))

section Names

variable (letters : IsName name)
include letters

lemma IsName.isAscii : IsAscii name := fun c mem => by
  have range := letters c mem
  grind

lemma IsName.bytes : ∀ c ∈ name.map UInt16.toUInt8, isSpace c = false ∧ c ≠ 0x3A ∧ c ≠ 0 := by
  intro d mem
  obtain ⟨c, inName, rfl⟩ := mem_map.mp mem
  have all : ∀ n < 0x80, (0x41 ≤ n ∧ n ≤ 0x5A) ∨ (0x61 ≤ n ∧ n ≤ 0x7A) →
      isSpace (UInt8.ofNat n) = false ∧ UInt8.ofNat n ≠ 0x3A ∧ UInt8.ofNat n ≠ 0 := by
    decide
  have range := letters c inName
  simp only [UInt16.le_iff_toNat_le, UInt16.reduceToNat] at range
  exact all c.toNat (by omega) range

/-- A value is read back as it was exactly if it is written in base64, or neither starts with
white space nor has the character that stands for a continued line. -/
theorem writtenValue_readsBack_iff {lineBreak value : JsString}
    (isBreak : lineBreak = js "\n" ∨ lineBreak = js "\r\n") (some : value ≠ []) :
    ReadsBack lineBreak name value ↔ needsBase64 value = true ∨
      ((∀ c ∈ value.head?, c ≠ 0x09 ∧ c ≠ 0x0B ∧ c ≠ 0x0C) ∧ 1 ∉ value) := by
  have ascii := letters.isAscii
  have noBreak : 0x0A ∉ name ∧ 0x0D ∉ name := by
    constructor <;> intro mem <;> exact absurd (letters _ mem) (by decide)
  rw [ReadsBack, appendProperty, if_neg some, utf8Encode_ascii ascii]
  cases coded : needsBase64 value with
  | true =>
    have chars := btoa_chars (Jsmime.utf8Encode value)
    have safe : ∀ c ∈ (btoa (Jsmime.utf8Encode value)).map UInt16.toUInt8,
        c ≠ 0 ∧ isSpace c = false ∧ c ≠ continuedLineMarker :=
      forall_mem_map.mpr fun c mem => (chars c mem).2.2.2
    have filled : (btoa (Jsmime.utf8Encode value)).map UInt16.toUInt8 ≠ [] := by
      simpa using btoa_ne_nil (utf8Encode_ne_nil some)
    have low : IsAscii (name ++ js ":: " ++ btoa (Jsmime.utf8Encode value)) :=
      forall_mem_append.mpr ⟨forall_mem_append.mpr ⟨ascii, by decide⟩,
        fun c mem => (chars c mem).1⟩
    have absent : 0x0A ∉ btoa (Jsmime.utf8Encode value) ∧ 0x0D ∉ btoa (Jsmime.utf8Encode value) :=
      ⟨fun mem => (chars _ mem).2.1 rfl, fun mem => (chars _ mem).2.2.1 rfl⟩
    refine iff_of_true ?_ (.inl rfl)
    have bytes : (name ++ js ":: " ++ btoa (Jsmime.utf8Encode value)).map UInt16.toUInt8 =
        name.map UInt16.toUInt8 ++ 0x3A :: 0x3A :: 0x20 ::
          (btoa (Jsmime.utf8Encode value)).map UInt16.toUInt8 := by
      rw [map_append, map_append, append_assoc]
      rfl
    rw [if_pos rfl, importLine_eq low (by simp [noBreak, absent, js]) isBreak, bytes,
      strParseLine_coded letters.bytes filled safe, decodeValue_btoa]
    rfl
  | false =>
    simp only [needsBase64, Bool.or_eq_false_iff, any_eq_false] at coded
    obtain ⟨⟨⟨notSpace, -⟩, -⟩, safe⟩ := coded
    have low : IsAscii value := fun c mem => by
      have := safe c mem
      grind
    have absent : 0 ∉ value ∧ 0x0A ∉ value ∧ 0x0D ∉ value := by
      refine ⟨?_, ?_, ?_⟩ <;> intro mem <;> exact safe _ mem rfl
    have all : IsAscii (name ++ js ": " ++ value) :=
      forall_mem_append.mpr ⟨forall_mem_append.mpr ⟨ascii, by decide⟩, low⟩
    have noNul : 0 ∉ value.map UInt16.toUInt8 :=
      mt (mem_map_toUInt8 (d := 0) low (by decide)).mp absent.1
    have bytes : (name ++ js ": " ++ value).map UInt16.toUInt8 =
        name.map UInt16.toUInt8 ++ 0x3A :: 0x20 :: value.map UInt16.toUInt8 := by
      rw [map_append, map_append, append_assoc]
      rfl
    rw [if_neg Bool.false_ne_true, importLine_eq all (by simp [noBreak, absent, js]) isBreak, bytes,
      strParseLine_plain letters.bytes noNul, utf8Encode_ascii low]
    have marker := mem_map_toUInt8 (d := 1) low (by decide)
    have unchanged := filter_dropWhile_eq_self_iff (value.map UInt16.toUInt8)
    have starts : (∀ c ∈ (value.map UInt16.toUInt8).head?, isSpace c = false) ↔
        ∀ c ∈ value.head?, c ≠ 0x09 ∧ c ≠ 0x0B ∧ c ≠ 0x0C := by
      cases value with
      | nil => simp
      | cons first rest =>
        have spaces : ∀ n < 0x80, isSpace (UInt8.ofNat n) = false ↔
            n ≠ 0x20 ∧ n ≠ 0x09 ∧ n ≠ 0x0A ∧ n ≠ 0x0B ∧ n ≠ 0x0C ∧ n ≠ 0x0D := by
          decide
        have plain := safe first mem_cons_self
        have range := low first mem_cons_self
        have spaceOrNot : isSpace first.toUInt8 = false ↔ _ := spaces first.toNat range
        simp only [head?_cons, map_cons, Option.mem_some_iff, forall_eq', spaceOrNot]
        simp only [head?_cons, beq_eq_false_iff_ne, ne_eq, Option.some.injEq, Bool.or_eq_true,
          beq_iff_eq, not_or, ← UInt16.toNat_inj, UInt16.reduceToNat] at notSpace plain ⊢
        omega
    have filled : value.map UInt16.toUInt8 ≠ [] := by simpa using some
    rw [or_iff_right Bool.false_ne_true, ← starts, ← not_congr marker]
    refine Iff.trans ?_ unchanged
    split
    · rename_i empty
      simp [empty, filled.symm]
    · simp

end Names

/-- A tab in front is lost with the space behind the colon. -/
theorem leadingTab_differs :
    IsName (js "cn") ∧ js "\tAnn" ≠ [] ∧ ¬ ReadsBack (js "\n") (js "cn") (js "\tAnn") := by
  decide

theorem writtenValue_readsBack_umlaut : ReadsBack (js "\r\n") (js "sn") (js " Mühl") := by
  apply (writtenValue_readsBack_iff (by decide : IsName (js "sn")) (.inr rfl) (by decide)).mpr
  exact .inl (by decide)

end CommCentral.AddrBook
