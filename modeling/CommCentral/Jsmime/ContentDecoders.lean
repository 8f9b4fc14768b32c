import CommCentral.Jsmime.HeaderTokens

/-! The conversions of the data of a message part: transfer decodings and the hold on the
last line of a multipart body. -/
namespace CommCentral.Jsmime
open List Option

def octetEquals : UInt8 := 0x3D

def hexDigit? (c : UInt8) : Option UInt8 :=
  if 0x30 ≤ c ∧ c ≤ 0x39 then some (c - 0x30)
  else if 0x41 ≤ c ∧ c ≤ 0x46 then some (c - 0x37)
  else if 0x61 ≤ c ∧ c ≤ 0x66 then some (c - 0x57)
  else none

/-- The text after a soft line break, whose `=` is before the text. -/
def afterSoftBreak : BinaryString → Option BinaryString
  | [] => some []
  | c :: rest =>
    if c = 0x20 ∨ c = 0x09 then afterSoftBreak rest
    else if c = octetCR then some (if rest.head? = some octetLF then rest.tail else rest)
    else if c = octetLF then some rest
    else none

lemma afterSoftBreak_length {text later : BinaryString} (passed : afterSoftBreak text = some later) :
    later.length ≤ text.length := by
  induction text with
  | nil =>
    cases passed
    exact le_refl _
  | cons c rest ih =>
    rw [afterSoftBreak] at passed
    split at passed
    · exact (ih passed).trans (Nat.le_succ _)
    · split at passed
      · cases passed
        split
        · rw [length_tail, length_cons]
          omega
        · exact Nat.le_succ _
      · split at passed
        · cases passed
          exact Nat.le_succ _
        · cases passed

/-- What the text after an `=` stands for, and the text that is left. -/
def escape? : BinaryString → Option (BinaryString × BinaryString)
  | c :: d :: rest =>
    match hexDigit? c, hexDigit? d with
    | some high, some low => some ([high * 16 + low], rest)
    | _, _ => (afterSoftBreak (c :: d :: rest)).map fun later => ([], later)
  | text => (afterSoftBreak text).map fun later => ([], later)

/-- An escape stands for fewer octets than it takes with its `=`. -/
theorem escape?_length {text decoded later : BinaryString}
    (found : escape? text = some (decoded, later)) :
    decoded.length + later.length ≤ text.length := by
  have softBreak : ∀ {text : BinaryString},
      (afterSoftBreak text).map (fun later => (([] : BinaryString), later)) = some (decoded, later) →
        decoded.length + later.length ≤ text.length := by
    intro text found
    obtain ⟨rest, passed, same⟩ := map_eq_some_iff.mp found
    cases same
    rw [length_nil, Nat.zero_add]
    exact afterSoftBreak_length passed
  rw [escape?.eq_def] at found
  split at found
  · split at found
    · cases found
      simp only [length_cons, length_nil]
      omega
    · exact softBreak found
  · exact softBreak found

/-- The first result of `decode_qp`; the second one is always empty. -/
def decodeQp : BinaryString → BinaryString
  | [] => []
  | c :: rest =>
    if c = octetEquals then
      match _ : escape? rest with
      | some (decoded, later) => decoded ++ decodeQp later
      | none => c :: decodeQp rest
    else c :: decodeQp rest
termination_by text => text.length
decreasing_by
  · have := escape?_length ‹_›
    rw [length_cons]
    omega
  · exact Nat.lt_succ_self _
  · exact Nat.lt_succ_self _

lemma decodeQp_length (text) : (decodeQp text).length ≤ text.length := by
  fun_induction decodeQp text with
  | case1 => exact le_refl _
  | case2 rest decoded later found ih =>
    have := escape?_length found
    rw [length_append, length_cons]
    omega
  | case3 rest missing ih | case4 c rest other ih => exact Nat.succ_le_succ ih

/-- The six bits of a character of the alphabet of base64. -/
def base64Value? (c : UInt8) : Option Nat :=
  if 0x41 ≤ c ∧ c ≤ 0x5A then some (c.toNat - 0x41)
  else if 0x61 ≤ c ∧ c ≤ 0x7A then some (c.toNat - 0x47)
  else if 0x30 ≤ c ∧ c ≤ 0x39 then some (c.toNat + 4)
  else if c = 0x2B then some 62
  else if c = 0x2F then some 63
  else none

/-- The octets of groups of four values. Bits that fill no octet are dropped. -/
def base64Octets : List Nat → BinaryString
  | a :: b :: c :: d :: rest =>
    UInt8.ofNat (a * 4 + b / 16) :: UInt8.ofNat (b * 16 + c / 4) :: UInt8.ofNat (c * 64 + d) ::
      base64Octets rest
  | [a, b, c] => [UInt8.ofNat (a * 4 + b / 16), UInt8.ofNat (b * 16 + c / 4)]
  | [a, b] => [UInt8.ofNat (a * 4 + b / 16)]
  | _ => []

/-- At most two characters of padding are part of the last group. -/
def dropPadding (text : BinaryString) : BinaryString :=
  if text.length % 4 = 0 ∧ text.getLast? = some octetEquals then
    if text.dropLast.getLast? = some octetEquals then text.dropLast.dropLast else text.dropLast
  else text

def asciiWhiteSpace : BinaryString := [0x20, 0x09, 0x0A, 0x0C, 0x0D]

/-- `atob`, `none` where it throws. -/
def atob (text : BinaryString) : Option BinaryString := do
  let text := text.filter (· ∉ asciiWhiteSpace)
  let text := dropPadding text
  if text.length % 4 = 1 then none
  else
    let values ← text.mapM base64Value?
    return base64Octets values

/-- The characters of base64, with `=` only at the end. -/
def sanitize (buffer : BinaryString) : BinaryString :=
  let kept := buffer.filter fun c => (base64Value? c).isSome || c == octetEquals
  let padding := kept.rtakeWhile (· == octetEquals)
  kept.filter (· != octetEquals) ++ padding

/-- The groups of four characters, without groups of padding at the end. -/
def wholeGroups (sanitized : BinaryString) : BinaryString :=
  let groups := sanitized.take (sanitized.length - sanitized.length % 4)
  let padding := groups.rtakeWhile (· == octetEquals)
  groups.take (groups.length - padding.length / 4 * 4)

/-- The text that is left for the next call. -/
def excess (sanitized : BinaryString) (more : Bool) : BinaryString :=
  if more then sanitized.drop (sanitized.length - sanitized.length % 4) else []

/-- `decode_base64`, `none` where it throws. -/
def decodeBase64 (buffer : BinaryString) (more : Bool) :
    Option (BinaryString × BinaryString) := do
  let sanitized := sanitize buffer
  let decoded ← atob (wholeGroups sanitized)
  return (decoded, excess sanitized more)

def lastOctet? (c : UInt8) : BinaryString → Option Nat
  | [] => none
  | first :: rest =>
    match lastOctet? c rest with
    | some index => some (index + 1)
    | none => if first = c then some 0 else none

/-- The number of octets up to the last line end: `end + 1` in `conditionToEndOnCRLF`. A `\r`
at the end does not count, unless it is alone, since `lastIndexOf` starts at 0 then. -/
def conditionedLength (buffer : BinaryString) : Nat :=
  let lastCR := lastOctet? octetCR (buffer.take (max 1 (buffer.length - 1)))
  let lastLF := lastOctet? octetLF buffer
  max (lastCR.elim 0 (· + 1)) (lastLF.elim 0 (· + 1))

def conditionToEndOnCRLF (buffer : BinaryString) : BinaryString × BinaryString :=
  (buffer.take (conditionedLength buffer), buffer.drop (conditionedLength buffer))

/-- Where the line end at the end of the buffer begins. -/
def beforeLineEnd (buffer : BinaryString) : Nat :=
  let splitPoint := if buffer.getLast? = some octetLF then buffer.length - 1 else buffer.length
  if (buffer.take splitPoint).getLast? = some octetCR then splitPoint - 1 else splitPoint

/-- The `_convertData` of a multipart body. -/
def holdLastLine (buffer : BinaryString) (more : Bool) : BinaryString × BinaryString :=
  let splitPoint := if more then beforeLineEnd buffer else buffer.length
  let (preLF, rest) := conditionToEndOnCRLF (buffer.take splitPoint)
  (preLF, rest ++ buffer.drop splitPoint)

/-- The values of `ContentDecoders`. Like every object it has a `constructor` and a
`__proto__`. -/
inductive ContentDecoder
  | quotedPrintable
  | base64
  | object
  | prototype
  deriving DecidableEq

/-- `ContentDecoders[cte]` -/
def contentDecoder? (cte : JsString) : Option ContentDecoder :=
  if cte = js "quoted-printable" then some .quotedPrintable
  else if cte = js "base64" then some .base64
  else if cte = js "constructor" then some .object
  else if cte = js "__proto__" then some .prototype
  else none

inductive Conversion
  | decoder (decoder : ContentDecoder)
  | holdLine
  deriving DecidableEq

/-- The results of a conversion. What is saved may be undefined. -/
structure Converted where
  text : BinaryString
  saved : Option BinaryString

/-- `none` where the call or the use of its first result throws. The constructor of objects
makes the text an object whose items are its characters; its prototype is no function. -/
def Conversion.convert (conversion : Conversion) (buffer : BinaryString) (more : Bool) :
    Option Converted :=
  match conversion with
  | .decoder .quotedPrintable => some ⟨decodeQp buffer, some []⟩
  | .decoder .base64 => (decodeBase64 buffer more).map fun (decoded, saved) => ⟨decoded, some saved⟩
  | .decoder .object =>
    match buffer with
    | [] => none
    | [c] => some ⟨[c], none⟩
    | c :: d :: _ => some ⟨[c], some [d]⟩
  | .decoder .prototype => none
  | .holdLine => some ⟨(holdLastLine buffer more).1, some (holdLastLine buffer more).2⟩

/-- The calls of `_convertData` that throw. -/
def Conversion.Throws (conversion : Conversion) (buffer : BinaryString) : Prop :=
  match conversion with
  | .decoder .quotedPrintable => False
  | .decoder .base64 => List.replicate 3 octetEquals <:+ wholeGroups (sanitize buffer)
  | .decoder .object => buffer = []
  | .decoder .prototype => True
  | .holdLine => False

instance (conversion : Conversion) (buffer : BinaryString) :
    Decidable (conversion.Throws buffer) :=
  match conversion with
  | .decoder .quotedPrintable => inferInstanceAs (Decidable False)
  | .decoder .base64 => inferInstanceAs (Decidable (_ <:+ _))
  | .decoder .object => inferInstanceAs (Decidable (buffer = []))
  | .decoder .prototype => inferInstanceAs (Decidable True)
  | .holdLine => inferInstanceAs (Decidable False)

/-- Characters of base64 and as much padding after them. -/
def Padded (text : BinaryString) (padding : Nat) : Prop :=
  ∃ body : BinaryString, text = body ++ List.replicate padding octetEquals ∧
    ∀ c ∈ body, (base64Value? c).isSome

lemma ne_equals_of_isSome (known : (base64Value? c).isSome) : c ≠ octetEquals := by
  intro same
  rw [same] at known
  exact absurd known (by decide)

lemma sanitize_padded (buffer) : ∃ padding, Padded (sanitize buffer) padding := by
  let kept := buffer.filter fun c => (base64Value? c).isSome || c == octetEquals
  refine ⟨(kept.rtakeWhile (· == octetEquals)).length, kept.filter (· != octetEquals), ?_, ?_⟩
  · rw [sanitize]
    congr 1
    apply eq_replicate_of_mem
    intro c mem
    have padding : (c == octetEquals) = true := mem_rtakeWhile_imp (p := (· == octetEquals)) mem
    exact beq_iff_eq.mp padding
  · intro c mem
    obtain ⟨inKept, other⟩ := mem_filter.mp mem
    have known := (mem_filter.mp inKept).2
    rw [Bool.or_eq_true] at known
    apply known.resolve_right
    intro same
    rw [beq_iff_eq.mp same] at other
    exact absurd other (by decide)

namespace Padded

variable {text : BinaryString}

lemma take (padded : Padded text padding) (length : Nat) :
    Padded (text.take length) (padding - (text.length - length)) := by
  obtain ⟨body, rfl, known⟩ := padded
  refine ⟨body.take length, ?_, fun c mem => known c (mem_of_mem_take mem)⟩
  rw [take_append, take_replicate, length_append, length_replicate]
  by_cases within : length ≤ body.length
  · have none : min (length - body.length) padding = 0 := by omega
    have none' : padding - (body.length + padding - length) = 0 := by omega
    rw [none, none']
  · have same : min (length - body.length) padding =
        padding - (body.length + padding - length) := by omega
    rw [same]

lemma rtakeWhile (padded : Padded text padding) :
    (text.rtakeWhile (· == octetEquals)).length = padding := by
  obtain ⟨body, rfl, known⟩ := padded
  induction padding with
  | zero =>
    rw [replicate_zero, append_nil, length_eq_zero_iff, rtakeWhile_eq_nil_iff]
    intro nonempty same
    exact ne_equals_of_isSome (known _ (getLast_mem nonempty)) (beq_iff_eq.mp same)
  | succ padding ih =>
    rw [replicate_succ', ← append_assoc, rtakeWhile_concat_pos, length_append,
      ih]
    · rfl
    · exact beq_self_eq_true _

lemma endsWith_iff (padded : Padded text padding) :
    List.replicate 3 octetEquals <:+ text ↔ 3 ≤ padding := by
  constructor
  · intro suffix
    obtain ⟨before, rfl⟩ := suffix
    rw [← padded.rtakeWhile]
    have ends : ∀ before : BinaryString, 3 ≤
        ((before ++ List.replicate 3 octetEquals).rtakeWhile (· == octetEquals)).length := by
      intro before
      change 3 ≤ ((before ++ [octetEquals, octetEquals, octetEquals]).rtakeWhile _).length
      rw [append_cons, append_cons (before ++ [octetEquals]),
        rtakeWhile_concat_pos (· == octetEquals) _ _ (beq_self_eq_true _),
        rtakeWhile_concat_pos (· == octetEquals) _ _ (beq_self_eq_true _),
        rtakeWhile_concat_pos (· == octetEquals) _ _ (beq_self_eq_true _)]
      simp only [length_append, length_cons, length_nil]
      omega
    exact ends before
  · intro enough
    obtain ⟨body, rfl, -⟩ := padded
    refine ⟨body ++ List.replicate (padding - 3) octetEquals, ?_⟩
    rw [append_assoc, ← replicate_add, Nat.sub_add_cancel enough]

end Padded

lemma wholeGroups_padded (buffer) :
    ∃ padding < 4, Padded (wholeGroups (sanitize buffer)) padding ∧
      (wholeGroups (sanitize buffer)).length % 4 = 0 := by
  obtain ⟨total, padded⟩ := sanitize_padded buffer
  let sanitized := sanitize buffer
  let groups := sanitized.take (sanitized.length - sanitized.length % 4)
  have ofGroups := padded.take (sanitized.length - sanitized.length % 4)
  obtain ⟨padding, same⟩ : ∃ padding, padding =
      total - (sanitized.length - (sanitized.length - sanitized.length % 4)) := ⟨_, rfl⟩
  rw [← same] at ofGroups
  have whole : groups.length % 4 = 0 := by
    rw [length_take]
    omega
  have bound : padding ≤ groups.length := by
    rw [← ofGroups.rtakeWhile]
    exact (rtakeWhile_suffix _ _).length_le
  have kept := ofGroups.take (groups.length - padding / 4 * 4)
  have cut : wholeGroups (sanitize buffer) = groups.take (groups.length - padding / 4 * 4) := by
    rw [wholeGroups]
    change groups.take (groups.length - (groups.rtakeWhile _).length / 4 * 4) = _
    rw [ofGroups.rtakeWhile]
  rw [cut]
  refine ⟨padding % 4, Nat.mod_lt _ (by omega), ?_, ?_⟩
  · have rest : padding - (groups.length - (groups.length - padding / 4 * 4)) = padding % 4 := by
      omega
    rw [← rest]
    exact kept
  · rw [length_take]
    omega

lemma mapM_eq_none_iff {α β : Type} (f : α → Option β) (list : List α) :
    list.mapM f = none ↔ ∃ item ∈ list, f item = none := by
  induction list with
  | nil =>
    constructor
    · intro none
      cases none
    · rintro ⟨item, mem, -⟩
      cases mem
  | cons first rest ih =>
    rw [mapM_cons, exists_mem_cons_iff, ← ih]
    cases f first with
    | none => exact ⟨fun _ => .inl rfl, fun _ => rfl⟩
    | some value =>
      cases rest.mapM f with
      | none => exact ⟨fun _ => .inr rfl, fun _ => rfl⟩
      | some values =>
        constructor
        · intro none
          cases none
        · rintro (none | none)
          · cases none
          · cases none

/-- A group that ends with at most two characters of padding. -/
theorem dropPadding_eq {body : BinaryString} (known : ∀ c ∈ body, (base64Value? c).isSome)
    (short : padding < 3) (whole : (body.length + padding) % 4 = 0) :
    dropPadding (body ++ List.replicate padding octetEquals) = body := by
  have last : body.getLast? ≠ some octetEquals := by
    intro same
    exact ne_equals_of_isSome (known _ (mem_of_getLast? same)) rfl
  match padding with
  | 0 => rw [replicate_zero, append_nil, dropPadding, if_neg fun both => last both.2]
  | 1 =>
    change dropPadding (body ++ [octetEquals]) = body
    rw [dropPadding, if_pos ⟨by rw [length_append]; exact whole, getLast?_concat⟩,
      dropLast_concat, if_neg last]
  | 2 =>
    change dropPadding (body ++ ([octetEquals] ++ [octetEquals])) = body
    rw [← append_assoc, dropPadding,
      if_pos ⟨by simp only [length_append]; exact whole, getLast?_concat⟩,
      dropLast_concat, if_pos getLast?_concat, dropLast_concat]

section

variable {text : BinaryString} (padded : Padded text padding) (short : padding < 4)
  (whole : text.length % 4 = 0)
include padded short whole

/-- The group that padding of three leaves has an octet that stands for nothing. -/
theorem dropPadding_padded :
    (dropPadding text).length % 4 ≠ 1 ∧
      ((∃ c ∈ dropPadding text, base64Value? c = none) ↔ padding = 3) := by
  obtain ⟨body, rfl, known⟩ := padded
  have unknown : ¬ ∃ c ∈ body, base64Value? c = none := by
    rintro ⟨c, mem, none⟩
    have some := known c mem
    rw [none] at some
    cases some
  rw [length_append, length_replicate] at whole
  rcases Nat.lt_succ_iff_lt_or_eq.mp short with few | three
  · rw [dropPadding_eq known few whole]
    exact ⟨by omega, iff_of_false unknown (Nat.ne_of_lt few)⟩
  · subst three
    have dropped : dropPadding (body ++ [octetEquals] ++ [octetEquals] ++ [octetEquals]) =
        body ++ [octetEquals] := by
      rw [dropPadding, if_pos ⟨by simp only [length_append]; exact whole,
        getLast?_concat⟩, dropLast_concat, if_pos getLast?_concat,
        dropLast_concat]
    rw [append_assoc, append_assoc] at dropped
    change (dropPadding (body ++ ([octetEquals] ++ ([octetEquals] ++ [octetEquals])))).length % 4 ≠ 1
      ∧ ((∃ c ∈ dropPadding (body ++ ([octetEquals] ++ ([octetEquals] ++ [octetEquals]))), _) ↔ _)
    rw [dropped]
    refine ⟨?_, iff_of_true ?_ rfl⟩
    · rw [length_append, length_singleton]
      omega
    · exact ⟨octetEquals, mem_append_right _ (mem_singleton_self _), by decide⟩

lemma atob_eq_none_iff : atob text = none ↔ padding = 3 := by
  have visible : text.filter (· ∉ asciiWhiteSpace) = text := by
    obtain ⟨body, rfl, known⟩ := padded
    rw [filter_eq_self]
    intro c mem
    apply decide_eq_true
    rcases mem_append.mp mem with ofBody | ofPadding
    · intro space
      have unknown : ∀ c ∈ asciiWhiteSpace, base64Value? c = none := by decide
      have some := known c ofBody
      rw [unknown c space] at some
      cases some
    · rw [eq_of_mem_replicate ofPadding]
      decide
  obtain ⟨possible, unknown⟩ := dropPadding_padded padded short whole
  rw [← unknown, ← mapM_eq_none_iff, atob, visible]
  change (if (dropPadding text).length % 4 = 1 then none else _) = none ↔ _
  rw [if_neg possible]
  cases (dropPadding text).mapM base64Value? with
  | none => exact iff_of_true rfl rfl
  | some values =>
    constructor
    · intro none
      cases none
    · intro none
      cases none

end

lemma decodeBase64_eq_none_iff (buffer) (more : Bool) :
    decodeBase64 buffer more = none ↔
      List.replicate 3 octetEquals <:+ wholeGroups (sanitize buffer) := by
  obtain ⟨padding, short, padded, whole⟩ := wholeGroups_padded buffer
  have threw := atob_eq_none_iff padded short whole
  rw [padded.endsWith_iff]
  change (atob (wholeGroups (sanitize buffer))).bind _ = none ↔ _
  constructor
  · intro none
    cases outcome : atob (wholeGroups (sanitize buffer)) with
    | none => exact (threw.mp outcome).ge
    | some decoded =>
      rw [outcome] at none
      cases none
  · intro enough
    rw [threw.mpr (by omega)]
    rfl

lemma Conversion.convert_eq_none_iff (conversion : Conversion) (buffer : BinaryString)
    (more : Bool) : conversion.convert buffer more = none ↔ conversion.Throws buffer := by
  cases conversion with
  | holdLine => exact iff_of_false (fun none => by cases none) id
  | decoder decoder =>
    cases decoder with
    | quotedPrintable => exact iff_of_false (fun none => by cases none) id
    | base64 => exact map_eq_none_iff.trans (decodeBase64_eq_none_iff buffer more)
    | object =>
      match buffer with
      | [] => exact iff_of_true rfl rfl
      | [c] => exact iff_of_false (fun none => by cases none) (cons_ne_nil _ _)
      | c :: d :: rest => exact iff_of_false (fun none => by cases none) (cons_ne_nil _ _)
    | prototype => exact iff_of_true rfl trivial

lemma base64Octets_length (values) : (base64Octets values).length ≤ values.length := by
  fun_induction base64Octets values with
  | case1 a b c d rest ih => exact (Nat.add_le_add_right ih 3).trans (Nat.le_succ _)
  | case2 | case3 => exact Nat.le_succ _
  | case4 => exact Nat.zero_le _

lemma mapM_length {α β : Type} {f : α → Option β} {list : List α} {values : List β}
    (mapped : list.mapM f = some values) : values.length = list.length := by
  induction list generalizing values with
  | nil =>
    cases mapped
    rfl
  | cons first rest ih =>
    rw [mapM_cons] at mapped
    obtain ⟨value, -, mapped⟩ := bind_eq_some_iff.mp mapped
    obtain ⟨others, ofRest, mapped⟩ := bind_eq_some_iff.mp mapped
    cases mapped
    exact congrArg (· + 1) (ih ofRest)

lemma atob_length {text decoded : BinaryString} (succeeded : atob text = some decoded) :
    decoded.length ≤ text.length := by
  rw [atob] at succeeded
  split at succeeded
  · cases succeeded
  · obtain ⟨values, mapped, same⟩ := bind_eq_some_iff.mp succeeded
    cases same
    have dropped : (dropPadding (text.filter (· ∉ asciiWhiteSpace))).length ≤
        (text.filter (· ∉ asciiWhiteSpace)).length := by
      rw [dropPadding]
      split
      · split
        · rw [length_dropLast, length_dropLast]
          omega
        · rw [length_dropLast]
          omega
      · exact le_refl _
    calc (base64Octets values).length
      _ ≤ values.length := base64Octets_length values
      _ = (dropPadding (text.filter (· ∉ asciiWhiteSpace))).length := mapM_length mapped
      _ ≤ (text.filter (· ∉ asciiWhiteSpace)).length := dropped
      _ ≤ text.length := length_filter_le _ _

lemma sanitize_length (buffer) : (sanitize buffer).length ≤ buffer.length := by
  let kept := buffer.filter fun c => (base64Value? c).isSome || c == octetEquals
  have padding : (kept.rtakeWhile (· == octetEquals)).length ≤
      (kept.filter (· == octetEquals)).length := by
    have own : (kept.rtakeWhile (· == octetEquals)).filter (· == octetEquals) =
        kept.rtakeWhile (· == octetEquals) :=
      filter_eq_self.mpr fun c mem => mem_rtakeWhile_imp (p := (· == octetEquals)) mem
    rw [← own]
    exact ((rtakeWhile_suffix _ _).sublist.filter _).length_le
  have parts : kept.length =
      (kept.filter (· == octetEquals)).length + (kept.filter (· != octetEquals)).length :=
    length_eq_length_filter_add _
  have bound : kept.length ≤ buffer.length := length_filter_le _ _
  rw [sanitize, length_append]
  change (kept.filter _).length + (kept.rtakeWhile _).length ≤ _
  omega

lemma decodeBase64_length {buffer decoded saved : BinaryString}
    (succeeded : decodeBase64 buffer more = some (decoded, saved)) :
    decoded.length + saved.length ≤ buffer.length := by
  obtain ⟨octets, ofGroups, same⟩ := bind_eq_some_iff.mp succeeded
  cases same
  have groups : (wholeGroups (sanitize buffer)).length ≤
      (sanitize buffer).length - (sanitize buffer).length % 4 := by
    rw [wholeGroups, length_take, length_take]
    omega
  have rest : (excess (sanitize buffer) more).length ≤ (sanitize buffer).length % 4 := by
    rw [excess]
    split
    · rw [length_drop]
      omega
    · exact Nat.zero_le _
  have whole := atob_length ofGroups
  have total := sanitize_length buffer
  have part := Nat.mod_le (sanitize buffer).length 4
  omega

lemma holdLastLine_append (buffer) (more : Bool) :
    (holdLastLine buffer more).1 ++ (holdLastLine buffer more).2 = buffer := by
  let splitPoint := if more then beforeLineEnd buffer else buffer.length
  let length := conditionedLength (buffer.take splitPoint)
  change (buffer.take splitPoint).take length ++
    ((buffer.take splitPoint).drop length ++ buffer.drop splitPoint) = buffer
  rw [← append_assoc, take_append_drop, take_append_drop]

lemma Conversion.convert_length {conversion : Conversion}
    (succeeded : conversion.convert buffer more = some converted) :
    if conversion = .decoder .object then converted.text.length = 1
    else ∃ saved, converted.saved = some saved ∧
      converted.text.length + saved.length ≤ buffer.length := by
  cases conversion with
  | holdLine =>
    cases succeeded
    refine ⟨_, rfl, ?_⟩
    rw [← length_append, holdLastLine_append]
  | decoder decoder =>
    cases decoder with
    | quotedPrintable =>
      cases succeeded
      exact ⟨[], rfl, decodeQp_length buffer⟩
    | base64 =>
      obtain ⟨⟨decoded, saved⟩, ofBuffer, same⟩ := map_eq_some_iff.mp succeeded
      cases same
      exact ⟨saved, rfl, decodeBase64_length ofBuffer⟩
    | object =>
      match buffer with
      | [] => cases succeeded
      | [c] =>
        cases succeeded
        rfl
      | c :: d :: rest =>
        cases succeeded
        rfl
    | prototype => cases succeeded

end CommCentral.Jsmime
