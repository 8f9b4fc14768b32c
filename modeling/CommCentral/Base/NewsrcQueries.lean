import CommCentral.Base.KeySetRoundTrip

/-! The answers of `IsMember` and `FirstNonMember` on a set that was read from a newsrc line with
entries in any order. -/
namespace CommCentral.Base
open Lib List

/-- A number or a range of a newsrc line, with the commas and blanks behind it. A range has a dash
and a second number; blanks may stand before the dash. -/
structure NewsrcEntry where
  digits : List Char
  range : Option (List Char × List Char)
  separators : List Char
  number : digits ≠ [] ∧ ∀ character ∈ digits, character.isDigit = true
  upper : ∀ blanks last, range = some (blanks, last) →
    (∀ character ∈ blanks, isSpace character = true) ∧
      ∀ character ∈ last, character.isDigit = true
  separated : ∀ character ∈ separators, character = ',' ∨ isSpace character = true

namespace NewsrcEntry
variable (entry : NewsrcEntry)

def rangeText : Option (List Char × List Char) → List Char
  | none => []
  | some (blanks, last) => blanks ++ '-' :: last

def text : List Char := entry.digits ++ (rangeText entry.range ++ entry.separators)

def value (digits : List Char) : Int := (Nat.ofDigitChars 10 digits 0 : Nat)

/-- The last number of the entry. A range that goes down has the first number only. -/
def last : Int :=
  match entry.range with
  | none => value entry.digits
  | some (_, digits) => max (value entry.digits) (value digits)

/-- The numbers that the entry stands for. Article 0 counts as listed together with article 1. -/
def chunk : Chunk where
  first := if value entry.digits = 1 then 0 else value entry.digits
  last := entry.last
  nonnegative := by
    split
    · exact Int.le_refl 0
    · exact Int.natCast_nonneg _
  ordered := by
    have nonnegative : 0 ≤ value entry.digits := Int.natCast_nonneg _
    rw [last]
    split <;> split <;> omega

end NewsrcEntry

/-- A newsrc line without the name of the group: something separates each entry from the next. -/
structure NewsrcLine where
  blanks : List Char
  entries : List NewsrcEntry
  leading : ∀ character ∈ blanks, isSpace character = true
  separate : ∀ entry ∈ entries.dropLast, entry.separators ≠ []

namespace NewsrcLine

def text (line : NewsrcLine) : List Char := line.blanks ++ line.entries.flatMap NewsrcEntry.text

def chunks (line : NewsrcLine) : List Chunk := line.entries.map NewsrcEntry.chunk

end NewsrcLine

def StartsEntry (rest : List Char) : Prop := ∀ character ∈ rest.head?, character.isDigit = true

lemma startsEntry_entries (entries : List NewsrcEntry) :
    StartsEntry (entries.flatMap NewsrcEntry.text) := by
  cases entries with
  | nil =>
    intro character none
    cases none
  | cons entry entries =>
    obtain ⟨digit, digits, shape⟩ := exists_cons_of_ne_nil entry.number.1
    have first : digit ∈ entry.digits := by
      rw [shape]
      exact mem_cons_self
    rw [flatMap_cons, NewsrcEntry.text, shape]
    rintro _ ⟨⟩
    exact entry.number.2 digit first

lemma StartsEntry.not_space (starts : StartsEntry rest) : skipSpace rest = rest :=
  skipSpace_of_head fun character head => digit_not_space (starts character head)

lemma StartsEntry.not_separator (starts : StartsEntry rest) :
    rest.dropWhile (fun character => character == ',' || isSpace character) = rest := by
  cases rest with
  | nil => rfl
  | cons digit rest =>
    have isDigit := starts digit rfl
    rw [dropWhile_cons_of_neg]
    rw [digit_not_space isDigit, Bool.or_false]
    intro isComma
    rw [beq_iff_eq.mp isComma] at isDigit
    cases isDigit

/-- Blanks and commas between two entries. -/
def Separators (text : List Char) : Prop :=
  ∀ character ∈ text, character = ',' ∨ isSpace character = true

lemma dropWhile_skipSpace (text) :
    (skipSpace text).dropWhile (fun character => character == ',' || isSpace character) =
      text.dropWhile (fun character => character == ',' || isSpace character) := by
  induction text with
  | nil => rfl
  | cons character text ih =>
    by_cases blank : isSpace character = true
    · have both : (character == ',' || isSpace character) = true := by rw [blank, Bool.or_true]
      have dropped : (character :: text).dropWhile
          (fun character => character == ',' || isSpace character) =
            text.dropWhile (fun character => character == ',' || isSpace character) :=
        dropWhile_cons_of_pos both
      rw [skipSpace, dropWhile_cons_of_pos blank, dropped]
      exact ih
    · rw [skipSpace, dropWhile_cons_of_neg blank]

lemma Separators.skipped (separated : Separators separators)
    (starts : StartsEntry rest) :
    (skipSpace (separators ++ rest)).dropWhile
      (fun character => character == ',' || isSpace character) = rest := by
  rw [dropWhile_skipSpace, dropWhile_append_of_pos]
  · exact starts.not_separator
  · intro character mem
    rw [Bool.or_eq_true, beq_iff_eq]
    exact separated character mem

lemma Separators.no_dash (separated : Separators separators)
    (starts : StartsEntry rest) :
    ∀ character ∈ (skipSpace (separators ++ rest)).head?, character ≠ '-' := by
  induction separators with
  | nil =>
    rw [nil_append, starts.not_space]
    rintro character head rfl
    cases starts _ head
  | cons separator separators ih =>
    obtain ⟨first, others⟩ := forall_mem_cons.mp separated
    by_cases blank : isSpace separator = true
    · rw [cons_append, skipSpace, dropWhile_cons_of_pos blank]
      exact ih others
    · rw [first.resolve_right blank]
      rintro _ ⟨⟩
      decide

lemma readLast_none {text : List Char} (first : Int)
    (none : ∀ character ∈ text.head?, character ≠ '-') : readLast first text = (first, text) := by
  cases text with
  | nil => rfl
  | cons character text =>
    rw [readLast]
    rintro rest ⟨⟩
    exact none '-' rfl rfl

lemma Separators.no_digit (separated : Separators separators)
    (apart : separators = [] → rest = []) :
    ∀ character ∈ (separators ++ rest).head?, character.isDigit = false := by
  cases separators with
  | nil =>
    rw [apart rfl]
    intro character none
    cases none
  | cons separator separators =>
    rintro _ ⟨⟩
    rcases separated separator mem_cons_self with comma | blank
    · rw [comma]
      rfl
    · apply Bool.eq_false_iff.mpr
      intro isDigit
      rw [digit_not_space isDigit] at blank
      cases blank

lemma readEntry_text (entry : NewsrcEntry) (starts : StartsEntry rest)
    (apart : entry.separators = [] → rest = []) :
    readChunk (entry.text ++ rest) = entry.chunk ∧ nextEntry (entry.text ++ rest) = rest := by
  have separated : Separators entry.separators := entry.separated
  have digitsEnd := separated.no_digit apart
  have skipped := separated.skipped starts
  cases shape : entry.range with
  | none =>
    have first : readDigits 0 (entry.text ++ rest) =
        (NewsrcEntry.value entry.digits, entry.separators ++ rest) := by
      rw [NewsrcEntry.text, shape, append_assoc]
      exact readDigits_append 0 entry.number.2 digitsEnd
    have read : readEntry (entry.text ++ rest) =
        (entry.chunk.first, entry.chunk.last, skipSpace (entry.separators ++ rest)) := by
      have last : entry.chunk.last = NewsrcEntry.value entry.digits := by
        change entry.last = _
        rw [NewsrcEntry.last, shape]
      rw [readEntry, first]
      simp only [readLast_none _ (separated.no_dash starts), lt_irrefl, if_false, last]
      rfl
    constructor
    · apply Chunk.eq_of_bounds
      · exact congrArg Prod.fst read
      · exact congrArg (fun read => read.2.1) read
    · rw [nextEntry, read]
      exact skipped
  | some range =>
    obtain ⟨blanks, digits⟩ := range
    obtain ⟨areBlanks, areDigits⟩ := entry.upper blanks digits shape
    have first : readDigits 0 (entry.text ++ rest) = (NewsrcEntry.value entry.digits,
        blanks ++ '-' :: (digits ++ (entry.separators ++ rest))) := by
      have text : entry.text ++ rest =
          entry.digits ++ (blanks ++ '-' :: (digits ++ (entry.separators ++ rest))) := by
        rw [NewsrcEntry.text, shape, NewsrcEntry.rangeText]
        simp only [append_assoc, cons_append]
      rw [text]
      apply readDigits_append 0 entry.number.2
      cases blanks with
      | nil =>
        rintro _ ⟨⟩
        rfl
      | cons blank blanks =>
        rintro _ ⟨⟩
        apply Bool.eq_false_iff.mpr
        intro isDigit
        have isBlank := areBlanks blank mem_cons_self
        rw [digit_not_space isDigit] at isBlank
        cases isBlank
    have dash : skipSpace (blanks ++ '-' :: (digits ++ (entry.separators ++ rest))) =
        '-' :: (digits ++ (entry.separators ++ rest)) := by
      rw [skipSpace, dropWhile_append_of_pos areBlanks]
      rfl
    have second : readDigits 0 (digits ++ (entry.separators ++ rest)) =
        (NewsrcEntry.value digits, entry.separators ++ rest) :=
      readDigits_append 0 areDigits digitsEnd
    have read : readEntry (entry.text ++ rest) =
        (entry.chunk.first, entry.chunk.last, skipSpace (entry.separators ++ rest)) := by
      have last : entry.chunk.last =
          if NewsrcEntry.value digits < NewsrcEntry.value entry.digits then
            NewsrcEntry.value entry.digits
          else NewsrcEntry.value digits := by
        change entry.last = _
        rw [NewsrcEntry.last, shape]
        simp only
        split <;> omega
      rw [readEntry, first]
      simp only [dash, readLast, second, last]
      rfl
    constructor
    · apply Chunk.eq_of_bounds
      · exact congrArg Prod.fst read
      · exact congrArg (fun read => read.2.1) read
    · rw [nextEntry, read]
      exact skipped

lemma readChunks_entries {entries : List NewsrcEntry}
    (separate : ∀ entry ∈ entries.dropLast, entry.separators ≠ [])
    (enough : entries.length < fuel) :
    readChunks fuel (entries.flatMap NewsrcEntry.text) = entries.map NewsrcEntry.chunk := by
  induction entries generalizing fuel with
  | nil =>
    obtain ⟨fuel, rfl⟩ := Nat.exists_eq_add_of_lt enough
    exact if_pos rfl
  | cons entry entries ih =>
    obtain ⟨fuel, rfl⟩ : ∃ more, fuel = more + 1 := ⟨fuel - 1, by omega⟩
    have starts := startsEntry_entries (entry :: entries)
    have apart : entry.separators = [] → entries.flatMap NewsrcEntry.text = [] := by
      intro none
      cases entries with
      | nil => rfl
      | cons next entries => exact absurd none (separate entry mem_cons_self)
    have later : ∀ other ∈ entries.dropLast, other.separators ≠ [] := by
      intro other mem
      apply separate other
      cases entries with
      | nil => cases mem
      | cons next entries => exact mem_cons_of_mem entry mem
    obtain ⟨read, next⟩ := readEntry_text entry (startsEntry_entries entries) apart
    have legal : ¬ ((entry :: entries).flatMap NewsrcEntry.text).head?.any
        (fun character => !character.isDigit) := by
      rw [Option.any_eq_true]
      rintro ⟨character, head, notDigit⟩
      rw [starts character head] at notDigit
      cases notDigit
    have nonempty : (entry :: entries).flatMap NewsrcEntry.text ≠ [] := by
      rw [flatMap_cons, NewsrcEntry.text, append_assoc]
      exact append_ne_nil_of_left_ne_nil entry.number.1 _
    rw [readChunks, if_neg nonempty, starts.not_space, if_neg legal, flatMap_cons, read, next,
      ih later (Nat.lt_of_succ_lt_succ enough), map_cons]

namespace MsgKeySet

/-- `FirstNonMember`, with the block after its reads. -/
def firstNonMember (junk : Junk) (set : MsgKeySet) : Block × Int :=
  if set.length ≤ 0 then (set.data, 1)
  else
    let data := set.data.touch 0
    let first := data.word junk.outside 0
    let second := data.word junk.outside 1
    if first < 0 then
      -- The first range is right of 0 and 1, or the number behind it is presumed to be missing.
      if second ≠ 1 ∧ second ≠ 0 then (data.touch 1, 1)
      else (data.touch 1, add32 (second - first) 1)
    else if first = 1 then
      if set.length > 1 then (data.touch 1, if second = 2 then 3 else 2) else (data, 2)
    else if first = 0 then
      if set.length > 1 then (data.touch 1, if second = 1 then 2 else 1) else (data, 1)
    else (data, 1)

/-- Each number that a chunk has below the start of an earlier one is before that one, too. -/
def FoundInOrder (chunks : List Chunk) : Prop :=
  ∀ front chunk back, chunks = front ++ chunk :: back → ∀ number < chunk.first,
    Holds back number → Holds front number

/-- The number behind the first chunk, if this starts at 0, is not in any chunk. -/
def Answerable (chunks : List Chunk) : Prop :=
  FoundInOrder chunks ∧ ∀ first ∈ chunks.head?, first.first = 0 →
    first.last + 1 < 2 ^ 31 ∧ ¬ Holds chunks (first.last + 1)

/-- The set after some queries. -/
def asked (junk : Junk) (set : MsgKeySet) (queries : List Int) : MsgKeySet :=
  queries.foldl (fun set number => (isMember junk set number).1) set

variable (junk : Junk) {set : MsgKeySet} {chunks : List Chunk}

lemma asked_keeps (layout : Layout set.data set.length 0 chunks) (cache : CacheWithin set chunks)
    (queries) :
    Layout (asked junk set queries).data (asked junk set queries).length 0 chunks ∧
      CacheWithin (asked junk set queries) chunks := by
  induction queries generalizing set with
  | nil => exact ⟨layout, cache⟩
  | cons number queries ih =>
    obtain ⟨front, back, stops, run⟩ := isMember_scans junk layout cache number
    have next : asked junk set (number :: queries) =
        asked junk (isMember junk set number).1 queries := rfl
    rw [next, run]
    exact ih layout fun _ => ⟨front, back, stops.split, rfl, stops.passed⟩

def reaches (number : Int) (chunk : Chunk) : Bool := number ≤ chunk.last

lemma reaches_iff (number : Int) (chunk) :
    reaches number chunk = true ↔ number ≤ chunk.last := decide_eq_true_iff

/-- The first chunk that does not end below the number starts at or below it. -/
def Scanned (chunks : List Chunk) (number : Int) : Prop :=
  ∃ chunk ∈ chunks.find? (reaches number), chunk.first ≤ number

lemma isMember_iff_scanned (layout : Layout set.data set.length 0 chunks)
    (cache : CacheWithin set chunks) (number : Int) :
    (isMember junk set number).2 = true ↔ Scanned chunks number := by
  obtain ⟨front, back, stops, run⟩ := isMember_scans junk layout cache number
  have passed : front.find? (reaches number) = none := by
    rw [find?_eq_none]
    intro chunk mem above
    rw [reaches_iff] at above
    have below := stops.passed chunk mem
    omega
  rw [run, Scanned, stops.split, find?_append, passed, Option.none_or]
  change startsBelow number back = true ↔ _
  cases back with
  | nil => simp [startsBelow]
  | cons chunk back =>
    have upper := (reaches_iff number chunk).mpr (stops.stopped chunk rfl)
    rw [find?_cons_of_pos upper, startsBelow, decide_eq_true_eq]
    simp

lemma scanned_holds {number : Int} (scanned : Scanned chunks number) : Holds chunks number := by
  obtain ⟨chunk, found, lower⟩ := scanned
  have upper := (reaches_iff number chunk).mp (find?_some found)
  exact (holds_iff ..).mpr ⟨chunk, mem_of_find?_eq_some found, lower, upper⟩

lemma scanned_iff_holds :
    (∀ number, Scanned chunks number ↔ Holds chunks number) ↔ FoundInOrder chunks := by
  constructor
  · rintro exact front chunk back rfl number below held
    have inBack : Holds (front ++ chunk :: back) number := by
      rw [holds_append, holds_cons]
      exact .inr (.inr held)
    obtain ⟨found, first, lower⟩ := (exact number).mpr inBack
    rw [find?_append] at first
    cases early : front.find? (reaches number) with
    | none =>
      have ordered := chunk.ordered
      have upper := (reaches_iff number chunk).mpr (by omega)
      rw [early, Option.none_or, find?_cons_of_pos upper] at first
      cases first
      omega
    | some other =>
      rw [early, Option.some_or] at first
      cases first
      have upper := (reaches_iff number found).mp (find?_some early)
      exact (holds_iff ..).mpr ⟨found, mem_of_find?_eq_some early, lower, upper⟩
  · intro order number
    refine ⟨scanned_holds, fun held => ?_⟩
    obtain ⟨chunk, mem, -, upper⟩ := (holds_iff ..).mp held
    cases search : chunks.find? (reaches number) with
    | none =>
      exact absurd ((reaches_iff number chunk).mpr upper) (find?_eq_none.mp search chunk mem)
    | some found =>
      obtain ⟨-, front, back, split, passed⟩ := find?_eq_some_iff_append.mp search
      refine ⟨found, search, ?_⟩
      by_contra above
      have notFront : ¬ Holds front number := by
        intro inFront
        obtain ⟨earlier, member', -, upper'⟩ := (holds_iff ..).mp inFront
        have stopped := passed earlier member'
        rw [(reaches_iff number earlier).mpr upper'] at stopped
        cases stopped
      rw [split, holds_append, holds_cons] at held
      have inBack : Holds back number :=
        (held.resolve_left notFront).resolve_left fun inside => above inside.1
      exact notFront (order front found back split number (Int.not_le.mp above) inBack)

/-- What `FirstNonMember` makes of the first chunk, where no chunk starts at 1. -/
def behindFirst : List Chunk → Int
  | [] => 1
  | chunk :: _ => if chunk.first = 0 then add32 chunk.last 1 else 1

lemma firstNonMember_spec (layout : Layout set.data set.length 0 chunks)
    (notOne : ∀ chunk ∈ chunks, chunk.first ≠ 1) :
    (firstNonMember junk set).2 = behindFirst chunks := by
  cases chunks with
  | nil =>
    have none : set.length = 0 := layout.nil_ends.symm
    rw [firstNonMember, if_pos (by omega)]
    rfl
  | cons chunk chunks =>
    have starts := notOne chunk mem_cons_self
    rcases layout_cases junk layout with
      ⟨before, touched, single, head, notNegative, -, next⟩ |
      ⟨before, touched, several, head, negative, touched', start, -, next⟩
    · have second : set.length > 1 → set.data.word junk.outside 1 ≠ 1 := by
        intro more
        cases chunks with
        | nil =>
          have ends := next.nil_ends
          omega
        | cons other chunks =>
          have otherStarts := notOne other (mem_cons_of_mem _ mem_cons_self)
          rcases layout_cases junk next with
            ⟨-, -, -, word, -, -, -⟩ | ⟨-, -, -, word, negative, -, -, -, -⟩
          · rw [word]
            exact otherStarts
          · rw [word]
            omega
      rw [firstNonMember, if_neg (by omega)]
      simp only [touched, head, if_neg notNegative, if_neg starts, behindFirst]
      by_cases zero : chunk.first = 0
      · have one : add32 chunk.last 1 = 1 := by rw [← single, zero]; rfl
        rw [if_pos zero, if_pos zero, one]
        split
        · exact if_neg (second ‹_›)
        · rfl
      · rw [if_neg zero, if_neg zero]
    · rw [firstNonMember, if_neg (by omega)]
      simp only [touched, head, if_pos negative, start, behindFirst]
      by_cases zero : chunk.first = 0
      · have last : chunk.first - -(chunk.last - chunk.first) = chunk.last := by omega
        rw [if_neg (fun nonzero => nonzero.2 zero), if_pos zero, last]
      · rw [if_pos ⟨starts, zero⟩, if_neg zero]

/-- A sum that does not fit into an `int32_t` is reduced. -/
theorem add32_one_le {number : Int} (nonnegative : 0 ≤ number) :
    add32 number 1 ≤ number + 1 ∧ add32 number 1 < 2 ^ 31 := by
  rw [add32, Int.bmod_def]
  split <;> omega

lemma behindFirst_least (notOne : ∀ chunk ∈ chunks, chunk.first ≠ 1)
    (order : FoundInOrder chunks) :
    IsLeast {number | 0 < number ∧ ¬ Holds chunks number} (behindFirst chunks) ↔
      ∀ first ∈ chunks.head?, first.first = 0 →
        first.last + 1 < 2 ^ 31 ∧ ¬ Holds chunks (first.last + 1) := by
  have one : ¬ Holds chunks 1 → IsLeast {number | 0 < number ∧ ¬ Holds chunks number} 1 :=
    fun absent => ⟨⟨Int.one_pos, absent⟩, fun number missing => missing.1⟩
  cases chunks with
  | nil =>
    refine iff_of_true (one (not_holds_nil 1)) ?_
    intro first none
    cases none
  | cons chunk chunks =>
    have nonnegative := chunk.nonnegative
    have ordered := chunk.ordered
    have single : (∀ first ∈ (chunk :: chunks).head?, first.first = 0 →
          first.last + 1 < 2 ^ 31 ∧ ¬ Holds (chunk :: chunks) (first.last + 1)) ↔
        (chunk.first = 0 → chunk.last + 1 < 2 ^ 31 ∧ ¬ Holds (chunk :: chunks) (chunk.last + 1)) := by
      constructor
      · exact fun condition => condition chunk rfl
      · rintro condition _ ⟨⟩
        exact condition
    rw [single, behindFirst]
    by_cases zero : chunk.first = 0
    · rw [if_pos zero, forall_prop_of_true zero]
      have inside : ∀ number, 0 < number → number ≤ chunk.last → Holds (chunk :: chunks) number := by
        intro number positive upper
        rw [holds_cons]
        exact .inl ⟨by omega, upper⟩
      obtain ⟨atMost, small⟩ := add32_one_le (show 0 ≤ chunk.last by omega)
      constructor
      · rintro ⟨⟨positive, absent⟩, -⟩
        have same : add32 chunk.last 1 = chunk.last + 1 := by
          by_contra different
          exact absent (inside _ positive (by omega))
        rw [← same]
        exact ⟨small, absent⟩
      · rintro ⟨fits, absent⟩
        have same : add32 chunk.last 1 = chunk.last + 1 := by
          apply Int.bmod_eq_of_le <;> omega
        rw [same]
        refine ⟨⟨by omega, absent⟩, ?_⟩
        rintro number ⟨positive, missing⟩
        by_contra below
        exact missing (inside number positive (by omega))
    · rw [if_neg zero]
      refine iff_of_true (one ?_) (fun same => absurd same zero)
      intro held
      rw [holds_cons] at held
      rcases held with inside | later
      · have starts := notOne chunk mem_cons_self
        omega
      · have starts := notOne chunk mem_cons_self
        exact not_holds_nil 1 (order [] chunk chunks rfl 1 (by omega) later)

lemma length_le_entries (entries : List NewsrcEntry) :
    entries.length ≤ (entries.flatMap NewsrcEntry.text).length := by
  induction entries with
  | nil => exact Nat.le_refl _
  | cons entry entries ih =>
    have some := length_pos_iff.mpr entry.number.1
    rw [flatMap_cons, length_append, length_cons, NewsrcEntry.text,
      length_append]
    omega

lemma create_line (line : NewsrcLine) :
    Layout (create junk line.text).data (create junk line.text).length 0 line.chunks ∧
      (create junk line.text).cachedValue = -1 := by
  have skipped : skipSpace line.text = line.entries.flatMap NewsrcEntry.text := by
    rw [NewsrcLine.text, skipSpace, dropWhile_append_of_pos line.leading]
    exact (startsEntry_entries line.entries).not_space
  have enough : line.entries.length < (skipSpace line.text).length + 1 := by
    rw [skipped]
    exact Nat.lt_succ_of_le (length_le_entries line.entries)
  have layout := (create_spec junk line.text).layout
  rw [skipped, readChunks_entries line.separate (skipped ▸ enough)] at layout
  exact ⟨layout, rfl⟩

def Lists (line : NewsrcLine) (number : Int) : Prop :=
  ∃ entry ∈ line.entries, entry.chunk.first ≤ number ∧ number ≤ entry.chunk.last

lemma lists_iff (line) (number : Int) : Lists line number ↔ Holds line.chunks number := by
  rw [holds_iff]
  constructor
  · rintro ⟨entry, mem, inside⟩
    exact ⟨entry.chunk, mem_map_of_mem mem, inside⟩
  · rintro ⟨chunk, mem, inside⟩
    obtain ⟨entry, member', rfl⟩ := mem_map.mp mem
    exact ⟨entry, member', inside⟩

/-- `5,3` -/
def reversedLine : NewsrcLine where
  blanks := []
  entries := [⟨['5'], none, [','], by decide, nofun, by decide⟩,
    ⟨['3'], none, [], by decide, nofun, by decide⟩]
  leading := by decide
  separate := by decide

end MsgKeySet

end CommCentral.Base
