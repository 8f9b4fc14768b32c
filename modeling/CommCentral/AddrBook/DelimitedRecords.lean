import CommCentral.AddrBook.DelimitedFields
import Mathlib.Data.List.Forall2

/-! Exported address books are split into the records they were written from. -/
namespace CommCentral.AddrBook

open Jsmime List

/-- Every line break is the one of the platform. -/
inductive PlatformBreaks (platform : Platform) : JsString → Prop
  | nil : PlatformBreaks platform []
  | char {c : UInt16} {rest : JsString} (inside : isLineEnd c = false)
      (later : PlatformBreaks platform rest) : PlatformBreaks platform (c :: rest)
  | lineBreak {rest : JsString} (later : PlatformBreaks platform rest) :
      PlatformBreaks platform (platform.lineBreak ++ rest)

/-- Line breaks stand between quotes only, where `numQuotes` are before the text. -/
inductive BreaksQuoted (platform : Platform) : Nat → JsString → Prop
  | nil (numQuotes : Nat) : BreaksQuoted platform numQuotes []
  | char {numQuotes : Nat} {c : UInt16} {rest : JsString} (inside : isLineEnd c = false)
      (later : BreaksQuoted platform (numQuotes + List.count doubleQuote [c]) rest) :
      BreaksQuoted platform numQuotes (c :: rest)
  | lineBreak {numQuotes : Nat} {rest : JsString} (quoted : numQuotes % 2 = 1)
      (later : BreaksQuoted platform numQuotes rest) :
      BreaksQuoted platform numQuotes (platform.lineBreak ++ rest)

lemma count_lineBreak (platform : Platform) : platform.lineBreak.count doubleQuote = 0 := by
  cases platform <;> decide

lemma PlatformBreaks.append {text later : JsString} (first : PlatformBreaks platform text)
    (second : PlatformBreaks platform later) : PlatformBreaks platform (text ++ later) := by
  induction first with
  | nil => exact second
  | char inside _ ih => exact .char inside ih
  | lineBreak _ ih =>
    rw [append_assoc]
    exact .lineBreak ih

lemma BreaksQuoted.platformBreaks {text : JsString}
    (quoted : BreaksQuoted platform numQuotes text) : PlatformBreaks platform text := by
  induction quoted with
  | nil => exact .nil
  | char inside _ ih => exact .char inside ih
  | lineBreak _ _ ih => exact .lineBreak ih

lemma BreaksQuoted.append {text later : JsString} (first : BreaksQuoted platform numQuotes text)
    (second : BreaksQuoted platform (numQuotes + text.count doubleQuote) later) :
    BreaksQuoted platform numQuotes (text ++ later) := by
  induction first with
  | nil => exact second
  | char inside _ ih =>
    refine .char inside (ih ?_)
    rw [← singleton_append, count_append, ← Nat.add_assoc] at second
    exact second
  | lineBreak quoted _ ih =>
    rw [append_assoc]
    refine .lineBreak quoted (ih ?_)
    rw [count_append, count_lineBreak, Nat.zero_add] at second
    exact second

lemma BreaksQuoted.of_plain {text : JsString} (plain : ∀ c ∈ text, isLineEnd c = false)
    (numQuotes : Nat) : BreaksQuoted platform numQuotes text := by
  induction text generalizing numQuotes with
  | nil => exact .nil numQuotes
  | cons c text ih =>
    obtain ⟨inside, plain⟩ := forall_mem_cons.mp plain
    exact .char inside (ih plain _)

lemma skipLineEnd_lineBreak (breaks : PlatformBreaks platform rest) :
    skipLineEnd (platform.lineBreak ++ rest) = rest := by
  cases platform with
  | win =>
    change skipLineEnd (carriageReturn :: lineFeed :: rest) = rest
    rw [skipLineEnd, if_pos (.inl ⟨rfl, rfl⟩)]
  | other =>
    change skipLineEnd (lineFeed :: rest) = rest
    cases breaks with
    | nil => rfl
    | @char c rest inside later =>
      have notReturn : c ≠ carriageReturn := by
        intro same
        subst same
        exact absurd inside (by decide)
      rw [skipLineEnd, if_neg]
      rintro (⟨lineFeedReturn, _⟩ | ⟨_, same⟩)
      · exact absurd lineFeedReturn (by decide)
      · exact notReturn same
    | lineBreak later => rfl

lemma readLine_lineBreak {line rest : JsString} (plain : ∀ c ∈ line, isLineEnd c = false)
    (breaks : PlatformBreaks platform rest) :
    readLine (line ++ (platform.lineBreak ++ rest)) = (line, rest) := by
  have inside : ∀ c ∈ line, (!isLineEnd c) = true := by
    intro c mem
    rw [plain c mem]
    rfl
  have ended : (platform.lineBreak ++ rest).takeWhile (!isLineEnd ·) = [] ∧
      (platform.lineBreak ++ rest).dropWhile (!isLineEnd ·) = platform.lineBreak ++ rest := by
    cases platform <;> exact ⟨rfl, rfl⟩
  rw [readLine, takeWhile_append_of_pos inside, dropWhile_append_of_pos inside, ended.1,
    ended.2, append_nil, skipLineEnd_lineBreak breaks]

lemma BreaksQuoted.firstLine {text : JsString} (quoted : BreaksQuoted platform numQuotes text) :
    (∀ c ∈ text, isLineEnd c = false) ∨
      ∃ line later, text = line ++ (platform.lineBreak ++ later) ∧
        (∀ c ∈ line, isLineEnd c = false) ∧ (numQuotes + line.count doubleQuote) % 2 = 1 ∧
        BreaksQuoted platform (numQuotes + line.count doubleQuote) later := by
  induction quoted with
  | nil => exact .inl nofun
  | @char numQuotes c rest inside _ ih =>
    rcases ih with plain | ⟨line, later, rfl, plain, odd, quoted⟩
    · exact .inl (forall_mem_cons.mpr ⟨inside, plain⟩)
    · have counted : numQuotes + (c :: line).count doubleQuote =
          numQuotes + List.count doubleQuote [c] + line.count doubleQuote := by
        rw [← singleton_append, count_append, Nat.add_assoc]
      refine .inr ⟨c :: line, later, rfl, forall_mem_cons.mpr ⟨inside, plain⟩, ?_, ?_⟩
      · rw [counted]
        exact odd
      · rw [counted]
        exact quoted
  | @lineBreak numQuotes rest odd later _ => exact .inr ⟨[], rest, rfl, nofun, odd, later⟩

lemma readRecordLoop_spec (breaks : PlatformBreaks platform rest) (fuel : Nat)
    {aLine text : JsString} (counted : numQuotes = aLine.count doubleQuote)
    (quoted : BreaksQuoted platform numQuotes text)
    (closed : (numQuotes + text.count doubleQuote) % 2 = 0) (enough : text.length < fuel) :
    readRecordLoop platform fuel true numQuotes aLine (text ++ (platform.lineBreak ++ rest)) =
      (some ((if aLine.isEmpty then aLine else aLine ++ platform.lineBreak) ++ text), rest) := by
  induction fuel generalizing numQuotes aLine text with
  | zero => exact absurd enough (Nat.not_lt_zero _)
  | succ fuel ih =>
    rw [readRecordLoop, if_pos rfl]
    rcases quoted.firstLine with plain | ⟨line, later, rfl, plain, odd, quoted⟩
    · rw [readLine_lineBreak plain breaks]
      dsimp only
      rw [if_neg (by simp [closed])]
    · have breaksLater : PlatformBreaks platform (later ++ (platform.lineBreak ++ rest)) :=
        quoted.platformBreaks.append (.lineBreak breaks)
      rw [append_assoc, append_assoc, readLine_lineBreak plain breaksLater]
      dsimp only
      rw [if_pos (by rw [odd]; exact Nat.one_ne_zero)]
      have counted : numQuotes + line.count doubleQuote =
          ((if aLine.isEmpty then aLine else aLine ++ platform.lineBreak) ++ line).count
            doubleQuote := by
        rw [count_append, apply_ite (List.count doubleQuote), count_append,
          count_lineBreak, Nat.add_zero, ite_self, counted]
      have goesOn : (!(later ++ (platform.lineBreak ++ rest)).isEmpty) = true := by
        cases platform <;> simp [Platform.lineBreak]
      have closed : (numQuotes + line.count doubleQuote + later.count doubleQuote) % 2 = 0 := by
        rw [count_append, count_append, count_lineBreak, Nat.zero_add] at closed
        rw [Nat.add_assoc]
        exact closed
      have enough : later.length < fuel := by
        rw [length_append, length_append] at enough
        have : 0 < platform.lineBreak.length := by cases platform <;> decide
        omega
      -- An odd number of quotes has been read, so the record is not empty.
      have begun : ((if aLine.isEmpty then aLine else aLine ++ platform.lineBreak) ++
          line).isEmpty = false := by
        rw [isEmpty_eq_false_iff]
        intro nothing
        rw [counted, nothing] at odd
        exact absurd odd (by decide)
      rw [goesOn, ih counted quoted closed enough, begun, if_neg Bool.false_ne_true]
      simp only [append_assoc]

lemma readRecord_spec {text rest : JsString} (breaks : PlatformBreaks platform rest)
    (quoted : BreaksQuoted platform 0 text) (closed : text.count doubleQuote % 2 = 0) :
    readRecord platform (text ++ (platform.lineBreak ++ rest)) = (some text, rest) := by
  have enough : text.length < (text ++ (platform.lineBreak ++ rest)).length + 2 := by
    rw [length_append]
    omega
  rw [readRecord, readRecordLoop_spec breaks _ count_nil.symm quoted (by rwa [Nat.zero_add])
    enough]
  rfl

/-- Records whose quotes are closed, as a text. -/
def recordsText (platform : Platform) (records : List JsString) : JsString :=
  records.flatMap (· ++ platform.lineBreak)

lemma recordsText_cons (record) (records) :
    recordsText platform (record :: records) =
      record ++ (platform.lineBreak ++ recordsText platform records) := by
  rw [recordsText, flatMap_cons, append_assoc]
  rfl

/-- The quotes of a record are closed, and its line breaks are quoted. -/
structure WellQuoted (platform : Platform) (record : JsString) : Prop where
  quoted : BreaksQuoted platform 0 record
  closed : record.count doubleQuote % 2 = 0

lemma recordsText_breaks
    (quoted : ∀ record ∈ records, WellQuoted platform record) :
    PlatformBreaks platform (recordsText platform records) := by
  induction records with
  | nil => exact .nil
  | cons record records ih =>
    obtain ⟨here, later⟩ := forall_mem_cons.mp quoted
    rw [recordsText_cons]
    exact here.quoted.platformBreaks.append (.lineBreak (ih later))

section

variable (begun : records ≠ []) (quoted : ∀ record ∈ records, WellQuoted platform record)
include begun quoted

lemma readRecordsLoop_spec (fuel : Nat) (enough : records.length ≤ fuel) :
    readRecordsLoop platform fuel (recordsText platform records) = some records := by
  induction fuel generalizing records with
  | zero => exact absurd (length_eq_zero_iff.mp (Nat.le_zero.mp enough)) begun
  | succ fuel ih =>
    cases records with
    | nil => exact absurd rfl begun
    | cons record records =>
      obtain ⟨here, later⟩ := forall_mem_cons.mp quoted
      rw [readRecordsLoop, recordsText_cons,
        readRecord_spec (recordsText_breaks later) here.quoted here.closed]
      dsimp only
      cases records with
      | nil => rfl
      | cons next records =>
        have goesOn : (recordsText platform (next :: records)).isEmpty = false := by
          rw [recordsText_cons]
          cases platform <;> simp [Platform.lineBreak]
        rw [goesOn, if_neg Bool.false_ne_true,
          ih (cons_ne_nil _ _) later (Nat.le_of_succ_le_succ enough)]
        rfl

lemma readRecords_spec : readRecords platform (recordsText platform records) = some records := by
  apply readRecordsLoop_spec begun quoted
  clear begun quoted
  induction records with
  | nil => exact Nat.zero_le _
  | cons record records ih =>
    have : 0 < platform.lineBreak.length := by cases platform <;> decide
    rw [recordsText_cons, length_append, length_append, length_cons]
    omega

end

lemma count_doubleQuotes (value) :
    (doubleQuotes value).count doubleQuote = 2 * value.count doubleQuote := by
  induction value with
  | nil => rfl
  | cons c value ih =>
    by_cases quote : c = doubleQuote
    · rw [quote, doubleQuotes_quote, count_cons_self, count_cons_self,
        count_cons_self, ih]
      omega
    · rw [doubleQuotes_other quote, count_cons_of_ne quote, count_cons_of_ne quote, ih]

lemma doubleQuotes_append (text later) :
    doubleQuotes (text ++ later) = doubleQuotes text ++ doubleQuotes later :=
  flatMap_append

lemma doubleQuotes_quoted {value : JsString} (breaks : PlatformBreaks platform value)
    (odd : numQuotes % 2 = 1) : BreaksQuoted platform numQuotes (doubleQuotes value) := by
  induction breaks generalizing numQuotes with
  | nil => exact .nil numQuotes
  | @char c rest inside _ ih =>
    by_cases quote : c = doubleQuote
    · subst quote
      rw [doubleQuotes_quote]
      refine .char inside (.char inside (ih ?_))
      rw [count_singleton_self]
      omega
    · rw [doubleQuotes_other quote]
      refine .char inside (ih ?_)
      rw [count_singleton, if_neg (by simpa using quote)]
      exact odd
  | @lineBreak rest _ ih =>
    have kept : doubleQuotes platform.lineBreak = platform.lineBreak := by
      cases platform <;> rfl
    rw [doubleQuotes_append, kept]
    exact .lineBreak odd (ih odd)

lemma exportValue_wellQuoted {value : JsString} (breaks : PlatformBreaks platform value)
    (even : numQuotes % 2 = 0) :
    BreaksQuoted platform numQuotes (exportValue value) ∧
      (exportValue value).count doubleQuote % 2 = 0 := by
  rcases exportValue_cases value with quoted | ⟨same, noQuote, plain⟩
  · rw [quoted]
    refine ⟨.char rfl ?_, ?_⟩
    · refine (doubleQuotes_quoted breaks ?_).append (.of_plain (by decide) _)
      rw [count_singleton_self]
      omega
    · rw [count_cons_self, count_append, count_singleton_self, count_doubleQuotes]
      omega
  · rw [same]
    refine ⟨.of_plain ?_ _, by rw [count_eq_zero.mpr noQuote]⟩
    intro c mem
    have special := plain c mem
    simp only [mem_cons, not_or] at special
    simp [isLineEnd, special]

lemma fieldsText_quoted (delimiter : IsDelimiter delim)
    (breaks : ∀ value ∈ values, PlatformBreaks platform value) (even : numQuotes % 2 = 0) :
    BreaksQuoted platform numQuotes (fieldsText delim values) ∧
      (fieldsText delim values).count doubleQuote % 2 = 0 := by
  have inside : isLineEnd delim = false ∧ delim ≠ doubleQuote := by
    rcases delimiter with rfl | rfl <;> decide
  fun_induction fieldsText delim values generalizing numQuotes with
  | case1 => exact ⟨.nil numQuotes, rfl⟩
  | case2 value => exact exportValue_wellQuoted (breaks value mem_cons_self) even
  | case3 value next values ih =>
    obtain ⟨here, later⟩ := forall_mem_cons.mp breaks
    obtain ⟨quoted, closed⟩ := exportValue_wellQuoted here even
    have evenLater : (numQuotes + (exportValue value).count doubleQuote +
        List.count doubleQuote [delim]) % 2 = 0 := by
      rw [count_singleton, if_neg (by simpa using inside.2)]
      omega
    obtain ⟨quotedLater, closedLater⟩ := ih later evenLater
    refine ⟨quoted.append (.char inside.1 quotedLater), ?_⟩
    rw [count_append, count_cons_of_ne inside.2]
    omega

def exportedColumns : List String := (exportAttributes.filter (·.2 ≠ 0)).map (·.1)

def Card.exported (card : Card) : List JsString := exportedColumns.map (card.getProperty · [])

lemma fieldsText_cons (delim : UInt16) (value) (values) :
    fieldsText delim (value :: values) =
      exportValue value ++ values.flatMap (delim :: exportValue ·) := by
  induction values generalizing value with
  | nil => rw [fieldsText, flatMap_nil, append_nil]
  | cons next values ih =>
    rw [fieldsText, ih]
    rfl

/-- All columns but the first stand behind a delimiter. -/
theorem exportRow_later (delim : UInt16) (cell : String × Nat → JsString)
    (columns : List (String × Nat)) (start : Nat) :
    ((columns.zipIdx (start + 1)).flatMap fun (column, i) =>
        if column.2 = 0 then [] else (if i ≠ 0 then [delim] else []) ++ cell column) =
      (columns.filter (·.2 ≠ 0)).flatMap (delim :: cell ·) := by
  induction columns generalizing start with
  | nil => rfl
  | cons column columns ih =>
    rw [zipIdx_cons, flatMap_cons, ih]
    dsimp only
    by_cases exported : column.2 = 0
    · rw [if_pos exported, filter_cons_of_neg (by simpa using exported)]
      rfl
    · rw [if_neg exported, if_pos (Nat.succ_ne_zero start),
        filter_cons_of_pos (by simpa using exported)]
      rfl

lemma exportRow_card (delim : UInt16) (card : Card) :
    exportRow delim (fun column => exportValue (card.getProperty column.1 [])) =
      fieldsText delim card.exported := by
  have first : exportAttributes = ("FirstName", 2100) :: exportAttributes.tail := rfl
  have later := exportRow_later delim (fun column => exportValue (card.getProperty column.1 []))
    exportAttributes.tail 0
  refine (congrArg (exportValue (card.getProperty "FirstName" []) ++ ·) later).trans ?_
  rw [Card.exported, exportedColumns, first, filter_cons_of_pos (by decide), map_cons,
    map_cons, fieldsText_cons, map_map, flatMap_map]
  rfl

/-- A column's title is plain text on one line. -/
def PlainTitles (getStringFromID : Nat → JsString) : Prop :=
  ∀ column ∈ exportAttributes, column.2 ≠ 0 →
    ∀ c ∈ getStringFromID column.2, c ≠ doubleQuote ∧ isLineEnd c = false

lemma titles_wellQuoted (delimiter : IsDelimiter delim) {getStringFromID : Nat → JsString}
    (titles : PlainTitles getStringFromID) :
    WellQuoted platform (exportRow delim fun column => getStringFromID column.2) := by
  have plain : ∀ c ∈ exportRow delim (fun column => getStringFromID column.2),
      c ≠ doubleQuote ∧ isLineEnd c = false := by
    intro c mem
    obtain ⟨⟨column, i⟩, listed, mem⟩ := mem_flatMap.mp mem
    dsimp only at mem
    split at mem
    · exact absurd mem not_mem_nil
    · rename_i exported
      rcases mem_append.mp mem with before | inTitle
      · split at before
        · rw [mem_singleton.mp before]
          rcases delimiter with rfl | rfl <;> decide
        · exact absurd before not_mem_nil
      · exact titles column (fst_mem_of_mem_zipIdx listed) exported c inTitle
  refine ⟨.of_plain (fun c mem => (plain c mem).2) 0, ?_⟩
  rw [count_eq_zero.mpr fun mem => (plain _ mem).1 rfl]

lemma export_eq_recordsText (platform) (getStringFromID : Nat → JsString) (childCards)
    (delim : UInt16) :
    exportDirectoryToDelimitedText platform getStringFromID childCards delim =
      recordsText platform ((exportRow delim fun column => getStringFromID column.2) ::
        (childCards.filter (!·.isMailList)).map (fieldsText delim ·.exported)) := by
  rw [recordsText_cons, exportDirectoryToDelimitedText, append_assoc]
  congr 2
  induction childCards with
  | nil => rfl
  | cons card cards ih =>
    rw [flatMap_cons, ih]
    cases mailList : card.isMailList with
    | true =>
      rw [if_pos rfl, filter_cons_of_neg (by simp [mailList])]
      rfl
    | false =>
      rw [if_neg Bool.false_ne_true, filter_cons_of_pos (by simp [mailList]), map_cons,
        recordsText_cons, exportRow_card, append_assoc]

/-- What an exported value has to be like to come back. -/
structure Portable (platform : Platform) (value : JsString) : Prop extends Unpadded value where
  breaks : PlatformBreaks platform value

/-- After the titles there is one record for each card, with the card's values as its fields. -/
def ImportsBack (platform : Platform) (delim : UInt16) (childCards : List Card)
    (text : JsString) : Prop :=
  ∃ titles records, readRecords platform text = some (titles :: records) ∧
    List.Forall₂
      (fun record card => ∀ (index : Nat) (bound : index < card.exported.length),
        (getField record index delim).2 = card.exported[index])
      records (childCards.filter (!·.isMailList))

lemma readRecords_export (delimiter : IsDelimiter delim) {getStringFromID : Nat → JsString}
    (titles : PlainTitles getStringFromID) (portable : ∀ card ∈ childCards, card.isMailList = false
      → ∀ value ∈ card.exported, Portable platform value) :
    readRecords platform
        (exportDirectoryToDelimitedText platform getStringFromID childCards delim) =
      some ((exportRow delim fun column => getStringFromID column.2) ::
        (childCards.filter (!·.isMailList)).map (fieldsText delim ·.exported)) := by
  rw [export_eq_recordsText]
  apply readRecords_spec (cons_ne_nil _ _)
  rw [forall_mem_cons]
  refine ⟨titles_wellQuoted delimiter titles, ?_⟩
  intro record mem
  obtain ⟨card, listed, rfl⟩ := mem_map.mp mem
  obtain ⟨listed, exported⟩ := mem_filter.mp listed
  have breaks : ∀ value ∈ card.exported, PlatformBreaks platform value := fun value mem =>
    (portable card listed (by simpa using exported) value mem).breaks
  obtain ⟨quoted, closed⟩ := fieldsText_quoted delimiter breaks (Nat.zero_mod 2)
  exact ⟨quoted, closed⟩

/-- An exported address book comes back exactly when no exported value has two adjacent double
quotes. -/
theorem export_importsBack_iff {delim : UInt16} (delimiter : IsDelimiter delim)
    {getStringFromID : Nat → JsString} (titles : PlainTitles getStringFromID)
    {childCards : List Card}
    (portable : ∀ card ∈ childCards, card.isMailList = false →
      ∀ value ∈ card.exported, Portable platform value) :
    ImportsBack platform delim childCards
        (exportDirectoryToDelimitedText platform getStringFromID childCards delim) ↔
      ∀ card ∈ childCards, card.isMailList = false →
        ∀ value ∈ card.exported, ¬ HasAdjacentQuotes value := by
  have records := readRecords_export delimiter titles portable
  have fields : ∀ card ∈ childCards.filter (!·.isMailList),
      (∀ (index : Nat) (bound : index < card.exported.length),
          (getField (fieldsText delim card.exported) index delim).2 = card.exported[index]) ↔
        ∀ value ∈ card.exported, ¬ HasAdjacentQuotes value := by
    intro card mem
    obtain ⟨listed, exported⟩ := mem_filter.mp mem
    exact getField_fieldsText_iff delimiter fun value mem =>
      (portable card listed (by simpa using exported) value mem).toUnpadded
  constructor
  · intro ⟨titles, rows, read, back⟩ card listed exported
    obtain ⟨-, rfl⟩ := List.cons.inj (Option.some.inj (records.symm.trans read))
    rw [forall₂_map_left_iff, forall₂_same] at back
    have mem : card ∈ childCards.filter (!·.isMailList) :=
      mem_filter.mpr ⟨listed, by rw [exported]; rfl⟩
    exact (fields card mem).mp (back card mem)
  · intro single
    refine ⟨_, _, records, ?_⟩
    rw [forall₂_map_left_iff, forall₂_same]
    intro card mem
    obtain ⟨listed, exported⟩ := mem_filter.mp mem
    exact (fields card mem).mpr (single card listed (by simpa using exported))

/-- The English titles, by the numbers of their strings from 2100 on. -/
def englishTitles : List JsString :=
  [js "First Name", js "Last Name", js "Display Name", js "Nickname", js "Primary Email",
    js "Secondary Email", js "Work Phone", js "Home Phone", js "Fax Number", js "Pager Number",
    js "Mobile Number", js "Home Address", js "Home Address 2", js "Home City", js "Home State",
    js "Home ZipCode", js "Home Country", js "Work Address", js "Work Address 2", js "Work City",
    js "Work State", js "Work ZipCode", js "Work Country", js "Job Title", js "Department",
    js "Organization", js "Web Page 1", js "Web Page 2", js "Birth Year", js "Birth Month",
    js "Birth Day", js "Custom 1", js "Custom 2", js "Custom 3", js "Custom 4", js "Notes",
    js "Screen Name"]

def getEnglishTitle (id : Nat) : JsString := englishTitles.getD (id - 2100) []

/-- A card with nothing but a nickname and notes. -/
def nicknamed (nickName notes : JsString) : Card where
  isMailList := false
  properties := fun name =>
    if name = "NickName" then some nickName else if name = "Notes" then some notes else none

lemma nicknamed_exported {nickName notes value : JsString}
    (mem : value ∈ (nicknamed nickName notes).exported) :
    value = nickName ∨ value = notes ∨ value = [] := by
  obtain ⟨name, _, rfl⟩ := mem_map.mp mem
  unfold Card.getProperty nicknamed
  dsimp only
  split
  · exact .inl rfl
  · split
    · exact .inr (.inl rfl)
    · exact .inr (.inr rfl)

lemma nicknamed_portable (ofName : Portable platform nickName)
    (ofNotes : Portable platform notes) :
    ∀ card ∈ [nicknamed nickName notes], card.isMailList = false →
      ∀ value ∈ card.exported, Portable platform value := by
  intro card mem _ value exported
  cases mem_singleton.mp mem
  rcases nicknamed_exported exported with rfl | rfl | rfl
  · exact ofName
  · exact ofNotes
  · exact ⟨⟨not_mem_nil, nofun, nofun⟩, .nil⟩

lemma PlatformBreaks.of_plain {text : JsString} (plain : ∀ c ∈ text, isLineEnd c = false) :
    PlatformBreaks platform text :=
  (BreaksQuoted.of_plain plain 0).platformBreaks

/-- Quotes at both ends of a value, next to a comma and on the second line of the notes. -/
theorem export_importsBack_iff_quotedNickname :
    ImportsBack .win comma [nicknamed (js "\"Jo\",\"J\"") (js "one,\r\ntwo \"2\"")]
      (exportDirectoryToDelimitedText .win getEnglishTitle
        [nicknamed (js "\"Jo\",\"J\"") (js "one,\r\ntwo \"2\"")] comma) := by
  have notes : PlatformBreaks .win (js "one,\r\ntwo \"2\"") := by
    change PlatformBreaks .win (js "one," ++ (Platform.win.lineBreak ++ js "two \"2\""))
    exact (PlatformBreaks.of_plain (by decide)).append (.lineBreak (.of_plain (by decide)))
  refine (export_importsBack_iff (.inl rfl) ?_ ?_).mpr ?_
  · unfold PlainTitles
    decide +kernel
  · apply nicknamed_portable
    · exact ⟨⟨by decide, by decide, by decide⟩, .of_plain (by decide)⟩
    · exact ⟨⟨by decide, by decide, by decide⟩, notes⟩
  · intro card mem _ value exported
    cases mem_singleton.mp mem
    rcases nicknamed_exported exported with rfl | rfl | rfl
    · exact (upToPair_eq_self_iff _).mp (by decide)
    · exact (upToPair_eq_self_iff _).mp (by decide)
    · exact not_hasAdjacentQuotes_nil

/-- The nickname `A""B` comes back as `A"`. -/
theorem export_loses_adjacentQuotes :
    ¬ ∀ (platform : Platform) (delim : UInt16) (getStringFromID : Nat → JsString)
        (childCards : List Card), IsDelimiter delim → PlainTitles getStringFromID →
      (∀ card ∈ childCards, card.isMailList = false →
        ∀ value ∈ card.exported, Portable platform value) →
      ImportsBack platform delim childCards
        (exportDirectoryToDelimitedText platform getStringFromID childCards delim) := by
  intro imports
  have portable : ∀ card ∈ [nicknamed (js "A\"\"B") []], card.isMailList = false →
      ∀ value ∈ card.exported, Portable .other value := by
    apply nicknamed_portable
    · exact ⟨⟨by decide, by decide, by decide⟩, .of_plain (by decide)⟩
    · exact ⟨⟨not_mem_nil, nofun, nofun⟩, .nil⟩
  obtain ⟨titles, records, read, back⟩ :=
    imports .other comma getEnglishTitle _ (.inl rfl) (by unfold PlainTitles; decide +kernel)
      portable
  have found : (readRecords .other (exportDirectoryToDelimitedText .other getEnglishTitle
      [nicknamed (js "A\"\"B") []] comma)).map
        (fun records => records.tail.map fun record => (getField record 3 comma).2) =
      some [js "A\""] := by
    decide +kernel
  rw [read, Option.map_some, tail_cons, Option.some_inj] at found
  cases back with
  | cons same _ =>
    have nickName := (List.cons.inj found).1.symm.trans (same 3 (by decide +kernel))
    exact absurd nickName (by decide +kernel)

end CommCentral.AddrBook
