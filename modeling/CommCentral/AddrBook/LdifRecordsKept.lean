import CommCentral.AddrBook.LdifSecondPass

/-! When the import hands on every record of an LDIF file once. -/
namespace CommCentral.AddrBook
open List

/-- The lines of the records that are lists, or that are none, in their order. -/
def recordsOf (bIsList : Bool) (records : List LdifRecord) : List (Bool × List Bytes) :=
  (records.filter (·.isList == bIsList)).map fun record => (bIsList, logicalLines record.lines)

namespace LdifFile

/-- The ends of the buffers the file is read in. -/
def edge (file : LdifFile) : Nat → Bool := Import.bufferEdge file.bytes.length

/-- The line breaks in front of the first record. -/
def lead (file : LdifFile) : Bytes := file.lineEnd.breaks file.leading

/-- Each record with the line feeds counted when it begins. -/
def starts (file : LdifFile) : List (LdifRecord × Nat) :=
  AddrBook.starts file.edge file.lineEnd file.lead.length
    (pendingFeeds file.edge 0 0 file.lead) file.records

def lists (file : LdifFile) : List (LdifRecord × Nat) := file.starts.filter (·.1.isList)

/-- The line feeds that are still counted when the second pass begins. -/
def stale (file : LdifFile) : Nat := staleFeeds file.edge file.lineEnd file.lead.length file.records

end LdifFile

/-- A list begins with other than one line feed counted. Behind one that could not be added, which
is handed on in its place, it has the lines of that one. -/
def ListsFollow (addMailList : Nat → Bool) : Nat → List (LdifRecord × Nat) → Prop
  | added, (record, _) :: (next, pending) :: starts =>
    (if addMailList added then pending ≠ 1
      else logicalLines record.lines = logicalLines next.lines) ∧
    ListsFollow addMailList (added + 1) ((next, pending) :: starts)
  | _, _ => True

/-- Where no record begins with exactly one line feed counted, and a list in the end is followed by
a blank line. -/
structure LdifFile.KeepsRecords (addMailList : Nat → Bool) (file : LdifFile) : Prop where
  persons : ∀ start ∈ file.starts, start.1.isList = false → start.2 ≠ 1
  lastRecord : ∀ record ∈ file.records.getLast?, record.isList = true → 2 ≤ record.breaks
  firstList : ∀ first ∈ file.lists.head?, first.2 ≠ 1 ∧ file.stale = 0
  lists : ListsFollow addMailList 0 file.lists

lemma starts_records (edge : Nat → Bool) (lineEnd) (pos pending : Nat) (records) :
    (starts edge lineEnd pos pending records).map (·.1) = records := by
  induction records generalizing pos pending with
  | nil => rfl
  | cons record records ih => exact congrArg (record :: ·) (ih _ _)

variable (file : LdifFile)

lemma LdifFile.starts_records : file.starts.map (·.1) = file.records :=
  AddrBook.starts_records _ _ _ _ _

lemma LdifFile.recordsOf_eq (bIsList : Bool) :
    recordsOf bIsList file.records =
      (file.starts.filter (·.1.isList == bIsList)).map
        fun start => (bIsList, logicalLines start.1.lines) := by
  rw [recordsOf, ← file.starts_records, filter_map, map_map]
  rfl

lemma logicalLines_ne_nil (record : LdifRecord) : logicalLines record.lines ≠ [] := by
  cases lines : record.lines with
  | nil => exact absurd lines record.begun
  | cons line more =>
    rw [logicalLines]
    unfold continueLine
    split
    · exact cons_ne_nil _ _
    · split
      · split
        · exact cons_ne_nil _ _
        · exact cons_ne_nil _ _
      · exact cons_ne_nil _ _

lemma handedLines_eq_iff (start : LdifRecord × Nat) :
    handedLines start = logicalLines start.1.lines ↔ start.2 ≠ 1 := by
  change (if start.2 = 1 then [] else logicalLines start.1.lines) = _ ↔ _
  by_cases one : start.2 = 1
  · rw [if_pos one]
    constructor
    · intro none
      exact absurd none.symm (logicalLines_ne_nil start.1)
    · intro other
      exact absurd one other
  · rw [if_neg one]
    exact ⟨fun _ => one, fun _ => rfl⟩

variable {starts : List (LdifRecord × Nat)}

lemma isList_of_mem_keptLists {start : LdifRecord × Nat}
    (kept : start ∈ keptLists starts) : start.1.isList = true := by
  induction starts with
  | nil => exact absurd kept not_mem_nil
  | cons first starts ih =>
    cases starts with
    | nil =>
      rw [keptLists] at kept
      split at kept
      · rename_i both
        rw [mem_singleton.mp kept]
        exact both.1
      · exact absurd kept not_mem_nil
    | cons next starts =>
      rw [keptLists] at kept
      split at kept
      · rename_i isList
        rcases mem_cons.mp kept with rfl | later
        · exact isList
        · exact ih later
      · exact ih kept

lemma keptLists_eq
    (ends : ∀ last ∈ starts.getLast?, last.1.isList = true → 2 ≤ last.1.breaks) :
    keptLists starts = starts.filter (·.1.isList) := by
  induction starts with
  | nil => rfl
  | cons first starts ih =>
    cases starts with
    | nil =>
      have ends := ends first rfl
      rw [keptLists]
      by_cases isList : first.1.isList = true
      · rw [if_pos ⟨isList, ends isList⟩, filter_cons (x := first), if_pos isList]
        rfl
      · rw [if_neg (fun both => isList both.1), filter_cons (x := first), if_neg isList]
        rfl
    | cons next starts =>
      rw [getLast?_cons_cons] at ends
      rw [keptLists, ih ends]
      by_cases isList : first.1.isList = true
      · rw [if_pos isList, filter_cons (x := first), if_pos isList]
      · rw [if_neg isList, filter_cons (x := first), if_neg isList]

lemma keptLists_lt {last : LdifRecord × Nat}
    (isLast : last ∈ starts.getLast?) (isList : last.1.isList = true) (open_ : last.1.breaks < 2) :
    (keptLists starts).length < (starts.filter (·.1.isList)).length := by
  induction starts with
  | nil => exact absurd isLast (Option.not_mem_none last)
  | cons first starts ih =>
    cases starts with
    | nil =>
      have same : first = last := Option.some.inj isLast
      subst same
      rw [keptLists, if_neg (by omega), filter_cons (x := first), if_pos isList]
      exact Nat.succ_pos _
    | cons next starts =>
      rw [getLast?_cons_cons] at isLast
      have later := ih isLast
      rw [keptLists]
      by_cases isList : first.1.isList = true
      · rw [if_pos isList, filter_cons (x := first), if_pos isList]
        exact Nat.succ_lt_succ later
      · rw [if_neg isList, filter_cons (x := first), if_neg isList]
        exact later

section

variable (addMailList : Nat → Bool)
include addMailList

lemma listEntries_eq_iff (added : Nat) (held) (start) (starts) :
    listEntries addMailList added held (start :: starts) =
        (start :: starts).map (logicalLines ·.1.lines) ↔
      held.getD (handedLines start) = logicalLines start.1.lines ∧
        ListsFollow addMailList added (start :: starts) := by
  induction starts generalizing added held start with
  | nil => simp [listEntries, ListsFollow]
  | cons next starts ih =>
    rw [listEntries, map_cons, cons_eq_cons, ih, ListsFollow]
    apply and_congr_right
    intro same
    rw [same]
    cases addMailList added with
    | true =>
      simp only [if_true, Option.getD_none]
      exact and_congr_left' (handedLines_eq_iff next)
    | false => simp only [if_false, Bool.false_eq_true, Option.getD_some]

lemma listEntries_length (added : Nat) (held) (starts) :
    (listEntries addMailList added held starts).length = starts.length := by
  induction starts generalizing added held with
  | nil => rfl
  | cons start starts ih => exact congrArg (· + 1) (ih _ _)

lemma importLDIFFile_eq (file) :
    importLDIFFile addMailList file =
      (readLists addMailList file
        ((Import.feed addMailList (Import.bufferEdge file.length) 0 {} file).finish addMailList)
        ((Import.feed addMailList (Import.bufferEdge file.length) 0 {} file).finish
          addMailList).lists).map (·.handed) := by
  rw [importLDIFFile, Import.readFile_feed _ rfl (Nat.zero_add _) (Nat.lt_succ_self _)]
  rfl

lemma firstPass (file : LdifFile) (some_ : file.records ≠ []) :
    Import.Passed addMailList file.edge file.lineEnd file.bytes file.lead.length
      (pendingFeeds file.edge 0 0 file.lead) file.records {}
      ((Import.feed addMailList file.edge 0 {} file.bytes).finish addMailList) := by
  have run : BreakRun false file.lead false := BreakRun.breaks file.lineEnd file.leading
  obtain ⟨passed, leftover, after, split, behind, count, balanced, opened⟩ :=
    Import.opened_idle addMailList file.edge run {} rfl (rfl : _ = 0)
  cases records : file.records with
  | nil => exact absurd records some_
  | cons record records' =>
    have whole : file.bytes =
        passed ++ leftover ++ recordsBytes file.lineEnd (record :: records') := by
      rw [LdifFile.bytes, records, ← split]
      rfl
    have bytes : file.bytes = file.lead ++ recordsBytes file.lineEnd (record :: records') := by
      rw [whole, split]
    have last : file.edge file.bytes.length = true := by
      unfold LdifFile.edge Import.bufferEdge
      simp
    obtain ⟨c, rest, head, notFeed, notReturn⟩ := recordsBytes_head file.lineEnd record records'
    have separated := file.separated
    rw [records] at separated
    have begins : Import.AtRecord passed leftover (pendingFeeds file.edge 0 0 file.lead)
        { ({} : Import) with
          service := { mLdifLine := opening (pendingFeeds file.edge 0 0 file.lead) }
          savedStartPos := 0 + passed.length } := ⟨Nat.zero_add _, rfl, count⟩
    have done := Import.feed_records addMailList file.lineEnd last record records' separated behind
      begins whole
    have fed : Import.feed addMailList file.edge 0 {} file.bytes =
        Import.feed addMailList file.edge file.lead.length
          { ({} : Import) with
            service := { mLdifLine := opening (pendingFeeds file.edge 0 0 file.lead) }
            savedStartPos := 0 + passed.length }
          (recordsBytes file.lineEnd (record :: records')) := by
      conv_lhs => rw [bytes]
      rw [Import.feed_append, head, ← Import.feed_opened balanced notFeed notReturn, opened]
      simp only [Nat.zero_add]
    rw [← split] at done
    rw [fed]
    obtain ⟨handed, mailListsAdded, lists, service⟩ := done
    exact ⟨handed, mailListsAdded, lists, service⟩

lemma importLDIFFile_noRecords {file : LdifFile} (none : file.records = []) :
    importLDIFFile addMailList file.bytes = some [] := by
  have run : BreakRun false file.lead false := BreakRun.breaks file.lineEnd file.leading
  have bytes : file.bytes = file.lead := by
    rw [LdifFile.bytes, none]
    exact append_nil _
  obtain ⟨ended, passed, _, _, _, _, idle⟩ :=
    Import.feed_idle addMailList file.edge run {} 0 (Nat.le_refl 0) 0
  change Import.feed addMailList file.edge 0 {} file.lead = _ at idle
  rw [importLDIFFile_eq]
  change (readLists addMailList file.bytes
    ((Import.feed addMailList file.edge 0 {} file.bytes).finish addMailList)
    ((Import.feed addMailList file.edge 0 {} file.bytes).finish addMailList).lists).map _ = _
  rw [bytes, idle]
  rfl

end

/-- Entries that are not of lists come before those that are. -/
theorem append_handed {persons persons' lists lists' : List (Bool × List Bytes)}
    (person : ∀ entry ∈ persons, entry.1 = false) (person' : ∀ entry ∈ persons', entry.1 = false)
    (list : ∀ entry ∈ lists, entry.1 = true) (list' : ∀ entry ∈ lists', entry.1 = true)
    (same : persons ++ lists = persons' ++ lists') : persons = persons' ∧ lists = lists' := by
  have keepsNot : ∀ {entries : List (Bool × List Bytes)}, (∀ entry ∈ entries, entry.1 = false) →
      entries.filter (·.1) = [] := by
    intro entries all
    apply filter_eq_nil_iff.mpr
    intro entry mem
    rw [all entry mem]
    exact Bool.false_ne_true
  have filtered := congrArg (List.filter (·.1)) same
  rw [filter_append, filter_append, keepsNot person, keepsNot person',
    filter_eq_self.mpr list, filter_eq_self.mpr list'] at filtered
  have lists_eq : lists = lists' := filtered
  rw [lists_eq] at same
  exact ⟨append_cancel_right same, lists_eq⟩

lemma handedOf_fst {starts : List (LdifRecord × Nat)} {entry : Bool × List Bytes}
    (mem : entry ∈ handedOf bIsList starts) : entry.1 = bIsList := by
  obtain ⟨_, _, rfl⟩ := mem_map.mp mem
  rfl

lemma recordsOf_fst {entry : Bool × List Bytes} (mem : entry ∈ recordsOf bIsList records) :
    entry.1 = bIsList := by
  obtain ⟨_, _, rfl⟩ := mem_map.mp mem
  rfl

/-- What an import hands on where no line feeds are left over for its second pass. -/
theorem importLDIFFile_handed (addMailList : Nat → Bool) (file : LdifFile)
    (fresh : keptLists file.starts = [] ∨ file.stale = 0) :
    importLDIFFile addMailList file.bytes =
      some (handedOf false file.starts ++
        (listEntries addMailList 0 none (keptLists file.starts)).map (true, ·)) := by
  by_cases some_ : file.records = []
  · rw [importLDIFFile_noRecords addMailList some_, LdifFile.starts, some_]
    rfl
  · obtain ⟨handed, mailListsAdded, ⟨lists, listed, regions⟩, returns, atMost, service⟩ :=
      firstPass addMailList file some_
    rw [importLDIFFile_eq]
    change (readLists addMailList file.bytes
      ((Import.feed addMailList file.edge 0 {} file.bytes).finish addMailList)
      ((Import.feed addMailList file.edge 0 {} file.bytes).finish addMailList).lists).map _ = _
    generalize (Import.feed addMailList file.edge 0 {} file.bytes).finish addMailList = ended at *
    change ended.handed = handedOf false file.starts at handed
    change ended.lists = lists at listed
    change List.Forall₂ _ lists (keptLists file.starts) at regions
    change ended.mailListsAdded = 0 at mailListsAdded
    rw [listed, ← handed]
    rcases fresh with none | zero
    · rw [none] at regions ⊢
      cases regions
      rw [readLists, listEntries, map_nil, append_nil]
      rfl
    · have empty : ended.service = {} := by
        change staleFeeds _ _ _ _ = 0 at zero
        rw [zero] at atMost service
        rw [service, Nat.le_zero.mp atMost]
      rw [← mailListsAdded]
      exact readLists_entries addMailList regions (fun start => isList_of_mem_keptLists) empty

/-- Line feeds left over for the second pass spoil the first list. -/
theorem importLDIFFile_stale (addMailList : Nat → Bool) (file : LdifFile)
    (kept : keptLists file.starts ≠ []) (stale : file.stale ≠ 0) :
    importLDIFFile addMailList file.bytes = none ∨
      ∃ more, (∀ entry ∈ more, entry.1 = true) ∧ importLDIFFile addMailList file.bytes =
        some (handedOf false file.starts ++ (true, []) :: more) := by
  have some_ : file.records ≠ [] := by
    intro none
    rw [LdifFile.starts, none] at kept
    exact kept rfl
  obtain ⟨handed, mailListsAdded, ⟨lists, listed, regions⟩, returns, atMost, service⟩ :=
    firstPass addMailList file some_
  rw [importLDIFFile_eq]
  change (readLists addMailList file.bytes
    ((Import.feed addMailList file.edge 0 {} file.bytes).finish addMailList)
    ((Import.feed addMailList file.edge 0 {} file.bytes).finish addMailList).lists).map _ = _ ∨
    ∃ more, _ ∧ (readLists addMailList file.bytes
    ((Import.feed addMailList file.edge 0 {} file.bytes).finish addMailList)
    ((Import.feed addMailList file.edge 0 {} file.bytes).finish addMailList).lists).map _ = _
  generalize (Import.feed addMailList file.edge 0 {} file.bytes).finish addMailList = ended at *
  change ended.handed = handedOf false file.starts at handed
  change ended.lists = lists at listed
  change List.Forall₂ _ lists (keptLists file.starts) at regions
  rw [listed, ← handed]
  have isList : ∀ start ∈ keptLists file.starts, start.1.isList = true :=
    fun start => isList_of_mem_keptLists
  cases starts : keptLists file.starts with
  | nil => exact absurd starts kept
  | cons start later =>
    rw [starts] at regions isList
    obtain ⟨here, isList⟩ := forall_mem_cons.mp isList
    cases regions with
    | @cons region _ lists _ region_ regions =>
      have empty : ended.service.mLdifLine = [] := by
        rw [service]
      have count : ended.service.mLFCount ≠ 0 := by
        rw [service]
        exact stale
      have balanced : ended.service.mCRCount ≤ ended.service.mLFCount := by
        rw [service]
        exact atMost
      rcases readLists_stale addMailList region_ here empty count balanced lists with
        loops | ⟨next, read, handedNext, added, holds⟩
      · left
        rw [loops]
        rfl
      · right
        have entries := readLists_entries addMailList regions isList holds
        refine ⟨(listEntries addMailList next.mailListsAdded
          (if addMailList ended.mailListsAdded then none else some []) later).map (true, ·), ?_, ?_⟩
        · intro entry mem
          obtain ⟨_, _, rfl⟩ := mem_map.mp mem
          rfl
        · rw [read, entries, handedNext, append_assoc]
          rfl

lemma LdifFile.lists_lines :
    recordsOf true file.records =
      (file.lists.map (logicalLines ·.1.lines)).map (true, ·) := by
  rw [file.recordsOf_eq, LdifFile.lists, map_map]
  have same : (fun start : LdifRecord × Nat => start.1.isList == true) =
      fun start => start.1.isList := funext fun start => beq_true _
  rw [same]
  rfl

/-- The persons are handed on as they stand where none begins with one line feed counted. -/
theorem LdifFile.persons_iff :
    handedOf false file.starts = recordsOf false file.records ↔
      ∀ start ∈ file.starts, start.1.isList = false → start.2 ≠ 1 := by
  rw [file.recordsOf_eq, handedOf, map_inj_left]
  constructor
  · intro same start mem person
    have kept : start ∈ file.starts.filter (·.1.isList == false) := by
      rw [mem_filter]
      exact ⟨mem, by rw [person]; rfl⟩
    exact (handedLines_eq_iff start).mp (Prod.mk.inj (same start kept)).2
  · intro apart start kept
    obtain ⟨mem, person⟩ := mem_filter.mp kept
    rw [(handedLines_eq_iff start).mpr (apart start mem (by simpa using person))]

lemma LdifFile.getLast_records : file.records.getLast? = file.starts.getLast?.map (·.1) := by
  rw [← file.starts_records, getLast?_map]

/-- The lists are handed on as they stand where each follows on the one before it. -/
theorem LdifFile.lists_iff (addMailList : Nat → Bool) (file : LdifFile) :
    listEntries addMailList 0 none (keptLists file.starts) =
        file.lists.map (logicalLines ·.1.lines) ↔
      (∀ record ∈ file.records.getLast?, record.isList = true → 2 ≤ record.breaks) ∧
        (∀ first ∈ file.lists.head?, first.2 ≠ 1) ∧ ListsFollow addMailList 0 file.lists := by
  have follows : listEntries addMailList 0 none file.lists =
      file.lists.map (logicalLines ·.1.lines) ↔
        (∀ first ∈ file.lists.head?, first.2 ≠ 1) ∧ ListsFollow addMailList 0 file.lists := by
    cases file.lists with
    | nil => simp [listEntries, ListsFollow]
    | cons start starts =>
      rw [listEntries_eq_iff, Option.getD_none, handedLines_eq_iff, head?_cons]
      apply and_congr_left'
      simp
  rw [← follows, file.getLast_records]
  constructor
  · intro same
    have closed : ∀ last ∈ file.starts.getLast?, last.1.isList = true → 2 ≤ last.1.breaks := by
      intro last isLast isList
      by_contra few
      have shorter := keptLists_lt isLast isList (Nat.lt_of_not_le few)
      have length := congrArg List.length same
      rw [listEntries_length, length_map] at length
      exact absurd length (Nat.ne_of_lt shorter)
    constructor
    · intro record isLast
      obtain ⟨last, mem, rfl⟩ := Option.map_eq_some_iff.mp isLast
      exact closed last mem
    · rw [keptLists_eq closed] at same
      exact same
  · rintro ⟨closed, same⟩
    rw [keptLists_eq]
    · exact same
    · intro last isLast
      exact closed last.1 (Option.mem_map_of_mem _ isLast)

/-- A file that begins with a blank line: `dn: a` and `dn: b`. -/
def blankFirst : LdifFile where
  lineEnd := .lf
  leading := 1
  records := [
    { lines := [[0x64, 0x6E, 0x3A, 0x20, 0x61]], breaks := 2, begun := by decide
      isLine := by decide },
    { lines := [[0x64, 0x6E, 0x3A, 0x20, 0x62]], breaks := 1, begun := by decide
      isLine := by decide }]
  separated := ⟨Nat.le_refl 2, trivial⟩

end CommCentral.AddrBook
