import CommCentral.Lib.Iterator

/-! The enumerator over the rows of a table of headers (`nsMsgDBEnumerator`) with a filter. -/
namespace CommCentral.MsgDB

open Lib List

/-- `nsMsgMessageFlags::Expunged` -/
def expungedFlag : UInt32 := 0x8

/-- The members of `nsMsgDBEnumerator` that change: the position of the cursor, which is -1 before
the first row, the prefetched header, and the two flags. -/
structure MsgEnumerator (Hdr : Type) where
  rowCursor : Option Int
  resultHdr : Option Hdr
  nextPrefetched : Bool
  done : Bool

/-- `morkTableRowCursor::NextRow`: the row and the position of the cursor. -/
def nextRow {Hdr : Type} (table : List Hdr) (cursorPos : Int) : Option Hdr × Int :=
  let pos := if cursorPos < 0 then 0 else cursorPos + 1
  if pos < table.length then (table[pos.toNat]?, pos) else (none, cursorPos)

namespace MsgEnumerator

variable {Hdr : Type}

def new : MsgEnumerator Hdr := ⟨none, none, false, false⟩

/-- The table, the flags that `GetFlags` returns and the filter. -/
structure Source (Hdr : Type) where
  table : List Hdr
  flags : Hdr → UInt32
  filter : Option (Hdr → Bool)

variable (source : Source Hdr)

/-- The condition under which the loop of `PrefetchNext` goes on. -/
def passesOver (hdr : Hdr) : Bool :=
  source.filter.any (fun filter => !filter hdr) && source.flags hdr &&& expungedFlag == 0

/-- The loop of `PrefetchNext`: the header it stops at and the position of the cursor. -/
def prefetchLoop : (fuel : Nat) → (cursorPos : Int) → Option Hdr × Int
  | 0, cursorPos => (none, cursorPos)
  | fuel + 1, cursorPos =>
    match nextRow source.table cursorPos with
    | (none, cursorPos) => (none, cursorPos)
    | (some hdr, cursorPos) =>
      if passesOver source hdr then prefetchLoop fuel cursorPos else (some hdr, cursorPos)

def prefetchNext (enumerator : MsgEnumerator Hdr) : MsgEnumerator Hdr × Bool :=
  let enumerator := match enumerator.rowCursor with
    | none => { enumerator with rowCursor := some (-1), done := false }
    | some _ => enumerator
  match prefetchLoop source (source.table.length + 1) (enumerator.rowCursor.getD (-1)) with
  | (none, cursorPos) =>
    ({ enumerator with rowCursor := some cursorPos, resultHdr := none, done := true }, false)
  | (some hdr, cursorPos) =>
    ({ enumerator with
      rowCursor := some cursorPos
      resultHdr := some hdr
      nextPrefetched := true }, true)

def getNext (enumerator : MsgEnumerator Hdr) : MsgEnumerator Hdr × Option Hdr :=
  let (enumerator, rv) :=
    if enumerator.nextPrefetched then (enumerator, true) else prefetchNext source enumerator
  if rv then
    match enumerator.resultHdr with
    | some hdr => ({ enumerator with nextPrefetched := false }, some hdr)
    | none => (enumerator, none)
  else (enumerator, none)

def hasMoreElements (enumerator : MsgEnumerator Hdr) : MsgEnumerator Hdr × Bool :=
  if enumerator.nextPrefetched then (enumerator, !enumerator.done)
  else
    match prefetchNext source enumerator with
    | (enumerator, true) => (enumerator, !enumerator.done)
    | (enumerator, false) => ({ enumerator with done := true }, false)

def call (enumerator : MsgEnumerator Hdr) :
    IteratorCall → MsgEnumerator Hdr × IteratorAnswer Hdr
  | .hasMoreElements =>
    let (enumerator, more) := hasMoreElements source enumerator
    (enumerator, .more more)
  | .getNext =>
    let (enumerator, hdr) := getNext source enumerator
    (enumerator, .item hdr)

/-- The headers at which the loop stops. -/
def yields (rows : List Hdr) : List Hdr := rows.filter fun hdr => !passesOver source hdr

lemma nextRow_before (table : List Hdr) (next : Nat) :
    nextRow table ((next : Int) - 1) =
      match table[next]? with
      | some hdr => (some hdr, ((next + 1 : Nat) : Int) - 1)
      | none => (none, (next : Int) - 1) := by
  have position : (if (next : Int) - 1 < 0 then 0 else (next : Int) - 1 + 1) = next := by
    split <;> omega
  have after : ((next + 1 : Nat) : Int) - 1 = next := by omega
  simp only [nextRow, position, after]
  by_cases inside : next < table.length
  · rw [if_pos (by omega), Int.toNat_natCast, getElem?_eq_getElem inside]
  · rw [if_neg (by omega), getElem?_eq_none (by omega)]

/-- The loop goes to the next header that is not passed over. -/
theorem prefetchLoop_spec {fuel next : Nat} (enough : source.table.length < next + fuel) :
    (∃ later, prefetchLoop source fuel ((next : Int) - 1) = (none, ((later : Nat) : Int) - 1) ∧
        yields source (source.table.drop next) = [] ∧
        yields source (source.table.drop later) = []) ∨
      ∃ hdr later, prefetchLoop source fuel ((next : Int) - 1) =
          (some hdr, ((later : Nat) : Int) - 1) ∧
        yields source (source.table.drop next) =
          hdr :: yields source (source.table.drop later) := by
  induction fuel generalizing next with
  | zero =>
    have none : yields source (source.table.drop next) = [] := by
      rw [drop_eq_nil_of_le (by omega)]
      rfl
    exact .inl ⟨next, rfl, none, none⟩
  | succ fuel ih =>
    rw [prefetchLoop, nextRow_before]
    cases row : source.table[next]? with
    | none =>
      have none : yields source (source.table.drop next) = [] := by
        rw [drop_eq_nil_of_le (List.getElem?_eq_none_iff.mp row)]
        rfl
      exact .inl ⟨next, rfl, none, none⟩
    | some hdr =>
      obtain ⟨inside, same⟩ := List.getElem?_eq_some_iff.mp row
      have rows : source.table.drop next = hdr :: source.table.drop (next + 1) := by
        rw [drop_eq_getElem_cons inside, same]
      rw [rows, yields, filter_cons]
      by_cases passed : passesOver source hdr = true
      · simp only [passed, if_true, Bool.not_true, Bool.false_eq_true, if_false]
        exact ih (by omega)
      · simp only [passed, Bool.not_false, if_true]
        exact .inr ⟨hdr, next + 1, rfl, rfl⟩

/-- The enumerator is before the rest of the headers that it returns. -/
inductive Before (enumerator : MsgEnumerator Hdr) (items : List Hdr) : Prop
  | prefetched {hdr : Hdr} {next : Nat} (flag : enumerator.nextPrefetched = true)
      (result : enumerator.resultHdr = some hdr) (goesOn : enumerator.done = false)
      (cursor : enumerator.rowCursor = some ((next : Int) - 1))
      (rest : items = hdr :: yields source (source.table.drop next))
  | pending {next : Nat} (flag : enumerator.nextPrefetched = false)
      (cursor : enumerator.rowCursor.getD (-1) = (next : Int) - 1)
      (rest : items = yields source (source.table.drop next))
      (ended : enumerator.rowCursor ≠ none → enumerator.done = true → items = [])

lemma before_new : Before source new (yields source source.table) :=
  @Before.pending _ source new _ 0 rfl rfl rfl fun none => absurd rfl none

lemma prefetchNext_before {next : Nat} (flag : enumerator.nextPrefetched = false)
    (cursor : enumerator.rowCursor.getD (-1) = (next : Int) - 1)
    (rest : items = yields source (source.table.drop next))
    (ended : enumerator.rowCursor ≠ none → enumerator.done = true → items = []) :
    (items = [] ∧ (prefetchNext source enumerator).2 = false ∧
        (prefetchNext source enumerator).1.resultHdr = none ∧
        (prefetchNext source enumerator).1.done = true ∧
        Before source (prefetchNext source enumerator).1 []) ∨
      ∃ hdr others, items = hdr :: others ∧ (prefetchNext source enumerator).2 = true ∧
        (prefetchNext source enumerator).1.resultHdr = some hdr ∧
        (prefetchNext source enumerator).1.done = false ∧
        (prefetchNext source enumerator).1.nextPrefetched = true ∧
        ∃ later : Nat, (prefetchNext source enumerator).1.rowCursor = some ((later : Int) - 1) ∧
          others = yields source (source.table.drop later) := by
  -- with no cursor yet, `GetRowCursor` puts it before the first row
  obtain ⟨started, start, position, notDone, still⟩ : ∃ started : MsgEnumerator Hdr,
      (match enumerator.rowCursor with
        | none => { enumerator with rowCursor := some (-1), done := false }
        | some _ => enumerator) = started ∧
      started.rowCursor = some ((next : Int) - 1) ∧
      (started.done = true → items = []) ∧ started.nextPrefetched = false := by
    cases row : enumerator.rowCursor with
    | none =>
      rw [row] at cursor
      exact ⟨_, rfl, congrArg some cursor, fun done => (nomatch done), flag⟩
    | some position =>
      rw [row] at cursor
      refine ⟨_, rfl, ?_, ?_, flag⟩
      · rw [row]
        exact congrArg some cursor
      · exact ended (by rw [row]; exact Option.some_ne_none position)
  have enough : source.table.length < next + (source.table.length + 1) := by omega
  rw [prefetchNext, start, position, Option.getD_some]
  obtain ⟨later, stops, none, after⟩ | ⟨hdr, later, stops, others⟩ :=
    prefetchLoop_spec source enough
  · rw [stops]
    refine .inl ⟨rest.trans none, rfl, rfl, rfl, ?_⟩
    exact .pending still rfl after.symm fun _ _ => rfl
  · rw [stops]
    refine .inr ⟨hdr, _, rest.trans others, rfl, rfl, ?_, rfl, later, rfl, rfl⟩
    cases done : started.done with
    | false => rfl
    | true =>
      rw [rest, others] at notDone
      exact absurd (notDone done) (cons_ne_nil _ _)

lemma call_before (enumerator : MsgEnumerator Hdr) (items : List Hdr) (next : IteratorCall)
    (before : Before source enumerator items) :
    Before source (call source enumerator next).1 (listCall items next).1 ∧
      (call source enumerator next).2 = (listCall items next).2 := by
  cases before with
  | @prefetched hdr position flag result goesOn cursor rest =>
    cases next with
    | hasMoreElements =>
      simp only [call, hasMoreElements, flag, if_true, listCall, goesOn, rest, Bool.not_false,
        isEmpty_cons, and_true]
      exact .prefetched flag result goesOn cursor rfl
    | getNext =>
      simp only [call, getNext, flag, if_true, result, listCall, rest, tail_cons,
        head?_cons, and_true]
      refine .pending rfl ?_ rfl ?_
      · rw [cursor]
        rfl
      · intro _ done
        exact absurd (goesOn.symm.trans done) Bool.false_ne_true
  | @pending position flag cursor rest ended =>
    have stops := prefetchNext_before source flag cursor rest ended
    simp only [call, hasMoreElements, getNext, flag, Bool.false_eq_true, if_false]
    generalize prefetchNext source enumerator = prefetch at stops ⊢
    obtain ⟨later, succeeds⟩ := prefetch
    obtain ⟨rfl, rfl, result, done, before⟩ |
        ⟨hdr, others, rfl, rfl, result, goesOn, flag', position', cursor', rest'⟩ := stops
    · cases next with
      | hasMoreElements =>
        have same : { later with done := true } = later := by
          dsimp only at done
          rw [← done]
        exact ⟨same.symm ▸ before, rfl⟩
      | getNext => exact ⟨before, rfl⟩
    · dsimp only at result goesOn flag' cursor'
      cases next with
      | hasMoreElements =>
        simp only [listCall, goesOn, Bool.not_false, isEmpty_cons, and_true]
        exact .prefetched flag' result goesOn cursor' (congrArg _ rest')
      | getNext =>
        simp only [listCall, result, if_true, tail_cons, head?_cons, and_true]
        refine .pending rfl ?_ rest' ?_
        · rw [cursor']
          rfl
        · intro _ done
          exact absurd (goesOn.symm.trans done) Bool.false_ne_true

lemma iteratesOver_yields :
    IteratesOver (call source) new (yields source source.table) :=
  IteratesOver.of_step (call_before source) (before_new source)

end MsgEnumerator

/-- `nsMsgFlagSetFilter`: whether it returns `NS_OK`. -/
def msgFlagSetFilter (msgFlags desiredFlags : UInt32) : Bool := msgFlags &&& desiredFlags != 0

/-- `EnumerateMessagesWithFlag`: what its enumerator enumerates. -/
def enumerateMessagesWithFlag {Hdr : Type} (table : List Hdr) (flags : Hdr → UInt32)
    (flag : UInt32) : MsgEnumerator.Source Hdr :=
  { table, flags, filter := some fun hdr => msgFlagSetFilter (flags hdr) flag }

/-- The loop also stops at a message with the `Expunged` flag that the filter rejects. -/
theorem passesOver_withFlag {Hdr : Type} (table : List Hdr) (flags : Hdr → UInt32) (flag : UInt32)
    (hdr : Hdr) :
    (!MsgEnumerator.passesOver (enumerateMessagesWithFlag table flags flag) hdr) =
      decide (flags hdr &&& flag ≠ 0 ∨ flags hdr &&& expungedFlag ≠ 0) := by
  simp [MsgEnumerator.passesOver, enumerateMessagesWithFlag, msgFlagSetFilter, Bool.decide_or,
    bne, Bool.beq_eq_decide_eq]

/-- The headers of the messages with a flag are returned, in their order in the table and no others,
exactly if the messages with the `Expunged` flag have the flag too. -/
theorem enumerateMessagesWithFlag_exact {Hdr : Type} (table : List Hdr) (flags : Hdr → UInt32)
    (flag : UInt32) :
    IteratesOver (MsgEnumerator.call (enumerateMessagesWithFlag table flags flag))
        MsgEnumerator.new (table.filter fun hdr => flags hdr &&& flag ≠ 0) ↔
      ∀ hdr ∈ table, flags hdr &&& expungedFlag ≠ 0 → flags hdr &&& flag ≠ 0 := by
  rw [(MsgEnumerator.iteratesOver_yields _).iff_eq, MsgEnumerator.yields]
  simp only [passesOver_withFlag]
  change table.filter _ = table.filter _ ↔ _
  constructor
  · intro same hdr mem expunged
    have returned : hdr ∈ table.filter fun hdr =>
        flags hdr &&& flag ≠ 0 ∨ flags hdr &&& expungedFlag ≠ 0 :=
      mem_filter.mpr ⟨mem, decide_eq_true (.inr expunged)⟩
    rw [same] at returned
    exact of_decide_eq_true (mem_filter.mp returned).2
  · intro flagged
    apply filter_congr
    intro hdr mem
    exact decide_eq_decide.mpr ⟨fun either => either.elim id (flagged hdr mem), .inl⟩

/-- A message that has the `Expunged` flag only. -/
theorem enumerateMessagesWithFlag_expunged :
    ¬ IteratesOver (MsgEnumerator.call (enumerateMessagesWithFlag [8] id 0x80))
      MsgEnumerator.new ([(8 : UInt32)].filter fun flags => flags &&& 0x80 ≠ 0) := by
  intro iterates
  exact absurd (iterates [.getNext]) (by decide)

end CommCentral.MsgDB
