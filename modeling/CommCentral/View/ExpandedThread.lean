import CommCentral.View.RowEntries
import CommCentral.View.ViewRun

/-! Expanding and collapsing a thread whose messages form a tree. -/
namespace CommCentral.View

open Lib List

/-- The messages below one, in the order of the enumerators: the first of them, what is below it,
and the messages after it. -/
inductive Replies where
  | nil
  | cons (hdr : RowHdr) (below later : Replies)

namespace Replies

def hdrs : Replies → List RowHdr
  | nil => []
  | cons hdr _ later => hdr :: later.hdrs

def size : Replies → Nat
  | nil => 0
  | cons _ below later => 1 + below.size + later.size

def height : Replies → Nat
  | nil => 0
  | cons _ below later => max (1 + below.height) later.height

/-- `EnumerateMessages` gives the replies to each message. -/
def EnumeratedIn (thread : RowThread) : Replies → Prop
  | nil => True
  | cons hdr below later =>
    thread.messages hdr.messageKey = some below.hdrs ∧ below.EnumeratedIn thread ∧
      later.EnumeratedIn thread

variable (viewFlags : ViewFlags)

/-- The messages that are not in a hidden subthread with their depths, each before those below. -/
def shown : (depth : Nat) → Replies → List (Nat × Nat)
  | _, nil => []
  | depth, cons hdr below later =>
    if skipsHdr viewFlags hdr then shown depth later
    else (hdr.messageKey, depth) :: (shown (depth + 1) below ++ shown depth later)

/-- The rows of these messages. -/
def rows : (level : Nat) → Replies → List Row
  | _, nil => []
  | level, cons hdr below later =>
    if skipsHdr viewFlags hdr then rows level later
    else ⟨hdr.messageKey, adjustReadFlag hdr hdr.flags &&& ~~~msgViewFlags, UInt8.ofNat level⟩ ::
      (rows (level + 1) below ++ rows level later)

lemma height_le_size (replies : Replies) : replies.height ≤ replies.size := by
  induction replies with
  | nil => exact Nat.le_refl 0
  | cons hdr below later ihBelow ihLater =>
    rw [height, size]
    omega

variable (level : Nat)

lemma map_rows (replies : Replies) :
    (replies.rows viewFlags level).map (fun row => (row.key, row.level.toNat)) =
      (replies.shown viewFlags level).map fun (key, depth) => (key, depth % 256) := by
  induction replies generalizing level with
  | nil => rfl
  | cons hdr below later ihBelow ihLater =>
    rw [rows, shown]
    split
    · exact ihLater level
    · rw [map_cons, map_cons, map_append, map_append, ihBelow, ihLater]
      rfl

lemma length_rows (replies : Replies) :
    (replies.rows viewFlags level).length = (replies.shown viewFlags level).length := by
  have lengths := congrArg List.length (map_rows viewFlags level replies)
  rw [length_map, length_map] at lengths
  exact lengths

lemma depth_le {replies : Replies} :
    ∀ message ∈ replies.shown viewFlags depth, depth ≤ message.2 := by
  induction replies generalizing depth with
  | nil => exact nofun
  | cons hdr below later ihBelow ihLater =>
    intro message mem
    rw [shown] at mem
    split at mem
    · exact ihLater message mem
    · rcases mem_cons.mp mem with rfl | mem
      · exact Nat.le_refl _
      · rcases mem_append.mp mem with inBelow | inLater
        · exact Nat.le_of_succ_le (ihBelow message inBelow)
        · exact ihLater message inLater

lemma length_rows_le (replies : Replies) :
    (replies.rows viewFlags level).length ≤ replies.size := by
  induction replies generalizing level with
  | nil => exact Nat.le_refl 0
  | cons hdr below later ihBelow ihLater =>
    have inBelow := ihBelow (level + 1)
    have inLater := ihLater level
    rw [rows, size]
    split
    · omega
    · rw [length_cons, length_append]
      omega

end Replies

section Listing

lemma exists_append_of_le {rows : List Row} {count : Nat} (le : count ≤ rows.length) :
    ∃ first second, rows = first ++ second ∧ first.length = count :=
  ⟨_, _, (take_append_drop count rows).symm, length_take_of_le le⟩

variable (before after : List Row) (row : Row) (view : ThreadedView)

lemma set?_ofList (new : Row) :
    (Rows.ofList (before ++ row :: after)).set? before.length new.key new.flags new.level =
      some (.ofList (before ++ new :: after)) := by
  have assigned {α : Type} (field : Row → α) :
      assign? ((before ++ row :: after).map field) before.length (field new) =
        some ((before ++ new :: after).map field) := by
    have mapped := assign?_append (before.map field) (after.map field) (field row) (field new)
    rw [length_map] at mapped
    simpa only [map_append, map_cons] using mapped
  simp only [Rows.set?, Rows.ofList, assigned]
  rfl

lemma setMsgHdrAt_showing (new : Row) :
    setMsgHdrAt before.length new.key new.flags new.level
        (view.showing (before ++ row :: after)) =
      (.ok (), view.showing (before ++ new :: after)) :=
  changeRows_showing view (set?_ofList before after row new)

lemma keyAt_showing : keyAt before.length (view.showing (before ++ row :: after)) =
    (.ok row.key, view.showing (before ++ row :: after)) := by
  have found : (view.showing (before ++ row :: after)).rows.keys[before.length]? =
      some row.key := by
    change ((before ++ row :: after).map Row.key)[before.length]? = some row.key
    rw [getElem?_map, getElem?_append_right (Nat.le_refl _), Nat.sub_self]
    rfl
  change demand ((view.showing (before ++ row :: after)).rows.keys[before.length]?) _ = _
  rw [found]
  rfl

def belowAt (viewFlags : ViewFlags) (thread : RowThread) (level : Nat) :
    (depth : Nat) → Nat → Listing → ViewM ListingResult
  | 0 => fun _ listing => pure (false, listing)
  | depth + 1 => fun key listing =>
    listIdsInThreadOrder viewFlags thread depth key (level + 1) listing

variable {viewFlags : ViewFlags}

lemma listIdsInThreadOrder_eq {parentKey : Nat} {hdrs : List RowHdr}
    (messages : thread.messages parentKey = some hdrs) (depth level : Nat) (listing) :
    listIdsInThreadOrder viewFlags thread depth parentKey level listing =
      listMessages viewFlags (thread.numChildren - 1) level
        (belowAt viewFlags thread level depth) listing hdrs := by
  cases depth with
  | zero | succ depth =>
    rw [listIdsInThreadOrder, messages]
    rfl

variable {before after}

/-- The messages of a tree are listed over the rows that were inserted for them. -/
theorem listMessages_replies {replies : Replies} {depth : Nat}
    (enumerated : replies.EnumeratedIn thread) (deep : replies.height ≤ depth) (level : Nat)
    {numListed : Nat} (room : numListed + replies.size ≤ thread.numChildren - 1) {olds : List Row}
    (same : olds.length = (replies.rows viewFlags level).length) :
    listMessages viewFlags (thread.numChildren - 1) level (belowAt viewFlags thread level depth)
        ⟨before.length, numListed⟩ replies.hdrs (view.showing (before ++ (olds ++ after))) =
      (.ok (true, ⟨before.length + olds.length, numListed + olds.length⟩),
        view.showing (before ++ (replies.rows viewFlags level ++ after))) := by
  induction replies generalizing depth level numListed olds before after with
  | nil =>
    have none := length_eq_zero_iff.mp same
    subst none
    rfl
  | cons hdr below later ihBelow ihLater =>
    obtain ⟨messages, inBelow, inLater⟩ := enumerated
    rw [Replies.height, Nat.max_le] at deep
    rw [Replies.size] at room
    obtain ⟨depth, rfl⟩ := Nat.exists_eq_add_of_le' (Nat.le_trans (Nat.le_add_right 1 _) deep.1)
    have notFull : ¬ numListed = thread.numChildren - 1 := by omega
    rw [Replies.hdrs, listMessages, if_neg notFull]
    rw [Replies.rows] at same ⊢
    by_cases hidden : skipsHdr viewFlags hdr = true
    · rw [if_pos hidden] at same ⊢
      rw [if_pos hidden]
      exact ihLater inLater deep.2 level (by omega) same
    · rw [if_neg hidden] at same ⊢
      rw [if_neg hidden]
      rw [length_cons, length_append] at same
      obtain ⟨old, others, rfl⟩ : ∃ old others, olds = old :: others := by
        cases olds with
        | nil => cases same
        | cons old others => exact ⟨old, others, rfl⟩
      rw [length_cons] at same
      obtain ⟨first, second, rfl, firstLength⟩ := exists_append_of_le
        (show (below.rows viewFlags (level + 1)).length ≤ others.length by omega)
      rw [length_append, firstLength] at same
      let new : Row :=
        ⟨hdr.messageKey, adjustReadFlag hdr hdr.flags &&& ~~~msgViewFlags, UInt8.ofNat level⟩
      have fewer := Replies.length_rows_le viewFlags (level + 1) below
      have set := setMsgHdrAt_showing before (first ++ second ++ after) old view new
      have listBelow := @ihBelow (before ++ [new]) (second ++ after) depth inBelow (by omega)
        (level + 1) (numListed + 1) (by omega) first firstLength
      have listLater := @ihLater (before ++ new :: below.rows viewFlags (level + 1)) after
        (depth + 1) inLater deep.2 level (numListed + 1 + first.length) (by omega) second (by omega)
      rw [← listIdsInThreadOrder_eq messages, length_append, append_assoc,
        append_assoc] at listBelow
      rw [length_append, length_cons, ← firstLength, append_assoc,
        append_assoc] at listLater
      rw [append_assoc] at set
      rw [cons_append, append_assoc, Attempt.bind_eq set]
      refine (Attempt.bind_eq listBelow).trans ?_
      have index : before.length + [new].length + first.length =
          before.length + (first.length + 1) := by
        rw [length_singleton, Nat.add_assoc, Nat.add_comm 1]
      have count : (old :: (first ++ second)).length = first.length + 1 + second.length := by
        rw [length_cons, length_append, Nat.add_right_comm]
      have result : before ++ new :: (below.rows viewFlags (level + 1) ++
          (later.rows viewFlags level ++ after)) = before ++ (new ::
            (below.rows viewFlags (level + 1) ++ later.rows viewFlags level) ++ after) := by
        rw [cons_append, append_assoc]
      have listed : numListed + 1 + first.length + second.length =
          numListed + (first.length + 1 + second.length) := by omega
      dsimp only
      rw [if_pos rfl, index, count, ← listed, ← Nat.add_assoc _ (first.length + 1), ← result]
      exact listLater

lemma listInOrder_hidden {children : List (Option RowHdr)}
    (hidden : ∀ hdr, some hdr ∈ children → skipsHdr viewFlags hdr = true) (listing) :
    listInOrder viewFlags listing children = pure listing := by
  induction children with
  | nil => rfl
  | cons child children ih =>
    have others := ih fun hdr mem => hidden hdr (mem_cons_of_mem _ mem)
    cases child with
    | none => exact others
    | some hdr =>
      rw [listInOrder, if_pos (hidden hdr mem_cons_self)]
      exact others

lemma listInOrder_counts {children : List (Option RowHdr)} {last : ThreadedView}
    (ran : listInOrder viewFlags listing children view = (.ok listed, last)) :
    listing.numListed ≤ listed.numListed ∧
      ((∃ hdr, some hdr ∈ children ∧ skipsHdr viewFlags hdr ≠ true) →
        listing.numListed < listed.numListed) := by
  induction children generalizing listing view with
  | nil =>
    cases ran
    refine ⟨Nat.le_refl _, ?_⟩
    rintro ⟨hdr, mem, -⟩
    cases mem
  | cons child children ih =>
    cases child with
    | none =>
      obtain ⟨notLess, more⟩ := ih view ran
      refine ⟨notLess, ?_⟩
      rintro ⟨hdr, mem, shown⟩
      exact more ⟨hdr, (mem_cons.mp mem).resolve_left (Option.some_ne_none hdr), shown⟩
    | some child =>
      rw [listInOrder] at ran
      split at ran
      · rename_i isHidden
        obtain ⟨notLess, more⟩ := ih view ran
        refine ⟨notLess, ?_⟩
        rintro ⟨hdr, mem, shown⟩
        rcases mem_cons.mp mem with same | inLater
        · cases same
          exact absurd isHidden shown
        · exact more ⟨hdr, inLater, shown⟩
      · obtain ⟨_, later, -, ran⟩ := Attempt.bind_ok ran
        have less := Nat.lt_of_succ_le (ih later ran).1
        exact ⟨Nat.le_of_lt less, fun _ => less⟩

end Listing

/-- A thread of a threaded view that shows read messages, too, is collapsed, and its messages form
a tree. -/
structure CollapsedThread (env : ViewEnv) (view : ThreadedView) (before : List Row) (row : Row)
    (after : List Row) (thread : RowThread) (replies : Replies) : Prop where
  threaded : view.viewFlags.threadedDisplay = true
  notGrouped : view.viewFlags.groupBySort = false
  readShown : view.viewFlags.unreadOnly = false
  rows : ThreadRows row [] after
  elided : hasFlag row.flags flagElided = true
  hasChildren : hasFlag row.flags viewFlagHasChildren = true
  found : threadContainingIndex env (view.showing (before ++ row :: after)) before.length =
    some (some thread)
  numChildren : thread.numChildren = replies.size + 1
  messages : thread.messages row.key = some replies.hdrs
  enumerated : replies.EnumeratedIn thread

section CollapsedThread

variable {after : List Row} {replies : Replies}
  (collapsed : CollapsedThread env view before row after thread replies)
include collapsed

/-- The messages of the tree are listed, and rows may be left over. -/
theorem CollapsedThread.listIdsInThread_eq : ∃ blanks : List Row,
    blanks.length + (replies.rows view.viewFlags 1).length = replies.size ∧
      listIdsInThread (some thread) before.length (view.showing (before ++ row :: after)) =
        (do
          let listing ← listRemaining view.viewFlags thread
            ⟨before.length + 1 + (replies.rows view.viewFlags 1).length,
              (replies.rows view.viewFlags 1).length⟩
          if listing.numListed < replies.size then do
            removeRows listing.viewIndex (replies.size - listing.numListed)
            pure listing.numListed
          else pure listing.numListed : ViewM Nat)
          (view.showing
            (before ++ row :: (replies.rows view.viewFlags 1 ++ (blanks ++ after)))) := by
  have count : thread.numChildren - 1 = replies.size := by
    rw [collapsed.numChildren, Nat.add_sub_cancel]
  have fewer := Replies.length_rows_le view.viewFlags 1 replies
  obtain ⟨blanks, isBlanks⟩ : ∃ blanks, blanks = List.replicate replies.size (⟨0, 0, 1⟩ : Row) :=
    ⟨_, rfl⟩
  have length : blanks.length = replies.size := by
    rw [isBlanks, length_replicate]
  have inserted : insertEmptyRows (before.length + 1) replies.size
      (view.showing (before ++ row :: after)) =
        (.ok (), view.showing (before ++ row :: (blanks ++ after))) := by
    apply changeRows_showing
    have room := insert?_ofList (before ++ [row]) after blanks
    rw [length_append, append_assoc, append_assoc, append_assoc] at room
    rw [isBlanks] at room ⊢
    simp only [Rows.ofList, map_replicate] at room
    exact room
  obtain ⟨first, second, rfl, firstLength⟩ := exists_append_of_le
    (Nat.le_trans fewer (Nat.le_of_eq length.symm))
  rw [length_append] at length
  have listed := @listMessages_replies (before ++ [row]) (second ++ after) view view.viewFlags
    thread replies replies.size collapsed.enumerated replies.height_le_size 1 0
    (by rw [count, Nat.zero_add]) first firstLength
  rw [← listIdsInThreadOrder_eq collapsed.messages, length_append, firstLength, Nat.zero_add,
    append_assoc, append_assoc] at listed
  have threaded : listThreaded view.viewFlags thread before.length ⟨before.length + 1, 0⟩
      (view.showing (before ++ row :: (first ++ (second ++ after)))) =
        (.ok ⟨before.length + 1 + (replies.rows view.viewFlags 1).length,
            (replies.rows view.viewFlags 1).length⟩,
          view.showing
            (before ++ row :: (replies.rows view.viewFlags 1 ++ (second ++ after)))) := by
    rw [listThreaded, collapsed.threaded, collapsed.notGrouped]
    change (keyAt before.length >>= _ : ViewM Listing) _ = _
    rw [Attempt.bind_eq (keyAt_showing before _ row view), count]
    exact Attempt.bind_eq listed
  rw [append_assoc] at inserted
  refine ⟨second, by omega, ?_⟩
  rw [listIdsInThread, if_neg (by rw [collapsed.numChildren]; exact Nat.succ_ne_zero _),
    Attempt.read_bind]
  rw [count, Attempt.bind_eq inserted]
  exact Attempt.bind_eq threaded

/-- The rows that are left over are taken out. -/
theorem CollapsedThread.listIdsInThread_shown
    (covered : replies.shown view.viewFlags 1 = [] →
      ∀ hdr, some hdr ∈ thread.childHdrs.tail → skipsHdr view.viewFlags hdr = true) :
    listIdsInThread (some thread) before.length (view.showing (before ++ row :: after)) =
      (.ok (replies.rows view.viewFlags 1).length,
        view.showing (before ++ row :: (replies.rows view.viewFlags 1 ++ after))) := by
  obtain ⟨blanks, length, listed⟩ := collapsed.listIdsInThread_eq
  have remaining (listing : Listing) (isLength : listing.numListed =
      (replies.rows view.viewFlags 1).length) :
      listRemaining view.viewFlags thread listing = pure listing := by
    rw [listRemaining]
    split
    · rename_i none
      rw [none, Replies.length_rows] at isLength
      exact listInOrder_hidden (covered (length_eq_zero_iff.mp isLength.symm)) listing
    · rfl
  rw [listed, remaining _ rfl]
  change (if (replies.rows view.viewFlags 1).length < replies.size then _ else _ : ViewM Nat) _ = _
  split
  · have left : replies.size - (replies.rows view.viewFlags 1).length = blanks.length := by omega
    have removed := removeRows_showing (before ++ row :: replies.rows view.viewFlags 1) after blanks
      view
    rw [length_append, length_cons, append_assoc, append_assoc,
      Nat.add_comm _ 1, ← Nat.add_assoc] at removed
    rw [left]
    exact Attempt.bind_eq removed
  · have none : blanks = [] := length_eq_zero_iff.mp (by omega)
    subst none
    rfl

/-- Something is listed if not every message behind the first one is hidden. -/
theorem CollapsedThread.listIdsInThread_more {last : ThreadedView}
    (nothing : replies.shown view.viewFlags 1 = [])
    (shown : ∃ hdr, some hdr ∈ thread.childHdrs.tail ∧ skipsHdr view.viewFlags hdr ≠ true) (ran :
      listIdsInThread (some thread) before.length (view.showing (before ++ row :: after)) = (.ok
      numListed, last)) : numListed ≠ 0 := by
  obtain ⟨blanks, -, listed⟩ := collapsed.listIdsInThread_eq
  rw [listed, Replies.length_rows, nothing] at ran
  obtain ⟨listing, later, remaining, ran⟩ := Attempt.bind_ok ran
  have more := (listInOrder_counts _ remaining).2 shown
  split at ran
  · obtain ⟨_, _, -, ran⟩ := Attempt.bind_ok ran
    cases ran
    exact Nat.ne_of_gt more
  · cases ran
    exact Nat.ne_of_gt more

lemma CollapsedThread.expandByIndex_eq : ∃ view' : ThreadedView,
    view'.viewFlags = view.viewFlags ∧ CollapsedThread env view' before row after thread replies ∧
      expandByIndex env before.length (view.showing (before ++ row :: after)) =
        (do
          let numExpanded ← listIdsInThread (some thread) before.length
          if 0 < numExpanded then do
            setFlagsAt before.length (row.flags &&& ~~~flagElided)
            pure (some numExpanded)
          else pure (some numExpanded) : ViewM (Option Nat))
          (view'.showing (before ++ row :: after)) := by
  have size := size_showing (before ++ row :: after) view
  rw [length_append, length_cons] at size
  have within : ¬ (view.showing (before ++ row :: after)).size ≤ before.length := by omega
  refine ⟨{ view with expansions := view.expansions ++ [⟨view.viewFlags.unreadOnly, row.flags⟩] },
    rfl, ⟨collapsed.threaded, collapsed.notGrouped, collapsed.readShown, collapsed.rows,
      collapsed.elided, collapsed.hasChildren, collapsed.found, collapsed.numChildren,
      collapsed.messages, collapsed.enumerated⟩, ?_⟩
  rw [expandByIndex, Attempt.read_bind, if_neg within,
    Attempt.bind_eq (flagsAt_showing before after row view), collapsed.found]
  dsimp only
  have unread : (view.showing (before ++ row :: after)).viewFlags.unreadOnly = false :=
    collapsed.readShown
  rw [unread, listExpanded, if_neg Bool.false_ne_true, ← collapsed.readShown]
  rfl

end CollapsedThread

variable (flags : UInt32)

lemma hasFlag_cleared : hasFlag (flags &&& ~~~flagElided) flagElided = false := by
  have none : ~~~flagElided &&& flagElided = 0 := by decide
  rw [hasFlag, UInt32.and_assoc, none, UInt32.and_zero]
  rfl

lemma hasFlag_children :
    hasFlag (flags &&& ~~~flagElided) viewFlagHasChildren = hasFlag flags viewFlagHasChildren := by
  have same : ~~~flagElided &&& viewFlagHasChildren = viewFlagHasChildren := by decide
  rw [hasFlag, UInt32.and_assoc, same]
  rfl

lemma hasFlag_set : hasFlag (flags ||| flagElided) flagElided = true := by
  apply bne_iff_ne.mpr
  intro none
  have bits := congrArg UInt32.toBitVec none
  rw [UInt32.toBitVec_and, UInt32.toBitVec_or, BitVec.and_or_distrib_right, BitVec.and_self] at bits
  exact absurd (BitVec.or_eq_zero_iff.mp bits).2 (by decide)

/-- Expanding the thread puts the shown messages below its first row with their depths as levels,
and collapsing it takes them out again. -/
def ExpandsAndCollapses (env : ViewEnv) (view : ThreadedView) (before : List Row) (row : Row)
    (after : List Row) (replies : Replies) : Prop :=
  ∃ (inserted : List Row) (flags flags' : UInt32) (expanded collapsed : ThreadedView),
    expandByIndex env before.length (view.showing (before ++ row :: after)) =
      (.ok (some inserted.length), expanded) ∧
    expanded.rows = .ofList (before ++ { row with flags := flags } :: (inserted ++ after)) ∧
    inserted.map (fun row => (row.key, row.level.toNat)) = replies.shown view.viewFlags 1 ∧
    collapseByIndex before.length expanded = (.ok (), collapsed) ∧
    collapsed.rows = .ofList (before ++ { row with flags := flags' } :: after) ∧
    hasFlag flags' flagElided = hasFlag row.flags flagElided

section CollapsedThread

variable {after : List Row} {replies : Replies}

lemma ExpandsAndCollapses.shallow
    (expands : ExpandsAndCollapses env view before row after replies) :
    ∀ message ∈ replies.shown view.viewFlags 1, message.2 < 256 := by
  obtain ⟨inserted, -, -, -, -, -, -, same, -⟩ := expands
  rw [← same]
  intro message mem
  obtain ⟨row, -, rfl⟩ := mem_map.mp mem
  exact row.level.toNat_lt

lemma CollapsedThread.covered
    (collapsed : CollapsedThread env view before row after thread replies)
    (expands : ExpandsAndCollapses env view before row after replies)
    (nothing : replies.shown view.viewFlags 1 = []) :
    ∀ hdr, some hdr ∈ thread.childHdrs.tail → skipsHdr view.viewFlags hdr = true := by
  obtain ⟨inserted, -, -, expanded, -, ran, -, same, -⟩ := expands
  rw [nothing, map_eq_nil_iff] at same
  subst same
  obtain ⟨view', sameFlags, collapsed', unfolded⟩ := collapsed.expandByIndex_eq
  rw [unfolded] at ran
  obtain ⟨numExpanded, later, listed, ran⟩ := Attempt.bind_ok ran
  by_contra notHidden
  simp only [not_forall, exists_prop] at notHidden
  have more := collapsed'.listIdsInThread_more (sameFlags ▸ nothing) (sameFlags ▸ notHidden) listed
  split at ran
  · obtain ⟨_, _, -, ran⟩ := Attempt.bind_ok ran
    cases ran
    exact more rfl
  · cases ran
    exact more rfl

/-- Expanding and collapsing a thread are inverse exactly if its shown messages are less than 256
levels deep and, where none is shown, no message behind the first of the thread is. -/
theorem expandsAndCollapses_iff (env : ViewEnv) (view : ThreadedView) (before : List Row)
    (row : Row) (after : List Row) (thread : RowThread) (replies : Replies)
    (collapsed : CollapsedThread env view before row after thread replies) :
    ExpandsAndCollapses env view before row after replies ↔
      (∀ message ∈ replies.shown view.viewFlags 1, message.2 < 256) ∧
        (replies.shown view.viewFlags 1 = [] →
          ∀ hdr, some hdr ∈ thread.childHdrs.tail → skipsHdr view.viewFlags hdr = true) := by
  constructor
  · intro expands
    exact ⟨expands.shallow, collapsed.covered expands⟩
  · rintro ⟨shallow, covered⟩
    obtain ⟨view', sameFlags, collapsed', unfolded⟩ := collapsed.expandByIndex_eq
    rw [← sameFlags] at shallow covered
    have levels : (replies.rows view'.viewFlags 1).map (fun row => (row.key, row.level.toNat)) =
        replies.shown view'.viewFlags 1 := by
      rw [Replies.map_rows]
      refine (map_congr_left fun message mem => ?_).trans (map_id _)
      exact congrArg (message.1, ·) (Nat.mod_eq_of_lt (shallow message mem))
    rw [Attempt.bind_eq (collapsed'.listIdsInThread_shown covered)] at unfolded
    rw [ExpandsAndCollapses, unfolded, ← sameFlags, ← levels]
    generalize isRows : replies.rows view'.viewFlags 1 = rows at levels
    have deeper : ∀ child ∈ rows, child.level ≠ 0 := by
      intro child mem isTop
      have inShown : (child.key, child.level.toNat) ∈ replies.shown view'.viewFlags 1 :=
        levels ▸ mem_map_of_mem mem
      have above := Replies.depth_le _ _ inShown
      rw [isTop] at above
      cases above
    by_cases none : rows = []
    · subst none
      refine ⟨[], row.flags, row.flags, _, view'.showing (before ++ row :: after), rfl, rfl, rfl,
        ?_, rfl, rfl⟩
      refine (Attempt.bind_eq (flagsAt_showing before after row view')).trans ?_
      rw [collapsed.elided, Bool.true_or, Bool.true_or]
      rfl
    · have some : 0 < rows.length := length_pos_iff.mpr none
      let expanded : Row := { row with flags := row.flags &&& ~~~flagElided }
      have expandedRow := setFlagsAt_showing before (rows ++ after) row view'
        (row.flags &&& ~~~flagElided)
      have threadRows : ThreadRows expanded rows after :=
        ⟨collapsed.rows.top, deeper, collapsed.rows.next⟩
      refine ⟨rows, row.flags &&& ~~~flagElided, row.flags &&& ~~~flagElided ||| flagElided,
        view'.showing (before ++ expanded :: (rows ++ after)), view'.showing _, ?_, rfl, rfl, ?_,
        rfl, ?_⟩
      · rw [if_pos some]
        exact Attempt.bind_eq expandedRow
      · refine (Attempt.bind_eq (flagsAt_showing before (rows ++ after) _ view')).trans ?_
        have threaded : (view'.showing
            (before ++ expanded :: (rows ++ after))).viewFlags.threadedDisplay = true :=
          collapsed'.threaded
        rw [hasFlag_cleared, hasFlag_children, collapsed.hasChildren, threaded]
        exact collapseExpanded_showing before view' threadRows _
      · rw [hasFlag_set, collapsed.elided]

end CollapsedThread

def threadedView : ThreadedView := ThreadedView.new { threadedDisplay := true } .byDate .ascending

def collapsedRow : Row := ⟨1, viewFlagHasChildren ||| flagElided, 0⟩

theorem expandsAndCollapses_threeMessages :
    ExpandsAndCollapses (sampleEnv threeMessages threeMessages) threadedView [] collapsedRow []
      (.cons (sampleHdr 2 1 true) (.cons (sampleHdr 3 2 false) .nil .nil) .nil) := by
  refine (expandsAndCollapses_iff _ threadedView [] collapsedRow [] (sampleThread threeMessages)
    (.cons (sampleHdr 2 1 true) (.cons (sampleHdr 3 2 false) .nil .nil) .nil) ?_).mpr ⟨?_, ?_⟩
  · exact ⟨rfl, rfl, rfl, ⟨rfl, nofun, nofun⟩, by decide, by decide, rfl, rfl, rfl, rfl,
      ⟨rfl, trivial, trivial⟩, trivial⟩
  · decide
  · exact nofun

/-- Each message is the reply to the one before it. -/
def chain (key : Nat) : (length : Nat) → Replies
  | 0 => .nil
  | length + 1 => .cons (sampleHdr (key + 1) key true) (chain (key + 1) length) .nil

/-- The message 1 with a chain of 256 replies. -/
def deepThread : RowThread :=
  { sampleThread [] with
    numChildren := 257
    messages := fun key => some (if key < 257 then [sampleHdr (key + 1) key true] else []) }

lemma hdrs_chain {key length : Nat} (ends : key + length = 257) :
    deepThread.messages key = some (chain key length).hdrs ∧
      (chain key length).EnumeratedIn deepThread ∧ (chain key length).size = length := by
  induction length generalizing key with
  | zero =>
    refine ⟨congrArg some (if_neg ?_), trivial, rfl⟩
    omega
  | succ length ih =>
    obtain ⟨messages, enumerated, size⟩ := @ih (key + 1) (by omega)
    refine ⟨congrArg some (if_pos ?_), ⟨messages, enumerated, trivial⟩, ?_⟩
    · omega
    · rw [chain, Replies.size, Replies.size, size]
      omega

lemma shown_chain (viewFlags) (key depth length : Nat) :
    (key + length + 1, depth + length) ∈ (chain key (length + 1)).shown viewFlags depth := by
  induction length generalizing key depth with
  | zero =>
    rw [chain, Replies.shown, if_neg (by simp [skipsHdr, sampleHdr])]
    exact mem_cons_self
  | succ length ih =>
    have later := ih (key + 1) (depth + 1)
    rw [chain, Replies.shown, if_neg (by simp [skipsHdr, sampleHdr])]
    refine mem_cons_of_mem _ (mem_append_left _ ?_)
    rw [← Nat.add_assoc, ← Nat.add_assoc, Nat.add_right_comm key, Nat.add_right_comm depth]
    exact later

/-- The last reply of the chain has the level of a first row. -/
theorem deepThread_differs :
    let env := { sampleEnv [sampleHdr 1 nsMsgKey_None true] [] with
      threadContaining := fun _ => some (some deepThread) }
    CollapsedThread env threadedView [] collapsedRow [] deepThread (chain 1 256) ∧
      ¬ ExpandsAndCollapses env threadedView [] collapsedRow [] (chain 1 256) := by
  intro env
  obtain ⟨messages, enumerated, size⟩ := @hdrs_chain 1 256 rfl
  refine ⟨⟨rfl, rfl, rfl, ⟨rfl, nofun, nofun⟩, by decide, by decide, rfl, ?_, messages,
    enumerated⟩, fun expands => ?_⟩
  · rw [size]
    rfl
  · exact absurd (expands.shallow _ (shown_chain _ 1 1 255)) (by decide)

end CommCentral.View
