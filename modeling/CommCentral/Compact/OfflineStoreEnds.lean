import CommCentral.Lib.Decision
import CommCentral.Compact.OfflineStore

/-! When the headers locate their messages after the compaction of an offline store. -/
namespace CommCentral.Compact

open Lib List

universe u

/-- What may stand before the text of a message: lines of which the first begins with `From `.
There may be nothing where the text itself begins so. -/
def IsEnvelope (content envelope : List UInt8) : Prop :=
  (from_ <+: envelope ∧ envelope.getLast? = some 0x0A) ∨ (envelope = [] ∧ from_ <+: content)

/-- The message with the text is at the place in the store. -/
def Locates (store : List UInt8) (offset size : Nat) (content : List UInt8) : Prop :=
  offset + size ≤ store.length ∧ ∃ envelope,
    IsEnvelope content envelope ∧ (store.drop offset).take size = envelope ++ content

/-- A message of an offline store before the compaction. A stream that stops with success has given
the text. -/
structure StoredMsg (old : List UInt8) extends OfflineMsg where
  content : List UInt8
  begun : content ≠ []
  listed : hdr.offline = true
  located : Locates old hdr.messageOffset hdr.offlineMessageSize content
  streamed : ∀ streamed ∈ stream, streamed.status = .ok →
    streamed.reads.flatMap (·.data) = content

namespace Streamed

/-- The bytes that are written of the envelope. -/
def envelope (streamed : Streamed) : List UInt8 :=
  match streamed.reads with
  | [] => []
  | read :: _ =>
    if from_.isPrefixOf (read.data ++ read.behind) then [] else fromLine.take read.envelope

/-- No write of data falls short. -/
def Whole (streamed : Streamed) : Prop := ∀ read ∈ streamed.reads, read.data.length ≤ read.written

instance (streamed : Streamed) : Decidable streamed.Whole :=
  inferInstanceAs (Decidable (∀ _ ∈ _, _))

/-- The compaction stops with the stream. -/
def CutsOff (streamed : Streamed) : Prop := streamed.status = .failed ∨ ¬ streamed.Whole

instance (streamed : Streamed) : Decidable streamed.CutsOff := inferInstanceAs (Decidable (_ ∨ _))

/-- What is written of a stream without a short write. -/
def bytes (streamed : Streamed) : List UInt8 := streamed.envelope ++ streamed.reads.flatMap (·.data)

end Streamed

namespace OfflineMsg

/-- The compaction stops at the message. -/
def CutsOff (message : OfflineMsg) : Prop :=
  message.hdrFound = false ∨
    message.hdr.pendingRemoval = false ∧ message.stream.any (decide <| ·.CutsOff) = true

instance (message : OfflineMsg) : Decidable message.CutsOff := inferInstanceAs (Decidable (_ ∨ _))

end OfflineMsg

/-- A message in the new store. -/
structure Copy where
  offset : Nat
  envelope : List UInt8
  content : List UInt8

namespace Copy

def length (copy : Copy) : Nat := (copy.envelope ++ copy.content).length

end Copy

variable {old : List UInt8}

/-- The messages that are copied from `offset` on, until the compaction stops. -/
def copies : Nat → List (StoredMsg old) → List Copy
  | _, [] => []
  | offset, message :: messages =>
    if message.hdrFound then
      if message.hdr.pendingRemoval then copies offset messages
      else
        match message.stream with
        | none => copies offset messages
        | some streamed =>
          if streamed.CutsOff then []
          else
            let later := copies (offset + streamed.bytes.length) messages
            if streamed.status = .ok then
              { offset := offset, envelope := streamed.envelope, content := message.content } ::
                later
            else later
    else []

section

variable {Path : Type u} [DecidableEq Path] (files : StoreFiles Path) (outcomes : StoreOutcomes)

/-- Each header that is still flagged locates its message in the store on the disk. -/
def AllLocated (messages : List (StoredMsg old))
    (stopped : List OfflineHdr × Disk Path (List UInt8)) : Prop :=
  List.Forall₂
    (fun hdr message => hdr.offline = true → ∃ store, stopped.2 files.folder = some store ∧
      Locates store hdr.messageOffset hdr.offlineMessageSize message.content)
    stopped.1 messages

/-- The old store has the copied messages at the places they got in the new one. -/
def SamePlaces (old : List UInt8) (copies : List Copy) : Prop :=
  ∀ copy ∈ copies, Locates old copy.offset (copy.length % 2 ^ 32) copy.content

/-- The copied messages reached the disk, with an envelope each. -/
def WrittenOut (copies : List Copy) : Prop :=
  ∀ copy ∈ copies, IsEnvelope copy.content copy.envelope ∧ copy.length < 2 ^ 32 ∧
    copy.offset + copy.length ≤ outcomes.flushed

/-- How a compaction has to end. -/
def EndsWell (messages : List (StoredMsg old)) : Prop :=
  if ∃ message ∈ messages, message.CutsOff then SamePlaces old (copies 0 messages)
  else if outcomes.moveFile then WrittenOut outcomes (copies 0 messages)
  else if outcomes.removeFolder then copies 0 messages = []
  else SamePlaces old (copies 0 messages)

end

namespace Copying

lemma onDataAvailable_later (whole : ∀ read ∈ reads, read.data.length ≤ read.written)
    {state : Copying} (later : state.startOfMsg = false) :
    state.onDataAvailable reads =
      ({ state with
          file := state.file ++ reads.flatMap (·.data)
          offlineMsgSize :=
            if reads = [] then state.offlineMsgSize
            else (state.offlineMsgSize + (reads.flatMap (·.data)).length) % 2 ^ 32 }, true) := by
  induction reads generalizing state with
  | nil => rw [onDataAvailable, flatMap_nil, append_nil, if_pos rfl]
  | cons read reads ih =>
    obtain ⟨here, whole⟩ := forall_mem_cons.mp whole
    have next : state.read read = state.write read.data := by
      rw [Copying.read, later, take_of_length_le here]
      rfl
    have inside : (state.write read.data).startOfMsg = false := later
    rw [onDataAvailable, if_pos here, next, ih whole inside, write, flatMap_cons,
      append_assoc, if_neg (cons_ne_nil _ _), length_append]
    by_cases last : reads = []
    · rw [if_pos last, last]
      rfl
    · rw [if_neg last]
      simp only [Nat.mod_add_mod, Nat.add_assoc]

lemma read_first {read : StreamRead} (here : read.data.length ≤ read.written) (state : Copying)
    (first : state.startOfMsg = true) (reads) (status) :
    state.read read =
      { state with
        file := state.file ++ (Streamed.mk (read :: reads) status).envelope ++ read.data
        offlineMsgSize :=
          ((Streamed.mk (read :: reads) status).envelope ++ read.data).length % 2 ^ 32
        startOfMsg := false } := by
  rw [Copying.read, first, take_of_length_le here, if_pos rfl, Streamed.envelope]
  dsimp only
  split
  · rw [append_nil, nil_append, write, Nat.zero_add]
  · simp only [write, Nat.zero_add, length_append, Nat.mod_add_mod]

variable {streamed : Streamed}

lemma stream_whole (whole : streamed.Whole) (begun : streamed.reads ≠ [])
    (state : Copying) :
    state.stream streamed =
      ({ file := state.file ++ streamed.bytes
         startOfNewMsg := state.file.length
         offlineMsgSize := streamed.bytes.length % 2 ^ 32
         startOfMsg := false }, streamed.status) := by
  obtain ⟨reads, status⟩ := streamed
  cases reads with
  | nil => exact absurd rfl begun
  | cons read reads =>
    obtain ⟨here, whole⟩ := forall_mem_cons.mp whole
    have started : ({ state with startOfMsg := true, startOfNewMsg := state.file.length } :
        Copying).startOfMsg = true := rfl
    rw [stream]
    dsimp only
    rw [onDataAvailable, if_pos here, read_first here _ started reads status,
      onDataAvailable_later whole rfl]
    dsimp only
    rw [Streamed.bytes, flatMap_cons]
    by_cases last : reads = []
    · rw [if_pos last, last, flatMap_nil, append_nil, append_nil, append_assoc]
    · rw [if_neg last, append_assoc, append_assoc, Nat.mod_add_mod, ← length_append,
        append_assoc]

lemma stream_file (whole : streamed.Whole) (state : Copying) :
    (state.stream streamed).1.file = state.file ++ streamed.bytes ∧
      (state.stream streamed).2 = streamed.status := by
  by_cases begun : streamed.reads = []
  · obtain ⟨reads, status⟩ := streamed
    cases begun
    exact ⟨(append_nil _).symm, rfl⟩
  · rw [stream_whole whole begun]
    exact ⟨rfl, rfl⟩

lemma onDataAvailable_short (short : ¬ ∀ read ∈ reads, read.data.length ≤ read.written)
    (state : Copying) : (state.onDataAvailable reads).2 = false := by
  induction reads generalizing state with
  | nil => exact absurd (fun _ none => absurd none not_mem_nil) short
  | cons read reads ih =>
    rw [onDataAvailable]
    by_cases here : read.data.length ≤ read.written
    · rw [if_pos here]
      apply ih
      intro whole
      exact short (forall_mem_cons.mpr ⟨here, whole⟩)
    · rw [if_neg here]

lemma stream_cutsOff (cut : streamed.CutsOff) (state : Copying) :
    (state.stream streamed).2 = .failed := by
  by_cases whole : streamed.Whole
  · exact (stream_file whole state).2.trans (cut.resolve_right (not_not_intro whole))
  · rw [stream]
    have short := onDataAvailable_short whole
      { state with startOfMsg := true, startOfNewMsg := state.file.length }
    split
    · rename_i ended
      rw [ended] at short
      exact absurd short.symm Bool.false_ne_true
    · rfl

end Copying

lemma Streamed.envelope_le (streamed : Streamed) : streamed.envelope.length ≤ 7 := by
  rw [envelope]
  split
  · exact Nat.zero_le 7
  · split
    · exact Nat.zero_le 7
    · exact length_take_le' _ _

lemma StoredMsg.bytes_eq (message : StoredMsg old) {streamed : Streamed}
    (stream : message.stream = some streamed) (ok : streamed.status = .ok) :
    streamed.bytes = streamed.envelope ++ message.content ∧ streamed.reads ≠ [] := by
  have data := message.streamed streamed stream ok
  constructor
  · rw [Streamed.bytes, data]
  · intro none
    rw [none] at data
    exact message.begun data.symm

variable (message : StoredMsg old) (messages : List (StoredMsg old)) (state : Copying)

/-- A message at which the compaction stops: no header changes any more. -/
structure Stops : Prop where
  cutsOff : message.CutsOff
  copies_eq : copies state.file.length (message :: messages) = []
  copyMessages_eq : ∃ ended, copyMessages state ((message :: messages).map (·.toOfflineMsg)) =
    ((message :: messages).map (·.hdr), ended, false)

/-- A message that is passed, with its header in the end and what is written. -/
structure Passes (hdr : OfflineHdr) (next : Copying) (bytes : List UInt8) : Prop where
  goesOn : ¬ message.CutsOff
  copyMessages_eq : copyMessages state ((message :: messages).map (·.toOfflineMsg)) =
    (hdr :: (copyMessages next (messages.map (·.toOfflineMsg))).1,
      (copyMessages next (messages.map (·.toOfflineMsg))).2)
  file : next.file = state.file ++ bytes
  copied : hdr.offline = false ∧
      copies state.file.length (message :: messages) = copies next.file.length messages ∨
    ∃ envelope, bytes = envelope ++ message.content ∧ envelope.length ≤ 7 ∧
      copies state.file.length (message :: messages) =
        { offset := state.file.length, envelope := envelope, content := message.content } ::
          copies next.file.length messages ∧
      hdr = { message.hdr with
        messageOffset := state.file.length, offlineMessageSize := bytes.length % 2 ^ 32 }

lemma copyMessages_cons : Stops message messages state ∨
    ∃ hdr next bytes, Passes message messages state hdr next bytes := by
  cases found : message.hdrFound with
  | false =>
    left
    refine ⟨.inl found, ?_, state, ?_⟩
    · rw [copies, found, if_neg Bool.false_ne_true]
    · rw [map_cons, copyMessages, found, if_neg Bool.false_ne_true, map_map]
      rfl
  | true =>
    cases pending : message.hdr.pendingRemoval with
    | true =>
      right
      refine ⟨{ message.hdr with offline := false, pendingRemoval := false }, state, [], ?_, ?_,
        (append_nil _).symm, .inl ⟨rfl, ?_⟩⟩
      · rintro (notFound | ⟨notPending, _⟩)
        · exact absurd (found.symm.trans notFound) (by decide)
        · exact absurd (pending.symm.trans notPending) (by decide)
      · rw [map_cons, copyMessages, found, if_pos rfl, pending, if_pos rfl]
      · rw [copies, found, if_pos rfl, pending, if_pos rfl]
    | false =>
      cases stream : message.stream with
      | none =>
        right
        refine ⟨{ message.hdr with offline := false }, state, [], ?_, ?_,
          (append_nil _).symm, .inl ⟨rfl, ?_⟩⟩
        · rintro (notFound | ⟨_, some_⟩)
          · exact absurd (found.symm.trans notFound) (by decide)
          · rw [stream] at some_
            exact absurd some_ (by decide)
        · rw [map_cons, copyMessages, found, if_pos rfl, pending, if_neg Bool.false_ne_true,
            stream]
        · rw [copies, found, if_pos rfl, pending, if_neg Bool.false_ne_true, stream]
      | some streamed =>
        have cutsOff : message.CutsOff ↔ streamed.CutsOff := by
          simp [OfflineMsg.CutsOff, found, pending, stream]
        by_cases cut : streamed.CutsOff
        · left
          refine ⟨cutsOff.mpr cut, ?_, (state.stream streamed).1, ?_⟩
          · simp only [copies, found, pending, stream, if_pos cut, if_true, if_false,
              Bool.false_eq_true]
          · simp only [map_cons, copyMessages, found, pending, stream, if_true, if_false,
              Bool.false_eq_true, Copying.stream_cutsOff cut, map_map]
            rfl
        · right
          obtain ⟨notFailed, whole⟩ := not_or.mp cut
          have whole := not_not.mp whole
          obtain ⟨file, status⟩ := Copying.stream_file whole state
          have length : (state.stream streamed).1.file.length =
              state.file.length + streamed.bytes.length := by
            rw [file, length_append]
          cases ended : streamed.status with
          | failed => exact absurd ended notFailed
          | notOffline =>
            refine ⟨{ message.hdr with offline := false }, (state.stream streamed).1,
              streamed.bytes, cutsOff.not.mpr cut, ?_, file, .inl ⟨rfl, ?_⟩⟩
            · simp only [map_cons, copyMessages, found, pending, stream, if_true, if_false,
                Bool.false_eq_true, status, ended]
            · simp only [copies, found, pending, stream, if_neg cut, if_true, if_false,
                Bool.false_eq_true, ended, length, reduceCtorEq]
          | ok =>
            obtain ⟨bytes, begun⟩ := message.bytes_eq stream ended
            have copied := Copying.stream_whole whole begun state
            refine ⟨{ message.hdr with
                messageOffset := state.file.length
                offlineMessageSize := streamed.bytes.length % 2 ^ 32 },
              (state.stream streamed).1, streamed.bytes, cutsOff.not.mpr cut, ?_, file,
              .inr ⟨streamed.envelope, bytes, streamed.envelope_le, ?_, rfl⟩⟩
            · simp only [map_cons, copyMessages, found, pending, stream, if_true, if_false,
                Bool.false_eq_true, copied, ended]
            · simp only [copies, found, pending, stream, if_neg cut, if_true, if_false,
                Bool.false_eq_true, ended, length]

variable {message messages state}

/-- What is said of the places in the headers in the end is said of the places of the copies, and of
the old places if the compaction stops before the end. -/
theorem copyMessages_located (Good : Nat → Nat → List UInt8 → Prop) (messages : List (StoredMsg old))
    (state : Copying)
    (rest : (∃ message ∈ messages, message.CutsOff) → ∀ message ∈ messages,
      Good message.hdr.messageOffset message.hdr.offlineMessageSize message.content) :
    List.Forall₂ (fun hdr message => hdr.offline = true →
        Good hdr.messageOffset hdr.offlineMessageSize message.content)
      (copyMessages state (messages.map (·.toOfflineMsg))).1 messages ↔
    ∀ copy ∈ copies state.file.length messages,
      Good copy.offset (copy.length % 2 ^ 32) copy.content := by
  induction messages generalizing state with
  | nil =>
    constructor
    · intro _ copy mem
      exact absurd mem not_mem_nil
    · intro _
      exact .nil
  | cons message messages ih =>
    have restLater : (∃ message ∈ messages, message.CutsOff) → ∀ message ∈ messages,
        Good message.hdr.messageOffset message.hdr.offlineMessageSize message.content := by
      rintro ⟨cut, mem, cutsOff⟩ later inside
      exact rest ⟨cut, mem_cons_of_mem _ mem, cutsOff⟩ later
        (mem_cons_of_mem _ inside)
    rcases copyMessages_cons message messages state with
      ⟨cut, copies_eq, ended, result⟩ | ⟨hdr, next, bytes, _, result, _, copied⟩
    · have good := rest ⟨message, mem_cons_self, cut⟩
      rw [copies_eq, result, forall₂_map_left_iff, forall₂_same]
      constructor
      · intro _ copy mem
        exact absurd mem not_mem_nil
      · intro _ later mem _
        exact good later mem
    · rw [result, forall₂_cons, ih next restLater]
      rcases copied with ⟨cleared, copies_eq⟩ | ⟨envelope, whole, _, copies_eq, hdr_eq⟩
      · rw [copies_eq, cleared]
        simp only [Bool.false_eq_true, false_implies, true_and]
      · rw [copies_eq, forall_mem_cons, hdr_eq, whole]
        simp only [message.listed, forall_const]
        rfl

variable (messages : List (StoredMsg old))

lemma copyMessages_through (state) :
    (copyMessages state (messages.map (·.toOfflineMsg))).2.2 =
      !decide (∃ message ∈ messages, message.CutsOff) := by
  induction messages generalizing state with
  | nil => rfl
  | cons message messages ih =>
    rcases copyMessages_cons message messages state with
      ⟨cut, _, ended, result⟩ | ⟨hdr, next, bytes, goesOn, result, _, _⟩
    · rw [result, decide_eq_true ⟨message, mem_cons_self, cut⟩]
      rfl
    · rw [result]
      simp only [exists_mem_cons_iff, goesOn, false_or]
      exact ih next

/-- The new store holds each copy at its place. -/
theorem copyMessages_file (state : Copying) (through : ∀ message ∈ messages, ¬ message.CutsOff) :
    state.file <+: (copyMessages state (messages.map (·.toOfflineMsg))).2.1.file ∧
      ∀ copy ∈ copies state.file.length messages, ∃ before later,
        (copyMessages state (messages.map (·.toOfflineMsg))).2.1.file =
          before ++ (copy.envelope ++ copy.content) ++ later ∧ before.length = copy.offset ∧
        copy.envelope.length ≤ 7 := by
  induction messages generalizing state with
  | nil => exact ⟨prefix_rfl, nofun⟩
  | cons message messages ih =>
    obtain ⟨here, through⟩ := forall_mem_cons.mp through
    rcases copyMessages_cons message messages state with
      ⟨cut, _⟩ | ⟨hdr, next, bytes, _, result, file, copied⟩
    · exact absurd cut here
    · obtain ⟨⟨later, whole⟩, places⟩ := ih next through
      rw [result]
      have start : state.file <+: next.file := by
        rw [file]
        exact prefix_append _ _
      refine ⟨start.trans ⟨later, whole⟩, ?_⟩
      rcases copied with ⟨_, copies_eq⟩ | ⟨envelope, bytes_eq, short, copies_eq, _⟩
      · rw [copies_eq]
        exact places
      · rw [copies_eq, forall_mem_cons]
        refine ⟨⟨state.file, later, ?_, rfl, short⟩, places⟩
        rw [← whole, file, bytes_eq]

/-- Where a copy is found in the part of the new store that reached the disk. -/
theorem locates_take_iff {copy : Copy}
    (whole : file = before ++ (copy.envelope ++ copy.content) ++ later)
    (place : before.length = copy.offset) (short : copy.envelope.length ≤ 7) (flushed : Nat) :
    Locates (file.take flushed) copy.offset (copy.length % 2 ^ 32) copy.content ↔
      IsEnvelope copy.content copy.envelope ∧ copy.length < 2 ^ 32 ∧
        copy.offset + copy.length ≤ flushed := by
  have length : copy.length = copy.envelope.length + copy.content.length := length_append
  have inside : file.length = copy.offset + copy.length + later.length := by
    rw [whole, length_append, length_append, place]
    rfl
  have found : copy.length < 2 ^ 32 → copy.offset + copy.length ≤ flushed →
      ((file.take flushed).drop copy.offset).take (copy.length % 2 ^ 32) =
        copy.envelope ++ copy.content := by
    intro small reached
    rw [Nat.mod_eq_of_lt small, drop_take, take_take, Nat.min_eq_left (by omega), whole,
      append_assoc, ← place, drop_left]
    exact take_left
  constructor
  · rintro ⟨fits, envelope, isEnvelope, entry⟩
    rw [length_take] at fits
    have entryLength := congrArg List.length entry
    rw [length_take, length_drop, length_take, length_append] at entryLength
    have small : copy.length < 2 ^ 32 := by
      by_contra large
      omega
    have reached : copy.offset + copy.length ≤ flushed := by
      rw [Nat.mod_eq_of_lt small] at fits
      omega
    rw [found small reached] at entry
    have same : copy.envelope = envelope := append_cancel_right entry
    rw [same]
    exact ⟨isEnvelope, small, reached⟩
  · rintro ⟨isEnvelope, small, reached⟩
    refine ⟨?_, copy.envelope, isEnvelope, found small reached⟩
    rw [Nat.mod_eq_of_lt small, length_take]
    omega

section

variable {Path : Type u} [DecidableEq Path] (files : StoreFiles Path) (outcomes : StoreOutcomes)

lemma finishStore_folder (written) (disk) :
    finishStore files outcomes written disk files.folder =
      if outcomes.moveFile then some (written.take outcomes.flushed)
      else if outcomes.removeFolder then none
      else disk files.folder := by
  have created : (disk.create files.file (written.take outcomes.flushed)) files.file =
      some (written.take outcomes.flushed) := Function.update_self ..
  have stays : ((disk.create files.file (written.take outcomes.flushed)).remove
      outcomes.removeFolder files.folder) files.file = some (written.take outcomes.flushed) := by
    rw [Disk.remove_other files.distinct.symm, created]
  have moves : Disk.moves _ outcomes.moveFile files.file = outcomes.moveFile :=
    Disk.moves_of_some stays
  rw [finishStore]
  cases moved : outcomes.moveFile with
  | true =>
    rw [moved] at moves
    rw [Disk.move_target moves, stays, if_pos rfl]
  | false =>
    rw [moved] at moves
    rw [Disk.move_failed moves, if_neg Bool.false_ne_true]
    cases removed : outcomes.removeFolder with
    | true => rw [Disk.remove_self rfl, if_pos rfl]
    | false =>
      rw [if_neg Bool.false_ne_true]
      exact Function.update_of_ne files.distinct _ _

/-- After a compaction the headers that are flagged locate their messages if and only if it ends
well. -/
theorem compactStore_allLocated_iff (disk : Disk Path (List UInt8)) (old : List UInt8)
    (store : disk files.folder = some old) (messages : List (StoredMsg old)) :
    AllLocated files messages
        (compactStore files outcomes disk (messages.map (·.toOfflineMsg))) ↔
      EndsWell outcomes messages := by
  have oldPlaces : ∀ message ∈ messages, ∃ store, disk files.folder = some store ∧
      Locates store message.hdr.messageOffset message.hdr.offlineMessageSize message.content :=
    fun message _ => ⟨old, store, message.located⟩
  have samePlaces : (∀ copy ∈ copies 0 messages, ∃ store, disk files.folder = some store ∧
      Locates store copy.offset (copy.length % 2 ^ 32) copy.content) ↔
      SamePlaces old (copies 0 messages) := by
    simp only [store, Option.some.injEq, exists_eq_left', SamePlaces]
  unfold AllLocated compactStore EndsWell
  have through := copyMessages_through messages {}
  by_cases cut : ∃ message ∈ messages, message.CutsOff
  · rw [decide_eq_true cut, Bool.not_true] at through
    have located := copyMessages_located (fun offset size content =>
      ∃ store, disk files.folder = some store ∧ Locates store offset size content) messages {}
      fun _ => oldPlaces
    rw [if_pos cut, ← samePlaces]
    generalize copyMessages {} (messages.map (·.toOfflineMsg)) = result at *
    obtain ⟨hdrs, state, finished⟩ := result
    cases through
    dsimp only
    rw [Disk.remove_other files.distinct]
    exact located
  · rw [decide_eq_false cut, Bool.not_false] at through
    have goesOn : ∀ message ∈ messages, ¬ message.CutsOff := by
      intro message mem cutsOff
      exact cut ⟨message, mem, cutsOff⟩
    obtain ⟨_, places⟩ := copyMessages_file messages {} goesOn
    have located := fun Good => copyMessages_located Good messages {} fun cutsOff =>
      absurd cutsOff cut
    rw [if_neg cut]
    generalize copyMessages {} (messages.map (·.toOfflineMsg)) = result at *
    obtain ⟨hdrs, state, finished⟩ := result
    cases through
    dsimp only at places located ⊢
    rw [finishStore_folder, located fun offset size content => ∃ store,
      (if outcomes.moveFile then some (state.file.take outcomes.flushed)
        else if outcomes.removeFolder then none else disk files.folder) = some store ∧
        Locates store offset size content]
    cases outcomes.moveFile with
    | true =>
      simp only [if_true, Option.some.injEq, exists_eq_left', WrittenOut]
      apply forall₂_congr
      intro copy mem
      obtain ⟨before, later, whole, place, short⟩ := places copy mem
      exact locates_take_iff whole place short outcomes.flushed
    | false =>
      simp only [if_false, Bool.false_eq_true]
      cases outcomes.removeFolder with
      | true =>
        simp only [if_true, reduceCtorEq, false_and, exists_false]
        exact eq_nil_iff_forall_not_mem.symm
      | false =>
        simp only [if_false, Bool.false_eq_true]
        exact samePlaces

end

/-- A store with the messages `A:1`, `B:1` and `C:1`. -/
def threeMessages : List UInt8 :=
  fromLine ++ [0x41, 0x3A, 0x31, 0x0A] ++ (fromLine ++ [0x42, 0x3A, 0x31, 0x0A]) ++
    (fromLine ++ [0x43, 0x3A, 0x31, 0x0A])

def removedFirst : StoredMsg threeMessages where
  hdr := { pendingRemoval := true, messageOffset := 0, offlineMessageSize := 11 }
  stream := none
  content := [0x41, 0x3A, 0x31, 0x0A]
  begun := by decide
  listed := rfl
  located := ⟨by decide, fromLine, .inl (by decide), by decide⟩
  streamed := nofun

def copiedSecond : StoredMsg threeMessages where
  hdr := { messageOffset := 11, offlineMessageSize := 11 }
  stream := some
    { reads := [{ data := [0x42, 0x3A, 0x31, 0x0A], written := 4 }], status := .ok }
  content := [0x42, 0x3A, 0x31, 0x0A]
  begun := by decide
  listed := rfl
  located := ⟨by decide, fromLine, .inl (by decide), by decide⟩
  streamed := by
    intro streamed member _
    cases member
    rfl

/-- The stream of the third message stops with a failure. -/
def failedThird : StoredMsg threeMessages where
  hdr := { messageOffset := 22, offlineMessageSize := 11 }
  stream := some { reads := [], status := .failed }
  content := [0x43, 0x3A, 0x31, 0x0A]
  begun := by decide
  listed := rfl
  located := ⟨by decide, fromLine, .inl (by decide), by decide⟩
  streamed := by
    intro streamed member ok
    cases member
    exact absurd ok (by decide)

def twoPaths : StoreFiles Bool := { folder := true, file := false, distinct := by decide }

def threeOnDisk : Disk Bool (List UInt8) := fun path => if path then some threeMessages else some []

theorem compactStore_copied :
    AllLocated twoPaths [removedFirst, copiedSecond]
        (compactStore twoPaths { flushed := 11 } threeOnDisk
          ([removedFirst, copiedSecond].map (·.toOfflineMsg))) ↔
      EndsWell { flushed := 11 } [removedFirst, copiedSecond] :=
  compactStore_allLocated_iff twoPaths { flushed := 11 } threeOnDisk threeMessages rfl
    [removedFirst, copiedSecond]

lemma Locates.suffix {store content : List UInt8} {offset size : Nat}
    (locates : Locates store offset size content) :
    content <:+ (store.drop offset).take size := by
  obtain ⟨_, envelope, _, entry⟩ := locates
  exact ⟨envelope, entry.symm⟩

/-- With the third stream the compaction stops, and the header of the second message points to the
first. -/
theorem compactStore_failedThird :
    (compactStore twoPaths { flushed := 11 } threeOnDisk
        ([removedFirst, copiedSecond, failedThird].map (·.toOfflineMsg))).1 =
      [{ offline := false, messageOffset := 0, offlineMessageSize := 11 },
        { messageOffset := 0, offlineMessageSize := 11 },
        { messageOffset := 22, offlineMessageSize := 11 }] ∧
    ¬ AllLocated twoPaths [removedFirst, copiedSecond, failedThird]
      (compactStore twoPaths { flushed := 11 } threeOnDisk
        ([removedFirst, copiedSecond, failedThird].map (·.toOfflineMsg))) := by
  have stopped : compactStore twoPaths { flushed := 11 } threeOnDisk
      ([removedFirst, copiedSecond, failedThird].map (·.toOfflineMsg)) =
      ([{ offline := false, messageOffset := 0, offlineMessageSize := 11 },
        { messageOffset := 0, offlineMessageSize := 11 },
        { messageOffset := 22, offlineMessageSize := 11 }], threeOnDisk.remove true false) := rfl
  rw [stopped]
  refine ⟨rfl, ?_⟩
  intro located
  obtain _ | ⟨_, _ | ⟨second, _⟩⟩ := located
  obtain ⟨store, onDisk, locates⟩ := second rfl
  cases onDisk
  exact absurd locates.suffix (by decide)

end CommCentral.Compact
