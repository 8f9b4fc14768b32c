import CommCentral.Lib.Decision
import CommCentral.Lib.Disk
import Mathlib

/-! The compaction of an offline store: the headers it changes on the way, and the files in the
end. -/
namespace CommCentral.Compact

open Lib

universe u

/-- `"From "`. -/
def from_ : List UInt8 := [0x46, 0x72, 0x6F, 0x6D, 0x20]

/-- The envelope that is put before a message that has none. -/
def fromLine : List UInt8 := from_ ++ [0x0D, 0x0A]

/-- What a header says of the place of a message. The store token is set with the offset. -/
structure OfflineHdr where
  offline : Bool := true
  pendingRemoval : Bool := false
  messageOffset : Nat
  offlineMessageSize : Nat
  deriving DecidableEq

/-- One read of a stream into the data buffer, which has other bytes `behind` what is read, and how
many bytes the writes of the envelope and of the data accept. -/
structure StreamRead where
  data : List UInt8
  behind : List UInt8 := []
  envelope : Nat := 7
  written : Nat

inductive StreamStatus where
  | ok
  | notOffline
  | failed
  deriving DecidableEq

/-- A message as it is streamed, and the status the stream stops with. -/
structure Streamed where
  reads : List StreamRead
  status : StreamStatus

/-- The members of `nsOfflineStoreCompactState` that the copying uses. `file` is what has been
written to the stream. -/
structure Copying where
  file : List UInt8 := []
  startOfNewMsg : Nat := 0
  offlineMsgSize : Nat := 0
  startOfMsg : Bool := true

namespace Copying

def write (state : Copying) (bytes : List UInt8) : Copying :=
  { state with
    file := state.file ++ bytes
    offlineMsgSize := (state.offlineMsgSize + bytes.length) % 2 ^ 32 }

/-- One round of the loop of `OnDataAvailable`. The size is set to zero with the first data. -/
def read (state : Copying) (read : StreamRead) : Copying :=
  let state :=
    if state.startOfMsg then
      let state := { state with startOfMsg := false, offlineMsgSize := 0 }
      if from_.isPrefixOf (read.data ++ read.behind) then state
      else state.write (fromLine.take read.envelope)
    else state
  state.write (read.data.take read.written)

/-- `OnDataAvailable`, until a write falls short. -/
def onDataAvailable (state : Copying) : List StreamRead → Copying × Bool
  | [] => (state, true)
  | read :: reads =>
    if read.data.length ≤ read.written then (state.read read).onDataAvailable reads
    else (state.read read, false)

/-- The stream of a message, from `OnStartRequest` to the status for `OnStopRequest`. -/
def stream (state : Copying) (streamed : Streamed) : Copying × StreamStatus :=
  let state := { state with startOfMsg := true, startOfNewMsg := state.file.length }
  match state.onDataAvailable streamed.reads with
  | (state, true) => (state, streamed.status)
  | (state, false) => (state, .failed)

end Copying

/-- A message of the store, and how it goes with it. There is no stream where `StreamMessage`
fails. -/
structure OfflineMsg where
  hdr : OfflineHdr
  hdrFound : Bool := true
  stream : Option Streamed

/-- `CopyNextMessage` and `OnStopRequest` by turns: the headers, and whether the end was reached. -/
def copyMessages (state : Copying) : List OfflineMsg → List OfflineHdr × Copying × Bool
  | [] => ([], state, true)
  | message :: messages =>
    if message.hdrFound then
      if message.hdr.pendingRemoval then
        let (hdrs, result) := copyMessages state messages
        ({ message.hdr with offline := false, pendingRemoval := false } :: hdrs, result)
      else
        match message.stream with
        | none =>
          let (hdrs, result) := copyMessages state messages
          ({ message.hdr with offline := false } :: hdrs, result)
        | some streamed =>
          let (state, status) := state.stream streamed
          match status with
          | .failed => (message.hdr :: messages.map (·.hdr), state, false)
          | .notOffline =>
            let (hdrs, result) := copyMessages state messages
            ({ message.hdr with offline := false } :: hdrs, result)
          | .ok =>
            let hdr := { message.hdr with
              messageOffset := state.startOfNewMsg
              offlineMessageSize := state.offlineMsgSize }
            let (hdrs, result) := copyMessages state messages
            (hdr :: hdrs, result)
    else (message.hdr :: messages.map (·.hdr), state, false)

/-- The store of a folder and the file that the messages are copied to. -/
structure StoreFiles (Path : Type u) where
  folder : Path
  file : Path
  distinct : folder ≠ file

/-- How the file operations turn out. `flushed` bytes of the new store reach the disk. -/
structure StoreOutcomes where
  flushed : Nat
  removeFolder : Bool := true
  moveFile : Bool := true
  removeFile : Bool := true

section

variable {Path : Type u} [DecidableEq Path] (files : StoreFiles Path) (outcomes : StoreOutcomes)

/-- `nsOfflineStoreCompactState::FinishCompact`, as far as it concerns the files. -/
def finishStore (written : List UInt8) (disk : Disk Path (List UInt8)) : Disk Path (List UInt8) :=
  let disk := disk.create files.file (written.take outcomes.flushed)
  let disk := disk.remove outcomes.removeFolder files.folder
  disk.move outcomes.moveFile files.file files.folder

/-- A compaction until it stops: the headers and the disk. -/
def compactStore (disk : Disk Path (List UInt8)) (messages : List OfflineMsg) :
    List OfflineHdr × Disk Path (List UInt8) :=
  match copyMessages {} messages with
  | (hdrs, state, true) => (hdrs, finishStore files outcomes state.file disk)
  | (hdrs, _, false) => (hdrs, disk.remove outcomes.removeFile files.file)

end

end CommCentral.Compact
