import CommCentral.Lib.Disk

/-! The files of a folder when its compaction finishes. -/
namespace CommCentral.Compact

open Lib List

universe u v

/-- The message file of a folder and its summary, and those of the compacted folder. -/
structure FolderFiles (Path : Type u) where
  folder : Path
  oldSummary : Path
  file : Path
  newSummary : Path
  distinct : [folder, oldSummary, file, newSummary].Nodup

namespace FolderFiles

variable {Path : Type u} (files : FolderFiles Path)

lemma folder_ne : files.folder ≠ files.oldSummary ∧ files.folder ≠ files.file ∧
    files.folder ≠ files.newSummary := by
  have distinct := files.distinct
  simp only [nodup_cons, mem_cons, not_mem_nil, or_false, not_or] at distinct
  exact distinct.1

lemma oldSummary_ne : files.oldSummary ≠ files.file ∧ files.oldSummary ≠ files.newSummary := by
  have distinct := files.distinct
  simp only [nodup_cons, mem_cons, not_mem_nil, or_false, not_or] at distinct
  exact distinct.2.1

lemma file_ne : files.file ≠ files.newSummary := by
  have distinct := files.distinct
  simp only [nodup_cons, mem_cons, not_mem_nil, or_false, not_or] at distinct
  exact distinct.2.2.1

end FolderFiles

/-- How the file operations of `FinishCompact` turn out. A file that could not be created may have
got another path in the attempt. -/
structure FileOutcomes (Path : Type u) where
  cloneFile : Bool := true
  fileSize : Option Nat
  cloneSummary : Bool := true
  createUnique : Bool := true
  uniquePath : Path
  leafName : Bool := true
  moveSummaryAway : Bool := true
  moveFile : Bool := true
  cloneNewSummary : Bool := true
  moveNewSummary : Bool := true
  restoreSummary : Bool := true
  removeTempSummary : Bool := true
  removeFile : Bool := true
  removeNewSummary : Bool := true

/-- The disk, and which of the two files were renamed. -/
structure Renamed (Path : Type u) (Content : Type v) where
  disk : Disk Path Content
  folderRenameSucceeded : Bool := false
  msfRenameSucceeded : Bool := false

section

variable {Path : Type u} {Content : Type v} [DecidableEq Path]
variable (files : FolderFiles Path) (outcomes : FileOutcomes Path)

/-- The compacted message file is moved over the old one, then its summary. -/
def landFiles (disk : Disk Path Content) : Renamed Path Content :=
  if disk.moves outcomes.moveFile files.file then
    let disk := disk.move outcomes.moveFile files.file files.folder
    if outcomes.cloneNewSummary && disk.moves outcomes.moveNewSummary files.newSummary then
      { disk := disk.move outcomes.moveNewSummary files.newSummary files.oldSummary
        folderRenameSucceeded := true
        msfRenameSucceeded := true }
    else { disk := disk, folderRenameSucceeded := true }
  else { disk := disk }

/-- The old summary is put back, or removed if that fails. -/
def putBack (disk : Disk Path Content) : Disk Path Content :=
  if disk.moves outcomes.restoreSummary outcomes.uniquePath then
    disk.move outcomes.restoreSummary outcomes.uniquePath files.oldSummary
  else disk.remove outcomes.removeTempSummary outcomes.uniquePath

/-- The old summary is out of the way. It is put back unless the new one has been landed. -/
def swapSummary (disk : Disk Path Content) : Renamed Path Content :=
  let renamed := landFiles files outcomes disk
  if renamed.msfRenameSucceeded then
    { renamed with disk := renamed.disk.remove outcomes.removeTempSummary outcomes.uniquePath }
  else { renamed with disk := putBack files outcomes renamed.disk }

/-- The part of `FinishCompact` for a compacted file of the right size. -/
def renameFiles (empty : Content) (disk : Disk Path Content) : Renamed Path Content :=
  if outcomes.cloneSummary then
    if outcomes.createUnique then
      let disk := disk.create outcomes.uniquePath empty
      if outcomes.leafName && disk.moves outcomes.moveSummaryAway files.oldSummary then
        swapSummary files outcomes
          (disk.move outcomes.moveSummaryAway files.oldSummary outcomes.uniquePath)
      else { disk := disk.remove outcomes.removeTempSummary outcomes.uniquePath }
    else { disk := disk.remove outcomes.removeTempSummary outcomes.uniquePath }
  else { disk := disk }

def removeAbandoned (renamed : Renamed Path Content) : Disk Path Content :=
  let disk :=
    if renamed.folderRenameSucceeded then renamed.disk
    else renamed.disk.remove outcomes.removeFile files.file
  if renamed.msfRenameSucceeded then disk
  else disk.remove outcomes.removeNewSummary files.newSummary

/-- `nsFolderCompactState::FinishCompact`, as far as it concerns the files. -/
def finishCompact (empty : Content) (totalMsgSize : Nat) (disk : Disk Path Content) :
    Disk Path Content :=
  removeAbandoned files outcomes
    (if outcomes.cloneFile && decide (outcomes.fileSize = some totalMsgSize) then
      renameFiles files outcomes empty disk
    else { disk := disk })

/-- The second file was renamed, the third was not, and the old summary was put back. -/
def FileOutcomes.PutsBackTooLate (totalMsgSize : Nat) : Prop :=
  (outcomes.cloneFile ∧ outcomes.fileSize = some totalMsgSize) ∧
    (outcomes.cloneSummary ∧ outcomes.createUnique ∧ outcomes.leafName) ∧
    (outcomes.moveSummaryAway ∧ outcomes.moveFile) ∧
    ¬ (outcomes.cloneNewSummary ∧ outcomes.moveNewSummary) ∧ outcomes.restoreSummary

instance (totalMsgSize : Nat) : Decidable (outcomes.PutsBackTooLate totalMsgSize) :=
  inferInstanceAs (Decidable (_ ∧ _))

/-- All files that the compaction removes could be removed. -/
def FileOutcomes.Removes : Prop :=
  outcomes.removeTempSummary ∧ outcomes.removeFile ∧ outcomes.removeNewSummary

/-- The contents of the four files when the compaction finishes. -/
structure Compacted (Content : Type v) where
  oldMessages : Content
  oldSummary : Content
  newMessages : Content
  newSummary : Content

variable (contents : Compacted Content)

structure Ready (disk : Disk Path Content) : Prop where
  folder : disk files.folder = some contents.oldMessages
  oldSummary : disk files.oldSummary = some contents.oldSummary
  file : disk files.file = some contents.newMessages
  newSummary : disk files.newSummary = some contents.newSummary

/-- A new file is unique, and an attempt to create it names no file of the folder but the
summary. -/
structure FileOutcomes.Honest (disk : Disk Path Content) : Prop where
  unique : outcomes.createUnique = true → disk outcomes.uniquePath = none
  attempt : outcomes.uniquePath ≠ files.folder ∧ outcomes.uniquePath ≠ files.file ∧
    outcomes.uniquePath ≠ files.newSummary

/-- The message file and its summary are both old or both compacted, or there is no summary. -/
def InStep (disk : Disk Path Content) : Prop :=
  (disk files.folder = some contents.oldMessages ∧
      disk files.oldSummary = some contents.oldSummary) ∨
    (disk files.folder = some contents.newMessages ∧
      disk files.oldSummary = some contents.newSummary) ∨
    disk files.oldSummary = none

/-- The old message file is there, or the compacted one in its place. -/
def NotLost (disk : Disk Path Content) : Prop :=
  disk files.folder = some contents.oldMessages ∨ disk files.folder = some contents.newMessages

/-- No temporary file is left. -/
def Clean (disk : Disk Path Content) : Prop :=
  disk files.file = none ∧ disk files.newSummary = none ∧
    (outcomes.createUnique = true → disk outcomes.uniquePath = none)

variable {files outcomes contents} {disk : Disk Path Content}

/-- How the renaming can end. -/
inductive Ends (files : FolderFiles Path) (contents : Compacted Content) (tooLate : Prop) :
    Renamed Path Content → Prop
  | notRenamed {disk : Disk Path Content} (inTime : ¬ tooLate)
    (folder : disk files.folder = some contents.oldMessages)
    (summary : disk files.oldSummary = some contents.oldSummary ∨ disk files.oldSummary = none) :
    Ends files contents tooLate ⟨disk, false, false⟩
  | landed {disk : Disk Path Content} (inTime : ¬ tooLate) (folder : disk files.folder = some contents.newMessages)
    (file : disk files.file = none)
    (summary : disk files.oldSummary = some contents.newSummary)
    (newSummary : disk files.newSummary = none) : Ends files contents tooLate ⟨disk, true, true⟩
  | noSummary {disk : Disk Path Content} (inTime : ¬ tooLate)
    (folder : disk files.folder = some contents.newMessages) (file : disk files.file = none)
    (summary : disk files.oldSummary = none) : Ends files contents tooLate ⟨disk, true, false⟩
  | oldSummary {disk : Disk Path Content} (late : tooLate) (folder : disk files.folder = some contents.newMessages)
    (file : disk files.file = none)
    (summary : disk files.oldSummary = some contents.oldSummary) :
    Ends files contents tooLate ⟨disk, true, false⟩

/-- The old summary waits under the unique name. -/
structure Away (files : FolderFiles Path) (contents : Compacted Content) (uniquePath : Path)
    (disk : Disk Path Content) : Prop where
  folder : disk files.folder = some contents.oldMessages
  oldSummary : disk files.oldSummary = none
  file : disk files.file = some contents.newMessages
  newSummary : disk files.newSummary = some contents.newSummary
  temp : disk uniquePath = some contents.oldSummary
  apart : uniquePath ≠ files.folder ∧ uniquePath ≠ files.oldSummary ∧ uniquePath ≠ files.file ∧
    uniquePath ≠ files.newSummary

lemma putBack_spec (temp : disk outcomes.uniquePath = some contents.oldSummary)
    (summary : disk files.oldSummary = none)
    (apart : outcomes.uniquePath ≠ files.oldSummary) :
    (if outcomes.restoreSummary then
        putBack files outcomes disk files.oldSummary = some contents.oldSummary
      else putBack files outcomes disk files.oldSummary = none) ∧
      (outcomes.removeTempSummary = true → putBack files outcomes disk outcomes.uniquePath = none) ∧
      ∀ other, other ≠ outcomes.uniquePath → other ≠ files.oldSummary →
        putBack files outcomes disk other = disk other := by
  have moves : disk.moves outcomes.restoreSummary outcomes.uniquePath = outcomes.restoreSummary :=
    Disk.moves_of_some temp
  rw [putBack, moves]
  split
  · rename_i restored
    rw [restored] at moves ⊢
    refine ⟨?_, ?_, ?_⟩
    · rw [Disk.move_target moves, temp]
    · exact fun _ => Disk.move_source moves apart
    · exact fun other notTemp notSummary => Disk.move_other notTemp notSummary
  · refine ⟨?_, ?_, ?_⟩
    · rw [Disk.remove_other apart.symm, summary]
    · exact fun removed => Disk.remove_self removed
    · exact fun other notTemp _ => Disk.remove_other notTemp

/-- The compacted files are landed, or the old summary is put back. -/
theorem swapSummary_ends (away : Away files contents outcomes.uniquePath disk) :
    Ends files contents (outcomes.moveFile ∧
        ¬ (outcomes.cloneNewSummary ∧ outcomes.moveNewSummary) ∧ outcomes.restoreSummary)
      (swapSummary files outcomes disk) ∧
      (outcomes.removeTempSummary = true →
        (swapSummary files outcomes disk).disk outcomes.uniquePath = none) := by
  obtain ⟨folder, summary, file, newSummary, temp, notFolder, notSummary, notFile, notNew⟩ := away
  obtain ⟨folderSummary, folderFile, folderNew⟩ := files.folder_ne
  obtain ⟨summaryFile, summaryNew⟩ := files.oldSummary_ne
  have fileNew := files.file_ne
  have movesFile : disk.moves outcomes.moveFile files.file = outcomes.moveFile :=
    Disk.moves_of_some file
  by_cases moved : outcomes.moveFile = true
  · generalize landed : disk.move outcomes.moveFile files.file files.folder = first
    rw [moved] at movesFile landed
    have folder' : first files.folder = some contents.newMessages := by
      rw [← landed, Disk.move_target movesFile, file]
    have file' : first files.file = none := by
      rw [← landed]
      exact Disk.move_source movesFile folderFile.symm
    have summary' : first files.oldSummary = none := by
      rw [← landed, Disk.move_other summaryFile folderSummary.symm, summary]
    have newSummary' : first files.newSummary = some contents.newSummary := by
      rw [← landed, Disk.move_other fileNew.symm folderNew.symm, newSummary]
    have temp' : first outcomes.uniquePath = some contents.oldSummary := by
      rw [← landed, Disk.move_other notFile notFolder, temp]
    have movesSummary : first.moves outcomes.moveNewSummary files.newSummary =
        outcomes.moveNewSummary := Disk.moves_of_some newSummary'
    by_cases lands : outcomes.cloneNewSummary = true ∧ outcomes.moveNewSummary = true
    · rw [lands.2] at movesSummary
      have swaps : swapSummary files outcomes disk =
          ⟨(first.move true files.newSummary files.oldSummary).remove outcomes.removeTempSummary
            outcomes.uniquePath, true, true⟩ := by
        simp only [swapSummary, landFiles, moved, movesFile, landed, lands.1, lands.2, movesSummary,
          Bool.and_self, if_true]
      rw [swaps]
      refine ⟨.landed ?_ ?_ ?_ ?_ ?_, ?_⟩
      · exact fun late => late.2.1 lands
      · rw [Disk.remove_other notFolder.symm, Disk.move_other folderNew folderSummary, folder']
      · rw [Disk.remove_other notFile.symm, Disk.move_other fileNew summaryFile.symm, file']
      · rw [Disk.remove_other notSummary.symm, Disk.move_target movesSummary, newSummary']
      · rw [Disk.remove_other notNew.symm, Disk.move_source movesSummary summaryNew.symm]
      · exact fun removed => Disk.remove_self removed
    · have swaps : swapSummary files outcomes disk = ⟨putBack files outcomes first, true, false⟩ := by
        rw [← Bool.and_eq_true_iff, Bool.not_eq_true, ← movesSummary] at lands
        simp only [swapSummary, landFiles, moved, movesFile, landed, lands, if_true, Bool.false_eq_true,
          if_false]
      rw [swaps]
      obtain ⟨summary'', temp'', others⟩ := putBack_spec temp' summary' notSummary
      have folder'' := (others files.folder notFolder.symm folderSummary).trans folder'
      have file'' := (others files.file notFile.symm summaryFile.symm).trans file'
      refine ⟨?_, temp''⟩
      by_cases restored : outcomes.restoreSummary = true
      · rw [if_pos restored] at summary''
        exact .oldSummary ⟨moved, lands, restored⟩ folder'' file'' summary''
      · rw [if_neg restored] at summary''
        exact .noSummary (fun late => restored late.2.2) folder'' file'' summary''
  · have swaps : swapSummary files outcomes disk = ⟨putBack files outcomes disk, false, false⟩ := by
      rw [Bool.not_eq_true, ← movesFile] at moved
      simp only [swapSummary, landFiles, moved, Bool.false_eq_true, if_false]
    rw [swaps]
    obtain ⟨summary'', temp'', others⟩ := putBack_spec temp summary notSummary
    have folder'' := (others files.folder notFolder.symm folderSummary).trans folder
    refine ⟨.notRenamed (fun late => moved late.1) folder'' ?_, temp''⟩
    split at summary''
    · exact .inl summary''
    · exact .inr summary''

omit [DecidableEq Path] in
lemma FileOutcomes.Honest.apart (honest : outcomes.Honest files disk)
    (ready : Ready files contents disk) (created : outcomes.createUnique = true) :
    outcomes.uniquePath ≠ files.oldSummary := by
  intro same
  have unique := honest.unique created
  rw [same, ready.oldSummary] at unique
  cases unique

lemma renameFiles_ends (ready : Ready files contents disk) (honest : outcomes.Honest files disk)
    (empty : Content) :
    Ends files contents ((outcomes.cloneSummary ∧ outcomes.createUnique ∧ outcomes.leafName) ∧
        outcomes.moveSummaryAway ∧ outcomes.moveFile ∧
        ¬ (outcomes.cloneNewSummary ∧ outcomes.moveNewSummary) ∧ outcomes.restoreSummary)
      (renameFiles files outcomes empty disk) ∧
      (outcomes.createUnique = true → outcomes.removeTempSummary = true →
        (renameFiles files outcomes empty disk).disk outcomes.uniquePath = none) := by
  obtain ⟨notFolder, notFile, notNew⟩ := honest.attempt
  rw [renameFiles]
  by_cases cloned : outcomes.cloneSummary = true
  · rw [if_pos cloned]
    by_cases created : outcomes.createUnique = true
    · have notSummary := honest.apart ready created
      have others : ∀ other, other ≠ outcomes.uniquePath →
          disk.create outcomes.uniquePath empty other = disk other :=
        fun other different => Function.update_of_ne different _ _
      have folder := (others _ notFolder.symm).trans ready.folder
      have summary := (others _ notSummary.symm).trans ready.oldSummary
      have file := (others _ notFile.symm).trans ready.file
      have newSummary := (others _ notNew.symm).trans ready.newSummary
      rw [if_pos created]
      dsimp only
      generalize disk.create outcomes.uniquePath empty = first at folder summary file newSummary ⊢
      have moves : first.moves outcomes.moveSummaryAway files.oldSummary = outcomes.moveSummaryAway :=
        Disk.moves_of_some summary
      rw [moves]
      by_cases away : (outcomes.leafName && outcomes.moveSummaryAway) = true
      · rw [if_pos away]
        obtain ⟨named, moved⟩ := Bool.and_eq_true_iff.mp away
        obtain ⟨folderSummary, -, -⟩ := files.folder_ne
        obtain ⟨summaryFile, summaryNew⟩ := files.oldSummary_ne
        rw [moved] at moves ⊢
        have isAway : Away files contents outcomes.uniquePath
            (first.move true files.oldSummary outcomes.uniquePath) := by
          refine ⟨?_, ?_, ?_, ?_, ?_, notFolder, notSummary, notFile, notNew⟩
          · rw [Disk.move_other folderSummary notFolder.symm, folder]
          · exact Disk.move_source moves notSummary.symm
          · rw [Disk.move_other summaryFile.symm notFile.symm, file]
          · rw [Disk.move_other summaryNew.symm notNew.symm, newSummary]
          · rw [Disk.move_target moves, summary]
        obtain ⟨ends, temp⟩ := swapSummary_ends isAway
        refine ⟨?_, fun _ => temp⟩
        have conditions : ((outcomes.cloneSummary ∧ outcomes.createUnique ∧ outcomes.leafName) ∧
            true ∧ outcomes.moveFile ∧ ¬ (outcomes.cloneNewSummary ∧ outcomes.moveNewSummary) ∧
              outcomes.restoreSummary) ↔ outcomes.moveFile ∧
            ¬ (outcomes.cloneNewSummary ∧ outcomes.moveNewSummary) ∧ outcomes.restoreSummary :=
          (and_iff_right ⟨cloned, created, named⟩).trans (and_iff_right rfl)
        rw [conditions]
        exact ends
      · rw [if_neg away]
        refine ⟨.notRenamed ?_ ?_ (.inl ?_), fun _ removed => Disk.remove_self removed⟩
        · exact fun late => away (Bool.and_eq_true_iff.mpr ⟨late.1.2.2, late.2.1⟩)
        · rw [Disk.remove_other notFolder.symm, folder]
        · rw [Disk.remove_other notSummary.symm, summary]
    · rw [if_neg created]
      refine ⟨.notRenamed ?_ ?_ ?_, fun isCreated => absurd isCreated created⟩
      · exact fun late => created late.1.2.1
      · rw [Disk.remove_other notFolder.symm, ready.folder]
      · rw [Disk.remove]
        split
        · rw [Function.update_apply]
          split
          · exact .inr rfl
          · exact .inl ready.oldSummary
        · exact .inl ready.oldSummary
  · rw [if_neg cloned]
    exact ⟨.notRenamed (fun late => cloned late.1.1) ready.folder (.inl ready.oldSummary),
      fun created _ => honest.unique created⟩

/-- The three properties of a disk after the compaction. -/
def Settled (files : FolderFiles Path) (outcomes : FileOutcomes Path)
    (contents : Compacted Content) (disk : Disk Path Content) : Prop :=
  InStep files contents disk ∧ NotLost files contents disk ∧
    (outcomes.Removes → Clean files outcomes disk)

lemma Ends.settled_iff {tooLate : Prop} (ends : Ends files contents tooLate renamed) (temp :
      outcomes.createUnique = true → outcomes.removeTempSummary = true → renamed.disk
      outcomes.uniquePath = none) (attempt : outcomes.uniquePath ≠ files.folder ∧
      outcomes.uniquePath ≠ files.file ∧ outcomes.uniquePath ≠ files.newSummary)
    (differ : contents.oldMessages ≠ contents.newMessages)
    (summariesDiffer : contents.oldSummary ≠ contents.newSummary) :
    Settled files outcomes contents (removeAbandoned files outcomes renamed) ↔ ¬ tooLate := by
  obtain ⟨-, notFile, notNew⟩ := attempt
  obtain ⟨folderSummary, folderFile, folderNew⟩ := files.folder_ne
  obtain ⟨summaryFile, summaryNew⟩ := files.oldSummary_ne
  have fileNew := files.file_ne
  cases ends with
  | @notRenamed disk inTime folder summary =>
    have abandoned : removeAbandoned files outcomes ⟨disk, false, false⟩ =
        (disk.remove outcomes.removeFile files.file).remove outcomes.removeNewSummary
          files.newSummary := rfl
    have others : ∀ other, other ≠ files.file → other ≠ files.newSummary →
        removeAbandoned files outcomes ⟨disk, false, false⟩ other = disk other := by
      intro other otherFile otherNew
      rw [abandoned, Disk.remove_other otherNew, Disk.remove_other otherFile]
    have folder' := (others _ folderFile folderNew).trans folder
    have summary' := others _ summaryFile summaryNew
    refine iff_of_true ⟨?_, .inl folder', ?_⟩ inTime
    · rcases summary with old | none
      · exact .inl ⟨folder', summary'.trans old⟩
      · exact .inr (.inr (summary'.trans none))
    · rintro ⟨removesTemp, removesFile, removesNew⟩
      refine ⟨?_, ?_, fun created => (others _ notFile notNew).trans (temp created removesTemp)⟩
      · rw [abandoned, Disk.remove_other fileNew, Disk.remove_self removesFile]
      · rw [abandoned, Disk.remove_self removesNew]
  | @landed disk inTime folder file summary newSummary =>
    refine iff_of_true ⟨.inr (.inl ⟨folder, summary⟩), .inr folder, ?_⟩ inTime
    exact fun removes => ⟨file, newSummary, fun created => temp created removes.1⟩
  | @noSummary disk inTime folder file summary =>
    have others : ∀ other, other ≠ files.newSummary →
        removeAbandoned files outcomes ⟨disk, true, false⟩ other = disk other :=
      fun other otherNew => Disk.remove_other otherNew
    refine iff_of_true ⟨.inr (.inr ?_), .inr ?_, ?_⟩ inTime
    · exact (others _ summaryNew).trans summary
    · exact (others _ folderNew).trans folder
    · intro removes
      exact ⟨(others _ fileNew).trans file, Disk.remove_self removes.2.2,
        fun created => (others _ notNew).trans (temp created removes.1)⟩
  | @oldSummary disk late folder file summary =>
    have others : ∀ other, other ≠ files.newSummary →
        removeAbandoned files outcomes ⟨disk, true, false⟩ other = disk other :=
      fun other otherNew => Disk.remove_other otherNew
    have folder' := (others _ folderNew).trans folder
    have summary' := (others _ summaryNew).trans summary
    refine iff_of_false ?_ (not_not_intro late)
    rintro ⟨⟨old, -⟩ | ⟨-, new⟩ | none, -⟩
    · exact differ (Option.some.inj (old.symm.trans folder'))
    · exact summariesDiffer (Option.some.inj (summary'.symm.trans new))
    · cases none.symm.trans summary'

/-- What `FinishCompact` leaves in step is decided by the moment of a failure: the old summary must
not be put back next to the compacted message file. Nothing is lost, and nothing is left over. -/
theorem finishCompact_settled_iff (ready : Ready files contents disk)
    (honest : outcomes.Honest files disk) (differ : contents.oldMessages ≠ contents.newMessages)
    (summariesDiffer : contents.oldSummary ≠ contents.newSummary) (empty : Content)
    (totalMsgSize : Nat) :
    Settled files outcomes contents (finishCompact files outcomes empty totalMsgSize disk) ↔
      ¬ outcomes.PutsBackTooLate totalMsgSize := by
  rw [finishCompact]
  by_cases right : (outcomes.cloneFile && decide (outcomes.fileSize = some totalMsgSize)) = true
  · obtain ⟨cloned, size⟩ := Bool.and_eq_true_iff.mp right
    obtain ⟨ends, temp⟩ := renameFiles_ends ready honest empty
    rw [if_pos right, ends.settled_iff temp honest.attempt differ summariesDiffer]
    apply not_congr
    constructor
    · rintro ⟨created, away, moved, late⟩
      exact ⟨⟨cloned, of_decide_eq_true size⟩, created, ⟨away, moved⟩, late⟩
    · rintro ⟨-, created, ⟨away, moved⟩, late⟩
      exact ⟨created, away, moved, late⟩
  · rw [if_neg right]
    apply Ends.settled_iff _ _ honest.attempt differ summariesDiffer
    · refine .notRenamed ?_ ready.folder (.inl ready.oldSummary)
      exact fun late => right (Bool.and_eq_true_iff.mpr ⟨late.1.1, decide_eq_true late.1.2⟩)
    · exact fun created _ => honest.unique created

end

/-- The files 0 and 1 of a folder, and the compacted ones 2 and 3. -/
def someFiles : FolderFiles Nat := ⟨0, 1, 2, 3, by decide⟩

/-- Each of the four files holds its own number. -/
def someDisk : Disk Nat Nat := fun path => if path < 4 then some path else none

def someContents : Compacted Nat := ⟨0, 1, 2, 3⟩

/-- The new summary cannot be renamed. -/
def newSummaryFails : FileOutcomes Nat :=
  { fileSize := some 7, uniquePath := 4, moveNewSummary := false }

/-- The compacted message file cannot be renamed, and the old summary is put back. -/
theorem finishCompact_settled_iff_moveFile :
    Settled someFiles { newSummaryFails with moveFile := false } someContents
        (finishCompact someFiles { newSummaryFails with moveFile := false } 9 7 someDisk) ↔
      ¬ FileOutcomes.PutsBackTooLate { newSummaryFails with moveFile := false } 7 :=
  finishCompact_settled_iff ⟨rfl, rfl, rfl, rfl⟩ ⟨fun _ => rfl, by decide⟩ (by decide) (by decide) 9 7

/-- The old summary is put back next to the compacted message file. -/
theorem finishCompact_mixes :
    finishCompact someFiles newSummaryFails 9 7 someDisk someFiles.folder = some 2 ∧
      finishCompact someFiles newSummaryFails 9 7 someDisk someFiles.oldSummary = some 1 ∧
      ¬ Settled someFiles newSummaryFails someContents
        (finishCompact someFiles newSummaryFails 9 7 someDisk) := by
  have folder : finishCompact someFiles newSummaryFails 9 7 someDisk 0 = some 2 := by decide
  have summary : finishCompact someFiles newSummaryFails 9 7 someDisk 1 = some 1 := by decide
  refine ⟨folder, summary, ?_⟩
  rintro ⟨⟨old, -⟩ | ⟨-, new⟩ | none, -⟩
  · cases folder.symm.trans old
  · cases summary.symm.trans new
  · cases summary.symm.trans none

end CommCentral.Compact
