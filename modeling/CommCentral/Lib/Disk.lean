import Mathlib.Logic.Function.Basic

/-! Files on a disk, with operations that may fail and then change nothing. -/
namespace CommCentral.Lib
open Function

universe u v

/-- The content of the file at each path that has one. -/
abbrev Disk (Path : Type u) (Content : Type v) := Path → Option Content

namespace Disk

variable {Path : Type u} {Content : Type v} [DecidableEq Path]
variable (disk : Disk Path Content) (works : Bool) (path source target other : Path)

def create (content : Content) : Disk Path Content := Function.update disk path (some content)

def remove : Disk Path Content := if works then Function.update disk path none else disk

/-- A file that is moved replaces the file at its new path. There must be a file to move. -/
def moves : Bool := works && (disk source).isSome

def move : Disk Path Content :=
  if disk.moves works source then
    Function.update (Function.update disk source none) target (disk source)
  else disk

variable {disk works path source target other}

lemma remove_other (different : other ≠ path) : disk.remove works path other = disk other := by
  rw [remove]
  split
  · exact update_of_ne different _ _
  · rfl

lemma remove_self (removed : works = true) : disk.remove works path path = none := by
  rw [remove, if_pos removed]
  exact update_self ..

lemma move_failed (fails : disk.moves works source = false) :
    disk.move works source target = disk := by
  rw [move, fails]
  rfl

lemma move_other (notSource : other ≠ source) (notTarget : other ≠ target) :
    disk.move works source target other = disk other := by
  rw [move]
  split
  · rw [update_of_ne notTarget, update_of_ne notSource]
  · rfl

lemma move_target (moved : disk.moves works source = true) :
    disk.move works source target target = disk source := by
  rw [move, if_pos moved]
  exact update_self ..

lemma move_source (moved : disk.moves works source = true) (different : source ≠ target) :
    disk.move works source target source = none := by
  rw [move, if_pos moved, update_of_ne different]
  exact update_self ..

omit [DecidableEq Path] in
lemma moves_of_some (found : disk source = some content) : disk.moves works source = works := by
  rw [moves, found, Option.isSome_some, Bool.and_true]

end Disk

end CommCentral.Lib
