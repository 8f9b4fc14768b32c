import Mathlib

/-! Binary search for an item in an array whose items increase. -/
namespace CommCentral.Lib
open List

universe u

variable {Item : Type u} [LinearOrder Item]

/-- The search between two indices. -/
def binarySearch (items : List Item) (wanted : Item) : (fuel low high : Nat) → Option Nat
  | 0, _, _ => none
  | fuel + 1, low, high =>
    if high = low then none
    else
      let middle := low + (high - low) / 2
      match items[middle]? with
      | none => none
      | some item =>
        if wanted = item then some middle
        else if wanted < item then binarySearch items wanted fuel low middle
        else binarySearch items wanted fuel (middle + 1) high

def binaryIndexOf (items : List Item) (wanted : Item) : Option Nat :=
  binarySearch items wanted (items.length + 1) 0 items.length

variable {wanted : Item}

lemma binarySearch_some (found : binarySearch items wanted fuel low high = some index) :
    items[index]? = some wanted := by
  induction fuel generalizing low high with
  | zero => cases found
  | succ fuel ih =>
    rw [binarySearch] at found
    split at found
    · cases found
    · dsimp only at found
      split at found
      · cases found
      · rename_i item atMiddle
        split at found
        · rename_i same
          cases found
          rw [atMiddle, same]
        · split at found
          · exact ih found
          · exact ih found

/-- An item between the two indices is found. -/
theorem binarySearch_isSome (increasing : items.Pairwise (· < ·))
    (atIndex : items[index]? = some wanted) (above : low ≤ index) (below : index < high)
    (inside : high ≤ items.length) (enough : high - low < fuel) :
    (binarySearch items wanted fuel low high).isSome := by
  induction fuel generalizing low high with
  | zero => exact absurd enough (Nat.not_lt_zero _)
  | succ fuel ih =>
    obtain ⟨indexInside, isWanted⟩ := List.getElem?_eq_some_iff.mp atIndex
    have less := pairwise_iff_getElem.mp increasing
    rw [binarySearch, if_neg (by omega)]
    dsimp only
    generalize middleEq : low + (high - low) / 2 = middle
    have middleInside : middle < items.length := by omega
    rw [getElem?_eq_getElem middleInside]
    dsimp only
    split
    · rfl
    · rename_i different
      rcases Nat.lt_trichotomy index middle with before | same | behind
      · have smaller := less index middle indexInside middleInside before
        rw [isWanted] at smaller
        rw [if_pos smaller]
        exact ih above before (by omega) (by omega)
      · subst same
        exact absurd isWanted.symm different
      · have greater := less middle index middleInside indexInside behind
        rw [isWanted] at greater
        rw [if_neg (lt_asymm greater)]
        exact ih behind below inside (by omega)

lemma binaryIndexOf_isSome_iff (increasing : items.Pairwise (· < ·)) :
    (binaryIndexOf items wanted).isSome ↔ wanted ∈ items := by
  constructor
  · intro found
    obtain ⟨index, isIndex⟩ := Option.isSome_iff_exists.mp found
    exact mem_of_getElem? (binarySearch_some isIndex)
  · intro mem
    obtain ⟨index, inside, same⟩ := mem_iff_getElem.mp mem
    have atIndex : items[index]? = some wanted := by
      rw [getElem?_eq_getElem inside, same]
    exact binarySearch_isSome increasing atIndex (Nat.zero_le _) inside (Nat.le_refl _)
      (Nat.lt_succ_self _)

end CommCentral.Lib
