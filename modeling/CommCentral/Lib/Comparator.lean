import Mathlib.Data.Int.Order.Basic
import Mathlib.Data.Set.Basic
import Mathlib.Tactic.Cases

/-! Three-way comparators with integer results, in the style of `qsort`: a
negative result puts the first argument before the second one. -/

namespace CommCentral.Lib

variable {α : Type u} {β : Type v}

/-- The comparator describes a total preorder. -/
structure PreorderCmp (cmp : α → α → Int) : Prop where
  neg_swap (first second : α) : cmp first second < 0 ↔ 0 < cmp second first
  trans (first second third : α) (left : cmp first second ≤ 0)
    (right : cmp second third ≤ 0) : cmp first third ≤ 0

/-- The comparator puts distinct members of the set in a strict total order,
and has a result for each of them. -/
structure TotalOrderOn (members : Set α) (cmp : α → α → Option Int) : Prop where
  sign_swap : ∀ first ∈ members, ∀ second ∈ members, first ≠ second →
    ∃ here there, cmp first second = some here ∧ cmp second first = some there ∧
      here.sign = -there.sign
  nonzero : ∀ first ∈ members, ∀ second ∈ members, first ≠ second →
    cmp first second ≠ some 0
  trans : ∀ first ∈ members, ∀ second ∈ members, ∀ third ∈ members,
    first ≠ second → second ≠ third → first ≠ third →
    (∃ result < 0, cmp first second = some result) →
    (∃ result < 0, cmp second third = some result) →
    ∃ result < 0, cmp first third = some result

/-- Three-way comparison of a numeric field. -/
def fieldCmp (field : α → Nat) (first second : α) : Int :=
  if field first > field second then 1
  else if field first < field second then -1
  else 0

/-- The comparison of what a key finds. -/
def onKey (key : β → α) (cmp : α → α → Int) (first second : β) : Int := cmp (key first) (key second)

/-- The comparison in the wanted direction. -/
def directed (ascending : Bool) (cmp : α → α → Int) (first second : α) : Int :=
  if ascending then cmp first second else -cmp first second

/-- The second comparison decides where the first one finds no difference. -/
def lexCmp (primary secondary : α → α → Int) (first second : α) : Int :=
  if primary first second ≠ 0 then primary first second
  else secondary first second

lemma directed_eq_zero {cmp : α → α → Int} (ascending : Bool) :
    directed ascending cmp first second = 0 ↔ cmp first second = 0 := by
  unfold directed
  split
  · exact Iff.rfl
  · exact Int.neg_eq_zero

variable {primary secondary : α → α → Int}

lemma lexCmp_of_tie (tie : primary first second = 0) :
    lexCmp primary secondary first second = secondary first second :=
  if_neg fun different => different tie

lemma lexCmp_of_ne (different : primary first second ≠ 0) :
    lexCmp primary secondary first second = primary first second :=
  if_pos different

namespace PreorderCmp

variable {cmp primary secondary : α → α → Int}

section

variable (laws : PreorderCmp cmp)
include laws

lemma zero_swap (first second : α) : cmp first second = 0 ↔ cmp second first = 0 := by
  have forward := laws.neg_swap first second
  have backward := laws.neg_swap second first
  omega

lemma sign_swap (first second : α) : (cmp first second).sign = -(cmp second first).sign := by
  rcases lt_trichotomy (cmp first second) 0 with before | equal | after
  · have swapped : 0 < cmp second first := (laws.neg_swap first second).mp before
    rw [Int.sign_eq_neg_one_of_neg before, Int.sign_eq_one_of_pos swapped]
  · have swapped : cmp second first = 0 := (laws.zero_swap first second).mp equal
    rw [equal, swapped]
    rfl
  · have swapped : cmp second first < 0 := (laws.neg_swap second first).mpr after
    rw [Int.sign_eq_one_of_pos after, Int.sign_eq_neg_one_of_neg swapped]
    rfl

/-- A strict step and a weak one make a strict one. -/
theorem neg_trans (left : cmp first second < 0) (right : cmp second third ≤ 0) :
    cmp first third < 0 := by
  by_contra notBefore
  have back : cmp third first ≤ 0 := by
    have forward := laws.neg_swap first third
    have backward := laws.neg_swap third first
    omega
  have closed : cmp second first ≤ 0 := laws.trans second third first right back
  have swapped := (laws.neg_swap first second).mp left
  omega

lemma trans_neg (left : cmp first second ≤ 0) (right : cmp second third < 0) :
    cmp first third < 0 := by
  by_contra notBefore
  have back : cmp third first ≤ 0 := by
    have forward := laws.neg_swap first third
    have backward := laws.neg_swap third first
    omega
  have closed : cmp third second ≤ 0 := laws.trans third first second back left
  have swapped := (laws.neg_swap second third).mp right
  omega

lemma neg :
    PreorderCmp fun first second => -cmp first second where
  neg_swap first second := by
    have backward := laws.neg_swap second first
    omega
  trans first second third left right := by
    have leftBack : cmp second first ≤ 0 := by
      have swap := laws.neg_swap second first
      have swap' := laws.neg_swap first second
      omega
    have rightBack : cmp third second ≤ 0 := by
      have swap := laws.neg_swap third second
      have swap' := laws.neg_swap second third
      omega
    have closed := laws.trans third second first rightBack leftBack
    have swap := laws.neg_swap first third
    omega

lemma directed (ascending : Bool) : PreorderCmp (Lib.directed ascending cmp) := by
  cases ascending with
  | true => exact laws
  | false => exact laws.neg

lemma comap (key : β → α) : PreorderCmp (onKey key cmp) where
  neg_swap first second := laws.neg_swap (key first) (key second)
  trans first second third := laws.trans (key first) (key second) (key third)

end

lemma lex (first : PreorderCmp primary) (second : PreorderCmp secondary) :
    PreorderCmp (lexCmp primary secondary) where
  neg_swap left right := by
    have primarySwap := first.neg_swap left right
    have primaryZero := first.zero_swap left right
    have secondarySwap := second.neg_swap left right
    unfold lexCmp
    split <;> split <;> omega
  trans left middle right before after := by
    unfold lexCmp at before after ⊢
    by_cases leftTie : primary left middle = 0
    · by_cases rightTie : primary middle right = 0
      · have outer : primary left right = 0 := by
          have weak := first.trans left middle right (by omega) (by omega)
          have weakBack := first.trans right middle left
            (le_of_eq ((first.zero_swap _ _).mp rightTie))
            (le_of_eq ((first.zero_swap _ _).mp leftTie))
          have swap := first.neg_swap left right
          omega
        simp only [leftTie, rightTie, outer, ne_eq, not_true_eq_false, if_false]
          at before after ⊢
        exact second.trans left middle right before after
      · simp only [ne_eq, rightTie, not_false_eq_true, if_true] at after
        have outer : primary left right < 0 :=
          first.trans_neg (le_of_eq leftTie) (lt_of_le_of_ne after rightTie)
        simp only [ne_eq, outer.ne, not_false_eq_true, if_true]
        exact outer.le
    · simp only [ne_eq, leftTie, not_false_eq_true, if_true] at before
      have strict : primary left middle < 0 := lt_of_le_of_ne before leftTie
      have weak : primary middle right ≤ 0 := by
        by_cases rightTie : primary middle right = 0
        · exact le_of_eq rightTie
        · simpa only [ne_eq, rightTie, not_false_eq_true, if_true] using after
      have outer : primary left right < 0 := first.neg_trans strict weak
      simp only [ne_eq, outer.ne, not_false_eq_true, if_true]
      exact outer.le

end PreorderCmp

lemma fieldCmp_preorder (field : α → Nat) : PreorderCmp (fieldCmp field) where
  neg_swap first second := by
    unfold fieldCmp
    split <;> split <;> omega
  trans first second third left right := by
    unfold fieldCmp at left right ⊢
    split at left
    · omega
    · split at right
      · omega
      · split
        · omega
        · split <;> omega

lemma fieldCmp_eq_zero (field : α → Nat) (first second : α) :
    fieldCmp field first second = 0 ↔ field first = field second := by
  unfold fieldCmp
  split
  · omega
  · split <;> omega

/-- The integer result of an `Ord` comparison. -/
def ordCmp [Ord α] (first second : α) : Int :=
  match compare first second with
  | .lt => -1
  | .eq => 0
  | .gt => 1

lemma ordCmp_nonpos [Ord α] (first second : α) :
    ordCmp first second ≤ 0 ↔ (compare first second).isLE = true := by
  unfold ordCmp
  cases compare first second <;> decide

lemma ordCmp_preorder [Ord α] [Std.TransOrd α] : PreorderCmp (@ordCmp α _) where
  neg_swap first second := by
    unfold ordCmp
    have swapped : compare first second = (compare second first).swap := Std.OrientedOrd.eq_swap
    rw [swapped]
    cases compare second first <;> decide
  trans first second third left right := by
    rw [ordCmp_nonpos] at left right ⊢
    exact Std.TransOrd.isLE_trans left right

lemma TotalOrderOn.of_preorder {members : Set α} {cmp : α → α → Option Int}
    {order : α → α → Int} (laws : PreorderCmp order)
    (agrees : ∀ first ∈ members, ∀ second ∈ members, first ≠ second →
      cmp first second = some (order first second))
    (decides : ∀ first ∈ members, ∀ second ∈ members, first ≠ second →
      order first second ≠ 0) :
    TotalOrderOn members cmp where
  sign_swap first firstIn second secondIn distinct :=
    ⟨order first second, order second first, agrees first firstIn second secondIn distinct,
      agrees second secondIn first firstIn distinct.symm, laws.sign_swap first second⟩
  nonzero first firstIn second secondIn distinct same := by
    rw [agrees first firstIn second secondIn distinct] at same
    exact decides first firstIn second secondIn distinct (Option.some.inj same)
  trans first firstIn second secondIn third thirdIn left right outer before after := by
    obtain ⟨x, xNeg, xEq⟩ := before
    obtain ⟨y, yNeg, yEq⟩ := after
    rw [agrees first firstIn second secondIn left] at xEq
    rw [agrees second secondIn third thirdIn right] at yEq
    cases xEq
    cases yEq
    exact ⟨order first third, laws.neg_trans xNeg yNeg.le,
      agrees first firstIn third thirdIn outer⟩

/-- One is put before the other exactly if that one is put after it. -/
theorem TotalOrderOn.neg_iff_pos {members : Set α} {cmp : α → α → Option Int}
    (ordered : TotalOrderOn members cmp) (firstIn : first ∈ members) (secondIn : second ∈ members)
    (distinct : first ≠ second) :
    (∃ result < 0, cmp first second = some result) ↔
      ∃ result > 0, cmp second first = some result := by
  obtain ⟨here, there, isHere, isThere, signs⟩ :=
    ordered.sign_swap first firstIn second secondIn distinct
  constructor
  · rintro ⟨result, negative, found⟩
    rw [isHere] at found
    cases found
    rw [Int.sign_eq_neg_one_of_neg negative] at signs
    exact ⟨there, Int.sign_eq_one_iff_pos.mp (by omega), isThere⟩
  · rintro ⟨result, positive, found⟩
    rw [isThere] at found
    cases found
    rw [Int.sign_eq_one_of_pos positive] at signs
    exact ⟨here, Int.sign_eq_neg_one_iff_neg.mp signs, isHere⟩

end CommCentral.Lib
