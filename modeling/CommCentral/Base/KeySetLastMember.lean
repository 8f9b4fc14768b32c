import CommCentral.Base.KeySetMissing
import Mathlib.Data.List.DropRight
import Mathlib.Order.Bounds.Basic

/-! When `GetLastMember` returns the greatest number of a set, and when `SetLastMember` leaves
exactly the numbers up to its argument. Both read a range at the end as one shorter than it is. -/
namespace CommCentral.Base
open Lib List

namespace MsgKeySet

/-- The greatest number of a set, and 0 if there is none. -/
def GreatestOrZero (numbers : Set Int) (value : Int) : Prop :=
  (numbers = ∅ ∧ value = 0) ∨ IsGreatest numbers value

/-- A set that is not empty ends with a literal, and no number of the set is above it. -/
def EndsWithGreatest (set : MsgKeySet) : Prop :=
  ∀ last ∈ set.ranges.getLast?, last.1 = last.2 ∧ ∀ range ∈ set.ranges, range.2 ≤ last.2

/-- The ranges that start at or below the new last member, up to the last one of these, end there
too, and this last one is not a range that ends right behind it. Where there are none of
these, the first word of the set is not a literal. -/
def CanBeLowered (newHighWaterMark : Int) (ranges : List (Int × Int)) : Prop :=
  let kept := ranges.rdropWhile (fun range => newHighWaterMark < range.1)
  (kept = [] → ∀ first ∈ ranges.head?, first.1 ≠ first.2) ∧
    (∀ range ∈ kept.dropLast, range.2 ≤ newHighWaterMark) ∧
    ∀ last ∈ kept.getLast?, last.1 ≠ last.2 → last.2 ≠ newHighWaterMark + 1

instance (set : MsgKeySet) : Decidable set.EndsWithGreatest :=
  inferInstanceAs (Decidable (∀ last ∈ set.ranges.getLast?, _))

/-- The arguments are `int32_t` numbers that the assertions allow, and so are the numbers of the
set. -/
def Accepts (set : MsgKeySet) : KeySetEdit → Prop
  | .add number => set.Representable ∧ number < 2 ^ 31
  | .remove _ => set.Representable
  | .addRange start finish => set.Representable ∧ (start < finish → 0 ≤ start) ∧ finish < 2 ^ 31
  | .setLastMember _ => True

instance (set : MsgKeySet) (request : KeySetEdit) : Decidable (set.Accepts request) :=
  match request with
  | .add _ => inferInstanceAs (Decidable (_ ∧ _))
  | .remove _ => inferInstanceAs (Decidable set.Representable)
  | .addRange .. => inferInstanceAs (Decidable (_ ∧ (_ → _) ∧ _))
  | .setLastMember _ => inferInstanceAs (Decidable True)

/-- The words in use are chunks, in any order. -/
def Chunked (set : MsgKeySet) : Prop :=
  0 < set.data.size ∧ ∃ chunks, Layout set.data set.length 0 chunks

variable (junk : Junk) {set : MsgKeySet} {chunks others : List Chunk}

lemma Chunked.optimize (layout : Layout set.data set.length 0 chunks)
    (bounded : Bounded (2 ^ 31) chunks) : Chunked (optimize junk set) := by
  obtain ⟨others, optimized⟩ := optimize_spec junk layout bounded
  have size := optimized.size
  exact ⟨by omega, others, optimized.layout⟩

lemma add_chunked (chunked : Chunked set) (representable : set.Representable) {number : Int}
    (small : number < 2 ^ 31) : Chunked (add junk set number).1 := by
  obtain ⟨room, chunks, layout⟩ := chunked
  by_cases negative : number < 0
  · rw [add, if_pos negative]
    exact ⟨room, chunks, layout⟩
  · obtain ⟨front, back, stops, present, absent⟩ :=
      add_spec junk layout room (Int.not_lt.mp negative)
    by_cases found : startsBelow number back = true
    · rw [present found]
      exact ⟨room, chunks, layout⟩
    · obtain ⟨edited, run, layout', -⟩ := absent found
      have bounded := representable.bounded layout
      rw [stops.split] at bounded
      rw [run]
      apply Chunked.optimize junk layout'
      apply Bounded.append bounded
      intro chunk mem
      rw [mem_singleton.mp mem]
      exact small

lemma edit_chunked (chunked : Chunked set) (request) (accepts : set.Accepts request) :
    Chunked (edit junk set request) := by
  obtain ⟨room, chunks, layout⟩ := chunked
  have forgotten : Chunked { set with cachedValue := -1 } := ⟨room, chunks, layout⟩
  cases request with
  | add number => exact add_chunked junk ⟨room, chunks, layout⟩ accepts.1 accepts.2
  | remove number =>
    change Chunked (remove junk set number).1
    rcases remove_spec junk layout number with ⟨-, run⟩ |
      ⟨edited, front, chunk, back, pieces, shape, -, -, -, run, shortened⟩
    · rw [run]
      exact forgotten
    · have bounded := Representable.bounded accepts layout
      rw [shape] at bounded
      rw [run]
      exact Chunked.optimize junk shortened.layout (shortened.remainder.bounded bounded)
  | addRange start finish =>
    obtain ⟨representable, nonnegative, small⟩ := accepts
    change Chunked (addRange junk set start finish).1
    rcases Int.lt_trichotomy start finish with several | single | reversed
    · rcases addRange_spec junk layout (representable.bounded layout) (nonnegative several) several
        with ⟨run, -⟩ | ⟨data, others, run, layout', size, -⟩
      · rw [run]
        exact forgotten
      · rw [run]
        exact ⟨by simp only [size]; omega, others, layout'⟩
    · have run : addRange junk set start finish = add junk { set with cachedValue := -1 } start := by
        rw [addRange, if_neg (by omega), if_pos single]
      rw [run]
      exact add_chunked junk forgotten representable (single ▸ small)
    · rw [addRange, if_pos reversed]
      exact forgotten
  | setLastMember newHighWaterMark =>
    obtain ⟨others, -, layout', size, -⟩ := setLastMember_spec junk layout newHighWaterMark
    exact ⟨size ▸ room, others, layout'⟩

/-- What a set read from a string is after more calls. -/
theorem run_chunked (accepted : Admissible editStep (fun set step => set.Accepts step.1) (create
      junk numbers) steps) : Chunked (run editStep (create junk numbers) steps) := by
  have sound := create_spec junk numbers
  have preserved : ∀ (set : MsgKeySet) (step : KeySetEdit × Junk), Chunked set →
      set.Accepts step.1 → Chunked (editStep set step) := fun set step chunked accepts =>
    edit_chunked step.2 chunked step.1 accepts
  exact run_invariant editStep _ preserved ⟨sound.room, _, sound.layout⟩ accepted

lemma greatestOrZero_iff (front) (chunk) :
    GreatestOrZero {number | Holds (front ++ [chunk]) number} (lastMember (front ++ [chunk])) ↔
      chunk.first = chunk.last ∧ ∀ other ∈ front ++ [chunk], other.last ≤ chunk.last := by
  have inside : Holds (front ++ [chunk]) chunk.last := by
    rw [holds_iff]
    exact ⟨chunk, mem_concat_self, chunk.ordered, Int.le_refl _⟩
  have upper : ∀ other ∈ front ++ [chunk], Holds (front ++ [chunk]) other.last := by
    intro other mem
    rw [holds_iff]
    exact ⟨other, mem, other.ordered, Int.le_refl _⟩
  rw [lastMember_concat]
  constructor
  · rintro (⟨none, -⟩ | ⟨-, greatest⟩)
    · have held : chunk.last ∈ {number | Holds (front ++ [chunk]) number} := inside
      rw [none] at held
      exact absurd held (Set.notMem_empty _)
    · have atLeast := greatest inside
      have ordered := chunk.ordered
      have single : chunk.first = chunk.last := by
        split at atLeast <;> omega
      refine ⟨single, fun other mem => ?_⟩
      have below := greatest (upper other mem)
      rw [if_neg (by omega)] at below
      exact below
  · rintro ⟨single, greatest⟩
    rw [if_neg (by omega)]
    refine .inr ⟨inside, fun number held => ?_⟩
    obtain ⟨other, mem, -, below⟩ := (holds_iff ..).mp held
    exact Int.le_trans below (greatest other mem)

lemma canBeLowered_starts (front) {chunk : Chunk} (starts : chunk.first ≤ newHighWaterMark) :
    CanBeLowered newHighWaterMark ((front ++ [chunk]).map Chunk.bounds) ↔
      (∀ other ∈ front, other.last ≤ newHighWaterMark) ∧
        (chunk.first ≠ chunk.last → chunk.last ≠ newHighWaterMark + 1) := by
  have kept : ((front ++ [chunk]).map Chunk.bounds).rdropWhile
      (fun range => newHighWaterMark < range.1) = front.map Chunk.bounds ++ [chunk.bounds] := by
    rw [map_append, map_singleton, rdropWhile_concat_neg]
    rw [decide_eq_true_eq]
    exact Int.not_lt.mpr starts
  rw [CanBeLowered, kept, dropLast_concat, getLast?_concat]
  constructor
  · rintro ⟨-, before, last⟩
    exact ⟨fun other mem => before other.bounds (mem_map_of_mem mem), last _ rfl⟩
  · rintro ⟨before, last⟩
    refine ⟨fun none => absurd none (append_ne_nil_of_right_ne_nil _ (cons_ne_nil _ _)),
      ?_, ?_⟩
    · intro range mem
      obtain ⟨other, inside, rfl⟩ := mem_map.mp mem
      exact before other inside
    · rintro _ ⟨⟩
      exact last

lemma canBeLowered_drop {chunk : Chunk} (above : newHighWaterMark < chunk.first)
    (more : front = [] → chunk.first < chunk.last) :
    CanBeLowered newHighWaterMark ((front ++ [chunk]).map Chunk.bounds) ↔
      CanBeLowered newHighWaterMark (front.map Chunk.bounds) := by
  have kept : ((front ++ [chunk]).map Chunk.bounds).rdropWhile
      (fun range => newHighWaterMark < range.1) =
        (front.map Chunk.bounds).rdropWhile (fun range => newHighWaterMark < range.1) := by
    rw [map_append, map_singleton, rdropWhile_concat_pos]
    exact decide_eq_true above
  rw [CanBeLowered, CanBeLowered, kept]
  apply and_congr_left
  intro _
  cases front with
  | nil =>
    have several : chunk.bounds.1 ≠ chunk.bounds.2 := Int.ne_of_lt (more rfl)
    simp [several]
  | cons first front => exact Iff.rfl

lemma cut_exact_iff (front) {chunk cut : Chunk} (first : cut.first = chunk.first)
    (last : cut.last = min chunk.last newHighWaterMark ∨ cut = chunk)
    (starts : chunk.first ≤ newHighWaterMark) :
    (∀ number, Holds (front ++ [cut]) number ↔
        Holds (front ++ [chunk]) number ∧ number ≤ newHighWaterMark) ↔
      (∀ other ∈ front, other.last ≤ newHighWaterMark) ∧ cut.last ≤ newHighWaterMark := by
  simp only [holds_append, holds_cons, not_holds_nil, or_false]
  constructor
  · intro exact
    constructor
    · intro other mem
      have held : Holds front other.last :=
        (holds_iff ..).mpr ⟨other, mem, other.ordered, Int.le_refl _⟩
      exact ((exact other.last).mp (.inl held)).2
    · exact ((exact cut.last).mp (.inr ⟨cut.ordered, Int.le_refl _⟩)).2
  · rintro ⟨before, below⟩ number
    have within : Holds front number → number ≤ newHighWaterMark := by
      intro held
      obtain ⟨other, mem, -, upper⟩ := (holds_iff ..).mp held
      exact Int.le_trans upper (before other mem)
    constructor
    · rintro (held | ⟨lower, upper⟩)
      · exact ⟨.inl held, within held⟩
      · rcases last with cutLast | rfl
        · exact ⟨.inr ⟨by omega, by omega⟩, by omega⟩
        · exact ⟨.inr ⟨lower, upper⟩, by omega⟩
    · rintro ⟨held | ⟨lower, upper⟩, high⟩
      · exact .inl held
      · rcases last with cutLast | rfl
        · exact .inr ⟨by omega, by omega⟩
        · exact .inr ⟨lower, upper⟩

/-- Exactly the numbers up to the new last member are left. -/
theorem loweredTo_exact_iff
    (lowered : LoweredTo newHighWaterMark chunks others) :
    (∀ number, Holds others number ↔ Holds chunks number ∧ number ≤ newHighWaterMark) ↔
      CanBeLowered newHighWaterMark (chunks.map Chunk.bounds) := by
  induction lowered with
  | none => simp [CanBeLowered]
  | only chunk single =>
    by_cases above : newHighWaterMark < chunk.first
    · constructor
      · intro exact
        have held : Holds [chunk] chunk.first :=
          (holds_iff ..).mpr ⟨chunk, mem_singleton_self _, Int.le_refl _, chunk.ordered⟩
        exact absurd ((exact chunk.first).mp held).2 (Int.not_le.mpr above)
      · rintro ⟨literal, -⟩
        have dropped : ([chunk].map Chunk.bounds).rdropWhile
            (fun range => newHighWaterMark < range.1) = [] := by
          rw [map_singleton, rdropWhile_singleton]
          exact if_pos (decide_eq_true above)
        exact absurd single (literal dropped chunk.bounds rfl)
    · have starts := Int.not_lt.mp above
      have cut := @cut_exact_iff _ [] chunk chunk rfl (.inr rfl) starts
      have kept := canBeLowered_starts [] starts
      rw [nil_append] at cut kept
      rw [cut, kept, ← single]
      simp [starts]
  | drop above more rest ih =>
    rw [canBeLowered_drop above more, ← ih]
    apply forall_congr'
    intro number
    simp only [holds_append, holds_cons, not_holds_nil, or_false]
    apply iff_congr Iff.rfl
    constructor
    · rintro ⟨held | inside, high⟩
      · exact ⟨held, high⟩
      · omega
    · rintro ⟨held, high⟩
      exact ⟨.inl held, high⟩
  | @shorten front chunk cut first last less =>
    have order := cut.ordered
    have starts : chunk.first ≤ newHighWaterMark := by omega
    rw [cut_exact_iff front first (.inl (by omega)) starts, canBeLowered_starts front starts]
    apply and_congr_right
    intro _
    constructor
    · intro _ _
      omega
    · intro _
      omega
  | @stay front chunk starts ends =>
    rw [cut_exact_iff front rfl (.inr rfl) starts, canBeLowered_starts front starts]
    apply and_congr_right
    intro _
    have order := chunk.ordered
    constructor
    · intro below _
      omega
    · intro notBehind
      by_cases single : chunk.first = chunk.last
      · omega
      · have behind := notBehind single
        have high := ends (by omega)
        omega

private def zeros : Junk := ⟨fun _ => 0, fun _ => 0, fun _ => 0⟩

end MsgKeySet

end CommCentral.Base
