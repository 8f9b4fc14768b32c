import CommCentral.Mime.DecodedSize
import CommCentral.Mime.UULine
import Mathlib.Data.List.Forall2
import Mathlib.Data.List.TakeWhile

/-! What `MimeDecoderWrite` stores in `*outSize`, against the bytes that it passes to
`write_buffer`: the decoders of lines keep the size of the last line only. -/

namespace CommCentral.Mime

open Lib List Option

section
variable {room : Nat} {line input : List UInt8}

lemma cString_length_le (bytes) : (cString bytes).length ≤ bytes.length :=
  (takeWhile_sublist _).length_le

lemma copyBytes_spec (short : line.length ≤ room) :
    (copyBytes room line input).1.length ≤ room ∧
      (copyBytes room line input).2.length ≤ input.length ∧
      (line.length < room → input ≠ [] → (copyBytes room line input).2.length < input.length) := by
  induction input generalizing line with
  | nil => exact ⟨short, Nat.le_refl _, fun _ nonempty => absurd rfl nonempty⟩
  | cons c input ih =>
    rw [copyBytes]
    split
    · rename_i space
      have longer : (line ++ [c]).length ≤ room := by
        rw [length_append, length_singleton]
        omega
      split
      · have tail : (if c = CR ∧ input.head? = some LF then input.tail else input).length ≤
            input.length := by
          split
          · rw [length_tail]
            omega
          · exact Nat.le_refl _
        exact ⟨longer, Nat.le_succ_of_le tail, fun _ _ => Nat.lt_succ_of_le tail⟩
      · obtain ⟨bounded, less, -⟩ := ih longer
        exact ⟨bounded, Nat.le_succ_of_le less, fun _ _ => Nat.lt_succ_of_le less⟩
    · rename_i full
      exact ⟨short, Nat.le_refl _, fun space _ => absurd space full⟩

lemma fillLine_spec (short : (cString line).length < room) (two : 2 ≤ room)
    (nonempty : input ≠ []) :
    ∃ line' input', input'.length < input.length ∧
      (fillLine room line input = (.blank, [], input') ∨
        fillLine room line input = (.waiting, line', input') ∧ line'.length < room ∨
        fillLine room line input = (.complete, line', input') ∧ line'.length < room ∧
          line'.getLast?.any isLineEnd = true) := by
  obtain ⟨bounded, -, less⟩ := @copyBytes_spec room (cString line) input (Nat.le_of_lt short)
  rw [fillLine]
  generalize copyBytes room (cString line) input = copied at bounded less
  obtain ⟨copied, rest⟩ := copied
  have shorter := less short nonempty
  dsimp only at bounded shorter ⊢
  split
  · exact ⟨[], rest, shorter, .inl rfl⟩
  · have truncated : (if copied.length = room then copied.take (room - 2) ++ [CR]
        else copied).length < room := by
      split
      · rw [length_append, length_take, length_singleton]
        omega
      · omega
    generalize (if copied.length = room then copied.take (room - 2) ++ [CR] else copied) = line'
      at truncated
    split
    · rename_i ends
      exact ⟨line', rest, shorter, .inr (.inr ⟨rfl, truncated, ends⟩)⟩
    · exact ⟨line', rest, shorter, .inr (.inl ⟨rfl, truncated⟩)⟩

end

/-- The bytes of a list are those of its last item when the others are empty. -/
theorem lastLength_eq_iff {α : Type u} (items : List (List α)) (initial : Nat) :
    (items.getLast?.map List.length).getD initial = items.flatten.length ↔
      (∀ item ∈ items.dropLast, item = []) ∧ (items = [] → initial = 0) := by
  obtain rfl | ⟨front, last, rfl⟩ := eq_nil_or_concat' items
  · simp
  · rw [getLast?_concat, dropLast_concat, flatten_append, flatten_singleton,
      length_append]
    simp only [map_some, getD_some, append_eq_nil_iff, cons_ne_nil,
      and_false, false_implies, and_true]
    rw [← flatten_eq_nil_iff, ← length_eq_zero_iff]
    omega

/-- A decoder of lines stays inside its buffer. -/
structure ActionBounded (size : Nat) (action : DecoderState → List UInt8 → Option LineAction) :
    Prop where
  total : ∀ dsState line, line.length < size - 1 → ∃ result, action dsState line = some result
  advance : ∀ dsState line next advance, line.getLast?.any isLineEnd = true →
    action dsState (cString line) = some (.header next advance) → advance < line.length
  bad : ∀ dsState line kept, action dsState line = some (.bad kept) → kept.length ≤ line.length

section
variable {size : Nat} {action : DecoderState → List UInt8 → Option LineAction}

/-- The lines of the body that a call completes, as `lineDecoderLoop` meets them. -/
def bodyLines (size : Nat) (action : DecoderState → List UInt8 → Option LineAction) :
    Nat → LineState → List UInt8 → List (List UInt8)
  | _, _, [] => []
  | 0, _, _ :: _ => []
  | fuel + 1, state, c :: input =>
    match fillLine (size - 1 - state.offset) state.line (c :: input) with
    | (.blank, _, input) => bodyLines size action fuel { state with line := [] } input
    | (.waiting, _, _) => []
    | (.complete, line, input) =>
      match action state.dsState (cString line) with
      | some (.header dsState advance) =>
        bodyLines size action fuel (state.pass dsState advance line) input
      | some (.body decoded) =>
        cString line :: bodyLines size action fuel (state.write decoded) input
      | _ => []

/-- What waits in the buffer leaves room for a character, a CR and a null. -/
structure LineState.Fits (size : Nat) (state : LineState) : Prop where
  short : (cString state.line).length < size - 1 - state.offset
  room : 2 ≤ size - 1 - state.offset

lemma LineState.Fits.write {state : LineState} (fits : state.Fits size) (decoded) :
    (state.write decoded).Fits size where
  short := Nat.lt_of_lt_of_le (Nat.succ_pos 1) fits.room
  room := fits.room

lemma LineState.Fits.pass {state : LineState} (fits : state.Fits size) {line : List UInt8}
    (short : line.length < size - 1 - state.offset) (inside : advance < line.length) (dsState) :
    (state.pass dsState advance line).Fits size := by
  have room := fits.room
  have left : (state.pass dsState advance line).offset = state.offset + advance := rfl
  have dropped := cString_length_le (line.drop advance)
  rw [length_drop] at dropped
  refine ⟨?_, ?_⟩
  · rw [left, LineState.pass]
    split
    · change 0 < _
      omega
    · change (cString (line.drop advance)).length < _
      omega
  · rw [left]
    omega

lemma lineDecoderLoop_counts (bounded : ActionBounded size action) {fuel : Nat}
    {state : LineState} {input : List UInt8} (fits : state.Fits size)
    (enough : input.length ≤ fuel) :
    ∃ state' result decoded,
      lineDecoderLoop size action fuel state input = some (state', result) ∧
      (cString state'.line).length < size - 1 ∧
      state'.calls.flatten = state.calls.flatten ++ decoded.flatten ∧
      state'.outSize = (decoded.getLast?.map List.length).getD state.outSize ∧
      List.Forall₂ (fun line bytes => ∃ dsState, line.length < size - 1 ∧
          action dsState line = some (.body bytes))
        (bodyLines size action fuel state input) decoded := by
  have waits : ∀ line : List UInt8, line.length < size - 1 - state.offset →
      (cString line).length < size - 1 := by
    intro line short
    have less := cString_length_le line
    omega
  induction fuel generalizing state input with
  | zero =>
    cases eq_nil_of_length_eq_zero (Nat.le_zero.mp enough)
    exact ⟨state, 1, [], rfl, Nat.lt_of_lt_of_le fits.short (Nat.sub_le ..),
      (append_nil _).symm, rfl, .nil⟩
  | succ fuel ih =>
    cases input with
    | nil =>
      exact ⟨state, 1, [], rfl, Nat.lt_of_lt_of_le fits.short (Nat.sub_le ..),
        (append_nil _).symm, rfl, .nil⟩
    | cons c input =>
      rw [lineDecoderLoop, bodyLines]
      obtain ⟨line, rest, shorter, filled | ⟨filled, short⟩ | ⟨filled, short, ends⟩⟩ :=
        fillLine_spec fits.short fits.room (cons_ne_nil c input)
      · rw [filled]
        have empty : LineState.Fits size { state with line := [] } :=
          ⟨Nat.lt_of_lt_of_le Nat.two_pos fits.room, fits.room⟩
        exact ih empty (Nat.le_of_lt_succ (Nat.lt_of_lt_of_le shorter enough)) waits
      · rw [filled]
        exact ⟨_, 1, [], rfl, waits line short, (append_nil _).symm, rfl, .nil⟩
      · have few : rest.length ≤ fuel := Nat.le_of_lt_succ (Nat.lt_of_lt_of_le shorter enough)
        obtain ⟨result, done⟩ := bounded.total state.dsState (cString line) (waits line short)
        simp only [filled, done, bind_some]
        cases result with
        | header dsState advance =>
          have inside := bounded.advance _ _ _ _ ends done
          have next := fits.pass short inside dsState
          refine ih next few ?_
          intro other small
          have less := cString_length_le other
          omega
        | finish =>
          exact ⟨_, 1, [], rfl, Nat.lt_of_lt_of_le (Nat.succ_pos 1)
            (Nat.le_trans fits.room (Nat.sub_le ..)), (append_nil _).symm, rfl, .nil⟩
        | body bytes =>
          obtain ⟨state', result, decoded, looped, kept, calls, outSize, pairs⟩ :=
            ih (fits.write bytes) few waits
          refine ⟨state', result, bytes :: decoded, looped, kept, ?_, ?_,
            .cons ⟨_, waits line short, done⟩ pairs⟩
          · rw [calls, LineState.write]
            dsimp only
            split
            · rename_i nothing
              rw [nothing, flatten_cons, nil_append]
            · rw [flatten_append, flatten_singleton, flatten_cons, append_assoc]
          · rw [outSize, getLast?_cons]
            cases decoded.getLast? <;> rfl
        | bad kept =>
          have less := bounded.bad _ _ _ done
          have cut := cString_length_le line
          exact ⟨_, -1, [], rfl, waits kept (by omega), (append_nil _).symm, rfl, .nil⟩

end

/-- The buffer has room for what waits between two calls. -/
def LineDecoderData.Valid (size : Nat) (data : LineDecoderData) : Prop :=
  (cString data.lineBuffer).length < size - 1

/-- All lines but the last yield nothing; `*outSize` is 0 already when there are none. -/
def CountedOnce (empty : List UInt8 → Prop) (lines : List (List UInt8)) (outSize : Nat) : Prop :=
  (∀ line ∈ lines.dropLast, empty line) ∧ (lines = [] → outSize = 0)

/-- The lines of the body that a call of `MimeDecoderWrite` completes. -/
def LineDecoderData.bodyLines (size : Nat)
    (action : DecoderState → List UInt8 → Option LineAction) (data : LineDecoderData)
    (buffer : List UInt8) : List (List UInt8) :=
  if data.dsState = .dsEnd then []
  else
    Mime.bodyLines size action buffer.length
      { dsState := data.dsState, offset := 0, line := data.lineBuffer, calls := [], outSize := 0 }
      buffer

lemma forall_iff_of_forall₂ {related : α → β → Prop} {left : α → Prop} {right : β → Prop}
    (exact : ∀ a b, related a b → (right b ↔ left a)) (pairs : List.Forall₂ related as bs) :
    (∀ b ∈ bs, right b) ↔ ∀ a ∈ as, left a := by
  induction pairs with
  | nil => simp
  | cons first _ ih => rw [forall_mem_cons, forall_mem_cons, exact _ _ first, ih]

lemma countedOnce_iff {related : List UInt8 → List UInt8 → Prop} {empty : List UInt8 → Prop}
    (exact : ∀ line bytes, related line bytes → (bytes = [] ↔ empty line))
    {lines decoded : List (List UInt8)} (pairs : List.Forall₂ related lines decoded)
    (outSize : Nat) :
    (decoded.getLast?.map List.length).getD outSize = decoded.flatten.length ↔
      CountedOnce empty lines outSize := by
  have same := List.Forall₂.length_eq pairs
  have front := forall₂_take (lines.length - 1) pairs
  have whole : decoded = [] ↔ lines = [] := by
    rw [← length_eq_zero_iff, ← same, length_eq_zero_iff]
  rw [lastLength_eq_iff, CountedOnce, dropLast_eq_take, dropLast_eq_take, ← same,
    forall_iff_of_forall₂ exact front, whole]

section

variable {size : Nat} {action : DecoderState → List UInt8 → Option LineAction}

lemma bodyLines_congr {fuel : Nat} {state other : LineState} {input : List UInt8}
    (dsState : other.dsState = state.dsState) (offset : other.offset = state.offset)
    (line : other.line = state.line) :
    bodyLines size action fuel other input = bodyLines size action fuel state input := by
  induction fuel generalizing state other input with
  | zero => cases input <;> rfl
  | succ fuel ih =>
    cases input with
    | nil => rfl
    | cons c input =>
      rw [bodyLines, bodyLines, dsState, offset, line]
      split
      · exact ih rfl rfl rfl
      · rfl
      · split
        · apply ih
          · rfl
          · change other.offset + _ = state.offset + _
            rw [offset]
          · simp only [LineState.pass, offset]
        · exact congrArg (List.cons _) (ih dsState offset rfl)
        · rfl

lemma decodeLines_outSize (bounded : ActionBounded size action) (two : 2 ≤ size - 1)
    {empty : List UInt8 → Prop} (exact : ∀ dsState line bytes, line.length < size - 1 → action
      dsState line = some (.body bytes) → (bytes = [] ↔ empty line)) {data : LineDecoderData}
    (valid : data.Valid size) (buffer : List UInt8) (outSize : Nat) :
    ∃ data' calls outSize' result,
      decodeLines size action data buffer outSize = some (data', calls, outSize', result) ∧
      data'.Valid size ∧
      (outSize' = calls.flatten.length ↔
        CountedOnce empty (data.bodyLines size action buffer) outSize) := by
  rw [decodeLines, LineDecoderData.bodyLines]
  split
  · refine ⟨data, [], outSize, 0, rfl, valid, ?_⟩
    simp [CountedOnce]
  · obtain ⟨state, result, decoded, looped, kept, calls, counted, pairs⟩ :=
      @lineDecoderLoop_counts size action bounded buffer.length
        { dsState := data.dsState, offset := 0, line := data.lineBuffer, calls := [], outSize }
        buffer ⟨valid, two⟩ (Nat.le_refl _)
    rw [looped]
    refine ⟨_, state.calls, state.outSize, result, rfl, ?_, ?_⟩
    · change (cString (if state.offset = 0 then state.line else [])).length < size - 1
      split
      · exact kept
      · exact Nat.lt_of_lt_of_le Nat.two_pos two
    · have same := @bodyLines_congr size action buffer.length
        { dsState := data.dsState, offset := 0, line := data.lineBuffer, calls := [], outSize := 0 }
        { dsState := data.dsState, offset := 0, line := data.lineBuffer, calls := [], outSize }
        buffer rfl rfl rfl
      rw [same] at pairs
      rw [calls, counted, flatten_nil, nil_append]
      exact countedOnce_iff
        (fun line bytes ⟨dsState, short, done⟩ => exact dsState line bytes short done) pairs outSize

end

lemma uueAction_bounded : ActionBounded uueBufferSize uueAction where
  total := by
    intro dsState line short
    rw [uueAction]
    split
    · exact ⟨_, rfl⟩
    · split
      · split <;> exact ⟨_, rfl⟩
      · cases line with
        | nil =>
          rw [decodeUueLine_nil]
          exact ⟨_, rfl⟩
        | cons first chars =>
          rw [decodeUueLine_cons first (Nat.lt_trans (Nat.lt_succ_self _)
            (Nat.lt_of_lt_of_le short (Nat.sub_le ..)))]
          exact ⟨_, rfl⟩
  advance := by
    intro dsState line next advance ends done
    have nonempty : line ≠ [] := by
      intro none
      rw [none] at ends
      cases ends
    have zero : advance = 0 := by
      rw [uueAction] at done
      split at done
      · cases done
      · split at done
        · split at done <;> cases done <;> rfl
        · obtain ⟨decoded, -, body⟩ := map_eq_some_iff.mp done
          cases body
    rw [zero]
    exact length_pos_iff.mpr nonempty
  bad := by
    intro dsState line kept done
    rw [uueAction] at done
    split at done
    · cases done
    · split at done
      · split at done <;> cases done
      · obtain ⟨decoded, -, body⟩ := map_eq_some_iff.mp done
        cases body

/-- A line yields nothing if its first character stands for a zero. -/
def EmptyUueLine (line : List UInt8) : Prop := dec (line.headD 0) = 0

variable (dsState : DecoderState)

lemma uueAction_empty (line bytes) (short : line.length < uueBufferSize - 1)
    (done : uueAction dsState line = some (.body bytes)) : bytes = [] ↔ EmptyUueLine line := by
  rw [uueAction] at done
  split at done
  · cases done
  · split at done
    · split at done <;> cases done
    · obtain ⟨decoded, decodes, body⟩ := map_eq_some_iff.mp done
      cases body
      cases line with
      | nil =>
        rw [decodeUueLine_nil] at decodes
        cases decodes
        have blank : dec 0 ≠ 0 := by decide
        exact ⟨fun none => absurd none (cons_ne_nil _ _), fun zero => absurd zero blank⟩
      | cons first chars =>
        rw [decodeUueLine_cons first (Nat.lt_trans (Nat.lt_succ_self _)
          (Nat.lt_of_lt_of_le short (Nat.sub_le ..)))] at decodes
        cases decodes
        rw [EmptyUueLine, headD_cons, ← length_eq_zero_iff, length_append,
          groupBytes_length, length_replicate]
        omega

/-- A line yields nothing if no character comes before its end. -/
def EmptyYencLine (line : List UInt8) : Prop := line.head?.all isLineEnd = true

lemma isDecimal_not_end (c : UInt8) (digit : isDecimal c = true) : isLineEnd c = false := by
  cases ends : isLineEnd c with
  | false => rfl
  | true =>
    rw [isLineEnd, Bool.or_eq_true, decide_eq_true_eq, decide_eq_true_eq] at ends
    rcases ends with rfl | rfl
    · cases digit
    · cases digit

variable (line : List UInt8)

/-- Parsing the header line does not go past its end, nor past a null. -/
theorem yencHeader_spec :
    ∃ next front rest, yencHeader line = some (.header next front.length) ∧ line = front ++ rest ∧
      ∀ c ∈ front, isLineEnd c = false := by
  have moves : ∀ front rest, line = front ++ rest → line.length - rest.length = front.length := by
    intro front rest whole
    rw [whole, length_append, Nat.add_sub_cancel]
  have decimals : ∀ text : List UInt8, ∀ c ∈ text.takeWhile isDecimal, isLineEnd c = false := by
    intro text c mem
    exact isDecimal_not_end c (mem_takeWhile_imp mem)
  rw [yencHeader]
  split
  · rename_i begins
    have first : line = (ybeginText ++ (line.drop 13).takeWhile isDecimal) ++
        (line.drop 13).dropWhile isDecimal := by
      rw [append_assoc, takeWhile_append_dropWhile, ← begins, take_append_drop]
    have firstPlain : ∀ c ∈ ybeginText ++ (line.drop 13).takeWhile isDecimal,
        isLineEnd c = false := by
      rw [forall_mem_append]
      exact ⟨by decide, decimals _⟩
    generalize (line.drop 13).dropWhile isDecimal = rest at first ⊢
    generalize ybeginText ++ (line.drop 13).takeWhile isDecimal = front at first firstPlain
    dsimp only
    split
    · rename_i size
      have second : line = (front ++ (sizeText ++ (rest.drop 6).takeWhile isDecimal)) ++
          (rest.drop 6).dropWhile isDecimal := by
        rw [append_assoc, append_assoc, takeWhile_append_dropWhile, ← size,
          take_append_drop]
        exact first
      have secondPlain : ∀ c ∈ front ++ (sizeText ++ (rest.drop 6).takeWhile isDecimal),
          isLineEnd c = false := by
        rw [forall_mem_append, forall_mem_append]
        exact ⟨firstPlain, by decide, decimals _⟩
      rw [moves _ _ second]
      split
      · rw [if_neg (by change ¬ (_ > 1000 ∧ _); omega)]
        exact ⟨_, _, _, rfl, second, secondPlain⟩
      · exact ⟨_, _, _, rfl, second, secondPlain⟩
    · rw [moves _ _ first]
      exact ⟨_, _, _, rfl, first, firstPlain⟩
  · exact ⟨.dsBegin, [], line, rfl, rfl, fun c mem => by cases mem⟩

lemma decodeYencLine_length : (decodeYencLine line).1.length ≤ line.length := by
  induction line using decodeYencLine.induct with
  | case1 => exact Nat.le_refl 0
  | case2 c line ends =>
    rw [decodeYencLine.eq_def]
    simp only [ends]
    exact Nat.zero_le _
  | case3 ends => exact Nat.zero_le _
  | case4 d line ends ih =>
    rw [decodeYencLine.eq_def]
    simp only [ends, if_false, if_true, length_cons, Bool.false_eq_true]
    exact Nat.le_succ_of_le (Nat.succ_le_succ ih)
  | case5 c line ends plain ih =>
    rw [decodeYencLine.eq_def]
    simp only [ends, plain, if_false, length_cons, Bool.false_eq_true]
    exact Nat.succ_le_succ ih

lemma decodeYencLine_empty {line : List UInt8} (whole : (decodeYencLine line).2 = true) :
    (decodeYencLine line).1 = [] ↔ EmptyYencLine line := by
  rw [EmptyYencLine]
  cases line with
  | nil => exact ⟨fun _ => rfl, fun _ => rfl⟩
  | cons c line =>
    rw [decodeYencLine.eq_def] at whole ⊢
    rw [head?_cons, all_some]
    dsimp only at whole ⊢
    cases ends : isLineEnd c with
    | true => simp
    | false =>
      rw [ends] at whole
      simp only [if_false, Bool.false_eq_true] at whole ⊢
      by_cases escape : c = '='.toUInt8
      · rw [if_pos escape] at whole ⊢
        cases line with
        | nil => cases whole
        | cons d line => simp
      · rw [if_neg escape]
        simp

lemma yencAction_bounded : ActionBounded yencBufferSize yencAction where
  total := by
    intro dsState line _
    rw [yencAction]
    split
    · obtain ⟨next, front, rest, header, -⟩ := yencHeader_spec line
      exact ⟨_, header⟩
    · split
      · exact ⟨_, rfl⟩
      · dsimp only
        split <;> exact ⟨_, rfl⟩
  advance := by
    intro dsState line next advance ends done
    rw [yencAction] at done
    split at done
    · obtain ⟨next, front, rest, header, whole, plain⟩ := yencHeader_spec (cString line)
      rw [header] at done
      cases done
      have cut : cString line ++ line.dropWhile (· ≠ 0) = line := takeWhile_append_dropWhile
      have lengths := congrArg List.length cut
      rw [whole, length_append, length_append] at lengths
      by_contra far
      have noRest : rest = [] := eq_nil_of_length_eq_zero (by omega)
      have noTail : line.dropWhile (· ≠ 0) = [] := eq_nil_of_length_eq_zero (by omega)
      rw [whole, noRest, noTail, append_nil, append_nil] at cut
      rw [← cut] at ends
      obtain ⟨c, last, isEnd⟩ := Option.any_eq_true _ _ |>.mp ends
      rw [plain c (mem_of_getLast? last)] at isEnd
      cases isEnd
    · split at done
      · cases done
      · dsimp only at done
        split at done <;> cases done
  bad := by
    intro dsState line kept done
    rw [yencAction] at done
    split at done
    · obtain ⟨next, front, rest, header, -⟩ := yencHeader_spec line
      rw [header] at done
      cases done
    · split at done
      · cases done
      · dsimp only at done
        split at done
        · cases done
        · cases done
          have less := decodeYencLine_length line
          rw [length_append, length_drop]
          omega

lemma yencAction_empty (line bytes) (done : yencAction dsState line = some (.body bytes)) :
    bytes = [] ↔ EmptyYencLine line := by
  rw [yencAction] at done
  split at done
  · obtain ⟨next, front, rest, header, -⟩ := yencHeader_spec line
    rw [header] at done
    cases done
  · split at done
    · cases done
    · dsimp only at done
      split at done
      · rename_i whole
        cases done
        exact decodeYencLine_empty whole
      · cases done

inductive MimeDecoder where
  | base64 (data : MimeDecoderData)
  | quotedPrintable (treatNullAsSpace : Bool) (data : MimeDecoderData)
  | uuencode (data : LineDecoderData)
  | yencode (data : LineDecoderData)

/-- `MimeDecoderWrite`: the decoder afterwards, the calls of `write_buffer` and
`*outSize`. -/
def mimeDecoderWrite (decoder : MimeDecoder) (buffer : List UInt8) (outSize : Nat) :
    Option (MimeDecoder × List (List UInt8) × Nat) :=
  match decoder with
  | .base64 data =>
    (decodeBase64Buffer data buffer).map fun (data, calls, outSize) =>
      (.base64 data, calls, outSize)
  | .quotedPrintable treatNullAsSpace data =>
    (decodeQPBuffer treatNullAsSpace data buffer).map fun (data, calls, outSize) =>
      (.quotedPrintable treatNullAsSpace data, calls, outSize)
  | .uuencode data =>
    (decodeUueBuffer data buffer outSize).map fun (data, calls, outSize, _) =>
      (.uuencode data, calls, outSize)
  | .yencode data =>
    (decodeYencBuffer data buffer outSize).map fun (data, calls, outSize, _) =>
      (.yencode data, calls, outSize)

/-- A decoder between two calls. -/
def MimeDecoder.Valid : MimeDecoder → Prop
  | .base64 data => data.Valid
  | .quotedPrintable _ data => data.Valid ∧ data.tokenSize ≤ 2
  | .uuencode data => LineDecoderData.Valid uueBufferSize data
  | .yencode data => LineDecoderData.Valid yencBufferSize data

/-- Of the lines of the body that a call completes only the last yields bytes, and
`*outSize` is 0 already if it completes none. -/
def MimeDecoder.SizeKept (decoder : MimeDecoder) (buffer : List UInt8) (outSize : Nat) : Prop :=
  match decoder with
  | .base64 _ => True
  | .quotedPrintable _ _ => True
  | .uuencode data =>
    CountedOnce EmptyUueLine (data.bodyLines uueBufferSize uueAction buffer) outSize
  | .yencode data =>
    CountedOnce EmptyYencLine (data.bodyLines yencBufferSize yencAction buffer) outSize

/-- `*outSize` is the number of bytes written exactly when no size of a line is lost. -/
theorem mimeDecoderWrite_outSize_iff {decoder : MimeDecoder} (valid : decoder.Valid)
    (buffer : List UInt8) (outSize : Nat) :
    ∃ decoder' calls outSize', mimeDecoderWrite decoder buffer outSize =
        some (decoder', calls, outSize') ∧ decoder'.Valid ∧
      (outSize' = calls.flatten.length ↔ decoder.SizeKept buffer outSize) := by
  cases decoder with
  | base64 data =>
    obtain ⟨data', calls, outSize', called, valid', counted⟩ :=
      decodeBase64Buffer_outSize valid buffer
    refine ⟨.base64 data', calls, outSize', ?_, valid', iff_of_true counted trivial⟩
    rw [mimeDecoderWrite, called]
    rfl
  | quotedPrintable treatNullAsSpace data =>
    obtain ⟨data', calls, outSize', called, valid', short, counted⟩ :=
      decodeQPBuffer_outSize treatNullAsSpace valid.1 valid.2 buffer
    refine ⟨.quotedPrintable treatNullAsSpace data', calls, outSize', ?_, ⟨valid', short⟩,
      iff_of_true counted trivial⟩
    rw [mimeDecoderWrite, called]
    rfl
  | uuencode data =>
    obtain ⟨data', calls, outSize', result, called, valid', counted⟩ :=
      decodeLines_outSize uueAction_bounded (by decide) uueAction_empty valid buffer outSize
    refine ⟨.uuencode data', calls, outSize', ?_, valid', counted⟩
    rw [mimeDecoderWrite, decodeUueBuffer, called]
    rfl
  | yencode data =>
    obtain ⟨data', calls, outSize', result, called, valid', counted⟩ :=
      decodeLines_outSize yencAction_bounded (by decide)
        (fun dsState line bytes _ done => yencAction_empty dsState line bytes done) valid buffer
        outSize
    refine ⟨.yencode data', calls, outSize', ?_, valid', counted⟩
    rw [mimeDecoderWrite, decodeYencBuffer, called]
    rfl

theorem mimeDecoderWrite_outSize_twoLines :
    ¬ ∀ (decoder : MimeDecoder) (buffer : List UInt8), decoder.Valid →
      ∃ decoder' calls outSize',
        mimeDecoderWrite decoder buffer 0 = some (decoder', calls, outSize') ∧
          outSize' = calls.flatten.length := by
  intro exact
  obtain ⟨decoder', calls, outSize', called, counted⟩ :=
    exact (.yencode { dsState := .dsBody, lineBuffer := [] }) [43, LF, 43, LF]
      (Nat.zero_lt_succ 998)
  have called' : mimeDecoderWrite (.yencode { dsState := .dsBody, lineBuffer := [] })
      [43, LF, 43, LF] 0 =
        some (.yencode { dsState := .dsBody, lineBuffer := [] }, [[1], [1]], 1) := rfl
  rw [called'] at called
  cases called
  cases counted

theorem mimeDecoderWrite_outSize_header :
    (MimeDecoder.uuencode LineDecoderData.init).Valid ∧
      ∃ decoder' calls outSize',
        mimeDecoderWrite (.uuencode LineDecoderData.init) (asciiBytes ['b', 'e', 'g', 'i', 'n']) 0 =
          some (decoder', calls, outSize') ∧ decoder'.Valid ∧
        (outSize' = calls.flatten.length ↔ (MimeDecoder.uuencode LineDecoderData.init).SizeKept
          (asciiBytes ['b', 'e', 'g', 'i', 'n']) 0) :=
  ⟨Nat.zero_lt_succ 126,
    @mimeDecoderWrite_outSize_iff (.uuencode LineDecoderData.init)
      (Nat.zero_lt_succ 126) (asciiBytes ['b', 'e', 'g', 'i', 'n']) 0⟩

end CommCentral.Mime
