import CommCentral.Jsmime.ContinuedParameters
import Mathlib.Data.List.Induction
import Mathlib.Data.List.Nodup
import Mathlib.Data.Nat.Find

/-! The segments of a parameter make up its value in the order of their numbers, in
whatever order they come. -/

namespace CommCentral.Jsmime
open List

def decimalText (n : Nat) : JsString := (Nat.toDigits 10 n).map fun c => UInt16.ofNat c.toNat

structure Segment where
  index : Nat
  starred : Bool
  value : JsString

/-- `p*n` or `p*n*`. -/
def Segment.name (p : JsString) (segment : Segment) : JsString :=
  p ++ charStar :: (decimalText segment.index ++ if segment.starred then [charStar] else [])

def Segment.decoded (segment : Segment) : JsString :=
  if segment.starred then percentDecode segment.value else segment.value

/-- The value that the segments up to the first gap stand for; the charset is decoded if
the first of them is starred. -/
def wholeValue (decode : JsString → List UInt8 → Option JsString) :
    List Segment → Option JsString
  | [] => none
  | first :: rest =>
    if first.starred then
      decode2231Value decode ((first :: rest).map Segment.decoded).flatten
    else some ((first :: rest).map Segment.decoded).flatten

/-- The segments before the first gap, in the order of their numbers. -/
structure UpToGap (segments ordered : List Segment) : Prop where
  among : ∀ segment ∈ ordered, segment ∈ segments
  numbered : ordered.map Segment.index = List.range ordered.length
  gap : ∀ segment ∈ segments, segment.index ≠ ordered.length

/-- The name of the parameter that a name belongs to. -/
def baseName (name : JsString) : JsString := name.takeWhile (· != charStar)

lemma decimalText_eq (n : Nat) :
    decimalText n = if n < 10 then [UInt16.ofNat (n + 0x30)]
      else decimalText (n / 10) ++ [UInt16.ofNat (n % 10 + 0x30)] := by
  have digit : ∀ d < 10, UInt16.ofNat (Nat.digitChar d).toNat = UInt16.ofNat (d + 0x30) := by
    decide
  split
  · rename_i small
    rw [decimalText, Nat.toDigits_of_lt_base small, map_singleton, digit n small]
  · rename_i large
    rw [decimalText, Nat.toDigits_of_base_le (by decide) (Nat.not_lt.mp large), map_append,
      map_singleton, digit _ (Nat.mod_lt _ (by decide))]
    rfl

lemma digit_facts (d : Nat) (small : d < 10) :
    isDecimalDigit (UInt16.ofNat (d + 0x30)) = true ∧
      (UInt16.ofNat (d + 0x30)).toNat - 0x30 = d ∧
      (d ≠ 0 → UInt16.ofNat (d + 0x30) ≠ charZero) ∧ UInt16.ofNat (d + 0x30) ≠ charStar := by
  have all : ∀ d < 10, isDecimalDigit (UInt16.ofNat (d + 0x30)) = true ∧
      (UInt16.ofNat (d + 0x30)).toNat - 0x30 = d ∧
      (d ≠ 0 → UInt16.ofNat (d + 0x30) ≠ charZero) ∧
      UInt16.ofNat (d + 0x30) ≠ charStar := by decide
  exact all d small

/-- What the parser asks of the number of a segment. -/
theorem decimalText_spec (n : Nat) :
    (∀ c ∈ decimalText n, isDecimalDigit c = true) ∧
      (decimalText n).foldl (fun value c => value * 10 + (c.toNat - 0x30)) 0 = n ∧
      decimalText n ≠ [] ∧ (n ≠ 0 → (decimalText n).head? ≠ some charZero) ∧
      (decimalText n).getLast? ≠ some charStar := by
  induction n using Nat.strong_induction_on with
  | _ n ih =>
    rw [decimalText_eq]
    split
    · rename_i small
      obtain ⟨digit, value, nonzero, notStar⟩ := digit_facts n small
      refine ⟨forall_mem_singleton.mpr digit, ?_, cons_ne_nil _ _, ?_, ?_⟩
      · rw [foldl_cons, foldl_nil, value, Nat.zero_mul, Nat.zero_add]
      · intro some same
        exact nonzero some (Option.some.inj same)
      · intro same
        exact notStar (Option.some.inj same)
    · rename_i large
      obtain ⟨digits, value, nonempty, leading, -⟩ := ih (n / 10) (by omega)
      obtain ⟨digit, last, -, notStar⟩ := digit_facts (n % 10) (Nat.mod_lt _ (by decide))
      refine ⟨forall_mem_append.mpr ⟨digits, forall_mem_singleton.mpr digit⟩, ?_,
        append_ne_nil_of_left_ne_nil nonempty _, ?_, ?_⟩
      · rw [foldl_append, value, foldl_cons, foldl_nil, last]
        omega
      · intro _
        rw [head?_append_of_ne_nil _ nonempty]
        exact leading (by omega)
      · rw [getLast?_concat]
        intro same
        exact notStar (Option.some.inj same)

lemma nearestNumber_of_lt (small : n < 2 ^ 53) : nearestNumber n = n := if_pos small

lemma parseInt_decimalText (small : n < 2 ^ 53) : parseInt (decimalText n) = n := by
  rw [parseInt, (decimalText_spec n).2.1, nearestNumber_of_lt small]

section
variable {α : Type} {map : JsMap α}

lemma JsMap.get?_cons (pair) :
    JsMap.get? (pair :: map) key = if pair.1 = key then some pair.2 else map.get? key := by
  rw [JsMap.get?, find?_cons]
  by_cases same : pair.1 = key
  · rw [if_pos same, beq_iff_eq.mpr same]
    rfl
  · rw [if_neg same, beq_eq_false_iff_ne.mpr same]
    rfl

variable (new : α)

lemma JsMap.get?_modify (change : α → α) :
    (JsMap.modify new change map key).get? other =
      if other = key then some (change ((map.get? key).getD new)) else map.get? other := by
  induction map with
  | nil =>
    rw [JsMap.modify, JsMap.get?_cons]
    by_cases same : other = key
    · rw [if_pos same, if_pos same.symm]
      rfl
    · rw [if_neg same, if_neg (Ne.symm same)]
  | cons pair map ih =>
    rw [JsMap.modify, JsMap.get?_cons, JsMap.get?_cons]
    by_cases found : pair.1 = key
    · rw [if_pos found, if_pos found, JsMap.get?_cons, Option.getD_some, found]
      by_cases same : other = key
      · rw [if_pos same, if_pos same.symm]
      · rw [if_neg same, if_neg (Ne.symm same), if_neg (Ne.symm same)]
    · rw [if_neg found, if_neg found, JsMap.get?_cons, ih]
      by_cases same : other = key
      · rw [if_pos same, if_pos same, if_neg (by rw [same]; exact found)]
      · rw [if_neg same, if_neg same]

lemma JsMap.mem_keys_modify (change : α → α) :
    other ∈ (JsMap.modify new change map key).map Prod.fst →
      other = key ∨ other ∈ map.map Prod.fst := by
  induction map with
  | nil =>
    intro mem
    exact .inl (mem_singleton.mp mem)
  | cons pair map ih =>
    rw [JsMap.modify]
    split
    · intro mem
      exact .inr mem
    · intro mem
      rcases mem_cons.mp mem with first | rest
      · exact .inr (mem_cons.mpr (.inl first))
      · exact (ih rest).imp id (mem_cons_of_mem _)

lemma JsMap.keys_modify (change : α → α) (distinct : (map.map Prod.fst).Nodup) :
    ((JsMap.modify new change map key).map Prod.fst).Nodup := by
  induction map with
  | nil => exact nodup_cons.mpr ⟨not_mem_nil, nodup_nil⟩
  | cons pair map ih =>
    rw [map_cons, nodup_cons] at distinct
    rw [JsMap.modify]
    split
    · exact nodup_cons.mpr distinct
    · rename_i notFound
      refine nodup_cons.mpr ⟨?_, ih distinct.2⟩
      intro mem
      exact (JsMap.mem_keys_modify new change mem).elim notFound distinct.1

lemma JsMap.get?_of_not_mem (absent : key ∉ map.map Prod.fst) : map.get? key = none := by
  induction map with
  | nil => rfl
  | cons pair map ih =>
    rw [map_cons, mem_cons, not_or] at absent
    rw [JsMap.get?_cons, if_neg (Ne.symm absent.1), ih absent.2]

/-- A loop that sets the value of each key: what it makes of one of them. -/
theorem foldl_get? {β : Type} {step : JsMap β → JsString × α → JsMap β}
    (keeps : ∀ values pair, pair.1 ≠ key → (step values pair).get? key = values.get? key)
    (local' : ∀ values others value, values.get? key = others.get? key →
      (step values (key, value)).get? key = (step others (key, value)).get? key)
    (distinct : (map.map Prod.fst).Nodup) (values : JsMap β) :
    (map.foldl step values).get? key =
      match map.get? key with
      | none => values.get? key
      | some value => (step values (key, value)).get? key := by
  induction map generalizing values with
  | nil => rfl
  | cons pair map ih =>
    rw [map_cons, nodup_cons] at distinct
    rw [foldl_cons, ih distinct.2, JsMap.get?_cons]
    by_cases found : pair.1 = key
    · rw [if_pos found, JsMap.get?_of_not_mem (found ▸ distinct.1)]
      dsimp only
      rw [← found]
    · rw [if_neg found]
      cases JsMap.get? map key with
      | none => exact keeps values pair found
      | some value => exact local' _ _ value (keeps values pair found)

end

lemma splitStar_of_star {p tail : JsString} (plain : charStar ∉ p) :
    splitStar (p ++ charStar :: tail) = (p, some tail) := by
  have all : ∀ c ∈ p, (c != charStar) = true := fun c mem =>
    bne_iff_ne.mpr fun same => plain (same ▸ mem)
  rw [splitStar, takeWhile_append_of_pos all, dropWhile_append_of_pos all]
  simp

section

/-- What comes behind the star in the name of a segment. -/
def Segment.tail (segment : Segment) : JsString :=
  decimalText segment.index ++ if segment.starred then [charStar] else []

lemma Segment.splitStar_name (plain : charStar ∉ p) (segment : Segment) :
    splitStar (segment.name p) = (p, some segment.tail) :=
  splitStar_of_star plain

lemma Segment.tail_ne_nil (segment : Segment) : segment.tail ≠ [] :=
  append_ne_nil_of_left_ne_nil (decimalText_spec segment.index).2.2.1 _

lemma Segment.tail_getLast? (segment : Segment) :
    segment.tail.getLast? = some charStar ↔ segment.starred = true := by
  obtain ⟨-, -, -, -, last⟩ := decimalText_spec segment.index
  rw [tail]
  cases segment.starred with
  | true => simp
  | false => simp [last]

lemma Segment.decodeStarred_name (segment : Segment) :
    decodeStarred (segment.name p) segment.value = segment.decoded := by
  have last : (segment.name p).getLast? = segment.tail.getLast? := by
    change (p ++ charStar :: segment.tail).getLast? = _
    rw [getLast?_append_of_ne_nil _ (cons_ne_nil _ _)]
    cases shape : segment.tail with
    | nil => exact absurd shape segment.tail_ne_nil
    | cons c more => exact getLast?_cons_cons
  rw [decodeStarred, last, decoded]
  simp only [segment.tail_getLast?]

lemma Continuation.add_segment {entry : Continuation} (valid : entry.valid = true)
    {segment : Segment} (small : segment.index < 2 ^ 53)
    (fresh : entry.get? segment.index = none) (value : JsString) :
    entry.add segment.tail value =
      { valid := true
        hasCharset := if segment.index = 0 then some segment.starred else entry.hasCharset
        items := entry.items ++ [(segment.index, value)] } := by
  obtain ⟨digits, -, nonempty, leading, -⟩ := decimalText_spec segment.index
  have lastStar : (segment.tail.getLast? == some charStar) = segment.starred := by
    cases starred : segment.starred with
    | true => exact beq_iff_eq.mpr (segment.tail_getLast?.mpr starred)
    | false =>
      apply beq_eq_false_iff_ne.mpr
      intro last
      rw [segment.tail_getLast?.mp last] at starred
      cases starred
  have number : (if segment.starred then segment.tail.dropLast else segment.tail) =
      decimalText segment.index := by
    rw [Segment.tail]
    cases segment.starred with
    | true => simp
    | false => simp
  have zero : decimalText segment.index = [charZero] ↔ segment.index = 0 := by
    constructor
    · intro same
      by_contra some
      exact leading some (by rw [same]; rfl)
    · intro none
      rw [none]
      decide
  have legal : ¬ (decimalText segment.index ≠ [charZero] ∧ (decimalText segment.index = [] ∨
      (decimalText segment.index).head? = some charZero ∨
        !(decimalText segment.index).all isDecimalDigit)) := by
    rintro ⟨some, none | first | other⟩
    · exact nonempty none
    · exact leading (fun none => some (zero.mpr none)) first
    · rw [all_eq_true.mpr digits] at other
      cases other
  obtain ⟨isValid, hasCharset, items⟩ := entry
  cases valid
  rw [Continuation.add]
  simp only [Bool.not_true, Bool.false_eq_true, if_false, lastStar, number, if_neg legal,
    parseInt_decimalText small, zero]
  have missing : ∀ charset, Continuation.get? { valid := true, hasCharset := charset, items }
      segment.index = none := fun _ => fresh
  by_cases first : segment.index = 0
  · rw [first] at missing ⊢
    simp only [if_true, missing, Option.isSome_none, Bool.false_eq_true, if_false]
  · simp only [if_neg first, missing, Option.isSome_none, Bool.false_eq_true, if_false]

lemma Continuation.get?_eq (entry : Continuation) (i : Nat) :
    entry.get? i = (entry.items.find? fun item => item.1 == i).map Prod.snd :=
  rfl

/-- The entry of the segments, in the order in which they come. -/
def segmentEntry (segments : List Segment) : Continuation :=
  segments.foldl (fun entry segment => entry.add segment.tail segment.decoded) {}

lemma segmentEntry_spec
    (distinct : (segments.map Segment.index).Nodup)
    (small : ∀ segment ∈ segments, segment.index < 2 ^ 53) :
    (segmentEntry segments).valid = true ∧
      (segmentEntry segments).items =
        segments.map (fun segment => (segment.index, segment.decoded)) ∧
      (segmentEntry segments).hasCharset =
        (segments.find? fun segment => segment.index == 0).map Segment.starred := by
  induction segments using List.reverseRecOn with
  | nil => exact ⟨rfl, rfl, rfl⟩
  | append_singleton front last ih =>
    rw [map_append, map_singleton] at distinct
    obtain ⟨smallFront, smallLast⟩ := forall_mem_append.mp small
    obtain ⟨valid, items, hasCharset⟩ := ih (nodup_append.mp distinct).1 smallFront
    have fresh : (segmentEntry front).get? last.index = none := by
      rw [Continuation.get?_eq, items, Option.map_eq_none_iff, find?_eq_none]
      intro item mem same
      obtain ⟨segment, listed, rfl⟩ := mem_map.mp mem
      exact (nodup_append.mp distinct).2.2 _ (mem_map_of_mem listed) _
        (mem_singleton_self _) (beq_iff_eq.mp same)
    have step : segmentEntry (front ++ [last]) =
        (segmentEntry front).add last.tail last.decoded := by
      rw [segmentEntry, foldl_append]
      rfl
    rw [step, Continuation.add_segment valid (smallLast last (mem_singleton_self last))
      fresh]
    refine ⟨rfl, ?_, ?_⟩
    · rw [items, map_append, map_singleton]
    · dsimp only
      rw [hasCharset, find?_append, find?_singleton]
      by_cases first : last.index = 0
      · have none : front.find? (fun segment => segment.index == 0) = none := by
          rw [find?_eq_none]
          intro segment mem same
          exact (nodup_append.mp distinct).2.2 _ (mem_map_of_mem mem) _
            (mem_singleton_self _) ((beq_iff_eq.mp same).trans first.symm)
        rw [if_pos first, none, if_pos (beq_iff_eq.mpr first)]
        rfl
      · rw [if_neg first, if_neg (fun same => first (beq_iff_eq.mp same)), Option.or_none]

lemma segmentEntry_get?
    (distinct : (segments.map Segment.index).Nodup)
    (small : ∀ segment ∈ segments, segment.index < 2 ^ 53) {segment : Segment}
    (mem : segment ∈ segments) :
    (segmentEntry segments).get? segment.index = some segment.decoded := by
  rw [Continuation.get?_eq, (segmentEntry_spec distinct small).2.1]
  clear small
  induction segments with
  | nil => exact absurd mem not_mem_nil
  | cons first segments ih =>
    rw [map_cons, nodup_cons] at distinct
    rw [map_cons, find?_cons]
    rcases mem_cons.mp mem with rfl | later
    · simp
    · have other : first.index ≠ segment.index := fun same =>
        distinct.1 (same ▸ mem_map_of_mem later)
      simp only [beq_eq_false_iff_ne.mpr other]
      exact ih distinct.2 later

lemma segmentEntry_gap (distinct : (segments.map Segment.index).Nodup)
    (small : ∀ segment ∈ segments, segment.index < 2 ^ 53)
    (gap : ∀ segment ∈ segments, segment.index ≠ i) : (segmentEntry segments).get? i = none := by
  rw [Continuation.get?_eq, (segmentEntry_spec distinct small).2.1, Option.map_eq_none_iff,
    find?_eq_none]
  intro item mem same
  obtain ⟨segment, listed, rfl⟩ := mem_map.mp mem
  exact gap segment listed (beq_iff_eq.mp same)

/-- The loop goes on to the first gap and one further, unless the array ends there. -/
theorem Continuation.stop_spec {entry : Continuation}
    (known : ∀ k, i ≤ k → k < first → entry.get? k ≠ none) (gap : entry.get? first = none)
    (order : i ≤ first) : entry.stop more i = min (first + 1) (i + more) := by
  induction more generalizing i with
  | zero =>
    rw [Continuation.stop]
    omega
  | succ more ih =>
    rw [Continuation.stop]
    by_cases here : i = first
    · rw [here, if_pos gap]
      omega
    · rw [if_neg (known i (Nat.le_refl i) (by omega)), ih (fun k le => known k (by omega)) (by omega)]
      omega

lemma foldl_max_ge (numbers : List Nat) (start : Nat) :
    start ≤ numbers.foldl max start ∧ ∀ n ∈ numbers, n ≤ numbers.foldl max start := by
  induction numbers generalizing start with
  | nil => exact ⟨Nat.le_refl _, fun n mem => absurd mem not_mem_nil⟩
  | cons first numbers ih =>
    obtain ⟨most, all⟩ := ih (max start first)
    refine ⟨Nat.le_trans (Nat.le_max_left ..) most, ?_⟩
    exact forall_mem_cons.mpr ⟨Nat.le_trans (Nat.le_max_right ..) most, all⟩

lemma segmentEntry_join (distinct : (segments.map Segment.index).Nodup)
    (small : ∀ segment ∈ segments, segment.index < 2 ^ 53) (order : UpToGap segments ordered) :
    (segmentEntry segments).join = (ordered.map Segment.decoded).flatten := by
  obtain ⟨among, numbered, gap⟩ := order
  have found : ∀ segment ∈ ordered,
      (segmentEntry segments).get? segment.index = some segment.decoded :=
    fun segment mem => segmentEntry_get? distinct small (among segment mem)
  have numbers : ∀ k < ordered.length, ∃ segment ∈ ordered, segment.index = k := by
    intro k inside
    have listed : k ∈ ordered.map Segment.index := numbered ▸ mem_range.mpr inside
    exact mem_map.mp listed
  have known : ∀ k, 0 ≤ k → k < ordered.length → (segmentEntry segments).get? k ≠ none := by
    intro k _ inside
    obtain ⟨segment, mem, rfl⟩ := numbers k inside
    rw [found segment mem]
    exact Option.some_ne_none _
  have long : ordered.length ≤ (segmentEntry segments).length := by
    cases count : ordered.length with
    | zero => exact Nat.zero_le _
    | succ n =>
      obtain ⟨segment, mem, index⟩ := numbers n (by omega)
      rw [Continuation.length, (segmentEntry_spec distinct small).2.1]
      apply (foldl_max_ge _ 0).2
      rw [map_map]
      exact mem_map.mpr ⟨segment, among segment mem, congrArg (· + 1) index⟩
  have joined : ((List.range ordered.length).map fun i =>
      ((segmentEntry segments).get? i).getD []) = ordered.map Segment.decoded := by
    rw [← numbered, map_map]
    apply map_congr_left
    intro segment mem
    rw [Function.comp_apply, found segment mem, Option.getD_some]
  have none := segmentEntry_gap distinct small gap
  rw [Continuation.join, Continuation.stop_spec known none (Nat.zero_le _)]
  rcases Nat.eq_or_lt_of_le long with same | less
  · have stop : min (ordered.length + 1) (0 + (segmentEntry segments).length) = ordered.length := by
      omega
    rw [stop, joined]
  · have stop : min (ordered.length + 1) (0 + (segmentEntry segments).length) =
        ordered.length + 1 := by
      omega
    rw [stop, range_succ, map_append, flatten_append, joined, map_singleton,
      none, Option.getD_none, flatten_singleton, append_nil]

/-- What the three maps hold for a name. -/
structure ParameterMaps.Holds (maps : ParameterMaps) (p : JsString) (segments : List Segment) :
    Prop where
  simple : maps.simpleValues.get? p = none
  charset : maps.charsetValues.get? p = none
  continuation : (maps.continuationValues.get? p).getD {} = segmentEntry segments
  seen : segments ≠ [] → maps.continuationValues.get? p ≠ none
  distinct : (maps.continuationValues.map Prod.fst).Nodup
  charsetDistinct : (maps.charsetValues.map Prod.fst).Nodup

lemma ParameterMaps.Holds.other {maps : ParameterMaps} (holds : maps.Holds p segments)
    {pair : JsString × JsString} (other : baseName pair.1 ≠ p) :
    (maps.add pair).Holds p segments := by
  have apart : p ≠ (splitStar pair.1).1 := Ne.symm other
  rw [ParameterMaps.add]
  split
  · rename_i name split
    rw [split] at apart
    refine { holds with simple := ?_ }
    change (JsMap.modify _ _ _ _).get? p = none
    rw [JsMap.get?_modify, if_neg apart]
    exact holds.simple
  · rename_i name split
    rw [split] at apart
    refine { holds with charset := ?_, charsetDistinct := JsMap.keys_modify _ _ holds.charsetDistinct }
    change (JsMap.modify _ _ _ _).get? p = none
    rw [JsMap.get?_modify, if_neg apart]
    exact holds.charset
  · rename_i name tail _ split
    rw [split] at apart
    refine { holds with
      continuation := ?_
      seen := ?_
      distinct := JsMap.keys_modify _ _ holds.distinct }
    · dsimp only
      rw [JsMap.get?_modify, if_neg apart]
      exact holds.continuation
    · dsimp only
      rw [JsMap.get?_modify, if_neg apart]
      exact holds.seen

lemma ParameterMaps.Holds.segment {maps : ParameterMaps} (holds : maps.Holds p segments)
    (plain : charStar ∉ p) (segment : Segment) :
    (maps.add (segment.name p, segment.decoded)).Holds p (segments ++ [segment]) := by
  have entry : segmentEntry (segments ++ [segment]) =
      (segmentEntry segments).add segment.tail segment.decoded := by
    rw [segmentEntry, foldl_append]
    rfl
  obtain ⟨c, tail, shape⟩ := exists_cons_of_ne_nil segment.tail_ne_nil
  rw [ParameterMaps.add, segment.splitStar_name plain, shape]
  refine { holds with
    continuation := ?_
    seen := ?_
    distinct := JsMap.keys_modify _ _ holds.distinct }
  · dsimp only
    rw [JsMap.get?_modify, if_pos rfl, Option.getD_some, holds.continuation, entry, shape]
  · intro _
    dsimp only
    rw [JsMap.get?_modify, if_pos rfl]
    exact Option.some_ne_none _

/-- The parameters of a header that have the name `p` are the given segments. -/
def GivenAs (p : JsString) (segments : List Segment) (parameters : List ParameterText) : Prop :=
  (parameters.filter fun parameter => baseName parameter.name = p).map
      (fun parameter => (parameter.name, parameter.value)) =
    segments.map fun segment => (segment.name p, segment.value)

instance (p : JsString) (segments : List Segment) (parameters : List ParameterText) :
    Decidable (GivenAs p segments parameters) :=
  inferInstanceAs (Decidable (_ = _))

lemma ParameterMaps.Holds.foldl (plain : charStar ∉ p) {parameters : List ParameterText}
    (holds : maps.Holds p before) (given : GivenAs p segments parameters) :
    ((parameters.map ParameterText.pair).foldl ParameterMaps.add maps).Holds p
      (before ++ segments) := by
  induction parameters generalizing maps before segments with
  | nil =>
    cases segments with
    | nil => rwa [append_nil]
    | cons segment segments => cases given
  | cons parameter parameters ih =>
    rw [map_cons, foldl_cons]
    by_cases mine : baseName parameter.name = p
    · rw [GivenAs, filter_cons_of_pos (by simpa using mine), map_cons] at given
      cases segments with
      | nil => cases given
      | cons segment segments =>
        rw [map_cons, List.cons.injEq, Prod.mk.injEq] at given
        obtain ⟨⟨name, value⟩, rest⟩ := given
        have pair : parameter.pair = (segment.name p, segment.decoded) := by
          rw [ParameterText.pair, name, value, segment.decodeStarred_name]
        rw [pair, ← singleton_append, ← append_assoc]
        exact ih (holds.segment plain segment) rest
    · rw [GivenAs, filter_cons_of_neg (by simpa using mine)] at given
      exact ih (holds.other mine) given

lemma ParameterMaps.holds_empty : ParameterMaps.Holds {} p [] where
  simple := rfl
  charset := rfl
  continuation := rfl
  seen := fun some => absurd rfl some
  distinct := nodup_nil
  charsetDistinct := nodup_nil

section
variable {decode : JsString → List UInt8 → Option JsString} {values : JsMap JsString}

lemma JsMap.get?_set (value) :
    (values.set key value).get? p = if p = key then some value else values.get? p :=
  JsMap.get?_modify value _

lemma setDecoded_get? (value) :
    (setDecoded values key value).get? p =
      if p = key then value.or (values.get? p) else values.get? p := by
  cases value with
  | none => rw [Option.none_or, ite_self]; rfl
  | some value => exact JsMap.get?_set value

def continuationValue (decode : JsString → List UInt8 → Option JsString) (entry : Continuation) :
    Option JsString :=
  match entry.hasCharset with
  | none => none
  | some false => some entry.join
  | some true => decode2231Value decode entry.join

lemma addContinuation_get? (entry) :
    (addContinuation decode values (key, entry)).get? p =
      if p = key then (continuationValue decode entry).or (values.get? p) else values.get? p := by
  rw [addContinuation, continuationValue]
  cases entry.hasCharset with
  | none => rw [Option.none_or, ite_self]
  | some starred =>
    cases starred with
    | false => exact JsMap.get?_set _
    | true => exact setDecoded_get? _

lemma continuations_get? {map : JsMap Continuation} (distinct : (map.map Prod.fst).Nodup) :
    (map.foldl (addContinuation decode) values).get? p =
      ((map.get? p).bind (continuationValue decode)).or (values.get? p) := by
  rw [foldl_get? _ _ distinct]
  · cases map.get? p with
    | none => rfl
    | some entry =>
      dsimp only
      rw [addContinuation_get?, if_pos rfl]
      rfl
  · intro values pair other
    exact (addContinuation_get? pair.2).trans (if_neg (Ne.symm other))
  · intro values others entry same
    rw [addContinuation_get?, addContinuation_get?, same]

lemma charsets_get? {map : JsMap JsString} (distinct : (map.map Prod.fst).Nodup) :
    (map.foldl (addCharsetValue decode) values).get? p =
      ((map.get? p).bind (decode2231Value decode)).or (values.get? p) := by
  rw [foldl_get? _ _ distinct]
  · cases map.get? p with
    | none => rfl
    | some value =>
      dsimp only
      rw [addCharsetValue, setDecoded_get?, if_pos rfl]
      rfl
  · intro values pair other
    exact (setDecoded_get? _).trans (if_neg (Ne.symm other))
  · intro values others value same
    rw [addCharsetValue, addCharsetValue, setDecoded_get?, setDecoded_get?, same]

end

lemma continuationValue_segmentEntry (decode : JsString → List UInt8 → Option JsString)
    (distinct : (segments.map Segment.index).Nodup)
    (small : ∀ segment ∈ segments, segment.index < 2 ^ 53) (order : UpToGap segments ordered) :
    continuationValue decode (segmentEntry segments) = wholeValue decode ordered := by
  have join := segmentEntry_join distinct small order
  obtain ⟨among, numbered, gap⟩ := order
  obtain ⟨-, -, hasCharset⟩ := segmentEntry_spec distinct small
  rw [continuationValue, join, hasCharset]
  cases ordered with
  | nil =>
    have none : segments.find? (fun segment => segment.index == 0) = none := by
      rw [find?_eq_none]
      intro segment mem first
      exact gap segment mem (beq_iff_eq.mp first)
    rw [none]
    rfl
  | cons first rest =>
    rw [map_cons, length_cons, range_succ_eq_map, List.cons.injEq] at numbered
    have found : segments.find? (fun segment => segment.index == 0) = some first := by
      cases search : segments.find? (fun segment => segment.index == 0) with
      | none =>
        have missed := find?_eq_none.mp search first (among first mem_cons_self)
        exact absurd (beq_iff_eq.mpr numbered.1) missed
      | some other =>
        have index : other.index = 0 := beq_iff_eq.mp (find?_some search :)
        have same : other = first :=
          inj_on_of_nodup_map distinct (mem_of_find?_eq_some search)
            (among first mem_cons_self) (index.trans numbered.1.symm)
        rw [same]
    rw [found, Option.map_some, wholeValue]
    cases first.starred with
    | true => rfl
    | false => rfl

end

lemma exists_upToGap (segments) : ∃ ordered, UpToGap segments ordered := by
  have numbers : ∀ n, (∀ k < n, ∃ segment ∈ segments, segment.index = k) →
      ∃ ordered : List Segment, (∀ segment ∈ ordered, segment ∈ segments) ∧
        ordered.map Segment.index = List.range n := by
    intro n known
    induction n with
    | zero => exact ⟨[], fun segment mem => absurd mem not_mem_nil, rfl⟩
    | succ n ih =>
      obtain ⟨ordered, among, numbered⟩ := ih fun k inside => known k (by omega)
      obtain ⟨segment, mem, index⟩ := known n (Nat.lt_succ_self n)
      refine ⟨ordered ++ [segment], ?_, ?_⟩
      · exact forall_mem_append.mpr ⟨among, forall_mem_singleton.mpr mem⟩
      · rw [map_append, numbered, map_singleton, index, range_succ]
  have unused : ∃ n, ∀ segment ∈ segments, segment.index ≠ n := by
    refine ⟨(segments.map fun segment => segment.index + 1).foldl max 0, ?_⟩
    intro segment mem same
    have most := (foldl_max_ge _ 0).2 _
      (mem_map_of_mem (f := fun segment : Segment => segment.index + 1) mem)
    omega
  obtain ⟨ordered, among, numbered⟩ := numbers (Nat.find unused) fun k before => by
    by_contra none
    exact Nat.find_min unused before fun segment mem same => none ⟨segment, mem, same⟩
  have length : ordered.length = Nat.find unused := by
    rw [← length_map (f := Segment.index), numbered, length_range]
  exact ⟨ordered, among, length ▸ numbered, length ▸ Nat.find_spec unused⟩

/-- The segments of a parameter may come in any order and between other parameters: the
value is made up of those before the first gap, in the order of their numbers. -/
theorem parseParameterHeader2231_segments (decode : JsString → List UInt8 → Option JsString)
    {start p : JsString} {parameters : List ParameterText} {segments : List Segment}
    (first : charSemicolon ∉ start) (plain : charStar ∉ p)
    (given : GivenAs p segments parameters) (distinct : (segments.map Segment.index).Nodup)
    (small : ∀ segment ∈ segments, segment.index < 2 ^ 53) :
    let value := JsMap.get? (parseParameterHeader2231 decode
      (start ++ (parameters.map ParameterText.text).flatten)).values p
    (∃ ordered, UpToGap segments ordered ∧ value = wholeValue decode ordered) ∧
      ((∀ segment ∈ segments, segment.index ≠ 0) → value = none) := by
  intro value
  have before : ∀ c ∈ start, (c != charSemicolon) = true := fun c mem =>
    bne_iff_ne.mpr fun same => first (same ▸ mem)
  have rest : (start ++ (parameters.map ParameterText.text).flatten).dropWhile
      (· != charSemicolon) = (parameters.map ParameterText.text).flatten := by
    rw [dropWhile_append_of_pos before]
    cases parameters with
    | nil => rfl
    | cons parameter parameters =>
      obtain ⟨more, text⟩ := head?_eq_some_iff.mp parameter.starts
      rw [map_cons, flatten_cons, text]
      rfl
  have holds := ParameterMaps.holds_empty.foldl plain given
  rw [nil_append, ← parameterPairs_texts, ← rest] at holds
  have whole : ∀ ordered, UpToGap segments ordered → value = wholeValue decode ordered := by
    intro ordered order
    have entry := continuationValue_segmentEntry decode distinct small order
    change JsMap.get? (List.foldl (addCharsetValue decode) _ _) p = _
    rw [charsets_get? holds.charsetDistinct, holds.charset, Option.bind_none, Option.none_or,
      continuations_get? holds.distinct, holds.simple, Option.or_none, ← entry,
      ← holds.continuation]
    cases search : JsMap.get? _ p with
    | none => rfl
    | some entry => rfl
  refine ⟨?_, ?_⟩
  · obtain ⟨ordered, order⟩ := exists_upToGap segments
    exact ⟨ordered, order, whole ordered order⟩
  · intro missing
    exact whole [] ⟨fun segment mem => absurd mem not_mem_nil, rfl, missing⟩

/-- `attachment;f*1=b;x=y;f*0*=u%41;f*3=d` -/
theorem parseParameterHeader2231_segments_gap :
    let decode : JsString → List UInt8 → Option JsString := fun _ bytes =>
      some (bytes.map UInt8.toUInt16)
    let parameters : List ParameterText :=
      [.token (js "f*1") (js "b") (by decide) (by decide) (by decide),
        .token (js "x") (js "y") (by decide) (by decide) (by decide),
        .token (js "f*0*") (js "u%41") (by decide) (by decide) (by decide),
        .token (js "f*3") (js "d") (by decide) (by decide) (by decide)]
    let segments : List Segment := [⟨1, false, js "b"⟩, ⟨0, true, js "u%41"⟩, ⟨3, false, js "d"⟩]
    let value := JsMap.get? (parseParameterHeader2231 decode
      (js "attachment" ++ (parameters.map ParameterText.text).flatten)).values (js "f")
    (∃ ordered, UpToGap segments ordered ∧ value = wholeValue decode ordered) ∧
      ((∀ segment ∈ segments, segment.index ≠ 0) → value = none) := by
  intro decode parameters segments
  have given : GivenAs (js "f") segments parameters := by decide
  exact parseParameterHeader2231_segments decode (by decide) (by decide) given (by decide)
    (by decide)

/-- `x;p*9007199254740992=a;p*9007199254740993=b;p*0=c` -/
theorem parseParameterHeader2231_largeNumbers :
    ¬ ∀ (decode : JsString → List UInt8 → Option JsString) (start p : JsString)
        (parameters : List ParameterText) (segments : List Segment),
      charSemicolon ∉ start → charStar ∉ p → GivenAs p segments parameters →
      (segments.map Segment.index).Nodup →
      ∃ ordered, UpToGap segments ordered ∧
        JsMap.get? (parseParameterHeader2231 decode
          (start ++ (parameters.map ParameterText.text).flatten)).values p =
            wholeValue decode ordered := by
  intro all
  obtain ⟨ordered, ⟨among, -, gap⟩, value⟩ := all (fun _ _ => none) (js "x") (js "p")
    [.token (js "p*9007199254740992") (js "a") (by decide) (by decide) (by decide),
      .token (js "p*9007199254740993") (js "b") (by decide) (by decide) (by decide),
      .token (js "p*0") (js "c") (by decide) (by decide) (by decide)]
    [⟨9007199254740992, false, js "a"⟩, ⟨9007199254740993, false, js "b"⟩, ⟨0, false, js "c"⟩]
    (by decide) (by decide) (by decide) (by decide)
  cases ordered with
  | nil => exact gap ⟨0, false, js "c"⟩ (by simp) rfl
  | cons first rest =>
    have plain : first.starred = false := by
      have member := among first mem_cons_self
      simp only [mem_cons, not_mem_nil, or_false] at member
      rcases member with rfl | rfl | rfl <;> rfl
    rw [wholeValue, plain] at value
    have absent : JsMap.get? (parseParameterHeader2231 (fun _ _ => none)
        (js "x;p*9007199254740992=a;p*9007199254740993=b;p*0=c")).values (js "p") = none := by
      decide +kernel
    exact Option.some_ne_none _ (value.symm.trans absent)

end CommCentral.Jsmime
