import CommCentral.Mime.LineDecoder

/-! What a uuencoded line of the body decodes to: the decoding in place reads each
character before it is overwritten, stays inside the buffer and meets the assertions. -/

namespace CommCentral.Mime

open Lib List Option

/-- The first byte of a group of four characters. -/
def byteOne (chars : List UInt8) : UInt8 :=
  UInt8.ofNat (dec (chars.getD 0 0) * 4 ||| dec (chars.getD 1 0) / 16)

def byteTwo (chars : List UInt8) : UInt8 :=
  UInt8.ofNat (dec (chars.getD 1 0) * 16 ||| dec (chars.getD 2 0) / 4)

def byteThree (chars : List UInt8) : UInt8 :=
  UInt8.ofNat (dec (chars.getD 2 0) * 64 ||| dec (chars.getD 3 0))

/-- The first bytes that characters stand for, three for four. -/
def groupBytes : Nat → List UInt8 → List UInt8
  | 0, _ => []
  | 1, chars => [byteOne chars]
  | 2, chars => [byteOne chars, byteTwo chars]
  | n + 3, chars => byteOne chars :: byteTwo chars :: byteThree chars :: groupBytes n (chars.drop 4)

lemma groupBytes_length (n : Nat) (chars) : (groupBytes n chars).length = n := by
  induction n, chars using groupBytes.induct with
  | case1 => rfl
  | case2 => rfl
  | case3 => rfl
  | case4 n chars ih => rw [groupBytes, length_cons, length_cons, length_cons, ih]

section
variable {memory : List UInt8} {input : Nat}

lemma getElem?_of_lt {k : Nat} (inside : input + k < memory.length) :
    memory[input + k]? = some ((memory.drop input).getD k 0) := by
  rw [getD_eq_getElem?_getD, getElem?_drop]
  obtain ⟨c, found⟩ := List.getElem?_eq_some_iff.mp (getElem?_eq_getElem inside)
  rw [getElem?_eq_getElem inside, getD_some]

/-- A byte is stored where the characters have been read. -/
theorem putDecoded_spec {limit : Nat} (ch : Nat) (behind : out < limit)
    (inside : out < memory.length) :
    ∃ memory', putDecoded memory out ch limit = some (memory', out + 1) ∧
      memory'.length = memory.length ∧
      memory'.take (out + 1) = memory.take out ++ [UInt8.ofNat ch] ∧
      ∀ k, out < k → memory'[k]? = memory[k]? := by
  refine ⟨memory.set out (UInt8.ofNat ch), ?_, length_set .., ?_, ?_⟩
  · rw [putDecoded, store_of_lt inside, bind_eq_bind, bind_some,
      if_pos (Nat.succ_le_of_lt behind)]
  · have there : out < (memory.set out (UInt8.ofNat ch)).length := by rwa [length_set]
    rw [take_succ_eq_append_getElem there, getElem_set_self,
      take_set_of_le (Nat.le_refl out)]
  · intro k after
    exact getElem?_set_ne (Nat.ne_of_lt after)

lemma drop_of_getElem? {memory' : List UInt8} {bound : Nat}
    (same : ∀ k, bound ≤ k → memory'[k]? = memory[k]?) :
    memory'.drop bound = memory.drop bound := by
  apply ext_getElem?
  intro k
  rw [getElem?_drop, getElem?_drop]
  exact same _ (Nat.le_add_right _ _)

lemma uueGroups_done {fuel : Nat} {i : Int} (done : i ≤ 0) :
    uueGroups fuel memory input out i = some (memory, input, out) := by
  cases fuel with
  | zero | succ fuel => rw [uueGroups, if_pos done]

/-- The loop over the groups of a line: `out` stays behind `in`. -/
theorem uueGroups_spec (n : Nat) (chars : List UInt8) {fuel : Nat} (enough : n ≤ fuel)
    (behind : out < input) (inside : input + (4 * n + 2) / 3 ≤ memory.length)
    (reads : memory.drop input = chars) :
    ∃ memory' input', uueGroups fuel memory input out n = some (memory', input', out + n) ∧
      memory'.length = memory.length ∧
      memory'.take (out + n) = memory.take out ++ groupBytes n chars ∧ out + n < input' := by
  have reading : ∀ k, input + k < memory.length →
      memory[input + k]? = some (chars.getD k 0) := by
    intro k there
    rw [← reads]
    exact getElem?_of_lt there
  induction n, chars using groupBytes.induct generalizing fuel memory input out with
  | case1 =>
    refine ⟨memory, input, uueGroups_done (Int.le_refl 0), rfl, ?_, behind⟩
    rw [groupBytes, append_nil, Nat.add_zero]
  | case2 chars =>
    obtain ⟨fuel, rfl⟩ := Nat.exists_eq_add_of_le' enough
    obtain ⟨memory', put, length, taken, -⟩ :=
      @putDecoded_spec memory out (input + 1)
        (dec (chars.getD 0 0) * 4 ||| dec (chars.getD 1 0) / 16) (by omega) (by omega)
    refine ⟨memory', input + 4, ?_, length, taken, by omega⟩
    rw [uueGroups, if_neg (by omega), if_pos (Nat.le_of_lt behind),
      show memory[input]? = _ from reading 0 (by omega), reading 1 (by omega)]
    simp only [bind_eq_bind, bind_some, put]
    rw [if_neg (by omega), if_neg (by omega)]
    exact uueGroups_done (by omega)
  | case3 chars =>
    obtain ⟨fuel, rfl⟩ := Nat.exists_eq_add_of_le' (Nat.le_of_succ_le enough)
    obtain ⟨first, put, length, taken, same⟩ :=
      @putDecoded_spec memory out (input + 1)
        (dec (chars.getD 0 0) * 4 ||| dec (chars.getD 1 0) / 16) (by omega) (by omega)
    obtain ⟨second, put', length', taken', -⟩ :=
      @putDecoded_spec first (out + 1) (input + 2)
        (dec (chars.getD 1 0) * 16 ||| dec (chars.getD 2 0) / 4) (by omega) (by omega)
    refine ⟨second, input + 4, ?_, by omega, ?_, by omega⟩
    · rw [uueGroups, if_neg (by omega), if_pos (Nat.le_of_lt behind),
        show memory[input]? = _ from reading 0 (by omega), reading 1 (by omega)]
      simp only [bind_eq_bind, bind_some, put]
      rw [if_neg (by omega), if_pos (by omega), same (input + 1) (by omega),
        same (input + 2) (by omega), reading 1 (by omega), reading 2 (by omega)]
      simp only [bind_some, put']
      exact uueGroups_done (by omega)
    · rw [taken', taken, append_assoc]
      rfl
  | case4 n chars ih =>
    obtain ⟨fuel, rfl⟩ := Nat.exists_eq_add_of_le' (Nat.one_le_of_lt enough)
    obtain ⟨first, put, length, taken, same⟩ :=
      @putDecoded_spec memory out (input + 1)
        (dec (chars.getD 0 0) * 4 ||| dec (chars.getD 1 0) / 16) (by omega) (by omega)
    obtain ⟨second, put', length', taken', same'⟩ :=
      @putDecoded_spec first (out + 1) (input + 2)
        (dec (chars.getD 1 0) * 16 ||| dec (chars.getD 2 0) / 4) (by omega) (by omega)
    obtain ⟨third, put'', length'', taken'', same''⟩ :=
      @putDecoded_spec second (out + 2) (input + 3)
        (dec (chars.getD 2 0) * 64 ||| dec (chars.getD 3 0)) (by omega) (by omega)
    have untouched : third.drop (input + 4) = memory.drop (input + 4) := by
      apply drop_of_getElem?
      intro k after
      rw [same'' k (by omega), same' k (by omega), same k (by omega)]
    obtain ⟨memory', input', looped, sized, decoded, order⟩ :=
      @ih third (input + 4) (out + 3) fuel (by omega) (by omega) (by omega)
        (by rw [untouched, ← reads, drop_drop]) (by
          intro k there
          rw [← reads, drop_drop, ← untouched]
          exact getElem?_of_lt there)
    have total : out + (n + 3) = out + 3 + n := by omega
    refine ⟨memory', input', ?_, by omega, ?_, by omega⟩
    · rw [uueGroups, if_neg (by omega), if_pos (Nat.le_of_lt behind),
        show memory[input]? = _ from reading 0 (by omega), reading 1 (by omega)]
      simp only [bind_eq_bind, bind_some, put]
      rw [if_pos (by omega), same (input + 1) (by omega), same (input + 2) (by omega),
        reading 1 (by omega), reading 2 (by omega)]
      simp only [bind_some, put']
      rw [same' (input + 2) (by omega), same' (input + 3) (by omega), same (input + 2) (by omega),
        same (input + 3) (by omega), reading 2 (by omega), reading 3 (by omega)]
      simp only [bind_some, put'']
      have less : ((n + 3 : Nat) : Int) - 3 = n := by omega
      rw [less, looped, total]
    · rw [total, decoded, taken'', taken', taken]
      simp only [append_assoc]
      rfl

lemma padLost_spec (lost : Nat) (inside : out + lost ≤ memory.length) :
    ∃ memory', padLost lost memory out = some (memory', out + lost) ∧
      memory'.take (out + lost) = memory.take out ++ List.replicate lost 0 := by
  induction lost generalizing memory out with
  | zero => exact ⟨memory, rfl, by rw [replicate_zero, append_nil, Nat.add_zero]⟩
  | succ lost ih =>
    have here : out < (memory.set out 0).length := by
      rw [length_set]
      omega
    obtain ⟨memory', padded, taken⟩ := @ih (memory.set out 0) (out + 1) (by rw [length_set]; omega)
    have total : out + (lost + 1) = out + 1 + lost := by omega
    refine ⟨memory', ?_, ?_⟩
    · rw [padLost, store_of_lt (by omega), bind_some, padded, total]
    · rw [total, taken, take_succ_eq_append_getElem here, getElem_set_self,
        take_set_of_le (Nat.le_refl out), append_assoc, replicate_succ]
      rfl

end

/-- Only the characters of the first bytes count. -/
theorem groupBytes_congr {n : Nat} {chars others : List UInt8}
    (same : ∀ k, 3 * k < 4 * n → chars.getD k 0 = others.getD k 0) :
    groupBytes n chars = groupBytes n others := by
  induction n, chars using groupBytes.induct generalizing others with
  | case1 => rfl
  | case2 chars =>
    rw [groupBytes, groupBytes, byteOne, byteOne, same 0 (by omega), same 1 (by omega)]
  | case3 chars =>
    rw [groupBytes, groupBytes, byteOne, byteOne, byteTwo, byteTwo, same 0 (by omega),
      same 1 (by omega), same 2 (by omega)]
  | case4 n chars ih =>
    have later : groupBytes n (chars.drop 4) = groupBytes n (others.drop 4) := by
      apply ih
      intro k small
      have here := same (4 + k) (by omega)
      simpa only [getD_eq_getElem?_getD, getElem?_drop] using here
    rw [groupBytes, groupBytes, later, byteOne, byteOne, byteTwo, byteTwo, byteThree, byteThree,
      same 0 (by omega), same 1 (by omega), same 2 (by omega), same 3 (by omega)]

lemma getD_append_zeros (chars : List UInt8) (count k : Nat) :
    (chars ++ List.replicate count 0).getD k 0 = chars.getD k 0 := by
  rw [getD_eq_getElem?_getD, getD_eq_getElem?_getD]
  by_cases inside : k < chars.length
  · rw [getElem?_append_left inside]
  · rw [getElem?_append_right (Nat.not_lt.mp inside),
      getElem?_eq_none (Nat.not_lt.mp inside), getElem?_replicate]
    split <;> rfl

lemma dec_lt (c : UInt8) : dec c < 64 := Nat.mod_lt _ (by decide)

/-- A line yields as many bytes as its first character says: those that the other
characters but the last stand for, and nulls for those that are missing. -/
theorem decodeUueLine_cons (first : UInt8) {chars : List UInt8}
    (inside : chars.length < uueBufferSize) :
    decodeUueLine (first :: chars) = some
      (groupBytes (min (dec first) ((chars.length - 1) * 3 / 4)) chars ++
        List.replicate (dec first - (chars.length - 1) * 3 / 4) 0) := by
  have small := dec_lt first
  change chars.length < 128 at inside
  have usable : ((((first :: chars).length : Int) - 2) * 3).tdiv 4 =
      ((chars.length - 1) * 3 / 4 : Nat) := by
    rw [length_cons]
    cases chars with
    | nil => rfl
    | cons c chars =>
      rw [length_cons, Int.tdiv_eq_ediv_of_nonneg (by omega)]
      omega
  generalize usableEq : (chars.length - 1) * 3 / 4 = kept at usable ⊢
  have memoryLength : ((first :: chars) ++
      List.replicate (128 - (first :: chars).length) (0 : UInt8)).length = 128 := by
    rw [length_append, length_replicate, length_cons]
    omega
  obtain ⟨memory, input, looped, length, decoded, order⟩ :=
    @uueGroups_spec ((first :: chars) ++ List.replicate (128 - (first :: chars).length) 0) 1 0
      (min (dec first) kept) _ (dec first) (Nat.min_le_left _ _) Nat.one_pos
      (by rw [memoryLength]; omega) rfl
  obtain ⟨memory', padded, taken⟩ := @padLost_spec memory (0 + min (dec first) kept)
    (dec first - kept) (by omega)
  have bytes : groupBytes (min (dec first) kept)
      (((first :: chars) ++ List.replicate (128 - (first :: chars).length) 0).drop 1) =
        groupBytes (min (dec first) kept) chars := by
    apply groupBytes_congr
    intro k _
    exact getD_append_zeros chars _ k
  have chosen : (if (dec first : Int) - kept > 0 then (dec first : Int) - ((dec first : Int) - kept)
      else dec first) = ((min (dec first) kept : Nat) : Int) := by
    split <;> omega
  have lost : ((dec first : Int) - kept).toNat = dec first - kept := by omega
  rw [decodeUueLine, usable]
  simp only [cons_append, getElem?_cons_zero, bind_eq_bind, bind_some,
    uueBufferSize, chosen, lost, Int.toNat_natCast]
  rw [← cons_append, looped]
  simp only [bind_some, padded]
  rw [if_pos ?_, taken, decoded, bytes, take_zero, nil_append]
  split <;> omega

/-- A line that starts with a null yields 33 of them. -/
theorem decodeUueLine_nil : decodeUueLine [] = some (List.replicate 33 0) := by
  decide +kernel

end CommCentral.Mime
