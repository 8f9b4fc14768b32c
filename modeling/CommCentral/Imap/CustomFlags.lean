import CommCentral.Imap.OfflineOperation
import CommCentral.Lib.JoinedParts
import CommCentral.Lib.Tokens

/-! How a keyword is found in a list of keywords, and the custom flags of the messages. -/
namespace CommCentral.Imap
open Lib List

section Search

lemma findText_some (found : findText keywords keyword offset = some place) :
    offset ≤ place ∧ keyword <+: keywords.drop place ∧
      ∀ earlier, offset ≤ earlier → earlier < place → ¬ keyword <+: keywords.drop earlier := by
  obtain ⟨isPrefix, before, after, split, none⟩ := find?_eq_some_iff_append.mp found
  have ordered : (before ++ place :: after).Pairwise (· < ·) := split ▸ pairwise_lt_range'
  have inRange : place ∈ range' offset (keywords.length + 1 - offset) := by simp [split]
  refine ⟨(mem_range'_1.mp inRange).1, isPrefixOf_iff_prefix.mp isPrefix, ?_⟩
  intro earlier reached less here
  have inList : earlier ∈ before ++ place :: after := by
    rw [← split, mem_range'_1]
    have bounds := (mem_range'_1.mp inRange).2
    omega
  rcases mem_append.mp inList with inBefore | inAfter
  · simpa [ isPrefixOf_iff_prefix.mpr here] using none earlier inBefore
  · rcases mem_cons.mp inAfter with rfl | later
    · exact Nat.lt_irrefl _ less
    · have above := (pairwise_cons.mp (pairwise_append.mp ordered).2.1).1 earlier later
      exact Nat.lt_asymm less above

lemma findText_none (filled : keyword ≠ []) (none : findText keywords keyword offset = none)
    (reached : offset ≤ place) : ¬ keyword <+: keywords.drop place := by
  intro here
  by_cases inside : place < keywords.length
  · have inRange : place ∈ range' offset (keywords.length + 1 - offset) := by
      rw [mem_range'_1]
      omega
    simpa [ isPrefixOf_iff_prefix.mpr here] using find?_eq_none.mp none place inRange
  · rw [drop_of_length_le (Nat.not_lt.mp inside), prefix_nil] at here
    exact filled here

lemma standsAt_iff (filled : keyword ≠ []) (here : keyword <+: keywords.drop place) :
    StandsAt ' ' keyword keywords place ↔
      (place = 0 ∨ keywords[place - 1]? = some ' ') ∧
        (place + keyword.length = keywords.length ∨
          keywords[place + keyword.length]? = some ' ') := by
  have length := here.length_le
  rw [length_drop] at length
  constructor
  · rintro ⟨-, starts, ends⟩
    refine ⟨starts, ends.imp_left fun none => ?_⟩
    have behind := List.getElem?_eq_none_iff.mp none
    have positive := length_pos_iff.mpr filled
    omega
  · rintro ⟨starts, ends⟩
    exact ⟨here, starts, ends.imp_left fun last => getElem?_eq_none (Nat.le_of_eq last.symm)⟩

lemma msgFindKeywordFrom_some (filled : keyword ≠ [])
    (found : msgFindKeywordFrom keyword keywords fuel offset = some place) :
    StandsAt ' ' keyword keywords place := by
  induction fuel generalizing offset with
  | zero => cases found
  | succ fuel ih =>
    rw [msgFindKeywordFrom] at found
    cases search : findText keywords keyword offset with
    | none => simp [search] at found
    | some start =>
      simp only [search] at found
      split at found
      · rename_i bounded
        cases found
        exact (standsAt_iff filled (findText_some search).2.1).mpr bounded
      · exact ih found

lemma msgFindKeywordFrom_none (filled : keyword ≠ []) (noSpace : ' ' ∉ keyword)
    (enough : keywords.length < offset + fuel)
    (none : msgFindKeywordFrom keyword keywords fuel offset = none) (reached : offset ≤ place) :
    ¬ StandsAt ' ' keyword keywords place := by
  induction fuel generalizing offset with
  | zero =>
    intro stands
    have here := stands.occurs
    rw [drop_of_length_le (by omega), prefix_nil] at here
    exact filled here
  | succ fuel ih =>
    intro stands
    rw [msgFindKeywordFrom] at none
    cases search : findText keywords keyword offset with
    | none => exact findText_none filled search reached stands.occurs
    | some start =>
      obtain ⟨after, here, before⟩ := findText_some search
      simp only [search] at none
      split at none
      · cases none
      · rename_i unbounded
        have positive := length_pos_iff.mpr filled
        by_cases behind : start + keyword.length ≤ place
        · exact ih (by omega) none behind stands
        · rcases Nat.lt_trichotomy place start with earlier | same | inside
          · exact before place reached earlier stands.occurs
          · exact unbounded ((standsAt_iff filled here).mp (same ▸ stands))
          · exact StandsAt.not_inside noSpace here inside (Nat.not_le.mp behind) stands

/-- A keyword is found exactly if it is one of the tokens of the list. -/
theorem msgFindKeyword_isSome_iff (filled : keyword ≠ []) (noSpace : ' ' ∉ keyword) :
    (msgFindKeyword keyword keywords).isSome ↔ keyword ∈ tokens ' ' keywords := by
  rw [mem_tokens_iff filled noSpace, msgFindKeyword]
  constructor
  · intro found
    obtain ⟨place, search⟩ := Option.isSome_iff_exists.mp found
    exact ⟨place, msgFindKeywordFrom_some filled search⟩
  · rintro ⟨place, stands⟩
    by_contra missing
    rw [Option.not_isSome_iff_eq_none] at missing
    exact msgFindKeywordFrom_none filled noSpace (by omega) missing (Nat.zero_le _) stands

lemma tokens_append (before after) :
    tokens ' ' (before ++ ' ' :: after) = tokens ' ' before ++ tokens ' ' after := by
  rw [tokens, splitOn_append_cons_self, filter_append]
  rfl

lemma tokens_keyword (filled : keyword ≠ []) (noSpace : ' ' ∉ keyword) :
    tokens ' ' keyword = [keyword] := by
  rw [tokens, splitOn_eq_singleton noSpace]
  simp [filled]

end Search

/-- `m_customFlagsHash`: the custom flags of the messages that have any. -/
abbrev CustomFlagsHash := UInt32 → Option (List Char)

/-- The loop of `AddUidCustomFlagPair` that looks for the flag among the stored ones. -/
def hasCustomFlagFrom (customFlag oldValue : List Char) : Nat → Nat → Bool
  | 0, _ => false
  | fuel + 1, offset =>
    match findText oldValue customFlag offset with
    | none => false
    | some existingCustomFlagPos =>
      if (oldValue.length = existingCustomFlagPos + customFlag.length ∨
            oldValue[existingCustomFlagPos + customFlag.length]? = some ' ') ∧
          (existingCustomFlagPos = 0 ∨ oldValue[existingCustomFlagPos - 1]? = some ' ') then true
      else hasCustomFlagFrom customFlag oldValue fuel (existingCustomFlagPos + customFlag.length)

def hasCustomFlag (customFlag oldValue : List Char) : Bool :=
  hasCustomFlagFrom customFlag oldValue (oldValue.length + 1) 0

namespace CustomFlagsHash

/-- A null pointer adds nothing. -/
def addUidCustomFlagPair (hash : CustomFlagsHash) (uid : UInt32) :
    Option (List Char) → CustomFlagsHash
  | none => hash
  | some customFlag =>
    match hash uid with
    | some oldValue =>
      if hasCustomFlag customFlag oldValue then hash
      else Function.update hash uid (some (oldValue ++ ' ' :: customFlag))
    | none => Function.update hash uid (some customFlag)

def getCustomFlags (hash : CustomFlagsHash) (uid : UInt32) : Option (List Char) := hash uid

def clearCustomFlags (hash : CustomFlagsHash) (uid : UInt32) : CustomFlagsHash :=
  Function.update hash uid none

end CustomFlagsHash

inductive CustomFlagCall
  | add (uid : UInt32) (customFlag : List Char)
  | clear (uid : UInt32)

namespace CustomFlagCall

/-- The keywords that are added are not empty and have no space. -/
def Legal : CustomFlagCall → Prop
  | add _ customFlag => customFlag ≠ [] ∧ ' ' ∉ customFlag
  | clear _ => True

def apply (hash : CustomFlagsHash) : CustomFlagCall → CustomFlagsHash
  | add uid customFlag => hash.addUidCustomFlagPair uid (some customFlag)
  | clear uid => hash.clearCustomFlags uid

/-- What has been added to a message since the last clear, after one more call. -/
def addedTo (uid : UInt32) (added : List (List Char)) : CustomFlagCall → List (List Char)
  | add own customFlag => if own = uid then added ++ [customFlag] else added
  | clear own => if own = uid then [] else added

end CustomFlagCall

lemma hasCustomFlagFrom_eq (customFlag oldValue) (fuel offset : Nat) :
    hasCustomFlagFrom customFlag oldValue fuel offset =
      (msgFindKeywordFrom customFlag oldValue fuel offset).isSome := by
  induction fuel generalizing offset with
  | zero => rfl
  | succ fuel ih =>
    rw [hasCustomFlagFrom, msgFindKeywordFrom]
    cases findText oldValue customFlag offset with
    | none => rfl
    | some start =>
      simp only [ih, and_comm, eq_comm (a := oldValue.length)]
      split <;> rfl

/-- What the hash holds for a message when the keywords have been added to it. -/
def CustomFlagsHash.Holds (hash : CustomFlagsHash) (uid : UInt32) (added : List (List Char)) :
    Prop :=
  match hash uid with
  | none => added = []
  | some value => added ≠ [] ∧ value = [' '].intercalate added.eraseDups ∧
      tokens ' ' value = added.eraseDups

lemma eraseDups_concat (added : List (List Char)) (flag : List Char) :
    (added ++ [flag]).eraseDups =
      if flag ∈ added then added.eraseDups else added.eraseDups ++ [flag] := by
  rw [eraseDups_append]
  by_cases known : flag ∈ added <;> simp [removeAll, known, eraseDups_cons]

lemma CustomFlagsHash.Holds.apply {hash : CustomFlagsHash} {uid : UInt32}
    {added : List (List Char)} (holds : hash.Holds uid added) {call : CustomFlagCall}
    (legal : call.Legal) : (call.apply hash).Holds uid (call.addedTo uid added) := by
  cases call with
  | clear own =>
    by_cases same : own = uid
    · simp [Holds, CustomFlagCall.apply, CustomFlagCall.addedTo, clearCustomFlags, same]
    · have other : (CustomFlagCall.apply hash (.clear own)) uid = hash uid :=
        Function.update_of_ne (Ne.symm same) _ _
      rwa [CustomFlagCall.addedTo, if_neg same, Holds, other]
  | add own flag =>
    obtain ⟨filled, noSpace⟩ := legal
    by_cases same : own = uid
    · subst same
      rw [CustomFlagCall.addedTo, if_pos rfl, CustomFlagCall.apply, addUidCustomFlagPair]
      rw [Holds] at holds
      cases stored : hash own with
      | none =>
        simp only [stored] at holds ⊢
        subst holds
        simp [Holds, tokens_keyword filled noSpace, eraseDups_cons]
      | some value =>
        simp only [stored] at holds ⊢
        obtain ⟨some, joined, parts⟩ := holds
        have found : hasCustomFlag flag value = true ↔ flag ∈ added := by
          rw [hasCustomFlag, hasCustomFlagFrom_eq]
          exact (msgFindKeyword_isSome_iff filled noSpace).trans (by rw [parts, mem_eraseDups])
        by_cases known : flag ∈ added
        · rw [if_pos (found.mpr known), Holds, stored, eraseDups_concat, if_pos known]
          exact ⟨by simp, joined, parts⟩
        · rw [if_neg (mt found.mp known), Holds, Function.update_self, eraseDups_concat,
            if_neg known]
          have notNil : added.eraseDups ≠ [] := by
            intro none
            obtain ⟨first, rest, rfl⟩ := exists_cons_of_ne_nil some
            simp [eraseDups_cons] at none
          refine ⟨by simp, ?_, ?_⟩
          · rw [intercalate_concat notNil, joined]
          · rw [tokens_append, parts, tokens_keyword filled noSpace]
    · have other : (CustomFlagCall.apply hash (.add own flag)) uid = hash uid := by
        rw [CustomFlagCall.apply, addUidCustomFlagPair]
        cases hash own with
        | none => exact Function.update_of_ne (Ne.symm same) _ _
        | some value =>
          dsimp only
          split
          · rfl
          · exact Function.update_of_ne (Ne.symm same) _ _
      rwa [CustomFlagCall.addedTo, if_neg same, Holds, other]

/-- The stored string joins the different keywords that were added since the last clear, in the
order in which they were first added. -/
theorem getCustomFlags_eq (calls : List CustomFlagCall) (legal : ∀ call ∈ calls, call.Legal)
    (uid : UInt32) :
    (calls.foldl CustomFlagCall.apply fun _ => none : CustomFlagsHash).getCustomFlags uid =
      (let added := calls.foldl (CustomFlagCall.addedTo uid) []
       if added = [] then none else some ([' '].intercalate added.eraseDups)) := by
  have run : ∀ (hash : CustomFlagsHash) (added : List (List Char)), hash.Holds uid added →
      (calls.foldl CustomFlagCall.apply hash).Holds uid
        (calls.foldl (CustomFlagCall.addedTo uid) added) := by
    induction calls with
    | nil => exact fun hash added holds => holds
    | cons call calls ih =>
      intro hash added holds
      exact ih (fun other mem => legal other (mem_cons_of_mem _ mem)) _ _
        (holds.apply (legal call mem_cons_self))
  have holds := run (fun _ => none) [] rfl
  rw [CustomFlagsHash.Holds] at holds
  rw [CustomFlagsHash.getCustomFlags]
  cases stored : (calls.foldl CustomFlagCall.apply fun _ => none : CustomFlagsHash) uid with
  | none =>
    simp only [stored] at holds
    simp [holds]
  | some value =>
    simp only [stored] at holds
    obtain ⟨some, joined, -⟩ := holds
    simp [some, joined]

/-- A keyword is kept apart from those it begins, ends or stands in. -/
theorem getCustomFlags_prefixes :
    ([.add 7 ['a', 'b'], .add 7 ['a'], .add 7 ['b'], .add 7 ['a']].foldl CustomFlagCall.apply
        fun _ => none : CustomFlagsHash).getCustomFlags 7 =
      some ['a', 'b', ' ', 'a', ' ', 'b'] := by
  rw [getCustomFlags_eq _ (by simp [CustomFlagCall.Legal])]
  decide

end CommCentral.Imap
