import CommCentral.Imap.CustomFlags

/-! The keywords that are to be added to a message and removed from it, over several calls. -/
namespace CommCentral.Imap
open Lib List OfflineImapOperation

section Lists

variable {keyword before after addList removeList : List Char}

lemma tokens_before (before) : tokens ' ' (before ++ [' ']) = tokens ' ' before := by
  rw [tokens_append]
  simp [tokens]

/-- The tokens of a text that is cut where a token may begin. -/
theorem tokens_cut (cut : before = [] ∨ ∃ shorter, before = shorter ++ [' ']) :
    tokens ' ' (before ++ after) = tokens ' ' before ++ tokens ' ' after := by
  rcases cut with rfl | ⟨shorter, rfl⟩
  · simp [tokens]
  · rw [append_assoc, singleton_append, tokens_append, tokens_before]

section

variable (filled : keyword ≠ []) (noSpace : ' ' ∉ keyword)
include filled noSpace

lemma tokens_keyword_append (ends : after = [] ∨ ∃ rest, after = ' ' :: rest) :
    tokens ' ' (keyword ++ after) = keyword :: tokens ' ' after := by
  rcases ends with rfl | ⟨rest, rfl⟩
  · rw [append_nil, tokens_keyword filled noSpace]
    simp [tokens]
  · have front := tokens_append [] rest
    rw [nil_append] at front
    rw [tokens_append, tokens_keyword filled noSpace, front]
    simp [tokens]

/-- A keyword that is found is cut out of the list, and the other tokens stay. -/
theorem exists_cut {start : Nat} (found : msgFindKeyword keyword removeList = some start) :
    ∃ front back, tokens ' ' removeList = front ++ keyword :: back ∧
      tokens ' ' (removeList.take start ++ removeList.drop (start + keyword.length)) =
        front ++ back := by
  obtain ⟨⟨after, same⟩, starts, ends⟩ := msgFindKeywordFrom_some filled found
  have whole : removeList = removeList.take start ++ (keyword ++ after) := by
    rw [same, take_append_drop]
  have rest : removeList.drop (start + keyword.length) = after := by
    rw [← drop_drop, ← same, drop_left]
  have cut : removeList.take start = [] ∨ ∃ shorter, removeList.take start = shorter ++ [' '] := by
    rcases starts with rfl | isSpace
    · exact .inl rfl
    · obtain ⟨inside, isSpace⟩ := List.getElem?_eq_some_iff.mp isSpace
      by_cases zero : start = 0
      · simp [zero]
      · obtain ⟨place, rfl⟩ := Nat.exists_eq_succ_of_ne_zero zero
        exact .inr ⟨removeList.take place, by
          have shorter := take_succ_eq_append_getElem inside
          rw [isSpace] at shorter
          exact shorter⟩
  have afterToken : after = [] ∨ ∃ rest, after = ' ' :: rest := by
    rw [← rest]
    cases behind : removeList.drop (start + keyword.length) with
    | nil => exact .inl rfl
    | cons first more =>
      have isFirst : removeList[start + keyword.length]? = some first := by
        rw [← head?_drop, behind]
        rfl
      rw [isFirst] at ends
      exact .inr ⟨more, by simpa using ends⟩
  refine ⟨tokens ' ' (removeList.take start), tokens ' ' after, ?_, ?_⟩
  · rw [← tokens_keyword_append filled noSpace afterToken, ← tokens_cut cut, ← whole]
  · rw [rest, tokens_cut cut]

/-- `AddKeyword` puts the keyword into one list and takes it out of the other one. -/
theorem addKeyword_spec (distinct : (tokens ' ' addList).Nodup)
    (others : (tokens ' ' removeList).Nodup) :
    ((∀ token, token ∈ tokens ' ' (addKeyword keyword addList removeList).1 ↔
        token ∈ tokens ' ' addList ∨ token = keyword) ∧
      (tokens ' ' (addKeyword keyword addList removeList).1).Nodup) ∧
    ((∀ token, token ∈ tokens ' ' (addKeyword keyword addList removeList).2 ↔
        token ∈ tokens ' ' removeList ∧ token ≠ keyword) ∧
      (tokens ' ' (addKeyword keyword addList removeList).2).Nodup) := by
  constructor
  · have known := @msgFindKeyword_isSome_iff _ addList filled noSpace
    rw [addKeyword]
    by_cases mem : keyword ∈ tokens ' ' addList
    · rw [if_pos (known.mpr mem)]
      refine ⟨fun token => ⟨.inl, ?_⟩, distinct⟩
      rintro (inList | rfl)
      · exact inList
      · exact mem
    · have added : tokens ' ' (if addList.isEmpty then keyword else addList ++ ' ' :: keyword) =
          tokens ' ' addList ++ [keyword] := by
        cases addList with
        | nil => exact tokens_keyword filled noSpace
        | cons first rest => rw [if_neg (by simp), tokens_append, tokens_keyword filled noSpace]
      rw [if_neg (mt known.mp mem)]
      dsimp only
      rw [added]
      refine ⟨fun token => by simp, nodup_append.mpr ⟨distinct, nodup_singleton _, ?_⟩⟩
      rintro token inList _ isKeyword rfl
      exact mem (mem_singleton.mp isKeyword ▸ inList)
  · have known := @msgFindKeyword_isSome_iff _ removeList filled noSpace
    cases found : msgFindKeyword keyword removeList with
    | none =>
      rw [found] at known
      have missing : keyword ∉ tokens ' ' removeList := mt known.mpr (by simp)
      simp only [addKeyword, found]
      refine ⟨fun token => ⟨fun mem => ⟨mem, ?_⟩, And.left⟩, others⟩
      rintro rfl
      exact missing mem
    | some start =>
      obtain ⟨front, back, whole, cut⟩ := exists_cut filled noSpace found
      rw [whole, nodup_middle, nodup_cons] at others
      simp only [addKeyword, found, whole, cut]
      refine ⟨fun token => ?_, others.2⟩
      by_cases same : token = keyword
      · simpa [same] using others.1
      · simp [same]

end

end Lists

inductive KeywordChange
  | add
  | remove
  deriving DecidableEq

/-- A call of `AddKeywordToAdd` or `AddKeywordToRemove`, made through the object of the call
before or through one that is constructed for it. -/
structure KeywordCall where
  fresh : Bool
  change : KeywordChange
  keyword : List Char

namespace KeywordCall

def Legal (call : KeywordCall) : Prop := call.keyword ≠ [] ∧ ' ' ∉ call.keyword

/-- The object through which the call is made. -/
def through (op : OfflineImapOperation) (call : KeywordCall) : OfflineImapOperation :=
  if call.fresh then .ofRow op.messageKey op.mdbRow else op

def apply (op : OfflineImapOperation) (call : KeywordCall) : OfflineImapOperation :=
  match call.change with
  | .add => (call.through op).addKeywordToAdd call.keyword
  | .remove => (call.through op).addKeywordToRemove call.keyword

/-- An object that is constructed for the call finds no keywords in the row. -/
def SeesStored (op : OfflineImapOperation) (call : KeywordCall) : Prop :=
  call.fresh = true → op.mdbRow.addedKeywords = [] ∧ op.mdbRow.removedKeywords = []

end KeywordCall

/-- What the last call for a keyword was. -/
def lastChange (calls : List KeywordCall) (keyword : List Char) : Option KeywordChange :=
  ((calls.filter (·.keyword = keyword)).getLast?).map KeywordCall.change

/-- The lists of the row hold the keywords by their last calls, each once. -/
structure HoldsLastChanges (calls : List KeywordCall) (row : OpRow) : Prop where
  added : ∀ keyword, keyword ∈ tokens ' ' row.addedKeywords ↔
    lastChange calls keyword = some .add
  addedOnce : (tokens ' ' row.addedKeywords).Nodup
  removed : ∀ keyword, keyword ∈ tokens ' ' row.removedKeywords ↔
    lastChange calls keyword = some .remove
  removedOnce : (tokens ' ' row.removedKeywords).Nodup

lemma lastChange_concat (calls) (call) (keyword) :
    lastChange (calls ++ [call]) keyword =
      if keyword = call.keyword then some call.change else lastChange calls keyword := by
  by_cases same : keyword = call.keyword
  · simp [lastChange, same]
  · simp [lastChange, same, Ne.symm same]

/-- The lists in memory are those of the row. -/
structure Agrees (calls : List KeywordCall) (op : OfflineImapOperation) : Prop where
  adds : op.keywordsToAdd = op.mdbRow.addedKeywords
  removes : op.keywordsToRemove = op.mdbRow.removedKeywords
  holds : HoldsLastChanges calls op.mdbRow

lemma Agrees.through (agrees : Agrees calls op) {call : KeywordCall} (sees : call.SeesStored op) :
    Agrees calls (call.through op) := by
  rw [KeywordCall.through]
  split
  · rename_i fresh
    obtain ⟨noAdds, noRemoves⟩ := sees fresh
    exact ⟨noAdds.symm, noRemoves.symm, agrees.holds⟩
  · exact agrees

/-- The list that is cut from is written only if the keyword was in it. -/
theorem written_eq (keyword addList removeList : List Char) :
    (if (msgFindKeyword keyword removeList).isSome then (addKeyword keyword addList removeList).2
      else removeList) = (addKeyword keyword addList removeList).2 := by
  cases found : msgFindKeyword keyword removeList with
  | none => simp [addKeyword, found]
  | some start => rfl

lemma Agrees.apply (agrees : Agrees calls op) {call : KeywordCall} (legal : call.Legal)
    (sees : call.SeesStored op) : Agrees (calls ++ [call]) (call.apply op) := by
  obtain ⟨adds, removes, holds⟩ := agrees.through sees
  obtain ⟨filled, noSpace⟩ := legal
  rw [KeywordCall.apply]
  generalize call.through op = op at adds removes holds
  have addsOnce : (tokens ' ' op.keywordsToAdd).Nodup := adds ▸ holds.addedOnce
  have removesOnce : (tokens ' ' op.keywordsToRemove).Nodup := removes ▸ holds.removedOnce
  have added : ∀ keyword, keyword ∈ tokens ' ' op.keywordsToAdd ↔
      lastChange calls keyword = some .add := adds ▸ holds.added
  have removed : ∀ keyword, keyword ∈ tokens ' ' op.keywordsToRemove ↔
      lastChange calls keyword = some .remove := removes ▸ holds.removed
  cases change : call.change with
  | add =>
    have written : (op.addKeywordToAdd call.keyword).mdbRow.removedKeywords =
        (addKeyword call.keyword op.keywordsToAdd op.keywordsToRemove).2 := by
      rw [← written_eq]
      exact if_congr Iff.rfl rfl removes.symm
    obtain ⟨⟨inAdds, addedOnce⟩, inRemoves, removedOnce⟩ :=
      addKeyword_spec filled noSpace addsOnce removesOnce
    refine ⟨rfl, written.symm, ⟨fun keyword => ?_, addedOnce, fun keyword => ?_, ?_⟩⟩
    · rw [lastChange_concat, change]
      refine (inAdds keyword).trans ?_
      rw [added]
      by_cases same : keyword = call.keyword <;> simp [same]
    · rw [lastChange_concat, change, written, inRemoves, removed]
      by_cases same : keyword = call.keyword <;> simp [same]
    · rw [written]
      exact removedOnce
  | remove =>
    have written : (op.addKeywordToRemove call.keyword).mdbRow.addedKeywords =
        (addKeyword call.keyword op.keywordsToRemove op.keywordsToAdd).2 := by
      rw [← written_eq]
      exact if_congr Iff.rfl rfl adds.symm
    obtain ⟨⟨inRemoves, removedOnce⟩, inAdds, addedOnce⟩ :=
      addKeyword_spec filled noSpace removesOnce addsOnce
    refine ⟨written.symm, rfl, ⟨fun keyword => ?_, ?_, fun keyword => ?_, removedOnce⟩⟩
    · rw [lastChange_concat, change, written, inAdds, added]
      by_cases same : keyword = call.keyword <;> simp [same]
    · rw [written]
      exact addedOnce
    · rw [lastChange_concat, change]
      refine (inRemoves keyword).trans ?_
      rw [removed]
      by_cases same : keyword = call.keyword <;> simp [same]

/-- While no object is constructed over a row that holds keywords, the row holds each keyword by
the last call for it, after any calls. -/
theorem holdsLastChanges_of_seesStored (messageKey : Nat) (row : OpRow)
    (noAdds : row.addedKeywords = []) (noRemoves : row.removedKeywords = [])
    (calls : List KeywordCall) (legal : ∀ call ∈ calls, call.Legal)
    (sees : ∀ before call after, calls = before ++ call :: after →
      call.SeesStored (before.foldl KeywordCall.apply (.ofRow messageKey row))) :
    HoldsLastChanges calls (calls.foldl KeywordCall.apply (.ofRow messageKey row)).mdbRow := by
  suffices agrees : Agrees calls (calls.foldl KeywordCall.apply (.ofRow messageKey row)) from
    agrees.holds
  induction calls using List.reverseRecOn with
  | nil =>
    refine ⟨noAdds.symm, noRemoves.symm, ⟨fun keyword => ?_, ?_, fun keyword => ?_, ?_⟩⟩ <;>
      simp [ofRow, noAdds, noRemoves, tokens, lastChange]
  | append_singleton calls call ih =>
    have before := ih (fun other mem => legal other (mem_append_left _ mem))
      fun front other behind split => sees front other (behind ++ [call]) (by simp [split])
    rw [foldl_append]
    exact before.apply (legal call (by simp)) (sees calls call [] rfl)

theorem holdsLastChanges_addRemove :
    HoldsLastChanges [⟨true, .add, ['a']⟩, ⟨false, .remove, ['a']⟩, ⟨false, .add, ['a', 'b']⟩]
      (([⟨true, .add, ['a']⟩, ⟨false, .remove, ['a']⟩, ⟨false, .add, ['a', 'b']⟩] :
        List KeywordCall).foldl KeywordCall.apply (.ofRow 1 OpRow.empty)).mdbRow := by
  refine holdsLastChanges_of_seesStored 1 OpRow.empty rfl rfl _ (by simp [KeywordCall.Legal]) ?_
  rintro (_ | ⟨first, _ | ⟨second, _ | ⟨third, before⟩⟩⟩) call after split fresh
  · exact ⟨rfl, rfl⟩
  · cases split
    cases fresh
  · cases split
    cases fresh
  · simp at split

/-- A second object is constructed for the second keyword, and the first one is lost. -/
theorem not_holdsLastChanges_fresh :
    ¬ HoldsLastChanges [⟨true, .add, ['a']⟩, ⟨true, .add, ['b']⟩]
      (([⟨true, .add, ['a']⟩, ⟨true, .add, ['b']⟩] : List KeywordCall).foldl KeywordCall.apply
        (.ofRow 1 OpRow.empty)).mdbRow := by
  intro holds
  have kept := (holds.added ['a']).mpr (by decide)
  revert kept
  decide

end CommCentral.Imap
