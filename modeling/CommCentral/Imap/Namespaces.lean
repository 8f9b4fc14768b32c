import CommCentral.Lib.FirstLeast
import Mathlib.Data.List.Infix

/-! The namespaces of an IMAP host, and the one that a mailbox is taken to belong to. -/
namespace CommCentral.Imap

open Lib List

inductive NamespaceType where
  | kPersonalNamespace
  | kOtherUsersNamespace
  | kPublicNamespace
  | kDefaultNamespace
  | kUnknownNamespace
deriving DecidableEq

structure ImapNamespace where
  namespaceType : NamespaceType
  mPrefix : List UInt8
  delimiter : UInt8
  fromPrefs : Bool
deriving DecidableEq

/-- `PL_strstr(big, little) == big`: in an empty string nothing is found, and neither is it. -/
def strstrAtStart (big little : List UInt8) : Bool :=
  big ≠ [] && little ≠ [] && little.isPrefixOf big

namespace ImapNamespace

def mailboxMatchesNamespace (nspace : ImapNamespace) (boxname : List UInt8) : Int :=
  if nspace.mPrefix = [] then 0
  else if strstrAtStart boxname nspace.mPrefix then nspace.mPrefix.length
  else if strstrAtStart nspace.mPrefix boxname then boxname.length
  else -1

end ImapNamespace

/-- `nsImapNamespaceList::AddNewNamespace`. A namespace of the server takes the place of those of
the preferences and of its like. -/
def addNewNamespace (namespaceList : List ImapNamespace) (ns : ImapNamespace) :
    List ImapNamespace :=
  let kept :=
    if !ns.fromPrefs then
      namespaceList.filter fun nspace =>
        !(nspace.fromPrefs || (ns.mPrefix = nspace.mPrefix &&
          ns.namespaceType = nspace.namespaceType && ns.delimiter = nspace.delimiter))
    else namespaceList
  kept ++ [ns]

def getDefaultNamespaceOfType (namespaceList : List ImapNamespace) (type : NamespaceType) :
    Option ImapNamespace :=
  let ofType := namespaceList.filter fun ns => ns.namespaceType = type
  (ofType.find? fun ns => ns.mPrefix = []).or ofType.head?

/-- The loop of `GetNamespaceForMailbox` over the namespaces from the last to the first. -/
def longestMatch (boxname : List UInt8) :
    List ImapNamespace → (lengthMatched : Int) → (rv : Option ImapNamespace) → Option ImapNamespace
  | [], _, rv => rv
  | nspace :: earlier, lengthMatched, rv =>
    let currentMatchedLength := nspace.mailboxMatchesNamespace boxname
    if currentMatchedLength > lengthMatched then
      longestMatch boxname earlier currentMatchedLength (some nspace)
    else longestMatch boxname earlier lengthMatched rv

/-- `PL_strcasecmp(boxname, "INBOX") == 0` -/
def isInbox (boxname : List UInt8) : Bool :=
  let upper (c : UInt8) : UInt8 := if 0x61 ≤ c ∧ c ≤ 0x7A then c - 0x20 else c
  boxname.map upper = [0x49, 0x4E, 0x42, 0x4F, 0x58]

def getNamespaceForMailbox (namespaceList : List ImapNamespace) (boxname : List UInt8) :
    Option ImapNamespace :=
  if isInbox boxname then getDefaultNamespaceOfType namespaceList .kPersonalNamespace
  else longestMatch boxname namespaceList.reverse (-1) none

/-- The mailbox is the one that the namespace is named after. -/
def ImapNamespace.IsMailbox (nspace : ImapNamespace) (boxname : List UInt8) : Prop :=
  nspace.mPrefix = boxname ++ [nspace.delimiter]

/-- The mailbox is in the namespace, or the namespace is named after it. -/
def ImapNamespace.Holds (nspace : ImapNamespace) (boxname : List UInt8) : Prop :=
  nspace.mPrefix <+: boxname ∨ nspace.IsMailbox boxname

/-- A namespace with the longest prefix of those that hold the mailbox, or none where none does. -/
def BelongsTo (namespaceList : List ImapNamespace) (boxname : List UInt8) :
    Option ImapNamespace → Prop
  | some nspace => nspace ∈ namespaceList ∧ nspace.Holds boxname ∧
      ∀ other ∈ namespaceList, other.Holds boxname → other.mPrefix.length ≤ nspace.mPrefix.length
  | none => ∀ other ∈ namespaceList, ¬ other.Holds boxname

/-- The prefix of the namespace begins with the name of the mailbox. -/
def ImapNamespace.beginsWith (nspace : ImapNamespace) (boxname : List UInt8) : Bool :=
  boxname ≠ [] && boxname.isPrefixOf nspace.mPrefix

/-- The last namespace whose prefix begins with the name is the one named after the mailbox, or is
the mailbox and no namespace is named after it. -/
def NotOutbid (namespaceList : List ImapNamespace) (boxname : List UInt8) : Prop :=
  (boxname = [] → ∀ other ∈ namespaceList, ¬ other.IsMailbox boxname) ∧
    ∀ nspace, namespaceList.reverse.find? (·.beginsWith boxname) = some nspace →
      nspace.IsMailbox boxname ∨
        nspace.mPrefix = boxname ∧ ∀ other ∈ namespaceList, ¬ other.IsMailbox boxname

section

variable {nspace : ImapNamespace}

lemma beginsWith_iff :
    nspace.beginsWith boxname = true ↔ boxname ≠ [] ∧ boxname <+: nspace.mPrefix := by
  simp [ImapNamespace.beginsWith]

lemma mailboxMatchesNamespace_eq : nspace.mailboxMatchesNamespace boxname =
    if nspace.mPrefix <+: boxname then (nspace.mPrefix.length : Int)
    else if nspace.beginsWith boxname then (boxname.length : Int)
    else -1 := by
  rw [ImapNamespace.mailboxMatchesNamespace]
  by_cases empty : nspace.mPrefix = []
  · simp [empty]
  · rw [if_neg empty]
    by_cases inside : nspace.mPrefix <+: boxname
    · have nonempty : boxname ≠ [] := by
        rintro rfl
        exact empty (prefix_nil.mp inside)
      simp [strstrAtStart, empty, inside, nonempty]
    · simp [strstrAtStart, ImapNamespace.beginsWith, empty, inside]

/-- What is missing of the mailbox's whole name in the match. -/
def unmatched (boxname : List UInt8) (nspace : ImapNamespace) : Nat :=
  (boxname.length - nspace.mailboxMatchesNamespace boxname).toNat

lemma matched_le : nspace.mailboxMatchesNamespace boxname ≤ boxname.length := by
  rw [mailboxMatchesNamespace_eq]
  split
  · rename_i inside
    exact Int.ofNat_le.mpr inside.length_le
  · split
    · exact Int.le_refl _
    · omega

lemma longestMatch_eq (items) {lengthMatched : Int}
    (notMore : lengthMatched ≤ boxname.length) (rv) :
    longestMatch boxname items lengthMatched rv =
      firstLeast (unmatched boxname) items (boxname.length - lengthMatched).toNat rv := by
  induction items generalizing lengthMatched rv with
  | nil => rfl
  | cons nspace earlier ih =>
    have atMost : nspace.mailboxMatchesNamespace boxname ≤ boxname.length := matched_le
    rw [longestMatch, firstLeast]
    by_cases longer : nspace.mailboxMatchesNamespace boxname > lengthMatched
    · have less : unmatched boxname nspace < (boxname.length - lengthMatched).toNat := by
        unfold unmatched
        omega
      rw [if_pos longer, if_pos less, ih atMost]
      rfl
    · have notLess : ¬ unmatched boxname nspace < (boxname.length - lengthMatched).toNat := by
        unfold unmatched
        omega
      rw [if_neg longer, if_neg notLess, ih notMore]

lemma unmatched_of_inside (inside : nspace.mPrefix <+: boxname) :
    unmatched boxname nspace = boxname.length - nspace.mPrefix.length := by
  have shorter := inside.length_le
  rw [unmatched, mailboxMatchesNamespace_eq, if_pos inside]
  omega

lemma unmatched_of_begins (begins : nspace.beginsWith boxname = true) :
    unmatched boxname nspace = 0 := by
  by_cases inside : nspace.mPrefix <+: boxname
  · have same := (beginsWith_iff.mp begins).2.length_le
    rw [unmatched_of_inside inside, Nat.sub_eq_zero_of_le same]
  · rw [unmatched, mailboxMatchesNamespace_eq, if_neg inside, if_pos begins, Int.sub_self]
    rfl

lemma unmatched_of_outside (outside : ¬ nspace.mPrefix <+: boxname)
    (notBegins : ¬ nspace.beginsWith boxname = true) :
    unmatched boxname nspace = boxname.length + 1 := by
  rw [unmatched, mailboxMatchesNamespace_eq, if_neg outside, if_neg notBegins]
  omega

lemma ImapNamespace.IsMailbox.begins (isMailbox : nspace.IsMailbox boxname)
    (nonempty : boxname ≠ []) : nspace.beginsWith boxname = true := by
  rw [beginsWith_iff, isMailbox]
  exact ⟨nonempty, prefix_append _ _⟩

lemma ImapNamespace.IsMailbox.length (isMailbox : nspace.IsMailbox boxname) :
    nspace.mPrefix.length = boxname.length + 1 := by
  rw [isMailbox, length_append]
  rfl

end

section

variable {namespaceList : List ImapNamespace}

/-- The last namespace whose prefix begins with the name of the mailbox is chosen. -/
theorem longestMatch_of_begins {nspace : ImapNamespace}
    (found : namespaceList.reverse.find? (·.beginsWith boxname) = some nspace) :
    longestMatch boxname namespaceList.reverse (-1) none = some nspace := by
  obtain ⟨begins, before, after, split, notBefore⟩ := find?_eq_some_iff_append.mp found
  have least := unmatched_of_begins begins
  rw [longestMatch_eq _ (by omega), split]
  refine firstLeast_of_split ⟨?_, ?_⟩ (by omega) none
  · intro other isBefore
    have notBegins : ¬ other.beginsWith boxname = true := by
      simpa using notBefore other isBefore
    rw [least]
    by_cases inside : other.mPrefix <+: boxname
    · have different : other.mPrefix.length ≠ boxname.length := by
        intro same
        have isName := inside.eq_of_length same
        have nonempty := (beginsWith_iff.mp begins).1
        exact notBegins (beginsWith_iff.mpr ⟨nonempty, isName ▸ prefix_rfl⟩)
      have shorter := inside.length_le
      rw [unmatched_of_inside inside]
      omega
    · rw [unmatched_of_outside inside notBegins]
      exact Nat.succ_pos _
  · intro other _
    rw [least]
    exact Nat.zero_le _

lemma belongsTo_of_begins
    (found : namespaceList.reverse.find? (·.beginsWith boxname) = some nspace) :
    BelongsTo namespaceList boxname (some nspace) ↔ nspace.IsMailbox boxname ∨
      nspace.mPrefix = boxname ∧ ∀ other ∈ namespaceList, ¬ other.IsMailbox boxname := by
  have member := mem_reverse.mp (mem_of_find?_eq_some found)
  have begins := beginsWith_iff.mp (find?_eq_some_iff_append.mp found).1
  constructor
  · rintro ⟨-, holds, longest⟩
    rcases holds with inside | isMailbox
    · have same := inside.eq_of_length (Nat.le_antisymm inside.length_le begins.2.length_le)
      refine .inr ⟨same, ?_⟩
      intro other isOther isMailbox
      have notLonger := longest other isOther (.inr isMailbox)
      rw [isMailbox.length, same] at notLonger
      exact absurd notLonger (Nat.not_succ_le_self _)
    · exact .inl isMailbox
  · rintro (isMailbox | ⟨same, noMailbox⟩)
    · refine ⟨member, .inr isMailbox, ?_⟩
      rintro other isOther (inside | isOtherMailbox)
      · rw [isMailbox.length]
        exact Nat.le_succ_of_le inside.length_le
      · rw [isMailbox.length, isOtherMailbox.length]
    · refine ⟨member, .inl (same ▸ prefix_rfl), ?_⟩
      rintro other isOther (inside | isOtherMailbox)
      · rw [same]
        exact inside.length_le
      · exact absurd isOtherMailbox (noMailbox other isOther)

/-- Where no prefix begins with the name, the longest prefix that the name begins with is found. -/
theorem belongsTo_of_not_begins
    (notBegins : ∀ nspace ∈ namespaceList, ¬ nspace.beginsWith boxname = true) :
    BelongsTo namespaceList boxname (longestMatch boxname namespaceList.reverse (-1) none) ↔
      (boxname = [] → ∀ other ∈ namespaceList, ¬ other.IsMailbox boxname) := by
  have isEmpty : ∀ other ∈ namespaceList, other.IsMailbox boxname → boxname = [] := by
    intro other isOther isMailbox
    by_contra nonempty
    exact notBegins other isOther (isMailbox.begins nonempty)
  have noMailbox (empty : boxname = [] → ∀ other ∈ namespaceList, ¬ other.IsMailbox boxname) :
      ∀ other ∈ namespaceList, ¬ other.IsMailbox boxname := fun other isOther isMailbox =>
    empty (isEmpty other isOther isMailbox) other isOther isMailbox
  have bound : (boxname.length - (-1 : Int)).toNat = boxname.length + 1 := by omega
  rw [longestMatch_eq _ (by omega), bound]
  rcases firstLeast_cases (unmatched boxname) namespaceList.reverse (boxname.length + 1) none with
    ⟨none_below, isNone⟩ | ⟨before, nspace, after, split, below, least, isSome⟩
  · rw [isNone]
    constructor
    · exact fun none_holds _ other isOther isMailbox => none_holds other isOther (.inr isMailbox)
    · rintro empty other isOther (inside | isMailbox)
      · have above := none_below other (mem_reverse.mpr isOther)
        rw [unmatched_of_inside inside] at above
        omega
      · exact noMailbox empty other isOther isMailbox
  · rw [isSome]
    have mem : nspace ∈ namespaceList := by
      rw [← mem_reverse, split]
      simp
    have inside : nspace.mPrefix <+: boxname := by
      by_contra outside
      rw [unmatched_of_outside outside (notBegins nspace mem)] at below
      exact absurd below (Nat.lt_irrefl _)
    constructor
    · rintro ⟨-, -, longest⟩ empty other isOther isMailbox
      have notLonger := longest other isOther (.inr isMailbox)
      have shorter := inside.length_le
      rw [isMailbox.length] at notLonger
      omega
    · intro empty
      refine ⟨mem, .inl inside, ?_⟩
      rintro other isOther (otherInside | isMailbox)
      · have notLess : unmatched boxname nspace ≤ unmatched boxname other := by
          have isItem : other ∈ before ++ nspace :: after := split ▸ mem_reverse.mpr isOther
          rcases mem_append.mp isItem with isBefore | later
          · exact Nat.le_of_lt (least.earlier other isBefore)
          · rcases mem_cons.mp later with rfl | isAfter
            · exact Nat.le_refl _
            · exact least.later other isAfter
        have shorter := inside.length_le
        have otherShorter := otherInside.length_le
        rw [unmatched_of_inside inside, unmatched_of_inside otherInside] at notLess
        omega
      · exact absurd isMailbox (noMailbox empty other isOther)

end

/-- A mailbox is assigned to its own namespace exactly if no prefix that begins with its name gets
in the way. -/
theorem getNamespaceForMailbox_iff (added : List ImapNamespace) (boxname : List UInt8)
    (notInbox : isInbox boxname = false) :
    BelongsTo (added.foldl addNewNamespace []) boxname
        (getNamespaceForMailbox (added.foldl addNewNamespace []) boxname) ↔
      NotOutbid (added.foldl addNewNamespace []) boxname := by
  generalize added.foldl addNewNamespace [] = namespaceList
  rw [getNamespaceForMailbox, notInbox, if_neg Bool.false_ne_true]
  cases found : namespaceList.reverse.find? (·.beginsWith boxname) with
  | none =>
    have notBegins : ∀ nspace ∈ namespaceList, ¬ nspace.beginsWith boxname = true := by
      intro nspace mem
      exact find?_eq_none.mp found nspace (mem_reverse.mpr mem)
    rw [belongsTo_of_not_begins notBegins, NotOutbid, found]
    exact (and_iff_left nofun).symm
  | some nspace =>
    have nonempty := (beginsWith_iff.mp (find?_eq_some_iff_append.mp found).1).1
    rw [longestMatch_of_begins found, belongsTo_of_begins found, NotOutbid, found]
    constructor
    · intro chosen
      refine ⟨fun empty => absurd empty nonempty, ?_⟩
      rintro _ ⟨⟩
      exact chosen
    · exact fun notOutbid => notOutbid.2 nspace rfl

/-- The namespaces with the prefixes `""` and `Public/`. -/
def personalAndPublic : List ImapNamespace :=
  [⟨.kPersonalNamespace, [], 0x2F, false⟩,
    ⟨.kPublicNamespace, [0x50, 0x75, 0x62, 0x6C, 0x69, 0x63, 0x2F], 0x2F, false⟩]

/-- The mailbox `Public`. -/
theorem getNamespaceForMailbox_public :
    BelongsTo (personalAndPublic.foldl addNewNamespace []) [0x50, 0x75, 0x62, 0x6C, 0x69, 0x63]
      (getNamespaceForMailbox (personalAndPublic.foldl addNewNamespace [])
        [0x50, 0x75, 0x62, 0x6C, 0x69, 0x63]) := by
  apply (getNamespaceForMailbox_iff personalAndPublic _ (by decide)).mpr
  refine ⟨fun empty => absurd empty (by decide), ?_⟩
  intro nspace found
  have isPublic : nspace =
      ⟨.kPublicNamespace, [0x50, 0x75, 0x62, 0x6C, 0x69, 0x63, 0x2F], 0x2F, false⟩ := by
    apply Option.some.inj
    rw [← found]
    decide
  exact .inl (isPublic ▸ rfl)

/-- The mailbox `Pub` is assigned to `Public/`, and is in the namespace with no prefix. -/
theorem getNamespaceForMailbox_pub :
    isInbox [0x50, 0x75, 0x62] = false ∧
      getNamespaceForMailbox (personalAndPublic.foldl addNewNamespace []) [0x50, 0x75, 0x62] =
        some ⟨.kPublicNamespace, [0x50, 0x75, 0x62, 0x6C, 0x69, 0x63, 0x2F], 0x2F, false⟩ ∧
      ¬ BelongsTo (personalAndPublic.foldl addNewNamespace []) [0x50, 0x75, 0x62]
        (getNamespaceForMailbox (personalAndPublic.foldl addNewNamespace [])
          [0x50, 0x75, 0x62]) := by
  have assigned :
      getNamespaceForMailbox (personalAndPublic.foldl addNewNamespace []) [0x50, 0x75, 0x62] =
        some ⟨.kPublicNamespace, [0x50, 0x75, 0x62, 0x6C, 0x69, 0x63, 0x2F], 0x2F, false⟩ := by
    decide
  refine ⟨by decide, assigned, ?_⟩
  rw [assigned]
  rintro ⟨-, inside | isMailbox, -⟩
  · exact absurd inside (by decide)
  · exact absurd isMailbox (by unfold ImapNamespace.IsMailbox; decide)

end CommCentral.Imap
