import CommCentral.Jsmime.HeaderLines

/-! The lines of a folded header: how long they are, how they go on, and what is left of the text
between its white space. -/
namespace CommCentral.Jsmime

open Lib List

section WhiteSpace

variable {text part : JsString}

lemma Blank.mono (blank : Blank text) (within : part ⊆ text) : Blank part :=
  fun c mem => blank c (within mem)

lemma trimRight_eq_nil_iff : trimRight text = [] ↔ Blank text := rdropWhile_eq_nil_iff

lemma exists_trimRight_append (text) : ∃ white, trimRight text ++ white = text ∧ Blank white :=
  ⟨text.rtakeWhile isWhiteSpace, rdropWhile_append_rtakeWhile,
    fun _ mem => mem_rtakeWhile_imp mem⟩

lemma trimRight_append_blank (text) (blank : Blank white) :
    trimRight (text ++ white) = trimRight text := by
  induction white using List.reverseRecOn with
  | nil => rw [append_nil]
  | append_singleton white c ih =>
    have isWhite : isWhiteSpace c := blank c (mem_append_right _ (mem_singleton_self c))
    rw [← append_assoc, trimRight, rdropWhile_concat_pos _ _ _ isWhite]
    exact ih (blank.mono (subset_append_left _ _))

/-- Only white space stands beyond an index. -/
theorem length_trimRight_le (blank : Blank (text.drop index)) :
    (trimRight text).length ≤ index := by
  have trimmed : trimRight text = trimRight (text.take index) := by
    rw [← trimRight_append_blank (text.take index) blank, take_append_drop]
  rw [trimmed]
  exact ( rdropWhile_prefix isWhiteSpace _).length_le.trans (length_take_le index text)

lemma blank_drop_continuation {index count : Nat} (some : 0 < count)
    (blank : Blank (text.drop index)) :
    Blank ((0x20 :: trimLeft (text.drop count)).drop index) := by
  have suffix_ : trimLeft (text.drop count) <:+ text.drop count := dropWhile_suffix _
  cases index with
  | zero =>
    intro c mem
    rcases mem_cons.mp mem with rfl | later
    · rfl
    · exact blank c (mem_of_mem_drop (suffix_.subset later))
  | succ index =>
    apply blank.mono
    intro c mem
    have within : c ∈ (text.drop count).drop index := by
      obtain ⟨white, split⟩ := suffix_
      rw [← split, drop_append]
      exact mem_append_right _ (drop_subset_drop_left _ (Nat.sub_le _ _) mem)
    rw [drop_drop] at within
    exact drop_subset_drop_left text (by omega) within

def solid (text : JsString) : JsString := text.filter fun c => !isWhiteSpace c

lemma solid_append (text later) : solid (text ++ later) = solid text ++ solid later :=
  filter_append ..

lemma solid_blank (blank : Blank text) : solid text = [] := by
  rw [solid, filter_eq_nil_iff]
  intro c mem
  rw [blank c mem]
  exact Bool.false_ne_true

lemma solid_trimRight (text) : solid (trimRight text) = solid text := by
  obtain ⟨white, split, blank⟩ := exists_trimRight_append text
  rw [← congrArg solid split, solid_append, solid_blank blank, append_nil]

lemma solid_trimLeft (text) : solid (trimLeft text) = solid text := by
  have split : text.takeWhile isWhiteSpace ++ trimLeft text = text := takeWhile_append_dropWhile
  have blank : Blank (text.takeWhile isWhiteSpace) := fun _ mem => mem_takeWhile_imp mem
  rw [← congrArg solid split, solid_append, solid_blank blank, nil_append]

end WhiteSpace

lemma splitLines_length_le (text) : ∀ line ∈ splitLines text, line.length ≤ text.length := by
  fun_induction splitLines text with
  | case1 | case2 c =>
    intro line mem
    rw [mem_singleton.mp mem]
  | case3 c d rest lineBreak ih =>
    intro line mem
    rcases mem_cons.mp mem with rfl | later
    · exact Nat.zero_le _
    · exact (ih line later).trans (by simp only [length_cons]; omega)
  | case4 c d rest other ih =>
    intro line mem
    cases pieces : splitLines (d :: rest) with
    | nil => exact absurd pieces (splitLines_ne_nil _)
    | cons first others =>
      rw [pieces] at ih mem
      rcases mem_cons.mp mem with rfl | later
      · exact Nat.succ_le_succ (ih first mem_cons_self)
      · exact (ih line (mem_cons_of_mem _ later)).trans (Nat.le_succ _)

lemma splitLines_head (noBreak : c ≠ 0x0D) :
    ∃ first others, splitLines (c :: rest) = (c :: first) :: others := by
  cases rest with
  | nil => exact ⟨[], [], rfl⟩
  | cons d rest =>
    rw [splitLines, if_neg fun lineBreak => noBreak lineBreak.1]
    cases pieces : splitLines (d :: rest) with
    | nil => exact absurd pieces (splitLines_ne_nil _)
    | cons first others => exact ⟨first, others, rfl⟩

/-- The lines of the output for some lines that are delivered, which may have line breaks of their
own. -/
def outputLines (delivered : List JsString) : List JsString := delivered.flatMap splitLines

/-- Every line is short enough, and every line but the first begins with a space. -/
structure WellFolded (hardMargin : Nat) (delivered : List JsString) : Prop where
  bounded : ∀ line ∈ outputLines delivered, line.length ≤ hardMargin
  continued : ∀ line ∈ (outputLines delivered).tail, line.head? = some 0x20

instance (hardMargin : Nat) (delivered : List JsString) :
    Decidable (WellFolded hardMargin delivered) :=
  decidable_of_iff ((∀ line ∈ outputLines delivered, line.length ≤ hardMargin) ∧
      ∀ line ∈ (outputLines delivered).tail, line.head? = some 0x20)
    ⟨fun ⟨bounded, continued⟩ => ⟨bounded, continued⟩, fun ⟨bounded, continued⟩ => ⟨bounded, continued⟩⟩

/-- A part of the current line that may go out: a continuation is not white space alone, line breaks
of the texts are followed by a space, and where the hard margin is smaller than the soft one no line
is longer than that. -/
structure Fits (settings : Settings) (continuing : Prop) (part : JsString) : Prop where
  notBlank : continuing → ¬ Blank part
  folded : ∀ line ∈ (splitLines (trimRight part)).tail, line.head? = some 0x20
  short : settings.hardMargin < settings.softMargin →
    ∀ line ∈ splitLines (trimRight part), line.length ≤ settings.hardMargin

instance (settings : Settings) (continuing : Prop) [Decidable continuing] (part : JsString) :
    Decidable (Fits settings continuing part) :=
  decidable_of_iff ((continuing → ¬ Blank part) ∧
      (∀ line ∈ (splitLines (trimRight part)).tail, line.head? = some 0x20) ∧
      (settings.hardMargin < settings.softMargin →
        ∀ line ∈ splitLines (trimRight part), line.length ≤ settings.hardMargin))
    ⟨fun ⟨notBlank, folded, short⟩ => ⟨notBlank, folded, short⟩,
      fun ⟨notBlank, folded, short⟩ => ⟨notBlank, folded, short⟩⟩

variable {delivered : List JsString}

lemma wellFolded_nil (hardMargin : Nat) : WellFolded hardMargin [] := ⟨nofun, nofun⟩

lemma outputLines_concat (delivered) (line) :
    outputLines (delivered ++ [line]) = outputLines delivered ++ splitLines line := by
  rw [outputLines, flatMap_append, flatMap_singleton, outputLines]

lemma outputLines_ne_nil (some : delivered ≠ []) : outputLines delivered ≠ [] := by
  obtain ⟨line, lines, rfl⟩ := exists_cons_of_ne_nil some
  rw [outputLines, flatMap_cons]
  exact append_ne_nil_of_left_ne_nil (splitLines_ne_nil line) _

lemma continuation_iff (space : part.head? = some 0x20) :
    (∀ line ∈ splitLines (trimRight part), line.head? = some 0x20) ↔
      ¬ Blank part ∧ ∀ line ∈ (splitLines (trimRight part)).tail, line.head? = some 0x20 := by
  constructor
  · intro all
    constructor
    · intro blank
      rw [trimRight_eq_nil_iff.mpr blank] at all
      exact absurd (all [] (mem_singleton_self _)) (Option.some_ne_none _).symm
    · intro line mem
      exact all line (mem_of_mem_tail mem)
  · rintro ⟨notBlank, later⟩
    have nonempty : trimRight part ≠ [] := fun empty => notBlank (trimRight_eq_nil_iff.mp empty)
    obtain ⟨c, rest, isTrimmed⟩ := exists_cons_of_ne_nil nonempty
    obtain ⟨white, split, -⟩ := exists_trimRight_append part
    rw [isTrimmed] at split
    have isSpace : c = 0x20 := by
      rw [← split] at space
      exact Option.some.inj space
    subst isSpace
    rw [isTrimmed] at later ⊢
    obtain ⟨first, others, pieces⟩ := @splitLines_head 0x20 rest (by decide)
    rw [pieces] at later ⊢
    intro line mem
    rcases mem_cons.mp mem with rfl | isLater
    · rfl
    · exact later line isLater

lemma wellFolded_concat_iff (space : delivered ≠ [] → part.head? = some 0x20)
    (within : Blank (part.drop (max settings.softMargin settings.hardMargin))) :
    WellFolded settings.hardMargin (delivered ++ [trimRight part]) ↔
      WellFolded settings.hardMargin delivered ∧ Fits settings (delivered ≠ []) part := by
  have isShort : ¬ settings.hardMargin < settings.softMargin →
      ∀ line ∈ splitLines (trimRight part), line.length ≤ settings.hardMargin := by
    intro ordered line mem
    rw [max_eq_right (Nat.not_lt.mp ordered)] at within
    exact (splitLines_length_le _ line mem).trans (length_trimRight_le within)
  have goesOn : (∀ line ∈ (outputLines (delivered ++ [trimRight part])).tail,
        line.head? = some 0x20) ↔
      (∀ line ∈ (outputLines delivered).tail, line.head? = some 0x20) ∧
        (delivered ≠ [] → ¬ Blank part) ∧
          ∀ line ∈ (splitLines (trimRight part)).tail, line.head? = some 0x20 := by
    rw [outputLines_concat]
    by_cases first : delivered = []
    · rw [first]
      exact ⟨fun later => ⟨nofun,
        fun some => absurd rfl some, later⟩, fun all => all.2.2⟩
    · rw [tail_append_of_ne_nil (outputLines_ne_nil first), forall_mem_append,
        continuation_iff (space first)]
      apply and_congr_right
      intro _
      apply and_congr_left
      intro _
      exact ⟨fun notBlank _ => notBlank, fun all => all first⟩
  constructor
  · rintro ⟨bounded, continued⟩
    rw [outputLines_concat, forall_mem_append] at bounded
    obtain ⟨before, notBlank, folded⟩ := goesOn.mp continued
    exact ⟨⟨bounded.1, before⟩, notBlank, folded, fun _ => bounded.2⟩
  · rintro ⟨⟨bounded, before⟩, notBlank, folded, short⟩
    constructor
    · rw [outputLines_concat, forall_mem_append]
      refine ⟨bounded, ?_⟩
      by_cases crossed : settings.hardMargin < settings.softMargin
      · exact short crossed
      · exact isShort crossed
    · exact goesOn.mpr ⟨before, notBlank, folded⟩

end CommCentral.Jsmime
