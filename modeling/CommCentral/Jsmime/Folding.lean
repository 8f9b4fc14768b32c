import CommCentral.Jsmime.FoldedHeader
import CommCentral.Lib.Run

/-! Headers that are built by `addHeaderName` and `addText`: their lines, and when these are well
folded. -/
namespace CommCentral.Jsmime

open Lib List

inductive FoldCall where
  | addHeaderName (name : JsString)
  | addText (text : JsString) (mayBreakAfter : Bool)

def FoldCall.text : FoldCall → JsString
  | .addHeaderName name => name ++ js ": "
  | .addText text _ => text

/-- The line before a header name is put on it, as `addHeaderName` ends it. -/
def Emitter.endHeader (emitter : Emitter) : Emitter :=
  let trimmed := { emitter with currentLine := trimRight emitter.currentLine }
  if 0 < trimmed.currentLine.length then trimmed.commitLast else trimmed

/-- The emitter and the lines of the headers that have ended. The latter are no part of the
program: they are kept to speak about its output. -/
structure Folding where
  emitter : Emitter := {}
  ended : List (List JsString) := []

namespace Folding

def withEmitter (folding : Folding) (emitter : Emitter) : Folding :=
  { folding with emitter := emitter }

/-- The lines of the header that is built. -/
def delivered (folding : Folding) : List JsString :=
  folding.emitter.delivered.drop folding.ended.flatten.length

def ends (folding : Folding) (emitter : Emitter) : Folding :=
  ⟨emitter, folding.ended ++ [emitter.delivered.drop folding.ended.flatten.length]⟩

def newHeader (folding : Folding) : Folding := folding.ends folding.emitter.endHeader

def finish (folding : Folding) : Folding := folding.ends folding.emitter.commitLast

end Folding

variable (settings : Settings)

/-- A call, unless it throws. -/
def foldCall (folding : Folding) : FoldCall → Option Folding
  | .addHeaderName name =>
    match addHeaderName settings name folding.emitter with
    | (.ok _, emitter) => some (folding.newHeader.withEmitter emitter)
    | (.error _, _) => none
  | .addText text mayBreakAfter =>
    match addText settings text mayBreakAfter folding.emitter with
    | (.ok _, emitter) => some (folding.withEmitter emitter)
    | (.error _, _) => none

lemma foldCall_addHeaderName (folding) (name) :
    foldCall settings folding (.addHeaderName name) =
      foldCall settings folding.newHeader (.addText (name ++ js ": ") false) :=
  rfl

/-- The lines that go out to make space for a text fit. -/
def Folding.FitsText (folding : Folding) (length : Nat) : Prop :=
  settings.softMargin < folding.emitter.currentLine.length + length →
    (0 < folding.emitter.preferredBreakpoint →
      Fits settings (folding.delivered ≠ [])
        (folding.emitter.currentLine.take folding.emitter.preferredBreakpoint)) ∧
    ((folding.emitter.reservation length).Overflows settings →
      Fits settings (folding.delivered ≠ [] ∨ 0 < folding.emitter.preferredBreakpoint)
        (folding.emitter.reservation length).remaining)

/-- The last line of a header fits. -/
def Folding.FitsEnd (folding : Folding) : Prop :=
  Fits settings (folding.delivered ≠ []) folding.emitter.currentLine

/-- The lines that go out in a call fit. A blank line does not go out before a header name. -/
def FitsCall (folding : Folding) : FoldCall → Prop
  | .addHeaderName name =>
    (¬ Blank folding.emitter.currentLine → folding.FitsEnd settings) ∧
      folding.newHeader.FitsText settings (name ++ js ": ").length
  | .addText text _ => folding.FitsText settings text.length

instance (folding : Folding) (length : Nat) : Decidable (folding.FitsText settings length) :=
  inferInstanceAs (Decidable (_ → _))

instance (folding : Folding) : Decidable (folding.FitsEnd settings) :=
  inferInstanceAs (Decidable (Fits _ _ _))

instance (folding : Folding) : (call : FoldCall) → Decidable (FitsCall settings folding call)
  | .addHeaderName _ => inferInstanceAs (Decidable (_ ∧ _))
  | .addText _ _ => inferInstanceAs (Decidable (Folding.FitsText _ _ _))

/-- The headers that have ended and the lines so far are well folded. -/
structure Folding.Well (folding : Folding) : Prop where
  ended : ∀ lines ∈ folding.ended, WellFolded settings.hardMargin lines
  delivered : WellFolded settings.hardMargin folding.delivered

structure Folding.Kept (folding : Folding) : Prop where
  ended : folding.ended.flatten <+: folding.emitter.delivered
  space : folding.delivered ≠ [] → folding.emitter.currentLine.head? = some 0x20
  within : Blank (folding.emitter.currentLine.drop (max settings.softMargin settings.hardMargin))

variable {settings} {folding : Folding}

section

variable (kept : folding.Kept settings)
include kept

lemma Folding.Kept.delivered_concat {emitter : Emitter} {line : JsString}
    (commits : emitter.delivered = folding.emitter.delivered ++ [line]) :
    (folding.withEmitter emitter).delivered = folding.delivered ++ [line] := by
  rw [Folding.delivered, Folding.delivered, Folding.withEmitter, commits]
  exact drop_append_of_le_length kept.ended.length_le

/-- A line that goes out is judged by the text it is trimmed from. -/
theorem Folding.Kept.well_concat {emitter : Emitter} {line : JsString}
    (commits : emitter.delivered = folding.emitter.delivered ++ [trimRight line])
    (space : folding.delivered ≠ [] → line.head? = some 0x20)
    (within : Blank (line.drop (max settings.softMargin settings.hardMargin))) :
    (folding.withEmitter emitter).Well settings ↔
      folding.Well settings ∧ Fits settings (folding.delivered ≠ []) line := by
  have lines := kept.delivered_concat commits
  have one := wellFolded_concat_iff space within
  constructor
  · rintro ⟨ended, delivered⟩
    rw [lines] at delivered
    obtain ⟨before, fits⟩ := one.mp delivered
    exact ⟨⟨ended, before⟩, fits⟩
  · rintro ⟨⟨ended, delivered⟩, fits⟩
    refine ⟨ended, ?_⟩
    rw [lines]
    exact one.mpr ⟨delivered, fits⟩

lemma Folding.Kept.commitLine {count : Nat} (some : 0 < count) :
    (folding.withEmitter (folding.emitter.commitLine count)).Kept settings ∧
      (folding.withEmitter (folding.emitter.commitLine count)).delivered ≠ [] ∧
      ((folding.withEmitter (folding.emitter.commitLine count)).Well settings ↔
        folding.Well settings ∧
          Fits settings (folding.delivered ≠ []) (folding.emitter.currentLine.take count)) := by
  have lines : (folding.withEmitter (folding.emitter.commitLine count)).delivered =
      folding.delivered ++ [trimRight (folding.emitter.currentLine.take count)] :=
    kept.delivered_concat rfl
  refine ⟨⟨?_, ?_, ?_⟩, ?_, ?_⟩
  · exact kept.ended.trans (prefix_append _ _)
  · intro _
    rfl
  · exact blank_drop_continuation some kept.within
  · rw [lines]
    exact append_ne_nil_of_right_ne_nil _ (cons_ne_nil _ _)
  · have space : folding.delivered ≠ [] →
        (folding.emitter.currentLine.take count).head? = Option.some 0x20 := by
      intro continuing
      rw [head?_take, if_neg some.ne']
      exact kept.space continuing
    have within : Blank ((folding.emitter.currentLine.take count).drop
        (max settings.softMargin settings.hardMargin)) := by
      rw [drop_take]
      exact kept.within.mono (take_subset _ _)
    exact kept.well_concat rfl space within

lemma Folding.Kept.breakPreferred :
    (folding.withEmitter folding.emitter.breakPreferred).Kept settings ∧
      ((folding.withEmitter folding.emitter.breakPreferred).delivered ≠ [] ↔
        folding.delivered ≠ [] ∨ 0 < folding.emitter.preferredBreakpoint) ∧
      ((folding.withEmitter folding.emitter.breakPreferred).Well settings ↔ folding.Well settings ∧
        (0 < folding.emitter.preferredBreakpoint → Fits settings (folding.delivered ≠ [])
          (folding.emitter.currentLine.take folding.emitter.preferredBreakpoint))) := by
  rw [Emitter.breakPreferred]
  by_cases breakable : 0 < folding.emitter.preferredBreakpoint
  · rw [if_pos breakable]
    obtain ⟨committed, continuing, well⟩ := kept.commitLine breakable
    refine ⟨committed, ⟨fun _ => .inr breakable, fun _ => continuing⟩, well.trans ?_⟩
    exact and_congr_right fun _ => ⟨fun fits _ => fits, fun fits => fits breakable⟩
  · rw [if_neg breakable]
    refine ⟨kept, (or_iff_left breakable).symm, ?_⟩
    exact (and_iff_left fun isBreakable => absurd isBreakable breakable).symm

lemma Folding.Kept.reserve (length : Nat) :
    (folding.withEmitter (folding.emitter.reserve settings length).2).Kept settings ∧
      ((folding.withEmitter (folding.emitter.reserve settings length).2).Well settings ↔
        folding.Well settings ∧ folding.FitsText settings length) := by
  rw [reserve_emitter, Folding.FitsText]
  by_cases long : settings.softMargin < folding.emitter.currentLine.length + length
  · rw [if_pos long, forall_prop_of_true long]
    obtain ⟨broken, continuing, well⟩ := kept.breakPreferred
    have line := breakPreferred_currentLine folding.emitter length
    by_cases overflows : (folding.emitter.reservation length).Overflows settings
    · rw [if_pos overflows, Emitter.breakEmergency, line, if_pos overflows.1,
        forall_prop_of_true overflows]
      obtain ⟨committed, -, committedWell⟩ := broken.commitLine overflows.1
      refine ⟨committed, committedWell.trans ?_⟩
      have whole : (folding.withEmitter folding.emitter.breakPreferred).emitter.currentLine.take
          (folding.emitter.reservation length).remaining.length =
            (folding.emitter.reservation length).remaining := by
        rw [← line]
        exact take_length
      rw [well, whole, continuing, and_assoc]
    · rw [if_neg overflows]
      refine ⟨broken, well.trans ?_⟩
      apply and_congr_right
      intro _
      exact (and_iff_left fun isOverflow => absurd isOverflow overflows).symm
  · rw [if_neg long]
    exact ⟨kept, (and_iff_left fun isLong => absurd isLong long).symm⟩

end

variable {emitter : Emitter}

lemma reserve_within {length : Nat}
    (enough : (emitter.reserve settings length).1 = true) :
    (emitter.reserve settings length).2.currentLine.length + length ≤
      max settings.softMargin settings.hardMargin := by
  rw [Emitter.reserve] at enough ⊢
  split
  · rename_i soft
    exact soft.trans (le_max_left _ _)
  · rename_i notSoft
    rw [if_neg notSoft] at enough
    dsimp only at enough ⊢
    split
    · rename_i soft
      exact soft.2.trans (le_max_left _ _)
    · rename_i stillNotSoft
      rw [if_neg stillNotSoft] at enough
      split
      · rename_i hard
        exact hard.trans (le_max_right _ _)
      · rename_i notHard
        rw [if_neg notHard] at enough
        exact (of_decide_eq_true enough).trans (le_max_right _ _)

lemma append_currentLine (emitter : Emitter) (text : JsString) (mayBreakAfter : Bool) :
    ∃ white, Blank white ∧
      (emitter.append text mayBreakAfter).currentLine = emitter.currentLine ++ text ++ white := by
  have nothing : Blank [] := nofun
  cases mayBreakAfter with
  | false => exact ⟨[], nothing, (append_nil _).symm⟩
  | true =>
    by_cases space : text.getLast? = some 0x20
    · refine ⟨[], nothing, ?_⟩
      rw [append_nil]
      exact if_pos space
    · exact ⟨js " ", by decide, if_neg space⟩

lemma append_delivered (emitter : Emitter) (text : JsString) (mayBreakAfter : Bool) :
    (emitter.append text mayBreakAfter).delivered = emitter.delivered := by
  cases mayBreakAfter <;> rfl

lemma Folding.Kept.append (kept : folding.Kept settings) {text : JsString}
    (within : folding.emitter.currentLine.length + text.length ≤
      max settings.softMargin settings.hardMargin) (mayBreakAfter : Bool) :
    (folding.withEmitter (folding.emitter.append text mayBreakAfter)).Kept settings := by
  obtain ⟨white, blank, line⟩ := append_currentLine folding.emitter text mayBreakAfter
  have delivered := append_delivered folding.emitter text mayBreakAfter
  have same : (folding.withEmitter (folding.emitter.append text mayBreakAfter)).delivered =
      folding.delivered := congrArg (List.drop _) delivered
  constructor
  · exact delivered.symm ▸ kept.ended
  · rw [same]
    intro continuing
    refine (congrArg List.head? line).trans ?_
    rw [append_assoc, head?_append, kept.space continuing]
    rfl
  · have raw : (folding.emitter.currentLine ++ text).length ≤
        max settings.softMargin settings.hardMargin := by
      rw [length_append]
      exact within
    change Blank ((folding.emitter.append text mayBreakAfter).currentLine.drop _)
    rw [line, drop_append, drop_eq_nil_of_le raw, nil_append]
    exact blank.mono (drop_subset _ _)

lemma addText_ok {emitter last : Emitter} {text : JsString}
    (added : addText settings text mayBreakAfter emitter = (.ok (), last)) :
    (emitter.reserve settings text.length).1 = true ∧ ∃ reservations,
      last = Emitter.append
        { (emitter.reserve settings text.length).2 with reservations := reservations }
        text mayBreakAfter := by
  obtain ⟨enough, later, reserved, rest⟩ := Attempt.bind_ok added
  have isEnough : (emitter.reserve settings text.length).1 = enough :=
    Except.ok.inj (Prod.mk.inj reserved).1
  have isLater : { (emitter.reserve settings text.length).2 with
      reservations := emitter.reservations ++ [emitter.reservation text.length] } = later :=
    (Prod.mk.inj reserved).2
  cases holds : enough with
  | true =>
    rw [holds, if_pos rfl] at rest
    refine ⟨isEnough.trans holds, emitter.reservations ++ [emitter.reservation text.length], ?_⟩
    rw [isLater]
    exact (Prod.mk.inj rest).2.symm
  | false =>
    rw [holds, if_neg Bool.false_ne_true] at rest
    cases (Prod.mk.inj rest).1

lemma Folding.well_withEmitter (folding : Folding) (same : emitter.delivered = other.delivered) :
    (folding.withEmitter emitter).Well settings ↔ (folding.withEmitter other).Well settings := by
  have lines : (folding.withEmitter emitter).delivered = (folding.withEmitter other).delivered :=
    congrArg (List.drop _) same
  constructor
  · rintro ⟨ended, delivered⟩
    exact ⟨ended, lines ▸ delivered⟩
  · rintro ⟨ended, delivered⟩
    exact ⟨ended, lines ▸ delivered⟩

lemma Folding.Kept.addText (kept : folding.Kept settings) {text : JsString} {after : Folding}
    (called : foldCall settings folding (.addText text mayBreakAfter) = some after) :
    after.Kept settings ∧
      (after.Well settings ↔ folding.Well settings ∧ folding.FitsText settings text.length) := by
  rw [foldCall] at called
  split at called
  · rename_i emitter added
    cases called
    obtain ⟨enough, reservations, rfl⟩ := addText_ok added
    obtain ⟨reserved, well⟩ := kept.reserve text.length
    have recorded : (folding.withEmitter { (folding.emitter.reserve settings text.length).2 with
        reservations := reservations }).Kept settings := { reserved with }
    refine ⟨recorded.append (reserve_within enough) mayBreakAfter, Iff.trans ?_ well⟩
    exact folding.well_withEmitter (append_delivered _ text mayBreakAfter)
  · cases called

lemma Folding.ends_spec (folding : Folding)
    (goesOn : folding.ended.flatten <+: emitter.delivered) :
    (folding.ends emitter).ended.flatten = emitter.delivered ∧
      (folding.ends emitter).delivered = [] := by
  have all : (folding.ends emitter).ended.flatten = emitter.delivered := by
    obtain ⟨lines, split⟩ := goesOn
    rw [Folding.ends, flatten_append, flatten_singleton, ← split, drop_left]
  refine ⟨all, ?_⟩
  rw [Folding.delivered, all]
  exact drop_length

lemma Folding.well_ends (folding : Folding)
    (goesOn : folding.ended.flatten <+: emitter.delivered) :
    (folding.ends emitter).Well settings ↔ (folding.withEmitter emitter).Well settings := by
  constructor
  · rintro ⟨ended, -⟩
    obtain ⟨before, last⟩ := forall_mem_append.mp ended
    exact ⟨before, last _ (mem_singleton_self _)⟩
  · rintro ⟨ended, delivered⟩
    constructor
    · intro lines mem
      rcases mem_append.mp mem with before | last
      · exact ended lines before
      · rw [mem_singleton.mp last]
        exact delivered
    · rw [(folding.ends_spec goesOn).2]
      exact wellFolded_nil _

lemma Folding.Kept.commitWhole (kept : folding.Kept settings) (commits : emitter.delivered =
      folding.emitter.delivered ++ [trimRight folding.emitter.currentLine]) :
    (folding.withEmitter emitter).Well settings ↔
      folding.Well settings ∧ folding.FitsEnd settings :=
  kept.well_concat commits kept.space kept.within

lemma endHeader_blank (blank : Blank emitter.currentLine) :
    emitter.endHeader = { emitter with currentLine := [] } := by
  rw [Emitter.endHeader, trimRight_eq_nil_iff.mpr blank]
  rfl

lemma endHeader_text (text : ¬ Blank emitter.currentLine) :
    emitter.endHeader = emitter.commitLast := by
  have nonempty : trimRight emitter.currentLine ≠ [] := mt trimRight_eq_nil_iff.mp text
  have again : trimRight (trimRight emitter.currentLine) = trimRight emitter.currentLine :=
    rdropWhile_idempotent isWhiteSpace _
  rw [Emitter.endHeader, Emitter.commitLast]
  dsimp only
  rw [if_pos (length_pos_iff.mpr nonempty), Emitter.commitLast, again]

lemma Folding.Kept.newHeader (kept : folding.Kept settings) :
    folding.newHeader.Kept settings ∧ (folding.newHeader.Well settings ↔ folding.Well settings ∧
      (¬ Blank folding.emitter.currentLine → folding.FitsEnd settings)) := by
  have started : ∀ emitter : Emitter, emitter.currentLine = [] →
      folding.ended.flatten <+: emitter.delivered → (folding.ends emitter).Kept settings := by
    intro emitter empty goesOn
    obtain ⟨all, nothing⟩ := folding.ends_spec goesOn
    constructor
    · rw [all]
      exact prefix_rfl
    · intro continuing
      exact absurd nothing continuing
    · change Blank (emitter.currentLine.drop _)
      rw [empty, drop_nil]
      exact nofun
  rw [Folding.newHeader]
  by_cases blank : Blank folding.emitter.currentLine
  · have goesOn : folding.ended.flatten <+:
        ({ folding.emitter with currentLine := [] } : Emitter).delivered := kept.ended
    have same : (folding.withEmitter { folding.emitter with currentLine := [] }).Well settings ↔
        folding.Well settings := folding.well_withEmitter rfl
    rw [endHeader_blank blank]
    refine ⟨started _ rfl goesOn, (folding.well_ends goesOn).trans (same.trans ?_)⟩
    exact (and_iff_left fun notBlank => absurd blank notBlank).symm
  · have goesOn : folding.ended.flatten <+: folding.emitter.commitLast.delivered :=
      kept.ended.trans (prefix_append _ _)
    rw [endHeader_text blank, forall_prop_of_true blank]
    exact ⟨started _ rfl goesOn, (folding.well_ends goesOn).trans (kept.commitWhole rfl)⟩

lemma Folding.Kept.call (kept : folding.Kept settings) {after : Folding}
    (called : foldCall settings folding step = some after) :
    after.Kept settings ∧
      (after.Well settings ↔ folding.Well settings ∧ FitsCall settings folding step) := by
  cases step with
  | addHeaderName name =>
    rw [foldCall_addHeaderName] at called
    obtain ⟨started, well⟩ := kept.newHeader
    obtain ⟨added, addedWell⟩ := started.addText called
    refine ⟨added, addedWell.trans ?_⟩
    rw [well, and_assoc]
    rfl
  | addText text mayBreakAfter => exact kept.addText called

/-- What an emitter has put out or on its line, without white space. -/
def Emitter.content (emitter : Emitter) : JsString :=
  solid (emitter.delivered.flatten ++ emitter.currentLine)

variable (emitter : Emitter)

lemma content_commitLine (count : Nat) : (emitter.commitLine count).content = emitter.content := by
  have continuation : solid (0x20 :: trimLeft (emitter.currentLine.drop count)) =
      solid (emitter.currentLine.drop count) := solid_trimLeft _
  rw [Emitter.content, Emitter.content, Emitter.commitLine]
  dsimp only
  rw [flatten_append, flatten_singleton, solid_append, solid_append, solid_trimRight,
    continuation, append_assoc, ← solid_append, take_append_drop, ← solid_append]

lemma content_breakPreferred : emitter.breakPreferred.content = emitter.content := by
  rw [Emitter.breakPreferred]
  split
  · exact content_commitLine emitter _
  · rfl

lemma content_breakEmergency : emitter.breakEmergency.content = emitter.content := by
  rw [Emitter.breakEmergency]
  split
  · exact content_commitLine emitter _
  · rfl

lemma content_reserve (length : Nat) :
    (emitter.reserve settings length).2.content = emitter.content := by
  rw [reserve_emitter]
  split
  · split
    · rw [content_breakEmergency, content_breakPreferred]
    · exact content_breakPreferred emitter
  · rfl

lemma content_append (text : JsString) (mayBreakAfter : Bool) :
    (emitter.append text mayBreakAfter).content = emitter.content ++ solid text := by
  obtain ⟨white, blank, line⟩ := append_currentLine emitter text mayBreakAfter
  rw [Emitter.content, append_delivered, line, Emitter.content, solid_append, solid_append,
    solid_append, solid_append, solid_blank blank, append_nil, append_assoc]

lemma content_commitLast : emitter.commitLast.content = emitter.content := by
  rw [Emitter.content, Emitter.content, Emitter.commitLast]
  dsimp only
  rw [flatten_append, flatten_singleton, append_nil, solid_append, solid_append,
    solid_trimRight]

lemma content_endHeader : emitter.endHeader.content = emitter.content := by
  by_cases blank : Blank emitter.currentLine
  · rw [endHeader_blank blank, Emitter.content, Emitter.content, solid_append, solid_append,
      solid_blank blank]
    rfl
  · rw [endHeader_text blank, content_commitLast]

lemma foldCall_content {folding after : Folding}
    (called : foldCall settings folding step = some after) :
    after.emitter.content = folding.emitter.content ++ solid step.text := by
  have added : ∀ (folding : Folding) text mayBreakAfter,
      foldCall settings folding (.addText text mayBreakAfter) = some after →
        after.emitter.content = folding.emitter.content ++ solid text := by
    intro folding text mayBreakAfter called
    rw [foldCall] at called
    split at called
    · rename_i emitter added
      cases called
      obtain ⟨-, reservations, rfl⟩ := addText_ok added
      refine (content_append _ text mayBreakAfter).trans ?_
      exact congrArg (· ++ solid text) (content_reserve folding.emitter text.length)
    · cases called
  cases step with
  | addHeaderName name =>
    rw [foldCall_addHeaderName] at called
    rw [added _ _ _ called]
    exact congrArg (· ++ _) (content_endHeader folding.emitter)
  | addText text mayBreakAfter => exact added folding text mayBreakAfter called

lemma run_content {folding last : Folding}
    (ran : runSome (foldCall settings) folding calls = some last) :
    last.emitter.content = folding.emitter.content ++ solid (calls.flatMap FoldCall.text) := by
  induction calls generalizing folding with
  | nil =>
    cases ran
    exact (append_nil _).symm
  | cons step calls ih =>
    obtain ⟨after, called, ran⟩ := Option.bind_eq_some_iff.mp ran
    rw [ih ran, foldCall_content called, flatMap_cons, solid_append, append_assoc]

lemma solid_value : solid emitter.value = solid emitter.delivered.flatten := by
  rw [Emitter.value]
  induction emitter.delivered with
  | nil => rfl
  | cons line lines ih =>
    rw [map_cons, flatten_cons, flatten_cons, solid_append, solid_append, ih,
      solid_append, append_assoc]
    rfl

lemma kept_start : ({} : Folding).Kept settings := by
  constructor
  · exact prefix_rfl
  · intro continuing
    exact absurd rfl continuing
  · intro c mem
    exact absurd (mem_of_mem_drop mem) not_mem_nil

lemma well_start : ({} : Folding).Well settings := ⟨nofun, wellFolded_nil _⟩

/-- The headers that some calls and `finish` put out, and whether they are well folded. -/
def foldHeaders (options : EmitterOptions) (calls : List FoldCall) :
    Option (List (List JsString) × Bool) :=
  (runSome (foldCall options.settings) {} calls).map fun last =>
    (last.finish.ended,
      decide (∀ header ∈ last.finish.ended, WellFolded options.settings.hardMargin header))

def narrow : EmitterOptions := { softMargin := some 30, hardMargin := some 30 }

/-- Two headers, of which the first goes on in two more lines. -/
def twoHeaders : List FoldCall :=
  [.addHeaderName (js "To"), .addText (js "someone@example.invalid,") true,
    .addText (js "someone.else.again@") false, .addText (js "example.invalid") false,
    .addHeaderName (js "Subject"), .addText (js "Test") true]

lemma twoHeaders_added : (runSome (foldCall narrow.settings) {} twoHeaders).isSome := by
  decide +kernel

end CommCentral.Jsmime
