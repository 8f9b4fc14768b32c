import CommCentral.Jsmime.StructuredHeader

/-! The lines of an emitted header: which reservations of space put out a blank one. -/
namespace CommCentral.Jsmime

open Lib List

/-- What is left of the line after a break at the preferred breakpoint. -/
def Reservation.remaining (reservation : Reservation) : JsString :=
  if 0 < reservation.preferredBreakpoint then
    0x20 :: trimLeft (reservation.currentLine.drop reservation.preferredBreakpoint)
  else reservation.currentLine

/-- The space does not fit on the remaining line, so all of it goes out. -/
def Reservation.Overflows (reservation : Reservation) (settings : Settings) : Prop :=
  0 < reservation.remaining.length ∧
    settings.softMargin < reservation.remaining.length + reservation.length ∧
    settings.hardMargin < reservation.remaining.length + reservation.length

/-- A line too long for the soft margin has no blank line before its preferred breakpoint,
and none after it if the space does not fit there either. -/
def Reservation.Safe (reservation : Reservation) (settings : Settings) : Prop :=
  settings.softMargin < reservation.currentLine.length + reservation.length →
    (0 < reservation.preferredBreakpoint →
      NoBlankLine (trimRight (reservation.currentLine.take reservation.preferredBreakpoint))) ∧
    (reservation.Overflows settings → NoBlankLine (trimRight reservation.remaining))

instance (reservation : Reservation) (settings : Settings) :
    Decidable (reservation.Overflows settings) :=
  inferInstanceAs (Decidable (_ ∧ _))

instance (reservation : Reservation) (settings : Settings) :
    Decidable (reservation.Safe settings) :=
  inferInstanceAs (Decidable (_ → _))

/-- The lines so far have no blank one exactly if every reservation was safe. -/
def Emitter.Judged (settings : Settings) (emitter : Emitter) : Prop :=
  (∀ line ∈ emitter.delivered, NoBlankLine line) ↔
    ∀ reservation ∈ emitter.reservations, reservation.Safe settings

variable {emitter : Emitter}

/-- The last resort of a reservation: the whole line goes out if the space does not fit
within the hard margin. -/
theorem breakEmergency_delivered (emitter : Emitter) :
    emitter.breakEmergency.delivered =
      emitter.delivered ++
        if 0 < emitter.currentLine.length then [trimRight emitter.currentLine] else [] := by
  rw [Emitter.breakEmergency]
  split
  · rw [Emitter.commitLine, take_length]
  · exact (append_nil _).symm

lemma breakPreferred_currentLine (emitter : Emitter) (length : Nat) :
    emitter.breakPreferred.currentLine = (emitter.reservation length).remaining := by
  rw [Emitter.breakPreferred, Reservation.remaining]
  change (if 0 < emitter.preferredBreakpoint then _ else _ : Emitter).currentLine =
    if 0 < emitter.preferredBreakpoint then _ else _
  split
  · rfl
  · rfl

lemma reserve_emitter (emitter : Emitter) (length : Nat) :
    (emitter.reserve settings length).2 =
      if settings.softMargin < emitter.currentLine.length + length then
        if (emitter.reservation length).Overflows settings then
          emitter.breakPreferred.breakEmergency
        else emitter.breakPreferred
      else emitter := by
  have line := breakPreferred_currentLine emitter length
  rw [Emitter.reserve]
  by_cases fits : emitter.currentLine.length + length ≤ settings.softMargin
  · rw [if_pos fits, if_neg (not_lt.mpr fits)]
  · rw [if_neg fits, if_pos (not_le.mp fits)]
    dsimp only
    rw [line]
    by_cases soft : 0 < emitter.preferredBreakpoint ∧
        (emitter.reservation length).remaining.length + length ≤ settings.softMargin
    · have within : ¬ (emitter.reservation length).Overflows settings :=
        fun overflows => absurd soft.2 (not_le.mpr overflows.2.1)
      rw [if_pos soft, if_neg within]
    · have exceeds : settings.softMargin < (emitter.reservation length).remaining.length + length := by
        by_cases breakable : 0 < emitter.preferredBreakpoint
        · exact not_le.mp fun fits => soft ⟨breakable, fits⟩
        · rw [Reservation.remaining]
          change _ < (if 0 < emitter.preferredBreakpoint then _ else _ : JsString).length + _
          rw [if_neg breakable]
          exact not_le.mp fits
      rw [if_neg soft]
      by_cases hard : (emitter.reservation length).remaining.length + length ≤ settings.hardMargin
      · have within : ¬ (emitter.reservation length).Overflows settings :=
          fun overflows => absurd hard (not_le.mpr overflows.2.2)
        rw [if_pos hard, if_neg within]
      · rw [if_neg hard]
        by_cases some : 0 < (emitter.reservation length).remaining.length
        · rw [if_pos ⟨some, exceeds, not_le.mp hard⟩]
        · rw [if_neg fun overflows => some overflows.1, Emitter.breakEmergency, line, if_neg some]

lemma reserve_long {length : Nat}
    (long : settings.softMargin < emitter.currentLine.length + length) :
    (emitter.reserve settings length).2.delivered = emitter.delivered ++
      (if 0 < emitter.preferredBreakpoint then
        [trimRight (emitter.currentLine.take emitter.preferredBreakpoint)] else []) ++
      if (emitter.reservation length).Overflows settings then
        [trimRight (emitter.reservation length).remaining] else [] := by
  have broken : emitter.breakPreferred.delivered = emitter.delivered ++
      if 0 < emitter.preferredBreakpoint then
        [trimRight (emitter.currentLine.take emitter.preferredBreakpoint)] else [] := by
    rw [Emitter.breakPreferred]
    split
    · rfl
    · exact (append_nil _).symm
  rw [← broken, reserve_emitter, if_pos long]
  split
  · rename_i overflows
    rw [breakEmergency_delivered, breakPreferred_currentLine emitter length, if_pos overflows.1]
  · exact (append_nil _).symm

lemma reserve_spec (emitter : Emitter) (length : Nat) :
    ∃ lines, (emitter.reserve settings length).2.delivered = emitter.delivered ++ lines ∧
      ((∀ line ∈ lines, NoBlankLine line) ↔ (emitter.reservation length).Safe settings) := by
  by_cases fits : emitter.currentLine.length + length ≤ settings.softMargin
  · refine ⟨[], ?_, ?_⟩
    · rw [Emitter.reserve, if_pos fits, append_nil]
    · constructor
      · intro _ long
        exact absurd fits (not_le.mpr long)
      · intro _ line mem
        exact absurd mem not_mem_nil
  · have long : settings.softMargin < emitter.currentLine.length + length := not_le.mp fits
    refine ⟨_, (reserve_long long).trans (append_assoc _ _ _), ?_⟩
    rw [forall_mem_append, Reservation.Safe]
    constructor
    · rintro ⟨first, second⟩ -
      constructor
      · intro breakable
        change 0 < emitter.preferredBreakpoint at breakable
        rw [if_pos breakable] at first
        exact first _ (mem_singleton_self _)
      · intro overflows
        rw [if_pos overflows] at second
        exact second _ (mem_singleton_self _)
    · intro safe
      obtain ⟨first, second⟩ := safe long
      constructor
      · intro line mem
        split at mem
        · rw [mem_singleton.mp mem]
          exact first ‹_›
        · cases mem
      · intro line mem
        split at mem
        · rw [mem_singleton.mp mem]
          exact second ‹_›
        · cases mem

/-- Space for less than the hard margin can always be reserved. -/
theorem reserve_enough {length : Nat} (small : length < settings.hardMargin) :
    (emitter.reserve settings length).1 = true := by
  rw [Emitter.reserve]
  split
  · rfl
  · dsimp only
    split
    · rfl
    · split
      · rfl
      · apply decide_eq_true
        rw [Emitter.breakEmergency]
        split
        · change (0x20 :: trimLeft (List.drop _ _)).length + length ≤ settings.hardMargin
          rw [drop_length]
          change 1 + length ≤ settings.hardMargin
          omega
        · omega

open Attempt (Keeps)

lemma reserveTokenSpace_judged (length : Nat) :
    Keeps (Emitter.Judged settings) (reserveTokenSpace settings length) := by
  intro emitter judged
  obtain ⟨lines, delivered, safe⟩ := @reserve_spec settings emitter length
  change (∀ line ∈ (emitter.reserve settings length).2.delivered, NoBlankLine line) ↔ _
  rw [delivered, forall_mem_append, safe]
  change _ ↔ ∀ reservation ∈ emitter.reservations ++ [emitter.reservation length], _
  rw [forall_mem_append, forall_mem_singleton]
  exact and_congr_left fun _ => judged

/-- A change of the current line alone has no effect on what went out. -/
theorem Emitter.Judged.update {change : Emitter → Emitter}
    (delivered : ∀ emitter, (change emitter).delivered = emitter.delivered)
    (reservations : ∀ emitter, (change emitter).reservations = emitter.reservations) :
    Keeps (Emitter.Judged settings) (Attempt.update change : EmitM Unit) := by
  intro emitter judged
  change (∀ line ∈ (change emitter).delivered, NoBlankLine line) ↔
    ∀ reservation ∈ (change emitter).reservations, reservation.Safe settings
  rw [delivered, reservations]
  exact judged

variable (text : JsString)

lemma append_judged (mayBreakAfter : Bool) :
    Keeps (Emitter.Judged settings)
      (Attempt.update fun emitter => emitter.append text mayBreakAfter : EmitM Unit) := by
  apply Emitter.Judged.update
  · intro emitter
    cases mayBreakAfter <;> rfl
  · intro emitter
    cases mayBreakAfter <;> rfl

lemma addText_judged (mayBreakAfter : Bool) :
    Keeps (Emitter.Judged settings) (addText settings text mayBreakAfter) := by
  apply (reserveTokenSpace_judged text.length).bind
  intro enough
  apply Keeps.ite
  · intro _
    exact append_judged text mayBreakAfter
  · intro _
    exact Keeps.throw _

lemma addQuotable_judged (text qchars) (mayBreakAfter : Bool) :
    Keeps (Emitter.Judged settings) (addQuotable settings text qchars mayBreakAfter) := by
  apply Keeps.ite
  · intro _
    exact Keeps.pure _
  · intro _
    exact addText_judged _ _

lemma encodeLoop_judged (encodedText) (mayBreakAfter : Bool) (fuel i start b64Len qpLen : Nat)
    (maxChars : Int) :
    Keeps (Emitter.Judged settings)
      (encodeLoop settings encodedText mayBreakAfter fuel i start b64Len qpLen maxChars) := by
  induction fuel generalizing i start b64Len qpLen maxChars with
  | zero => exact Keeps.pure _
  | succ fuel ih =>
    rw [encodeLoop]
    cases encodedText[i]? with
    | none => exact addText_judged _ _
    | some octet =>
      apply Keeps.ite
      · intro _
        exact (addText_judged _ _).bind fun _ => ih _ _ _ _ _
      · intro _
        exact ih _ _ _ _ _

lemma encodeRFC2047Phrase_judged (mayBreakAfter : Bool) :
    Keeps (Emitter.Judged settings) (encodeRFC2047Phrase settings text mayBreakAfter) := by
  apply (reserveTokenSpace_judged _).bind_of
  intro state enough later _ outcome judged
  -- The margins leave room for one encoded word, so the line is not committed here.
  have room : enough = true := by
    have result : (state.reserve settings (b64Prelude.length + 10)).1 = enough :=
      Except.ok.inj (congrArg Prod.fst outcome)
    rw [← result]
    apply reserve_enough
    have bound := settings.hardMargin_ge
    have length : b64Prelude.length = 10 := by decide
    omega
  rw [room]
  exact encodeLoop_judged _ _ _ _ _ _ _ _ later judged

lemma addWholePhrase_judged (text qchars) (mayBreakAfter : Bool) :
    Keeps (Emitter.Judged settings) (addWholePhrase settings text qchars mayBreakAfter) := by
  apply (addQuotable_judged text qchars mayBreakAfter).bind
  intro _
  apply Emitter.Judged.update
  · intro emitter
    split <;> rfl
  · intro emitter
    split <;> rfl

lemma addWords_judged (qchars) (mayBreakAfter : Bool) (words) :
    Keeps (Emitter.Judged settings) (addWords settings qchars mayBreakAfter words) := by
  fun_induction addWords settings qchars mayBreakAfter words with
  | case1 => exact Keeps.pure _
  | case2 word => exact addQuotable_judged _ _ _
  | case3 word next words ih => exact (addQuotable_judged _ _ _).bind fun _ => ih

lemma addPhrase_judged (text qchars) (mayBreakAfter : Bool) :
    Keeps (Emitter.Judged settings) (addPhrase settings text qchars mayBreakAfter) := by
  have words := @addWords_judged settings qchars mayBreakAfter
    (splitAtChar 0x20 (collapseSpace text))
  apply Keeps.ite
  · intro _
    exact encodeRFC2047Phrase_judged _ _
  · intro _
    refine Keeps.bind (Keeps.read _) ?_
    intro length
    apply Keeps.ite
    · intro _
      exact (addWholePhrase_judged _ _ _).tryCatch fun _ => words
    · intro _
      exact words

lemma addEmail_judged (name email) :
    Keeps (Emitter.Judged settings) (addEmail settings name email) :=
  (addQuotable_judged _ _ _).bind fun _ => addText_judged _ _

lemma addAddress_judged (name email) :
    Keeps (Emitter.Judged settings) (addAddress settings name email) := by
  apply Keeps.ite
  · intro _
    exact addEmail_judged name email
  · intro _
    apply (reserveTokenSpace_judged _).bind
    intro _
    apply (addPhrase_judged name nameQchars true).bind
    intro _
    apply Keeps.ite
    · intro _
      exact Keeps.pure _
    · intro _
      exact (addText_judged _ _).bind fun _ => addEmail_judged name email

lemma addComma_judged (needsComma : Bool) :
    Keeps (Emitter.Judged settings) (addComma settings needsComma) := by
  apply Keeps.ite
  · intro _
    exact addText_judged _ _
  · intro _
    exact Keeps.pure _

mutual

lemma addEntry_judged (entry) : Keeps (Emitter.Judged settings) (addEntry settings entry) := by
  cases entry with
  | mailbox name email =>
    rw [addEntry]
    exact addAddress_judged name email
  | group name members =>
    rw [addEntry]
    apply (addPhrase_judged name nameQchars false).bind
    intro _
    apply (addText_judged _ _).bind
    intro _
    exact (addEntries_judged false members).bind fun _ => addText_judged _ _

lemma addEntries_judged (needsComma : Bool) (entries) :
    Keeps (Emitter.Judged settings) (addEntries settings needsComma entries) := by
  cases entries with
  | nil =>
    rw [addEntries]
    exact Keeps.pure _
  | cons entry rest =>
    rw [addEntries]
    exact (addComma_judged needsComma).bind fun _ =>
      (addEntry_judged entry).bind fun _ => addEntries_judged true rest

end

lemma addDate_judged (date) : Keeps (Emitter.Judged settings) (addDate settings date) := by
  cases date with
  | invalid => exact Keeps.throw _
  | valid localTime utc =>
    apply Keeps.ite
    · intro _
      exact Keeps.throw _
    · intro _
      exact addText_judged _ _

lemma addUnstructured_judged : Keeps (Emitter.Judged settings) (addUnstructured settings text) := by
  apply Keeps.ite
  · intro _
    exact Keeps.pure _
  · intro _
    exact addPhrase_judged _ _ _

lemma encodeValue_judged (encoder) (value) :
    Keeps (Emitter.Judged settings) (encodeValue settings encoder value) := by
  fun_cases encodeValue settings encoder value with
  | case1 list => exact addEntries_judged false list
  | case2 entry => exact addEntries_judged false [entry]
  | case3 text => exact addUnstructured_judged text
  | case4 date => exact addDate_judged date
  | case5 => exact Keeps.throw _

lemma start_judged : Emitter.Judged settings {} := by
  constructor
  · intro _ reservation mem
    cases mem
  · intro _ line mem
    cases mem

/-- On a new emitter the header name commits nothing. -/
theorem addHeaderName_start (name : JsString) :
    addHeaderName settings name {} = addText settings (name ++ js ": ") false {} :=
  rfl

lemma header_judged (name) {value : EmitM Unit} (judged : Keeps (Emitter.Judged settings) value) :
    Emitter.Judged settings ((addHeaderName settings name >>= fun _ => value) {}).2 := by
  have same : (addHeaderName settings name >>= fun _ => value) {} =
      (addText settings (name ++ js ": ") false >>= fun _ => value) {} := by
    change Attempt.bind _ _ _ = Attempt.bind _ _ _
    rw [Attempt.bind, Attempt.bind, addHeaderName_start]
  rw [same]
  exact (addText_judged _ _).bind (fun _ => judged) {} start_judged

lemma addStructuredHeader_judged (name) (value) :
    Emitter.Judged settings (addStructuredHeader settings name value {}).2 := by
  unfold addStructuredHeader
  cases findEncoder name with
  | some found => exact header_judged found.1 (encodeValue_judged found.2 value)
  | none =>
    cases value with
    | text text => exact header_judged _ (addUnstructured_judged text)
    | addresses | address | date => exact start_judged

def beforeFinalBreak (output : JsString) : JsString := output.take (output.length - crlf.length)

lemma noBlankLine_lines (lines : List JsString) (last : JsString) :
    NoBlankLine ((lines.map fun line => line ++ crlf).flatten ++ last) ↔
      (∀ line ∈ lines, NoBlankLine line) ∧ NoBlankLine last := by
  induction lines with
  | nil =>
    constructor
    · intro free
      exact ⟨nofun, free⟩
    · exact And.right
  | cons line lines ih =>
    rw [map_cons, flatten_cons, append_assoc, noBlankLine_append, ih,
      forall_mem_cons, and_assoc]

lemma noBlankLine_value (emitter : Emitter) :
    NoBlankLine (beforeFinalBreak emitter.commitLast.value) ↔
      (∀ line ∈ emitter.delivered, NoBlankLine line) ∧
        NoBlankLine (trimRight emitter.currentLine) := by
  rw [← noBlankLine_lines, beforeFinalBreak, Emitter.value, Emitter.commitLast]
  dsimp only
  rw [map_append, flatten_append, map_singleton, flatten_singleton,
    ← append_assoc, length_append, Nat.add_sub_cancel, take_left]

/-- While the header is built every reservation finds a line that it can break without
putting out a blank one, and the line that is left at the end is not blank. -/
def SafeEmission (name : JsString) (value : StructuredValue) (options : EmitterOptions) : Prop :=
  ∀ emitter, addStructuredHeader options.settings name value {} = (.ok (), emitter) →
    (∀ reservation ∈ emitter.reservations, reservation.Safe options.settings) ∧
      NoBlankLine (trimRight emitter.currentLine)

/-- A mailbox with a short name and one without. -/
def shortAddresses : StructuredValue :=
  .addresses [.mailbox (js "A. B") (js "a@b"), .mailbox [] (js "c@d")]

/-- After the comma the name is broken off to a line of its own, which is too short for
the name and the address together. -/
def crowdedAddresses : StructuredValue :=
  .addresses [.mailbox [] (js "a@b"), .mailbox (js "aaaaaaa bbbbbbb ccccccccc") (js "c@d")]

end CommCentral.Jsmime
