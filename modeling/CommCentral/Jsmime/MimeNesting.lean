import CommCentral.Jsmime.ParserEvents

/-! The events of the MIME parser go through a tree of parts, unless a conversion throws. -/
namespace CommCentral.Jsmime
open List

variable {text later : BinaryString}

lemma afterLineEnd_length (found : afterLineEnd text = some later) :
    later.length < text.length := by
  cases text with
  | nil => cases found
  | cons c rest =>
    rw [afterLineEnd] at found
    split at found
    · cases found
      split
      · rw [length_tail, length_cons]
        omega
      · exact Nat.lt_succ_self _
    · split at found
      · cases found
        exact Nat.lt_succ_self _
      · cases found

lemma afterDoubled_length (found : afterDoubled text = some later) :
    later.length + 2 ≤ text.length := by
  match text with
  | [] => cases found
  | [c] => cases found
  | c :: d :: rest =>
    rw [afterDoubled] at found
    split at found
    · split at found
      · cases found
        rw [length_drop, length_cons, length_cons]
        omega
      · cases found
    · split at found
      · cases found
        exact le_refl _
      · cases found

lemma findDoubled_length {text headers body : BinaryString}
    (found : findDoubled text = some (headers, body)) :
    headers.length + body.length + 2 ≤ text.length := by
  induction text generalizing headers with
  | nil => cases found
  | cons c rest ih =>
    rw [findDoubled] at found
    split at found
    · rename_i later doubled
      cases found
      rw [length_nil, Nat.zero_add]
      exact afterDoubled_length doubled
    · obtain ⟨⟨before, after⟩, inRest, same⟩ := Option.map_eq_some_iff.mp found
      cases same
      have := ih inRest
      rw [length_cons, length_cons]
      omega

lemma splitAtHeaderEnd_length {text headers body : BinaryString}
    (found : splitAtHeaderEnd text = some (headers, body)) :
    headers.length + body.length < text.length := by
  rw [splitAtHeaderEnd] at found
  split at found
  · rename_i later first
    cases found
    rw [length_nil, Nat.zero_add]
    exact afterLineEnd_length first
  · have := findDoubled_length found
    omega

lemma afterLiteral_length {literal : JsString} {text later : BinaryString}
    (found : afterLiteral literal text = some later) :
    later.length + literal.length = text.length := by
  induction literal generalizing text with
  | nil =>
    cases found
    rfl
  | cons c literal ih =>
    cases text with
    | nil => cases found
    | cons d text =>
      rw [afterLiteral] at found
      split at found
      · exact congrArg (· + 1) (ih found)
      · cases found

lemma afterBoundaryLine_length
    (found : afterBoundaryLine text = some later) : later.length ≤ text.length := by
  have shorter := (dropWhile_suffix (l := text) fun c => c == 0x20 || c == 0x09).length_le
  rw [afterBoundaryLine] at found
  split at found
  · cases found
    exact Nat.zero_le _
  · exact (afterLineEnd_length found).le.trans shorter

section

variable {text : BinaryString} {found : BoundaryMatch}

lemma boundaryLine?_length (matched : boundaryLine? boundary startsBuffer text = some found) :
    found.before.length + found.after.length + 2 ≤ text.length := by
  obtain ⟨line, ofBoundary, matched⟩ := Option.bind_eq_some_iff.mp matched
  have total := afterLiteral_length ofBoundary
  rw [length_append] at total
  have two : dashes.length = 2 := rfl
  split at matched
  · rename_i rest ofDashes
    obtain ⟨after, ofRest, same⟩ := Option.bind_eq_some_iff.mp matched
    cases same
    have := afterLiteral_length ofDashes
    have := afterBoundaryLine_length ofRest
    change 0 + after.length + 2 ≤ text.length
    omega
  · obtain ⟨after, ofLine, same⟩ := Option.bind_eq_some_iff.mp matched
    cases same
    have := afterBoundaryLine_length ofLine
    change 0 + after.length + 2 ≤ text.length
    omega

lemma boundaryHere?_length (matched : boundaryHere? boundary atStart text = some found) :
    found.before.length + found.after.length + 2 ≤ text.length := by
  rw [boundaryHere?] at matched
  split at matched
  · rename_i line ofText
    exact (boundaryLine?_length matched).trans (afterLineEnd_length ofText).le
  · split at matched
    · exact boundaryLine?_length matched
    · cases matched

lemma findBoundary_length (matched : findBoundary boundary atStart text = some found) :
    found.before.length + found.after.length + 2 ≤ text.length := by
  induction text generalizing atStart found with
  | nil => cases matched
  | cons c rest ih =>
    rw [findBoundary] at matched
    split at matched
    · rename_i first here
      cases matched
      exact boundaryHere?_length here
    · obtain ⟨later, inRest, rfl⟩ := Option.map_eq_some_iff.mp matched
      have := ih inRest
      change later.before.length + 1 + later.after.length + 2 ≤ rest.length + 1
      omega

end

def Parser.Splits (parser : Parser) : Prop := ∃ frame rest, parser = frame :: rest ∧ frame.Splits

/-- How a parser goes on with a part when it is given so much data. -/
structure Continues (parser : Parser) (partNum : JsString) (events : List Event) (room : Nat)
    (checkSplit : Bool) (later : Parser) (new : List Event) : Prop where
  ongoing : Ongoing later partNum (events ++ new)
  cost : Parser.cost later ≤ Parser.cost parser + room
  splits : checkSplit = false → parser.Splits → later.Splits

/-- The events of the part, or of a part that an exception has left. -/
def Finishes (partNum : JsString) (events new : List Event) : Prop :=
  ∃ tree : PartTree, events ++ new = tree.events partNum

/-- The methods go on with a part if so many calls within calls are enough for its text. -/
structure Dispatcher.Sound (dispatcher : Dispatcher) (depth : Nat) : Prop where
  data : ∀ {parser partNum events}, Ongoing parser partNum events → ∀ buffer checkSplit,
    Parser.cost parser + max 1 buffer.length < depth →
      Emits (dispatcher.dispatchData parser partNum buffer checkSplit)
        (Continues parser partNum events (max 1 buffer.length) checkSplit)
        fun new => Unfinished partNum (events ++ new)
  eof : ∀ {parser partNum events}, Ongoing parser partNum events → Parser.cost parser < depth →
    Emits (dispatcher.dispatchEOF parser partNum) (fun _ new => Finishes partNum events new)
      fun new => Unfinished partNum (events ++ new)

lemma Continues.refl (ongoing : Ongoing parser partNum events) (room : Nat) (checkSplit : Bool) :
    Continues parser partNum events room checkSplit parser [] := by
  constructor
  · rw [append_nil]
    exact ongoing
  · exact Nat.le_add_right _ _
  · exact fun _ splits => splits

section

variable {inner : Dispatcher}
variable {frame : Frame}
variable {events before inside : List Event} {start : PartStart}

lemma Dispatcher.Sound.data_of_ne (sound : inner.Sound depth)
    (ongoing : Ongoing rest partNum events) (some : buffer ≠ []) (checkSplit : Bool)
    (enough : Parser.cost rest + buffer.length < depth) :
    Emits (inner.dispatchData rest partNum buffer checkSplit)
      (Continues rest partNum events buffer.length checkSplit)
      fun new => Unfinished partNum (events ++ new) := by
  have length : max 1 buffer.length = buffer.length := max_eq_right (length_pos_iff.mpr some)
  have emits := sound.data ongoing buffer checkSplit (by rw [length]; exact enough)
  rw [length] at emits
  exact emits

lemma Frame.save_cost (inBody : frame.state ≠ .parsingHeaders) (saved) :
    Frame.cost { frame with savedBuffer := saved } =
      1 + savedCost { frame with savedBuffer := saved } := by
  rw [Frame.cost, if_neg inBody]

lemma Parser.not_splits (whole : frame.boundary = none) : ¬ Parser.Splits (frame :: rest) := by
  rintro ⟨first, others, same, splits⟩
  cases same
  exact splits.boundary whole

lemma sendData_leaf (start : PartStart) (data : List BinaryString)
    (state : frame.state = .sendToEmitter) (whole : frame.boundary = none)
    (fits : Room frame buffer room) (checkSplit : Bool) :
    let events := start.event partNum :: data.map (Event.deliverPartData partNum)
    Emits (sendData bodyFormat inner frame [] partNum buffer)
      (Continues [frame] partNum events room checkSplit)
      fun new => Unfinished partNum (events ++ new) := by
  intro events
  have inBody : frame.state ≠ .parsingHeaders := by
    rw [state]
    decide
  have ongoing : Ongoing [frame] partNum events := .leaf start data state whole
  rw [sendData, state]
  refine Emits.ite (fun _ => Emits.pure (.refl ongoing room checkSplit)) fun _ => ?_
  apply (applyDataConversion_emits fits).bind
  · rintro new rfl
    rw [append_nil]
    exact ongoing.unfinished inBody
  · rintro ⟨later, text⟩ new ⟨rfl, ⟨saved, rfl⟩, bound⟩
    have cost : Parser.cost [{ frame with savedBuffer := saved }] ≤ Parser.cost [frame] + room := by
      change Frame.cost _ + 0 ≤ frame.cost + 0 + room
      rw [frame.save_cost inBody, frame.cost_of_inBody inBody]
      omega
    refine Emits.ite (fun _ => ?_) fun _ => ?_
    · have extended : Ongoing [{ frame with savedBuffer := saved }] partNum
          (start.event partNum :: (data ++ [text]).map (Event.deliverPartData partNum)) :=
        .leaf start (data ++ [text]) state whole
      rw [map_append] at extended
      exact Emits.callEmitter_bind (Emits.pure ⟨extended, cost, fun _ splits =>
        (Parser.not_splits whole splits).elim⟩)
    · have same : Ongoing [{ frame with savedBuffer := saved }] partNum events :=
        .leaf start data state whole
      rw [← append_nil events] at same
      exact Emits.pure ⟨same, cost, fun _ splits => (Parser.not_splits whole splits).elim⟩

lemma sendData_within (sound : inner.Sound depth) (state : frame.state = .sendToSubparser)
    (number : frame.subPartNum = some subPartNum) (place : Place frame partNum subPartNum before)
    (ongoing : Ongoing rest subPartNum inside) (fits : Room frame buffer room) (checkSplit : Bool)
    (enough : Parser.cost (frame :: rest) + room ≤ depth) :
    Emits (sendData bodyFormat inner frame rest partNum buffer)
      (Continues (frame :: rest) partNum (before ++ inside) room checkSplit)
      fun new => Unfinished partNum (before ++ inside ++ new) := by
  have inBody : frame.state ≠ .parsingHeaders := by
    rw [state]
    decide
  have keeps (saved : Option BinaryString) (later : Parser) :
      Parser.Splits (frame :: rest) → Parser.Splits ({ frame with savedBuffer := saved } :: later) := by
    rintro ⟨first, others, same, splits⟩
    cases same
    exact ⟨_, later, rfl, splits.boundary, splits.convertData⟩
  change frame.cost + Parser.cost rest + room ≤ depth at enough
  rw [frame.cost_of_inBody inBody] at enough
  rw [sendData, state]
  apply (applyDataConversion_emits fits).bind
  · rintro new rfl
    rw [append_nil]
    exact (Ongoing.within state number place ongoing).unfinished inBody
  · rintro ⟨later, text⟩ new ⟨rfl, ⟨saved, rfl⟩, bound⟩
    refine Emits.ite (fun some => ?_) fun _ => ?_
    · have there : frame.subPartNum.getD [] = subPartNum := by
        rw [number]
        rfl
      change Emits (inner.dispatchData rest (frame.subPartNum.getD []) text true >>= _) _ _
      rw [there]
      apply (sound.data_of_ne ongoing some true (by omega)).bind
      · intro new unfinished
        change Unfinished partNum (before ++ inside ++ new)
        rw [append_assoc]
        exact place.unfinished unfinished
      · intro rest' new continues
        refine Emits.pure ⟨?_, ?_, fun _ => keeps saved rest'⟩
        · change Ongoing _ partNum (before ++ inside ++ (new ++ []))
          rw [append_nil, append_assoc]
          exact .within state number (place.save saved) continues.ongoing
        · have := continues.cost
          change Frame.cost _ + Parser.cost rest' ≤ frame.cost + Parser.cost rest + room
          rw [frame.save_cost inBody, frame.cost_of_inBody inBody]
          omega
    · refine Emits.pure ⟨?_, ?_, fun _ => keeps saved rest⟩
      · change Ongoing _ partNum (before ++ inside ++ [])
        rw [append_nil]
        exact .within state number (place.save saved) ongoing
      · change Frame.cost _ + Parser.cost rest ≤ frame.cost + Parser.cost rest + room
        rw [frame.save_cost inBody, frame.cost_of_inBody inBody]
        omega

lemma sendData_emits (sound : inner.Sound depth)
    (ongoing : Ongoing (frame :: rest) partNum events) (inBody : frame.state ≠ .parsingHeaders)
    (fits : Room frame buffer room) (checkSplit : Bool)
    (enough : Parser.cost (frame :: rest) + room ≤ depth) :
    Emits (sendData bodyFormat inner frame rest partNum buffer)
      (Continues (frame :: rest) partNum events room checkSplit)
      fun new => Unfinished partNum (events ++ new) := by
  cases ongoing with
  | waiting fresh =>
    rw [fresh] at inBody
    exact absurd rfl inBody
  | leaf start data state whole => exact sendData_leaf start data state whole fits checkSplit
  | finished start parts state whole saved =>
    rw [sendData, state]
    exact Emits.pure (.refl (.finished start parts state whole saved) room checkSplit)
  | preamble start state splits first saved more =>
    rw [sendData, state]
    exact Emits.pure (.refl (.preamble start state splits first saved more) room checkSplit)
  | within state number place ongoing =>
    exact sendData_within sound state number place ongoing fits checkSplit enough

lemma endSubpart_emits (sound : inner.Sound depth) (ongoing : Ongoing rest subPartNum inside)
    (savedBuffer) (enough : Parser.cost rest + savedBuffer.length < depth) :
    Emits (endSubpart inner rest subPartNum savedBuffer)
      (fun _ new => Finishes subPartNum inside new)
      fun new => Unfinished subPartNum (inside ++ new) := by
  refine Emits.ite (fun some => ?_) fun _ => sound.eof ongoing (by omega)
  apply (sound.data_of_ne ongoing some true enough).bind
  · exact fun _ unfinished => unfinished
  · intro later new continues
    have bound := continues.cost
    apply (sound.eof continues.ongoing (by omega)).mono
    · rintro - more ⟨tree, whole⟩
      exact ⟨tree, by rw [← append_assoc, whole]⟩
    · intro more unfinished
      rw [← append_assoc]
      exact unfinished

lemma lastLine_length (savedBuffer) (startsBuffer : Bool) :
    (lastLine savedBuffer startsBuffer).length ≤ savedBuffer.length := by
  rw [lastLine]
  split
  · exact length_take_le' _ _
  · exact le_refl _

/-- The next part of a multipart is a new one, and after the terminator there is none. -/
theorem nextSubpart_ongoing (rest : Parser) (partNum : JsString) (splits : frame.Splits)
    (start : PartStart) (parts : List PartTree) (terminator : Bool) :
    Ongoing (nextSubpart frame rest partNum (parts.length + 1) terminator) partNum
        (start.event partNum :: partsEvents partNum 1 parts) ∧
      Parser.cost (nextSubpart frame rest partNum (parts.length + 1) terminator) ≤ 2 := by
  have other : frame.convertData ≠ some (.decoder .object) := by
    rw [splits.convertData]
    decide
  cases terminator with
  | true =>
    refine ⟨.finished start parts rfl rfl rfl, ?_⟩
    have cost : Parser.cost (nextSubpart frame rest partNum (parts.length + 1) true) = 1 :=
      Frame.cost_of_empty _ ParserState.noConfusion rfl other
    exact cost.trans_le (Nat.le_succ _)
  | false =>
    constructor
    · rw [← append_nil (_ :: _)]
      exact .within rfl rfl (.part start parts ⟨splits.boundary, splits.convertData⟩ rfl)
        (.waiting (.mk [] _))
    · change Frame.cost _ + 1 ≤ 1 + 1
      apply Nat.add_le_add_right
      apply le_of_eq
      apply Frame.cost_of_empty
      · exact ParserState.noConfusion
      · rfl
      · exact other

lemma whenMultipart_emits (sound : inner.Sound depth)
    (ongoing : Ongoing (frame :: rest) partNum events) (splits : frame.Splits) (found)
    (enough : Parser.cost (frame :: rest) ≤ depth) :
    Emits (whenMultipart inner frame rest partNum found)
      (fun later new => Ongoing later partNum (events ++ new) ∧
        Parser.cost later ≤ Parser.cost (frame :: rest))
      fun new => Unfinished partNum (events ++ new) := by
  have two {rest : Parser} (more : rest ≠ []) : 2 ≤ Parser.cost (frame :: rest) :=
    Nat.add_le_add frame.cost_pos (Parser.cost_pos more)
  cases ongoing with
  | waiting fresh =>
    rw [fresh] at splits
    exact absurd rfl splits.boundary
  | leaf start data state whole | finished start parts state whole saved =>
    exact absurd whole splits.boundary
  | preamble start state splits first saved more =>
    rw [whenMultipart, first]
    obtain ⟨ongoing, cost⟩ := nextSubpart_ongoing rest partNum splits start [] found.terminator
    exact Emits.pure ⟨ongoing, cost.trans (two more)⟩
  | @within _ subPartNum _ _ before inside state number place ongoing =>
    cases place with
    | body start whole => exact absurd whole splits.boundary
    | part start parts splits count =>
      have inBody : frame.state ≠ .parsingHeaders := by
        rw [state]
        decide
      have place : Place frame partNum _ _ := .part start parts splits count
      have shorter := lastLine_length (savedText frame.savedBuffer) found.startsBuffer
      have more := two ongoing.ne_nil
      change frame.cost + Parser.cost rest ≤ depth at enough
      rw [frame.cost_of_inBody inBody, savedCost_of_ne frame splits.convertData (by decide)] at enough
      rw [whenMultipart, number]
      apply (endSubpart_emits sound ongoing (lastLine (savedText frame.savedBuffer)
        found.startsBuffer) (by omega)).bind
      · intro new unfinished
        rw [append_assoc]
        exact place.unfinished unfinished
      · rintro - new ⟨tree, whole⟩
        have next :=
          nextSubpart_ongoing rest partNum splits start (parts ++ [tree]) found.terminator
        rw [length_append, length_singleton, ← count, partsEvents_concat,
          Nat.add_comm 1] at next
        refine Emits.pure ⟨?_, next.2.trans more⟩
        rw [append_nil, append_assoc, whole]
        exact next.1

lemma Ongoing.splits (ongoing : Ongoing (frame :: rest) partNum events)
    (boundary : frame.boundary ≠ none) : frame.Splits := by
  cases ongoing with
  | waiting fresh =>
    rw [fresh] at boundary
    exact absurd rfl boundary
  | leaf start data state whole | finished start parts state whole saved =>
    exact absurd whole boundary
  | preamble start state splits first saved more => exact splits
  | within state number place ongoing =>
    cases place with
    | part start parts splits count => exact splits
    | body start whole => exact absurd whole boundary

lemma sendBefore_emits (sound : inner.Sound depth) (ongoing : Ongoing parser partNum events) (text)
    (enough : Parser.cost parser + text.length < depth) :
    Emits (sendBefore inner parser partNum text)
      (Continues parser partNum events text.length false)
      fun new => Unfinished partNum (events ++ new) :=
  Emits.ite (fun some => sound.data_of_ne ongoing some false enough)
    fun _ => Emits.pure (.refl ongoing _ _)

lemma sendAfter_emits (sound : inner.Sound depth) (ongoing : Ongoing parser partNum events) (text)
    (enough : Parser.cost parser + text.length < depth) :
    Emits (sendAfter inner parser partNum text)
      (Continues parser partNum events text.length true)
      fun new => Unfinished partNum (events ++ new) :=
  Emits.ite (fun some => sound.data_of_ne ongoing some true enough)
    fun _ => Emits.pure (.refl ongoing _ _)

lemma dispatchBody_emits (sound : inner.Sound depth)
    (ongoing : Ongoing (frame :: rest) partNum events) (inBody : frame.state ≠ .parsingHeaders)
    (fits : Room frame buffer room) (checkSplit : Bool)
    (enough : Parser.cost (frame :: rest) + room ≤ depth) :
    Emits (dispatchBody bodyFormat inner (frame :: rest) partNum buffer checkSplit)
      (Continues (frame :: rest) partNum events room checkSplit)
      fun new => Unfinished partNum (events ++ new) := by
  rw [dispatchBody]
  split
  · rename_i found matched
    cases checkSplit with
    | false => cases matched
    | true =>
      obtain ⟨boundary, given, matched⟩ := Option.bind_eq_some_iff.mp matched
      have splits := ongoing.splits (by rw [given]; exact Option.some_ne_none _)
      have length := findBoundary_length matched
      have bound := fits.1
      apply (sendBefore_emits sound ongoing found.before (by omega)).bind
      · exact fun _ unfinished => unfinished
      · intro parser first before
        obtain ⟨frame', rest', rfl, splits'⟩ := before.splits rfl ⟨frame, rest, rfl, splits⟩
        have cost := before.cost
        apply (whenMultipart_emits sound before.ongoing splits' found (by omega)).bind
        · intro new unfinished
          rw [← append_assoc]
          exact unfinished
        · rintro parser second ⟨ongoing, within⟩
          apply (sendAfter_emits sound ongoing found.after (by omega)).mono
          · intro later third after
            have last := after.cost
            refine ⟨?_, by omega, fun other => by cases other⟩
            rw [← append_assoc, ← append_assoc]
            exact after.ongoing
          · intro third unfinished
            rw [← append_assoc, ← append_assoc]
            exact unfinished
  · exact sendData_emits sound ongoing inBody fits checkSplit enough

/-- A parser that has just read the headers of a part. -/
structure StartsBody (parser : Parser) (partNum : JsString) (start : PartStart) : Prop where
  ongoing : Ongoing parser partNum [start.event partNum]
  inBody : ∀ frame ∈ parser.head?, frame.state ≠ .parsingHeaders
  saved : ∀ frame ∈ parser.head?, frame.savedBuffer = some []

lemma StartsBody.cons (ongoing : Ongoing (frame :: rest) partNum [start.event partNum])
    (inBody : frame.state ≠ .parsingHeaders) (saved : frame.savedBuffer = some []) :
    StartsBody (frame :: rest) partNum start := by
  refine ⟨ongoing, ?_, ?_⟩
  · rintro _ ⟨⟩
    exact inBody
  · rintro _ ⟨⟩
    exact saved

lemma startBody_starts (fresh : frame.Fresh) (bodyFormat) (partNum) (headers) (start) :
    StartsBody (startBody bodyFormat frame partNum headers) partNum start := by
  have whole : frame.boundary = none := by rw [fresh]
  have saved : frame.savedBuffer = some [] := by rw [fresh]
  have first : frame.subPartNum = none := by rw [fresh]
  rw [startBody]
  split
  · exact .cons (.leaf start [] rfl whole) ParserState.noConfusion saved
  · split
    · split
      · exact .cons (.finished start [] rfl whole saved) ParserState.noConfusion saved
      · exact .cons (.preamble start rfl ⟨Option.some_ne_none _, rfl⟩ first saved
          (cons_ne_nil _ _)) ParserState.noConfusion saved
    · split
      · apply StartsBody.cons
        · change Ongoing _ partNum ([start.event partNum] ++ [])
          apply Ongoing.within
          · rfl
          · rfl
          · exact .body start whole
          · exact .waiting (.mk [] none)
        · exact ParserState.noConfusion
        · exact saved
      · split
        · exact .cons (.leaf start [] rfl whole) ParserState.noConfusion saved
        · exact .cons (.leaf start [] rfl whole) ParserState.noConfusion saved

/-- Only the constructor of objects takes more than the line end after the headers pays for. -/
theorem startBody_cost (fresh : frame.Fresh) (bodyFormat : BodyFormat) (partNum : JsString)
    (headers : PartHeaders) :
    Parser.cost (startBody bodyFormat frame partNum headers) ≤ 3 ∧
      (headers.transferEncoding = [] →
        Parser.cost (startBody bodyFormat frame partNum headers) ≤ 2) := by
  have saved : frame.savedBuffer = some [] := by rw [fresh]
  have single (first : Frame) (inBody : first.state ≠ .parsingHeaders)
      (saved : first.savedBuffer = some []) : Parser.cost [first] ≤ 2 :=
    first.cost_le_of_empty inBody saved
  have double (first : Frame) (last : Option JsString) (inBody : first.state ≠ .parsingHeaders)
      (saved : first.savedBuffer = some []) :
      Parser.cost [first, { defaultContentType := last }] ≤ 3 ∧
        (first.convertData ≠ some (.decoder .object) →
          Parser.cost [first, { defaultContentType := last }] ≤ 2) := by
    refine ⟨Nat.add_le_add_right (first.cost_le_of_empty inBody saved) 1, fun other => ?_⟩
    exact Nat.add_le_add_right (first.cost_of_empty inBody saved other).le 1
  have only {cost : Nat} (two : cost ≤ 2) : cost ≤ 3 ∧ (headers.transferEncoding = [] → cost ≤ 2) :=
    ⟨two.trans (Nat.le_succ 2), fun _ => two⟩
  rw [startBody]
  split
  · exact only (single _ ParserState.noConfusion saved)
  · split
    · split
      · exact only (single _ ParserState.noConfusion saved)
      · apply only
        apply (double _ _ _ _).2
        · intro same
          cases same
        · exact ParserState.noConfusion
        · exact saved
    · split
      · obtain ⟨three, two⟩ := double { frame with
          state := .sendToSubparser
          subPartNum := some (partNum ++ js "$")
          convertData := (contentDecoder? headers.transferEncoding).map Conversion.decoder }
          none ParserState.noConfusion saved
        refine ⟨three, fun nothing => two ?_⟩
        change (contentDecoder? headers.transferEncoding).map Conversion.decoder ≠ _
        rw [nothing]
        decide
      · split
        · exact only (single _ ParserState.noConfusion saved)
        · exact only (single _ ParserState.noConfusion saved)

lemma Ongoing.fresh (ongoing : Ongoing (frame :: rest) partNum events)
    (reading : frame.state = .parsingHeaders) : frame.Fresh ∧ rest = [] ∧ events = [] := by
  cases ongoing with
  | waiting fresh => exact ⟨fresh, rfl, rfl⟩
  | leaf start data state whole | finished start parts state whole saved
  | preamble start state splits first saved more | within state number place ongoing =>
    rw [state] at reading
    cases reading

/-- The body begins with what the packet has after the headers. -/
theorem dispatchHeaders_emits (sound : inner.Sound depth) (fresh : frame.Fresh)
    {buffer headerText body : BinaryString} (checkSplit : Bool)
    (found : splitAtHeaderEnd (frame.headerData ++ buffer) = some (headerText, body))
    (enough : Parser.cost [frame] + max 1 buffer.length ≤ depth) :
    let headers := parseHeaders decoder frame.defaultContentType headerText
    let start : PartStart := ⟨headerText, frame.defaultContentType⟩
    Emits (dispatchBody bodyFormat inner
        (startBody bodyFormat { frame with headerData := headerText } partNum headers) partNum body
        checkSplit)
      (fun later new => Continues [frame] partNum [] (max 1 buffer.length) checkSplit later
        (start.event partNum :: new))
      fun new => Unfinished partNum (start.event partNum :: new) := by
  intro headers start
  have later : Frame.Fresh { frame with headerData := headerText } := by
    rw [fresh]
    exact .mk headerText frame.defaultContentType
  have started := startBody_starts later bodyFormat partNum headers start
  obtain ⟨three, two⟩ := startBody_cost later bodyFormat partNum headers
  have length := splitAtHeaderEnd_length found
  rw [length_append] at length
  have cost : Parser.cost [frame] = 1 + frame.headerData.length := fresh.cost
  have bound : Parser.cost (startBody bodyFormat { frame with headerData := headerText } partNum
      headers) + body.length ≤ Parser.cost [frame] + max 1 buffer.length := by
    have given := le_max_right 1 buffer.length
    rw [cost]
    cases text : headerText with
    | nil =>
      have plain := two (by change readTransferEncoding _ _ headerText = []; rw [text,
        readTransferEncoding_nil])
      rw [text] at plain length
      change 0 + body.length < _ at length
      omega
    | cons c others =>
      rw [text] at three length
      change others.length + 1 + body.length < _ at length
      omega
  cases parser : startBody bodyFormat { frame with headerData := headerText } partNum headers with
  | nil =>
    rw [parser] at started
    exact absurd rfl started.ongoing.ne_nil
  | cons first rest =>
    rw [parser] at started bound
    apply (dispatchBody_emits sound started.ongoing (started.inBody first rfl) ⟨le_refl _,
      fun some => absurd (started.saved first rfl) some⟩ checkSplit (bound.trans enough)).mono
    · intro last new continues
      refine ⟨continues.ongoing, continues.cost.trans bound, fun _ splits => ?_⟩
      exact absurd splits (Parser.not_splits (by rw [fresh]))
    · exact fun new unfinished => unfinished

lemma dispatchData_emits (sound : inner.Sound depth) (ongoing : Ongoing parser partNum events)
    (buffer) (checkSplit : Bool) (enough : Parser.cost parser + max 1 buffer.length ≤ depth) :
    Emits (dispatchData decoder bodyFormat inner parser partNum buffer checkSplit)
      (Continues parser partNum events (max 1 buffer.length) checkSplit)
      fun new => Unfinished partNum (events ++ new) := by
  cases parser with
  | nil => exact absurd rfl ongoing.ne_nil
  | cons frame rest =>
    rw [dispatchData]
    refine Emits.ite (fun reading => ?_) fun inBody => ?_
    · obtain ⟨fresh, rfl, rfl⟩ := ongoing.fresh reading
      split
      · have later : Frame.Fresh { frame with headerData := frame.headerData ++ buffer } := by
          rw [fresh]
          exact .mk _ frame.defaultContentType
        refine Emits.pure ⟨.waiting later, ?_, fun _ splits => ?_⟩
        · change Frame.cost _ + 0 ≤ frame.cost + 0 + max 1 buffer.length
          rw [later.cost, fresh.cost, length_append]
          omega
        · exact absurd splits (Parser.not_splits (by rw [fresh]))
      · rename_i headerText body found
        exact Emits.callEmitter_bind (dispatchHeaders_emits sound fresh checkSplit found enough)
    · exact dispatchBody_emits sound ongoing inBody
        ⟨le_max_right _ _, fun _ => lt_of_lt_of_le Nat.one_pos (le_max_left _ _)⟩ checkSplit enough

lemma convertData_emits (conversion) (buffer) (more : Bool) :
    Emits (convertData conversion buffer more)
      (fun converted new => new = [] ∧ conversion.convert buffer more = some converted)
      fun new => new = [] :=
  Emits.convertData (fun _ succeeded => ⟨rfl, succeeded⟩) rfl

lemma flushed_fits (converts : frame.convertData = some conversion)
    (kept : frame.savedBuffer = some saved) (some : saved ≠ [])
    (succeeded : conversion.convert saved false = Option.some converted) :
    max 1 converted.text.length ≤ savedCost frame := by
  have bound := Conversion.convert_length succeeded
  by_cases same : conversion = .decoder .object
  · rw [if_pos same] at bound
    rw [same] at converts
    rw [bound, savedCost_of_object frame converts]
    exact le_refl _
  · rw [if_neg same] at bound
    obtain ⟨later, -, bound⟩ := bound
    rw [savedCost_of_ne frame converts same, kept]
    apply max_le
    · exact length_pos_iff.mpr some
    · change _ ≤ saved.length
      omega

lemma endSubparser_emits (sound : inner.Sound depth) (state : frame.state = .sendToSubparser)
    (number : frame.subPartNum = some subPartNum) (place : Place frame partNum subPartNum before)
    (ongoing : Ongoing rest subPartNum inside)
    (enough : 1 + savedCost frame + Parser.cost rest ≤ depth) :
    Emits (endSubparser inner frame rest) (fun _ new => Finishes subPartNum inside new)
      fun new => Unfinished partNum (before ++ inside ++ new) := by
  have there : frame.subPartNum.getD [] = subPartNum := by
    rw [number]
    rfl
  have outer (new : List Event) (unfinished : Unfinished subPartNum (inside ++ new)) :
      Unfinished partNum (before ++ inside ++ new) := by
    rw [append_assoc]
    exact place.unfinished unfinished
  rw [endSubparser, there]
  split
  · rename_i conversion c saved converts kept
    apply (convertData_emits conversion (c :: saved) false).bind
    · rintro new rfl
      rw [append_nil]
      apply (Ongoing.within state number place ongoing).unfinished
      rw [state]
      exact ParserState.noConfusion
    · rintro converted new ⟨rfl, succeeded⟩
      have fits := flushed_fits converts kept (cons_ne_nil _ _) succeeded
      apply (sound.data ongoing converted.text true (by omega)).bind
      · exact outer
      · intro later new continues
        have bound := continues.cost
        apply (sound.eof continues.ongoing (by omega)).mono
        · rintro - more ⟨tree, whole⟩
          rw [append_assoc] at whole
          exact ⟨tree, whole⟩
        · intro more unfinished
          rw [append_assoc] at unfinished
          exact outer (new ++ more) unfinished
  · exact (sound.eof ongoing (by omega)).mono (fun _ _ finishes => finishes) outer

lemma flushSaved_emits (frame) :
    Emits (flushSaved frame)
      (fun data new => new = [] ∧ (frame.savedBuffer = some [] → data = [])) fun new => new = [] := by
  rw [flushSaved]
  split
  · rename_i conversion c saved converts kept
    apply (convertData_emits conversion (c :: saved) false).bind
    · exact fun _ same => same
    · rintro converted new ⟨rfl, succeeded⟩
      refine Emits.pure ⟨rfl, fun nothing => ?_⟩
      rw [kept] at nothing
      cases nothing
  · exact Emits.pure ⟨rfl, fun _ => rfl⟩

lemma finishBody_emits (sound : inner.Sound depth)
    (ongoing : Ongoing (frame :: rest) partNum events)
    (enough : Parser.cost (frame :: rest) ≤ depth) :
    Emits (finishBody inner frame rest partNum)
      (fun _ new => Finishes partNum events (new ++ [.endPart partNum]))
      fun new => Unfinished partNum (events ++ new) := by
  have flush (inBody : frame.state ≠ .parsingHeaders)
      (returned : ∀ data, (frame.savedBuffer = some [] → data = []) →
        Emits (if data ≠ [] then callEmitter (.deliverPartData partNum data) else pure ())
          (fun _ new => Finishes partNum events (new ++ [.endPart partNum]))
          fun new => Unfinished partNum (events ++ new)) :
      Emits (flushSaved frame >>= fun data =>
          if data ≠ [] then callEmitter (.deliverPartData partNum data) else pure ())
        (fun _ new => Finishes partNum events (new ++ [.endPart partNum]))
        fun new => Unfinished partNum (events ++ new) := by
    apply (flushSaved_emits frame).bind
    · rintro new rfl
      rw [append_nil]
      exact ongoing.unfinished inBody
    · rintro data new ⟨rfl, nothing⟩
      exact returned data nothing
  have nothing (saved : frame.savedBuffer = some []) (tree : PartTree)
      (whole : events ++ [.endPart partNum] = tree.events partNum) (data : BinaryString)
      (empty : frame.savedBuffer = some [] → data = []) :
      Emits (if data ≠ [] then callEmitter (.deliverPartData partNum data) else pure ())
        (fun _ new => Finishes partNum events (new ++ [.endPart partNum]))
        fun new => Unfinished partNum (events ++ new) := by
    rw [empty saved]
    exact Emits.pure ⟨tree, whole⟩
  cases ongoing with
  | waiting fresh =>
    have reading : frame.state = .parsingHeaders := by rw [fresh]
    rw [finishBody, reading]
    exact Emits.callEmitter ⟨.leaf ⟨frame.headerData, frame.defaultContentType⟩ [], rfl⟩
  | leaf start data state whole =>
    rw [finishBody, state]
    refine flush ?_ ?_
    · rw [state]
      exact ParserState.noConfusion
    · intro last _
      refine Emits.ite (fun _ => Emits.callEmitter ⟨.leaf start (data ++ [last]), ?_⟩)
        fun _ => Emits.pure ⟨.leaf start data, rfl⟩
      rw [PartTree.events, map_append, ← cons_append, append_assoc]
      rfl
  | finished start parts state whole saved =>
    rw [finishBody, state]
    refine flush ?_ ?_
    · rw [state]
      exact ParserState.noConfusion
    · exact nothing saved (.multipart start parts) rfl
  | preamble start state splits first saved more =>
    rw [finishBody, state]
    refine flush ?_ ?_
    · rw [state]
      exact ParserState.noConfusion
    · exact nothing saved (.multipart start []) rfl
  | @within _ subPartNum _ _ before inside state number place ongoing =>
    change frame.cost + Parser.cost rest ≤ depth at enough
    rw [frame.cost_of_inBody (by rw [state]; exact ParserState.noConfusion)] at enough
    rw [finishBody, state]
    apply (endSubparser_emits sound state number place ongoing enough).mono
    · rintro - new ⟨last, whole⟩
      obtain ⟨tree, events⟩ := place.whole last
      refine ⟨tree, ?_⟩
      rw [← append_assoc, append_assoc before, whole]
      exact events
    · exact fun new unfinished => unfinished

lemma dispatchEOF_emits (sound : inner.Sound depth)
    (ongoing : Ongoing parser partNum events) (enough : Parser.cost parser ≤ depth) :
    Emits (dispatchEOF inner parser partNum) (fun _ new => Finishes partNum events new)
      fun new => Unfinished partNum (events ++ new) := by
  cases parser with
  | nil => exact absurd rfl ongoing.ne_nil
  | cons frame rest =>
    rw [dispatchEOF]
    apply (finishBody_emits sound ongoing enough).bind
    · exact fun new unfinished => unfinished
    · intro _ new finishes
      exact Emits.callEmitter finishes

/-- The methods are sound however many calls within calls are allowed for. -/
theorem dispatcher_sound (decoder : TextDecoder) (bodyFormat : BodyFormat) (depth : Nat) :
    (dispatcher decoder bodyFormat depth).Sound depth := by
  induction depth with
  | zero =>
    constructor
    · intro parser partNum events ongoing buffer checkSplit enough
      exact absurd enough (Nat.not_lt_zero _)
    · intro parser partNum events ongoing enough
      exact absurd enough (Nat.not_lt_zero _)
  | succ depth ih =>
    constructor
    · intro parser partNum events ongoing buffer checkSplit enough
      exact dispatchData_emits ih ongoing buffer checkSplit (Nat.le_of_lt_succ enough)
    · intro parser partNum events ongoing enough
      exact dispatchEOF_emits ih ongoing (Nat.le_of_lt_succ enough)

end

/-- The events that begin a message, if it was begun. -/
def Opens (triggeredCall : Bool) (inside events : List Event) : Prop :=
  if triggeredCall then events = .startMessage :: inside else inside = [] ∧ events = []

/-- The parser of a message in the course of it, and the events so far. -/
structure Delivering (mimeParser : MimeParser) (events : List Event) (received : Nat) : Prop where
  ongoing : ∃ inside, Ongoing mimeParser.parser [] inside ∧
    Opens mimeParser.triggeredCall inside events
  cost : Parser.cost mimeParser.parser + mimeParser.holdData.length ≤ 1 + received

/-- A message that was begun and not ended. -/
def UnfinishedMessage (events : List Event) : Prop :=
  ∃ inside, events = .startMessage :: inside ∧ Unfinished [] inside

section

variable {events inside : List Event}
variable (decoder : TextDecoder) (bodyFormat : BodyFormat)

lemma triggerCall_emits (mimeParser) (opens : Opens mimeParser.triggeredCall inside events) :
    Emits (triggerCall mimeParser)
      (fun later new => later = { mimeParser with triggeredCall := true } ∧
        events ++ new = .startMessage :: inside) fun _ => False := by
  refine Emits.ite (fun triggered => Emits.pure ?_) fun waiting => ?_
  · rw [Opens, if_pos triggered] at opens
    rw [append_nil, ← triggered]
    exact ⟨rfl, opens⟩
  · rw [Opens, if_neg waiting] at opens
    obtain ⟨rfl, rfl⟩ := opens
    exact Emits.callEmitter_bind (Emits.pure ⟨rfl, rfl⟩)

lemma deliverData_emits (delivering : Delivering mimeParser events received) (packet)
    (enough : 1 + received + packet.length < depth) :
    Emits (deliverData decoder bodyFormat depth mimeParser packet)
      (fun later new => Delivering later (events ++ new) (received + packet.length))
      fun new => UnfinishedMessage (events ++ new) := by
  obtain ⟨inside, ongoing, opens⟩ := delivering.ongoing
  have cost := delivering.cost
  cases conditioned : conditionToEndOnCRLF (mimeParser.holdData ++ packet) with
  | mk buffer holdData =>
    have length : buffer.length + holdData.length = mimeParser.holdData.length + packet.length := by
      cases conditioned
      rw [← length_append, ← length_append, take_append_drop]
    rw [deliverData, conditioned]
    refine Emits.ite (fun nothing => Emits.pure ?_) fun some => ?_
    · rw [nothing, length_nil] at length
      rw [append_nil]
      refine ⟨⟨inside, ongoing, opens⟩, ?_⟩
      change Parser.cost mimeParser.parser + holdData.length ≤ _
      omega
    · apply (triggerCall_emits { mimeParser with holdData := holdData } opens).bind
      · exact fun new impossible => impossible.elim
      · rintro _ first ⟨rfl, started⟩
        apply ((dispatcher_sound decoder bodyFormat depth).data_of_ne ongoing some true
          (by omega)).bind
        · intro second unfinished
          exact ⟨inside ++ second, by rw [← append_assoc, started]; rfl, unfinished⟩
        · intro later second continues
          have bound := continues.cost
          refine Emits.pure ⟨⟨inside ++ second, continues.ongoing, ?_⟩, ?_⟩
          · change events ++ (first ++ (second ++ [])) = .startMessage :: (inside ++ second)
            rw [append_nil, ← append_assoc, started]
            rfl
          · change Parser.cost later + holdData.length ≤ _
            omega

variable (packets : List BinaryString)

lemma deliverAll_emits (delivering : Delivering mimeParser events received)
    (enough : 1 + received + packets.flatten.length < depth) :
    Emits (deliverAll decoder bodyFormat depth mimeParser packets)
      (fun later new => Delivering later (events ++ new) (received + packets.flatten.length))
      fun new => UnfinishedMessage (events ++ new) := by
  induction packets generalizing mimeParser events received with
  | nil =>
    refine Emits.pure ?_
    rw [append_nil]
    exact delivering
  | cons packet packets ih =>
    rw [flatten_cons, length_append] at enough ⊢
    apply (deliverData_emits decoder bodyFormat delivering packet (by omega)).bind
    · exact fun new unfinished => unfinished
    · intro later new delivering
      apply (ih delivering (by omega)).mono
      · intro last more delivering
        rw [← append_assoc, ← Nat.add_assoc]
        exact delivering
      · intro more unfinished
        rw [← append_assoc]
        exact unfinished

lemma deliverEOF_emits (delivering : Delivering mimeParser events received)
    (enough : 1 + received < depth) :
    Emits (deliverEOF decoder bodyFormat depth mimeParser)
      (fun _ new => ∃ tree : PartTree,
        events ++ new = .startMessage :: tree.events [] ++ [.endMessage])
      fun new => UnfinishedMessage (events ++ new) := by
  obtain ⟨inside, ongoing, opens⟩ := delivering.ongoing
  have cost := delivering.cost
  have sound := dispatcher_sound decoder bodyFormat depth
  have begun {first second : List Event} (started : events ++ first = .startMessage :: inside) :
      events ++ (first ++ second) = .startMessage :: (inside ++ second) := by
    rw [← append_assoc, started]
    rfl
  apply (triggerCall_emits mimeParser opens).bind
  · exact fun new impossible => impossible.elim
  · rintro _ first ⟨rfl, started⟩
    have within : Parser.cost mimeParser.parser + mimeParser.holdData.length < depth := by omega
    have flushed : Emits (flushHeld decoder bodyFormat depth
          { mimeParser with triggeredCall := true })
        (Continues mimeParser.parser [] inside mimeParser.holdData.length true)
        fun new => Unfinished [] (inside ++ new) :=
      Emits.ite (fun some => sound.data_of_ne ongoing some true within)
        fun _ => Emits.pure (.refl ongoing _ _)
    apply flushed.bind
    · exact fun second unfinished => ⟨inside ++ second, begun started, unfinished⟩
    · intro parser second continues
      have bound := continues.cost
      apply (sound.eof continues.ongoing (by omega)).bind
      · intro third unfinished
        rw [append_assoc] at unfinished
        exact ⟨_, begun started, unfinished⟩
      · rintro - third ⟨tree, whole⟩
        refine Emits.callEmitter ⟨tree, ?_⟩
        rw [begun started, ← append_assoc second, ← append_assoc, ← append_assoc,
          whole, cons_append]

/-- A message and its end, in packets, with as many calls within calls as they may need. -/
theorem parse_emits (enough : 1 + packets.flatten.length < depth) :
    Emits (parse decoder bodyFormat depth packets)
      (fun _ events => ∃ tree : PartTree,
        events = .startMessage :: tree.events [] ++ [.endMessage]) UnfinishedMessage := by
  have fresh : Delivering {} [] 0 := ⟨⟨[], .waiting (.mk [] none), rfl, rfl⟩, le_refl _⟩
  apply (deliverAll_emits decoder bodyFormat packets fresh (by omega)).bind
  · exact fun new unfinished => unfinished
  · intro mimeParser new delivering
    exact deliverEOF_emits decoder bodyFormat delivering (by omega)

end

/-- A run over a message in packets, with as many calls within calls as they need. -/
def parseMessage (decoder : TextDecoder) (bodyFormat : BodyFormat) (packets : List BinaryString) :
    Except Halt Unit × Log :=
  parse decoder bodyFormat (packets.flatten.length + 2) packets {}

lemma parseMessage_emits (decoder) (bodyFormat) (packets) :
    match parseMessage decoder bodyFormat packets with
    | (.ok _, log) => (∃ tree : PartTree,
        log.events = .startMessage :: tree.events [] ++ [.endMessage]) ∧
      ∀ call ∈ log.calls, ¬ call.Throws
    | (.error .thrown, log) => UnfinishedMessage log.events ∧ ∃ call ∈ log.calls, call.Throws
    | (.error .exhausted, _) => False := by
  have emits : Emits (parse decoder bodyFormat (packets.flatten.length + 2) packets) _ _ :=
    parse_emits decoder bodyFormat packets (by omega)
  obtain ⟨new, calls, log, outcome⟩ := emits {}
  rw [parseMessage]
  cases ended : parse decoder bodyFormat (packets.flatten.length + 2) packets {} with
  | mk result last =>
    rw [ended] at log outcome
    cases log
    cases result with
    | ok value => exact outcome
    | error halt =>
      cases halt with
      | thrown | exhausted => exact outcome

/-- The calls within calls are enough for every message. -/
theorem parseMessage_ne_exhausted (decoder : TextDecoder) (bodyFormat : BodyFormat)
    (packets : List BinaryString) :
    (parseMessage decoder bodyFormat packets).1 ≠ .error .exhausted := by
  have outcome := parseMessage_emits decoder bodyFormat packets
  intro exhausted
  cases ended : parseMessage decoder bodyFormat packets with
  | mk result log =>
    rw [ended] at outcome exhausted
    cases exhausted
    exact outcome

lemma UnfinishedMessage.not_wellNested (unfinished : UnfinishedMessage events) :
    ¬ WellNested events := by
  obtain ⟨inside, rfl, started, longer⟩ := unfinished
  intro nested
  have matched := nested.matched []
  have none : [] ∉ endedParts inside := fun mem => absurd (longer [] mem) (Nat.lt_irrefl 0)
  change (endedParts inside).count [] = (startedParts inside).count [] at matched
  rw [count_eq_zero_of_not_mem none] at matched
  exact absurd matched.symm (count_pos_iff.mpr started).ne'

/-- A decoder that leaves every text as it is. -/
def plainDecoder : TextDecoder where
  decode _ _ text := some text

/-- `Content-Transfer-Encoding: base64`, an empty line and `A===`. -/
def paddedMessage : BinaryString :=
  (js "Content-Transfer-Encoding: base64\r\n\r\nA===").map UInt16.toUInt8

end CommCentral.Jsmime
