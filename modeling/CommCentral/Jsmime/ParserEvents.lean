import CommCentral.Jsmime.PartTree

/-! What the programs of the MIME parser add to the log, and whether a conversion throws. -/
namespace CommCentral.Jsmime

open Lib List

def ConvertCall.Throws (call : ConvertCall) : Prop := call.conversion.Throws call.buffer

instance (call : ConvertCall) : Decidable call.Throws :=
  inferInstanceAs (Decidable (call.conversion.Throws call.buffer))

/-- What a program adds to the log: events as said for its result and calls that return, or
events as said for an exception and a call that throws. -/
def Emits {α : Type} (program : MimeM α) (returned : α → List Event → Prop)
    (thrown : List Event → Prop) : Prop :=
  ∀ log, ∃ new calls, (program log).2 = ⟨log.events ++ new, log.calls ++ calls⟩ ∧
    match (program log).1 with
    | .ok value => returned value new ∧ ∀ call ∈ calls, ¬ call.Throws
    | .error .thrown => thrown new ∧ ∃ call ∈ calls, call.Throws
    | .error .exhausted => False

namespace Emits

variable {α β : Type} {returned : α → List Event → Prop} {thrown : List Event → Prop}

lemma pure {value : α} (holds : returned value []) :
    Emits (Pure.pure value : MimeM α) returned thrown := by
  intro log
  refine ⟨[], [], ?_, holds, ?_⟩
  · change log = _
    rw [append_nil, append_nil]
  · intro call mem
    cases mem

lemma callEmitter {returned : Unit → List Event → Prop} (holds : returned () [event]) :
    Emits (Jsmime.callEmitter event) returned thrown := by
  intro log
  refine ⟨[event], [], ?_, holds, ?_⟩
  · change Log.mk _ _ = _
    rw [append_nil]
  · intro call mem
    cases mem

lemma convertData {returned : Converted → List Event → Prop}
    (holds : ∀ converted, conversion.convert buffer more = some converted → returned converted [])
    (fails : thrown []) : Emits (Jsmime.convertData conversion buffer more) returned thrown := by
  intro log
  refine ⟨[], [⟨conversion, buffer⟩], ?_⟩
  have threw := conversion.convert_eq_none_iff buffer more
  rw [Jsmime.convertData]
  cases outcome : conversion.convert buffer more with
  | none =>
    refine ⟨?_, fails, _, mem_singleton_self _, threw.mp outcome⟩
    rw [append_nil]
  | some converted =>
    refine ⟨?_, holds converted outcome, ?_⟩
    · rw [append_nil]
    · intro call mem throws
      rw [mem_singleton.mp mem] at throws
      have none := threw.mpr throws
      rw [outcome] at none
      cases none

lemma mono {weaker : α → List Event → Prop} {weakerThrown : List Event → Prop}
    (emits : Emits program returned thrown) (ok : ∀ value new, returned value new → weaker value new)
    (error : ∀ new, thrown new → weakerThrown new) : Emits program weaker weakerThrown := by
  intro log
  obtain ⟨new, calls, later, outcome⟩ := emits log
  refine ⟨new, calls, later, ?_⟩
  cases result : (program log).1 with
  | ok value =>
    rw [result] at outcome
    exact ⟨ok _ _ outcome.1, outcome.2⟩
  | error halt =>
    rw [result] at outcome
    cases halt with
    | thrown => exact ⟨error _ outcome.1, outcome.2⟩
    | exhausted => exact outcome

lemma bind {next : α → MimeM β} {first : α → List Event → Prop} {firstThrown : List Event → Prop}
    {returned : β → List Event → Prop} (emits : Emits program first firstThrown)
    (error : ∀ new, firstThrown new → thrown new)
    (second : ∀ value new, first value new →
      Emits (next value) (fun result more => returned result (new ++ more))
        fun more => thrown (new ++ more)) : Emits (program >>= next) returned thrown := by
  intro log
  obtain ⟨new, calls, later, outcome⟩ := emits log
  change ∃ _ _, (Attempt.bind program next log).2 = _ ∧ match (Attempt.bind program next log).1 with
    | .ok value => _ | .error .thrown => _ | .error .exhausted => _
  rw [Attempt.bind]
  cases ended : program log with
  | mk result last =>
    rw [ended] at later outcome
    cases later
    cases result with
    | ok value =>
      obtain ⟨more, moreCalls, after, rest⟩ := second value new outcome.1
        ⟨log.events ++ new, log.calls ++ calls⟩
      refine ⟨new ++ more, calls ++ moreCalls, ?_, ?_⟩
      · rw [after, append_assoc, append_assoc]
      · cases final : (next value ⟨log.events ++ new, log.calls ++ calls⟩).1 with
        | ok value =>
          rw [final] at rest
          exact ⟨rest.1, forall_mem_append.mpr ⟨outcome.2, rest.2⟩⟩
        | error halt =>
          rw [final] at rest
          cases halt with
          | thrown =>
            obtain ⟨call, mem, throws⟩ := rest.2
            exact ⟨rest.1, call, mem_append_right _ mem, throws⟩
          | exhausted => exact rest
    | error halt =>
      cases halt with
      | thrown => exact ⟨new, calls, rfl, error new outcome.1, outcome.2⟩
      | exhausted => exact ⟨new, calls, rfl, outcome⟩

lemma callEmitter_bind {next : Unit → MimeM α} (rest : Emits (next ()) (fun value more => returned
      value (event :: more)) fun more => thrown (event :: more)) :
    Emits (Jsmime.callEmitter event >>= next) returned thrown := by
  have first : Emits (Jsmime.callEmitter event) (fun _ new => new = [event]) fun _ => False :=
    Emits.callEmitter rfl
  apply first.bind
  · exact fun _ impossible => impossible.elim
  · rintro - new rfl
    exact rest

lemma ite {condition : Prop} [Decidable condition]
    (holds : condition → Emits first returned thrown)
    (fails : ¬ condition → Emits second returned thrown) :
    Emits (if condition then first else second) returned thrown := by
  split
  · exact holds ‹_›
  · exact fails ‹_›

end Emits

/-! ### Parsers in the course of a part

The events of the part so far, and the calls within calls that its text is enough for. -/

/-- A parser that has read nothing but a part of its headers. -/
def Frame.Fresh (frame : Frame) : Prop :=
  frame = { headerData := frame.headerData, defaultContentType := frame.defaultContentType }

lemma Frame.Fresh.mk (headerData) (defaultContentType) :
    Frame.Fresh { headerData := headerData, defaultContentType := defaultContentType } :=
  rfl

/-- The fields of the parser of a multipart. -/
structure Frame.Splits (frame : Frame) : Prop where
  boundary : frame.boundary ≠ none
  convertData : frame.convertData = some .holdLine

/-- Where a subparser works: in a part of a multipart or in the message of a part. The events
are those of the part before it. -/
inductive Place (frame : Frame) (partNum : JsString) : (subPartNum : JsString) → List Event → Prop
  | part (start : PartStart) (parts : List PartTree) (splits : frame.Splits)
    (count : frame.count = parts.length + 2) :
    Place frame partNum (childNum partNum (parts.length + 1))
      (start.event partNum :: partsEvents partNum 1 parts)
  | body (start : PartStart) (whole : frame.boundary = none) :
    Place frame partNum (bodyNum partNum) [start.event partNum]

/-- A parser in the course of a part, and the events of the part so far. -/
inductive Ongoing : Parser → (partNum : JsString) → List Event → Prop
  | waiting {partNum frame} (fresh : frame.Fresh) : Ongoing [frame] partNum []
  | leaf {partNum frame} (start : PartStart) (data : List BinaryString)
    (state : frame.state = .sendToEmitter) (whole : frame.boundary = none) :
    Ongoing [frame] partNum (start.event partNum :: data.map (Event.deliverPartData partNum))
  /-- A multipart after its terminator, or without a boundary. -/
  | finished {partNum frame} (start : PartStart) (parts : List PartTree)
    (state : frame.state = .sendToBlackHole) (whole : frame.boundary = none)
    (saved : frame.savedBuffer = some []) :
    Ongoing [frame] partNum (start.event partNum :: partsEvents partNum 1 parts)
  | preamble {partNum frame rest} (start : PartStart) (state : frame.state = .sendToBlackHole)
    (splits : frame.Splits) (first : frame.subPartNum = none) (saved : frame.savedBuffer = some [])
    (more : rest ≠ []) : Ongoing (frame :: rest) partNum [start.event partNum]
  | within {partNum subPartNum frame rest before inside} (state : frame.state = .sendToSubparser)
    (number : frame.subPartNum = some subPartNum) (place : Place frame partNum subPartNum before)
    (ongoing : Ongoing rest subPartNum inside) :
    Ongoing (frame :: rest) partNum (before ++ inside)

/-- The part has been started, and of the parts that have ended each is inside it. -/
structure Unfinished (partNum : JsString) (events : List Event) : Prop where
  started : partNum ∈ startedParts events
  inside : ∀ other ∈ endedParts events, partNum.length < other.length

lemma childNum_length (partNum) (count : Nat) :
    partNum.length < (childNum partNum count).length := by
  have digits := length_pos_iff.mpr (decimal_ne_nil count)
  rw [childNum, partPrefix, length_append]
  split
  · rw [length_append]
    omega
  · omega

lemma bodyNum_length (partNum) : partNum.length < (bodyNum partNum).length := by
  rw [bodyNum, length_append]
  exact Nat.lt_add_of_pos_right (by decide)

lemma numberAt_length (partNum) (path) : partNum.length ≤ (numberAt partNum path).length := by
  induction path generalizing partNum with
  | nil => exact le_refl _
  | cons step path ih =>
    cases step with
    | child count => exact (childNum_length partNum count).le.trans (ih _)
    | body => exact (bodyNum_length partNum).le.trans (ih _)

lemma partsEvents_inside {count : Nat} {parts : List PartTree}
    (ended : other ∈ endedParts (partsEvents partNum count parts)) :
    partNum.length < other.length := by
  have started := (partsEvents_ended partNum count parts).mem_iff.mp ended
  rw [partsEvents_started] at started
  obtain ⟨path, mem, rfl⟩ := mem_map.mp started
  obtain ⟨number, rest, rfl, -⟩ := (partsPaths_nodup count parts).2 path mem
  exact (childNum_length partNum number).trans_le (numberAt_length _ rest)

namespace Place

variable {before inside : List Event}

section

variable (place : Place frame partNum subPartNum before)
include place

lemma save (saved) : Place { frame with savedBuffer := saved } partNum subPartNum before := by
  cases place with
  | part start parts splits count => exact .part start parts ⟨splits.boundary, splits.convertData⟩ count
  | body start whole => exact .body start whole

lemma longer : partNum.length < subPartNum.length := by
  cases place with
  | part start parts => exact childNum_length partNum _
  | body start => exact bodyNum_length partNum

lemma started : partNum ∈ startedParts before := by
  cases place with
  | part | body => exact mem_cons_self

lemma ended_inside : ∀ other ∈ endedParts before, partNum.length < other.length := by
  intro other mem
  cases place with
  | part => exact partsEvents_inside mem
  | body => cases mem

lemma unfinished (ofInside : Unfinished subPartNum inside) :
    Unfinished partNum (before ++ inside) := by
  constructor
  · rw [startedParts_append]
    exact mem_append_left _ place.started
  · intro other mem
    rw [endedParts_append] at mem
    cases mem_append.mp mem with
    | inl ofBefore => exact place.ended_inside other ofBefore
    | inr ended => exact place.longer.trans (ofInside.inside other ended)

lemma whole (last : PartTree) :
    ∃ tree : PartTree, before ++ last.events subPartNum ++ [.endPart partNum] =
      tree.events partNum := by
  cases place with
  | part start parts =>
    refine ⟨.multipart start (parts ++ [last]), ?_⟩
    rw [PartTree.events, partsEvents_concat, Nat.add_comm 1]
    rfl
  | body start => exact ⟨.message start last, rfl⟩

end

end Place

lemma Ongoing.ne_nil (ongoing : Ongoing parser partNum events) : parser ≠ [] := by
  intro nothing
  rw [nothing] at ongoing
  cases ongoing

lemma Ongoing.ended_inside (ongoing : Ongoing parser partNum events) :
    ∀ other ∈ endedParts events, partNum.length < other.length := by
  induction ongoing with
  | waiting fresh | preamble start =>
    intro other mem
    cases mem
  | leaf start data =>
    intro other mem
    change other ∈ endedParts (data.map _) at mem
    rw [endedParts_data] at mem
    cases mem
  | finished start parts => exact fun other mem => partsEvents_inside mem
  | within state number place ongoing ih =>
    intro other mem
    rw [endedParts_append] at mem
    cases mem_append.mp mem with
    | inl ofBefore => exact place.ended_inside other ofBefore
    | inr ofInside => exact place.longer.trans (ih other ofInside)

variable {frame : Frame}

lemma Ongoing.unfinished (ongoing : Ongoing (frame :: rest) partNum events)
    (inBody : frame.state ≠ .parsingHeaders) : Unfinished partNum events := by
  refine ⟨?_, ongoing.ended_inside⟩
  cases ongoing with
  | waiting fresh =>
    rw [fresh] at inBody
    exact absurd rfl inBody
  | leaf | finished | preamble => exact mem_cons_self
  | within state number place =>
    rw [startedParts_append]
    exact mem_append_left _ place.started

/-- What the saved text may still become. The constructor of objects makes a character of
nothing. -/
def savedCost (frame : Frame) : Nat :=
  match frame.convertData with
  | none => 0
  | some (.decoder .object) => 1
  | some _ => (savedText frame.savedBuffer).length

/-- The calls within calls that a parser may need for the text it has kept. -/
def Frame.cost (frame : Frame) : Nat :=
  1 + (if frame.state = .parsingHeaders then frame.headerData.length else 0) + savedCost frame

def Parser.cost : Parser → Nat
  | [] => 0
  | frame :: rest => frame.cost + Parser.cost rest

lemma Frame.cost_pos (frame : Frame) : 0 < frame.cost := by
  rw [Frame.cost]
  omega

lemma Frame.cost_of_inBody (inBody : frame.state ≠ .parsingHeaders) :
    frame.cost = 1 + savedCost frame := by
  rw [Frame.cost, if_neg inBody]

lemma Frame.Fresh.cost (fresh : frame.Fresh) :
    frame.cost = 1 + frame.headerData.length := by
  rw [fresh]
  rfl

lemma Parser.cost_pos (more : parser ≠ []) : 0 < Parser.cost parser := by
  cases parser with
  | nil => exact absurd rfl more
  | cons frame rest => exact Nat.add_pos_left frame.cost_pos _

/-- How much more a conversion may make than it has saved: as much as it is given, and more
than nothing unless nothing was saved. -/
def Room (frame : Frame) (buffer : BinaryString) (room : Nat) : Prop :=
  buffer.length ≤ room ∧ (frame.savedBuffer ≠ some [] → 0 < room)

lemma savedCost_of_object (frame) (converts : frame.convertData = some (.decoder .object)) :
    savedCost frame = 1 := by
  rw [savedCost, converts]

lemma savedCost_of_ne (frame) (converts : frame.convertData = some conversion)
    (other : conversion ≠ .decoder .object) :
    savedCost frame = (savedText frame.savedBuffer).length := by
  rw [savedCost, converts]
  cases conversion with
  | holdLine => rfl
  | decoder decoder =>
    cases decoder with
    | object => exact absurd rfl other
    | quotedPrintable | base64 | prototype => rfl

lemma Frame.cost_of_empty (frame : Frame) (inBody : frame.state ≠ .parsingHeaders)
    (saved : frame.savedBuffer = some [])
    (other : frame.convertData ≠ some (.decoder .object)) : frame.cost = 1 := by
  rw [frame.cost_of_inBody inBody]
  cases converts : frame.convertData with
  | none =>
    rw [savedCost, converts]
    rfl
  | some conversion =>
    rw [savedCost_of_ne frame converts fun same => other (converts.trans (congrArg some same)), saved]
    rfl

lemma Frame.cost_le_of_empty (frame : Frame) (inBody : frame.state ≠ .parsingHeaders)
    (saved : frame.savedBuffer = some []) : frame.cost ≤ 2 := by
  by_cases object : frame.convertData = some (.decoder .object)
  · rw [frame.cost_of_inBody inBody, savedCost_of_object frame object]
  · rw [frame.cost_of_empty inBody saved object]
    exact Nat.le_succ _

lemma converted_fits (fits : Room frame buffer room)
    (converts : frame.convertData = some conversion)
    (succeeded : conversion.convert (savedText frame.savedBuffer ++ buffer) true = some converted) :
    converted.text.length + savedCost { frame with savedBuffer := converted.saved } ≤
      savedCost frame + room := by
  have bound := Conversion.convert_length succeeded
  by_cases same : conversion = .decoder .object
  · rw [if_pos same] at bound
    rw [same] at converts succeeded
    have later : savedCost { frame with savedBuffer := converted.saved } = 1 :=
      savedCost_of_object _ converts
    rw [bound, later, savedCost_of_object frame converts]
    apply Nat.add_le_add_left
    by_cases nothing : frame.savedBuffer = some []
    · -- Without any text the constructor makes no character, and the call throws.
      have given : buffer ≠ [] := by
        intro empty
        rw [nothing, empty] at succeeded
        cases succeeded
      exact (length_pos_iff.mpr given).trans_le fits.1
    · exact fits.2 nothing
  · rw [if_neg same] at bound
    obtain ⟨saved, kept, bound⟩ := bound
    have later : savedCost { frame with savedBuffer := converted.saved } =
        (savedText converted.saved).length :=
      savedCost_of_ne _ converts same
    rw [later, kept, savedCost_of_ne frame converts same]
    rw [length_append] at bound
    exact bound.trans (Nat.add_le_add_left fits.1 _)

lemma applyDataConversion_emits (fits : Room frame buffer room) :
    Emits (applyDataConversion frame buffer)
      (fun (later, text) new => new = [] ∧
        (∃ saved, later = { frame with savedBuffer := saved }) ∧
        text.length + savedCost later ≤ savedCost frame + room)
      fun new => new = [] := by
  rw [applyDataConversion]
  split
  · refine Emits.pure ⟨rfl, ⟨frame.savedBuffer, rfl⟩, ?_⟩
    rw [Nat.add_comm]
    exact Nat.add_le_add_left fits.1 _
  · rename_i conversion converts
    have converted : Emits (convertData conversion (savedText frame.savedBuffer ++ buffer) true)
        (fun converted new => new = [] ∧
          conversion.convert (savedText frame.savedBuffer ++ buffer) true = some converted)
        fun new => new = [] :=
      Emits.convertData (fun converted succeeded => ⟨rfl, succeeded⟩) rfl
    apply converted.bind
    · exact fun _ nothing => nothing
    · rintro converted new ⟨rfl, succeeded⟩
      exact Emits.pure ⟨rfl, ⟨converted.saved, rfl⟩, converted_fits fits converts succeeded⟩

end CommCentral.Jsmime
