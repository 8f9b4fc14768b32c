import CommCentral.Mime.LineDecoder
import Mathlib.Data.List.TakeWhile

/-! A decoder of lines that takes one byte at a time. While the local pointer stays at
the start of the buffer and there are no nulls, the loop over a buffer does what this one
does, so that it makes no difference how a text is cut into calls. -/

namespace CommCentral.Mime

open Lib List Option

/-- The state, the line so far and what was written. -/
structure LineFeed where
  dsState : DecoderState
  line : List UInt8
  written : List UInt8

section
variable {room size : Nat} {action : DecoderState → List UInt8 → Option LineAction}

def LineFeed.complete (action : DecoderState → List UInt8 → Option LineAction) (feed : LineFeed)
    (line : List UInt8) : Option LineFeed :=
  (action feed.dsState line).bind fun
    | .header dsState _ => some { feed with dsState := dsState, line := [] }
    | .finish => some { feed with dsState := .dsEnd, line := [] }
    | .body decoded => some { feed with line := [], written := feed.written ++ decoded }
    | .bad _ => none

/-- One more byte. -/
def LineFeed.step (room : Nat) (action : DecoderState → List UInt8 → Option LineAction)
    (feed : LineFeed) (c : UInt8) : Option LineFeed :=
  if feed.dsState = .dsEnd ∨ feed.line = [] ∧ isLineEnd c then some feed
  else if feed.line.length + 1 = room then
    feed.complete action ((feed.line ++ [c]).take (room - 2) ++ [CR])
  else if isLineEnd c then feed.complete action (feed.line ++ [c])
  else some { feed with line := feed.line ++ [c] }

def feedBytes (room : Nat) (action : DecoderState → List UInt8 → Option LineAction)
    (feed : LineFeed) (input : List UInt8) : Option LineFeed :=
  input.foldlM (LineFeed.step room action) feed

structure Waits (room : Nat) (line : List UInt8) : Prop where
  short : line.length < room
  plain : ∀ c ∈ line, c ≠ 0
  inside : ∀ c ∈ line, isLineEnd c = false

lemma feedBytes_cons (feed) (c : UInt8) (input) :
    feedBytes room action feed (c :: input) =
      (feed.step room action c).bind fun next => feedBytes room action next input :=
  rfl

lemma feedBytes_append (feed) (first second) :
    feedBytes room action feed (first ++ second) =
      (feedBytes room action feed first).bind fun next => feedBytes room action next second := by
  rw [feedBytes, foldlM_append]
  rfl

lemma LineFeed.complete_line {feed next : LineFeed} {line : List UInt8}
    (done : feed.complete action line = some next) : next.line = [] := by
  obtain ⟨result, acted, done⟩ := bind_eq_some_iff.mp done
  cases result with
  | header | finish | body => cases done; rfl
  | bad => cases done

lemma feedBytes_blank {feed : LineFeed} (empty : feed.line = []) (ends : isLineEnd c = true)
    (input) :
    feedBytes room action feed (c :: input) = feedBytes room action feed input := by
  rw [feedBytes_cons, LineFeed.step, if_pos (.inr ⟨empty, ends⟩), bind_some]

lemma feedBytes_ended {feed : LineFeed} (ended : feed.dsState = .dsEnd) (input) :
    feedBytes room action feed input = some feed := by
  induction input with
  | nil => rfl
  | cons c input ih => rw [feedBytes_cons, LineFeed.step, if_pos (.inl ended), bind_some, ih]

lemma Waits.snoc {line : List UInt8} (waits : Waits room line) (nonzero : c ≠ 0)
    (other : isLineEnd c = false) (space : line.length + 1 ≠ room) : Waits room (line ++ [c]) where
  short := by
    have short := waits.short
    rw [length_append, length_singleton]
    omega
  plain := forall_mem_append.mpr ⟨waits.plain, forall_mem_singleton.mpr nonzero⟩
  inside := forall_mem_append.mpr ⟨waits.inside, forall_mem_singleton.mpr other⟩

lemma Waits.nil (two : 2 ≤ room) : Waits room [] :=
  ⟨Nat.lt_of_lt_of_le Nat.two_pos two, nofun,
    nofun⟩

/-- A string without a null is read whole. -/
theorem cString_plain {text : List UInt8} (plain : ∀ c ∈ text, c ≠ 0) : cString text = text := by
  rw [cString, takeWhile_eq_self_iff]
  exact fun c mem => decide_eq_true (plain c mem)

lemma Waits.cString {line : List UInt8} (waits : Waits room line) : cString line = line :=
  cString_plain waits.plain

/-- The steps over the bytes that one turn of the loop copies: they all wait, or they are
a line end that is skipped, or they complete a line. -/
inductive Turn (room : Nat) (action : DecoderState → List UInt8 → Option LineAction)
    (line input : List UInt8) : List UInt8 → List UInt8 → Prop where
  | waiting (waits : Waits room (line ++ input))
      (feeds : ∀ feed : LineFeed, feed.dsState ≠ .dsEnd → feed.line = line →
        feedBytes room action feed input = some { feed with line := line ++ input }) :
      Turn room action line input (line ++ input) []
  | blank (c : UInt8) (rest : List UInt8) (empty : line = []) (ends : isLineEnd c = true)
      (feeds : ∀ feed : LineFeed, feed.line = [] →
        feedBytes room action feed input = feedBytes room action feed rest) :
      Turn room action line input [c] rest
  | complete (first : UInt8) (copied rest : List UInt8) (other : isLineEnd first = false)
      (plain : ∀ c ∈ first :: copied, c ≠ 0)
      (ends : (first :: copied).length ≠ room → (first :: copied).getLast?.any isLineEnd = true)
      (feeds : ∀ feed : LineFeed, feed.dsState ≠ .dsEnd → feed.line = line →
        feedBytes room action feed input =
          (feed.complete action (if (first :: copied).length = room then
              (first :: copied).take (room - 2) ++ [CR] else first :: copied)).bind
            fun next => feedBytes room action next rest) :
      Turn room action line input (first :: copied) rest

lemma copyBytes_full {line : List UInt8} (full : line.length = room) (input) :
    copyBytes room line input = (line, input) := by
  cases input with
  | nil => rfl
  | cons c input => rw [copyBytes, if_neg (by omega)]

lemma feedBytes_plain {feed : LineFeed} {line : List UInt8} (notEnd : feed.dsState ≠ .dsEnd)
    (same : feed.line = line) (other : isLineEnd c = false) (space : line.length + 1 ≠ room)
    (input) :
    feedBytes room action feed (c :: input) =
      feedBytes room action { feed with line := line ++ [c] } input := by
  have goes : ¬ (feed.dsState = .dsEnd ∨ feed.line = [] ∧ isLineEnd c) := by
    rw [other]
    simp [notEnd]
  rw [feedBytes_cons, LineFeed.step, if_neg goes, same, if_neg space, other]
  rfl

lemma feedBytes_full {feed : LineFeed} {line : List UInt8} {c : UInt8}
    (notEnd : feed.dsState ≠ .dsEnd) (same : feed.line = line) (other : isLineEnd c = false)
    (full : line.length + 1 = room) (input : List UInt8) :
    feedBytes room action feed (c :: input) =
      (feed.complete action ((line ++ [c]).take (room - 2) ++ [CR])).bind fun next =>
        feedBytes room action next input := by
  have goes : ¬ (feed.dsState = .dsEnd ∨ feed.line = [] ∧ isLineEnd c) := by
    rw [other]
    simp [notEnd]
  rw [feedBytes_cons, LineFeed.step, if_neg goes, same, if_pos full]

lemma Turn.later {line input copied rest : List UInt8} (other : isLineEnd c = false)
    (space : line.length + 1 ≠ room) (turn : Turn room action (line ++ [c]) input copied rest) :
    Turn room action line (c :: input) copied rest := by
  have moves : ∀ feed : LineFeed, feed.dsState ≠ .dsEnd → feed.line = line →
      feedBytes room action feed (c :: input) =
        feedBytes room action { feed with line := line ++ [c] } input :=
    fun feed notEnd same => feedBytes_plain notEnd same other space input
  cases turn with
  | waiting waits feeds =>
    rw [append_assoc, singleton_append] at waits feeds ⊢
    apply Turn.waiting waits
    intro feed notEnd same
    rw [moves feed notEnd same]
    exact feeds { feed with line := line ++ [c] } notEnd rfl
  | blank c' rest empty => exact absurd empty (concat_ne_nil c line)
  | complete first copied rest other plain ends feeds =>
    apply Turn.complete first copied rest other plain ends
    intro feed notEnd same
    rw [moves feed notEnd same]
    exact feeds { feed with line := line ++ [c] } notEnd rfl

lemma feedBytes_grabbed {feed : LineFeed} (empty : feed.line = []) (c : UInt8) (input) :
    feedBytes room action feed (if c = CR ∧ input.head? = some LF then input.tail else input) =
      feedBytes room action feed input := by
  split
  · rename_i waiting
    cases input with
    | nil => rfl
    | cons d input =>
      cases waiting.2
      exact (feedBytes_blank empty rfl input).symm
  · rfl

lemma copyBytes_turn {line input : List UInt8} (waits : Waits room line)
    (plain : ∀ c ∈ input, c ≠ 0) (nonempty : input ≠ []) :
    ∃ copied rest, copyBytes room line input = (copied, rest) ∧ rest.length < input.length ∧
      (∀ c ∈ rest, c ≠ 0) ∧ Turn room action line input copied rest := by
  induction input generalizing line with
  | nil => exact absurd rfl nonempty
  | cons c input ih =>
    have nonzero := plain c (mem_cons_self ..)
    have plainRest := fun d mem => plain d (mem_cons_of_mem c mem)
    rw [copyBytes, if_pos waits.short]
    cases ends : isLineEnd c with
    | true =>
      rw [if_pos rfl]
      refine ⟨_, _, rfl, ?_, ?_, ?_⟩
      · split
        · rw [length_tail, length_cons]
          omega
        · exact Nat.lt_succ_self _
      · split
        · exact fun d mem => plainRest d (mem_of_mem_tail mem)
        · exact plainRest
      · cases line with
        | nil =>
          apply Turn.blank c _ rfl ends
          intro feed empty
          rw [feedBytes_blank empty ends, feedBytes_grabbed empty]
        | cons first line =>
          have inside := waits.inside first (mem_cons_self ..)
          have plainLine := waits.plain
          apply Turn.complete first (line ++ [c]) _ inside
          · rw [← cons_append]
            exact forall_mem_append.mpr ⟨plainLine, forall_mem_singleton.mpr nonzero⟩
          · intro _
            rw [← cons_append, getLast?_concat]
            exact ends
          · intro feed notEnd same
            have goes : ¬ (feed.dsState = .dsEnd ∨ feed.line = [] ∧ isLineEnd c) := by
              rw [same]
              simp [notEnd]
            rw [feedBytes_cons, LineFeed.step, if_neg goes, same, ends, if_pos rfl,
              ← cons_append, length_append, length_singleton]
            have done : (if (first :: line).length + 1 = room then
                feed.complete action (((first :: line) ++ [c]).take (room - 2) ++ [CR])
                else feed.complete action ((first :: line) ++ [c])) =
                feed.complete action (if (first :: line).length + 1 = room then
                  ((first :: line) ++ [c]).take (room - 2) ++ [CR] else (first :: line) ++ [c]) := by
              split <;> rfl
            rw [done]
            cases completed : feed.complete action (if (first :: line).length + 1 = room then
                  ((first :: line) ++ [c]).take (room - 2) ++ [CR] else (first :: line) ++ [c]) with
            | none => rfl
            | some next =>
              rw [bind_some, bind_some,
                feedBytes_grabbed (LineFeed.complete_line completed)]
    | false =>
      simp only [Bool.false_eq_true, if_false]
      by_cases full : line.length + 1 = room
      · have length : (line ++ [c]).length = room := by
          rw [length_append, length_singleton, full]
        refine ⟨line ++ [c], input, copyBytes_full length input, Nat.lt_succ_self _, plainRest, ?_⟩
        obtain ⟨first, copied, shape, other⟩ : ∃ first copied, line ++ [c] = first :: copied ∧
            isLineEnd first = false := by
          cases line with
          | nil => exact ⟨c, [], rfl, ends⟩
          | cons first line => exact ⟨first, line ++ [c], rfl, waits.inside _ (mem_cons_self ..)⟩
        have plainLine : ∀ d ∈ line ++ [c], d ≠ 0 :=
          forall_mem_append.mpr ⟨waits.plain, forall_mem_singleton.mpr nonzero⟩
        rw [shape] at length plainLine ⊢
        apply Turn.complete first copied input other plainLine (absurd length)
        intro feed notEnd same
        rw [feedBytes_full notEnd same ends full, shape, if_pos length]
      · have next := waits.snoc nonzero ends full
        cases input with
        | nil =>
          refine ⟨line ++ [c], [], rfl, Nat.zero_lt_one,
            fun d mem => absurd mem not_mem_nil, ?_⟩
          apply Turn.waiting next
          intro feed notEnd same
          rw [feedBytes_plain notEnd same ends full]
          rfl
        | cons d input =>
          obtain ⟨copied, rest, copies, less, stillPlain, turn⟩ :=
            ih next plainRest (cons_ne_nil d input)
          exact ⟨copied, rest, copies, Nat.lt_succ_of_lt less, stillPlain, turn.later ends full⟩

/-- In these states no header line moves the local pointer. -/
structure Steady (action : DecoderState → List UInt8 → Option LineAction)
    (steady : DecoderState → Prop) : Prop where
  running : ∀ dsState, steady dsState → dsState ≠ .dsEnd
  header : ∀ dsState line next advance, steady dsState →
    action dsState line = some (.header next advance) → advance = 0 ∧ steady next

lemma not_any_lineEnd {line : List UInt8} (inside : ∀ c ∈ line, isLineEnd c = false)
    {found : Option UInt8} (mem : ∀ c, found = some c → c ∈ line) :
    found.any isLineEnd = false := by
  cases found with
  | none => rfl
  | some c => exact inside c (mem c rfl)

/-- The loop over a buffer takes the bytes one at a time. -/
theorem lineDecoderLoop_feeds {steady : DecoderState → Prop} (keeps : Steady action steady)
    (two : 2 ≤ size - 1) {fuel : Nat} {input : List UInt8} (plain : ∀ c ∈ input, c ≠ 0)
    (enough : input.length ≤ fuel) {state : LineState} (here : steady state.dsState)
    (start : state.offset = 0)
    (waits : Waits (size - 1) state.line) {before : List UInt8} {last : LineFeed}
    (feeds : feedBytes (size - 1) action
      { dsState := state.dsState, line := state.line, written := before ++ state.calls.flatten }
      input = some last) :
    ∃ state', lineDecoderLoop size action fuel state input = some (state', 1) ∧
      state'.offset = 0 ∧ last.dsState = state'.dsState ∧ last.line = state'.line ∧
      last.written = before ++ state'.calls.flatten ∧ Waits (size - 1) last.line ∧
      (last.dsState ≠ .dsEnd → steady last.dsState) := by
  have notEnd := keeps.running _ here
  induction fuel generalizing state input with
  | zero =>
    cases eq_nil_of_length_eq_zero (Nat.le_zero.mp enough)
    cases feeds
    exact ⟨state, rfl, start, rfl, rfl, rfl, waits, fun _ => here⟩
  | succ fuel ih =>
    cases input with
    | nil =>
      cases feeds
      exact ⟨state, rfl, start, rfl, rfl, rfl, waits, fun _ => here⟩
    | cons c input =>
      obtain ⟨dsState, offset, line, calls, outSize⟩ := state
      cases start
      rw [lineDecoderLoop, Nat.sub_zero]
      obtain ⟨copied, rest, copies, less, plainRest, turn⟩ :=
        @copyBytes_turn (size - 1) action line (c :: input) waits plain (cons_ne_nil c input)
      have few : rest.length ≤ fuel := Nat.le_of_lt_succ (Nat.lt_of_lt_of_le less enough)
      rw [fillLine, waits.cString, copies]
      cases turn with
      | waiting next turns =>
        rw [turns _ notEnd rfl] at feeds
        cases feeds
        dsimp only
        rw [not_any_lineEnd next.inside fun d found => mem_of_mem_head? found,
          if_neg (Bool.false_ne_true), if_neg (Nat.ne_of_lt next.short),
          not_any_lineEnd next.inside fun d found => mem_of_getLast? found]
        exact ⟨_, rfl, rfl, rfl, rfl, rfl, next, fun _ => here⟩
      | blank d rest empty ends turns =>
        rw [turns _ empty] at feeds
        dsimp only
        rw [head?_cons, any_some, if_pos ends]
        rw [empty] at feeds
        exact @ih rest plainRest few { dsState, offset := 0, line := [], calls, outSize } here rfl
          (Waits.nil two) feeds notEnd
      | complete first copied rest other plainLine ends turns =>
        rw [turns _ notEnd rfl] at feeds
        obtain ⟨next, done, feeds⟩ := bind_eq_some_iff.mp feeds
        obtain ⟨result, acted, done⟩ := bind_eq_some_iff.mp done
        dsimp only
        rw [head?_cons, any_some, other, if_neg (Bool.false_ne_true)]
        generalize shape : (if (first :: copied).length = size - 1 then
            (first :: copied).take (size - 1 - 2) ++ [CR] else first :: copied) = whole at acted ⊢
        have lastEnds : whole.getLast?.any isLineEnd = true := by
          rw [← shape]
          split
          · rw [getLast?_concat]
            rfl
          · rename_i space
            exact ends space
        have noNull : cString whole = whole := by
          apply cString_plain
          intro d mem
          rw [← shape] at mem
          split at mem
          · rcases mem_append.mp mem with front | back
            · exact plainLine d (mem_of_mem_take front)
            · rw [mem_singleton.mp back]
              decide
          · exact plainLine d mem
        rw [if_pos lastEnds]
        dsimp only
        rw [noNull, acted, bind_some]
        cases result with
        | header next advance =>
          obtain ⟨rfl, here'⟩ := keeps.header _ _ _ _ here acted
          cases done
          exact @ih rest plainRest few { dsState := next, offset := 0, line := [], calls, outSize }
            here' rfl (Waits.nil two) feeds (keeps.running _ here')
        | finish =>
          cases done
          rw [feedBytes_ended rfl] at feeds
          cases feeds
          exact ⟨_, rfl, rfl, rfl, rfl, rfl, Waits.nil two, fun more => absurd rfl more⟩
        | body decoded =>
          cases done
          have appended : calls.flatten ++ decoded =
              (if decoded = [] then calls else calls ++ [decoded]).flatten := by
            split
            · rename_i nothing
              rw [nothing, append_nil]
            · rw [flatten_append, flatten_singleton]
          dsimp only at feeds
          rw [append_assoc, appended] at feeds
          exact @ih rest plainRest few (LineState.write ⟨dsState, 0, line, calls, outSize⟩ decoded)
            here rfl (Waits.nil two) feeds notEnd
        | bad kept => cases done

/-- The decoder that takes one byte at a time, after some calls. -/
def LineDecoderData.feed (data : LineDecoderData) (written : List UInt8) : LineFeed where
  dsState := data.dsState
  line := data.lineBuffer
  written := written

/-- What waits between two calls, and the state unless the decoder has ended. -/
structure LineDecoderData.Ready (size : Nat) (steady : DecoderState → Prop)
    (data : LineDecoderData) : Prop where
  waits : Waits (size - 1) data.lineBuffer
  goes : data.dsState ≠ .dsEnd → steady data.dsState

section

variable {steady : DecoderState → Prop} (keeps : Steady action steady) (two : 2 ≤ size - 1)
include keeps two

lemma decodeLines_feeds {buffer : List UInt8} (plain : ∀ c ∈ buffer, c ≠ 0) {data : LineDecoderData}
    (ready : data.Ready size steady) (outSize : Nat) {before : List UInt8} {last : LineFeed}
    (feeds : feedBytes (size - 1) action (data.feed before) buffer = some last) :
    ∃ data' calls outSize' result,
      decodeLines size action data buffer outSize = some (data', calls, outSize', result) ∧
      0 ≤ result ∧ last = data'.feed (before ++ calls.flatten) ∧ data'.Ready size steady := by
  obtain ⟨waits, goes⟩ := ready
  rw [decodeLines]
  by_cases ended : data.dsState = .dsEnd
  · rw [@feedBytes_ended _ _ (data.feed before) ended] at feeds
    cases feeds
    refine ⟨data, [], outSize, 0, if_pos ended, Int.le_refl 0, ?_, waits, goes⟩
    rw [flatten_nil, append_nil]
  · have feeds' : feedBytes (size - 1) action
        (data.feed (before ++ ([] : List (List UInt8)).flatten)) buffer = some last := by
      rw [flatten_nil, append_nil]
      exact feeds
    obtain ⟨state, looped, start, dsState, line, written, lastWaits, lastGoes⟩ :=
      @lineDecoderLoop_feeds size action steady keeps two buffer.length buffer plain (Nat.le_refl _)
        { dsState := data.dsState, offset := 0, line := data.lineBuffer, calls := [], outSize }
        (goes ended) rfl waits before last feeds'
    obtain ⟨lastState, lastLine, lastWritten⟩ := last
    dsimp only at dsState line written lastWaits lastGoes
    subst dsState line written
    rw [if_neg ended, looped]
    refine ⟨{ dsState := state.dsState, lineBuffer := state.line }, state.calls, state.outSize, 1,
      ?_, by decide, rfl, lastWaits, lastGoes⟩
    rw [map_some]
    dsimp only
    rw [if_pos start]

/-- However a text is cut into calls, the decoder takes its bytes one at a time. -/
theorem decodeLinesAll_feeds (plain : ∀ c ∈ pieces.flatten, c ≠ 0) (ready : data.Ready size steady)
    {last : LineFeed}
    (feeds : feedBytes (size - 1) action (data.feed before) pieces.flatten = some last) :
    ∃ data' calls, decodeLinesAll size action data pieces = some (data', calls) ∧
      last = data'.feed (before ++ calls.flatten) := by
  induction pieces generalizing data before with
  | nil =>
    cases feeds
    refine ⟨data, [], rfl, ?_⟩
    rw [flatten_nil, append_nil]
  | cons piece pieces ih =>
    rw [flatten_cons] at plain feeds
    obtain ⟨plainPiece, plainRest⟩ := forall_mem_append.mp plain
    rw [feedBytes_append] at feeds
    obtain ⟨next, first, feeds⟩ := bind_eq_some_iff.mp feeds
    obtain ⟨data', calls, outSize, result, called, good, rfl, ready'⟩ :=
      decodeLines_feeds keeps two plainPiece ready 0 first
    obtain ⟨data'', more, rest, rfl⟩ := ih plainRest ready' feeds
    refine ⟨data'', calls ++ more, ?_, ?_⟩
    · rw [decodeLinesAll, called, bind_eq_bind, bind_some]
      simp only [if_neg (Int.not_lt.mpr good), rest, bind_eq_bind, bind_some]
    · rw [flatten_append, append_assoc]

end

/-- CR, LF or CRLF. -/
inductive IsLineBreak : List UInt8 → Prop where
  | cr : IsLineBreak [CR]
  | lf : IsLineBreak [LF]
  | crlf : IsLineBreak [CR, LF]

lemma IsLineBreak.plain {lineBreak : List UInt8} (breaks : IsLineBreak lineBreak) :
    ∀ c ∈ lineBreak, c ≠ 0 := by
  cases breaks with
  | cr | lf | crlf => decide

lemma feedBytes_break {feed : LineFeed} (empty : feed.line = []) {lineBreak : List UInt8}
    (breaks : IsLineBreak lineBreak) : feedBytes room action feed lineBreak = some feed := by
  cases breaks with
  | cr | lf => exact feedBytes_blank empty rfl []
  | crlf => rw [feedBytes_blank empty rfl, feedBytes_blank empty rfl]; rfl

section

variable {feed : LineFeed} (notEnd : feed.dsState ≠ .dsEnd)
include notEnd

lemma feedBytes_waits {text : List UInt8} (inside : ∀ c ∈ text, isLineEnd c = false)
    (short : feed.line.length + text.length < room) :
    feedBytes room action feed text = some { feed with line := feed.line ++ text } := by
  induction text generalizing feed with
  | nil =>
    rw [append_nil]
    rfl
  | cons c text ih =>
    rw [length_cons] at short
    rw [feedBytes_plain notEnd rfl (inside c (mem_cons_self ..)) (by omega)]
    have step := @ih { feed with line := feed.line ++ [c] } notEnd
      (fun d mem => inside d (mem_cons_of_mem c mem))
      (by rw [length_append, length_singleton]; omega)
    rw [step, append_assoc]
    rfl

/-- A line with its end. What the action sees is the line with one character for the
end, and its last two characters are lost if it fills the buffer. -/
theorem feedBytes_line (empty : feed.line = []) {text lineBreak : List UInt8}
    (inside : ∀ c ∈ text, isLineEnd c = false) (nonempty : text ≠ []) (short : text.length < room)
    (breaks : IsLineBreak lineBreak) :
    ∃ c, isLineEnd c = true ∧ feedBytes room action feed (text ++ lineBreak) =
      feed.complete action
        (if text.length + 1 = room then text.take (room - 2) ++ [CR] else text ++ [c]) := by
  have waits : feedBytes room action feed text = some { feed with line := text } := by
    have waiting := @feedBytes_waits room action feed notEnd text inside (by
      rw [empty]
      exact (Nat.zero_add _).symm ▸ short)
    rwa [empty, nil_append] at waiting
  have step : ∀ c, isLineEnd c = true →
      LineFeed.step room action { feed with line := text } c = feed.complete action
        (if text.length + 1 = room then text.take (room - 2) ++ [CR] else text ++ [c]) := by
    intro c ends
    have goes : ¬ (feed.dsState = .dsEnd ∨ text = [] ∧ isLineEnd c) := by
      simp [notEnd, nonempty]
    rw [LineFeed.step, if_neg goes, ends, if_pos rfl]
    dsimp only
    split
    · rename_i full
      rw [take_append_of_le_length (by omega)]
      rfl
    · rfl
  rw [feedBytes_append, waits, bind_some]
  cases breaks with
  | cr =>
    refine ⟨CR, rfl, ?_⟩
    rw [feedBytes_cons, step CR rfl]
    exact bind_fun_some _
  | lf =>
    refine ⟨LF, rfl, ?_⟩
    rw [feedBytes_cons, step LF rfl]
    exact bind_fun_some _
  | crlf =>
    refine ⟨CR, rfl, ?_⟩
    rw [feedBytes_cons, step CR rfl]
    cases done : feed.complete action
        (if text.length + 1 = room then text.take (room - 2) ++ [CR] else text ++ [CR]) with
    | none => rfl
    | some next =>
      rw [bind_some, feedBytes_blank (LineFeed.complete_line done) rfl]
      rfl

lemma feedBytes_filled (empty : feed.line = []) {text : List UInt8}
    (inside : ∀ c ∈ text, isLineEnd c = false) (two : 2 ≤ room) (full : text.length = room) :
    feedBytes room action feed text =
      feed.complete action (text.take (room - 2) ++ [CR]) := by
  obtain rfl | ⟨front, c, rfl⟩ := eq_nil_or_concat' text
  · rw [length_nil] at full
    omega
  · rw [length_append, length_singleton] at full
    obtain ⟨insideFront, insideLast⟩ := forall_mem_append.mp inside
    have waits := @feedBytes_waits room action feed notEnd front insideFront (by
      rw [empty, length_nil]
      omega)
    rw [empty, nil_append] at waits
    rw [feedBytes_append, waits, bind_some]
    rw [@feedBytes_full room action { feed with line := front } front c notEnd rfl
      (insideLast c (mem_singleton_self c)) full]
    exact bind_fun_some _

end

end

end CommCentral.Mime
