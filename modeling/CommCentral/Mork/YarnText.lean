import CommCentral.Lib.Decision

/-! The text of a value: what `morkWriter::WriteYarn` writes and how `morkParser::ReadValue` reads
it. Streams are their bytes; they, and the memory for a value, do not fail. -/
namespace CommCentral.Mork
open List

def morkChW : UInt8 := 0x01
def morkChD : UInt8 := 0x02
def morkChV : UInt8 := 0x04
def morkChU : UInt8 := 0x08
def morkChL : UInt8 := 0x10
def morkChX : UInt8 := 0x20
def morkChN : UInt8 := 0x40
def morkChM : UInt8 := 0x80

/-- `morkCh_Type`, by the rows of its comments. -/
def morkChType : List UInt8 :=
  -- the control characters
  List.replicate 8 0 ++ [morkChW, morkChW, morkChW, 0, morkChW, morkChW, 0, 0] ++
    List.replicate 16 0 ++
  -- from the space: `$` and `)` cannot be kV because they need an escape
  [morkChV ||| morkChW, morkChV ||| morkChM, morkChV, morkChV, 0, morkChV, morkChV, morkChV,
    morkChV, 0, morkChV, morkChV ||| morkChM, morkChV, morkChV ||| morkChM, morkChV, morkChV] ++
  -- the digits, and from the colon
  List.replicate 10 (morkChV ||| morkChD ||| morkChX) ++
    [morkChV ||| morkChN ||| morkChM, morkChV, morkChV, morkChV, morkChV, morkChV ||| morkChM] ++
  -- from the at sign: neither can the backslash
  [morkChV] ++ List.replicate 6 (morkChV ||| morkChN ||| morkChM ||| morkChU ||| morkChX) ++
    List.replicate 20 (morkChV ||| morkChN ||| morkChM ||| morkChU) ++
    [morkChV, 0, morkChV, morkChV, morkChV ||| morkChN ||| morkChM] ++
  -- from the back quote
  [morkChV] ++ List.replicate 6 (morkChV ||| morkChN ||| morkChM ||| morkChL ||| morkChX) ++
    List.replicate 20 (morkChV ||| morkChN ||| morkChM ||| morkChL) ++
    [morkChV, morkChV, morkChV, morkChV, morkChW] ++
  List.replicate 128 0

def morkChGetFlags (c : UInt8) : UInt8 := morkChType.getD c.toNat 0

def morkChIsValue (c : UInt8) : Bool := morkChGetFlags c &&& morkChV != 0

def carriageReturn : UInt8 := 0x0D
def lineFeed : UInt8 := 0x0A

def closeParen : UInt8 := ')'.toUInt8
def dollar : UInt8 := '$'.toUInt8
def backslash : UInt8 := '\\'.toUInt8

/-- The platform for which the stream writes line breaks. -/
inductive MorkPlatform where
  | mac
  | win
  | unix
deriving DecidableEq

def putLineBreak : MorkPlatform → List UInt8
  | .mac => [carriageReturn]
  | .win => [carriageReturn, lineFeed]
  | .unix => [lineFeed]

/-- The members of `morkWriter` that are used, with the bytes put on its stream. -/
structure MorkWriter where
  lineSize : UInt32
  maxLine : UInt32
  stream : List UInt8
deriving DecidableEq

/-- `morkWriter_kHexDigits`. -/
def hexDigits : List UInt8 := "0123456789ABCDEF".toList.map Char.toUInt8

def hexDigit (value : UInt8) : UInt8 := hexDigits.getD value.toNat 0

def putValueByte (c : UInt8) : List UInt8 :=
  if morkChIsValue c then [c]
  else if c = closeParen ∨ c = dollar ∨ c = backslash then [backslash, c]
  else [dollar, hexDigit (c >>> 4 &&& 0x0F), hexDigit (c &&& 0x0F)]

/-- The loop of `WriteYarn`: line size, out size and stream at its end. -/
def writeYarnLoop (platform : MorkPlatform) (maxLine : UInt32) :
    (yarn : List UInt8) → (lineSize outSize : UInt32) → (stream : List UInt8) →
    UInt32 × UInt32 × List UInt8
  | [], lineSize, outSize, stream => (lineSize, outSize, stream)
  | c :: yarn, lineSize, outSize, stream =>
    let size := UInt32.ofNat (putValueByte c).length
    if lineSize + outSize ≥ maxLine then
      -- the value continues on a new line
      writeYarnLoop platform maxLine yarn 0 size
        (stream ++ backslash :: putLineBreak platform ++ putValueByte c)
    else
      writeYarnLoop platform maxLine yarn lineSize (outSize + size) (stream ++ putValueByte c)

/-- `WriteYarn`, which returns the out size. A yarn without a buffer is `none`. -/
def MorkWriter.writeYarn (platform : MorkPlatform) (writer : MorkWriter)
    (yarn : Option (List UInt8)) : UInt32 × MorkWriter :=
  match yarn with
  | none => (0, writer)
  | some bytes =>
    let (lineSize, outSize, stream) :=
      writeYarnLoop platform writer.maxLine bytes writer.lineSize 0 writer.stream
    (outSize, { writer with lineSize := lineSize + outSize, stream := stream })

def hexValue (c : UInt8) : UInt8 :=
  let f := morkChGetFlags c
  if f &&& morkChD != 0 then c - '0'.toUInt8
  else if f &&& morkChU != 0 then c - 'A'.toUInt8 + 10
  else if f &&& morkChL != 0 then c - 'a'.toUInt8 + 10
  else 0

def hexToByte (firstHex secondHex : UInt8) : UInt8 := hexValue firstHex <<< 4 ||| hexValue secondHex

/-- The next character, `none` at the end, and the stream behind it. -/
def getc : List UInt8 → Option UInt8 × List UInt8
  | [] => (none, [])
  | c :: input => (some c, input)

def eatLineBreak (last : UInt8) (input : List UInt8) : Option UInt8 × List UInt8 :=
  match getc input with
  | (some c, input) =>
    if (c = lineFeed ∨ c = carriageReturn) ∧ c ≠ last then getc input else (some c, input)
  | (none, input) => (none, input)

/-- What a turn of the loop of `ReadValue` does: a character for the spool, another turn, or the
end of the stream. -/
inductive ValueTurn where
  | putc (c : UInt8) (input : List UInt8)
  | continue (input : List UInt8)
  | eof

/-- The turn that begins with a character. -/
def valueTurn (c : UInt8) (input : List UInt8) : ValueTurn :=
  if c = backslash then
    match getc input with
    | (none, _) => .eof
    | (some c, input) =>
      if c = lineFeed ∨ c = carriageReturn then
        match eatLineBreak c input with
        | (none, _) => .eof
        | (some c, input) =>
          if c = closeParen ∨ c = backslash ∨ c = dollar then .continue (c :: input)
          else .putc c input
      else .putc c input
  else if c = dollar then
    match getc input with
    | (none, _) => .eof
    | (some first, input) =>
      match getc input with
      | (none, _) => .eof
      | (some second, input) => .putc (hexToByte first second) input
  else .putc c input

lemma getc_some (got : getc input = (some c, rest)) : input = c :: rest := by
  cases input with
  | nil => cases got
  | cons d input =>
    cases got
    rfl

lemma eatLineBreak_some {last c : UInt8} (eaten : eatLineBreak last input = (some c, rest)) :
    rest.length < input.length := by
  rw [eatLineBreak] at eaten
  split at eaten
  · rename_i d later got
    have isInput := getc_some got
    split at eaten
    · rw [isInput, getc_some eaten, length_cons, length_cons]
      omega
    · cases eaten
      rw [isInput]
      exact Nat.lt_succ_self _
  · cases eaten

lemma valueTurn_length :
    (∀ d rest, valueTurn c input = .putc d rest → rest.length ≤ input.length) ∧
      ∀ rest, valueTurn c input = .continue rest → rest.length ≤ input.length := by
  rw [valueTurn]
  split
  · split
    · exact ⟨nofun, nofun⟩
    · rename_i d later got
      have isInput := getc_some got
      split
      · split
        · exact ⟨nofun, nofun⟩
        · rename_i e behind eaten
          have less := eatLineBreak_some eaten
          split
          · refine ⟨nofun, ?_⟩
            rintro _ ⟨⟩
            rw [isInput, length_cons, length_cons]
            omega
          · refine ⟨?_, nofun⟩
            rintro _ _ ⟨⟩
            rw [isInput, length_cons]
            omega
      · refine ⟨?_, nofun⟩
        rintro _ _ ⟨⟩
        rw [isInput]
        exact Nat.le_succ _
  · split
    · split
      · exact ⟨nofun, nofun⟩
      · rename_i d later got
        have isInput := getc_some got
        split
        · exact ⟨nofun, nofun⟩
        · rename_i e behind gotSecond
          refine ⟨?_, nofun⟩
          rintro _ _ ⟨⟩
          rw [isInput, getc_some gotSecond, length_cons, length_cons]
          omega
    · refine ⟨?_, nofun⟩
      rintro _ _ ⟨⟩
      exact Nat.le_refl _

/-- The loop of `ReadValue`: the spool and the stream behind the closing parenthesis, or the end
of the stream before one. -/
def readValueLoop (input spool : List UInt8) : Option (List UInt8 × List UInt8) :=
  match input with
  | [] => none
  | c :: input =>
    if c = closeParen then some (spool, input)
    else
      match turn : valueTurn c input with
      | .putc d rest =>
        have := valueTurn_length.1 d rest turn
        readValueLoop rest (spool ++ [d])
      | .continue rest =>
        have := valueTurn_length.2 rest turn
        readValueLoop rest spool
      | .eof => none
termination_by input.length

/-- `ReadValue`: the value and the rest of the stream. At an unexpected end, where it warns and the
spool is not flushed, there is no result. -/
def readValue (input : List UInt8) : Option (List UInt8 × List UInt8) := readValueLoop input []

open Lib

lemma readValueLoop_close (input spool) :
    readValueLoop (closeParen :: input) spool = some (spool, input) := by
  rw [readValueLoop, if_pos rfl]

lemma readValueLoop_putc (notClose : c ≠ closeParen) (turn : valueTurn c input = .putc d rest) :
    readValueLoop (c :: input) spool = readValueLoop rest (spool ++ [d]) := by
  rw [readValueLoop, if_neg notClose]
  split
  · rename_i isTurn
    cases turn.symm.trans isTurn
    rfl
  · rename_i isTurn
    cases turn.symm.trans isTurn
  · rename_i isTurn
    cases turn.symm.trans isTurn

lemma readValueLoop_continue (notClose : c ≠ closeParen)
    (turn : valueTurn c input = .continue rest) :
    readValueLoop (c :: input) spool = readValueLoop rest spool := by
  rw [readValueLoop, if_neg notClose]
  split
  · rename_i isTurn
    cases turn.symm.trans isTurn
  · rename_i isTurn
    cases turn.symm.trans isTurn
    rfl
  · rename_i isTurn
    cases turn.symm.trans isTurn

lemma value_plain (value : morkChIsValue c = true) :
    c ≠ closeParen ∧ c ≠ backslash ∧ c ≠ dollar ∧ c ≠ lineFeed ∧ c ≠ carriageReturn := by
  have excluded : ∀ special ∈ [closeParen, backslash, dollar, lineFeed, carriageReturn],
      morkChIsValue special = false := by decide +kernel
  have other : ∀ special ∈ [closeParen, backslash, dollar, lineFeed, carriageReturn],
      c ≠ special := by
    intro special mem same
    rw [same, excluded special mem] at value
    exact Bool.false_ne_true value
  exact ⟨other _ (by decide), other _ (by decide), other _ (by decide), other _ (by decide),
    other _ (by decide)⟩

lemma hexValue_hexDigit : ∀ n < 16, hexValue (hexDigit (UInt8.ofNat n)) = UInt8.ofNat n := by
  decide +kernel

lemma hexToByte_hexDigit (c : UInt8) :
    hexToByte (hexDigit (c >>> 4 &&& 0x0F)) (hexDigit (c &&& 0x0F)) = c := by
  have digit : ∀ value : UInt8, hexValue (hexDigit (value &&& 0x0F)) = value &&& 0x0F := by
    intro value
    have small : (value &&& 0x0F).toNat < 16 := by
      revert value
      apply forall_byte
      decide +kernel
    have here := hexValue_hexDigit _ small
    rwa [UInt8.ofNat_toNat] at here
  rw [hexToByte, digit, digit]
  revert c
  apply forall_byte
  decide +kernel

lemma readValueLoop_plain (notClose : c ≠ closeParen) (notBackslash : c ≠ backslash)
    (notDollar : c ≠ dollar) (input spool : List UInt8) :
    readValueLoop (c :: input) spool = readValueLoop input (spool ++ [c]) := by
  apply readValueLoop_putc notClose
  rw [valueTurn, if_neg notBackslash, if_neg notDollar]

lemma readValueLoop_putValueByte (c : UInt8) (input spool) :
    readValueLoop (putValueByte c ++ input) spool = readValueLoop input (spool ++ [c]) := by
  rw [putValueByte]
  split
  · rename_i value
    obtain ⟨notClose, notBackslash, notDollar, -, -⟩ := value_plain value
    exact readValueLoop_plain notClose notBackslash notDollar input spool
  · split
    · rename_i special
      have notBreak : ¬ (c = lineFeed ∨ c = carriageReturn) := by
        rcases special with rfl | rfl | rfl <;> decide
      apply readValueLoop_putc (by decide)
      rw [valueTurn, if_pos rfl]
      exact if_neg notBreak
    · refine (readValueLoop_putc (by decide) ?_).trans
        (congrArg (fun byte => readValueLoop input (spool ++ [byte])) (hexToByte_hexDigit c))
      rfl

lemma putValueByte_head (c : UInt8) : ∃ d behind, putValueByte c = d :: behind ∧
    d ≠ closeParen ∧ d ≠ lineFeed ∧ d ≠ carriageReturn := by
  rw [putValueByte]
  split
  · rename_i value
    obtain ⟨notClose, -, -, notLineFeed, notReturn⟩ := value_plain value
    exact ⟨c, [], rfl, notClose, notLineFeed, notReturn⟩
  · split
    · exact ⟨backslash, _, rfl, by decide, by decide, by decide⟩
    · exact ⟨dollar, _, rfl, by decide, by decide, by decide⟩

lemma eatLineBreak_other (last : UInt8) (notLineFeed : d ≠ lineFeed)
    (notReturn : d ≠ carriageReturn) (input) :
    eatLineBreak last (d :: input) = (some d, input) := by
  rw [eatLineBreak, getc]
  apply if_neg
  rintro ⟨isBreak | isBreak, -⟩
  · exact notLineFeed isBreak
  · exact notReturn isBreak

variable (platform : MorkPlatform)

lemma valueTurn_lineBreak (notLineFeed : d ≠ lineFeed) (notReturn : d ≠ carriageReturn) (input) :
    valueTurn backslash (putLineBreak platform ++ d :: input) =
      if d = closeParen ∨ d = backslash ∨ d = dollar then .continue (d :: input)
      else .putc d input := by
  cases platform with
  | mac =>
    rw [valueTurn, if_pos rfl, putLineBreak, singleton_append, getc]
    dsimp only
    rw [if_pos (.inr rfl), eatLineBreak_other _ notLineFeed notReturn]
  | win =>
    have eaten : eatLineBreak carriageReturn (lineFeed :: d :: input) = (some d, input) := rfl
    rw [valueTurn, if_pos rfl, putLineBreak, cons_append, singleton_append, getc]
    dsimp only
    rw [if_pos (.inr rfl), eaten]
  | unix =>
    rw [valueTurn, if_pos rfl, putLineBreak, singleton_append, getc]
    dsimp only
    rw [if_pos (.inl rfl), eatLineBreak_other _ notLineFeed notReturn]

lemma readValueLoop_lineBreak (c : UInt8) (input spool) :
    readValueLoop (backslash :: putLineBreak platform ++ (putValueByte c ++ input)) spool =
      readValueLoop (putValueByte c ++ input) spool := by
  obtain ⟨d, behind, isPut, notClose, notLineFeed, notReturn⟩ := putValueByte_head c
  rw [isPut, cons_append, cons_append]
  have turn := valueTurn_lineBreak platform notLineFeed notReturn (behind ++ input)
  split at turn
  · exact readValueLoop_continue (by decide) turn
  · rename_i plain
    rw [readValueLoop_putc (by decide) turn]
    apply Eq.symm
    apply readValueLoop_plain notClose
    · exact fun isBackslash => plain (.inr (.inl isBackslash))
    · exact fun isDollar => plain (.inr (.inr isDollar))

lemma writeYarnLoop_read (maxLine : UInt32) (yarn) (lineSize outSize : UInt32) (stream) :
    ∃ written,
      (writeYarnLoop platform maxLine yarn lineSize outSize stream).2.2 = stream ++ written ∧
      ∀ input spool, readValueLoop (written ++ input) spool = readValueLoop input (spool ++ yarn) := by
  induction yarn generalizing lineSize outSize stream with
  | nil =>
    refine ⟨[], (append_nil _).symm, ?_⟩
    intro input spool
    rw [append_nil]
    rfl
  | cons c yarn ih =>
    rw [writeYarnLoop]
    split
    · obtain ⟨written, isWritten, reads⟩ := ih 0 (UInt32.ofNat (putValueByte c).length)
        (stream ++ backslash :: putLineBreak platform ++ putValueByte c)
      refine ⟨backslash :: putLineBreak platform ++ (putValueByte c ++ written), ?_, ?_⟩
      · rw [isWritten, append_assoc, append_assoc]
      · intro input spool
        rw [append_assoc, append_assoc, readValueLoop_lineBreak,
          readValueLoop_putValueByte, reads, append_assoc, singleton_append]
    · obtain ⟨written, isWritten, reads⟩ := ih lineSize
        (outSize + UInt32.ofNat (putValueByte c).length) (stream ++ putValueByte c)
      refine ⟨putValueByte c ++ written, ?_, ?_⟩
      · rw [isWritten, append_assoc]
      · intro input spool
        rw [append_assoc, readValueLoop_putValueByte, reads, append_assoc,
          singleton_append]

/-- Whatever the line size and the maximum are, a value that is written and closed is read back, and
the stream stands behind the closing parenthesis. -/
theorem readValue_writeYarn (platform : MorkPlatform) (writer : MorkWriter)
    (yarn : Option (List UInt8)) :
    ∃ written, (writer.writeYarn platform yarn).2.stream = writer.stream ++ written ∧
      ∀ behind, readValue (written ++ closeParen :: behind) = some (yarn.getD [], behind) := by
  cases yarn with
  | none =>
    refine ⟨[], (append_nil _).symm, ?_⟩
    intro behind
    exact readValueLoop_close behind []
  | some bytes =>
    obtain ⟨written, isWritten, reads⟩ :=
      writeYarnLoop_read platform writer.maxLine bytes writer.lineSize 0 writer.stream
    refine ⟨written, isWritten, ?_⟩
    intro behind
    rw [readValue, reads, readValueLoop_close]
    rfl

end CommCentral.Mork
