import CommCentral.Jsmime.JsString

/-! IRC messages: how they are parsed, and that what is sent is understood. -/
namespace CommCentral.Irc
open Jsmime List

section Escapes

/-- A character that `.` does not match. -/
def isLineTerminator (c : UInt16) : Bool := c == 0x0A || c == 0x0D || c == 0x2028 || c == 0x2029

/-- Characters with a code are replaced by the mark and the code. -/
def escape (mark : UInt16) (code : UInt16 → Option UInt16) (text : JsString) : JsString :=
  text.flatMap fun c =>
    match code c with
    | some d => [mark, d]
    | none => [c]

/-- The mark and a character that `.` matches are replaced by what that character stands for, and
the mark at the end of the text by `atEnd`. -/
def unescape (mark : UInt16) (decode : UInt16 → UInt16) (atEnd : JsString) : JsString → JsString
  | [] => []
  | [c] => if c = mark then atEnd else [c]
  | c :: d :: rest =>
    if c = mark ∧ isLineTerminator d = false then decode d :: unescape mark decode atEnd rest
    else c :: unescape mark decode atEnd (d :: rest)

/-- Every character with a code is what the code stands for, and the mark is one. -/
def Inverse (mark : UInt16) (code : UInt16 → Option UInt16) (decode : UInt16 → UInt16) : Prop :=
  ∀ c, match code c with
    | some d => isLineTerminator d = false ∧ decode d = c
    | none => c ≠ mark

lemma unescape_plain (other : c ≠ mark) (decode : UInt16 → UInt16) (atEnd rest) :
    unescape mark decode atEnd (c :: rest) = c :: unescape mark decode atEnd rest := by
  cases rest with
  | nil => exact if_neg other
  | cons d rest => exact if_neg fun marked => other marked.1

lemma unescape_append (decode : UInt16 → UInt16) (atEnd rest) (none : mark ∉ text) :
    unescape mark decode atEnd (text ++ rest) = text ++ unescape mark decode atEnd rest := by
  induction text with
  | nil => rfl
  | cons c text ih =>
    simp only [mem_cons, not_or] at none
    rw [cons_append, unescape_plain (Ne.symm none.1), ih none.2, cons_append]

lemma unescape_escape (inverse : Inverse mark code decode) (atEnd text rest) :
    unescape mark decode atEnd (escape mark code text ++ rest) =
      text ++ unescape mark decode atEnd rest := by
  induction text with
  | nil => rfl
  | cons c text ih =>
    have here := inverse c
    rw [escape, flatMap_cons, append_assoc, ← escape]
    cases coded : code c with
    | none =>
      rw [coded] at here
      exact (unescape_plain here _ _ _).trans (congrArg (c :: ·) ih)
    | some d =>
      rw [coded] at here
      exact (if_pos ⟨rfl, here.1⟩).trans (congrArg₂ (· :: ·) here.2 ih)

/-- `lowQuote` and `lowDequote`, by which `sendRawMessage` and `onDataReceived` replace. -/
def lowCode (c : UInt16) : Option UInt16 :=
  if c = 0 then some 0x30 else if c = 0x0A then some 0x6E else if c = 0x0D then some 0x72
  else if c = 0x10 then some 0x10 else none

def lowDecode (c : UInt16) : UInt16 :=
  if c = 0x30 then 0 else if c = 0x6E then 0x0A else if c = 0x72 then 0x0D else c

/-- The quoting inside of a CTCP message. -/
def highCode (c : UInt16) : Option UInt16 :=
  if c = 0x5C then some 0x5C else if c = 1 then some 0x61 else none

def highDecode (c : UInt16) : UInt16 := if c = 0x61 then 1 else c

/-- The escapes of tag values. -/
def tagCode (c : UInt16) : Option UInt16 :=
  if c = 0x5C then some 0x5C else if c = 0x0A then some 0x6E else if c = 0x0D then some 0x72
  else if c = 0x20 then some 0x73 else if c = 0x3B then some 0x3A else none

def tagDecode (c : UInt16) : UInt16 :=
  if c = 0x6E then 0x0A else if c = 0x72 then 0x0D else if c = 0x73 then 0x20
  else if c = 0x3A then 0x3B else c

lemma low_inverse : Inverse 0x10 lowCode lowDecode := by
  intro c
  unfold lowCode
  grind [lowDecode, isLineTerminator]

lemma high_inverse : Inverse 0x5C highCode highDecode := by
  intro c
  unfold highCode
  grind [highDecode, isLineTerminator]

lemma tag_inverse : Inverse 0x5C tagCode tagDecode := by
  intro c
  unfold tagCode
  grind [tagDecode, isLineTerminator]

end Escapes

section Match

/-- `[^ ]+` and what follows it. -/
def word (text : JsString) : JsString × JsString :=
  (text.takeWhile (· != 0x20), text.dropWhile (· != 0x20))

/-- `(?: +[^: ][^ ]*)*`. -/
def paramsGroup : Nat → JsString → JsString × JsString
  | 0, text => ([], text)
  | fuel + 1, text =>
    let behind := text.dropWhile (· == 0x20)
    if text.head? ≠ some 0x20 ∨ behind.head? = none ∨ behind.head? = some 0x3A then ([], text)
    else
      let (param, rest) := word behind
      let (params, last) := paramsGroup fuel rest
      (text.takeWhile (· == 0x20) ++ param ++ params, last)

/-- The command, the parameters and the last parameter that the expression finds. A command that
ends early is not tried, because this matches whenever there is a command. -/
def matchCommand (text : JsString) : Option (JsString × JsString × Option JsString) :=
  let (command, rest) := word text
  let (params, last) := paramsGroup rest.length rest
  if command = [] then none
  else
    match last.dropWhile (· == 0x20) with
    | [] => some (command, params, none)
    | c :: trailing => if c = 0x3A then some (command, params, some trailing) else none

/-- `(?:@([^ ]+) )?` or `(?::([^ ]+) )?` and what follows. If that fails, the option is left out. -/
def matchOption {α : Type} (mark : UInt16) (next : JsString → Option α) (text : JsString) :
    Option (Option JsString × α) :=
  let found := word text.tail
  let skipped := (next text).map (none, ·)
  if text.head? = some mark ∧ found.1 ≠ [] ∧ found.2 ≠ [] then
    ((next found.2.tail).map (some found.1, ·)).or skipped
  else skipped

/-- A key and a value in a `Map`. -/
def setTag (tags : List (JsString × Option JsString)) (key : JsString) (value : Option JsString) :
    List (JsString × Option JsString) :=
  if tags.any (·.1 == key) then tags.map fun tag => if tag.1 = key then (key, value) else tag
  else tags ++ [(key, value)]

/-- A tag that is split at each equals sign. -/
def readTag (tag : JsString) : JsString × Option JsString :=
  let parts := tag.splitOn 0x3D
  (parts.headD [], parts[1]?.map (unescape 0x5C tagDecode [0x5C]))

structure IrcMessage where
  rawMessage : JsString
  command : JsString
  params : List JsString
  origin : JsString
  user : Option JsString
  host : Option JsString
  tags : List (JsString × Option JsString)

/-- `ircMessage`. The nicely formatted source is left out. -/
def ircMessage (aData aOrigin : JsString) : Option IrcMessage :=
  (matchOption 0x40 (matchOption 0x3A matchCommand) aData).map
    fun (tags, sender, command, params, trailing) =>
      let parts := (sender.getD aOrigin).splitOnP fun c => c == 0x21 || c == 0x40
      { rawMessage := aData
        command := command
        params := (params.splitOn 0x20).tail ++ trailing.toList
        origin := parts.headD []
        user := parts[1]?
        host := parts[2]?
        tags := ((tags.map (·.splitOn 0x3B)).getD []).foldl
          (fun tags tag => setTag tags (readTag tag).1 (readTag tag).2) [] }

/-- A command, parameters and, behind a colon, the last parameter. -/
def bodyText (command : JsString) (middle : List JsString) (trailing : Option JsString) : JsString :=
  command ++ (middle.flatMap (0x20 :: ·) ++ (trailing.map (0x20 :: 0x3A :: ·)).getD [])

/-- A part in front, with its mark. -/
def optionText (mark : UInt16) (part : Option JsString) : JsString :=
  (part.map fun text => mark :: text ++ [0x20]).getD []

def IsWord (text : JsString) : Prop := text ≠ [] ∧ 0x20 ∉ text

def IsMiddle (param : JsString) : Prop := IsWord param ∧ param.head? ≠ some 0x3A

lemma word_append (noSpace : 0x20 ∉ text) (rest) (ends : ∀ c ∈ rest.head?, c = 0x20) :
    word (text ++ rest) = (text, rest) := by
  have inside : ∀ c ∈ text, (c != 0x20) = true := fun c mem =>
    bne_iff_ne.mpr (ne_of_mem_of_not_mem mem noSpace)
  rw [word, takeWhile_append_of_pos inside, dropWhile_append_of_pos inside]
  cases rest with
  | nil => simp
  | cons c rest =>
    have space : c = 0x20 := ends c rfl
    simp [space]

lemma paramsGroup_eq {middle : List JsString} (params : ∀ param ∈ middle, IsMiddle param)
    (trailing : Option JsString) (enough : middle.length ≤ fuel) :
    paramsGroup fuel (middle.flatMap (0x20 :: ·) ++ (trailing.map (0x20 :: 0x3A :: ·)).getD []) =
      (middle.flatMap (0x20 :: ·), (trailing.map (0x20 :: 0x3A :: ·)).getD []) := by
  induction middle generalizing fuel with
  | nil =>
    cases fuel with
    | zero => rfl
    | succ fuel =>
      apply if_pos
      cases trailing with
      | none => exact .inl nofun
      | some trailing => exact .inr (.inr rfl)
  | cons param rest ih =>
    obtain ⟨⟨filled, noSpace⟩, noColon⟩ := params param mem_cons_self
    obtain ⟨first, others, rfl⟩ := exists_cons_of_ne_nil filled
    obtain ⟨fuel, rfl⟩ : ∃ more, fuel = more + 1 := Nat.exists_eq_add_one.mpr (by grind)
    have next := ih (fun other mem => params other (mem_cons_of_mem _ mem))
      (Nat.le_of_succ_le_succ enough)
    have isFirst : first ≠ 0x20 ∧ first ≠ 0x3A := by grind
    have found := word_append noSpace (rest.flatMap (0x20 :: ·) ++
      (trailing.map (0x20 :: 0x3A :: ·)).getD []) (by cases rest <;> cases trailing <;> simp)
    rw [flatMap_cons, append_assoc, paramsGroup]
    simp only [cons_append] at found ⊢
    simp [isFirst, found, next]

lemma length_le_flatMap (texts : List JsString) :
    texts.length ≤ (texts.flatMap ((0x20 : UInt16) :: ·)).length := by
  induction texts with
  | nil => exact Nat.le_refl 0
  | cons text rest ih =>
    simp only [flatMap_cons, length_append, length_cons]
    omega

lemma splitOn_flatMap (sep : UInt16) {texts : List JsString} (noSep : ∀ text ∈ texts, sep ∉ text)
    (none : sep ∉ first) :
    (first ++ texts.flatMap (sep :: ·)).splitOn sep = first :: texts := by
  induction texts generalizing first with
  | nil => rw [flatMap_nil, append_nil, splitOn_eq_singleton none]
  | cons text rest ih =>
    rw [flatMap_cons, cons_append, splitOn_append_cons_self_of_not_mem none,
      ih (fun other mem => noSep other (mem_cons_of_mem _ mem)) (noSep text mem_cons_self)]

section Body

variable {command : JsString} {middle : List JsString} (isWord : IsWord command)
  (params : ∀ param ∈ middle, IsMiddle param) (trailing : Option JsString)
include isWord params

lemma matchCommand_body : matchCommand (bodyText command middle trailing) =
    some (command, middle.flatMap (0x20 :: ·), trailing) := by
  have first := word_append isWord.2
    (middle.flatMap (0x20 :: ·) ++ (trailing.map (0x20 :: 0x3A :: ·)).getD []) (by
      cases middle <;> cases trailing <;> simp)
  have enough := (length_le_flatMap middle).trans (sublist_append_left _
    ((trailing.map (0x20 :: 0x3A :: ·)).getD [])).length_le
  rw [bodyText, matchCommand, first]
  simp only [paramsGroup_eq params trailing enough, if_neg isWord.1]
  cases trailing <;> simp

omit isWord params in
lemma matchOption_eq {next : JsString → Option α} {part : Option JsString}
    (isWord : ∀ text ∈ part, IsWord text) {rest : JsString} (noMark : rest.head? ≠ some mark)
    (found : next rest = some result) :
    matchOption mark next (optionText mark part ++ rest) = some (part, result) := by
  cases part with
  | none =>
    rw [optionText, matchOption]
    simp [noMark, found]
  | some text =>
    have split := word_append (isWord text rfl).2 (0x20 :: rest) (by simp)
    rw [optionText, matchOption]
    simp [split, found, (isWord text rfl).1]

/-- A message is parsed into the parts that it is made of. -/
theorem ircMessage_eq {tags sender : Option JsString} (tagWord : ∀ text ∈ tags, IsWord text)
    (senderWord : ∀ text ∈ sender, IsWord text)
    (noMark : command.head? ≠ some 0x40 ∧ command.head? ≠ some 0x3A) (aOrigin : JsString) :
    ∃ message, ircMessage
        (optionText 0x40 tags ++ (optionText 0x3A sender ++ bodyText command middle trailing))
        aOrigin = some message ∧
      message.command = command ∧ message.params = middle ++ trailing.toList ∧
      (let parts := (sender.getD aOrigin).splitOnP fun c => c == 0x21 || c == 0x40
       message.origin = parts.headD [] ∧ message.user = parts[1]? ∧ message.host = parts[2]?) ∧
      message.tags = ((tags.map (·.splitOn 0x3B)).getD []).foldl
        (fun tags tag => setTag tags (readTag tag).1 (readTag tag).2) [] := by
  have noColon : (bodyText command middle trailing).head? = command.head? := by
    rw [bodyText, head?_append_of_ne_nil _ isWord.1]
  have body := matchOption_eq senderWord (noColon ▸ noMark.2)
    (matchCommand_body isWord params trailing)
  have noTag : (optionText 0x3A sender ++ bodyText command middle trailing).head? ≠ some 0x40 := by
    cases sender with
    | none => exact noColon ▸ noMark.1
    | some text => exact fun same => absurd (Option.some.inj same) (by decide)
  rw [ircMessage, matchOption_eq tagWord noTag body]
  refine ⟨_, rfl, rfl, ?_, ⟨rfl, rfl, rfl⟩, rfl⟩
  have split := splitOn_flatMap 0x20 (fun param mem => (params param mem).1.2) not_mem_nil
  exact congrArg (fun parts => parts.tail ++ trailing.toList) split

end Body

end Match

section Sending

def isAlphanumeric (c : UInt16) : Bool :=
  (0x30 ≤ c && c ≤ 0x39) || (0x41 ≤ c && c ≤ 0x5A) || (0x61 ≤ c && c ≤ 0x7A)

/-- A command of at least one character or number. -/
def IsCommand (command : JsString) : Prop := command ≠ [] ∧ ∀ c ∈ command, isAlphanumeric c

/-- `params.join(" ")` behind a space. -/
def joinParams (params : List JsString) : JsString :=
  if params = [] then [] else 0x20 :: [0x20].intercalate params

def buildMessage (aCommand : JsString) (aParams : List JsString) : Option JsString :=
  if aCommand = [] ∨ (aCommand.all isAlphanumeric) = false then none
  else
    match aParams.getLast? with
    | none => some aCommand
    | some trailing =>
      if aParams.dropLast.any (·.contains 0x20) then none
      else
        let marked := trailing = [] ∨ 0x20 ∈ trailing ∨ trailing.head? = some 0x3A
        some (aCommand ++ joinParams
          (aParams.dropLast ++ [if marked then 0x3A :: trailing else trailing]))

/-- `sendCTCPMessage`, up to the message that it builds. -/
def sendCTCPMessage (aTarget : JsString) (aIsNotice : Bool) (aCtcpCommand : JsString)
    (aParams : List JsString) : Option JsString :=
  let ircParam := escape 0x5C highCode (aCtcpCommand ++ joinParams aParams)
  buildMessage (if aIsNotice then js "NOTICE" else js "PRIVMSG") [aTarget, 1 :: ircParam ++ [1]]

/-- What is read when a message has been sent as `sendRawMessage` does and comes from a sender. -/
def received (sender message aOrigin : JsString) : Option IrcMessage :=
  ircMessage (unescape 0x10 lowDecode [0x10] (0x3A :: sender ++ 0x20 :: escape 0x10 lowCode message))
    aOrigin

/-- The command and the parameter of a CTCP message. -/
def ctcpMessage (raw : JsString) : JsString × JsString :=
  let (command, param) := word (unescape 0x5C highDecode [] raw)
  (command, param.tail)

/-- The texts between two U+0001, and the rest of the text. One that is open is part of the rest. -/
def ctcpParts : Option JsString → JsString → List JsString × JsString
  | opened, [] => ([], (opened.map (1 :: ·)).getD [])
  | none, c :: rest =>
    if c = 1 then ctcpParts (some []) rest
    else ((ctcpParts none rest).1, c :: (ctcpParts none rest).2)
  | some raw, c :: rest =>
    if c = 1 then
      ((if raw = [] then [] else [raw]) ++ (ctcpParts none rest).1, (ctcpParts none rest).2)
    else ctcpParts (some (raw ++ [c])) rest

/-- What `ctcpHandleMessage` takes out of the last parameter. -/
def ctcpHandleMessage (message : IrcMessage) : List (JsString × JsString) × JsString :=
  let (raws, otherMessage) := ctcpParts none (message.params.getLast?.getD [])
  (raws.map ctcpMessage, otherMessage)

lemma joinParams_eq (params) : joinParams params = params.flatMap (0x20 :: ·) := by
  induction params with
  | nil => rfl
  | cons param rest ih =>
    cases rest with
    | nil => simp [joinParams]
    | cons next rest => simpa [joinParams] using ih

lemma IsCommand.isWord (isCommand : IsCommand command) :
    IsWord command ∧ command.head? ≠ some 0x40 ∧ command.head? ≠ some 0x3A := by
  have other (c : UInt16) (mark : isAlphanumeric c = false) : c ∉ command := fun mem =>
    Bool.false_ne_true (mark.symm.trans (isCommand.2 c mem))
  exact ⟨⟨isCommand.1, other 0x20 rfl⟩, fun first => other 0x40 rfl (mem_of_mem_head? first),
    fun first => other 0x3A rfl (mem_of_mem_head? first)⟩

/-- A message is built of parameters that may be the last one, and maybe another one. -/
theorem buildMessage_eq (isCommand : IsCommand command)
    (params : ∀ param ∈ aParams.dropLast, IsMiddle param) : ∃ middle trailing,
      buildMessage command aParams = some (bodyText command middle trailing) ∧
      (∀ param ∈ middle, IsMiddle param) ∧ middle ++ trailing.toList = aParams := by
  have all : ¬ (command = [] ∨ command.all isAlphanumeric = false) := by
    simpa [isCommand.1] using isCommand.2
  rw [buildMessage, if_neg all]
  rcases eq_nil_or_concat aParams with rfl | ⟨front, last, rfl⟩
  · exact ⟨[], none, by simp [bodyText], nofun, rfl⟩
  · rw [concat_eq_append, dropLast_concat] at params
    have noSpace : front.any (·.contains 0x20) = false := by
      simpa using fun param mem => (params param mem).1.2
    rw [concat_eq_append, getLast?_concat, dropLast_concat, noSpace]
    dsimp only
    rw [if_neg Bool.false_ne_true, joinParams_eq, flatMap_append, flatMap_singleton]
    split
    · exact ⟨front, some last, rfl, params, rfl⟩
    · rename_i plain
      simp only [not_or] at plain
      refine ⟨front ++ [last], none, ?_, ?_, append_nil _⟩
      · simp [bodyText]
      · exact forall_mem_append.mpr ⟨params, forall_mem_singleton.mpr ⟨⟨plain.1, plain.2.1⟩, plain.2.2⟩⟩

/-- A message that the client sends is read with its command and its parameters. -/
theorem buildMessage_received (isCommand : IsCommand command)
    (params : ∀ param ∈ aParams.dropLast, IsMiddle param) (isSender : IsWord sender)
    (noQuote : 0x10 ∉ sender) (aOrigin : JsString) :
    ∃ text message, buildMessage command aParams = some text ∧
      received sender text aOrigin = some message ∧ message.command = command ∧
      message.params = aParams := by
  obtain ⟨middle, trailing, built, middles, all⟩ := buildMessage_eq isCommand params
  have noTags : ∀ text ∈ (none : Option JsString), IsWord text := nofun
  have senderWord : ∀ text ∈ some sender, IsWord text := fun _ same => Option.some.inj same ▸ isSender
  obtain ⟨message, read, isSame, sameParams, -⟩ :=
    ircMessage_eq isCommand.isWord.1 middles trailing noTags senderWord isCommand.isWord.2 aOrigin
  refine ⟨_, message, built, ?_, isSame, sameParams.trans all⟩
  have front : 0x10 ∉ 0x3A :: sender ++ [0x20] := by simp [noQuote]
  have dequoted := unescape_append lowDecode [0x10] (escape 0x10 lowCode
    (bodyText command middle trailing)) front
  have quoted := unescape_escape low_inverse [0x10] (bodyText command middle trailing) []
  rw [append_nil] at quoted
  rw [← read, received, append_cons, dequoted, quoted]
  simp [optionText, unescape]

lemma ctcpParts_closed (open_) (none : 1 ∉ raw) :
    ctcpParts (some open_) (raw ++ [1]) =
      (if open_ ++ raw = [] then [] else [open_ ++ raw], []) := by
  induction raw generalizing open_ with
  | nil =>
    simp [ctcpParts]
  | cons c rest ih =>
    simp only [mem_cons, not_or] at none
    rw [cons_append, ctcpParts, if_neg (Ne.symm none.1), ih _ none.2, append_assoc]
    rfl

lemma sendCTCPMessage_received (isTarget : IsMiddle aTarget) (aIsNotice : Bool)
    (isWord : IsWord aCtcpCommand) (aParams) (isSender : IsWord sender) (noQuote : 0x10 ∉ sender)
    (aOrigin) :
    ∃ text message, sendCTCPMessage aTarget aIsNotice aCtcpCommand aParams = some text ∧
      received sender text aOrigin = some message ∧
      ctcpHandleMessage message = ([(aCtcpCommand, [0x20].intercalate aParams)], []) := by
  have isCommand : IsCommand (if aIsNotice then js "NOTICE" else js "PRIVMSG") := by
    cases aIsNotice <;> exact ⟨nofun, by decide⟩
  let content := aCtcpCommand ++ joinParams aParams
  have noMark : 1 ∉ escape 0x5C highCode content := by
    intro mem
    obtain ⟨c, -, coded⟩ := mem_flatMap.mp mem
    unfold highCode at coded
    grind
  have filled : escape 0x5C highCode content ≠ [] := by
    obtain ⟨c, rest, rfl⟩ := exists_cons_of_ne_nil isWord.1
    simp only [content, escape, cons_append, flatMap_cons]
    split <;> simp
  have middle : ∀ param ∈ [aTarget, 1 :: escape 0x5C highCode content ++ [1]].dropLast,
      IsMiddle param := forall_mem_singleton.mpr isTarget
  obtain ⟨text, message, built, read, -, sameParams⟩ :=
    buildMessage_received isCommand middle isSender noQuote aOrigin
  refine ⟨text, message, built, read, ?_⟩
  have quoted := unescape_escape high_inverse [] content []
  have split := word_append isWord.2 (joinParams aParams) (by unfold joinParams; grind)
  rw [append_nil, unescape, append_nil] at quoted
  rw [ctcpHandleMessage, sameParams]
  change ((ctcpParts (some []) (escape 0x5C highCode content ++ [1])).1.map ctcpMessage,
    (ctcpParts (some []) (escape 0x5C highCode content ++ [1])).2) = _
  rw [ctcpParts_closed [] noMark, nil_append, if_neg filled]
  simp only [map_singleton, ctcpMessage, quoted, content, split]
  cases aParams <;> rfl

/-- What the client sends is understood by it: a message, and a CTCP message. -/
theorem sent_isUnderstood {sender : JsString} (isSender : IsWord sender) (noQuote : 0x10 ∉ sender)
    (aOrigin : JsString) :
    (∀ command aParams, IsCommand command → (∀ param ∈ aParams.dropLast, IsMiddle param) →
      ∃ text message, buildMessage command aParams = some text ∧
        received sender text aOrigin = some message ∧ message.command = command ∧
        message.params = aParams) ∧
    ∀ aTarget aIsNotice aCtcpCommand aParams, IsMiddle aTarget → IsWord aCtcpCommand →
      ∃ text message, sendCTCPMessage aTarget aIsNotice aCtcpCommand aParams = some text ∧
        received sender text aOrigin = some message ∧
        ctcpHandleMessage message = ([(aCtcpCommand, [0x20].intercalate aParams)], []) := by
  constructor
  · intro command aParams isCommand params
    exact buildMessage_received isCommand params isSender noQuote aOrigin
  · intro aTarget aIsNotice aCtcpCommand aParams isTarget isWord
    exact sendCTCPMessage_received isTarget aIsNotice isWord aParams isSender noQuote aOrigin

theorem sent_isUnderstood_action : ∃ text message,
    sendCTCPMessage (js "#chan") false (js "ACTION") [js "a\\b", [0x0A, 1]] = some text ∧
      received (js "nick!user@host") text [] = some message ∧
      ctcpHandleMessage message = ([(js "ACTION", js "a\\b" ++ [0x20, 0x0A, 1])], []) :=
  (@sent_isUnderstood (js "nick!user@host") ⟨by decide, by decide⟩ (by decide) []).2 _ _ _ _
    ⟨⟨by decide, by decide⟩, by decide⟩ ⟨by decide, by decide⟩

end Sending

end CommCentral.Irc
