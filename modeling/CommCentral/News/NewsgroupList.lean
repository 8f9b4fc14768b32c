import CommCentral.Base.KeySetMissing

/-! `nsNNTPNewsgroupList`: which articles of a newsgroup are downloaded, and what the
lines of the server mean for the read set and for the set of known articles. The news
database, the headers of the articles and the status messages are left out. Every call
has its own values that the program does not determine. -/
namespace CommCentral.News
open Base

/-- The members of `nsNNTPNewsgroupList`: `m_set`, and `m_knownArts` with its set. -/
structure NewsgroupList where
  set : MsgKeySet
  knownSet : Option MsgKeySet
  firstPossible : Int
  lastPossible : Int
  getOldMessages : Bool
  promptedAlready : Bool
  downloadAll : Bool
  maxArticles : Int
  firstMsgNumber : Int
  lastMsgNumber : Int
  lastProcessedNumber : Int
  firstMsgToDownload : Int
  lastMsgToDownload : Int

namespace NewsgroupList

variable (junk : Junk)

/-- `AddToKnownArticles`; the result of `AddRange` is only passed on. -/
def addToKnownArticles (list : NewsgroupList) (first last : Int) : NewsgroupList :=
  let known := list.knownSet.getD (MsgKeySet.empty junk)
  { list with knownSet := some (MsgKeySet.addRange junk known first last).1 }

/-- `InitXOVER`: the lines that failed to come in last time are marked as read first. -/
def initXOVER (list : NewsgroupList) (firstMsg lastMsg : Int) : NewsgroupList :=
  { list with
    set :=
      if list.lastProcessedNumber < list.lastMsgNumber then
        (MsgKeySet.addRange junk list.set (list.lastProcessedNumber + 1) list.lastMsgNumber).1
      else list.set
    firstMsgNumber := firstMsg
    lastMsgNumber := lastMsg
    lastProcessedNumber := if firstMsg > 1 then firstMsg - 1 else 1 }

/-- `m_knownArts.set->Add`, when there is a set; `none` is a negative result. -/
def addKnown (knownSet : Option MsgKeySet) (messageNumber : Int) : Option (Option MsgKeySet) :=
  match knownSet with
  | none => some none
  | some known =>
    let (known, result) := MsgKeySet.add junk known messageNumber
    if result < 0 then none else some (some known)

/-- `ProcessXOVERLINE` of the line of an article; `none` is an error. -/
def processXOVERLINE (list : NewsgroupList) (messageNumber : Int) : Option NewsgroupList :=
  -- articles that XOVER skipped no longer exist
  let set :=
    if messageNumber > list.lastProcessedNumber + 1 then
      (MsgKeySet.addRange junk list.set (list.lastProcessedNumber + 1) (messageNumber - 1)).1
    else list.set
  (addKnown junk list.knownSet messageNumber).map fun knownSet =>
    { list with
      set := (MsgKeySet.isMember junk set messageNumber).1
      knownSet := knownSet
      lastProcessedNumber := messageNumber
      firstMsgNumber :=
        if messageNumber > list.lastMsgNumber then list.firstMsgNumber
        else if messageNumber < list.firstMsgNumber then messageNumber
        else list.firstMsgNumber
      lastMsgNumber :=
        if messageNumber > list.lastMsgNumber then messageNumber else list.lastMsgNumber }

def finishXOVERLINE (list : NewsgroupList) (status : Int) : NewsgroupList :=
  let list := { list with
    set :=
      if status ≥ 0 ∧ list.lastProcessedNumber < list.lastMsgNumber then
        (MsgKeySet.addRange junk list.set (list.lastProcessedNumber + 1) list.lastMsgNumber).1
      else list.set }
  if list.lastProcessedNumber ≠ 0 then
    list.addToKnownArticles junk list.firstMsgNumber list.lastProcessedNumber
  else list

/-- The lines of some articles, one after the other. -/
def processLines : NewsgroupList → List (Int × Junk) → Option NewsgroupList
  | list, [] => some list
  | list, (messageNumber, junk) :: lines =>
    (list.processXOVERLINE junk messageNumber).bind fun list => processLines list lines

def known (list : NewsgroupList) : Set Int := {number | ∃ set ∈ list.knownSet, number ∈ set.members}

end NewsgroupList

/-- What the server and the user answer in `GetRangeOfArtsToDownload`; `none` where
a preference cannot be read. -/
structure DownloadAnswers where
  notifyOn : Option Bool
  window : Bool
  hitOK : Bool
  downloadAll : Bool
  maxArticles : Int
  markOldRead : Option Bool

namespace NewsgroupList

variable (junk : Junk)

/-- The dialog for the number of headers, and what it leads to. Without a window it
counts as cancelled. -/
def askForArticles (list : NewsgroupList) (answers : DownloadAnswers) (first last : Int) :
    NewsgroupList × Int × Int :=
  if answers.window && answers.hitOK then
    let list := { list with
      downloadAll := answers.downloadAll
      maxArticles := answers.maxArticles
      promptedAlready := true }
    if !answers.downloadAll then
      let set :=
        if answers.markOldRead.getD false then
          (MsgKeySet.addRange junk list.set first (last - answers.maxArticles)).1
        else list.set
      ({ list with set }, last - answers.maxArticles + 1, last)
    else (list, first, last)
  else ({ list with downloadAll := false, promptedAlready := true }, 0, 0)

/-- A missing range with more than `maxextra` articles is cut, or the user is asked. -/
def limitRange (list : NewsgroupList) (answers : DownloadAnswers) (maxextra first last : Int) :
    NewsgroupList × Int × Int :=
  if first > 0 ∧ last - first ≥ maxextra then
    if !list.getOldMessages && !list.promptedAlready && answers.notifyOn.getD true then
      list.askForArticles junk answers first last
    else if list.promptedAlready && !list.downloadAll then
      (list, last - list.maxArticles + 1, last)
    else if !list.downloadAll then (list, last - maxextra + 1, last)
    else (list, first, last)
  else (list, first, last)

/-- `GetRangeOfArtsToDownload` with the known articles of the database: the range, and
the status. -/
def getRangeOfArtsToDownload (list : NewsgroupList) (known : MsgKeySet)
    (answers : DownloadAnswers) (firstPossible lastPossible maxextra : Int) :
    NewsgroupList × (Int × Int) × Int :=
  let (known, isKnown) := MsgKeySet.isMember junk known lastPossible
  let list := { list with
    set := MsgKeySet.setLastMember junk list.set lastPossible
    knownSet := some known }
  if maxextra ≤ 0 ∨ lastPossible < firstPossible ∨ lastPossible < 1 then (list, (0, 0), 0)
  else
    let list := { list with firstPossible, lastPossible }
    if list.getOldMessages || !isKnown then
      let maxextra :=
        if !list.getOldMessages && !answers.notifyOn.getD true then 0x7FFFFFFF else maxextra
      let (known, result, first, last) :=
        MsgKeySet.lastMissingRange junk known firstPossible lastPossible
      let list := { list with knownSet := some known }
      if result < 0 then (list, (first, last), result)
      else
        let (list, first, last) := list.limitRange junk answers maxextra first last
        ({ list with firstMsgToDownload := first, lastMsgToDownload := last }, (first, last), 0)
    else ({ list with firstMsgToDownload := 0, lastMsgToDownload := 0 }, (0, 0), 0)

end NewsgroupList

end CommCentral.News
