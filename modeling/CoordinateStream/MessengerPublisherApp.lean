import CoordinateStream.SharedCoordinateState
import CoordinateStream.Lib.Machine

namespace CoordinateStream

/-- What DDS reports with a change of the matched readers. -/
structure PublicationMatchedStatus where
  currentCount : ℤ
  currentCountChange : ℤ
  deriving DecidableEq, Repr

namespace MessengerPublisherApp

/-- Where the thread that executes `run` stands. The `wait` states are those of the untimed
wait of `publish_from_shared_state`, the `period` states those of the timed wait of `run`:
about to test the predicate, about to block after a false test, and blocked. -/
inductive Pc
  | notStarted
  | loop
  | publish
  | waitTest
  | waitBlock
  | waitBlocked
  | waited
  | read
  | write (coordData : Sampler.Entry CoordinateData)
  | returned (ret : Bool)
  | periodTest
  | periodBlock
  | periodBlocked
  | finished
  deriving DecidableEq

/-- The thread in these states holds `mutex_`. -/
def Pc.holdsMutex : Pc → Bool
  | .waitBlock | .waited | .read | .write _ | .periodBlock => true
  | _ => false

inductive Event
  /-- The next statement of `run`; `ok` is what `write` returns where it is that. -/
  | thread (ok : Bool)
  | timeout
  | matched (info : PublicationMatchedStatus)
  | matchedNotify
  | stopStore
  | stopNotify
  deriving DecidableEq

end MessengerPublisherApp

open MessengerPublisherApp in
structure MessengerPublisherApp where
  pc : Pc
  matched : ℤ
  samplesSent : UInt32
  lastPublishedSequence : UInt32
  stop : Bool
  /-- Match callbacks that released the mutex and have not notified yet. -/
  matchNotifying : ℕ
  stopNotifying : ℕ
  stopsReturned : ℕ
  /-- The calls of `write`, and the samples of those that returned OK. -/
  writes : ℕ
  written : List (Sampler.Entry CoordinateData)
  deriving DecidableEq

namespace MessengerPublisherApp

def init : MessengerPublisherApp := ⟨.notStarted, 0, 0, 0, false, 0, 0, 0, 0, []⟩

/-- The DDS sample `publish_from_shared_state` makes of the data it read. -/
def sample (d : CoordinateData) : Message where
  mFrom := "CoordinatePublisher".toList
  mSubject := "GPS_Coordinates".toList
  mSubjectId := 1
  mText := d.toCsv
  mCount := d.sequence.toInt32

@[simp] theorem sample_mText (d : CoordinateData) : (sample d).mText = d.toCsv := rfl

@[simp] theorem sample_mCount (d : CoordinateData) : (sample d).mCount = d.sequence.toInt32 := rfl

/-- `write`, and the cursor update when it returned OK. -/
def writeSample (p : MessengerPublisherApp) (e : Sampler.Entry CoordinateData) (ok : Bool) :
    MessengerPublisherApp :=
  { p with
    lastPublishedSequence := if ok then e.item.sequence else p.lastPublishedSequence
    writes := p.writes + 1
    written := if ok then p.written ++ [e] else p.written }

def threadStep (shared : SharedCoordinateState) (ok : Bool) (p : MessengerPublisherApp) :
    Option MessengerPublisherApp :=
  match p.pc with
  | .notStarted => some { p with pc := .loop }
  | .loop => some { p with pc := if p.stop then .finished else .publish }
  | .publish => some { p with pc := if shared.hasData then .waitTest else .returned false }
  | .waitTest => some { p with pc := if 0 < p.matched ∨ p.stop then .waited else .waitBlock }
  | .waitBlock => some { p with pc := .waitBlocked }
  | .waitBlocked => none
  | .waited => some { p with pc := if p.stop then .returned false else .read }
  | .read => some { p with
      pc := if shared.getLatest.sequence ≤ p.lastPublishedSequence then .returned false
        else .write shared.read }
  | .write e => some { p.writeSample e ok with pc := .returned ok }
  | .returned ret => some { p with
      samplesSent := if ret then p.samplesSent + 1 else p.samplesSent
      pc := .periodTest }
  | .periodTest => some { p with pc := if p.stop then .loop else .periodBlock }
  | .periodBlock => some { p with pc := .periodBlocked }
  | .periodBlocked => none
  | .finished => none

/-- `cv_.notify_one`: only the thread of `run` ever waits. -/
def notifyOne (p : MessengerPublisherApp) : MessengerPublisherApp :=
  { p with
    pc := match p.pc with
      | .waitBlocked => .waitTest
      | .periodBlocked => .periodTest
      | pc => pc }

/-- `on_publication_matched` up to its notification. -/
def onPublicationMatched (p : MessengerPublisherApp) (info : PublicationMatchedStatus) :
    MessengerPublisherApp :=
  if info.currentCountChange = 1 then
    { p with matched := info.currentCount, matchNotifying := p.matchNotifying + 1 }
  else if info.currentCountChange = -1 then { p with matched := info.currentCount }
  else p

def step (shared : SharedCoordinateState) (p : MessengerPublisherApp) :
    Event → Option MessengerPublisherApp
  | .thread ok => p.threadStep shared ok
  | .timeout => if p.pc = .periodBlocked then some { p with pc := .loop } else none
  | .matched info =>
    -- the count is stored under the mutex, which the other changes do not take
    if (info.currentCountChange = 1 ∨ info.currentCountChange = -1) ∧ p.pc.holdsMutex then none
    else some (p.onPublicationMatched info)
  | .matchedNotify =>
    if 0 < p.matchNotifying then
      some { p.notifyOne with matchNotifying := p.matchNotifying - 1 }
    else none
  | .stopStore => some { p with stop := true, stopNotifying := p.stopNotifying + 1 }
  | .stopNotify =>
    if 0 < p.stopNotifying then
      some { p.notifyOne with
        stopNotifying := p.stopNotifying - 1
        stopsReturned := p.stopsReturned + 1 }
    else none

/-- `publish_from_shared_state` from its call to its return, with nothing in between; `none`
where its wait blocks. -/
def publishFromSharedState (shared : SharedCoordinateState) (ok : Bool)
    (p : MessengerPublisherApp) : Option (Bool × MessengerPublisherApp) :=
  if shared.hasData = false then some (false, p)
  else if ¬(0 < p.matched ∨ p.stop) then none
  else if p.stop then some (false, p)
  else if shared.getLatest.sequence ≤ p.lastPublishedSequence then some (false, p)
  else some (ok, p.writeSample shared.read ok)

end MessengerPublisherApp

end CoordinateStream
