import CoordinateStream.Lib.CxxText
import CoordinateStream.Lib.Sampler

namespace CoordinateStream

structure CoordinateData where
  longitude : Double
  latitude : Double
  timestamp : Int64
  sequence : UInt32
  deriving DecidableEq

namespace CoordinateData

/-- The default constructor: what the cell holds before the first update. -/
def placeholder : CoordinateData := ⟨.zero, .zero, 0, 0⟩

def toJson (d : CoordinateData) : Text :=
  Cxx.snprintf 256 ("\x7b\"coords\":[".toList ++ d.longitude.format 8 ++ ",".toList ++
    d.latitude.format 8 ++ "],\"time\":".toList ++ Decimal.integer d.timestamp.toInt ++
    ",\"seq\":".toList ++ Nat.toDigits 10 d.sequence.toNat ++ "\x7d".toList)

def toCsv (d : CoordinateData) : Text :=
  Cxx.snprintf 128 (d.longitude.format 8 ++ ',' :: (d.latitude.format 8 ++
    ',' :: Decimal.integer d.timestamp.toInt))

end CoordinateData

/-- The cell between the producer and its consumers, together with the `update` calls made
so far. It always holds the data of the last one. -/
structure SharedCoordinateState where
  latest : CoordinateData
  updates : List CoordinateData
  latest_eq : latest = updates.getLastD CoordinateData.placeholder
  deriving DecidableEq

namespace SharedCoordinateState

def init : SharedCoordinateState := ⟨.placeholder, [], rfl⟩

def update (s : SharedCoordinateState) (lon lat : Double) (timestamp : Int64)
    (sequence : UInt32) : SharedCoordinateState where
  latest := ⟨lon, lat, timestamp, sequence⟩
  updates := s.updates ++ [⟨lon, lat, timestamp, sequence⟩]
  latest_eq := by simp

def getLatest (s : SharedCoordinateState) : CoordinateData := s.latest

def hasData (s : SharedCoordinateState) : Bool := 0 < s.latest.sequence

/-- `getLatest` with the number of the update it comes from. -/
def read (s : SharedCoordinateState) : Sampler.Entry CoordinateData :=
  ⟨s.updates.length, s.getLatest⟩

@[simp] theorem update_updates (s : SharedCoordinateState) (lon lat : Double) (t : Int64)
    (q : UInt32) : (s.update lon lat t q).updates = s.updates ++ [⟨lon, lat, t, q⟩] := rfl

@[simp] theorem read_item (s : SharedCoordinateState) : s.read.item = s.latest := rfl

@[simp] theorem read_number (s : SharedCoordinateState) : s.read.number = s.updates.length := rfl

/-- A sequence above some other one never belongs to the placeholder. -/
theorem getLast?_of_lt {s : SharedCoordinateState} {q : UInt32} (h : q < s.latest.sequence) :
    s.updates.getLast? = some s.latest := by
  have heq := s.latest_eq
  by_cases hu : s.updates = []
  · rw [hu, List.getLastD_nil] at heq
    rw [heq] at h
    exact absurd h (UInt32.not_lt.mpr UInt32.zero_le)
  · rw [List.getLast?_eq_some_getLast hu]
    rw [List.getLastD_eq_getLast?, List.getLast?_eq_some_getLast hu] at heq
    exact congrArg some heq.symm

end SharedCoordinateState

/-- The topic type of the wire. -/
structure Message where
  mFrom : Text
  mSubject : Text
  mSubjectId : Int32
  mText : Text
  mCount : Int32
  deriving DecidableEq

end CoordinateStream
