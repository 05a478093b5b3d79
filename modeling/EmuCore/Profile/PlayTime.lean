import EmuCore.Lib.Transition
import EmuCore.Util.Stream

namespace EmuCore.Profile

open EmuCore.Util

-- Durations and times are in milliseconds.
structure PlayerPlayTimeDelta where
  titleId : Bytes
  title : Bytes
  coverArtPath : Option Bytes
  durationMs : Int
  sessionCount : Int
  lastPlayedAtMs : Int

structure Strings where
  isBlank : Bytes -> Bool
  uppercase : Bytes -> Bytes

variable (strings : Strings)

def buildCacheKey (entry : PlayerPlayTimeDelta) : Bytes := strings.uppercase entry.titleId

def isValid (entry : PlayerPlayTimeDelta) : Bool := !strings.isBlank entry.titleId && decide (0 < entry.durationMs)

def put (entry : PlayerPlayTimeDelta) : List PlayerPlayTimeDelta -> List PlayerPlayTimeDelta
  | [] => [entry]
  | first :: rest =>
    if buildCacheKey strings first = buildCacheKey strings entry then entry :: rest else first :: put entry rest

def mergeInto (existing entry : PlayerPlayTimeDelta) : PlayerPlayTimeDelta :=
  { existing with
    title := if strings.isBlank entry.title then existing.title else entry.title
    coverArtPath := entry.coverArtPath <|> existing.coverArtPath
    durationMs := existing.durationMs + entry.durationMs
    sessionCount := existing.sessionCount + entry.sessionCount
    lastPlayedAtMs := max existing.lastPlayedAtMs entry.lastPlayedAtMs }

def addEntry (entry : PlayerPlayTimeDelta) : List PlayerPlayTimeDelta -> List PlayerPlayTimeDelta
  | [] => [entry]
  | first :: rest =>
    if buildCacheKey strings first = buildCacheKey strings entry then mergeInto strings first entry :: rest
    else first :: addEntry entry rest

def stored (entry : PlayerPlayTimeDelta) : PlayerPlayTimeDelta :=
  { entry with coverArtPath := entry.coverArtPath.filter fun path => !strings.isBlank path }

def readEntries (raw : List PlayerPlayTimeDelta) : List PlayerPlayTimeDelta :=
  raw.foldl (fun entries entry => if isValid strings entry then put strings (stored strings entry) entries else entries) []

def writeEntries (entries : List PlayerPlayTimeDelta) : List PlayerPlayTimeDelta := entries.filter (isValid strings)

abbrev Call := Option PlayerPlayTimeDelta

-- Reads and writes of the preference are single steps. Between a read and the write after it, a call holds the
-- mutex of its own repository, which no other call has.
inductive Pc
  | start
  | adding (entry : PlayerPlayTimeDelta) (entries : List PlayerPlayTimeDelta)
  | syncing
  | draining
  | drained (entries : List PlayerPlayTimeDelta)
  | uploading (entries : List PlayerPlayTimeDelta)
  | restoring (entries : List PlayerPlayTimeDelta)
  | merging (entries current : List PlayerPlayTimeDelta)
  | finished

structure Shared where
  preference : List PlayerPlayTimeDelta
  cloud : Bytes -> Int

def duration (key : Bytes) (entries : List PlayerPlayTimeDelta) : Int :=
  ((entries.filter fun entry => buildCacheKey strings entry = key).map (·.durationMs)).sum

def recordPlayTimeBatch (entries : List PlayerPlayTimeDelta) (cloud : Bytes -> Int) : Bytes -> Int :=
  fun key => cloud key + duration strings key entries

-- The choice says whether a user is signed in, and whether an upload succeeds.
def stepCall (call : Call) (choice : Bool) (shared : Shared) : Pc -> Option (Shared × Pc)
  | .start =>
    match call with
    | none => some (shared, .syncing)
    | some entry =>
      if isValid strings entry then some (shared, .adding entry (readEntries strings shared.preference))
      else some (shared, .syncing)
  | .adding entry entries =>
    some ({ shared with preference := writeEntries strings (addEntry strings entry entries) }, .syncing)
  | .syncing => some (shared, if choice then .draining else .finished)
  | .draining =>
    let entries := readEntries strings shared.preference
    some (shared, if entries = [] then .finished else .drained entries)
  | .drained entries => some ({ shared with preference := [] }, .uploading entries)
  | .uploading entries =>
    if choice then some ({ shared with cloud := recordPlayTimeBatch strings entries shared.cloud }, .finished)
    else some (shared, .restoring (entries.filter (isValid strings)))
  | .restoring entries =>
    some (shared, if entries = [] then .finished else .merging entries (readEntries strings shared.preference))
  | .merging entries current =>
    let merged := entries.foldl (fun current entry => addEntry strings entry current) current
    some ({ shared with preference := writeEntries strings merged }, .finished)
  | .finished => none

structure State (n : Nat) where
  shared : Shared
  pcs : Fin n -> Pc

variable {n : Nat} (calls : Fin n -> Call)

def step (state : State n) (action : Fin n × Bool) : Option (State n) :=
  (stepCall strings (calls action.1) action.2 state.shared (state.pcs action.1)).map fun after =>
    ⟨after.1, Function.update state.pcs action.1 after.2⟩

def system (initial : Shared) : Transition.System (State n) (Fin n × Bool) where
  init := fun state => state = ⟨initial, fun _ => .start⟩
  step := step strings calls

def recorded (key : Bytes) (call : Call) : Int :=
  call.elim 0 fun entry => if isValid strings entry ∧ buildCacheKey strings entry = key then entry.durationMs else 0

def pending (key : Bytes) (shared : Shared) : Int := duration strings key (readEntries strings shared.preference)

def Conserved {n : Nat} (calls : Fin n -> Call) (initial final : Shared) : Prop :=
  ∀ key, final.cloud key + pending strings key final =
    initial.cloud key + pending strings key initial + ∑ i, recorded strings key (calls i)

end EmuCore.Profile
