/-
The live playlists of `com.sun.media.jfxmedia.locator.HLSConnectionHolder`.

A playlist of a live stream is loaded again and again.  Each time it is a window of one sequence of
segments, and `sequenceNumber` is the position of its first one.  Three parties share the playlist:
the thread that loads it, the thread that reads segments by `getNextMediaFile`, and whoever calls
`seek` and `close`.  What one of them does under the lock is one step, and so is every operation on
`liveSemaphore` and every access to a flag outside the lock.

Only the branches of a live playlist are here.
-/
import Mathlib.Logic.Relation

namespace JavaFX.HLSConnectionHolder

structure Playlist where
  mediaFiles : List String := []
  mediaFilesDiscontinuities : List Bool := []
  mediaFileIndex : Int := -1
  liveSemaphore : Nat := 0
  isPlaylistClosed : Bool := false
  isLiveWaiting : Bool := false
  isLiveStop : Bool := false
  sequenceNumber : Int := -1
  sequenceNumberStart : Int := -1
  sequenceNumberUpdated : Bool := false
  forceDiscontinuity : Bool := false
deriving DecidableEq

namespace Playlist

/-- Forget the first media file. -/
def dropFirst (p : Playlist) : Playlist :=
  { p with
    mediaFiles := p.mediaFiles.tail
    mediaFilesDiscontinuities := p.mediaFilesDiscontinuities.tail
    forceDiscontinuity := if p.mediaFileIndex = -1 then true else p.forceDiscontinuity
    mediaFileIndex := if 0 ≤ p.mediaFileIndex then p.mediaFileIndex - 1 else p.mediaFileIndex }

def dropFirsts : Nat → Playlist → Playlist
  | 0, p => p
  | n + 1, p => dropFirsts n p.dropFirst

/-- Where the window has moved, forget the files before its first one. -/
def dropBefore (uri : String) (p : Playlist) : Playlist :=
  if p.sequenceNumberUpdated then
    let p := match p.mediaFiles.idxOf? uri with
      | some index => p.dropFirsts index
      | none => p
    { p with sequenceNumberUpdated := false }
  else p

def addMediaFile (resolveURI : String → Option String) (uri : String) (isDiscontinuity : Bool) (p : Playlist) :
    Playlist :=
  match resolveURI uri with
  | none => p
  | some uri =>
    let p := p.dropBefore uri
    if uri ∈ p.mediaFiles then p
    else
      { p with
        mediaFiles := p.mediaFiles ++ [uri]
        mediaFilesDiscontinuities := p.mediaFilesDiscontinuities ++ [isDiscontinuity]
        liveSemaphore := if p.isLiveWaiting then p.liveSemaphore + 1 else p.liveSemaphore }

/-- Whether there may be new files, and the playlist afterwards. -/
def setSequenceNumber (value : Int) (p : Playlist) : Bool × Playlist :=
  if p.sequenceNumberStart = -1 then (true, { p with sequenceNumberStart := value })
  else if p.sequenceNumber ≠ value then (true, { p with sequenceNumberUpdated := true, sequenceNumber := value })
  else (false, p)

def seek (time : Int) (p : Playlist) : Playlist :=
  if time = 0 then
    let p := { p with mediaFileIndex := -1 }
    if p.isLiveWaiting then { p with isLiveStop := true, liveSemaphore := p.liveSemaphore + 1 } else p
  else p

end Playlist

/-- The segments of a stream, and how their URIs are resolved.  Different segments have different URIs. -/
structure Stream where
  uri : Nat → String
  resolveURI : String → Option String
  distinct : ∀ i j u, resolveURI (uri i) = some u → resolveURI (uri j) = some u → i = j

namespace Stream

def segment (s : Stream) (position : Nat) : Option String := s.resolveURI (s.uri position)

/-- The entries of a playlist that begins at `position`, each with whether it is a discontinuity. -/
def entries (s : Stream) (position : Nat) (discontinuities : List Bool) : List (String × Bool) :=
  (discontinuities.zipIdx position).map fun e => (s.uri e.2, e.1)

end Stream

/-- Where the reader is. -/
inductive Phase
  | outside
  /-- before `liveSemaphore.acquire()` -/
  | waiting
  | acquired
  /-- before it looks at `isLiveStop` -/
  | awake
  | stopped
  | interrupted
  /-- before it looks at `isPlaylistClosed` -/
  | passed
  /-- before `mediaFileIndex++` -/
  | counting
deriving DecidableEq

/-- What a call of `getNextMediaFile` returned.  It is `excused` if the playlist was closed by then, if its wait was
interrupted by a seek, or if the thread was interrupted. -/
structure Returned where
  mediaFile : Option String
  excused : Bool
deriving DecidableEq

/-- `entries` are those the loading thread has not added yet, and `window` is where the last window began.  `closing`
calls of `close` have set the flag and are about to release the semaphore.  The current call of `getNextMediaFile` was
`sought` if a seek came while it waited; `seeks` if there was a seek at all. -/
structure Machine where
  playlist : Playlist := {}
  phase : Phase := .outside
  entries : List (String × Bool) := []
  window : Nat := 0
  closing : Nat := 0
  sought : Bool := false
  seeks : Bool := false
  returned : List Returned := []
deriving DecidableEq

namespace Machine

def returns (mediaFile : Option String) (m : Machine) : Machine :=
  { m with
    phase := .outside
    returned := m.returned ++ [⟨mediaFile, m.playlist.isPlaylistClosed || m.sought || decide (m.phase = .interrupted)⟩] }

/-- The next step of `getNextMediaFile`. -/
def getNextMediaFile (m : Machine) : Option Machine :=
  let p := m.playlist
  match m.phase with
  | .outside =>
    let isLiveWaiting := decide (p.mediaFileIndex + 1 ≥ p.mediaFiles.length)
    some { m with
      playlist := { p with isLiveWaiting }
      phase := if isLiveWaiting then .waiting else .passed
      sought := false }
  | .waiting =>
    if 0 < p.liveSemaphore then
      some { m with playlist := { p with liveSemaphore := p.liveSemaphore - 1 }, phase := .acquired }
    else none
  | .acquired => some { m with playlist := { p with isLiveWaiting := false }, phase := .awake }
  | .awake => some { m with phase := if p.isLiveStop then .stopped else .passed }
  | .stopped => some (returns none { m with playlist := { p with isLiveStop := false } })
  | .interrupted => some (returns none { m with playlist := { p with isLiveWaiting := false } })
  | .passed => if p.isPlaylistClosed then some (returns none m) else some { m with phase := .counting }
  | .counting =>
    -- the index was -1 or more
    let mediaFileIndex := p.mediaFileIndex + 1
    let mediaFile :=
      if mediaFileIndex < p.mediaFiles.length then p.mediaFiles[mediaFileIndex.toNat]? else none
    some (returns mediaFile { m with playlist := { p with mediaFileIndex } })

end Machine

inductive Action
  | getNextMediaFile
  | interrupt
  /-- The playlist was fetched. -/
  | update (position : Nat) (discontinuities : List Bool)
  | addMediaFile
  | seek (time : Int)
  | close
  /-- `liveSemaphore.release()` of `close` -/
  | release

def step (s : Stream) (m : Machine) : Action → Option Machine
  | .getNextMediaFile => m.getNextMediaFile
  | .interrupt => if m.phase = .waiting then some { m with phase := .interrupted } else none
  | .update position discontinuities =>
    if m.entries = [] ∧ m.window ≤ position then
      let (changed, playlist) := m.playlist.setSequenceNumber position
      some { m with
        playlist
        window := position
        entries := if changed then s.entries position discontinuities else [] }
    else none
  | .addMediaFile =>
    match m.entries with
    | (uri, isDiscontinuity) :: entries =>
      some { m with playlist := m.playlist.addMediaFile s.resolveURI uri isDiscontinuity, entries }
    | [] => none
  | .seek time =>
    some { m with
      playlist := m.playlist.seek time
      sought := m.sought || (decide (time = 0) && m.playlist.isLiveWaiting)
      seeks := m.seeks || decide (time = 0) }
  | .close => some { m with playlist.isPlaylistClosed := true, closing := m.closing + 1 }
  | .release =>
    if 0 < m.closing then
      some { m with playlist.liveSemaphore := m.playlist.liveSemaphore + 1, closing := m.closing - 1 }
    else none

inductive Reachable (s : Stream) : Machine → Prop
  | init : Reachable s {}
  | step {m m' : Machine} {a : Action} : Reachable s m → step s m a = some m' → Reachable s m'

/-- A call that is going to wait finds no permit, unless the playlist is closed. -/
def Machine.Careful (m : Machine) : Prop :=
  m.phase = .outside → m.playlist.mediaFiles.length ≤ m.playlist.mediaFileIndex + 1 →
    m.playlist.liveSemaphore = 0 ∨ m.playlist.isPlaylistClosed = true

/-- Reached by calls that meet this condition. -/
inductive CarefullyReachable (s : Stream) : Machine → Prop
  | init : CarefullyReachable s {}
  | step {m m' : Machine} {a : Action} : CarefullyReachable s m → (a = .getNextMediaFile → m.Careful) →
      step s m a = some m' → CarefullyReachable s m'

/-- No call returned `null` but for a reason. -/
def Machine.Endless (m : Machine) : Prop := ∀ r ∈ m.returned, r.mediaFile = none → r.excused = true

/-- Without seeks, the returned files are segments in the order of the sequence, none twice. -/
def Machine.InOrder (s : Stream) (m : Machine) : Prop :=
  m.seeks = false → ∃ positions : List Nat, positions.Pairwise (· < ·) ∧
    positions.map s.segment = (m.returned.filterMap Returned.mediaFile).map some

end JavaFX.HLSConnectionHolder
