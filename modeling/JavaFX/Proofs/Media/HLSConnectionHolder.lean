/-
When a live playlist ends.

Two things are kept, and apart from each other.  The media files are segments in the order of the
sequence, whatever the reader does, since a window leaves no resolvable segment out between its
first one and the last one that was added.  And a wait that began without a permit is
over only if there is a file to read or the call has an excuse; this is what a permit left over from
an earlier wait breaks, and nothing else does.
-/
import JavaFX.Media.HLSConnectionHolder

namespace JavaFX.HLSConnectionHolder

open List

variable {s : Stream} {p : Playlist} {m m' : Machine}

/-! ### What loading does to the playlist -/

namespace Playlist

/-- Beside the files themselves, forgetting some of them moves the index. -/
structure Dropped (n : Nat) (p p' : Playlist) : Prop where
  mediaFiles : p'.mediaFiles = p.mediaFiles.drop n
  index : -1 ≤ p.mediaFileIndex → p'.mediaFileIndex = max (p.mediaFileIndex - n) (-1)
  liveSemaphore : p'.liveSemaphore = p.liveSemaphore
  isPlaylistClosed : p'.isPlaylistClosed = p.isPlaylistClosed
  isLiveWaiting : p'.isLiveWaiting = p.isLiveWaiting
  isLiveStop : p'.isLiveStop = p.isLiveStop

theorem dropFirsts_spec : ∀ (n : Nat) (p : Playlist), Dropped n p (p.dropFirsts n)
  | 0, p => ⟨rfl, fun hi => by rw [dropFirsts]; omega, rfl, rfl, rfl, rfl⟩
  | n + 1, p => by
    have h := dropFirsts_spec n p.dropFirst
    refine ⟨?_, fun hi => ?_, h.liveSemaphore, h.isPlaylistClosed, h.isLiveWaiting, h.isLiveStop⟩
    · rw [dropFirsts, h.mediaFiles, dropFirst, ← drop_one, drop_drop, Nat.add_comm]
    · have hfirst : p.dropFirst.mediaFileIndex = max (p.mediaFileIndex - 1) (-1) := by
        rw [dropFirst]
        dsimp only
        split <;> omega
      rw [dropFirsts, h.index (by omega), hfirst]
      omega

theorem dropBefore_spec (uri : String) (p : Playlist) : (p.dropBefore uri).sequenceNumberUpdated = false ∧
      ∃ n, Dropped n p (p.dropBefore uri) ∧ (n = 0 ∨ p.sequenceNumberUpdated = true ∧
        p.mediaFiles[n]? = some uri) := by
  unfold dropBefore
  by_cases hu : p.sequenceNumberUpdated = true
  · rw [if_pos hu]
    refine ⟨rfl, ?_⟩
    cases hi : p.mediaFiles.idxOf? uri with
    | none =>
      have h := dropFirsts_spec 0 p
      exact ⟨0, ⟨h.mediaFiles, h.index, h.liveSemaphore, h.isPlaylistClosed, h.isLiveWaiting, h.isLiveStop⟩, .inl rfl⟩
    | some n =>
      have h := dropFirsts_spec n p
      refine ⟨n, ⟨h.mediaFiles, h.index, h.liveSemaphore, h.isPlaylistClosed, h.isLiveWaiting, h.isLiveStop⟩,
        .inr ⟨hu, ?_⟩⟩
      rw [idxOf?_eq_some_iff] at hi
      obtain ⟨hlt, heq, -⟩ := hi
      rw [getElem?_eq_getElem hlt, heq]
  · rw [if_neg hu]
    exact ⟨by simpa using hu, 0, dropFirsts_spec 0 p, .inl rfl⟩

end Playlist

/-! ### The files are segments in order -/

/-- The files are the segments at `positions`, with none left out from `window` to the last of them. -/
structure Files (s : Stream) (window : Nat) (p : Playlist) (positions : List Nat) : Prop where
  files : positions.map s.segment = p.mediaFiles.map some
  sorted : positions.Pairwise (· < ·)
  complete : ∀ i ∈ positions, ∀ n < i, window ≤ n → s.segment n ≠ none → n ∈ positions
  index : -1 ≤ p.mediaFileIndex

/-- The entries before `k` were dealt with. -/
def Loaded (s : Stream) (window k : Nat) (positions : List Nat) : Prop :=
  ∀ n < k, window ≤ n → s.segment n ≠ none → n ∈ positions

/-- What was returned, `read`, is known to the playlist and comes before what is still to be returned. -/
structure Past (p : Playlist) (positions read : List Nat) : Prop where
  known : ∀ q ∈ read, ∃ i ∈ positions, q ≤ i
  before : ∀ (j i : Nat), positions[j]? = some i → p.mediaFileIndex < j → ∀ q ∈ read, q < i

section
variable {window k n : Nat} {positions read : List Nat} {uri : String}

section

variable (h : Files s window p positions)
include h

theorem Files.get {j i : Nat} (hi : positions[j]? = some i) : s.segment i = p.mediaFiles[j]? := by
  have := congrArg (·[j]?) h.files
  simp only [getElem?_map, hi, Option.map_some] at this
  cases hm : p.mediaFiles[j]? with
  | none => rw [hm] at this; exact nomatch this
  | some u => rw [hm] at this; exact Option.some.inj this

section

variable (hk : s.segment k = some uri)
include hk

theorem Files.position {j : Nat}
    (hj : p.mediaFiles[j]? = some uri) : positions[j]? = some k := by
  have hlen : positions.length = p.mediaFiles.length := by simpa using congrArg length h.files
  have hlt : j < positions.length := hlen ▸ (List.getElem?_eq_some_iff.1 hj).1
  have hat := getElem?_eq_getElem hlt
  rw [hat, s.distinct _ k uri ((h.get hat).trans hj) hk]

theorem Files.mem : uri ∈ p.mediaFiles ↔ k ∈ positions := by
  constructor
  · intro hm
    obtain ⟨j, hj⟩ := mem_iff_getElem?.1 hm
    exact mem_of_getElem? (h.position hk hj)
  · intro hm
    obtain ⟨j, hj⟩ := mem_iff_getElem?.1 hm
    exact mem_of_getElem? ((h.get hj).symm.trans hk)

/-- **Forgetting** what lies before the first segment of the window. -/
theorem Files.dropBefore (hl : Loaded s window k positions)
    (hu : p.sequenceNumberUpdated = true → ∀ n < k, window ≤ n → s.segment n = none) :
    ∃ positions', Files s window (p.dropBefore uri) positions' ∧ Loaded s window k positions' ∧
      ∀ read, Past p positions read → Past (p.dropBefore uri) positions' read := by
  obtain ⟨-, n, hd, rfl | ⟨hup, hn⟩⟩ := p.dropBefore_spec uri
  · have hindex : (p.dropBefore uri).mediaFileIndex = p.mediaFileIndex := by
      rw [hd.index h.index]
      have := h.index
      omega
    exact ⟨positions, ⟨by rw [hd.mediaFiles]; exact h.files, h.sorted, h.complete, by rw [hindex]; exact h.index⟩, hl,
      fun read hr => ⟨hr.known, by rw [hindex]; exact hr.before⟩⟩
  · have hat : positions[n]? = some k := h.position hk hn
    have hindex := hd.index h.index
    have hsub : ∀ i ∈ positions, k ≤ i → i ∈ positions.drop n := fun i hi hki => by
      obtain ⟨j, hj, rfl⟩ := getElem_of_mem hi
      obtain ⟨hnlt, rfl⟩ := List.getElem?_eq_some_iff.1 hat
      have hnj : n ≤ j := Nat.le_of_not_lt fun hjn =>
        absurd (pairwise_iff_getElem.1 h.sorted j n hj hnlt hjn) (Nat.not_lt.2 hki)
      exact mem_iff_getElem?.2 ⟨j - n, by rw [getElem?_drop, Nat.add_sub_cancel' hnj, getElem?_eq_getElem hj]⟩
    have hkeep : ∀ i ∈ positions, window ≤ i → s.segment i ≠ none → i ∈ positions.drop n := fun i hi hw hne => by
      refine hsub i hi (Nat.le_of_not_lt fun hik => hne (hu hup i hik hw))
    refine ⟨positions.drop n, ⟨?_, ?_, ?_, ?_⟩, fun i hik hw hne => hkeep i (hl i hik hw hne) hw hne,
      fun read hr => ⟨fun q hq => ?_, fun j i hi hj q hq => ?_⟩⟩
    · rw [hd.mediaFiles, map_drop, map_drop, h.files]
    · exact h.sorted.drop
    · exact fun i hi n' hn' hw hne => hkeep n' (h.complete i (mem_of_mem_drop hi) n' hn' hw hne) hw hne
    · rw [hindex]; omega
    · obtain ⟨i, hi, hqi⟩ := hr.known q hq
      by_cases hki : k ≤ i
      · exact ⟨i, hsub i hi hki, hqi⟩
      · exact ⟨k, hsub k (mem_of_getElem? hat) (Nat.le_refl k), by omega⟩
    · rw [getElem?_drop] at hi
      exact hr.before (n + j) i hi (by rw [hindex] at hj; omega) q hq

/-- **Adding** a segment that is not among the files. -/
theorem Files.append
    (hl : Loaded s window k positions) (hw : window ≤ k) (hnew : k ∉ positions) (p' : Playlist)
    (hp : p'.mediaFiles = p.mediaFiles ++ [uri]) (hi : p'.mediaFileIndex = p.mediaFileIndex) :
    Files s window p' (positions ++ [k]) ∧ Loaded s window (k + 1) (positions ++ [k]) ∧
      ∀ read, Past p positions read → Past p' (positions ++ [k]) read := by
  -- a later segment among the files would not have left this one out
  have hlast : ∀ i ∈ positions, i < k := fun i hi => by
    refine Nat.lt_of_not_le fun hki => ?_
    obtain rfl | hlt := Nat.eq_or_lt_of_le hki
    · exact hnew hi
    · exact hnew (h.complete i hi k hlt hw (by rw [hk]; nofun))
  have hloaded : Loaded s window (k + 1) (positions ++ [k]) := fun n hn hwn hne => by
    rw [mem_append, mem_singleton]
    rcases Nat.lt_succ_iff_lt_or_eq.1 hn with hlt | heq
    · exact .inl (hl n hlt hwn hne)
    · exact .inr heq
  refine ⟨⟨?_, ?_, ?_, by rw [hi]; exact h.index⟩, hloaded, fun read hr => ⟨fun q hq => ?_, fun j i hji hj q hq => ?_⟩⟩
  · rw [hp, map_append, map_append, h.files, map_singleton, hk, map_singleton]
  · rw [pairwise_append]
    refine ⟨h.sorted, pairwise_singleton _ _, fun i hi j hj => ?_⟩
    rw [mem_singleton.1 hj]
    exact hlast i hi
  · intro i hi n hn hwn hne
    rw [mem_append, mem_singleton] at hi
    obtain hi | rfl := hi
    · exact mem_append_left _ (h.complete i hi n hn hwn hne)
    · exact mem_append_left _ (hl n hn hwn hne)
  · obtain ⟨i, hi, hqi⟩ := hr.known q hq
    exact ⟨i, mem_append_left _ hi, hqi⟩
  · rw [hi] at hj
    by_cases hlt : j < positions.length
    · rw [getElem?_append_left hlt] at hji
      exact hr.before j i hji hj q hq
    · have hik : i ∈ [k] := by
        rw [getElem?_append_right (Nat.le_of_not_lt hlt)] at hji
        exact mem_of_getElem? hji
      obtain ⟨i', hi', hqi⟩ := hr.known q hq
      rw [mem_singleton.1 hik]
      exact Nat.lt_of_le_of_lt hqi (hlast i' hi')

end

theorem Files.addMediaFile (hl : Loaded s window k positions) (hw : window ≤ k)
    (hu : p.sequenceNumberUpdated = true → ∀ n < k, window ≤ n → s.segment n = none) (discontinuity : Bool) :
    ∃ positions', Files s window (p.addMediaFile s.resolveURI (s.uri k) discontinuity) positions' ∧
      Loaded s window (k + 1) positions' ∧
      ((p.addMediaFile s.resolveURI (s.uri k) discontinuity).sequenceNumberUpdated = true →
        ∀ n < k + 1, window ≤ n → s.segment n = none) ∧
      ∀ read, Past p positions read → Past (p.addMediaFile s.resolveURI (s.uri k) discontinuity) positions' read := by
  unfold Playlist.addMediaFile
  have hsplit : ∀ n < k + 1, n < k ∨ n = k := fun n hn => Nat.lt_succ_iff_lt_or_eq.1 hn
  cases hk : s.resolveURI (s.uri k) with
  | none =>
    refine ⟨positions, h, fun n hn hwn hne => ?_, fun hup n hn hwn => ?_, fun _ hr => hr⟩
    · obtain hlt | rfl := hsplit n hn
      · exact hl n hlt hwn hne
      · exact absurd hk hne
    · obtain hlt | rfl := hsplit n hn
      · exact hu hup n hlt hwn
      · exact hk
  | some uri =>
    obtain ⟨positions₁, h₁, hl₁, hpast₁⟩ := h.dropBefore hk hl hu
    have hnot := (p.dropBefore_spec uri).1
    dsimp only
    by_cases hm : uri ∈ (p.dropBefore uri).mediaFiles
    · rw [if_pos hm]
      refine ⟨positions₁, h₁, fun n hn hwn hne => ?_, fun hup => absurd hup (by rw [hnot]; nofun), hpast₁⟩
      obtain hlt | rfl := hsplit n hn
      · exact hl₁ n hlt hwn hne
      · exact (h₁.mem hk).1 hm
    · rw [if_neg hm]
      obtain ⟨h₂, hl₂, hpast₂⟩ := h₁.append hk hl₁ hw (fun hmem => hm ((h₁.mem hk).2 hmem)) { p.dropBefore uri with
          mediaFiles := (p.dropBefore uri).mediaFiles ++ [uri]
          mediaFilesDiscontinuities := (p.dropBefore uri).mediaFilesDiscontinuities ++ [discontinuity]
          liveSemaphore := if (p.dropBefore uri).isLiveWaiting then (p.dropBefore uri).liveSemaphore + 1
            else (p.dropBefore uri).liveSemaphore } rfl rfl
      exact ⟨positions₁ ++ [k], h₂, hl₂, fun hup => absurd hup (by rw [hnot]; nofun),
        fun read hr => hpast₂ read (hpast₁ read hr)⟩

end

end

namespace Machine

/-- The media files, what is being loaded and what was returned are all in the order of the sequence. -/
structure Ordered (s : Stream) (m : Machine) (positions : List Nat) : Prop where
  files : Files s m.window m.playlist positions
  loading : m.entries ≠ [] → ∃ k discontinuities, m.entries = s.entries k discontinuities ∧ m.window ≤ k ∧
    Loaded s m.window k positions ∧
    (m.playlist.sequenceNumberUpdated = true → ∀ n < k, m.window ≤ n → s.segment n = none)
  read : m.seeks = false → ∃ read : List Nat, read.Pairwise (· < ·) ∧
    read.map s.segment = (m.returned.filterMap Returned.mediaFile).map some ∧ Past m.playlist positions read

variable {positions : List Nat}

theorem ordered_init : Ordered s {} [] where
  files := ⟨rfl, List.Pairwise.nil, nofun, Int.le_refl _⟩
  loading h := absurd rfl h
  read _ := ⟨[], List.Pairwise.nil, rfl, nofun, nofun⟩

theorem Ordered.transfer (h : m.Ordered s positions) (hw : m'.window = m.window) (he : m'.entries = m.entries)
    (hf : m'.playlist.mediaFiles = m.playlist.mediaFiles)
    (hi : m'.playlist.mediaFileIndex = m.playlist.mediaFileIndex)
    (hu : m'.playlist.sequenceNumberUpdated = m.playlist.sequenceNumberUpdated) (hs : m'.seeks = m.seeks)
    (hr : m'.returned.filterMap Returned.mediaFile = m.returned.filterMap Returned.mediaFile) :
    m'.Ordered s positions where
  files := ⟨by rw [hf]; exact h.files.files, h.files.sorted, by rw [hw]; exact h.files.complete,
    by rw [hi]; exact h.files.index⟩
  loading := by rw [he, hw, hu]; exact h.loading
  read hseeks := by
    obtain ⟨read, hsorted, hread, hpast⟩ := h.read (hs ▸ hseeks)
    exact ⟨read, hsorted, by rw [hr]; exact hread, hpast.known, by rw [hi]; exact hpast.before⟩

theorem filterMap_returns (r : List Returned) (excused : Bool) :
    (r ++ [Returned.mk none excused]).filterMap Returned.mediaFile = r.filterMap Returned.mediaFile := by
  rw [filterMap_append]
  exact append_nil _

section

variable (h : m.Ordered s positions)
include h

theorem Ordered.count {r : Option String}
    (hr : r = if m.playlist.mediaFileIndex + 1 < m.playlist.mediaFiles.length then
      m.playlist.mediaFiles[(m.playlist.mediaFileIndex + 1).toNat]? else none) (excused : Bool) :
    Ordered s { m with
      playlist.mediaFileIndex := m.playlist.mediaFileIndex + 1
      phase := .outside
      returned := m.returned ++ [⟨r, excused⟩] } positions where
  files := ⟨h.files.files, h.files.sorted, h.files.complete, Int.le_add_one h.files.index⟩
  loading := h.loading
  read hseeks := by
    obtain ⟨read, hsorted, hread, hpast⟩ := h.read hseeks
    have hmoved : ∀ (j i : Nat), positions[j]? = some i → m.playlist.mediaFileIndex + 1 < j → ∀ q ∈ read, q < i :=
      fun j i hi hj => hpast.before j i hi (by omega)
    have hnot : r = none → ∃ read : List Nat, read.Pairwise (· < ·) ∧
        read.map s.segment = ((m.returned ++ [Returned.mk r excused]).filterMap Returned.mediaFile).map some ∧
        (∀ q ∈ read, ∃ i ∈ positions, q ≤ i) ∧
        ∀ (j i : Nat), positions[j]? = some i → m.playlist.mediaFileIndex + 1 < j → ∀ q ∈ read, q < i := fun hn =>
      ⟨read, hsorted, by rw [hn, filterMap_returns]; exact hread, hpast.known, hmoved⟩
    suffices ∃ read : List Nat, read.Pairwise (· < ·) ∧
        read.map s.segment = ((m.returned ++ [Returned.mk r excused]).filterMap Returned.mediaFile).map some ∧
        (∀ q ∈ read, ∃ i ∈ positions, q ≤ i) ∧
        ∀ (j i : Nat), positions[j]? = some i → m.playlist.mediaFileIndex + 1 < j → ∀ q ∈ read, q < i by
      obtain ⟨read, hsorted, hread, hknown, hbefore⟩ := this
      exact ⟨read, hsorted, hread, hknown, hbefore⟩
    cases hru : r with
    | none => rw [← hru]; exact hnot hru
    | some uri =>
      have hindex := h.files.index
      obtain ⟨j, hj⟩ : ∃ j : Nat, m.playlist.mediaFileIndex + 1 = j :=
        ⟨(m.playlist.mediaFileIndex + 1).toNat, by omega⟩
      rw [hj] at hr
      have hfile : m.playlist.mediaFiles[j]? = some uri := by
        rw [hru] at hr
        split at hr
        · exact hr.symm
        · exact nomatch hr
      have hlen : positions.length = m.playlist.mediaFiles.length := by
        simpa using congrArg length h.files.files
      have hlt : j < positions.length := hlen ▸ (List.getElem?_eq_some_iff.1 hfile).1
      have hat : positions[j]? = some positions[j] := getElem?_eq_getElem hlt
      refine ⟨read ++ [positions[j]], ?_, ?_, fun q hq => ?_, fun j' i hi hj' q hq => ?_⟩
      · rw [pairwise_append]
        refine ⟨hsorted, pairwise_singleton _ _, fun q hq i hi => ?_⟩
        rw [mem_singleton.1 hi]
        exact hpast.before j _ hat (by omega) q hq
      · rw [map_append, hread, filterMap_append, map_append, map_singleton, h.files.get hat, hfile]
        rfl
      · rcases mem_append.1 hq with hq | hq
        · exact hpast.known q hq
        · exact ⟨q, by rw [mem_singleton.1 hq]; exact getElem_mem hlt, Nat.le_refl q⟩
      · rcases mem_append.1 hq with hq | hq
        · exact hmoved j' i hi hj' q hq
        · rw [mem_singleton.1 hq]
          obtain ⟨hlt', rfl⟩ := List.getElem?_eq_some_iff.1 hi
          exact pairwise_iff_getElem.1 h.files.sorted j j' hlt hlt' (by omega)

theorem Ordered.getNextMediaFile (hs : m.getNextMediaFile = some m') : m'.Ordered s positions := by
  unfold Machine.getNextMediaFile at hs
  cases hp : m.phase <;> simp only [hp] at hs
  case outside => cases hs; exact h.transfer rfl rfl rfl rfl rfl rfl rfl
  case waiting =>
    split at hs
    · cases hs; exact h.transfer rfl rfl rfl rfl rfl rfl rfl
    · exact nomatch hs
  case acquired => cases hs; exact h.transfer rfl rfl rfl rfl rfl rfl rfl
  case awake => cases hs; exact h.transfer rfl rfl rfl rfl rfl rfl rfl
  case stopped => cases hs; exact h.transfer rfl rfl rfl rfl rfl rfl (filterMap_returns _ _)
  case interrupted => cases hs; exact h.transfer rfl rfl rfl rfl rfl rfl (filterMap_returns _ _)
  case passed =>
    split at hs
    · cases hs; exact h.transfer rfl rfl rfl rfl rfl rfl (filterMap_returns _ _)
    · cases hs; exact h.transfer rfl rfl rfl rfl rfl rfl rfl
  case counting =>
    cases hs
    exact h.count rfl _

theorem Ordered.update {position : Nat} {discontinuities : List Bool}
    (hs : HLSConnectionHolder.step s m (.update position discontinuities) = some m') : m'.Ordered s positions := by
  have hset : (m.playlist.setSequenceNumber position).2.mediaFiles = m.playlist.mediaFiles ∧
      (m.playlist.setSequenceNumber position).2.mediaFileIndex = m.playlist.mediaFileIndex := by
    unfold Playlist.setSequenceNumber
    split
    · exact ⟨rfl, rfl⟩
    · split <;> exact ⟨rfl, rfl⟩
  rw [HLSConnectionHolder.step] at hs
  split at hs
  · rename_i hw
    generalize m.playlist.setSequenceNumber (position : Int) = result at hs hset
    cases hs
    exact {
      files := ⟨hset.1.symm ▸ h.files.files, h.files.sorted,
        fun i hi n hn hwn => h.files.complete i hi n hn (Nat.le_trans hw.2 hwn), hset.2.symm ▸ h.files.index⟩
      loading := fun hne => by
        refine ⟨position, discontinuities, ?_, Nat.le_refl _, fun n hn hwn => ?_, fun _ n hn hwn => ?_⟩
        · split
          · rfl
          · rename_i hc
            rw [if_neg hc] at hne
            exact absurd rfl hne
        · exact absurd hn (Nat.not_lt.2 hwn)
        · exact absurd hn (Nat.not_lt.2 hwn)
      read := fun hseeks => by
        obtain ⟨read, hsorted, hread, hpast⟩ := h.read hseeks
        exact ⟨read, hsorted, hread, hpast.known, hset.2.symm ▸ hpast.before⟩ }
  · exact nomatch hs

theorem Ordered.addMediaFile
    (hs : HLSConnectionHolder.step s m .addMediaFile = some m') : ∃ positions', m'.Ordered s positions' := by
  rw [HLSConnectionHolder.step] at hs
  split at hs
  · rename_i uri discontinuity entries he
    cases hs
    obtain ⟨k, discontinuities, hk, hw, hl, hu⟩ := h.loading (by rw [he]; nofun)
    rw [he] at hk
    cases discontinuities with
    | nil => exact nomatch hk
    | cons d discontinuities =>
      obtain ⟨⟨rfl, rfl⟩, rfl⟩ : (uri = s.uri k ∧ discontinuity = d) ∧ entries = s.entries (k + 1) discontinuities := by
        simpa [Stream.entries, zipIdx_cons] using hk
      obtain ⟨positions', hfiles, hl', hu', hpast⟩ := h.files.addMediaFile hl hw hu discontinuity
      refine ⟨positions', hfiles, fun _ => ⟨k + 1, discontinuities, rfl, Nat.le_succ_of_le hw, hl', hu'⟩,
        fun hseeks => ?_⟩
      obtain ⟨read, hsorted, hread, hp⟩ := h.read hseeks
      exact ⟨read, hsorted, hread, hpast read hp⟩
  · exact nomatch hs

theorem Ordered.step {a : Action} (hs : HLSConnectionHolder.step s m a = some m') :
    ∃ positions', m'.Ordered s positions' := by
  cases a with
  | getNextMediaFile => exact ⟨positions, h.getNextMediaFile hs⟩
  | interrupt =>
    rw [HLSConnectionHolder.step] at hs
    split at hs
    · cases hs; exact ⟨positions, h.transfer rfl rfl rfl rfl rfl rfl rfl⟩
    · exact nomatch hs
  | update position discontinuities => exact ⟨positions, h.update hs⟩
  | addMediaFile => exact h.addMediaFile hs
  | seek time =>
    cases hs
    refine ⟨positions, ?_⟩
    by_cases ht : time = 0
    · have hseek : (m.playlist.seek time).mediaFiles = m.playlist.mediaFiles ∧
          (m.playlist.seek time).mediaFileIndex = -1 ∧
          (m.playlist.seek time).sequenceNumberUpdated = m.playlist.sequenceNumberUpdated := by
        rw [Playlist.seek, if_pos ht]
        dsimp only
        split <;> exact ⟨rfl, rfl, rfl⟩
      exact {
        files := ⟨by rw [hseek.1]; exact h.files.files, h.files.sorted, h.files.complete, by simp [hseek.2.1]⟩
        loading := by rw [hseek.2.2]; exact h.loading
        read := fun hseeks => by simp [ht] at hseeks }
    · have hseek : m.playlist.seek time = m.playlist := by rw [Playlist.seek, if_neg ht]
      exact h.transfer rfl rfl (by rw [hseek]) (by rw [hseek]) (by rw [hseek]) (by simp [ht]) rfl
  | close => cases hs; exact ⟨positions, h.transfer rfl rfl rfl rfl rfl rfl rfl⟩
  | release =>
    rw [HLSConnectionHolder.step] at hs
    split at hs
    · cases hs; exact ⟨positions, h.transfer rfl rfl rfl rfl rfl rfl rfl⟩
    · exact nomatch hs

end

end Machine

theorem Reachable.ordered (h : Reachable s m) : ∃ positions, m.Ordered s positions := by
  induction h with
  | init => exact ⟨[], Machine.ordered_init⟩
  | step _ hs ih =>
    obtain ⟨positions, hordered⟩ := ih
    exact hordered.step hs

theorem Reachable.inOrder (h : Reachable s m) : m.InOrder s := by
  obtain ⟨positions, hordered⟩ := h.ordered
  intro hseeks
  obtain ⟨read, hsorted, hread, -⟩ := hordered.read hseeks
  exact ⟨read, hsorted, hread⟩

/-! ### Waiting -/

/-- There is a file that has not been returned. -/
def Playlist.Unread (p : Playlist) : Prop := p.mediaFileIndex + 1 < p.mediaFiles.length

/-- The index is within the files. -/
def Playlist.InRange (p : Playlist) : Prop := -1 ≤ p.mediaFileIndex ∧ p.mediaFileIndex + 1 ≤ p.mediaFiles.length

/-- What adding does to those who wait: a permit comes with a file to read. -/
structure Playlist.Added (p p' : Playlist) : Prop where
  inRange : p'.InRange
  unread : p.Unread → p'.Unread
  isPlaylistClosed : p'.isPlaylistClosed = p.isPlaylistClosed
  isLiveStop : p'.isLiveStop = p.isLiveStop
  liveSemaphore : p'.liveSemaphore = p.liveSemaphore ∨ p'.liveSemaphore = p.liveSemaphore + 1 ∧ p'.Unread

theorem Playlist.dropBefore_added (hp : p.InRange) (uri : String) :
    p.Added (p.dropBefore uri) ∧ (p.dropBefore uri).liveSemaphore = p.liveSemaphore := by
  obtain ⟨-, n, hd, hn⟩ := p.dropBefore_spec uri
  have hindex := hd.index hp.1
  have hlen : (p.dropBefore uri).mediaFiles.length = p.mediaFiles.length - n := by
    rw [hd.mediaFiles, length_drop]
  have hn' : n = 0 ∨ n < p.mediaFiles.length := hn.imp_right fun h => (List.getElem?_eq_some_iff.1 h.2).1
  obtain ⟨hlow, hhigh⟩ := hp
  refine ⟨⟨⟨?_, ?_⟩, fun hu => ?_, hd.isPlaylistClosed, hd.isLiveStop, .inl hd.liveSemaphore⟩, hd.liveSemaphore⟩
  · omega
  · omega
  · unfold Playlist.Unread at hu ⊢
    omega

theorem Playlist.addMediaFile_added (hp : p.InRange) (uri : String) (discontinuity : Bool) :
    p.Added (p.addMediaFile s.resolveURI uri discontinuity) := by
  unfold Playlist.addMediaFile
  cases s.resolveURI uri with
  | none => exact ⟨hp, id, rfl, rfl, .inl rfl⟩
  | some uri =>
    obtain ⟨h, hsemaphore⟩ := p.dropBefore_added hp uri
    dsimp only
    generalize p.dropBefore uri = q at h hsemaphore ⊢
    split
    · exact h
    · have hunread : (q.mediaFileIndex : Int) + 1 < (q.mediaFiles ++ [uri]).length := by
        have := h.inRange.2
        rw [length_append, length_singleton]
        omega
      refine ⟨⟨h.inRange.1, Int.le_of_lt hunread⟩, fun _ => hunread, h.isPlaylistClosed, h.isLiveStop, ?_⟩
      split
      · exact .inr ⟨by rw [hsemaphore], hunread⟩
      · exact .inl hsemaphore

namespace Machine

/-- What a reader that waits, or has waited, may count on. -/
structure Excusable (m : Machine) : Prop where
  inRange : m.playlist.InRange
  closing : 0 < m.closing → m.playlist.isPlaylistClosed = true
  /-- A stop that was not taken yet left a permit. -/
  stop : m.playlist.isLiveStop = true → m.phase ≠ .acquired → m.phase ≠ .awake → m.phase ≠ .stopped →
    0 < m.playlist.liveSemaphore
  sought : m.phase = .waiting ∨ m.phase = .acquired ∨ m.phase = .awake ∨ m.phase = .stopped →
    m.playlist.isLiveStop = true → m.sought = true ∨ m.playlist.isPlaylistClosed = true := by nofun
  waiting : m.phase = .waiting → 0 < m.playlist.liveSemaphore →
    m.playlist.isPlaylistClosed = true ∨ m.playlist.isLiveStop = true ∨ m.playlist.Unread := by nofun
  woken : m.phase = .acquired ∨ m.phase = .awake →
    m.playlist.isPlaylistClosed = true ∨ m.playlist.isLiveStop = true ∨ m.playlist.Unread := by nofun
  stopped : m.phase = .stopped → m.playlist.isLiveStop = true := by nofun
  passed : m.phase = .passed → m.playlist.isPlaylistClosed = true ∨ m.playlist.Unread := by nofun
  counting : m.phase = .counting → m.playlist.Unread := by nofun
  endless : m.Endless

theorem excusable_init : Excusable {} where
  inRange := ⟨Int.le_refl _, Int.le_refl _⟩
  closing := nofun
  stop := nofun
  endless := nofun

theorem Excusable.change (h : m.Excusable) (hphase : m'.phase = m.phase) (hreturned : m'.returned = m.returned)
    (hrange : m'.playlist.InRange) (hunread : m.playlist.Unread → m'.playlist.Unread)
    (hclosed : m.playlist.isPlaylistClosed = true → m'.playlist.isPlaylistClosed = true)
    (hclosing : 0 < m'.closing → m'.playlist.isPlaylistClosed = true)
    (hstop : m.playlist.isLiveStop = true → m'.playlist.isLiveStop = true)
    (hsought : m.sought = true → m'.sought = true)
    (hnew : m'.playlist.isLiveStop = true → m.playlist.isLiveStop = false →
      m'.sought = true ∧ 0 < m'.playlist.liveSemaphore)
    (hpermits : m.playlist.liveSemaphore ≤ m'.playlist.liveSemaphore)
    (hmore : m.playlist.liveSemaphore < m'.playlist.liveSemaphore →
      m'.playlist.isPlaylistClosed = true ∨ m'.playlist.isLiveStop = true ∨ m'.playlist.Unread) :
    m'.Excusable where
  inRange := hrange
  closing := hclosing
  stop hs ha hw ht := by
    rw [hphase] at ha hw ht
    cases hold : m.playlist.isLiveStop with
    | true => exact Nat.lt_of_lt_of_le (h.stop hold ha hw ht) hpermits
    | false => exact (hnew hs hold).2
  sought hp hs := by
    rw [hphase] at hp
    cases hold : m.playlist.isLiveStop with
    | true => exact (h.sought hp hold).imp hsought hclosed
    | false => exact .inl (hnew hs hold).1
  waiting hp hs := by
    rcases Nat.lt_or_eq_of_le hpermits with hlt | heq
    · exact hmore hlt
    · exact (h.waiting (hphase ▸ hp) (heq ▸ hs)).imp hclosed (Or.imp hstop hunread)
  woken hp := (h.woken (by rw [← hphase]; exact hp)).imp hclosed (Or.imp hstop hunread)
  stopped hp := hstop (h.stopped (hphase ▸ hp))
  passed hp := (h.passed (hphase ▸ hp)).imp hclosed hunread
  counting hp := hunread (h.counting (hphase ▸ hp))
  endless := by
    unfold Endless
    rw [hreturned]
    exact h.endless

theorem Excusable.return (h : m.Excusable) {playlist : Playlist} {mediaFile : Option String} {excused : Bool}
    (hrange : playlist.InRange) (hclosed : playlist.isPlaylistClosed = m.playlist.isPlaylistClosed)
    (hstop : playlist.isLiveStop = true → 0 < playlist.liveSemaphore) (hnone : mediaFile = none → excused = true) :
    Excusable { m with playlist, phase := .outside, returned := m.returned ++ [⟨mediaFile, excused⟩] } where
  inRange := hrange
  closing hc := hclosed.trans (h.closing hc)
  stop hs _ _ _ := hstop hs
  endless r hr hn := by
    rcases mem_append.1 hr with hr | hr
    · exact h.endless r hr hn
    · rw [mem_singleton.1 hr] at hn ⊢
      exact hnone hn

theorem Excusable.getNextMediaFile (h : m.Excusable) (hc : m.Careful) (hs : m.getNextMediaFile = some m') :
    m'.Excusable := by
  unfold Machine.getNextMediaFile at hs
  cases hp : m.phase <;> simp only [hp] at hs
  case outside =>
    cases hs
    have hstop := fun hs => h.stop hs (by rw [hp]; nofun) (by rw [hp]; nofun) (by rw [hp]; nofun)
    by_cases hw : m.playlist.mediaFileIndex + 1 ≥ m.playlist.mediaFiles.length
    · simp only [hw, decide_true, if_true]
      exact {
        inRange := h.inRange
        closing := h.closing
        stop := fun hs _ _ _ => hstop hs
        sought := fun _ hs => by
          rcases hc hp hw with h0 | hclosed
          · exact absurd (hstop hs) (by rw [h0]; exact Nat.lt_irrefl 0)
          · exact .inr hclosed
        waiting := fun _ hpermit => by
          rcases hc hp hw with h0 | hclosed
          · exact absurd hpermit (by dsimp only; rw [h0]; exact Nat.lt_irrefl 0)
          · exact .inl hclosed
        endless := h.endless }
    · simp only [hw, decide_false]
      exact {
        inRange := h.inRange
        closing := h.closing
        stop := fun hs _ _ _ => hstop hs
        passed := fun _ => .inr (Int.lt_of_not_ge hw)
        endless := h.endless }
  case waiting =>
    split at hs
    · rename_i hpermit
      cases hs
      exact {
        inRange := h.inRange
        closing := h.closing
        stop := fun _ ha => absurd rfl ha
        sought := fun _ => h.sought (.inl hp)
        woken := fun _ => h.waiting hp hpermit
        endless := h.endless }
    · exact nomatch hs
  case acquired =>
    cases hs
    exact {
      inRange := h.inRange
      closing := h.closing
      stop := fun _ _ hw => absurd rfl hw
      sought := fun _ => h.sought (.inr (.inl hp))
      woken := fun _ => h.woken (.inl hp)
      endless := h.endless }
  case awake =>
    cases hs
    cases hl : m.playlist.isLiveStop with
    | true =>
      exact {
        inRange := h.inRange
        closing := h.closing
        stop := fun _ _ _ ht => absurd rfl ht
        sought := fun _ => h.sought (.inr (.inr (.inl hp)))
        stopped := fun _ => hl
        endless := h.endless }
    | false =>
      have hnot : ¬m.playlist.isLiveStop = true := by rw [hl]; nofun
      exact {
        inRange := h.inRange
        closing := h.closing
        stop := fun hs => absurd hs hnot
        passed := fun _ => (h.woken (.inr hp)).imp_right fun hx => hx.resolve_left hnot
        endless := h.endless }
  case stopped =>
    cases hs
    refine h.return h.inRange rfl nofun fun _ => ?_
    rcases h.sought (.inr (.inr (.inr hp))) (h.stopped hp) with hsought | hclosed
    · simp [hsought]
    · simp [hclosed]
  case interrupted =>
    cases hs
    exact h.return h.inRange rfl
      (fun hs => h.stop hs (by rw [hp]; nofun) (by rw [hp]; nofun) (by rw [hp]; nofun)) fun _ => by simp
  case passed =>
    have hstop := fun hs => h.stop hs (by rw [hp]; nofun) (by rw [hp]; nofun) (by rw [hp]; nofun)
    split at hs
    · rename_i hclosed
      cases hs
      exact h.return h.inRange rfl hstop fun _ => by simp [hclosed]
    · rename_i hopen
      cases hs
      exact {
        inRange := h.inRange
        closing := h.closing
        stop := fun hs _ _ _ => hstop hs
        counting := fun _ => (h.passed hp).resolve_left hopen
        endless := h.endless }
  case counting =>
    cases hs
    have hunread := h.counting hp
    have hlow := h.inRange.1
    refine h.return ⟨Int.le_add_one hlow, hunread⟩ rfl
      (fun hs => h.stop hs (by rw [hp]; nofun) (by rw [hp]; nofun) (by rw [hp]; nofun)) fun hnone => ?_
    unfold Playlist.Unread at hunread
    rw [if_pos hunread, List.getElem?_eq_none_iff] at hnone
    omega

theorem Excusable.step {a : Action} (h : m.Excusable) (hc : a = .getNextMediaFile → m.Careful)
    (hs : HLSConnectionHolder.step s m a = some m') : m'.Excusable := by
  cases a with
  | getNextMediaFile => exact h.getNextMediaFile (hc rfl) hs
  | interrupt =>
    rw [HLSConnectionHolder.step] at hs
    split at hs
    · rename_i hp
      cases hs
      exact {
        inRange := h.inRange
        closing := h.closing
        stop := fun hs _ _ _ => h.stop hs (by rw [hp]; nofun) (by rw [hp]; nofun) (by rw [hp]; nofun)
        endless := h.endless }
    · exact nomatch hs
  | update position discontinuities =>
    rw [HLSConnectionHolder.step] at hs
    split at hs
    · have hset : ∀ changed q, m.playlist.setSequenceNumber (position : Int) = (changed, q) →
          q.mediaFileIndex = m.playlist.mediaFileIndex ∧ q.mediaFiles = m.playlist.mediaFiles ∧
            q.isPlaylistClosed = m.playlist.isPlaylistClosed ∧ q.isLiveStop = m.playlist.isLiveStop ∧
            q.liveSemaphore = m.playlist.liveSemaphore := by
        intro changed q hq
        unfold Playlist.setSequenceNumber at hq
        split at hq
        · cases hq; exact ⟨rfl, rfl, rfl, rfl, rfl⟩
        · split at hq <;> cases hq <;> exact ⟨rfl, rfl, rfl, rfl, rfl⟩
      generalize m.playlist.setSequenceNumber (position : Int) = result at hs hset
      obtain ⟨changed, q⟩ := result
      obtain ⟨hindex, hfiles, hclosed, hstop, hsemaphore⟩ := hset changed q rfl
      cases hs
      refine h.change rfl rfl ?_ (fun hu => ?_) (fun hx => hclosed.trans hx) (fun hx => hclosed.trans (h.closing hx))
        (fun hx => hstop.trans hx) id (fun hx hy => ?_) (Nat.le_of_eq hsemaphore.symm) fun hlt => ?_
      · exact ⟨hindex ▸ h.inRange.1, by dsimp only; rw [hindex, hfiles]; exact h.inRange.2⟩
      · unfold Playlist.Unread at hu ⊢
        rw [hindex, hfiles]
        exact hu
      · rw [hstop] at hx
        rw [hx] at hy
        exact nomatch hy
      · exact absurd hlt (by dsimp only; rw [hsemaphore]; exact Nat.lt_irrefl _)
    · exact nomatch hs
  | addMediaFile =>
    rw [HLSConnectionHolder.step] at hs
    split at hs
    · rename_i uri discontinuity entries _
      have ha := Playlist.addMediaFile_added (s := s) h.inRange uri discontinuity
      cases hs
      refine h.change rfl rfl ha.inRange ha.unread (fun hx => ha.isPlaylistClosed.trans hx)
        (fun hx => ha.isPlaylistClosed.trans (h.closing hx)) (fun hx => ha.isLiveStop.trans hx) id (fun hx hy => ?_)
        ?_ fun hlt => ?_
      · rw [ha.isLiveStop] at hx
        rw [hx] at hy
        exact nomatch hy
      · rcases ha.liveSemaphore with hsem | ⟨hsem, -⟩
        · exact Nat.le_of_eq hsem.symm
        · exact Nat.le_of_lt (by dsimp only; omega)
      · rcases ha.liveSemaphore with hsem | ⟨-, hunread⟩
        · exact absurd hlt (by dsimp only; omega)
        · exact .inr (.inr hunread)
    · exact nomatch hs
  | seek time =>
    cases hs
    have hunread : ∀ q : Playlist, q.mediaFileIndex = -1 → q.mediaFiles = m.playlist.mediaFiles →
        q.InRange ∧ (m.playlist.Unread → q.Unread) := by
      intro q hi hf
      have hlow := h.inRange.1
      refine ⟨⟨by omega, by omega⟩, fun hu => ?_⟩
      unfold Playlist.Unread at hu ⊢
      rw [hi, hf]
      omega
    by_cases ht : time = 0
    · by_cases hw : m.playlist.isLiveWaiting = true
      · have hq : m.playlist.seek time = { m.playlist with
            mediaFileIndex := -1, isLiveStop := true, liveSemaphore := m.playlist.liveSemaphore + 1 } := by
          rw [Playlist.seek, if_pos ht]
          exact if_pos hw
        rw [hq]
        obtain ⟨hrange, hunread⟩ := hunread { m.playlist with
          mediaFileIndex := -1, isLiveStop := true, liveSemaphore := m.playlist.liveSemaphore + 1 } rfl rfl
        exact h.change rfl rfl hrange hunread id h.closing (fun _ => rfl)
          (fun hx => by simp [hx]) (fun _ _ => ⟨by simp [ht, hw], Nat.succ_pos _⟩) (Nat.le_succ _)
          fun _ => .inr (.inl rfl)
      · have hq : m.playlist.seek time = { m.playlist with mediaFileIndex := -1 } := by
          rw [Playlist.seek, if_pos ht]
          exact if_neg hw
        rw [hq]
        obtain ⟨hrange, hunread⟩ := hunread { m.playlist with mediaFileIndex := -1 } rfl rfl
        exact h.change rfl rfl hrange hunread id h.closing id
          (fun hx => by simp [hx]) (fun hx hy => absurd (hy.symm.trans hx) nofun) (Nat.le_refl _)
          fun hlt => absurd hlt (Nat.lt_irrefl _)
    · have hq : m.playlist.seek time = m.playlist := by rw [Playlist.seek, if_neg ht]
      rw [hq]
      exact h.change rfl rfl h.inRange id id h.closing id (fun hx => by simp [hx])
        (fun hx hy => absurd (hy.symm.trans hx) nofun) (Nat.le_refl _) fun hlt => absurd hlt (Nat.lt_irrefl _)
  | close =>
    cases hs
    exact h.change rfl rfl h.inRange id (fun _ => rfl) (fun _ => rfl) id id
      (fun hx hy => absurd (hy.symm.trans hx) nofun) (Nat.le_refl _) fun _ => .inl rfl
  | release =>
    rw [HLSConnectionHolder.step] at hs
    split at hs
    · rename_i hclosing
      cases hs
      exact h.change rfl rfl h.inRange id id (fun _ => h.closing hclosing) id id
        (fun hx hy => absurd (hy.symm.trans hx) nofun) (Nat.le_succ _) fun _ => .inl (h.closing hclosing)
    · exact nomatch hs

end Machine

theorem CarefullyReachable.reachable (h : CarefullyReachable s m) : Reachable s m := by
  induction h with
  | init => exact .init
  | step _ _ hs ih => exact ih.step hs

theorem CarefullyReachable.excusable (h : CarefullyReachable s m) : m.Excusable := by
  induction h with
  | init => exact Machine.excusable_init
  | step _ hc hs ih => exact ih.step hc hs

/-! ### A wait that finds a permit -/

/-- The reader goes on, and nobody else does anything. -/
def ReadsOn (s : Stream) : Machine → Machine → Prop :=
  Relation.ReflTransGen fun m m' => step s m .getNextMediaFile = some m'

/-- A call that is going to wait and finds a permit returns `null`, without an excuse. -/
theorem Reachable.ends (h : Reachable s m) (hc : ¬m.Careful) : ∃ m', ReadsOn s m m' ∧ ¬m'.Endless := by
  obtain ⟨positions, hordered⟩ := h.ordered
  have hlow := hordered.files.index
  obtain ⟨hp, hw, hpermit, hopen⟩ : m.phase = .outside ∧ (m.playlist.mediaFiles.length : Int) ≤ m.playlist.mediaFileIndex + 1 ∧
      0 < m.playlist.liveSemaphore ∧ m.playlist.isPlaylistClosed = false := by
    unfold Machine.Careful at hc
    simp only [Classical.not_imp, not_or] at hc
    exact ⟨hc.1, hc.2.1, Nat.pos_of_ne_zero hc.2.2.1, by simpa using hc.2.2.2⟩
  obtain ⟨p, phase, entries, window, closing, sought, seeks, returned⟩ := m
  dsimp only at hp hw hpermit hopen hlow
  subst hp
  have hreturn : ∀ {q : Playlist}, q.isPlaylistClosed = false → ¬Machine.Endless
      ⟨q, .outside, entries, window, closing, false, seeks, returned ++ [⟨none, q.isPlaylistClosed || false || false⟩]⟩ := by
    intro q hq hall
    have := hall ⟨none, q.isPlaylistClosed || false || false⟩ (mem_append_right _ (mem_singleton_self _)) rfl
    rw [hq] at this
    exact nomatch this
  -- it waits, takes the permit and looks whether it was stopped
  have hbegin : ∀ {m' : Machine}, ReadsOn s ⟨{ p with isLiveWaiting := false, liveSemaphore := p.liveSemaphore - 1 },
        .awake, entries, window, closing, false, seeks, returned⟩ m' →
      ReadsOn s ⟨p, .outside, entries, window, closing, sought, seeks, returned⟩ m' := by
    intro m' hm
    refine .head (b := ⟨{ p with isLiveWaiting := true }, .waiting, entries, window, closing, false, seeks, returned⟩)
      ?_ (.head (b := ⟨{ p with isLiveWaiting := true, liveSemaphore := p.liveSemaphore - 1 }, .acquired, entries,
        window, closing, false, seeks, returned⟩) ?_ (.head rfl hm))
    · simp [HLSConnectionHolder.step, Machine.getNextMediaFile, hw]
    · simp [HLSConnectionHolder.step, Machine.getNextMediaFile, hpermit]
  cases hstop : p.isLiveStop with
  | true =>
    refine ⟨_, hbegin (.head (b := ⟨{ p with isLiveWaiting := false, liveSemaphore := p.liveSemaphore - 1 },
      .stopped, entries, window, closing, false, seeks, returned⟩) ?_ (.single rfl)), @hreturn { p with
        isLiveWaiting := false, isLiveStop := false, liveSemaphore := p.liveSemaphore - 1 } hopen⟩
    simp [HLSConnectionHolder.step, Machine.getNextMediaFile, hstop]
  | false =>
    refine ⟨_, hbegin (.head (b := ⟨{ p with isLiveWaiting := false, liveSemaphore := p.liveSemaphore - 1 },
      .passed, entries, window, closing, false, seeks, returned⟩) ?_
      (.head (b := ⟨{ p with isLiveWaiting := false, liveSemaphore := p.liveSemaphore - 1 },
        .counting, entries, window, closing, false, seeks, returned⟩) ?_ (.single rfl))), ?_⟩
    · simp [HLSConnectionHolder.step, Machine.getNextMediaFile, hstop]
    · simp [HLSConnectionHolder.step, Machine.getNextMediaFile, hopen]
    · rw [if_neg (Int.not_lt.2 hw)]
      exact @hreturn { p with
        isLiveWaiting := false, liveSemaphore := p.liveSemaphore - 1, mediaFileIndex := p.mediaFileIndex + 1 } hopen

/-- **Live playlists.**  The returned files are in the order of the sequence, and as long as no call begins to wait while
there is a permit, `null` is returned for a reason only.  A call that does may end the stream. -/
theorem carefullyReachable_endless (s : Stream) : (∀ m, CarefullyReachable s m → m.Endless ∧ m.InOrder s) ∧
      ∀ m, Reachable s m → ¬m.Careful → ∃ m', ReadsOn s m m' ∧ ¬m'.Endless :=
  ⟨fun _ h => ⟨h.excusable.endless, h.reachable.inOrder⟩, fun _ h hc => h.ends hc⟩

/-- The segments are `a`, `aa`, `aaa` and so on. -/
def growing : Stream where
  uri position := String.ofList (List.replicate (position + 1) 'a')
  resolveURI := some
  distinct i j u hi hj := by
    have h : String.ofList (List.replicate (i + 1) 'a') = String.ofList (List.replicate (j + 1) 'a') :=
      (Option.some.inj hi).trans (Option.some.inj hj).symm
    have := congrArg List.length (String.ofList_injective h)
    simpa using this

theorem carefullyReachable_endless_firstSegment :
    ∃ m, CarefullyReachable growing m ∧ m.returned = [⟨some "a", false⟩] ∧ m.Endless ∧ m.InOrder growing := by
  have h : CarefullyReachable growing {} := .init
  have h := h.step (a := .getNextMediaFile) (fun _ _ _ => .inl rfl) rfl
  have h := h.step (a := .update 0 [false]) nofun rfl
  have h := h.step (a := .addMediaFile) nofun rfl
  have h := h.step (a := .getNextMediaFile) (fun _ => nofun) rfl
  have h := h.step (a := .getNextMediaFile) (fun _ => nofun) rfl
  have h := h.step (a := .getNextMediaFile) (fun _ => nofun) rfl
  have h := h.step (a := .getNextMediaFile) (fun _ => nofun) rfl
  have h := h.step (a := .getNextMediaFile) (fun _ => nofun) rfl
  exact ⟨_, h, by decide, (carefullyReachable_endless growing).1 _ h⟩

theorem reachable_of_steps {actions : List Action} : ∀ {m : Machine}, Reachable s m →
    actions.foldlM (step s) m = some m' → Reachable s m' := by
  induction actions with
  | nil => intro m h hm; cases hm; exact h
  | cons a actions ih =>
    intro m h hm
    obtain ⟨m₁, hstep, hrest⟩ := Option.bind_eq_some_iff.1 hm
    exact ih (h.step hstep) hrest

/-- A reload that brings two segments while the reader waits leaves a permit over.  The reader returns both, and the
next call returns `null`. -/
theorem not_endless_twoSegments : ¬∀ m, Reachable growing m → m.Endless ∧ m.InOrder growing := by
  intro hall
  obtain ⟨m, hm, hreturned⟩ : ∃ m : Machine,
      [.update 0 [false], .addMediaFile, .getNextMediaFile, .getNextMediaFile, .getNextMediaFile,
        .getNextMediaFile, .update 1 [false, false], .addMediaFile, .addMediaFile, .getNextMediaFile, .getNextMediaFile,
        .getNextMediaFile, .getNextMediaFile, .getNextMediaFile, .getNextMediaFile, .getNextMediaFile, .getNextMediaFile,
        .getNextMediaFile, .getNextMediaFile, .getNextMediaFile, .getNextMediaFile, .getNextMediaFile, .getNextMediaFile
        ].foldlM (step growing) {} = some m ∧
        m.returned = [⟨some "a", false⟩, ⟨some "aa", false⟩, ⟨some "aaa", false⟩, ⟨none, false⟩] :=
    ⟨_, rfl, by decide⟩
  have := (hall m (reachable_of_steps .init hm)).1 ⟨none, false⟩ (by rw [hreturned]; decide) rfl
  exact nomatch this

end JavaFX.HLSConnectionHolder
