/-
`VariantPlaylist` of `HLSConnectionHolder`: the playlists of a stream, one for each bitrate.

A location is the number of its variant, and so is the playlist that is loaded from it.  `load` says what comes of a
location: nothing where its URI is bad, else a playlist with an extension of its media files, if it has any.
-/
import Mathlib.Data.List.Basic

namespace JavaFX

structure VariantPlaylist where
  infoIndex : Int := -1
  playlistsLocations : List Nat := []
  playlistsBitrates : List Int := []
  playlists : List Nat := []
  mediaFileExtension : Option String := none

namespace VariantPlaylist

def addPlaylistInfo (location : Nat) (bitrate : Int) (v : VariantPlaylist) : VariantPlaylist :=
  { v with
    playlistsLocations := v.playlistsLocations ++ [location]
    playlistsBitrates := v.playlistsBitrates ++ [bitrate] }

def addPlaylist (playlist : Nat) (extension : Option String) (v : VariantPlaylist) : VariantPlaylist :=
  match v.mediaFileExtension with
  | none => { v with mediaFileExtension := extension, playlists := v.playlists ++ [playlist] }
  | some _ =>
    if v.mediaFileExtension ≠ extension then
      { v with
        playlistsLocations := v.playlistsLocations.eraseIdx v.infoIndex.toNat
        playlistsBitrates := v.playlistsBitrates.eraseIdx v.infoIndex.toNat
        infoIndex := v.infoIndex - 1 }
    else { v with playlists := v.playlists ++ [playlist] }

def hasNext (v : VariantPlaylist) : Bool × VariantPlaylist :=
  let v := { v with infoIndex := v.infoIndex + 1 }
  ((v.playlistsLocations.length : Int) > v.infoIndex ∧ (v.playlistsBitrates.length : Int) > v.infoIndex, v)

variable (load : Nat → Option (Option String))

/-- The loop of `stateInit` over the variants.  Each turn has one less to come. -/
def loadAll : Nat → VariantPlaylist → VariantPlaylist
  | 0, v => v
  | turns + 1, v =>
    match v.hasNext with
    | (false, v) => v
    | (true, v) =>
      let location := v.playlistsLocations.getD v.infoIndex.toNat 0
      match load location with
      | none => loadAll turns v
      | some extension => loadAll turns (v.addPlaylist location extension)

/-- The variants of a playlist, given by their bitrates. -/
def stateInit (bitrates : List Int) : VariantPlaylist :=
  let v := bitrates.zipIdx.foldl (fun v info => v.addPlaylistInfo info.2 info.1) {}
  loadAll load (bitrates.length + 1) v

/-- The first loop of `getPlaylistBasedOnBitrate`, with `playlistIndex` and `playlistBitrate`. -/
def below (bitrate : Int) : List Int → Nat → Int → Int → Int × Int
  | [], _, index, best => (index, best)
  | b :: bitrates, i, index, best =>
    if b < bitrate then
      if index ≠ -1 then
        if b > best then below bitrate bitrates (i + 1) i b else below bitrate bitrates (i + 1) index best
      else below bitrate bitrates (i + 1) i best
    else below bitrate bitrates (i + 1) index best

/-- The second loop. -/
def lowest : List Int → Nat → Int → Int → Int × Int
  | [], _, index, best => (index, best)
  | b :: bitrates, i, index, best =>
    if b < best ∨ index = -1 then lowest bitrates (i + 1) i b else lowest bitrates (i + 1) index best

def getPlaylistBasedOnBitrate (bitrate : Int) (v : VariantPlaylist) : Option Nat :=
  let (playlistIndex, playlistBitrate) := below bitrate v.playlistsBitrates 0 (-1) 0
  let (playlistIndex, _) :=
    if playlistIndex = -1 then lowest v.playlistsBitrates 0 playlistIndex playlistBitrate
    else (playlistIndex, playlistBitrate)
  if playlistIndex < 0 ∨ playlistIndex ≥ v.playlists.length then none else v.playlists[playlistIndex.toNat]?

end VariantPlaylist

end JavaFX
