/-
Which playlist `getPlaylistBasedOnBitrate` picks.

It picks a place in the list of bitrates, and takes the playlist at this place.  The first bitrate
that is low enough is not compared with the others.  A variant with a bad URI has a bitrate and no
playlist.
-/
import JavaFX.Media.VariantPlaylist

namespace JavaFX.VariantPlaylist

open List

variable {m b best : Int} {bs pre : List Int} {i j index f : Nat} {p : Nat → Int → Prop}
    {key : Int → Int}

/-! ### Places -/

/-- `i` is the first place with the greatest key, of those `p` is about. -/
structure FirstBest (p : Nat → Int → Prop) (key : Int → Int) (bs : List Int) (i : Nat)
    (b : Int) : Prop where
  get : bs[i]? = some b
  holds : p i b
  le : ∀ (j : Nat) c, bs[j]? = some c → p j c → key c ≤ key b
  first : ∀ (j : Nat) c, j < i → bs[j]? = some c → p j c → key c < key b

theorem FirstBest.unique {i' : Nat} {b' : Int} (h : FirstBest p key bs i b)
    (h' : FirstBest p key bs i' b') : i = i' := by
  rcases Nat.lt_trichotomy i i' with hlt | heq | hgt
  · have := h'.first i b hlt h.get h.holds
    have := h.le i' b' h'.get h'.holds
    omega
  · exact heq
  · have := h.first i' b' hgt h'.get h'.holds
    have := h'.le i b h.get h.holds
    omega

theorem getElem?_snoc {c d : Int} (h : (bs ++ [c])[j]? = some d) :
    bs[j]? = some d ∨ j = bs.length ∧ d = c := by
  rcases Nat.lt_or_ge j bs.length with hlt | hge
  · rw [getElem?_append_left hlt] at h
    exact .inl h
  · rw [getElem?_append_right hge, getElem?_singleton] at h
    split at h
    · exact .inr ⟨by omega, (Option.some.inj h).symm⟩
    · cases h

theorem FirstBest.snoc {c : Int} (h : FirstBest p key bs i b) :
    (p bs.length c → key b < key c → FirstBest p key (bs ++ [c]) bs.length c) ∧
      (¬(p bs.length c ∧ key b < key c) → FirstBest p key (bs ++ [c]) i b) := by
  obtain ⟨hi, -⟩ := List.getElem?_eq_some_iff.mp h.get
  constructor
  · refine fun hp hlt => ⟨getElem?_concat_length, hp, fun j d hd hpd => ?_, fun j d hj hd hpd => ?_⟩
    · rcases getElem?_snoc hd with hd | ⟨-, rfl⟩
      · have := h.le j d hd hpd
        omega
      · exact Int.le_refl _
    · rcases getElem?_snoc hd with hd | ⟨rfl, -⟩
      · have := h.le j d hd hpd
        omega
      · omega
  · refine fun hnot => ⟨(getElem?_append_left hi).trans h.get, h.holds, fun j d hd hpd => ?_,
      fun j d hj hd hpd => ?_⟩
    · rcases getElem?_snoc hd with hd | ⟨rfl, rfl⟩
      · exact h.le j d hd hpd
      · exact Int.not_lt.mp fun hlt => hnot ⟨hpd, hlt⟩
    · rcases getElem?_snoc hd with hd | ⟨rfl, -⟩
      · exact h.first j d hj hd hpd
      · omega

/-- The place that is picked.  It is the best after the first that is low enough, or this one where
there are no others. -/
def Place (m : Int) (bs : List Int) (i : Nat) : Prop :=
  (∃ f b, bs[f]? = some b ∧ b < m ∧ (∀ (j : Nat) c, j < f → bs[j]? = some c → m ≤ c) ∧
      ((∃ b, FirstBest (fun j c => f < j ∧ c < m) id bs i b) ∨ i = f ∧ ∀ (j : Nat) c, f < j →
        bs[j]? = some c → m ≤ c)) ∨
    (∀ (j : Nat) c, bs[j]? = some c → m ≤ c) ∧ ∃ b, FirstBest (fun _ _ => True) Neg.neg bs i b

theorem Place.unique {i' : Nat} (h : Place m bs i) (h' : Place m bs i') : i = i' := by
  rcases h with ⟨f, b, hf, hb, hfirst, h⟩ | ⟨hnone, b, h⟩ <;> rcases h' with
    ⟨f', b', hf', hb', hfirst', h'⟩ | ⟨hnone', b', h'⟩
  · obtain rfl : f = f' := by
      rcases Nat.lt_trichotomy f f' with hlt | heq | hgt
      · have := hfirst' f b hlt hf
        omega
      · exact heq
      · have := hfirst f' b' hgt hf'
        omega
    rcases h with ⟨c, h⟩ | ⟨rfl, h⟩ <;> rcases h' with ⟨c', h'⟩ | ⟨rfl, h'⟩
    · exact h.unique h'
    · have := h' i c h.holds.1 h.get
      have := h.holds.2
      omega
    · have := h i' c' h'.holds.1 h'.get
      have := h'.holds.2
      omega
    · rfl
  · have := hnone' f b hf
    omega
  · have := hnone f' b' hf'
    omega
  · exact h.unique h'

/-! ### The loops -/

theorem below_best : ∀ {rest pre : List Int} {index : Nat} {best : Int},
    FirstBest (fun j c => f < j ∧ c < m) id pre index best → f < pre.length → ∃ index' : Nat,
      (below m rest pre.length index best).1 = index' ∧
        ∃ b, FirstBest (fun j c => f < j ∧ c < m) id (pre ++ rest) index' b := by
  intro rest
  induction rest with
  | nil => exact fun h _ => ⟨_, rfl, _, by rwa [append_nil]⟩
  | cons c rest ih =>
    intro pre index best h hf
    obtain ⟨hbetter, hworse⟩ := h.snoc
    have hlen : (pre ++ [c]).length = pre.length + 1 := by simp
    have hindex : (index : Int) ≠ -1 := by omega
    rw [below, ← hlen, append_cons pre c rest]
    split
    · next hc =>
      split
      · next hlt => exact ih (hbetter ⟨hf, hc⟩ hlt) (by omega)
      · next hle => exact ih (hworse fun hboth => hle hboth.2) (by omega)
    · next hc => exact ih (hworse fun hboth => hc hboth.1.2) (by omega)

theorem below_after : ∀ {rest pre : List Int}, (∀ b ∈ rest, 0 < b) → f < pre.length →
    (∀ (j : Nat) c, f < j → pre[j]? = some c → m ≤ c) →
      ∃ index : Nat, (below m rest pre.length f 0).1 = index ∧
      ((∃ b, FirstBest (fun j c => f < j ∧ c < m) id (pre ++ rest) index b) ∨
        index = f ∧ ∀ (j : Nat) c, f < j → (pre ++ rest)[j]? = some c → m ≤ c) := by
  intro rest
  induction rest with
  | nil => exact fun _ _ h => ⟨_, rfl, .inr ⟨rfl, by rwa [append_nil]⟩⟩
  | cons c rest ih =>
    intro pre hpos hf h
    have hlen : (pre ++ [c]).length = pre.length + 1 := by simp
    rw [below, if_pos (hpos c mem_cons_self), ← hlen, append_cons pre c rest]
    split
    · next hc =>
      have hfirst : FirstBest (fun j c => f < j ∧ c < m) id (pre ++ [c]) pre.length c := by
        refine ⟨getElem?_concat_length, ⟨hf, hc⟩, fun j d hd hpd => ?_, fun j d hj hd hpd => ?_⟩
        · rcases getElem?_snoc hd with hd | ⟨-, rfl⟩
          · have := h j d hpd.1 hd
            omega
          · exact Int.le_refl _
        · rcases getElem?_snoc hd with hd | ⟨rfl, -⟩
          · have := h j d hpd.1 hd
            omega
          · exact absurd hj (Nat.lt_irrefl _)
      exact (below_best hfirst (by omega)).imp fun index h => ⟨h.1, .inl h.2⟩
    · next hc =>
      refine ih (fun b hb => hpos b (mem_cons_of_mem c hb)) (by omega) fun j d hj hd => ?_
      rcases getElem?_snoc hd with hd | ⟨-, rfl⟩
      · exact h j d hj hd
      · omega

theorem below_place : ∀ {rest pre : List Int}, (∀ b ∈ rest, 0 < b) →
    (∀ (j : Nat) c, pre[j]? = some c → m ≤ c) →
    (∃ index : Nat, (below m rest pre.length (-1) 0).1 = index ∧ Place m (pre ++ rest) index) ∨
      below m rest pre.length (-1) 0 = (-1, 0) ∧ ∀ (j : Nat) c, (pre ++ rest)[j]? = some c →
        m ≤ c := by
  intro rest
  induction rest with
  | nil => exact fun _ h => .inr ⟨rfl, by rwa [append_nil]⟩
  | cons c rest ih =>
    intro pre hpos h
    have hlen : (pre ++ [c]).length = pre.length + 1 := by simp
    have hpos' : ∀ b ∈ rest, 0 < b := fun b hb => hpos b (mem_cons_of_mem c hb)
    rw [below, ← hlen, append_cons pre c rest]
    split
    · next hc =>
      obtain ⟨index, hrun, hbest⟩ := @below_after m pre.length rest (pre ++ [c]) hpos'
        (by omega) fun j d hj hd => by
          have := (List.getElem?_eq_some_iff.mp hd).1
          omega
      refine .inl ⟨index, hrun, .inl ⟨pre.length, c, ?_, hc, fun j d hj hd => ?_, hbest⟩⟩
      · simp
      · rw [append_assoc, getElem?_append_left hj] at hd
        exact h j d hd
    · next hc =>
      refine ih hpos' fun j d hd => ?_
      rcases getElem?_snoc hd with hd | ⟨-, rfl⟩
      · exact h j d hd
      · omega

theorem lowest_best : ∀ {rest pre : List Int} {index : Nat}
    {best : Int}, FirstBest (fun _ _ => True) Neg.neg pre index best →
    ∃ index' : Nat, (lowest rest pre.length index best).1 = index' ∧
      ∃ b, FirstBest (fun _ _ => True) Neg.neg (pre ++ rest) index' b := by
  intro rest
  induction rest with
  | nil => exact fun h => ⟨_, rfl, _, by rwa [append_nil]⟩
  | cons c rest ih =>
    intro pre index best h
    obtain ⟨hbetter, hworse⟩ := h.snoc
    have hlen : (pre ++ [c]).length = pre.length + 1 := by simp
    rw [lowest, ← hlen, append_cons pre c rest]
    split
    · next hlt => exact ih (hbetter trivial (by omega))
    · next hle => exact ih (hworse fun hboth => hle (.inl (by have := hboth.2; omega)))

/-- The playlist at the place is picked. -/
theorem getPlaylistBasedOnBitrate_eq {v : VariantPlaylist} (hpos : ∀ b ∈ v.playlistsBitrates, 0 < b)
    (hne : v.playlistsBitrates ≠ []) : ∃ i, Place m v.playlistsBitrates i ∧
      v.getPlaylistBasedOnBitrate m = v.playlists[i]? := by
  have hget : ∀ i : Nat,
    (if (i : Int) < 0 ∨ (i : Int) ≥ v.playlists.length then none else v.playlists[(i : Int).toNat]?)
      = v.playlists[i]? := by
    intro i
    split
    · rw [getElem?_eq_none (by omega)]
    · rfl
  unfold getPlaylistBasedOnBitrate
  rcases @below_place m _ [] hpos (by simp) with ⟨i, hi, hplace⟩ | ⟨hnone, hhigh⟩
  · refine ⟨i, hplace, ?_⟩
    rw [length_nil] at hi
    simp only [hi]
    exact hget i
  · rw [length_nil] at hnone
    obtain ⟨b, bs, hbs⟩ := exists_cons_of_ne_nil hne
    obtain ⟨i, hi, hbest⟩ := @lowest_best bs [b] 0 b
      ⟨rfl, trivial, fun j c hc _ => by rw [getElem?_singleton] at hc; split at hc <;> simp_all,
        fun j c hj => by omega⟩
    refine ⟨i, .inr ⟨hhigh, hbs ▸ hbest⟩, ?_⟩
    have hlowest : (lowest v.playlistsBitrates 0 (-1) 0).1 = i := by
      rw [hbs, lowest, if_pos (.inr rfl)]
      exact hi
    simp only [hnone, if_true, hlowest]
    exact hget i

/-! ### Loading -/

variable {load : Nat → Option (Option String)} {v : VariantPlaylist} {done todo : List Nat}
    {bitrates : List Int}

/-- The variants that are not forgotten, as their media files have the right extension or no
playlist was loaded. -/
def remaining (load : Nat → Option (Option String)) : Option String → List Nat → List Nat
  | _, [] => []
  | extension, l :: ls =>
    match load l with
    | none => l :: remaining load extension ls
    | some e =>
      if extension = none then l :: remaining load e ls
      else if extension = e then l :: remaining load extension ls
      else remaining load extension ls

theorem mem_of_mem_remaining {l : Nat} : ∀ {ls : List Nat} {extension : Option String},
    l ∈ remaining load extension ls → l ∈ ls := by
  intro ls
  induction ls with
  | nil => exact id
  | cons l' ls ih =>
    intro extension h
    rw [remaining] at h
    split at h
    · exact (mem_cons.mp h).elim (· ▸ mem_cons_self) fun h => mem_cons_of_mem _ (ih h)
    · split at h
      · exact (mem_cons.mp h).elim (· ▸ mem_cons_self) fun h => mem_cons_of_mem _ (ih h)
      · split at h
        · exact (mem_cons.mp h).elim (· ▸ mem_cons_self) fun h => mem_cons_of_mem _ (ih h)
        · exact mem_cons_of_mem _ (ih h)

/-- A turn of the loop begins after the variants `done`. -/
structure Turn (load : Nat → Option (Option String)) (bitrates : List Int) (v : VariantPlaylist)
    (done todo : List Nat) :
    Prop where
  infoIndex : v.infoIndex + 1 = done.length
  locations : v.playlistsLocations = done ++ todo
  bitrates : v.playlistsBitrates = (done ++ todo).map fun l => bitrates.getD l 0
  playlists : v.playlists = done.filter fun l => (load l).isSome

theorem loadAll_eq : ∀ {todo done : List Nat} {v : VariantPlaylist}
    {turns : Nat}, Turn load bitrates v done todo →
    todo.length < turns → ∃ rows, rows = done ++ remaining load v.mediaFileExtension todo ∧
      (loadAll load turns v).playlistsBitrates = rows.map (fun l => bitrates.getD l 0) ∧
      (loadAll load turns v).playlists = rows.filter fun l => (load l).isSome := by
  intro todo
  induction todo with
  | nil =>
    intro done v turns h hturns
    obtain ⟨turns, rfl⟩ := Nat.exists_eq_succ_of_ne_zero (show turns ≠ 0 by simp at hturns; omega)
    have hend : v.hasNext = (false, { v with infoIndex := v.infoIndex + 1 }) := by
      simp [hasNext, h.locations, h.infoIndex]
    rw [loadAll, hend]
    refine ⟨done, by simp [remaining], ?_, h.playlists⟩
    rw [h.bitrates, append_nil]
  | cons l todo ih =>
    intro done v turns h hturns
    obtain ⟨turns, rfl⟩ := Nat.exists_eq_succ_of_ne_zero (show turns ≠ 0 by omega)
    rw [length_cons] at hturns
    have hmore : v.hasNext = (true, { v with infoIndex := v.infoIndex + 1 }) := by
      simp only [hasNext, h.locations, h.bitrates, h.infoIndex, length_map, length_append, length_cons]
      rw [decide_eq_true (by omega)]
    have hdone : (v.infoIndex + 1).toNat = done.length := by rw [h.infoIndex]; rfl
    have hlocation : v.playlistsLocations.getD (v.infoIndex + 1).toNat 0 = l := by
      rw [hdone, h.locations]
      simp
    have hnext : ∀ {u : VariantPlaylist}, u.infoIndex = v.infoIndex + 1 →
      u.playlistsLocations = v.playlistsLocations →
        u.playlistsBitrates = v.playlistsBitrates →
          u.playlists = (done ++ [l]).filter (fun l => (load l).isSome) →
        Turn load bitrates u (done ++ [l]) todo := by
      intro u h₁ h₂ h₃ h₄
      refine ⟨?_, ?_, ?_, h₄⟩
      · rw [h₁, h.infoIndex, length_append]
        rfl
      · rw [h₂, h.locations, append_cons]
      · rw [h₃, h.bitrates, append_cons]
    rw [loadAll, hmore, remaining]
    simp only [hlocation]
    cases hload : load l with
    | none =>
      obtain ⟨_, rfl, hrun⟩ := ih (hnext (u := { v with infoIndex := v.infoIndex + 1 }) rfl rfl rfl
        (by rw [h.playlists]; simp [hload])) (show todo.length < turns by omega)
      exact ⟨_, by rw [append_assoc]; rfl, hrun⟩
    | some e =>
      have hkept : v.playlists ++ [l] = (done ++ [l]).filter fun l => (load l).isSome := by
        rw [h.playlists]
        simp [hload]
      cases hext : v.mediaFileExtension with
      | none =>
        obtain ⟨_, rfl, hrun⟩ := ih (hnext (u := { v with
          infoIndex := v.infoIndex + 1, mediaFileExtension := e,
            playlists := v.playlists ++ [l] }) rfl rfl rfl hkept)
          (show todo.length < turns by omega)
        exact ⟨_, by rw [append_assoc]; rfl, hrun⟩
      | some e' =>
        simp only [addPlaylist, reduceCtorEq, if_false, ne_eq]
        split
        · obtain ⟨_, rfl, hrun⟩ := ih (hnext (u := { v with
            infoIndex := v.infoIndex + 1, playlists := v.playlists ++ [l] }) rfl rfl rfl hkept)
            (show todo.length < turns by omega)
          rw [hext] at hrun
          exact ⟨_, by rw [append_assoc]; rfl, hrun⟩
        · obtain ⟨_, rfl, hrun⟩ := @ih done { v with
            playlistsLocations := v.playlistsLocations.eraseIdx (v.infoIndex + 1).toNat
            playlistsBitrates := v.playlistsBitrates.eraseIdx (v.infoIndex + 1).toNat
            infoIndex := v.infoIndex + 1 - 1 } _ (by
            refine ⟨?_, ?_, ?_, h.playlists⟩
            · rw [← h.infoIndex]
              exact Int.sub_add_cancel _ _
            · rw [hdone, h.locations, eraseIdx_append_of_length_le (Nat.le_refl _), Nat.sub_self]
              rfl
            · rw [hdone, h.bitrates, map_append, eraseIdx_append_of_length_le (by simp)]
              simp) (show todo.length < turns by omega)
          rw [hext] at hrun
          exact ⟨_, rfl, hrun⟩

/-- The variants of a playlist that stay in the list of bitrates. -/
def rows (load : Nat → Option (Option String)) (bitrates : List Int) : List Nat :=
  remaining load none (range bitrates.length)

/-- The variants whose playlists are kept. -/
def kept (load : Nat → Option (Option String)) (bitrates : List Int) : List Nat :=
  (rows load bitrates).filter fun l => (load l).isSome

theorem infos_eq : ∀ (l : List (Int × Nat)) (v : VariantPlaylist),
    l.foldl (fun (v : VariantPlaylist) info => v.addPlaylistInfo info.2 info.1) v = { v with
      playlistsLocations := v.playlistsLocations ++ l.map (·.2)
      playlistsBitrates := v.playlistsBitrates ++ l.map (·.1) } := by
  intro l
  induction l with
  | nil => simp
  | cons info l ih =>
    intro v
    rw [foldl_cons, ih]
    simp [addPlaylistInfo]

theorem stateInit_eq (load : Nat → Option (Option String)) (bitrates : List Int) :
    (stateInit load bitrates).playlistsBitrates = (rows load bitrates).map
      (fun l => bitrates.getD l 0) ∧
      (stateInit load bitrates).playlists = kept load bitrates := by
  rw [stateInit, infos_eq]
  have hturn : Turn load bitrates { playlistsLocations := [] ++ bitrates.zipIdx.map (·.2)
                                    playlistsBitrates := [] ++ bitrates.zipIdx.map (·.1) } []
                                      (range bitrates.length) := by
    refine ⟨rfl, by simp [range_eq_range'], ?_, rfl⟩
    refine ext_getElem (by simp) fun i h₁ h₂ => ?_
    have hi : i < bitrates.length := by simpa using h₁
    simp [hi]
  obtain ⟨_, rfl, hrun⟩ := @loadAll_eq _ _ _ _ _ (bitrates.length + 1) hturn (by simp)
  exact hrun

/-- The place in the list of bitrates is taken in the list of playlists. -/
theorem stateInit_place (hpos : ∀ b ∈ bitrates, 0 < b) (hne : rows load bitrates ≠ []) :
    ∃ i, Place m ((rows load bitrates).map fun l => bitrates.getD l 0) i ∧
      (stateInit load bitrates).getPlaylistBasedOnBitrate m = (kept load bitrates)[i]? := by
  obtain ⟨hbitrates, hplaylists⟩ := stateInit_eq load bitrates
  have hpos' : ∀ b ∈ (stateInit load bitrates).playlistsBitrates, 0 < b := by
    intro b hb
    rw [hbitrates] at hb
    obtain ⟨l, hl, rfl⟩ := mem_map.mp hb
    rw [getD_eq_getElem?_getD, getElem?_eq_getElem (mem_range.mp (mem_of_mem_remaining hl))]
    exact hpos _ (getElem_mem _)
  rw [← hbitrates, ← hplaylists]
  exact getPlaylistBasedOnBitrate_eq hpos' (by rw [hbitrates]; simpa using hne)

/-! ### The variant that is picked -/

/-- The playlist `p` is of the greatest bitrate that is low enough, or of the lowest where none is. -/
def Fits (bitrates : List Int) (kept : List Nat) (m : Int) (p : Nat) : Prop :=
  p ∈ kept ∧ ((bitrates.getD p 0 < m ∧ ∀ q ∈ kept, bitrates.getD q 0 < m →
    bitrates.getD q 0 ≤ bitrates.getD p 0) ∨
    (∀ q ∈ kept, m ≤ bitrates.getD q 0) ∧ ∀ q ∈ kept, bitrates.getD p 0 ≤ bitrates.getD q 0)

/-- If a playlist was kept, one that fits is picked. -/
def Selects (load : Nat → Option (Option String)) (bitrates : List Int) (m : Int) : Prop :=
  kept load bitrates ≠ [] →
    ∃ p, (stateInit load bitrates).getPlaylistBasedOnBitrate m = some p ∧
      Fits bitrates (kept load bitrates) m p

/-- The first bitrate that is low enough is the only one, or there is one after it that is not
lower. -/
def Leads (m : Int) (bs : List Int) : Prop :=
  ∀ b ∈ (bs.filter (· < m)).head?, (bs.filter (· < m)).tail = [] ∨ ∃ c ∈ (bs.filter (· < m)).tail, b ≤ c

theorem filter_low (hf : bs[f]? = some b) (hb : b < m)
    (hfirst : ∀ (j : Nat) c, j < f → bs[j]? = some c → m ≤ c) :
    bs.filter (· < m) = b :: (bs.drop (f + 1)).filter (· < m) := by
  obtain ⟨hlt, rfl⟩ := List.getElem?_eq_some_iff.mp hf
  have hnone : (bs.take f).filter (· < m) = [] := by
    refine filter_eq_nil_iff.mpr fun c hc => ?_
    obtain ⟨j, hj⟩ := mem_iff_getElem?.mp hc
    rw [getElem?_take] at hj
    split at hj
    · next hjf => simpa using hfirst j c hjf hj
    · cases hj
  calc bs.filter (· < m) = (bs.take f).filter (· < m) ++ (bs.drop f).filter (· < m) := by
        rw [← filter_append, take_append_drop]
    _ = bs[f] :: (bs.drop (f + 1)).filter (· < m) := by
        rw [hnone, nil_append, drop_eq_getElem_cons hlt, filter_cons_of_pos (by simpa using hb)]

theorem mem_filter_drop {c : Int} :
    c ∈ (bs.drop (f + 1)).filter (· < m) ↔ ∃ j, f < j ∧ bs[j]? = some c ∧ c < m := by
  rw [mem_filter, mem_iff_getElem?, decide_eq_true_iff]
  constructor
  · rintro ⟨⟨j, hj⟩, hc⟩
    rw [getElem?_drop] at hj
    exact ⟨f + 1 + j, by omega, hj, hc⟩
  · rintro ⟨j, hj, hget, hc⟩
    refine ⟨⟨j - (f + 1), ?_⟩, hc⟩
    rw [getElem?_drop, Nat.add_sub_cancel' hj]
    exact hget

/-- The bitrate at the place is low, and none after the first low one is a greater low one; or no
bitrate is low, and this is the lowest. -/
theorem Place.of_get (h : Place m bs i) (hb : bs[i]? = some b) :
    (∃ f d, bs[f]? = some d ∧ d < m ∧ (∀ (j : Nat) c, j < f → bs[j]? = some c → m ≤ c) ∧
      f ≤ i ∧ b < m ∧
      (∀ (j : Nat) c, f < j → bs[j]? = some c → c < m → c ≤ b) ∧
      (f < i ∨ ∀ (j : Nat) c, f < j → bs[j]? = some c → m ≤ c)) ∨
    (∀ (j : Nat) c, bs[j]? = some c → m ≤ c) ∧ ∀ (j : Nat) c, bs[j]? = some c → b ≤ c := by
  rcases h with ⟨f, d, hf, hd, hfirst, ⟨e, h⟩ | ⟨rfl, halone⟩⟩ | ⟨hnone, d, h⟩
  · obtain rfl := Option.some.inj (hb.symm.trans h.get)
    exact .inl ⟨f, d, hf, hd, hfirst, Nat.le_of_lt h.holds.1, h.holds.2,
      fun j c hj hget hc => h.le j c hget ⟨hj, hc⟩, .inl h.holds.1⟩
  · obtain rfl := Option.some.inj (hb.symm.trans hf)
    exact .inl ⟨i, b, hf, hd, hfirst, Nat.le_refl i, hd,
      fun j c hj hget hc => absurd hc (Int.not_lt.mpr (halone j c hj hget)), .inr halone⟩
  · obtain rfl := Option.some.inj (hb.symm.trans h.get)
    exact .inr ⟨hnone, fun j c hget => Int.neg_le_neg_iff.mp (h.le j c hget trivial)⟩

theorem Place.row {rows : List Nat} {g : Nat → Int} (h : Place m (rows.map g) i) :
    ∃ l : Nat, rows[i]? = some l := by
  have hget : ∃ b, (rows.map g)[i]? = some b := by
    rcases h with ⟨f, b, hf, -, -, ⟨c, h⟩ | ⟨rfl, -⟩⟩ | ⟨-, c, h⟩
    · exact ⟨c, h.get⟩
    · exact ⟨b, hf⟩
    · exact ⟨c, h.get⟩
  obtain ⟨b, hb⟩ := hget
  rw [getElem?_map, Option.map_eq_some_iff] at hb
  exact hb.imp fun _ h => h.1

/-- The place is right unless a greater low bitrate stands before it, which is then the first low
one. -/
theorem Place.leads_iff (h : Place m bs i) (hb : bs[i]? = some b) :
    Leads m bs ↔ ∀ (j : Nat) c, j ≤ i → bs[j]? = some c → c < m → c ≤ b := by
  rcases h.of_get hb with ⟨f, d, hf, hd, hfirst, hfi, hbm, hlater, halone⟩ | ⟨hnone, -⟩
  · rw [Leads, filter_low hf hd hfirst, head?_cons, tail_cons]
    constructor
    · intro hleads j c hj hget hcm
      rcases Nat.lt_trichotomy j f with hlt | rfl | hgt
      · exact absurd hcm (Int.not_lt.mpr (hfirst j c hlt hget))
      · obtain rfl := Option.some.inj (hget.symm.trans hf)
        rcases Nat.lt_or_eq_of_le hfi with hlt | rfl
        · rcases hleads c rfl with hnil | ⟨e, he, hce⟩
          · exact absurd (mem_filter_drop.mpr ⟨i, hlt, hb, hbm⟩) (hnil ▸ not_mem_nil)
          · obtain ⟨j', hj', hget', hem⟩ := mem_filter_drop.mp he
            exact Int.le_trans hce (hlater j' e hj' hget' hem)
        · exact Int.le_of_eq (Option.some.inj (hget.symm.trans hb))
      · exact hlater j c hgt hget hcm
    · intro hle e he
      obtain rfl := Option.some.inj he
      rcases halone with hlt | halone
      · exact .inr ⟨b, mem_filter_drop.mpr ⟨i, hlt, hb, hbm⟩, hle f d hfi hf hd⟩
      · refine .inl (eq_nil_iff_forall_not_mem.mpr fun c hc => ?_)
        obtain ⟨j, hj, hget, hcm⟩ := mem_filter_drop.mp hc
        exact absurd hcm (Int.not_lt.mpr (halone j c hj hget))
  · have hnil : bs.filter (· < m) = [] := by
      refine filter_eq_nil_iff.mpr fun c hc => ?_
      obtain ⟨j, hj⟩ := mem_iff_getElem?.mp hc
      simpa using hnone j c hj
    rw [Leads, hnil]
    exact iff_of_true nofun fun j c _ hget hcm => absurd hcm (Int.not_lt.mpr (hnone j c hget))

/-- No URI up to this place is bad. -/
def Clear (load : Nat → Option (Option String)) (bitrates : List Int) (i : Nat) : Prop :=
  ∀ l ∈ (rows load bitrates).take (i + 1), (load l).isSome

variable {l : Nat}

/-- Up to a bad URI the playlists stand where their bitrates do. -/
theorem Clear.kept_get (h : Clear load bitrates i) (hl : (rows load bitrates)[i]? = some l) :
    (kept load bitrates)[i]? = some l := by
  have hlt := (List.getElem?_eq_some_iff.mp hl).1
  rw [kept, ← take_append_drop (i + 1) (rows load bitrates), filter_append, filter_eq_self.mpr h,
    getElem?_append_left (by rw [length_take]; omega), getElem?_take_of_lt (Nat.lt_succ_self i), hl]

theorem Clear.fits_iff (h : Clear load bitrates i)
    (hplace : Place m ((rows load bitrates).map fun l => bitrates.getD l 0) i)
    (hl : (rows load bitrates)[i]? = some l) :
    Fits bitrates (kept load bitrates) m l ↔ Leads m
      ((rows load bitrates).map fun l => bitrates.getD l 0) := by
  have hget {j q : Nat} (hq : (rows load bitrates)[j]? = some q) :
      ((rows load bitrates).map fun l => bitrates.getD l 0)[j]? = some (bitrates.getD q 0) := by
    rw [getElem?_map, hq]
    rfl
  have hrow {q : Nat} (hq : q ∈ kept load bitrates) : ∃ j : Nat, (rows load bitrates)[j]? = some q :=
    mem_iff_getElem?.mp (mem_filter.mp hq).1
  rw [hplace.leads_iff (hget hl)]
  constructor
  · intro hfits j c hj hc hcm
    rw [getElem?_map, Option.map_eq_some_iff] at hc
    obtain ⟨q, hq, rfl⟩ := hc
    have hmem : q ∈ kept load bitrates := by
      refine mem_filter.mpr ⟨mem_of_getElem? hq, h q (mem_of_getElem? (i := j) ?_)⟩
      rw [getElem?_take_of_lt (Nat.lt_succ_of_le hj), hq]
    rcases hfits.2 with ⟨-, hle⟩ | ⟨hhigh, -⟩
    · exact hle q hmem hcm
    · exact absurd hcm (Int.not_lt.mpr (hhigh q hmem))
  · intro hle
    refine ⟨mem_of_getElem? (h.kept_get hl), ?_⟩
    rcases hplace.of_get (hget hl) with ⟨f, d, -, -, -, hfi, hlow, hlater, -⟩ | ⟨hnone, hlowest⟩
    · refine .inl ⟨hlow, fun q hq hqm => ?_⟩
      obtain ⟨j, hj⟩ := hrow hq
      rcases Nat.lt_or_ge i j with hlt | hge
      · exact hlater j _ (Nat.lt_of_le_of_lt hfi hlt) (hget hj) hqm
      · exact hle j _ hge (hget hj) hqm
    · exact .inr ⟨fun q hq => (hrow hq).elim fun j hj => hnone j _ (hget hj),
        fun q hq => (hrow hq).elim fun j hj => hlowest j _ (hget hj)⟩

/-- **When a playlist fits.**  With good URIs the first low bitrate decides.  Behind a bad one the
playlists have moved up, and the one that has come to the place of a bitrate has to fit itself. -/
theorem selects_iff (load : Nat → Option (Option String)) (bitrates : List Int) (m : Int)
    (hpos : ∀ b ∈ bitrates, 0 < b) :
    ((∀ l ∈ rows load bitrates, (load l).isSome) →
      (Selects load bitrates m ↔ Leads m ((rows load bitrates).map fun l => bitrates.getD l 0))) ∧
    (Selects load bitrates m ↔ (kept load bitrates ≠ [] →
      ∀ i, Place m ((rows load bitrates).map fun l => bitrates.getD l 0) i →
        Clear load bitrates i ∧ Leads m ((rows load bitrates).map fun l => bitrates.getD l 0) ∨
        ¬Clear load bitrates i ∧ ∃ p, (kept load bitrates)[i]? = some p ∧
          Fits bitrates (kept load bitrates) m p)) := by
  have hclear {i : Nat} (hplace : Place m ((rows load bitrates).map fun l => bitrates.getD l 0) i)
      (h : Clear load bitrates i) : (∃ p, (kept load bitrates)[i]? = some p ∧
        Fits bitrates (kept load bitrates) m p) ↔
        Leads m ((rows load bitrates).map fun l => bitrates.getD l 0) := by
    obtain ⟨l, hl⟩ := hplace.row
    rw [← h.fits_iff hplace hl, h.kept_get hl]
    exact ⟨fun ⟨_, hp, hfits⟩ => Option.some.inj hp ▸ hfits, fun hfits => ⟨l, rfl, hfits⟩⟩
  constructor
  · intro hgood
    have hkept : kept load bitrates = rows load bitrates := filter_eq_self.mpr hgood
    rcases eq_or_ne (rows load bitrates) [] with hnil | hne
    · rw [Selects, hkept, hnil]
      exact iff_of_true (absurd rfl) nofun
    · obtain ⟨i, hplace, hpick⟩ := stateInit_place (m := m) hpos hne
      rw [Selects, hpick, ← hclear hplace fun l hl => hgood l (mem_of_mem_take hl), hkept,
        imp_iff_right hne]
  · refine imp_congr_right fun hne => ?_
    obtain ⟨i, hplace, hpick⟩ := stateInit_place (m := m) hpos fun hnil => hne (by rw [kept, hnil]; rfl)
    rw [hpick]
    constructor
    · intro h i' hplace'
      obtain rfl := hplace'.unique hplace
      by_cases hc : Clear load bitrates i'
      · exact .inl ⟨hc, (hclear hplace hc).mp h⟩
      · exact .inr ⟨hc, h⟩
    · intro h
      rcases h i hplace with ⟨hc, hleads⟩ | ⟨-, hfits⟩
      · exact (hclear hplace hc).mpr hleads
      · exact hfits

/-- The greater of two bitrates is picked where it comes last.  The playlist between them is of
another type. -/
theorem selects_iff_three : Selects (fun l => some (some (if l = 1 then "ts" else "aac")))
    [400, 900, 800] 1000 ∧
    ¬Selects (fun _ => some none) [800, 400] 1000 :=
  ⟨((selects_iff _ _ _ (by decide)).1 (by decide)).mpr (by unfold Leads; decide),
    fun h => absurd (((selects_iff _ _ _ (by decide)).1 (by decide)).mp h) (by unfold Leads; decide)⟩

/-- The lower of two bitrates is picked. -/
theorem not_selects_two : ¬∀ (load : Nat → Option (Option String)) (bitrates : List Int)
    (m : Int), (∀ b ∈ bitrates, 0 < b) →
    Selects load bitrates m := by
  intro h
  obtain ⟨p, hp, hfits⟩ := h (fun _ => some none) [800, 400] 1000 (by decide) (by decide)
  obtain rfl : 1 = p := Option.some.inj hp
  revert hfits
  unfold Fits
  decide

/-! ### Higher bitrates -/

theorem Place.mono {m' b' : Int} {i' : Nat} (h : Place m bs i) (h' : Place m' bs i') (hm : m ≤ m')
    (hb : bs[i]? = some b)
    (hb' : bs[i']? = some b') : b ≤ b' := by
  rcases h.of_get hb with ⟨f, d, hf, hd, hfirst, hfi, hbm, -, halone⟩ | ⟨-, hlowest⟩
  · rcases h'.of_get hb' with ⟨f', d', hf', hd', hfirst', hfi', -, hlater', -⟩ | ⟨hnone', -⟩
    · -- A higher bitrate does not make the first one come later.
      have hff : f' ≤ f := Nat.not_lt.mp fun hlt => by
        have := hfirst' f d hlt hf
        omega
      rcases Nat.lt_or_eq_of_le (Nat.le_trans hff hfi) with hlt | rfl
      · exact hlater' i b hlt hb (by omega)
      · rcases halone with hlt | halone
        · exact absurd hlt (Nat.not_lt.mpr hff)
        · rcases Nat.lt_or_eq_of_le hfi' with hlt | rfl
          · have := halone i' b' (by omega) hb'
            omega
          · exact Int.le_of_eq (Option.some.inj (hb.symm.trans hb'))
    · have := hnone' f d hf
      omega
  · exact hlowest i' b' hb'

/-- **A higher measured bitrate never leads to a variant with a lower one**, if all the playlists
could be loaded. -/
theorem getPlaylistBasedOnBitrate_mono (load : Nat → Option (Option String)) (bitrates : List Int)
    (hpos : ∀ b ∈ bitrates, 0 < b) (hload : ∀ l, (load l).isSome) {m m' : Int} {p p' : Nat}
      (hm : m ≤ m')
    (h : (stateInit load bitrates).getPlaylistBasedOnBitrate m = some p)
    (h' : (stateInit load bitrates).getPlaylistBasedOnBitrate m' = some p') :
    bitrates.getD p 0 ≤ bitrates.getD p' 0 := by
  have hkept : kept load bitrates = rows load bitrates := filter_eq_self.mpr fun l _ => hload l
  have hpicked {n : Int} {q : Nat} (hq : (stateInit load bitrates).getPlaylistBasedOnBitrate n = some q) :
      ∃ i, Place n ((rows load bitrates).map fun l => bitrates.getD l 0) i ∧
        (rows load bitrates)[i]? = some q := by
    have hne : rows load bitrates ≠ [] := by
      intro hnil
      rw [getPlaylistBasedOnBitrate, (stateInit_eq load bitrates).2, hkept, hnil] at hq
      simp at hq
    obtain ⟨i, hplace, hpick⟩ := stateInit_place (m := n) hpos hne
    exact ⟨i, hplace, by rw [← hkept, ← hpick, hq]⟩
  obtain ⟨i, hplace, hi⟩ := hpicked h
  obtain ⟨i', hplace', hi'⟩ := hpicked h'
  exact hplace.mono hplace' hm (by rw [getElem?_map, hi]; rfl) (by rw [getElem?_map, hi']; rfl)

theorem getPlaylistBasedOnBitrate_mono_two : [800, 400].getD 1 0 ≤ [800, 400].getD 1 (0 : Int) :=
  getPlaylistBasedOnBitrate_mono (fun _ => some none) [800, 400] (by decide) (fun _ => rfl)
    (show (500 : Int) ≤ 1000 by decide)
    (by decide) (by decide)

end JavaFX.VariantPlaylist
