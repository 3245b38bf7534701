/-
What the observer of a list knows of its elements.

The entry of an element counts how often it occurs in the list.  Its listener is
taken off the observables with the first occurrence that goes, so an element can be
counted and not be listened to; `dropped` are the elements this has happened to.
-/
import Mathlib.Data.List.Count
import JavaFX.Collections.ElementObserver

namespace JavaFX.ElementObserver

open List

variable {E Obs : Type} [DecidableEq E]

/-! ### The map of elements -/

section

variable (o : ElementObserver E Obs) (e x : E)
include o e x

@[simp] theorem get_update (f : ElementsMapElement E → ElementsMapElement E) :
    (o.update e f).get x = if x = e then (o.get e).map f else o.get x := by
  unfold get update
  induction o.elementsMap with
  | nil => simp
  | cons entry rest ih =>
    obtain ⟨key, el⟩ := entry
    by_cases hk : key = x
    · subst hk
      by_cases he : key = e
      · subst he
        simp
      · simp [he]
    · by_cases he : key = e
      · subst he
        by_cases hx : x = key
        · exact absurd hx.symm hk
        · simpa [hk, hx] using ih
      · simpa [hk, he] using ih

@[simp] theorem get_forget :
    (o.forget e).get x = if x = e then none else o.get x := by
  unfold get forget
  rw [find?_filter]
  by_cases hx : x = e
  · subst hx
    simp
  · rw [if_neg hx]
    congr 2
    funext entry
    by_cases hk : entry.1 = x
    · simp [hk, hx]
    · simp [hk]

@[simp] theorem get_addListener (listener : InvalidationListener E) :
    (o.addListener e listener).get x = o.get x := rfl

end

/-! ### The books -/

variable [DecidableEq Obs]

@[simp] theorem get_removeListener (o : ElementObserver E Obs) (e x : E)
    (listener : InvalidationListener E) : (o.removeListener e listener).get x = o.get x := rfl

theorem count_removeListener (listener : InvalidationListener E) (obs : Obs)
    (li : InvalidationListener E) : ∀ (os : List Obs) (rs : List (Obs × InvalidationListener E)),
    (os.foldl (fun rs obs => rs.erase (obs, listener)) rs).count (obs, li)
      = if li = listener then rs.count (obs, li) - os.count obs else rs.count (obs, li) := by
  intro os
  induction os with
  | nil => intro rs; simp
  | cons o os ih =>
    intro rs
    rw [foldl_cons, ih, count_erase, count_cons]
    by_cases hli : li = listener
    · subst hli
      by_cases ho : o = obs
      · simp
        omega
      · simp [ho]
    · simp [hli, Ne.symm hli]

/-- The books of an observer for the list `l`: every entry counts, every element that
is not dropped is listened to through each of its observables, and nothing else is. -/
structure Counts (o : ElementObserver E Obs) (l : List E) (dropped : E → Prop) : Prop where
  present : ∀ e, o.isNull e = false → e ∈ l → ∃ el, o.get e = some el
  entry : ∀ e el, o.get e = some el → o.isNull e = false ∧ el.listener.element = e ∧ el.counter = l.count e ∧ e ∈ l
  attached : ∀ e el obs, o.get e = some el → ¬ dropped e →
    o.registrations.count (obs, el.listener) = (o.extractor e).count obs
  detached : ∀ e el obs, o.get e = some el → dropped e → o.registrations.count (obs, el.listener) = 0
  others : ∀ obs li, (∀ el, o.get li.element = some el → el.listener ≠ li) → o.registrations.count (obs, li) = 0

variable {o : ElementObserver E Obs} {e : E} {l l' : List E} {dropped dropped' : E → Prop}

theorem counts_empty (extractor : E → List Obs) (isNull : E → Bool) (dropped : E → Prop) :
    Counts { extractor, isNull } [] dropped where
  present e _ he := by simp at he
  entry e el h := by simp [get] at h
  attached e el obs h := by simp [get] at h
  detached e el obs h := by simp [get] at h
  others obs li _ := rfl

theorem Counts.perm (h : Counts o l dropped) (hl : l.Perm l') : Counts o l' dropped where
  present e hn he := h.present e hn (hl.mem_iff.mpr he)
  entry e el he := by
    obtain ⟨hn, hel, hcount, hmem⟩ := h.entry e el he
    exact ⟨hn, hel, by rw [hcount, hl.count_eq], hl.mem_iff.mp hmem⟩
  attached := h.attached
  detached := h.detached
  others := h.others

theorem Counts.congr (h : Counts o l dropped)
    (hd : ∀ x ∈ l, o.isNull x = false → o.extractor x ≠ [] → (dropped x ↔ dropped' x)) :
    Counts o l dropped' where
  present := h.present
  entry := h.entry
  attached e el obs he hne := by
    obtain ⟨hn, -, -, hmem⟩ := h.entry e el he
    by_cases hx : o.extractor e = []
    · by_cases hde : dropped e
      · rw [h.detached e el obs he hde, hx]
        simp
      · exact h.attached e el obs he hde
    · exact h.attached e el obs he (fun hde => hne ((hd e hmem hn hx).mp hde))
  detached e el obs he hde := by
    obtain ⟨hn, -, -, hmem⟩ := h.entry e el he
    by_cases hx : o.extractor e = []
    · by_cases hde' : dropped e
      · exact h.detached e el obs he hde'
      · rw [h.attached e el obs he hde', hx]
        simp
    · exact h.detached e el obs he ((hd e hmem hn hx).mpr hde)
  others := h.others

/-! ### Elements come -/

omit [DecidableEq Obs] in
theorem extractor_attachListener (o : ElementObserver E Obs) (e : E) :
    (o.attachListener e).extractor = o.extractor ∧ (o.attachListener e).isNull = o.isNull := by
  unfold attachListener
  split
  · exact ⟨rfl, rfl⟩
  · split
    · exact ⟨rfl, rfl⟩
    · exact ⟨rfl, rfl⟩

theorem Counts.recount (h : Counts o l dropped) (f : Int → Int) (hmem : ∀ x, x ∈ l' ↔ x ∈ l)
    (hcount : ∀ x, (l'.count x : Int) = if x = e then f (l.count x) else l.count x) :
    Counts (o.update e fun el => { el with counter := f el.counter }) l' dropped := by
  have hget : ∀ x el, (o.update e fun el => { el with counter := f el.counter }).get x = some el → ∃ el',
      o.get x = some el' ∧ el.listener = el'.listener ∧ el.counter = if x = e then f el'.counter else el'.counter := by
    intro x el hx
    rw [get_update] at hx
    by_cases hxe : x = e
    · subst hxe
      rw [if_pos rfl] at hx
      obtain ⟨el', hel', rfl⟩ := Option.map_eq_some_iff.mp hx
      exact ⟨el', hel', rfl, by simp⟩
    · rw [if_neg hxe] at hx
      exact ⟨el, hx, rfl, by simp [hxe]⟩
  refine ⟨?_, ?_, ?_, ?_, ?_⟩
  · intro x hn hx
    obtain ⟨el, hel⟩ := h.present x hn ((hmem x).mp hx)
    rw [get_update]
    by_cases hxe : x = e
    · exact ⟨_, by rw [if_pos hxe, ← hxe, hel]; rfl⟩
    · exact ⟨el, by rw [if_neg hxe, hel]⟩
  · intro x el hx
    obtain ⟨el', hx', hli, hc⟩ := hget x el hx
    obtain ⟨hn, hel, hcounter, hin⟩ := h.entry x el' hx'
    exact ⟨hn, by rw [hli, hel], by rw [hc, hcounter, hcount], (hmem x).mpr hin⟩
  · intro x el obs hx hnd
    obtain ⟨el', hx', hli, -⟩ := hget x el hx
    rw [hli]
    exact h.attached x el' obs hx' hnd
  · intro x el obs hx hd
    obtain ⟨el', hx', hli, -⟩ := hget x el hx
    rw [hli]
    exact h.detached x el' obs hx' hd
  · intro obs li hli
    refine h.others obs li fun el hel => ?_
    by_cases hxe : li.element = e
    · exact hli { el with counter := f el.counter } (by
        rw [get_update, if_pos hxe, ← hxe, hel]
        rfl)
    · exact hli el (by rw [get_update, if_neg hxe, hel])

theorem Counts.attach_known (h : Counts o l dropped) {e : E} {el₀ : ElementsMapElement E}
    (hget : o.get e = some el₀) :
    Counts (o.update e (fun el => { el with counter := el.counter + 1 })) (e :: l) dropped := by
  obtain ⟨-, -, -, hin⟩ := h.entry e el₀ hget
  refine h.recount (· + 1) (fun x => ?_) fun x => ?_
  · rw [mem_cons, or_iff_right_of_imp]
    rintro rfl
    exact hin
  · by_cases hxe : x = e
    · simp [hxe]
    · simp [hxe, Ne.symm hxe]

/-- The observer with a listener on the observables of a new element. -/
def enrolled (o : ElementObserver E Obs) (e : E) : ElementObserver E Obs :=
  { o with
    generated := o.generated + 1
    registrations := o.registrations
      ++ (o.extractor e).map (fun obs => (obs, (⟨o.generated, e⟩ : InvalidationListener E)))
    elementsMap := (e, ⟨⟨o.generated, e⟩, 1⟩) :: o.elementsMap }

omit [DecidableEq Obs] in
theorem get_enrolled (o : ElementObserver E Obs) (e x : E) :
    (o.enrolled e).get x = if x = e then some ⟨⟨o.generated, e⟩, 1⟩ else o.get x := by
  unfold get enrolled
  by_cases hxe : x = e
  · simp [hxe]
  · simp [hxe, Ne.symm hxe]

theorem count_enrolled (o : ElementObserver E Obs) (e : E) (obs : Obs) (li : InvalidationListener E) :
    (o.enrolled e).registrations.count (obs, li) = o.registrations.count (obs, li)
      + if li = ⟨o.generated, e⟩ then (o.extractor e).count obs else 0 := by
  unfold enrolled
  rw [count_append]
  congr 1
  by_cases hli : li = ⟨o.generated, e⟩
  · rw [if_pos hli, hli]
    exact count_map_of_injective _ (fun obs => (obs, (⟨o.generated, e⟩ : InvalidationListener E)))
      (fun a b hab => by simpa using hab) obs
  · rw [if_neg hli]
    refine List.count_eq_zero.mpr fun hmem => ?_
    obtain ⟨a, -, ha⟩ := List.mem_map.mp hmem
    exact hli (congrArg Prod.snd ha).symm

theorem Counts.attach_new (h : Counts o l dropped) {e : E} (hnull : o.isNull e = false)
    (hget : o.get e = none) : Counts (o.enrolled e) (e :: l) (fun x => dropped x ∧ x ∈ l) := by
  have hnot : e ∉ l := by
    intro hmem
    obtain ⟨el, hel⟩ := h.present e hnull hmem
    rw [hget] at hel
    simp at hel
  have hfresh : ∀ obs li, li.element = e → o.registrations.count (obs, li) = 0 := by
    intro obs li hli
    refine h.others obs li fun el hel => ?_
    rw [hli, hget] at hel
    simp at hel
  have hother : ∀ x el obs, x ≠ e → o.get x = some el →
      (o.enrolled e).registrations.count (obs, el.listener) = o.registrations.count (obs, el.listener) := by
    intro x el obs hxe hx
    rw [count_enrolled, if_neg (fun heq => hxe (by rw [← (h.entry x el hx).2.1, heq]))]
    rfl
  refine ⟨?_, ?_, ?_, ?_, ?_⟩
  · intro x hn hx
    rw [get_enrolled]
    by_cases hxe : x = e
    · exact ⟨_, if_pos hxe⟩
    · rw [if_neg hxe]
      exact h.present x hn (mem_of_ne_of_mem hxe hx)
  · intro x el hx
    rw [get_enrolled] at hx
    by_cases hxe : x = e
    · rw [if_pos hxe] at hx
      obtain rfl := Option.some.inj hx
      subst hxe
      exact ⟨hnull, rfl, by simp [List.count_eq_zero.mpr hnot], by simp⟩
    · rw [if_neg hxe] at hx
      obtain ⟨hn, hel, hcount, hmem⟩ := h.entry x el hx
      exact ⟨hn, hel, by rw [hcount, count_cons_of_ne (Ne.symm hxe)], mem_cons_of_mem _ hmem⟩
  · intro x el obs hx hnd
    rw [get_enrolled] at hx
    by_cases hxe : x = e
    · rw [if_pos hxe] at hx
      obtain rfl := Option.some.inj hx
      rw [count_enrolled, if_pos rfl, hfresh obs _ rfl, hxe, Nat.zero_add]
      rfl
    · rw [if_neg hxe] at hx
      rw [hother x el obs hxe hx]
      exact h.attached x el obs hx (fun hd => hnd ⟨hd, (h.entry x el hx).2.2.2⟩)
  · intro x el obs hx hd
    have hxe : x ≠ e := fun heq => hnot (heq ▸ hd.2)
    rw [get_enrolled, if_neg hxe] at hx
    rw [hother x el obs hxe hx]
    exact h.detached x el obs hx hd.1
  · intro obs li hli
    have hne : li ≠ ⟨o.generated, e⟩ := by
      rintro rfl
      exact hli ⟨⟨o.generated, e⟩, 1⟩ (by rw [get_enrolled, if_pos rfl]) rfl
    rw [count_enrolled, if_neg hne]
    by_cases hxe : li.element = e
    · exact hfresh obs li hxe
    · exact h.others obs li fun el hel => hli el (by rw [get_enrolled, if_neg hxe, hel])

theorem Counts.null (h : Counts o l dropped) {e : E} (hnull : o.isNull e = true) : Counts o (e :: l) dropped := by
  have hne : ∀ x, o.isNull x = false → x ≠ e := fun x hn heq => by
    rw [heq, hnull] at hn
    simp at hn
  refine ⟨?_, ?_, h.attached, h.detached, h.others⟩
  · intro x hn hx
    exact h.present x hn (mem_of_ne_of_mem (hne x hn) hx)
  · intro x el hx
    obtain ⟨hn, hel, hcount, hmem⟩ := h.entry x el hx
    exact ⟨hn, hel, by rw [hcount, count_cons_of_ne (Ne.symm (hne x hn))], mem_cons_of_mem _ hmem⟩

/-- **Attaching one occurrence more.**  An element that was dropped and is still
there stays dropped. -/
theorem Counts.attach (h : Counts o l dropped) (e : E) :
    Counts (o.attachListener e) (e :: l) (fun x => dropped x ∧ x ∈ l) := by
  unfold attachListener
  by_cases hnull : o.isNull e = true
  · rw [if_pos hnull]
    refine (h.null hnull).congr fun x hx hn _ => ?_
    have hxe : x ≠ e := fun heq => by rw [heq, hnull] at hn; simp at hn
    simp [mem_of_ne_of_mem hxe hx]
  · rw [if_neg hnull]
    cases hget : o.get e with
    | some el =>
      refine (h.attach_known hget).congr fun x hx hn _ => ?_
      have hmem : e ∈ l := (h.entry e el hget).2.2.2
      have hxl : x ∈ l := by
        rcases List.mem_cons.mp hx with rfl | hx
        · exact hmem
        · exact hx
      simp [hxl]
    | none => exact h.attach_new (by simpa using hnull) hget

/-! ### Elements go -/

theorem Counts.unnull (h : Counts o (e :: l) dropped) (hnull : o.isNull e = true) : Counts o l dropped := by
  have hne : ∀ x, o.isNull x = false → x ≠ e := fun x hn heq => by
    rw [heq, hnull] at hn
    simp at hn
  refine ⟨fun x hn hx => h.present x hn (mem_cons_of_mem _ hx), ?_, h.attached, h.detached, h.others⟩
  intro x el hx
  obtain ⟨hn, hel, hcount, hmem⟩ := h.entry x el hx
  exact ⟨hn, hel, by rw [hcount, count_cons_of_ne (Ne.symm (hne x hn))], mem_of_ne_of_mem (hne x hn) hmem⟩

theorem Counts.removeListener (h : Counts o l dropped) {e : E} {el : ElementsMapElement E}
    (hget : o.get e = some el) :
    Counts (o.removeListener e el.listener) l (fun x => dropped x ∨ x = e) := by
  have hcount : ∀ obs li, (o.removeListener e el.listener).registrations.count (obs, li)
      = if li = el.listener then 0 else o.registrations.count (obs, li) := by
    intro obs li
    unfold ElementObserver.removeListener
    rw [count_removeListener]
    by_cases hli : li = el.listener
    · subst hli
      simp only [if_true]
      by_cases hd : dropped e
      · rw [h.detached e el obs hget hd]
        omega
      · rw [h.attached e el obs hget hd]
        omega
    · rw [if_neg hli, if_neg hli]
  refine ⟨h.present, h.entry, ?_, ?_, ?_⟩
  · intro x el' obs hx hnd
    have hxe : x ≠ e := fun heq => hnd (Or.inr heq)
    rw [hcount, if_neg (fun heq => hxe (by
      rw [← (h.entry x el' hx).2.1, heq, (h.entry e el hget).2.1]))]
    exact h.attached x el' obs hx (fun hd => hnd (Or.inl hd))
  · intro x el' obs hx hd
    rw [hcount]
    split
    · rfl
    · rename_i hne
      rcases hd with hd | rfl
      · exact h.detached x el' obs hx hd
      · rw [get_removeListener, hget] at hx
        exact absurd (congrArg _ (Option.some.inj hx)).symm hne
  · intro obs li hli
    rw [hcount]
    split
    · rfl
    · exact h.others obs li hli

section

variable (h : Counts o (e :: l) dropped)
include h

theorem Counts.forget (hd : dropped e) (hnot : e ∉ l) :
    Counts (o.forget e) l dropped := by
  have hget : ∀ x el, (o.forget e).get x = some el → x ≠ e ∧ o.get x = some el := by
    intro x el hx
    rw [get_forget] at hx
    by_cases hxe : x = e
    · rw [if_pos hxe] at hx
      simp at hx
    · rw [if_neg hxe] at hx
      exact ⟨hxe, hx⟩
  refine ⟨?_, ?_, fun x el obs hx => h.attached x el obs (hget x el hx).2,
    fun x el obs hx => h.detached x el obs (hget x el hx).2, ?_⟩
  · intro x hn hx
    have hxe : x ≠ e := fun heq => hnot (heq ▸ hx)
    rw [get_forget, if_neg hxe]
    exact h.present x hn (mem_cons_of_mem _ hx)
  · intro x el hx
    obtain ⟨hxe, hx'⟩ := hget x el hx
    obtain ⟨hn, hel, hcount, hmem⟩ := h.entry x el hx'
    exact ⟨hn, hel, by rw [hcount, count_cons_of_ne (Ne.symm hxe)], mem_of_ne_of_mem hxe hmem⟩
  · intro obs li hli
    by_cases hxe : li.element = e
    · by_cases hreg : ∃ el, o.get e = some el ∧ el.listener = li
      · obtain ⟨el, hel, rfl⟩ := hreg
        exact h.detached e el obs hel hd
      · refine h.others obs li fun el hel hlis => hreg ⟨el, ?_, hlis⟩
        rw [← hxe, hel]
    · exact h.others obs li fun el hel => hli el (by rw [get_forget, if_neg hxe, hel])

theorem Counts.decrement (hmem : e ∈ l) :
    Counts (o.update e (fun el => { el with counter := el.counter - 1 })) l dropped := by
  refine h.recount (· - 1) (fun x => ?_) fun x => ?_
  · rw [mem_cons, or_iff_right_of_imp]
    rintro rfl
    exact hmem
  · by_cases hxe : x = e
    · simp [hxe]
    · simp [hxe, Ne.symm hxe]

/-- **Detaching one occurrence** never fails, and drops the element whether or not
there are more. -/
theorem Counts.detach :
    ∃ o', o.detachListener e = .ok o' ∧ Counts o' l (fun x => dropped x ∨ x = e) ∧
      o'.extractor = o.extractor ∧ o'.isNull = o.isNull := by
  unfold detachListener
  by_cases hnull : o.isNull e = true
  · refine ⟨o, by rw [if_pos hnull], (h.unnull hnull).congr fun x _ hn _ => ?_, rfl, rfl⟩
    have hxe : x ≠ e := fun heq => by rw [heq, hnull] at hn; simp at hn
    simp [hxe]
  · obtain ⟨el, hel⟩ := h.present e (by simpa using hnull) (by simp)
    have hcount : el.counter = (l.count e : Nat) + 1 := by
      rw [(h.entry e el hel).2.2.1]
      simp
    have hrem := h.removeListener hel
    rw [if_neg hnull, hel]
    by_cases hlast : el.counter - 1 = 0
    · have hnot : e ∉ l := List.count_eq_zero.mp (by omega)
      exact ⟨_, by simp only [if_pos hlast], hrem.forget (Or.inr rfl) hnot, rfl, rfl⟩
    · have hmem : e ∈ l := List.count_pos_iff.mp (by omega)
      exact ⟨_, by simp only [if_neg hlast], hrem.decrement hmem, rfl, rfl⟩

end

end JavaFX.ElementObserver
