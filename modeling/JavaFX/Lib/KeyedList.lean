/-
Maps whose values know their keys.

A map from the keys of some values to these values, iterated in the order of insertion, is the list
of its values.  A value that replaces another takes its place.
-/
import Mathlib.Data.List.Nodup

namespace KeyedList

open List

variable {α κ : Type} [DecidableEq κ] (key : α → κ)

def get (k : κ) (l : List α) : Option α := l.find? fun a => decide (key a = k)

def remove (k : κ) (l : List α) : List α := l.eraseP fun a => decide (key a = k)

def put (a : α) : List α → List α
  | [] => [a]
  | x :: l => if key x = key a then a :: l else x :: put a l

/-- No two values have the same key. -/
def Distinct (l : List α) : Prop := (l.map key).Nodup

variable {key} {k k' : κ} {a : α} {l l' : List α}

theorem get_cons {x : α} : get key k (x :: l) = if key x = k then some x else get key k l := by
  by_cases h : key x = k
  · simp [get, h]
  · simp [get, h]

theorem get_eq_none_iff : get key k l = none ↔ ∀ a ∈ l, key a ≠ k := by
  simp [get]

theorem mem_of_get (h : get key k l = some a) : a ∈ l ∧ key a = k :=
  ⟨mem_of_find?_eq_some h, by simpa using find?_some h⟩

theorem get_eq_some_iff (hd : Distinct key l) : get key k l = some a ↔ a ∈ l ∧ key a = k := by
  refine ⟨mem_of_get, ?_⟩
  rintro ⟨ha, rfl⟩
  cases h : get key (key a) l with
  | none => exact absurd rfl (get_eq_none_iff.mp h a ha)
  | some b =>
    obtain ⟨hb, hkey⟩ := mem_of_get h
    rw [inj_on_of_nodup_map hd hb ha hkey]

omit [DecidableEq κ] in
theorem Distinct.sublist (hd : Distinct key l) (h : l'.Sublist l) : Distinct key l' :=
  List.Nodup.sublist (h.map key) hd

omit [DecidableEq κ] in
theorem Distinct.perm (hd : Distinct key l) (h : l'.Perm l) : Distinct key l' :=
  (h.map key).nodup_iff.mpr hd

omit [DecidableEq κ] in
theorem Distinct.nodup (hd : Distinct key l) : l.Nodup := List.Nodup.of_map key hd

/-! ### Removing -/

theorem remove_of_none (h : get key k l = none) : remove key k l = l :=
  eraseP_of_forall_not fun a ha => by simpa using get_eq_none_iff.mp h a ha

theorem remove_sublist : (remove key k l).Sublist l := eraseP_sublist

theorem length_remove (h : get key k l = some a) : (remove key k l).length + 1 = l.length := by
  obtain ⟨ha, hkey⟩ := mem_of_get h
  have hlength := length_eraseP_of_mem (p := fun a => decide (key a = k)) ha (by simpa using hkey)
  have hpos := length_pos_of_mem ha
  rw [remove]
  omega

theorem mem_remove (hd : Distinct key l) : a ∈ remove key k l ↔ a ∈ l ∧ key a ≠ k := by
  induction l with
  | nil => simp [remove]
  | cons x l ih =>
    obtain ⟨hx, hl⟩ := List.nodup_cons.mp hd
    by_cases h : key x = k
    · have heq : remove key k (x :: l) = l := by simp [remove, h]
      rw [heq, mem_cons]
      constructor
      · intro ha
        exact ⟨.inr ha, fun hak => hx (h ▸ hak ▸ mem_map_of_mem ha)⟩
      · rintro ⟨rfl | ha, hak⟩
        · exact absurd h hak
        · exact ha
    · have heq : remove key k (x :: l) = x :: remove key k l := by simp [remove, h]
      rw [heq, mem_cons, ih hl, mem_cons]
      constructor
      · rintro (rfl | ha)
        · exact ⟨.inl rfl, h⟩
        · exact ⟨.inr ha.1, ha.2⟩
      · rintro ⟨rfl | ha, hak⟩
        · exact .inl rfl
        · exact .inr ⟨ha, hak⟩

theorem get_remove (hd : Distinct key l) : get key k' (remove key k l) = if k' = k then none else get key k' l := by
  have hr : Distinct key (remove key k l) := hd.sublist remove_sublist
  split
  · next h =>
      rw [get_eq_none_iff]
      intro a ha
      rw [h]
      exact ((mem_remove hd).mp ha).2
  · next h =>
      apply Option.ext
      intro a
      rw [get_eq_some_iff hr, get_eq_some_iff hd, mem_remove hd]
      constructor
      · exact fun ⟨⟨ha, _⟩, hk⟩ => ⟨ha, hk⟩
      · exact fun ⟨ha, hk⟩ => ⟨⟨ha, hk ▸ h⟩, hk⟩

/-! ### Putting -/

theorem get_put : get key k (put key a l) = if k = key a then some a else get key k l := by
  induction l with
  | nil =>
    by_cases h : k = key a
    · simp [put, get, h]
    · simp [put, get, h, Ne.symm h]
  | cons x l ih =>
    by_cases hx : key x = key a
    · rw [put, if_pos hx, get_cons, get_cons, hx]
      by_cases h : k = key a
      · rw [if_pos h.symm, if_pos h]
      · rw [if_neg (Ne.symm h), if_neg h, if_neg (Ne.symm h)]
    · rw [put, if_neg hx, get_cons, get_cons, ih]
      by_cases h : key x = k
      · rw [if_pos h, if_pos h, if_neg]
        exact fun hk => hx (h.trans hk)
      · rw [if_neg h, if_neg h]

theorem put_of_none (h : get key (key a) l = none) : put key a l = l ++ [a] := by
  induction l with
  | nil => rfl
  | cons x l ih =>
    rw [get_cons] at h
    by_cases hx : key x = key a
    · simp [hx] at h
    · rw [if_neg hx] at h
      rw [put, if_neg hx, ih h, cons_append]

theorem map_key_put (h : (get key (key a) l).isSome) : (put key a l).map key = l.map key := by
  induction l with
  | nil => simp [get] at h
  | cons x l ih =>
    rw [get_cons] at h
    by_cases hx : key x = key a
    · rw [put, if_pos hx, map_cons, map_cons, hx]
    · rw [if_neg hx] at h
      rw [put, if_neg hx, map_cons, map_cons, ih h]

theorem Distinct.put (hd : Distinct key l) : Distinct key (put key a l) := by
  cases h : get key (key a) l with
  | none =>
    rw [put_of_none h, Distinct, map_append, nodup_append]
    refine ⟨hd, by simp, ?_⟩
    intro x hx y hy hxy
    obtain ⟨b, hb, rfl⟩ := List.mem_map.mp hx
    obtain rfl : y = key a := by simpa using hy
    exact get_eq_none_iff.mp h b hb hxy
  | some b =>
    rw [Distinct, map_key_put (by rw [h]; rfl)]
    exact hd

/-! ### Parts of a map -/

theorem get_of_sublist (hd : Distinct key l) (h : l'.Sublist l) :
    get key k l' = get key k l ∨ get key k l' = none ∧ ∃ a ∈ l, a ∉ l' ∧ get key k l = some a := by
  cases hl' : get key k l' with
  | some a =>
    obtain ⟨ha, hkey⟩ := mem_of_get hl'
    exact .inl ((get_eq_some_iff hd).mpr ⟨h.subset ha, hkey⟩).symm
  | none =>
    cases hl : get key k l with
    | none => exact .inl rfl
    | some a =>
      obtain ⟨ha, hkey⟩ := mem_of_get hl
      exact .inr ⟨rfl, a, ha, fun ha' => get_eq_none_iff.mp hl' a ha' hkey, rfl⟩

variable {g : α → α}

theorem get_map (hg : ∀ a, key (g a) = key a) : get key k (l.map g) = (get key k l).map g := by
  induction l with
  | nil => rfl
  | cons x l ih =>
    rw [map_cons, get_cons, get_cons, hg, ih]
    split <;> rfl

omit [DecidableEq κ] in
theorem Distinct.map (hd : Distinct key l) (hg : ∀ a, key (g a) = key a) : Distinct key (l.map g) := by
  have hkeys : key ∘ g = key := funext hg
  rw [Distinct, map_map, hkeys]
  exact hd

end KeyedList
