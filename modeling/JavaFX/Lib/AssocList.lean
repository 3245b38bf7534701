/-
Maps as lists of entries.

A map whose order of iteration does not matter is the list of its entries.  An entry
that is there is changed in its place, and a new one goes to the end.
-/
import Mathlib.Data.List.Nodup
import Mathlib.Data.List.Perm.Basic

namespace AssocList

open List

variable {K V : Type} [DecidableEq K]

def get (key : K) : List (K × V) → Option V
  | [] => none
  | e :: m => if e.1 = key then some e.2 else get key m

/-- Change the value of a key, which is `init` if there is none yet. -/
def upsert (key : K) (init : V) (f : V → V) : List (K × V) → List (K × V)
  | [] => [(key, f init)]
  | e :: m => if e.1 = key then (e.1, f e.2) :: m else e :: upsert key init f m

def keys (m : List (K × V)) : List K := m.map (·.1)

section
variable {key : K} {init : V} {f : V → V} {m : List (K × V)}

theorem get_upsert (key' : K) : get key' (upsert key init f m) = if key' = key then some (f ((get key m).getD init))
      else get key' m := by
  induction m with
  | nil =>
    by_cases h : key' = key
    · simp [upsert, get, h]
    · simp [upsert, get, h, Ne.symm h]
  | cons e m ih =>
    by_cases he : e.1 = key
    · by_cases h : key' = key
      · simp [upsert, get, he, h]
      · simp [upsert, get, he, h, Ne.symm h]
    · by_cases h : e.1 = key'
      · have hne : key' ≠ key := fun h' => he (h.trans h')
        simp [upsert, get, h, hne]
      · simp only [upsert, if_neg he, get, if_neg h, ih]

theorem upsert_upsert (g : V → V) : upsert key init g (upsert key init f m) = upsert key init (g ∘ f) m := by
  induction m with
  | nil => simp [upsert]
  | cons e m ih =>
    by_cases he : e.1 = key
    · simp [upsert, he]
    · simp only [upsert, if_neg he, ih]

theorem mem_keys_iff {key : K} {m : List (K × V)} : key ∈ keys m ↔ (get key m).isSome := by
  induction m with
  | nil => simp [keys, get]
  | cons e m ih =>
    by_cases he : e.1 = key
    · simp [keys, get, he]
    · simp only [get, if_neg he, ← ih]
      simp [keys, Ne.symm he]

theorem keys_upsert : keys (upsert key init f m) = if key ∈ keys m then keys m
    else keys m ++ [key] := by
  induction m with
  | nil => simp [upsert, keys]
  | cons e m ih =>
    by_cases he : e.1 = key
    · simp [upsert, keys, he]
    · simp only [upsert, if_neg he, keys, map_cons] at ih ⊢
      rw [ih]
      by_cases hk : key ∈ m.map (·.1)
      · simp [hk]
      · simp [hk, Ne.symm he]

theorem nodup_keys_upsert (h : (keys m).Nodup) : (keys (upsert key init f m)).Nodup := by
  rw [keys_upsert]
  split
  · exact h
  · rename_i hk
    exact List.nodup_append.mpr ⟨h, by simp, by
      intro a ha b hb
      obtain rfl : b = key := by simpa using hb
      exact fun hab => hk (hab ▸ ha)⟩

theorem get_eq_none_iff : get key m = none ↔ ∀ e ∈ m, e.1 ≠ key := by
  induction m with
  | nil => simp [get]
  | cons e m ih =>
    by_cases he : e.1 = key
    · simp [get, he]
    · simp [get, he, ih]

theorem get_eq_some_iff (h : (keys m).Nodup) {value : V} : get key m = some value ↔ (key, value) ∈ m := by
  induction m with
  | nil => simp [get]
  | cons e m ih =>
    obtain ⟨hnot, hnodup⟩ := List.nodup_cons.mp h
    by_cases he : e.1 = key
    · have hout : (key, value) ∉ m := by
        intro hmem
        exact hnot (List.mem_map.mpr ⟨_, hmem, he.symm⟩)
      simp only [get, if_pos he, mem_cons, hout, or_false, Option.some.injEq]
      constructor
      · rintro rfl
        rw [← he]
      · rintro rfl
        rfl
    · have hne : (key, value) ≠ e := by
        rintro rfl
        exact he rfl
      simp only [get, if_neg he, mem_cons, hne, false_or]
      exact ih hnodup

variable {m' : List (K × V)}

/-- A map has one value for each key, in whatever order its entries are. -/
theorem get_ext (h : (keys m).Nodup) (h' : (keys m').Nodup)
    (hmem : ∀ value, (key, value) ∈ m ↔ (key, value) ∈ m') : get key m = get key m' := by
  apply Option.ext
  intro value
  rw [get_eq_some_iff h, get_eq_some_iff h', hmem]

theorem get_perm (hperm : m.Perm m') (h : (keys m').Nodup) : get key m = get key m' :=
  get_ext ((hperm.map _).nodup_iff.mpr h) h (fun _ => hperm.mem_iff)

theorem get_append (a b : List (K × V)) : get key (a ++ b) = (get key a).or (get key b) := by
  induction a with
  | nil => simp [get]
  | cons e a ih =>
    by_cases he : e.1 = key
    · simp [get, he]
    · simp [get, he, ih]

variable {a b : List (K × V)} {e : K × V}

section

variable (h : (keys (a ++ e :: b)).Nodup)
include h

theorem get_middle : get e.1 a = none ∧ get e.1 b = none := by
  simp only [keys, map_append, map_cons, nodup_append, nodup_cons] at h
  obtain ⟨_, ⟨hb, _⟩, hab⟩ := h
  constructor
  · rw [get_eq_none_iff]
    intro x hx
    exact hab x.1 (mem_map_of_mem hx) e.1 (by simp)
  · rw [get_eq_none_iff]
    intro x hx heq
    exact hb (heq ▸ mem_map_of_mem hx)

theorem get_remove_middle :
    (fun k => get k (a ++ b)) = Function.update (fun k => get k (a ++ e :: b)) e.1 none := by
  obtain ⟨ha, hb⟩ := get_middle h
  funext k
  by_cases hk : k = e.1
  · subst hk
    simp [get_append, ha, hb]
  · simp [get_append, get, hk, Ne.symm hk]

theorem get_replace_middle (value : V) : (fun k => get k (a ++ (e.1, value) :: b))
      = Function.update (fun k => get k (a ++ e :: b)) e.1 (some value) := by
  obtain ⟨ha, _⟩ := get_middle h
  funext k
  by_cases hk : k = e.1
  · subst hk
    simp [get_append, get, ha]
  · simp [get_append, get, hk, Ne.symm hk]

end

/-- The entries, key by key. -/
theorem flatMap_eq {β : Type} (g : K → V → List β) (h : (keys m).Nodup) :
    (m.flatMap fun e => g e.1 e.2) = (keys m).flatMap fun k => (get k m).elim [] (g k) := by
  induction m with
  | nil => rfl
  | cons e m ih =>
    have hnodup := List.nodup_cons.mp h
    simp only [flatMap_cons]
    congr 1
    · simp [get]
    · rw [ih hnodup.2]
      apply flatMap_congr
      intro k hk
      have hne : e.1 ≠ k := by
        intro heq
        subst heq
        exact hnodup.1 hk
      simp [get, hne]

end

/-! ### Lists sorted into classes -/

/-- The classes of some keys hold what has one of these keys. -/
theorem flatMap_filter_perm {α : Type} (key : α → K) (l : List α) : ∀ {ks : List K}, ks.Nodup →
    (ks.flatMap fun k => l.filter (key · = k)).Perm (l.filter (key · ∈ ks)) := by
  intro ks
  induction ks with
  | nil => intro _; simp
  | cons k ks ih =>
    intro h
    obtain ⟨hk, hks⟩ := List.nodup_cons.mp h
    refine (List.Perm.append_left _ (ih hks)).trans ?_
    have hsplit : l.filter (key · ∈ k :: ks) = l.filter (fun x => decide (key x = k) || decide (key x ∈ ks)) := by
      congr 1
      funext x
      simp
    rw [hsplit]
    clear ih h hsplit
    induction l with
    | nil => simp
    | cons x l ih =>
      by_cases hx : key x = k
      · have hno : key x ∉ ks := hx ▸ hk
        simpa [hx, hk] using ih
      · by_cases hx' : key x ∈ ks
        · simp only [filter_cons, hx, hx']
          exact List.perm_middle.trans (List.Perm.cons x ih)
        · simpa [hx, hx'] using ih

end AssocList
