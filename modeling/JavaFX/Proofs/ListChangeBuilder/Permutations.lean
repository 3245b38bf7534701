/-
Blocks that only permute.

The builder keeps one pending permutation of a range and follows it by the next one.  When the two
ranges differ it widens the range to take in both, and reads the entry of every index of the wider
range from one of the two tables.  An index between the ranges is in neither, and reading it fails:
`composePermutation_ok` and `composePermutation_gap` are the two outcomes, and which of them it is
depends on the ranges alone.

The tables are arrays of the caller, and the builder writes into the one it holds.  All this is so
as long as it is not given that one again.
-/
import JavaFX.Proofs.ListChangeBuilder.Commit

namespace JavaFX

open List

variable {E : Type}

/-- A table that sends the positions of a range to positions of the range. -/
structure Placement where
  lo : Int
  hi : Int
  perm : List Int
  le : lo ≤ hi
  length : (perm.length : Int) = hi - lo
  range : ∀ p ∈ perm, lo ≤ p ∧ p < hi

/-- What a call `nextPermutation(from, to, perm)` is given: a bijection of a range of a list of `n`
elements, and the array object that holds it. -/
structure Rearrangement (n : Nat) extends Placement where
  array : Nat
  low : 0 ≤ lo
  high : hi ≤ n
  nodup : perm.Nodup

namespace Placement

variable {i : Int}

/-- Where the element at `i` goes. -/
def target (r : Placement) (i : Int) : Int :=
  if r.lo ≤ i ∧ i < r.hi then r.perm.getD (i - r.lo).toNat i else i

theorem target_of_mem (r : Placement) (h : r.lo ≤ i ∧ i < r.hi) :
    getAt r.perm (i - r.lo) = .ok (r.target i) ∧ r.lo ≤ r.target i ∧ r.target i < r.hi := by
  have hlt : (i - r.lo).toNat < r.perm.length := by
    have := r.length
    omega
  have htarget : r.target i = r.perm[(i - r.lo).toNat] := by
    rw [target, if_pos h, getD_eq_getElem?_getD, getElem?_eq_getElem hlt, Option.getD_some]
  rw [htarget]
  refine ⟨getAt_eq_ok.mpr ⟨by omega, getElem?_eq_getElem hlt⟩, r.range _ (getElem_mem hlt)⟩

theorem target_of_not_mem (r : Placement) (h : ¬ (r.lo ≤ i ∧ i < r.hi)) : r.target i = i :=
  if_neg h

end Placement

namespace Rearrangement

variable {n : Nat}

/-- Where the element at `i` is after all of them. -/
def targetAll (rs : List (Rearrangement n)) (i : Int) : Int := rs.foldl (fun i r => r.target i) i

/-- Every range touches or overlaps the range `[lo, hi)` and what the ranges before it have made of it. -/
def Touching : Int → Int → List (Rearrangement n) → Prop
  | _, _, [] => True
  | lo, hi, r :: rs => r.lo ≤ hi ∧ lo ≤ r.hi ∧ Touching (min lo r.lo) (max hi r.hi) rs

/-- No call is given the array the builder holds, which is the first one's until a wider range gets
an array of its own. -/
def Separate : Option Nat → Int → Int → List (Rearrangement n) → Prop
  | _, _, _, [] => True
  | held, lo, hi, r :: rs => held ≠ some r.array ∧
    Separate (if r.lo = lo ∧ r.hi = hi then held else none) (min lo r.lo) (max hi r.hi) rs

end Rearrangement

/-! ### Tables -/

variable {σ α : Type} {body : Int → σ → Except JavaException σ} {j : Int} {f : Int → Except JavaException α}

theorem loopFrom_error : ∀ (n : Nat) (i : Int) (s : σ)
    {j : Int}, i ≤ j → j < i + n → (∀ s, ∃ e, body j s = .error e) → ∃ e, loopFrom body n i s = .error e := by
  intro n
  induction n with
  | zero =>
    intro i s j hij hj _
    omega
  | succ n ih =>
    intro i s j hij hj hbody
    rw [loopFrom]
    cases hs : body i s with
    | error e => exact ⟨e, rfl⟩
    | ok s' =>
      have hne : i ≠ j := by
        rintro rfl
        obtain ⟨e, he⟩ := hbody s
        rw [hs] at he
        cases he
      exact ih (i + 1) s' (by omega) (by omega) hbody

theorem forRange_error {lo hi : Int} (s : σ) (hlo : lo ≤ j) (hhi : j < hi) (hbody : ∀ s, ∃ e, body j s = .error e) :
    ∃ e, forRange lo hi body s = .error e :=
  loopFrom_error _ lo s hlo (by omega) hbody

theorem tabulate_ok (lo hi : Int) (hle : lo ≤ hi) {v : Int → α} (hf : ∀ i, lo ≤ i → i < hi → f i = .ok (v i)) :
    ∃ l, tabulate lo hi f = .ok l ∧ (l.length : Int) = hi - lo ∧
      ∀ i, lo ≤ i → i < hi → getAt l (i - lo) = .ok (v i) := by
  refine forRange_inv (fun j (l : List α) => (l.length : Int) = j - lo ∧
    ∀ i, lo ≤ i → i < j → getAt l (i - lo) = .ok (v i)) hle ⟨by simp, fun i h h' => by omega⟩ ?_
  rintro j l hlo hhi ⟨hlength, hentries⟩
  refine ⟨l ++ [v j], by rw [hf j hlo hhi]; rfl, by simp; omega, ?_⟩
  intro i hi hj
  rcases Int.lt_or_le i j with hlt | hge
  · obtain ⟨h0, hget⟩ := getAt_eq_ok.mp (hentries i hi hlt)
    refine getAt_eq_ok.mpr ⟨h0, ?_⟩
    rw [getElem?_append_left (List.getElem?_eq_some_iff.mp hget).1]
    exact hget
  · obtain rfl : i = j := by omega
    rw [← hlength, getAt_append]

theorem tabulate_error (lo hi : Int) (hlo : lo ≤ j)
    (hhi : j < hi) (hf : ∃ e, f j = .error e) : ∃ e, tabulate lo hi f = .error e := by
  refine forRange_error [] hlo hhi fun l => ?_
  obtain ⟨e, he⟩ := hf
  exact ⟨e, by rw [he]; rfl⟩

/-! ### The pending permutation -/

namespace ListChangeBuilder

/-- The record carries every index of its range where `g` says, and `g` moves no other. -/
structure Carries (c : SubChange E) (g : Int → Int) : Prop where
  le : c.from ≤ c.to
  removed : c.removed = none
  updated : c.updated = false
  length : (c.perm.length : Int) = c.to - c.from
  inside : ∀ i, c.from ≤ i → i < c.to → getAt c.perm (i - c.from) = .ok (g i)
  stays : ∀ i, c.from ≤ i → i < c.to → c.from ≤ g i ∧ g i < c.to
  outside : ∀ i, ¬ (c.from ≤ i ∧ i < c.to) → g i = i

variable {n : Nat}

theorem Carries.of_placement (r : Placement) :
    Carries (⟨r.lo, r.hi, none, r.perm, false⟩ : SubChange E) r.target where
  le := r.le
  removed := rfl
  updated := rfl
  length := r.length
  inside _ hlo hhi := (r.target_of_mem ⟨hlo, hhi⟩).1
  stays _ hlo hhi := (r.target_of_mem ⟨hlo, hhi⟩).2
  outside _ hi := r.target_of_not_mem hi

variable {c : SubChange E} {g : Int → Int} {lo hi : Int}

section

variable (h : Carries c g) (r : Placement)
include h r

theorem composePermutation_same (hlo : r.lo = c.from) (hhi : r.hi = c.to) :
    ∃ c', composePermutation c r.lo r.hi r.perm = .ok c' ∧ Carries c' (fun i => r.target (g i)) ∧
      c'.from = c.from ∧ c'.to = c.to := by
  have hlength := h.length
  have hrlength := r.length
  -- The first `j` entries are new.
  have hloop : ∃ p, forRange 0 r.perm.length
      (fun i p => do setAt p i (← getAt r.perm ((← getAt p i) - r.lo))) c.perm = .ok p ∧
      p.length = c.perm.length ∧ ∀ k : Nat, (k : Int) < c.to - c.from →
        p[k]? = some (if (k : Int) < r.perm.length then r.target (g (c.from + k)) else g (c.from + k)) := by
    refine forRange_inv (fun j (p : List Int) => p.length = c.perm.length ∧ ∀ k : Nat, (k : Int) < c.to - c.from →
      p[k]? = some (if (k : Int) < j then r.target (g (c.from + k)) else g (c.from + k))) (by omega) ⟨rfl, ?_⟩ ?_
    · intro k hk
      have hk' := (getAt_eq_ok.mp (h.inside (c.from + k) (by omega) (by omega))).2
      rw [if_neg (by omega), ← hk']
      congr 1
      omega
    · rintro j p hj0 hj ⟨hplength, hp⟩
      obtain ⟨j, rfl⟩ := Int.eq_ofNat_of_zero_le hj0
      have hpj := hp j (by omega)
      rw [if_neg (by omega)] at hpj
      have hstays := h.stays (c.from + j) (by omega) (by omega)
      have hentry := (r.target_of_mem (i := g (c.from + j)) (by omega)).1
      have hget : getAt p (j : Int) = .ok (g (c.from + j)) := getAt_eq_ok.mpr ⟨by omega, hpj⟩
      refine ⟨p.set j (r.target (g (c.from + j))), ?_, by simpa using hplength, ?_⟩
      · rw [hget]
        show (getAt r.perm (g (c.from + j) - r.lo)).bind _ = _
        rw [hentry]
        exact setAt_ofNat _ (by omega)
      · intro k hk
        rw [getElem?_set]
        by_cases hjk : j = k
        · subst hjk
          rw [if_pos rfl, if_pos (by omega), if_pos (by omega)]
        · rw [if_neg hjk, hp k hk]
          by_cases hkj : (k : Int) < j
          · rw [if_pos hkj, if_pos (by omega)]
          · rw [if_neg hkj, if_neg (by omega)]
  obtain ⟨p, hp, hplength, hnew⟩ := hloop
  refine ⟨{ c with perm := p }, ?_, ?_, rfl, rfl⟩
  · rw [composePermutation, if_pos ⟨hlo, hhi⟩, hp]
    rfl
  · refine ⟨h.le, h.removed, h.updated, by rw [hplength]; exact hlength, ?_, ?_, ?_⟩
    · intro i (hi : c.from ≤ i) (hi' : i < c.to)
      show getAt p (i - c.from) = _
      refine getAt_eq_ok.mpr ⟨by omega, ?_⟩
      have := hnew (i - c.from).toNat (by omega)
      rw [if_pos (by omega)] at this
      rw [this]
      congr 3
      omega
    · intro i (hi : c.from ≤ i) (hi' : i < c.to)
      show c.from ≤ r.target (g i) ∧ r.target (g i) < c.to
      have hstays := h.stays i hi hi'
      have := (r.target_of_mem (i := g i) (by omega)).2
      omega
    · intro i (hi : ¬ (c.from ≤ i ∧ i < c.to))
      rw [h.outside i hi]
      exact r.target_of_not_mem (by omega)

/-- The entry of the wider table, where one of the two tables has one. -/
theorem entry_ok {i : Int}
    (hi : (c.from ≤ i ∧ i < c.to) ∨ (r.lo ≤ i ∧ i < r.hi)) :
    (if i < c.from ∨ c.to ≤ i then getAt r.perm (i - r.lo)
      else do
        let p ← getAt c.perm (i - c.from)
        if p < r.lo ∨ r.hi ≤ p then return p else getAt r.perm (p - r.lo)) = .ok (r.target (g i)) := by
  by_cases hc : i < c.from ∨ c.to ≤ i
  · rw [if_pos hc, h.outside i (by omega)]
    exact (r.target_of_mem (hi.resolve_left (by omega))).1
  · rw [if_neg hc, h.inside i (by omega) (by omega)]
    show (if g i < r.lo ∨ r.hi ≤ g i then Except.ok (g i) else getAt r.perm (g i - r.lo)) = _
    by_cases hg : g i < r.lo ∨ r.hi ≤ g i
    · rw [if_pos hg, r.target_of_not_mem (by omega)]
    · rw [if_neg hg]
      exact (r.target_of_mem (by omega)).1

/-- **Ranges that touch or overlap** are composed. -/
theorem composePermutation_ok (hlo : r.lo ≤ c.to) (hhi : c.from ≤ r.hi) :
    ∃ c', composePermutation c r.lo r.hi r.perm = .ok c' ∧ Carries c' (fun i => r.target (g i)) ∧
      c'.from = min c.from r.lo ∧ c'.to = max c.to r.hi := by
  by_cases hsame : r.lo = c.from ∧ r.hi = c.to
  · obtain ⟨c', hc', hcarries, hfrom, hto⟩ := composePermutation_same h r hsame.1 hsame.2
    exact ⟨c', hc', hcarries, by omega, by omega⟩
  · obtain ⟨p, hp, hlength, hentries⟩ := tabulate_ok (min c.from r.lo) (max c.to r.hi)
      (by omega) fun i hi hi' => entry_ok h r (i := i) (by omega)
    refine ⟨{ c with «from» := min c.from r.lo, «to» := max c.to r.hi, perm := p }, ?_, ?_, rfl, rfl⟩
    · rw [composePermutation, if_neg hsame]
      show (tabulate (min c.from r.lo) (max c.to r.hi) _).bind _ = _
      rw [hp]
      rfl
    · refine ⟨show min c.from r.lo ≤ max c.to r.hi by omega, h.removed, h.updated, hlength, hentries, ?_, ?_⟩
      · intro i hi hi'
        show min c.from r.lo ≤ r.target (g i) ∧ r.target (g i) < max c.to r.hi
        have hg : min c.from r.lo ≤ g i ∧ g i < max c.to r.hi := by
          by_cases hc : c.from ≤ i ∧ i < c.to
          · have := h.stays i hc.1 hc.2
            omega
          · rw [h.outside i hc]
            exact ⟨hi, hi'⟩
        by_cases hr : r.lo ≤ g i ∧ g i < r.hi
        · have := (r.target_of_mem hr).2
          omega
        · rw [r.target_of_not_mem hr]
          exact hg
      · intro i hi
        have hi' : ¬ (min c.from r.lo ≤ i ∧ i < max c.to r.hi) := hi
        rw [h.outside i (by omega)]
        exact r.target_of_not_mem (by omega)

/-- **Between ranges that do not touch** there is an index that neither table has. -/
theorem composePermutation_gap
    (hgap : ¬ (r.lo ≤ c.to ∧ c.from ≤ r.hi)) : ∃ e, composePermutation c r.lo r.hi r.perm = .error e := by
  have hle := h.le
  have hlength := r.length
  -- The first index behind the range that comes first.
  obtain ⟨j, hlo, hhi, hc, hr⟩ : ∃ j, min c.from r.lo ≤ j ∧ j < max c.to r.hi ∧
      (j < c.from ∨ c.to ≤ j) ∧ (j < r.lo ∨ r.hi ≤ j) := by
    by_cases hright : r.lo ≤ c.to
    · exact ⟨r.hi, by omega, by omega, by omega, by omega⟩
    · exact ⟨c.to, by omega, by omega, by omega, by omega⟩
  have hentry : ∃ e, getAt r.perm (j - r.lo) = .error e := by
    cases hget : getAt r.perm (j - r.lo) with
    | error e => exact ⟨e, rfl⟩
    | ok p =>
      obtain ⟨h0, hp⟩ := getAt_eq_ok.mp hget
      have := (List.getElem?_eq_some_iff.mp hp).1
      omega
  obtain ⟨e, he⟩ := tabulate_error (min c.from r.lo) (max c.to r.hi)
    (f := fun i => if i < c.from ∨ c.to ≤ i then getAt r.perm (i - r.lo)
      else do
        let p ← getAt c.perm (i - c.from)
        if p < r.lo ∨ r.hi ≤ p then return p else getAt r.perm (p - r.lo)) hlo hhi (by
      rw [if_pos hc]
      exact hentry)
  refine ⟨e, ?_⟩
  rw [composePermutation, if_neg (by omega)]
  show (tabulate (min c.from r.lo) (max c.to r.hi) _).bind _ = _
  rw [he]
  rfl

end

/-! ### The calls of a block -/

variable {b : ListChangeBuilder E} {s : Holding E}

/-- With an array the builder does not hold, a call does what its entries say. -/
theorem passPermutation_eq {lo hi : Int} {array : Nat} {perm : List Int} {size : Nat} {pre : Int × Int × List Int}
    (hlock : 0 < s.builder.changeLock) (hne : s.array ≠ some array)
    (hpre : prePermutation lo hi perm size s.builder.addRemoveChanges = .ok pre) :
    passPermutation lo hi array perm size s
      = (s.builder.nextPermutation lo hi perm size).map fun b => ⟨b, keptArray array pre s⟩ := by
  simp only [passPermutation, checkState_of_pos hlock, hpre, bind, Except.bind, if_neg hne]
  rfl

/-- The mirroring calls of a block that permutes. -/
def permuteAll (rs : List (Rearrangement n)) (s : Holding E) : Except JavaException (Holding E) :=
  rs.foldlM (fun s r => passPermutation r.lo r.hi r.array r.perm n s) s

theorem permuteAll_cons (r : Rearrangement n) (rs : List (Rearrangement n)) :
    permuteAll (r :: rs) s = (passPermutation r.lo r.hi r.array r.perm n s).bind (permuteAll rs) :=
  foldlM_cons

/-- Inside the block, with a permutation pending and nothing else. -/
structure Permutes (n : Nat) (g : Int → Int) (lo hi : Int) (held : Option Nat) (s : Holding E) : Prop where
  lock : s.builder.changeLock = 1
  low : 0 ≤ lo
  high : hi ≤ n
  records : s.builder.addRemoveChanges = []
  updates : s.builder.updateChanges = []
  array : s.array = held
  permutation : ∃ c, s.builder.permutationChange = some c ∧ Carries c g ∧ c.from = lo ∧ c.to = hi

/-- Without records, a permutation is only followed by the next one. -/
theorem nextPermutation_eq (lo hi : Int) (perm : List Int) (size : Nat) (hlock : b.changeLock = 1)
    (hrecords : b.addRemoveChanges = []) (hupdates : b.updateChanges = []) :
    b.nextPermutation lo hi perm size
      = (follow b.permutationChange (lo, hi, perm)).map fun c => { b with permutationChange := some c } := by
  unfold nextPermutation
  rw [checkState_of_pos (by omega), hrecords, hupdates]
  show (follow b.permutationChange (lo, hi, perm)).bind _ = _
  cases follow b.permutationChange (lo, hi, perm) with
  | error e => rfl
  | ok c => simp [Except.bind, Except.map, bind, pure, Except.pure]

theorem permutes_first (r : Rearrangement n) : ∃ s : Holding E,
    passPermutation r.lo r.hi r.array r.perm n ⟨({} : ListChangeBuilder E).beginChange, none⟩ = .ok s ∧
      Permutes n r.target r.lo r.hi (some r.array) s := by
  refine ⟨_, by rw [passPermutation_eq Nat.one_pos (by simp) rfl, nextPermutation_eq _ _ _ _ rfl rfl rfl]; rfl,
    rfl, r.low, r.high, rfl, rfl, rfl, ?_⟩
  exact ⟨_, rfl, Carries.of_placement r.toPlacement, rfl, rfl⟩

variable {held : Option Nat}

/-- **One call** with another array: the permutation that is pending is followed by it, or the call
fails. -/
theorem Permutes.next (h : Permutes n g lo hi held s) (r : Rearrangement n) (hown : held ≠ some r.array) :
    (r.lo ≤ hi ∧ lo ≤ r.hi → ∃ s', passPermutation r.lo r.hi r.array r.perm n s = .ok s' ∧
      Permutes n (fun i => r.target (g i)) (min lo r.lo) (max hi r.hi)
        (if r.lo = lo ∧ r.hi = hi then held else none) s') ∧
    (¬ (r.lo ≤ hi ∧ lo ≤ r.hi) → ∃ e, passPermutation r.lo r.hi r.array r.perm n s = .error e) := by
  obtain ⟨c, hc, hcarries, rfl, rfl⟩ := h.permutation
  have hlock := h.lock
  have hpre : prePermutation r.lo r.hi r.perm n s.builder.addRemoveChanges = .ok (r.lo, r.hi, r.perm) := by
    rw [h.records]
    rfl
  rw [passPermutation_eq (by omega) (h.array ▸ hown) hpre, nextPermutation_eq _ _ _ _ hlock h.records h.updates, hc]
  constructor
  · rintro ⟨hlo, hhi⟩
    obtain ⟨c', hc', hcarries', hfrom, hto⟩ := composePermutation_ok hcarries r.toPlacement hlo hhi
    have hlow := h.low
    have hhigh := h.high
    have hrlow := r.low
    have hrhigh := r.high
    refine ⟨⟨{ s.builder with permutationChange := some c' }, keptArray r.array (r.lo, r.hi, r.perm) s⟩,
      by simp only [follow, hc', Except.map], hlock, by omega, by omega, h.records, h.updates, ?_, c', rfl, hcarries', hfrom, hto⟩
    simp only [keptArray, hc, h.array]
  · intro hgap
    obtain ⟨e, he⟩ := composePermutation_gap hcarries r.toPlacement hgap
    exact ⟨e, by simp only [follow, he, Except.map]⟩

theorem Permutes.all {rs : List (Rearrangement n)} (h : Permutes n g lo hi held s)
    (hown : Rearrangement.Separate held lo hi rs) :
    (Rearrangement.Touching lo hi rs → ∃ s' lo' hi' held', permuteAll rs s = .ok s' ∧
      Permutes n (fun i => Rearrangement.targetAll rs (g i)) lo' hi' held' s') ∧
    (¬ Rearrangement.Touching lo hi rs → ∃ e, permuteAll rs s = .error e) := by
  induction rs generalizing s g lo hi held with
  | nil => exact ⟨fun _ => ⟨s, lo, hi, held, rfl, h⟩, fun hnot => absurd trivial hnot⟩
  | cons r rs ih =>
    obtain ⟨hok, hgap⟩ := h.next r hown.1
    constructor
    · rintro ⟨hlo, hhi, hrest⟩
      obtain ⟨s₁, hs₁, h₁⟩ := hok ⟨hlo, hhi⟩
      obtain ⟨s', lo', hi', held', hs', h'⟩ := (ih h₁ hown.2).1 hrest
      exact ⟨s', lo', hi', held', by rw [permuteAll_cons, hs₁]; exact hs', h'⟩
    · intro hnot
      by_cases htouch : r.lo ≤ hi ∧ lo ≤ r.hi
      · obtain ⟨s₁, hs₁, h₁⟩ := hok htouch
        obtain ⟨e, he⟩ := (ih h₁ hown.2).2 fun hrest => hnot ⟨htouch.1, htouch.2, hrest⟩
        exact ⟨e, by rw [permuteAll_cons, hs₁]; exact he⟩
      · obtain ⟨e, he⟩ := hgap htouch
        exact ⟨e, by rw [permuteAll_cons, he]; rfl⟩

/-- The record a listener sees is the composition of the permutations, on a range that holds every
index that has moved. -/
structure Composed (rs : List (Rearrangement n)) (c : SubChange E) : Prop where
  low : 0 ≤ c.from
  high : c.to ≤ n
  removed : c.removed = some []
  updated : c.updated = false
  length : (c.perm.length : Int) = c.to - c.from
  inside : ∀ i, c.from ≤ i → i < c.to → getAt c.perm (i - c.from) = .ok (Rearrangement.targetAll rs i)
  outside : ∀ i, ¬ (c.from ≤ i ∧ i < c.to) → Rearrangement.targetAll rs i = i

/-- What a block of permutations of a list owes its listeners. -/
def PermutationsReported (list : List E) (rs : List (Rearrangement list.length)) : Prop :=
  ∃ s c, permuteAll rs ⟨({} : ListChangeBuilder E).beginChange, none⟩ = .ok s ∧
    s.builder.endChange list = .ok ({}, some ⟨list, [c]⟩) ∧ Composed rs c

theorem Permutes.endChange (h : Permutes n g lo hi held s) (list : List E) :
    ∃ c, s.builder.endChange list = .ok ({}, some ⟨list, [finalizeSubChange c]⟩) ∧ Carries c g ∧
      0 ≤ c.from ∧ c.to ≤ n := by
  obtain ⟨c, hc, hcarries, rfl, rfl⟩ := h.permutation
  refine ⟨c, endChange_fires list h.lock (.inr (.inr (by rw [hc]; rfl))) ?_, hcarries, h.low, h.high⟩
  rw [pending, h.records, h.updates, hc]
  rfl

/-- **A block of permutations is reported as their composition** exactly if each of their ranges
touches or overlaps the smallest range around those before it. -/
theorem permutations_reported_iff (list : List E) (r : Rearrangement list.length)
    (rs : List (Rearrangement list.length)) (hown : Rearrangement.Separate (some r.array) r.lo r.hi rs) :
    PermutationsReported list (r :: rs) ↔ Rearrangement.Touching r.lo r.hi rs := by
  obtain ⟨s₁, hs₁, h₁⟩ := permutes_first r
  have hcons : permuteAll (r :: rs) ⟨({} : ListChangeBuilder E).beginChange, none⟩ = permuteAll rs s₁ := by
    rw [permuteAll_cons, hs₁]
    rfl
  constructor
  · rintro ⟨s, c, hs, -, -⟩
    by_contra hgap
    obtain ⟨e, he⟩ := (h₁.all hown).2 hgap
    rw [hcons, he] at hs
    cases hs
  · intro htouching
    obtain ⟨s, lo, hi, held, hs, h⟩ := (h₁.all hown).1 htouching
    obtain ⟨c, hend, hcarries, hlow, hhigh⟩ := h.endChange list
    refine ⟨s, finalizeSubChange c, hcons.trans hs, hend, ?_⟩
    refine ⟨hlow, hhigh, ?_, hcarries.updated, hcarries.length, hcarries.inside, hcarries.outside⟩
    rw [finalizeSubChange, SubChange.getRemoved, hcarries.removed]
    rfl

/-- The first two and the last two of five elements change places. -/
def firstTwo : Rearrangement 5 where
  lo := 0
  hi := 2
  perm := [1, 0]
  le := by decide
  length := by decide
  range := by decide
  array := 0
  low := by decide
  high := by decide
  nodup := by decide

def lastTwo : Rearrangement 5 where
  lo := 3
  hi := 5
  perm := [4, 3]
  le := by decide
  length := by decide
  range := by decide
  array := 1
  low := by decide
  high := by decide
  nodup := by decide

/-- The last two of three elements change places. -/
def lastOfThree (n : Nat) (h : 3 ≤ n) : Rearrangement n where
  lo := 0
  hi := 3
  perm := [0, 2, 1]
  le := by decide
  length := by decide
  range := by decide
  array := 2
  low := by decide
  high := by omega
  nodup := by decide

/-- Three elements change places in a circle. -/
def circle (n : Nat) (h : 3 ≤ n) : Rearrangement n where
  lo := 0
  hi := 3
  perm := [1, 2, 0]
  le := by decide
  length := by decide
  range := by decide
  array := 3
  low := by decide
  high := by omega
  nodup := by decide

/-- Two permutations of one range, one of a range that touches it, and the first array again. -/
theorem permutations_reported_again : PermutationsReported [1, 2, 3, 4, 5]
    [circle 5 (by decide), lastOfThree 5 (by decide), lastTwo, circle 5 (by decide)] :=
  (permutations_reported_iff _ _ _ (by simp [Rearrangement.Separate, circle, lastOfThree, lastTwo])).mpr
    ⟨by decide, by decide, by decide, by decide, by decide, by decide, trivial⟩

/-- There is no entry for the element between two ranges, and an array that is passed twice is
followed by what has been written into it already. -/
theorem permutations_apart : ¬ PermutationsReported [1, 2, 3, 4, 5] [firstTwo, lastTwo] ∧
    ¬ PermutationsReported [1, 2, 3] [circle 3 (by decide), circle 3 (by decide)] := by
  constructor
  · rintro ⟨s, c, hs, -, -⟩
    cases hs
  · rintro ⟨s, c, hs, hend, hcomposed⟩
    cases hs
    cases hend
    exact absurd (hcomposed.inside 2 (by decide) (by decide)) (by decide)

end ListChangeBuilder

end JavaFX
