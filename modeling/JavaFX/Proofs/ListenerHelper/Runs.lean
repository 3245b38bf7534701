/-
What adding and removing listeners does to a helper as a whole.

The arrays that somebody may have saved stay intact, but for the one that is shifted.  A
locked helper never shifts any.
-/
import JavaFX.Proofs.ListenerHelper.Arrays

namespace JavaFX.Property

open List

variable {L V : Type}

/-! ### The helper -/

/-- The `Generic` object that is in use. -/
def Current (s : Property L V) (g : Generic V) : Prop :=
  ∃ ref, s.helper = .generic ref ∧ s.generics[ref]? = some g

/-- The helper holds what it should. -/
structure HelperValid (s : Property L V) : Prop where
  invalidation : ∀ l, s.helper = .singleInvalidation l → l.isSome
  change : ∀ l v, s.helper = .singleChange l v → l.isSome
  generic : ∀ ref, s.helper = .generic ref → ∃ g, s.generics[ref]? = some g
  valid : ∀ g, s.Current g → ∀ kind, (g.listeners kind).Valid s.heap
  apart : ∀ g, s.Current g → ∀ kind ref, (g.listeners kind).array = some ref → (g.listeners kind.other).array ≠ some ref

/-- The helper does not hold fewer than `n` listeners in the array. -/
def Holds (s : Property L V) (ref n : Nat) : Prop :=
  ∀ g, s.Current g → ∀ kind, (g.listeners kind).array = some ref → n ≤ (g.listeners kind).size

/-- What stands in the array stays, as far as the helper holds it. -/
def Intact (s s' : Property L V) (ref : Nat) : Prop :=
  ∀ n, ref < s.heap.length → s.Holds ref n →
    ref < s'.heap.length ∧ (s'.heap.getD ref []).take n = (s.heap.getD ref []).take n ∧ s'.Holds ref n

@[simp] theorem listeners_setListeners (g : Generic V) (kind kind' : Kind) (a : Listeners) :
    (g.setListeners kind a).listeners kind' = if kind' = kind then a else g.listeners kind' := by
  cases kind <;> cases kind' <;> rfl

theorem Kind.other_ne (kind : Kind) : kind.other ≠ kind := by cases kind <;> simp [Kind.other]

theorem Kind.eq_or_other (kind kind' : Kind) : kind' = kind ∨ kind' = kind.other := by
  cases kind <;> cases kind' <;> simp [Kind.other]

variable {s : Property L V}

variable {kind : Kind} {g : Generic V} {ref : Nat} {x l0 : Option L}

@[simp] theorem Kind.other_other (kind : Kind) : kind.other.other = kind := by cases kind <;> rfl

theorem helperValid_single {l : Option L} (hl : l.isSome) : HelperValid { s with helper := s.single kind l } := by
  cases kind with
  | invalidation =>
    refine ⟨?_, ?_, ?_, ?_, ?_⟩
    · intro l' hl'
      simp only [single, Helper.singleInvalidation.injEq] at hl'
      exact hl' ▸ hl
    · intro l' v hl'; simp [single] at hl'
    · intro ref href; simp [single] at href
    · rintro g ⟨ref, href, -⟩; simp [single] at href
    · rintro g ⟨ref, href, -⟩; simp [single] at href
  | change =>
    refine ⟨?_, ?_, ?_, ?_, ?_⟩
    · intro l' hl'; simp [single] at hl'
    · intro l' v hl'
      simp only [single, Helper.singleChange.injEq] at hl'
      exact hl'.1 ▸ hl
    · intro ref href; simp [single] at href
    · rintro g ⟨ref, href, -⟩; simp [single] at href
    · rintro g ⟨ref, href, -⟩; simp [single] at href

/-- With another helper, which is no `Generic` object, the arrays are left alone. -/
theorem intact_helper (s : Property L V) {helper : Helper L V} (hno : ∀ ref, helper ≠ .generic ref)
    (r : Nat) : Intact s { s with helper := helper } r := by
  intro n hr _
  refine ⟨hr, rfl, ?_⟩
  rintro g ⟨ref, href, -⟩
  exact absurd href (hno ref)

theorem single_ne_generic (s : Property L V) (kind : Kind) (l : Option L) (ref : Nat) :
    s.single kind l ≠ .generic ref := by cases kind <;> simp [single]

theorem generic_new {s' : Property L V} (more : Heap L)
    (hheap : s'.heap = s.heap ++ more) (hhelper : s'.helper = .generic s.generics.length)
    (hgen : s'.generics = s.generics ++ [g]) (hvalid : ∀ kind, (g.listeners kind).Valid s'.heap)
    (hnew : ∀ kind ref, (g.listeners kind).array = some ref → s.heap.length ≤ ref)
    (hapart : ∀ kind ref, (g.listeners kind).array = some ref → (g.listeners kind.other).array ≠ some ref) :
    HelperValid s' ∧ ∀ r, Intact s s' r := by
  have hcurrent : ∀ g', s'.Current g' → g' = g := by
    rintro g' ⟨ref, href, hg'⟩
    rw [hhelper] at href
    obtain rfl : s.generics.length = ref := by simpa using href
    rw [hgen] at hg'
    simpa using hg'.symm
  refine ⟨⟨?_, ?_, ?_, ?_, ?_⟩, ?_⟩
  · intro l hl; rw [hhelper] at hl; simp at hl
  · intro l v hl; rw [hhelper] at hl; simp at hl
  · intro ref href
    rw [hhelper] at href
    obtain rfl : s.generics.length = ref := by simpa using href
    exact ⟨g, by rw [hgen]; simp⟩
  · intro g' hg' kind
    rw [hcurrent g' hg']
    exact hvalid kind
  · intro g' hg' kind
    rw [hcurrent g' hg']
    exact hapart kind
  · intro r n hr _
    refine ⟨by rw [hheap]; simp; omega, by rw [hheap, Listeners.getD_append_left hr], ?_⟩
    intro g' hg' kind harr
    rw [hcurrent g' hg'] at harr
    have := hnew kind r harr
    omega

theorem generic_edited (s' : Property L V) {g' : Generic V}
    {heap' : Heap L} {a' : Listeners} {shifts : Bool} (hs : HelperValid s)
    (hhelper : s.helper = .generic ref) (hg : s.generics[ref]? = some g)
    (hedit : Listeners.Edited shifts s.heap (g.listeners kind) heap' a')
    (hheap : s'.heap = heap') (hhelper' : s'.helper = s.helper)
    (hgen : s'.generics = s.generics.set ref g')
    (hlisteners : ∀ k, g'.listeners k = if k = kind then a' else g.listeners k) :
    HelperValid s' ∧ ∀ r, (shifts = true → (g.listeners kind).array ≠ some r) → Intact s s' r := by
  have href : ref < s.generics.length := (List.getElem?_eq_some_iff.mp hg).1
  have hcur : s.Current g := ⟨ref, hhelper, hg⟩
  have hcurrent : ∀ g'', s'.Current g'' → g'' = g' := by
    rintro g'' ⟨ref', href', hg''⟩
    rw [hhelper', hhelper] at href'
    obtain rfl : ref = ref' := by simpa using href'
    rw [hgen, getElem?_set_self href] at hg''
    exact (Option.some.inj hg'').symm
  have hsame : ∀ k r, k ≠ kind → (g.listeners k).array = some r →
      r < s.heap.length ∧ (g.listeners kind).array ≠ some r := by
    intro k r hk hr
    refine ⟨(hs.valid g hcur k).exists_array r hr, ?_⟩
    rcases Kind.eq_or_other kind k with rfl | rfl
    · exact absurd rfl hk
    · have := hs.apart g hcur kind.other r hr
      simpa using this
  refine ⟨⟨?_, ?_, ?_, ?_, ?_⟩, ?_⟩
  · intro l hl; rw [hhelper', hhelper] at hl; simp at hl
  · intro l v hl; rw [hhelper', hhelper] at hl; simp at hl
  · intro ref' href'
    rw [hhelper', hhelper] at href'
    obtain rfl : ref = ref' := by simpa using href'
    exact ⟨g', by rw [hgen, getElem?_set_self href]⟩
  · intro g'' hg'' k
    rw [hcurrent g'' hg'', hlisteners k, hheap]
    by_cases hk : k = kind
    · rw [if_pos hk]
      exact hedit.valid
    · rw [if_neg hk]
      have hv := hs.valid g hcur k
      have hslots : (g.listeners k).slots heap' = (g.listeners k).slots s.heap := by
        unfold Listeners.slots
        cases harr : (g.listeners k).array with
        | none => rfl
        | some r =>
          obtain ⟨hlt, hne⟩ := hsame k r hk harr
          exact hedit.others r hlt hne
      refine ⟨fun r hr => Nat.lt_of_lt_of_le (hv.exists_array r hr) hedit.grows, ?_, ?_⟩
      · rw [hslots]; exact hv.size_le
      · rw [hslots]; exact hv.all_some
  · intro g'' hg'' k r hr hr'
    rw [hcurrent g'' hg'', hlisteners] at hr hr'
    rcases Kind.eq_or_other kind k with rfl | rfl
    · rw [if_pos rfl] at hr
      rw [if_neg (Kind.other_ne k)] at hr'
      obtain ⟨hlt, hne⟩ := hsame k.other r (Kind.other_ne k) hr'
      rcases hedit.array r hr with hge | ⟨hsame', -⟩
      · omega
      · exact hne hsame'
    · rw [if_neg (Kind.other_ne kind)] at hr
      rw [Kind.other_other, if_pos rfl] at hr'
      obtain ⟨hlt, hne⟩ := hsame kind.other r (Kind.other_ne kind) hr
      rcases hedit.array r hr' with hge | ⟨hsame', -⟩
      · omega
      · exact hne hsame'
  · intro r hshift n hr hholds
    rw [hheap]
    refine ⟨Nat.lt_of_lt_of_le hr hedit.grows, ?_, ?_⟩
    · by_cases harr : (g.listeners kind).array = some r
      · have hno : shifts = false := by
          cases hsh : shifts with
          | false => rfl
          | true => exact absurd harr (hshift hsh)
        exact hedit.own hno r harr n (hholds g hcur kind harr)
      · rw [hedit.others r hr harr]
    · intro g'' hg'' k hk
      rw [hcurrent g'' hg'', hlisteners] at hk ⊢
      by_cases hkk : k = kind
      · rw [if_pos hkk] at hk ⊢
        rcases hedit.array r hk with hge | ⟨harr, hle⟩
        · omega
        · have hno : shifts = false := by
            cases hsh : shifts with
            | false => rfl
            | true => exact absurd harr (hshift hsh)
          exact Nat.le_trans (hholds g hcur kind harr) (hle hno)
      · rw [if_neg hkk] at hk ⊢
        exact hholds g hcur k hk

/-! ### Listeners come and go -/

theorem single_isSome {heap : Heap L} {a : Listeners} (hv : a.Valid heap) {i : Nat}
    (hi : i < a.size) : ((a.slots heap)[i]?).join.isSome := by
  have hlt : i < (a.slots heap).length := Nat.lt_of_lt_of_le hi hv.size_le
  have hmem : (a.slots heap)[i] ∈ (a.slots heap).take a.size :=
    List.mem_take_iff_getElem.mpr ⟨i, by omega, rfl⟩
  rw [getElem?_eq_getElem hlt]
  exact hv.all_some _ hmem

theorem valid_pair (heap : Heap L) {y : Option L} (hx : x.isSome) (hy : y.isSome) :
    (⟨some heap.length, 2⟩ : Listeners).Valid (heap ++ [[x, y]]) := by
  have hslots : (⟨some heap.length, 2⟩ : Listeners).slots (heap ++ [[x, y]]) = [x, y] :=
    Listeners.getD_append_last _ _
  refine ⟨fun ref href => ?_, by rw [hslots]; simp, ?_⟩
  · obtain rfl : heap.length = ref := Option.some.inj href
    simp
  · rw [hslots]
    intro z hz
    simp at hz
    rcases hz with rfl | rfl
    · exact hx
    · exact hy

theorem valid_one (heap : Heap L) (hx : x.isSome) (href : ref < heap.length) (hget : heap.getD ref [] = [x]) :
    (⟨some ref, 1⟩ : Listeners).Valid heap := by
  have hslots : (⟨some ref, 1⟩ : Listeners).slots heap = [x] := hget
  refine ⟨fun ref' href' => ?_, by rw [hslots]; simp, ?_⟩
  · obtain rfl : ref = ref' := Option.some.inj href'
    exact href
  · rw [hslots]
    intro z hz
    obtain rfl : z = x := by simpa using hz
    exact hx

theorem valid_empty (heap : Heap L) : ({} : Listeners).Valid heap :=
  ⟨fun _ h => by simp at h, Nat.zero_le _, fun x hx => by simp at hx⟩

theorem genericOfSame_spec (s : Property L V) (kind : Kind) (h0 : l0.isSome)
    (l1 : L) : HelperValid (s.genericOfSame kind l0 l1) ∧ ∀ r, Intact s (s.genericOfSame kind l0 l1) r := by
  refine generic_new [[l0, some l1]] rfl rfl rfl ?_ ?_ ?_
  · intro k
    rw [listeners_setListeners]
    split
    · exact valid_pair s.heap h0 rfl
    · cases k <;> exact valid_empty _
  · intro k ref href
    rw [listeners_setListeners] at href
    split at href
    · obtain rfl : s.heap.length = ref := Option.some.inj href
      exact Nat.le_refl _
    · cases k <;> simp [Generic.listeners] at href
  · intro k ref href
    rw [listeners_setListeners] at href ⊢
    split at href
    · rename_i hk
      rw [if_neg (by rw [hk]; exact Kind.other_ne kind)]
      cases k <;> simp [Generic.listeners, Kind.other]
    · cases k <;> simp [Generic.listeners] at href

theorem genericOfBoth_spec (s : Property L V) {l1 : Option L} (h0 : l0.isSome)
    (h1 : l1.isSome) : HelperValid (s.genericOfBoth l0 l1) ∧ ∀ r, Intact s (s.genericOfBoth l0 l1) r := by
  refine generic_new [[l0], [l1]] rfl rfl rfl ?_ ?_ ?_
  · intro k
    cases k with
    | invalidation =>
      refine valid_one _ h0 (by simp [genericOfBoth]) ?_
      simp [genericOfBoth]
    | change =>
      refine valid_one _ h1 (by simp [genericOfBoth]) ?_
      simp [genericOfBoth]
  · intro k ref href
    cases k with
    | invalidation =>
      obtain rfl : s.heap.length = ref := Option.some.inj href
      exact Nat.le_refl _
    | change =>
      obtain rfl : s.heap.length + 1 = ref := Option.some.inj href
      omega
  · intro k ref href hother
    cases k with
    | invalidation =>
      obtain rfl : s.heap.length = ref := Option.some.inj href
      have : s.heap.length + 1 = s.heap.length := Option.some.inj hother
      omega
    | change =>
      obtain rfl : s.heap.length + 1 = ref := Option.some.inj href
      have : s.heap.length = s.heap.length + 1 := Option.some.inj hother
      omega

section
variable [DecidableEq L] [DecidableEq V]

/-- The array whose listeners a step moves within it. -/
def shifted (s : Property L V) : Action L V → Option Nat
  | .addListener kind _ collected =>
    match s.helper with
    | .generic ref =>
      match s.generics[ref]? with
      | some g =>
        if (g.listeners kind).trims collected g.locked s.heap then (g.listeners kind).array else none
      | none => none
    | _ => none
  | .removeListener kind listener =>
    match s.helper with
    | .generic ref =>
      match s.generics[ref]? with
      | some g =>
        if !g.locked && ((g.listeners kind).indexOf listener s.heap).isSome &&
          !decide ((g.listeners kind).size = 1) &&
            !decide ((g.listeners kind).size = 2 ∧ (g.listeners kind.other).size = 0) then
          (g.listeners kind).array
        else none
      | none => none
    | _ => none
  | _ => none

omit [DecidableEq V] in
/-- **Adding a listener** leaves the arrays intact that it does not shift. -/
theorem addListener_spec {s : Property L V} (hs : HelperValid s) (kind : Kind) (l : L) (collected : L → Bool) :
    HelperValid (s.addListener kind l collected) ∧ ∀ r, s.shifted (.addListener kind l collected) ≠ some r →
        Intact s (s.addListener kind l collected) r := by
  unfold addListener
  cases hh : s.helper with
  | null =>
    exact ⟨helperValid_single rfl, fun r _ => intact_helper s (single_ne_generic s kind (some l)) r⟩
  | singleInvalidation l' =>
    have hl' := hs.invalidation l' hh
    cases kind with
    | invalidation => exact (genericOfSame_spec s .invalidation hl' l).imp id (fun h r _ => h r)
    | change => exact (genericOfBoth_spec s hl' rfl).imp id (fun h r _ => h r)
  | singleChange l' v =>
    have hl' := hs.change l' v hh
    cases kind with
    | invalidation => exact (genericOfBoth_spec s rfl hl').imp id (fun h r _ => h r)
    | change => exact (genericOfSame_spec s .change hl' l).imp id (fun h r _ => h r)
  | generic ref =>
    obtain ⟨g, hg⟩ := hs.generic ref hh
    obtain ⟨hedit, -⟩ := Listeners.add_spec (hs.valid g ⟨ref, hh, hg⟩ kind) collected g.locked l
    simp only [hg]
    obtain ⟨hvalid, hintact⟩ := generic_edited { s with
        heap := ((g.listeners kind).add collected g.locked l s.heap).1
        generics := s.generics.set ref (if kind = .change ∧
            ((g.listeners kind).add collected g.locked l s.heap).2.size = 1 then
          { g.setListeners kind ((g.listeners kind).add collected g.locked l s.heap).2 with
            currentValue := s.value }
          else g.setListeners kind ((g.listeners kind).add collected g.locked l s.heap).2)
        helper := .generic ref }
      hs hh hg hedit rfl hh.symm rfl (by
        intro k
        have hkeep : ∀ (g : Generic V) v, ({ g with currentValue := v } : Generic V).listeners k
            = g.listeners k := fun g v => by cases k <;> rfl
        split
        · rw [hkeep, listeners_setListeners]
        · rw [listeners_setListeners])
    refine ⟨hvalid, fun r hr => hintact r fun hshift harr => hr ?_⟩
    simp [shifted, hh, hg, hshift, harr]

omit [DecidableEq V] in
/-- **Removing a listener** leaves the arrays intact that it does not shift. -/
theorem removeListener_spec {s : Property L V} (hs : HelperValid s) (kind : Kind) (l : L) :
    HelperValid (s.removeListener kind l) ∧
      ∀ r, s.shifted (.removeListener kind l) ≠ some r → Intact s (s.removeListener kind l) r := by
  have hsame : HelperValid s ∧ ∀ r, s.shifted (.removeListener kind l) ≠ some r → Intact s s r :=
    ⟨hs, fun r _ n hr hn => ⟨hr, rfl, hn⟩⟩
  have hnull : HelperValid { s with helper := .null } ∧
      ∀ r, s.shifted (.removeListener kind l) ≠ some r → Intact s { s with helper := .null } r := by
    refine ⟨⟨?_, ?_, ?_, ?_, ?_⟩, fun r _ => intact_helper s (by simp) r⟩
    · intro l hl; simp at hl
    · intro l v hl; simp at hl
    · intro ref href; simp at href
    · rintro g ⟨ref, href, -⟩; simp at href
    · rintro g ⟨ref, href, -⟩; simp at href
  unfold removeListener
  cases hh : s.helper with
  | null => exact hsame
  | singleInvalidation l' =>
    simp only
    split
    · exact hnull
    · exact hsame
  | singleChange l' v =>
    simp only
    split
    · exact hnull
    · exact hsame
  | generic ref =>
    obtain ⟨g, hg⟩ := hs.generic ref hh
    have hcur : s.Current g := ⟨ref, hh, hg⟩
    have hv := hs.valid g hcur
    simp only [hg]
    cases hidx : (g.listeners kind).indexOf l s.heap with
    | none => exact hsame
    | some index =>
      obtain ⟨-, hlt, -⟩ := (hv kind).erase_eq hidx
      have hone : ∀ k i, i < (g.listeners k).size → HelperValid { s with
          helper := s.single k (((g.listeners k).slots s.heap)[i]?).join } ∧
          ∀ r, s.shifted (.removeListener kind l) ≠ some r → Intact s { s with
            helper := s.single k (((g.listeners k).slots s.heap)[i]?).join } r := by
        intro k i hi
        exact ⟨helperValid_single (single_isSome (hv k) hi), fun r _ => intact_helper s (single_ne_generic s k _) r⟩
      simp only
      by_cases h1 : (g.listeners kind).size = 1
      · rw [if_pos h1]
        by_cases h2 : (g.listeners kind.other).size = 1
        · rw [if_pos h2]
          exact hone kind.other 0 (by omega)
        · rw [if_neg h2]
          have hedit : Listeners.Edited false s.heap (g.listeners kind) s.heap {} :=
            ⟨valid_empty _, Nat.le_refl _, fun _ _ _ => rfl, fun _ _ _ _ _ => rfl, fun _ h => by simp at h⟩
          obtain ⟨hvalid, hintact⟩ := generic_edited { s with
              generics := s.generics.set ref (g.setListeners kind {})
              helper := .generic ref }
            hs hh hg hedit rfl hh.symm rfl (fun k => listeners_setListeners g kind k {})
          exact ⟨hvalid, fun r _ => hintact r (by simp)⟩
      · rw [if_neg h1]
        by_cases h2 : (g.listeners kind).size = 2 ∧ (g.listeners kind.other).size = 0
        · rw [if_pos h2]
          exact hone kind (1 - index) (by omega)
        · rw [if_neg h2]
          obtain ⟨hedit, -⟩ := Listeners.removeAt_spec (hv kind) g.locked hlt
          obtain ⟨hvalid, hintact⟩ := generic_edited { s with
              heap := ((g.listeners kind).removeAt g.locked index s.heap).1
              generics := s.generics.set ref (g.setListeners kind ((g.listeners kind).removeAt g.locked index s.heap).2)
              helper := .generic ref }
            hs hh hg hedit rfl hh.symm rfl (fun k => listeners_setListeners g kind k _)
          refine ⟨hvalid, fun r hr => hintact r fun hshift harr => hr ?_⟩
          have hlocked : g.locked = false := by simpa using hshift
          simp only [shifted, hh, hg, hidx, hlocked, harr, h1, h2]
          rfl

end

end JavaFX.Property
