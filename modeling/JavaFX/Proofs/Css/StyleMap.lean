/-
The cascade is built of all styles, each under its property and in order.

The comparator of the style map goes by the property first, then by the cascade, `cascade`.
It compares specificities by their difference, which is right as long as the difference is
an `int`.  Then the comparator is a total order, equal properties are next to each other in
the sorted list, and the loop files each run under a property that is new.  For two selectors
whose specificities are farther apart the order is the wrong one.
-/
import JavaFX.Css.StyleMap
import JavaFX.Proofs.Css.Match
import Mathlib.Data.List.TakeWhile

namespace JavaFX

open AssocList List

/-! ### Comparing -/

theorem compare_sub_zero (a b : Int) : compare (b - a) 0 = compare (-a) (-b) := by
  simp only [Int.compare_eq_ite_lt]
  split_ifs <;> first | rfl | omega

theorem compare_ite_zero (c d : Int) : compare (if c = 0 then d else c) 0 = (compare c 0).then (compare d 0) := by
  by_cases hc : c = 0
  · subst hc
    rfl
  · rw [if_neg hc]
    cases hcompare : compare c 0 with
    | eq => exact absurd (Int.compare_eq_eq.mp hcompare) hc
    | lt => rfl
    | gt => rfl

theorem compare_compareStrings (xs ys : List CodeUnit) : compare (compareStrings xs ys) 0 = compare xs ys := by
  induction xs generalizing ys with
  | nil =>
    cases ys with
    | nil => rfl
    | cons y ys =>
      rw [List.compare_nil_cons, compareStrings, Int.compare_eq_lt]
      simp only [length_cons]
      omega
  | cons x xs ih =>
    cases ys with
    | nil =>
      rw [List.compare_cons_nil, compareStrings, Int.compare_eq_gt]
      · simp only [length_cons]
        omega
      · simp
    | cons y ys =>
      rw [List.compare_cons_cons, compareStrings]
      by_cases hxy : x = y
      · subst hxy
        rw [if_pos rfl, ih, show compare x x = .eq from Std.ReflCmp.compare_self]
        rfl
      · have hne : x.toNat ≠ y.toNat := fun h => hxy (UInt16.toNat_inj.mp h)
        rw [if_neg hxy]
        by_cases hlt : x < y
        · have hlt' := UInt16.lt_iff_toNat_lt.mp hlt
          rw [show compare x y = .lt from if_pos hlt, Int.compare_eq_lt.mpr (by omega)]
          rfl
        · have hlt' := mt UInt16.lt_iff_toNat_lt.mpr hlt
          rw [show compare x y = .gt from (if_neg hlt).trans (if_neg hxy), Int.compare_eq_gt.mpr (by omega)]
          rfl

/-! ### The cascade -/

namespace CascadingStyle

/-- Important ones come first. -/
def importanceRank (s : CascadingStyle) : Nat := if s.declaration.important then 0 else 1

/-- Without an origin first, then from the last origin to the first. -/
def originRank : Option StyleOrigin → Nat
  | none => 0
  | some origin => 4 - origin.ordinal

/-- The cascade: by importance, then by origin, then the more specific one first, and then the
later one first. -/
def cascade : CascadingStyle → CascadingStyle → Ordering :=
  compareLex (compareOn importanceRank) (compareLex (compareOn fun s => originRank s.declaration.origin)
    (compareLex (compareOn fun s => -s.specificity.toInt) (compareOn fun s => -(s.ordinal : Int))))

/-- The properties are kept together. -/
def order : CascadingStyle → CascadingStyle → Ordering := compareLex (compareOn getProperty) cascade

instance : Std.TransCmp cascade :=
  inferInstanceAs (Std.TransCmp (compareLex _ (compareLex _ (compareLex _ _))))

instance : Std.TransCmp order := inferInstanceAs (Std.TransCmp (compareLex _ _))

/-- The difference of two specificities is an `int`. -/
def Near (s s' : CascadingStyle) : Prop :=
  s.specificity.toInt - s'.specificity.toInt < 2 ^ 31 ∧ s'.specificity.toInt - s.specificity.toInt < 2 ^ 31

theorem compare_compareOrigins (source otherSource : Option StyleOrigin) (h : source ≠ otherSource) :
    compare (compareOrigins source otherSource) 0 = compare (originRank source) (originRank otherSource) ∧
      compare (originRank source) (originRank otherSource) ≠ .eq := by
  rcases source with _ | source
  · rcases otherSource with _ | otherSource
    · exact absurd rfl h
    · cases otherSource <;> decide
  · rcases otherSource with _ | otherSource
    · cases source <;> decide
    · cases source <;> cases otherSource <;> first | exact absurd rfl h | decide

variable {s s' : CascadingStyle}

theorem compare_compareTo (hproperty : s.getProperty = s'.getProperty)
    (h : s.Near s') : compare (s.compareTo s') 0 = cascade s s' := by
  have hskin : s.skinProp = s'.skinProp := by rw [skinProp, skinProp, hproperty]
  have hspecificity : (s'.specificity - s.specificity).toInt = s'.specificity.toInt - s.specificity.toInt := by
    obtain ⟨hlt, hlt'⟩ := h
    rw [BitVec.toInt_sub, Int.bmod_eq_of_le]
    · omega
    · omega
  have hskip : ¬(s'.skinProp = true ∧ (!s'.skinProp) = true) := by simp
  unfold compareTo
  simp only [hskin, if_neg hskip, hspecificity, compare_ite_zero, compare_sub_zero, cascade, compareLex, compareOn]
  by_cases himportant : s.declaration.important = s'.declaration.important
  · have hrank : importanceRank s = importanceRank s' := by rw [importanceRank, importanceRank, himportant]
    rw [if_neg (by simp [himportant]), hrank, show compare s'.importanceRank s'.importanceRank = .eq from
      Std.ReflCmp.compare_self, Ordering.eq_then]
    by_cases horigin : s.declaration.origin = s'.declaration.origin
    · rw [if_neg (by simp [horigin]), horigin, show compare (originRank s'.declaration.origin)
        (originRank s'.declaration.origin) = .eq from Std.ReflCmp.compare_self, Ordering.eq_then, compare_sub_zero]
    · obtain ⟨hcompare, hne⟩ := compare_compareOrigins _ _ horigin
      rw [if_pos horigin, hcompare]
      cases hrank' : compare (originRank s.declaration.origin) (originRank s'.declaration.origin) with
      | eq => exact absurd hrank' hne
      | lt => rfl
      | gt => rfl
  · cases hs : s.declaration.important <;> cases hs' : s'.declaration.important <;>
      first | exact absurd (hs.trans hs'.symm) himportant | (simp only [importanceRank, hs, hs']; rfl)

theorem compare_comparator (h : s.Near s') : compare (StyleMap.cascadingStyleComparator s s') 0 = order s s' := by
  unfold StyleMap.cascadingStyleComparator
  simp only [order, compareLex, compareOn]
  by_cases hproperty : s.getProperty = s'.getProperty
  · have hzero : compareStrings s.getProperty s'.getProperty = 0 := by
      rw [← Int.compare_eq_eq, compare_compareStrings, hproperty]
      exact Std.ReflCmp.compare_self
    rw [if_neg (by simp [hzero]), compare_compareTo hproperty h, hproperty,
      show compare s'.getProperty s'.getProperty = .eq from Std.ReflCmp.compare_self, Ordering.eq_then]
  · have hne : compare s.getProperty s'.getProperty ≠ .eq := fun heq =>
      hproperty (Std.LawfulEqCmp.eq_of_compare heq)
    have hne' : compareStrings s.getProperty s'.getProperty ≠ 0 := by
      intro hzero
      rw [← compare_compareStrings, hzero] at hne
      exact hne rfl
    rw [if_pos hne', compare_compareStrings]
    cases hcompare : compare s.getProperty s'.getProperty with
    | eq => exact absurd hcompare hne
    | lt => rfl
    | gt => rfl

theorem isLE_order (h : s'.Near s) :
    decide (0 ≤ StyleMap.cascadingStyleComparator s' s) = (order s s').isLE := by
  have hcompare := compare_comparator h
  have hswap : order s' s = (order s s').swap := Std.OrientedCmp.eq_swap
  rw [hswap] at hcompare
  by_cases hnonneg : 0 ≤ StyleMap.cascadingStyleComparator s' s
  · rw [decide_eq_true hnonneg]
    cases hord : order s s' with
    | lt => rfl
    | eq => rfl
    | gt =>
      rw [hord] at hcompare
      have := Int.compare_eq_lt.mp hcompare
      omega
  · rw [decide_eq_false hnonneg]
    rw [Int.compare_eq_lt.mpr (by omega)] at hcompare
    cases hord : order s s' with
    | lt =>
      rw [hord] at hcompare
      simp at hcompare
    | eq =>
      rw [hord] at hcompare
      simp at hcompare
    | gt => rfl

end CascadingStyle

/-! ### Filing -/

namespace StyleMap

open CascadingStyle

/-- What has been filed so far. -/
structure Filed (map : CascadingStyles) : Prop where
  nodup : (keys map).Nodup
  property : ∀ e ∈ map, ∀ s ∈ e.2, s.getProperty = e.1

/-- Sorted by property. -/
def ByProperty (styles : List CascadingStyle) : Prop :=
  styles.Pairwise fun s s' => (compare s.getProperty s'.getProperty).isLE = true

/-- After the run of a property, it does not come up again. -/
theorem ByProperty.not_again {style : CascadingStyle} {styles : List CascadingStyle}
    (h : ByProperty (style :: styles)) :
    ∀ s ∈ styles.dropWhile (·.getProperty = style.getProperty), s.getProperty ≠ style.getProperty := by
  obtain ⟨hhead, htail⟩ := List.pairwise_cons.mp h
  have hsuffix := dropWhile_suffix (l := styles) fun s => decide (s.getProperty = style.getProperty)
  have hfirst := head?_dropWhile_not (fun s => decide (s.getProperty = style.getProperty)) styles
  cases hrest : styles.dropWhile (·.getProperty = style.getProperty) with
  | nil => simp
  | cons first rest =>
    rw [hrest] at hfirst hsuffix
    have hne : first.getProperty ≠ style.getProperty := by simpa using hfirst
    have hsorted := List.pairwise_cons.mp (htail.sublist hsuffix.sublist)
    intro s hs heq
    rcases List.mem_cons.mp hs with rfl | hlater
    · exact hne heq
    · -- `style ≤ first ≤ s` and `s` has the property of `style`, so `first` has it, too.
      have hle := hhead first (hsuffix.subset mem_cons_self)
      have hge := hsorted.1 s hlater
      rw [heq] at hge
      exact hne (Std.LawfulEqCmp.eq_of_compare (Std.OrientedCmp.isLE_antisymm hge hle))

theorem group_spec : ∀ (n : Nat) (styles : List CascadingStyle) (map : CascadingStyles),
    styles.length ≤ n → ByProperty styles → Filed map →
    (∀ s ∈ styles, s.getProperty ∉ keys map) →
    ∃ map', (∀ fuel, n < fuel → group fuel styles map = some map') ∧ Filed map' ∧
      map'.flatMap (·.2) = map.flatMap (·.2) ++ styles := by
  intro n
  induction n with
  | zero =>
    intro styles map hlength _ hfiled _
    obtain rfl := List.length_eq_zero_iff.mp (Nat.le_zero.mp hlength)
    refine ⟨map, fun fuel hfuel => ?_, hfiled, by simp⟩
    obtain ⟨fuel, rfl⟩ := Nat.exists_eq_add_one_of_ne_zero (Nat.ne_zero_of_lt hfuel)
    rfl
  | succ n ih =>
    intro styles map hlength hsorted hfiled hnew
    cases styles with
    | nil =>
      refine ⟨map, fun fuel hfuel => ?_, hfiled, by simp⟩
      obtain ⟨fuel, rfl⟩ := Nat.exists_eq_add_one_of_ne_zero (Nat.ne_zero_of_lt hfuel)
      rfl
    | cons style styles =>
      let rest := styles.dropWhile (·.getProperty = style.getProperty)
      let same := styles.takeWhile (·.getProperty = style.getProperty)
      have hsuffix : rest <:+ styles := dropWhile_suffix _
      have hkey : style.getProperty ∉ keys map := hnew style mem_cons_self
      have hfiled' : Filed (map ++ [(style.getProperty, style :: same)]) := by
        refine ⟨?_, ?_⟩
        · simp only [AssocList.keys, map_append, map_cons]
          exact List.nodup_append.mpr ⟨hfiled.nodup, by simp, by
            intro k hk k' hk'
            obtain rfl := List.mem_singleton.mp hk'
            exact fun heq => hkey (heq ▸ hk)⟩
        · intro e he s hs
          rcases List.mem_append.mp he with hold | hadded
          · exact hfiled.property e hold s hs
          · obtain rfl := List.mem_singleton.mp hadded
            rcases List.mem_cons.mp hs with rfl | hsame
            · rfl
            · simpa using mem_takeWhile_imp hsame
      have hnew' : ∀ s ∈ rest, s.getProperty ∉ keys (map ++ [(style.getProperty, style :: same)]) := by
        intro s hs
        simp only [AssocList.keys, map_append, map_cons, map_nil, mem_append, mem_singleton, not_or]
        exact ⟨hnew s (mem_cons_of_mem _ (hsuffix.subset hs)), hsorted.not_again s hs⟩
      have hlength' : rest.length ≤ n := by
        have := hsuffix.length_le
        simp only [length_cons] at hlength
        omega
      obtain ⟨map', hgroup, hfiled'', hall⟩ := ih rest _ hlength'
        (hsorted.sublist (hsuffix.sublist.cons style)) hfiled' hnew'
      refine ⟨map', fun fuel hfuel => ?_, hfiled'', ?_⟩
      · obtain ⟨fuel, rfl⟩ := Nat.exists_eq_add_one_of_ne_zero (Nat.ne_zero_of_lt hfuel)
        have hget : get style.getProperty map = none := by
          rw [← Option.not_isSome_iff_eq_none, ← mem_keys_iff]
          exact hkey
        simp only [group, hget]
        exact hgroup fuel (by omega)
      · rw [hall]
        simp [same, rest]

end StyleMap

namespace StyleMap

open CascadingStyle

/-! ### All styles -/

/-- The declarations of the rules, once for each selector. -/
def declared (selectors : List RuleSelector) : List (Selector × Declaration) :=
  selectors.flatMap fun m => m.declarations.map fun decl => (m.selector, decl)

theorem declared_cons (m : RuleSelector) (selectors : List RuleSelector) :
    declared (m :: selectors) = m.declarations.map (fun decl => (m.selector, decl)) ++ declared selectors := rfl

theorem createStyles_eq (selectors : List RuleSelector) (ordinal : Nat) : createStyles selectors ordinal =
      (declared selectors).mapIdx fun k x => CascadingStyle.create x.1 x.2 (ordinal + k) := by
  induction selectors generalizing ordinal with
  | nil => rfl
  | cons m selectors ih =>
    have hfirst : (m.declarations.map fun decl => (m.selector, decl)).mapIdx
        (fun k x => CascadingStyle.create x.1 x.2 (ordinal + k)) =
          m.declarations.mapIdx fun d decl => CascadingStyle.create m.selector decl (ordinal + d) := by
      apply ext_getElem
      · simp
      · simp
    rw [createStyles, ih, declared_cons, mapIdx_append, hfirst, length_map]
    congr 2
    funext k x
    rw [Nat.add_assoc, Nat.add_comm k]

variable {selectors : List RuleSelector} {s : CascadingStyle}

theorem mem_createStyles (h : s ∈ createStyles selectors 0) :
    (declared selectors)[s.ordinal]? = some (s.selector, s.declaration) ∧
      s = CascadingStyle.create s.selector s.declaration s.ordinal := by
  rw [createStyles_eq] at h
  obtain ⟨k, hk, rfl⟩ := List.mem_mapIdx.mp h
  refine ⟨?_, rfl⟩
  simp [CascadingStyle.create]

theorem pairwise_createStyles (selectors : List RuleSelector) :
    (createStyles selectors 0).Pairwise fun s s' => s.ordinal ≠ s'.ordinal := by
  rw [createStyles_eq, pairwise_iff_getElem]
  intro i j hi hj hlt
  simp only [getElem_mapIdx, CascadingStyle.create]
  omega

theorem map_createStyles (selectors : List RuleSelector) :
    (createStyles selectors 0).map (fun s => (s.selector, s.declaration)) = declared selectors := by
  rw [createStyles_eq]
  apply ext_getElem
  · simp
  · intro k h₁ h₂
    simp [CascadingStyle.create]

/-! ### The cascade is built -/

/-- What the map of the styles has to be. -/
structure Cascades (selectors : List RuleSelector) (map : CascadingStyles) : Prop where
  filed : Filed map
  complete : ((map.flatMap (·.2)).map fun s => (s.selector, s.declaration)).Perm (declared selectors)
  created : ∀ e ∈ map, ∀ s ∈ e.2, (declared selectors)[s.ordinal]? = some (s.selector, s.declaration) ∧
    s = CascadingStyle.create s.selector s.declaration s.ordinal
  sorted : ∀ e ∈ map, e.2.Pairwise fun s s' => cascade s s' = .lt

/-- The call returns such a map, however much fuel there is beyond enough. -/
def BuildsCascade (selectors : List RuleSelector) : Prop :=
  ∃ map, (∃ enough, ∀ fuel, enough < fuel →
    ∃ m, getCascadingStyles fuel { selectors := some selectors } = some (map, m)) ∧ Cascades selectors map

/-- The specificities of two selectors are less than 2 ^ 31 apart. -/
def NearSelectors (a b : Selector) : Prop :=
  a.createMatch.specificity.toInt - b.createMatch.specificity.toInt < 2 ^ 31 ∧
    b.createMatch.specificity.toInt - a.createMatch.specificity.toInt < 2 ^ 31

theorem near_of_mem {S : Selector → Prop}
    (hS : ∀ a b, S a → S b → NearSelectors a b) (hselectors : ∀ m ∈ selectors, S m.selector)
    {s' : CascadingStyle} (hs : s ∈ createStyles selectors 0) (hs' : s' ∈ createStyles selectors 0) :
    s.Near s' := by
  have hmem : ∀ s ∈ createStyles selectors 0, S s.selector ∧ s.specificity = s.selector.createMatch.specificity := by
    intro s hs
    obtain ⟨hdeclared, hcreated⟩ := mem_createStyles hs
    obtain ⟨m, hm, hx⟩ := List.mem_flatMap.mp (mem_of_getElem? hdeclared)
    obtain ⟨decl, -, heq⟩ := List.mem_map.mp hx
    refine ⟨?_, by rw [hcreated]; rfl⟩
    rw [← (Prod.mk.inj heq).1]
    exact hselectors m hm
  obtain ⟨hSs, heq⟩ := hmem s hs
  obtain ⟨hSs', heq'⟩ := hmem s' hs'
  unfold Near
  rw [heq, heq']
  exact hS _ _ hSs hSs'

variable {styles : List CascadingStyle}

theorem sort_eq (h : ∀ s ∈ styles, ∀ s' ∈ styles, s.Near s') :
    sort styles = styles.mergeSort fun s s' => (order s s').isLE := by
  have hsame := map_mergeSort (f := id) (s := fun s s' => (order s s').isLE)
    (fun a ha b hb => isLE_order (h b hb a ha))
  rw [sort]
  simpa using hsame

theorem sorted_sort (h : ∀ s ∈ styles, ∀ s' ∈ styles, s.Near s') :
    (sort styles).Pairwise fun s s' => (order s s').isLE = true := by
  rw [sort_eq h]
  apply pairwise_mergeSort
  · exact fun a b c => Std.TransCmp.isLE_trans
  · intro a b
    rw [show order b a = (order a b).swap from Std.OrientedCmp.eq_swap]
    cases order a b <;> simp

theorem order_lt_of_property {s' : CascadingStyle} (h : (order s s').isLE = true)
    (hproperty : s.getProperty = s'.getProperty) (hordinal : s.ordinal ≠ s'.ordinal) : cascade s s' = .lt := by
  have hle : (cascade s s').isLE = true := by
    simpa [order, compareLex, compareOn, hproperty] using h
  have hne : cascade s s' ≠ .eq := by
    intro heq
    simp only [cascade, compareLex_eq_eq, compareOn, Int.compare_eq_eq] at heq
    omega
  cases hcascade : cascade s s' with
  | lt => rfl
  | eq => exact absurd hcascade hne
  | gt => simp [hcascade] at hle

theorem returns_of_group {fuel : Nat} {map : CascadingStyles}
    (h : group fuel (sort (createStyles selectors 0)) [] = some map) :
    ∃ m, getCascadingStyles fuel { selectors := some selectors } = some (map, m) := by
  by_cases hempty : (createStyles selectors 0).isEmpty
  · have hmap : map = [] := by
      rw [List.isEmpty_iff.mp hempty, sort, mergeSort_nil] at h
      cases fuel with
      | zero => simp [group] at h
      | succ fuel => exact (Option.some.inj h).symm
    subst hmap
    unfold getCascadingStyles
    cases selectors with
    | nil => exact ⟨_, rfl⟩
    | cons m selectors =>
      simp only [hempty]
      exact ⟨_, rfl⟩
  · unfold getCascadingStyles
    cases selectors with
    | nil => exact absurd rfl hempty
    | cons m selectors =>
      simp only [hempty, h]
      exact ⟨_, rfl⟩

theorem buildsCascade_of_near
    (h : ∀ s ∈ createStyles selectors 0, ∀ s' ∈ createStyles selectors 0, s.Near s') : BuildsCascade selectors := by
  have hperm : (sort (createStyles selectors 0)).Perm (createStyles selectors 0) := mergeSort_perm _ _
  have hsorted := sorted_sort h
  have hdistinct : (sort (createStyles selectors 0)).Pairwise fun s s' => s.ordinal ≠ s'.ordinal :=
    (pairwise_createStyles selectors).perm hperm.symm fun hne => hne.symm
  have hbyProperty : ByProperty (sort (createStyles selectors 0)) := by
    apply hsorted.imp
    intro s s' hle
    exact Ordering.isLE_left_of_isLE_then hle
  obtain ⟨map, hgroup, hfiled, hall⟩ := group_spec _ (sort (createStyles selectors 0)) [] (Nat.le_refl _)
    hbyProperty ⟨by simp [AssocList.keys], by simp⟩ (by simp [AssocList.keys])
  simp only [flatMap_nil, nil_append] at hall
  have hpieces : ∀ e ∈ map, e.2.Sublist (sort (createStyles selectors 0)) := by
    intro e he
    rw [← hall]
    exact sublist_flatten_of_mem (mem_map_of_mem he)
  refine ⟨map, ⟨_, fun fuel hfuel => returns_of_group (hgroup fuel hfuel)⟩, hfiled, ?_, ?_, ?_⟩
  · rw [hall, ← map_createStyles]
    exact hperm.map _
  · intro e he s hs
    exact mem_createStyles (hperm.subset ((hpieces e he).subset hs))
  · intro e he
    have hboth := ((hsorted.and hdistinct).sublist (hpieces e he))
    refine hboth.imp_of_mem ?_
    rintro s s' hs hs' ⟨hle, hne⟩
    exact order_lt_of_property hle ((hfiled.property e he s hs).trans (hfiled.property e he s' hs').symm) hne

end StyleMap

namespace StyleMap

open CascadingStyle

/-! ### Specificities that are too far apart -/

/-- A declaration of some property. -/
def plain : Declaration := { property := [] }

theorem compareTo_of_same {s s' : CascadingStyle} (h : s.declaration = s'.declaration)
    (hne : (s'.specificity - s.specificity).toInt ≠ 0) :
    s.compareTo s' = (s'.specificity - s.specificity).toInt := by
  have hskin : s.skinProp = s'.skinProp := by rw [skinProp, skinProp, getProperty, getProperty, h]
  have hskip : ¬(s'.skinProp = true ∧ (!s'.skinProp) = true) := by simp
  unfold compareTo
  simp only [hskin, if_neg hskip, h, ne_eq, not_true_eq_false, if_false, if_neg hne]

theorem sort_pair {s s' : CascadingStyle} (h : cascadingStyleComparator s' s < 0) : sort [s, s'] = [s', s] := by
  have hle : decide (0 ≤ cascadingStyleComparator s' s) = false := decide_eq_false (by omega)
  simp [sort, mergeSort, hle]

/-- The less specific of two selectors that are too far apart comes first. -/
theorem not_buildsCascade {a b : Selector}
    (h : 2 ^ 31 ≤ a.createMatch.specificity.toInt - b.createMatch.specificity.toInt) :
    ¬BuildsCascade [⟨a, [plain]⟩, ⟨b, [plain]⟩] := by
  rintro ⟨map, ⟨enough, hreturns⟩, hcascades⟩
  have hlt := BitVec.toInt_lt (x := a.createMatch.specificity)
  have hge := BitVec.le_toInt (x := b.createMatch.specificity)
  have hwraps : (a.createMatch.specificity - b.createMatch.specificity).toInt < 0 := by
    rw [BitVec.toInt_sub, Int.bmod_def]
    split <;> omega
  have hfirst : cascadingStyleComparator (CascadingStyle.create b plain 1) (CascadingStyle.create a plain 0) < 0 := by
    have hcompare : (CascadingStyle.create b plain 1).compareTo (CascadingStyle.create a plain 0) =
        (a.createMatch.specificity - b.createMatch.specificity).toInt :=
      compareTo_of_same rfl (Int.ne_of_lt hwraps)
    exact hcompare.trans_lt hwraps
  obtain ⟨m, hmap⟩ := hreturns (enough + 2) (by omega)
  have hsorted : sort (createStyles [⟨a, [plain]⟩, ⟨b, [plain]⟩] 0) =
      [CascadingStyle.create b plain 1, CascadingStyle.create a plain 0] := sort_pair hfirst
  have hmap' : map = [(([] : List CodeUnit), [CascadingStyle.create b plain 1, CascadingStyle.create a plain 0])] := by
    have hnonempty : (createStyles [⟨a, [plain]⟩, ⟨b, [plain]⟩] 0).isEmpty = false := rfl
    simp only [getCascadingStyles, hnonempty, hsorted] at hmap
    simp [group, AssocList.get, getProperty, CascadingStyle.create] at hmap
    rw [← hmap.1]
    rfl
  have hlist := hcascades.sorted _ (hmap' ▸ mem_singleton_self _)
  have hbefore := (List.pairwise_cons.mp hlist).1 _ mem_cons_self
  have hafter : cascade (CascadingStyle.create b plain 1) (CascadingStyle.create a plain 0) = .gt := by
    have hspecificity : compare (-b.createMatch.specificity.toInt) (-a.createMatch.specificity.toInt) = .gt :=
      Int.compare_eq_gt.mpr (by omega)
    simp only [cascade, compareLex, compareOn, CascadingStyle.create, hspecificity]
    rfl
  rw [hafter] at hbefore
  simp at hbefore

/-- **The cascade is built of every list of selectors whose specificities are less than 2 ^ 31
apart, and only of these.** -/
theorem buildsCascade_iff (S : Selector → Prop) :
    (∀ selectors : List RuleSelector, (∀ m ∈ selectors, S m.selector) → BuildsCascade selectors) ↔
      ∀ a b, S a → S b → NearSelectors a b := by
  refine ⟨fun hbuilds => ?_, fun hS selectors hselectors => ?_⟩
  · have hnot : ∀ a b, S a → S b → a.createMatch.specificity.toInt - b.createMatch.specificity.toInt < 2 ^ 31 := by
      intro a b ha hb
      by_contra hfar
      apply not_buildsCascade (Int.not_lt.mp hfar)
      apply hbuilds
      simp [ha, hb]
    exact fun a b ha hb => ⟨hnot a b ha hb, hnot b a hb ha⟩
  · apply buildsCascade_of_near
    exact fun s hs s' hs' => near_of_mem hS hselectors hs hs'

/-- A selector of as many ids. -/
def ofIds (ids : Nat) : Selector := .compound (Selector.ofCounts { ids := ids })

theorem specificity_ofIds (ids : Nat) : (ofIds ids).createMatch.specificity = BitVec.ofNat 32 ids <<< 8 := by
  rw [Selector.specificity_eq, ofIds, (Selector.matchedPseudoClasses_spec _).2.mpr (Selector.apart_ofCounts _),
    Selector.counts_ofCounts (show 0 < 16 by decide) (show 0 < 16 by decide)]
  simp

/-- With 2 ^ 23 - 1 and 2 ^ 23 ids, of the specificities 2 ^ 31 - 256 and -2 ^ 31. -/
theorem not_buildsCascade_ids : ¬BuildsCascade [⟨ofIds (2 ^ 23 - 1), [plain]⟩, ⟨ofIds (2 ^ 23), [plain]⟩] := by
  apply not_buildsCascade
  rw [specificity_ofIds, specificity_ofIds]
  decide

end StyleMap

end JavaFX
