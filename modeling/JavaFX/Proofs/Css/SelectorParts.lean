/-
White space around a simple selector does not matter.

A part of a selector is split at its colons, and what comes before the first colon is split at
its full stops.  White space at the ends of the part stays at the ends of the first and the
last string, where it is trimmed.  It can only add a pseudo-class with an empty name, where
the part ends with a colon, and a `SimpleSelector` leaves such names out.
-/
import JavaFX.Css.CreateSelector

namespace JavaFX.Selector

open List

/-- Space, tab, line feed, carriage return and form feed. -/
def isWhite (c : Char) : Bool := c = ' ' ∨ c = '\t' ∨ c = '\n' ∨ c = '\r' ∨ c = '\x0c'

theorem le_of_isWhite {c : Char} (h : isWhite c) : c ≤ ' ' := by
  simp only [isWhite, decide_eq_true_eq] at h
  rcases h with rfl | rfl | rfl | rfl | rfl <;> decide

/-! ### Trimming -/

theorem trim_append {s space : List Char} (h : ∀ c ∈ space, c ≤ ' ') : trim (s ++ space) = trim s := by
  have hspace : space.dropWhile (· ≤ ' ') = [] := List.dropWhile_eq_nil_iff.mpr (by simpa using h)
  unfold trim
  rw [dropWhile_append]
  split
  · next hempty => rw [hspace, List.isEmpty_iff.mp hempty]
  · unfold rdropWhile
    rw [reverse_append, dropWhile_append_of_pos (by simpa using h)]

theorem trim_prepend {s space : List Char} (h : ∀ c ∈ space, c ≤ ' ') : trim (space ++ s) = trim s := by
  unfold trim
  rw [dropWhile_append_of_pos (by simpa using h)]

/-- White space has been added to `s` at its ends. -/
def Padded (s padded : List Char) : Prop :=
  ∃ front back, padded = front ++ s ++ back ∧ (∀ c ∈ front, isWhite c) ∧ ∀ c ∈ back, isWhite c

theorem Padded.trim {s padded : List Char} (h : Padded s padded) : trim padded = trim s := by
  obtain ⟨front, back, rfl, hfront, hback⟩ := h
  rw [trim_append fun c hc => le_of_isWhite (hback c hc), trim_prepend fun c hc => le_of_isWhite (hfront c hc)]

theorem Padded.ne_nil {s padded : List Char} (h : Padded s padded) (hne : s ≠ []) : padded ≠ [] := by
  obtain ⟨front, back, rfl, -, -⟩ := h
  simp [hne]

/-! ### Splitting -/

variable {sep : Char}

theorem splitOn_prepend {front : List Char} (h : sep ∉ front) (s : List Char) :
    (front ++ s).splitOn sep = (s.splitOn sep).modifyHead (front ++ ·) := by
  induction front with
  | nil =>
    rw [nil_append]
    cases s.splitOn sep <;> rfl
  | cons c front ih =>
    rw [mem_cons, not_or] at h
    rw [cons_append, splitOn_cons_eq_if_modifyHead, if_neg (by simpa using Ne.symm h.1), ih h.2]
    cases s.splitOn sep <;> rfl

/-- White space at the end stays at the end of the last string. -/
theorem splitOn_append {back : List Char} (hback : ∀ c ∈ back, isWhite c)
    (hsep : isWhite sep = false) (s : List Char) :
    Forall₂ (fun piece padded => ∃ space, padded = piece ++ space ∧ ∀ c ∈ space, isWhite c)
      (s.splitOn sep) ((s ++ back).splitOn sep) := by
  induction s with
  | nil =>
    have hnot : sep ∉ back := fun hmem => by simp [hback sep hmem] at hsep
    rw [nil_append, splitOn_eq_singleton hnot]
    exact .cons ⟨back, rfl, hback⟩ .nil
  | cons c s ih =>
    rw [cons_append, splitOn_cons_eq_if_modifyHead, splitOn_cons_eq_if_modifyHead]
    split
    · exact .cons ⟨[], by simp, by simp⟩ ih
    · generalize s.splitOn sep = pieces at ih ⊢
      generalize (s ++ back).splitOn sep = padded at ih ⊢
      cases ih with
      | nil => exact .nil
      | cons hhead htail =>
        obtain ⟨space, rfl, hspace⟩ := hhead
        exact .cons ⟨space, rfl, hspace⟩ htail

theorem Padded.splitOn {s padded : List Char} (h : Padded s padded) (hsep : isWhite sep = false) :
    Forall₂ Padded (s.splitOn sep) (padded.splitOn sep) := by
  obtain ⟨front, back, rfl, hfront, hback⟩ := h
  have hnot : sep ∉ front := fun hmem => by simp [hfront sep hmem] at hsep
  have hpieces := splitOn_append hback hsep s
  rw [append_assoc, splitOn_prepend hnot]
  generalize s.splitOn sep = pieces at hpieces ⊢
  generalize (s ++ back).splitOn sep = padded at hpieces ⊢
  cases hpieces with
  | nil => exact .nil
  | cons hhead htail =>
    obtain ⟨space, rfl, hspace⟩ := hhead
    refine .cons ⟨front, space, by simp, hfront, hspace⟩ (htail.imp fun piece padded hpadded => ?_)
    obtain ⟨space, rfl, hspace⟩ := hpadded
    exact ⟨[], space, rfl, by simp, hspace⟩

/-! ### Class names -/

/-- The names that count. -/
def properNames (pieces : List (List Char)) : List (Option String) :=
  ((pieces.tail.map trim).filter fun name => name ≠ []).map fun name => some (String.ofList name)

theorem filter_classNames (parts : List (List Char)) :
    (classNames parts).filter (fun name => name ≠ some "") = properNames parts := by
  unfold classNames properNames
  induction parts.tail with
  | nil => rfl
  | cons part parts ih =>
    by_cases hempty : part = []
    · subst hempty
      simpa [trim] using ih
    · by_cases htrim : trim part = []
      · simpa [hempty, htrim] using ih
      · have hname : String.ofList (trim part) ≠ "" := by
          simpa using htrim
        simpa [hempty, htrim] using ih

theorem properNames_rdropWhile (pieces : List (List Char)) :
    properNames (pieces.rdropWhile (·.isEmpty)) = properNames pieces := by
  have hall : ∀ l : List (List Char), (∀ piece ∈ l, piece.isEmpty = true) →
      (l.map trim).filter (fun name => name ≠ []) = [] := by
    intro l hl
    rw [filter_eq_nil_iff]
    intro name hname
    obtain ⟨piece, hpiece, rfl⟩ := List.mem_map.mp hname
    simp [List.isEmpty_iff.mp (hl piece hpiece), trim]
  have happend : pieces.rdropWhile (·.isEmpty) ++ pieces.rtakeWhile (·.isEmpty) = pieces :=
    rdropWhile_append_rtakeWhile
  have hlast : ∀ piece ∈ pieces.rtakeWhile (·.isEmpty), piece.isEmpty = true := by
    intro piece hpiece
    exact mem_rtakeWhile_imp hpiece
  unfold properNames
  conv_rhs => rw [← happend]
  cases pieces.rdropWhile (·.isEmpty) with
  | nil =>
    rw [nil_append, hall _ (fun piece hpiece => hlast piece (mem_of_mem_tail hpiece))]
    rfl
  | cons piece rest =>
    rw [cons_append, tail_cons, tail_cons, map_append, filter_append, hall _ hlast, append_nil]

theorem addPseudoClasses_filter (registry : Registry) (names : List (Option String)) (s : GrownSet)
    (dir : NodeOrientation) :
    SimpleSelector.addPseudoClasses registry (names.filter fun name => name ≠ some "") s dir =
      SimpleSelector.addPseudoClasses registry names s dir := by
  induction names generalizing s dir with
  | nil => rfl
  | cons name names ih =>
    cases name with
    | none => simpa [SimpleSelector.addPseudoClasses] using ih s dir
    | some name =>
      by_cases hempty : name = ""
      · subst hempty
        simpa [SimpleSelector.addPseudoClasses] using ih s dir
      · rw [filter_cons_of_pos (by simpa using hempty)]
        simp only [SimpleSelector.addPseudoClasses, ih]

theorem addPseudoClasses_splitAround (registry : Registry) (part : List Char) (s : GrownSet) (dir : NodeOrientation) :
    SimpleSelector.addPseudoClasses registry (classNames (splitAround ':' part)) s dir =
      SimpleSelector.addPseudoClasses registry (properNames (part.splitOn ':')) s dir := by
  rw [← addPseudoClasses_filter, filter_classNames]
  unfold splitAround
  simp only
  split
  · rfl
  · rw [properNames_rdropWhile]

theorem properNames_padded {pieces padded : List (List Char)} (h : Forall₂ Padded pieces padded) :
    properNames padded = properNames pieces := by
  have htrim : padded.tail.map trim = pieces.tail.map trim := by
    cases h with
    | nil => rfl
    | cons _ htail =>
      induction htail with
      | nil => rfl
      | cons hhead _ ih => simpa [hhead.trim] using ih
  rw [properNames, properNames, htrim]

/-! ### Parts -/

theorem getAt_zero {α : Type} (x : α) (l : List α) : getAt (x :: l) 0 = .ok x := rfl

theorem getAt_splitAround (part : List Char) : getAt (splitAround ':' part) 0 =
      if 1 < (part.splitOn ':').length ∧ ∀ piece ∈ part.splitOn ':', piece = [] then .error .indexOutOfBounds
      else getAt (part.splitOn ':') 0 := by
  unfold splitAround
  by_cases hone : (part.splitOn ':').length ≤ 1
  · rw [if_pos hone, if_neg (fun h => Nat.not_lt.mpr hone h.1)]
  rw [if_neg hone]
  by_cases hall : ∀ piece ∈ part.splitOn ':', piece = []
  · rw [if_pos ⟨Nat.lt_of_not_le hone, hall⟩, List.rdropWhile_eq_nil_iff.mpr (by simpa using hall)]
    rfl
  · rw [if_neg (fun h => hall h.2)]
    have hne : (part.splitOn ':').rdropWhile (·.isEmpty) ≠ [] := by
      intro hnil
      exact hall (by simpa using List.rdropWhile_eq_nil_iff.mp hnil)
    obtain ⟨rest, hrest⟩ := rdropWhile_prefix (fun piece : List Char => piece.isEmpty) (l := part.splitOn ':')
    obtain ⟨piece, pieces, hpieces⟩ := exists_cons_of_ne_nil hne
    have heq : part.splitOn ':' = piece :: (pieces ++ rest) := by rw [← hrest, hpieces, cons_append]
    rw [hpieces, heq]
    rfl

theorem all_nil_of_padded {pieces padded : List (List Char)} (h : Forall₂ Padded pieces padded)
    (hall : ∀ piece ∈ padded, piece = []) : ∀ piece ∈ pieces, piece = [] := by
  induction h with
  | nil => simp
  | @cons piece padded _ _ hhead _ ih =>
    rw [forall_mem_cons] at hall ⊢
    refine ⟨?_, ih hall.2⟩
    by_contra hne
    exact hhead.ne_nil hne hall.1

theorem getAt_splitAround_padded {part padded first : List Char} (h : Padded part padded)
    (hfirst : getAt (splitAround ':' part) 0 = .ok first) :
    ∃ first', getAt (splitAround ':' padded) 0 = .ok first' ∧ trim first' = trim first := by
  have hpieces := @Padded.splitOn ':' _ _ h (by decide)
  rw [getAt_splitAround] at hfirst ⊢
  generalize part.splitOn ':' = pieces at hfirst hpieces
  generalize padded.splitOn ':' = pieces' at hpieces ⊢
  split at hfirst
  · simp at hfirst
  · next hnot =>
    rw [if_neg]
    · cases hpieces with
      | nil => simp [getAt] at hfirst
      | cons hhead htail =>
        obtain rfl := Except.ok.inj hfirst
        exact ⟨_, rfl, hhead.trim⟩
    · rintro ⟨hlength, hall⟩
      exact hnot ⟨hpieces.length_eq ▸ hlength, all_nil_of_padded hpieces hall⟩

/-- **White space around a part does not matter.** -/
theorem parsePart_padded {styleClassRegistry pseudoClassRegistry : Registry} {part padded : List Char}
    {selector : SimpleSelector} (h : Padded part padded)
    (hparse : parsePart styleClassRegistry pseudoClassRegistry part = .ok selector) :
    parsePart styleClassRegistry pseudoClassRegistry padded = .ok selector := by
  unfold parsePart SimpleSelector.create at hparse ⊢
  cases hfirst : getAt (splitAround ':' part) 0 with
  | error e => simp [hfirst, bind, Except.bind] at hparse
  | ok first =>
    obtain ⟨first', hfirst', htrim⟩ := getAt_splitAround_padded h hfirst
    simp only [hfirst, hfirst', htrim, bind, Except.bind, addPseudoClasses_splitAround,
      properNames_padded (h.splitOn (by decide : isWhite ':' = false))] at hparse ⊢
    exact hparse

end JavaFX.Selector
