/-
What the contents of text controls hold.

`Holds c text` says that a content stands for a text: one `StringBuilder` with these characters,
or the paragraphs that the newlines of the text separate.  Each operation is then the operation on
one string, whatever the content is made of.
-/
import JavaFX.Controls.TextContent
import JavaFX.Lib.Pieces
import Mathlib.Tactic.Linarith

namespace JavaFX

open Pieces List

/-! ### Stripping -/

theorem filterInput_eq (txt : Chars) (newlines tabs : Bool) :
    filterInput txt newlines tabs = txt.filter fun c => !isInvalidCharacter c newlines tabs := by
  unfold filterInput
  split
  · rfl
  · next h =>
      symm
      rw [filter_eq_self]
      intro c hc
      simp only [containsInvalidCharacters, any_eq_true, not_exists, not_and] at h
      simpa using h c hc

namespace StringBuilder

variable {s : Chars} {i : Nat}

theorem substring_ofNat {j : Nat} (hij : i ≤ j) (hj : j ≤ s.length) : substring s i j = .ok ((s.take j).drop i) := by
  rw [substring, if_pos ⟨by omega, by omega, by omega⟩]
  simp

theorem insert_ofNat (text : Chars) (hi : i ≤ s.length) : insert s i text = .ok (s.take i ++ text ++ s.drop i) := by
  rw [insert, if_pos ⟨by omega, by omega⟩]
  simp

theorem delete_ofNat {j : Nat} (hij : i ≤ j) (hj : j ≤ s.length) : delete s i j = .ok (s.take i ++ s.drop j) := by
  have hmin : min (j : Int) s.length = j := by omega
  simp only [delete, hmin]
  rw [if_pos ⟨by omega, by omega⟩]
  simp

end StringBuilder

namespace TextAreaContent

/-- The paragraphs are the pieces of the text between its newlines. -/
structure Holds (c : TextAreaContent) (text : Chars) : Prop where
  pieces : ended newline c.paragraphs = text ++ [newline]
  length : c.contentLength = text.length
  separated : ∀ p ∈ c.paragraphs, newline ∉ p

variable {c : TextAreaContent} {text : Chars}

theorem holds_empty : Holds empty [] where
  pieces := rfl
  length := rfl
  separated := by simp [empty]

/-! ### Positions -/

variable {position : Nat} {ps : List Chars}

theorem seek_spec (ps : List Chars) : ∀ k : Nat, k ≤ ps.length → position < (ended newline (ps.take k)).length →
      ∃ l p r, ps = l ++ p :: r ∧ l.length < k ∧ seek ps position k (ended newline (ps.take k)).length
          = .ok (l.length, ((ended newline l).length : Int)) ∧
        (ended newline l).length ≤ position ∧ position ≤ (ended newline l).length + p.length := by
  intro k
  induction k with
  | zero =>
    intro _ hpos
    simp at hpos
  | succ k ih =>
    intro hk hpos
    have hlt : k < ps.length := hk
    have htake : ps.take (k + 1) = ps.take k ++ [ps[k]] := take_succ_eq_append_getElem hlt
    have hlen : ((ended newline (ps.take (k + 1))).length : Int) - (ps[k].length + 1)
        = (ended newline (ps.take k)).length := by
      rw [htake, ended_append, length_append]
      simp
    by_cases hback : position < (ended newline (ps.take k)).length
    · obtain ⟨l, p, r, hps, hl, hseek, hle, hge⟩ := ih (by omega) hback
      refine ⟨l, p, r, hps, by omega, ?_, hle, hge⟩
      rw [seek, getAt_ofNat hlt]
      show (if _ then _ else _) = _
      rw [hlen, if_pos (by omega), hseek]
    · refine ⟨ps.take k, ps[k], ps.drop (k + 1), ?_, ?_, ?_, by omega, ?_⟩
      · rw [getElem_cons_drop, take_append_drop]
      · simp
      · rw [seek, getAt_ofNat hlt]
        show (if _ then _ else _) = _
        rw [hlen, if_neg (by omega), length_take, Nat.min_eq_left (by omega)]
        rfl
      · rw [htake] at hpos
        simp at hpos ⊢
        omega

theorem Holds.length_ended (h : Holds c text) : (ended newline c.paragraphs).length = text.length + 1 := by
  rw [h.pieces]
  simp

theorem Holds.seek (h : Holds c text) (hpos : position ≤ text.length) :
    ∃ l p r, c.paragraphs = l ++ p :: r ∧ seek c.paragraphs position c.paragraphs.length (c.contentLength + 1)
        = .ok (l.length, ((ended newline l).length : Int)) ∧
      (ended newline l).length ≤ position ∧ position ≤ (ended newline l).length + p.length := by
  have hlen := h.length_ended
  obtain ⟨l, p, r, hps, _, hseek, hle, hge⟩ :=
    seek_spec c.paragraphs c.paragraphs.length (Nat.le_refl _) (show position < _ by rw [take_length]; omega)
  refine ⟨l, p, r, hps, ?_, hle, hge⟩
  rw [take_length, hlen] at hseek
  rw [h.length]
  exact_mod_cast hseek

variable {l r : List Chars} {p : Chars} {i j : Nat}

theorem seek_back (hij : i ≤ j) (hps : ps = l ++ p :: r) (hge : j ≤ (ended newline l).length + p.length) :
    ∃ l' p' r', ps = l' ++ p' :: r' ∧ l'.length ≤ l.length ∧
      seek ps i (l.length + 1) ((ended newline l).length + (p.length + 1))
        = .ok (l'.length, ((ended newline l').length : Int)) ∧
      (ended newline l').length ≤ i ∧ i ≤ (ended newline l').length + p'.length := by
  have htake : ps.take (l.length + 1) = l ++ [p] := by
    rw [hps, show l ++ p :: r = (l ++ [p]) ++ r by simp]
    exact take_left' (by simp)
  have hoff : ((ended newline l).length : Int) + (p.length + 1) = (ended newline (ps.take (l.length + 1))).length := by
    rw [htake]
    simp
  obtain ⟨l', p', r', hps', hl', hseek', hle', hge'⟩ :=
    seek_spec ps (l.length + 1) (by rw [hps]; simp) (show i < _ by rw [htake]; simp; omega)
  rw [← hoff] at hseek'
  exact ⟨l', p', r', hps', by omega, hseek', hle', hge'⟩

theorem locate_spec (hi : i ≤ p.length) :
    locate (l ++ p :: r) ((ended newline l).length + i) = ((l.length : Int), (i : Int)) := by
  induction l with
  | nil =>
    rw [nil_append, locate, if_pos (by simp; omega)]
    simp
  | cons q l ih =>
    have hrest : ((ended newline (q :: l)).length : Int) + i - (q.length + 1) = (ended newline l).length + i := by
      simp
      omega
    rw [cons_append, locate, if_neg (by simp; omega), hrest, ih]
    simp


/-! ### Reading -/

theorem readOn_spec (c : TextAreaContent) {length : Int} (hlength : length ≤ c.contentLength) (rounds : Nat) :
    ∀ {l r : List Chars} {p : Chars} {i : Nat}, c.paragraphs = l ++ p :: r → i ≤ p.length →
      rounds ≤ (p.drop i).length + (ended newline r).length →
      readOn c length rounds l.length i p = .ok ((p.drop i ++ newline :: ended newline r).take rounds) := by
  induction rounds with
  | zero =>
    intro l r p i _ _ _
    simp [readOn]
  | succ n ih =>
    intro l r p i hps hi hn
    rw [readOn]
    by_cases hend : i = p.length
    · rw [if_pos ⟨by omega, by omega⟩]
      subst hend
      -- The paragraph is read to its end, so there has to be another one.
      cases r with
      | nil => simp at hn
      | cons q r =>
        have hnext : getAt c.paragraphs (l.length + 1) = .ok q := by
          rw [hps]
          exact getAt_append_succ l p q r
        have hrest := ih (l := l ++ [p]) (r := r) (p := q) (i := 0) (by rw [hps]; simp)
          (by omega) (by simp at hn ⊢; omega)
        rw [hnext]
        simp only [length_append, length_cons, length_nil, Nat.zero_add,
          Nat.cast_add, Nat.cast_one, Nat.cast_zero] at hrest
        simp only [bind, Except.bind, hrest]
        simp
        rfl
    · have hlt : i < p.length := by omega
      rw [if_neg (by omega), getAt_ofNat hlt]
      have hrest := ih (l := l) (r := r) (i := i + 1) hps (by omega) (by simp at hn ⊢; omega)
      rw [Nat.cast_add, Nat.cast_one] at hrest
      simp only [bind, hrest]
      rw [drop_eq_getElem_cons hlt]
      rfl

theorem Holds.get (h : Holds c text) (hij : i ≤ j) (hj : j ≤ text.length) :
    c.get i j = .ok ((text.take j).drop i) := by
  have hlen := h.length_ended
  obtain ⟨l, p, r, hps, hle, hge⟩ := exists_piece (show i < (ended newline c.paragraphs).length by omega)
  obtain ⟨k, rfl⟩ : ∃ k, i = (ended newline l).length + k := ⟨i - (ended newline l).length, by omega⟩
  have hk : k ≤ p.length := by omega
  have hlocate : locate c.paragraphs (((ended newline l).length + k : Nat) : Int) = ((l.length : Int), (k : Int)) := by
    rw [hps]
    exact locate_spec hk
  have hp : getAt c.paragraphs (l.length : Int) = .ok p := by
    rw [hps]
    exact getAt_append l p r
  have hcount : ((j : Int) - ((ended newline l).length + k : Nat)).toNat
      = j - ((ended newline l).length + k) := by omega
  have hlast : j - ((ended newline l).length + k) ≤ (p.drop k).length + (ended newline r).length := by
    rw [hps] at hlen
    simp at hlen ⊢
    omega
  rw [TextAreaContent.get]
  simp only [hlocate, hp, bind, Except.bind]
  rw [hcount, readOn_spec c (by rw [h.length]; omega) _ hps hk hlast]
  -- What follows the position in the paragraphs is what follows it in the text.
  have hdrop : p.drop k ++ newline :: ended newline r = (text ++ [newline]).drop ((ended newline l).length + k) := by
    rw [← h.pieces, hps, drop_ended (by omega) (by omega)]
    simp
  rw [hdrop, drop_append_of_le_length (by omega), take_append_of_le_length (by simp; omega), drop_take]


/-! ### Inserting -/

theorem lines_ended (text : Chars) : ∀ (before : List Chars) (line : Chars),
    ended newline ((lines text before line).1 ++ [(lines text before line).2])
      = ended newline before ++ line ++ text ++ [newline] := by
  induction text with
  | nil =>
    intro before line
    simp [lines]
  | cons a text ih =>
    intro before line
    rw [lines]
    split
    · next ha =>
        rw [ih, ha]
        simp
    · rw [ih]
      simp

theorem lines_separated (text : Chars) : ∀ (before : List Chars) (line : Chars),
    (∀ p ∈ before, newline ∉ p) → newline ∉ line →
      ∀ p ∈ (lines text before line).1 ++ [(lines text before line).2], newline ∉ p := by
  induction text with
  | nil =>
    intro before line hbefore hline
    simpa [or_imp, forall_and] using ⟨hbefore, hline⟩
  | cons a text ih =>
    intro before line hbefore hline
    rw [lines]
    split
    · apply ih
      · simpa [or_imp, forall_and] using ⟨hbefore, hline⟩
      · simp
    · next ha =>
        apply ih _ _ hbefore
        simp [hline, Ne.symm ha]

theorem insertLines_spec {k : Nat} (hk : k ≤ p.length) (ls : List Chars × Chars) (hp : ∀ q ∈ l ++ p :: r, newline ∉ q)
    (hls : ∀ q ∈ ls.1 ++ [ls.2], newline ∉ q) :
    ∃ ps, insertLines (l ++ p :: r) l.length k ls = .ok ps ∧
      ended newline ps = ended newline l ++ p.take k ++ (ended newline ls.1 ++ ls.2) ++
        (p.drop k ++ newline :: ended newline r) ∧
      ∀ q ∈ ps, newline ∉ q := by
  have hat : getAt (l ++ p :: r) (l.length : Int) = .ok p := getAt_append l p r
  have htake : newline ∉ p.take k := fun h => hp p (by simp) (mem_of_mem_take h)
  have hdrop : newline ∉ p.drop k := fun h => hp p (by simp) (mem_of_mem_drop h)
  have hl : ∀ q ∈ l, newline ∉ q := fun q hq => hp q (by simp [hq])
  have hr : ∀ q ∈ r, newline ∉ q := fun q hq => hp q (by simp [hq])
  obtain ⟨ended', line⟩ := ls
  cases ended' with
  | nil =>
    refine ⟨l ++ (p.take k ++ line ++ p.drop k) :: r, ?_, by simp, ?_⟩
    · rw [insertLines, hat]
      simp only [bind, Except.bind, StringBuilder.insert_ofNat line hk]
      simp [pure, Except.pure]
    · simp only [nil_append, mem_singleton, forall_eq] at hls
      simp only [mem_append, mem_cons, or_imp, forall_and, forall_eq, not_or]
      exact ⟨hl, ⟨⟨htake, hls⟩, hdrop⟩, hr⟩
  | cons first rest =>
    refine ⟨l ++ (p.take k ++ first) :: rest ++ (line ++ p.drop k) :: r, ?_, by simp, ?_⟩
    · rw [insertLines, hat]
      simp only [bind, Except.bind, StringBuilder.substring_ofNat hk (Nat.le_refl _),
        StringBuilder.delete_ofNat hk (Nat.le_refl _)]
      rw [StringBuilder.insert_ofNat first (by simp [hk])]
      simp [pure, Except.pure, take_take]
    · simp only [cons_append, mem_cons, mem_append, or_imp, forall_and, forall_eq,
        not_mem_nil, false_imp_iff, and_true] at hls
      simp only [mem_append, mem_cons, or_imp, forall_and, forall_eq, not_or]
      exact ⟨⟨hl, ⟨htake, hls.1⟩, hls.2.1⟩, ⟨hls.2.2, hdrop⟩, hr⟩

/-- **An insertion inserts the characters that are not stripped.** -/
theorem Holds.insert (h : Holds c text) (hi : i ≤ text.length) (x : Chars) (notify : Bool) :
    ∃ c', c.insert i x notify = .ok (c', notify && !(filterInput x false false).isEmpty) ∧
      Holds c' (text.take i ++ filterInput x false false ++ text.drop i) := by
  have hrange : ¬((i : Int) < 0 ∨ (i : Int) > c.contentLength) := by
    rw [h.length]
    omega
  rw [TextAreaContent.insert, if_neg hrange]
  generalize filterInput x false false = x
  by_cases hx : x = []
  · subst hx
    refine ⟨c, by simp, ?_⟩
    simpa using h
  · have hpos : 0 < x.length := List.length_pos_iff.mpr hx
    obtain ⟨l, p, r, hps, hseek, hle, hge⟩ := h.seek hi
    obtain ⟨k, rfl⟩ : ∃ k, i = (ended newline l).length + k :=
      ⟨i - (ended newline l).length, by omega⟩
    have hk : k ≤ p.length := by omega
    have hls : ∀ q ∈ (lines x [] []).1 ++ [(lines x [] []).2], newline ∉ q :=
      lines_separated x [] [] (by simp) (by simp)
    obtain ⟨ps, hinsert, hended, hsep⟩ :=
      insertLines_spec hk (lines x [] []) (hps ▸ h.separated) hls
    -- The pieces of the lines, less the last newline, are the text that is inserted.
    have hx' : ended newline (lines x [] []).1 ++ (lines x [] []).2 = x := by
      have := lines_ended x [] []
      simp only [ended_append, ended_cons, ← append_assoc] at this
      exact append_cancel_right this
    refine ⟨{ paragraphs := ps, contentLength := c.contentLength + x.length }, ?_, ?_, ?_, hsep⟩
    · simp only [hpos, hseek, bind, Except.bind]
      have hstart : (((ended newline l).length + k : Nat) : Int) - (ended newline l).length = k := by
        omega
      rw [hstart, hps, hinsert]
      simp [pure, Except.pure, hx]
    · rw [hended, hx', insert_ended hi, ← h.pieces, hps, take_ended (by omega) (by omega),
        drop_ended (by omega) (by omega)]
      simp
    · simp [h.length]
      omega


/-! ### Deleting -/

theorem deleteBetween_same (hij : i ≤ j) (hj : j ≤ p.length) : deleteBetween (l ++ p :: r) l.length i l.length j
      = .ok (l ++ (p.take i ++ p.drop j) :: r) := by
  rw [deleteBetween, getAt_append]
  simp only [bind, Except.bind, StringBuilder.delete_ofNat hij hj]
  simp [pure, Except.pure]

theorem deleteBetween_across {m : List Chars} {q : Chars} (hi : i ≤ p.length) (hj : j ≤ q.length) :
    deleteBetween (l ++ p :: m ++ q :: r) l.length i (l.length + 1 + m.length : Nat) j
      = .ok (l ++ (p.take i ++ q.drop j) :: r) := by
  have hne : ¬ l.length = l.length + 1 + m.length := by omega
  have hp : getAt (l ++ p :: m ++ q :: r) (l.length : Int) = .ok p := by
    rw [append_assoc]
    exact getAt_append l p (m ++ q :: r)
  have hq : getAt (l ++ p :: m ++ q :: r) ((l.length + 1 + m.length : Nat) : Int) = .ok q := by
    have := getAt_append (l ++ p :: m) q r
    have hlen : ((l ++ p :: m).length : Int) = ((l.length + 1 + m.length : Nat) : Int) := by
      simp
      omega
    rwa [hlen] at this
  have hdrop : (l ++ p :: m ++ q :: r).drop (l.length + 1 + m.length + 1) = r := by
    have hlen : l.length + 1 + m.length + 1 = (l ++ p :: m ++ [q]).length := by
      simp
      omega
    rw [show l ++ p :: m ++ q :: r = (l ++ p :: m ++ [q]) ++ r by simp, hlen, drop_left]
  rw [deleteBetween, if_neg hne, hp, hq]
  simp only [bind, Except.bind]
  rw [show (0 : Int) = ((0 : Nat) : Int) from rfl, StringBuilder.substring_ofNat (Nat.zero_le _) hi,
    StringBuilder.delete_ofNat (Nat.zero_le _) hj]
  rw [hdrop]
  simp [pure, Except.pure]

theorem deleteBetween_spec {l' r' : List Chars} {p' : Chars} (hps : ps = l ++ p :: r)
    (hps' : ps = l' ++ p' :: r') (hle : l'.length ≤ l.length) (hi : i ≤ p'.length)
    (hj : j ≤ p.length) (hij : l'.length = l.length → i ≤ j) :
    deleteBetween ps l'.length i l.length j = .ok (l' ++ (p'.take i ++ p.drop j) :: r) := by
  have hboth : l' ++ p' :: r' = l ++ p :: r := hps'.symm.trans hps
  by_cases hsame : l'.length = l.length
  · obtain ⟨rfl, hcons⟩ := append_inj hboth hsame
    obtain ⟨rfl, rfl⟩ := List.cons_eq_cons.mp hcons
    rw [hps]
    exact deleteBetween_same (hij rfl) hj
  · obtain ⟨a, rfl, ha⟩ : ∃ a, l = l' ++ a ∧ p' :: r' = a ++ p :: r := by
      rcases List.append_eq_append_iff.mp hboth with h | ⟨a, rfl, -⟩
      · exact h
      · rw [length_append] at hle hsame
        omega
    cases a with
    | nil => simp at hsame
    | cons b m =>
      obtain ⟨rfl, rfl⟩ := List.cons_eq_cons.mp ha
      have hlen : (l' ++ p' :: m).length = l'.length + 1 + m.length := by
        simp
        omega
      rw [hps, hlen]
      exact deleteBetween_across hi hj

/-- **A deletion deletes the characters of its range.** -/
theorem Holds.delete (h : Holds c text) (hij : i ≤ j) (hj : j ≤ text.length) (notify : Bool) :
    ∃ c', c.delete i j notify = .ok (c', notify && decide (i < j)) ∧ Holds c' (text.take i ++ text.drop j) := by
  have hlength := h.length
  rw [TextAreaContent.delete, if_neg (by omega), if_neg (by omega)]
  by_cases hlt : i < j
  swap
  · obtain rfl : i = j := by omega
    exact ⟨c, by simp, by simpa using h⟩
  · obtain ⟨l, p, r, hps, hseek, hle, hge⟩ := h.seek hj
    have hat : getAt c.paragraphs (l.length : Int) = .ok p := by
      rw [hps]
      exact getAt_append l p r
    obtain ⟨l', p', r', hps', hl', hseek', hle', hge'⟩ := seek_back hij hps hge
    have hpos : (j : Int) - i > 0 := by omega
    have hstart : (i : Int) - (ended newline l').length = (i - (ended newline l').length : Nat) := by
      omega
    have hend : (j : Int) - (ended newline l).length = (j - (ended newline l).length : Nat) := by
      omega
    have hpieces : (text.take i ++ text.drop j) ++ [newline]
        = ended newline l' ++ p'.take (i - (ended newline l').length) ++
          (p.drop (j - (ended newline l).length) ++ newline :: ended newline r) := by
      rw [delete_ended (by omega) hj, ← h.pieces, ← drop_ended (by omega) (by omega), ← hps,
        ← take_ended (by omega) (by omega), ← hps']
    have hnl' : newline ∉ p'.take (i - (ended newline l').length) := fun hm =>
      h.separated p' (by rw [hps']; simp) (mem_of_mem_take hm)
    have hnl : newline ∉ p.drop (j - (ended newline l).length) := fun hm =>
      h.separated p (by rw [hps]; simp) (mem_of_mem_drop hm)
    have hbetween := deleteBetween_spec hps hps' (by omega) (show i - (ended newline l').length ≤ p'.length by omega)
      (show j - (ended newline l).length ≤ p.length by omega)
      (fun hsame => by
        obtain ⟨rfl, -⟩ := append_inj (hps'.symm.trans hps) hsame
        omega)
    refine ⟨{ paragraphs := l' ++ (p'.take (i - (ended newline l').length) ++
        p.drop (j - (ended newline l).length)) :: r
              contentLength := c.contentLength - (j - i) }, ?_, ?_, ?_, ?_⟩
    · simp only [hpos, hseek, hat, hseek', bind, Except.bind]
      rw [hstart, hend, hbetween]
      simp [pure, Except.pure, hlt]
    · rw [hpieces]
      simp
    · simp
      omega
    · simp only [mem_append, mem_cons, or_imp, forall_and, forall_eq, not_or]
      exact ⟨fun q hq => h.separated q (by rw [hps']; simp [hq]), ⟨hnl', hnl⟩,
        fun q hq => h.separated q (by rw [hps]; simp [hq])⟩

/-! ### Runs -/

/-- The same call on one string; nothing where its arguments are out of range. -/
def Edit.onString (text : Chars) : Edit → Option Chars
  | .insert index (some x) _ =>
    if 0 ≤ index ∧ index ≤ text.length then
      some (text.take index.toNat ++ filterInput x false false ++ text.drop index.toNat)
    else none
  | .insert _ none _ => none
  | .delete start «end» _ =>
    if 0 ≤ start ∧ start ≤ «end» ∧ «end» ≤ text.length then
      some (text.take start.toNat ++ text.drop «end».toNat)
    else none

def runString (text : Chars) : List Edit → Chars
  | [] => text
  | e :: es => runString ((e.onString text).getD text) es

/-- A call does to the content what it does to the string, or throws. -/
theorem Holds.edit (h : Holds c text) (e : Edit) :
    match e.onString text with
    | some text' => ∃ c' told, c.edit e = .ok (c', told) ∧ Holds c' text'
    | none => ∃ ex, c.edit e = .error ex := by
  have hlength := h.length
  cases e with
  | insert index x notify =>
    cases x with
    | none =>
      simp only [Edit.onString, TextAreaContent.edit]
      split <;> exact ⟨_, rfl⟩
    | some x =>
      simp only [Edit.onString]
      by_cases hrange : 0 ≤ index ∧ index ≤ text.length
      · rw [if_pos hrange]
        obtain ⟨i, rfl⟩ := Int.eq_ofNat_of_zero_le hrange.1
        obtain ⟨c', hc', h'⟩ := h.insert (by omega : i ≤ text.length) x notify
        exact ⟨c', _, hc', h'⟩
      · rw [if_neg hrange]
        exact ⟨_, if_pos (by omega)⟩
  | delete start «end» notify =>
    simp only [Edit.onString]
    by_cases hrange : 0 ≤ start ∧ start ≤ «end» ∧ «end» ≤ text.length
    · rw [if_pos hrange]
      obtain ⟨i, rfl⟩ := Int.eq_ofNat_of_zero_le hrange.1
      obtain ⟨j, rfl⟩ := Int.eq_ofNat_of_zero_le (by omega : 0 ≤ «end»)
      obtain ⟨c', hc', h'⟩ := h.delete (by omega : i ≤ j) (by omega) notify
      exact ⟨c', _, hc', h'⟩
    · rw [if_neg hrange]
      simp only [TextAreaContent.edit, TextAreaContent.delete]
      split
      · exact ⟨_, rfl⟩
      · exact ⟨_, if_pos (by omega)⟩

theorem Holds.run (h : Holds c text) (es : List Edit) : Holds (c.run es) (runString text es) := by
  induction es generalizing c text with
  | nil => exact h
  | cons e es ih =>
    have hedit := h.edit e
    rw [TextAreaContent.run, runString]
    cases htext : e.onString text with
    | none =>
      rw [htext] at hedit
      obtain ⟨ex, hex⟩ := hedit
      rw [hex]
      exact ih h
    | some text' =>
      rw [htext] at hedit
      obtain ⟨c', told, hc', h'⟩ := hedit
      rw [hc']
      exact ih h'

/-- A content can be taken for a string: it is cut at the newlines, it is read like the string, and
the next call does to it what it does to the string. -/
structure Refines (c : TextAreaContent) (text : Chars) : Prop where
  paragraphs : c.paragraphs = text.splitOn newline
  nonempty : c.paragraphs ≠ []
  separated : ∀ p ∈ c.paragraphs, newline ∉ p
  length : c.contentLength = text.length
  get : ∀ i j : Nat, i ≤ j → j ≤ text.length → c.get i j = .ok ((text.take j).drop i)
  acts : ∀ e text', e.onString text = some text' → ∃ c' told, c.edit e = .ok (c', told) ∧ Holds c' text'
  rejects : ∀ e, e.onString text = none → ∃ ex, c.edit e = .error ex

theorem Holds.refines (h : Holds c text) : Refines c text where
  paragraphs := by
    cases hps : c.paragraphs with
    | nil => simpa [hps] using h.pieces
    | cons p ps => exact eq_splitOn (hps ▸ h.pieces) (hps ▸ h.separated)
  nonempty hnil := by simpa [hnil] using h.pieces
  separated := h.separated
  length := h.length
  get _ _ hij hj := h.get hij hj
  acts e text' he := by simpa only [he] using h.edit e
  rejects e he := by simpa only [he] using h.edit e

/-- **The content of a text area is a string** after every run of calls. -/
theorem run_refines (es : List Edit) : Refines (empty.run es) (runString [] es) :=
  (holds_empty.run es).refines

theorem Holds.unique {c' : TextAreaContent} {text' : Chars} (h : Holds c text) (h' : Holds c' text') :
    c = c' ↔ text = text' := by
  constructor
  · rintro rfl
    exact append_cancel_right (h.pieces.symm.trans h'.pieces)
  · rintro rfl
    rw [TextAreaContent.mk.injEq]
    exact ⟨h.refines.paragraphs.trans h'.refines.paragraphs.symm, h.length.trans h'.length.symm⟩

/-- **A content does not remember how it came about.** -/
theorem run_eq_iff (es es' : List Edit) : empty.run es = empty.run es' ↔ runString [] es = runString [] es' :=
  (holds_empty.run es).unique (holds_empty.run es')

/-- **Deleting what has been inserted brings the content back**, however many paragraphs that were. -/
theorem insert_delete (es : List Edit) {i : Nat} (hi : i ≤ (runString [] es).length) (x : Chars)
    (notify notify' : Bool) :
    (empty.run es).run [.insert i (some x) notify, .delete i (i + (filterInput x false false).length : Nat) notify']
      = empty.run es := by
  have h := holds_empty.run es
  refine ((h.run _).unique h).mpr ?_
  generalize runString [] es = text at hi
  have hfront : (text.take i).length = i := length_take_of_le hi
  have hinsert : (Edit.insert i (some x) notify).onString text =
      some (text.take i ++ filterInput x false false ++ text.drop i) := if_pos (by omega)
  rw [runString, hinsert, Option.getD_some, runString, Edit.onString,
    if_pos (by simp only [length_append, length_drop]; omega), Option.getD_some, runString]
  simp only [Int.toNat_natCast, append_assoc]
  rw [take_left' hfront, ← append_assoc, drop_left' (by rw [length_append, hfront]), take_append_drop]

theorem insert_delete_lines : (empty.run [.insert 0 (some (Chars.of "ab")) true]).run
    [.insert 1 (some (Chars.of "\n\n")) true, .delete 1 3 true] = empty.run [.insert 0 (some (Chars.of "ab")) true] :=
  insert_delete _ (by decide) (Chars.of "\n\n") true true

end TextAreaContent

namespace Content

/-- What a content stands for. -/
def Holds : Content → Chars → Prop
  | textField characters, text => characters = text
  | textArea content, text => content.Holds text

/-- The characters a content does not strip. -/
def Allowed (strips : Bool) (text : Chars) : Prop :=
  ∀ a ∈ text, isInvalidCharacter a strips strips = false

variable {c : Content} {text : Chars}

theorem allowed_filterInput (c : Content) (x : Chars) : Allowed c.strips (c.filterInput x) := by
  intro a ha
  rw [Content.filterInput, filterInput_eq, mem_filter] at ha
  simpa using ha.2

theorem filterInput_of_allowed {x : Chars} (h : Allowed c.strips x) : c.filterInput x = x := by
  rw [Content.filterInput, filterInput_eq, filter_eq_self]
  intro a ha
  simp [h a ha]

theorem Holds.length (h : c.Holds text) : c.length = text.length := by
  cases c with
  | textField characters =>
    obtain rfl : characters = text := h
    rfl
  | textArea content => exact TextAreaContent.Holds.length h

variable {i j : Nat}

section

variable (h : c.Holds text)
include h

theorem Holds.get (hij : i ≤ j) (hj : j ≤ text.length) : c.get i j = .ok ((text.take j).drop i) := by
  cases c with
  | textField characters =>
    obtain rfl : characters = text := h
    exact StringBuilder.substring_ofNat hij hj
  | textArea content => exact TextAreaContent.Holds.get h hij hj

theorem Holds.getValue : c.getValue = .ok text := by
  cases c with
  | textField characters =>
    obtain rfl : characters = text := h
    rfl
  | textArea content =>
    have hget := TextAreaContent.Holds.get h (Nat.zero_le _) (Nat.le_refl _)
    rw [Content.getValue, TextAreaContent.Holds.length h]
    simpa using hget

theorem Holds.insert (hi : i ≤ text.length) (x : Chars) (notify : Bool) :
    ∃ c', c.insert i x notify = .ok (c', notify && !(c.filterInput x).isEmpty) ∧
      c'.Holds (text.take i ++ c.filterInput x ++ text.drop i) ∧ c'.strips = c.strips := by
  cases c with
  | textField characters =>
    obtain rfl : characters = text := h
    rw [Content.insert, Content.filterInput, strips]
    by_cases hx : JavaFX.filterInput x true true = []
    · refine ⟨textField characters, ?_, ?_, rfl⟩
      · simp [hx, pure, Except.pure]
      · simp [Holds, hx]
    · refine ⟨textField (characters.take i ++ JavaFX.filterInput x true true ++ characters.drop i), ?_, rfl, rfl⟩
      rw [StringBuilder.insert_ofNat _ hi]
      simp [hx, pure, Except.pure, bind, Except.bind]
  | textArea content =>
    obtain ⟨content', hinsert, hholds⟩ := TextAreaContent.Holds.insert h hi x notify
    refine ⟨textArea content', ?_, hholds, rfl⟩
    rw [Content.insert, hinsert]
    rfl

theorem Holds.delete (hij : i ≤ j) (hj : j ≤ text.length) (notify : Bool) :
    ∃ c', c.delete i j notify = .ok (c', notify && decide (i < j)) ∧
      c'.Holds (text.take i ++ text.drop j) ∧ c'.strips = c.strips := by
  cases c with
  | textField characters =>
    obtain rfl : characters = text := h
    rw [Content.delete]
    by_cases hlt : i < j
    · refine ⟨textField (characters.take i ++ characters.drop j), ?_, rfl, rfl⟩
      rw [StringBuilder.delete_ofNat hij hj]
      simp [hlt, pure, Except.pure, bind, Except.bind]
    · obtain rfl : i = j := by omega
      refine ⟨textField characters, ?_, by simp [Holds], rfl⟩
      simp [pure, Except.pure]
  | textArea content =>
    obtain ⟨content', hdelete, hholds⟩ := TextAreaContent.Holds.delete h hij hj notify
    refine ⟨textArea content', ?_, hholds, rfl⟩
    rw [Content.delete, hdelete]
    rfl

/-- A range that reaches beyond the text is cut off or refused.  What is left can be inserted
into at the start of the range. -/
theorem Holds.delete_any (hij : i ≤ j) (notify : Bool) : (∃ e, c.delete i j notify = .error e) ∨
      ∃ c' j', c.delete i j notify = .ok (c', notify && decide (i < j)) ∧
        c'.Holds (text.take i ++ text.drop j') ∧ c'.strips = c.strips ∧ i ≤ j' ∧
        (i < j → i ≤ text.length) ∧ (i = j → j' = i) := by
  by_cases hj : j ≤ text.length
  · obtain ⟨c', hdelete, hholds, hstrips⟩ := h.delete hij hj notify
    exact .inr ⟨c', j, hdelete, hholds, hstrips, hij, fun _ => by omega, fun hi => hi.symm⟩
  · cases c with
    | textField characters =>
      obtain rfl : characters = text := h
      rw [Content.delete]
      by_cases hlt : i < j
      · rw [if_pos (by omega), StringBuilder.delete]
        by_cases hi : i ≤ characters.length
        · have hmin : min (j : Int) characters.length = (characters.length : Nat) := by omega
          refine .inr ⟨textField (characters.take i ++ characters.drop characters.length),
            characters.length, ?_, rfl, rfl, hi, fun _ => hi, fun _ => by omega⟩
          simp only [hmin]
          rw [if_pos ⟨by omega, by omega⟩]
          simp [hlt, pure, Except.pure, bind, Except.bind]
        · refine .inl ⟨.indexOutOfBounds, ?_⟩
          rw [if_neg (by omega)]
          rfl
      · obtain rfl : i = j := by omega
        refine .inr ⟨textField characters, i, ?_, by simp [Holds], rfl, Nat.le_refl _,
          fun hlt => absurd hlt (Nat.lt_irrefl _), fun _ => rfl⟩
        simp [pure, Except.pure]
    | textArea content =>
      have hlength := TextAreaContent.Holds.length h
      refine .inl ⟨.indexOutOfBounds, ?_⟩
      rw [Content.delete, TextAreaContent.delete, if_neg (by omega), if_pos (by omega)]
      rfl

end

theorem delete_nothing {c c' : Content} {i : Int} {notify told : Bool}
    (h : c.delete i i notify = .ok (c', told)) : c' = c := by
  cases c with
  | textField characters =>
    rw [Content.delete, if_neg (by omega)] at h
    simp only [pure, Except.pure, Except.ok.injEq, Prod.mk.injEq] at h
    exact h.1.symm
  | textArea content =>
    rw [Content.delete, TextAreaContent.delete, if_neg (by omega)] at h
    by_cases hin : i < 0 ∨ i > content.contentLength
    · rw [if_pos hin] at h
      cases h
    · rw [if_neg hin] at h
      simp only [sub_self, lt_irrefl, if_false, bind, Except.bind, pure, Except.pure,
        Except.ok.injEq, Prod.mk.injEq] at h
      exact h.1.symm

/-- An insertion outside the text is refused, unless nothing is left of what is inserted. -/
theorem Holds.insert_outside (h : c.Holds text) (hi : text.length < i) (x : Chars)
    (notify : Bool) (hx : c.filterInput x ≠ []) : ∃ e, c.insert i x notify = .error e := by
  cases c with
  | textField characters =>
    obtain rfl : characters = text := h
    refine ⟨.indexOutOfBounds, ?_⟩
    simp only [Content.filterInput, strips] at hx
    have hout : ¬ i ≤ characters.length := by omega
    simp [Content.insert, StringBuilder.insert, hx, hout]
  | textArea content =>
    have hlength := TextAreaContent.Holds.length h
    refine ⟨.indexOutOfBounds, ?_⟩
    rw [Content.insert, TextAreaContent.insert, if_pos (by omega)]
    rfl

end Content

end JavaFX
