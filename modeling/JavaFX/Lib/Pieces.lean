/-
A text cut into pieces.

`ended sep pieces` puts a separator after every piece, the last one included.  Unlike the text
with separators only between the pieces, it is a homomorphism: the pieces before a place and the
pieces after it can be talked about on their own, and a position in the text is the length of what
stands before it plus a position in one piece.
-/
import Mathlib.Data.List.Basic

universe u

namespace Pieces

open List

variable {α : Type u} {sep : α}

def ended (sep : α) (pieces : List (List α)) : List α := pieces.flatMap (· ++ [sep])

variable {ps : List (List α)} {text : List α}

@[simp] theorem ended_nil : ended sep [] = [] := rfl

@[simp] theorem ended_cons (p : List α) (ps : List (List α)) : ended sep (p :: ps) = p ++ sep :: ended sep ps := by
  simp [ended]

@[simp] theorem ended_append (ps qs : List (List α)) : ended sep (ps ++ qs) = ended sep ps ++ ended sep qs := by
  simp [ended]

/-- Every position before the end of the separators lies in a piece or right after one. -/
theorem exists_piece {i : Nat} (h : i < (ended sep ps).length) :
    ∃ l p r, ps = l ++ p :: r ∧ (ended sep l).length ≤ i ∧ i ≤ (ended sep l).length + p.length := by
  induction ps generalizing i with
  | nil => simp at h
  | cons p ps ih =>
    by_cases hi : i ≤ p.length
    · exact ⟨[], p, ps, rfl, by simp, by simpa using hi⟩
    · have hrest : i - (p.length + 1) < (ended sep ps).length := by
        simp at h
        omega
      obtain ⟨l, q, r, rfl, hl, hr⟩ := ih hrest
      refine ⟨p :: l, q, r, rfl, ?_, ?_⟩ <;> simp <;> omega

/-- The pieces are what the text before the last separator splits into. -/
theorem eq_splitOn [DecidableEq α] {p : List α}
    (h : ended sep (p :: ps) = text ++ [sep]) (hsep : ∀ q ∈ p :: ps, sep ∉ q) : p :: ps = text.splitOn sep := by
  induction ps generalizing p text with
  | nil =>
    obtain rfl : p = text := by simpa using h
    exact (splitOn_eq_singleton (hsep p (by simp))).symm
  | cons q ps ih =>
    obtain ⟨last, hlast⟩ : ∃ last, ended sep (q :: ps) = last ++ [sep] := by
      obtain ⟨init, l, hl⟩ := (eq_nil_or_concat (q :: ps)).resolve_left (by simp)
      exact ⟨ended sep init ++ l, by simp [hl]⟩
    obtain rfl : p ++ sep :: last = text := by
      rw [ended_cons, hlast, ← cons_append, ← append_assoc] at h
      exact append_cancel_right h
    rw [splitOn_append_cons_self, splitOn_eq_singleton (hsep p (by simp)),
      ← ih hlast fun r hr => hsep r (by simp [hr])]
    rfl

theorem insert_ended {x : List α} {i : Nat} (hi : i ≤ text.length) : text.take i ++ x ++ text.drop i ++ [sep]
      = (text ++ [sep]).take i ++ x ++ (text ++ [sep]).drop i := by
  rw [take_append_of_le_length hi, drop_append_of_le_length hi]
  simp

theorem delete_ended {i j : Nat} (hi : i ≤ text.length) (hj : j ≤ text.length) :
    text.take i ++ text.drop j ++ [sep] = (text ++ [sep]).take i ++ (text ++ [sep]).drop j := by
  rw [take_append_of_le_length hi, drop_append_of_le_length hj]
  simp

/-! ### A position in a piece -/

section
variable {l r : List (List α)} {p : List α} {i : Nat}

theorem take_ended (hl : (ended sep l).length ≤ i) (hr : i ≤ (ended sep l).length + p.length) :
    (ended sep (l ++ p :: r)).take i = ended sep l ++ p.take (i - (ended sep l).length) := by
  rw [ended_append, ended_cons, take_append, take_of_length_le hl, take_append_of_le_length (by omega)]

theorem drop_ended (hl : (ended sep l).length ≤ i) (hr : i ≤ (ended sep l).length + p.length) :
    (ended sep (l ++ p :: r)).drop i = p.drop (i - (ended sep l).length) ++ sep :: ended sep r := by
  rw [ended_append, ended_cons, drop_append, drop_eq_nil_of_le hl, drop_append_of_le_length (by omega), nil_append]

end

end Pieces
