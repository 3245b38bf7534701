/-
What the sources take from the language: exceptions, arrays, counting loops and strings.

An `int` is an `Int` and an array is a list whose length never changes.  Reading
or writing outside it is an `indexOutOfBounds`, exactly where the virtual machine
would throw one.  `forRange lo hi` is `for (i = lo; i < hi; ++i)`.
-/
import JavaFX.Lib.Outcome

universe u v

namespace JavaFX

open Outcome

/-- What a call can throw.  `io` is an `IOException`, of whatever class.  `client` is an exception raised by code the caller
passed in, such as a comparator, a predicate or a collection. -/
inductive JavaException
  | illegalState (message : String)
  | illegalArgument
  | arithmetic
  | nullPointer
  | indexOutOfBounds
  | negativeArraySize
  | concurrentModification
  | unsupportedOperation
  | noSuchElement
  | outOfMemory
  | io
  | client
deriving Repr, DecidableEq

/-- `a[i]`. -/
def getAt {α : Type u} (a : List α) (i : Int) : Except JavaException α :=
  match (if 0 ≤ i then a[i.toNat]? else none) with
  | some x => .ok x
  | none => .error .indexOutOfBounds

/-- `a[i] = x`. -/
def setAt {α : Type u} (a : List α) (i : Int) (x : α) : Except JavaException (List α) :=
  if 0 ≤ i ∧ i < a.length then .ok (a.set i.toNat x) else .error .indexOutOfBounds

/-- `System.arraycopy(src, srcPos, dest, destPos, length)`.  The source is read
before anything is written, so the two arrays may be one. -/
def arraycopy {α : Type u} (src : List α) (srcPos : Int) (dest : List α) (destPos length : Int) :
    Except JavaException (List α) :=
  if 0 ≤ srcPos ∧ 0 ≤ destPos ∧ 0 ≤ length ∧ srcPos + length ≤ src.length ∧ destPos + length ≤ dest.length then
    .ok (dest.take destPos.toNat ++ (src.drop srcPos.toNat).take length.toNat ++ dest.drop (destPos + length).toNat)
  else .error .indexOutOfBounds

/-- `n` rounds of a counting loop that starts at `i`. -/
def loopFrom {σ : Type u} (body : Int → σ → Except JavaException σ) :
    Nat → Int → σ → Except JavaException σ
  | 0, _, s => .ok s
  | n + 1, i, s => (body i s).bind (loopFrom body n (i + 1))

/-- `for (i = lo; i < hi; ++i) s = body(i, s)`. -/
def forRange {σ : Type u} (lo hi : Int) (body : Int → σ → Except JavaException σ) (s : σ) :
    Except JavaException σ :=
  loopFrom body (hi - lo).toNat lo s

/-- The array whose entry `i - lo` is `f i`, for `i` in `[lo, hi)`. -/
def tabulate {α : Type u} (lo hi : Int) (f : Int → Except JavaException α) :
    Except JavaException (List α) :=
  forRange lo hi (fun i a => (f i).map (fun x => a ++ [x])) []

/-- `TreeSet.add`: the set is the list of its elements in ascending order. -/
def treeSetAdd (x : Int) : List Int → List Int
  | [] => [x]
  | y :: ys => if x < y then x :: y :: ys else if x = y then y :: ys else y :: treeSetAdd x ys

/-- `HashMap.put`: an entry that is there gets the new value. -/
def hashMapPut {β : Type u} (key : Int) (value : β) : List (Int × β) → List (Int × β)
  | [] => [(key, value)]
  | e :: es => if e.1 = key then (key, value) :: es else e :: hashMapPut key value es

/-- `HashMap.remove`: the value that was there, and the other entries. -/
def hashMapRemove {β : Type u} (key : Int) : List (Int × β) → Option β × List (Int × β)
  | [] => (none, [])
  | e :: es =>
    if e.1 = key then (some e.2, es)
    else ((hashMapRemove key es).1, e :: (hashMapRemove key es).2)

section
variable {α : Type u}

variable {a : List α}

theorem getAt_ofNat {i : Nat} (h : i < a.length) : getAt a (i : Int) = .ok a[i] := by
  simp [getAt, h]

theorem getAt_eq_ok {i : Int} {x : α} : getAt a i = .ok x ↔ 0 ≤ i ∧ a[i.toNat]? = some x := by
  unfold getAt
  by_cases h : 0 ≤ i
  · rw [if_pos h]
    cases a[i.toNat]? <;> simp [h]
  · simp [h]

theorem setAt_ofNat {i : Nat} (x : α) (h : i < a.length) : setAt a (i : Int) x = .ok (a.set i x) := by
  simp [setAt, h]

@[simp] theorem getAt_append (a : List α) (x : α) (b : List α) : getAt (a ++ x :: b) a.length = .ok x := by
  rw [getAt_ofNat (by simp)]
  simp

@[simp] theorem setAt_append (a : List α) (x : α) (b : List α) (y : α) :
    setAt (a ++ x :: b) a.length y = .ok (a ++ y :: b) := by
  rw [setAt_ofNat y (by simp)]
  simp

@[simp] theorem getAt_append_succ (a : List α) (x y : α) (b : List α) :
    getAt (a ++ x :: y :: b) (a.length + 1) = .ok y := by
  simpa using getAt_append (a ++ [x]) y b

@[simp] theorem setAt_append_succ (a : List α) (x y : α) (b : List α) (z : α) :
    setAt (a ++ x :: y :: b) (a.length + 1) z = .ok (a ++ x :: z :: b) := by
  simpa using setAt_append (a ++ [x]) y b z

theorem arraycopy_append (a x b c y d : List α) (h : y.length = x.length) :
    arraycopy (a ++ (x ++ b)) a.length (c ++ (y ++ d)) c.length x.length = .ok (c ++ (x ++ d)) := by
  have hbound : (0 : Int) ≤ a.length ∧ (0 : Int) ≤ c.length ∧ (0 : Int) ≤ x.length ∧
      (a.length : Int) + x.length ≤ (a ++ (x ++ b)).length ∧
      (c.length : Int) + x.length ≤ (c ++ (y ++ d)).length := by
    simp only [List.length_append]
    omega
  have hdrop : (c ++ (y ++ d)).drop (c.length + x.length) = d := by
    rw [← List.append_assoc, ← h, ← List.length_append, List.drop_left]
  have hto : ((c.length : Int) + x.length).toNat = c.length + x.length := by omega
  rw [arraycopy, if_pos hbound, hto, hdrop]
  simp

end

/-! ### Counting loops -/

variable {σ : Type u} {body : Int → σ → Except JavaException σ}

theorem loopFrom_inv (Inv : Int → σ → Prop) : ∀ (n : Nat) (i : Int) (s : σ), Inv i s →
      (∀ j s, i ≤ j → j < i + n → Inv j s → ∃ s', body j s = .ok s' ∧ Inv (j + 1) s') →
      ∃ s', loopFrom body n i s = .ok s' ∧ Inv (i + n) s' := by
  intro n
  induction n with
  | zero => intro i s h0 _; exact ⟨s, rfl, by simpa using h0⟩
  | succ n ih =>
    intro i s h0 hstep
    obtain ⟨s₁, h₁, hinv⟩ := hstep i s (by omega) (by omega) h0
    obtain ⟨s₂, h₂, hinv₂⟩ := ih (i + 1) s₁ hinv (fun j s hj hj' => hstep j s (by omega) (by omega))
    refine ⟨s₂, by rw [loopFrom, h₁, Except.bind, h₂], ?_⟩
    have : i + 1 + (n : Int) = i + ((n + 1 : Nat) : Int) := by omega
    rwa [this] at hinv₂

/-- The loop invariant rule: a body that never throws and keeps `Inv` from one
index to the next carries it from the first index to the last. -/
theorem forRange_inv (Inv : Int → σ → Prop) {lo hi : Int} (hle : lo ≤ hi) {s : σ} (h0 : Inv lo s)
    (hstep : ∀ i s, lo ≤ i → i < hi → Inv i s → ∃ s', body i s = .ok s' ∧ Inv (i + 1) s') :
    ∃ s', forRange lo hi body s = .ok s' ∧ Inv hi s' := by
  obtain ⟨s', h', hinv⟩ := loopFrom_inv Inv (hi - lo).toNat lo s h0 (fun j s hj hj' => hstep j s hj (by omega))
  have : lo + ((hi - lo).toNat : Int) = hi := by omega
  exact ⟨s', h', by rwa [this] at hinv⟩

/-- The loop rule for a body that calls code of the caller. -/
theorem forRange_ensures {thrown : JavaException → Prop} (Inv : Int → σ → Prop)
    {lo hi : Int} (hle : lo ≤ hi) {s : σ} (h0 : Inv lo s)
    (hstep : ∀ i s, lo ≤ i → i < hi → Inv i s → Ensures (body i s) thrown (Inv (i + 1))) :
    Ensures (forRange lo hi body s) thrown (Inv hi) := by
  suffices h : ∀ (n : Nat) (i : Int) (s : σ), i + n = hi → lo ≤ i → Inv i s →
      Ensures (loopFrom body n i s) thrown (Inv hi) from
    h (hi - lo).toNat lo s (by omega) (Int.le_refl lo) h0
  intro n
  induction n with
  | zero =>
    intro i s hi' _ hinv
    have : i = hi := by omega
    exact this ▸ hinv
  | succ n ih =>
    intro i s hi' hlo hinv
    exact (hstep i s hlo (by omega) hinv).bind (fun s' hs' => ih (i + 1) s' (by omega) (by omega) hs')

/-! ### Strings -/

/-- A `char`. -/
abbrev CodeUnit := UInt16

/-- The code unit of a character. -/
def unit (c : Char) : CodeUnit := c.toNat.toUInt16

/-- The code units of a string. -/
def units (s : String) : List CodeUnit := s.toList.map unit

/-- `String.compareTo`: the difference at the first code unit that differs, or else of the
lengths. -/
def compareStrings : List CodeUnit → List CodeUnit → Int
  | [], ys => -ys.length
  | xs, [] => xs.length
  | x :: xs, y :: ys => if x = y then compareStrings xs ys else (x.toNat : Int) - y.toNat

end JavaFX
