/-
Programs that change a state and may fail halfway.

A failing call does not undo what it did: the state it leaves is part of its
outcome, which is what a `finally` clause and everybody who looks at the object
afterwards get to see.  The rules below follow the way programs are put together;
the rule for a loop takes an invariant for the rounds that return and another for
the state a failing round leaves behind.
-/
import Mathlib.Data.List.Basic

/-- A call on a state: what it comes to, and the state it leaves. -/
def Program (ε σ α : Type) : Type := σ → Except ε α × σ

namespace Program

open List

variable {ε σ α β : Type}

instance : Monad (Program ε σ) where
  pure a := fun s => (.ok a, s)
  bind x f := fun s =>
    match x s with
    | (.ok a, s') => f a s'
    | (.error e, s') => (.error e, s')

def throw (e : ε) : Program ε σ α := fun s => (.error e, s)

/-- Read something off the state. -/
def read (f : σ → α) : Program ε σ α := fun s => (.ok (f s), s)

def modify (f : σ → σ) : Program ε σ Unit := fun s => (.ok (), f s)

/-- A computation that does not touch the state. -/
def lift (x : Except ε α) : Program ε σ α := fun s => (x, s)

/-- `try { body } finally { last }`. -/
def tryFinally (body : Program ε σ α) (last : Program ε σ Unit) : Program ε σ α := fun s =>
  match body s with
  | (r, s') =>
    match last s' with
    | (.ok _, s'') => (r, s'')
    | (.error e, s'') => (.error e, s'')

/-- `for (x : xs) body(x)`. -/
def forEach (body : α → Program ε σ Unit) : List α → Program ε σ Unit
  | [] => pure ()
  | x :: xs => do
    body x
    forEach body xs

variable {x : Program ε σ α} {f : α → Program ε σ β} {s s' : σ}

/-! ### Rules -/

@[simp] theorem pure_apply (a : α) (s : σ) : (pure a : Program ε σ α) s = (.ok a, s) := rfl

@[simp] theorem read_apply (g : σ → α) (s : σ) : (read g : Program ε σ α) s = (.ok (g s), s) := rfl

@[simp] theorem modify_apply (g : σ → σ) (s : σ) : (modify g : Program ε σ Unit) s = (.ok (), g s) := rfl

@[simp] theorem lift_apply (r : Except ε α) (s : σ) : (lift r : Program ε σ α) s = (r, s) := rfl

@[simp] theorem throw_apply (e : ε) (s : σ) : (throw e : Program ε σ α) s = (.error e, s) := rfl

theorem bind_ok {a : α} (h : x s = (.ok a, s')) : (x >>= f) s = f a s' := by
  show (match x s with
    | (.ok a, s') => f a s'
    | (.error e, s') => (.error e, s')) = f a s'
  rw [h]

variable {e : ε} {body : α → Program ε σ Unit} {xs : List α}

theorem bind_error (h : x s = (.error e, s')) : (x >>= f) s = (.error e, s') := by
  show (match x s with
    | (.ok a, s') => f a s'
    | (.error e, s') => (.error e, s')) = (.error e, s')
  rw [h]

theorem seq_assoc {γ : Type} (g : β → Program ε σ γ) : ((x >>= f) >>= g) = x >>= fun a => f a >>= g := by
  funext s
  rcases h : x s with ⟨r, s'⟩
  cases r with
  | ok a =>
    rw [bind_ok h]
    show (match (x >>= f) s with
      | (.ok b, s'') => g b s''
      | (.error e, s'') => (.error e, s'')) = _
    rw [bind_ok h]
    rfl
  | error e => rw [bind_error h, bind_error (bind_error h)]

theorem forEach_append (xs ys : List α) : forEach body (xs ++ ys) = forEach body xs >>= fun _ => forEach body ys := by
  induction xs with
  | nil => rfl
  | cons a xs ih =>
    simp only [cons_append, forEach]
    rw [ih, seq_assoc]

theorem forEach_congr {body' : α → Program ε σ Unit} (h : ∀ a ∈ xs, body a = body' a) :
    forEach body xs = forEach body' xs := by
  induction xs with
  | nil => rfl
  | cons a xs ih =>
    rw [forEach, forEach, h a mem_cons_self, ih fun b hb => h b (mem_cons_of_mem a hb)]

theorem forEach_foldl {step : σ → α → σ}
    (h : ∀ a ∈ xs, ∀ s, body a s = (.ok (), step s a)) (s : σ) : forEach body xs s = (.ok (), xs.foldl step s) := by
  induction xs generalizing s with
  | nil => rfl
  | cons a xs ih =>
    rw [forEach, bind_ok (h a mem_cons_self s)]
    exact ih (fun b hb => h b (mem_cons_of_mem a hb)) _

theorem forEach_fails {a : α} (ha : a ∈ xs)
    (hfails : ∀ s, (body a s).1 = .error e) (hothers : ∀ b ∈ xs, ∀ s, (body b s).1 = .ok () ∨ (body b s).1 = .error e)
    (s : σ) : (forEach body xs s).1 = .error e := by
  induction xs generalizing s with
  | nil => cases ha
  | cons b xs ih =>
    rcases hb : body b s with ⟨r, s'⟩
    have hr : r = .ok () ∨ r = .error e := by simpa [hb] using hothers b mem_cons_self s
    rcases hr with rfl | rfl
    · rw [forEach, bind_ok hb]
      rcases List.mem_cons.mp ha with rfl | ha
      · have hfail := hfails s
        rw [hb] at hfail
        cases hfail
      · exact ih ha (fun c hc => hothers c (mem_cons_of_mem b hc)) s'
    · rw [forEach, bind_error hb]

/-- What is done with the result of a call does not change where the call leads. -/
theorem bind_pure_snd (g : α → β) : ((x >>= fun a => pure (g a)) s).2 = (x s).2 := by
  rcases h : x s with ⟨r, s'⟩
  cases r with
  | ok a => rw [bind_ok h]; rfl
  | error e => rw [bind_error h]

theorem bind_pure_error (g : α → β) (h : (x s).1 = .error e) : ((x >>= fun a => pure (g a)) s).1 = .error e := by
  have hx : x s = (.error e, (x s).2) := by rw [← h]
  rw [bind_error hx]

variable {last : Program ε σ Unit}

theorem tryFinally_apply {r : Except ε α} {s'' : σ} (h : x s = (r, s'))
    (hlast : last s' = (.ok (), s'')) : tryFinally x last s = (r, s'') := by
  rw [tryFinally, h]
  simp only [hlast]

theorem tryFinally_snd (last : Program ε σ Unit) : (tryFinally x last s).2 = (last (x s).2).2 := by
  unfold tryFinally
  rcases hl : last (x s).2 with ⟨r, s''⟩
  simp only [hl]
  cases r <;> rfl

/-! ### Invariants -/

/-- `x` keeps `Inv`, whether it returns or fails. -/
def Keeps (Inv : σ → Prop) (x : Program ε σ α) : Prop := ∀ s, Inv s → Inv (x s).2

variable {Inv : σ → Prop}

theorem keeps_pure (a : α) : Keeps Inv (pure a : Program ε σ α) := fun _ h => h

theorem keeps_read (g : σ → α) : Keeps Inv (read g : Program ε σ α) := fun _ h => h

theorem keeps_lift (r : Except ε α) : Keeps Inv (lift r : Program ε σ α) := fun _ h => h

theorem keeps_throw (e : ε) : Keeps Inv (throw e : Program ε σ α) := fun _ h => h

theorem keeps_bind (hx : Keeps Inv x) (hf : ∀ a, Keeps Inv (f a)) : Keeps Inv (x >>= f) := by
  intro s h
  have hs := hx s h
  rcases hxs : x s with ⟨r, s'⟩
  rw [hxs] at hs
  cases r with
  | ok a => rw [bind_ok hxs]; exact hf a s' hs
  | error e => rw [bind_error hxs]; exact hs

theorem keeps_tryFinally (hx : Keeps Inv x) (hlast : Keeps Inv last) : Keeps Inv (tryFinally x last) := by
  intro s h
  rw [tryFinally_snd]
  exact hlast _ (hx s h)

theorem keeps_forEach (hbody : ∀ a, Keeps Inv (body a)) : ∀ xs, Keeps Inv (forEach body xs) := by
  intro xs
  induction xs with
  | nil => exact keeps_pure ()
  | cons a xs ih => exact keeps_bind (hbody a) (fun _ => ih)

theorem keeps_forEach_of_mem (hbody : ∀ a ∈ xs, Keeps Inv (body a)) : Keeps Inv (forEach body xs) := by
  induction xs with
  | nil => exact keeps_pure ()
  | cons a xs ih =>
    exact keeps_bind (hbody a mem_cons_self) fun _ => ih fun b hb => hbody b (mem_cons_of_mem a hb)

/-! ### Enough fuel

A function with loops that the source does not bound takes the number of rounds and of
nested calls it may make.  It returns if every large enough number gives one result. -/

/-- Given enough fuel, `f` returns `a` and leaves `s'`. -/
def Returns (f : Nat → Program ε σ α) (s : σ) (a : α) (s' : σ) : Prop :=
  ∃ bound, ∀ fuel, bound ≤ fuel → f fuel s = (.ok a, s')

section
variable {g : Nat → Program ε σ α} {k : Nat → α → Program ε σ β} {a : α} {b : β} {s'' : σ}

theorem returns_of_eq (h : x s = (.ok a, s')) : Returns (fun _ => x) s a s' :=
  ⟨0, fun _ _ => h⟩

theorem returns_pure (a : α) (s : σ) : Returns (fun _ => (pure a : Program ε σ α)) s a s :=
  returns_of_eq rfl

theorem Returns.succ {g' : Nat → Program ε σ α} (h : Returns g' s a s')
    (hg : ∀ fuel, g (fuel + 1) = g' fuel) : Returns g s a s' := by
  obtain ⟨bound, h⟩ := h
  refine ⟨bound + 1, fun fuel hfuel => ?_⟩
  obtain ⟨fuel, rfl⟩ : ∃ n, fuel = n + 1 := ⟨fuel - 1, by omega⟩
  rw [hg]
  exact h fuel (by omega)

theorem Returns.bind (hg : Returns g s a s') (hk : Returns (fun fuel => k fuel a) s' b s'') :
    Returns (fun fuel => g fuel >>= k fuel) s b s'' := by
  obtain ⟨m, hg⟩ := hg
  obtain ⟨n, hk⟩ := hk
  refine ⟨max m n, fun fuel hfuel => ?_⟩
  show (g fuel >>= k fuel) s = _
  rw [bind_ok (hg fuel (by omega))]
  exact hk fuel (by omega)

theorem Returns.after (hx : x s = (.ok a, s')) (hk : Returns (fun fuel => k fuel a) s' b s'') :
    Returns (fun fuel => x >>= k fuel) s b s'' :=
  Returns.bind (returns_of_eq hx) hk

theorem Returns.unique {a' : α} (h : Returns g s a s') (h' : Returns g s a' s'') : a = a' ∧ s' = s'' := by
  obtain ⟨m, h⟩ := h
  obtain ⟨n, h'⟩ := h'
  have heq := (h (max m n) (by omega)).symm.trans (h' (max m n) (by omega))
  simpa using heq

end

end Program
