/-
Chains of handlers that hand a call on.

A handler gets a message and the rest of the chain.  What it does is a script: it looks
at the world and changes it, it adds handlers to either end of the chain it has got, it
sends messages to that chain, any number of times, and it returns or fails.  A message
goes to the first handler of the chain, with the rest of the chain.

`Ops` is what a kind of chain can do.  A chain of one kind refines a chain of another
kind if single steps do; then all scripts come to the same on both.  A chain may share
its storage with the chains it was taken from.  `ext` says what the owner of a chain has
to know about what became of the part it has handed on.
-/
import Mathlib.Data.List.Basic

namespace Relay

/-- What a handler does. -/
inductive Script (W D E : Type)
  | ret (result : E)
  | fail
  | look (next : W → Script W D E)
  | change (f : W → W) (next : Script W D E)
  | append (handler : D) (next : Script W D E)
  | prepend (handler : D) (next : Script W D E)
  | send (message : E) (returned : E → Script W D E) (failed : Script W D E)

inductive Outcome (E : Type)
  | returned (result : E)
  | failed
deriving DecidableEq, Repr

/-- A kind of chain: it can be added to, and taken apart.  `take` gives the first handler,
the rest to hand on, and what the chain is when the rest comes back.  Anything can fail. -/
structure Ops (ε C D : Type) where
  append : D → C → Except ε C
  prepend : D → C → Except ε C
  take : C → Except ε (Option (D × C × (C → C)))

section
variable {ε W D E C A : Type}

/-- What a call comes to, and the world and the chain it leaves. -/
abbrev Run (W E C : Type) := Option (Outcome E × W × C)

/-- A script on a chain, where `send` is what sending a message does. -/
def runScript (ops : Ops ε C D) (send : E → W → C → Run W E C) :
    Script W D E → W → C → Run W E C
  | .ret result, w, c => some (.returned result, w, c)
  | .fail, w, c => some (.failed, w, c)
  | .look next, w, c => runScript ops send (next w) w c
  | .change f next, w, c => runScript ops send next (f w) c
  | .append handler next, w, c =>
    match ops.append handler c with
    | .ok c => runScript ops send next w c
    | .error _ => some (.failed, w, c)
  | .prepend handler next, w, c =>
    match ops.prepend handler c with
    | .ok c => runScript ops send next w c
    | .error _ => some (.failed, w, c)
  | .send message returned failed, w, c =>
    match send message w c with
    | some (.returned result, w, c) => runScript ops send (returned result) w c
    | some (.failed, w, c) => runScript ops send failed w c
    | none => none

/-- A message is sent: the first handler gets it, if there is one.  `none` if calls go
deeper than the given depth. -/
def send (ops : Ops ε C D) (handle : D → E → Script W D E) : Nat → E → W → C → Run W E C
  | 0, _, _, _ => none
  | depth + 1, message, w, c =>
    match ops.take c with
    | .error _ => some (.failed, w, c)
    | .ok none => some (.returned message, w, c)
    | .ok (some (handler, rest, restore)) =>
      match runScript ops (send ops handle depth) (handle handler message) w rest with
      | some (.returned result, w, rest) => some (.returned result, w, restore rest)
      | some (.failed, w, rest) => some (.failed, w, rest)
      | none => none

/-- Single steps on two kinds of chains correspond, and those of the first never fail. -/
structure Refines (concrete : Ops ε C D) (abstract : Ops ε A D) (R : C → A → Prop)
    (ext : C → C → Prop) : Prop where
  refl : ∀ c, ext c c
  trans : ∀ {c c' c''}, ext c c' → ext c' c'' → ext c c''
  append : ∀ {c a} d, R c a → ∃ c' a', concrete.append d c = .ok c' ∧ abstract.append d a = .ok a' ∧ R c' a' ∧ ext c c'
  prepend : ∀ {c a} d, R c a → ∃ c' a', concrete.prepend d c = .ok c' ∧
    abstract.prepend d a = .ok a' ∧ R c' a' ∧ ext c c'
  take : ∀ {c a}, R c a → (concrete.take c = .ok none ∧ abstract.take a = .ok none) ∨
    ∃ d rest restore rest' restore', concrete.take c = .ok (some (d, rest, restore)) ∧
      abstract.take a = .ok (some (d, rest', restore')) ∧ R rest rest' ∧ ext c rest ∧
      ∀ c' a', ext rest c' → R (restore c') (restore' a') ∧ ext c (restore c')

/-- Two runs come to the same. -/
def Agree (R : C → A → Prop) (ext : C → C → Prop) (c : C) (r : Run W E C) (r' : Run W E A) : Prop :=
  (r = none ∧ r' = none) ∨ ∃ outcome w c' a', r = some (outcome, w, c') ∧
    r' = some (outcome, w, a') ∧ R c' a' ∧ ext c c'

variable {concrete : Ops ε C D} {abstract : Ops ε A D} {R : C → A → Prop} {ext : C → C → Prop}

section

variable (h : Refines concrete abstract R ext)
include h

theorem Agree.trans {c c' : C} {r : Run W E C} {r' : Run W E A}
    (hext : ext c c') (ha : Agree R ext c' r r') : Agree R ext c r r' := by
  rcases ha with hnone | ⟨outcome, w, c'', a'', hr, hr', hrel, hext'⟩
  · exact .inl hnone
  · exact .inr ⟨outcome, w, c'', a'', hr, hr', hrel, h.trans hext hext'⟩

/-- A script comes to the same on both chains, if sending does. -/
theorem runScript_agree {sendC : E → W → C → Run W E C}
    {sendA : E → W → A → Run W E A}
    (hsend : ∀ message w c a, R c a → Agree R ext c (sendC message w c) (sendA message w a)) :
    ∀ (script : Script W D E) (w : W) (c : C) (a : A), R c a →
      Agree R ext c (runScript concrete sendC script w c) (runScript abstract sendA script w a) := by
  intro script
  induction script with
  | ret result => intro w c a hrel; exact .inr ⟨_, w, c, a, rfl, rfl, hrel, h.refl c⟩
  | fail => intro w c a hrel; exact .inr ⟨_, w, c, a, rfl, rfl, hrel, h.refl c⟩
  | look next ih => intro w c a hrel; exact ih w w c a hrel
  | change f next ih => intro w c a hrel; exact ih (f w) c a hrel
  | append d next ih =>
    intro w c a hrel
    obtain ⟨c', a', hc, ha, hrel', hext⟩ := h.append d hrel
    simp only [runScript, hc, ha]
    exact Agree.trans h hext (ih w c' a' hrel')
  | prepend d next ih =>
    intro w c a hrel
    obtain ⟨c', a', hc, ha, hrel', hext⟩ := h.prepend d hrel
    simp only [runScript, hc, ha]
    exact Agree.trans h hext (ih w c' a' hrel')
  | send message returned failed ihr ihf =>
    intro w c a hrel
    rcases hsend message w c a hrel with ⟨hc, ha⟩ | ⟨outcome, w', c', a', hc, ha, hrel', hext⟩
    · simp only [runScript, hc, ha]
      exact .inl ⟨rfl, rfl⟩
    · cases outcome with
      | returned result =>
        simp only [runScript, hc, ha]
        exact Agree.trans h hext (ihr result w' c' a' hrel')
      | failed =>
        simp only [runScript, hc, ha]
        exact Agree.trans h hext (ihf w' c' a' hrel')

/-- **Sending a message** comes to the same on both chains. -/
theorem send_agree (handle : D → E → Script W D E) :
    ∀ (depth : Nat) (message : E) (w : W) (c : C) (a : A), R c a →
      Agree R ext c (send concrete handle depth message w c) (send abstract handle depth message w a) := by
  intro depth
  induction depth with
  | zero => intro message w c a _; exact .inl ⟨rfl, rfl⟩
  | succ depth ih =>
    intro message w c a hrel
    rcases h.take hrel with ⟨hc, ha⟩ | ⟨d, rest, restore, rest', restore', hc, ha, hrest, hext, hback⟩
    · simp only [send, hc, ha]
      exact .inr ⟨_, w, c, a, rfl, rfl, hrel, h.refl c⟩
    · rcases runScript_agree h ih (handle d message) w rest rest' hrest with
        ⟨hrc, hra⟩ | ⟨outcome, w', c', a', hrc, hra, hrel', hext'⟩
      · simp only [send, hc, ha, hrc, hra]
        exact .inl ⟨rfl, rfl⟩
      · cases outcome with
        | returned result =>
          simp only [send, hc, ha, hrc, hra]
          obtain ⟨hrel'', hext''⟩ := hback c' a' hext'
          exact .inr ⟨_, w', _, _, rfl, rfl, hrel'', hext''⟩
        | failed =>
          simp only [send, hc, ha, hrc, hra]
          exact .inr ⟨_, w', c', a', rfl, rfl, hrel', h.trans hext hext'⟩

end

end

end Relay
