/-
The lexer gets to the end of every input.

Between two calls of `nextToken` the lexer is `Ready`: it is in its first state, and the only
token it may keep is the end of the input, when it is there.  From such a state a call
consumes a character, or it is at the end and says so.  Since no call puts anything back, the
number of calls before the end is bounded by the number of characters.
-/
import JavaFX.Css.CssLexer
import Mathlib.Order.Nat

namespace JavaFX.CssLexer

/-- The lexer between two calls. -/
structure Ready (s : CssLexer) : Prop where
  drained : s.Drained
  currentState : s.currentState = .init
  token : s.token = none ∨ s.token = some .eofToken ∧ s.ch = none

variable {s : CssLexer}

theorem ready_setReader (input : List CodeUnit) : (setReader input).Ready := by
  refine ⟨?_, rfl, .inl rfl⟩
  intro hch
  simp only [setReader, readChar, List.head?_eq_none_iff] at hch
  simp [setReader, readChar, hch]

theorem left_setReader (input : List CodeUnit) : (setReader input).left = input.length := by
  cases input <;> simp [setReader, readChar, left]

theorem Drained.left_eq_zero (h : s.Drained) (hch : s.ch = none) : s.left = 0 := by
  simp [left, hch, h hch]

theorem left_eq_zero_iff (h : s.Drained) : s.left = 0 ↔ s.ch = none := by
  refine ⟨fun hzero => ?_, h.left_eq_zero⟩
  cases hch : s.ch with
  | none => rfl
  | some c => simp [left, hch] at hzero

/-- What a call of `nextToken` does between two calls. -/
structure Advances (s : CssLexer) (r : Token × CssLexer) : Prop where
  ready : r.2.Ready
  left : r.2.left ≤ s.left
  consumes : s.left ≠ 0 → r.2.left < s.left
  atEnd : s.left = 0 → r.1.type = .eof
  eof : r.1.type = .eof → r.2.left = 0

theorem getUnskipped_spec (s : CssLexer) : GetsToken s s.getUnskipped := by
  fun_induction getUnskipped s with
  | case1 s hskip ih =>
    have htoken := getsToken_getToken s
    have htype : s.getToken.1.type = .skip := by
      simp only [Token.equals, decide_eq_true_eq] at hskip
      exact hskip.1.symm
    have hlt := htoken.skip htype
    have hreturns := ih.returns
    have hless := Nat.lt_of_le_of_lt hreturns.left hlt
    have hkept := htoken.returns.skip htype
    refine ⟨⟨Nat.le_of_lt hless, fun hs => hreturns.drained (htoken.returns.drained hs), hreturns.eof, ?_, ?_⟩,
      fun _ => hless, fun _ _ => hless, ?_⟩
    · exact fun hskip => (hreturns.skip hskip).trans hkept
    · rw [← hkept]
      exact hreturns.token
    · intro hinit hend
      have heof := htoken.atEnd hinit hend
      rw [htype] at heof
      simp at heof
  | case2 s => exact getsToken_getToken s

theorem nextToken_advances (h : s.Ready) : Advances s s.nextToken := by
  unfold nextToken
  rcases h.token with hnone | ⟨heof, hch⟩
  · have hgets := getUnskipped_spec s
    have hdrained := hgets.returns.drained h.drained
    simp only [hnone]
    refine ⟨⟨hdrained, rfl, ?_⟩, hgets.returns.left, ?_, ?_, ?_⟩
    · rcases hgets.returns.token with hsame | hrest
      · exact .inl (hsame.trans hnone)
      · exact hrest
    · intro hleft
      exact hgets.consumes h.currentState (fun hch => hleft (h.drained.left_eq_zero hch))
    · intro hleft
      exact hgets.atEnd h.currentState ((left_eq_zero_iff h.drained).mp hleft)
    · intro htype
      exact hdrained.left_eq_zero (hgets.returns.eof htype)
  · have hzero := h.drained.left_eq_zero hch
    simp only [heof, Token.eofToken, ne_eq, not_true_eq_false, if_false]
    refine ⟨⟨h.drained, rfl, .inr ⟨rfl, hch⟩⟩, Nat.le_refl _, ?_, fun _ => rfl, fun _ => hzero⟩
    exact fun hleft => absurd hzero hleft

/-! ### Runs -/

/-- The lexer after `n` calls of `nextToken`. -/
def after (input : List CodeUnit) : Nat → CssLexer
  | 0 => setReader input
  | n + 1 => (after input n).nextToken.2

/-- The token that call `n` returns. -/
def tokenAt (input : List CodeUnit) (n : Nat) : Token := (after input n).nextToken.1

theorem ready_after (input : List CodeUnit) (n : Nat) : (after input n).Ready := by
  induction n with
  | zero => exact ready_setReader input
  | succ n ih => exact (nextToken_advances ih).ready

theorem left_after_le (input : List CodeUnit) (n : Nat) : (after input n).left ≤ input.length - n := by
  induction n with
  | zero => exact (left_setReader input).le
  | succ n ih =>
    have hadvances := nextToken_advances (ready_after input n)
    have hle := hadvances.left
    change (after input n).nextToken.2.left ≤ _
    by_cases hzero : (after input n).left = 0
    · omega
    · have := hadvances.consumes hzero
      omega

theorem left_after_mono (input : List CodeUnit) {n m : Nat} (h : n ≤ m) :
    (after input m).left ≤ (after input n).left := by
  induction h with
  | refl => exact Nat.le_refl _
  | step _ ih => exact Nat.le_trans (nextToken_advances (ready_after input _)).left ih

/-- **The lexer always finishes**: each call consumes a character unless the lexer is at the end
of the input; there is a first token of type `eof`, after no more calls than there are
characters, and all later ones are such tokens, too.  By then all of the input is consumed. -/
theorem nextToken_finishes (input : List CodeUnit) :
    (∀ n, (after input n).left = 0 ∨ (after input (n + 1)).left < (after input n).left) ∧
    ∃ n ≤ input.length, (∀ m < n, (tokenAt input m).type ≠ .eof) ∧
      (∀ m, n ≤ m → (tokenAt input m).type = .eof) ∧ (after input (n + 1)).left = 0 := by
  refine ⟨fun n => ?_, ?_⟩
  · by_cases hzero : (after input n).left = 0
    · exact .inl hzero
    · exact .inr ((nextToken_advances (ready_after input n)).consumes hzero)
  · have hlast : (tokenAt input input.length).type = .eof := by
      apply (nextToken_advances (ready_after input _)).atEnd
      have := left_after_le input input.length
      omega
    have hexists : ∃ n, (tokenAt input n).type = .eof := ⟨_, hlast⟩
    have hfirst := Nat.find_spec hexists
    have hend := (nextToken_advances (ready_after input _)).eof hfirst
    refine ⟨Nat.find hexists, Nat.find_le hlast, fun m hm => Nat.find_min hexists hm, ?_, hend⟩
    intro m hm
    rcases Nat.eq_or_lt_of_le hm with rfl | hlt
    · exact hfirst
    · apply (nextToken_advances (ready_after input m)).atEnd
      have := left_after_mono input (Nat.succ_le_of_lt hlt)
      exact Nat.le_zero.mp (this.trans hend.le)

end JavaFX.CssLexer
