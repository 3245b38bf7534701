/-
Trees and token lists.

A tree is written with parentheses where the priorities and left-associativity ask for them.
Processing the tokens puts the tree into postfix order, with the operators of its right edge
still on the stack.  An operator that follows takes them from the stack, with one exception: a
unary operator stays.  So the tree comes back exactly when no operand on the left of an operator
ends in a unary operator that is not in parentheses.
-/
import JavaFX.Fxml.ExpressionParser

namespace JavaFX

open List

namespace ExpressionParser

variable {D : Type}

/-! ### Writing -/

def isBinary : Tree D → Bool
  | .binary _ _ _ => true
  | _ => false

/-- The left operand has to be put into parentheses. -/
def groupsLeft (operator : BinaryOperator) : Tree D → Bool
  | .binary inner _ _ => inner.getPriority < operator.getPriority
  | _ => false

/-- The right operand has to be put into parentheses. -/
def groupsRight (operator : BinaryOperator) : Tree D → Bool
  | .binary inner _ _ => inner.getPriority ≤ operator.getPriority
  | _ => false

def grouped (group : Bool) (tokens : List (Token D)) : List (Token D) :=
  if group then .beginGroup :: (tokens ++ [Token.endGroup]) else tokens

/-- The tokens of a tree, with parentheses only where they are needed. -/
def write : Tree D → List (Token D)
  | .literal value => [.literal value]
  | .variable path => [.variable path]
  | .unary operator operand => .unaryOperator operator :: grouped (isBinary operand) (write operand)
  | .binary operator left right =>
    grouped (groupsLeft operator left) (write left)
      ++ .binaryOperator operator :: grouped (groupsRight operator right) (write right)

/-- The tree in postfix order. -/
def polish : Tree D → List (Token D)
  | .literal value => [.literal value]
  | .variable path => [.variable path]
  | .unary operator operand => polish operand ++ [Token.unaryOperator operator]
  | .binary operator left right => polish left ++ polish right ++ [Token.binaryOperator operator]

/-! ### Trees from postfix order -/

/-- Tokens that were read off a stack of trees. -/
def flat : List (Tree D) → List (Token D)
  | [] => []
  | e :: stack => flat stack ++ polish e

theorem flat_pushExpression {token : Token D} {stack stack' : List (Tree D)}
    (h : pushExpression token stack = .ok stack') : flat stack' = flat stack ++ [token] := by
  cases token with
  | literal value =>
    obtain rfl := Except.ok.inj h
    rfl
  | «variable» path =>
    obtain rfl := Except.ok.inj h
    rfl
  | unaryOperator operator =>
    cases stack with
    | nil => cases h
    | cons operand stack =>
      obtain rfl := Except.ok.inj h
      simp [flat, polish]
  | binaryOperator operator =>
    match stack, h with
    | right :: left :: stack, h =>
      obtain rfl := Except.ok.inj h
      simp [flat, polish]
  | beginGroup => cases h
  | endGroup => cases h

theorem flat_foldlM : ∀ (tokens : List (Token D)) {stack stack' : List (Tree D)},
    tokens.foldlM (fun stack token => pushExpression token stack) stack = .ok stack' →
    flat stack' = flat stack ++ tokens := by
  intro tokens
  induction tokens with
  | nil =>
    intro stack stack' h
    obtain rfl := Except.ok.inj h
    simp
  | cons token tokens ih =>
    intro stack stack' h
    rw [foldlM_cons] at h
    cases hp : pushExpression token stack with
    | error e => rw [hp] at h; cases h
    | ok stack₁ =>
      rw [hp] at h
      rw [ih h, flat_pushExpression hp]
      simp

/-- Reading the postfix order of a tree puts the tree on the stack. -/
theorem foldlM_polish (e : Tree D) : ∀ (rest : List (Token D)) (stack : List (Tree D)),
    (polish e ++ rest).foldlM (fun stack token => pushExpression token stack) stack
      = rest.foldlM (fun stack token => pushExpression token stack) (e :: stack) := by
  induction e with
  | literal value => intro rest stack; rfl
  | «variable» path => intro rest stack; rfl
  | unary operator operand ih =>
    intro rest stack
    rw [polish, append_assoc, ih]
    rfl
  | binary operator left right ihl ihr =>
    intro rest stack
    rw [polish, append_assoc, append_assoc, ihl, ihr]
    rfl

/-! ### The stack of operators -/

/-- Nothing is taken from the stack for an operator of this priority. -/
def Stops (priority : Nat) : List (Token D) → Prop
  | [] => True
  | top :: _ => ∀ p, top.priority? = some p → p < priority ∨ p = maxPriority

variable {priority : Nat} {stack : List (Token D)}

theorem popOperators_stops (h : Stops priority stack)
    (tokens : List (Token D)) : popOperators priority tokens stack = (tokens, stack) := by
  cases stack with
  | nil => rfl
  | cons top stack =>
    unfold popOperators
    cases hp : top.priority? with
    | none => rfl
    | some p =>
      have := h p hp
      simp only
      rw [if_neg (by omega)]

theorem popOperators_append (h : Stops priority stack) :
    ∀ (tops tokens : List (Token D)), (∀ t ∈ tops, ∃ p, t.priority? = some p ∧ priority ≤ p ∧ p ≠ maxPriority) →
      popOperators priority tokens (tops ++ stack) = (tokens ++ tops, stack) := by
  intro tops
  induction tops with
  | nil =>
    intro tokens _
    rw [nil_append, popOperators_stops h, append_nil]
  | cons t tops ih =>
    intro tokens ht
    obtain ⟨p, hp, hle, hne⟩ := ht t (by simp)
    rw [cons_append, popOperators, hp]
    simp only
    rw [if_pos ⟨hle, hne⟩, ih _ fun t' ht' => ht t' (mem_cons_of_mem t ht')]
    simp

theorem stops_max (stack : List (Token D)) : Stops maxPriority stack := by
  cases stack with
  | nil => trivial
  | cons top stack =>
    intro p hp
    cases top with
    | unaryOperator operator =>
      obtain rfl := Option.some.inj hp
      cases operator <;> exact Or.inr rfl
    | binaryOperator operator =>
      obtain rfl := Option.some.inj hp
      cases operator <;> exact Or.inl (by decide)
    | literal value => cases hp
    | «variable» path => cases hp
    | beginGroup => cases hp
    | endGroup => cases hp

theorem popGroup_append (stack : List (Token D)) : ∀ (tops tokens : List (Token D)),
    (∀ t ∈ tops, ∃ p, t.priority? = some p) →
    popGroup tokens (tops ++ .beginGroup :: stack) = .ok (tokens ++ tops, stack) := by
  intro tops
  induction tops with
  | nil => intro tokens _; simp [popGroup]
  | cons t tops ih =>
    intro tokens ht
    obtain ⟨p, hp⟩ := ht t (by simp)
    have hrest := ih (tokens ++ [t]) fun t' ht' => ht t' (mem_cons_of_mem t ht')
    rw [append_assoc] at hrest
    cases t with
    | unaryOperator operator => exact hrest
    | binaryOperator operator => exact hrest
    | literal value => cases hp
    | «variable» path => cases hp
    | beginGroup => cases hp
    | endGroup => cases hp

/-- Tokens one after the other. -/
def processAll : List (Token D) → Postfix D → Except JavaException (Postfix D)
  | [], p => .ok p
  | token :: tokens, p =>
    match processToken token p with
    | .ok p => processAll tokens p
    | .error e => .error e

theorem processAll_append : ∀ (ts ts' : List (Token D)) (p : Postfix D),
    processAll (ts ++ ts') p = match processAll ts p with
      | .ok p => processAll ts' p
      | .error e => .error e := by
  intro ts
  induction ts with
  | nil => intro ts' p; rfl
  | cons t ts ih =>
    intro ts' p
    rw [cons_append, processAll, processAll]
    cases processToken t p with
    | error e => rfl
    | ok p' => exact ih ts' p'

theorem processAll_append_ok {ts ts' : List (Token D)} {p p' : Postfix D}
    (h : processAll ts p = .ok p') : processAll (ts ++ ts') p = processAll ts' p' := by
  rw [processAll_append, h]

theorem processAll_unary (operator : UnaryOperator) (ts : List (Token D)) (p : Postfix D) :
    processAll (.unaryOperator operator :: ts) p = processAll ts (p.1, .unaryOperator operator :: p.2) := by
  have hmax : operator.getPriority = maxPriority := by cases operator <;> rfl
  rw [processAll, processToken, pushOperator, hmax, popOperators_stops (stops_max p.2)]

theorem processAll_binary (operator : BinaryOperator) (ts : List (Token D)) (p : Postfix D) :
    processAll (.binaryOperator operator :: ts) p
      = processAll ts (pushOperator (.binaryOperator operator) operator.getPriority p) := rfl

end ExpressionParser

namespace ExpressionParser

variable {D : Type}

/-! ### The right edge of a tree -/

/-- What processing a tree leaves: the tokens in order, and the operators still on the stack. -/
def pending : Tree D → Postfix D
  | .literal value => ([.literal value], [])
  | .variable path => ([.variable path], [])
  | .unary operator operand =>
    let inner := if isBinary operand then (polish operand, []) else pending operand
    (inner.1, inner.2 ++ [Token.unaryOperator operator])
  | .binary operator left right =>
    let inner := if groupsRight operator right then (polish right, []) else pending right
    (polish left ++ inner.1, inner.2 ++ [Token.binaryOperator operator])

/-- A part of a tree that is put into parentheses leaves nothing on the stack. -/
def pendingIn (group : Bool) (e : Tree D) : Postfix D := if group then (polish e, []) else pending e

/-- The tree ends in the operand of a unary operator, outside of any parentheses. -/
def openUnary : Tree D → Bool
  | .unary _ _ => true
  | .binary operator _ right => !groupsRight operator right && openUnary right
  | _ => false

/-- No operand on the left of an operator ends in a unary operator that is not in parentheses. -/
def Good : Tree D → Prop
  | .literal _ => True
  | .variable _ => True
  | .unary _ operand => Good operand
  | .binary operator left right =>
    Good left ∧ Good right ∧ (groupsLeft operator left = true ∨ openUnary left = false)

/-- The priority of the operator at the top. -/
def topPriority : Tree D → Nat
  | .binary operator _ _ => operator.getPriority
  | _ => maxPriority

theorem getPriority_lt (operator : BinaryOperator) : operator.getPriority < maxPriority := by
  cases operator <;> decide

theorem getPriority_unary (operator : UnaryOperator) : operator.getPriority = maxPriority := by
  cases operator <;> rfl

variable {e : Tree D}

variable {operator : BinaryOperator}

/-- The operators of a left operand without parentheses are at least as strong. -/
theorem le_topPriority (h : groupsLeft operator e = false) : operator.getPriority ≤ topPriority e := by
  have hlt := getPriority_lt operator
  cases e with
  | binary inner l r => simpa [groupsLeft, topPriority] using h
  | literal value => exact hlt.le
  | «variable» path => exact hlt.le
  | unary op x => exact hlt.le

theorem lt_topPriority (h : groupsRight operator e = false) : operator.getPriority < topPriority e := by
  have hlt := getPriority_lt operator
  cases e with
  | binary inner l r => simpa [groupsRight, topPriority] using h
  | literal value => exact hlt
  | «variable» path => exact hlt
  | unary op x => exact hlt

theorem pending_append (e : Tree D) : (pending e).1 ++ (pending e).2 = polish e := by
  have hin : ∀ (group : Bool) (e : Tree D), (pending e).1 ++ (pending e).2 = polish e →
      (pendingIn group e).1 ++ (pendingIn group e).2 = polish e := by
    intro group e h
    cases group with
    | true => simp [pendingIn]
    | false => exact h
  induction e with
  | literal value => rfl
  | «variable» path => rfl
  | unary operator operand ih =>
    show (pendingIn _ operand).1 ++ ((pendingIn _ operand).2 ++ _) = _
    rw [← append_assoc, hin _ operand ih, polish]
  | binary operator left right ihl ihr =>
    show polish left ++ (pendingIn _ right).1 ++ ((pendingIn _ right).2 ++ _) = _
    rw [← append_assoc, append_assoc (polish left), hin _ right ihr, polish]

/-- The operators on the stack are at least as strong as the one at the top of the tree. -/
theorem pending_stack (e : Tree D) : ∀ t ∈ (pending e).2,
    ∃ p, t.priority? = some p ∧ topPriority e ≤ p ∧ (openUnary e = false → p ≠ maxPriority) := by
  induction e with
  | literal value => intro t ht; cases ht
  | «variable» path => intro t ht; cases ht
  | unary operator operand ih =>
    intro t ht
    have hmem : t ∈ (pendingIn (isBinary operand) operand).2 ∨ t = .unaryOperator operator := by
      have : t ∈ (pendingIn (isBinary operand) operand).2 ++ [Token.unaryOperator operator] := ht
      simpa using this
    rcases hmem with ht | rfl
    · cases hb : isBinary operand with
      | true => rw [hb] at ht; cases ht
      | false =>
        rw [hb] at ht
        obtain ⟨p, hp, hle, -⟩ := ih t ht
        have htop : topPriority operand = maxPriority := by
          cases operand with
          | binary op l r => cases hb
          | literal value => rfl
          | «variable» path => rfl
          | unary op x => rfl
        refine ⟨p, hp, ?_, fun h => by cases h⟩
        rw [htop] at hle
        exact hle
    · exact ⟨operator.getPriority, rfl, (getPriority_unary operator).ge, fun h => by cases h⟩
  | binary operator left right ihl ihr =>
    intro t ht
    have hmem : t ∈ (pendingIn (groupsRight operator right) right).2 ∨ t = .binaryOperator operator := by
      have : t ∈ (pendingIn (groupsRight operator right) right).2 ++ [Token.binaryOperator operator] := ht
      simpa using this
    rcases hmem with ht | rfl
    · cases hg : groupsRight operator right with
      | true => rw [hg] at ht; cases ht
      | false =>
        rw [hg] at ht
        obtain ⟨p, hp, hle, hopen⟩ := ihr t ht
        refine ⟨p, hp, ?_, ?_⟩
        · exact le_trans (lt_topPriority hg).le hle
        · intro h
          refine hopen ?_
          simpa [openUnary, hg] using h
    · exact ⟨operator.getPriority, rfl, le_refl _, fun _ => (getPriority_lt operator).ne⟩

theorem pendingIn_stack (group : Bool) (t : Token D) (h : t ∈ (pendingIn group e).2) : ∃ p, t.priority? = some p := by
  cases group with
  | true => cases h
  | false =>
    obtain ⟨p, hp, -⟩ := pending_stack e t h
    exact ⟨p, hp⟩

theorem Stops.mono {n m : Nat} {stack : List (Token D)} (h : Stops n stack) (hle : n ≤ m) : Stops m stack := by
  cases stack with
  | nil => trivial
  | cons top stack =>
    intro p hp
    rcases h p hp with hlt | heq
    · exact Or.inl (lt_of_lt_of_le hlt hle)
    · exact Or.inr heq

/-! ### Trees that come back -/

theorem processAll_grouped (group : Bool) (h : ∀ out stack, (isBinary e = true → Stops (topPriority e) stack) →
      processAll (write e) (out, stack) = .ok (out ++ (pending e).1, (pending e).2 ++ stack))
    (out stack : List (Token D))
    (hstops : group = false → isBinary e = true → Stops (topPriority e) stack) :
    processAll (grouped group (write e)) (out, stack)
      = .ok (out ++ (pendingIn group e).1, (pendingIn group e).2 ++ stack) := by
  cases group with
  | false => exact h out stack (hstops rfl)
  | true =>
    have hinner := h out (.beginGroup :: stack) fun _ p hp => by cases hp
    have hend : processAll [.endGroup] (out ++ (pending e).1, (pending e).2 ++ .beginGroup :: stack)
        = .ok (out ++ polish e, stack) := by
      rw [processAll, processToken]
      rw [popGroup_append stack (pending e).2 _ fun t ht => pendingIn_stack false t ht, append_assoc, pending_append]
      rfl
    exact (processAll_append_ok hinner).trans hend

/-- **A tree without such operands is put into postfix order**, up to its right edge. -/
theorem processAll_write (e : Tree D) : Good e → ∀ out stack, (isBinary e = true → Stops (topPriority e) stack) →
    processAll (write e) (out, stack) = .ok (out ++ (pending e).1, (pending e).2 ++ stack) := by
  induction e with
  | literal value => intro _ out stack _; rfl
  | «variable» path => intro _ out stack _; rfl
  | unary operator operand ih =>
    intro hgood out stack _
    have hinner := processAll_grouped (isBinary operand) (ih hgood) out
      (.unaryOperator operator :: stack) (fun hg hb => by rw [hg] at hb; cases hb)
    rw [write, processAll_unary, hinner]
    show _ = Except.ok (out ++ (pendingIn _ operand).1, ((pendingIn _ operand).2 ++ _) ++ stack)
    rw [append_assoc]
    rfl
  | binary operator left right ihl ihr =>
    intro hgood out stack hstops
    obtain ⟨hleft, hright, hclosed⟩ := hgood
    have hstack : Stops operator.getPriority stack := hstops rfl
    have hl := processAll_grouped (groupsLeft operator left) (ihl hleft) out stack (by
      intro hg _
      exact hstack.mono (le_topPriority hg))
    -- all that the left operand has left on the stack goes
    have hpop : popOperators operator.getPriority (out ++ (pendingIn (groupsLeft operator left) left).1)
        ((pendingIn (groupsLeft operator left) left).2 ++ stack) = (out ++ polish left, stack) := by
      cases hg : groupsLeft operator left with
      | true => exact popOperators_stops hstack _
      | false =>
        have hopen := hclosed.resolve_left (by rw [hg]; simp)
        rw [popOperators_append hstack]
        · show (out ++ (pending left).1 ++ (pending left).2, stack) = _
          rw [append_assoc, pending_append]
        · intro t ht
          obtain ⟨p, hp, hle, hmax⟩ := pending_stack left t ht
          exact ⟨p, hp, le_trans (le_topPriority hg) hle, hmax hopen⟩
    have hr := processAll_grouped (groupsRight operator right) (ihr hright)
      (out ++ polish left) (.binaryOperator operator :: stack) (by
        intro hg _ p hp
        obtain rfl := Option.some.inj hp
        exact Or.inl (lt_topPriority hg))
    rw [write, processAll_append_ok hl, processAll_binary, pushOperator, hpop, hr]
    show _ = Except.ok (out ++ (polish left ++ (pendingIn _ right).1), ((pendingIn _ right).2 ++ _) ++ stack)
    rw [append_assoc, append_assoc]
    rfl

end ExpressionParser

namespace ExpressionParser

variable {D : Type}

/-! ### Trees that do not come back -/

/-- At some position the two lists have different elements. -/
def Differs {α : Type} (a b : List α) : Prop :=
  ∃ (i : Nat) (x y : α), a[i]? = some x ∧ b[i]? = some y ∧ x ≠ y

variable {α : Type} {a b : List α} {p' : Postfix D}

theorem getElem?_of_isPrefix (h : a <+: b) {i : Nat} {x : α} (hx : a[i]? = some x) : b[i]? = some x := by
  obtain ⟨c, rfl⟩ := h
  rw [getElem?_append_left (List.getElem?_eq_some_iff.mp hx).1, hx]

theorem Differs.grow {a' b' : List α} (h : Differs a b) (ha : a <+: a') (hb : b <+: b') : Differs a' b' := by
  obtain ⟨i, x, y, hx, hy, hne⟩ := h
  exact ⟨i, x, y, getElem?_of_isPrefix ha hx, getElem?_of_isPrefix hb hy, hne⟩

theorem popOperators_grows (priority : Nat) : ∀ (stack tokens : List (Token D)),
    tokens <+: (popOperators priority tokens stack).1 := by
  intro stack
  induction stack with
  | nil => intro tokens; exact prefix_refl _
  | cons top stack ih =>
    intro tokens
    unfold popOperators
    cases top.priority? with
    | none => exact prefix_refl _
    | some p =>
      simp only
      split
      · exact (prefix_append tokens [top]).trans (ih _)
      · exact prefix_refl _

theorem popGroup_grows : ∀ (stack tokens : List (Token D)) {p : Postfix D},
    popGroup tokens stack = .ok p → tokens <+: p.1 := by
  intro stack
  induction stack with
  | nil => intro tokens p h; cases h
  | cons top stack ih =>
    intro tokens p h
    have hmore : popGroup (tokens ++ [top]) stack = .ok p → tokens <+: p.1 := fun h =>
      (prefix_append tokens [top]).trans (ih _ h)
    cases top with
    | beginGroup =>
      obtain rfl := Except.ok.inj h
      exact prefix_refl _
    | literal value => exact hmore h
    | «variable» path => exact hmore h
    | unaryOperator operator => exact hmore h
    | binaryOperator operator => exact hmore h
    | endGroup => exact hmore h

variable {p : Postfix D}

theorem processToken_grows {t : Token D} (h : processToken t p = .ok p') : p.1 <+: p'.1 := by
  cases t with
  | literal value =>
    obtain rfl := Except.ok.inj h
    exact prefix_append _ _
  | «variable» path =>
    obtain rfl := Except.ok.inj h
    exact prefix_append _ _
  | unaryOperator operator =>
    obtain rfl := Except.ok.inj h
    exact popOperators_grows _ _ _
  | binaryOperator operator =>
    obtain rfl := Except.ok.inj h
    exact popOperators_grows _ _ _
  | beginGroup =>
    obtain rfl := Except.ok.inj h
    exact prefix_refl _
  | endGroup => exact popGroup_grows _ _ h

theorem processAll_grows : ∀ (ts : List (Token D)) {p p' : Postfix D}, processAll ts p = .ok p' → p.1 <+: p'.1 := by
  intro ts
  induction ts with
  | nil =>
    intro p p' h
    obtain rfl := Except.ok.inj h
    exact prefix_refl _
  | cons t ts ih =>
    intro p p' h
    rw [processAll] at h
    cases ht : processToken t p with
    | error e => rw [ht] at h; cases h
    | ok p₁ =>
      rw [ht] at h
      exact (processToken_grows ht).trans (ih h)

theorem processAll_append_inv {ts ts' : List (Token D)} (h : processAll (ts ++ ts') p = .ok p') :
    ∃ q, processAll ts p = .ok q ∧ processAll ts' q = .ok p' := by
  rw [processAll_append] at h
  cases hq : processAll ts p with
  | error e => rw [hq] at h; cases h
  | ok q => rw [hq] at h; exact ⟨q, rfl, h⟩

/-- An operand goes straight to the output. -/
def Token.IsOperand : Token D → Prop
  | .literal _ => True
  | .variable _ => True
  | _ => False

/-- What is true of the output of a tree is true with parentheses around it. -/
theorem grouped_inv (Q : List (Token D) → Prop) {e : Tree D} (group : Bool)
    {out stack : List (Token D)} (hmono : ∀ a b, Q a → a <+: b → Q b)
    (h : ∀ stack' q, (group = false → stack' = stack) → (group = true → Stops (topPriority e) stack') →
      processAll (write e) (out, stack') = .ok q → Q q.1)
    (hrun : processAll (grouped group (write e)) (out, stack) = .ok p) : Q p.1 := by
  cases group with
  | false => exact h stack p (fun _ => rfl) (fun hg => by cases hg) hrun
  | true =>
    have hrun' : processAll (write e ++ [Token.endGroup]) (out, .beginGroup :: stack) = .ok p := hrun
    obtain ⟨q, hq, hend⟩ := processAll_append_inv hrun'
    have hstops : Stops (topPriority e) (.beginGroup :: stack) := fun n hn => by cases hn
    exact hmono _ _ (h _ q (fun hg => by cases hg) (fun _ => hstops) hq) (processAll_grows _ hend)

theorem first_operand (e : Tree D) : ∀ {out stack : List (Token D)} {p : Postfix D},
    processAll (write e) (out, stack) = .ok p →
    ∃ t : Token D, t.IsOperand ∧ p.1[out.length]? = some t := by
  have hmono : ∀ (out a b : List (Token D)), (∃ t : Token D, t.IsOperand ∧ a[out.length]? = some t) →
      a <+: b → ∃ t : Token D, t.IsOperand ∧ b[out.length]? = some t := by
    rintro out a b ⟨t, ht, ha⟩ hab
    exact ⟨t, ht, getElem?_of_isPrefix hab ha⟩
  induction e with
  | literal value =>
    intro out stack p h
    obtain rfl := Except.ok.inj h
    exact ⟨.literal value, trivial, by simp⟩
  | «variable» path =>
    intro out stack p h
    obtain rfl := Except.ok.inj h
    exact ⟨.variable path, trivial, by simp⟩
  | unary operator operand ih =>
    intro out stack p h
    rw [write, processAll_unary] at h
    exact grouped_inv (fun a => ∃ t : Token D, t.IsOperand ∧ a[out.length]? = some t) _ (hmono out)
      (fun stack' q _ _ hq => ih hq) h
  | binary operator left right ihl ihr =>
    intro out stack p h
    obtain ⟨q, hq, hrest⟩ := processAll_append_inv h
    have hl := grouped_inv (fun a => ∃ t : Token D, t.IsOperand ∧ a[out.length]? = some t) _
      (hmono out) (fun stack' q _ _ hq => ihl hq) hq
    exact hmono out _ _ hl (processAll_grows _ hrest)

/-- The operators an open operand leaves on the stack, split at its first unary one. -/
theorem pending_split {e : Tree D} (h : openUnary e = true) : ∃ pre operator post,
    (pending e).2 = pre ++ .unaryOperator operator :: post ∧
    ∀ t ∈ pre, ∃ p, t.priority? = some p ∧ topPriority e ≤ p ∧ p ≠ maxPriority := by
  induction e with
  | literal value => cases h
  | «variable» path => cases h
  | unary operator operand ih =>
    cases hb : isBinary operand with
    | true => exact ⟨[], operator, [], by simp [pending, hb], by simp⟩
    | false =>
      have hstack : (pending (.unary operator operand)).2
          = (pending operand).2 ++ [Token.unaryOperator operator] := by simp [pending, hb]
      cases operand with
      | binary op l r => cases hb
      | literal value => exact ⟨[], operator, [], hstack, by simp⟩
      | «variable» path => exact ⟨[], operator, [], hstack, by simp⟩
      | unary op x =>
        obtain ⟨pre, op', post, heq, hpre⟩ := ih rfl
        refine ⟨pre, op', post ++ [Token.unaryOperator operator], ?_, hpre⟩
        rw [hstack, heq, append_assoc]
        rfl
  | binary operator left right ihl ihr =>
    simp only [openUnary, Bool.and_eq_true, Bool.not_eq_true'] at h
    obtain ⟨pre, op', post, heq, hpre⟩ := ihr h.2
    have hstack : (pending (.binary operator left right)).2
        = (pending right).2 ++ [Token.binaryOperator operator] := by simp [pending, h.1]
    refine ⟨pre, op', post ++ [Token.binaryOperator operator], ?_, ?_⟩
    · rw [hstack, heq, append_assoc]
      rfl
    · intro t ht
      obtain ⟨p, hp, hle, hne⟩ := hpre t ht
      exact ⟨p, hp, le_trans (lt_topPriority h.1).le hle, hne⟩

/-- **If an operand on the left of an operator ends in an open unary operator, the output goes
wrong**: where that operator should be, there is the next operand. -/
theorem differs_of_not_good (e : Tree D) : ¬ Good e → ∀ {out stack : List (Token D)} {p : Postfix D},
    (isBinary e = true → Stops (topPriority e) stack) →
    processAll (write e) (out, stack) = .ok p → Differs p.1 (out ++ polish e) := by
  induction e with
  | literal value => intro h; exact absurd trivial h
  | «variable» path => intro h; exact absurd trivial h
  | unary operator operand ih =>
    intro h out stack p _ hrun
    rw [write, processAll_unary] at hrun
    have hop : Differs p.1 (out ++ polish operand) := by
      refine grouped_inv (fun a => Differs a (out ++ polish operand)) _
        (fun a b ha hab => ha.grow hab (prefix_refl _))
        (fun stack' q hstack hstops hq => ih h (fun hb => ?_) hq) hrun
      exact hstops hb
    refine hop.grow (prefix_refl _) ?_
    rw [polish, ← append_assoc]
    exact prefix_append _ _
  | binary operator left right ihl ihr =>
    intro h out stack p hstops hrun
    have hstack : Stops operator.getPriority stack := hstops rfl
    have hsplit : polish (.binary operator left right)
        = polish left ++ (polish right ++ [Token.binaryOperator operator]) := by
      rw [polish, append_assoc]
    rw [write] at hrun
    by_cases hleft : Good left
    · by_cases hclosed : groupsLeft operator left = true ∨ openUnary left = false
      · -- the right operand goes wrong
        have hright : ¬ Good right := fun hr => h ⟨hleft, hr, hclosed⟩
        have hgood : Good (.binary operator left (.literal (.null : Literal D))) :=
          ⟨hleft, trivial, hclosed⟩
        have hl := processAll_write _ hgood out stack fun _ => hstack
        rw [write] at hl
        obtain ⟨q, hq, hrest⟩ := processAll_append_inv hrun
        rw [processAll_append_ok hq, processAll_binary] at hl
        rw [processAll_binary] at hrest
        -- up to the right operand it is as with any other right operand
        have hq' : pushOperator (.binaryOperator operator) operator.getPriority q
            = (out ++ polish left, .binaryOperator operator :: stack) := by
          rcases hpush : pushOperator ((.binaryOperator operator : Token D)) operator.getPriority q
            with ⟨a, b⟩
          rw [hpush] at hl
          have hpair := Except.ok.inj hl
          have h1 : a ++ [Token.literal Literal.null] = out ++ (polish left ++ [.literal .null]) :=
            congrArg Prod.fst hpair
          have h2 : b = .binaryOperator operator :: stack := congrArg Prod.snd hpair
          rw [← append_assoc] at h1
          rw [append_cancel_right h1, h2]
        rw [hq'] at hrest
        have hr : Differs p.1 (out ++ polish left ++ polish right) := by
          refine grouped_inv (fun a => Differs a (out ++ polish left ++ polish right)) _
            (fun a b ha hab => ha.grow hab (prefix_refl _))
            (fun stack' q' hsame hst hq' => ihr hright (fun hb => ?_) hq') hrest
          cases hg : groupsRight operator right with
          | true => exact hst hg
          | false =>
            rw [hsame hg]
            intro n hn
            obtain rfl := Option.some.inj hn
            exact Or.inl (lt_topPriority hg)
        refine hr.grow (prefix_refl _) ?_
        rw [hsplit, append_assoc]
        exact (prefix_append_right_inj _).mpr ((prefix_append_right_inj _).mpr (prefix_append _ _))
      · -- the unary operator stays on the stack, and the next operand comes before it
        push Not at hclosed
        have hg : groupsLeft operator left = false := by simpa using hclosed.1
        have hopen : openUnary left = true := by simpa using hclosed.2
        obtain ⟨pre, op', post, heq, hpre⟩ := pending_split hopen
        have hl := processAll_grouped false (processAll_write left hleft) out stack
          (fun _ _ => hstack.mono (le_topPriority hg))
        rw [hg, processAll_append_ok hl, processAll_binary] at hrun
        have hpop : popOperators operator.getPriority (out ++ (pending left).1) ((pending left).2 ++ stack)
              = (out ++ (pending left).1 ++ pre, .unaryOperator op' :: (post ++ stack)) := by
          rw [heq, append_assoc]
          refine popOperators_append ?_ pre _ ?_
          · intro n hn
            obtain rfl := Option.some.inj hn
            exact Or.inr (getPriority_unary op')
          · intro t ht
            obtain ⟨n, hn, hle, hne⟩ := hpre t ht
            exact ⟨n, hn, le_trans (le_topPriority hg) hle, hne⟩
        have hpush : pushOperator (.binaryOperator operator) operator.getPriority
            (out ++ (pendingIn false left).1, (pendingIn false left).2 ++ stack) = (out ++ (pending left).1 ++ pre,
                .binaryOperator operator :: .unaryOperator op' :: (post ++ stack)) := by
          show (_, _ :: _) = _
          have hpop' : popOperators operator.getPriority (out ++ (pendingIn false left).1)
            ((pendingIn false left).2 ++ stack) = _ := hpop
          rw [hpop']
        rw [hpush] at hrun
        obtain ⟨t, ht, hget⟩ : ∃ t : Token D, t.IsOperand ∧ p.1[(out ++ (pending left).1 ++ pre).length]? = some t := by
          refine grouped_inv (fun a => ∃ t : Token D, t.IsOperand ∧
              a[(out ++ (pending left).1 ++ pre).length]? = some t) _ ?_
            (fun stack' q _ _ hq => first_operand right hq) hrun
          rintro a b ⟨t, ht, ha⟩ hab
          exact ⟨t, ht, getElem?_of_isPrefix hab ha⟩
        refine ⟨_, t, .unaryOperator op', hget, ?_, ?_⟩
        · rw [hsplit, ← pending_append left, heq]
          have hlist : out ++ ((pending left).1 ++ (pre ++ .unaryOperator op' :: post)
              ++ (polish right ++ [Token.binaryOperator operator]))
              = out ++ (pending left).1 ++ pre ++ .unaryOperator op' :: (post
                ++ (polish right ++ [Token.binaryOperator operator])) := by simp
          rw [hlist, getElem?_append_right (le_refl _), Nat.sub_self]
          rfl
        · rintro rfl
          exact ht
    · obtain ⟨q, hq, hrest⟩ := processAll_append_inv hrun
      have hl : Differs q.1 (out ++ polish left) := by
        refine grouped_inv (fun a => Differs a (out ++ polish left)) _ (fun a b ha hab => ha.grow hab (prefix_refl _))
          (fun stack' q' hsame hst hq' => ihl hleft (fun hb => ?_) hq') hq
        cases hg : groupsLeft operator left with
        | true => exact hst hg
        | false =>
          rw [hsame hg]
          exact hstack.mono (le_topPriority hg)
      refine hl.grow (processAll_grows _ hrest) ?_
      rw [hsplit, ← append_assoc]
      exact prefix_append _ _

end ExpressionParser

namespace ExpressionParser

variable {D : Type}

/-! ### The round trip of tokens -/

theorem buildTree_polish (e : Tree D) : buildTree (polish e) = .ok e := by
  have h := foldlM_polish e [] []
  rw [append_nil] at h
  rw [buildTree, h]
  rfl

theorem polish_of_buildTree {tokens : List (Token D)} {e : Tree D} (h : buildTree tokens = .ok e) :
    polish e = tokens := by
  unfold buildTree at h
  split at h
  · cases h
  · rename_i e' hfold
    obtain rfl := Except.ok.inj h
    have := flat_foldlM tokens hfold
    simpa [flat] using this
  · cases h

/-- What becomes of tokens in the order of the text. -/
def parseTokens (tokens : List (Token D)) : Except JavaException (Tree D) :=
  match processAll tokens ([], []) with
  | .ok p => buildTree (p.1 ++ p.2)
  | .error e => .error e

/-- **The tokens of a tree lead back to it if and only if no operand on the left of an operator
ends in an open unary operator.** -/
theorem parseTokens_iff_good (e : Tree D) : parseTokens (write e) = .ok e ↔ Good e := by
  have hstops : isBinary e = true → Stops (topPriority e) ([] : List (Token D)) := fun _ => trivial
  constructor
  · intro h
    by_contra hbad
    unfold parseTokens at h
    cases hrun : processAll (write e) ([], []) with
    | error ex => rw [hrun] at h; cases h
    | ok p =>
      rw [hrun] at h
      obtain ⟨i, x, y, hx, hy, hne⟩ := differs_of_not_good e hbad hstops hrun
      rw [polish_of_buildTree h] at hy
      have hx' := getElem?_of_isPrefix (prefix_append p.1 p.2) hx
      exact hne (Option.some.inj (hx'.symm.trans hy))
  · intro hgood
    rw [parseTokens, processAll_write e hgood [] [] hstops]
    simp only [nil_append, append_nil]
    rw [pending_append]
    exact buildTree_polish e

end ExpressionParser

end JavaFX
