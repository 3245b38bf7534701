/-
Monitors and the containers on the key paths.

A monitor listens to what it watches and to nothing else, whatever happens.  What can go wrong
is a link: the monitor behind it may watch something that is not what the key leads to.  A
mutation breaks the links of the keys whose value it changes in the container, and a listener
that is told mends its own link and all that come after it.  So the monitors are right after a
mutation if every monitor with a broken link is told, and if no exception keeps it from mending.
-/
import JavaFX.Fxml.ExpressionValue

namespace JavaFX

open Program ObservableListWrapper List Function

namespace ExpressionValue

variable {L : Type} {lib : Library L} {root : Value L} {expression : Expression String (Option (Value L))}
  {changeListener : Bool} {s s' s'' : State L}

/-! ### Looking up -/

/-- What a key leads to, if it leads anywhere. -/
def found (lib : Library L) (container : Nat → Container L) (key : String)
    (value : Option (Value L)) : Option (Value L) :=
  match get lib container key value with
  | .ok v => v
  | .error _ => none

variable {key : String} {m : Monitor}

variable {container : Nat → Container L} {value : Option (Value L)}

@[simp] theorem found_none (container : Nat → Container L) (key : String) : found lib container key none = none := rfl

theorem found_of_ok {v : Option (Value L)}
    (h : get lib container key value = .ok v) : found lib container key value = v := by
  rw [found, h]

theorem found_of_error {e : JavaException} (h : get lib container key value = .error e) :
    found lib container key value = none := by
  rw [found, h]

/-! ### Links -/

def Monitor.next (m : Monitor) : Monitor := ⟨m.argument, m.depth + 1⟩

theorem Monitor.deeper_succ (m : Monitor) (n : Nat) :
    (⟨m.argument, m.depth + (n + 1)⟩ : Monitor) = ⟨m.next.argument, m.next.depth + n⟩ := by
  rw [Monitor.next, Nat.add_assoc, Nat.add_comm 1]

theorem keysOf_next {rest : List String} (h : keysOf expression m = key :: rest) :
    keysOf expression m.next = rest := by
  unfold keysOf at h ⊢
  show (expression.getArguments.getD m.argument []).drop (m.depth + 1) = rest
  rw [← drop_drop, h]
  rfl

/-- The keys of a deeper monitor are among those of a monitor. -/
theorem keysOf_deeper (m : Monitor) (n : Nat) :
    keysOf expression ⟨m.argument, m.depth + n⟩ = (keysOf expression m).drop n := by
  unfold keysOf
  rw [drop_drop]

/-- A monitor that has another one behind it. -/
def HasNext (expression : Expression String (Option (Value L))) (m : Monitor) : Prop :=
  2 ≤ (keysOf expression m).length

/-- The monitor behind watches what the key leads to. -/
def Link (lib : Library L) (expression : Expression String (Option (Value L))) (s : State L) (m : Monitor) :
    Prop :=
  ∀ key next rest, keysOf expression m = key :: next :: rest →
    s.monitored m.next = found lib s.container key (s.monitored m)

/-- Nothing but the monitors from `m` on has changed. -/
structure Below (m : Monitor) (s s' : State L) : Prop where
  container : s'.container = s.container
  fired : s'.fired = s.fired
  monitored : ∀ m', m'.argument ≠ m.argument ∨ m'.depth < m.depth → s'.monitored m' = s.monitored m'

theorem Below.trans (h : Below m s s') (h' : Below m s' s'') : Below m s s'' where
  container := h'.container.trans h.container
  fired := h'.fired.trans h.fired
  monitored m' hm' := (h'.monitored m' hm').trans (h.monitored m' hm')

theorem Below.widen {m' : Monitor} (h : Below m' s s') (harg : m'.argument = m.argument)
    (hdepth : m.depth ≤ m'.depth) : Below m s s' where
  container := h.container
  fired := h.fired
  monitored m'' hm'' := h.monitored m'' (by
    rcases hm'' with hm'' | hm''
    · exact Or.inl (by rw [harg]; exact hm'')
    · exact Or.inr (by omega))

theorem below_refl (m : Monitor) (s : State L) : Below m s s := ⟨rfl, rfl, fun _ _ => rfl⟩

/-- No monitor from `m` on watches anything. -/
def Blank (m : Monitor) (s : State L) : Prop :=
  ∀ n, s.monitored ⟨m.argument, m.depth + n⟩ = none

theorem Blank.self (h : Blank m s) : s.monitored m = none := h 0

theorem Blank.next (h : Blank m s) : Blank m.next s := by
  intro n
  rw [← m.deeper_succ n]
  exact h (n + 1)

/-- The links from `m` on are right. -/
def LinkedFrom (lib : Library L) (expression : Expression String (Option (Value L))) (m : Monitor)
    (s : State L) : Prop :=
  ∀ n, Link lib expression s ⟨m.argument, m.depth + n⟩

theorem linkedFrom_of_blank (h : Blank m s) : LinkedFrom lib expression m s := by
  intro n key next rest _
  show s.monitored ⟨m.argument, m.depth + n + 1⟩ = _
  rw [h n, Nat.add_assoc, h (n + 1), found_none]

theorem LinkedFrom.cons (h : LinkedFrom lib expression m.next s)
    (hm : Link lib expression s m) : LinkedFrom lib expression m s := by
  intro n
  cases n with
  | zero => exact hm
  | succ n =>
    rw [m.deeper_succ n]
    exact h n

variable [DecidableEq L]

/-- Every monitor listens exactly to the container it watches, and only keys have monitors. -/
structure Whole (expression : Expression String (Option (Value L))) (s : State L) : Prop where
  count : ∀ m r, (s.listeners r).count m = if s.monitored m = some (.ref r) then 1 else 0
  outside : ∀ m, keysOf expression m = [] → s.monitored m = none

/-! ### Attaching and detaching -/

theorem attach_spec (value : Value L) (h : Whole expression s)
    (hm : keysOf expression m ≠ []) (hnone : s.monitored m = none) :
    ∃ s', attach m value s = (.ok (), s') ∧ Whole expression s' ∧ Below m s s' ∧
      s'.monitored = update s.monitored m (some value) := by
  refine ⟨_, rfl, ⟨?_, ?_⟩, ⟨rfl, rfl, ?_⟩, rfl⟩
  · intro m' r
    show count m' _ = if update s.monitored m (some value) m' = some (.ref r) then 1 else 0
    have hcount := h.count m' r
    by_cases hmm : m' = m
    · subst hmm
      rw [hnone] at hcount
      cases value with
      | leaf v => simpa using hcount
      | ref r' =>
        by_cases hr : r = r'
        · subst hr
          simpa using hcount
        · have hr' : ¬ r' = r := fun heq => hr heq.symm
          simpa [hr, hr'] using hcount
    · rw [update_of_ne hmm]
      have hmm' : ¬ m = m' := fun heq => hmm heq.symm
      cases value with
      | leaf v => exact hcount
      | ref r' =>
        by_cases hr : r = r'
        · subst hr
          rw [← hcount]
          simp [hmm']
        · simpa [hr] using hcount
  · intro m' hm'
    have hmm : m' ≠ m := fun heq => hm (heq ▸ hm')
    show update s.monitored m (some value) m' = none
    rw [update_of_ne hmm]
    exact h.outside m' hm'
  · intro m' hm'
    have hmm : m' ≠ m := by
      rintro rfl
      omega
    exact update_of_ne hmm _ _

theorem detach_spec (m : Monitor) (h : Whole expression s) :
    ∃ s', detach m s = (.ok (), s') ∧ Whole expression s' ∧ s'.container = s.container ∧
      s'.fired = s.fired ∧ s'.monitored = update s.monitored m none := by
  refine ⟨_, rfl, ⟨?_, ?_⟩, rfl, rfl, rfl⟩
  · intro m' r
    show count m' _ = if update s.monitored m none m' = some (.ref r) then 1 else 0
    dsimp only
    have hcount := h.count m' r
    by_cases hmm : m' = m
    · subst hmm
      rw [update_self]
      cases hw : s.monitored m' with
      | none => rw [hw] at hcount; simpa using hcount
      | some v =>
        rw [hw] at hcount
        cases v with
        | leaf v => simpa using hcount
        | ref r' =>
          by_cases hr : r = r'
          · subst hr
            simp [hcount]
          · have hr' : ¬ r' = r := fun heq => hr heq.symm
            simpa [hr, hr'] using hcount
    · rw [update_of_ne hmm]
      cases hw : s.monitored m with
      | none => exact hcount
      | some v =>
        cases v with
        | leaf v => exact hcount
        | ref r' =>
          by_cases hr : r = r'
          · subst hr
            rw [← hcount]
            simp [count_erase_of_ne hmm]
          · simpa [hr] using hcount
  · intro m' hm'
    show update s.monitored m none m' = none
    by_cases hmm : m' = m
    · rw [hmm, update_self]
    · rw [update_of_ne hmm]
      exact h.outside m' hm'

end ExpressionValue

namespace ExpressionValue

variable {L : Type} [DecidableEq L] {lib : Library L} {root : Value L}
  {expression : Expression String (Option (Value L))} {changeListener : Bool} {s s' s'' : State L}

/-! ### Hanging and unhanging -/

theorem unmonitor_spec : ∀ (keys : List String) (m : Monitor) {s : State L}, Whole expression s →
    keysOf expression m = keys →
    ∃ s', unmonitor m.argument keys m.depth s = (.ok (), s') ∧ Whole expression s' ∧ Below m s s' ∧ Blank m s' := by
  intro keys
  induction keys with
  | nil =>
    intro m s h hkeys
    refine ⟨s, rfl, h, below_refl m s, fun n => h.outside _ ?_⟩
    rw [keysOf_deeper, hkeys, drop_nil]
  | cons key rest ih =>
    intro m s h hkeys
    obtain ⟨s₁, hs₁, hwhole, hcontainer, hfired, hmonitored⟩ := detach_spec m h
    obtain ⟨s₂, hs₂, hwhole₂, hbelow₂, hblank⟩ := ih m.next hwhole (keysOf_next hkeys)
    have hbelow₁ : Below m s s₁ := by
      refine ⟨hcontainer, hfired, fun m' hm' => ?_⟩
      rw [hmonitored]
      refine update_of_ne ?_ _ _
      rintro rfl
      omega
    have hbelow : Below m s₁ s₂ := hbelow₂.widen rfl (Nat.le_succ m.depth)
    refine ⟨s₂, ?_, hwhole₂, hbelow₁.trans hbelow, ?_⟩
    · exact (bind_ok hs₁).trans hs₂
    · intro n
      cases n with
      | zero =>
        have hself := hbelow₂.monitored m (Or.inr (Nat.lt_succ_self m.depth))
        rw [hmonitored, update_self] at hself
        exact hself
      | succ n =>
        rw [m.deeper_succ n]
        exact hblank n

theorem monitor_spec (lib : Library L) : ∀ (keys : List String) (m : Monitor) (value : Value L) {s : State L},
    Whole expression s → keysOf expression m = keys → keys ≠ [] → Blank m s →
    ∃ r s', monitor lib m.argument keys m.depth value s = (r, s') ∧ Whole expression s' ∧
      Below m s s' ∧ s'.monitored m = some value ∧ LinkedFrom lib expression m s' := by
  intro keys
  induction keys with
  | nil =>
    intro m value s _ _ hne
    exact absurd rfl hne
  | cons key rest ih =>
    intro m value s h hkeys _ hblank
    obtain ⟨s₁, hs₁, hwhole, hbelow, hmonitored⟩ := attach_spec value h (by rw [hkeys]; simp) hblank.self
    have hself : s₁.monitored m = some value := by rw [hmonitored, update_self]
    have hblank₁ : Blank m.next s₁ := by
      intro n
      rw [hmonitored, update_of_ne]
      · exact hblank.next n
      · intro heq
        have := congrArg Monitor.depth heq
        simp only [Monitor.next] at this
        omega
    cases rest with
    | nil =>
      refine ⟨.ok (), s₁, hs₁, hwhole, hbelow, hself, (linkedFrom_of_blank hblank₁).cons ?_⟩
      intro key' next rest hkeys'
      rw [hkeys] at hkeys'
      cases hkeys'
    | cons next rest =>
      have hrun : monitor lib m.argument (key :: next :: rest) m.depth value s = _ := bind_ok hs₁
      -- the chain ends here if the key leads nowhere
      have hstop : found lib s₁.container key (some value) = none → LinkedFrom lib expression m s₁ := by
        intro hf
        refine (linkedFrom_of_blank hblank₁).cons ?_
        intro key' next' rest' hkeys'
        rw [hkeys] at hkeys'
        obtain ⟨rfl, -⟩ := List.cons.inj hkeys'
        rw [hself, hf]
        exact hblank₁.self
      cases hget : get lib s₁.container key (some value) with
      | error e =>
        refine ⟨.error e, s₁, ?_, hwhole, hbelow, hself, hstop (found_of_error hget)⟩
        rw [hrun]
        exact bind_error (congrArg (fun r => (r, s₁)) hget)
      | ok found' =>
        have hread : (fun s : State L => (get lib s.container key (some value), s) :
            Call L (Option (Value L))) s₁ = (.ok found', s₁) := congrArg (fun r => (r, s₁)) hget
        cases found' with
        | none =>
          refine ⟨.ok (), s₁, ?_, hwhole, hbelow, hself, hstop (found_of_ok hget)⟩
          rw [hrun]
          exact bind_ok hread
        | some v =>
          obtain ⟨r, s₂, hs₂, hwhole₂, hbelow₂, hnext, hlinked⟩ :=
            ih m.next v hwhole (keysOf_next hkeys) (by simp) hblank₁
          have hkeep := hbelow₂.monitored m (Or.inr (Nat.lt_succ_self m.depth))
          refine ⟨r, s₂, ?_, hwhole₂, hbelow.trans (hbelow₂.widen rfl (Nat.le_succ m.depth)), hkeep.trans hself,
            hlinked.cons ?_⟩
          · rw [hrun]
            exact (bind_ok hread).trans hs₂
          · intro key' next' rest' hkeys'
            rw [hkeys] at hkeys'
            obtain ⟨rfl, -⟩ := List.cons.inj hkeys'
            rw [hnext, hkeep, hself, hbelow₂.container, found_of_ok hget]

end ExpressionValue

namespace ExpressionValue

variable {L : Type} [DecidableEq L] {lib : Library L} {root : Value L}
  {expression : Expression String (Option (Value L))} {changeListener : Bool} {s s' s'' : State L}

/-- **`remonitor` mends the links from its monitor on**, also if it fails. -/
theorem remonitor_spec (lib : Library L) (m : Monitor) (h : Whole expression s) :
    ∃ r s', remonitor lib m.argument (keysOf expression m) m.depth s = (r, s') ∧
      Whole expression s' ∧ Below m.next s s' ∧ LinkedFrom lib expression m s' := by
  have hshort : (∀ key next rest, keysOf expression m ≠ key :: next :: rest) → LinkedFrom lib expression m s := by
    intro hkeys n key next rest hk
    rw [keysOf_deeper] at hk
    have hlen := congrArg length hk
    rw [length_drop] at hlen
    rcases hm : keysOf expression m with _ | ⟨k, _ | ⟨k', l⟩⟩
    · rw [hm] at hlen
      simp at hlen
    · rw [hm] at hlen
      simp only [length_cons, length_nil] at hlen
      omega
    · exact absurd hm (hkeys k k' l)
  rcases hkeys : keysOf expression m with _ | ⟨key, _ | ⟨next, rest⟩⟩
  · exact ⟨.ok (), s, rfl, h, below_refl _ s, hshort (by rw [hkeys]; simp)⟩
  · exact ⟨.ok (), s, rfl, h, below_refl _ s, hshort (by rw [hkeys]; simp)⟩
  · obtain ⟨s₁, hs₁, hwhole, hbelow, hblank⟩ := unmonitor_spec _ m.next h (keysOf_next hkeys)
    have hrun : remonitor lib m.argument (key :: next :: rest) m.depth s = _ := bind_ok hs₁
    have hstop : found lib s₁.container key (s₁.monitored m) = none → LinkedFrom lib expression m s₁ := by
      intro hf
      refine (linkedFrom_of_blank hblank).cons ?_
      intro key' next' rest' hkeys'
      rw [hkeys] at hkeys'
      obtain ⟨rfl, -⟩ := List.cons.inj hkeys'
      rw [hf]
      exact hblank.self
    cases hget : get lib s₁.container key (s₁.monitored m) with
    | error e =>
      refine ⟨.error e, s₁, ?_, hwhole, hbelow, hstop (found_of_error hget)⟩
      rw [hrun]
      exact bind_error (congrArg (fun r => (r, s₁)) hget)
    | ok found' =>
      have hread : (fun s : State L => (get lib s.container key (s.monitored m), s) :
          Call L (Option (Value L))) s₁ = (.ok found', s₁) := congrArg (fun r => (r, s₁)) hget
      cases found' with
      | none =>
        refine ⟨.ok (), s₁, ?_, hwhole, hbelow, hstop (found_of_ok hget)⟩
        rw [hrun]
        exact bind_ok hread
      | some v =>
        obtain ⟨r, s₂, hs₂, hwhole₂, hbelow₂, hnext, hlinked⟩ :=
          monitor_spec lib _ m.next v hwhole (keysOf_next hkeys) (by simp) hblank
        have hkeep := hbelow₂.monitored m (Or.inr (Nat.lt_succ_self m.depth))
        refine ⟨r, s₂, ?_, hwhole₂, hbelow.trans hbelow₂, hlinked.cons ?_⟩
        · rw [hrun]
          exact (bind_ok hread).trans hs₂
        · intro key' next' rest' hkeys'
          rw [hkeys] at hkeys'
          obtain ⟨rfl, -⟩ := List.cons.inj hkeys'
          rw [hnext, hkeep, hbelow₂.container, found_of_ok hget]

/-! ### Listeners -/

/-- What the listeners of the monitors keep, and what they can only make better. -/
structure Kept (lib : Library L) (expression : Expression String (Option (Value L))) (s s' : State L) :
    Prop where
  container : s'.container = s.container
  whole : Whole expression s'
  links : ∀ m, Link lib expression s m → Link lib expression s' m
  relinked : ∀ m, Link lib expression s' m ∨ s'.monitored m = s.monitored m
  moved : ∀ m, s'.monitored m = s.monitored m ∨ s.fired < s'.fired
  fired : s.fired ≤ s'.fired
  first : ∀ a, s'.monitored ⟨a, 0⟩ = s.monitored ⟨a, 0⟩

theorem kept_refl (h : Whole expression s) : Kept lib expression s s where
  container := rfl
  whole := h
  links _ hm := hm
  relinked _ := Or.inr rfl
  moved _ := Or.inl rfl
  fired := Nat.le_refl _
  first _ := rfl

theorem Kept.trans (h : Kept lib expression s s') (h' : Kept lib expression s' s'') : Kept lib expression s s'' where
  container := h'.container.trans h.container
  whole := h'.whole
  links m hm := h'.links m (h.links m hm)
  relinked m := by
    rcases h'.relinked m with hm | hm
    · exact Or.inl hm
    · rcases h.relinked m with hl | hl
      · exact Or.inl (h'.links m hl)
      · exact Or.inr (hm.trans hl)
  moved m := by
    have hle := h.fired
    have hle' := h'.fired
    rcases h'.moved m with hm | hm
    · rcases h.moved m with hl | hl
      · exact Or.inl (hm.trans hl)
      · exact Or.inr (by omega)
    · exact Or.inr (by omega)
  fired := Nat.le_trans h.fired h'.fired
  first a := (h'.first a).trans (h.first a)

/-- A call of the listener `m` that has told everybody and mended its link. -/
structure Mended (lib : Library L) (expression : Expression String (Option (Value L))) (m : Monitor)
    (s s' : State L) : Prop where
  link : Link lib expression s' m
  told : s.fired < s'.fired

theorem Mended.after {m : Monitor} (h : Mended lib expression m s' s'') (hk : Kept lib expression s s') :
    Mended lib expression m s s'' :=
  ⟨h.link, Nat.lt_of_le_of_lt hk.fired h.told⟩

theorem Mended.before {m : Monitor} (h : Mended lib expression m s s') (hk : Kept lib expression s' s'') :
    Mended lib expression m s s'' :=
  ⟨hk.links m h.link, Nat.lt_of_lt_of_le h.told hk.fired⟩

/-- The value can be computed, or nobody asks for it. -/
def Computes (lib : Library L) (root : Value L) (expression : Expression String (Option (Value L)))
    (changeListener : Bool) (container : Nat → Container L) : Prop :=
  changeListener = true → ∃ v, getValue lib container root expression = .ok v

omit [DecidableEq L] in
theorem fire_of_computes (h : Computes lib root expression changeListener s.container) :
    fireValueChangedEvent lib root expression changeListener s = (.ok (), { s with fired := s.fired + 1 }) := by
  cases changeListener with
  | false => rfl
  | true =>
    obtain ⟨v, hv⟩ := h rfl
    have hread : currentValue lib root expression s = (.ok v, s) := congrArg (fun r => (r, s)) hv
    exact bind_ok hread

omit [DecidableEq L] in
theorem fire_cases (lib : Library L) (root : Value L)
    (expression : Expression String (Option (Value L))) (changeListener : Bool) (s : State L) :
    fireValueChangedEvent lib root expression changeListener s = (.ok (), { s with fired := s.fired + 1 }) ∨
    ∃ e, fireValueChangedEvent lib root expression changeListener s = (.error e, s) := by
  by_cases h : Computes lib root expression changeListener s.container
  · exact Or.inl (fire_of_computes h)
  · right
    cases changeListener with
    | false => exact absurd (fun h => by cases h) h
    | true =>
      cases hv : getValue lib s.container root expression with
      | ok v => exact absurd (fun _ => ⟨v, hv⟩) h
      | error e =>
        refine ⟨e, ?_⟩
        have hread : currentValue lib root expression s = (.error e, s) :=
          congrArg (fun r => (r, s)) hv
        exact bind_error hread

theorem changed_spec (lib : Library L) (root : Value L) (changeListener : Bool) (m : Monitor)
    (h : Whole expression s) :
    Kept lib expression s (changed lib root expression changeListener m (keysOf expression m) s).2 ∧
    (Computes lib root expression changeListener s.container → Mended lib expression m s
      (changed lib root expression changeListener m (keysOf expression m) s).2) := by
  have hmend : fireValueChangedEvent lib root expression changeListener s = (.ok (), { s with fired := s.fired + 1 }) →
      Kept lib expression s (changed lib root expression changeListener m (keysOf expression m) s).2 ∧
      Mended lib expression m s (changed lib root expression changeListener m (keysOf expression m) s).2 := by
    intro hfire
    have hwhole : Whole expression { s with fired := s.fired + 1 } := ⟨h.count, h.outside⟩
    obtain ⟨r, s', hs', hwhole', hbelow, hlinked⟩ := remonitor_spec lib m hwhole
    have hrun : changed lib root expression changeListener m (keysOf expression m) s = (r, s') := by
      rw [changed, bind_ok hfire, hs']
    have hfired : s'.fired = s.fired + 1 := hbelow.fired
    rw [hrun]
    show Kept lib expression s s' ∧ Mended lib expression m s s'
    have hsame : ∀ m', m'.argument ≠ m.argument ∨ m'.depth ≤ m.depth → s'.monitored m' = s.monitored m' := by
      intro m' hm'
      refine hbelow.monitored m' ?_
      rcases hm' with hm' | hm'
      · exact Or.inl hm'
      · exact Or.inr (Nat.lt_succ_of_le hm')
    have hfrom : ∀ m', m'.argument = m.argument → m.depth ≤ m'.depth → Link lib expression s' m' := by
      intro m' harg hdepth
      have := hlinked (m'.depth - m.depth)
      rw [← harg, show m.depth + (m'.depth - m.depth) = m'.depth from by omega] at this
      exact this
    refine ⟨⟨hbelow.container, hwhole', ?_, ?_, ?_, ?_, ?_⟩, hfrom m rfl (Nat.le_refl _), ?_⟩
    · intro m' hl
      by_cases hm' : m'.argument = m.argument ∧ m.depth ≤ m'.depth
      · exact hfrom m' hm'.1 hm'.2
      · intro key next rest hkeys
        have hnext : s'.monitored m'.next = s.monitored m'.next := by
          refine hsame m'.next ?_
          by_cases harg : m'.argument = m.argument
          · right
            show m'.depth + 1 ≤ m.depth
            omega
          · exact Or.inl harg
        have hself : s'.monitored m' = s.monitored m' := hsame m' (by omega)
        have hcontainer : s'.container = s.container := hbelow.container
        rw [hnext, hself, hcontainer]
        exact hl key next rest hkeys
    · intro m'
      by_cases hm' : m'.argument = m.argument ∧ m.depth ≤ m'.depth
      · exact Or.inl (hfrom m' hm'.1 hm'.2)
      · exact Or.inr (hsame m' (by omega))
    · intro m'
      exact Or.inr (by omega)
    · omega
    · intro a
      exact hsame ⟨a, 0⟩ (Or.inr (Nat.zero_le _))
    · omega
  refine ⟨?_, fun hc => (hmend (fire_of_computes hc)).2⟩
  rcases fire_cases lib root expression changeListener s with hfire | ⟨e, hfire⟩
  · exact (hmend hfire).1
  · rw [changed, bind_error hfire]
    exact kept_refl h

end ExpressionValue

namespace ExpressionValue

variable {L : Type} [DecidableEq L] {lib : Library L} {root : Value L}
  {expression : Expression String (Option (Value L))} {changeListener : Bool} {s s' s'' : State L}

/-- The report says something about the key of the monitor. -/
def Concerns (lib : Library L) (expression : Expression String (Option (Value L))) (m : Monitor) :
    Report L → Prop
  | .list change => ∃ key rest index, keysOf expression m = key :: rest ∧
      lib.parseInt key = some index ∧ ∃ r ∈ change.changes, r.from ≤ index ∧ index < r.to
  | .map key => ∃ rest, keysOf expression m = key :: rest

theorem onRecords_spec (lib : Library L) (root : Value L) (changeListener : Bool)
    {m : Monitor} {key : String} {rest : List String}
    (hkeys : keysOf expression m = key :: rest) : ∀ (records : List (SubChange (Option (Value L))))
    {s : State L}, Whole expression s →
    Kept lib expression s (forEach (onRecord lib root expression changeListener m key (key :: rest)) records s).2 ∧
    (Computes lib root expression changeListener s.container →
      (∃ index, lib.parseInt key = some index ∧ ∃ r ∈ records, r.from ≤ index ∧ index < r.to) →
      Mended lib expression m s
        (forEach (onRecord lib root expression changeListener m key (key :: rest)) records s).2) := by
  intro records
  induction records with
  | nil =>
    intro s h
    refine ⟨kept_refl h, ?_⟩
    rintro - ⟨index, -, r, hr, -⟩
    cases hr
  | cons record records ih =>
    intro s h
    cases hp : lib.parseInt key with
    | none =>
      have hrun : onRecord lib root expression changeListener m key (key :: rest) record s
          = (.error .illegalArgument, s) := by
        rw [onRecord, hp]
        rfl
      rw [forEach, bind_error hrun]
      refine ⟨kept_refl h, ?_⟩
      rintro - ⟨index, hindex, -⟩
      cases hindex
    | some index =>
      by_cases hin : index ≥ record.from ∧ index < record.to
      · have hrun : onRecord lib root expression changeListener m key (key :: rest) record s
            = changed lib root expression changeListener m (key :: rest) s := by
          rw [onRecord, hp]
          simp only
          rw [if_pos hin]
        obtain ⟨hkept, hmended⟩ := changed_spec lib root changeListener m h
        rw [hkeys] at hkept hmended
        rcases hc : changed lib root expression changeListener m (key :: rest) s with ⟨r, s₁⟩
        rw [hc] at hkept hmended
        cases r with
        | error e =>
          rw [forEach, bind_error (hrun.trans hc)]
          exact ⟨hkept, fun hcomp _ => hmended hcomp⟩
        | ok u =>
          obtain ⟨hkept', -⟩ := ih hkept.whole
          rw [forEach, bind_ok (hrun.trans hc)]
          exact ⟨hkept.trans hkept', fun hcomp _ => (hmended hcomp).before hkept'⟩
      · have hrun : onRecord lib root expression changeListener m key (key :: rest) record s = (.ok (), s) := by
          rw [onRecord, hp]
          simp only
          rw [if_neg hin]
          rfl
        obtain ⟨hkept, hmended⟩ := ih h
        rw [forEach, bind_ok hrun]
        refine ⟨hkept, fun hcomp => ?_⟩
        rintro ⟨index', hindex', r, hr, hfrom, hto⟩
        obtain rfl := Option.some.inj hindex'
        refine hmended hcomp ⟨index, hp, r, ?_, hfrom, hto⟩
        rcases List.mem_cons.mp hr with rfl | hr
        · exact absurd ⟨hfrom, hto⟩ hin
        · exact hr

/-- **One listener.** -/
theorem notify_spec (lib : Library L) (root : Value L) (changeListener : Bool) (report : Report L)
    (m : Monitor) (h : Whole expression s) :
    Kept lib expression s (notify lib root expression changeListener report m s).2 ∧
    (Computes lib root expression changeListener s.container → Concerns lib expression m report →
      Mended lib expression m s (notify lib root expression changeListener report m s).2) := by
  show Kept lib expression s (onChanged lib root expression changeListener m (keysOf expression m) report s).2 ∧
    (_ → _ → Mended lib expression m s
      (onChanged lib root expression changeListener m (keysOf expression m) report s).2)
  cases hkeys : keysOf expression m with
  | nil =>
    refine ⟨kept_refl h, fun _ hc => ?_⟩
    cases report with
    | list change =>
      obtain ⟨key, rest, index, hk, -⟩ := hc
      rw [hkeys] at hk
      cases hk
    | map key =>
      obtain ⟨rest, hk⟩ := hc
      rw [hkeys] at hk
      cases hk
  | cons key rest =>
    cases report with
    | list change =>
      obtain ⟨hkept, hmended⟩ := onRecords_spec lib root changeListener hkeys change.changes h
      refine ⟨hkept, fun hcomp hc => hmended hcomp ?_⟩
      obtain ⟨key', rest', index, hk, hindex, hr⟩ := hc
      rw [hkeys] at hk
      obtain ⟨rfl, -⟩ := List.cons.inj hk
      exact ⟨index, hindex, hr⟩
    | map changedKey =>
      obtain ⟨hkept, hmended⟩ := changed_spec lib root changeListener m h
      rw [hkeys] at hkept hmended
      simp only [onChanged]
      by_cases hkey : key = changedKey
      · rw [if_pos hkey]
        exact ⟨hkept, fun hcomp _ => hmended hcomp⟩
      · rw [if_neg hkey]
        refine ⟨kept_refl h, fun _ hc => ?_⟩
        obtain ⟨rest', hk⟩ := hc
        rw [hkeys] at hk
        exact absurd (List.cons.inj hk).1 hkey

theorem notifyAll_spec (lib : Library L) (root : Value L) (changeListener : Bool)
    (report : Report L) : ∀ (ms : List Monitor) {s : State L},
    Whole expression s →
    ∃ s', forEach (notify lib root expression changeListener report) ms s = (.ok (), s') ∧ Kept lib expression s s' ∧
      (Computes lib root expression changeListener s.container → ∀ m ∈ ms,
        Concerns lib expression m report → Mended lib expression m s s') := by
  intro ms
  induction ms with
  | nil =>
    intro s h
    refine ⟨s, rfl, kept_refl h, ?_⟩
    intro _ m hm
    cases hm
  | cons m ms ih =>
    intro s h
    obtain ⟨hkept, hmended⟩ := notify_spec lib root changeListener report m h
    obtain ⟨s', hs', hkept', hmended'⟩ := ih hkept.whole
    refine ⟨s', ?_, hkept.trans hkept', ?_⟩
    · exact (bind_ok rfl).trans hs'
    · intro hcomp m' hm' hc
      rcases List.mem_cons.mp hm' with rfl | hm'
      · exact (hmended hcomp hc).before hkept'
      · exact (hmended' (by rw [hkept.container]; exact hcomp) m' hm' hc).after hkept

theorem Whole.mem_listeners {m : Monitor} {r : Nat} (h : Whole expression s)
    (hm : s.monitored m = some (.ref r)) : m ∈ s.listeners r := by
  have hcount := h.count m r
  rw [if_pos hm] at hcount
  exact List.count_pos_iff.mp (by omega)

theorem callObservers_spec (lib : Library L) (root : Value L) (changeListener : Bool)
    (r : Nat) (report : Report L) (h : Whole expression s) :
    ∃ s', callObservers lib root expression changeListener r report s = (.ok (), s') ∧ Kept lib expression s s' ∧
      (Computes lib root expression changeListener s.container → ∀ m,
        s.monitored m = some (.ref r) → Concerns lib expression m report →
        Mended lib expression m s s') := by
  obtain ⟨s', hs', hkept, hmended⟩ := notifyAll_spec lib root changeListener report (s.listeners r) h
  refine ⟨s', ?_, hkept, fun hcomp m hm hc => hmended hcomp m (h.mem_listeners hm) hc⟩
  exact (bind_ok rfl).trans hs'

/-- A monitor that some report concerns. -/
def Told (lib : Library L) (expression : Expression String (Option (Value L))) (reports : List (Report L))
    (m : Monitor) : Prop :=
  ∃ report ∈ reports, Concerns lib expression m report

/-- **All the reports of a mutation.**  A monitor that is concerned has its link mended, and
somebody has been told. -/
theorem reports_spec (lib : Library L) (root : Value L) (changeListener : Bool)
    (r : Nat) : ∀ (reports : List (Report L)) {s : State L}, Whole expression s →
    ∃ s', forEach (callObservers lib root expression changeListener r) reports s = (.ok (), s') ∧
      Kept lib expression s s' ∧
      (Computes lib root expression changeListener s.container → ∀ m,
        s.monitored m = some (.ref r) → Told lib expression reports m → Mended lib expression m s s') := by
  intro reports
  induction reports with
  | nil =>
    intro s h
    refine ⟨s, rfl, kept_refl h, ?_⟩
    rintro - m - ⟨report, hr, -⟩
    cases hr
  | cons report reports ih =>
    intro s h
    obtain ⟨s₁, hs₁, hkept, hmended⟩ := callObservers_spec lib root changeListener r report h
    obtain ⟨s', hs', hkept', hmended'⟩ := ih hkept.whole
    refine ⟨s', ?_, hkept.trans hkept', ?_⟩
    · exact (bind_ok hs₁).trans hs'
    · rintro hcomp m hm ⟨report', hr, hc⟩
      rcases List.mem_cons.mp hr with rfl | hr
      · exact (hmended hcomp m hm hc).before hkept'
      · -- if the monitor was moved meanwhile, its link is right and somebody was told
        rcases hkept.relinked m with hlink | hsame
        · rcases hkept.moved m with hsame | htold
          · exact (hmended' (by rw [hkept.container]; exact hcomp) m (hsame.trans hm) ⟨report', hr, hc⟩).after hkept
          · exact ⟨hkept'.links m hlink, Nat.lt_of_lt_of_le htold hkept'.fired⟩
        · exact (hmended' (by rw [hkept.container]; exact hcomp) m (hsame.trans hm) ⟨report', hr, hc⟩).after hkept

end ExpressionValue

namespace ExpressionValue

variable {L : Type} [DecidableEq L] {lib : Library L} {root : Value L}
  {expression : Expression String (Option (Value L))} {changeListener : Bool} {s s' s'' : State L}

/-! ### Places -/

/-- What a path leads to, if it leads anywhere. -/
def valueAt (lib : Library L) (container : Nat → Container L) (keys : KeyPath String)
    (value : Option (Value L)) : Option (Value L) :=
  keys.foldl (fun v key => found lib container key v) value

/-- What the key of a monitor has to be looked up in. -/
def placeOf (lib : Library L) (root : Value L) (expression : Expression String (Option (Value L)))
    (container : Nat → Container L) (m : Monitor) : Option (Value L) :=
  valueAt lib container ((expression.getArguments.getD m.argument []).take m.depth) (some root)

/-- **The listeners are attached exactly to the containers on the key paths**: once for each
place of a container on a path. -/
def Attached (lib : Library L) (root : Value L) (expression : Expression String (Option (Value L)))
    (s : State L) : Prop :=
  ∀ m r, (s.listeners r).count m =
    if keysOf expression m ≠ [] ∧ placeOf lib root expression s.container m = some (.ref r)
      then 1 else 0

/-- The value at one of the key paths is another one. -/
def ValueChanged (lib : Library L) (root : Value L) (expression : Expression String (Option (Value L)))
    (container container' : Nat → Container L) : Prop :=
  ∃ path ∈ expression.getArguments, getPath lib container path (some root) ≠ getPath lib container' path (some root)

/-- All the monitors are right. -/
structure Valid (lib : Library L) (root : Value L) (expression : Expression String (Option (Value L)))
    (s : State L) : Prop where
  whole : Whole expression s
  links : ∀ m, Link lib expression s m
  first : ∀ a, keysOf expression ⟨a, 0⟩ ≠ [] → s.monitored ⟨a, 0⟩ = some root

theorem Valid.monitored_eq (h : Valid lib root expression s) (a : Nat) : ∀ d, keysOf expression ⟨a, d⟩ ≠ [] →
    s.monitored ⟨a, d⟩ = placeOf lib root expression s.container ⟨a, d⟩ := by
  intro d
  induction d with
  | zero => exact h.first a
  | succ d ih =>
    intro hkeys
    rcases hm : keysOf expression ⟨a, d⟩ with _ | ⟨key, rest⟩
    · have hnext : keysOf expression ⟨a, d + 1⟩ = (keysOf expression ⟨a, d⟩).drop 1 :=
        keysOf_deeper ⟨a, d⟩ 1
      rw [hm] at hnext
      exact absurd hnext hkeys
    · have hrest : keysOf expression ⟨a, d + 1⟩ = rest := keysOf_next hm
      obtain ⟨next, rest', rfl⟩ : ∃ next rest', rest = next :: rest' :=
        exists_cons_of_ne_nil (hrest ▸ hkeys)
      have hlink := h.links ⟨a, d⟩ key next rest' hm
      rw [ih (by rw [hm]; simp)] at hlink
      have hkey : (expression.getArguments.getD a [])[d]? = some key := by
        have := congrArg head? hm
        rw [keysOf, head?_drop] at this
        exact this
      show s.monitored (Monitor.next ⟨a, d⟩) = _
      rw [hlink, placeOf, placeOf, valueAt, valueAt]
      rw [take_add_one, hkey, foldl_append]
      rfl

theorem Valid.attached (h : Valid lib root expression s) : Attached lib root expression s := by
  intro m r
  rw [h.whole.count m r]
  by_cases hkeys : keysOf expression m = []
  · rw [h.whole.outside m hkeys, if_neg (by simp), if_neg (by simp [hkeys])]
  · rw [h.monitored_eq m.argument m.depth hkeys]
    simp [hkeys]

/-! ### Mutations -/

variable {container : Nat → Container L}

omit [DecidableEq L] in
/-- Only what is looked up in the container that was mutated can be another. -/
theorem get_update {r : Nat} {c : Container L} {key : String} {value : Option (Value L)} (h : value ≠ some (.ref r)) :
    get lib (update container r c) key value = get lib container key value := by
  cases value with
  | none => rfl
  | some v =>
    cases v with
    | leaf v => rfl
    | ref r' =>
      have hr : r' ≠ r := fun heq => h (by rw [heq])
      simp only [get, update_of_ne hr]

/-- The mutation changes what the key of the monitor leads to. -/
def Changes (lib : Library L) (root : Value L) (expression : Expression String (Option (Value L)))
    (container container' : Nat → Container L) (r : Nat) (m : Monitor) : Prop :=
  ∃ key rest, keysOf expression m = key :: rest ∧ placeOf lib root expression container m = some (.ref r) ∧
    get lib container key (some (.ref r)) ≠ get lib container' key (some (.ref r))

/-- What has to be true of a mutation when the value of a watched key changes: the monitors that
have another one behind are told themselves, some monitor on the container is told, and the value
of the expression can be computed if there is a change listener. -/
def Safe (lib : Library L) (root : Value L) (expression : Expression String (Option (Value L)))
    (changeListener : Bool) (s : State L) (mutation : Mutation L) : Prop :=
  let effect := mutation.effect lib s
  let after := Function.update s.container mutation.target effect.1
  ∀ m, Changes lib root expression s.container after mutation.target m →
    (HasNext expression m → Told lib expression effect.2 m) ∧
    (∃ m', keysOf expression m' ≠ [] ∧ placeOf lib root expression s.container m' = some (.ref mutation.target) ∧
      Told lib expression effect.2 m') ∧
    Computes lib root expression changeListener after

omit [DecidableEq L] in
/-- If the value at a path changes, the value of one of its keys does. -/
theorem exists_changed_key {container' : Nat → Container L} : ∀ (path : KeyPath String) (value : Option (Value L)),
    getPath lib container path value ≠ getPath lib container' path value →
    ∃ n key rest, path.drop n = key :: rest ∧ get lib container key (valueAt lib container (path.take n) value)
        ≠ get lib container' key (valueAt lib container (path.take n) value) := by
  intro path
  induction path with
  | nil =>
    intro value h
    exact absurd rfl h
  | cons key rest ih =>
    intro value h
    by_cases hget : get lib container key value = get lib container' key value
    · rw [getPath, getPath, ← hget] at h
      cases hv : get lib container key value with
      | error e =>
        rw [hv] at h
        exact absurd rfl h
      | ok v =>
        rw [hv] at h
        obtain ⟨n, key', rest', hdrop, hne⟩ := ih v h
        refine ⟨n + 1, key', rest', hdrop, ?_⟩
        rw [take_succ_cons, valueAt, foldl_cons, found_of_ok hv]
        exact hne
    · exact ⟨0, key, rest, rfl, hget⟩

/-- **A safe mutation leaves the monitors right, and no change goes unnoticed.** -/
theorem run_spec (h : Valid lib root expression s) {mutation : Mutation L}
    (hsafe : Safe lib root expression changeListener s mutation) :
    Valid lib root expression (mutation.run lib root expression changeListener s).2 ∧
    (ValueChanged lib root expression s.container (mutation.run lib root expression changeListener s).2.container →
      s.fired < (mutation.run lib root expression changeListener s).2.fired) := by
  let t : State L :=
    { s with container := update s.container mutation.target (mutation.effect lib s).1 }
  have hwhole : Whole expression t := ⟨h.whole.count, h.whole.outside⟩
  obtain ⟨s', hs', hkept, hmended⟩ := reports_spec lib root changeListener mutation.target
    (mutation.effect lib s).2 hwhole
  have hrun : mutation.run lib root expression changeListener s = (.ok (), s') := by
    exact (bind_ok rfl).trans ((bind_ok rfl).trans hs')
  rw [hrun]
  have hplace : ∀ m, keysOf expression m ≠ [] → t.monitored m = placeOf lib root expression s.container m :=
    fun m hm => h.monitored_eq m.argument m.depth hm
  have hlinks : ∀ m, Link lib expression s' m := by
    intro m
    by_cases hlink : Link lib expression t m
    · exact hkept.links m hlink
    · -- the link is broken: the key leads to something else now
      unfold Link at hlink
      push Not at hlink
      obtain ⟨key, next, rest, hkeys, hne⟩ := hlink
      have hne' : found lib s.container key (s.monitored m) ≠ found lib t.container key (s.monitored m) := by
        rw [← h.links m key next rest hkeys]
        exact hne
      have hget : get lib s.container key (s.monitored m) ≠ get lib t.container key (s.monitored m) :=
        fun heq => hne' (by rw [found, found, heq])
      have hm : s.monitored m = some (.ref mutation.target) := by
        by_contra hm
        exact hget (get_update hm).symm
      have hpos := hplace m (by rw [hkeys]; simp)
      have hpos' : placeOf lib root expression s.container m = some (.ref mutation.target) :=
        hpos.symm.trans hm
      rw [hm] at hget
      obtain ⟨htold, -, hcomp⟩ := hsafe m ⟨key, next :: rest, hkeys, hpos', hget⟩
      have hnext : HasNext expression m := by
        rw [HasNext, hkeys]
        simp
      exact (hmended hcomp m hm (htold hnext)).link
  refine ⟨⟨hkept.whole, hlinks, fun a ha => (hkept.first a).trans (h.first a ha)⟩, ?_⟩
  rintro ⟨path, hpath, hne⟩
  have hcontainer : s'.container = t.container := hkept.container
  rw [hcontainer] at hne
  obtain ⟨n, key, rest, hdrop, hget⟩ := exists_changed_key path (some root) hne
  obtain ⟨a, ha⟩ := List.mem_iff_getElem?.mp hpath
  have hgetD : expression.getArguments.getD a [] = path := by
    rw [getD_eq_getElem?_getD, ha]
    rfl
  have hkeys : keysOf expression ⟨a, n⟩ = key :: rest := by
    rw [keysOf, hgetD]
    exact hdrop
  have hvalue : valueAt lib s.container (path.take n) (some root) = some (.ref mutation.target) := by
    by_contra hm
    exact hget (get_update hm).symm
  rw [hvalue] at hget
  have hpos : placeOf lib root expression s.container ⟨a, n⟩ = some (.ref mutation.target) := by
    rw [placeOf, hgetD]
    exact hvalue
  obtain ⟨-, ⟨m', hkeys', hpos', htold⟩, hcomp⟩ := hsafe ⟨a, n⟩ ⟨key, rest, hkeys, hpos, hget⟩
  exact (hmended hcomp m' ((hplace m' hkeys').trans hpos') htold).told

end ExpressionValue

namespace ExpressionValue

variable {L : Type} [DecidableEq L] {lib : Library L} {root : Value L}
  {expression : Expression String (Option (Value L))} {changeListener : Bool} {s s' s'' : State L}

/-! ### Whole runs -/

theorem monitorAll_spec (lib : Library L) (root : Value L) : ∀ (es : List (KeyPath String × Nat)) {s : State L},
    Whole expression s →
    (∀ e ∈ es, keysOf expression ⟨e.2, 0⟩ = e.1 ∧ e.1 ≠ [] ∧ Blank ⟨e.2, 0⟩ s) →
    (es.map Prod.snd).Nodup →
    forEach (fun e : KeyPath String × Nat => monitor lib e.2 e.1 0 root) es s = (.ok (), s') →
    Whole expression s' ∧ s'.container = s.container ∧
      (∀ m, m.argument ∉ es.map Prod.snd → s'.monitored m = s.monitored m) ∧
      ∀ e ∈ es, s'.monitored ⟨e.2, 0⟩ = some root ∧ LinkedFrom lib expression ⟨e.2, 0⟩ s' := by
  intro es
  induction es with
  | nil =>
    intro s h _ _ hrun
    obtain rfl : s = s' := (Prod.mk.inj hrun).2
    exact ⟨h, rfl, fun _ _ => rfl, by simp⟩
  | cons e es ih =>
    intro s h hes hnodup hrun
    obtain ⟨hkeys, hne, hblank⟩ := hes e (by simp)
    obtain ⟨r, s₁, hs₁, hwhole, hbelow, hfirst, hlinked⟩ :=
      monitor_spec lib e.1 ⟨e.2, 0⟩ root h hkeys hne hblank
    obtain ⟨hfresh, hnodup'⟩ := List.nodup_cons.mp hnodup
    -- the chains of other paths are not touched
    have hother : ∀ m : Monitor, m.argument ≠ e.2 → s₁.monitored m = s.monitored m :=
      fun m hm => hbelow.monitored m (Or.inl hm)
    have hes' : ∀ e' ∈ es, keysOf expression ⟨e'.2, 0⟩ = e'.1 ∧ e'.1 ≠ [] ∧ Blank ⟨e'.2, 0⟩ s₁ := by
      intro e' he'
      obtain ⟨hk, hn, hb⟩ := hes e' (mem_cons_of_mem e he')
      have hidx : e'.2 ≠ e.2 := by
        intro heq
        exact hfresh (heq ▸ mem_map_of_mem he')
      exact ⟨hk, hn, fun n => (hother _ hidx).trans (hb n)⟩
    rw [forEach] at hrun
    cases r with
    | error ex =>
      rw [bind_error hs₁] at hrun
      cases hrun
    | ok u =>
      rw [bind_ok hs₁] at hrun
      obtain ⟨hwhole', hcontainer, hsame, hall⟩ := ih hwhole hes' hnodup' hrun
      refine ⟨hwhole', hcontainer.trans hbelow.container, ?_, ?_⟩
      · intro m hm
        rw [map_cons, mem_cons, not_or] at hm
        exact (hsame m hm.2).trans (hother m hm.1)
      · intro e' he'
        rcases List.mem_cons.mp he' with rfl | he'
        · refine ⟨(hsame _ hfresh).trans hfirst, fun n => ?_⟩
          intro key next rest hk
          have hl := hlinked n key next rest hk
          rw [hsame _ hfresh, hsame _ hfresh, hcontainer]
          exact hl
        · exact hall e' he'

/-- The states in which a listener is attached to the expression: it was attached to a value whose
key paths are not empty, and since then there were only mutations that are safe. -/
inductive Reached (lib : Library L) (root : Value L) (expression : Expression String (Option (Value L)))
    (changeListener : Bool) : State L → Prop
  | start (container : Nat → Container L) {s : State L}
      (hpaths : ∀ path ∈ expression.getArguments, path ≠ [])
      (h : addListener lib root expression { container } = (.ok (), s)) :
      Reached lib root expression changeListener s
  | step {s : State L} (h : Reached lib root expression changeListener s) (mutation : Mutation L)
      (hsafe : Safe lib root expression changeListener s mutation) :
      Reached lib root expression changeListener (mutation.run lib root expression changeListener s).2

theorem start_valid {container : Nat → Container L} (hpaths : ∀ path ∈ expression.getArguments, path ≠ [])
    (h : addListener lib root expression { container } = (.ok (), s)) :
    Valid lib root expression s := by
  -- reading the value does not change the state
  have hmonitor : monitorArguments lib root expression { container } = (.ok (), s) := by
    rw [addListener] at h
    rcases hm : monitorArguments lib root expression { container } with ⟨r, s₁⟩
    cases r with
    | error e =>
      rw [bind_error hm] at h
      cases h
    | ok u =>
      rw [bind_ok hm] at h
      cases hv : getValue lib s₁.container root expression with
      | error e =>
        have hread : currentValue lib root expression s₁ = (.error e, s₁) :=
          congrArg (fun r => (r, s₁)) hv
        rw [bind_error hread] at h
        cases h
      | ok v =>
        have hread : currentValue lib root expression s₁ = (.ok v, s₁) :=
          congrArg (fun r => (r, s₁)) hv
        rw [bind_ok hread] at h
        exact h
  have hwhole : Whole expression ({ container } : State L) := ⟨fun m r => rfl, fun m _ => rfl⟩
  have hkeys : ∀ e ∈ expression.getArguments.zipIdx, keysOf expression ⟨e.2, 0⟩ = e.1 := by
    intro e he
    have hget := List.mem_zipIdx_iff_getElem?.mp he
    rw [keysOf, getD_eq_getElem?_getD, hget]
    rfl
  obtain ⟨hwhole', hcontainer, hsame, hall⟩ := monitorAll_spec lib root expression.getArguments.zipIdx hwhole
    (fun e he => ⟨hkeys e he, hpaths e.1 (by
      rw [mem_iff_getElem?]
      exact ⟨e.2, List.mem_zipIdx_iff_getElem?.mp he⟩), fun n => rfl⟩)
    (by rw [zipIdx_map_snd]; exact nodup_range') hmonitor
  -- a monitor with keys belongs to one of the paths
  have hpath : ∀ m, keysOf expression m ≠ [] → ∃ e ∈ expression.getArguments.zipIdx, e.2 = m.argument := by
    intro m hm
    cases hget : expression.getArguments[m.argument]? with
    | none =>
      rw [keysOf, getD_eq_getElem?_getD, hget] at hm
      exact absurd (drop_nil) hm
    | some path => exact ⟨(path, m.argument), List.mem_zipIdx_iff_getElem?.mpr hget, rfl⟩
  refine ⟨hwhole', ?_, ?_⟩
  · intro m key next rest hk
    obtain ⟨e, he, harg⟩ := hpath m (by rw [hk]; simp)
    have hl := (hall e he).2 m.depth
    rw [harg, Nat.zero_add] at hl
    exact hl key next rest hk
  · intro a ha
    obtain ⟨e, he, harg⟩ := hpath ⟨a, 0⟩ ha
    have hf := (hall e he).1
    rw [harg] at hf
    exact hf

theorem Reached.valid (h : Reached lib root expression changeListener s) : Valid lib root expression s := by
  induction h with
  | start container hpaths hadd => exact start_valid hpaths hadd
  | step _ mutation hsafe ih => exact (run_spec ih hsafe).1

/-- **In a run of safe mutations the listeners stay on the containers of the key paths, and every
change of a value at one of the paths is followed by an event.** -/
theorem watched_of_reached (h : Reached lib root expression changeListener s) :
    Attached lib root expression s ∧ ∀ mutation : Mutation L,
      Safe lib root expression changeListener s mutation →
      Attached lib root expression (mutation.run lib root expression changeListener s).2 ∧
      (ValueChanged lib root expression s.container (mutation.run lib root expression changeListener s).2.container →
        s.fired < (mutation.run lib root expression changeListener s).2.fired) := by
  refine ⟨h.valid.attached, fun mutation hsafe => ?_⟩
  obtain ⟨hvalid, hfired⟩ := run_spec h.valid hsafe
  exact ⟨hvalid.attached, hfired⟩

end ExpressionValue

namespace ExpressionValue

/-! ### An example -/

/-- `items[1]`, in a map that holds a list. -/
def sampleExpression : Expression String (Option (Value Nat)) := .variable ["items", "1"]

def sampleLibrary : Library Nat where
  parseInt key := if key = "0" then some 0 else if key = "1" then some 1 else none
  property _ _ := none
  equals _ v v' := v = v'
  unary _ v := .ok v
  binary _ v _ := .ok v
  coerce v := .ok v

def sampleNamespace : Nat → Container Nat
  | 0 => .map [("items", some (.ref 1))]
  | 1 => .list { backingList := [some (.leaf 2), some (.leaf 3)] }
  | _ => .list { backingList := [some (.leaf 4), some (.leaf 5)] }

def sampleStart : State Nat :=
  (addListener sampleLibrary (.ref 0) sampleExpression { container := sampleNamespace }).2

theorem sample_reached : Reached sampleLibrary (.ref 0) sampleExpression true sampleStart :=
  .start sampleNamespace (by simp [sampleExpression, Expression.getArguments]) rfl

theorem watched_replacement : Reached sampleLibrary (.ref 0) sampleExpression true sampleStart ∧
    Safe sampleLibrary (.ref 0) sampleExpression true sampleStart (.put 0 "items" (some (.ref 2))) ∧
    Attached sampleLibrary (.ref 0) sampleExpression
      (Mutation.run sampleLibrary (.ref 0) sampleExpression true (.put 0 "items" (some (.ref 2))) sampleStart).2 := by
  have hsafe : Safe sampleLibrary (.ref 0) sampleExpression true sampleStart
      (.put 0 "items" (some (.ref 2))) := by
    rintro ⟨a, d⟩ ⟨key, rest, hkeys, hplace, -⟩
    -- the only key that is looked up in the map is the first one
    have htold : Told sampleLibrary sampleExpression
        (Mutation.effect sampleLibrary sampleStart (.put 0 "items" (some (.ref 2)))).2
        ⟨0, 0⟩ := by
      have heffect : (Mutation.effect sampleLibrary sampleStart
          (.put 0 "items" (some (.ref 2)))).2 = [.map "items"] := rfl
      rw [heffect]
      exact ⟨.map "items", by simp, ["1"], rfl⟩
    have ha : a = 0 := by
      by_contra ha
      obtain ⟨n, rfl⟩ : ∃ n, a = n + 1 := ⟨a - 1, by omega⟩
      have hnil : keysOf sampleExpression ⟨n + 1, d⟩ = [] := by
        show drop d ([["items", "1"]].getD (n + 1) []) = []
        simp
      rw [hnil] at hkeys
      cases hkeys
    subst ha
    match d with
    | 0 =>
      exact ⟨fun _ => htold, ⟨⟨0, 0⟩, by decide, rfl, htold⟩, fun _ => ⟨some (.leaf 5), rfl⟩⟩
    | 1 =>
      cases hplace
    | d + 2 =>
      have hnil : keysOf sampleExpression ⟨0, d + 2⟩ = [] := by
        show drop (d + 2) ["items", "1"] = []
        simp
      rw [hnil] at hkeys
      cases hkeys
  exact ⟨sample_reached, hsafe, ((watched_of_reached sample_reached).2 _ hsafe).1⟩

/-- An insertion in front of a watched position moves another element there, and nobody hears of
it. -/
theorem unnoticed_insertion : Reached sampleLibrary (.ref 0) sampleExpression true sampleStart ∧
    ValueChanged sampleLibrary (.ref 0) sampleExpression sampleStart.container
      (Mutation.run sampleLibrary (.ref 0) sampleExpression true
        (.list 1 (.addAt 0 (some (.leaf 9)))) sampleStart).2.container ∧
    (Mutation.run sampleLibrary (.ref 0) sampleExpression true
      (.list 1 (.addAt 0 (some (.leaf 9)))) sampleStart).2.fired = sampleStart.fired := by
  refine ⟨sample_reached, ⟨["items", "1"], by simp [sampleExpression, Expression.getArguments], ?_⟩, by decide +kernel⟩
  have hold : getPath sampleLibrary sampleStart.container ["items", "1"] (some (.ref 0)) = .ok (some (.leaf 3)) := rfl
  have hnew : getPath sampleLibrary (Mutation.run sampleLibrary (.ref 0) sampleExpression true
      (.list 1 (.addAt 0 (some (.leaf 9)))) sampleStart).2.container ["items", "1"] (some (.ref 0))
        = .ok (some (.leaf 2)) := rfl
  rw [hold, hnew]
  simp

end ExpressionValue

end JavaFX
