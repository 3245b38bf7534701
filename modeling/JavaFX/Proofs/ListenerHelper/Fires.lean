/-
Fires that overlap with anything.

A fire reads from arrays it saved when it began.  What it finds there is what was
registered then, as long as nobody shifts an array it still has to read.  A locked
helper never does that.  But the lock is one flag: a fire inside a fire opens it when
it ends, while the outer one is still at work.  `Disturbs` are the steps that go wrong
then.
-/
import JavaFX.Proofs.ListenerHelper.Registered

namespace JavaFX.Property

open List

variable {L V : Type} {s s' : Property L V} {source : Source L} {ls : List L}

/-! ### What a fire has saved -/

/-- The loop will find these listeners. -/
def Finds (s : Property L V) (ls : List L) : Source L → Prop
  | .nothing => ls = []
  | .array ref n => ref < s.heap.length ∧ s.Holds ref n ∧ n = ls.length ∧
      (s.heap.getD ref []).take n = ls.map some
  | .single listener => listener.toList = ls ∧ listener.isSome

theorem Finds.size (h : Finds s ls source) : source.size = ls.length := by
  cases source with
  | nothing => rw [show ls = [] from h]; rfl
  | array ref n => exact h.2.2.1
  | single listener =>
    obtain ⟨rfl, hsome⟩ := h
    cases listener with
    | none => exact nomatch hsome
    | some l => rfl

variable {i : Nat} {g g' : Generic V}

theorem Finds.read (h : Finds s ls source) (hi : i < ls.length) : source.read s.heap i = some ls[i] := by
  cases source with
  | nothing => rw [show ls = [] from h] at hi; exact absurd hi (Nat.not_lt_zero i)
  | array ref n =>
    obtain ⟨-, -, rfl, htake⟩ := h
    have hget : (s.heap.getD ref [])[i]? = some (some ls[i]) := by
      have := congrArg (·[i]?) htake
      simpa [hi] using this
    rw [Source.read, hget]
    rfl
  | single listener =>
    obtain ⟨rfl, hsome⟩ := h
    cases listener with
    | none => exact nomatch hsome
    | some l =>
      obtain rfl : i = 0 := by simpa using hi
      rfl

/-- The array a source reads. -/
def SourceReads (ref : Nat) : Source L → Prop
  | .array ref' _ => ref' = ref
  | _ => False

theorem Finds.intact (h : Finds s ls source) (hi : ∀ ref, SourceReads ref source → Intact s s' ref) :
    Finds s' ls source := by
  cases source with
  | nothing => exact h
  | array ref n =>
    obtain ⟨hlt, hholds, hlen, htake⟩ := h
    obtain ⟨hlt', htake', hholds'⟩ := hi ref rfl n hlt hholds
    exact ⟨hlt', hholds', hlen, htake'.trans htake⟩
  | single listener => exact h

/-! ### Steps that leave the listeners alone -/

/-- Only flags and values differ. -/
structure Same (s s' : Property L V) : Prop where
  heap : s'.heap = s.heap
  length : s'.generics.length = s.generics.length
  invalidation : ∀ l, s'.helper = .singleInvalidation l → s.helper = .singleInvalidation l
  change : ∀ l v, s'.helper = .singleChange l v → ∃ v', s.helper = .singleChange l v'
  generic : ∀ ref, s'.helper = .generic ref → s.helper = .generic ref
  listeners : ∀ (ref : Nat) (g' : Generic V), s'.generics[ref]? = some g' →
    ∃ g : Generic V, s.generics[ref]? = some g ∧ ∀ kind, g'.listeners kind = g.listeners kind

theorem same_of_eq (hheap : s'.heap = s.heap) (hgen : s'.generics = s.generics) (hhelper : s'.helper = s.helper) :
    Same s s' where
  heap := hheap
  length := by rw [hgen]
  invalidation l h := hhelper ▸ h
  change l v h := ⟨v, hhelper ▸ h⟩
  generic ref h := hhelper ▸ h
  listeners ref g h := ⟨g, hgen ▸ h, fun _ => rfl⟩

theorem Same.trans {s'' : Property L V} (h : Same s s') (h' : Same s' s'') : Same s s'' where
  heap := h'.heap.trans h.heap
  length := h'.length.trans h.length
  invalidation l hl := h.invalidation l (h'.invalidation l hl)
  change l v hl := by
    obtain ⟨v', hv'⟩ := h'.change l v hl
    exact h.change l v' hv'
  generic ref hr := h.generic ref (h'.generic ref hr)
  listeners ref g hg := by
    obtain ⟨g', hg', hsame'⟩ := h'.listeners ref g hg
    obtain ⟨g'', hg'', hsame⟩ := h.listeners ref g' hg'
    exact ⟨g'', hg'', fun kind => (hsame' kind).trans (hsame kind)⟩

theorem same_set {ref : Nat} (hg : s.generics[ref]? = some g) (hsame : ∀ kind, g'.listeners kind = g.listeners kind) :
    Same s { s with generics := s.generics.set ref g' } where
  heap := rfl
  length := length_set
  invalidation _ h := h
  change _ v h := ⟨v, h⟩
  generic _ h := h
  listeners ref' g'' hg'' := by
    have hlt := (List.getElem?_eq_some_iff.mp hg).1
    rw [getElem?_set] at hg''
    split at hg''
    · rename_i heq
      obtain rfl := Option.some.inj hg''
      exact ⟨g, heq ▸ hg, hsame⟩
    · exact ⟨g'', hg'', fun _ => rfl⟩

theorem Same.current (h : Same s s') (hg : s'.Current g') :
    ∃ g : Generic V, s.Current g ∧ ∀ kind, g'.listeners kind = g.listeners kind := by
  obtain ⟨ref, href, hg'⟩ := hg
  obtain ⟨g, hg, hsame⟩ := h.listeners ref g' hg'
  exact ⟨g, ⟨ref, h.generic ref href, hg⟩, hsame⟩

theorem Same.valid (h : Same s s') (hs : HelperValid s) : HelperValid s' where
  invalidation l hl := hs.invalidation l (h.invalidation l hl)
  change l v hl := by
    obtain ⟨v', hv'⟩ := h.change l v hl
    exact hs.change l v' hv'
  generic ref hr := by
    obtain ⟨g, hg⟩ := hs.generic ref (h.generic ref hr)
    have hlt := (List.getElem?_eq_some_iff.mp hg).1
    rw [← h.length] at hlt
    exact ⟨s'.generics[ref], getElem?_eq_getElem hlt⟩
  valid g' hg' kind := by
    obtain ⟨g, hg, hsame⟩ := h.current hg'
    rw [hsame kind, h.heap]
    exact hs.valid g hg kind
  apart g' hg' kind ref hr := by
    obtain ⟨g, hg, hsame⟩ := h.current hg'
    rw [hsame] at hr ⊢
    exact hs.apart g hg kind ref hr

theorem Same.intact (h : Same s s') (ref : Nat) : Intact s s' ref := by
  intro n hr hholds
  refine ⟨by rw [h.heap]; exact hr, by rw [h.heap], fun g' hg' kind harr => ?_⟩
  obtain ⟨g, hg, hsame⟩ := h.current hg'
  rw [hsame kind] at harr ⊢
  exact hholds g hg kind harr

/-! ### A running fire -/

/-- The change listeners are told: an `ExpressionHelper` has found that the value is another one. -/
def Tells (cls : HelperClass) (f : Frame L V) : Prop :=
  cls = .listListenerHelper ∨ ∃ old new, f.compared = some (old, new) ∧ new ≠ old

/-- What a fire has done when it is over. -/
def Complete (cls : HelperClass) (f : Frame L V) : Prop :=
  ((f.registered.2 = [] ∨ Tells cls f) ∧ f.invoked = (f.registered.1 ++ f.registered.2).map some) ∨
    (cls = .expressionHelper ∧ (∃ v, f.compared = some (v, v)) ∧ f.invoked = f.registered.1.map some)

/-- A fire that runs has called the first of its listeners, and will find the others. -/
structure Good (cls : HelperClass) (s : Property L V) (f : Frame L V) : Prop where
  changes : Finds s f.registered.2 f.changes
  exists_generic : ∀ ref, f.generic = some ref → ref < s.generics.length
  invalidating : f.phase = .invalidation → Finds s f.registered.1 f.invalidations ∧
    f.next ≤ f.registered.1.length ∧ f.invoked = (f.registered.1.take f.next).map some
  changing : f.phase = .change → Tells cls f ∧ f.next ≤ f.registered.2.length ∧
    f.invoked = (f.registered.1 ++ f.registered.2.take f.next).map some

/-- A fire without a `Generic` object has no change listeners to come back to. -/
def Alone (f : Frame L V) : Prop :=
  f.phase = .invalidation → f.generic = none → f.registered.2 = []

/-- The fire reads this array yet. -/
def FrameReads (ref : Nat) (f : Frame L V) : Prop :=
  f.phase = .invalidation ∧ SourceReads ref f.invalidations ∨ SourceReads ref f.changes

variable {cls : HelperClass} {f : Frame L V}

theorem Good.intact (h : Good cls s f) (hlen : s.generics.length ≤ s'.generics.length)
    (hi : ∀ ref, FrameReads ref f → Intact s s' ref) : Good cls s' f where
  changes := h.changes.intact fun ref hr => hi ref (.inr hr)
  exists_generic ref hr := Nat.lt_of_lt_of_le (h.exists_generic ref hr) hlen
  invalidating hp := by
    obtain ⟨hfinds, hrest⟩ := h.invalidating hp
    exact ⟨hfinds.intact fun ref hr => hi ref (.inl ⟨hp, hr⟩), hrest⟩
  changing := h.changing

theorem Good.same (h : Good cls s f) (hsame : Same s s') : Good cls s' f :=
  h.intact (Nat.le_of_eq hsame.length.symm) fun ref _ => hsame.intact ref

/-! ### Going on -/

/-- A fire goes on: it calls one more listener, or it is over. -/
def GoesOn (cls : HelperClass) (s s' : Property L V) : Prop :=
  Same s s' ∧ ((∃ f, s'.stack = f :: s.stack ∧ s'.finished = s.finished ∧ Good cls s' f ∧ Alone f) ∨
    ∃ f, s'.stack = s.stack ∧ s'.finished = s.finished ++ [f] ∧ Complete cls f)

theorem GoesOn.of_same {s₀ : Property L V} (h : GoesOn cls s s') (hsame : Same s₀ s) (hstack : s.stack = s₀.stack)
    (hfinished : s.finished = s₀.finished) : GoesOn cls s₀ s' := by
  obtain ⟨hss, hgo⟩ := h
  rw [hstack, hfinished] at hgo
  exact ⟨hsame.trans hss, hgo⟩

theorem finish_goesOn (s : Property L V) (hf : Complete cls f) : GoesOn cls s (s.finish f) := by
  refine ⟨?_, .inr ⟨f, rfl, rfl, hf⟩⟩
  unfold finish
  cases hgen : f.generic with
  | none => exact same_of_eq rfl rfl rfl
  | some ref =>
    dsimp only
    cases hg : s.generics[ref]? with
    | none => exact same_of_eq rfl rfl rfl
    | some g =>
      have hset : Same s { s with generics := s.generics.set ref { g with locked := false } } :=
        same_set hg fun kind => by cases kind <;> rfl
      exact hset.trans (same_of_eq rfl rfl rfl)

theorem take_succ_map (hi : i < ls.length) : (ls.take i).map some ++ [some ls[i]] = (ls.take (i + 1)).map some := by
  rw [take_succ_eq_append_getElem hi, map_append, map_singleton]

theorem fireChanges_goesOn (hf : Good cls s f) (hp : f.phase = .change) : GoesOn cls s (s.fireChanges f) := by
  obtain ⟨htells, hnext, hinvoked⟩ := hf.changing hp
  unfold fireChanges
  rw [hf.changes.size]
  split
  · rename_i hlt
    refine ⟨same_of_eq rfl rfl rfl, .inl ⟨_, rfl, rfl, ?_, fun hp' => absurd (hp.symm.trans hp') nofun⟩⟩
    simp only [hp]
    exact {
      changes := hf.changes.intact fun ref _ => (same_of_eq rfl rfl rfl : Same s (s.invoke f)).intact ref
      exists_generic := hf.exists_generic
      invalidating := nofun
      changing := fun _ => ⟨htells, hlt, by
        rw [hinvoked, hf.changes.read hlt, map_append, append_assoc, take_succ_map hlt, ← map_append]⟩ }
  · rename_i hlt
    refine finish_goesOn s (.inl ⟨.inr htells, ?_⟩)
    rw [hinvoked, take_of_length_le (Nat.le_of_not_lt hlt)]

section
variable [DecidableEq V]

theorem Good.compare (hf : Good cls s f) (hp : f.phase = .invalidation) (hdone : f.registered.1.length ≤ f.next)
    (hsame : Same s s') (hstack : s'.stack = s.stack) (hfinished : s'.finished = s.finished) (old new : Option V) :
    GoesOn .expressionHelper s (if new ≠ old then
      s'.fireChanges { f with compared := some (old, new), phase := .change, next := 0 }
      else s'.finish { f with compared := some (old, new) }) := by
  obtain ⟨-, -, hinvoked⟩ := hf.invalidating hp
  rw [take_of_length_le hdone] at hinvoked
  split
  · rename_i hne
    refine (fireChanges_goesOn ?_ rfl).of_same hsame hstack hfinished
    have hgood := hf.same hsame
    exact { hgood with
      invalidating := nofun
      changing := fun _ => ⟨.inr ⟨old, new, rfl, hne⟩, Nat.zero_le _, by simpa using hinvoked⟩ }
  · rename_i heq
    have hcomplete : Complete .expressionHelper { f with compared := some (old, new) } :=
      .inr ⟨rfl, ⟨old, by rw [Classical.not_not.1 heq]⟩, hinvoked⟩
    exact (finish_goesOn s' hcomplete).of_same hsame hstack hfinished

theorem enterChanges_goesOn (hf : Good cls s f) (hp : f.phase = .invalidation)
    (hdone : f.registered.1.length ≤ f.next)
    (halone : f.generic = none → f.registered.2 = [] ∨ ∃ l v, s.helper = .singleChange l v) :
    GoesOn cls s (enterChanges cls s f) := by
  obtain ⟨-, -, hinvoked⟩ := hf.invalidating hp
  rw [take_of_length_le hdone] at hinvoked
  unfold enterChanges
  cases cls with
  | listListenerHelper =>
    refine fireChanges_goesOn ?_ rfl
    exact { hf with
      invalidating := nofun
      changing := fun _ => ⟨.inl rfl, Nat.zero_le _, by simpa using hinvoked⟩ }
  | expressionHelper =>
    dsimp only
    rw [hf.changes.size]
    split
    · rename_i hpos
      cases hgen : f.generic with
      | some ref =>
        obtain ⟨g, hg⟩ : ∃ g, s.generics[ref]? = some g :=
          ⟨_, getElem?_eq_getElem (hf.exists_generic ref hgen)⟩
        simp only [hg]
        have hsame : Same s { s with generics := s.generics.set ref { g with currentValue := s.value } } :=
          same_set hg fun kind => by cases kind <;> rfl
        have := hf.compare hp hdone hsame rfl rfl g.currentValue s.value
        rw [hgen] at this
        exact this
      | none =>
        rcases halone hgen with hnone | ⟨listener, old, hhelper⟩
        · rw [hnone] at hpos
          exact absurd hpos (Nat.lt_irrefl 0)
        · simp only [hhelper]
          have hsame : Same s { s with helper := .singleChange listener s.value } := {
            heap := rfl
            length := rfl
            invalidation := nofun
            change := fun l v h => by
              obtain ⟨rfl, -⟩ := Helper.singleChange.inj h
              exact ⟨old, hhelper⟩
            generic := nofun
            listeners := fun ref g hg => ⟨g, hg, fun _ => rfl⟩ }
          have := hf.compare hp hdone hsame rfl rfl old s.value
          rw [hgen] at this
          exact this
    · rename_i hpos
      have hnil : f.registered.2 = [] := length_eq_zero_iff.1 (Nat.eq_zero_of_not_pos hpos)
      refine finish_goesOn s (.inl ⟨.inl hnil, ?_⟩)
      rw [hnil, append_nil, hinvoked]

theorem resume_goesOn (hf : Good cls s f) (halone : f.phase = .invalidation → f.generic = none →
      f.registered.2 = [] ∨ f.registered.1 = [] ∧ ∃ l v, s.helper = .singleChange l v) :
    GoesOn cls s (resume cls s f) := by
  unfold resume
  cases hp : f.phase with
  | invalidation =>
    obtain ⟨hfinds, hnext, hinvoked⟩ := hf.invalidating hp
    dsimp only
    rw [hfinds.size]
    split
    · rename_i hlt
      have hsame : Same s (s.invoke f) := same_of_eq rfl rfl rfl
      refine ⟨hsame, .inl ⟨_, rfl, rfl, ?_, fun _ hgen => ?_⟩⟩
      · simp only [hp]
        exact {
          changes := hf.changes.intact fun ref _ => hsame.intact ref
          exists_generic := hf.exists_generic
          invalidating := fun _ => ⟨hfinds.intact fun ref _ => hsame.intact ref, hlt, by
            rw [hinvoked, hfinds.read hlt, take_succ_map hlt]⟩
          changing := nofun }
      · rcases halone hp hgen with hnil | ⟨hnil, -⟩
        · exact hnil
        · rw [hnil] at hlt
          exact absurd hlt (Nat.not_lt_zero _)
    · rename_i hlt
      exact enterChanges_goesOn hf hp (Nat.le_of_not_lt hlt) fun hgen => (halone hp hgen).imp_right And.right
  | change => exact fireChanges_goesOn hf hp

end

/-! ### A fire begins -/

theorem finds_save (hs : HelperValid s) (hg : s.Current g) (kind : Kind) :
    Finds s ((g.listeners kind).content s.heap) (save (g.listeners kind)) := by
  have hv := hs.valid g hg kind
  unfold save
  cases harr : (g.listeners kind).array with
  | none =>
    show (g.listeners kind).content s.heap = []
    unfold Listeners.content Listeners.slots
    rw [harr]
    simp
  | some ref =>
    refine ⟨hv.exists_array ref harr, ?_, hv.length_content.symm, ?_⟩
    · intro g' hg' kind' harr'
      obtain ⟨r, hr, hg⟩ := hg
      obtain ⟨r', hr', hg'⟩ := hg'
      rw [hr] at hr'
      obtain rfl : r = r' := by simpa using hr'
      rw [hg] at hg'
      obtain rfl := Option.some.inj hg'
      rcases Kind.eq_or_other kind kind' with rfl | rfl
      · exact Nat.le_refl _
      · exact absurd harr' (hs.apart g ⟨r, hr, hg⟩ kind ref harr)
    · have := hv.slots_eq
      unfold Listeners.slots at this
      rw [harr] at this
      exact this

section
variable [DecidableEq V]

theorem fireValueChangedEvent_goesOn (cls : HelperClass) (hs : HelperValid s) :
    fireValueChangedEvent cls s = s ∨ GoesOn cls s (fireValueChangedEvent cls s) := by
  unfold fireValueChangedEvent
  cases hh : s.helper with
  | null => exact .inl rfl
  | singleInvalidation l =>
    have hl := hs.invalidation l hh
    have hreg : s.registered = (l.toList, []) := by unfold registered; rw [hh]
    refine .inr (resume_goesOn ?_ fun _ _ => .inl (by rw [hreg]))
    rw [hreg]
    exact {
      changes := rfl
      exists_generic := nofun
      invalidating := fun _ => ⟨⟨rfl, hl⟩, Nat.zero_le _, rfl⟩
      changing := nofun }
  | singleChange l v =>
    have hl := hs.change l v hh
    have hreg : s.registered = ([], l.toList) := by unfold registered; rw [hh]
    refine .inr (resume_goesOn ?_ fun _ _ => .inr ⟨by rw [hreg], l, v, hh⟩)
    rw [hreg]
    exact {
      changes := ⟨rfl, hl⟩
      exists_generic := nofun
      invalidating := fun _ => ⟨rfl, Nat.zero_le _, rfl⟩
      changing := nofun }
  | generic ref =>
    obtain ⟨g, hg⟩ := hs.generic ref hh
    have hcur : s.Current g := ⟨ref, hh, hg⟩
    have hreg : s.registered = (g.invalidation.content s.heap, g.change.content s.heap) := by
      unfold registered
      simp only [hh, hg]
    have hsame : Same s { s with generics := s.generics.set ref { g with locked := true }, helper := .generic ref } := by
      have : Same s { s with generics := s.generics.set ref { g with locked := true } } :=
        same_set hg fun kind => by cases kind <;> rfl
      rw [hh] at this
      exact this
    simp only [hg]
    refine .inr ((resume_goesOn ?_ ?_).of_same hsame rfl rfl)
    case refine_2 => exact fun _ hgen => nomatch hgen
    rw [hreg]
    exact {
      changes := (finds_save hs hcur .change).intact fun r _ => hsame.intact r
      exists_generic := fun r hr => by
        obtain rfl := Option.some.inj hr
        rw [length_set]
        exact (List.getElem?_eq_some_iff.mp hg).1
      invalidating := fun _ => ⟨(finds_save hs hcur .invalidation).intact fun r _ => hsame.intact r, Nat.zero_le _, rfl⟩
      changing := nofun }

end

/-! ### Runs -/

/-- What holds of the helper and of every fire. -/
structure Sound (cls : HelperClass) (s : Property L V) : Prop where
  valid : HelperValid s
  running : ∀ f ∈ s.stack, Good cls s f ∧ Alone f
  finished : ∀ f ∈ s.finished, Complete cls f

theorem Sound.goesOn (h : Sound cls s) (hgo : GoesOn cls s s') : Sound cls s' := by
  obtain ⟨hsame, ⟨f, hstack, hfinished, hgood, halone⟩ | ⟨f, hstack, hfinished, hcomplete⟩⟩ := hgo
  · refine ⟨hsame.valid h.valid, fun f' hf' => ?_, by rw [hfinished]; exact h.finished⟩
    rw [hstack] at hf'
    obtain rfl | hf' := mem_cons.1 hf'
    · exact ⟨hgood, halone⟩
    · exact (h.running f' hf').imp_left fun hg => hg.same hsame
  · refine ⟨hsame.valid h.valid, fun f' hf' => ?_, fun f' hf' => ?_⟩
    · rw [hstack] at hf'
      exact (h.running f' hf').imp_left fun hg => hg.same hsame
    · rw [hfinished, mem_append, mem_singleton] at hf'
      obtain hf' | rfl := hf'
      · exact h.finished f' hf'
      · exact hcomplete

section
variable [DecidableEq L]

/-- The step moves listeners within an array that a fire still reads. -/
def Disturbs (s : Property L V) (a : Action L V) : Prop :=
  ∃ ref, s.shifted a = some ref ∧ ∃ f ∈ s.stack, FrameReads ref f

theorem Sound.edit {a : Action L V} (h : Sound cls s) (hvalid : HelperValid s')
    (hstack : s'.stack = s.stack) (hfinished : s'.finished = s.finished)
    (hlen : s.generics.length ≤ s'.generics.length) (hintact : ∀ r, s.shifted a ≠ some r → Intact s s' r)
    (ha : ¬Disturbs s a) : Sound cls s' where
  valid := hvalid
  running f hf := by
    rw [hstack] at hf
    refine (h.running f hf).imp_left fun hg => hg.intact hlen fun ref hr => hintact ref fun hs => ?_
    exact ha ⟨ref, hs, f, hf, hr⟩
  finished := by rw [hfinished]; exact h.finished

omit [DecidableEq L] in
theorem addListener_frame (s : Property L V) (kind : Kind) (l : L) (collected : L → Bool) :
    (s.addListener kind l collected).stack = s.stack ∧ (s.addListener kind l collected).finished = s.finished ∧
      s.generics.length ≤ (s.addListener kind l collected).generics.length := by
  unfold addListener
  cases s.helper with
  | null => exact ⟨rfl, rfl, Nat.le_refl _⟩
  | singleInvalidation l' =>
    cases kind <;> exact ⟨rfl, rfl, by simp [genericOfSame, genericOfBoth]⟩
  | singleChange l' v =>
    cases kind <;> exact ⟨rfl, rfl, by simp [genericOfSame, genericOfBoth]⟩
  | generic ref =>
    dsimp only
    split
    · exact ⟨rfl, rfl, by simp⟩
    · exact ⟨rfl, rfl, Nat.le_refl _⟩

theorem removeListener_frame (s : Property L V) (kind : Kind) (l : L) :
    (s.removeListener kind l).stack = s.stack ∧ (s.removeListener kind l).finished = s.finished ∧
      s.generics.length ≤ (s.removeListener kind l).generics.length := by
  unfold removeListener
  have hsame : s.stack = s.stack ∧ s.finished = s.finished ∧ s.generics.length ≤ s.generics.length :=
    ⟨rfl, rfl, Nat.le_refl _⟩
  cases s.helper with
  | null => exact hsame
  | singleInvalidation l' => dsimp only; split <;> exact hsame
  | singleChange l' v => dsimp only; split <;> exact hsame
  | generic ref =>
    dsimp only
    split
    · split
      · split
        · split
          · exact hsame
          · exact ⟨rfl, rfl, by simp⟩
        · split
          · exact hsame
          · exact ⟨rfl, rfl, by simp⟩
      · exact hsame
    · exact hsame

variable [DecidableEq V]

theorem Sound.step (h : Sound cls s) (a : Action L V) (ha : ¬Disturbs s a) : Sound cls (Property.step cls s a) := by
  cases a with
  | addListener kind l collected =>
    obtain ⟨hvalid, hintact⟩ := addListener_spec h.valid kind l collected
    obtain ⟨hstack, hfinished, hlen⟩ := addListener_frame s kind l collected
    exact h.edit hvalid hstack hfinished hlen hintact ha
  | removeListener kind l =>
    obtain ⟨hvalid, hintact⟩ := removeListener_spec h.valid kind l
    obtain ⟨hstack, hfinished, hlen⟩ := removeListener_frame s kind l
    exact h.edit hvalid hstack hfinished hlen hintact ha
  | setValue value =>
    have hsame : Same s { s with value } := same_of_eq rfl rfl rfl
    exact ⟨hsame.valid h.valid, fun f hf => (h.running f hf).imp_left fun hg => hg.same hsame, h.finished⟩
  | fireValueChangedEvent =>
    show Sound cls (fireValueChangedEvent cls s)
    rcases fireValueChangedEvent_goesOn cls h.valid with heq | hgo
    · rw [heq]
      exact h
    · exact h.goesOn hgo
  | listenerReturns =>
    unfold Property.step
    cases hstack : s.stack with
    | nil => exact h
    | cons f stack =>
      have hsame : Same s { s with stack } := same_of_eq rfl rfl rfl
      have hpopped : Sound cls { s with stack } := ⟨hsame.valid h.valid, fun f' hf' =>
        (h.running f' (by rw [hstack]; exact mem_cons_of_mem _ hf')).imp_left fun hg => hg.same hsame,
        h.finished⟩
      obtain ⟨hgood, halone⟩ := h.running f (by rw [hstack]; exact mem_cons_self)
      exact hpopped.goesOn (resume_goesOn (hgood.same hsame) fun hp hgen => .inl (halone hp hgen))

/-- Whatever happens, from a property nobody listens to. -/
inductive Reachable (cls : HelperClass) : Property L V → Prop
  | start : Reachable cls {}
  | step {s : Property L V} {a : Action L V} : Reachable cls s → Reachable cls (Property.step cls s a)

/-- No listener is moved within an array that a fire still reads. -/
inductive Undisturbed (cls : HelperClass) : Property L V → Prop
  | start : Undisturbed cls {}
  | step {s : Property L V} {a : Action L V} : Undisturbed cls s → ¬Disturbs s a →
      Undisturbed cls (Property.step cls s a)

theorem Undisturbed.sound (h : Undisturbed cls s) : Sound cls s := by
  induction h with
  | start =>
    refine ⟨⟨nofun, nofun, nofun, ?_, ?_⟩, fun _ hf => (not_mem_nil hf).elim, fun _ hf => (not_mem_nil hf).elim⟩
    · rintro g ⟨ref, href, -⟩
      exact nomatch href
    · rintro g ⟨ref, href, -⟩
      exact nomatch href
  | step _ ha ih => exact ih.step _ ha

omit [DecidableEq L] [DecidableEq V] in
theorem Good.invoked (h : Good cls s f) : f.invoked <+: (f.registered.1 ++ f.registered.2).map some := by
  cases hp : f.phase with
  | invalidation =>
    rw [(h.invalidating hp).2.2, map_append]
    exact (IsPrefix.map some <| take_prefix _ _).trans (prefix_append _ _)
  | change =>
    rw [(h.changing hp).2.2, map_append, map_append]
    exact (prefix_append_right_inj _).2 (IsPrefix.map some <| take_prefix _ _)

/-- **Fires at any depth.**  Every fire calls the invalidation listeners that were registered when it began, in order and
once each, and then the change listeners in the same way if they are to be told, and it finds a listener at every slot it
reads, as long as no step moves listeners within an array it still reads. -/
theorem undisturbed_complete (h : Undisturbed cls s) : (∀ f ∈ s.finished, Complete cls f) ∧
      (∀ f ∈ s.stack, f.invoked <+: (f.registered.1 ++ f.registered.2).map some) ∧
      (∀ f ∈ s.stack ++ s.finished, none ∉ f.invoked) ∧
      (∀ kind l collected, (ofKind (s.addListener kind l collected).registered kind =
        ofKind s.registered kind ++ [l] ∨
        ofKind (s.addListener kind l collected).registered kind =
          (ofKind s.registered kind).filter (fun l => !collected l) ++ [l]) ∧
        ofKind (s.addListener kind l collected).registered kind.other = ofKind s.registered kind.other) ∧
      ∀ kind l, ofKind (s.removeListener kind l).registered kind = (ofKind s.registered kind).erase l ∧
        ofKind (s.removeListener kind l).registered kind.other = ofKind s.registered kind.other := by
  have hs := h.sound
  have hnone : ∀ ls : List L, none ∉ ls.map some := fun ls hm => by
    obtain ⟨l, -, hl⟩ := mem_map.1 hm
    exact nomatch hl
  refine ⟨hs.finished, fun f hf => (hs.running f hf).1.invoked, fun f hf hm => ?_,
    fun kind l collected => addListener_registered hs.valid kind l collected,
    fun kind l => removeListener_registered hs.valid kind l⟩
  rcases mem_append.1 hf with hf | hf
  · exact hnone _ ((hs.running f hf).1.invoked.subset hm)
  · rcases hs.finished f hf with ⟨-, hinvoked⟩ | ⟨-, -, hinvoked⟩
    · rw [hinvoked] at hm
      exact hnone _ hm
    · rw [hinvoked] at hm
      exact hnone _ hm

/-- The first of three listeners removes the second one and fires again.  The fire it interrupts still calls the second. -/
theorem undisturbed_complete_nested : ∃ s : Property Nat Nat, Undisturbed .expressionHelper s ∧
    s.finished.map Frame.invoked = [[some 1, some 3], [some 1, some 2, some 3]] ∧
    ∀ f ∈ s.finished, Complete .expressionHelper f := by
  have h : Undisturbed (L := Nat) (V := Nat) .expressionHelper {} := .start
  have h := h.step (a := .addListener .invalidation 1 fun _ => false) fun ⟨_, h, _⟩ => nomatch h
  have h := h.step (a := .addListener .invalidation 2 fun _ => false) fun ⟨_, h, _⟩ => nomatch h
  have h := h.step (a := .addListener .invalidation 3 fun _ => false) fun ⟨_, h, _⟩ => nomatch h
  have h := h.step (a := .fireValueChangedEvent) fun ⟨_, h, _⟩ => nomatch h
  have h := h.step (a := .removeListener .invalidation 2) fun ⟨_, h, _⟩ => nomatch h
  have h := h.step (a := .fireValueChangedEvent) fun ⟨_, h, _⟩ => nomatch h
  have h := h.step (a := .listenerReturns) fun ⟨_, h, _⟩ => nomatch h
  have h := h.step (a := .listenerReturns) fun ⟨_, h, _⟩ => nomatch h
  have h := h.step (a := .listenerReturns) fun ⟨_, h, _⟩ => nomatch h
  have h := h.step (a := .listenerReturns) fun ⟨_, h, _⟩ => nomatch h
  have h := h.step (a := .listenerReturns) fun ⟨_, h, _⟩ => nomatch h
  exact ⟨_, h, by decide, (undisturbed_complete h).1⟩

/-- The fire within opens the lock when it ends.  The first listener then removes itself, and the others move up in the
array that the fire around it still reads: it skips the second and comes to a cleared slot. -/
theorem not_complete_unlocked : ¬∀ s : Property Nat Nat, Reachable .expressionHelper s →
    ∀ f ∈ s.finished, Complete .expressionHelper f ∧ none ∉ f.invoked := by
  intro hall
  have h : Reachable (L := Nat) (V := Nat) .expressionHelper {} := .start
  have h := h.step (a := .addListener .invalidation 1 fun _ => false)
  have h := h.step (a := .addListener .invalidation 2 fun _ => false)
  have h := h.step (a := .addListener .invalidation 3 fun _ => false)
  have h := h.step (a := .fireValueChangedEvent)
  have h := h.step (a := .fireValueChangedEvent)
  have h := h.step (a := .listenerReturns)
  have h := h.step (a := .listenerReturns)
  have h := h.step (a := .listenerReturns)
  have h := h.step (a := .removeListener .invalidation 1)
  have h := h.step (a := .listenerReturns)
  have h := h.step (a := .listenerReturns)
  have h := h.step (a := .listenerReturns)
  exact (hall _ h _ (.tail _ (.head _))).2 (by decide)

end

end JavaFX.Property
