/-
What a composite event handler keeps while it is edited and dispatched by.

A record that was removed keeps its `nextRecord`.  It leads to the record that followed at
the time, and so past no record that is still linked: later registrations get higher numbers
and are linked at the end.  A dispatch that stands on a removed record may therefore go on from
there, provided that the record it comes to does nothing if that one has been removed too.
-/
import JavaFX.Event.CompositeEventHandler
import Mathlib.Data.Nat.Basic

namespace JavaFX.CompositeEventHandler

open Links List

variable {H : Type} {c c' c'' : CompositeEventHandler H} {r n x : Nat}

/-! ### Removing and appending -/

/-- The records that are made and not removed. -/
def live (c : CompositeEventHandler H) : List Nat :=
  (List.range c.processors.length).filter fun r => r ∉ c.removed

theorem mem_live : r ∈ c.live ↔ r < c.processors.length ∧ r ∉ c.removed := by
  simp [live]

theorem live_sorted (c : CompositeEventHandler H) : c.live.Pairwise (· < ·) :=
  List.pairwise_lt_range.filter _

theorem live_nodup (c : CompositeEventHandler H) : c.live.Nodup :=
  List.nodup_range.filter _

@[simp] theorem remove_processors : (c.remove r).processors = c.processors := by
  unfold remove
  cases c.prevRecord r <;> cases c.nextRecord r <;> rfl

@[simp] theorem remove_removed : (c.remove r).removed = c.removed ++ [r] := by
  unfold remove
  cases c.prevRecord r <;> cases c.nextRecord r <;> rfl

@[simp] theorem remove_collected : (c.remove r).collected = c.collected := by
  unfold remove
  cases c.prevRecord r <;> cases c.nextRecord r <;> rfl

theorem update_eq (f : Nat → Option Nat) (i : Nat) (v : Option Nat) :
    Function.update f i v = fun j => if i = j then v else f j := by
  funext j
  by_cases h : i = j
  · rw [if_pos h, h, Function.update_self]
  · rw [if_neg h, Function.update_of_ne fun e => h e.symm]

theorem remove_links : (c.remove r).links = c.links.unlink r := by
  unfold remove links Links.unlink
  cases hp : c.prevRecord r <;> cases hn : c.nextRecord r <;> simp [update_eq, hp, hn]

theorem remove_live : (c.remove r).live = c.live.erase r := by
  rw [c.live_nodup.erase_eq_filter, live, live, filter_filter]
  simp only [remove_processors]
  congr 1
  funext x
  by_cases hx : x ∈ c.removed <;> by_cases hr : x = r <;> simp [hr]

section
variable {prevRecord : Option Nat} {h : H} {isFilter : Bool}

@[simp] theorem append_processors : (c.append prevRecord h isFilter).processors = c.processors ++
    [(h, isFilter)] := by
  unfold append
  cases prevRecord with
  | none => cases c.firstRecord <;> rfl
  | some prev => dsimp only; cases c.nextRecord prev <;> rfl

@[simp] theorem append_removed : (c.append prevRecord h isFilter).removed = c.removed := by
  unfold append
  cases prevRecord with
  | none => cases c.firstRecord <;> rfl
  | some prev => dsimp only; cases c.nextRecord prev <;> rfl

@[simp] theorem append_collected : (c.append prevRecord h isFilter).collected = c.collected := by
  unfold append
  cases prevRecord with
  | none => cases c.firstRecord <;> rfl
  | some prev => dsimp only; cases c.nextRecord prev <;> rfl

theorem append_links (h : H) (isFilter : Bool) (hl : c.links.Linked c.live) :
    (c.append c.lastRecord h isFilter).links = c.links.append c.processors.length := by
  have hlast : c.links.last = c.live[c.live.length - 1]? := hl.last
  unfold append links Links.append
  cases hlr : c.lastRecord with
  | none =>
    have hempty : c.live = [] := by
      rw [← length_eq_zero_iff]
      have := List.getElem?_eq_none_iff.1 (hlast.symm.trans hlr)
      omega
    have hfirst : c.firstRecord = none := by
      have hf : c.firstRecord = c.live[0]? := hl.first
      rw [hf, hempty]
      rfl
    simp [hfirst, update_eq, eq_comm]
  | some prev =>
    have hprev : c.live[c.live.length - 1]? = some prev := hlast.symm.trans hlr
    have hnext : c.nextRecord prev = none := by
      have hn : c.nextRecord prev = c.live[c.live.length - 1 + 1]? := hl.next hprev
      rw [hn]
      exact getElem?_eq_none (by omega)
    simp [hnext, update_eq, eq_comm]

theorem append_live (prevRecord : Option Nat) (h : H) (isFilter : Bool)
    (hr : ∀ r ∈ c.removed, r < c.processors.length) :
    (c.append prevRecord h isFilter).live = c.live ++ [c.processors.length] := by
  have hnew : c.processors.length ∉ c.removed := fun hm => Nat.lt_irrefl _ (hr _ hm)
  simp [live, range_succ, hnew]

end

/-! ### The chain of records -/

/-- The records that were not removed are linked, the pointers of removed records lead forward and past none
of them, and no two records in the chain store the same. -/
structure Chained (c : CompositeEventHandler H) : Prop where
  linked : c.links.Linked c.live
  made : ∀ r ∈ c.removed, r < c.processors.length
  stale : ∀ r ∈ c.removed, ∀ n, c.nextRecord r = some n → r < n ∧ n < c.processors.length ∧ ∀ x ∈ c.live, r < x → n ≤ x
  unique : ∀ r ∈ c.live, ∀ r' ∈ c.live, c.processors[r]? = c.processors[r']? → r = r'

theorem chained_empty : ({} : CompositeEventHandler H).Chained where
  linked := linked_nil rfl rfl
  made r hr := by simp at hr
  stale r hr := by simp at hr
  unique r hr := by simp [live] at hr

section

variable (h : c.Chained) (hr : r ∈ c.live)
include h hr

theorem Chained.next_least (hn : c.nextRecord r = some n) : n ∈ c.live ∧ r < n ∧ ∀ x ∈ c.live, r < x → n ≤ x :=
  h.linked.next_least c.live_sorted hr hn

theorem Chained.next_none (hn : c.nextRecord r = none) : ∀ x ∈ c.live, x ≤ r :=
  h.linked.next_none c.live_sorted hr hn

theorem remove_next (hx : x ∉ c.live ∨ x = r) : (c.remove r).nextRecord x = c.nextRecord x := by
  have hout : x ∉ c.live.erase r := by
    rw [c.live_nodup.mem_erase_iff]
    rintro ⟨hne, hm⟩
    exact hx.elim (fun h => h hm) hne
  have hnext := h.linked.unlink_next hr hout
  rw [← remove_links] at hnext
  exact hnext

theorem Chained.remove : (c.remove r).Chained := by
  have hsub : ∀ x ∈ (c.remove r).live, x ∈ c.live := fun x hx => by
    rw [remove_live] at hx
    exact mem_of_mem_erase hx
  refine ⟨?_, ?_, ?_, ?_⟩
  · rw [remove_links, remove_live]
    exact h.linked.unlink hr
  · intro x hx
    rw [remove_removed, mem_append, mem_singleton] at hx
    rw [remove_processors]
    obtain hx | rfl := hx
    · exact h.made x hx
    · exact (mem_live.1 hr).1
  · intro x hx n hn
    rw [remove_removed, mem_append, mem_singleton] at hx
    rw [remove_processors]
    obtain hx | rfl := hx
    · rw [remove_next h hr (.inl fun hm => (mem_live.1 hm).2 hx)] at hn
      obtain ⟨hlt, hmade, hleast⟩ := h.stale x hx n hn
      exact ⟨hlt, hmade, fun y hy => hleast y (hsub y hy)⟩
    · rw [remove_next h hr (.inr rfl)] at hn
      obtain ⟨hmem, hlt, hleast⟩ := h.next_least hr hn
      exact ⟨hlt, (mem_live.1 hmem).1, fun y hy => hleast y (hsub y hy)⟩
  · intro x hx y hy hxy
    rw [remove_processors] at hxy
    exact h.unique x (hsub x hx) y (hsub y hy) hxy

end

theorem append_next {h : H} {isFilter : Bool} (hc : c.Chained) (hx : x ∈ c.removed) :
    (c.append c.lastRecord h isFilter).nextRecord x = c.nextRecord x := by
  have hout : x ∉ c.live := fun hm => (mem_live.1 hm).2 hx
  have hnext := hc.linked.append_next hout (Nat.ne_of_lt (hc.made x hx))
  rw [← append_links h isFilter hc.linked] at hnext
  exact hnext

theorem Chained.append {h : H} {isFilter : Bool} (hc : c.Chained)
    (hnew : ∀ r ∈ c.live, c.processors[r]? ≠ some (h, isFilter)) :
    (c.append c.lastRecord h isFilter).Chained := by
  have hlive := append_live c.lastRecord h isFilter hc.made
  have hold : ∀ r ∈ c.live, (c.processors ++ [(h, isFilter)])[r]? = c.processors[r]? := fun r hr =>
    getElem?_append_left (mem_live.1 hr).1
  refine ⟨?_, ?_, ?_, ?_⟩
  · rw [append_links h isFilter hc.linked, hlive]
    exact hc.linked.append fun hm => Nat.lt_irrefl _ (mem_live.1 hm).1
  · intro r hr
    rw [append_removed] at hr
    rw [append_processors, length_append]
    exact Nat.lt_add_right _ (hc.made r hr)
  · intro r hr n hn
    rw [append_removed] at hr
    rw [append_next hc hr] at hn
    obtain ⟨hlt, hmade, hleast⟩ := hc.stale r hr n hn
    refine ⟨hlt, by rw [append_processors, length_append]; omega, fun x hx hrx => ?_⟩
    rw [hlive, mem_append, mem_singleton] at hx
    obtain hx | rfl := hx
    · exact hleast x hx hrx
    · exact Nat.le_of_lt hmade
  · intro r hr r' hr' he
    rw [hlive, mem_append, mem_singleton] at hr hr'
    rw [append_processors] at he
    obtain hr | rfl := hr <;> obtain hr' | rfl := hr'
    · rw [hold r hr, hold r' hr'] at he
      exact hc.unique r hr r' hr' he
    · rw [hold r hr, getElem?_concat_length] at he
      exact absurd he (hnew r hr)
    · rw [hold r' hr', getElem?_concat_length] at he
      exact absurd he.symm (hnew r' hr')
    · rfl

/-! ### What every change of the composite leaves to those who stand on a record -/

/-- Records stay what they are and stay removed, with their pointers.  The pointer of a record that was removed
meanwhile leads to one that was not removed before, or to none if no earlier record is left above it. -/
structure Evolves (c c' : CompositeEventHandler H) : Prop where
  processors : c.processors <+: c'.processors
  removed : ∀ r ∈ c.removed, r ∈ c'.removed
  pointers : ∀ r ∈ c.removed, c'.nextRecord r = c.nextRecord r
  leads : ∀ r ∈ c'.removed, r ∉ c.removed → ∀ n, c'.nextRecord r = some n → n ∉ c.removed
  ends : ∀ r ∈ c'.removed, r ∉ c.removed → c'.nextRecord r = none →
    ∀ x < c.processors.length, x ∉ c'.removed → x ≤ r

theorem Evolves.refl (c : CompositeEventHandler H) : c.Evolves c :=
  ⟨prefix_rfl, fun _ h => h, fun _ _ => rfl, fun _ h h' => absurd h h', fun _ h h' => absurd h h'⟩

theorem Evolves.trans (h : c.Evolves c') (h' : c'.Evolves c'') : c.Evolves c'' where
  processors := h.processors.trans h'.processors
  removed r hr := h'.removed r (h.removed r hr)
  pointers r hr := (h'.pointers r (h.removed r hr)).trans (h.pointers r hr)
  leads r hr hrc n hn := by
    by_cases hm : r ∈ c'.removed
    · rw [h'.pointers r hm] at hn
      exact h.leads r hm hrc n hn
    · exact fun hnc => h'.leads r hr hm n hn (h.removed n hnc)
  ends r hr hrc hn x hx hxc := by
    by_cases hm : r ∈ c'.removed
    · rw [h'.pointers r hm] at hn
      exact h.ends r hm hrc hn x hx fun hxm => hxc (h'.removed x hxm)
    · exact h'.ends r hr hm hn x (Nat.lt_of_lt_of_le hx h.processors.length_le) hxc

theorem Evolves.hasKind (h : c.Evolves c') (hr : r < c.processors.length) (isFilter : Bool) :
    c'.hasKind r isFilter = c.hasKind r isFilter := by
  obtain ⟨more, hmore⟩ := h.processors
  rw [CompositeEventHandler.hasKind, CompositeEventHandler.hasKind, ← hmore, getElem?_append_left hr]

theorem remove_evolves (h : c.Chained) (hr : r ∈ c.live) : c.Evolves (c.remove r) where
  processors := by simp only [remove_processors, prefix_rfl]
  removed x hx := by rw [remove_removed]; exact mem_append_left _ hx
  pointers x hx := remove_next h hr (.inl fun hm => (mem_live.1 hm).2 hx)
  leads x hx hxc n hn := by
    rw [remove_removed, mem_append, mem_singleton] at hx
    obtain rfl := hx.resolve_left hxc
    rw [remove_next h hr (.inr rfl)] at hn
    exact (mem_live.1 (h.next_least hr hn).1).2
  ends x hx hxc hn y hy hyc := by
    rw [remove_removed, mem_append, mem_singleton] at hx hyc
    obtain rfl := hx.resolve_left hxc
    rw [remove_next h hr (.inr rfl)] at hn
    exact h.next_none hr hn y (mem_live.2 ⟨hy, fun hm => hyc (.inl hm)⟩)

theorem append_evolves {h : H} {isFilter : Bool} (hc : c.Chained) : c.Evolves (c.append c.lastRecord h isFilter) where
  processors := by rw [append_processors]; exact prefix_append _ _
  removed x hx := by rw [append_removed]; exact hx
  pointers x hx := append_next hc hx
  leads x hx hxc := absurd (append_removed ▸ hx) hxc
  ends x hx hxc := absurd (append_removed ▸ hx) hxc

/-! ### Looking for a record -/

variable [DecidableEq H] {isWeak : H → Bool}

/-- Nothing happened but that records of collected handlers were removed. -/
structure Cleans (isWeak : H → Bool) (c c' : CompositeEventHandler H) : Prop where
  chained : c'.Chained
  evolves : c.Evolves c'
  processors : c'.processors = c.processors
  collected : c'.collected = c.collected
  disconnected : ∀ r ∈ c'.removed, r ∈ c.removed ∨ c.isDisconnected isWeak r = true

theorem isDisconnected_congr (hp : c'.processors = c.processors) (hc : c'.collected = c.collected) (r : Nat) :
    c'.isDisconnected isWeak r = c.isDisconnected isWeak r := by
  simp only [isDisconnected, hp, hc]

theorem Cleans.refl (h : c.Chained) : c.Cleans isWeak c :=
  ⟨h, Evolves.refl c, rfl, rfl, fun _ hr => .inl hr⟩

theorem Cleans.remove (h : c.Chained) (hr : r ∈ c.live) (hd : c.isDisconnected isWeak r = true) :
    c.Cleans isWeak (c.remove r) where
  chained := h.remove hr
  evolves := remove_evolves h hr
  processors := remove_processors
  collected := remove_collected
  disconnected x hx := by
    rw [remove_removed, mem_append, mem_singleton] at hx
    exact hx.imp_right fun e => by rw [e]; exact hd

theorem Cleans.trans (h : c.Cleans isWeak c') (h' : c'.Cleans isWeak c'') : c.Cleans isWeak c'' where
  chained := h'.chained
  evolves := h.evolves.trans h'.evolves
  processors := h'.processors.trans h.processors
  collected := h'.collected.trans h.collected
  disconnected r hr := by
    rcases h'.disconnected r hr with hr | hd
    · exact h.disconnected r hr
    · exact .inr ((isDisconnected_congr h.processors h.collected r).symm.trans hd)

/-- What a search comes to: a record in the chain that is what was looked for, or that there is none. -/
def Finds (isWeak : H → Bool) (found : Nat → Bool) (c : CompositeEventHandler H) : Option Nat → Prop
  | some r => r ∈ c.live ∧ c.isDisconnected isWeak r = false ∧ found r = true
  | none => ∀ x ∈ c.live, c.isDisconnected isWeak x = false ∧ found x = false

/-- **The loop of `find`** ends, whatever it has to remove. -/
theorem findFrom_spec {found : Nat → Bool} : ∀ {fuel : Nat} {record : Option Nat} {c : CompositeEventHandler H},
    c.Chained → (∀ r, record = some r → r ∈ c.live ∧ c.processors.length - r < fuel) → 0 < fuel →
    (∀ x ∈ c.live, (∀ r, record = some r → x < r) → c.isDisconnected isWeak x = false ∧ found x = false) →
    ∃ res c', c.findFrom isWeak found fuel record = some (res, c') ∧ c.Cleans isWeak c' ∧
      c'.Finds isWeak found res := by
  intro fuel
  induction fuel with
  | zero => intro record c _ _ h0; exact absurd h0 (Nat.lt_irrefl 0)
  | succ fuel ih =>
    intro record c hc hfuel _ hseen
    cases record with
    | none => exact ⟨none, c, rfl, Cleans.refl hc, fun x hx => hseen x hx fun r hr => nomatch hr⟩
    | some record =>
      obtain ⟨hlive, hfuel⟩ := hfuel record rfl
      have hmade := (mem_live.1 hlive).1
      have hstep : ∀ r, c.nextRecord record = some r → r ∈ c.live ∧ c.processors.length - r < fuel := by
        intro r hr
        obtain ⟨hm, hlt, _⟩ := hc.next_least hlive hr
        exact ⟨hm, by omega⟩
      -- what lies before the next record lies before this one, or is this one
      have hbefore : ∀ x ∈ c.live, (∀ r, c.nextRecord record = some r → x < r) → x ≠ record → x < record := by
        intro x hx hlt hne
        cases hn : c.nextRecord record with
        | none => exact Nat.lt_of_le_of_ne (hc.next_none hlive hn x hx) hne
        | some r =>
          refine Nat.lt_of_le_of_ne (Nat.le_of_not_lt fun hrx => ?_) hne
          exact Nat.lt_irrefl _ (Nat.lt_of_lt_of_le (hlt r hn) ((hc.next_least hlive hn).2.2 x hx hrx))
      by_cases hd : c.isDisconnected isWeak record = true
      · have hcleans := Cleans.remove hc hlive hd
        have hnext : (c.remove record).nextRecord record = c.nextRecord record := remove_next hc hlive (.inr rfl)
        have hsub : ∀ x ∈ (c.remove record).live, x ∈ c.live ∧ x ≠ record := fun x hx => by
          rw [remove_live, c.live_nodup.mem_erase_iff] at hx
          exact ⟨hx.2, hx.1⟩
        obtain ⟨res, c', heq, hres⟩ := @ih ((c.remove record).nextRecord record) (c.remove record)
          hcleans.chained (fun r hr => by
            rw [hnext] at hr
            obtain ⟨hm, hlt⟩ := hstep r hr
            rw [remove_live, c.live_nodup.mem_erase_iff, remove_processors]
            exact ⟨⟨Nat.ne_of_gt (hc.next_least hlive hr).2.1, hm⟩, hlt⟩) (by omega) (fun x hx hlt => by
            rw [hnext] at hlt
            obtain ⟨hx, hne⟩ := hsub x hx
            rw [isDisconnected_congr hcleans.processors hcleans.collected]
            refine hseen x hx fun r hr => ?_
            cases hr
            exact hbefore x hx hlt hne)
        refine ⟨res, c', ?_, hcleans.trans hres.1, hres.2⟩
        rw [findFrom, if_pos hd, heq]
      · have hd' : c.isDisconnected isWeak record = false := by simpa using hd
        by_cases hf : found record = true
        · exact ⟨some record, c, by rw [findFrom, if_neg hd, if_pos hf], Cleans.refl hc, hlive, hd', hf⟩
        · obtain ⟨res, c', heq, hres⟩ := @ih (c.nextRecord record) c hc hstep (by omega) (fun x hx hlt => by
            by_cases hne : x = record
            · rw [hne]
              exact ⟨hd', by simpa using hf⟩
            · refine hseen x hx fun r hr => ?_
              cases hr
              exact hbefore x hx hlt hne)
          exact ⟨res, c', by rw [findFrom, if_neg hd, if_neg hf, heq], hres⟩

theorem findFrom_first (isWeak : H → Bool) (found : Nat → Bool) (hc : c.Chained) :
    ∃ res c', c.findFrom isWeak found (c.processors.length + 1) c.firstRecord = some (res, c') ∧
      c.Cleans isWeak c' ∧ c'.Finds isWeak found res := by
  refine findFrom_spec hc (fun r hr => ⟨hc.linked.mem_of_first hr, by omega⟩) (Nat.succ_pos _) fun x hx hlt => ?_
  cases hf : c.firstRecord with
  | none => exact absurd hx (by rw [hc.linked.eq_nil hf]; exact not_mem_nil)
  | some r => exact absurd (hlt r hf) (Nat.not_lt.2 (hc.linked.first_le c.live_sorted hf hx))

/-! ### Edits -/

/-- Where an edit that asks for the removal of `withdrawn` takes the composite. -/
structure Edited (isWeak : H → Bool) (withdrawn : List Nat) (c c' : CompositeEventHandler H) : Prop where
  chained : c'.Chained
  evolves : c.Evolves c'
  collected : c'.collected = c.collected
  asked : ∀ r ∈ withdrawn, r ∈ c'.removed
  removed : ∀ r ∈ c'.removed, r ∈ c.removed ∨ r ∈ withdrawn ∨ c.isDisconnected isWeak r = true

theorem Cleans.edited (h : c.Cleans isWeak c') : Edited isWeak [] c c' where
  chained := h.chained
  evolves := h.evolves
  collected := h.collected
  asked _ hr := absurd hr not_mem_nil
  removed r hr := (h.disconnected r hr).imp_right .inr

theorem stores_iff {h : H} {isFilter : Bool} : c.stores r h isFilter = true ↔
    c.processors[r]? = some (h, isFilter) := by
  simp [stores]

theorem lt_of_stores {h : H} {isFilter : Bool} (hs : c.stores r h isFilter = true) : r < c.processors.length :=
  (List.getElem?_eq_some_iff.1 (stores_iff.1 hs)).1

theorem add_spec (hc : c.Chained) (h : H) (isFilter : Bool) :
    ∃ c', c.add isWeak h isFilter = some c' ∧ Edited isWeak [] c c' := by
  obtain ⟨res, c', heq, hclean, hres⟩ :=
    findFrom_first isWeak (fun record => c.stores record h isFilter) hc
  cases res with
  | some record => exact ⟨c', by simp [add, find, heq], hclean.edited⟩
  | none =>
    have hnew : ∀ r ∈ c'.live, c'.processors[r]? ≠ some (h, isFilter) := fun r hr he => by
      have hnot : c.stores r h isFilter = false := (hres r hr).2
      rw [hclean.processors] at he
      rw [stores_iff.2 he] at hnot
      exact nomatch hnot
    refine ⟨c'.append c'.lastRecord h isFilter, by simp [add, find, heq], ?_⟩
    exact {
      chained := hclean.chained.append hnew
      evolves := hclean.evolves.trans (append_evolves hclean.chained)
      collected := append_collected.trans hclean.collected
      asked := fun r hr => absurd hr not_mem_nil
      removed := fun r hr => by
        rw [append_removed] at hr
        exact (hclean.disconnected r hr).imp_right .inr }

theorem delete_spec (hc : c.Chained) (h : H) (isFilter : Bool) : ∃ c', c.delete isWeak h isFilter = some c' ∧
      Edited isWeak ((range c.processors.length).filter fun r => c.stores r h isFilter) c c' := by
  obtain ⟨res, c', heq, hclean, hres⟩ :=
    findFrom_first isWeak (fun record => c.stores record h isFilter) hc
  have hmem : ∀ r, r ∈ (range c.processors.length).filter (fun r => c.stores r h isFilter) ↔
      c.stores r h isFilter = true := fun r => by
    rw [mem_filter, mem_range]
    exact ⟨And.right, fun hs => ⟨lt_of_stores hs, hs⟩⟩
  have hgone : ∀ r, c.stores r h isFilter = true → r ∉ c'.live → r ∈ c'.removed := fun r hs hr => by
    by_contra hm
    exact hr (mem_live.2 ⟨hclean.processors ▸ lt_of_stores hs, hm⟩)
  cases res with
  | none =>
    refine ⟨c', by simp [delete, find, heq], hclean.chained, hclean.evolves, hclean.collected, fun r hr => ?_, fun r hr => ?_⟩
    · refine hgone r ((hmem r).1 hr) fun hm => ?_
      have hnot : c.stores r h isFilter = false := (hres r hm).2
      rw [(hmem r).1 hr] at hnot
      exact nomatch hnot
    · exact (hclean.disconnected r hr).imp_right .inr
  | some record =>
    obtain ⟨hlive, -, hstores⟩ := hres
    refine ⟨c'.remove record, by simp [delete, find, heq], hclean.chained.remove hlive,
      hclean.evolves.trans (remove_evolves hclean.chained hlive), remove_collected.trans hclean.collected,
      fun r hr => ?_, fun r hr => ?_⟩
    · rw [remove_removed, mem_append, mem_singleton]
      rw [hmem] at hr
      by_cases hm : r ∈ c'.live
      · refine .inr (hclean.chained.unique r hm record hlive ?_)
        rw [hclean.processors, stores_iff.1 hr, stores_iff.1 hstores]
      · exact .inl (hgone r hr hm)
    · rw [remove_removed, mem_append, mem_singleton] at hr
      obtain hr | rfl := hr
      · exact (hclean.disconnected r hr).imp_right .inr
      · exact .inr (.inl ((hmem r).2 hstores))

/-- **Every edit returns** and keeps the chain. -/
theorem edit_spec (isWeak : H → Bool) (hc : c.Chained) (e : Edit H) :
    ∃ c', c.edit isWeak e = some c' ∧ Edited isWeak (e.withdraws c) c c' := by
  have hfind : ∀ found : Nat → Bool, ∃ c',
      (c.findFrom isWeak found (c.processors.length + 1) c.firstRecord).map Prod.snd = some c' ∧
        Edited isWeak [] c c' := fun found => by
    obtain ⟨res, c', heq, hclean, -⟩ := findFrom_first isWeak found hc
    exact ⟨c', by rw [heq]; rfl, hclean.edited⟩
  have hsame : Edited isWeak [] c c := (Cleans.refl hc).edited
  cases e with
  | addEventHandler h => exact add_spec hc h false
  | removeEventHandler h => exact delete_spec hc h false
  | addEventFilter h => exact add_spec hc h true
  | removeEventFilter h => exact delete_spec hc h true
  | setEventHandler h => exact ⟨{ c with eventHandler := h }, rfl, ⟨⟨hc.linked, hc.made, hc.stale, hc.unique⟩,
      ⟨prefix_rfl, fun _ h => h, fun _ _ => rfl, fun _ h h' => absurd h h', fun _ h h' => absurd h h'⟩,
      rfl, hsame.asked, hsame.removed⟩⟩
  | hasFilter => exact hfind _
  | hasHandler =>
    by_cases hh : c.eventHandler.isSome
    · exact ⟨c, by rw [edit, if_pos hh], hsame⟩
    · obtain ⟨c', heq, hedited⟩ := hfind fun record => c.hasKind record false
      exact ⟨c', by rw [edit, if_neg hh]; exact heq, hedited⟩
  | containsHandler h => exact hfind _
  | containsFilter h => exact hfind _

/-! ### Dispatches -/

/-- The dispatch is past this record. -/
def Phase.passed : Phase → Nat → Prop
  | .at (some record), r => r < record
  | .at none, _ => True
  | .handling record, r => r ≤ record
  | .last, _ => True

def Phase.record : Phase → Option Nat
  | .at record => record
  | .handling record => some record
  | .last => none

/-- The dispatch has called what it is past, and the records removed since it began do not lead it back to the records
in `gone`, which were removed before, nor past one that it has to call. -/
structure Pass.Sound (isWeak : H → Bool) (gone : List Nat) (c : CompositeEventHandler H) (p : Pass) : Prop where
  began : p.started ≤ c.processors.length
  removed : ∀ r ∈ gone, r ∈ c.removed
  leads : ∀ r ∈ c.removed, r ∉ gone → ∀ n, c.nextRecord r = some n → n ∉ gone
  ends : ∀ r ∈ c.removed, r ∉ gone → c.nextRecord r = none → ∀ x < p.started, x ∉ c.removed → x ≤ r
  stands : ∀ r, p.phase.record = some r → r < c.processors.length ∧ r ∉ gone
  ready : ∀ r, p.phase = .at (some r) → r ∈ c.removed → ∃ h, isWeak h = false ∧ c.stores r h !p.isFilter
  order : (p.called.map Prod.fst).Pairwise (· < ·)
  present : ∀ call ∈ p.called, call.2 = false
  behind : ∀ r ∈ p.called.map Prod.fst, p.phase.passed r
  covered : ∀ r < p.started, r ∉ c.removed → p.phase.passed r → c.hasKind r p.isFilter = true →
    r ∈ p.called.map Prod.fst

/-- The composite changes while a dispatch stands on a record, or that record itself is removed. -/
theorem Pass.Sound.evolve {gone : List Nat} {p : Pass} {phase : Phase} (h : p.Sound isWeak gone c)
    (he : c.Evolves c') (hrecord : phase.record = p.phase.record) (hat : ∀ r, phase ≠ .at (some r))
    (hpassed : ∀ r, p.phase.passed r → phase.passed r)
    (hback : ∀ r, r ∉ c'.removed → phase.passed r → p.phase.passed r) :
    Pass.Sound isWeak gone c' { p with phase } where
  began := h.began.trans he.processors.length_le
  removed r hr := he.removed r (h.removed r hr)
  leads r hr hg n hn := by
    by_cases hm : r ∈ c.removed
    · exact h.leads r hm hg n (he.pointers r hm ▸ hn)
    · exact fun hng => he.leads r hr hm n hn (h.removed n hng)
  ends r hr hg hn x hx hxc := by
    by_cases hm : r ∈ c.removed
    · exact h.ends r hm hg (he.pointers r hm ▸ hn) x hx fun hxm => hxc (he.removed x hxm)
    · exact he.ends r hr hm hn x (Nat.lt_of_lt_of_le hx h.began) hxc
  stands r hr := by
    obtain ⟨hlt, hg⟩ := h.stands r (hrecord ▸ hr)
    exact ⟨Nat.lt_of_lt_of_le hlt he.processors.length_le, hg⟩
  ready r hr := absurd hr (hat r)
  order := h.order
  present := h.present
  behind r hr := hpassed r (h.behind r hr)
  covered r hr hrc hp hk := by
    rw [he.hasKind (Nat.lt_of_lt_of_le hr h.began)] at hk
    exact h.covered r hr (fun hm => hrc (he.removed r hm)) (hback r hrc hp) hk

/-- **Moving on.**  A dispatch that is through with a record goes on to the least record above it that is left, or to
one that was removed and leads there. -/
theorem Pass.Sound.proceed {gone : List Nat} {p : Pass} (h : p.Sound isWeak gone c) (hc : c.Chained)
    (hp : p.phase = .handling r)
    (hready : r ∈ c.removed → ∀ n, c.nextRecord r = some n → n ∈ c.removed →
      ∃ k, isWeak k = false ∧ c.stores n k !p.isFilter) :
    Pass.Sound isWeak gone c { p with phase := .at (c.nextRecord r) } := by
  obtain ⟨hmade, hgone⟩ := h.stands r (by rw [hp]; rfl)
  have hpassed : ∀ x, p.phase.passed x ↔ x ≤ r := fun x => by rw [hp]; rfl
  have hlive : r ∉ c.removed → r ∈ c.live := fun hm => mem_live.2 ⟨hmade, hm⟩
  cases hn : c.nextRecord r with
  | none =>
    have hends : ∀ x < p.started, x ∉ c.removed → x ≤ r := fun x hx hxc => by
      by_cases hm : r ∈ c.removed
      · exact h.ends r hm hgone hn x hx hxc
      · exact hc.next_none (hlive hm) hn x (mem_live.2 ⟨Nat.lt_of_lt_of_le hx h.began, hxc⟩)
    exact { h with
      stands := fun x hx => nomatch hx
      ready := fun x hx => nomatch hx
      behind := fun _ _ => trivial
      covered := fun x hx hxc _ hk => h.covered x hx hxc ((hpassed x).2 (hends x hx hxc)) hk }
  | some n =>
    have hnext : r < n ∧ n < c.processors.length ∧ n ∉ gone ∧ ∀ x ∈ c.live, r < x → n ≤ x := by
      by_cases hm : r ∈ c.removed
      · obtain ⟨hlt, hmade', hleast⟩ := hc.stale r hm n hn
        exact ⟨hlt, hmade', h.leads r hm hgone n hn, hleast⟩
      · obtain ⟨hmem, hlt, hleast⟩ := hc.next_least (hlive hm) hn
        exact ⟨hlt, (mem_live.1 hmem).1, fun hg => (mem_live.1 hmem).2 (h.removed n hg), hleast⟩
    obtain ⟨hlt, hmade', hng, hleast⟩ := hnext
    exact { h with
      stands := fun x hx => by
        cases hx
        exact ⟨hmade', hng⟩
      ready := fun x hx hm => by
        cases hx
        by_cases hr : r ∈ c.removed
        · exact hready hr n hn hm
        · exact absurd hm (mem_live.1 (hc.next_least (hlive hr) hn).1).2
      behind := fun x hx => Nat.lt_of_le_of_lt ((hpassed x).1 (h.behind x hx)) hlt
      covered := fun x hx hxc hxn hk => by
        refine h.covered x hx hxc ((hpassed x).2 (Nat.le_of_not_lt fun hrx => ?_)) hk
        have hxl : x ∈ c.live := mem_live.2 ⟨Nat.lt_of_lt_of_le hx h.began, hxc⟩
        exact absurd hxn (Nat.not_lt.2 (hleast x hxl hrx)) }

/-! ### A step -/

structure Machine.Sound (isWeak : H → Bool) (m : Machine H) : Prop where
  chained : m.composite.Chained
  withdrawn : ∀ r ∈ m.withdrawn, r ∈ m.composite.removed
  removed : ∀ r ∈ m.composite.removed, r ∈ m.withdrawn ∨ m.composite.isDisconnected isWeak r = true
  passes : ∀ p ∈ m.passes, ∃ gone, p.Sound isWeak gone m.composite
  waiting : ∀ p ∈ m.passes.tail, ∀ r, p.phase ≠ .at (some r)

variable {m m' : Machine H} {p : Pass} {rest : List Pass}

theorem machine_start : ({} : Machine H).Sound isWeak where
  chained := chained_empty
  withdrawn r hr := by simp at hr
  removed r hr := by simp at hr
  passes p hp := by simp at hp
  waiting p hp := by simp at hp

omit [DecidableEq H] in
theorem waits_of_running (h : p.running c = true) (r : Nat) : p.phase ≠ .at (some r) := by
  intro hp
  simp [Pass.running, hp] at h

theorem Machine.Sound.outside (h : m.Sound isWeak) (ho : m.outside = true) :
    ∀ p ∈ m.passes, ∀ r, p.phase ≠ .at (some r) := by
  intro p hp
  unfold Machine.outside at ho
  cases hm : m.passes with
  | nil => rw [hm] at hp; exact absurd hp not_mem_nil
  | cons q rest =>
    rw [hm] at hp ho
    obtain rfl | hp := mem_cons.1 hp
    · exact waits_of_running ho
    · exact h.waiting p (by rw [hm]; exact hp)

theorem Machine.Sound.pop (h : m.Sound isWeak) (hm : m.passes = p :: rest) :
    Machine.Sound isWeak { m with passes := rest } where
  chained := h.chained
  withdrawn := h.withdrawn
  removed := h.removed
  passes q hq := h.passes q (by rw [hm]; exact mem_cons_of_mem _ hq)
  waiting q hq := h.waiting q (by rw [hm]; exact mem_of_mem_tail hq)

theorem Machine.Sound.move {gone : List Nat} {q : Pass} (h : m.Sound isWeak) (hm : m.passes = p :: rest)
    (hq : q.Sound isWeak gone m.composite) : Machine.Sound isWeak { m with passes := q :: rest } where
  chained := h.chained
  withdrawn := h.withdrawn
  removed := h.removed
  passes x hx := by
    obtain rfl | hx := mem_cons.1 hx
    · exact ⟨gone, hq⟩
    · exact h.passes x (by rw [hm]; exact mem_cons_of_mem _ hx)
  waiting x hx := h.waiting x (by rw [hm]; exact hx)

theorem isDisconnected_evolves (he : c.Evolves c') (hc : c'.collected = c.collected)
    (hr : r < c.processors.length) : c'.isDisconnected isWeak r = c.isDisconnected isWeak r := by
  obtain ⟨more, hmore⟩ := he.processors
  simp only [isDisconnected, hc, ← hmore, getElem?_append_left hr]

section

variable (h : m.Sound isWeak)
include h

theorem step_edit (ho : m.outside = true) (e : Edit H) :
    ∃ m', step isWeak m (.edit e) = some m' ∧ m'.Sound isWeak := by
  obtain ⟨c', heq, he⟩ := edit_spec isWeak h.chained e
  refine ⟨⟨c', m.withdrawn ++ e.withdraws m.composite, m.passes⟩, by rw [step, if_pos ho, heq]; rfl, ?_⟩
  exact {
    chained := he.chained
    withdrawn := fun r hr => by
      rcases mem_append.1 hr with hr | hr
      · exact he.evolves.removed r (h.withdrawn r hr)
      · exact he.asked r hr
    removed := fun r hr => by
      have hold : m.composite.isDisconnected isWeak r = true → c'.isDisconnected isWeak r = true := fun hd => by
        rw [isDisconnected_evolves he.evolves he.collected, hd]
        by_contra hlen
        rw [isDisconnected, getElem?_eq_none (Nat.le_of_not_lt hlen)] at hd
        exact nomatch hd
      rcases he.removed r hr with hr | hr | hd
      · exact (h.removed r hr).imp (mem_append_left _) hold
      · exact .inl (mem_append_right _ hr)
      · exact .inr (hold hd)
    passes := fun p hp => by
      obtain ⟨gone, hp'⟩ := h.passes p hp
      exact ⟨gone, hp'.evolve he.evolves rfl (h.outside ho p hp) (fun _ => id) fun _ _ => id⟩
    waiting := h.waiting }

theorem step_collect (k : H) : Machine.Sound isWeak { m with composite.collected := k :: m.composite.collected } where
  chained := ⟨h.chained.linked, h.chained.made, h.chained.stale, h.chained.unique⟩
  withdrawn := h.withdrawn
  removed r hr := by
    refine (h.removed r hr).imp_right fun hd => ?_
    simp only [isDisconnected] at hd ⊢
    grind
  passes p hp := by
    obtain ⟨gone, hp⟩ := h.passes p hp
    exact ⟨gone, hp.began, hp.removed, hp.leads, hp.ends, hp.stands, hp.ready, hp.order, hp.present, hp.behind,
      hp.covered⟩
  waiting := h.waiting

theorem step_dispatch (ho : m.outside = true) (isFilter : Bool) : Machine.Sound isWeak { m with passes :=
      ⟨isFilter, m.composite.processors.length, [], .at m.composite.firstRecord⟩ :: m.passes } where
  chained := h.chained
  withdrawn := h.withdrawn
  removed := h.removed
  passes p hp := by
    obtain rfl | hp := mem_cons.1 hp
    · have hfirst : ∀ r, m.composite.firstRecord = some r → r ∈ m.composite.live := fun r hr =>
        h.chained.linked.mem_of_first hr
      exact ⟨m.composite.removed, {
        began := le_refl _
        removed := fun r hr => hr
        leads := fun r hr hg => absurd hr hg
        ends := fun r hr hg => absurd hr hg
        stands := fun r hr => mem_live.1 (hfirst r hr)
        ready := fun r hr hm => absurd hm (mem_live.1 (hfirst r (by simpa using hr))).2
        order := List.Pairwise.nil
        present := fun call hc => absurd hc not_mem_nil
        behind := fun r hr => absurd hr not_mem_nil
        covered := fun r hr hrc hpassed _ => by
          have hlive : r ∈ m.composite.live := mem_live.2 ⟨hr, hrc⟩
          cases hf : m.composite.firstRecord with
          | none =>
            rw [h.chained.linked.eq_nil hf] at hlive
            exact absurd hlive not_mem_nil
          | some first =>
            rw [hf] at hpassed
            exact absurd hpassed (Nat.not_lt.2 (h.chained.linked.first_le m.composite.live_sorted hf hlive)) }⟩
    · exact h.passes p hp
  waiting p hp := h.outside ho p hp

section

variable (hm : m.passes = p :: rest)
include hm

theorem step_unlink (hp : p.phase = .at (some r))
    (hd : m.composite.isDisconnected isWeak r = true) :
    Machine.Sound isWeak { m with
      composite := m.composite.remove r
      passes := { p with phase := .at ((m.composite.remove r).nextRecord r) } :: rest } := by
  obtain ⟨gone, hsound⟩ := h.passes p (by rw [hm]; exact mem_cons_self)
  have hnot : r ∉ m.composite.removed := fun hr => by
    obtain ⟨k, hk, hs⟩ := hsound.ready r hp hr
    rw [isDisconnected, stores_iff.1 hs] at hd
    simp [hk] at hd
  have hlive : r ∈ m.composite.live := mem_live.2 ⟨(hsound.stands r (by rw [hp]; rfl)).1, hnot⟩
  have hev := remove_evolves h.chained hlive
  have hdis : ∀ x, (m.composite.remove r).isDisconnected isWeak x = m.composite.isDisconnected isWeak x :=
    isDisconnected_congr remove_processors remove_collected
  have hrem : r ∈ (m.composite.remove r).removed := by rw [remove_removed]; simp
  have hthrough : Pass.Sound isWeak gone (m.composite.remove r) { p with phase := .handling r } :=
    hsound.evolve hev (by rw [hp]; rfl) (fun _ => nofun) (fun x hx => by rw [hp] at hx; exact Nat.le_of_lt hx)
      fun x hx hxr => by
        rw [hp]
        exact Nat.lt_of_le_of_ne hxr fun e => hx (e ▸ hrem)
  have hmoved := hthrough.proceed (h.chained.remove hlive) rfl fun _ n hn hnr => by
    rw [remove_next h.chained hlive (.inr rfl)] at hn
    obtain ⟨hmem, hlt, -⟩ := h.chained.next_least hlive hn
    rw [remove_removed, mem_append, mem_singleton] at hnr
    exact (hnr.elim (mem_live.1 hmem).2 (Nat.ne_of_gt hlt)).elim
  exact {
    chained := h.chained.remove hlive
    withdrawn := fun x hx => hev.removed x (h.withdrawn x hx)
    removed := fun x hx => by
      rw [hdis]
      rw [remove_removed, mem_append, mem_singleton] at hx
      obtain hx | rfl := hx
      · exact h.removed x hx
      · exact .inr hd
    passes := fun q hq => by
      obtain rfl | hq := mem_cons.1 hq
      · exact ⟨gone, hmoved⟩
      · obtain ⟨gone, hq'⟩ := h.passes q (by rw [hm]; exact mem_cons_of_mem _ hq)
        exact ⟨gone, hq'.evolve hev rfl (h.waiting q (by rw [hm]; exact hq)) (fun _ => id) fun _ _ => id⟩
    waiting := fun q hq => h.waiting q (by rw [hm]; exact hq) }

theorem step_handle (hp : p.phase = .at (some r)) :
    Machine.Sound isWeak { m with passes :=
      { p with
        called := if m.composite.hasKind r p.isFilter then p.called ++ [(r, decide (r ∈ m.withdrawn))] else p.called
        phase := .handling r } :: rest } := by
  obtain ⟨gone, hsound⟩ := h.passes p (by rw [hm]; exact mem_cons_self)
  have hbehind : ∀ x ∈ p.called.map Prod.fst, x < r := fun x hx => by
    have := hsound.behind x hx
    rw [hp] at this
    exact this
  have hcovered : ∀ x < p.started, x ∉ m.composite.removed → x < r → m.composite.hasKind x p.isFilter = true →
      x ∈ p.called.map Prod.fst := fun x hx hxc hlt => hsound.covered x hx hxc (by rw [hp]; exact hlt)
  by_cases hk : m.composite.hasKind r p.isFilter = true
  · rw [if_pos hk]
    have hthere : r ∉ m.withdrawn := fun hw => by
      obtain ⟨k, -, hs⟩ := hsound.ready r hp (h.withdrawn r hw)
      rw [hasKind, stores_iff.1 hs] at hk
      simp at hk
    refine @Machine.Sound.move _ _ _ m p rest gone _ h hm { hsound with
      stands := fun x hx => hsound.stands x (by rw [hp]; exact hx)
      ready := fun x hx => nomatch hx
      order := by
        simp only [map_append, pairwise_append]
        exact ⟨hsound.order, pairwise_singleton _ _, fun x hx y hy => by
          rw [mem_singleton.1 hy]
          exact hbehind x hx⟩
      present := fun call hcall => by
        rcases mem_append.1 hcall with hcall | hcall
        · exact hsound.present call hcall
        · rw [mem_singleton.1 hcall]
          simpa using hthere
      behind := fun x hx => by
        simp only [map_append, map_cons, map_nil, mem_append, mem_singleton] at hx
        exact hx.elim (fun hx => Nat.le_of_lt (hbehind x hx)) Nat.le_of_eq
      covered := fun x hx hxc hxr hxk => by
        simp only [map_append, map_cons, map_nil, mem_append, mem_singleton]
        rcases Nat.lt_or_eq_of_le (show x ≤ r from hxr) with hlt | heq
        · exact .inl (hcovered x hx hxc hlt hxk)
        · exact .inr heq }
  · rw [if_neg hk]
    refine @Machine.Sound.move _ _ _ m p rest gone _ h hm { hsound with
      stands := fun x hx => hsound.stands x (by rw [hp]; exact hx)
      ready := fun x hx => nomatch hx
      behind := fun x hx => Nat.le_of_lt (hbehind x hx)
      covered := fun x hx hxc hxr hxk => by
        refine hcovered x hx hxc (Nat.lt_of_le_of_ne hxr fun e => hk ?_) hxk
        rw [← e]
        exact hxk }

theorem step_proceed (hp : p.phase = .handling r) (hc : Careful isWeak m) :
    Machine.Sound isWeak { m with passes := { p with phase := .at (m.composite.nextRecord r) } :: rest } := by
  obtain ⟨gone, hsound⟩ := h.passes p (by rw [hm]; exact mem_cons_self)
  exact h.move hm (hsound.proceed h.chained hp fun hr n hn hnr => hc p (by rw [hm]; rfl) r hr hp n hn hnr)

theorem step_eventHandler (hp : p.phase = .at none) :
    Machine.Sound isWeak { m with passes := { p with phase := .last } :: rest } := by
  obtain ⟨gone, hsound⟩ := h.passes p (by rw [hm]; exact mem_cons_self)
  exact h.move hm (hsound.evolve (Evolves.refl _) (by rw [hp]; rfl) (fun _ => nofun) (fun _ _ => trivial)
    fun _ _ _ => by rw [hp]; trivial)

end

/-- **One step.** -/
theorem Machine.Sound.step {a : Action H} (hc : a = .proceed → Careful isWeak m)
    (hs : CompositeEventHandler.step isWeak m a = some m') : m'.Sound isWeak := by
  cases a with
  | edit e =>
    by_cases ho : m.outside = true
    · obtain ⟨m'', heq, hsound⟩ := step_edit h ho e
      rw [heq] at hs
      cases hs
      exact hsound
    · rw [CompositeEventHandler.step, if_neg ho] at hs
      exact nomatch hs
  | collect k =>
    rw [CompositeEventHandler.step] at hs
    split at hs
    · cases hs
      exact step_collect h k
    · exact nomatch hs
  | dispatch isFilter =>
    rw [CompositeEventHandler.step] at hs
    split at hs
    · rename_i ho
      cases hs
      exact step_dispatch h ho isFilter
    · exact nomatch hs
  | visit =>
    rw [CompositeEventHandler.step] at hs
    split at hs
    · rename_i p rest hm
      split at hs
      · rename_i r hp
        split at hs
        · rename_i hd
          cases hs
          exact step_unlink h hm hp hd
        · cases hs
          exact step_handle h hm hp
      · exact nomatch hs
    · exact nomatch hs
  | proceed =>
    rw [CompositeEventHandler.step] at hs
    split at hs
    · rename_i p rest hm
      split at hs
      · rename_i r hp
        cases hs
        exact step_proceed h hm hp (hc rfl)
      · exact nomatch hs
    · exact nomatch hs
  | eventHandler =>
    rw [CompositeEventHandler.step] at hs
    split at hs
    · rename_i p rest hm
      split at hs
      · rename_i hp
        cases hs
        exact step_eventHandler h hm hp.1
      · exact nomatch hs
    · exact nomatch hs
  | finish =>
    rw [CompositeEventHandler.step] at hs
    split at hs
    · rename_i p rest hm
      split at hs
      · cases hs
        exact h.pop hm
      · exact nomatch hs
    · exact nomatch hs
  | throw =>
    rw [CompositeEventHandler.step] at hs
    split at hs
    · rename_i p rest hm
      split at hs
      · cases hs
        exact h.pop hm
      · exact nomatch hs
    · exact nomatch hs

end

theorem CarefullyReachable.sound (h : CarefullyReachable isWeak m) : m.Sound isWeak := by
  induction h with
  | start => exact machine_start
  | step _ hc hs ih => exact ih.step hc hs

/-! ### What follows of it -/

theorem Machine.Sound.live_of_registered (h : m.Sound isWeak) (hr : m.Registered isWeak r) :
    r ∈ m.composite.live := by
  obtain ⟨hmade, hw, hd⟩ := hr
  refine mem_live.2 ⟨hmade, fun hm => ?_⟩
  rcases h.removed r hm with hm | hm
  · exact hw hm
  · rw [hd] at hm
    exact nomatch hm

theorem Machine.Sound.wellFormed (h : m.Sound isWeak) : m.WellFormed isWeak :=
  ⟨m.composite.live, h.chained.linked, m.composite.live_sorted, fun _ hr => h.live_of_registered hr,
    fun r hr => ⟨(mem_live.1 hr).1, fun hw => (mem_live.1 hr).2 (h.withdrawn r hw)⟩⟩

theorem Machine.Sound.orderly (h : m.Sound isWeak) (hp : p ∈ m.passes) : p.Orderly isWeak m := by
  obtain ⟨gone, hsound⟩ := h.passes p hp
  refine ⟨hsound.order, hsound.present, fun hphase r hr hreg hk => ?_⟩
  refine hsound.covered r hr (mem_live.1 (h.live_of_registered hreg)).2 ?_ hk
  obtain hphase | hphase := hphase <;> rw [hphase] <;> trivial

/-- **Dispatching while handlers come and go.**  As long as no dispatch moves on from a removed record to one that was
removed too and that it would call or unlink again, the chain of records stays well formed, every dispatch calls
those that stay registered, in order, once each and none that was removed before, and every edit returns. -/
theorem carefullyReachable_orderly (h : CarefullyReachable isWeak m) :
    m.WellFormed isWeak ∧ (∀ p ∈ m.passes, p.Orderly isWeak m) ∧
      (m.outside = true → ∀ e, (step isWeak m (.edit e)).isSome = true) := by
  have hsound := h.sound
  refine ⟨hsound.wellFormed, fun p hp => hsound.orderly hp, fun ho e => ?_⟩
  obtain ⟨m', heq, -⟩ := step_edit hsound ho e
  rw [heq]
  rfl

theorem carefullyReachable_orderly_removesItself :
    ∃ m : Machine Nat, CarefullyReachable (fun _ => false) m ∧
      m.passes.map Pass.called = [[(0, false), (1, false)]] ∧ m.composite.live = [1] ∧
      m.WellFormed (fun _ => false) ∧ (∀ p ∈ m.passes, p.Orderly (fun _ => false) m) ∧
      (m.outside = true → ∀ e, (step (fun _ => false) m (.edit e)).isSome = true) := by
  have h : CarefullyReachable (fun _ => false) ({} : Machine Nat) := .start
  have h := h.step (a := .edit (.addEventHandler 1)) nofun rfl
  have h := h.step (a := .edit (.addEventHandler 2)) nofun rfl
  have h := h.step (a := .dispatch false) nofun rfl
  have h := h.step (a := .visit) nofun rfl
  have h := h.step (a := .edit (.removeEventHandler 1)) nofun rfl
  have h := h.step (a := .proceed) (fun _ p hp r hr hphase n hn hnr => by
    cases hp
    cases hphase
    cases hn
    exact absurd hnr (by decide)) rfl
  have h := h.step (a := .visit) nofun rfl
  exact ⟨_, h, by decide, by decide, carefullyReachable_orderly h⟩

theorem reachable_of_foldlM {actions : List (Action H)} : ∀ {m : Machine H}, Reachable isWeak m →
    actions.foldlM (step isWeak) m = some m' → Reachable isWeak m' := by
  induction actions with
  | nil => intro m h hm; cases hm; exact h
  | cons a actions ih =>
    intro m h hm
    obtain ⟨m₁, hstep, hrest⟩ := Option.bind_eq_some_iff.1 hm
    exact ih (h.step hstep) hrest

/-- Two handlers, the first of which removes itself and then the second: that one is called all the same.  If it is weak
and collected by then, it is unlinked a second time, and a handler that was added meanwhile is lost. -/
theorem not_orderly_removesNeighbour :
    (¬∀ m : Machine Nat, Reachable (fun _ => false) m → ∀ p ∈ m.passes, p.Orderly (fun _ => false) m) ∧
      ¬∀ m : Machine Nat, Reachable (fun h => h == 2) m → m.WellFormed (fun h => h == 2) := by
  constructor
  · intro hall
    obtain ⟨m, hm, hcalled⟩ : ∃ m : Machine Nat,
        [Action.edit (.addEventHandler 1), .edit (.addEventHandler 2), .dispatch false, .visit,
          .edit (.removeEventHandler 1), .edit (.removeEventHandler 2), .proceed, .visit].foldlM
            (step fun _ => false) {} = some m ∧ m.passes.map Pass.called = [[(0, false), (1, true)]] :=
      ⟨_, rfl, by decide⟩
    obtain ⟨p, hp, hpc⟩ : ∃ p ∈ m.passes, p.called = [(0, false), (1, true)] :=
      mem_map.1 (by rw [hcalled]; exact mem_singleton_self _)
    have := (hall m (reachable_of_foldlM .start hm) p hp).present (1, true) (by rw [hpc]; decide)
    exact nomatch this
  · intro hall
    obtain ⟨m, hm, hfirst, hreg⟩ : ∃ m : Machine Nat,
        [Action.edit (.addEventHandler 1), .edit (.addEventHandler 2), .dispatch false, .visit,
          .edit (.removeEventHandler 1), .edit (.removeEventHandler 2), .collect 2, .edit (.addEventHandler 3),
          .proceed, .visit].foldlM (step fun h => h == 2) {} = some m ∧ m.composite.firstRecord = none ∧
            m.Registered (fun h => h == 2) 2 :=
      ⟨_, rfl, by decide, by decide, by decide, by decide⟩
    obtain ⟨records, hlinked, -, hmem, -⟩ := hall m (reachable_of_foldlM .start hm)
    rw [hlinked.eq_nil hfirst] at hmem
    exact absurd (hmem 2 hreg) not_mem_nil

end JavaFX.CompositeEventHandler
