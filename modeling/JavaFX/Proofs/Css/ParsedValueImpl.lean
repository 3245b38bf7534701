/-
The contract of `equals` and `hashCode` of parsed values.

Two values are alike if they have the same nesting, the same nulls, strings that are the same
up to case, and other objects that call themselves equal.  `equals` adds to this that the
fields `hash` of all values it compares are the same (`equals_spec`).  It is therefore a matter
of the calls of `hashCode` made before whether two values that are alike are equal.  As long as
they are not one object it can be made to fail, by asking one of them for its hash code, unless
that hash code is the one that stands for none.
-/
import JavaFX.Css.ParsedValueImpl
import Mathlib.Data.List.Induction

namespace JavaFX.ParsedValueImpl

open Program Descent List Function

variable {V : Type} {objects : Objects V} {heap : Heap V} {hash : Fields} {i j k p q r s : Nat}
  {v w u : Value V}

/-! ### The places of two values -/

/-- The nulls of two arrays stand at the same places. -/
def SameRow {α : Type} (xs ys : List (Option α)) : Prop :=
  xs.length = ys.length ∧ ∀ n : Nat, xs[n]? = some none ↔ ys[n]? = some none

/-- What stands at one place of two arrays. -/
def Facing {α : Type} (xs ys : List (Option α)) (a b : α) : Prop :=
  ∃ n : Nat, xs[n]? = some (some a) ∧ ys[n]? = some (some b)

/-- The parsed values that `equals` compares next. -/
def Nested : Value V → Value V → Nat → Nat → Prop
  | .parsed i, .parsed j, p, q => p = i ∧ q = j
  | .array _ xs, .array _ ys, p, q => Facing xs ys p q
  | .layers _ xs, .layers _ ys, p, q => ∃ r s, Facing xs ys r s ∧ Facing r s p q
  | _, _, _, _ => False

/-- Two values are the same, up to the parsed values they refer to. -/
def SameShape (objects : Objects V) : Value V → Value V → Prop
  | .parsed _, .parsed _ => True
  | .array _ xs, .array _ ys => SameRow xs ys
  | .layers _ xs, .layers _ ys => SameRow xs ys ∧ ∀ r s, Facing xs ys r s → SameRow r s
  | .string s, .string t => equalsIgnoreCase objects s t = true
  | .object v, .object w => objects.equals v w = true
  | .null, .null => True
  | _, _ => False

section
variable {α : Type} {xs ys zs : List (Option α)} {a b c : α}

theorem Facing.symm (h : Facing xs ys a b) : Facing ys xs b a := by
  obtain ⟨n, hx, hy⟩ := h
  exact ⟨n, hy, hx⟩

/-- An array of the same form has something at the same place. -/
theorem Facing.between (hrow : SameRow xs ys) (h : Facing xs zs a c) : ∃ b, Facing xs ys a b ∧ Facing ys zs b c := by
  obtain ⟨n, hx, hz⟩ := h
  have hlt : n < ys.length := hrow.1 ▸ (List.getElem?_eq_some_iff.mp hx).1
  rcases hy : ys[n] with _ | b
  · have hnone : ys[n]? = some none := by rw [getElem?_eq_getElem hlt, hy]
    rw [(hrow.2 n).mpr hnone] at hx
    cases hx
  · have hsome : ys[n]? = some (some b) := by rw [getElem?_eq_getElem hlt, hy]
    exact ⟨b, ⟨n, hx, hsome⟩, ⟨n, hsome, hz⟩⟩

theorem Facing.mem (h : Facing xs ys a b) : a ∈ xs.filterMap id := by
  obtain ⟨n, hx, -⟩ := h
  exact List.mem_filterMap.mpr ⟨some a, mem_of_getElem? hx, rfl⟩

theorem zip_all_iff {test : Option α → Option α → Bool} (hnone : test none none = true)
    (hleft : ∀ a, test (some a) none = false) (hright : ∀ b, test none (some b) = false) :
    (decide (xs.length = ys.length ∧ (xs.zip ys).all fun e => test e.1 e.2) = true) ↔
      SameRow xs ys ∧ ∀ a b, Facing xs ys a b → test (some a) (some b) = true := by
  rw [decide_eq_true_iff, all_eq_true]
  constructor
  · rintro ⟨hlen, hall⟩
    have hat : ∀ n x y, xs[n]? = some x → ys[n]? = some y → test x y = true := fun n x y hx hy =>
      hall (x, y) (mem_of_getElem? (List.getElem?_zip_eq_some.mpr ⟨hx, hy⟩))
    refine ⟨⟨hlen, fun n => ?_⟩, fun a b ⟨n, hx, hy⟩ => hat n _ _ hx hy⟩
    constructor
    · intro hx
      have hlt : n < ys.length := hlen ▸ (List.getElem?_eq_some_iff.mp hx).1
      rcases hy : ys[n] with _ | b
      · rw [getElem?_eq_getElem hlt, hy]
      · have := hat n none (some b) hx (by rw [getElem?_eq_getElem hlt, hy])
        rw [hright] at this
        cases this
    · intro hy
      have hlt : n < xs.length := hlen ▸ (List.getElem?_eq_some_iff.mp hy).1
      rcases hx : xs[n] with _ | a
      · rw [getElem?_eq_getElem hlt, hx]
      · have := hat n (some a) none (by rw [getElem?_eq_getElem hlt, hx]) hy
        rw [hleft] at this
        cases this
  · rintro ⟨⟨hlen, hnulls⟩, hall⟩
    refine ⟨hlen, fun e he => ?_⟩
    obtain ⟨n, hn⟩ := List.mem_iff_getElem?.mp he
    obtain ⟨hx, hy⟩ := List.getElem?_zip_eq_some.mp hn
    rcases e with ⟨_ | a, _ | b⟩
    · exact hnone
    · rw [(hnulls n).mp hx] at hy
      cases hy
    · rw [(hnulls n).mpr hy] at hx
      cases hx
    · exact hall a b ⟨n, hx, hy⟩

end

theorem Nested.symm (h : Nested v w p q) : Nested w v q p := by
  cases v <;> cases w <;> try exact h.elim
  · exact ⟨h.2, h.1⟩
  · exact Facing.symm h
  · obtain ⟨r, s, hrs, hpq⟩ := h
    exact ⟨s, r, hrs.symm, hpq.symm⟩

theorem Nested.between (hshape : SameShape objects v w) (h : Nested v u p r) :
    ∃ q, Nested v w p q ∧ Nested w u q r := by
  cases v <;> cases u <;> try exact h.elim
  · cases w <;> try exact hshape.elim
    exact ⟨_, ⟨h.1, rfl⟩, ⟨rfl, h.2⟩⟩
  · cases w <;> try exact hshape.elim
    exact Facing.between hshape h
  · cases w <;> try exact hshape.elim
    obtain ⟨x, z, hxz, hpr⟩ := h
    obtain ⟨y, hxy, hyz⟩ := Facing.between hshape.1 hxz
    obtain ⟨q, hpq, hqr⟩ := Facing.between (hshape.2 x y hxy) hpr
    exact ⟨q, ⟨x, y, hxy, hpq⟩, ⟨y, z, hyz, hqr⟩⟩

theorem Nested.mem_refs (h : Nested v w p q) : p ∈ v.refs := by
  cases v <;> cases w <;> try exact h.elim
  · exact List.mem_singleton.mpr h.1
  · exact Facing.mem h
  · obtain ⟨r, s, hrs, hpq⟩ := h
    exact List.mem_flatMap.mpr ⟨r, hrs.mem, hpq.mem⟩

theorem Nested.lt (h : Nested (heap.value i) w p q) : p < i := heap.older i p h.mem_refs

/-! ### equals -/

theorem rowEquals_iff {equals : Nat → Nat → Bool} {xs ys : List (Option Nat)} :
    rowEquals equals xs ys = true ↔ SameRow xs ys ∧ ∀ p q, Facing xs ys p q → equals p q = true :=
  zip_all_iff rfl (fun _ => rfl) fun _ => rfl

theorem layersEqual_iff {equals : Nat → Nat → Bool} {xs ys : List (Option (List (Option Nat)))} :
    layersEqual equals xs ys = true ↔ SameRow xs ys ∧ ∀ r s, Facing xs ys r s → rowEquals equals r s = true :=
  zip_all_iff rfl (fun _ => rfl) fun _ => rfl

theorem valueEquals_iff {equals : Nat → Nat → Bool} : valueEquals objects equals v w = true ↔
      SameShape objects v w ∧ ∀ p q, Nested v w p q → equals p q = true := by
  cases v with
  | layers address xs =>
    cases w with
    | layers address' ys =>
      show layersEqual equals xs ys = true ↔ _
      simp only [layersEqual_iff, rowEquals_iff]
      constructor
      · rintro ⟨hrow, hall⟩
        exact ⟨⟨hrow, fun r s h => (hall r s h).1⟩, fun p q ⟨r, s, h, hpq⟩ => (hall r s h).2 p q hpq⟩
      · rintro ⟨⟨hrow, hrows⟩, hall⟩
        exact ⟨hrow, fun r s h => ⟨hrows r s h, fun p q hpq => hall p q ⟨r, s, h, hpq⟩⟩⟩
    | _ => simp [valueEquals, SameShape]
  | array address xs =>
    cases w with
    | array address' ys => exact rowEquals_iff
    | _ => simp [valueEquals, SameShape]
  | parsed i =>
    cases w with
    | parsed j => simp [valueEquals, SameShape, Nested]
    | _ => simp [valueEquals, SameShape]
  | _ => cases w <;> simp [valueEquals, SameShape, Nested]

/-- What one round of `equals` makes of the rounds for older values. -/
def equalsBody (objects : Objects V) (heap : Heap V) (hash : Fields) (equals : Nat → Nat → Bool) (i j : Nat) : Bool :=
  if i = j then true
  else if hash i ≠ hash j then false
  else valueEquals objects equals (heap.value i) (heap.value j)

theorem equals_descends (objects : Objects V) (heap : Heap V) (hash : Fields) :
    Descends (equalsIn objects heap hash) (equalsBody objects heap hash) := by
  refine ⟨fun fuel i => rfl, fun g g' i hsame => funext fun j => ?_⟩
  have hvalue : valueEquals objects g (heap.value i) (heap.value j) =
      valueEquals objects g' (heap.value i) (heap.value j) := by
    rw [Bool.eq_iff_iff, valueEquals_iff, valueEquals_iff]
    refine and_congr_right fun _ => forall₂_congr fun p q => ?_
    exact forall_congr' fun h => by rw [hsame p h.lt]
  rw [equalsBody, equalsBody, hvalue]

theorem equals_iff : equals objects heap hash i j = true ↔ i = j ∨ hash i = hash j ∧
    SameShape objects (heap.value i) (heap.value j) ∧
    ∀ p q, Nested (heap.value i) (heap.value j) p q → equals objects heap hash p q = true := by
  rw [equals, (equals_descends objects heap hash).descend_eq, equalsBody]
  by_cases hij : i = j
  · simp [hij]
  · rw [if_neg hij]
    by_cases hhash : hash i = hash j
    · rw [if_neg (not_not_intro hhash), valueEquals_iff]
      simp only [hij, hhash, false_or, true_and]
    · simp [hij, hhash]

/-! ### Values that are alike -/

/-- Two values are one object, or they say the same. -/
inductive Alike (objects : Objects V) (heap : Heap V) : Nat → Nat → Prop
  | same (i : Nat) : Alike objects heap i i
  | intro {i j : Nat} : SameShape objects (heap.value i) (heap.value j) →
      (∀ p q, Nested (heap.value i) (heap.value j) p q → Alike objects heap p q) → Alike objects heap i j

/-- The pairs of different objects that stand at the same places in `i` and `j`. -/
inductive Compared (heap : Heap V) : Nat → Nat → Nat → Nat → Prop
  | here {i j : Nat} : i ≠ j → Compared heap i j i j
  | deeper {i j p q r s : Nat} : i ≠ j → Nested (heap.value i) (heap.value j) p q → Compared heap p q r s →
      Compared heap i j r s

theorem Compared.ne (h : Compared heap i j r s) : r ≠ s := by
  induction h with
  | here hne => exact hne
  | deeper _ _ _ ih => exact ih

theorem Compared.ne_start (h : Compared heap i j r s) : i ≠ j := by
  cases h with
  | here hne => exact hne
  | deeper hne _ _ => exact hne

theorem Compared.symm (h : Compared heap i j r s) : Compared heap j i s r := by
  induction h with
  | here hne => exact .here (Ne.symm hne)
  | deeper hne hnested _ ih => exact .deeper (Ne.symm hne) hnested.symm ih

/-- **What `equals` compares**: the values, and the hash codes that have been kept. -/
theorem equals_spec : equals objects heap hash i j = true ↔
    Alike objects heap i j ∧ ∀ r s, Compared heap i j r s → hash r = hash s := by
  induction i using Nat.strongRecOn generalizing j with
  | ind i ih =>
    rw [equals_iff]
    constructor
    · rintro (rfl | ⟨hhash, hshape, hnested⟩)
      · exact ⟨.same i, fun r s h => absurd rfl h.ne_start⟩
      · refine ⟨.intro hshape fun p q h => ((ih p h.lt).mp (hnested p q h)).1, fun r s h => ?_⟩
        cases h with
        | here _ => exact hhash
        | deeper _ hpq hrs => exact ((ih _ hpq.lt).mp (hnested _ _ hpq)).2 r s hrs
    · rintro ⟨halike, hkept⟩
      by_cases hij : i = j
      · exact .inl hij
      · cases halike with
        | same => exact absurd rfl hij
        | intro hshape hnested =>
          refine .inr ⟨hkept _ _ (.here hij), hshape, fun p q h => (ih p h.lt).mpr ⟨hnested p q h, ?_⟩⟩
          exact fun r s hrs => hkept r s (.deeper hij h hrs)

theorem equals_self : equals objects heap hash i i = true := equals_iff.mpr (.inl rfl)

theorem equals_fresh_iff : equals objects heap fresh i j = true ↔ Alike objects heap i j := by
  rw [equals_spec]
  exact and_iff_left fun r s _ => rfl

theorem equals_symm (h : equals objects heap hash i j = true) (halike : Alike objects heap j i) :
    equals objects heap hash j i = true :=
  equals_spec.mpr ⟨halike, fun r s hrs => ((equals_spec.mp h).2 s r hrs.symm).symm⟩

/-- The kept hash codes agree along a chain of equal values. -/
theorem equals_trans (hij : equals objects heap hash i j = true) (hjk : equals objects heap hash j k = true)
    (halike : Alike objects heap i k) : equals objects heap hash i k = true := by
  induction i using Nat.strongRecOn generalizing j k with
  | ind i ih =>
    by_cases hne : i = k
    · exact hne ▸ equals_self
    · rcases equals_iff.mp hij with rfl | ⟨hhash, hshape, hnested⟩
      · exact hjk
      · rcases equals_iff.mp hjk with rfl | ⟨hhash', hshape', hnested'⟩
        · exact hij
        · cases halike with
          | same => exact absurd rfl hne
          | intro hshape'' halike =>
            refine equals_iff.mpr (.inr ⟨hhash.trans hhash', hshape'', fun p r hpr => ?_⟩)
            obtain ⟨q, hpq, hqr⟩ := Nested.between hshape hpr
            exact ih p hpr.lt (hnested p q hpq) (hnested' q r hqr) (halike p r hpr)

/-! ### hashCode -/

theorem elementValue_lt {element : Option Nat} (h : ∀ p ∈ element, p < i)
    (hq : q ∈ (elementValue heap element).refs) :
    q < i := by
  cases element with
  | none => simp [elementValue, Value.refs] at hq
  | some p => exact Nat.lt_trans (heap.older p q hq) (h p rfl)

theorem valueHashCode_congr {next next' : Nat → HashCall (BitVec 32)} (h : ∀ q ∈ v.refs, next q = next' q) :
    valueHashCode objects next v = valueHashCode objects next' v := by
  cases v with
  | parsed p => exact h p (mem_singleton_self p)
  | _ => rfl

theorem mix_congr {next next' : Nat → HashCall (BitVec 32)} (h : ∀ q ∈ v.refs, next q = next' q) :
    mix objects next v = mix objects next' v := by
  funext st
  rw [mix, mix, valueHashCode_congr h]

/-- The loops hash values of elements only, and these refer to values that are older still. -/
theorem hashLoops_congr {next next' : Nat → HashCall (BitVec 32)} (h : ∀ q < i, next q = next' q) :
    hashLoops objects heap next (heap.value i) = hashLoops objects heap next' (heap.value i) := by
  have hold := heap.older i
  cases hv : heap.value i with
  | layers address values =>
    refine forEach_congr fun layer hlayer => ?_
    cases layer with
    | none => rfl
    | some row =>
      refine forEach_congr fun element helement => mix_congr fun q hq => h q (elementValue_lt ?_ hq)
      rintro p rfl
      refine hold p (hv ▸ List.mem_flatMap.mpr ⟨row, ?_, ?_⟩)
      · exact List.mem_filterMap.mpr ⟨some row, hlayer, rfl⟩
      · exact List.mem_filterMap.mpr ⟨some p, helement, rfl⟩
  | array address values =>
    refine forEach_congr fun element helement => ?_
    have hmix : mix objects next (elementValue heap element) = mix objects next' (elementValue heap element) := by
      refine mix_congr fun q hq => h q (elementValue_lt ?_ hq)
      rintro p rfl
      exact hold p (hv ▸ List.mem_filterMap.mpr ⟨some p, helement, rfl⟩)
    unfold mixElement
    split
    · rfl
    · exact hmix
  | parsed p => exact mix_congr fun q hq => h q (hold q (hv ▸ hq))
  | null => rfl
  | string s => rfl
  | object v => rfl

theorem hashCode_descends (objects : Objects V) (heap : Heap V) :
    Descends (hashCodeIn objects heap) (hashBody objects heap) := by
  refine ⟨fun fuel i => rfl, fun g g' i hsame => funext fun fields => ?_⟩
  rw [hashBody, hashBody, hashLoops_congr hsame]

theorem hashCode_eq (i : Nat) : hashCode objects heap i = hashBody objects heap (hashCode objects heap) i :=
  (hashCode_descends objects heap).descend_eq i

theorem after_append (xs ys : List Nat) (hash : Fields) :
    after objects heap (xs ++ ys) hash = after objects heap ys (after objects heap xs hash) := by
  rw [after, foldl_append]
  rfl

/-- The fields are what some calls for values below `i` have made of `hash`. -/
def Made (objects : Objects V) (heap : Heap V) (hash : Fields) (i : Nat) (st : BitVec 32 × Fields) : Prop :=
  ∃ calls, (∀ d ∈ calls, d < i) ∧ st.2 = after objects heap calls hash

theorem keeps_mix (h : ∀ q ∈ v.refs, q < i) :
    Keeps (Made objects heap hash i) (mix objects (hashCode objects heap) v) := by
  rintro ⟨acc, fields⟩ ⟨calls, hcalls, hfields⟩
  have hstate : ∃ calls', (∀ d ∈ calls', d < i) ∧
      (valueHashCode objects (hashCode objects heap) v fields).2 = after objects heap calls' hash := by
    cases v with
    | parsed p =>
      refine ⟨calls ++ [p], fun d hd => ?_, ?_⟩
      · rcases List.mem_append.mp hd with hd | hd
        · exact hcalls d hd
        · exact List.mem_singleton.mp hd ▸ h p (mem_singleton_self p)
      · rw [after_append, ← show fields = _ from hfields]
        rfl
    | _ => exact ⟨calls, hcalls, hfields⟩
  unfold mix
  split
  · rename_i hrun
    rw [hrun] at hstate
    exact hstate
  · rename_i hrun
    rw [hrun] at hstate
    exact hstate

theorem keeps_hashLoops : Keeps (Made objects heap hash i)
    (hashLoops objects heap (hashCode objects heap) (heap.value i)) := by
  have hold := heap.older i
  cases hv : heap.value i with
  | layers address values =>
    refine keeps_forEach_of_mem fun layer hlayer => ?_
    cases layer with
    | none => exact keeps_throw _
    | some row =>
      refine keeps_forEach_of_mem fun element helement => keeps_mix fun q hq => elementValue_lt ?_ hq
      rintro p rfl
      refine hold p (hv ▸ List.mem_flatMap.mpr ⟨row, ?_, ?_⟩)
      · exact List.mem_filterMap.mpr ⟨some row, hlayer, rfl⟩
      · exact List.mem_filterMap.mpr ⟨some p, helement, rfl⟩
  | array address values =>
    refine keeps_forEach_of_mem fun element helement => ?_
    unfold mixElement
    split
    · exact keeps_pure ()
    · refine keeps_mix fun q hq => elementValue_lt ?_ hq
      rintro p rfl
      exact hold p (hv ▸ List.mem_filterMap.mpr ⟨some p, helement, rfl⟩)
  | _ => exact keeps_mix fun q hq => hold q (hv ▸ hq)

/-- What a call of `hashCode` does to the fields: calls for older values, and then its own. -/
theorem hashCode_fields (i : Nat) (hash : Fields) : (hashCode objects heap i hash).2 = hash ∨
    ∃ calls code, (∀ d ∈ calls, d < i) ∧
      (hashCode objects heap i hash).2 = update (after objects heap calls hash) i code := by
  rw [hashCode_eq, hashBody]
  by_cases hmin : hash i = minValue
  · right
    obtain ⟨calls, hcalls, hfields⟩ := (keeps_hashLoops : Keeps (Made objects heap hash i) _) (17, hash)
      (⟨[], fun d hd => absurd hd not_mem_nil, rfl⟩ : Made objects heap hash i (17, hash))
    rw [if_pos hmin]
    rcases hrun : hashLoops objects heap (hashCode objects heap) (heap.value i) (17, hash) with ⟨r, code, fields⟩
    rw [hrun] at hfields
    obtain rfl : fields = after objects heap calls hash := hfields
    cases r with
    | ok => exact ⟨calls, code, hcalls, rfl⟩
    | error => exact ⟨calls, code, hcalls, rfl⟩
  · exact .inl (by rw [if_neg hmin])

theorem hashCode_kept {code : BitVec 32} (h : (hashCode objects heap i hash).1 = .ok code) :
    (hashCode objects heap i hash).2 i = code := by
  rw [hashCode_eq, hashBody] at h ⊢
  by_cases hmin : hash i = minValue
  · rw [if_pos hmin] at h ⊢
    rcases hrun : hashLoops objects heap (hashCode objects heap) (heap.value i) (17, hash) with ⟨_ | _, kept, fields⟩
    · rw [hrun] at h
      cases h
    · rw [hrun] at h
      exact (update_self i kept fields).trans (Except.ok.inj h)
  · rw [if_neg hmin] at h ⊢
    exact Except.ok.inj h

/-! ### The contract -/

/-- The hash code of `i` is never kept: it is `Integer.MIN_VALUE`. -/
def NeverKept (objects : Objects V) (heap : Heap V) (i : Nat) : Prop :=
  ∀ calls, after objects heap calls fresh i = minValue

/-- What is said of three values, whatever calls of `hashCode` were made before. -/
structure Contract (objects : Objects V) (heap : Heap V) (i j k : Nat) : Prop where
  reflexive : ∀ calls, equals objects heap (after objects heap calls fresh) i i = true
  symmetric : ∀ calls, equals objects heap (after objects heap calls fresh) i j =
    equals objects heap (after objects heap calls fresh) j i
  transitive : ∀ calls, equals objects heap (after objects heap calls fresh) i j = true →
    equals objects heap (after objects heap calls fresh) j k = true →
    equals objects heap (after objects heap calls fresh) i k = true
  independent : ∀ calls calls', equals objects heap (after objects heap calls fresh) i j =
    equals objects heap (after objects heap calls' fresh) i j
  hashCode : ∀ calls, equals objects heap (after objects heap calls fresh) i j = true → ∀ code code',
    (hashCode objects heap i (after objects heap calls fresh)).1 = .ok code →
    (ParsedValueImpl.hashCode objects heap j (after objects heap calls fresh)).1 = .ok code' → code = code'

/-- Where the contract is kept. -/
structure Lawful (objects : Objects V) (heap : Heap V) (i j k : Nat) : Prop where
  kept : Alike objects heap i j → ∀ r s, Compared heap i j r s → NeverKept objects heap r ∧ NeverKept objects heap s
  symmetric : Alike objects heap i j ↔ Alike objects heap j i
  transitive : Alike objects heap i j → Alike objects heap j k → Alike objects heap i k

/-- If the kept hash codes of all pairs always agree, none is ever kept: after a call for one
of a pair, the other has none yet. -/
theorem neverKept_of_agree (hagree : ∀ calls r s, Compared heap i j r s →
      after objects heap calls fresh r = after objects heap calls fresh s)
    (h : Compared heap i j r s) : NeverKept objects heap r ∧ NeverKept objects heap s := by
  have hone : ∀ (d : Nat) (calls : List Nat), (∀ r s, Compared heap i j r s →
        after objects heap calls fresh r = minValue ∧ after objects heap calls fresh s = minValue) →
      ∀ r s, Compared heap i j r s → after objects heap (calls ++ [d]) fresh r = minValue ∧
        after objects heap (calls ++ [d]) fresh s = minValue := by
    intro d
    induction d using Nat.strongRecOn with
    | ind d ih =>
      intro calls hnone
      -- The nested calls are for older values.
      have hmany : ∀ older : List Nat, (∀ e ∈ older, e < d) → ∀ r s, Compared heap i j r s →
          after objects heap (calls ++ older) fresh r = minValue ∧
          after objects heap (calls ++ older) fresh s = minValue := by
        intro older holder
        induction older using reverseRecOn with
        | nil => rwa [append_nil]
        | append_singleton older e ihe =>
          rw [← append_assoc]
          exact ih e (holder e (by simp)) (calls ++ older) (ihe fun e' he' => holder e' (by simp [he']))
      intro r s hrs
      have hlast := hagree (calls ++ [d]) r s hrs
      rw [after_append] at hlast ⊢
      show (hashCode objects heap d (after objects heap calls fresh)).2 r = minValue ∧
        (hashCode objects heap d (after objects heap calls fresh)).2 s = minValue
      have hlast : (hashCode objects heap d (after objects heap calls fresh)).2 r =
        (hashCode objects heap d (after objects heap calls fresh)).2 s := hlast
      rcases @hashCode_fields _ objects heap d (after objects heap calls fresh) with
        hsame | ⟨older, code, holder, hfields⟩
      · rw [hsame]
        exact hnone r s hrs
      · rw [← after_append] at hfields
        obtain ⟨hr, hs⟩ := hmany older holder r s hrs
        rw [hfields] at hlast ⊢
        by_cases hrd : r = d
        · subst hrd
          rw [update_of_ne (Ne.symm hrs.ne), hs] at hlast
          rw [update_of_ne (Ne.symm hrs.ne)]
          exact ⟨hlast, hs⟩
        · rw [update_of_ne hrd, hr] at hlast
          rw [update_of_ne hrd]
          exact ⟨hr, hlast.symm⟩
  have hall : ∀ calls r s, Compared heap i j r s →
      after objects heap calls fresh r = minValue ∧ after objects heap calls fresh s = minValue := by
    intro calls
    induction calls using reverseRecOn with
    | nil => exact fun r s _ => ⟨rfl, rfl⟩
    | append_singleton calls d ih => exact hone d calls ih
  exact ⟨fun calls => (hall calls r s h).1, fun calls => (hall calls r s h).2⟩

/-- **The contract holds exactly** where values that are alike are one object, or have hash
codes that are never kept, and where being alike is itself symmetric and transitive. -/
theorem contract_iff (objects : Objects V) (heap : Heap V) (i j k : Nat) :
    Contract objects heap i j k ↔ Lawful objects heap i j k := by
  constructor
  · intro h
    refine ⟨fun halike r s hrs => neverKept_of_agree (fun calls r s hrs => ?_) hrs, ?_, fun hij hjk => ?_⟩
    · have hequal := h.independent [] calls
      rw [show equals objects heap (after objects heap [] fresh) i j = true from equals_fresh_iff.mpr halike] at hequal
      exact (equals_spec.mp hequal.symm).2 r s hrs
    · rw [← equals_fresh_iff, ← equals_fresh_iff]
      exact Bool.eq_iff_iff.mp (h.symmetric [])
    · exact equals_fresh_iff.mp (h.transitive [] (equals_fresh_iff.mpr hij) (equals_fresh_iff.mpr hjk))
  · intro h
    have hequal : ∀ calls, equals objects heap (after objects heap calls fresh) i j = true ↔ Alike objects heap i j := by
      intro calls
      refine ⟨fun heq => (equals_spec.mp heq).1, fun halike => equals_spec.mpr ⟨halike, fun r s hrs => ?_⟩⟩
      obtain ⟨hr, hs⟩ := h.kept halike r s hrs
      rw [hr calls, hs calls]
    refine ⟨fun _ => equals_self, fun calls => ?_, fun calls hij hjk => ?_, fun calls calls' => ?_, ?_⟩
    · rw [Bool.eq_iff_iff]
      exact ⟨fun heq => equals_symm heq (h.symmetric.mp ((hequal calls).mp heq)),
        fun heq => (hequal calls).mpr (h.symmetric.mpr (equals_spec.mp heq).1)⟩
    · exact equals_trans hij hjk (h.transitive (equals_spec.mp hij).1 (equals_spec.mp hjk).1)
    · rw [Bool.eq_iff_iff, hequal, hequal]
    · intro calls heq code code' hcode hcode'
      by_cases hij : i = j
      · subst hij
        exact Except.ok.inj (hcode.symm.trans hcode')
      · obtain ⟨hi, hj⟩ := h.kept ((hequal calls).mp heq) i j (.here hij)
        have hlast : ∀ d, NeverKept objects heap d →
            (ParsedValueImpl.hashCode objects heap d (after objects heap calls fresh)).2 d = minValue := by
          intro d hd
          have := hd (calls ++ [d])
          rwa [after_append] at this
        rw [← hashCode_kept hcode, ← hashCode_kept hcode', hlast i hi, hlast j hj]

/-- The letters of the first alphabet, and no other objects. -/
def letters : Objects Empty where
  equals v _ := v.elim
  hashCode v := v.elim
  identityHashCode address := BitVec.ofNat 32 address
  foldCase := List.map fun c => if 65 ≤ c ∧ c ≤ 90 then c + 32 else c

/-- The values `center` and `CENTER`. -/
def centers : Heap Empty where
  value i := match i with
    | 0 => .string (units "center")
    | 1 => .string (units "CENTER")
    | _ => .null
  older i q hq := by
    rcases i with _ | _ | i <;> cases hq

/-- They are equal, and after a call of `hashCode` they are not. -/
theorem centers_not_contract : ¬ Contract letters centers 0 1 0 := by
  intro h
  have hsame := h.independent [] [0]
  cases hsame

end JavaFX.ParsedValueImpl
