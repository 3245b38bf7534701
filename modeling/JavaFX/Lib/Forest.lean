/-
Forests: a first tree, what is below its root, and the trees beside it.

`prefixes` are the paths that start at a root, in the order in which a depth-first walk
comes to their ends.  `graft` hangs a forest below every leaf.  `union` puts the paths of two
forests into one.
-/
import Mathlib.Data.List.Basic

inductive Forest (α : Type)
  | nil
  | cons (a : α) (children rest : Forest α)
deriving DecidableEq, Repr

namespace Forest

open List

variable {α β : Type}

def map (h : α → β) : Forest α → Forest β
  | nil => nil
  | cons a children rest => cons (h a) (map h children) (map h rest)

/-- Every node, a parent before its children and these before its siblings. -/
def labels : Forest α → List α
  | nil => []
  | cons a children rest => a :: (labels children ++ labels rest)

/-- The roots. -/
def roots : Forest α → List α
  | nil => []
  | cons a _ rest => a :: roots rest

/-- One forest beside another. -/
def append : Forest α → Forest α → Forest α
  | nil, g => g
  | cons a children rest, g => cons a children (append rest g)

/-- A forest in which nobody has a sibling. -/
def chain : List α → Forest α
  | [] => nil
  | a :: as => cons a (chain as) nil

/-- The paths that start at a root. -/
def prefixes : Forest α → List (List α)
  | nil => []
  | cons a children rest => [a] :: ((prefixes children).map (a :: ·) ++ prefixes rest)

/-- `t` below every leaf. -/
def graft (t : Forest α) : Forest α → Forest α
  | nil => nil
  | cons a nil rest => cons a t (graft t rest)
  | cons a (cons b below beside) rest => cons a (graft t (cons b below beside)) (graft t rest)

/-- The number of leaves. -/
def leaves : Forest α → Nat
  | nil => 0
  | cons _ nil rest => leaves rest + 1
  | cons _ (cons b below beside) rest => leaves (cons b below beside) + leaves rest

/-- No two siblings have the same label. -/
def Distinct : Forest α → Prop
  | nil => True
  | cons a children rest => a ∉ roots rest ∧ Distinct children ∧ Distinct rest

section
variable [DecidableEq α]

/-- The children of the first root `a` become what `h` makes of them; if there is no such
root, it is added behind the others, with the children `new`. -/
def change (a : α) (h : Forest α → Forest α) : Forest α → Forest α → Forest α
  | nil, new => cons a new nil
  | cons b children rest, new =>
    if a = b then cons b (h children) rest else cons b children (change a h rest new)

/-- The union, level by level: a root of the second forest is merged into the root of the
first that has the same label, and comes behind the roots if there is none. -/
def union : Forest α → Forest α → Forest α
  | f, nil => f
  | f, cons a children rest => union (f.change a (fun c => union c children) children) rest

end

/-! ### Rules -/

@[simp] theorem append_nil (f : Forest α) : f.append nil = f := by
  induction f with
  | nil => rfl
  | cons a children rest _ ih => rw [append, ih]

theorem append_assoc (f g h : Forest α) : (f.append g).append h = f.append (g.append h) := by
  induction f with
  | nil => rfl
  | cons a children rest _ ih => rw [append, append, append, ih]

@[simp] theorem labels_append (f g : Forest α) : (f.append g).labels = f.labels ++ g.labels := by
  induction f with
  | nil => rfl
  | cons a children rest _ ih => simp [append, labels, ih]

@[simp] theorem roots_append (f g : Forest α) : (f.append g).roots = f.roots ++ g.roots := by
  induction f with
  | nil => rfl
  | cons a children rest _ ih => simp [append, roots, ih]

@[simp] theorem map_append (h : α → β) (f g : Forest α) : (f.append g).map h = (f.map h).append (g.map h) := by
  induction f with
  | nil => rfl
  | cons a children rest _ ih => simp [append, map, ih]

@[simp] theorem roots_map (h : α → β) (f : Forest α) : (f.map h).roots = f.roots.map h := by
  induction f with
  | nil => rfl
  | cons a children rest _ ih => simp [map, roots, ih]

@[simp] theorem labels_chain (l : List α) : (chain l).labels = l := by
  induction l with
  | nil => rfl
  | cons a l ih => simp [chain, labels, ih]

theorem map_chain (h : α → β) (l : List α) : (chain l).map h = chain (l.map h) := by
  induction l with
  | nil => rfl
  | cons a l ih => simp [chain, map, ih]

theorem length_prefixes (f : Forest α) : f.prefixes.length = f.labels.length := by
  induction f with
  | nil => rfl
  | cons a children rest ihc ih => simp [prefixes, labels, ihc, ih]

/-! ### Grafting -/

theorem map_graft (h : α → β) (t f : Forest α) : (graft t f).map h = graft (t.map h) (f.map h) := by
  induction f with
  | nil => rfl
  | cons a children rest ihc ih =>
    cases children with
    | nil => simp [graft, map, ih]
    | cons b below beside => rw [graft, map, map, ihc, ih, map, graft]

@[simp] theorem graft_nil (f : Forest α) : graft nil f = f := by
  induction f with
  | nil => rfl
  | cons a children rest ihc ih =>
    cases children with
    | nil => rw [graft, ih]
    | cons b below beside => rw [graft, ihc, ih]

@[simp] theorem roots_graft (t f : Forest α) : (graft t f).roots = f.roots := by
  induction f with
  | nil => rfl
  | cons a children rest _ ih =>
    cases children with
    | nil => rw [graft, roots, roots, ih]
    | cons b below beside => rw [graft, roots, roots, ih]

theorem length_labels_graft (t f : Forest α) :
    (graft t f).labels.length = f.labels.length + f.leaves * t.labels.length := by
  induction f with
  | nil => simp [graft, leaves]
  | cons a children rest ihc ih =>
    cases children with
    | nil =>
      simp only [graft, labels, leaves, length_cons, length_append, Nat.add_mul, length_nil]
      omega
    | cons b below beside =>
      rw [graft, labels, leaves, labels, length_cons, length_append, length_cons, length_append, Nat.add_mul]
      omega

theorem leaves_pos {f : Forest α} (h : f ≠ nil) : 0 < f.leaves := by
  induction f with
  | nil => exact absurd rfl h
  | cons a children rest ihc ih =>
    cases children with
    | nil => simp [leaves]
    | cons b below beside =>
      have := ihc (by simp)
      rw [leaves]
      omega

/-! ### Distinct siblings -/

theorem distinct_append {f g : Forest α} :
    (f.append g).Distinct ↔ f.Distinct ∧ g.Distinct ∧ ∀ a ∈ f.roots, a ∉ g.roots := by
  induction f with
  | nil => simp [append, Distinct, roots]
  | cons a children rest _ ih =>
    simp only [append, Distinct, roots, roots_append, mem_append, mem_cons, ih]
    constructor
    · rintro ⟨ha, hc, hr, hg, hrg⟩
      refine ⟨⟨fun h => ha (.inl h), hc, hr⟩, hg, ?_⟩
      rintro b (rfl | hb)
      · exact fun h => ha (.inr h)
      · exact hrg b hb
    · rintro ⟨⟨ha, hc, hr⟩, hg, hrg⟩
      exact ⟨fun h => h.elim ha (hrg a (.inl rfl)), hc, hr, hg, fun b hb => hrg b (.inr hb)⟩

theorem distinct_chain (l : List α) : (chain l).Distinct := by
  induction l with
  | nil => trivial
  | cons a l ih => exact ⟨by simp [roots], ih, trivial⟩

theorem distinct_graft {t f : Forest α} (ht : t.Distinct) (hf : f.Distinct) : (graft t f).Distinct := by
  induction f with
  | nil => trivial
  | cons a children rest ihc ih =>
    obtain ⟨ha, hc, hr⟩ := hf
    cases children with
    | nil => exact ⟨by simpa using ha, ht, ih hr⟩
    | cons b below beside => exact ⟨by simpa using ha, ihc hc, ih hr⟩

/-! ### Unions -/

section
variable [DecidableEq α] {a : α} {h : Forest α → Forest α} {new f g c : Forest α}

theorem change_append_of_notMem (ha : a ∉ f.roots) : (f.append g).change a h new = f.append (g.change a h new) := by
  induction f with
  | nil => rfl
  | cons b children rest _ ih =>
    rw [roots, mem_cons, not_or] at ha
    rw [append, change, if_neg ha.1, ih ha.2, append]

theorem change_of_notMem (ha : a ∉ f.roots) : f.change a h new = f.append (cons a new nil) := by
  have happend : (f.append nil).change a h new = f.append (change a h nil new) := change_append_of_notMem ha
  rwa [append_nil] at happend

theorem change_append_cons (ha : a ∉ f.roots) : (f.append (cons a c g)).change a h new =
    f.append (cons a (h c) g) := by
  rw [change_append_of_notMem ha, change, if_pos rfl]

theorem mem_roots_change {b : α} : b ∈ (f.change a h new).roots ↔ b ∈ f.roots ∨ b = a := by
  induction f with
  | nil => simp [change, roots]
  | cons d children rest _ ih =>
    rw [change]
    split
    · rename_i heq
      subst heq
      rw [roots, roots, mem_cons, or_right_comm, or_self]
    · rw [roots, roots, mem_cons, mem_cons, ih, or_assoc]

theorem distinct_change (hf : f.Distinct) (hh : ∀ c, c.Distinct → (h c).Distinct) (hnew : new.Distinct) :
    (f.change a h new).Distinct := by
  induction f with
  | nil => exact ⟨by simp [roots], hnew, trivial⟩
  | cons b children rest _ ih =>
    obtain ⟨hb, hc, hr⟩ := hf
    rw [change]
    split
    · exact ⟨hb, hh children hc, hr⟩
    · rename_i hne
      refine ⟨fun hmem => ?_, hc, ih hr⟩
      rcases mem_roots_change.mp hmem with hmem | heq
      · exact hb hmem
      · exact hne heq.symm

theorem distinct_union (hf : f.Distinct) (hg : g.Distinct) : (f.union g).Distinct := by
  induction g generalizing f with
  | nil => exact hf
  | cons a children rest ihc ih =>
    obtain ⟨-, hc, hr⟩ := hg
    exact ih (distinct_change hf (fun c hd => ihc hd hc) hc) hr

/-- A forest none of whose roots is there comes behind. -/
theorem union_of_disjoint (hg : g.Distinct) (hdisjoint : ∀ a ∈ g.roots, a ∉ f.roots) : f.union g = f.append g := by
  induction g generalizing f with
  | nil => rw [union, append_nil]
  | cons a children rest _ ih =>
    obtain ⟨ha, -, hr⟩ := hg
    rw [union, change_of_notMem (hdisjoint a mem_cons_self), ih hr, append_assoc]
    · rfl
    · intro b hb hmem
      rw [roots_append, mem_append] at hmem
      rcases hmem with hmem | hmem
      · exact hdisjoint b (mem_cons_of_mem _ hb) hmem
      · rw [roots, roots, mem_singleton] at hmem
        exact ha (hmem ▸ hb)

theorem nil_union (hg : g.Distinct) : nil.union g = g := by
  rw [union_of_disjoint hg (by simp [roots])]
  rfl

/-- **Idempotence.** -/
theorem union_self (hf : f.Distinct) : f.union f = f := by
  suffices h : ∀ (f above : Forest α), (above.append f).Distinct →
      (above.append f).union f = above.append f from h f nil hf
  intro f
  induction f with
  | nil => intro above _; rfl
  | cons a children rest ihc ih =>
    intro above hd
    obtain ⟨-, ⟨-, hc, -⟩, hroots⟩ := distinct_append.mp hd
    have ha : a ∉ above.roots := fun hmem => hroots a hmem mem_cons_self
    have hself : children.union children = children := ihc nil hc
    have hassoc : above.append (cons a children rest) = (above.append (cons a children nil)).append rest := by
      rw [append_assoc]
      rfl
    rw [union, change_append_cons ha, hself, hassoc]
    exact ih _ (hassoc ▸ hd)

variable {p : List α}

theorem mem_prefixes_change (hh : ∀ c p, p ∈ (h c).prefixes ↔ p ∈ c.prefixes ∨ p ∈ new.prefixes) :
    p ∈ (f.change a h new).prefixes ↔ p ∈ f.prefixes ∨ p ∈ (cons a new nil).prefixes := by
  induction f with
  | nil => simp [change, prefixes]
  | cons b children rest _ ih =>
    rw [change]
    split
    · rename_i heq
      subst heq
      simp only [prefixes, mem_cons, mem_append, mem_map, hh, or_and_right, exists_or]
      grind
    · simp only [prefixes, mem_cons, mem_append, ih, or_assoc]

/-- **The paths of a union** are those of the two forests. -/
theorem mem_prefixes_union : p ∈ (f.union g).prefixes ↔ p ∈ f.prefixes ∨ p ∈ g.prefixes := by
  induction g generalizing f p with
  | nil => simp [union, prefixes]
  | cons a children rest ihc ih =>
    rw [union, ih, mem_prefixes_change fun c p => ihc]
    simp only [prefixes, mem_cons, mem_append, or_assoc, List.not_mem_nil, false_or]

end

end Forest
