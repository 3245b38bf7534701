/-
The store as one map.

Two levels of maps hold the cookies, by domain and by name, domain and path.  `lookup` is the one
map they make up: a well-formed store files every cookie under its own domain, so a cookie is stored
just if it is what its key leads to.  Every operation is a change of single buckets, and what
`upsert` does to the number of cookies and to `lookup` is said here once.
-/
import JavaFX.Webkit.CookieStore
import Mathlib.Algebra.Order.BigOperators.Group.List

namespace JavaFX.Webkit.CookieStore

open List

open Cookie (Key)

variable {jvm : Jvm} {s s' s'' : CookieStore}

/-! ### Lookups -/

def bucketAt (d : Text) (buckets : List (Text × Bucket)) : Bucket := (AssocList.get d buckets).getD []

def size (buckets : List (Text × Bucket)) : Nat := (buckets.map (·.2.length)).sum

def lookup (k : Key) (s : CookieStore) : Option Cookie :=
  KeyedList.get Cookie.key k (bucketAt k.domain s.buckets)

/-- The cookies of a bucket have its domain and keys of their own. -/
structure Filed (d : Text) (b : Bucket) : Prop where
  domain : ∀ c ∈ b, c.domain = d
  distinct : KeyedList.Distinct Cookie.key b

structure WellFormed (s : CookieStore) : Prop where
  keys : (AssocList.keys s.buckets).Nodup
  filed : ∀ d, Filed d (bucketAt d s.buckets)
  count : s.totalCount = size s.buckets

variable {d : Text} {c : Cookie} {q : List Cookie}

theorem Filed.nil : Filed d [] := ⟨by simp, by simp [KeyedList.Distinct]⟩

variable {b : Bucket} {f : Bucket → Bucket} {totalCount : Int} {es rest : List Cookie} {rank : Cookie → Int}
  {m : Cookie}

theorem Filed.sublist {b' : Bucket} (h : Filed d b) (hsub : b'.Sublist b) : Filed d b' :=
  ⟨fun c hc => h.domain c (hsub.subset hc), h.distinct.sublist hsub⟩

theorem new_wellFormed : WellFormed new :=
  ⟨by simp [new, AssocList.keys], fun _ => Filed.nil, rfl⟩

theorem bucketAt_upsert (d d' : Text) (f : Bucket → Bucket) (buckets : List (Text × Bucket)) :
    bucketAt d' (AssocList.upsert d [] f buckets) =
      if d' = d then f (bucketAt d buckets) else bucketAt d' buckets := by
  unfold bucketAt
  rw [AssocList.get_upsert]
  split <;> rfl

theorem size_upsert (d : Text) (f : Bucket → Bucket) (buckets : List (Text × Bucket)) :
    size (AssocList.upsert d [] f buckets) + (bucketAt d buckets).length
      = size buckets + (f (bucketAt d buckets)).length := by
  induction buckets with
  | nil => simp [AssocList.upsert, size, bucketAt, AssocList.get]
  | cons e buckets ih =>
    by_cases he : e.1 = d
    · simp only [AssocList.upsert, if_pos he, size, bucketAt, AssocList.get, map_cons, sum_cons, Option.getD_some]
      omega
    · simp only [AssocList.upsert, if_neg he, size, bucketAt, AssocList.get, map_cons, sum_cons] at ih ⊢
      omega

theorem mem_bucketAt_of_entry (h : (AssocList.keys s.buckets).Nodup) {e : Text × Bucket}
    (he : e ∈ s.buckets) : bucketAt e.1 s.buckets = e.2 := by
  rw [bucketAt, (AssocList.get_eq_some_iff h).mpr he]
  rfl

theorem WellFormed.mem_cookies (h : WellFormed s) : c ∈ s.cookies ↔ c ∈ bucketAt c.domain s.buckets := by
  rw [cookies, mem_flatMap]
  constructor
  · rintro ⟨e, he, hc⟩
    have heq := mem_bucketAt_of_entry h.keys he
    have hfiled := h.filed e.1
    rw [heq] at hfiled
    rw [hfiled.domain c hc, heq]
    exact hc
  · intro hc
    cases hget : AssocList.get c.domain s.buckets with
    | none => simp [bucketAt, hget] at hc
    | some b =>
      simp only [bucketAt, hget] at hc
      exact ⟨(c.domain, b), (AssocList.get_eq_some_iff h.keys).mp hget, hc⟩

/-- A cookie is stored just if it is what its key leads to. -/
theorem WellFormed.lookup_eq_some (h : WellFormed s) {k : Key} : lookup k s = some c ↔ c ∈ s.cookies ∧ c.key = k := by
  rw [lookup, KeyedList.get_eq_some_iff (h.filed _).distinct, h.mem_cookies]
  constructor
  · rintro ⟨hc, rfl⟩
    exact ⟨hc, rfl⟩
  · rintro ⟨hc, rfl⟩
    exact ⟨hc, rfl⟩

theorem WellFormed.upsert (h : WellFormed s) (reads : Nat) (hfiled : Filed d (f (bucketAt d s.buckets)))
    (hcount : totalCount + (bucketAt d s.buckets).length = s.totalCount + (f (bucketAt d s.buckets)).length) :
    WellFormed ⟨AssocList.upsert d [] f s.buckets, totalCount, reads⟩ := by
  refine ⟨AssocList.nodup_keys_upsert h.keys, ?_, ?_⟩
  · intro d'
    rw [bucketAt_upsert]
    split
    next hd =>
      rw [hd]
      exact hfiled
    next => exact h.filed d'
  · have hsize := size_upsert d f s.buckets
    have hc := h.count
    dsimp only
    omega

theorem lookup_upsert (k : Key) (d : Text) (f : Bucket → Bucket) (buckets : List (Text × Bucket))
    (totalCount : Int) (reads : Nat) :
    lookup k ⟨AssocList.upsert d [] f buckets, totalCount, reads⟩
      = if k.domain = d then KeyedList.get Cookie.key k (f (bucketAt d buckets))
        else KeyedList.get Cookie.key k (bucketAt k.domain buckets) := by
  rw [lookup, bucketAt_upsert]
  split <;> rfl

/-! ### Expiry -/

theorem hasExpired_mono {now now' : Int} (h : now ≤ now')
    (hc : c.hasExpired now = true) : c.hasExpired now' = true := by
  simp only [Cookie.hasExpired, decide_eq_true_eq] at hc ⊢
  omega

theorem removeExpired_spec (jvm : Jvm) (l : List Cookie) (totalCount : Int) (reads : Nat) :
    (removeExpired jvm l totalCount reads).kept.Sublist l ∧
    (removeExpired jvm l totalCount reads).totalCount + l.length
      = totalCount + (removeExpired jvm l totalCount reads).kept.length ∧
    (removeExpired jvm l totalCount reads).reads = reads + l.length ∧
    (∀ c ∈ (removeExpired jvm l totalCount reads).kept, c.hasExpired (jvm.currentTimeMillis reads) = false) ∧
    ∀ c ∈ l, c ∉ (removeExpired jvm l totalCount reads).kept →
      c.hasExpired (jvm.currentTimeMillis (reads + l.length)) = true := by
  induction l generalizing totalCount reads with
  | nil => simp [removeExpired]
  | cons c cs ih =>
    have hnext : jvm.currentTimeMillis reads ≤ jvm.currentTimeMillis (reads + 1) :=
      jvm.nondecreasing (by omega)
    have hlast : jvm.currentTimeMillis reads ≤ jvm.currentTimeMillis (reads + (cs.length + 1)) :=
      jvm.nondecreasing (by omega)
    have hreads : reads + 1 + cs.length = reads + (cs.length + 1) := by omega
    -- Whoever has not expired at the next reading has not expired now.
    have hearlier : ∀ c' : Cookie, c'.hasExpired (jvm.currentTimeMillis (reads + 1)) = false →
        c'.hasExpired (jvm.currentTimeMillis reads) = false := by
      intro c' hc'
      by_contra hnot
      rw [hasExpired_mono hnext (by simpa using hnot)] at hc'
      cases hc'
    rw [removeExpired]
    split
    · next hexpired =>
        obtain ⟨hsub, hcount, hr, hkept, hdropped⟩ := ih (totalCount - 1) (reads + 1)
        rw [hreads] at hr hdropped
        refine ⟨hsub.cons c, ?_, hr, fun c' hc' => hearlier c' (hkept c' hc'), ?_⟩
        · simp only [length_cons]
          omega
        · intro c' hc' hnot
          rcases List.mem_cons.mp hc' with rfl | hc'
          · exact hasExpired_mono hlast hexpired
          · exact hdropped c' hc' hnot
    · next hexpired =>
        obtain ⟨hsub, hcount, hr, hkept, hdropped⟩ := ih totalCount (reads + 1)
        rw [hreads] at hr hdropped
        refine ⟨hsub.cons_cons c, ?_, hr, ?_, ?_⟩
        · simp only [length_cons]
          omega
        · intro c' hc'
          rcases List.mem_cons.mp hc' with rfl | hc'
          · simpa using hexpired
          · exact hearlier c' (hkept c' hc')
        · intro c' hc' hnot
          rcases List.mem_cons.mp hc' with rfl | hc'
          · exact absurd mem_cons_self hnot
          · exact hdropped c' hc' (fun h => hnot (mem_cons_of_mem _ h))

/-- A part of a call that only drops cookies that have expired. -/
structure Lapse (jvm : Jvm) (s s' : CookieStore) : Prop where
  wellFormed : WellFormed s'
  reads : s.reads ≤ s'.reads
  lookup : ∀ k, lookup k s' = lookup k s ∨ lookup k s' = none ∧
    ∃ c, CookieStore.lookup k s = some c ∧ c.hasExpired (jvm.currentTimeMillis s'.reads) = true
  small : ∀ d, (bucketAt d s'.buckets).length ≤ (bucketAt d s.buckets).length
  total : s'.totalCount ≤ s.totalCount

theorem Lapse.refl (h : WellFormed s) : Lapse jvm s s :=
  ⟨h, Nat.le_refl _, fun _ => .inl rfl, fun _ => Nat.le_refl _, Int.le_refl _⟩

theorem Lapse.trans (h : Lapse jvm s s') (h' : Lapse jvm s' s'') : Lapse jvm s s'' := by
  refine ⟨h'.wellFormed, h.reads.trans h'.reads, ?_, fun d => (h'.small d).trans (h.small d), h'.total.trans h.total⟩
  intro k
  rcases h'.lookup k with heq' | ⟨hnone', c, hc, hexpired⟩
  · rw [heq']
    rcases h.lookup k with heq | ⟨hnone, c, hc, hexpired⟩
    · exact .inl heq
    · exact .inr ⟨hnone, c, hc, hasExpired_mono (jvm.nondecreasing h'.reads) hexpired⟩
  · rcases h.lookup k with heq | ⟨hnone, _⟩
    · exact .inr ⟨hnone', c, heq ▸ hc, hexpired⟩
    · rw [hnone] at hc
      cases hc

theorem Lapse.mem_cookies (h : Lapse jvm s s') (hs : WellFormed s) (hc : c ∈ s'.cookies) : c ∈ s.cookies := by
  have hc' := h.wellFormed.lookup_eq_some.mpr ⟨hc, rfl⟩
  rcases h.lookup c.key with heq | ⟨hnone, _⟩
  · exact (hs.lookup_eq_some.mp (heq ▸ hc')).1
  · rw [hnone] at hc'
    cases hc'

theorem lapse_bucket (h : WellFormed s) (hb : bucketAt d s.buckets = b) {reads : Nat}
    (hsub : (f b).Sublist b) (hcount : totalCount + b.length = s.totalCount + (f b).length)
    (hreads : s.reads ≤ reads)
    (hdropped : ∀ c ∈ b, c ∉ f b → c.hasExpired (jvm.currentTimeMillis reads) = true) :
    Lapse jvm s ⟨AssocList.upsert d [] f s.buckets, totalCount, reads⟩ := by
  have hfiled := h.filed d
  rw [hb] at hfiled
  refine ⟨h.upsert reads (by rw [hb]; exact hfiled.sublist hsub) (by rw [hb]; exact hcount), hreads, ?_, ?_, ?_⟩
  · intro k
    rw [lookup_upsert]
    split
    · next hk =>
        rw [CookieStore.lookup, hk, hb]
        rcases KeyedList.get_of_sublist hfiled.distinct hsub with heq | ⟨hnone, c, hc, hnot, hget⟩
        · exact .inl heq
        · exact .inr ⟨hnone, c, hget, hdropped c hc hnot⟩
    · exact .inl rfl
  · intro d'
    rw [bucketAt_upsert]
    split
    · next hd =>
        rw [hd, hb]
        exact hsub.length_le
    · exact Nat.le_refl _
  · have := hsub.length_le
    dsimp only
    omega


/-! ### Excess cookies -/

/-- A part of a call that takes stored cookies out. -/
structure Evict (es : List Cookie) (s s' : CookieStore) : Prop where
  wellFormed : WellFormed s'
  reads : s'.reads = s.reads
  lookup : ∀ k, lookup k s' = if k ∈ es.map Cookie.key then none else lookup k s
  small : ∀ d, (bucketAt d s'.buckets).length ≤ (bucketAt d s.buckets).length
  total : s'.totalCount + es.length = s.totalCount

theorem Evict.refl (h : WellFormed s) : Evict [] s s :=
  ⟨h, rfl, fun _ => by simp, fun _ => Nat.le_refl _, by simp⟩

theorem Evict.trans {es' : List Cookie} (h : Evict es s s') (h' : Evict es' s' s'') : Evict (es ++ es') s s'' := by
  refine ⟨h'.wellFormed, h'.reads.trans h.reads, ?_, fun d => (h'.small d).trans (h.small d), ?_⟩
  · intro k
    rw [h'.lookup, h.lookup]
    by_cases hk : k ∈ es.map Cookie.key
    · simp [hk]
    · by_cases hk' : k ∈ es'.map Cookie.key
      · simp [hk']
      · simp [hk]
  · have h1 := h.total
    have h2 := h'.total
    rw [length_append]
    omega

/-- What is left was there, and is none of those taken out. -/
theorem Evict.mem_cookies (h : Evict es s s') (hs : WellFormed s) :
    c ∈ s'.cookies ↔ c ∈ s.cookies ∧ c.key ∉ es.map Cookie.key := by
  have hiff : c ∈ s'.cookies ↔ CookieStore.lookup c.key s' = some c := by
    rw [h.wellFormed.lookup_eq_some]
    simp
  have hiff' : c ∈ s.cookies ↔ CookieStore.lookup c.key s = some c := by
    rw [hs.lookup_eq_some]
    simp
  rw [hiff, hiff', h.lookup]
  split
  · next hk => simp [hk]
  · next hk => simp [hk]

theorem evict_one (h : WellFormed s) (hc : c ∈ s.cookies) (reads : Nat) (hreads : reads = s.reads) :
    Evict [c] s ⟨AssocList.upsert c.domain [] (Bucket.remove c) s.buckets, s.totalCount - 1, reads⟩ := by
  have hfiled := h.filed c.domain
  have hget := (KeyedList.get_eq_some_iff hfiled.distinct).mpr ⟨h.mem_cookies.mp hc, rfl⟩
  have hlength := KeyedList.length_remove hget
  refine ⟨h.upsert reads (hfiled.sublist KeyedList.remove_sublist) ?_, hreads, ?_, ?_, by simp⟩
  · rw [Bucket.remove]
    omega
  · intro k
    rw [lookup_upsert, Bucket.remove, KeyedList.get_remove hfiled.distinct, CookieStore.lookup]
    by_cases hk : k = c.key
    · simp [hk]
    · by_cases hd : k.domain = c.domain
      · simp [hd]
      · simp [hk, hd]
  · intro d
    rw [bucketAt_upsert]
    split
    · next hd =>
        rw [hd]
        exact KeyedList.remove_sublist.length_le
    · exact Nat.le_refl _

/-! ### The earliest cookie of a bucket -/

theorem earliest_cons (c : Cookie) (cs : List Cookie) :
    ∃ e, cs.foldl (fun earliestCookie c => match earliestCookie with
        | none => some c
        | some e => if c.lastAccessTime < e.lastAccessTime then some c else some e) (some c) = some e ∧
      e ∈ c :: cs ∧ ∀ c' ∈ c :: cs, e.lastAccessTime ≤ c'.lastAccessTime := by
  induction cs generalizing c with
  | nil => exact ⟨c, rfl, by simp, by simp⟩
  | cons c' cs ih =>
    rw [foldl_cons]
    dsimp only
    split
    · next hlt =>
        obtain ⟨e, he, hmem, hle⟩ := ih c'
        refine ⟨e, he, mem_cons_of_mem _ hmem, ?_⟩
        intro x hx
        rcases List.mem_cons.mp hx with rfl | hx
        · have := hle c' mem_cons_self
          omega
        · exact hle x hx
    · next hge =>
        obtain ⟨e, he, hmem, hle⟩ := ih c
        have hfirst := hle c mem_cons_self
        refine ⟨e, he, ?_, ?_⟩
        · rcases List.mem_cons.mp hmem with rfl | hmem
          · exact mem_cons_self
          · exact mem_cons_of_mem _ (mem_cons_of_mem _ hmem)
        · intro x hx
          rcases List.mem_cons.mp hx with rfl | hx
          · exact hfirst
          · rcases List.mem_cons.mp hx with rfl | hx
            · omega
            · exact hle x (mem_cons_of_mem _ hx)

theorem earliest_spec {cs : List Cookie} (h : cs ≠ []) :
    ∃ e, earliest cs = some e ∧ e ∈ cs ∧ ∀ c ∈ cs, e.lastAccessTime ≤ c.lastAccessTime := by
  cases cs with
  | nil => exact absurd rfl h
  | cons c cs => exact earliest_cons c cs

/-! ### The queue of `purge()` -/

theorem removeLeast_eq_none : removeLeast q = none ↔ q = [] := by
  cases q with
  | nil => simp [removeLeast]
  | cons c q =>
    simp only [removeLeast]
    split
    · simp
    · split <;> simp

/-- The comparator goes by a rank on some cookies. -/
def Ranks (rank : Cookie → Int) (q : List Cookie) : Prop :=
  ∀ a ∈ q, ∀ b ∈ q, compareForRemoval a b ≤ 0 ↔ rank a ≤ rank b

theorem Ranks.subset {q' : List Cookie} (h : Ranks rank q) (hsub : q' ⊆ q) :
    Ranks rank q' := fun a ha b hb => h a (hsub ha) b (hsub hb)

theorem removeLeast_perm (h : removeLeast q = some (m, rest)) : (m :: rest).Perm q := by
  induction q generalizing m rest with
  | nil => simp [removeLeast] at h
  | cons c q ih =>
    simp only [removeLeast] at h
    split at h
    · next hnone =>
        rw [removeLeast_eq_none.mp hnone]
        cases h
        exact .refl _
    · next least others hsome =>
        split at h
        · cases h
          exact .refl _
        · cases h
          exact (List.Perm.swap _ _ _).trans ((ih hsome).cons c)

theorem removeLeast_le (h : removeLeast q = some (m, rest)) (hrank : Ranks rank q) : ∀ c ∈ q, rank m ≤ rank c := by
  induction q generalizing m rest with
  | nil => simp [removeLeast] at h
  | cons c q ih =>
    have hq : Ranks rank q := hrank.subset (subset_cons_self _ _)
    simp only [removeLeast] at h
    split at h
    · next hnone =>
        rw [removeLeast_eq_none.mp hnone]
        cases h
        simp
    · next least others hsome =>
        have hleast : least ∈ q := (removeLeast_perm hsome).subset mem_cons_self
        have hcompare := hrank c mem_cons_self least (mem_cons_of_mem _ hleast)
        split at h
        · next hle =>
            cases h
            intro x hx
            rcases List.mem_cons.mp hx with rfl | hx
            · exact Int.le_refl _
            · exact (hcompare.mp hle).trans (ih hsome hq x hx)
        · next hgt =>
            cases h
            intro x hx
            rcases List.mem_cons.mp hx with rfl | hx
            · exact Int.le_of_lt (not_le.mp fun hle => hgt (hcompare.mpr hle))
            · exact ih hsome hq x hx

/-- **The second loop of `purge()`**: it ends with the store at the threshold, and what it has taken
out ranks below what is left. -/
theorem drain_spec {queue : List Cookie} {fuel : Nat} (removed : List Cookie)
    (h : WellFormed s) (hd : KeyedList.Distinct Cookie.key queue)
    (hmem : ∀ c, c ∈ queue ↔ c ∈ s.cookies) (hcount : s.totalCount = queue.length)
    (hfuel : queue.length ≤ fuel) :
    ∃ s' es, drain fuel queue s removed = .ok (s', removed ++ es) ∧ Evict es s s' ∧
      (es.length : Int) = max 0 (s.totalCount - totalCountLowerThreshold) ∧ es ⊆ queue ∧
      ∀ rank, Ranks rank queue → ∀ e ∈ es, ∀ c ∈ s'.cookies, rank e ≤ rank c := by
  induction fuel generalizing queue s removed with
  | zero =>
    have hempty : queue = [] := List.length_eq_zero_iff.mp (by omega)
    have hlow : ¬ s.totalCount > totalCountLowerThreshold := by
      rw [hcount, hempty]
      decide
    refine ⟨s, [], ?_, .refl h, ?_, by simp, by simp⟩
    · rw [drain, if_neg hlow, append_nil]
    · simp only [length_nil]
      omega
  | succ fuel ih =>
    by_cases hhigh : s.totalCount > totalCountLowerThreshold
    swap
    · refine ⟨s, [], ?_, .refl h, ?_, by simp, by simp⟩
      · rw [drain, if_neg hhigh, append_nil]
      · simp only [length_nil]
        omega
    have hne : queue ≠ [] := by
      rintro rfl
      rw [hcount] at hhigh
      exact absurd hhigh (by decide)
    cases hleast : removeLeast queue with
    | none => exact absurd (removeLeast_eq_none.mp hleast) hne
    | some r =>
      obtain ⟨m, rest⟩ := r
      have hperm := removeLeast_perm hleast
      have hm : m ∈ s.cookies := (hmem m).mp (hperm.subset mem_cons_self)
      have hlength : rest.length + 1 = queue.length := by
        rw [← hperm.length_eq, length_cons]
      have hbucket : ∃ b, AssocList.get m.domain s.buckets = some b := by
        have hin := h.mem_cookies.mp hm
        rw [bucketAt] at hin
        cases hget : AssocList.get m.domain s.buckets with
        | none => simp [hget] at hin
        | some b => exact ⟨b, rfl⟩
      obtain ⟨b, hb⟩ := hbucket
      have hone := evict_one h hm s.reads rfl
      have hdrest := List.nodup_cons.mp (show ((m :: rest).map Cookie.key).Nodup from hd.perm hperm)
      obtain ⟨s', es, hdrain, hevict, hes, hsub, hrank⟩ := ih (removed ++ [m]) hone.wellFormed hdrest.2 (by
          intro c
          rw [hone.mem_cookies h, ← hmem, ← hperm.mem_iff]
          constructor
          · intro hc
            refine ⟨mem_cons_of_mem _ hc, ?_⟩
            rw [map_singleton, mem_singleton]
            exact fun hkey => hdrest.1 (hkey ▸ mem_map_of_mem hc)
          · rintro ⟨hc, hkey⟩
            rcases List.mem_cons.mp hc with rfl | hc
            · simp at hkey
            · exact hc)
        (by dsimp only; omega) (by omega)
      refine ⟨s', m :: es, ?_, hone.trans hevict, ?_, ?_, ?_⟩
      · rw [drain, if_pos hhigh, hleast]
        dsimp only
        rw [hb]
        rw [hdrain, append_assoc, singleton_append]
      · dsimp only at hes
        simp only [length_cons]
        omega
      · intro e he
        rcases List.mem_cons.mp he with rfl | he
        · exact hperm.subset mem_cons_self
        · exact hperm.subset (mem_cons_of_mem _ (hsub he))
      · intro rank hranks e he c hc
        rcases List.mem_cons.mp he with rfl | he
        · refine removeLeast_le hleast hranks c ((hmem c).mpr ?_)
          exact ((hone.mem_cookies h).mp ((hevict.mem_cookies hone.wellFormed).mp hc).1).1
        · refine hrank rank (hranks.subset ?_) e he c hc
          exact fun x hx => hperm.subset (mem_cons_of_mem _ hx)

end JavaFX.Webkit.CookieStore
