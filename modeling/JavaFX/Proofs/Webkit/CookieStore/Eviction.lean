/-
Bookkeeping and eviction over whole runs.

A `put` inserts its cookie, drops cookies that have expired and takes cookies out that are in
excess, so what a key leads to afterwards is known: `Update`.  A history records the calls and the
excess cookies, `latest` reads from it what was put last for a key, and the store agrees with it up
to the time of the last access and up to expiry.

The comparator of the queue narrows the difference of two times to an `int`.  It goes by the times
as long as the times of what is in the queue are less than 2^31 milliseconds apart: `Narrow`.
-/
import JavaFX.Proofs.Webkit.CookieStore.Queries

namespace JavaFX.Webkit.CookieStore

open List

open Cookie (Key)

variable {jvm : Jvm} {s s' : CookieStore}

/-! ### The property -/

/-- The totals are right, and the store is within its limits. -/
structure Bookkeeping (s : CookieStore) : Prop where
  count : s.totalCount = size s.buckets
  bucket : ∀ e ∈ s.buckets, e.2.length ≤ maxBucketSize
  total : s.totalCount ≤ totalCountUpperThreshold

/-- No cookie in excess was accessed after one that stays. -/
structure Fair (s' : CookieStore) (fromBucket : Option Cookie) (fromStore : List Cookie) : Prop where
  bucket : ∀ e ∈ fromBucket, ∀ c ∈ s'.cookies, c.domain = e.domain → e.lastAccessTime ≤ c.lastAccessTime
  store : ∀ e ∈ fromStore, ∀ c ∈ s'.cookies, e.lastAccessTime ≤ c.lastAccessTime

/-- The calls of a run and what they told, the last one first. -/
abbrev History := List (Op × Output)

/-- The cookie that was put last for a key, if it has not been evicted. -/
def latest (k : Key) : History → Option Cookie
  | [] => none
  | (.put cookie, .stored fromBucket fromStore) :: h =>
    if k ∈ (fromBucket.toList ++ fromStore).map Cookie.key then none
    else if k = cookie.key then some cookie
    else latest k h
  | _ :: h => latest k h

/-- The same cookie, apart from the time of the last access. -/
def Same (c c' : Cookie) : Prop := c' = { c with lastAccessTime := c'.lastAccessTime }

/-- The answer to a `get` is the cookie that was put last, unless it has expired. -/
def Answer (now : Int) (last answer : Option Cookie) : Prop :=
  match last with
  | none => answer = none
  | some c => if c.hasExpired now then answer = none else ∃ c', answer = some c' ∧ Same c c'

/-- What is promised of one call. -/
def Right (jvm : Jvm) (s : CookieStore) (h : History) (s' : CookieStore) : Op → Output → Prop
  | .put _, .stored fromBucket fromStore => Fair s' fromBucket fromStore
  | .get cookie, .found answer => Answer (jvm.currentTimeMillis s.reads) (latest cookie.key h) answer
  | .getAll _, .listed _ => True
  | _, _ => False

/-- Every call of a run returns and keeps what is promised. -/
def Meets (jvm : Jvm) : CookieStore → History → List Op → Prop
  | s, _, [] => Bookkeeping s
  | s, h, op :: ops => Bookkeeping s ∧ ∃ s' out, step jvm s op = .ok (s', out) ∧
      Right jvm s h s' op out ∧ Meets jvm s' ((op, out) :: h) ops

/-- Whenever a `put` finds the store full and its bucket with room for one more, the times of the
last accesses of the cookies that have not expired fit into an `int`, seen from each other. -/
def Narrow (jvm : Jvm) (s : CookieStore) : Op → Prop
  | .put cookie =>
    s.totalCount = totalCountUpperThreshold →
    (bucketAt cookie.domain s.buckets).length < maxBucketSize → lookup cookie.key s = none →
    ∀ c ∈ cookie :: s.cookies, ∀ c' ∈ cookie :: s.cookies, c.hasExpired (jvm.currentTimeMillis s.reads) = false →
      c'.hasExpired (jvm.currentTimeMillis s.reads) = false →
      c.lastAccessTime - c'.lastAccessTime < 2 ^ 31
  | _ => True

def NarrowRun (jvm : Jvm) : CookieStore → List Op → Prop
  | _, [] => True
  | s, op :: ops => Narrow jvm s op ∧
      ∀ s' out, step jvm s op = .ok (s', out) → NarrowRun jvm s' ops

/-! ### What a `put` does -/

/-- What is kept between two calls. -/
structure Limited (s : CookieStore) : Prop extends WellFormed s where
  bucket : ∀ d, (bucketAt d s.buckets).length ≤ maxBucketSize
  total : s.totalCount ≤ totalCountUpperThreshold

theorem Limited.bookkeeping (h : Limited s) : Bookkeeping s := by
  refine ⟨h.count, ?_, h.total⟩
  intro e he
  rw [← mem_bucketAt_of_entry h.keys he]
  exact h.bucket e.1

theorem Lapse.limited (h : Lapse jvm s s') (hs : Limited s) : Limited s' :=
  ⟨h.wellFormed, fun d => (h.small d).trans (hs.bucket d), h.total.trans hs.total⟩

/-- What a key leads to after a `put` that evicts some cookies. -/
def Update (jvm : Jvm) (s : CookieStore) (cookie : Cookie) (es : List Cookie) (s' : CookieStore) : Prop :=
  ∀ k, if k ∈ es.map Cookie.key then lookup k s' = none
    else lookup k s' = (if k = cookie.key then some cookie else lookup k s) ∨
      lookup k s' = none ∧ ∃ c, (if k = cookie.key then some cookie else lookup k s) = some c ∧
        c.hasExpired (jvm.currentTimeMillis s'.reads) = true

theorem update_of {cookie : Cookie} {es : List Cookie} {s₁ s₂ : CookieStore}
    (hput : ∀ k, lookup k s₁ = if k = cookie.key then some cookie else lookup k s)
    (hlapse : Lapse jvm s₁ s₂) (hevict : Evict es s₂ s') : Update jvm s cookie es s' := by
  intro k
  split
  · next hk => rw [hevict.lookup, if_pos hk]
  · next hk =>
      rw [hevict.lookup, if_neg hk, ← hput, hevict.reads]
      exact hlapse.lookup k

theorem put_expired (h : Limited s) {cookie : Cookie}
    (hexpired : cookie.hasExpired (jvm.currentTimeMillis s.reads) = true) :
    ∃ r, put jvm cookie s = .ok r ∧ Limited r.store ∧ s.reads ≤ r.store.reads ∧
      Update jvm s cookie [] r.store ∧ r.fromBucket = none ∧ r.fromStore = [] := by
  rw [put]
  rw [if_pos hexpired]
  refine ⟨_, rfl, ?_, Nat.le_succ _, ?_, rfl, rfl⟩
  · have hfiled := h.filed cookie.domain
    have hremove : Filed cookie.domain (Bucket.remove cookie (bucketAt cookie.domain s.buckets)) :=
      hfiled.sublist KeyedList.remove_sublist
    have hlength : (if (Bucket.get cookie (bucketAt cookie.domain s.buckets)).isSome then
        s.totalCount - 1 else s.totalCount) + (bucketAt cookie.domain s.buckets).length
        = s.totalCount + (Bucket.remove cookie (bucketAt cookie.domain s.buckets)).length := by
      rw [Bucket.get, Bucket.remove]
      cases hget : KeyedList.get Cookie.key cookie.key (bucketAt cookie.domain s.buckets) with
      | none =>
        rw [KeyedList.remove_of_none hget]
        rfl
      | some c =>
        have := KeyedList.length_remove hget
        rw [Option.isSome_some, if_pos rfl]
        omega
    refine ⟨h.toWellFormed.upsert _ hremove hlength, ?_, ?_⟩
    · intro d
      rw [bucketAt_upsert]
      split
      · exact KeyedList.remove_sublist.length_le.trans (h.bucket _)
      · exact h.bucket d
    · have := h.total
      dsimp only
      split <;> omega
  · intro k
    rw [lookup_upsert, Bucket.remove, KeyedList.get_remove (h.filed _).distinct]
    by_cases hk : k = cookie.key
    · refine .inr ⟨by simp [hk], cookie, by simp [hk], ?_⟩
      exact hasExpired_mono (jvm.nondecreasing (Nat.le_succ _)) hexpired
    · refine .inl ?_
      rw [lookup]
      split
      · next hd => rw [hd]
      · rfl


theorem lookup_put (cookie : Cookie) {f : Bucket → Bucket} (totalCount : Int) (reads : Nat)
    (hf : f (bucketAt cookie.domain s.buckets) = Bucket.put cookie (bucketAt cookie.domain s.buckets)) (k : Key) :
    lookup k ⟨AssocList.upsert cookie.domain [] f s.buckets, totalCount, reads⟩
      = if k = cookie.key then some cookie else lookup k s := by
  rw [lookup_upsert, hf, Bucket.put, KeyedList.get_put, lookup]
  by_cases hk : k = cookie.key
  · simp [hk]
  · by_cases hd : k.domain = cookie.domain
    · simp [hd]
    · simp [hk, hd]

variable {b : Bucket} {c' : Cookie}

theorem filed_put {cookie : Cookie} (h : Filed cookie.domain b) : Filed cookie.domain (Bucket.put cookie b) := by
  refine ⟨?_, h.distinct.put⟩
  intro c hc
  have hget := (KeyedList.get_eq_some_iff h.distinct.put).mpr ⟨hc, rfl⟩
  rw [KeyedList.get_put] at hget
  split at hget
  · next hk => rw [← Cookie.key_domain, hk, Cookie.key_domain]
  · exact h.domain c (KeyedList.mem_of_get hget).1

theorem put_replacing (h : Limited s) {cookie : Cookie}
    (hexpired : cookie.hasExpired (jvm.currentTimeMillis s.reads) = false)
    (hold : (lookup cookie.key s).isSome) :
    ∃ r, put jvm cookie s = .ok r ∧ Limited r.store ∧ s.reads ≤ r.store.reads ∧
      Update jvm s cookie [] r.store ∧ r.fromBucket = none ∧ r.fromStore = [] := by
  rw [put]
  rw [if_neg (by simp [hexpired]), if_pos (by exact hold)]
  have hlength : (Bucket.put cookie (bucketAt cookie.domain s.buckets)).length
      = (bucketAt cookie.domain s.buckets).length := by
    have hkeys := congrArg List.length (KeyedList.map_key_put (by exact hold))
    rw [length_map, length_map] at hkeys
    exact hkeys
  have hwf : WellFormed ⟨AssocList.upsert cookie.domain [] (Bucket.put cookie) s.buckets, s.totalCount, s.reads + 1⟩ :=
    h.toWellFormed.upsert _ (filed_put (h.filed _)) (by rw [hlength])
  refine ⟨_, rfl, ⟨hwf, ?_, h.total⟩, Nat.le_succ _, ?_, rfl, rfl⟩
  · intro d
    rw [bucketAt_upsert]
    split
    · rw [hlength]
      exact h.bucket _
    · exact h.bucket d
  · exact update_of (lookup_put cookie _ _ rfl) (.refl hwf) (.refl hwf)


/-! ### The purge of the store -/

theorem removeAllExpired_spec (jvm : Jvm) (entries : List (Text × Bucket)) (totalCount : Int)
    (reads : Nat) {r : List (Text × Bucket) × Int × Nat}
    (hr : removeAllExpired jvm entries totalCount reads = r) :
    AssocList.keys r.1 = AssocList.keys entries ∧
    r.2.1 + size entries = totalCount + size r.1 ∧ r.2.1 ≤ totalCount ∧ reads ≤ r.2.2 ∧
    (∀ d, (bucketAt d r.1).Sublist (bucketAt d entries) ∧ ∀ c ∈ bucketAt d entries, c ∉ bucketAt d r.1 →
        c.hasExpired (jvm.currentTimeMillis r.2.2) = true) ∧
    ∀ c ∈ r.1.flatMap (·.2), c.hasExpired (jvm.currentTimeMillis reads) = false := by
  induction entries generalizing totalCount reads r with
  | nil =>
    subst hr
    simp [removeAllExpired, AssocList.keys, size, bucketAt, AssocList.get]
  | cons e entries ih =>
    subst hr
    obtain ⟨hsub, hcount, hreads, hkept, hdropped⟩ := removeExpired_spec jvm e.2 totalCount reads
    rw [removeAllExpired]
    obtain ⟨hkeys, hcount', hle, hreads', hbuckets, hfresh⟩ := ih _ _ rfl
    rw [← hreads] at hdropped
    refine ⟨?_, ?_, ?_, ?_, ?_, ?_⟩
    · simp only [AssocList.keys, map_cons] at hkeys ⊢
      rw [hkeys]
    · simp only [size, map_cons, sum_cons] at hcount' ⊢
      omega
    · have := hsub.length_le
      exact hle.trans (by omega)
    · exact (by omega : reads ≤ (removeExpired jvm e.2 totalCount reads).reads).trans hreads'
    · intro d
      by_cases hd : e.1 = d
      · simp only [bucketAt, AssocList.get, if_pos hd]
        exact ⟨hsub, fun c hc hnot =>
          hasExpired_mono (jvm.nondecreasing hreads') (hdropped c hc hnot)⟩
      · simp only [bucketAt, AssocList.get, if_neg hd]
        exact hbuckets d
    · intro c hc
      rw [flatMap_cons, mem_append] at hc
      rcases hc with hc | hc
      · exact hkept c hc
      · have hle : jvm.currentTimeMillis reads ≤ jvm.currentTimeMillis (removeExpired jvm e.2 totalCount reads).reads :=
          jvm.nondecreasing (by omega)
        by_contra hnot
        have hexpired := hasExpired_mono hle (by simpa using hnot)
        rw [hfresh c hc] at hexpired
        cases hexpired

theorem size_perm {buckets buckets' : List (Text × Bucket)} (h : buckets'.Perm buckets) :
    size buckets' = size buckets :=
  (h.map fun e : Text × Bucket => e.2.length).sum_eq

theorem length_cookies (s : CookieStore) : s.cookies.length = size s.buckets := by
  simp [cookies, size]

theorem WellFormed.distinct_cookies (h : WellFormed s) : KeyedList.Distinct Cookie.key s.cookies := by
  have hmap : s.cookies.map Cookie.key = s.buckets.flatMap fun e => e.2.map Cookie.key := by
    rw [cookies, map_flatMap]
  rw [KeyedList.Distinct, hmap, nodup_flatMap]
  constructor
  · intro e he
    rw [← mem_bucketAt_of_entry h.keys he]
    exact (h.filed e.1).distinct
  · -- Cookies of different buckets have different domains.
    have hdomain : ∀ e ∈ s.buckets, ∀ k ∈ e.2.map Cookie.key, k.domain = e.1 := by
      intro e he k hk
      obtain ⟨c, hc, rfl⟩ := List.mem_map.mp hk
      rw [← mem_bucketAt_of_entry h.keys he] at hc
      exact (h.filed e.1).domain c hc
    refine (List.pairwise_map.mp h.keys).imp_of_mem ?_
    intro e e' he he' hne k hk hk'
    exact hne ((hdomain e he k hk).symm.trans (hdomain e' he' k hk'))

/-- **`purge()`** drops what has expired, and then the cookies with the least rank, down to the
threshold. -/
theorem purge_spec (jvm : Jvm) (h : WellFormed s) :
    ∃ s₁ s' es, purge jvm s = .ok (s', es) ∧ Lapse jvm s s₁ ∧ Evict es s₁ s' ∧
      (es.length : Int) = max 0 (s₁.totalCount - totalCountLowerThreshold) ∧
      (∀ c ∈ s₁.cookies, c.hasExpired (jvm.currentTimeMillis s.reads) = false) ∧
      es ⊆ s₁.cookies ∧
      ∀ rank, Ranks rank s₁.cookies → ∀ e ∈ es, ∀ c ∈ s'.cookies, rank e ≤ rank c := by
  have hperm := jvm.entrySet_perm s.buckets
  have hkeysPerm : (AssocList.keys (jvm.entrySet s.buckets)).Nodup :=
    (hperm.map fun e : Text × Bucket => e.1).nodup_iff.mpr h.keys
  have hsame : ∀ d, bucketAt d (jvm.entrySet s.buckets) = bucketAt d s.buckets := by
    intro d
    rw [bucketAt, AssocList.get_perm hperm h.keys, bucketAt]
  generalize hr : removeAllExpired jvm (jvm.entrySet s.buckets) s.totalCount s.reads = r
  obtain ⟨hkeys, hcount, hle, hreads, hbuckets, hfresh⟩ := removeAllExpired_spec jvm _ _ _ hr
  have hcount' := h.count
  rw [size_perm hperm] at hcount
  have hlapse : Lapse jvm s ⟨r.1, r.2.1, r.2.2⟩ := by
    refine ⟨⟨by rw [hkeys]; exact hkeysPerm, ?_, by dsimp only; omega⟩, hreads, ?_, ?_, ?_⟩
    · intro d
      have hfiled := h.filed d
      rw [← hsame] at hfiled
      exact hfiled.sublist (hbuckets d).1
    · intro k
      have hfiled := h.filed k.domain
      rw [← hsame] at hfiled
      rw [lookup, lookup, ← hsame]
      rcases KeyedList.get_of_sublist hfiled.distinct (hbuckets k.domain).1 with
        heq | ⟨hnone, c, hc, hnot, hget⟩
      · exact .inl heq
      · exact .inr ⟨hnone, c, hget, (hbuckets k.domain).2 c hc hnot⟩
    · intro d
      rw [← hsame]
      exact (hbuckets d).1.length_le
    · exact hle
  obtain ⟨s', es, hdrain, hevict, hlength, hsub, hrank⟩ := drain_spec []
    hlapse.wellFormed hlapse.wellFormed.distinct_cookies (fun c => Iff.rfl)
    (by rw [length_cookies]; exact hlapse.wellFormed.count) (Nat.le_refl _)
  refine ⟨⟨r.1, r.2.1, r.2.2⟩, s', es, ?_, hlapse, hevict, hlength, hfresh, hsub, hrank⟩
  rw [purge, hr]
  exact hdrain


/-! ### A new cookie -/

/-- Times that are less than 2^31 apart are compared as they are. -/
theorem ranks_of_narrow {q : List Cookie} (h : ∀ c ∈ q, ∀ c' ∈ q, c.lastAccessTime - c'.lastAccessTime < 2 ^ 31) :
    Ranks Cookie.lastAccessTime q := by
  intro a ha b hb
  have hab := h a ha b hb
  have hba := h b hb a ha
  have hexact : compareForRemoval a b = a.lastAccessTime - b.lastAccessTime := by
    rw [compareForRemoval, Int.bmod_eq_of_le]
    · omega
    · omega
  omega

/-- The purge of a bucket that has one cookie too many. -/
theorem purgeBucket_spec (hb : b.length = maxBucketSize + 1) (totalCount : Int)
    (reads : Nat) {r : Sweep × Option Cookie} (hr : purgeBucket jvm b totalCount reads = r) :
    ∃ kept, kept.Sublist b ∧ reads ≤ r.1.reads ∧
      (∀ c ∈ b, c ∉ kept → c.hasExpired (jvm.currentTimeMillis r.1.reads) = true) ∧
      (r.2 = none ∧ r.1.kept = kept ∧ r.1.totalCount + b.length = totalCount + kept.length ∧
          kept.length ≤ maxBucketSize ∨
        ∃ e ∈ kept, r.2 = some e ∧ r.1.kept = Bucket.remove e kept ∧
          r.1.totalCount + 1 + b.length = totalCount + kept.length ∧ kept.length = b.length ∧
          ∀ c ∈ kept, e.lastAccessTime ≤ c.lastAccessTime) := by
  subst hr
  obtain ⟨hsub, hcount, hreads, -, hdropped⟩ := removeExpired_spec jvm b totalCount reads
  have hle := hsub.length_le
  rw [← hreads] at hdropped
  rw [purgeBucket]
  split
  · next hmany =>
      have hne : (removeExpired jvm b totalCount reads).kept ≠ [] := by
        intro hempty
        simp [hempty] at hmany
      obtain ⟨e, he, hmem, hearliest⟩ := earliest_spec hne
      rw [he]
      refine ⟨_, hsub, by dsimp only; omega, hdropped, .inr ⟨e, hmem, rfl, rfl, ?_, ?_, hearliest⟩⟩
      · dsimp only
        omega
      · omega
  · next hfew =>
      exact ⟨_, hsub, by dsimp only; omega, hdropped, .inl ⟨rfl, rfl, hcount, by omega⟩⟩


/-- The store with one more cookie. -/
def inserted (cookie : Cookie) (s : CookieStore) : CookieStore where
  buckets := AssocList.upsert cookie.domain [] (fun _ => Bucket.put cookie (bucketAt cookie.domain s.buckets)) s.buckets
  totalCount := s.totalCount + 1
  reads := s.reads + 1

theorem lookup_inserted (cookie : Cookie) (s : CookieStore) (k : Key) :
    lookup k (inserted cookie s) = if k = cookie.key then some cookie else lookup k s :=
  lookup_put (f := fun _ => Bucket.put cookie (bucketAt cookie.domain s.buckets)) cookie _ _ rfl k

section
variable {cookie : Cookie} (h : Limited s) (hnew : lookup cookie.key s = none)
include h hnew

omit h in
theorem length_put_new : (Bucket.put cookie (bucketAt cookie.domain s.buckets)).length
    = (bucketAt cookie.domain s.buckets).length + 1 := by
  have heq : Bucket.put cookie (bucketAt cookie.domain s.buckets)
      = bucketAt cookie.domain s.buckets ++ [cookie] := KeyedList.put_of_none hnew
  rw [heq, length_append, length_singleton]

theorem inserted_wellFormed : WellFormed (inserted cookie s) := by
  refine h.toWellFormed.upsert _ (filed_put (h.filed _)) ?_
  rw [length_put_new hnew]
  omega

omit h in
theorem put_eq_putNew (hexpired : cookie.hasExpired (jvm.currentTimeMillis s.reads) = false) :
    put jvm cookie s = putNew jvm cookie (Bucket.put cookie (bucketAt cookie.domain s.buckets))
      { s with reads := s.reads + 1 } := by
  rw [put]
  rw [if_neg (by simp [hexpired]), if_neg]
  · rfl
  · rw [Bool.not_eq_true, Option.isSome_eq_false_iff, Option.isNone_iff_eq_none]
    exact hnew

omit h in
theorem putNew_of_room (hroom : (bucketAt cookie.domain s.buckets).length < maxBucketSize) :
    putNew jvm cookie (Bucket.put cookie (bucketAt cookie.domain s.buckets)) { s with reads := s.reads + 1 }
      = if s.totalCount + 1 > totalCountUpperThreshold then
          (purge jvm (inserted cookie s)).map fun r => ⟨r.1, none, r.2⟩
        else .ok ⟨inserted cookie s, none, []⟩ := by
  have hlength := length_put_new hnew
  have hsmall : ¬ (Bucket.put cookie (bucketAt cookie.domain s.buckets)).length > maxBucketSize := by
    omega
  simp only [putNew, if_neg hsmall]
  rfl

theorem inserted_bucket (hroom : (bucketAt cookie.domain s.buckets).length < maxBucketSize) (d : Text) :
    (bucketAt d (inserted cookie s).buckets).length ≤ maxBucketSize := by
  rw [inserted, bucketAt_upsert]
  split
  · rw [length_put_new hnew]
    omega
  · exact h.bucket d

theorem putNew_of_full (jvm : Jvm) (hfull : (bucketAt cookie.domain s.buckets).length = maxBucketSize) :
    ∃ r, putNew jvm cookie (Bucket.put cookie (bucketAt cookie.domain s.buckets))
        { s with reads := s.reads + 1 } = .ok r ∧ Limited r.store ∧ s.reads ≤ r.store.reads ∧
      Update jvm s cookie (r.fromBucket.toList ++ r.fromStore) r.store ∧
      Fair r.store r.fromBucket r.fromStore := by
  have hlength := length_put_new hnew
  have htotal := h.total
  have hwf := inserted_wellFormed h hnew
  have hinserted : bucketAt cookie.domain (inserted cookie s).buckets
      = Bucket.put cookie (bucketAt cookie.domain s.buckets) := by
    rw [inserted, bucketAt_upsert, if_pos rfl]
  generalize hr : purgeBucket jvm (Bucket.put cookie (bucketAt cookie.domain s.buckets))
    (s.totalCount + 1) (s.reads + 1) = r
  obtain ⟨kept, hsub, hreads, hdropped, hcases⟩ := purgeBucket_spec (by omega) _ _ hr
  have hmany : (Bucket.put cookie (bucketAt cookie.domain s.buckets)).length > maxBucketSize := by omega
  -- The bucket without what has expired.
  have hsame : AssocList.upsert cookie.domain [] (fun _ => kept) (inserted cookie s).buckets
      = AssocList.upsert cookie.domain [] (fun _ => kept) s.buckets := by
    rw [inserted, AssocList.upsert_upsert]
    rfl
  have hlapse : Lapse jvm (inserted cookie s) ⟨AssocList.upsert cookie.domain [] (fun _ => kept)
      s.buckets, s.totalCount + kept.length - maxBucketSize, r.1.reads⟩ := by
    rw [← hsame]
    refine lapse_bucket hwf hinserted hsub ?_ hreads hdropped
    simp only [inserted]
    omega
  have hat : bucketAt cookie.domain (AssocList.upsert cookie.domain [] (fun _ => kept) s.buckets)
      = kept := by rw [bucketAt_upsert, if_pos rfl]
  have hother : ∀ d, d ≠ cookie.domain → (bucketAt d (AssocList.upsert cookie.domain []
      (fun _ => kept) s.buckets)).length ≤ maxBucketSize := by
    intro d hd
    rw [bucketAt_upsert, if_neg hd]
    exact h.bucket d
  have hput := lookup_inserted cookie s
  rw [putNew]
  simp only [if_pos hmany, hr]
  rcases hcases with ⟨hnone, hkept, hcount, hfew⟩ | ⟨e, he, hsome, hkept, hcount, hall, hearliest⟩
  · have hlow : ¬ r.1.totalCount > totalCountUpperThreshold := by omega
    have htc : r.1.totalCount = s.totalCount + kept.length - maxBucketSize := by omega
    rw [if_neg hlow, hnone, hkept, htc]
    refine ⟨_, rfl, ⟨hlapse.wellFormed, ?_, by dsimp only; omega⟩, by dsimp only; omega,
      update_of hput hlapse (.refl hlapse.wellFormed), ⟨by simp, by simp⟩⟩
    intro d
    by_cases hd : d = cookie.domain
    · rw [hd]
      dsimp only
      rw [hat]
      exact hfew
    · exact hother d hd
  · have hlow : ¬ r.1.totalCount > totalCountUpperThreshold := by omega
    have hdomain : e.domain = cookie.domain :=
      (filed_put (h.filed cookie.domain)).domain e (hsub.subset he)
    have hstored : e ∈ cookies ⟨AssocList.upsert cookie.domain [] (fun _ => kept) s.buckets,
        s.totalCount + kept.length - maxBucketSize, r.1.reads⟩ := by
      rw [hlapse.wellFormed.mem_cookies, hdomain]
      dsimp only
      rw [hat]
      exact he
    have hevict := evict_one hlapse.wellFormed hstored r.1.reads rfl
    have htc : s.totalCount + kept.length - maxBucketSize - 1 = r.1.totalCount := by omega
    simp only [hdomain, AssocList.upsert_upsert, htc] at hevict
    rw [if_neg hlow, hsome, hkept]
    refine ⟨_, rfl, ⟨hevict.wellFormed, ?_, by dsimp only; omega⟩, by dsimp only; omega,
      update_of hput hlapse hevict, ⟨?_, by simp⟩⟩
    · intro d
      by_cases hd : d = cookie.domain
      · have hremove := KeyedList.length_remove
          ((KeyedList.get_eq_some_iff ((filed_put (h.filed cookie.domain)).sublist hsub).distinct).mpr ⟨he, rfl⟩)
        rw [hd]
        rw [bucketAt_upsert, if_pos rfl, Bucket.remove]
        omega
      · exact (hevict.small d).trans (hother d hd)
    · intro e' he' c hc hcd
      obtain rfl : e = e' := by simpa using he'
      refine hearliest c ?_
      have hc' := ((hevict.mem_cookies hlapse.wellFormed).mp hc).1
      rw [hlapse.wellFormed.mem_cookies, hcd, hdomain] at hc'
      rw [hat] at hc'
      exact hc'

end


/-- **What a `put` does.** -/
theorem put_spec (jvm : Jvm) (h : Limited s) (cookie : Cookie) :
    ∃ r, put jvm cookie s = .ok r ∧ Limited r.store ∧ s.reads ≤ r.store.reads ∧
      Update jvm s cookie (r.fromBucket.toList ++ r.fromStore) r.store ∧
      (Narrow jvm s (.put cookie) → Fair r.store r.fromBucket r.fromStore) := by
  by_cases hexpired : cookie.hasExpired (jvm.currentTimeMillis s.reads) = true
  · obtain ⟨r, hput, hlimited, hreads, hupdate, hb, hs⟩ := put_expired h hexpired
    refine ⟨r, hput, hlimited, hreads, ?_, fun _ => ?_⟩
    · rw [hb, hs]
      exact hupdate
    · rw [hb, hs]
      exact ⟨by simp, by simp⟩
  rw [Bool.not_eq_true] at hexpired
  cases hold : lookup cookie.key s with
  | some old =>
    obtain ⟨r, hput, hlimited, hreads, hupdate, hb, hs⟩ := put_replacing h hexpired (by rw [hold]; rfl)
    refine ⟨r, hput, hlimited, hreads, ?_, fun _ => ?_⟩
    · rw [hb, hs]
      exact hupdate
    · rw [hb, hs]
      exact ⟨by simp, by simp⟩
  | none =>
    rw [put_eq_putNew hold hexpired]
    by_cases hroom : (bucketAt cookie.domain s.buckets).length < maxBucketSize
    swap
    · have hle := h.bucket cookie.domain
      obtain ⟨r, hput, hlimited, hreads, hupdate, hfair⟩ :=
        putNew_of_full h hold jvm (by omega)
      exact ⟨r, hput, hlimited, hreads, hupdate, fun _ => hfair⟩
    have hwf := inserted_wellFormed h hold
    have hlookup := lookup_inserted cookie s
    rw [putNew_of_room hold hroom]
    have hreads : s.reads ≤ (inserted cookie s).reads := Nat.le_succ _
    split
    · next hmany =>
        have htotal := h.total
        obtain ⟨s₁, s', es, hpurge, hlapse, hevict, hlength, hfresh, hsub, hrank⟩ :=
          purge_spec jvm hwf
        rw [hpurge]
        refine ⟨_, rfl, ⟨hevict.wellFormed, ?_, ?_⟩, ?_, update_of hlookup hlapse hevict, ?_⟩
        · intro d
          exact ((hevict.small d).trans (hlapse.small d)).trans (inserted_bucket h hold hroom d)
        · have := hevict.total
          simp only [totalCountLowerThreshold, totalCountUpperThreshold] at hlength ⊢
          omega
        · rw [hevict.reads]
          exact hreads.trans hlapse.reads
        · intro hnarrow
          refine ⟨by simp, ?_⟩
          -- What is in the queue was stored before or is the new cookie.
          have hmem : ∀ c ∈ s₁.cookies, c ∈ cookie :: s.cookies ∧
              c.hasExpired (jvm.currentTimeMillis s.reads) = false := by
            intro c hc
            have hin := hwf.lookup_eq_some.mpr ⟨hlapse.mem_cookies hwf hc, rfl⟩
            rw [hlookup] at hin
            constructor
            · split at hin
              · cases hin
                exact mem_cons_self
              · exact mem_cons_of_mem _ (h.toWellFormed.lookup_eq_some.mp hin).1
            · by_contra hnot
              have := hasExpired_mono (jvm.nondecreasing hreads) (by simpa using hnot)
              rw [hfresh c hc] at this
              cases this
          refine hrank _ (ranks_of_narrow ?_)
          intro c hc c' hc'
          exact hnarrow (by omega) hroom hold c (hmem c hc).1 c' (hmem c' hc').1 (hmem c hc).2 (hmem c' hc').2
    · next hfew =>
        refine ⟨_, rfl, ⟨hwf, inserted_bucket h hold hroom, ?_⟩, hreads,
          update_of hlookup (.refl hwf) (.refl hwf), fun _ => ⟨by simp, by simp⟩⟩
        simp only [inserted]
        omega


/-! ### Runs -/

/-- What is stored for a key, against what was put last for it. -/
def AgreesAt (now : Int) : Option Cookie → Option Cookie → Prop
  | none, stored => stored = none
  | some c, stored => (∃ c', stored = some c' ∧ Same c c') ∨ stored = none ∧ c.hasExpired now = true

/-- The store agrees with the history. -/
def Agrees (jvm : Jvm) (s : CookieStore) (h : History) : Prop :=
  ∀ k, AgreesAt (jvm.currentTimeMillis s.reads) (latest k h) (lookup k s)

theorem Same.refl (c : Cookie) : Same c c := rfl

variable {c : Cookie} {k : Nat}

theorem Same.hasExpired (h : Same c c') (now : Int) : c'.hasExpired now = c.hasExpired now := by
  rw [show c'.hasExpired now = _ from congrArg (Cookie.hasExpired now) h]
  rfl

theorem Same.access (h : Same c c') (result : List Cookie) (now : Int) : Same c (access result now c') := by
  unfold CookieStore.access
  split
  · unfold Same at h ⊢
    rw [h]
  · exact h

section
variable {now now' : Int} {last stored stored' : Option Cookie}

section

variable (h : AgreesAt now last stored)
include h

theorem AgreesAt.mono (hle : now ≤ now') : AgreesAt now' last stored := by
  cases last with
  | none => exact h
  | some c => exact h.imp_right fun ⟨hnone, hexpired⟩ => ⟨hnone, hasExpired_mono hle hexpired⟩

/-- Nothing happens to a key, or what is stored there has expired. -/
theorem AgreesAt.lapse (hle : now ≤ now')
    (hstored : stored' = stored ∨ stored' = none ∧ ∃ c, stored = some c ∧ c.hasExpired now' = true) :
    AgreesAt now' last stored' := by
  rcases hstored with rfl | ⟨rfl, c', rfl, hexpired⟩
  · exact h.mono hle
  · cases last with
    | none => cases h
    | some c =>
      rcases h with ⟨c'', heq, hsame⟩ | ⟨hnone, -⟩
      · cases heq
        exact .inr ⟨rfl, hsame.hasExpired now' ▸ hexpired⟩
      · cases hnone

theorem AgreesAt.access (result : List Cookie) (t : Int) :
    AgreesAt now last (stored.map (CookieStore.access result t)) := by
  cases last with
  | none => rw [show stored = none from h]; rfl
  | some c =>
    rcases h with ⟨c', rfl, hsame⟩ | ⟨rfl, hexpired⟩
    · exact .inl ⟨_, rfl, hsame.access result t⟩
    · exact .inr ⟨rfl, hexpired⟩

theorem AgreesAt.answer :
    Answer now last (stored.filter fun c => !c.hasExpired now) := by
  cases last with
  | none => rw [show stored = none from h]; rfl
  | some c =>
    unfold Answer
    rcases h with ⟨c', rfl, hsame⟩ | ⟨rfl, hexpired⟩
    · simp only [Option.filter_some, hsame.hasExpired]
      split
      · next hexpired => simp [hexpired]
      · next hexpired => exact ⟨c', by simp [hexpired], hsame⟩
    · simp [hexpired]

end

end

theorem Agrees.put {h : History} (hagrees : Agrees jvm s h) {cookie : Cookie}
    {fromBucket : Option Cookie} {fromStore : List Cookie} (hreads : s.reads ≤ s'.reads)
    (hupdate : Update jvm s cookie (fromBucket.toList ++ fromStore) s') :
    Agrees jvm s' ((.put cookie, .stored fromBucket fromStore) :: h) := by
  intro k
  have hk := hupdate k
  rw [latest]
  split at hk
  · next hin =>
      rw [if_pos hin]
      exact hk
  · next hin =>
      rw [if_neg hin]
      by_cases hkey : k = cookie.key
      · rw [if_pos hkey] at hk ⊢
        have hself : AgreesAt (jvm.currentTimeMillis s.reads) (some cookie) (some cookie) :=
          .inl ⟨cookie, rfl, .refl cookie⟩
        exact hself.lapse (jvm.nondecreasing hreads) hk
      · rw [if_neg hkey] at hk ⊢
        exact (hagrees k).lapse (jvm.nondecreasing hreads) hk

/-- **One call**, from a store that agrees with its history. -/
theorem step_right {h : History} (hs : Limited s) (hagrees : Agrees jvm s h) (op : Op) (hnarrow : Narrow jvm s op) :
    ∃ s' out, step jvm s op = .ok (s', out) ∧ Right jvm s h s' op out ∧ Limited s' ∧
      Agrees jvm s' ((op, out) :: h) := by
  cases op with
  | put cookie =>
    obtain ⟨r, hput, hlimited, hreads, hupdate, hfair⟩ := put_spec jvm hs cookie
    refine ⟨r.store, .stored r.fromBucket r.fromStore, ?_, hfair hnarrow, hlimited, hagrees.put hreads hupdate⟩
    rw [step, hput]
    rfl
  | get cookie =>
    obtain ⟨hlapse, hanswer⟩ := get_spec jvm hs.toWellFormed cookie
    refine ⟨_, _, rfl, ?_, hlapse.limited hs, ?_⟩
    · rw [hanswer]
      exact (hagrees cookie.key).answer
    · exact fun k => (hagrees k).lapse (jvm.nondecreasing hlapse.reads) (hlapse.lookup k)
  | getAll q =>
    obtain ⟨found, hfound, hlapse, hwf, hreads, htotal, hsmall, hlookup⟩ :=
      getAll_spec jvm q hs.toWellFormed
    have hlimited := hlapse.limited hs
    refine ⟨_, _, rfl, trivial, ⟨hwf, ?_, ?_⟩, ?_⟩
    · intro d
      rw [hsmall]
      exact hlimited.bucket d
    · rw [htotal]
      exact hlimited.total
    · intro k
      have hmid := (hagrees k).lapse (jvm.nondecreasing hlapse.reads) (hlapse.lookup k)
      rw [hlookup, hreads]
      exact (hmid.mono (jvm.nondecreasing (Nat.le_succ _))).access _ _

theorem meets_of_narrow {h : History} (hs : Limited s) (hagrees : Agrees jvm s h) {ops : List Op}
    (hnarrow : NarrowRun jvm s ops) : Meets jvm s h ops := by
  induction ops generalizing s h with
  | nil => exact hs.bookkeeping
  | cons op ops ih =>
    obtain ⟨s', out, hstep, hright, hs', hagrees'⟩ := step_right hs hagrees op hnarrow.1
    exact ⟨hs.bookkeeping, s', out, hstep, hright, ih hs' hagrees' (hnarrow.2 s' out hstep)⟩

/-- The key of the cookie that a call stores. -/
def Op.storedKey : Op → Option Key
  | .put cookie => some cookie.key
  | _ => none

theorem latest_none {k : Key} {h : History} (hk : k ∉ h.filterMap fun call => call.1.storedKey) :
    latest k h = none := by
  induction h with
  | nil => rfl
  | cons call h ih =>
    obtain ⟨op, out⟩ := call
    cases op with
    | put cookie =>
      simp only [filterMap_cons, Op.storedKey, mem_cons, not_or] at hk
      cases out with
      | stored fromBucket fromStore => rw [latest, if_neg hk.1, ih hk.2, ite_self]
      | found _ => exact ih hk.2
      | listed _ => exact ih hk.2
    | get cookie => exact ih hk
    | getAll q => exact ih hk

/-- No more is stored than has been put. -/
theorem Agrees.totalCount_le {h : History} (hs : WellFormed s) (hagrees : Agrees jvm s h) :
    s.totalCount ≤ h.length := by
  have hsub : s.cookies.map Cookie.key ⊆ h.filterMap fun call => call.1.storedKey := by
    intro k hk
    obtain ⟨c, hc, rfl⟩ := List.mem_map.mp hk
    by_contra hnot
    have hat := hagrees c.key
    rw [latest_none hnot, hs.lookup_eq_some.mpr ⟨hc, rfl⟩] at hat
    cases hat
  have hle := (subperm_of_subset hs.distinct_cookies hsub).length_le
  have hle' := length_filterMap_le (fun call : Op × Output => call.1.storedKey) h
  rw [length_map, length_cookies] at hle
  rw [hs.count]
  exact_mod_cast hle.trans hle'

/-- **A short run** never finds the store full. -/
theorem narrowRun_of_length {h : History} (hs : Limited s) (hagrees : Agrees jvm s h) {ops : List Op}
    (hlength : ((h.length + ops.length : Nat) : Int) ≤ totalCountUpperThreshold) : NarrowRun jvm s ops := by
  induction ops generalizing s h with
  | nil => trivial
  | cons op ops ih =>
    have hcount := hagrees.totalCount_le hs.toWellFormed
    rw [length_cons] at hlength
    have hnarrow : Narrow jvm s op := by
      cases op with
      | put cookie =>
        intro hfull
        omega
      | get cookie => trivial
      | getAll q => trivial
    refine ⟨hnarrow, ?_⟩
    intro s' out hstep
    obtain ⟨s'', out', hstep', -, hs', hagrees'⟩ := step_right hs hagrees op hnarrow
    cases hstep.symm.trans hstep'
    refine ih hs' hagrees' ?_
    rw [length_cons]
    omega

theorem new_limited : Limited new :=
  ⟨new_wellFormed, fun _ => Nat.zero_le _, by decide⟩

/-- **The store keeps its books**, evicts the cookies that were accessed first and returns what was
put last, in every run in which a full store is purged only when the times of the last accesses are
less than 2^31 milliseconds apart. -/
theorem run_meets (jvm : Jvm) {ops : List Op} (hnarrow : NarrowRun jvm new ops) : Meets jvm new [] ops :=
  meets_of_narrow new_limited (show Agrees jvm new [] from fun _ => rfl) hnarrow

/-- A cookie of a single domain, accessed at a time of its own. -/
def visitCookie (i : Nat) : Cookie where
  name := List.replicate (i + 1) (unit 'n')
  value := units "1"
  expiryTime := 100
  domain := units "host"
  path := units "/"
  creationTime := ⟨0, 0⟩
  lastAccessTime := i
  hostOnly := true
  secureOnly := false
  httpOnly := false

def visits : List Op := (range 51).map fun i => .put (visitCookie i)

/-- What a run leaves. -/
def after (jvm : Jvm) (s : CookieStore) (ops : List Op) : Except JavaException CookieStore :=
  ops.foldlM (fun s op => (step jvm s op).map (·.1)) s

/-- One cookie more than a bucket holds: the first one, accessed before all others, is gone. -/
theorem run_meets_eviction :
    Meets (.ascii (fun _ => 1) monotone_const fun _ => by decide) new []
        (visits ++ [.get (visitCookie 0), .get (visitCookie 1)]) ∧
      (after (.ascii (fun _ => 1) monotone_const fun _ => by decide) new visits).map
        (fun s => ((range 51).filter fun i => (lookup (visitCookie i).key s).isNone,
          s.totalCount)) = .ok ([0], 50) := by
  refine ⟨run_meets _ (narrowRun_of_length new_limited (show Agrees _ new [] from fun _ => rfl) (by decide)), ?_⟩
  decide +kernel

/-! ### Cookies of different months -/

/-- The clock after 2^31 + 1 milliseconds, from the second reading on. -/
def laterClock (k : Nat) : Int := if k = 0 then 0 else 2 ^ 31 + 1

theorem laterClock_mono : Monotone laterClock := by
  intro i j h
  unfold laterClock
  split
  · split <;> simp
  · rw [if_neg (by omega)]

def laterJvm : Jvm := .ascii laterClock laterClock_mono (by
  intro k
  unfold laterClock maxLong
  split <;> decide)

def oldCookie : Cookie :=
  ⟨units "a", units "1", maxLong, units "a", units "/", ⟨0, 0⟩, 0, true, false, false⟩

/-- The `i`-th of many cookies, fifty to a domain. -/
def youngCookie (i : Nat) : Cookie where
  name := List.replicate (i % 50 + 1) (unit 'n')
  value := units "1"
  expiryTime := maxLong
  domain := List.replicate (i / 50 + 1) (unit 'b')
  path := units "/"
  creationTime := ⟨2 ^ 31 + 1, 0⟩
  lastAccessTime := 2 ^ 31 + 1
  hostOnly := true
  secureOnly := false
  httpOnly := false

/-- The store after `k` of them. -/
structure Filling (k : Nat) (s : CookieStore) : Prop extends Limited s where
  total_eq : s.totalCount = k + 1
  mem : ∀ c, c ∈ s.cookies ↔ c = oldCookie ∨ ∃ i < k, c = youngCookie i
  length : ∀ j, (bucketAt (List.replicate (j + 1) (unit 'b')) s.buckets).length = min 50 (k - 50 * j)

theorem youngCookie_key {i j : Nat} (h : (youngCookie i).key = (youngCookie j).key) : i = j := by
  have hname := congrArg (fun k => k.name.length) h
  have hdomain := congrArg (fun k => k.domain.length) h
  simp only [Cookie.key, youngCookie, length_replicate] at hname hdomain
  omega

theorem youngCookie_ne_old (i : Nat) : (youngCookie i).domain ≠ oldCookie.domain := by
  intro h
  have hin : unit 'a' ∈ (youngCookie i).domain := by
    rw [h]
    simp [oldCookie, units]
  have := eq_of_mem_replicate hin
  exact absurd this (by decide)

theorem not_expired_max (h : c.expiryTime = maxLong) (k : Nat) :
    c.hasExpired (laterJvm.currentTimeMillis k) = false := by
  have := laterJvm.currentTimeMillis_le k
  simp only [Cookie.hasExpired, decide_eq_false_iff_not]
  omega

theorem filling_zero : Filling 0 (inserted oldCookie new) := by
  have hwf := inserted_wellFormed new_limited (show lookup oldCookie.key new = none from rfl)
  refine ⟨⟨hwf, inserted_bucket new_limited rfl (by decide), by decide⟩, rfl, ?_, ?_⟩
  · intro c
    have hcookies : (inserted oldCookie new).cookies = [oldCookie] := by decide +kernel
    rw [hcookies]
    simp
  · intro j
    rw [inserted, bucketAt_upsert, if_neg]
    · simp [new, bucketAt, AssocList.get]
    · exact youngCookie_ne_old (50 * j) ∘ fun h => by
        rw [← h]
        simp [youngCookie]

theorem Filling.room (h : Filling k s) : (bucketAt (youngCookie k).domain s.buckets).length < maxBucketSize ∧
      lookup (youngCookie k).key s = none := by
  constructor
  · have := h.length (k / 50)
    show (bucketAt (replicate (k / 50 + 1) (unit 'b')) s.buckets).length < 50
    omega
  · cases hlookup : lookup (youngCookie k).key s with
    | none => rfl
    | some c =>
      obtain ⟨hc, hkey⟩ := h.toWellFormed.lookup_eq_some.mp hlookup
      rcases (h.mem c).mp hc with rfl | ⟨i, hi, rfl⟩
      · have := congrArg Key.domain hkey
        exact absurd this.symm (youngCookie_ne_old k)
      · have := youngCookie_key hkey
        omega

theorem Filling.mem_inserted (h : Filling k s) (c : Cookie) :
    c ∈ (inserted (youngCookie k) s).cookies ↔ c = oldCookie ∨ ∃ i < k + 1, c = youngCookie i := by
  have hwf := inserted_wellFormed h.toLimited h.room.2
  have hiff : c ∈ (inserted (youngCookie k) s).cookies ↔ lookup c.key (inserted (youngCookie k) s) = some c := by
    rw [hwf.lookup_eq_some]
    simp
  rw [hiff, lookup_inserted]
  split
  · next hkey =>
      constructor
      · intro heq
        cases heq
        exact .inr ⟨k, by omega, rfl⟩
      · rintro (rfl | ⟨i, -, rfl⟩)
        · exact absurd (congrArg Key.domain hkey).symm (youngCookie_ne_old k)
        · rw [youngCookie_key hkey]
  · next hkey =>
      rw [h.toWellFormed.lookup_eq_some, h.mem]
      constructor
      · rintro ⟨hold | ⟨i, hi, hc⟩, -⟩
        · exact .inl hold
        · exact .inr ⟨i, by omega, hc⟩
      · rintro (hold | ⟨i, hi, rfl⟩)
        · exact ⟨.inl hold, rfl⟩
        · refine ⟨.inr ⟨i, ?_, rfl⟩, rfl⟩
          have : i ≠ k := by
            rintro rfl
            exact hkey rfl
          omega

theorem Filling.next (h : Filling k s) (hk : k < 3999) :
    put laterJvm (youngCookie k) s = .ok ⟨inserted (youngCookie k) s, none, []⟩ ∧
      Filling (k + 1) (inserted (youngCookie k) s) := by
  obtain ⟨hroom, hnew⟩ := h.room
  have htotal := h.total_eq
  have hlow : ¬ s.totalCount + 1 > totalCountUpperThreshold := by
    rw [totalCountUpperThreshold]
    omega
  constructor
  · rw [put_eq_putNew hnew (not_expired_max rfl _), putNew_of_room hnew hroom, if_neg hlow]
  · refine ⟨⟨inserted_wellFormed h.toLimited hnew, inserted_bucket h.toLimited hnew hroom, ?_⟩, ?_, h.mem_inserted, ?_⟩
    · exact not_lt.mp hlow
    · simp only [inserted]
      omega
    · intro j
      have hj := h.length j
      have hlength := length_put_new hnew
      rw [inserted, bucketAt_upsert]
      split
      · next heq =>
          have hlen := congrArg List.length heq
          simp only [youngCookie, length_replicate] at hlen
          rw [hlength, ← heq]
          omega
      · next hne =>
          have hlen : j ≠ k / 50 := by
            rintro rfl
            exact hne rfl
          omega

theorem Filling.purged (h : Filling 3999 s) :
    ∃ r, put laterJvm (youngCookie 3999) s = .ok r ∧ oldCookie ∈ r.store.cookies ∧
      ∃ i, youngCookie i ∈ r.fromStore := by
  obtain ⟨hroom, hnew⟩ := h.room
  have htotal := h.total_eq
  have hwf := inserted_wellFormed h.toLimited hnew
  have hhigh : s.totalCount + 1 > totalCountUpperThreshold := by
    rw [totalCountUpperThreshold]
    omega
  obtain ⟨s₁, s', es, hpurge, hlapse, hevict, hlength, -, hsub, hrank⟩ := purge_spec laterJvm hwf
  -- No cookie has expired.
  have hmem : ∀ c, c ∈ s₁.cookies ↔ c = oldCookie ∨ ∃ i < 4000, c = youngCookie i := by
    intro c
    rw [← h.mem_inserted c]
    refine ⟨hlapse.mem_cookies hwf, fun hc => hlapse.survives hwf hc (not_expired_max ?_ _)⟩
    rcases (h.mem_inserted c).mp hc with rfl | ⟨i, -, rfl⟩ <;> rfl
  have hsize : s₁.totalCount = 4001 := by
    have hperm : s₁.cookies.Perm (inserted (youngCookie 3999) s).cookies :=
      (perm_ext_iff_of_nodup hlapse.wellFormed.distinct_cookies.nodup
        hwf.distinct_cookies.nodup).mpr fun c => by rw [hmem, h.mem_inserted]
    have hcount := hperm.length_eq
    have h₁ := hlapse.wellFormed.count
    have h₂ := hwf.count
    rw [length_cookies, length_cookies] at hcount
    simp only [inserted] at h₂ hcount
    omega
  have hnumber : es.length = 1001 := by
    rw [totalCountLowerThreshold] at hlength
    omega
  -- Seen from each other the times have the wrong sign.
  have hranks : Ranks (fun c => -c.lastAccessTime) s₁.cookies := by
    have hvalues : ∀ c ∈ s₁.cookies, c.lastAccessTime = 0 ∨ c.lastAccessTime = 2 ^ 31 + 1 := by
      intro c hc
      rcases (hmem c).mp hc with rfl | ⟨i, -, rfl⟩
      · exact .inl rfl
      · exact .inr rfl
    intro a ha b hb
    unfold compareForRemoval
    dsimp only
    rcases hvalues a ha with hx | hx <;> rcases hvalues b hb with hy | hy <;>
      rw [hx, hy] <;> decide
  have hold : oldCookie ∈ s'.cookies := by
    rw [hevict.mem_cookies hlapse.wellFormed]
    refine ⟨(hmem _).mpr (.inl rfl), ?_⟩
    intro hin
    obtain ⟨e, he, hkey⟩ := List.mem_map.mp hin
    have hcount := hevict.total
    have hempty : s'.cookies = [] := by
      rw [eq_nil_iff_forall_not_mem]
      intro c hc
      have hle := hrank _ hranks e he c hc
      obtain ⟨hc', hnot⟩ := (hevict.mem_cookies hlapse.wellFormed).mp hc
      rcases (hmem e).mp (hsub he) with rfl | ⟨i, -, rfl⟩
      · rcases (hmem c).mp hc' with rfl | ⟨j, -, rfl⟩
        · exact hnot hin
        · simp [oldCookie, youngCookie] at hle
      · exact absurd (congrArg Key.domain hkey) (youngCookie_ne_old i)
    have hzero := hevict.wellFormed.count
    rw [← length_cookies, hempty] at hzero
    simp at hzero
    omega
  refine ⟨⟨s', none, es⟩, ?_, hold, ?_⟩
  · rw [put_eq_putNew hnew (not_expired_max rfl _), putNew_of_room hnew hroom, if_pos hhigh, hpurge]
    rfl
  · obtain ⟨e, he⟩ := exists_mem_of_length_pos (by omega : 0 < es.length)
    rcases (hmem e).mp (hsub he) with rfl | ⟨i, -, rfl⟩
    · have := ((hevict.mem_cookies hlapse.wellFormed).mp hold).2
      exact absurd (mem_map_of_mem he) this
    · exact ⟨i, he⟩

/-- A run that puts one cookie and, 2^31 + 1 milliseconds later, four thousand others. -/
def monthsApart : List Op := .put oldCookie :: (List.range' 0 4000).map fun i => .put (youngCookie i)

theorem Filling.run {n : Nat} (hn : k + n = 3999) {h : History} (hs : Filling k s)
    (hmeets : Meets laterJvm s h ((range' k (n + 1)).map fun i => .put (youngCookie i))) : False := by
  induction n generalizing k s h with
  | zero =>
    obtain rfl : k = 3999 := by omega
    obtain ⟨-, s', out, hstep, hright, -⟩ := hmeets
    obtain ⟨r, hput, hold, i, hi⟩ := hs.purged
    rw [step, hput] at hstep
    cases hstep
    have hle : (2 ^ 31 + 1 : Int) ≤ 0 := hright.store _ hi _ hold
    exact absurd hle (by decide)
  | succ n ih =>
    obtain ⟨hput, hnext⟩ := hs.next (by omega)
    obtain ⟨-, s', out, hstep, -, hrest⟩ := hmeets
    rw [step, hput] at hstep
    cases hstep
    exact ih (by omega) hnext hrest

/-- Cookies that were accessed after the old one are evicted, and the old one stays. -/
theorem monthsApart_unfair : ¬ Meets laterJvm new [] monthsApart := by
  rintro ⟨-, s', out, hstep, -, hrest⟩
  cases hstep
  exact filling_zero.run (by rfl) hrest

end JavaFX.Webkit.CookieStore
