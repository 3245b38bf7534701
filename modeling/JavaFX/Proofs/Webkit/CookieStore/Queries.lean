/-
What the queries of the store return.

A query drops the cookies it finds expired.  The clock may pass the expiry time of a cookie while
the query is at work: what it returns has not expired when it starts, and what has not expired when
it is over is returned.
-/
import JavaFX.Proofs.Webkit.CookieStore.Buckets

namespace JavaFX.Webkit.CookieStore

open List

open Cookie (Key)

variable {jvm : Jvm} {s s' : CookieStore}

/-! ### Looking up -/

theorem get_spec (jvm : Jvm) (h : WellFormed s) (cookie : Cookie) : Lapse jvm s (get jvm cookie s).2 ∧
      (get jvm cookie s).1 = (lookup cookie.key s).filter fun c =>
        !c.hasExpired (jvm.currentTimeMillis s.reads) := by
  rw [get]
  split
  · next hnone => exact ⟨.refl h, by simp [lookup, bucketAt, hnone, KeyedList.get]⟩
  · next bucket hsome =>
      have hat : bucketAt cookie.domain s.buckets = bucket := by simp [bucketAt, hsome]
      have hlookup : lookup cookie.key s = Bucket.get cookie bucket := by
        rw [lookup, Bucket.get, Cookie.key_domain, hat]
      rw [hlookup]
      split
      · next hnone => exact ⟨.refl h, by rw [hnone]; rfl⟩
      · next c hget =>
          rw [hget]
          split
          · next hexpired =>
              refine ⟨?_, by simp [Option.filter_some, hexpired]⟩
              obtain ⟨hc, -⟩ := KeyedList.mem_of_get hget
              have hfiled := h.filed cookie.domain
              rw [hat] at hfiled
              have hget' := (KeyedList.get_eq_some_iff hfiled.distinct).mpr ⟨hc, rfl⟩
              refine lapse_bucket h hat KeyedList.remove_sublist ?_ (Nat.le_succ _) ?_
              · have := KeyedList.length_remove hget'
                rw [Bucket.remove]
                omega
              · intro x hx hnot
                rw [Bucket.remove, KeyedList.mem_remove hfiled.distinct, not_and, not_not] at hnot
                have hsame := (KeyedList.get_eq_some_iff hfiled.distinct).mpr ⟨hx, hnot hx⟩
                rw [hget'] at hsame
                cases hsame
                exact hasExpired_mono (jvm.nondecreasing (Nat.le_succ _)) hexpired
          · next hexpired =>
              refine ⟨⟨⟨h.keys, h.filed, h.count⟩, Nat.le_succ _, fun k => .inl rfl,
                fun _ => Nat.le_refl _, Int.le_refl _⟩, by simp [Option.filter_some, hexpired]⟩

variable {c : Cookie}

/-- A cookie that has not expired when a loop is over has survived it. -/
theorem Lapse.survives (h : Lapse jvm s s') (hs : WellFormed s) (hc : c ∈ s.cookies)
    (hfresh : c.hasExpired (jvm.currentTimeMillis s'.reads) = false) : c ∈ s'.cookies := by
  have hc' := hs.lookup_eq_some.mpr ⟨hc, rfl⟩
  rcases h.lookup c.key with heq | ⟨-, c', hc'', hexpired⟩
  · exact (h.wellFormed.lookup_eq_some.mp (heq.trans hc')).1
  · rw [hc'] at hc''
    cases hc''
    rw [hfresh] at hexpired
    cases hexpired

theorem not_expired_of_le {now now' : Int} (h : now ≤ now')
    (hc : c.hasExpired now' = false) : c.hasExpired now = false := by
  by_contra hnot
  have := hasExpired_mono h (by simpa using hnot)
  rw [hc] at this
  cases this

/-- **The loop of a query.** -/
theorem collect_spec (q : Query) (ds : List Text) (hs : WellFormed s) {r : List Cookie × CookieStore}
    (hr : collect jvm q ds s = r) :
    Lapse jvm s r.2 ∧
    (∀ c ∈ r.1, c ∈ s.cookies ∧ c.domain ∈ ds ∧ matchesQuery jvm q c = true ∧
      c.hasExpired (jvm.currentTimeMillis s.reads) = false) ∧
    (∀ c ∈ s.cookies, c.domain ∈ ds → matchesQuery jvm q c = true →
      c.hasExpired (jvm.currentTimeMillis r.2.reads) = false → c ∈ r.1) ∧
    (ds.Nodup → KeyedList.Distinct Cookie.key r.1) := by
  induction ds generalizing s r with
  | nil =>
    subst hr
    exact ⟨.refl hs, by simp [collect], by simp, by simp [collect, KeyedList.Distinct]⟩
  | cons d ds ih =>
    subst hr
    rw [collect]
    split
    · next hnone =>
        obtain ⟨hlapse, honly, hall, hdistinct⟩ := ih hs rfl
        refine ⟨hlapse, ?_, ?_, fun hnodup => hdistinct (List.nodup_cons.mp hnodup).2⟩
        · intro c hc
          obtain ⟨hin, hd, hmatch, hfresh⟩ := honly c hc
          exact ⟨hin, mem_cons_of_mem _ hd, hmatch, hfresh⟩
        · intro c hc hd hmatch hfresh
          rcases List.mem_cons.mp hd with rfl | hd
          · rw [hs.mem_cookies, bucketAt, hnone] at hc
            simp at hc
          · exact hall c hc hd hmatch hfresh
    · next bucket hsome =>
        have hat : bucketAt d s.buckets = bucket := by simp [bucketAt, hsome]
        obtain ⟨hsub, hcount, hreads, hkept, hdropped⟩ :=
          removeExpired_spec jvm bucket s.totalCount s.reads
        rw [← hreads] at hdropped
        have hfirst := lapse_bucket (f := fun _ => (removeExpired jvm bucket s.totalCount s.reads).kept)
          hs hat hsub hcount (by omega) hdropped
        obtain ⟨hlapse, honly, hall, hdistinct⟩ := ih hfirst.wellFormed rfl
        have hfiled := hs.filed d
        rw [hat] at hfiled
        refine ⟨hfirst.trans hlapse, ?_, ?_, ?_⟩
        · intro c hc
          rcases List.mem_append.mp hc with hc | hc
          · obtain ⟨hin, hmatch⟩ := List.mem_filter.mp hc
            have hd := hfiled.domain c (hsub.subset hin)
            refine ⟨?_, hd ▸ mem_cons_self, hmatch, hkept c hin⟩
            rw [hs.mem_cookies, hd, hat]
            exact hsub.subset hin
          · obtain ⟨hin, hd, hmatch, hfresh⟩ := honly c hc
            exact ⟨hfirst.mem_cookies hs hin, mem_cons_of_mem _ hd, hmatch,
              not_expired_of_le (jvm.nondecreasing hfirst.reads) hfresh⟩
        · intro c hc hd hmatch hfresh
          have hin := hfirst.survives hs hc (not_expired_of_le (jvm.nondecreasing hlapse.reads) hfresh)
          rw [mem_append]
          by_cases hcd : c.domain = d
          · left
            rw [hfirst.wellFormed.mem_cookies, hcd] at hin
            rw [bucketAt_upsert, if_pos rfl] at hin
            exact List.mem_filter.mpr ⟨hin, hmatch⟩
          · exact .inr (hall c hin ((List.mem_cons.mp hd).resolve_left hcd) hmatch hfresh)
        · intro hnodup
          obtain ⟨hd, hds⟩ := List.nodup_cons.mp hnodup
          rw [KeyedList.Distinct, map_append, nodup_append]
          refine ⟨(hfiled.sublist (List.filter_sublist.trans hsub)).distinct, hdistinct hds, ?_⟩
          intro k hk k' hk' heq
          obtain ⟨c, hc, rfl⟩ := List.mem_map.mp hk
          obtain ⟨c', hc', rfl⟩ := List.mem_map.mp hk'
          have hcd := hfiled.domain c (hsub.subset (mem_of_mem_filter hc))
          have hcd' := (honly c' hc').2.1
          rw [← Cookie.key_domain, ← heq, Cookie.key_domain, hcd] at hcd'
          exact hd hcd'


theorem key_access (result : List Cookie) (now : Int) (c : Cookie) : (access result now c).key = c.key := by
  unfold access
  split <;> rfl

theorem bucketAt_map (d : Text) (g : Cookie → Cookie) (buckets : List (Text × Bucket)) :
    bucketAt d (buckets.map fun e => (e.1, e.2.map g)) = (bucketAt d buckets).map g := by
  induction buckets with
  | nil => rfl
  | cons e buckets ih =>
    by_cases he : e.1 = d
    · simp [bucketAt, AssocList.get, he]
    · simpa [bucketAt, AssocList.get, he] using ih

/-- **A query** drops what has expired and sets the time of the access. -/
theorem getAll_spec (jvm : Jvm) (q : Query) (hs : WellFormed s) :
    ∃ found : List Cookie × CookieStore, collect jvm q (domains q.hostname) s = found ∧
      Lapse jvm s found.2 ∧ WellFormed (getAll jvm q s).2 ∧
      (getAll jvm q s).2.reads = found.2.reads + 1 ∧
      (getAll jvm q s).2.totalCount = found.2.totalCount ∧
      (∀ d, (bucketAt d (getAll jvm q s).2.buckets).length = (bucketAt d found.2.buckets).length) ∧
      ∀ k, lookup k (getAll jvm q s).2 = (lookup k found.2).map
        (access (sort found.1) (jvm.currentTimeMillis found.2.reads)) := by
  generalize hr : collect jvm q (domains q.hostname) s = found
  obtain ⟨hlapse, -, -, -⟩ := collect_spec q (domains q.hostname) hs hr
  have hwf := hlapse.wellFormed
  have hkeys : AssocList.keys (getAll jvm q s).2.buckets = AssocList.keys found.2.buckets := by
    simp [getAll, hr, AssocList.keys]
  have hat : ∀ d, bucketAt d (getAll jvm q s).2.buckets = (bucketAt d found.2.buckets).map
      (access (sort found.1) (jvm.currentTimeMillis found.2.reads)) := by
    intro d
    rw [getAll, hr]
    exact bucketAt_map d _ _
  refine ⟨found, rfl, hlapse, ⟨hkeys ▸ hwf.keys, ?_, ?_⟩, by rw [getAll, hr], by rw [getAll, hr], ?_, ?_⟩
  · intro d
    rw [hat]
    refine ⟨?_, (hwf.filed d).distinct.map (key_access _ _)⟩
    intro c hc
    obtain ⟨c', hc', rfl⟩ := List.mem_map.mp hc
    rw [← Cookie.key_domain, key_access]
    exact (hwf.filed d).domain c' hc'
  · rw [getAll, hr]
    rw [hwf.count]
    simp [size, Function.comp_def]
  · intro d
    rw [hat, length_map]
  · intro k
    rw [lookup, hat, KeyedList.get_map (key_access _ _), lookup]

end JavaFX.Webkit.CookieStore
