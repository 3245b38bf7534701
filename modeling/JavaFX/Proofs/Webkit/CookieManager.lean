/-
The header of a request.

The loop over the domains of a host visits the suffixes behind its points, and these are all domains
a cookie of the host can have.  In each bucket the conditions of the source are those of the
standard, with one exception: an empty request path stands for a slash.  The comparator narrows the
difference of two creation times to an `int`, so the order is right as long as the cookies that
belong to a request were created less than 2^31 milliseconds apart.
-/
import JavaFX.Webkit.CookieManager
import JavaFX.Proofs.Webkit.CookieStore.Eviction

namespace JavaFX.Webkit.CookieManager

open CookieStore

variable {jvm : Jvm} {s s' : CookieStore} {uri : URI} {host : Text}

/-! ### The property -/

/-- A host has a domain, or is inside it and no IP address. -/
def DomainMatch (host domain : Text) : Prop :=
  host = domain ∨ (∃ labels, host = labels ++ unit '.' :: domain) ∧ isIpAddress host = false

/-- A path is the path of a cookie, or is below it. -/
def PathMatch (path cookiePath : Text) : Prop :=
  path = cookiePath ∨ ∃ rest, path = cookiePath ++ rest ∧
    (cookiePath.getLast? = some (unit '/') ∨ rest.head? = some (unit '/'))

/-- The path of a request; an empty path counts as a slash. -/
def requestPath (uri : URI) : Option Text :=
  if uri.path = some [] then some (units "/") else uri.path

/-- A cookie belongs to a request. -/
structure Belongs (jvm : Jvm) (uri : URI) (host : Text) (c : Cookie) : Prop where
  domain : if c.hostOnly then c.domain = host else DomainMatch host c.domain
  path : ∃ path, requestPath uri = some path ∧ PathMatch path c.path
  secure : c.secureOnly = true → secureProtocol jvm uri = true
  http : c.httpOnly = true → httpApi jvm uri = true

/-- Longer paths come first, then earlier creation times. -/
def Before (c c' : Cookie) : Prop :=
  c'.path.length < c.path.length ∨ c.path.length = c'.path.length ∧
    (c.creationTime.baseTime < c'.creationTime.baseTime ∨ c.creationTime.baseTime = c'.creationTime.baseTime ∧
        c.creationTime.subtime ≤ c'.creationTime.subtime)

def pair (c : Cookie) : Text := c.name ++ units "=" ++ c.value

/-- The names and values of some cookies, with semicolons between them. -/
def listing : List Cookie → Option Text
  | [] => none
  | c :: cs => some (pair c ++ cs.flatMap fun c => units "; " ++ pair c)

/-- The cookie that a response without attributes makes, as long as it is stored. -/
def Plain (jvm : Jvm) (uri : URI) (c : Cookie) : Prop :=
  ∃ p c', p.domain = [] ∧ p.path = none ∧ p.expiryTime = maxLong ∧ p.secureOnly = false ∧
    p.httpOnly = false ∧ complete jvm uri p = some c' ∧
    c = { c' with creationTime := c.creationTime, lastAccessTime := c.lastAccessTime }

/-- The header lists the stored cookies that belong to the request and have not expired, each once
and in order.  A cookie may expire while the request is at work. -/
structure Retrieves (jvm : Jvm) (uri : URI) (host : Text) (s : CookieStore) (chosen : List Cookie) :
    Prop where
  header : (get jvm uri s).1 = listing chosen
  once : KeyedList.Distinct Cookie.key chosen
  ordered : chosen.Pairwise Before
  only : ∀ c ∈ chosen, c ∈ s.cookies ∧ Belongs jvm uri host c ∧ c.hasExpired (jvm.currentTimeMillis s.reads) = false
  all : ∀ c ∈ s.cookies, Belongs jvm uri host c →
    c.hasExpired (jvm.currentTimeMillis (get jvm uri s).2.reads) = false → c ∈ chosen
  sentBack : ∀ c ∈ s.cookies, Plain jvm uri c → c ∈ chosen

/-- The stores there are. -/
inductive Reachable (jvm : Jvm) : CookieStore → Prop
  | new : Reachable jvm .new
  | put {s s' : CookieStore} {uri : URI} {headers : List (Option Text × List Text)} :
      Reachable jvm s → put jvm uri headers s = .ok s' → Reachable jvm s'
  | get {s : CookieStore} {uri : URI} : Reachable jvm s → Reachable jvm (get jvm uri s).2

/-- An empty path finds no cookie that it should find, and cookies for the same request with paths
of the same length were created less than 2^31 milliseconds apart. -/
structure Recent (jvm : Jvm) (uri : URI) (host : Text) (s : CookieStore) : Prop where
  path : uri.path = some [] → ∀ c ∈ s.cookies, ¬ Belongs jvm uri host c
  times : ∀ c ∈ s.cookies, ∀ c' ∈ s.cookies, Belongs jvm uri host c → Belongs jvm uri host c' →
    c.hasExpired (jvm.currentTimeMillis s.reads) = false →
    c'.hasExpired (jvm.currentTimeMillis s.reads) = false → c.path.length = c'.path.length →
    c.creationTime.baseTime - c'.creationTime.baseTime < 2 ^ 31

/-! ### Domains -/

variable {domain : Text} {c : Cookie} {p : ParsedCookie}

theorem mem_parentDomains :
    domain ∈ parentDomains host ↔ domain ≠ [] ∧ ∃ labels, host = labels ++ unit '.' :: domain := by
  induction host with
  | nil => simp [parentDomains]
  | cons x s ih =>
    have hcons : (∃ labels, x :: s = labels ++ unit '.' :: domain)
        ↔ x = unit '.' ∧ s = domain ∨ ∃ labels, s = labels ++ unit '.' :: domain := by
      constructor
      · rintro ⟨labels, h⟩
        cases labels with
        | nil => exact .inl (List.cons.inj h)
        | cons y labels => exact .inr ⟨labels, (List.cons.inj h).2⟩
      · rintro (⟨rfl, rfl⟩ | ⟨labels, rfl⟩)
        · exact ⟨[], rfl⟩
        · exact ⟨x :: labels, rfl⟩
    rw [parentDomains, hcons]
    split
    · next hx =>
        split
        · next hs =>
            rw [List.isEmpty_iff.mp hs]
            constructor
            · simp
            · rintro ⟨hne, ⟨-, rfl⟩ | ⟨labels, h⟩⟩
              · exact absurd rfl hne
              · simp at h
        · next hs =>
            rw [List.mem_cons, ih]
            constructor
            · rintro (rfl | ⟨hne, h⟩)
              · exact ⟨by simpa using hs, .inl ⟨hx, rfl⟩⟩
              · exact ⟨hne, .inr h⟩
            · rintro ⟨hne, ⟨-, rfl⟩ | h⟩
              · exact .inl rfl
              · exact .inr ⟨hne, h⟩
    · next hx =>
        rw [ih]
        constructor
        · exact fun ⟨hne, h⟩ => ⟨hne, .inr h⟩
        · rintro ⟨hne, ⟨hx', -⟩ | h⟩
          · exact absurd hx' hx
          · exact ⟨hne, h⟩

theorem length_parentDomains (h : domain ∈ parentDomains host) : domain.length < host.length := by
  obtain ⟨-, labels, rfl⟩ := mem_parentDomains.mp h
  simp only [List.length_append, List.length_cons]
  omega

theorem nodup_parentDomains (host : Text) : (parentDomains host).Nodup := by
  induction host with
  | nil => simp [parentDomains]
  | cons x s ih =>
    rw [parentDomains]
    split
    · split
      · simp
      · refine List.nodup_cons.mpr ⟨?_, ih⟩
        intro h
        exact absurd (length_parentDomains h) (lt_irrefl _)
    · exact ih

theorem nodup_domains (host : Text) : (domains host).Nodup := by
  unfold domains
  split
  · simp
  · refine List.nodup_cons.mpr ⟨?_, nodup_parentDomains host⟩
    intro h
    exact absurd (length_parentDomains h) (lt_irrefl _)

theorem mem_domains :
    domain ∈ domains host ↔ domain ≠ [] ∧ (host = domain ∨ ∃ labels, host = labels ++ unit '.' :: domain) := by
  unfold domains
  split
  · next hempty =>
      rw [List.isEmpty_iff.mp hempty]
      constructor
      · simp
      · rintro ⟨hne, rfl | ⟨labels, h⟩⟩
        · exact absurd rfl hne
        · simp at h
  · next hempty =>
      rw [List.mem_cons, mem_parentDomains]
      constructor
      · rintro (rfl | ⟨hne, h⟩)
        · exact ⟨by simpa [List.isEmpty_iff] using hempty, .inl rfl⟩
        · exact ⟨hne, .inr h⟩
      · rintro ⟨hne, rfl | h⟩
        · exact .inl rfl
        · exact .inr ⟨hne, h⟩


theorem getElem?_behind {α : Type} (a b : List α) : (a ++ b)[a.length]? = b.head? := by
  rw [List.getElem?_append_right (Nat.le_refl _), Nat.sub_self, List.head?_eq_getElem?]

theorem point_index (labels : Text) (x : CodeUnit) (domain : Text) :
    (labels ++ x :: domain)[(labels ++ x :: domain).length - domain.length - 1]? = some x := by
  have hindex : (labels ++ x :: domain).length - domain.length - 1 = labels.length := by
    simp only [List.length_append, List.length_cons]
    omega
  rw [hindex, getElem?_behind, List.head?_cons]

theorem domainMatches_iff : Cookie.domainMatches host domain = true ↔ DomainMatch host domain := by
  simp only [Cookie.domainMatches, DomainMatch, Bool.and_eq_true, Bool.or_eq_true, decide_eq_true_eq,
    List.isSuffixOf_iff_suffix, beq_iff_eq, Bool.not_eq_true']
  constructor
  · rintro ⟨⟨labels, rfl⟩, h⟩
    rcases List.eq_nil_or_concat labels with rfl | ⟨labels, x, rfl⟩
    · exact .inl rfl
    · rw [List.concat_eq_append, List.append_assoc, List.singleton_append] at h ⊢
      rcases h with hlength | ⟨hpoint, hip⟩
      · simp only [List.length_append, List.length_cons] at hlength
        omega
      · rw [point_index, Option.some.injEq] at hpoint
        exact .inr ⟨⟨labels, by rw [hpoint]⟩, hip⟩
  · rintro (rfl | ⟨⟨labels, rfl⟩, hip⟩)
    · exact ⟨List.suffix_refl _, .inl rfl⟩
    · exact ⟨⟨labels ++ [unit '.'], by simp⟩, .inr ⟨point_index labels _ domain, hip⟩⟩

variable {path : Text} {cs : List Cookie}

theorem pathMatches_iff {cookiePath : Text} :
    Cookie.pathMatches (some path) cookiePath = true ↔ PathMatch path cookiePath := by
  simp only [Cookie.pathMatches, Bool.and_eq_true, Bool.or_eq_true, decide_eq_true_eq,
    List.isPrefixOf_iff_prefix, beq_iff_eq]
  constructor
  · rintro ⟨⟨rest, rfl⟩, (hlength | hslash) | hslash⟩
    · have : rest = [] := by
        rw [List.length_append] at hlength
        exact List.length_eq_zero_iff.mp (by omega)
      exact .inl (by rw [this, List.append_nil])
    · exact .inr ⟨rest, rfl, .inl hslash⟩
    · rw [getElem?_behind] at hslash
      exact .inr ⟨rest, rfl, .inr hslash⟩
  · rintro (rfl | ⟨rest, rfl, hslash | hslash⟩)
    · exact ⟨List.prefix_refl _, .inl (.inl rfl)⟩
    · exact ⟨List.prefix_append _ _, .inl (.inr hslash)⟩
    · exact ⟨List.prefix_append _ _, .inr (by rw [getElem?_behind]; exact hslash)⟩

theorem equalsIgnoreCase_refl (jvm : Jvm) (t : Text) : jvm.equalsIgnoreCase t t = true := by
  induction t with
  | nil => rfl
  | cons c t ih => simp [Jvm.equalsIgnoreCase, ih]

theorem length_of_equalsIgnoreCase {t t' : Text} (h : jvm.equalsIgnoreCase t t' = true) : t.length = t'.length := by
  induction t generalizing t' with
  | nil =>
    cases t' with
    | nil => rfl
    | cons c' t' => simp [Jvm.equalsIgnoreCase] at h
  | cons c t ih =>
    cases t' with
    | nil => simp [Jvm.equalsIgnoreCase] at h
    | cons c' t' =>
      simp only [Jvm.equalsIgnoreCase, Bool.and_eq_true] at h
      rw [List.length_cons, List.length_cons, ih h.2]

/-- The conditions of the source, for a domain that the loop visits. -/
theorem matchesQuery_iff (hpath : uri.path ≠ some []) (hdomain : c.domain ∈ domains host) :
    matchesQuery jvm (query jvm uri host) c = true ↔ Belongs jvm uri host c := by
  have hrequest : requestPath uri = uri.path := if_neg hpath
  -- A domain that equals the host but for case is the host.
  have hself : jvm.equalsIgnoreCase host c.domain = true ↔ c.domain = host := by
    constructor
    · intro h
      have hlength := length_of_equalsIgnoreCase h
      rcases (mem_domains.mp hdomain).2 with heq | ⟨labels, rfl⟩
      · exact heq.symm
      · simp only [List.length_append, List.length_cons] at hlength
        omega
    · rintro rfl
      exact equalsIgnoreCase_refl jvm c.domain
  have hd : (if c.hostOnly then jvm.equalsIgnoreCase host c.domain
      else Cookie.domainMatches host c.domain) = true
      ↔ if c.hostOnly then c.domain = host else DomainMatch host c.domain := by
    split
    · exact hself
    · exact domainMatches_iff
  have hp : Cookie.pathMatches uri.path c.path = true
      ↔ ∃ path, requestPath uri = some path ∧ PathMatch path c.path := by
    rw [hrequest]
    cases uri.path with
    | none => simp [Cookie.pathMatches]
    | some path =>
      rw [pathMatches_iff]
      simp
  simp only [matchesQuery, query, Bool.and_eq_true, Bool.not_eq_true', Bool.and_eq_false_imp, hp]
  constructor
  · rintro ⟨⟨⟨hdom, hpath⟩, hsecure⟩, hhttp⟩
    exact ⟨hd.mp hdom, hpath, fun h => by simpa using hsecure h, fun h => by simpa using hhttp h⟩
  · rintro ⟨hdom, hpath, hsecure, hhttp⟩
    exact ⟨⟨⟨hd.mpr hdom, hpath⟩, fun h => by simp [hsecure h]⟩, fun h => by simp [hhttp h]⟩

/-- A cookie that belongs to a request has a domain that the loop visits. -/
theorem Belongs.mem_domains (h : Belongs jvm uri host c) (hne : c.domain ≠ []) : c.domain ∈ domains host := by
  have hdomain := h.domain
  rw [CookieManager.mem_domains]
  split at hdomain
  · exact ⟨hne, .inl hdomain.symm⟩
  · rcases hdomain with heq | ⟨hlabels, -⟩
    · exact ⟨hne, .inl heq⟩
    · exact ⟨hne, .inr hlabels⟩


/-! ### The order -/

instance : DecidableRel Before := fun _ _ =>
  inferInstanceAs (Decidable (_ < _ ∨ _ = _ ∧ (_ < _ ∨ _ = _ ∧ _ ≤ _)))

theorem Before.trans {a b : Cookie} (hab : Before a b) (hbc : Before b c) : Before a c := by
  unfold Before at *
  omega

theorem before_total (a b : Cookie) : Before a b ∨ Before b a := by
  unfold Before
  omega

theorem compare_iff {c' : Cookie} (h : c.path.length = c'.path.length →
      c.creationTime.baseTime - c'.creationTime.baseTime < 2 ^ 31 ∧
        c'.creationTime.baseTime - c.creationTime.baseTime < 2 ^ 31) :
    0 ≤ compareForGet c' c ↔ Before c c' := by
  unfold compareForGet Before
  dsimp only
  split
  · next hne => omega
  · next heq =>
      have hexact : Int.bmod (c'.creationTime.baseTime - c.creationTime.baseTime) (2 ^ 32)
          = c'.creationTime.baseTime - c.creationTime.baseTime := by
        rw [Int.bmod_eq_of_le]
        · omega
        · omega
      rw [ExtendedTime.compareTo]
      split <;> omega

theorem sorted_sort (h : ∀ c ∈ cs, ∀ c' ∈ cs, c.path.length = c'.path.length →
      c.creationTime.baseTime - c'.creationTime.baseTime < 2 ^ 31) : (sort cs).Pairwise Before := by
  have hsame := List.map_mergeSort
    (r := fun c c' => decide (0 ≤ compareForGet c' c)) (s := fun c c' => decide (Before c c'))
    (fun c hc c' hc' => decide_eq_decide.mpr (compare_iff fun heq => ⟨h c hc c' hc' heq, h c' hc' c hc heq.symm⟩))
  have hsort : sort cs = cs.mergeSort fun c c' => decide (Before c c') := by
    rw [sort]
    simpa using hsame
  have hpairwise : (cs.mergeSort fun c c' => decide (Before c c')).Pairwise
      fun c c' => decide (Before c c') = true := by
    apply List.pairwise_mergeSort
    · intro a b c hab hbc
      exact decide_eq_true (Before.trans (of_decide_eq_true hab) (of_decide_eq_true hbc))
    · intro a b
      simpa using before_total a b
  rw [hsort]
  exact hpairwise.imp of_decide_eq_true

/-! ### The text of the header -/

theorem foldl_append_of_ne {sb : Text} (hsb : sb ≠ []) (cs : List Cookie) :
    cs.foldl append sb = sb ++ cs.flatMap fun c => units "; " ++ pair c := by
  induction cs generalizing sb with
  | nil => simp
  | cons c cs ih =>
    have hne : append sb c = sb ++ (units "; " ++ pair c) := by
      rw [append, if_neg (by simpa using hsb), pair]
      simp only [List.append_assoc]
    rw [List.foldl_cons, hne, ih (by simp [hsb]), List.flatMap_cons, List.append_assoc]

theorem header_eq (h : ∀ c ∈ cs, c.name ≠ []) : header cs = listing cs := by
  cases cs with
  | nil => rfl
  | cons c cs =>
    have hname := h c List.mem_cons_self
    have hfirst : append [] c = pair c := by
      simp [append, pair]
    have hpair : pair c ≠ [] := by simp [pair, hname]
    rw [header, List.foldl_cons, hfirst, foldl_append_of_ne hpair, listing]
    simp [hpair]

theorem listing_map {g : Cookie → Cookie} (hg : ∀ c, pair (g c) = pair c) (cs : List Cookie) :
    listing (cs.map g) = listing cs := by
  cases cs with
  | nil => rfl
  | cons c cs =>
    rw [List.map_cons, listing, listing, List.flatMap_map]
    simp only [hg]


/-! ### What is stored -/

/-- A cookie has a name and a domain, and its path starts with a slash. -/
structure Proper (k : Cookie.Key) : Prop where
  name : k.name ≠ []
  domain : k.domain ≠ []
  path : k.path.head? = some (unit '/')

structure Kept (s : CookieStore) : Prop extends Limited s where
  proper : ∀ k c, lookup k s = some c → Proper k

theorem Kept.lapse (h : Kept s) (hlapse : Lapse jvm s s') : Kept s' := by
  refine ⟨hlapse.limited h.toLimited, ?_⟩
  intro k c hc
  rcases hlapse.lookup k with heq | ⟨hnone, -⟩
  · exact h.proper k c (heq ▸ hc)
  · rw [hnone] at hc
    cases hc

theorem dropWhile_ne {x : CodeUnit} {l : Text} (h : x ∈ l) :
    ∃ a b, l = a ++ x :: b ∧ l.dropWhile (· ≠ x) = x :: b := by
  induction l with
  | nil => simp at h
  | cons y l ih =>
    by_cases hy : y = x
    · exact ⟨[], l, by rw [hy]; rfl, by simp [hy]⟩
    · obtain ⟨a, b, rfl, hdrop⟩ := ih ((List.mem_cons.mp h).resolve_left (Ne.symm hy))
      exact ⟨y :: a, b, rfl, by rw [List.dropWhile_cons_of_pos (by simpa using hy)]; exact hdrop⟩

theorem beforeLastSlash_spec (h : unit '/' ∈ path) :
    ∃ rest, path = Cookie.beforeLastSlash path ++ unit '/' :: rest := by
  obtain ⟨a, b, hsplit, hdrop⟩ := dropWhile_ne (List.mem_reverse.mpr h)
  refine ⟨a.reverse, ?_⟩
  rw [Cookie.beforeLastSlash, hdrop]
  have hpath := congrArg List.reverse hsplit
  rw [List.reverse_reverse] at hpath
  rw [hpath]
  simp

/-- The default path starts with a slash, and the path of the request is below it. -/
theorem defaultPath_spec {uri : URI} {host : Text} (h : uri.host = some host) :
    (Cookie.defaultPath uri).head? = some (unit '/') ∧
      ∃ path, requestPath uri = some path ∧ PathMatch path (Cookie.defaultPath uri) := by
  obtain ⟨path, hpath, hslash⟩ := uri.path_of_host (by rw [h]; rfl)
  rcases hslash with rfl | hslash
  · have hdefault : Cookie.defaultPath uri = units "/" := by simp [Cookie.defaultPath, hpath]
    rw [hdefault]
    exact ⟨rfl, units "/", if_pos hpath, .inl rfl⟩
  · have hne : path ≠ [] := by
      rintro rfl
      simp at hslash
    have hrequest : requestPath uri = some path := by
      rw [requestPath, if_neg, hpath]
      rw [hpath, Option.some.injEq]
      exact hne
    obtain ⟨rest, hrest⟩ := beforeLastSlash_spec (List.mem_of_mem_head? hslash)
    rw [Cookie.defaultPath, hpath]
    dsimp only
    rw [if_pos hslash]
    split
    · next hempty =>
        refine ⟨rfl, path, hrequest, .inr ⟨rest, ?_, .inl rfl⟩⟩
        rw [List.isEmpty_iff.mp hempty] at hrest
        exact hrest
    · next hnonempty =>
        refine ⟨?_, path, hrequest, .inr ⟨unit '/' :: rest, hrest, .inr rfl⟩⟩
        rw [hrest, List.head?_append_of_ne_nil] at hslash
        · exact hslash
        · simpa using hnonempty

theorem hostOf_eq {host : Text} (h : hostOf jvm uri = some host) :
    host ≠ [] ∧ ∃ hostname, uri.host = some hostname := by
  unfold hostOf at h
  split at h
  · cases h
  · next hostname huri =>
      split at h
      · cases h
      · next hne =>
          cases h
          exact ⟨jvm.toLowerCase_ne_nil _ (by simpa using hne), hostname, huri⟩

theorem acceptDomain_ne_nil {host accepted : Text} {hostOnly : Bool} (hhost : host ≠ [])
    (h : acceptDomain jvm host domain = some (accepted, hostOnly)) : accepted ≠ [] := by
  unfold acceptDomain at h
  split at h
  · cases h
  · split at h
    · cases h
      exact hhost
    · next hne =>
        split at h
        · cases h
          simpa using hne
        · cases h

/-- What a header can say. -/
def Sensible (p : ParsedCookie) : Prop :=
  p.name ≠ [] ∧ ∀ path, p.path = some path → path.head? = some (unit '/')

theorem parse_sensible {text : Text} {t : ExtendedTime} (h : parse jvm text t = some p) : Sensible p := by
  have hattributes : ∀ (items : List Text) (a : Attributes),
      (∀ path, a.path = some path → path.head? = some (unit '/')) →
      ∀ path, (items.foldl (parseAttribute jvm t.baseTime) a).path = some path → path.head? = some (unit '/') := by
    intro items
    induction items with
    | nil => exact fun a ha => ha
    | cons item items ih =>
      intro a ha
      refine ih _ ?_
      intro path hpath
      unfold parseAttribute at hpath
      dsimp only at hpath
      split_ifs at hpath
      all_goals try exact ha path hpath
      -- The path is what the attribute says.
      unfold parsePath at hpath
      split at hpath
      · next hslash =>
          cases hpath
          exact hslash
      · cases hpath
  unfold parse at h
  dsimp only at h
  split at h
  · cases h
  · split at h
    · cases h
    · next hname =>
        cases h
        exact ⟨by simpa using hname, hattributes _ _ (by simp)⟩

theorem complete_proper (hp : Sensible p) (h : complete jvm uri p = some c) : Proper c.key := by
  unfold complete at h
  split at h
  · cases h
  · next host hhost =>
      obtain ⟨hne, hostname, huri⟩ := hostOf_eq hhost
      split at h
      · cases h
      · next domain hostOnly haccept =>
          split at h
          · cases h
          · cases h
            refine ⟨hp.1, acceptDomain_ne_nil hne haccept, ?_⟩
            cases hpath : p.path with
            | none => exact (defaultPath_spec huri).1
            | some path => exact hp.2 path hpath


theorem Kept.storePut (jvm : Jvm) (h : Kept s) {cookie : Cookie} (hcookie : Proper cookie.key) :
    ∃ r, CookieStore.put jvm cookie s = .ok r ∧ Kept r.store := by
  obtain ⟨r, hput, hlimited, -, hupdate, -⟩ := put_spec jvm h.toLimited cookie
  refine ⟨r, hput, hlimited, ?_⟩
  intro k c hc
  have hk := hupdate k
  split at hk
  · rw [hk] at hc
    cases hc
  · rcases hk with heq | ⟨hnone, -⟩
    · rw [heq] at hc
      split at hc
      · next hkey => exact hkey ▸ hcookie
      · exact h.proper k c hc
    · rw [hnone] at hc
      cases hc

theorem Kept.reads (h : Kept s) (reads : Nat) : Kept { s with reads := reads } :=
  ⟨⟨⟨h.keys, h.filed, h.count⟩, h.bucket, h.total⟩, h.proper⟩

theorem Kept.putCookie (jvm : Jvm) (uri : URI) (h : Kept s) (hp : Sensible p) :
    ∃ s', putCookie jvm uri p s = .ok s' ∧ Kept s' := by
  rw [CookieManager.putCookie]
  split
  · exact ⟨s, rfl, h⟩
  · next cookie hcomplete =>
      have hproper := complete_proper hp hcomplete
      have hafter := h.lapse (get_spec jvm h.toWellFormed cookie).1
      split
      · next store hget =>
          rw [hget] at hafter
          obtain ⟨r, hput, hkept⟩ := hafter.storePut jvm hproper
          exact ⟨r.store, by rw [hput]; rfl, hkept⟩
      · next oldCookie store hget =>
          rw [hget] at hafter
          split
          · exact ⟨store, rfl, hafter⟩
          · have hproper' : Proper { cookie with creationTime := oldCookie.creationTime }.key := hproper
            obtain ⟨r, hput, hkept⟩ := hafter.storePut jvm hproper'
            exact ⟨r.store, by rw [hput]; rfl, hkept⟩

theorem Kept.putAll (jvm : Jvm) (uri : URI) (values : List Text) (t : ExtendedTime) (h : Kept s) :
    ∃ s', putAll jvm uri values t s = .ok s' ∧ Kept s' := by
  induction values generalizing s t with
  | nil => exact ⟨s, rfl, h⟩
  | cons value values ih =>
    rw [CookieManager.putAll]
    split
    · exact ih t h
    · next p hparse =>
        obtain ⟨s₁, hput, hkept⟩ := h.putCookie jvm uri (parse_sensible hparse)
        obtain ⟨s₂, hrest, hkept'⟩ := ih t.incrementSubtime hkept
        exact ⟨s₂, by rw [hput, Except.bind, hrest], hkept'⟩

/-- **A response is always processed.** -/
theorem Kept.put (jvm : Jvm) (uri : URI) (headers : List (Option Text × List Text)) (h : Kept s) :
    ∃ s', put jvm uri headers s = .ok s' ∧ Kept s' := by
  induction headers generalizing s with
  | nil => exact ⟨s, rfl, h⟩
  | cons entry headers ih =>
    obtain ⟨key, values⟩ := entry
    rw [CookieManager.put]
    split
    · obtain ⟨s₁, hput, hkept⟩ := (h.reads (s.reads + 1)).putAll jvm uri values.reverse
        ⟨jvm.currentTimeMillis s.reads, 0⟩
      obtain ⟨s₂, hrest, hkept'⟩ := ih hkept
      exact ⟨s₂, by rw [hput, Except.bind, hrest], hkept'⟩
    · exact ih h

theorem Kept.getAll (h : Kept s) (q : Query) : Kept (getAll jvm q s).2 := by
  obtain ⟨found, -, hlapse, hwf, -, htotal, hsmall, hlookup⟩ := getAll_spec jvm q h.toWellFormed
  have hkept := h.lapse hlapse
  refine ⟨⟨hwf, fun d => by rw [hsmall]; exact hkept.bucket d, by rw [htotal]; exact hkept.total⟩, ?_⟩
  intro k c hc
  rw [hlookup, Option.map_eq_some_iff] at hc
  obtain ⟨c', hc', -⟩ := hc
  exact hkept.proper k c' hc'

theorem Kept.get (h : Kept s) (uri : URI) : Kept (get jvm uri s).2 := by
  unfold CookieManager.get
  split
  · exact h
  · exact h.getAll _

theorem Reachable.kept (h : Reachable jvm s) : Kept s := by
  induction h with
  | new => exact ⟨new_limited, fun _ _ hc => by simp [lookup, CookieStore.new, bucketAt,
      AssocList.get, KeyedList.get] at hc⟩
  | put _ hput ih =>
    obtain ⟨s', hput', hkept⟩ := ih.put jvm _ _
    rw [hput] at hput'
    cases hput'
    exact hkept
  | get _ ih => exact ih.get _

/-! ### The header -/

/-- A cookie that was set without attributes belongs to the URI that set it. -/
theorem Plain.belongs (h : Plain jvm uri c) (hhost : hostOf jvm uri = some host) :
    Belongs jvm uri host c ∧ c.expiryTime = maxLong := by
  obtain ⟨p, c', hdomain, hpath, hexpiry, hsecure, hhttp, hcomplete, hc⟩ := h
  obtain ⟨-, hostname, huri⟩ := hostOf_eq hhost
  have hscreen : screenDomain jvm host [] = some [] := by
    unfold screenDomain
    split
    · rfl
    · rw [if_neg (by simp [PublicSuffixes.isPublicSuffix])]
  have haccept : acceptDomain jvm host [] = some (host, true) := by
    rw [acceptDomain, hscreen]
    rfl
  rw [complete, hhost] at hcomplete
  dsimp only at hcomplete
  rw [hdomain, haccept] at hcomplete
  rw [hhttp, hpath] at hcomplete
  cases hcomplete
  rw [hc]
  refine ⟨⟨?_, (defaultPath_spec huri).2, ?_, ?_⟩, hexpiry⟩
  · rw [if_pos rfl]
  · simp [hsecure]
  · simp

/-- **The Cookie header of a request** lists exactly the stored cookies that belong to it, each once
and in order, for every store the manager can have, if the path of the request is not empty and the
creation times of these cookies are less than 2^31 milliseconds apart. -/
theorem get_retrieves (h : Reachable jvm s) (hhost : hostOf jvm uri = some host)
    (hrecent : Recent jvm uri host s) : ∃ chosen, Retrieves jvm uri host s chosen := by
  have hkept := h.kept
  have hwf := hkept.toWellFormed
  generalize hfound : collect jvm (query jvm uri host) (domains host) s = found
  obtain ⟨hlapse, honly, hall, hdistinct⟩ := collect_spec _ _ hwf hfound
  have hperm : (sort found.1).Perm found.1 := List.mergeSort_perm _ _
  have hproper : ∀ c ∈ s.cookies, Proper c.key := fun c hc =>
    hkept.proper c.key c (hwf.lookup_eq_some.mpr ⟨hc, rfl⟩)
  -- The conditions of the source are those of the property, for the cookies that are stored.
  have hmatch : ∀ c ∈ s.cookies, c.domain ∈ domains host →
      (matchesQuery jvm (query jvm uri host) c = true ↔ Belongs jvm uri host c) := by
    intro c hc hdomain
    by_cases hpath : uri.path = some []
    · have hslash := (hproper c hc).path
      have hne : c.path ≠ [] := by
        intro hempty
        rw [Cookie.key, hempty] at hslash
        simp at hslash
      constructor
      · intro hmatches
        simp [matchesQuery, query, Cookie.pathMatches, hpath, hne] at hmatches
      · exact fun hbelongs => absurd hbelongs (hrecent.path hpath c hc)
    · exact matchesQuery_iff hpath hdomain
  have honly' : ∀ c ∈ sort found.1, c ∈ s.cookies ∧ Belongs jvm uri host c ∧
      c.hasExpired (jvm.currentTimeMillis s.reads) = false := by
    intro c hc
    obtain ⟨hin, hdomain, hmatches, hfresh⟩ := honly c (hperm.mem_iff.mp hc)
    exact ⟨hin, (hmatch c hin hdomain).mp hmatches, hfresh⟩
  have hall' : ∀ c ∈ s.cookies, Belongs jvm uri host c →
      c.hasExpired (jvm.currentTimeMillis found.2.reads) = false → c ∈ sort found.1 := by
    intro c hc hbelongs hfresh
    have hdomain := hbelongs.mem_domains (hproper c hc).domain
    exact hperm.mem_iff.mpr (hall c hc hdomain ((hmatch c hc hdomain).mpr hbelongs) hfresh)
  have hget : get jvm uri s = (header (getAll jvm (query jvm uri host) s).1,
      (getAll jvm (query jvm uri host) s).2) := by rw [get, hhost]
  have hreads : (get jvm uri s).2.reads = found.2.reads + 1 := by
    rw [hget]
    rw [getAll, show (query jvm uri host).hostname = host from rfl, hfound]
  refine ⟨sort found.1, ?_, (hdistinct (nodup_domains host)).perm hperm, ?_, honly', ?_, ?_⟩
  · have hnames : ∀ c ∈ (sort found.1).map fun c =>
        { c with lastAccessTime := jvm.currentTimeMillis found.2.reads }, c.name ≠ [] := by
      intro c hc
      obtain ⟨c', hc', rfl⟩ := List.mem_map.mp hc
      exact (hproper c' (honly' c' hc').1).name
    rw [hget, getAll, show (query jvm uri host).hostname = host from rfl, hfound]
    rw [header_eq hnames, listing_map]
    exact fun _ => rfl
  · refine sorted_sort ?_
    intro c hc c' hc' hlength
    obtain ⟨hin, hbelongs, hfresh⟩ := honly' c (hperm.mem_iff.mpr hc)
    obtain ⟨hin', hbelongs', hfresh'⟩ := honly' c' (hperm.mem_iff.mpr hc')
    exact hrecent.times c hin c' hin' hbelongs hbelongs' hfresh hfresh' hlength
  · intro c hc hbelongs hfresh
    rw [hreads] at hfresh
    exact hall' c hc hbelongs (not_expired_of_le (jvm.nondecreasing (Nat.le_succ _)) hfresh)
  · intro c hc hplain
    obtain ⟨hbelongs, hexpiry⟩ := hplain.belongs hhost
    refine hall' c hc hbelongs ?_
    have hle := jvm.currentTimeMillis_le found.2.reads
    rw [Cookie.hasExpired, decide_eq_false_iff_not]
    omega


/-! ### A site -/

/-- `http://host` with a path. -/
def site (path : Text) (h : path = [] ∨ path.head? = some (unit '/')) : URI :=
  ⟨some (units "http"), some (units "host"), some path, fun _ => ⟨path, rfl, h⟩⟩

def stillJvm : Jvm := .ascii (fun _ => 1) monotone_const fun _ => by decide

/-- The cookie of the header `a=b`. -/
def siteCookie : Cookie :=
  ⟨units "a", units "b", maxLong, units "host", units "/", ⟨1, 0⟩, 1, true, false, false⟩

def siteStore : CookieStore := ⟨[(units "host", [siteCookie])], 1, 2⟩

theorem site_reachable : Reachable stillJvm siteStore := by
  have hput : put stillJvm (site [] (.inl rfl)) [(some (units "Set-Cookie"), [units "a=b"])] .new
      = .ok siteStore := by decide +kernel
  exact .put .new hput

def pathCookie (value path : Text) (subtime : Int) : Cookie :=
  ⟨units "a", value, maxLong, units "host", path, ⟨1, subtime⟩, 1, true, false, false⟩

/-- The cookies of the headers `a=b`, `a=c; Path=/x` and `a=d; Path=/y`. -/
def pathStore : CookieStore where
  buckets := [(units "host", [pathCookie (units "d") (units "/y") 0, pathCookie (units "c") (units "/x") 1,
    pathCookie (units "b") (units "/") 2])]
  totalCount := 3
  reads := 4

theorem paths_reachable : Reachable stillJvm pathStore := by
  have hput : put stillJvm (site [] (.inl rfl))
      [(some (units "Set-Cookie"), [units "a=b", units "a=c; Path=/x", units "a=d; Path=/y"])] .new
      = .ok pathStore := by decide +kernel
  exact .put .new hput

/-- The longer path comes first, and the cookie of another path stays away. -/
theorem paths_retrieves :
    (∃ chosen, Retrieves stillJvm (site (units "/x/z") (.inr rfl)) (units "host") pathStore chosen) ∧
      (get stillJvm (site (units "/x/z") (.inr rfl)) pathStore).1 = some (units "a=c; a=b") := by
  have hhost : hostOf stillJvm (site (units "/x/z") (.inr rfl)) = some (units "host") := by decide +kernel
  constructor
  · have hbase : ∀ c ∈ pathStore.cookies, c.creationTime.baseTime = 1 := by decide +kernel
    refine get_retrieves paths_reachable hhost ⟨fun h => absurd h (by decide), ?_⟩
    intro c hc c' hc' _ _ _ _ _
    rw [hbase c hc, hbase c' hc']
    decide
  · have hfound : (collect stillJvm (query stillJvm (site (units "/x/z") (.inr rfl)) (units "host"))
        (domains (units "host")) pathStore).1
        = [pathCookie (units "c") (units "/x") 1, pathCookie (units "b") (units "/") 2] := by decide +kernel
    have hsort : sort [pathCookie (units "c") (units "/x") 1, pathCookie (units "b") (units "/") 2]
        = [pathCookie (units "c") (units "/x") 1, pathCookie (units "b") (units "/") 2] :=
      List.mergeSort_of_pairwise (by decide +kernel)
    rw [get, hhost]
    simp only [getAll]
    rw [show (query stillJvm (site (units "/x/z") (.inr rfl)) (units "host")).hostname = units "host" from rfl,
      hfound, hsort]
    decide +kernel

theorem site_forgets : Reachable stillJvm siteStore ∧ hostOf stillJvm (site [] (.inl rfl)) = some (units "host") ∧
    Plain stillJvm (site [] (.inl rfl)) siteCookie ∧ siteCookie ∈ siteStore.cookies ∧
    (get stillJvm (site [] (.inl rfl)) siteStore).1 = none ∧
    ∀ chosen, ¬ Retrieves stillJvm (site [] (.inl rfl)) (units "host") siteStore chosen := by
  have hnone : (get stillJvm (site [] (.inl rfl)) siteStore).1 = none := by decide +kernel
  have hplain : Plain stillJvm (site [] (.inl rfl)) siteCookie :=
    ⟨⟨units "a", units "b", maxLong, [], none, ⟨1, 0⟩, 1, false, false⟩, siteCookie, rfl, rfl, rfl,
      rfl, rfl, by decide +kernel, rfl⟩
  have hstored : siteCookie ∈ siteStore.cookies := by decide +kernel
  refine ⟨site_reachable, by decide +kernel, hplain, hstored, hnone, ?_⟩
  intro chosen h
  have hheader := h.header
  rw [hnone] at hheader
  have hin := h.sentBack siteCookie hstored hplain
  cases chosen with
  | nil => simp at hin
  | cons c cs => cases hheader

end JavaFX.Webkit.CookieManager
