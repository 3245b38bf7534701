/-
The store of the cookies.

A bucket is a `LinkedHashMap` from cookies to themselves, so it is the list of its cookies, in the
order of iteration; a cookie that replaces another takes its place.  The loops that visit the
cookies of a bucket drop those that have expired on the way, `removeExpired`, and do the rest of
their work with what they keep.

The cookies are objects.  What changes in the store is the time of the last access, so the store is
updated where the source sets it in the cookies of a result.
-/
import JavaFX.Webkit.Cookie
import JavaFX.Lib.AssocList
import JavaFX.Lib.KeyedList

namespace JavaFX.Webkit

abbrev Bucket := List Cookie

structure CookieStore where
  buckets : List (Text × Bucket)
  totalCount : Int
  /-- How often the clock has been read. -/
  reads : Nat
deriving Repr, DecidableEq

namespace CookieStore

def maxBucketSize : Nat := 50
def totalCountLowerThreshold : Int := 3000
def totalCountUpperThreshold : Int := 4000

def new : CookieStore := ⟨[], 0, 0⟩

/-- All cookies that are stored. -/
def cookies (s : CookieStore) : List Cookie := s.buckets.flatMap (·.2)

/-! ### Buckets -/

/-- `bucket.get(cookie)`. -/
def Bucket.get (cookie : Cookie) (bucket : Bucket) : Option Cookie :=
  KeyedList.get Cookie.key cookie.key bucket

/-- `bucket.remove(cookie)`. -/
def Bucket.remove (cookie : Cookie) (bucket : Bucket) : Bucket :=
  KeyedList.remove Cookie.key cookie.key bucket

/-- `bucket.put(cookie, cookie)`. -/
def Bucket.put (cookie : Cookie) (bucket : Bucket) : Bucket := KeyedList.put Cookie.key cookie bucket

/-- What a loop over cookies leaves, the number of cookies and the number of readings. -/
structure Sweep where
  kept : List Cookie
  totalCount : Int
  reads : Nat

section
variable (jvm : Jvm)

/-- The loop over the cookies of a bucket, as far as it concerns those that have expired. -/
def removeExpired : List Cookie → Int → Nat → Sweep
  | [], totalCount, reads => ⟨[], totalCount, reads⟩
  | c :: cs, totalCount, reads =>
    if c.hasExpired (jvm.currentTimeMillis reads) then
      removeExpired cs (totalCount - 1) (reads + 1)
    else
      let rest := removeExpired cs totalCount (reads + 1)
      { rest with kept := c :: rest.kept }

/-! ### Looking up -/

/-- `get(Cookie)`. -/
def get (cookie : Cookie) (s : CookieStore) : Option Cookie × CookieStore :=
  match AssocList.get cookie.domain s.buckets with
  | none => (none, s)
  | some bucket =>
    match Bucket.get cookie bucket with
    | none => (none, s)
    | some storedCookie =>
      if storedCookie.hasExpired (jvm.currentTimeMillis s.reads) then
        (none, { buckets := AssocList.upsert cookie.domain [] (Bucket.remove storedCookie) s.buckets
                 totalCount := s.totalCount - 1
                 reads := s.reads + 1 })
      else (some storedCookie, { s with reads := s.reads + 1 })

/-- What a request asks for. -/
structure Query where
  hostname : Text
  path : Option Text
  secureProtocol : Bool
  httpApi : Bool

/-- The conditions of `find`. -/
def matchesQuery (q : Query) (cookie : Cookie) : Bool :=
  (if cookie.hostOnly then jvm.equalsIgnoreCase q.hostname cookie.domain
    else Cookie.domainMatches q.hostname cookie.domain) &&
  Cookie.pathMatches q.path cookie.path &&
  !(cookie.secureOnly && !q.secureProtocol) &&
  !(cookie.httpOnly && !q.httpApi)

/-- The rest of the domain behind each of its points. -/
def parentDomains : Text → List Text
  | [] => []
  | c :: s =>
    if c = unit '.' then (if s.isEmpty then [] else s :: parentDomains s) else parentDomains s

/-- The values of `domain` in the loop of `get`. -/
def domains (hostname : Text) : List Text :=
  if hostname.isEmpty then [] else hostname :: parentDomains hostname

/-- The loop of `get`, with `find` in each bucket. -/
def collect (q : Query) : List Text → CookieStore → List Cookie × CookieStore
  | [], s => ([], s)
  | domain :: rest, s =>
    match AssocList.get domain s.buckets with
    | none => collect q rest s
    | some bucket =>
      let swept := removeExpired jvm bucket s.totalCount s.reads
      let next := collect q rest {
          buckets := AssocList.upsert domain [] (fun _ => swept.kept) s.buckets
          totalCount := swept.totalCount
          reads := swept.reads }
      (swept.kept.filter (matchesQuery jvm q) ++ next.1, next.2)

/-- `GetComparator.compare`. -/
def compareForGet (c1 c2 : Cookie) : Int :=
  let d : Int := c2.path.length - c1.path.length
  if d ≠ 0 then d else c1.creationTime.compareTo c2.creationTime

/-- `Collections.sort`, a stable merge sort that asks if the later of two elements is less. -/
def sort (cs : List Cookie) : List Cookie := cs.mergeSort fun c1 c2 => decide (0 ≤ compareForGet c2 c1)

/-- Set the last access time of some cookies. -/
def access (result : List Cookie) (now : Int) (c : Cookie) : Cookie :=
  if result.any (fun r => decide (r.key = c.key)) then { c with lastAccessTime := now } else c

/-- `get(String, String, boolean, boolean)`. -/
def getAll (q : Query) (s : CookieStore) : List Cookie × CookieStore :=
  let found := collect jvm q (domains q.hostname) s
  let result := sort found.1
  let currentTime := jvm.currentTimeMillis found.2.reads
  (result.map fun c => { c with lastAccessTime := currentTime }, { found.2 with
      buckets := found.2.buckets.map fun e => (e.1, e.2.map (access result currentTime))
      reads := found.2.reads + 1 })

/-! ### Storing -/

/-- The cookie with the earliest access, in the loop of `purge(bucket)`. -/
def earliest (cs : List Cookie) : Option Cookie :=
  cs.foldl (fun earliestCookie c => match earliestCookie with
    | none => some c
    | some e => if c.lastAccessTime < e.lastAccessTime then some c else some e) none

/-- `purge(bucket)`, with the excess cookie it removes. -/
def purgeBucket (bucket : Bucket) (totalCount : Int) (reads : Nat) : Sweep × Option Cookie :=
  let swept := removeExpired jvm bucket totalCount reads
  if swept.kept.length > maxBucketSize then
    match earliest swept.kept with
    | none => ({ swept with totalCount := swept.totalCount - 1 }, none)
    | some c =>
      ({ swept with kept := Bucket.remove c swept.kept, totalCount := swept.totalCount - 1 }, some c)
  else (swept, none)

/-- `RemovalComparator.compare`. -/
def compareForRemoval (c1 c2 : Cookie) : Int :=
  Int.bmod (c1.lastAccessTime - c2.lastAccessTime) (2 ^ 32)

/-- `PriorityQueue.remove`: a least element, and the others. -/
def removeLeast : List Cookie → Option (Cookie × List Cookie)
  | [] => none
  | c :: queue =>
    match removeLeast queue with
    | none => some (c, [])
    | some (least, rest) =>
      if compareForRemoval c least ≤ 0 then some (c, queue) else some (least, c :: rest)

/-- The first loop of `purge()`. -/
def removeAllExpired : List (Text × Bucket) → Int → Nat → List (Text × Bucket) × Int × Nat
  | [], totalCount, reads => ([], totalCount, reads)
  | entry :: entries, totalCount, reads =>
    let swept := removeExpired jvm entry.2 totalCount reads
    let rest := removeAllExpired entries swept.totalCount swept.reads
    ((entry.1, swept.kept) :: rest.1, rest.2)

/-- The second loop of `purge()`, with the excess cookies it has removed.  Each round takes one
element of the queue. -/
def drain : Nat → List Cookie → CookieStore → List Cookie →
    Except JavaException (CookieStore × List Cookie)
  | fuel, queue, s, removed =>
    if s.totalCount > totalCountLowerThreshold then
      match removeLeast queue with
      | none => .error .noSuchElement
      | some (cookie, rest) =>
        match fuel with
        | 0 => .error .noSuchElement
        | fuel + 1 =>
          match AssocList.get cookie.domain s.buckets with
          | none => drain fuel rest s removed
          | some _ =>
            drain fuel rest { s with
                buckets := AssocList.upsert cookie.domain [] (Bucket.remove cookie) s.buckets
                totalCount := s.totalCount - 1 }
              (removed ++ [cookie])
    else .ok (s, removed)

/-- `purge()`. -/
def purge (s : CookieStore) : Except JavaException (CookieStore × List Cookie) :=
  let swept := removeAllExpired jvm (jvm.entrySet s.buckets) s.totalCount s.reads
  let queue := swept.1.flatMap (·.2)
  drain queue.length queue { buckets := swept.1, totalCount := swept.2.1, reads := swept.2.2 } []

/-- The store after a `put`, and the excess cookies that were removed from the bucket and from the
store. -/
structure Stored where
  store : CookieStore
  fromBucket : Option Cookie
  fromStore : List Cookie

/-- The part of `put` behind a new entry. -/
def putNew (cookie : Cookie) (bucket : Bucket) (s : CookieStore) : Except JavaException Stored :=
  let totalCount := s.totalCount + 1
  let purged := if bucket.length > maxBucketSize then purgeBucket jvm bucket totalCount s.reads
    else (⟨bucket, totalCount, s.reads⟩, none)
  let s' : CookieStore :=
    { buckets := AssocList.upsert cookie.domain [] (fun _ => purged.1.kept) s.buckets
      totalCount := purged.1.totalCount
      reads := purged.1.reads }
  if s'.totalCount > totalCountUpperThreshold then
    (purge jvm s').map fun r => ⟨r.1, purged.2, r.2⟩
  else .ok ⟨s', purged.2, []⟩

def put (cookie : Cookie) (s : CookieStore) : Except JavaException Stored :=
  let bucket := (AssocList.get cookie.domain s.buckets).getD []
  let s' := { s with reads := s.reads + 1 }
  if cookie.hasExpired (jvm.currentTimeMillis s.reads) then
    .ok ⟨{ s' with
           buckets := AssocList.upsert cookie.domain [] (Bucket.remove cookie) s.buckets
           totalCount := if (Bucket.get cookie bucket).isSome then s.totalCount - 1 else s.totalCount },
         none, []⟩
  else if (Bucket.get cookie bucket).isSome then
    .ok ⟨{ s' with buckets := AssocList.upsert cookie.domain [] (Bucket.put cookie) s.buckets }, none, []⟩
  else putNew jvm cookie (Bucket.put cookie bucket) s'

end

/-! ### Runs -/

inductive Op
  | put (cookie : Cookie)
  | get (cookie : Cookie)
  | getAll (q : Query)

/-- What a call tells its caller, and for `put` which excess cookies it removes. -/
inductive Output
  | stored (fromBucket : Option Cookie) (fromStore : List Cookie)
  | found (cookie : Option Cookie)
  | listed (result : List Cookie)

def step (jvm : Jvm) (s : CookieStore) : Op → Except JavaException (CookieStore × Output)
  | .put cookie => (put jvm cookie s).map fun r => (r.store, .stored r.fromBucket r.fromStore)
  | .get cookie => .ok ((get jvm cookie s).2, .found (get jvm cookie s).1)
  | .getAll q => .ok ((getAll jvm q s).2, .listed (getAll jvm q s).1)

end CookieStore

end JavaFX.Webkit
