/-
The cookie handler: which cookies of a response are stored, and the header of a request.

The cookies of a response pass the checks against the host and against the list of public suffixes;
a cookie that replaces another one keeps its creation time.  Every reading of the clock counts as a
reading of the store.
-/
import JavaFX.Webkit.CookieStore

namespace JavaFX.Webkit

/-! ### Public suffixes -/

namespace PublicSuffixes

/-- `Rules.match`. -/
def matchRules (rules : Text → Option SuffixRule) (domain : Text) : Bool :=
  match rules domain with
  | some .exception => false
  | some .simple => true
  | some .wildcard => true
  | none => rules (domain.dropWhile (· ≠ unit '.')).tail == some .wildcard

def isPublicSuffix (jvm : Jvm) (domain : Text) : Bool :=
  if domain.isEmpty then false
  else if !jvm.pslFileExists then false
  else match jvm.getRules domain with
    | none => false
    | some rules => matchRules rules domain

end PublicSuffixes

namespace CookieManager

variable (jvm : Jvm)

def canonicalize (hostname : Text) : Text := jvm.toLowerCase hostname

/-- The host of a URI, if it has one that is not empty. -/
def hostOf (uri : URI) : Option Text :=
  match uri.host with
  | none => none
  | some host => if host.isEmpty then none else some (canonicalize jvm host)

def hasScheme (uri : URI) (scheme : String) : Bool :=
  match uri.scheme with
  | none => false
  | some s => jvm.equalsIgnoreCase (units scheme) s

def secureProtocol (uri : URI) : Bool := hasScheme jvm uri "https" || hasScheme jvm uri "javascripts"

def httpApi (uri : URI) : Bool := hasScheme jvm uri "http" || hasScheme jvm uri "https"

/-! ### Responses -/

/-- The domain of a cookie after the check against the public suffixes. -/
def screenDomain (host domain : Text) : Option Text :=
  if !jvm.pslFileExists then some []
  else if PublicSuffixes.isPublicSuffix jvm domain then (if domain = host then some [] else none)
  else some domain

/-- The domain of a cookie and whether it is for the host only, if the cookie may be stored. -/
def acceptDomain (host domain : Text) : Option (Text × Bool) :=
  match screenDomain jvm host domain with
  | none => none
  | some domain =>
    if domain.isEmpty then some (host, true)
    else if Cookie.domainMatches host domain then some (domain, false)
    else none

/-- The cookie of a header as `put` completes it, unless it is ignored. -/
def complete (uri : URI) (cookie : ParsedCookie) : Option Cookie :=
  match hostOf jvm uri with
  | none => none
  | some host =>
    match acceptDomain jvm host cookie.domain with
    | none => none
    | some (domain, hostOnly) =>
      if cookie.httpOnly && !httpApi jvm uri then none
      else some {
        name := cookie.name
        value := cookie.value
        expiryTime := cookie.expiryTime
        domain := domain
        path := cookie.path.getD (Cookie.defaultPath uri)
        creationTime := cookie.creationTime
        lastAccessTime := cookie.lastAccessTime
        hostOnly := hostOnly
        secureOnly := cookie.secureOnly
        httpOnly := cookie.httpOnly }

/-- `put(URI, Cookie)`. -/
def putCookie (uri : URI) (cookie : ParsedCookie) (store : CookieStore) :
    Except JavaException CookieStore :=
  match complete jvm uri cookie with
  | none => .ok store
  | some cookie =>
    match CookieStore.get jvm cookie store with
    | (none, store) => (CookieStore.put jvm cookie store).map (·.store)
    | (some oldCookie, store) =>
      if oldCookie.httpOnly && !httpApi jvm uri then .ok store
      else (CookieStore.put jvm { cookie with creationTime := oldCookie.creationTime } store).map (·.store)

/-- The loop over the values of one header. -/
def putAll (uri : URI) : List Text → ExtendedTime → CookieStore → Except JavaException CookieStore
  | [], _, store => .ok store
  | value :: values, currentTime, store =>
    match parse jvm value currentTime with
    | none => putAll uri values currentTime store
    | some cookie =>
      (putCookie jvm uri cookie store).bind fun store =>
        putAll uri values currentTime.incrementSubtime store

/-- `put(URI, Map)`.  The values of a header are taken in reverse order. -/
def put (uri : URI) : List (Option Text × List Text) → CookieStore → Except JavaException CookieStore
  | [], store => .ok store
  | (key, values) :: headers, store =>
    if key.any (jvm.equalsIgnoreCase (units "Set-Cookie")) then
      (putAll jvm uri values.reverse ⟨jvm.currentTimeMillis store.reads, 0⟩
        { store with reads := store.reads + 1 }).bind fun store => put uri headers store
    else put uri headers store

/-! ### Requests -/

/-- The loop that builds the header. -/
def append (sb : Text) (cookie : Cookie) : Text :=
  (if sb.isEmpty then sb else sb ++ units "; ") ++ cookie.name ++ units "=" ++ cookie.value

/-- The header for the cookies of a request. -/
def header (cookieList : List Cookie) : Option Text :=
  let sb := cookieList.foldl append []
  if sb.isEmpty then none else some sb

/-- What is asked for a URI with a host. -/
def query (uri : URI) (host : Text) : CookieStore.Query :=
  ⟨host, uri.path, secureProtocol jvm uri, httpApi jvm uri⟩

/-- `get(URI)`. -/
def get (uri : URI) (store : CookieStore) : Option Text × CookieStore :=
  match hostOf jvm uri with
  | none => (none, store)
  | some host =>
    let result := CookieStore.getAll jvm (query jvm uri host) store
    (header result.1, result.2)

end CookieManager

end JavaFX.Webkit
