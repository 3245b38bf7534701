/-
Cookies: the `Set-Cookie` header, and when a cookie belongs to a request.

A string is the list of its code units.  What the virtual machine decides, the clock, the tables of
Unicode and the order of a `HashMap`, is a `Jvm`.  The clock is read again and again, also within
one call, so it is the sequence of its readings.
-/
import JavaFX.Runtime
import Mathlib

namespace JavaFX.Webkit

abbrev Text := List CodeUnit

/-- A point in time, and a number that tells apart what was created in one header. -/
structure ExtendedTime where
  baseTime : Int
  subtime : Int
deriving Repr, DecidableEq

namespace ExtendedTime

def incrementSubtime (t : ExtendedTime) : ExtendedTime := { t with subtime := t.subtime + 1 }

def compareTo (t other : ExtendedTime) : Int :=
  let d := Int.bmod (t.baseTime - other.baseTime) (2 ^ 32)
  if d ≠ 0 then d else t.subtime - other.subtime

end ExtendedTime

/-- A cookie of the store. -/
structure Cookie where
  name : Text
  value : Text
  expiryTime : Int
  domain : Text
  path : Text
  creationTime : ExtendedTime
  lastAccessTime : Int
  hostOnly : Bool
  secureOnly : Bool
  httpOnly : Bool
deriving Repr, DecidableEq

/-- `Long.MAX_VALUE`. -/
def maxLong : Int := 2 ^ 63 - 1

/-- The rules of the list of public suffixes. -/
inductive SuffixRule
  | simple
  | wildcard
  | exception
deriving Repr, DecidableEq

structure Jvm where
  /-- `System.currentTimeMillis()`, each time it is called. -/
  currentTimeMillis : Nat → Int
  nondecreasing : Monotone currentTimeMillis
  currentTimeMillis_le : ∀ k, currentTimeMillis k ≤ maxLong
  /-- The order in which a `HashMap` of buckets is iterated. -/
  entrySet : List (Text × List Cookie) → List (Text × List Cookie)
  entrySet_perm : ∀ buckets, (entrySet buckets).Perm buckets
  /-- `Character.toUpperCase`, `Character.toLowerCase` and `Character.digit`. -/
  upper : CodeUnit → CodeUnit
  lower : CodeUnit → CodeUnit
  digit : CodeUnit → Option Nat
  /-- `String.toLowerCase`. -/
  toLowerCase : Text → Text
  toLowerCase_ne_nil : ∀ s, s ≠ [] → toLowerCase s ≠ []
  /-- `DateParser.parse`. -/
  parseDate : Text → Option Int
  /-- The file with the public suffixes, and what it says of a top-level domain. -/
  pslFileExists : Bool
  getRules : Text → Option (Text → Option SuffixRule)

namespace Jvm
variable (jvm : Jvm)

/-- `String.equalsIgnoreCase`. -/
def equalsIgnoreCase : Text → Text → Bool
  | [], [] => true
  | c :: s, c' :: s' =>
    (c == c' || jvm.upper c == jvm.upper c' || jvm.lower (jvm.upper c) == jvm.lower (jvm.upper c'))
      && equalsIgnoreCase s s'
  | _, _ => false

/-- The value of some digits, behind those that were read. -/
def parseDigits (read : Int) : Text → Option Int
  | [] => some read
  | c :: s => (jvm.digit c).bind fun d => parseDigits (10 * read + d) s

/-- `Long.parseLong`. -/
def parseLong (s : Text) : Option Int :=
  let unsigned := if s.head? = some (unit '-') ∨ s.head? = some (unit '+') then s.tail else s
  if unsigned.isEmpty then none
  else (jvm.parseDigits 0 unsigned).bind fun n =>
    let n := if s.head? = some (unit '-') then -n else n
    if -maxLong - 1 ≤ n ∧ n ≤ maxLong then some n else none

/-- A virtual machine for headers of ASCII characters without dates, and with no list of public
suffixes. -/
def ascii (clock : Nat → Int) (nondecreasing : Monotone clock) (le : ∀ k, clock k ≤ maxLong) : Jvm where
  currentTimeMillis := clock
  nondecreasing := nondecreasing
  currentTimeMillis_le := le
  entrySet := id
  entrySet_perm := fun _ => .refl _
  upper := fun c => if unit 'a' ≤ c ∧ c ≤ unit 'z' then c - 32 else c
  lower := fun c => if unit 'A' ≤ c ∧ c ≤ unit 'Z' then c + 32 else c
  digit := fun c => if unit '0' ≤ c ∧ c ≤ unit '9' then some (c.toNat - 48) else none
  toLowerCase := List.map fun c => if unit 'A' ≤ c ∧ c ≤ unit 'Z' then c + 32 else c
  toLowerCase_ne_nil := by simp
  parseDate := fun _ => none
  pslFileExists := false
  getRules := fun _ => none

end Jvm

/-! ### Strings -/

/-- `split(";", -1)`, for any character. -/
def splitAll (c : CodeUnit) : Text → List Text
  | [] => [[]]
  | x :: s =>
    if x = c then [] :: splitAll c s
    else match splitAll c s with
      | [] => [[x]]
      | item :: items => (x :: item) :: items

/-- `split("=", 2)`: what comes before the first `=`, and what comes after it if there is one. -/
def splitFirst (c : CodeUnit) : Text → Text × Option Text
  | [] => ([], none)
  | x :: s => if x = c then ([], some s) else (x :: (splitFirst c s).1, (splitFirst c s).2)

/-- `String.trim`. -/
def trim (s : Text) : Text :=
  ((s.dropWhile (· ≤ 0x20)).reverse.dropWhile (· ≤ 0x20)).reverse

/-! ### The header -/

/-- What a header says of a cookie. -/
structure ParsedCookie where
  name : Text
  value : Text
  expiryTime : Int
  domain : Text
  path : Option Text
  creationTime : ExtendedTime
  lastAccessTime : Int
  secureOnly : Bool
  httpOnly : Bool
deriving Repr, DecidableEq

/-- The local variables of `parse`. -/
structure Attributes where
  expires : Option Int
  maxAge : Option Int
  domain : Option Text
  path : Option Text
  secure : Bool
  httpOnly : Bool
deriving Repr, DecidableEq

section
variable (jvm : Jvm)

def parseExpires (attributeValue : Text) : Option Int :=
  (jvm.parseDate attributeValue).map fun date => max date 0

def parseMaxAge (attributeValue : Text) (currentTime : Int) : Option Int :=
  (jvm.parseLong attributeValue).map fun maxAge =>
    if maxAge ≤ 0 then 0
    else if maxAge > Int.tdiv (Int.bmod (maxLong - currentTime) (2 ^ 64)) 1000 then maxLong
    else currentTime + maxAge * 1000

def parseDomain (attributeValue : Text) : Option Text :=
  if attributeValue.isEmpty then none
  else if attributeValue.head? = some (unit '.') then some (jvm.toLowerCase attributeValue.tail)
  else some (jvm.toLowerCase attributeValue)

def parsePath (attributeValue : Text) : Option Text :=
  if attributeValue.head? = some (unit '/') then some attributeValue else none

/-- One round of the loop of `parse`.  An attribute that cannot be parsed is ignored. -/
def parseAttribute (currentTime : Int) (a : Attributes) (item : Text) : Attributes :=
  let terms := splitFirst (unit '=') item
  let attrName := trim terms.1
  let attrValue := trim (terms.2.getD [])
  if jvm.equalsIgnoreCase (units "Expires") attrName then
    { a with expires := (parseExpires jvm attrValue).or a.expires }
  else if jvm.equalsIgnoreCase (units "Max-Age") attrName then
    { a with maxAge := (parseMaxAge jvm attrValue currentTime).or a.maxAge }
  else if jvm.equalsIgnoreCase (units "Domain") attrName then
    { a with domain := (parseDomain jvm attrValue).or a.domain }
  else if jvm.equalsIgnoreCase (units "Path") attrName then { a with path := parsePath attrValue }
  else if jvm.equalsIgnoreCase (units "Secure") attrName then { a with secure := true }
  else if jvm.equalsIgnoreCase (units "HttpOnly") attrName then { a with httpOnly := true }
  else a

def parse (setCookieString : Text) (currentTime : ExtendedTime) : Option ParsedCookie :=
  let items := splitAll (unit ';') setCookieString
  match splitFirst (unit '=') (items.headD []) with
  | (_, none) => none
  | (name, some value) =>
    if (trim name).isEmpty then none
    else
      let a := items.tail.foldl (parseAttribute jvm currentTime.baseTime) ⟨none, none, none, none, false, false⟩
      some {
        name := trim name
        value := trim value
        expiryTime := (a.maxAge.or a.expires).getD maxLong
        domain := a.domain.getD []
        path := a.path
        creationTime := currentTime
        lastAccessTime := currentTime.baseTime
        secureOnly := a.secure
        httpOnly := a.httpOnly }

end

/-! ### Requests -/

/-- A `java.net.URI`.  Behind a host the path is empty or starts with a slash. -/
structure URI where
  scheme : Option Text
  host : Option Text
  path : Option Text
  path_of_host : host.isSome → ∃ p, path = some p ∧ (p = [] ∨ p.head? = some (unit '/'))

/-- Three decimal digits at most, with a value of a byte. -/
def isOctet (s : Text) : Bool :=
  decide (1 ≤ s.length ∧ s.length ≤ 3) && s.all (fun c => decide (unit '0' ≤ c ∧ c ≤ unit '9'))
    && decide (s.foldl (fun n c => 10 * n + (c.toNat - (unit '0').toNat)) 0 ≤ 255)

def isIpAddress (hostname : Text) : Bool :=
  let groups := splitAll (unit '.') hostname
  decide (groups.length = 4) && groups.all isOctet

namespace Cookie

/-- What `equals` compares. -/
structure Key where
  name : Text
  domain : Text
  path : Text
deriving Repr, DecidableEq

def key (c : Cookie) : Key := ⟨c.name, c.domain, c.path⟩

@[simp] theorem key_domain (c : Cookie) : c.key.domain = c.domain := rfl

/-- `hasExpired`, at a reading of the clock. -/
def hasExpired (now : Int) (c : Cookie) : Bool := decide (now > c.expiryTime)

def domainMatches (domain cookieDomain : Text) : Bool :=
  cookieDomain.isSuffixOf domain && (decide (domain.length = cookieDomain.length) ||
      domain[domain.length - cookieDomain.length - 1]? == some (unit '.') && !isIpAddress domain)

/-- What comes before the last slash. -/
def beforeLastSlash (path : Text) : Text :=
  (path.reverse.dropWhile (· ≠ unit '/')).tail.reverse

def defaultPath (uri : URI) : Text :=
  match uri.path with
  | none => units "/"
  | some path =>
    if path.head? = some (unit '/') then
      if (beforeLastSlash path).isEmpty then units "/" else beforeLastSlash path
    else units "/"

def pathMatches (path : Option Text) (cookiePath : Text) : Bool :=
  match path with
  | none => false
  | some path =>
    cookiePath.isPrefixOf path && (decide (path.length = cookiePath.length) || cookiePath.getLast? == some (unit '/') ||
        path[cookiePath.length]? == some (unit '/'))

end Cookie

end JavaFX.Webkit
