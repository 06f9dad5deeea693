import KestrelOS.Http.Date
import KestrelOS.Http.Url
import KestrelOS.Lib.Machine

/-!
# The response cache

`libweb/cache.c`. A header block is read line by line, so a stored block is the list of its lines,
each of which the source ends with a newline. Every copy of a value is made into 512 bytes.
-/

namespace KestrelOS.Cache

open Http (hLower hSpace hDigit ciEq ciPrefix trimBlanks number httpParseDate uintText)

def HTTP_CACHE_BYTES : Nat := 4 * 1024 * 1024
def HTTP_CACHE_ENTRY_MAX : Nat := 1024 * 1024
def HEURISTIC_CAP : Int := 86400
def CACHE_HDR_MAX : Nat := 16384
def ENTRY_SIZE : Nat := 96

abbrev Lines := List (List UInt8)

def textLen (ls : Lines) : Nat := (ls.map fun l => l.length + 1).sum

def lineValue (name l : List UInt8) : Option (List UInt8) :=
  if name.length < l.length ∧ l[name.length]? = some 0x3a ∧ ciEq (l.take name.length) name then
    some (trimBlanks (l.drop (name.length + 1)))
  else none

def rawGet (raw : Lines) (name : List UInt8) : Option (List UInt8) :=
  (raw.findSome? (lineValue name)).map (·.take 511)

def stops (c : UInt8) : Bool := c = 0x2c ∨ c = 0x3d ∨ hSpace c

/-- `cc_find`: the list from the token on. Every turn passes a comma. -/
def ccFindLoop (tok : List UInt8) : Nat → List UInt8 → Option (List UInt8)
  | 0, _ => none
  | fuel + 1, s =>
    let p := s.dropWhile fun c => hSpace c ∨ c = 0x2c
    if p = [] then none
    else if ciPrefix p tok ∧ (p[tok.length]?).all stops then some p
    else ccFindLoop tok fuel (p.dropWhile (· ≠ 0x2c))

def ccFind (list tok : List UInt8) : Option (List UInt8) := ccFindLoop tok (list.length + 1) list

def ccHas (list : List UInt8) (tok : String) : Bool := (ccFind list (ascii tok)).isSome

def twelveDigits (s : List UInt8) : Int := number ((s.take 12).takeWhile hDigit)

def ccDelta (list tok : List UInt8) : Option Int :=
  match ccFind list tok with
  | none => none
  | some p =>
    let p := (p.drop tok.length).dropWhile hSpace
    if p.head? = some 0x3d then
      let p := p.tail.dropWhile fun c => hSpace c ∨ c = 0x22
      if p.head?.any hDigit then some (twelveDigits p) else none
    else none

structure Freshness where
  haveExpires : Bool
  expires : Int
  alwaysRevalidate : Bool
  deriving DecidableEq, Repr

def dateOf (raw : Lines) : Int := ((rawGet raw (ascii "Date")).map httpParseDate).getD (-1)

def baseOf (raw : Lines) (now : Int) : Int := if 0 ≤ dateOf raw then dateOf raw else now

/-- A tenth of the time since the last modification, or a day for what is permanent. -/
def heuristicLifetime (lastModified : Option Int) (base : Int) (status : Nat) : Int :=
  let byStatus := if status = 301 ∨ status = 308 ∨ status = 410 then HEURISTIC_CAP else 0
  match lastModified with
  | some lm => if 0 ≤ lm ∧ lm < base then min ((base - lm) / 10) HEURISTIC_CAP else byStatus
  | none => byStatus

def lifetimeOf (raw : Lines) (now : Int) (status : Nat) : Int :=
  let maxAge := ((rawGet raw (ascii "Cache-Control")).bind (ccDelta · (ascii "max-age"))).getD (-1)
  let byExpires :=
    if maxAge < 0 then
      match rawGet raw (ascii "Expires") with
      | some v => if 0 ≤ httpParseDate v then httpParseDate v - baseOf raw now else 0
      | none => maxAge
    else maxAge
  if byExpires < 0 then
    heuristicLifetime ((rawGet raw (ascii "Last-Modified")).map httpParseDate)
      (baseOf raw now) status
  else byExpires

def initialAge (raw : Lines) (now : Int) : Int :=
  let age := ((rawGet raw (ascii "Age")).map twelveDigits).getD 0
  max 0 (age + (if 0 ≤ dateOf raw ∧ dateOf raw < now then now - dateOf raw else 0))

/-- Whether the response may be stored, and its freshness. -/
def computeFreshness (raw : Lines) (now : Int) (status : Nat) : Bool × Freshness :=
  let cc := rawGet raw (ascii "Cache-Control")
  if cc.any (ccHas · "no-store") then (false, ⟨false, 0, false⟩)
  else (true, {
    haveExpires := true
    expires := now + lifetimeOf raw now status - initialAge raw now
    alwaysRevalidate := cc.any (fun v => ccHas v "no-cache" ∨ ccHas v "must-revalidate") ∨
      (rawGet raw (ascii "Pragma")).any (ccHas · "no-cache") })

def statusCacheable (status : Nat) : Bool :=
  status ∈ [200, 203, 204, 300, 301, 308, 404, 405, 410, 414, 501]

structure Entry where
  key : List UInt8
  headers : Lines
  etag : Option (List UInt8)
  lastMod : Option (List UInt8)
  body : List UInt8
  status : Nat
  stored : Int
  fresh : Freshness
  seq : Nat
  deriving DecidableEq

def Entry.bytes (e : Entry) : Nat := e.body.length + e.key.length + textLen e.headers + ENTRY_SIZE

structure HttpCache where
  entries : List Entry
  max : Nat
  tick : Nat

def httpCacheNew (maxBytes : Nat) : HttpCache :=
  ⟨[], if maxBytes = 0 then HTTP_CACHE_BYTES else maxBytes, 0⟩

def cacheFind (c : HttpCache) (key : List UInt8) : Option Entry := c.entries.find? (·.key = key)

def cacheUnlink (c : HttpCache) (victim : Entry) : HttpCache :=
  { c with entries := c.entries.erase victim }

def httpCacheInvalidate (c : HttpCache) (key : List UInt8) : HttpCache :=
  match cacheFind c key with
  | none => c
  | some e => cacheUnlink c e

def httpCacheClear (c : HttpCache) : HttpCache := { c with entries := [] }

def leastRecent (entries : List Entry) : Option Entry :=
  entries.foldl (fun victim e => match victim with
    | none => some e
    | some v => if e.seq < v.seq then some e else victim) none

/-- An entry in place of the first one with its key, as the source writes through its pointer. -/
def HttpCache.update (c : HttpCache) (e : Entry) : HttpCache :=
  { c with entries := c.entries.map fun e' => if e'.key = e.key then e else e' }

def dropHeader (name : List UInt8) : Bool :=
  [ascii "connection", ascii "keep-alive", ascii "proxy-authenticate", ascii "proxy-authorization",
    ascii "te", ascii "trailer", ascii "transfer-encoding", ascii "upgrade", ascii "content-length",
    ascii "content-encoding"].any (ciEq name)

def keptName (line : List UInt8) : Option (List UInt8) :=
  match cut 0x3a line with
  | (_, none) => none
  | (name, some _) => if name.length < 64 ∧ ¬ dropHeader name then some name else none

def sanitiseHeaders (raw : List UInt8) (bodyLen : Nat) : Option Lines :=
  if CACHE_HDR_MAX < raw.length + 64 then none
  else some ((fields 0x0a raw).filter (fun l => (keptName l).isSome) ++
    [ascii "Content-Length: " ++ uintText bodyLen])

def entryOf (key : List UInt8) (status : Nat) (raw body : List UInt8) (now : Int) : Option Entry :=
  let lines := fields 0x0a raw
  match sanitiseHeaders raw body.length with
  | none => none
  | some headers =>
    let (ok, fresh) := computeFreshness lines now status
    let etag := rawGet lines (ascii "ETag")
    let lastMod := rawGet lines (ascii "Last-Modified")
    if ¬ ok then none
    else if etag = none ∧ lastMod = none ∧ fresh.expires ≤ now then none
    else some { key, headers, etag, lastMod, body, status, stored := now, fresh, seq := 0 }

inductive Lookup
  | miss | fresh | stale
  deriving DecidableEq, Repr

def touch (c : HttpCache) (e : Entry) : HttpCache :=
  { c.update { e with seq := c.tick + 1 } with tick := c.tick + 1 }

def httpCacheLookup (c : HttpCache) (key : List UInt8) (now : Int) : Lookup × HttpCache :=
  match cacheFind c key with
  | none => (.miss, c)
  | some e =>
    if ¬ e.fresh.alwaysRevalidate ∧ e.fresh.haveExpires ∧ now < e.fresh.expires then
      (.fresh, touch c e)
    else if e.etag ≠ none ∨ e.lastMod ≠ none then (.stale, touch c e)
    else (.miss, httpCacheInvalidate (touch c e) key)

def httpCacheFill (c : HttpCache) (key : List UInt8) : HttpCache :=
  match cacheFind c key with
  | none => c
  | some e => touch c e

/-- A line of the stored block, replaced when the 304 has the field, while there is room. -/
def mergeLine (cap : Nat) (fresh : Lines) (out : Lines) (line : List UInt8) : Lines :=
  match cut 0x3a line with
  | (_, none) => out
  | (name, some _) =>
    match (keptName line).bind (rawGet fresh) with
    | some v =>
      if textLen out + (name.length + v.length + 3) ≤ cap then out ++ [name ++ ascii ": " ++ v]
        else out
    | none => if textLen out + line.length + 2 ≤ cap then out ++ [line] else out

def addLine (cap : Nat) (out : Lines) (line : List UInt8) : Lines :=
  match keptName line with
  | none => out
  | some name =>
    if rawGet out name = none ∧ textLen out + line.length + 2 ≤ cap then out ++ [line] else out

def mergeHeaders (base : Lines) (raw : List UInt8) : Option Lines :=
  let fresh := fields 0x0a raw
  let cap := textLen base + raw.length + 2
  if CACHE_HDR_MAX < cap then none
  else some (fresh.foldl (addLine cap) (base.foldl (mergeLine cap fresh) []))

def httpCacheRefresh (c : HttpCache) (key raw : List UInt8) (now : Int) : Bool × HttpCache :=
  match cacheFind c key with
  | none => (false, c)
  | some e =>
    let headers := (mergeHeaders e.headers raw).getD e.headers
    let lines := fields 0x0a raw
    (true, touch c { e with
      headers
      stored := now
      fresh := (computeFreshness headers now e.status).2
      etag := (rawGet lines (ascii "ETag")).or e.etag
      lastMod := (rawGet lines (ascii "Last-Modified")).or e.lastMod })

inductive Call
  | store (key : List UInt8) (status : Nat) (raw body : List UInt8) (now : Int)
      (method : Option (List UInt8))
  | lookup (key : List UInt8) (now : Int)
  | fill (key : List UInt8)
  | refresh (key raw : List UInt8) (now : Int)
  | invalidate (key : List UInt8)
  | clear

end KestrelOS.Cache
