import KestrelOS.Http.Date
import KestrelOS.Lib.Machine
import KestrelOS.Lib.SelectionSort

/-!
# The cookie jar

`libweb/cookie.c`: dates, domain and path matching, the jar, `Set-Cookie` and the `Cookie` header.
Times are integers; the jar is the list from its head, and its byte count is the sum over it.
-/

namespace KestrelOS.Cookies

open Http (hLower hSpace hDigit ciEq trimBlanks number daysFromCivil fullYear DateParts monthId)

def COOKIE_PAIR_MAX : Nat := 4096
def COOKIE_ATTR_MAX : Nat := 512
def COOKIE_JAR_MAX : Nat := 1000
def COOKIE_PER_DOMAIN_MAX : Nat := 50
def COOKIE_HEADER_MAX : Nat := 8192
def SC_MAX : Nat := 8192
def JAR_BYTES_MAX : Nat := 512 * 1024
def SEND_MAX : Nat := 128
def COOKIE_AGE_CAP : Int := 400 * 86400

def lowerStr (s : List UInt8) : List UInt8 := s.map hLower

def stripCtl (s : List UInt8) : List UInt8 := s.filter fun c => 0x20 ≤ c ∧ c ≠ 0x7f

def hostIsIp (h : List UInt8) : Bool :=
  h ≠ [] ∧ h.all (fun c => c = 0x2e ∨ hDigit c) ∧ h.count 0x2e = 3

def monthFromName (s : List UInt8) : Option Nat := monthId s

def isDelim (c : UInt8) : Bool :=
  c = 0x09 ∨ (0x20 ≤ c ∧ c ≤ 0x2f) ∨ (0x3b ≤ c ∧ c ≤ 0x40) ∨ (0x5b ≤ c ∧ c ≤ 0x60) ∨
    (0x7b ≤ c ∧ c ≤ 0x7e)

def digitsPrefix (s : List UInt8) (max : Nat) : Nat × Nat :=
  let digits := (s.take max).takeWhile hDigit
  (digits.length, number digits)

def timeOf (tok : List UInt8) : Option (Nat × Nat × Nat) :=
  let (p, hh) := digitsPrefix tok 2
  if 1 ≤ p ∧ tok[p]? = some 0x3a then
    let (q, mm) := digitsPrefix (tok.drop (p + 1)) 2
    if 1 ≤ q ∧ tok[p + 1 + q]? = some 0x3a then
      let (r, ss) := digitsPrefix (tok.drop (p + 1 + q + 1)) 2
      if 1 ≤ r then some (hh, mm, ss) else none
    else none
  else none

def dateToken (d : DateParts) (tok : List UInt8) : DateParts :=
  if d.time = none ∧ (timeOf tok).isSome then { d with time := timeOf tok }
  else if d.day = none ∧ 1 ≤ (digitsPrefix tok 2).1 ∧ tok.length ≤ 2 then
    { d with day := some (digitsPrefix tok 2).2 }
  else if d.mon = none ∧ 3 ≤ tok.length ∧ (monthFromName tok).isSome then
    { d with mon := monthFromName tok }
  else if d.year = none ∧ 2 ≤ (digitsPrefix tok 4).1 ∧ (digitsPrefix tok 4).1 = tok.length then
    { d with year := some (digitsPrefix tok 4).2 }
  else d

def parseDate (s : List UInt8) : Option Int :=
  if 128 < s.length then none
  else match (splitOn isDelim [] s).foldl dateToken {} with
    | ⟨some (hh, mm, ss), some day, some mon, some year⟩ =>
      if day < 1 ∨ 31 < day ∨ fullYear year < 1601 ∨ 23 < hh ∨ 59 < mm ∨ 59 < ss then none
      else some (daysFromCivil (fullYear year) mon day * 86400 + hh * 3600 + mm * 60 + ss)
    | _ => none

def cookieParseDate (s : List UInt8) : Int := (parseDate s).getD (-1)

def cookieDomainMatch (host domain : List UInt8) : Bool :=
  if host = [] ∨ domain = [] then false
  else if ciEq host domain then true
  else if host.length ≤ domain.length then false
  else if host[host.length - domain.length - 1]? ≠ some 0x2e then false
  else if ¬ ciEq (host.drop (host.length - domain.length)) domain then false
  else ¬ hostIsIp host

def cookiePathMatch (reqPath cookiePath : List UInt8) : Bool :=
  if cookiePath = [] then false
  else if reqPath = cookiePath then true
  else if reqPath.length < cookiePath.length then false
  else if ¬ cookiePath.isPrefixOf reqPath then false
  else if cookiePath.getLast? = some 0x2f then true
  else reqPath[cookiePath.length]? = some 0x2f

/-- The path up to its last slash; `none` when that does not fit. -/
def cookieDefaultPath (reqPath : List UInt8) (outsz : Nat) : Option (List UInt8) :=
  let dir := ((reqPath.reverse.dropWhile (· ≠ 0x2f)).drop 1).reverse
  if reqPath.head? ≠ some 0x2f then some (ascii "/")
  else if dir = [] then some (ascii "/")
  else if outsz < dir.length + 1 then none
  else some dir

def psl2 : List (List UInt8) := [
  ascii "co.uk", ascii "org.uk", ascii "me.uk", ascii "ltd.uk", ascii "plc.uk", ascii "net.uk",
  ascii "sch.uk", ascii "ac.uk", ascii "gov.uk", ascii "nhs.uk", ascii "com.au", ascii "net.au",
  ascii "org.au", ascii "edu.au", ascii "gov.au", ascii "id.au", ascii "co.nz", ascii "net.nz",
  ascii "org.nz", ascii "govt.nz", ascii "ac.nz", ascii "co.za", ascii "org.za", ascii "co.jp",
  ascii "ne.jp", ascii "or.jp", ascii "ac.jp", ascii "go.jp", ascii "com.br", ascii "net.br",
  ascii "org.br", ascii "gov.br", ascii "com.cn", ascii "net.cn", ascii "org.cn", ascii "gov.cn",
  ascii "edu.cn", ascii "co.in", ascii "net.in", ascii "org.in", ascii "gen.in", ascii "firm.in",
  ascii "com.mx", ascii "org.mx", ascii "co.kr", ascii "or.kr", ascii "ne.kr", ascii "com.tr",
  ascii "gen.tr", ascii "co.il", ascii "org.il", ascii "ac.il", ascii "com.sg", ascii "com.hk",
  ascii "org.hk", ascii "com.tw", ascii "com.ar", ascii "com.pl", ascii "com.ua", ascii "com.ru",
  ascii "com.co", ascii "co.id", ascii "co.th", ascii "github.io", ascii "blogspot.com",
  ascii "appspot.com", ascii "s3.amazonaws.com"]

def psl2Generic : List (List UInt8) := [
  ascii "co", ascii "com", ascii "net", ascii "org", ascii "edu", ascii "gov", ascii "mil",
  ascii "ac", ascii "or", ascii "ne", ascii "go", ascii "gr", ascii "ltd", ascii "plc",
  ascii "sch", ascii "nom", ascii "info", ascii "biz", ascii "govt"]

def cookiePublicSuffix (domain : List UInt8) : Bool :=
  let labels := domain.count 0x2e + 1
  let first := (cut 0x2e domain).1
  let last := (cut 0x2e domain).2.getD []
  if domain = [] then true
  else if hostIsIp domain then true
  else if labels < 2 then true
  else if 2 < labels then false
  else if psl2.any (ciEq domain) then true
  else last.length = 2 ∧ first.length < 32 ∧ psl2Generic.any (ciEq first)

inductive SameSite
  | none | lax | strict
  deriving DecidableEq, Repr

structure Cookie where
  name : List UInt8
  value : List UInt8
  domain : List UInt8
  path : List UInt8
  expires : Int
  created : Int
  accessed : Int
  hostOnly : Bool
  secure : Bool
  httpOnly : Bool
  samesite : SameSite
  persistent : Bool
  deriving DecidableEq, Repr

def Cookie.bytes (c : Cookie) : Nat :=
  c.name.length + c.value.length + c.domain.length + c.path.length + 4

def Cookie.expiredAt (c : Cookie) (now : Int) : Bool := c.persistent ∧ c.expires ≤ now

def Cookie.is (c : Cookie) (name domain path : List UInt8) : Bool :=
  c.name = name ∧ ciEq c.domain domain ∧ c.path = path

abbrev Jar := List Cookie

def jarFind (j : Jar) (name domain path : List UInt8) : Option Cookie :=
  j.find? (·.is name domain path)

def jarUnlink (j : Jar) (victim : Cookie) : Jar := j.erase victim

def jarRemove (j : Jar) (name domain path : List UInt8) : Jar :=
  match jarFind j name domain path with
  | none => j
  | some c => jarUnlink j c

def cookieExpire (j : Jar) (now : Int) : Nat × Jar :=
  (j.countP (·.expiredAt now), j.filter fun c => ¬ c.expiredAt now)

def olderUse (c victim : Cookie) : Bool :=
  c.accessed < victim.accessed ∨ (c.accessed = victim.accessed ∧ c.created < victim.created)

def evictee (domain : Option (List UInt8)) (j : Jar) : Option Cookie :=
  j.foldl (fun victim c =>
    if domain.any fun d => ¬ ciEq c.domain d then victim
    else match victim with
      | none => some c
      | some v => if olderUse c v then some c else victim) none

def jarEvictOne (j : Jar) (domain : Option (List UInt8)) : Jar :=
  match evictee domain j with
  | none => j
  | some c => jarUnlink j c

def jarDomainCount (j : Jar) (domain : List UInt8) : Nat := j.countP fun c => ciEq c.domain domain

/-- `while (full) jar_evict_one`: every turn takes a cookie away. -/
def evictWhile (full : Jar → Bool) (domain : Option (List UInt8)) : Nat → Jar → Jar
  | 0, j => j
  | n + 1, j => if full j then evictWhile full domain n (jarEvictOne j domain) else j

def Jar.full (c : Cookie) (j : Jar) : Bool :=
  COOKIE_JAR_MAX ≤ j.length ∨ JAR_BYTES_MAX < (j.map Cookie.bytes).sum + c.bytes

/-- `c` is inserted or replaces its match, whose creation time it takes over. -/
def jarStore (j : Jar) (c : Cookie) : Int × Jar :=
  let created := ((jarFind j c.name c.domain c.path).map Cookie.created).getD c.created
  let j := jarRemove j c.name c.domain c.path
  let j := evictWhile (fun j => COOKIE_PER_DOMAIN_MAX ≤ jarDomainCount j c.domain) (some c.domain)
    j.length j
  let j := evictWhile (Jar.full c) none j.length j
  if Jar.full c j then (-1, j) else (1, { c with created := created } :: j)

@[ext] structure Attrs where
  expires : Option Int := none
  maxage : Option Int := none
  domain : Option (List UInt8) := none
  path : Option (List UInt8) := none
  secure : Bool := false
  httpOnly : Bool := false
  samesite : SameSite := .lax

def attrOf (piece : List UInt8) : List UInt8 × List UInt8 :=
  (trimBlanks (cut 0x3d piece).1, ((cut 0x3d piece).2.map fun v => stripCtl (trimBlanks v)).getD [])

def ageLoop : List UInt8 → Int → Int
  | [], v => v
  | c :: s, v =>
    if hDigit c then
      ageLoop s (if v > COOKIE_AGE_CAP + 1 then COOKIE_AGE_CAP + 1 else v * 10 + (c.toNat - 0x30))
    else v

def expiresAttr (av : List UInt8) : Option Int :=
  if 0 ≤ cookieParseDate av then some (cookieParseDate av) else none

def maxAgeAttr (av : List UInt8) : Option Int :=
  if av.head? = some 0x2d then
    if av.tail.head?.any hDigit then some (-ageLoop av.tail 0) else none
  else if av.head?.any hDigit then some (ageLoop av 0)
  else none

def domainAttr (av : List UInt8) : Option (List UInt8) :=
  let d := if av.head? = some 0x2e then av.tail else av
  if d ≠ [] ∧ d.length < COOKIE_ATTR_MAX then some (lowerStr d) else none

def pathAttr (av : List UInt8) : Option (List UInt8) :=
  if av.head? = some 0x2f ∧ av.length < COOKIE_ATTR_MAX then some av else none

def samesiteAttr (av : List UInt8) : SameSite :=
  if ciEq av (ascii "strict") then .strict else if ciEq av (ascii "none") then .none else .lax

inductive AttrKind
  | expires | maxAge | domain | path | secure | httpOnly | sameSite | other
  deriving DecidableEq, Repr

def attrKind (an : List UInt8) : AttrKind :=
  if ciEq an (ascii "expires") then .expires
  else if ciEq an (ascii "max-age") then .maxAge
  else if ciEq an (ascii "domain") then .domain
  else if ciEq an (ascii "path") then .path
  else if ciEq an (ascii "secure") then .secure
  else if ciEq an (ascii "httponly") then .httpOnly
  else if ciEq an (ascii "samesite") then .sameSite
  else .other

def readAttr (a : Attrs) (attr : List UInt8 × List UInt8) : Attrs :=
  match attrKind attr.1 with
  | .expires => { a with expires := (expiresAttr attr.2).or a.expires }
  | .maxAge => { a with maxage := (maxAgeAttr attr.2).or a.maxage }
  | .domain => { a with domain := (domainAttr attr.2).or a.domain }
  | .path => { a with path := (pathAttr attr.2).or a.path }
  | .secure => { a with secure := true }
  | .httpOnly => { a with httpOnly := true }
  | .sameSite => { a with samesite := samesiteAttr attr.2 }
  | .other => a

def nameValue (text : List UInt8) : Option (List UInt8 × List UInt8) :=
  let pair := cut 0x3d ((fields 0x3b text).headD [])
  pair.2.map fun v => (stripCtl (trimBlanks pair.1), stripCtl (trimBlanks v))

def attributes (text : List UInt8) : List (List UInt8 × List UInt8) :=
  (fields 0x3b text).tail.map attrOf

def expiryOf (a : Attrs) (now : Int) : Bool × Int :=
  match a.maxage with
  | some m => (true, if m ≤ 0 then 0 else now + (if m > COOKIE_AGE_CAP then COOKIE_AGE_CAP else m))
  | none => match a.expires with
    | some t => (true, if t - now > COOKIE_AGE_CAP then now + COOKIE_AGE_CAP else t)
    | none => (false, 0)

def cookieDomain (a : Attrs) (lhost : List UInt8) : Option (List UInt8 × Bool) :=
  match a.domain with
  | some d =>
    if cookiePublicSuffix d then if ciEq d lhost then some (lhost, true) else none
    else if cookieDomainMatch lhost d then some (d, false) else none
  | none => if lhost.length < COOKIE_ATTR_MAX then some (lhost, true) else none

/-- The cookie that a `Set-Cookie` text stands for; `none` when it is rejected. -/
def readSetCookie (text host path : List UInt8) (now : Int) : Option Cookie :=
  if text = [] ∨ SC_MAX ≤ text.length ∨ 256 ≤ host.length then none
  else do
    let pair ← nameValue text
    if pair.1 = [] ∨ COOKIE_PAIR_MAX < pair.1.length + pair.2.length then none
    else do
      let a := (attributes text).foldl readAttr {}
      let domain ← cookieDomain a (lowerStr host)
      let path ← a.path.or (cookieDefaultPath path COOKIE_ATTR_MAX)
      pure {
        name := pair.1, value := pair.2, domain := domain.1, path,
        expires := (expiryOf a now).2, created := now, accessed := now, hostOnly := domain.2,
        secure := a.secure, httpOnly := a.httpOnly, samesite := a.samesite,
        persistent := (expiryOf a now).1 }

def cookieSet (j : Jar) (text host path : List UInt8) (now : Int) : Int × Jar :=
  match readSetCookie text host path now with
  | none => (0, j)
  | some c => if c.expiredAt now then (1, jarRemove j c.name c.domain c.path) else jarStore j c

inductive Context
  | sameSite | crossTop | crossSub
  deriving DecidableEq, Repr

structure Query where
  host : List UInt8
  path : List UInt8
  secureChannel : Bool
  httpApi : Bool
  ctx : Context
  now : Int
  outsz : Nat

def sendAllowed (samesite : SameSite) : Context → Bool
  | .sameSite => true
  | .crossTop => samesite ≠ .strict
  | .crossSub => samesite = .none

def picks (q : Query) (c : Cookie) : Bool :=
  ¬ c.expiredAt q.now ∧
  (if c.hostOnly then ciEq (lowerStr q.host) c.domain
    else cookieDomainMatch (lowerStr q.host) c.domain) ∧
  cookiePathMatch q.path c.path ∧ (c.secure → q.secureChannel) ∧ (c.httpOnly → q.httpApi) ∧
  sendAllowed c.samesite q.ctx

def sendsBefore (c best : Cookie) : Bool :=
  best.path.length < c.path.length ∨ (c.path.length = best.path.length ∧ c.created < best.created)

def Cookie.pair (c : Cookie) : List UInt8 := c.name ++ [0x3d] ++ c.value

def emitLoop (outsz : Nat) : List Cookie → List UInt8 → List UInt8 × List Cookie
  | [], out => (out, [])
  | c :: cs, out =>
    let next := (if out = [] then [] else [0x3b, 0x20]) ++ c.pair
    if outsz < out.length + next.length + 1 ∨ COOKIE_HEADER_MAX < out.length + next.length + 1 then
      (out, [])
    else
      let rest := emitLoop outsz cs (out ++ next)
      (rest.1, c :: rest.2)

/-- The text and the cookies in it; `none` for the -1 of a call without room for the NUL. -/
def headerOf (j : Jar) (q : Query) : Option (List UInt8 × List Cookie) :=
  if q.outsz = 0 then none
  else if 256 ≤ q.host.length then some ([], [])
  else
    let pick := (j.filter (picks q)).take SEND_MAX
    some (emitLoop q.outsz (selectionSort sendsBefore pick.length pick) [])

def cookieHeader (j : Jar) (q : Query) : Option (List UInt8) × Jar :=
  match headerOf j q with
  | none => (none, j)
  | some (out, sent) =>
    (some out, j.map fun c => if c ∈ sent then { c with accessed := q.now } else c)

inductive Call
  | set (text host path : List UInt8) (now : Int)
  | expire (now : Int)
  | header (q : Query)

def step (j : Jar) : Call → Jar
  | .set text host path now => (cookieSet j text host path now).2
  | .expire now => (cookieExpire j now).2
  | .header q => (cookieHeader j q).2

def jarAfter (calls : List Call) : Jar := Machine.run step calls []

example : headerOf (jarAfter [.set (ascii "sid=abc; Path=/") (ascii "example.com") (ascii "/x") 5])
    ⟨ascii "Example.com", ascii "/x", false, true, .sameSite, 6, 100⟩ =
      some (ascii "sid=abc", jarAfter
        [.set (ascii "sid=abc; Path=/") (ascii "example.com") (ascii "/x") 5]) := by decide +kernel

end KestrelOS.Cookies
