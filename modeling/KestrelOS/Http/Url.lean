import KestrelOS.Http.Text

/-!
# URLs

`url.c`: parsing, percent-encoding, dot-segment removal, normalisation, reference resolution and
serialisation. Every component has a capacity and a function that would exceed one fails.
-/

namespace KestrelOS.Http

inductive UrlErr
  | parse
  | toolong
  deriving DecidableEq, Repr

def urlSchemeMax : Nat := 24
def urlUserinfoMax : Nat := 128
def urlHostMax : Nat := 256
def urlPathMax : Nat := 1024
def urlQueryMax : Nat := 1024
def urlFragMax : Nat := 256
def urlMax : Nat := 2048

structure Url where
  scheme : List UInt8
  userinfo : List UInt8
  host : List UInt8
  path : List UInt8
  query : List UInt8
  fragment : List UInt8
  port : Int
  hasScheme : Bool
  hasAuthority : Bool
  hasUserinfo : Bool
  hasQuery : Bool
  hasFragment : Bool
  isIpv6 : Bool
  deriving DecidableEq, Repr

def Url.zero : Url where
  scheme := []
  userinfo := []
  host := []
  path := []
  query := []
  fragment := []
  port := -1
  hasScheme := false
  hasAuthority := false
  hasUserinfo := false
  hasQuery := false
  hasFragment := false
  isIpv6 := false

def isAlpha (c : UInt8) : Bool := (0x61 ≤ c && c ≤ 0x7a) || (0x41 ≤ c && c ≤ 0x5a)

def hexval (c : UInt8) : Option Nat :=
  if 0x30 ≤ c ∧ c ≤ 0x39 then some (c.toNat - 0x30)
  else if 0x61 ≤ c ∧ c ≤ 0x66 then some (c.toNat - 0x61 + 10)
  else if 0x41 ≤ c ∧ c ≤ 0x46 then some (c.toNat - 0x41 + 10)
  else none

def isUnreserved (c : UInt8) : Bool :=
  isAlpha c || hDigit c || c == 0x2d || c == 0x2e || c == 0x5f || c == 0x7e

def isSubdelim (c : UInt8) : Bool := (ascii "!$&'()*+,;=").contains c

inductive UrlComp
  | path
  | segment
  | query
  | fragment
  | userinfo
  | host
  | form
  deriving DecidableEq, Repr

def compAllows (c : UInt8) (comp : UrlComp) : Bool :=
  isUnreserved c || match comp with
    | .path => isSubdelim c || c == 0x3a || c == 0x40 || c == 0x2f
    | .segment => isSubdelim c || c == 0x3a || c == 0x40
    | .query | .fragment => isSubdelim c || c == 0x3a || c == 0x40 || c == 0x2f || c == 0x3f
    | .userinfo => isSubdelim c || c == 0x3a
    | .host => isSubdelim c
    | .form => false

def hexUpper (d : Nat) : UInt8 := (ascii "0123456789ABCDEF").getD d 0

def pctBytes (c : UInt8) : List UInt8 := [0x25, hexUpper (c.toNat / 16), hexUpper (c.toNat % 16)]

def pctByte (c : UInt8) (comp : UrlComp) : List UInt8 :=
  if comp = .form ∧ c = 0x20 then [0x2b] else if compAllows c comp then [c] else pctBytes c

/-- The text with everything that the component does not allow percent-encoded. A triplet that is
kept has its digits in upper case. -/
def pctText (comp : UrlComp) (keepTriplets : Bool) : List UInt8 → List UInt8
  | [] => []
  | 0x25 :: h :: l :: s =>
    match keepTriplets, hexval h, hexval l with
    | true, some dh, some dl => [0x25, hexUpper dh, hexUpper dl] ++ pctText comp keepTriplets s
    | _, _, _ => pctByte 0x25 comp ++ pctText comp keepTriplets (h :: l :: s)
  | c :: s => pctByte c comp ++ pctText comp keepTriplets s

/-- The copy has to fit with its NUL. -/
def pctCopy (s : List UInt8) (comp : UrlComp) (keepTriplets : Bool) (outsz : Nat) :
    Except UrlErr (List UInt8) :=
  let out := pctText comp keepTriplets s
  if out.length < outsz then .ok out else .error .toolong

def copyN (s : List UInt8) (dstsz : Nat) : Except UrlErr (List UInt8) :=
  if s.length + 1 > dstsz then .error .toolong else .ok s

def portLoop : List UInt8 → Nat → Except UrlErr Nat
  | [], v => .ok v
  | c :: s, v =>
    if !hDigit c then .error .parse
    else
      let v := v * 10 + (c.toNat - 0x30)
      if v > 65535 then .error .parse else portLoop s v

def parsePort (s : List UInt8) : Except UrlErr Int :=
  if s = [] then .ok (-1) else (portLoop s 0).map fun v => (v : Int)

def badHostByte (c : UInt8) : Bool := c ≤ 0x20 || c == 0x5b || c == 0x5d || c == 0x5c || c == 0x7f

def parseHost (s : List UInt8) (u : Url) : Except UrlErr (Url × List UInt8) :=
  match s with
  | 0x5b :: s =>
    let lit := s.takeWhile (· != 0x5d)
    let rest := s.dropWhile (· != 0x5d)
    if rest = [] ∨ lit = [] then .error .parse
    else if lit.any fun c => c != 0x3a && (hexval c).isNone && c != 0x2e then .error .parse
    else if !lit.contains 0x3a then .error .parse
    else do
      let host ← copyN lit urlHostMax
      let rest := rest.drop 1
      if rest ≠ [] ∧ rest.head? ≠ some 0x3a then .error .parse
      else .ok ({ u with host := host.map hLower, isIpv6 := true }, rest)
  | s =>
    let name := s.takeWhile (· != 0x3a)
    if name.any badHostByte then .error .parse
    else do
      let host ← pctCopy name .host true urlHostMax
      .ok ({ u with host := host.map hLower }, s.dropWhile (· != 0x3a))

def parseAuthority (a : List UInt8) (u : Url) : Except UrlErr Url := do
  -- the last at sign ends the user information
  let tail := (a.reverse.takeWhile (· != 0x40)).reverse
  let (u, hostport) ←
    if a.contains 0x40 then do
      let userinfo ← pctCopy (a.take (a.length - tail.length - 1)) .userinfo true urlUserinfoMax
      pure ({ u with userinfo, hasUserinfo := true }, tail)
    else pure (u, a)
  let (u, rest) ← parseHost hostport u
  match rest with
  | [] => .ok u
  | _ :: port => (parsePort port).map fun port => { u with port }

def stripBlanks (s : List UInt8) : List UInt8 :=
  ((s.dropWhile (· ≤ 0x20)).reverse.dropWhile (· ≤ 0x20)).reverse

def schemeByte (c : UInt8) : Bool := isAlpha c || hDigit c || c == 0x2b || c == 0x2d || c == 0x2e

def parseScheme (s : List UInt8) (u : Url) : Except UrlErr (Url × List UInt8) :=
  let scheme := s.takeWhile schemeByte
  match s.head?, s.dropWhile schemeByte with
  | some c, 0x3a :: rest =>
    if isAlpha c then
      (copyN scheme urlSchemeMax).map fun scheme =>
        ({ u with scheme := scheme.map hLower, hasScheme := true }, rest)
    else .ok (u, s)
  | _, _ => .ok (u, s)

def isDelim (c : UInt8) : Bool := c == 0x3f || c == 0x23

def parseQuery (s : List UInt8) (u : Url) : Except UrlErr (Url × List UInt8) :=
  match s with
  | 0x3f :: s => do
    let query ← pctCopy (s.takeWhile (· != 0x23)) .query true urlQueryMax
    .ok ({ u with query, hasQuery := true }, s.dropWhile (· != 0x23))
  | s => .ok (u, s)

def parseFragment (s : List UInt8) (u : Url) : Except UrlErr Url :=
  match s with
  | 0x23 :: s => do
    let fragment ← pctCopy s .fragment true urlFragMax
    .ok { u with fragment, hasFragment := true }
  | _ => .ok u

def urlParse (s : List UInt8) : Except UrlErr Url :=
  let s := stripBlanks s
  if s.length ≥ urlMax then .error .toolong
  else do
    let (u, p) ← parseScheme s Url.zero
    let (u, p) ← match p with
      | 0x2f :: 0x2f :: a => do
        let stop := fun c => !(c == 0x2f || isDelim c)
        let u ← parseAuthority (a.takeWhile stop) u
        pure ({ u with hasAuthority := true }, a.dropWhile stop)
      | p => pure (u, p)
    let path ← pctCopy (p.takeWhile fun c => !isDelim c) .path true urlPathMax
    let (u, p) ← parseQuery (p.dropWhile fun c => !isDelim c) { u with path }
    parseFragment p u

def dropSegment (out : List UInt8) : List UInt8 :=
  ((out.reverse.dropWhile (· != 0x2f)).drop 1).reverse

def firstSegment : List UInt8 → List UInt8
  | 0x2f :: s => 0x2f :: s.takeWhile (· != 0x2f)
  | s => s.takeWhile (· != 0x2f)

/-- One round a turn; every round but the two that leave a slash takes input. -/
def dotLoop (outsz : Nat) : Nat → List UInt8 → List UInt8 → List UInt8
  | 0, _, out => out
  | fuel + 1, s, out =>
    match s with
    | [] => out
    | 0x2e :: 0x2e :: 0x2f :: s => dotLoop outsz fuel s out
    | 0x2e :: 0x2f :: s => dotLoop outsz fuel s out
    | 0x2f :: 0x2e :: 0x2f :: s => dotLoop outsz fuel (0x2f :: s) out
    | [0x2f, 0x2e] => dotLoop outsz fuel [0x2f] out
    | 0x2f :: 0x2e :: 0x2e :: 0x2f :: s => dotLoop outsz fuel (0x2f :: s) (dropSegment out)
    | [0x2f, 0x2e, 0x2e] => dotLoop outsz fuel [0x2f] (dropSegment out)
    | [0x2e] => out
    | [0x2e, 0x2e] => out
    | s =>
      let seg := firstSegment s
      if out.length + seg.length + 1 > outsz then out
      else dotLoop outsz fuel (s.drop seg.length) (out ++ seg)

def removeDotSegments (s : List UInt8) (outsz : Nat) : List UInt8 :=
  dotLoop outsz (s.length + 1) s []

def urlDefaultPort (scheme : List UInt8) : Int :=
  if ciEq scheme (ascii "http") then 80
  else if ciEq scheme (ascii "https") then 443
  else if ciEq scheme (ascii "ftp") then 21
  else if ciEq scheme (ascii "ws") then 80
  else if ciEq scheme (ascii "wss") then 443
  else -1

def urlEffectivePort (u : Url) : Int := if u.port ≥ 0 then u.port else urlDefaultPort u.scheme

/-- Decode the triplets of unreserved bytes; other triplets get digits in upper case. -/
def decodeUnreserved : List UInt8 → List UInt8
  | [] => []
  | 0x25 :: h :: l :: s =>
    match hexval h, hexval l with
    | some dh, some dl =>
      let c := UInt8.ofNat (16 * dh + dl)
      if isUnreserved c then c :: decodeUnreserved s
      else [0x25, hexUpper dh, hexUpper dl] ++ decodeUnreserved s
    | _, _ => 0x25 :: decodeUnreserved (h :: l :: s)
  | c :: s => c :: decodeUnreserved s

structure UrlFlags where
  port : Bool
  dots : Bool
  pct : Bool
  emptyPath : Bool
  deriving DecidableEq, Repr

def urlNormalize (u : Url) (flags : UrlFlags) : Url :=
  let u := if flags.port && u.port ≥ 0 && u.hasScheme && u.port == urlDefaultPort u.scheme then
    { u with port := -1 } else u
  let u := if flags.dots then { u with path := removeDotSegments u.path urlPathMax } else u
  let u := if flags.pct then { u with
    path := decodeUnreserved u.path
    query := decodeUnreserved u.query
    fragment := decodeUnreserved u.fragment } else u
  if flags.emptyPath && u.hasAuthority && u.path.isEmpty then { u with path := [0x2f] } else u

def mergePaths (base : Url) (ref : List UInt8) : Except UrlErr (List UInt8) :=
  let merged :=
    if base.hasAuthority && base.path.isEmpty then 0x2f :: ref
    else (base.path.reverse.dropWhile (· != 0x2f)).reverse ++ ref
  if merged.length + 1 > urlPathMax then .error .toolong else .ok merged

def urlResolve (base ref : Url) (strict : Bool) : Except UrlErr Url :=
  if !base.hasScheme then .error .parse
  else if ref.hasScheme && (strict || !ciEq ref.scheme base.scheme) then
    .ok { ref with path := removeDotSegments ref.path urlPathMax }
  else do
    let withFragment := fun u : Url =>
      { u with scheme := base.scheme, hasScheme := true, hasFragment := ref.hasFragment
               fragment := ref.fragment }
    if ref.hasAuthority then
      .ok (withFragment { ref with path := removeDotSegments ref.path urlPathMax })
    else if ref.path.isEmpty then
      .ok (withFragment { base with
        hasQuery := ref.hasQuery || base.hasQuery
        query := if ref.hasQuery then ref.query else base.query })
    else
      let path ← if ref.path.head? = some 0x2f then .ok (removeDotSegments ref.path urlPathMax)
        else (mergePaths base ref.path).map fun merged => removeDotSegments merged urlPathMax
      .ok (withFragment { base with path, hasQuery := ref.hasQuery, query := ref.query })

def decDigits : Nat → Nat → List UInt8 → List UInt8
  | 0, _, acc => acc
  | fuel + 1, v, acc =>
    let acc := UInt8.ofNat (0x30 + v % 10) :: acc
    if v / 10 = 0 then acc else decDigits fuel (v / 10) acc

def uintText (v : Nat) : List UInt8 := decDigits 20 v []

def fitText (s : List UInt8) (outsz : Nat) : Except UrlErr (List UInt8) :=
  if s.length + 1 > outsz then .error .toolong else .ok s

def hostText (u : Url) : List UInt8 := if u.isIpv6 then [0x5b] ++ u.host ++ [0x5d] else u.host

def portText (port : Int) : List UInt8 := [0x3a] ++ uintText port.toNat

def urlSerialize (u : Url) (outsz : Nat) : Except UrlErr (List UInt8) :=
  fitText ((if u.hasScheme then u.scheme ++ [0x3a] else []) ++
    (if u.hasAuthority then ascii "//" ++ (if u.hasUserinfo then u.userinfo ++ [0x40] else []) ++
      hostText u ++ (if u.port ≥ 0 then portText u.port else []) else []) ++
    u.path ++ (if u.hasQuery then 0x3f :: u.query else []) ++
    (if u.hasFragment then 0x23 :: u.fragment else [])) outsz

def urlOrigin (u : Url) (outsz : Nat) : Except UrlErr (List UInt8) :=
  let port := urlEffectivePort u
  fitText (u.scheme ++ ascii "://" ++ hostText u ++
    (if port ≥ 0 ∧ port ≠ urlDefaultPort u.scheme then portText port else [])) outsz

def urlRequestTarget (u : Url) (outsz : Nat) : Except UrlErr (List UInt8) :=
  fitText ((if u.path.head? = some 0x2f then [] else [0x2f]) ++ u.path ++
    (if u.hasQuery then 0x3f :: u.query else [])) outsz

def urlHostHeader (u : Url) (outsz : Nat) : Except UrlErr (List UInt8) :=
  fitText (hostText u ++
    (if u.port ≥ 0 ∧ u.port ≠ urlDefaultPort u.scheme then portText u.port else [])) outsz

end KestrelOS.Http
