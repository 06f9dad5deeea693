import KestrelOS.Http.Body
import KestrelOS.Http.Url
import Mathlib.Data.Fin.Basic

/-!
# One request and its response

`exchange` takes a connection from the pool or opens one, sends the request, reads the response,
and hands the connection back or closes it. The connection at hand is a slot of the pool, so an
exit that neither shuts it down nor marks it pooled leaves the slot as it is.
-/

namespace KestrelOS.Http

def httpPoolMax : Nat := 6
def httpIdleMs : Nat := 30000
def httpBodyMax : Nat := 16 * 1024 * 1024
def httpHeadersMax : Nat := 32 * 1024
def httpTConnect : Nat := 10000
def httpTHeaders : Nat := 20000
def httpTBody : Nat := 60000
def reqHeadMax : Nat := 16384
def codedMax : Nat := 8 * 1024 * 1024
def emitChunk : Nat := 16384

structure HttpFlags where
  noCookies : Bool
  noCache : Bool
  noRedirect : Bool
  noDecode : Bool
  noKeepalive : Bool
  refresh : Bool
  deriving DecidableEq, Repr

/-- A zero timeout or limit stands for the default; a callback is named by its pointer. -/
structure HttpRequest where
  method : Option (List UInt8)
  url : List UInt8
  body : List UInt8
  contentType : Option (List UInt8)
  extraHeaders : List UInt8
  accept : Option (List UInt8)
  flags : HttpFlags
  maxRedirects : Nat
  connectTimeoutMs : Nat
  headerTimeoutMs : Nat
  bodyTimeoutMs : Nat
  maxBody : Nat
  sink : Option Nat
  onHeaders : Option Nat
  deriving DecidableEq, Repr

inductive HttpInflate
  | raw
  | zlib
  | gzip
  deriving DecidableEq, Repr

inductive CacheLookup
  | miss
  | fresh (etag lastMod : Option (List UInt8))
  | stale (etag lastMod : Option (List UInt8))

/-- The cookie jar, the response cache and the decompressor the client is linked with. -/
structure Stores (J K : Type) where
  inflate : Option (HttpInflate → List UInt8 → Option (List UInt8))
  cookieHeader : J → (host path : List UInt8) → (secure : Bool) → Int → List UInt8
  cookieSet : J → (value host path : List UInt8) → (secure : Bool) → Int → J
  cacheLookup : K → List UInt8 → Int → CacheLookup × K
  cacheFill : K → List UInt8 → Except HttpErr HttpResponse
  cacheStore : K → (key : List UInt8) → (status : Nat) → (rawHeaders body : List UInt8) → Int →
    (method : List UInt8) → K
  cacheRefresh : K → (key rawHeaders : List UInt8) → Int → K
  cacheInvalidate : K → List UInt8 → K

variable {σ J K : Type} (net : Net σ) (stores : Stores J K)

structure BodyOut where
  sink : Option Nat
  mem : HBuf
  tee : HBuf
  teeOn : Bool
  total : Nat
  max : Nat
  deriving DecidableEq, Repr

/-- The copy for the cache is given up when it gets too big. -/
def BodyOut.addTee (o : BodyOut) (d : List UInt8) : BodyOut :=
  if o.teeOn then
    match hbAdd o.tee d with
    | .ok tee => { o with tee }
    | .error _ => { o with teeOn := false, tee := { o.tee with data := [] } }
  else o

def outWrite (d : List UInt8) : StProg (BodyOut × Wire σ) (Except HttpErr Unit) := fun (o, w) =>
  if d = [] then (.ok (), (o, w))
  else if o.total + d.length > o.max then (.error .toobig, (o, w))
  else
    let o := { o with total := o.total + d.length }.addTee d
    match o.sink with
    | some user =>
      let r := net.sink user d w.env
      (if r.1 then .ok () else .error .abort, (o, w.record r.2 (.sunk d)))
    | none =>
      match hbAdd o.mem d with
      | .error e => (.error e, (o, w))
      | .ok mem => (.ok (), ({ o with mem }, w))

def sinkToBuf : WireSink HBuf σ := fun d (b, w) =>
  match hbAdd b d with
  | .error e => (.error e, (b, w))
  | .ok b => (.ok (), (b, w))

/-- The coding a token names; `none` is one that needs no decoding. -/
def codingId (tok : List UInt8) : Except HttpErr (Option HttpInflate) :=
  if ciEq tok (ascii "gzip") || ciEq tok (ascii "x-gzip") then .ok (some .gzip)
  else if ciEq tok (ascii "deflate") then .ok (some .zlib)
  else if ciEq tok (ascii "identity") || tok.isEmpty then .ok none
  else .error .decode

def codingSep (c : UInt8) : Bool := hSpace c || c == 0x2c

def codingLoop : Nat → List UInt8 → Nat → Except HttpErr (List HttpInflate)
  | 0, _, _ => .error .decode
  | fuel + 1, v, room =>
    if v = [] then .ok []
    else if room = 0 then .error .decode
    else
      let v := v.dropWhile codingSep
      let tok := v.takeWhile fun c => !codingSep c
      let rest := v.dropWhile fun c => !codingSep c
      if tok = [] then .ok []
      else
        match codingId (tok.take 31) with
        | .error e => .error e
        | .ok none => codingLoop fuel rest room
        | .ok (some w) => (codingLoop fuel rest (room - 1)).map (w :: ·)

def codingList (v : List UInt8) (max : Nat) : Except HttpErr (List HttpInflate) :=
  codingLoop (v.length + 1) v max

/-- Servers that say deflate often send a raw stream. -/
def inflateOne (inflate : HttpInflate → List UInt8 → Option (List UInt8)) (w : HttpInflate)
    (d : List UInt8) : Option (List UInt8) :=
  match inflate w d, w with
  | some o, _ => some o
  | none, .zlib => inflate .raw d
  | none, _ => none

def inflateAll (inflate : HttpInflate → List UInt8 → Option (List UInt8)) (max : Nat) :
    List HttpInflate → List UInt8 → Except HttpErr (List UInt8)
  | [], d => .ok d
  | w :: ws, d => do
    let d ← inflateAll inflate max ws d
    match inflateOne inflate w d with
    | none => .error .decode
    | some o => if o.length > max then .error .toobig else .ok o

def emitLoop : Nat → List UInt8 → StProg (BodyOut × Wire σ) (Except HttpErr Unit)
  | 0, _ => pure (.ok ())
  | fuel + 1, d =>
    if d = [] then pure (.ok ())
    else do
      match ← outWrite net (d.take emitChunk) with
      | .error e => return .error e
      | .ok () => emitLoop fuel (d.drop emitChunk)

def decodeBody (coded : List UInt8) (codings : List HttpInflate) :
    StProg (BodyOut × Wire σ) (Except HttpErr Unit) := fun (o, w) =>
  match stores.inflate with
  | none => (.error .decode, (o, w))
  | some inflate =>
    if coded = [] then (.ok (), (o, w))
    else
      match inflateAll inflate o.max codings coded with
      | .error e => (.error e, (o, w))
      | .ok d => emitLoop net (d.length + 1) d (o, w)

/-- The client and what an exchange fills in: the header block, the response and the output. -/
structure Ex (σ J K : Type) where
  pool : Fin httpPoolMax → HConn
  jar : Option J
  cache : Option K
  agent : List UInt8
  wire : Wire σ
  raw : HBuf
  res : HttpResponse
  out : BodyOut

structure Hop where
  method : List UInt8
  u : Url
  req : HttpRequest
  condEtag : Option (List UInt8)
  condLm : Option (List UInt8)
  deriving DecidableEq, Repr

def Hop.wantBody (h : Hop) : Bool := !ciEq h.method (ascii "HEAD")

def onConn {α : Type} (i : Fin httpPoolMax) (x : StProg (Link σ) α) : StProg (Ex σ J K) α :=
  StProg.zoom (fun s => { conn := s.pool i, wire := s.wire })
    (fun s l => { s with pool := Function.update s.pool i l.conn, wire := l.wire }) x

def onWire {α : Type} (x : StProg (Wire σ) α) : StProg (Ex σ J K) α :=
  StProg.zoom Ex.wire (fun s wire => { s with wire }) x

def isSecure (u : Url) : Bool := ciEq u.scheme (ascii "https")

def cookieText (h : Hop) : StProg (Ex σ J K) (List UInt8) := fun s =>
  match s.jar with
  | some jar =>
    if h.req.flags.noCookies then ([], s)
    else
      let now := net.nowSec s.wire.env
      let text := stores.cookieHeader jar h.u.host h.u.path (isSecure h.u) now.1
      (if text = [] then [] else ascii "\r\nCookie: " ++ text,
        { s with wire := { s.wire with env := now.2 } })
  | none => ([], s)

def condText (name : String) (v : Option (List UInt8)) : List UInt8 :=
  match v with
  | some (c :: t) => ascii name ++ (c :: t)
  | _ => []

def defaultAccept : List UInt8 :=
  ascii "text/html,application/xhtml+xml,text/plain;q=0.9,image/png,image/jpeg,image/gif,*/*;q=0.5"

def trimCrlf : Nat → List UInt8 → List UInt8
  | 0, t => t
  | fuel + 1, t =>
    if t.length ≥ 2 ∧ t.drop (t.length - 2) = [0x0d, 0x0a] then
      trimCrlf fuel (t.take (t.length - 2))
    else t

def requestText (agent target host cookies : List UInt8) (h : Hop) : List UInt8 :=
  h.method ++ ascii " " ++ target ++ ascii " HTTP/1.1\r\nHost: " ++ host ++
    ascii "\r\nUser-Agent: " ++ agent ++ ascii "\r\nAccept: " ++ h.req.accept.getD defaultAccept ++
    (if stores.inflate.isSome &&
      !h.req.flags.noDecode then ascii "\r\nAccept-Encoding: gzip, deflate"
      else ascii "\r\nAccept-Encoding: identity") ++
    (if h.req.flags.noKeepalive then ascii "\r\nConnection: close"
      else ascii "\r\nConnection: keep-alive") ++
    cookies ++ condText "\r\nIf-None-Match: " h.condEtag ++
    condText "\r\nIf-Modified-Since: " h.condLm ++
    (if h.req.body ≠ [] then
      (match h.req.contentType with
        | some t => ascii "\r\nContent-Type: " ++ t
        | none => []) ++ ascii "\r\nContent-Length: " ++ uintText h.req.body.length
     else if ciEq h.method (ascii "POST") then ascii "\r\nContent-Length: 0"
     else [])

def headText (text extra : List UInt8) : Except HttpErr (List UInt8) :=
  let full := if extra = [] then text else text ++ ascii "\r\n" ++ extra
  if full.length > reqHeadMax then .error .toobig
  else
    let trimmed := if extra = [] then full else trimCrlf full.length full
    if trimmed.length + 4 > reqHeadMax then .error .toobig else .ok (trimmed ++ ascii "\r\n\r\n")

def buildRequest (h : Hop) : StProg (Ex σ J K) (Except HttpErr (List UInt8)) := do
  match urlRequestTarget h.u urlMax, urlHostHeader h.u (urlHostMax + 16) with
  | .ok target, .ok host =>
    let cookies ← cookieText net stores h
    let s ← StProg.get
    return headText (requestText stores s.agent target host cookies h) h.req.extraHeaders
  | _, _ => return .error .url

/-- A header line joins the block; a line that starts with a blank continues the one before. -/
def addHeaderLine (line : List UInt8) (raw : HBuf) : Except HttpErr HBuf :=
  match line with
  | c :: _ =>
    if hSpace c then
      if raw.data = [] then .error .proto
      else do
        let v := (untilNul line).dropWhile hSpace
        let raw ← hbAdd { raw with data := raw.data.dropLast } [0x20]
        let raw ← hbAdd raw v
        hbAdd raw [0x0a]
    else if !(untilNul line).contains 0x3a then .error .proto
    else do
      let raw ← hbAdd raw line
      hbAdd raw [0x0a]
  | [] => .ok raw

def readHeaderLines (i : Fin httpPoolMax) (deadline : Nat) :
    Nat → StProg (Ex σ J K) (Except HttpErr Unit)
  | 0 => pure (.error .toobig)
  | fuel + 1 => do
    match ← onConn i (hcLine net httpLineMax deadline) with
    | .error e => return .error e
    | .ok [] => return .ok ()
    | .ok line =>
      let s ← StProg.get
      match addHeaderLine line s.raw with
      | .error e => return .error e
      | .ok raw =>
        StProg.modify fun s => { s with raw }
        readHeaderLines i deadline fuel

/-- The minor version and the status of a status line. The number is converted to a 32-bit
integer before it is checked. -/
def statusLine (line : List UInt8) : Option (Nat × Nat) :=
  let text := untilNul line
  if !ciPrefix text (ascii "HTTP/1.") then none
  else
    match text.dropWhile (· != 0x20) with
    | [] => none
    | sp =>
      match parseUl (sp.dropWhile (· == 0x20)) with
      | none => none
      | some v =>
        let code := v % 2 ^ 32
        if code < 100 ∨ code > 599 then none
        else some (if text[7]? = some 0x30 then 0 else 1, code)

def readHeadRounds (i : Fin httpPoolMax) (deadline : Nat) :
    Nat → StProg (Ex σ J K) (Except HttpErr Unit)
  | 0 => pure (.error .proto)
  | rounds + 1 => do
    match ← onConn i (hcLine net httpLineMax deadline) with
    | .error e => return .error e
    | .ok [] => readHeadRounds i deadline rounds
    | .ok line =>
      match statusLine line with
      | none => return .error .proto
      | some (minor, code) =>
        StProg.modify fun s =>
          { s with
            res := { s.res with httpMinor := minor, status := code }, raw := hbInit httpHeadersMax }
        match ← readHeaderLines net i deadline (httpHeadersMax + 1) with
        | .error e => return .error e
        | .ok () =>
          if 100 ≤ code ∧ code < 200 ∧ code ≠ 101 then readHeadRounds i deadline rounds
          else do
            StProg.modify
              fun s => { s with res := { s.res with headers := headersBuild s.raw.data } }
            return .ok ()

/-- The status line and the header block, behind at most sixteen blank lines and informational
responses. -/
def readHead (i : Fin httpPoolMax) (deadline : Nat) : StProg (Ex σ J K) (Except HttpErr Unit) :=
  readHeadRounds net i deadline 16

def shouldKeepAlive (res : HttpResponse) (f : Framing) (req : HttpRequest) : Bool :=
  if req.flags.noKeepalive || !f.determinate then false
  else
    match headerGet res.headers (ascii "Connection") with
    | some conn =>
      if ciStr conn (ascii "close") then false
      else if res.httpMinor == 0 && ciStr conn (ascii "keep-alive") then true
      else res.httpMinor ≥ 1
    | none => res.httpMinor ≥ 1

def slots : List (Fin httpPoolMax) := List.finRange httpPoolMax

def poolRetire (now : Nat) : List (Fin httpPoolMax) → StProg (Ex σ J K) Unit
  | [] => pure ()
  | i :: is => do
    let s ← StProg.get
    if (s.pool i).opened && (s.pool i).pooled &&
        (now + 2 ^ 64 - (s.pool i).idleAt) % 2 ^ 64 > httpIdleMs then
      onConn i (hcShutdown net)
    poolRetire now is

def reusable (origin : List UInt8) (c : HConn) : Bool :=
  c.opened && c.pooled && !c.broken && !c.eof && c.origin == origin

def poolTake (origin : List UInt8) : StProg (Ex σ J K) (Option (Fin httpPoolMax)) := do
  let now ← onWire (Wire.nowMs net)
  poolRetire net now slots
  let s ← StProg.get
  match slots.find? fun i => reusable origin (s.pool i) with
  | none => return none
  | some i =>
    onConn i (StProg.modify fun l => { l with conn := { l.conn with pooled := false } })
    return some i

def oldestPooled (pool : Fin httpPoolMax → HConn) :
    List (Fin httpPoolMax) → Option (Fin httpPoolMax) → Option (Fin httpPoolMax)
  | [], oldest => oldest
  | i :: is, oldest =>
    if (pool i).pooled && oldest.all fun j => (pool i).idleAt < (pool j).idleAt then
      oldestPooled pool is (some i)
    else oldestPooled pool is oldest

def poolSlot : StProg (Ex σ J K) (Option (Fin httpPoolMax)) := do
  let s ← StProg.get
  match slots.find? fun i => !(s.pool i).opened with
  | some i => return some i
  | none =>
    match oldestPooled s.pool slots none with
    | none => return none
    | some i =>
      onConn i (hcShutdown net)
      return some i

def connectSlot (h : Hop) (origin : List UInt8) (i : Fin httpPoolMax) :
    StProg (Ex σ J K) (Except HttpErr (Fin httpPoolMax × Bool)) := fun s =>
  let ms := if h.req.connectTimeoutMs > 0 then h.req.connectTimeoutMs else httpTConnect
  let r := net.connect h.u.scheme h.u.host (urlEffectivePort h.u) ms s.wire.env
  match r.1 with
  | .error e => (.error e, { s with
      pool := Function.update s.pool i HConn.zero, wire := { s.wire with env := r.2 } })
  | .ok ctx => (.ok (i, false), { s with
      pool := Function.update s.pool i { HConn.zero with ctx, opened := true, origin }
      wire := s.wire.record r.2 (.opened ctx) })

def acquire (h : Hop) (origin : List UInt8) :
    StProg (Ex σ J K) (Except HttpErr (Fin httpPoolMax × Bool)) := do
  match ← poolTake net origin with
  | some i => return .ok (i, true)
  | none =>
    let s ← StProg.get
    if !net.schemeFind h.u.scheme s.wire.env then return .error .scheme
    match ← poolSlot net with
    | none => return .error .connect
    | some i => connectSlot net h origin i

def sendAndRead (h : Hop) (head : List UInt8) (i : Fin httpPoolMax) :
    StProg (Ex σ J K) (Except HttpErr Unit) := do
  let ms := if h.req.headerTimeoutMs > 0 then h.req.headerTimeoutMs else httpTHeaders
  let deadline := (← onWire (Wire.nowMs net)) + ms
  match ← onConn i (hcSend net head) with
  | .error e => return .error e
  | .ok () =>
    match ← onConn i (hcSend net h.req.body) with
    | .error e => return .error e
    | .ok () => readHead net i deadline

def attempts (h : Hop) (origin head : List UInt8) :
    Nat → StProg (Ex σ J K) (Except HttpErr (Fin httpPoolMax))
  | 0 => pure (.error .recv)
  | n + 1 => do
    match ← acquire net h origin with
    | .error e => return .error e
    | .ok (i, reused) =>
      match ← sendAndRead net h head i with
      | .ok () => return .ok i
      | .error e =>
        onConn i (hcShutdown net)
        if !reused || n == 0 then return .error e else attempts h origin head n

def isRedirect (s : Nat) : Bool := s == 301 || s == 302 || s == 303 || s == 307 || s == 308

/-- The caller is not told of a response that is about to be followed. -/
def headersAccepted (h : Hop) : StProg (Ex σ J K) Bool := fun s =>
  match h.req.onHeaders with
  | none => (true, s)
  | some user =>
    if isRedirect s.res.status && !h.req.flags.noRedirect &&
        (headerGet s.res.headers (ascii "Location")).isSome then (true, s)
    else
      let r := net.onHeaders user s.res s.wire.env
      (r.1, { s with wire := { s.wire with env := r.2 } })

def codingsOf (h : Hop) (res : HttpResponse) : Except HttpErr (List HttpInflate) :=
  if h.req.flags.noDecode then .ok []
  else
    match headerGet res.headers (ascii "Content-Encoding") with
    | none | some [] => .ok []
    | some ce =>
      match codingList ce 3 with
      | .error e => .error e
      | .ok cs => if cs ≠ [] ∧ stores.inflate = none then .error .decode else .ok cs

def bodyFrom {τ : Type} (i : Fin httpPoolMax) (f : Framing) (fn : WireSink τ σ) (deadline : Nat)
    (t : τ) : StProg (Ex σ J K) (Except HttpErr Unit × τ) := fun s =>
  let r := readBody net f fn deadline
    { link := { conn := s.pool i, wire := s.wire }, raw := s.raw, out := t }
  ((r.1, r.2.out), { s with
    pool := Function.update s.pool i r.2.link.conn, wire := r.2.link.wire, raw := r.2.raw })

def receivePlain (i : Fin httpPoolMax) (f : Framing) (deadline : Nat) :
    StProg (Ex σ J K) (Except HttpErr Unit) := fun s =>
  let r := bodyFrom net i f (outWrite net) deadline s.out s
  (r.1.1, { r.2 with out := r.1.2 })

def receiveCoded (i : Fin httpPoolMax) (f : Framing) (codings : List HttpInflate) (deadline : Nat) :
    StProg (Ex σ J K) (Except HttpErr Unit) := do
  match ← bodyFrom net i f sinkToBuf deadline (hbInit codedMax) with
  | (.error e, _) => return .error e
  | (.ok (), coded) =>
    StProg.zoom (fun s => (s.out, s.wire)) (fun s p => { s with out := p.1, wire := p.2 })
      (decodeBody net stores coded.data codings)

def receiveBody (i : Fin httpPoolMax) (f : Framing) (codings : List HttpInflate) (deadline : Nat) :
    StProg (Ex σ J K) (Except HttpErr Unit) :=
  if codings = [] then receivePlain net i f deadline
  else receiveCoded net stores i f codings deadline

def giveBack (i : Fin httpPoolMax) (keep : Bool) : StProg (Ex σ J K) Unit :=
  if keep then do
    let now ← onWire (Wire.nowMs net)
    onConn i
      (StProg.modify fun l => { l with conn := { l.conn with pooled := true, idleAt := now } })
  else onConn i (hcShutdown net)

/-- With the trailers of a chunked body the headers are read anew; then the connection is given
back. -/
def afterBody (h : Hop) (i : Fin httpPoolMax) (f : Framing) (ok : Bool) :
    StProg (Ex σ J K) Unit := do
  StProg.modify fun s =>
    if ok && f.chunked then { s with res := { s.res with headers := headersBuild s.raw.data } }
      else s
  let s ← StProg.get
  giveBack net i (ok && shouldKeepAlive s.res f h.req)

def finishBody (h : Hop) (i : Fin httpPoolMax) (f : Framing) (codings : List HttpInflate) :
    StProg (Ex σ J K) (Except HttpErr Unit) := do
  let ms := if h.req.bodyTimeoutMs > 0 then h.req.bodyTimeoutMs else httpTBody
  let deadline := (← onWire (Wire.nowMs net)) + ms
  let rc ← receiveBody net stores i f codings deadline
  afterBody net h i f rc.isOk
  return rc

def beforeBody (h : Hop) : StProg (Ex σ J K) (Except HttpErr (Framing × List HttpInflate)) := do
  let s ← StProg.get
  match decideFraming s.res h.wantBody with
  | .error e => return .error e
  | .ok f =>
    if !(← headersAccepted net h) then return .error .abort
    match codingsOf stores h s.res with
    | .error e => return .error e
    | .ok codings => return .ok (f, codings)

/-- What follows the head of a response. If a check fails the function leaves without a word to the
connection. -/
def finish (h : Hop) (i : Fin httpPoolMax) : StProg (Ex σ J K) (Except HttpErr Unit) := do
  match ← beforeBody net stores h with
  | .error e => return .error e
  | .ok (f, codings) => finishBody net stores h i f codings

def answer (h : Hop) : StProg (Ex σ J K) (Except HttpErr (Fin httpPoolMax)) := do
  match urlOrigin h.u (urlHostMax + 32) with
  | .error _ => return .error .url
  | .ok origin =>
    match ← buildRequest net stores h with
    | .error e => return .error e
    | .ok head => attempts net h origin head 2

def exchange (h : Hop) : StProg (Ex σ J K) (Except HttpErr Unit) := do
  match ← answer net stores h with
  | .error e => return .error e
  | .ok i => finish net stores h i

end KestrelOS.Http
