import KestrelOS.Http.Conn

/-!
# Body framing

How the end of a body is found: by length, by chunks or by the end of the connection. The readers
share one refillable buffer and hand what they read to a sink.
-/

namespace KestrelOS.Http

variable {σ τ : Type} (net : Net σ)

def httpLineMax : Nat := 8192

structure HBuf where
  data : List UInt8
  max : Nat
  deriving DecidableEq, Repr

def hbInit (max : Nat) : HBuf := { data := [], max }

def hbAdd (b : HBuf) (d : List UInt8) : Except HttpErr HBuf :=
  if d = [] then .ok b
  else if b.data.length + d.length > b.max then .error .toobig
  else .ok { b with data := b.data ++ d }

/-- What a reader of the wire works on: the connection, the header block that trailers join, and
the state of its sink. -/
structure Rx (τ σ : Type) where
  link : Link σ
  raw : HBuf
  out : τ

abbrev WireSink (τ σ : Type) := List UInt8 → StProg (τ × Wire σ) (Except HttpErr Unit)

def onLink {α : Type} (x : StProg (Link σ) α) : StProg (Rx τ σ) α :=
  StProg.zoom Rx.link (fun r link => { r with link }) x

def callSink (fn : WireSink τ σ) (d : List UInt8) : StProg (Rx τ σ) (Except HttpErr Unit) :=
  StProg.zoom (fun r => (r.out, r.link.wire))
    (fun r p => { r with link := { r.link with wire := p.2 }, out := p.1 }) (fn d)

def readExactly (fn : WireSink τ σ) (deadline : Nat) :
    Nat → Nat → StProg (Rx τ σ) (Except HttpErr Unit)
  | 0, _ => pure (.ok ())
  | fuel + 1, want =>
    if want = 0 then pure (.ok ())
    else do
      match ← onLink (hcRead net (min want httpRxbuf) deadline) with
      | .error e => return .error e
      | .ok [] => return .error .recv
      | .ok d =>
        match ← callSink fn d with
        | .error e => return .error e
        | .ok () => readExactly fn deadline fuel (want - d.length)

def readBodyLength (want : Nat) (fn : WireSink τ σ) (deadline : Nat) :
    StProg (Rx τ σ) (Except HttpErr Unit) :=
  readExactly net fn deadline want want

def readCloseLoop (fn : WireSink τ σ) (deadline : Nat) : Nat → StProg (Rx τ σ) (Except HttpErr Unit)
  | 0 => pure (.error .recv)
  | fuel + 1 => do
    match ← onLink (hcRead net httpRxbuf deadline) with
    | .error e => return .error e
    | .ok [] => return .ok ()
    | .ok d =>
      match ← callSink fn d with
      | .error e => return .error e
      | .ok () => readCloseLoop fn deadline fuel

def Rx.rounds (r : Rx τ σ) : Nat := net.left r.link.wire.env + r.link.conn.buf.length + 1

def readBodyClose (fn : WireSink τ σ) (deadline : Nat) : StProg (Rx τ σ) (Except HttpErr Unit) :=
  fun r => readCloseLoop net fn deadline (r.rounds net) r

def addTrailer (line : List UInt8) : StProg (Rx τ σ) Unit := StProg.modify fun r =>
  if r.raw.data.length + line.length + 1 < r.raw.max then
    { r with raw := { r.raw with data := r.raw.data ++ line ++ [0x0a] } }
  else r

def readTrailers (deadline : Nat) : Nat → StProg (Rx τ σ) (Except HttpErr Unit)
  | 0 => pure (.error .recv)
  | fuel + 1 => do
    match ← onLink (hcLine net httpLineMax deadline) with
    | .error e => return .error e
    | .ok [] => return .ok ()
    | .ok line =>
      addTrailer line
      readTrailers deadline fuel

def maxChunks : Nat := 1000000

def readChunkSize (deadline : Nat) : StProg (Rx τ σ) (Except HttpErr Nat) := do
  match ← onLink (hcLine net httpLineMax deadline) with
  | .error e => return .error e
  | .ok line =>
    match parseHex (untilNul line) with
    | none => return .error .proto
    | some size => return .ok size

def readChunks (fn : WireSink τ σ) (deadline : Nat) : Nat → StProg (Rx τ σ) (Except HttpErr Unit)
  | 0 => do
    match ← readChunkSize net deadline with
    | .error e => return .error e
    | .ok _ => return .error .toobig
  | budget + 1 => do
    match ← readChunkSize net deadline with
    | .error e => return .error e
    | .ok 0 => fun r => readTrailers net deadline (r.rounds net) r
    | .ok (size + 1) =>
      match ← readExactly net fn deadline (size + 1) (size + 1) with
      | .error e => return .error e
      | .ok () =>
        match ← onLink (hcLine net httpLineMax deadline) with
        | .error e => return .error e
        | .ok [] => readChunks fn deadline budget
        | .ok _ => return .error .proto

def readBodyChunked (fn : WireSink τ σ) (deadline : Nat) : StProg (Rx τ σ) (Except HttpErr Unit) :=
  readChunks net fn deadline maxChunks

structure Framing where
  chunked : Bool
  haveLen : Bool
  len : Nat
  toClose : Bool
  determinate : Bool
  deriving DecidableEq, Repr

/-- What follows the last comma, without blanks in front. -/
def lastCoding (te : List UInt8) : List UInt8 :=
  ((te.reverse.takeWhile (· != 0x2c)).reverse).dropWhile hSpace

/-- All lengths have to be numbers and the same number. -/
def contentLength : List (List UInt8) → Option Nat → Except HttpErr (Option Nat)
  | [], seen => .ok seen
  | s :: ss, seen =>
    match parseUl s with
    | none => .error .proto
    | some v => if seen.any (· != v) then .error .proto else contentLength ss (some v)

def noBody (res : HttpResponse) (wantBody : Bool) : Bool :=
  !wantBody || res.status == 204 || res.status == 304 || (100 ≤ res.status && res.status < 200)

def decideFraming (res : HttpResponse) (wantBody : Bool) : Except HttpErr Framing :=
  let te := headerGet res.headers (ascii "Transfer-Encoding")
  let chunked := te.any fun te => ciPrefix (lastCoding te) (ascii "chunked")
  let determinate := te.isNone || chunked
  let len := if chunked then .ok none
    else contentLength (headerValues res.headers (ascii "Content-Length")) none
  match len with
  | .error e => .error e
  | .ok len =>
    if noBody res wantBody then
      .ok { chunked := false, haveLen := true, len := 0, toClose := false, determinate }
    else if !chunked && len.isNone then
      .ok { chunked := false, haveLen := false, len := 0, toClose := true, determinate := false }
    else .ok { chunked, haveLen := len.isSome, len := len.getD 0, toClose := false, determinate }

def readBody (f : Framing) (fn : WireSink τ σ) (deadline : Nat) :
    StProg (Rx τ σ) (Except HttpErr Unit) :=
  if f.chunked then readBodyChunked net fn deadline
  else if f.haveLen then readBodyLength net f.len fn deadline
  else readBodyClose net fn deadline

/-- A piece that is read and handed to the sink, none at the end of the connection. -/
def handPiece (fn : WireSink τ σ) (max deadline : Nat) :
    StProg (Rx τ σ) (Except HttpErr (List UInt8)) := do
  match ← onLink (hcRead net max deadline) with
  | .error e => return .error e
  | .ok [] => return .ok []
  | .ok d =>
    match ← callSink fn d with
    | .error e => return .error e
    | .ok () => return .ok d

theorem readExactly_succ (fn : WireSink τ σ) (deadline fuel : Nat) {want : Nat} (hwant : want ≠ 0) :
    readExactly net fn deadline (fuel + 1) want =
      handPiece net fn (min want httpRxbuf) deadline >>= fun
        | .error e => pure (.error e)
        | .ok [] => pure (.error .recv)
        | .ok d => readExactly net fn deadline fuel (want - d.length) := by
  funext r
  rw [readExactly, if_neg hwant]
  simp only [handPiece, StProg.bind_apply]
  generalize onLink (hcRead net (min want httpRxbuf) deadline) r = q
  obtain ⟨_ | _ | ⟨c, d⟩, r'⟩ := q
  · rfl
  · rfl
  · simp only [StProg.bind_apply]
    cases (callSink fn (c :: d) r').1 <;> rfl

theorem readCloseLoop_succ (fn : WireSink τ σ) (deadline fuel : Nat) :
    readCloseLoop net fn deadline (fuel + 1) =
      handPiece net fn httpRxbuf deadline >>= fun
        | .error e => pure (.error e)
        | .ok [] => pure (.ok ())
        | .ok _ => readCloseLoop net fn deadline fuel := by
  funext r
  rw [readCloseLoop]
  simp only [handPiece, StProg.bind_apply]
  generalize onLink (hcRead net httpRxbuf deadline) r = q
  obtain ⟨_ | _ | ⟨c, d⟩, r'⟩ := q
  · rfl
  · rfl
  · simp only [StProg.bind_apply]
    cases (callSink fn (c :: d) r').1 <;> rfl

end KestrelOS.Http
