import KestrelOS.Http.Text
import KestrelOS.Lib.StProg

/-!
# The buffered connection

All input and output goes through a transport. What the peers, the clock and the caller's callbacks
do is a state `σ` the client knows nothing about, with one function per call. The calls are
recorded in the order they happen. A callback is named by the caller's pointer that goes with it.
-/

namespace KestrelOS.Http

open List

inductive HttpErr
  | inval | url | scheme | dns | connect | send | recv | proto | toobig | redir | loop | nomem
  | timeout | abort | decode
  deriving DecidableEq, Repr

def httpRxbuf : Nat := 4096

inductive ReadResult
  | data (bs : List UInt8)
  | eof
  | timeout
  | fail

/-- The world outside the client. A peer sends finitely many bytes: `left` bounds what all of them
will still send. -/
structure Net (σ : Type) where
  nowMs : σ → Nat × σ
  nowSec : σ → Int × σ
  schemeFind : List UInt8 → σ → Bool
  connect : (scheme host : List UInt8) → (port : Int) → (timeoutMs : Nat) → σ →
    Except HttpErr Nat × σ
  setTimeout : Nat → Nat → σ → σ
  read : Nat → σ → ReadResult × σ
  write : Nat → List UInt8 → σ → Option Nat × σ
  close : Nat → σ → σ
  sink : Nat → List UInt8 → σ → Bool × σ
  onHeaders : Nat → HttpResponse → σ → Bool × σ
  left : σ → Nat
  read_data : ∀ ctx s bs, (read ctx s).1 = .data bs → 0 < bs.length ∧ bs.length ≤ httpRxbuf ∧
    left (read ctx s).2 + bs.length ≤ left s
  write_some : ∀ ctx bs s n, (write ctx bs s).1 = some n → 0 < n ∧ n ≤ bs.length
  left_nowMs : ∀ s, left (nowMs s).2 ≤ left s
  left_setTimeout : ∀ ctx ms s, left (setTimeout ctx ms s) ≤ left s
  left_sink : ∀ user bs s, left (sink user bs s).2 ≤ left s

/-- A call to a transport or to the caller's sink, with what it carried. -/
inductive WireEvent
  | opened (ctx : Nat)
  | wrote (ctx : Nat) (bs : List UInt8)
  | got (ctx : Nat) (bs : List UInt8)
  | closed (ctx : Nat)
  | sunk (bs : List UInt8)
  deriving DecidableEq, Repr

structure Wire (σ : Type) where
  env : σ
  log : List WireEvent

/-- `buf` holds the bytes between `pos` and `len`. -/
structure HConn where
  origin : List UInt8
  ctx : Nat
  buf : List UInt8
  eof : Bool
  broken : Bool
  opened : Bool
  pooled : Bool
  idleAt : Nat
  deriving DecidableEq, Repr

def HConn.zero : HConn where
  origin := []
  ctx := 0
  buf := []
  eof := false
  broken := false
  opened := false
  pooled := false
  idleAt := 0

structure Link (σ : Type) where
  conn : HConn
  wire : Wire σ

variable {σ : Type} (net : Net σ)

def Wire.nowMs : StProg (Wire σ) Nat := fun w =>
  ((net.nowMs w.env).1, { w with env := (net.nowMs w.env).2 })

def Wire.record (w : Wire σ) (env : σ) (e : WireEvent) : Wire σ := { env, log := w.log ++ [e] }

def hcShutdown : StProg (Link σ) Unit := fun l =>
  let wire :=
    if l.conn.opened then l.wire.record (net.close l.conn.ctx l.wire.env) (.closed l.conn.ctx)
    else l.wire
  ((), { wire, conn := { l.conn with
    opened := false, pooled := false, buf := [], eof := false, broken := false, origin := [] } })

def hcArm (deadline : Nat) : StProg (Link σ) (Except HttpErr Unit) := fun l =>
  if deadline = 0 then (.ok (), l)
  else
    let now := (net.nowMs l.wire.env).1
    let env := (net.nowMs l.wire.env).2
    if deadline ≤ now then (.error .timeout, { l with wire := { l.wire with env } })
    else
      let env := net.setTimeout l.conn.ctx (min (deadline - now) 0x7ffffff0) env
      (.ok (), { l with wire := { l.wire with env } })

inductive Fill
  | data
  | eof
  | err (e : HttpErr)
  deriving DecidableEq, Repr

def hcRefill : StProg (Link σ) Fill := fun l =>
  let env := (net.read l.conn.ctx l.wire.env).2
  match (net.read l.conn.ctx l.wire.env).1 with
  | .eof => (.eof, { conn := { l.conn with eof := true }, wire := { l.wire with env } })
  | .timeout =>
    (.err .timeout, { conn := { l.conn with broken := true }, wire := { l.wire with env } })
  | .fail => (.err .recv, { conn := { l.conn with broken := true }, wire := { l.wire with env } })
  | .data bs =>
    (.data, { conn := { l.conn with buf := bs }, wire := l.wire.record env (.got l.conn.ctx bs) })

def hcFill (deadline : Nat) : StProg (Link σ) Fill := do
  let l ← StProg.get
  if l.conn.buf ≠ [] then return .data
  if l.conn.eof then return .eof
  if l.conn.broken then return .err .recv
  match ← hcArm net deadline with
  | .error e => do
    StProg.modify fun l => { l with conn := { l.conn with broken := true } }
    return .err e
  | .ok () => hcRefill net

theorem hcFill_apply (deadline : Nat) (l : Link σ) : hcFill net deadline l =
      if l.conn.buf ≠ [] then (.data, l)
      else if l.conn.eof then (.eof, l)
      else if l.conn.broken then (.err .recv, l)
      else match (hcArm net deadline l).1 with
        | .error e => (.err e, { (hcArm net deadline l).2 with
            conn := { (hcArm net deadline l).2.conn with broken := true } })
        | .ok () => hcRefill net (hcArm net deadline l).2 := by
  simp only [hcFill, StProg.bind_apply, StProg.cond_apply, StProg.pure_apply]
  cases (hcArm net deadline l).1 <;> rfl

def takeBuf (n : Nat) : StProg (Link σ) (List UInt8) := fun l =>
  (l.conn.buf.take n, { l with conn := { l.conn with buf := l.conn.buf.drop n } })

def dropCr (line : List UInt8) : List UInt8 :=
  if line.getLast? = some 0x0d then line.dropLast else line

def hcLineLoop (deadline : Nat) : Nat → List UInt8 → StProg (Link σ) (Except HttpErr (List UInt8))
  | room, out => do
    match ← hcFill net deadline with
    | .err e => return .error e
    | .eof => return .error (if out.length > 0 then .proto else .recv)
    | .data =>
      match ← takeBuf 1 with
      | [] => return .error .recv
      | ch :: _ =>
        if ch = 0x0a then return .ok (dropCr out)
        else
          match room with
          | 0 => return .error .toobig
          | room + 1 => hcLineLoop deadline room (out ++ [ch])

def hcLine (outsz deadline : Nat) : StProg (Link σ) (Except HttpErr (List UInt8)) :=
  hcLineLoop net deadline (outsz - 1) []

def hcRead (max deadline : Nat) : StProg (Link σ) (Except HttpErr (List UInt8)) := do
  if max = 0 then return .ok []
  match ← hcFill net deadline with
  | .err e => return .error e
  | .eof => return .ok []
  | .data => return .ok (← takeBuf max)

def sendChunk : Nat := 0x40000000

def hcWrite (chunk : List UInt8) : StProg (Link σ) (Option Nat) := fun l =>
  let env := (net.write l.conn.ctx chunk l.wire.env).2
  match (net.write l.conn.ctx chunk l.wire.env).1 with
  | none => (none, { conn := { l.conn with broken := true }, wire := { l.wire with env } })
  | some n => (some n, { l with wire := l.wire.record env (.wrote l.conn.ctx (chunk.take n)) })

/-- The transport takes at least one byte a round. -/
def hcSendLoop : Nat → List UInt8 → StProg (Link σ) (Except HttpErr Unit)
  | 0, _ => pure (.ok ())
  | fuel + 1, data =>
    if data = [] then pure (.ok ())
    else do
      match ← hcWrite net (data.take sendChunk) with
      | none => return .error .send
      | some n => hcSendLoop fuel (data.drop n)

def hcSend (data : List UInt8) : StProg (Link σ) (Except HttpErr Unit) :=
  hcSendLoop net data.length data

/-- The pieces that each transport will still deliver, by its number, and the number of the next
transport. -/
structure Script where
  peers : List (List (List UInt8))
  next : Nat
  deriving DecidableEq, Repr

namespace Script

def piece (s : Script) (ctx : Nat) : Option (List UInt8) :=
  match s.peers[ctx]? with
  | some (bs :: _) => if 0 < bs.length ∧ bs.length ≤ httpRxbuf then some bs else none
  | _ => none

def taken (s : Script) (ctx : Nat) : Script :=
  { s with peers := s.peers.set ctx (s.peers.getD ctx []).tail }

def left (s : Script) : Nat := (s.peers.map fun p => p.flatten.length).sum

theorem sum_map_set {α : Type} (f : α → Nat) {l : List α} {i : Nat} {b : α} (h : l[i]? = some b)
    (a : α) : ((l.set i a).map f).sum + f b = (l.map f).sum + f a := by
  induction l generalizing i with
  | nil => simp at h
  | cons c l ih =>
    cases i with
    | zero =>
      obtain rfl : c = b := by simpa using h
      simp only [set_cons_zero, map_cons, sum_cons]
      omega
    | succ i =>
      have := ih (by simpa using h)
      simp only [set_cons_succ, map_cons, sum_cons]
      omega

theorem left_taken {s : Script} {ctx : Nat} {bs : List UInt8} (h : s.piece ctx = some bs) :
    0 < bs.length ∧ bs.length ≤ httpRxbuf ∧ (s.taken ctx).left + bs.length ≤ s.left := by
  unfold piece at h
  split at h
  · rename_i bs' rest hp
    split_ifs at h with hb
    cases h
    have htail : (s.peers.getD ctx []).tail = rest := by simp [getD, hp]
    have hsum := sum_map_set (fun p => p.flatten.length) hp rest
    rw [flatten_cons, length_append] at hsum
    refine ⟨hb.1, hb.2, ?_⟩
    simp only [left, taken, htail]
    omega
  · cases h

/-- Transports take whatever is written to them, callbacks go on, connecting always succeeds, and
the clock stands still. -/
def world : Net Script where
  nowMs s := (0, s)
  nowSec s := (0, s)
  schemeFind scheme _ := scheme == ascii "http"
  connect _ _ _ _ s := (.ok s.next, { s with next := s.next + 1 })
  setTimeout _ _ s := s
  read ctx s := match s.piece ctx with
    | some bs => (.data bs, s.taken ctx)
    | none => (.eof, s)
  write _ bs s := (if 0 < bs.length then some bs.length else none, s)
  close _ s := s
  sink _ _ s := (true, s)
  onHeaders _ _ s := (true, s)
  left := left
  read_data ctx s bs h := by
    cases hp : s.piece ctx with
    | none => simp [hp] at h
    | some bs' =>
      simp only [hp, ReadResult.data.injEq] at h ⊢
      subst h
      exact left_taken hp
  write_some ctx bs s n h := by
    split_ifs at h with hb
    cases h
    exact ⟨hb, Nat.le_refl _⟩
  left_nowMs _ := Nat.le_refl _
  left_setTimeout _ _ _ := Nat.le_refl _
  left_sink _ _ _ := Nat.le_refl _

end Script
end KestrelOS.Http
