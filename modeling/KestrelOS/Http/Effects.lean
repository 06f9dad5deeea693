import KestrelOS.Http.Fetch

/-!
# What the parts of the client touch

Reading and sending change the buffer and the error flags of a connection, never whether it is open
or pooled, and record their calls at the end of the log. Each function is related once to the state
it started from; slots, deliveries and sinks are read off from there.
-/

namespace KestrelOS.Http

open StProg Function

variable {σ τ J K : Type} (net : Net σ) (stores : Stores J K)

def Wire.Grows (P : WireEvent → Prop) (w w' : Wire σ) : Prop :=
  ∃ evs, w'.log = w.log ++ evs ∧ ∀ e ∈ evs, P e

namespace Wire.Grows

variable {P Q : WireEvent → Prop} {w w' w'' : Wire σ}

theorem refl (w : Wire σ) : w.Grows P w := ⟨[], by simp, by simp⟩

theorem trans (h : w.Grows P w') (h' : w'.Grows P w'') : w.Grows P w'' := by
  obtain ⟨evs, hlog, hP⟩ := h
  obtain ⟨evs', hlog', hP'⟩ := h'
  refine ⟨evs ++ evs', by rw [hlog', hlog, List.append_assoc], fun e he => ?_⟩
  rcases List.mem_append.mp he with he | he
  · exact hP e he
  · exact hP' e he

theorem mono (h : w.Grows P w') (hPQ : ∀ e, P e → Q e) : w.Grows Q w' := by
  obtain ⟨evs, hlog, hP⟩ := h
  exact ⟨evs, hlog, fun e he => hPQ e (hP e he)⟩

theorem same (h : w'.log = w.log) : w.Grows P w' := ⟨[], by simp [h], by simp⟩

theorem record (env : σ) {e : WireEvent} (he : P e) : w.Grows P (w.record env e) :=
  ⟨[e], rfl, by simpa using he⟩

end Wire.Grows

namespace WireEvent

def Got : WireEvent → Prop
  | got _ _ => True
  | _ => False

def Wrote : WireEvent → Prop
  | wrote _ _ => True
  | _ => False

def Sunk : WireEvent → Prop
  | sunk _ => True
  | _ => False

end WireEvent

structure Link.Keeps (P : WireEvent → Prop) (l l' : Link σ) : Prop where
  opened : l'.conn.opened = l.conn.opened
  pooled : l'.conn.pooled = l.conn.pooled
  ctx : l'.conn.ctx = l.conn.ctx
  grows : l.wire.Grows P l'.wire

instance (P : WireEvent → Prop) : Std.Refl (@Link.Keeps σ P) where
  refl _ := ⟨rfl, rfl, rfl, .refl _⟩

instance (P : WireEvent → Prop) : IsTrans (Link σ) (Link.Keeps P) where
  trans _ _ _ h h' := ⟨h'.opened.trans h.opened, h'.pooled.trans h.pooled, h'.ctx.trans h.ctx,
    h.grows.trans h'.grows⟩

theorem Link.Keeps.mono {P Q : WireEvent → Prop} {l l' : Link σ} (h : Link.Keeps P l l')
    (hPQ : ∀ e, P e → Q e) : Link.Keeps Q l l' :=
  ⟨h.opened, h.pooled, h.ctx, h.grows.mono hPQ⟩

theorem hcArm_keeps (P : WireEvent → Prop) (deadline : Nat) :
    Steps (Link.Keeps P) (hcArm net deadline) := by
  intro l
  unfold hcArm
  dsimp only
  split_ifs
  · exact ⟨rfl, rfl, rfl, .refl _⟩
  · exact ⟨rfl, rfl, rfl, .same rfl⟩
  · exact ⟨rfl, rfl, rfl, .same rfl⟩

theorem hcRefill_keeps : Steps (Link.Keeps WireEvent.Got) (hcRefill net) := by
  intro l
  unfold hcRefill
  dsimp only
  split
  · exact ⟨rfl, rfl, rfl, .same rfl⟩
  · exact ⟨rfl, rfl, rfl, .same rfl⟩
  · exact ⟨rfl, rfl, rfl, .same rfl⟩
  · exact ⟨rfl, rfl, rfl, .record _ trivial⟩

@[grind ←] theorem hcFill_keeps (deadline : Nat) :
    Steps (Link.Keeps WireEvent.Got) (hcFill net deadline) := by
  intro l
  have harm := hcArm_keeps net WireEvent.Got deadline l
  rw [hcFill_apply]
  split_ifs
  · exact Std.Refl.refl l
  · exact Std.Refl.refl l
  · exact Std.Refl.refl l
  split
  · exact IsTrans.trans _ _ _ harm ⟨rfl, rfl, rfl, .same rfl⟩
  · exact IsTrans.trans _ _ _ harm (hcRefill_keeps net _)

@[grind ←] theorem takeBuf_keeps (P : WireEvent → Prop) (n : Nat) :
    Steps (Link.Keeps P) (takeBuf n : StProg (Link σ) _) :=
  fun _ => ⟨rfl, rfl, rfl, .same rfl⟩

theorem hcLineLoop_keeps (deadline room : Nat) (out : List UInt8) :
    Steps (Link.Keeps WireEvent.Got) (hcLineLoop net deadline room out) := by
  induction room generalizing out with
  | zero => grind [hcLineLoop]
  | succ room ih => grind [hcLineLoop]

@[grind ←] theorem hcLine_keeps (outsz deadline : Nat) :
    Steps (Link.Keeps WireEvent.Got) (hcLine net outsz deadline) :=
  hcLineLoop_keeps net deadline _ []

@[grind ←] theorem hcRead_keeps (max deadline : Nat) :
    Steps (Link.Keeps WireEvent.Got) (hcRead net max deadline) := by
  grind [hcRead]

@[grind ←] theorem hcWrite_keeps (chunk : List UInt8) :
    Steps (Link.Keeps WireEvent.Wrote) (hcWrite net chunk) := by
  intro l
  unfold hcWrite
  dsimp only
  split
  · exact ⟨rfl, rfl, rfl, .same rfl⟩
  · exact ⟨rfl, rfl, rfl, .record _ trivial⟩

theorem hcSendLoop_keeps (fuel : Nat) (data : List UInt8) :
    Steps (Link.Keeps WireEvent.Wrote) (hcSendLoop net fuel data) := by
  induction fuel generalizing data with
  | zero => exact steps_pure _
  | succ fuel ih => grind [hcSendLoop]

@[grind ←] theorem hcSend_keeps (data : List UInt8) :
    Steps (Link.Keeps WireEvent.Wrote) (hcSend net data) :=
  hcSendLoop_keeps net _ data

/-- A relation of two readers that all the body readers are in, since it is kept by what they are
made of: a line, a piece that is handed on, a trailer, and one program after another that has not
failed. -/
structure Reading {τ' : Type} (fn : WireSink τ σ) (fn' : WireSink τ' σ) (deadline : Nat)
    (R : ∀ {α : Type}, StProg (Rx τ σ) (Except HttpErr α) → StProg (Rx τ' σ) (Except HttpErr α) →
      Prop) : Prop where
  stop {α : Type} (r : Except HttpErr α) : R (pure r) (pure r)
  seq {α β : Type} {x : StProg (Rx τ σ) (Except HttpErr α)}
    {y : StProg (Rx τ' σ) (Except HttpErr α)}
    {k : Except HttpErr α → StProg (Rx τ σ) (Except HttpErr β)}
    {k' : Except HttpErr α → StProg (Rx τ' σ) (Except HttpErr β)} (h : R x y)
    (hok : ∀ a, R (k (.ok a)) (k' (.ok a)))
    (hk : ∀ e, k (.error e) = pure (.error e) := by intro; rfl)
    (hk' : ∀ e, k' (.error e) = pure (.error e) := by intro; rfl) : R (x >>= k) (y >>= k')
  rounds {α : Type} {x : Nat → StProg (Rx τ σ) (Except HttpErr α)}
    {y : Nat → StProg (Rx τ' σ) (Except HttpErr α)} (h : ∀ n, R (x n) (y n)) :
    R (fun r => x (r.rounds net) r) fun r => y (r.rounds net) r
  line : R (onLink (hcLine net httpLineMax deadline)) (onLink (hcLine net httpLineMax deadline))
  piece (max : Nat) : R (handPiece net fn max deadline) (handPiece net fn' max deadline)
  trailer {α : Type} {x : StProg (Rx τ σ) (Except HttpErr α)}
    {y : StProg (Rx τ' σ) (Except HttpErr α)} (line : List UInt8) (h : R x y) :
    R (addTrailer line >>= fun _ => x) (addTrailer line >>= fun _ => y)

namespace Reading

variable {τ' : Type} {net} {fn : WireSink τ σ} {fn' : WireSink τ' σ} {deadline : Nat}
  {R : ∀ {α : Type}, StProg (Rx τ σ) (Except HttpErr α) → StProg (Rx τ' σ) (Except HttpErr α) →
    Prop}
  (h : Reading net fn fn' deadline R)
include h

theorem exactly (fuel want : Nat) :
    R (readExactly net fn deadline fuel want) (readExactly net fn' deadline fuel want) := by
  induction fuel generalizing want with
  | zero => exact h.stop _
  | succ fuel ih =>
    by_cases hwant : want = 0
    · rw [readExactly, readExactly, if_pos hwant, if_pos hwant]
      exact h.stop _
    rw [readExactly_succ net fn deadline fuel hwant, readExactly_succ net fn' deadline fuel hwant]
    refine h.seq (h.piece _) fun d => ?_
    cases d with
    | nil => exact h.stop _
    | cons c d => exact ih _

theorem closeLoop (fuel : Nat) :
    R (readCloseLoop net fn deadline fuel) (readCloseLoop net fn' deadline fuel) := by
  induction fuel with
  | zero => exact h.stop _
  | succ fuel ih =>
    rw [readCloseLoop_succ, readCloseLoop_succ]
    refine h.seq (h.piece _) fun d => ?_
    cases d with
    | nil => exact h.stop _
    | cons c d => exact ih

theorem trailers (fuel : Nat) :
    R (readTrailers net deadline fuel) (readTrailers net deadline fuel) := by
  induction fuel with
  | zero => exact h.stop _
  | succ fuel ih =>
    refine h.seq h.line fun line => ?_
    cases line with
    | nil => exact h.stop _
    | cons c line => exact h.trailer _ ih

theorem chunkSize : R (readChunkSize net deadline) (readChunkSize net deadline) := by
  refine h.seq h.line fun line => ?_
  dsimp only
  split <;> exact h.stop _

theorem chunks (budget : Nat) :
    R (readChunks net fn deadline budget) (readChunks net fn' deadline budget) := by
  induction budget with
  | zero => exact h.seq h.chunkSize fun _ => h.stop _
  | succ budget ih =>
    refine h.seq h.chunkSize fun size => ?_
    cases size with
    | zero => exact h.rounds h.trailers
    | succ size =>
      refine h.seq (h.exactly _ _) fun _ => h.seq h.line fun line => ?_
      cases line with
      | nil => exact ih
      | cons c line => exact h.stop _

theorem body (f : Framing) : R (readBody net f fn deadline) (readBody net f fn' deadline) := by
  unfold readBody
  split_ifs
  · exact h.chunks _
  · exact h.exactly _ _
  · exact h.rounds h.closeLoop

end Reading

theorem Reading.of_steps {fn : WireSink τ σ} {deadline : Nat} {R : Rx τ σ → Rx τ σ → Prop}
    [Std.Refl R] [IsTrans (Rx τ σ) R] (hline : Steps R (onLink (hcLine net httpLineMax deadline)))
    (hpiece : ∀ max, Steps R (handPiece net fn max deadline))
    (htrailer : ∀ line, Steps R (addTrailer line)) :
    Reading net fn fn deadline fun x _ => Steps R x where
  stop := steps_pure
  seq h hok hk _ := steps_bind h fun r => by
    cases r with
    | error e => rw [hk]; exact steps_pure _
    | ok a => exact hok a
  rounds h r := h _ r
  line := hline
  piece := hpiece
  trailer line h := steps_bind (htrailer line) fun _ => h

/-- What a reader may do when its sink makes calls of the kind `P`. -/
def Rx.Keeps (P : WireEvent → Prop) (r r' : Rx τ σ) : Prop := Link.Keeps P r.link r'.link

instance (P : WireEvent → Prop) : Std.Refl (@Rx.Keeps σ τ P) where
  refl r := Std.Refl.refl r.link

instance (P : WireEvent → Prop) : IsTrans (Rx τ σ) (Rx.Keeps P) where
  trans r r' r'' h h' := IsTrans.trans r.link r'.link r''.link h h'

section Readers

variable {P : WireEvent → Prop} {fn : WireSink τ σ} (deadline : Nat)
  (hgot : ∀ e : WireEvent, e.Got → P e) (hfn : ∀ d, Steps (fun p p' => p.2.Grows P p'.2) (fn d))

include hgot

theorem onLink_keeps {α : Type} {x : StProg (Link σ) α} (hx : Steps (Link.Keeps WireEvent.Got) x) :
    Steps (@Rx.Keeps σ τ P) (onLink x) :=
  steps_zoom hx fun _ _ h => h.mono hgot

include hfn

theorem handPiece_keeps (max : Nat) : Steps (Rx.Keeps P) (handPiece net fn max deadline) := by
  have hsink (d : List UInt8) : Steps (@Rx.Keeps σ τ P) (callSink fn d) :=
    steps_zoom (hfn d) fun _ _ h => ⟨rfl, rfl, rfl, h⟩
  refine steps_bind (onLink_keeps hgot (hcRead_keeps net max deadline)) fun r => ?_
  rcases r with e | _ | ⟨c, d⟩
  · exact steps_pure _
  · exact steps_pure _
  · refine steps_bind (hsink (c :: d)) fun r => ?_
    cases r <;> exact steps_pure _

theorem readBody_keeps (f : Framing) : Steps (Rx.Keeps P) (readBody net f fn deadline) := by
  have hadd (line : List UInt8) : Steps (@Rx.Keeps σ τ P) (addTrailer line) := by
    intro r
    unfold addTrailer
    dsimp only
    split_ifs <;> exact Std.Refl.refl r.link
  exact (Reading.of_steps net (onLink_keeps hgot (hcLine_keeps net _ deadline))
    (handPiece_keeps net deadline hgot hfn) hadd).body f

end Readers

theorem outWrite_keeps (d : List UInt8) :
    Steps (fun p p' : BodyOut × Wire σ => p.2.Grows WireEvent.Sunk p'.2) (outWrite net d) := by
  rintro ⟨o, w⟩
  unfold outWrite
  dsimp only
  split_ifs
  · exact .refl _
  · exact .refl _
  split
  · exact .record _ trivial
  · split <;> exact .refl _

theorem sinkToBuf_keeps (P : WireEvent → Prop) (d : List UInt8) :
    Steps (fun p p' : HBuf × Wire σ => p.2.Grows P p'.2) (sinkToBuf d) := by
  rintro ⟨b, w⟩
  unfold sinkToBuf
  dsimp only
  split <;> exact .refl _

theorem emitLoop_keeps (fuel : Nat) (d : List UInt8) :
    Steps (fun p p' : BodyOut × Wire σ => p.2.Grows WireEvent.Sunk p'.2) (emitLoop net fuel d) := by
  induction fuel generalizing d with
  | zero => exact fun _ => .refl _
  | succ fuel ih =>
    rw [emitLoop]
    split_ifs
    · exact fun _ => .refl _
    intro p
    have hw := outWrite_keeps net (d.take emitChunk) p
    rw [bind_apply]
    cases (outWrite net (d.take emitChunk) p).1 with
    | error e => exact hw
    | ok _ => exact hw.trans (ih _ _)

theorem decodeBody_keeps (coded : List UInt8) (codings : List HttpInflate) :
    Steps (fun p p' : BodyOut × Wire σ => p.2.Grows WireEvent.Sunk p'.2)
      (decodeBody net stores coded codings) := by
  rintro ⟨o, w⟩
  unfold decodeBody
  dsimp only
  split
  · exact .refl _
  split_ifs
  · exact .refl _
  split
  · exact .refl _
  · exact emitLoop_keeps net _ _ _

theorem buildRequest_env (h : Hop) (s : Ex σ J K) :
    ∃ env, (buildRequest net stores h s).2 = { s with wire := { s.wire with env } } := by
  have hcookie : ∃ env, (cookieText net stores h s).2 = { s with wire := { s.wire with env } } := by
    unfold cookieText
    split
    · split_ifs
      · exact ⟨_, rfl⟩
      · exact ⟨_, rfl⟩
    · exact ⟨_, rfl⟩
  unfold buildRequest
  cases urlRequestTarget h.u urlMax with
  | error e => exact ⟨_, rfl⟩
  | ok target =>
    cases urlHostHeader h.u (urlHostMax + 16) with
    | error e => exact ⟨_, rfl⟩
    | ok host => exact hcookie

/-- Work on slot `i` that neither takes a connection nor gives one back. -/
structure Ex.Uses (P : WireEvent → Prop) (i : Fin httpPoolMax) (s s' : Ex σ J K) : Prop where
  others : ∀ j, j ≠ i → s'.pool j = s.pool j
  opened : (s'.pool i).opened = (s.pool i).opened
  pooled : (s'.pool i).pooled = (s.pool i).pooled
  ctx : (s'.pool i).ctx = (s.pool i).ctx
  grows : s.wire.Grows P s'.wire

section Uses

variable {P Q : WireEvent → Prop} {i : Fin httpPoolMax}

instance : Std.Refl (@Ex.Uses σ J K P i) where
  refl _ := ⟨fun _ _ => rfl, rfl, rfl, rfl, .refl _⟩

instance : IsTrans (Ex σ J K) (Ex.Uses P i) where
  trans _ _ _ h h' := ⟨fun j hj => (h'.others j hj).trans (h.others j hj), h'.opened.trans h.opened,
    h'.pooled.trans h.pooled, h'.ctx.trans h.ctx, h.grows.trans h'.grows⟩

variable {s s' : Ex σ J K}

theorem Ex.Uses.mono (h : Ex.Uses P i s s') (hPQ : ∀ e, P e → Q e) : Ex.Uses Q i s s' :=
  ⟨h.others, h.opened, h.pooled, h.ctx, h.grows.mono hPQ⟩

theorem Ex.Uses.same (hp : s'.pool = s.pool) (hl : s'.wire.log = s.wire.log) : Ex.Uses P i s s' :=
  ⟨fun _ _ => by rw [hp], by rw [hp], by rw [hp], by rw [hp], .same hl⟩

theorem Ex.Uses.update {c : HConn} (hp : s'.pool = update s.pool i c)
    (h : Link.Keeps P ⟨s.pool i, s.wire⟩ ⟨c, s'.wire⟩) : Ex.Uses P i s s' where
  others j hj := by rw [hp, update_of_ne hj]
  opened := by rw [hp, update_self]; exact h.opened
  pooled := by rw [hp, update_self]; exact h.pooled
  ctx := by rw [hp, update_self]; exact h.ctx
  grows := h.grows

structure Ex.Works (P : WireEvent → Prop) (i : Fin httpPoolMax) (s s' : Ex σ J K) : Prop
    extends Ex.Uses P i s s' where
  out : s'.out = s.out

instance : Std.Refl (@Ex.Works σ J K P i) where
  refl s := ⟨Std.Refl.refl s, rfl⟩

instance : IsTrans (Ex σ J K) (Ex.Works P i) where
  trans s s' s'' h h' := ⟨IsTrans.trans s s' s'' h.toUses h'.toUses, h'.out.trans h.out⟩

theorem Ex.Works.mono (h : Ex.Works P i s s') (hPQ : ∀ e, P e → Q e) : Ex.Works Q i s s' :=
  ⟨h.toUses.mono hPQ, h.out⟩

theorem Ex.Works.same (hp : s'.pool = s.pool) (hl : s'.wire.log = s.wire.log)
    (ho : s'.out = s.out) :
    Ex.Works P i s s' :=
  ⟨.same hp hl, ho⟩

@[grind ←] theorem onConn_works {α : Type} {x : StProg (Link σ) α} (hx : Steps (Link.Keeps P) x) :
    Steps (@Ex.Works σ J K P i) (onConn i x) :=
  steps_zoom hx fun _ _ h => ⟨.update rfl h, rfl⟩

@[grind ←] theorem onWire_works : Steps (@Ex.Works σ J K P i) (onWire (Wire.nowMs net)) :=
  fun _ => .same rfl rfl rfl

@[grind ←] theorem readHeaderLines_works (deadline fuel : Nat) :
    Steps (@Ex.Works σ J K WireEvent.Got i) (readHeaderLines net i deadline fuel) := by
  induction fuel with
  | zero => exact steps_pure _
  | succ fuel ih =>
    refine steps_bind (onConn_works (hcLine_keeps net _ deadline)) fun r => ?_
    rcases r with e | _ | ⟨c, line⟩
    · exact steps_pure _
    · exact steps_pure _
    refine steps_bind (fun s => Std.Refl.refl s) fun s => ?_
    cases addHeaderLine (c :: line) s.raw with
    | error e => exact steps_pure _
    | ok raw => exact steps_bind (fun _ => .same rfl rfl rfl) fun _ => ih

theorem readHeadRounds_works (deadline rounds : Nat) :
    Steps (@Ex.Works σ J K WireEvent.Got i) (readHeadRounds net i deadline rounds) := by
  induction rounds with
  | zero => exact steps_pure _
  | succ rounds ih =>
    refine steps_bind (onConn_works (hcLine_keeps net _ deadline)) fun r => ?_
    rcases r with e | _ | ⟨c, line⟩
    · exact steps_pure _
    · exact ih
    dsimp only
    split
    · exact steps_pure _
    refine steps_bind (fun _ => .same rfl rfl rfl) fun _ => ?_
    refine steps_bind (readHeaderLines_works net deadline _) fun r => ?_
    cases r with
    | error e => exact steps_pure _
    | ok _ =>
      dsimp only
      split_ifs
      · exact ih
      · exact steps_bind (fun _ => .same rfl rfl rfl) fun _ => steps_pure _

theorem sendAndRead_works (h : Hop) (head : List UInt8) :
    Steps (@Ex.Works σ J K (fun e => e.Got ∨ e.Wrote) i) (sendAndRead net h head i) := by
  have hsend (d : List UInt8) :
      Steps (@Ex.Works σ J K (fun e => e.Got ∨ e.Wrote) i) (onConn i (hcSend net d)) :=
    fun s => (onConn_works (hcSend_keeps net d) s).mono fun _ => .inr
  refine steps_bind (onWire_works net) fun now => ?_
  refine steps_bind (hsend head) fun r => ?_
  cases r with
  | error e => exact steps_pure _
  | ok _ =>
    refine steps_bind (hsend h.req.body) fun r => ?_
    cases r with
    | error e => exact steps_pure _
    | ok _ => exact fun s => (readHeadRounds_works net _ 16 s).mono fun _ => .inl

@[grind ←] theorem headersAccepted_works (h : Hop) :
    Steps (@Ex.Works σ J K P i) (headersAccepted net h) := by
  intro s
  unfold headersAccepted
  split
  · exact Std.Refl.refl s
  split_ifs
  · exact Std.Refl.refl s
  · exact .same rfl rfl rfl

theorem beforeBody_works (h : Hop) : Steps (@Ex.Works σ J K P i) (beforeBody net stores h) := by
  refine steps_bind (fun s => Std.Refl.refl s) fun s => ?_
  cases decideFraming s.res h.wantBody with
  | error e => exact steps_pure _
  | ok f =>
    refine steps_bind (headersAccepted_works net h) fun ok => ?_
    cases ok with
    | false => exact steps_pure _
    | true => cases codingsOf stores h s.res <;> exact steps_pure _

theorem bodyFrom_works (hgot : ∀ e : WireEvent, e.Got → P e) {fn : WireSink τ σ}
    (hfn : ∀ d, Steps (fun p p' => p.2.Grows P p'.2) (fn d)) (f : Framing) (deadline : Nat)
    (t : τ) :
    Steps (@Ex.Works σ J K P i) (bodyFrom net i f fn deadline t) :=
  fun s => ⟨.update rfl (readBody_keeps net deadline hgot hfn f
    { link := { conn := s.pool i, wire := s.wire }, raw := s.raw, out := t }), rfl⟩

theorem receivePlain_uses (f : Framing) (deadline : Nat) :
    Steps (@Ex.Uses σ J K (fun e => e.Got ∨ e.Sunk) i) (receivePlain net i f deadline) := by
  intro s
  have hout (d : List UInt8) :
      Steps (fun p p' : BodyOut × Wire σ => p.2.Grows (fun e => e.Got ∨ e.Sunk) p'.2)
        (outWrite net d) :=
    fun p => (outWrite_keeps net d p).mono fun _ => .inr
  have hbody := @bodyFrom_works σ _ J K net _ i (fun _ => .inl) _ hout f deadline s.out s
  exact ⟨hbody.others, hbody.opened, hbody.pooled, hbody.ctx, hbody.grows⟩

theorem receiveCoded_uses (f : Framing) (codings : List HttpInflate) (deadline : Nat) :
    Steps (@Ex.Uses σ J K (fun e => e.Got ∨ e.Sunk) i)
      (receiveCoded net stores i f codings deadline) := by
  have hbody (s : Ex σ J K) := (bodyFrom_works net (fun _ => .inl) (sinkToBuf_keeps _) f deadline
    (hbInit codedMax) s : Ex.Works (fun e => e.Got ∨ e.Sunk) i s _).toUses
  refine steps_bind hbody fun r => ?_
  obtain ⟨_ | _, coded⟩ := r
  · exact steps_pure _
  · refine steps_zoom (decodeBody_keeps net stores coded.data codings) fun s p h => ?_
    exact ⟨fun _ _ => rfl, rfl, rfl, rfl, h.mono fun _ => .inr⟩

theorem receiveBody_uses (f : Framing) (codings : List HttpInflate) (deadline : Nat) :
    Steps (@Ex.Uses σ J K (fun e => e.Got ∨ e.Sunk) i)
      (receiveBody net stores i f codings deadline) := by
  unfold receiveBody
  split_ifs
  · exact receivePlain_uses net f deadline
  · exact receiveCoded_uses net stores f codings deadline

@[grind ←] theorem absorbCookies_uses (h : Hop) :
    Steps (@Ex.Uses σ J K P i) (absorbCookies net stores h) := by
  intro s
  unfold absorbCookies
  split
  · split_ifs
    · exact Std.Refl.refl s
    · exact .same rfl rfl
  · exact Std.Refl.refl s

@[grind ←] theorem follow_uses (left : Nat) (hs : Hops) (loc : List UInt8) :
    Steps (@Ex.Uses σ J K P i) (follow left hs loc) := by
  intro s
  unfold follow
  split_ifs
  · exact Std.Refl.refl s
  split
  · exact Std.Refl.refl s
  · exact .same rfl rfl

theorem sinkStored_keeps (sink : Option Nat) (body : Option (List UInt8)) :
    Steps (Wire.Grows WireEvent.Sunk) (sinkStored net sink body) := by
  intro w
  unfold sinkStored
  split
  · exact .record _ trivial
  · exact .refl w

@[grind ←] theorem reuseEntry_uses (plan : Plan) (k : K) :
    Steps (@Ex.Uses σ J K WireEvent.Sunk i) (reuseEntry net stores plan k) := by
  intro s
  unfold reuseEntry
  dsimp only
  split
  · exact .same rfl rfl
  · exact ⟨fun _ _ => rfl, rfl, rfl, rfl, sinkStored_keeps net _ _ _⟩

@[grind ←] theorem keepEntry_uses (plan : Plan) (hs : Hops) (url : List UInt8) :
    Steps (@Ex.Uses σ J K P i) (keepEntry stores plan hs url) := by
  intro s
  unfold keepEntry
  dsimp only
  split
  · exact Std.Refl.refl s
  · split_ifs <;> exact .same rfl rfl

theorem afterExchange_uses (plan : Plan) (left : Nat) (hs : Hops) (url : List UInt8) :
    Steps (@Ex.Uses σ J K WireEvent.Sunk i) (afterExchange net stores plan left hs url) := by
  refine steps_bind (absorbCookies_uses net stores hs.hop) fun _ => ?_
  refine steps_bind (fun s => Std.Refl.refl s) fun s => ?_
  dsimp only
  split_ifs
  · split
    · exact follow_uses left hs _
    · exact steps_pure _
  · split
    · exact reuseEntry_uses net stores plan _
    · exact steps_pure _
  · exact steps_bind (keepEntry_uses stores plan hs url) fun _ => steps_pure _

theorem complete_uses (hs : Hops) (cached : Bool) :
    Steps (@Ex.Uses σ J K P i) (complete hs cached) := by
  intro s
  unfold complete
  dsimp only
  split <;> exact .same rfl rfl

theorem askCache_uses (req : HttpRequest) (u : Url) (plan : Plan) (url : List UInt8) (k : K) :
    Steps (@Ex.Uses σ J K WireEvent.Sunk i) (askCache net stores req u plan url k) := by
  intro s
  unfold askCache
  dsimp only
  split
  · exact .same rfl rfl
  · exact .same rfl rfl
  split_ifs
  · exact .same rfl rfl
  split
  · exact .same rfl rfl
  · exact ⟨fun _ _ => rfl, rfl, rfl, rfl, sinkStored_keeps net _ _ _⟩

theorem prepare_uses (req : HttpRequest) :
    Steps (@Ex.Uses σ J K WireEvent.Sunk i) (prepare net stores req) := by
  intro s
  have hnow : Ex.Uses WireEvent.Sunk i s
      { s with wire := { s.wire with env := (net.nowSec s.wire.env).2 } } := .same rfl rfl
  unfold prepare
  split
  · exact .same rfl rfl
  split_ifs
  · exact .same rfl rfl
  dsimp only
  split
  · exact .same rfl rfl
  split
  · split_ifs
    · exact IsTrans.trans _ _ _ hnow (askCache_uses net stores req _ _ _ _ _)
    · exact .same rfl rfl
  · exact .same rfl rfl

end Uses

end KestrelOS.Http
