import KestrelOS.Http.Deliveries

/-!
# What a sink sees

One output object serves all hops of a fetch: what was kept in memory is dropped when a redirect is
followed, but a sink cannot give back what it was given.
-/

namespace KestrelOS.Http

open StProg List

variable {σ τ J K : Type} (net : Net σ) (stores : Stores J K)

def collecting (fn : WireSink τ σ) : WireSink (τ × List UInt8) σ := fun d p =>
  let r := fn d (p.1.1, p.2)
  (r.1, ((r.2.1, p.1.2 ++ d), r.2.2))

def Rx.forget {ρ : Type} (r : Rx (τ × ρ) σ) : Rx τ σ :=
  { link := r.link, raw := r.raw, out := r.out.1 }

section Readers

variable {fn : WireSink τ σ} {I : τ × List UInt8 → Wire σ → Prop} (deadline : Nat)

/-- The invariant does not look at what is read from the transport. -/
structure Collects (fn : WireSink τ σ) (I : τ × List UInt8 → Wire σ → Prop) : Prop where
  got : ∀ p w w', w.Grows WireEvent.Got w' → I p w → I p w'
  fed : ∀ d p w, I p w → (collecting fn d (p, w)).1 = .ok () →
    I (collecting fn d (p, w)).2.1 (collecting fn d (p, w)).2.2

def Holds (I : τ × List UInt8 → Wire σ → Prop) (r : Rx (τ × List UInt8) σ) : Prop :=
  I r.out r.link.wire

theorem onLink_shadows {α : Type} (hI : Collects fn I) {x : StProg (Link σ) (Except HttpErr α)}
    (hx : Steps (Link.Keeps WireEvent.Got) x) : Shadows (Holds I) Rx.forget (onLink x) (onLink x) :=
  fun r hr => ⟨rfl, fun _ _ => hI.got _ _ _ (hx r.link).grows hr⟩

theorem handPiece_shadows (hI : Collects fn I) (max : Nat) :
    Shadows (Holds I) Rx.forget (handPiece net (collecting fn) max deadline)
      (handPiece net fn max deadline) := by
  have hsink (d : List UInt8) :
      Shadows (Holds I) Rx.forget (callSink (collecting fn) d) (callSink fn d) :=
    fun r hr => ⟨rfl, fun _ ha => hI.fed d r.out r.link.wire hr ha⟩
  refine shadows_bind (onLink_shadows hI (hcRead_keeps net max deadline)) fun d => ?_
  cases d with
  | nil => exact shadows_pure _
  | cons c d => exact shadows_bind (hsink _) fun _ => shadows_pure _

theorem addTrailer_shadows {α : Type} {x : StProg (Rx (τ × List UInt8) σ) (Except HttpErr α)}
    {y : StProg (Rx τ σ) (Except HttpErr α)} (line : List UInt8)
    (h : Shadows (Holds I) Rx.forget x y) :
    Shadows (Holds I) Rx.forget (addTrailer line >>= fun _ => x)
      (addTrailer line >>= fun _ => y) := by
  intro r hr
  have hadd : (addTrailer line r.forget).2 = Rx.forget (addTrailer line r).2 := by
    simp only [addTrailer, modify_apply, Rx.forget]
    split_ifs <;> rfl
  have hkept : Holds I (addTrailer line r).2 := by
    simp only [addTrailer, modify_apply]
    split_ifs <;> exact hr
  simp only [bind_apply, hadd]
  exact h _ hkept

theorem readBody_shadows (hI : Collects fn I) (f : Framing) :
    Shadows (Holds I) Rx.forget (readBody net f (collecting fn) deadline)
      (readBody net f fn deadline) :=
  Reading.body (R := Shadows (Holds I) Rx.forget)
    { stop := shadows_pure
      seq := fun h hok hk hk' => shadows_bind h hok hk hk'
      rounds := fun h r hr => h _ r hr
      line := onLink_shadows hI (hcLine_keeps net _ deadline)
      piece := handPiece_shadows net deadline hI
      trailer := addTrailer_shadows } f

end Readers

def WireEvent.sunkPart : WireEvent → List UInt8
  | sunk d => d
  | _ => []

def sunkBytes (evs : List WireEvent) : List UInt8 := evs.flatMap WireEvent.sunkPart

theorem Wire.Grows.sunkBytes_eq {P : WireEvent → Prop} (hP : ∀ e, P e → ¬ e.Sunk) {w w' : Wire σ}
    (h : w.Grows P w') : sunkBytes w'.log = sunkBytes w.log := by
  obtain ⟨evs, hlog, hevs⟩ := h
  have hnil : sunkBytes evs = [] := by
    refine flatMap_eq_nil_iff.mpr fun e he => ?_
    have := hP e (hevs e he)
    cases e with
    | sunk d => exact absurd trivial this
    | _ => rfl
  rw [hlog, sunkBytes, flatMap_append]
  exact (congrArg _ hnil).trans (append_nil _)

structure Poured (body : List UInt8) (p p' : BodyOut × Wire σ) : Prop where
  sink : p'.1.sink = p.1.sink
  kept : p.1.sink = none → p'.1.mem.data = p.1.mem.data ++ body
  sunk : p.1.sink ≠ none → sunkBytes p'.2.log = sunkBytes p.2.log ++ body

namespace Poured

variable {body body' : List UInt8} {p p' p'' : BodyOut × Wire σ}

theorem nil (p : BodyOut × Wire σ) : Poured [] p p :=
  ⟨rfl, fun _ => by simp, fun _ => by simp⟩

theorem trans (h : Poured body p p') (h' : Poured body' p' p'') : Poured (body ++ body') p p'' where
  sink := h'.sink.trans h.sink
  kept hs := by rw [h'.kept (h.sink.trans hs), h.kept hs, append_assoc]
  sunk hs := by rw [h'.sunk (by rw [h.sink]; exact hs), h.sunk hs, append_assoc]

theorem congr {o o' : BodyOut} {w w1 w' w1' : Wire σ} (h : Poured body (o, w) (o', w'))
    (hw : sunkBytes w1.log = sunkBytes w.log) (hw' : sunkBytes w1'.log = sunkBytes w'.log) :
    Poured body (o, w1) (o', w1') :=
  ⟨h.sink, h.kept, fun hs => by rw [hw', hw]; exact h.sunk hs⟩

end Poured

theorem addTee_sink (o : BodyOut) (d : List UInt8) :
    (o.addTee d).sink = o.sink ∧ (o.addTee d).mem = o.mem := by
  unfold BodyOut.addTee
  split_ifs
  · split <;> exact ⟨rfl, rfl⟩
  · exact ⟨rfl, rfl⟩

variable {d : List UInt8} {i : Fin httpPoolMax} {f : Framing} {s s' : Ex σ J K}
  {codings : List HttpInflate} {P : WireEvent → Prop} {hs : Hops} {cached : Bool}
  {req : HttpRequest}

theorem hbAdd_data {b b' : HBuf} (h : hbAdd b d = .ok b') : b'.data = b.data ++ d := by
  unfold hbAdd at h
  split_ifs at h with hd
  · cases h
    simp [hd]
  · cases h
    rfl

theorem outWrite_poured {d : List UInt8} {p : BodyOut × Wire σ}
    (h : (outWrite net d p).1 = .ok ()) : Poured d p (outWrite net d p).2 := by
  obtain ⟨o, w⟩ := p
  unfold outWrite at h ⊢
  dsimp only at h ⊢
  split_ifs at h ⊢ with hd htotal
  · rw [hd]
    exact .nil _
  obtain ⟨hsink, hmem⟩ := addTee_sink { o with total := o.total + d.length } d
  generalize BodyOut.addTee _ d = o' at hsink hmem h ⊢
  cases hs : o'.sink with
  | some user =>
    refine ⟨hsink, fun hnone => ?_, fun _ => ?_⟩
    · rw [← hsink, hs] at hnone
      cases hnone
    · simp [Wire.record, sunkBytes, WireEvent.sunkPart]
  | none =>
    rw [hs] at h
    cases hadd : hbAdd o'.mem d with
    | error e => simp [hadd] at h
    | ok mem =>
      refine ⟨hs.symm.trans hsink, fun _ => ?_, fun hsome => ?_⟩
      · simp [hbAdd_data hadd, hmem]
      · exact absurd (hsink.symm.trans hs) hsome

theorem emitLoop_poured {fuel : Nat} (hfuel : d.length < fuel) {p : BodyOut × Wire σ}
    (h : (emitLoop net fuel d p).1 = .ok ()) : Poured d p (emitLoop net fuel d p).2 := by
  induction fuel generalizing d p with
  | zero => omega
  | succ fuel ih =>
    rw [emitLoop] at h ⊢
    by_cases hd : d = []
    · rw [if_pos hd, hd]
      exact .nil _
    rw [if_neg hd, bind_apply] at h ⊢
    have hwrite := @outWrite_poured σ net (d.take emitChunk) p
    generalize outWrite net (d.take emitChunk) p = r at h hwrite ⊢
    obtain ⟨_ | _, p'⟩ := r
    · cases h
    have hlen : (d.drop emitChunk).length < fuel := by
      have := length_pos_of_ne_nil hd
      rw [length_drop, emitChunk]
      omega
    have hrest := (hwrite rfl).trans (ih hlen h)
    rwa [take_append_drop] at hrest

def handed (i : Fin httpPoolMax) (f : Framing) (fn : WireSink τ σ) (deadline : Nat) (t : τ)
    (s : Ex σ J K) : List UInt8 :=
  (readBody net f (collecting fn) deadline
    { link := { conn := s.pool i, wire := s.wire }, raw := s.raw, out := (t, []) }).2.out.2

/-- A staged body with its codings undone; an empty one needs no decoding. -/
def uncoded (max : Nat) (codings : List HttpInflate) (coded : List UInt8) : List UInt8 :=
  match stores.inflate with
  | some inflate =>
    if coded = [] then [] else (inflateAll inflate max codings coded).toOption.getD []
  | none => []

def decodedBody (i : Fin httpPoolMax) (f : Framing) (codings : List HttpInflate) (deadline : Nat)
    (s : Ex σ J K) : List UInt8 :=
  if codings = [] then handed net i f (outWrite net) deadline s.out s
  else uncoded stores s.out.max codings (handed net i f sinkToBuf deadline (hbInit codedMax) s)

theorem Wire.Grows.sunkBytes_got {w w' : Wire σ} (h : w.Grows WireEvent.Got w') :
    sunkBytes w'.log = sunkBytes w.log :=
  h.sunkBytes_eq fun e he hs => by cases e <;> simp_all [WireEvent.Got, WireEvent.Sunk]

theorem outWrite_collects (p : BodyOut × Wire σ) :
    Collects (outWrite net) fun q w => Poured q.2 p (q.1, w) where
  got _ _ _ hw hq := hq.congr rfl hw.sunkBytes_got
  fed _ _ _ hq hok := hq.trans (outWrite_poured net hok)

theorem sinkToBuf_collects : Collects (@sinkToBuf σ) fun q _ => q.1.data = q.2 where
  got _ _ _ _ hq := hq
  fed d q _ hq hok := by
    simp only [collecting, sinkToBuf] at hok ⊢
    cases hadd : hbAdd q.1 d with
    | error e => simp [hadd] at hok
    | ok b => simp [hbAdd_data hadd, hq]

theorem receivePlain_poured {deadline : Nat} (h : (receivePlain net i f deadline s).1 = .ok ()) :
    Poured (handed net i f (outWrite net) deadline s.out s) (s.out, s.wire)
      ((receivePlain net i f deadline s).2.out, (receivePlain net i f deadline s).2.wire) := by
  have hshadow := readBody_shadows net deadline (outWrite_collects net (s.out, s.wire)) f
    { link := { conn := s.pool i, wire := s.wire }, raw := s.raw, out := (s.out, []) } (.nil _)
  simp only [receivePlain, bodyFrom] at h ⊢
  have heq : readBody net f (outWrite net) deadline
      { link := { conn := s.pool i, wire := s.wire }, raw := s.raw, out := s.out } = _ := hshadow.1
  rw [heq] at h ⊢
  exact hshadow.2 () h

theorem bodyFrom_staged {i : Fin httpPoolMax} {f : Framing} {deadline : Nat} {s : Ex σ J K}
    (h : (bodyFrom net i f sinkToBuf deadline (hbInit codedMax) s).1.1 = .ok ()) :
    (bodyFrom net i f sinkToBuf deadline (hbInit codedMax) s).1.2.data =
      handed net i f sinkToBuf deadline (hbInit codedMax) s := by
  have hshadow := readBody_shadows net deadline sinkToBuf_collects f
    { link := { conn := s.pool i, wire := s.wire }, raw := s.raw, out := (hbInit codedMax, []) } rfl
  simp only [bodyFrom] at h ⊢
  have heq : readBody net f sinkToBuf deadline
      { link := { conn := s.pool i, wire := s.wire }, raw := s.raw, out := hbInit codedMax } = _ :=
    hshadow.1
  rw [heq] at h ⊢
  exact hshadow.2 () h

theorem decodeBody_poured {coded : List UInt8} {p : BodyOut × Wire σ}
    (h : (decodeBody net stores coded codings p).1 = .ok ()) :
    Poured (uncoded stores p.1.max codings coded) p (decodeBody net stores coded codings p).2 := by
  obtain ⟨o, w⟩ := p
  unfold decodeBody at h ⊢
  unfold uncoded
  generalize stores.inflate = inflate at h ⊢
  cases inflate with
  | none => cases h
  | some inflate =>
    dsimp only at h ⊢
    split_ifs at h ⊢
    · exact .nil _
    generalize inflateAll inflate o.max codings coded = r at h ⊢
    cases r with
    | error e => cases h
    | ok d => exact emitLoop_poured net (Nat.lt_succ_self _) h

theorem receiveCoded_poured {deadline : Nat}
    (h : (receiveCoded net stores i f codings deadline s).1 = .ok ()) :
    Poured
      (uncoded stores s.out.max codings (handed net i f sinkToBuf deadline (hbInit codedMax) s))
      (s.out, s.wire) ((receiveCoded net stores i f codings deadline s).2.out,
        (receiveCoded net stores i f codings deadline s).2.wire) := by
  have hworks : Ex.Works WireEvent.Got i s
      (bodyFrom net i f sinkToBuf deadline (hbInit codedMax) s).2 :=
    bodyFrom_works net (fun _ he => he) (sinkToBuf_keeps _) f deadline (hbInit codedMax) s
  have hstaged := @bodyFrom_staged σ J K net i f deadline s
  simp only [receiveCoded, bind_apply] at h ⊢
  generalize bodyFrom net i f sinkToBuf deadline (hbInit codedMax) s = r at h hworks hstaged ⊢
  obtain ⟨⟨_ | _, coded⟩, s'⟩ := r
  · cases h
  have hdec := decodeBody_poured net stores (p := (s'.out, s'.wire)) h
  have hout : s'.out = s.out := hworks.out
  rw [← hstaged rfl, ← hout]
  exact hdec.congr hworks.grows.sunkBytes_got.symm rfl

theorem receiveBody_poured {i : Fin httpPoolMax} {f : Framing} {codings : List HttpInflate}
    {deadline : Nat} {s : Ex σ J K}
    (h : (receiveBody net stores i f codings deadline s).1 = .ok ()) :
    Poured (decodedBody net stores i f codings deadline s) (s.out, s.wire)
      ((receiveBody net stores i f codings deadline s).2.out,
        (receiveBody net stores i f codings deadline s).2.wire) := by
  unfold receiveBody at h ⊢
  by_cases hc : codings = []
  · rw [if_pos hc] at h ⊢
    rw [decodedBody, if_pos hc]
    exact receivePlain_poured net h
  rw [if_neg hc] at h ⊢
  rw [decodedBody, if_neg hc]
  exact receiveCoded_poured net stores h

structure Ex.Quiet (s s' : Ex σ J K) : Prop where
  out : s'.out = s.out
  sunk : sunkBytes s'.wire.log = sunkBytes s.wire.log

instance : Std.Refl (@Ex.Quiet σ J K) where
  refl _ := ⟨rfl, rfl⟩

instance : IsTrans (Ex σ J K) Ex.Quiet where
  trans _ _ _ h h' := ⟨h'.out.trans h.out, h'.sunk.trans h.sunk⟩

theorem Ex.Moves.quiet (h : Ex.Moves s s') : Ex.Quiet s s' :=
  ⟨h.out, h.grows.sunkBytes_eq fun e he hs => by
    cases e <;> simp_all [WireEvent.Moved, WireEvent.Sunk]⟩

theorem Ex.Works.quiet (hP : ∀ e, P e → ¬ e.Sunk) (h : Ex.Works P i s s') : Ex.Quiet s s' :=
  ⟨h.out, h.grows.sunkBytes_eq hP⟩

theorem attempts_quiet (h : Hop) (origin head : List UInt8) (n : Nat) :
    Steps (@Ex.Quiet σ J K) (attempts net h origin head n) := by
  have hsend (i : Fin httpPoolMax) : Steps (@Ex.Quiet σ J K) (sendAndRead net h head i) := fun s =>
    (sendAndRead_works net h head s).quiet fun e he hs => by
      cases e <;> simp_all [WireEvent.Got, WireEvent.Wrote, WireEvent.Sunk]
  induction n with
  | zero => exact steps_pure _
  | succ n ih =>
    refine steps_bind (fun s => (acquire_moves net h origin s).quiet) fun r => ?_
    rcases r with e | ⟨i, reused⟩
    · exact steps_pure _
    refine steps_bind (hsend i) fun r => ?_
    cases r with
    | ok _ => exact steps_pure _
    | error e =>
      refine steps_bind (fun s => (shutdown_moves net i s).quiet) fun _ => ?_
      split_ifs
      · exact steps_pure _
      · exact ih

theorem answer_quiet (h : Hop) : Steps (@Ex.Quiet σ J K) (answer net stores h) := by
  unfold answer
  cases urlOrigin h.u (urlHostMax + 32) with
  | error e => exact steps_pure _
  | ok origin =>
    refine steps_bind (fun s => ?_) fun r => ?_
    · obtain ⟨env, hb⟩ := buildRequest_env net stores h s
      rw [hb]
      exact ⟨rfl, rfl⟩
    cases r with
    | error e => exact steps_pure _
    | ok head => exact attempts_quiet net h origin head 2

def bodyStart (h : Hop) (s : Ex σ J K) : Nat × Ex σ J K :=
  ((onWire (Wire.nowMs net) s).1 +
      (if h.req.bodyTimeoutMs > 0 then h.req.bodyTimeoutMs else httpTBody),
    (onWire (Wire.nowMs net) s).2)

def exchangeBody (h : Hop) (s : Ex σ J K) : List UInt8 :=
  match answer net stores h s with
  | (.error _, _) => []
  | (.ok i, s) =>
    match beforeBody net stores h s with
    | (.error _, _) => []
    | (.ok (f, codings), s) =>
      decodedBody net stores i f codings (bodyStart net h s).1 (bodyStart net h s).2

theorem Poured.between {body : List UInt8} {s1 s2 s3 : Ex σ J K} (hq : Ex.Quiet s s1)
    (h : Poured body (s1.out, s1.wire) (s2.out, s2.wire)) (hq' : Ex.Quiet s2 s3) :
    Poured body (s.out, s.wire) (s3.out, s3.wire) := by
  rw [← hq.out, hq'.out]
  exact h.congr hq.sunk.symm hq'.sunk

theorem finishBody_poured {h : Hop} (hok : (finishBody net stores h i f codings s).1 = .ok ()) :
    Poured (decodedBody net stores i f codings (bodyStart net h s).1 (bodyStart net h s).2)
      (s.out, s.wire) ((finishBody net stores h i f codings s).2.out,
        (finishBody net stores h i f codings s).2.wire) := by
  have hnow : Ex.Quiet s (bodyStart net h s).2 := ⟨rfl, rfl⟩
  have hbody := @receiveBody_poured σ J K net stores i f codings (bodyStart net h s).1
    (bodyStart net h s).2 hok
  exact hbody.between hnow (afterBody_moves net h i f _ _).quiet

theorem exchange_poured {h : Hop} {s : Ex σ J K} (hok : (exchange net stores h s).1 = .ok ()) :
    Poured (exchangeBody net stores h s) (s.out, s.wire)
      ((exchange net stores h s).2.out, (exchange net stores h s).2.wire) := by
  have hans := answer_quiet net stores h s
  simp only [exchange, bind_apply, exchangeBody] at hok ⊢
  generalize answer net stores h s = r at hok hans ⊢
  obtain ⟨_ | i, s1⟩ := r
  · cases hok
  have hbefore : Ex.Quiet s1 (beforeBody net stores h s1).2 :=
    (beforeBody_works net stores h s1 : Ex.Works WireEvent.Got i s1 _).quiet fun e he hs => by
      cases e <;> simp_all [WireEvent.Got, WireEvent.Sunk]
  simp only [finish, bind_apply] at hok ⊢
  generalize beforeBody net stores h s1 = r' at hok hbefore ⊢
  obtain ⟨_ | ⟨f, codings⟩, s2⟩ := r'
  · cases hok
  · have hquiet : Ex.Quiet s s2 := IsTrans.trans _ _ _ hans hbefore
    exact (finishBody_poured net stores hok).between hquiet (Std.Refl.refl _)

def SameStatus (s s' : Ex σ J K) : Prop := s'.res.status = s.res.status

instance : Std.Refl (@SameStatus σ J K) where
  refl _ := rfl

instance : IsTrans (Ex σ J K) SameStatus where
  trans _ _ _ h h' := Eq.trans h' h

theorem receiveBody_status (i : Fin httpPoolMax) (f : Framing) (codings : List HttpInflate)
    (deadline : Nat) : Steps (@SameStatus σ J K) (receiveBody net stores i f codings deadline) := by
  unfold receiveBody
  split_ifs
  · exact fun _ => rfl
  refine steps_bind (fun _ => rfl) fun r => ?_
  obtain ⟨_ | _, coded⟩ := r
  · exact steps_pure _
  · exact fun _ => rfl

theorem finishBody_status (h : Hop) (i : Fin httpPoolMax) (f : Framing)
    (codings : List HttpInflate) :
    Steps (@SameStatus σ J K) (finishBody net stores h i f codings) := by
  have hback (keep : Bool) : Steps (@SameStatus σ J K) (giveBack net i keep) := by
    cases keep <;> exact fun _ => rfl
  have hafter (ok : Bool) : Steps (@SameStatus σ J K) (afterBody net h i f ok) := by
    refine steps_bind (fun s => ?_) fun _ => ?_
    · rw [modify_apply]
      split_ifs <;> exact rfl
    · exact steps_bind (fun _ => rfl) fun _ => hback _
  refine steps_bind (fun _ => rfl) fun now => ?_
  refine steps_bind (receiveBody_status net stores i f codings _) fun rc => ?_
  exact steps_bind (hafter _) fun _ => steps_pure _

theorem decideFraming_noBody {res : HttpResponse} {wantBody : Bool}
    (hno : noBody res wantBody) (h : decideFraming res wantBody = .ok f) :
    f.chunked = false ∧ f.haveLen ∧ f.len = 0 := by
  unfold decideFraming at h
  dsimp only at h
  split at h
  · cases h
  rw [if_pos hno] at h
  cases h
  exact ⟨rfl, rfl, rfl⟩

theorem decodedBody_noBody {deadline : Nat} (hf : f.chunked = false ∧ f.haveLen ∧ f.len = 0) :
    decodedBody net stores i f codings deadline s = [] := by
  obtain ⟨hchunked, hlen, hzero⟩ := hf
  have hnone {τ : Type} (fn : WireSink τ σ) (t : τ) : handed net i f fn deadline t s = [] := by
    simp [handed, readBody, hchunked, hlen, hzero, readBodyLength, readExactly]
  unfold decodedBody
  split_ifs
  · exact hnone _ _
  · rw [hnone, uncoded]
    split <;> rfl

theorem beforeBody_status (h : Hop) : Steps (@SameStatus σ J K) (beforeBody net stores h) := by
  have hheaders : Steps (@SameStatus σ J K) (headersAccepted net h) := by
    intro s
    unfold headersAccepted
    split
    · exact rfl
    · split_ifs <;> exact rfl
  refine steps_bind (fun _ => rfl) fun s => ?_
  cases decideFraming s.res h.wantBody with
  | error e => exact steps_pure _
  | ok f =>
    refine steps_bind hheaders fun ok => ?_
    cases ok with
    | false => exact steps_pure _
    | true => cases codingsOf stores h s.res <;> exact steps_pure _

theorem beforeBody_framing {h : Hop} {s : Ex σ J K} {f : Framing} {codings : List HttpInflate}
    (hok : (beforeBody net stores h s).1 = .ok (f, codings)) :
    decideFraming s.res h.wantBody = .ok f ∧ codingsOf stores h s.res = .ok codings := by
  simp only [beforeBody, bind_apply] at hok
  cases hf : decideFraming s.res h.wantBody with
  | error e => simp [hf] at hok
  | ok f' =>
    simp only [hf, bind_apply, cond_apply] at hok
    cases ha : (headersAccepted net h s).1 with
    | false => simp [ha] at hok
    | true =>
      cases hc : codingsOf stores h s.res with
      | error e => simp [ha, hc] at hok
      | ok cs =>
        simp only [ha, hc, Bool.not_true, Bool.false_eq_true, if_false, pure_apply, Except.ok.injEq,
          Prod.mk.injEq] at hok
        rw [hok.1, hok.2]
        exact ⟨rfl, rfl⟩

theorem exchangeBody_notModified {h : Hop} {s : Ex σ J K}
    (hstatus : (exchange net stores h s).2.res.status = 304) :
    exchangeBody net stores h s = [] := by
  simp only [exchange, bind_apply, exchangeBody] at hstatus ⊢
  generalize answer net stores h s = r at hstatus ⊢
  obtain ⟨_ | i, s1⟩ := r
  · rfl
  have hsame := beforeBody_status net stores h s1
  have hframing := @beforeBody_framing σ J K net stores h s1
  simp only [finish, bind_apply] at hstatus ⊢
  generalize beforeBody net stores h s1 = r' at hstatus hsame hframing ⊢
  obtain ⟨_ | ⟨f, codings⟩, s2⟩ := r'
  · rfl
  have hfin : s1.res.status = 304 :=
    (hsame.symm.trans (finishBody_status net stores h i f codings s2).symm).trans hstatus
  exact decodedBody_noBody net stores
    (decideFraming_noBody (by simp [noBody, hfin]) (hframing rfl).1)

def filledBody (s : Ex σ J K) : List UInt8 := s.res.body.getD []

def followedBodies (plan : Plan) : Nat → Hops → Ex σ J K → List (List UInt8)
  | 0, _, _ => []
  | left + 1, hs, s =>
    match hopStep net stores plan (left + 1) hs s with
    | (.follow hs', s') =>
      exchangeBody net stores hs.hop { s with raw := hbInit httpHeadersMax } ::
        followedBodies plan left hs' s'
    | _ => []

def lastBody (plan : Plan) : Nat → Hops → Ex σ J K → List UInt8
  | left, hs, s =>
    match hopStep net stores plan left hs s with
    | (.follow hs', s') =>
      match left with
      | 0 => []
      | left + 1 => lastBody plan left hs' s'
    | (.done true, s') => filledBody s'
    | (.done false, _) => exchangeBody net stores hs.hop { s with raw := hbInit httpHeadersMax }
    | (.fail _, _) => []

inductive Dealt (s : Ex σ J K) : Next × Ex σ J K → Prop
  | follow (hs : Hops) (s' : Ex σ J K) (hout : s'.out = s.out.restart)
      (hsunk : sunkBytes s'.wire.log = sunkBytes s.wire.log) : Dealt s (.follow hs, s')
  | done (s' : Ex σ J K) (h : Ex.Quiet s s') : Dealt s (.done false, s')
  | stored (s' : Ex σ J K) (hstatus : s.res.status = 304) (hout : s'.out = s.out)
      (hsunk : s.out.sink ≠ none → sunkBytes s'.wire.log = sunkBytes s.wire.log ++ filledBody s') :
      Dealt s (.done true, s')
  | fail (e : HttpErr) (s' : Ex σ J K) : Dealt s (.fail e, s')

theorem sinkStored_sunk {sink : Option Nat} (hsink : sink ≠ none) (body : Option (List UInt8))
    (w : Wire σ) :
    sunkBytes (sinkStored net sink body w).2.log = sunkBytes w.log ++ body.getD [] := by
  obtain ⟨user, rfl⟩ := Option.ne_none_iff_exists'.mp hsink
  rcases body with _ | _ | ⟨c, d⟩
  · simp [sinkStored]
  · simp [sinkStored]
  · simp [sinkStored, Wire.record, sunkBytes, WireEvent.sunkPart]

theorem follow_dealt (left : Nat) (hs : Hops) (loc : List UInt8) (s : Ex σ J K) :
    Dealt s (follow left hs loc s) := by
  unfold follow
  split_ifs
  · exact .fail _ _
  cases redirectTarget hs.hop.u loc with
  | error e => exact .fail _ _
  | ok next => exact .follow _ _ rfl rfl

theorem reuseEntry_dealt (plan : Plan) (k : K) (hstatus : s.res.status = 304) :
    Dealt s (reuseEntry net stores plan k s) := by
  unfold reuseEntry
  dsimp only
  cases stores.cacheFill
    (stores.cacheRefresh k plan.key (untilNul s.raw.data) plan.now) plan.key with
  | error e => exact .fail _ _
  | ok res => exact .stored _ hstatus rfl fun hsink => sinkStored_sunk net hsink res.body s.wire

theorem absorbCookies_env (h : Hop) (s : Ex σ J K) :
    ∃ jar env, (absorbCookies net stores h s).2 = { s with jar, wire := { s.wire with env } } := by
  unfold absorbCookies
  split
  · split_ifs
    · exact ⟨_, _, rfl⟩
    · exact ⟨_, _, rfl⟩
  · exact ⟨_, _, rfl⟩

theorem Dealt.of_env {s : Ex σ J K} {jar : Option J} {env : σ} {r : Next × Ex σ J K}
    (h : Dealt { s with jar, wire := { s.wire with env } } r) : Dealt s r := by
  cases h with
  | follow hs s' hout hsunk => exact .follow hs s' hout hsunk
  | done s' hq => exact .done s' ⟨hq.out, hq.sunk⟩
  | stored s' hstatus hout hsunk => exact .stored s' hstatus hout hsunk
  | fail e s' => exact .fail e s'

theorem afterExchange_dealt (plan : Plan) (left : Nat) (hs : Hops) (url : List UInt8)
    (s : Ex σ J K) :
    Dealt s (afterExchange net stores plan left hs url s) := by
  obtain ⟨jar, env, habsorb⟩ := absorbCookies_env net stores hs.hop s
  simp only [afterExchange, bind_apply, habsorb]
  apply @Dealt.of_env σ J K s jar env
  simp only [cond_apply]
  split_ifs with hredirect hstored
  · rcases headerGet s.res.headers (ascii "Location") with _ | _ | ⟨c, loc⟩
    · exact .done _ ⟨rfl, rfl⟩
    · exact .done _ ⟨rfl, rfl⟩
    · exact follow_dealt left hs _ _
  · cases s.cache with
    | none => exact .fail _ _
    | some k => exact reuseEntry_dealt net stores plan k hstored.1
  · refine .done _ ?_
    unfold keepEntry
    rw [modify_apply]
    dsimp only
    split
    · exact ⟨rfl, rfl⟩
    · split_ifs <;> exact ⟨rfl, rfl⟩

/-- What one round does to the output when the response to it has the given body. -/
inductive Round (body : List UInt8) (s : Ex σ J K) : Next × Ex σ J K → Prop
  | follow (hs : Hops) (s' : Ex σ J K) (hsink : s'.out.sink = s.out.sink)
      (hmem : s'.out.mem.data = [])
      (hsunk : s.out.sink ≠ none → sunkBytes s'.wire.log = sunkBytes s.wire.log ++ body) :
      Round body s (.follow hs, s')
  | done (s' : Ex σ J K) (h : Poured body (s.out, s.wire) (s'.out, s'.wire)) :
      Round body s (.done false, s')
  | stored (s' : Ex σ J K)
      (hsunk : s.out.sink ≠ none → sunkBytes s'.wire.log = sunkBytes s.wire.log ++ filledBody s') :
      Round body s (.done true, s')
  | fail (e : HttpErr) (s' : Ex σ J K) : Round body s (.fail e, s')

theorem hopStep_round (plan : Plan) (left : Nat) (hs : Hops) (s : Ex σ J K) :
    Round (exchangeBody net stores hs.hop { s with raw := hbInit httpHeadersMax }) s
      (hopStep net stores plan left hs s) := by
  have hpoured := @exchange_poured σ J K net stores hs.hop { s with raw := hbInit httpHeadersMax }
  have hnotMod := @exchangeBody_notModified σ J K net stores hs.hop
    { s with raw := hbInit httpHeadersMax }
  have hround := hopStep_rounded net stores plan left hs s
  generalize hopStep net stores plan left hs s = r at hround ⊢
  generalize exchangeBody net stores hs.hop _ = body at hpoured hnotMod ⊢
  cases hround with
  | unsent e => exact .fail _ _
  | sent url r s1 _ _ hex =>
    rw [hex] at hpoured hnotMod
    cases r with
    | error e => exact .fail _ _
    | ok =>
      have hpour : Poured body (s.out, s.wire) (s1.out, s1.wire) := hpoured rfl
      have hdealt := afterExchange_dealt net stores plan left (hs.visit (fnv1a url)) url s1
      rw [afterRound]
      generalize afterExchange net stores plan left (hs.visit (fnv1a url)) url s1 = r at hdealt ⊢
      cases hdealt with
      | follow hs' s' hout hsunk =>
        refine .follow hs' s' ?_ ?_ fun hsink => ?_
        · rw [hout]
          exact hpour.sink
        · rw [hout]
          rfl
        · rw [hsunk]
          exact hpour.sunk hsink
      | done s' hq => exact .done s' (hpour.between (Std.Refl.refl s) hq)
      | stored s' hstatus hout hsunk =>
        refine .stored s' fun hsink => ?_
        have hbody : body = [] := hnotMod hstatus
        have hs1 := hpour.sunk hsink
        rw [hbody, append_nil] at hs1
        rw [hsunk (by rw [hpour.sink]; exact hsink)]
        exact congrArg (· ++ filledBody s') hs1
      | fail e s' => exact .fail e s'

/-- The output along a fetch that succeeds: what the sink got, or what the result holds. -/
structure Delivered (sink : Option Nat) (followed : List (List UInt8)) (last : List UInt8)
    (s s' : Ex σ J K) : Prop where
  kept : sink = none → filledBody s' = last
  sunk : sink ≠ none → sunkBytes s'.wire.log = sunkBytes s.wire.log ++ (followed.flatten ++ last)

theorem complete_wire (hs : Hops) (cached : Bool) (s : Ex σ J K) :
    (complete hs cached s).2.wire = s.wire := by
  unfold complete
  dsimp only
  split <;> rfl

theorem complete_body (hok : (complete hs cached s).1 = .ok ()) :
    filledBody (complete hs cached s).2 =
      if cached then filledBody s else if s.out.sink = none then s.out.mem.data
        else filledBody s := by
  unfold complete at hok ⊢
  dsimp only at hok ⊢
  generalize urlSerialize hs.hop.u urlMax = r at hok ⊢
  cases r with
  | error e => cases hok
  | ok url =>
    cases cached with
    | true => rfl
    | false => cases s.out.sink <;> simp [filledBody]

theorem complete_delivered {body : List UInt8} (hmem : s.out.mem.data = [])
    (hround : Round body s (.done cached, s')) (hok : (complete hs cached s').1 = .ok ()) :
    Delivered s.out.sink [] (if cached then filledBody s' else body) s
      (complete hs cached s').2 := by
  have hbody := complete_body hok
  cases hround with
  | done _ h =>
    refine ⟨fun hsink => ?_, fun hsink => ?_⟩
    · have hs' : s'.out.sink = none := h.sink.trans hsink
      have hkept := h.kept hsink
      rw [hbody, if_neg Bool.false_ne_true, if_pos hs', if_neg Bool.false_ne_true]
      simpa [hmem] using hkept
    · rw [complete_wire]
      simpa using h.sunk hsink
  | stored _ hsunk =>
    refine ⟨fun _ => by rw [hbody]; rfl, fun hsink => ?_⟩
    rw [complete_wire]
    simpa using hsunk hsink

theorem fetchLoop_delivered (plan : Plan) (left : Nat) (hs : Hops) (hmem : s.out.mem.data = [])
    (hok : (fetchLoop net stores plan left hs s).1 = .ok ()) :
    Delivered s.out.sink (followedBodies net stores plan left hs s)
      (lastBody net stores plan left hs s) s (fetchLoop net stores plan left hs s).2 := by
  induction left generalizing hs s with
  | zero =>
    have hround := hopStep_round net stores plan 0 hs s
    rw [fetchLoop] at hok ⊢
    rw [followedBodies, lastBody]
    simp only [bind_apply] at hok ⊢
    generalize hopStep net stores plan 0 hs s = r at hround hok ⊢
    obtain ⟨hs' | cached | e, s'⟩ := r
    · cases hok
    · have hdel := complete_delivered hmem hround hok
      cases cached <;> exact hdel
    · cases hok
  | succ left ih =>
    have hround := hopStep_round net stores plan (left + 1) hs s
    rw [fetchLoop] at hok ⊢
    rw [followedBodies, lastBody]
    simp only [bind_apply] at hok ⊢
    generalize hopStep net stores plan (left + 1) hs s = r at hround hok ⊢
    obtain ⟨hs' | cached | e, s'⟩ := r
    · cases hround with
      | follow _ _ hsink hmem' hsunk =>
        have hrest := ih hs' hmem' hok
        rw [hsink] at hrest
        refine ⟨hrest.kept, fun hne => ?_⟩
        have hlater := hrest.sunk hne
        rw [hsunk hne] at hlater
        simpa [append_assoc] using hlater
    · have hdel := complete_delivered hmem hround hok
      cases cached <;> exact hdel
    · cases hok

def redirectBodies (req : HttpRequest) (s : Ex σ J K) : List (List UInt8) :=
  match prepare net stores req s with
  | (.go plan hs, s') => followedBodies net stores plan (maxHops req) hs s'
  | (.answered _, _) => []

def finalBody (req : HttpRequest) (s : Ex σ J K) : List UInt8 :=
  match prepare net stores req s with
  | (.go plan hs, s') => lastBody net stores plan (maxHops req) hs s'
  | (.answered _, s') => filledBody s'

inductive Readied (req : HttpRequest) (s : Ex σ J K) : Prepared × Ex σ J K → Prop
  | go (plan : Plan) (hs : Hops) (s' : Ex σ J K) (hout : s'.out = startOut req plan.cacheable)
      (hsunk : sunkBytes s'.wire.log = sunkBytes s.wire.log) : Readied req s (.go plan hs, s')
  | answered (s' : Ex σ J K)
      (hsunk : req.sink ≠ none → sunkBytes s'.wire.log = sunkBytes s.wire.log ++ filledBody s') :
      Readied req s (.answered (.ok ()), s')
  | refused (e : HttpErr) (s' : Ex σ J K) : Readied req s (.answered (.error e), s')

theorem askCache_readied (req : HttpRequest) (u : Url) (plan : Plan) (url : List UInt8) (k : K)
    (s : Ex σ J K) : Readied req s (askCache net stores req u plan url k s) := by
  unfold askCache
  generalize stores.cacheLookup k plan.key plan.now = r
  obtain ⟨found, k'⟩ := r
  cases found with
  | miss => exact .go _ _ _ rfl rfl
  | stale etag lm => exact .go _ _ _ rfl rfl
  | fresh etag lm =>
    dsimp only
    split_ifs
    · exact .go _ _ _ rfl rfl
    cases stores.cacheFill k' plan.key with
    | error e => exact .go _ _ _ rfl rfl
    | ok res => exact .answered _ fun hsink => sinkStored_sunk net hsink res.body s.wire

theorem Readied.of_log {s1 : Ex σ J K} {r : Prepared × Ex σ J K} (hlog : s1.wire.log = s.wire.log)
    (h : Readied req s1 r) : Readied req s r := by
  cases h with
  | go plan hs s' hout hsunk => exact .go plan hs s' hout (by rw [hsunk, hlog])
  | answered s' hsunk => exact .answered s' fun hsink => by rw [hsunk hsink, hlog]
  | refused e s' => exact .refused e s'

theorem prepare_readied (req : HttpRequest) (s : Ex σ J K) :
    Readied req s (prepare net stores req s) := by
  unfold prepare
  cases urlParse req.url with
  | error e => exact .refused _ _
  | ok u =>
    dsimp only
    by_cases hu : (!u.hasScheme || !u.hasAuthority || u.host.isEmpty) = true
    · rw [if_pos hu]
      exact .refused _ _
    rw [if_neg hu]
    cases urlSerialize (urlNormalize u normalFlags) urlMax with
    | error e => exact .refused _ _
    | ok url =>
      dsimp only
      cases s.cache with
      | none => exact .go _ _ _ rfl rfl
      | some k =>
        dsimp only
        split_ifs
        · refine Readied.of_log ?_ (askCache_readied net stores req _ _ url k _)
          rfl
        · exact .go _ _ _ rfl rfl

theorem httpFetch_delivered (hok : (httpFetch net stores req s).1 = .ok ()) :
    Delivered req.sink (redirectBodies net stores req s) (finalBody net stores req s) s
      (httpFetch net stores req s).2 := by
  have hready := prepare_readied net stores req s
  simp only [httpFetch, bind_apply, redirectBodies, finalBody] at hok ⊢
  generalize prepare net stores req s = r at hready hok ⊢
  cases hready with
  | go plan hs s' hout hsunk =>
    have hmem : s'.out.mem.data = [] := by rw [hout]; rfl
    have hdel := fetchLoop_delivered net stores plan (maxHops req) hs hmem hok
    have hsink : s'.out.sink = req.sink := by rw [hout]; rfl
    rw [hsink] at hdel
    refine ⟨hdel.kept, fun hne => ?_⟩
    rw [← hsunk]
    exact hdel.sunk hne
  | answered s' hsunk => exact ⟨fun _ => rfl, fun hne => by simpa using hsunk hne⟩
  | refused e s' => cases hok

def received (req : HttpRequest) (s s' : Ex σ J K) : List UInt8 :=
  if req.sink = none then filledBody s' else sunkBytes (s.since s')

def Ex.Logs (s s' : Ex σ J K) : Prop := s.wire.Grows (fun _ => True) s'.wire

instance : Std.Refl (@Ex.Logs σ J K) where
  refl s := .refl s.wire

instance : IsTrans (Ex σ J K) Ex.Logs where
  trans _ _ _ h h' := Wire.Grows.trans h h'

theorem Ex.Uses.logs (h : Ex.Uses P firstSlot s s') :
    Ex.Logs s s' := h.grows.mono fun _ _ => trivial

theorem hopStep_logs (plan : Plan) (left : Nat) (hs : Hops) :
    Steps (@Ex.Logs σ J K) (hopStep net stores plan left hs) := by
  intro s
  obtain ⟨evs, hlog, -⟩ := exchange_count net stores hs.hop { s with raw := hbInit httpHeadersMax }
  have hround := hopStep_rounded net stores plan left hs s
  generalize hopStep net stores plan left hs s = r at hround ⊢
  cases hround with
  | unsent e => exact .refl _
  | sent url r s' _ _ hex =>
    rw [hex] at hlog
    have hlogs : Ex.Logs s s' := ⟨evs, hlog, fun _ _ => trivial⟩
    cases r with
    | error e => exact hlogs
    | ok => exact IsTrans.trans _ _ _ hlogs (afterExchange_uses net stores plan left _ url s').logs

theorem fetchLoop_logs (plan : Plan) (left : Nat) (hs : Hops) :
    Steps (@Ex.Logs σ J K) (fetchLoop net stores plan left hs) := by
  have hend (hs : Hops) (cached : Bool) : Steps (@Ex.Logs σ J K) (complete hs cached) :=
    fun s => (complete_uses hs cached s : Ex.Uses WireEvent.Sunk firstSlot s _).logs
  induction left generalizing hs with
  | zero =>
    rw [fetchLoop]
    refine steps_bind (hopStep_logs net stores plan 0 hs) fun next => ?_
    cases next with
    | follow hs' => exact steps_pure _
    | done cached => exact hend hs cached
    | fail e => exact steps_bind (fun _ => .same rfl) fun _ => steps_pure _
  | succ left ih =>
    rw [fetchLoop]
    refine steps_bind (hopStep_logs net stores plan (left + 1) hs) fun next => ?_
    cases next with
    | follow hs' => exact ih hs'
    | done cached => exact hend hs cached
    | fail e => exact steps_bind (fun _ => .same rfl) fun _ => steps_pure _

theorem httpFetch_logs (req : HttpRequest) : Steps (@Ex.Logs σ J K) (httpFetch net stores req) := by
  refine steps_bind (fun s => (prepare_uses net stores req s).logs) fun r => ?_
  cases r with
  | answered rc => exact steps_pure _
  | go plan hs => exact fetchLoop_logs net stores plan (maxHops req) hs

end KestrelOS.Http
