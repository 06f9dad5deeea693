import KestrelOS.Http.Sinks

/-!
# Where parsed bytes come from

Every byte that a reader takes was buffered in the connection before or has been delivered by its
transport since. `Link.Draws bs` says that `bs` was taken, in this order and without gaps.
-/

namespace KestrelOS.Http

open StProg List Function

variable {σ τ J K : Type} (net : Net σ) (stores : Stores J K)

def WireEvent.gotPart (ctx : Nat) : WireEvent → List UInt8
  | got c bs => if c = ctx then bs else []
  | _ => []

def gotBytes (ctx : Nat) (evs : List WireEvent) : List UInt8 := evs.flatMap (WireEvent.gotPart ctx)

private theorem gotBytes_append (ctx : Nat) (a b : List WireEvent) :
    gotBytes ctx (a ++ b) = gotBytes ctx a ++ gotBytes ctx b := flatMap_append

private theorem gotBytes_eq_nil {P : WireEvent → Prop} (hP : ∀ e, P e → ¬ e.Got) (ctx : Nat)
    {evs : List WireEvent} (h : ∀ e ∈ evs, P e) : gotBytes ctx evs = [] := by
  refine flatMap_eq_nil_iff.mpr fun e he => ?_
  have hnot := hP e (h e he)
  cases e with
  | got c bs => exact absurd trivial hnot
  | _ => rfl

/-- What was buffered and what came in is what was taken and what is buffered now. -/
structure Link.Draws (bs : List UInt8) (l l' : Link σ) : Prop where
  ctx : l'.conn.ctx = l.conn.ctx
  bytes : ∃ evs, l'.wire.log = l.wire.log ++ evs ∧
    l.conn.buf ++ gotBytes l.conn.ctx evs = bs ++ l'.conn.buf

namespace Link.Draws

variable {l l' l'' : Link σ} {bs bs' : List UInt8}

theorem trans (h : l.Draws bs l') (h' : l'.Draws bs' l'') : l.Draws (bs ++ bs') l'' := by
  obtain ⟨evs, hlog, hbytes⟩ := h.bytes
  obtain ⟨evs', hlog', hbytes'⟩ := h'.bytes
  refine ⟨h'.ctx.trans h.ctx, evs ++ evs', by rw [hlog', hlog, append_assoc], ?_⟩
  rw [h.ctx] at hbytes'
  rw [gotBytes_append, ← append_assoc, hbytes, append_assoc, hbytes', append_assoc]

theorem then_nothing (h : l.Draws bs l') (h' : l'.Draws [] l'') : l.Draws bs l'' := by
  simpa using h.trans h'

theorem same {P : WireEvent → Prop} (hP : ∀ e, P e → ¬ e.Got) (hc : l'.conn.ctx = l.conn.ctx)
    (hb : l'.conn.buf = l.conn.buf) (hg : l.wire.Grows P l'.wire) : l.Draws [] l' := by
  obtain ⟨evs, hlog, hevs⟩ := hg
  exact ⟨hc, evs, hlog, by rw [gotBytes_eq_nil hP _ hevs, hb, append_nil, nil_append]⟩

theorem sunk (hc : l'.conn.ctx = l.conn.ctx) (hb : l'.conn.buf = l.conn.buf)
    (hg : l.wire.Grows WireEvent.Sunk l'.wire) : l.Draws [] l' :=
  same (fun e he hgot => by cases e <;> simp_all [WireEvent.Sunk, WireEvent.Got]) hc hb hg

theorem still (hc : l'.conn.ctx = l.conn.ctx) (hb : l'.conn.buf = l.conn.buf)
    (hlog : l'.wire.log = l.wire.log) : l.Draws [] l' :=
  ⟨hc, [], by rw [hlog, append_nil], by rw [hb]; exact append_nil _⟩

theorem refl (l : Link σ) : l.Draws [] l := still rfl rfl rfl

end Link.Draws

section Conn

variable (deadline : Nat)

private theorem hcArm_draws (l : Link σ) : l.Draws [] (hcArm net deadline l).2 := by
  unfold hcArm
  dsimp only
  split_ifs
  · exact .refl l
  · exact .still rfl rfl rfl
  · exact .still rfl rfl rfl

private theorem hcRefill_draws {l : Link σ} (hbuf : l.conn.buf = []) :
    l.Draws [] (hcRefill net l).2 := by
  unfold hcRefill
  dsimp only
  split
  · exact .still rfl rfl rfl
  · exact .still rfl rfl rfl
  · exact .still rfl rfl rfl
  · rename_i bs _
    exact ⟨rfl, [.got l.conn.ctx bs], rfl, by simp [hbuf, gotBytes, WireEvent.gotPart]⟩

theorem hcArm_buf (l : Link σ) : (hcArm net deadline l).2.conn = l.conn := by
  unfold hcArm
  dsimp only
  split_ifs <;> rfl

private theorem hcFill_draws (l : Link σ) : l.Draws [] (hcFill net deadline l).2 := by
  have harm := hcArm_draws net deadline l
  rw [hcFill_apply]
  split_ifs with hbuf
  · exact .refl l
  · exact .refl l
  · exact .refl l
  split
  · exact harm.then_nothing (.still rfl rfl rfl)
  refine harm.then_nothing (hcRefill_draws net ?_)
  rw [hcArm_buf]
  exact not_not.mp hbuf

private theorem takeBuf_draws (n : Nat) (l : Link σ) : l.Draws (takeBuf n l).1 (takeBuf n l).2 :=
  ⟨rfl, [], (append_nil _).symm, by simp [takeBuf, gotBytes]⟩

private theorem hcLineLoop_draws (room : Nat) (out : List UInt8) (l : Link σ) :
    ∃ bs, l.Draws bs (hcLineLoop net deadline room out l).2 ∧
      ∀ line, (hcLineLoop net deadline room out l).1 = .ok line →
        ∃ text, bs = text ++ [0x0a] ∧ 0x0a ∉ text ∧ line = dropCr (out ++ text) := by
  induction room using Nat.strongRecOn generalizing out l with
  | ind room ih =>
    rw [hcLineLoop]
    simp only [bind_apply]
    have hfill := hcFill_draws net deadline l
    generalize hcFill net deadline l = r at hfill ⊢
    obtain ⟨fill, l1⟩ := r
    cases fill with
    | err e => exact ⟨[], hfill, nofun⟩
    | eof => exact ⟨[], hfill, nofun⟩
    | data =>
      have htake := takeBuf_draws 1 l1
      simp only [bind_apply]
      generalize htb : takeBuf 1 l1 = r at htake ⊢
      obtain ⟨bs, l2⟩ := r
      cases bs with
      | nil => exact ⟨_, hfill.trans htake, nofun⟩
      | cons ch bs =>
        have hone : bs = [] := by
          have := congrArg (fun p => p.1.length) htb
          simp only [takeBuf, length_take, length_cons] at this
          exact eq_nil_of_length_eq_zero (by omega)
        subst hone
        dsimp only
        by_cases hnl : ch = 0x0a
        · subst hnl
          rw [if_pos rfl]
          refine ⟨_, hfill.trans htake, fun line h => ⟨[], rfl, not_mem_nil, ?_⟩⟩
          cases h
          rw [append_nil]
        · rw [if_neg hnl]
          cases room with
          | zero => exact ⟨_, hfill.trans htake, nofun⟩
          | succ room =>
            obtain ⟨bs, hdraws, hok⟩ := ih room (Nat.lt_succ_self _) (out ++ [ch]) l2
            refine ⟨_, (hfill.trans htake).trans hdraws, fun line h => ?_⟩
            obtain ⟨text, rfl, hno, rfl⟩ := hok line h
            exact ⟨ch :: text, by simp, by simp [hno, Ne.symm hnl], by simp⟩

theorem hcLine_draws (outsz : Nat) (l : Link σ) : ∃ bs, l.Draws bs (hcLine net outsz deadline l).2 ∧
    ∀ line, (hcLine net outsz deadline l).1 = .ok line →
      ∃ text, bs = text ++ [0x0a] ∧ 0x0a ∉ text ∧ line = dropCr text :=
  hcLineLoop_draws net deadline (outsz - 1) [] l

private theorem hcRead_draws (max : Nat) (l : Link σ) :
    ∃ bs, l.Draws bs (hcRead net max deadline l).2 ∧
      ∀ d, (hcRead net max deadline l).1 = .ok d → bs = d := by
  unfold hcRead
  rw [cond_apply]
  split_ifs
  · refine ⟨[], .refl l, fun d h => ?_⟩
    cases h
    rfl
  have hfill := hcFill_draws net deadline l
  simp only [bind_apply]
  generalize hcFill net deadline l = r at hfill ⊢
  obtain ⟨fill, l1⟩ := r
  cases fill with
  | err e => exact ⟨[], hfill, nofun⟩
  | eof =>
    refine ⟨[], hfill, fun d h => ?_⟩
    cases h
    rfl
  | data =>
    refine ⟨_, hfill.trans (takeBuf_draws max l1), fun d h => ?_⟩
    cases h
    rfl

private theorem hcSend_draws (data : List UInt8) (l : Link σ) :
    l.Draws [] (hcSend net data l).2 := by
  have hwrite : ∀ chunk (l : Link σ), l.Draws [] (hcWrite net chunk l).2 := by
    intro chunk l
    have hkeeps := hcWrite_keeps net chunk l
    refine .same (fun e he hg => ?_) hkeeps.ctx ?_ hkeeps.grows
    · cases e <;> simp_all [WireEvent.Wrote, WireEvent.Got]
    unfold hcWrite
    dsimp only
    split <;> rfl
  have hloop : ∀ fuel data (l : Link σ), l.Draws [] (hcSendLoop net fuel data l).2 := by
    intro fuel
    induction fuel with
    | zero => exact fun _ l => .refl l
    | succ fuel ih =>
      intro data l
      rw [hcSendLoop, cond_apply]
      split_ifs
      · exact .refl l
      have h := hwrite (data.take sendChunk) l
      simp only [bind_apply]
      generalize hcWrite net (data.take sendChunk) l = r at h ⊢
      obtain ⟨_ | n, l1⟩ := r
      · exact h
      · exact h.then_nothing (ih _ l1)
  exact hloop _ data l

end Conn

def Ex.Draws (i : Fin httpPoolMax) (bs : List UInt8) (s s' : Ex σ J K) : Prop :=
  Link.Draws bs ⟨s.pool i, s.wire⟩ ⟨s'.pool i, s'.wire⟩

def addHeaderLines (lines : List (List UInt8)) (raw : HBuf) : Except HttpErr HBuf :=
  lines.foldlM (fun raw line => addHeaderLine line raw) raw

def wireLines (texts : List (List UInt8)) : List UInt8 := texts.flatMap (· ++ [0x0a])

/-- The bytes end in the status line and the header lines of the response. -/
def HeadOf (taken : List UInt8) (res : HttpResponse) (raw : HBuf) : Prop :=
  ∃ before status texts last, taken = before ++ wireLines (status :: texts ++ [last]) ∧
    statusLine (dropCr status) = some (res.httpMinor, res.status) ∧ dropCr last = [] ∧
    addHeaderLines (texts.map dropCr) (hbInit httpHeadersMax) = .ok raw ∧
    res.headers = headersBuild raw.data

private theorem HeadOf.append {taken : List UInt8} {res : HttpResponse} {raw : HBuf}
    (h : HeadOf taken res raw) (bs : List UInt8) : HeadOf (bs ++ taken) res raw := by
  obtain ⟨before, status, texts, last, rfl, hrest⟩ := h
  exact ⟨bs ++ before, status, texts, last, (append_assoc _ _ _).symm, hrest⟩

section Head

variable {i : Fin httpPoolMax} (deadline : Nat)

private theorem onConn_draws {α : Type} {x : StProg (Link σ) α} {s : Ex σ J K} {bs : List UInt8}
    (h : Link.Draws bs ⟨s.pool i, s.wire⟩ (x ⟨s.pool i, s.wire⟩).2) :
    Ex.Draws i bs s (onConn i x s).2 := by
  unfold Ex.Draws onConn
  simp only [zoom_apply, update_self]
  exact h

private theorem onConn_hcLine_draws (s : Ex σ J K) :
    ∃ bs, Ex.Draws i bs s (onConn i (hcLine net httpLineMax deadline) s).2 ∧
      ∀ line, (onConn i (hcLine net httpLineMax deadline) s).1 = .ok line →
        ∃ text, bs = text ++ [0x0a] ∧ 0x0a ∉ text ∧ line = dropCr text := by
  obtain ⟨bs, hdraws, hline⟩ := hcLine_draws net deadline httpLineMax ⟨s.pool i, s.wire⟩
  exact ⟨bs, onConn_draws hdraws, hline⟩

private theorem readHeaderLines_draws (fuel : Nat) (s : Ex σ J K) :
    ∃ bs, Ex.Draws i bs s (readHeaderLines net i deadline fuel s).2 ∧
      (readHeaderLines net i deadline fuel s).2.res = s.res ∧
      ((readHeaderLines net i deadline fuel s).1 = .ok () → ∃ texts last,
        bs = wireLines (texts ++ [last]) ∧ dropCr last = [] ∧
        addHeaderLines (texts.map dropCr) s.raw =
          .ok (readHeaderLines net i deadline fuel s).2.raw) := by
  induction fuel generalizing s with
  | zero => exact ⟨[], .refl _, rfl, nofun⟩
  | succ fuel ih =>
    rw [readHeaderLines]
    simp only [bind_apply]
    obtain ⟨bs, hdraws, hline⟩ := onConn_hcLine_draws net (i := i) deadline s
    have hres : (onConn i (hcLine net httpLineMax deadline) s).2.res = s.res := rfl
    have hraw : (onConn i (hcLine net httpLineMax deadline) s).2.raw = s.raw := rfl
    generalize onConn i (hcLine net httpLineMax deadline) s = r at hdraws hres hraw hline ⊢
    obtain ⟨e | line, s1⟩ := r
    · exact ⟨bs, hdraws, hres, nofun⟩
    obtain ⟨text, rfl, -, rfl⟩ := hline line rfl
    cases hcr : dropCr text with
    | nil =>
      refine ⟨_, hdraws, hres, fun _ => ⟨[], text, ?_, hcr, ?_⟩⟩
      · simp [wireLines]
      · exact congrArg Except.ok hraw.symm
    | cons c line =>
      dsimp only
      simp only [bind_apply]
      cases hadd : addHeaderLine (c :: line) s1.raw with
      | error e => exact ⟨_, hdraws, hres, nofun⟩
      | ok raw =>
        obtain ⟨bs', hd, hr, hok⟩ := ih { s1 with raw }
        refine ⟨_, hdraws.trans hd, hr.trans hres, fun h => ?_⟩
        obtain ⟨texts, last, rfl, hlast, hlines⟩ := hok h
        refine ⟨text :: texts, last, ?_, hlast, ?_⟩
        · simp [wireLines]
        · rw [map_cons, addHeaderLines, foldlM_cons, hcr, ← hraw, hadd]
          exact hlines

private theorem readHeadRounds_draws (rounds : Nat) (s : Ex σ J K) :
    ∃ bs, Ex.Draws i bs s (readHeadRounds net i deadline rounds s).2 ∧
      ((readHeadRounds net i deadline rounds s).1 = .ok () →
        HeadOf bs (readHeadRounds net i deadline rounds s).2.res
          (readHeadRounds net i deadline rounds s).2.raw) := by
  induction rounds generalizing s with
  | zero => exact ⟨[], .refl _, nofun⟩
  | succ rounds ih =>
    rw [readHeadRounds]
    simp only [bind_apply]
    obtain ⟨bs, hdraws, hline⟩ := onConn_hcLine_draws net (i := i) deadline s
    generalize onConn i (hcLine net httpLineMax deadline) s = r at hdraws hline ⊢
    obtain ⟨e | line, s1⟩ := r
    · exact ⟨bs, hdraws, nofun⟩
    obtain ⟨text, rfl, -, rfl⟩ := hline line rfl
    cases hcr : dropCr text with
    | nil =>
      obtain ⟨bs', hd, hok⟩ := ih s1
      exact ⟨_, hdraws.trans hd, fun h => (hok h).append _⟩
    | cons c line =>
      dsimp only
      cases hst : statusLine (c :: line) with
      | none => exact ⟨_, hdraws, nofun⟩
      | some mc =>
        obtain ⟨minor, code⟩ := mc
        simp only [bind_apply]
        obtain ⟨s2, hs2, hres2, hraw2, hdraws2⟩ : ∃ s2 : Ex σ J K, { s1 with
            res := { s1.res with httpMinor := minor, status := code }
            raw := hbInit httpHeadersMax } = s2 ∧
            (s2.res.httpMinor = minor ∧ s2.res.status = code) ∧ s2.raw = hbInit httpHeadersMax ∧
            Ex.Draws i (text ++ [0x0a]) s s2 := ⟨_, rfl, ⟨rfl, rfl⟩, rfl, hdraws⟩
        rw [hs2]
        obtain ⟨bs', hd, hr, hok⟩ :=
          readHeaderLines_draws net (i := i) deadline (httpHeadersMax + 1) s2
        generalize readHeaderLines net i deadline (httpHeadersMax + 1) s2 = r at hd hr hok ⊢
        obtain ⟨e | _, s3⟩ := r
        · exact ⟨_, hdraws2.trans hd, nofun⟩
        simp only [cond_apply]
        split_ifs
        · obtain ⟨bs'', hd', hok'⟩ := ih s3
          exact ⟨_, (hdraws2.trans hd).trans hd', fun h => (hok' h).append _⟩
        refine ⟨_, hdraws2.trans hd, fun _ => ?_⟩
        obtain ⟨texts, last, rfl, hlast, hlines⟩ := hok rfl
        refine ⟨[], text, texts, last, ?_, ?_, hlast, ?_, rfl⟩
        · simp [wireLines]
        · rw [hcr, hst]
          change some (minor, code) = some (s3.res.httpMinor, s3.res.status)
          rw [hr, hres2.1, hres2.2]
        · rw [← hraw2]
          exact hlines

theorem sendAndRead_draws (h : Hop) (head : List UInt8) (s : Ex σ J K) :
    ∃ bs, Ex.Draws i bs s (sendAndRead net h head i s).2 ∧
      ((sendAndRead net h head i s).1 = .ok () →
        HeadOf bs (sendAndRead net h head i s).2.res (sendAndRead net h head i s).2.raw) := by
  have hsend : ∀ d (s : Ex σ J K), Ex.Draws i [] s (onConn i (hcSend net d) s).2 := fun d s =>
    onConn_draws (hcSend_draws net d _)
  unfold sendAndRead
  simp only [bind_apply]
  have h0 : Ex.Draws i [] s (onWire (Wire.nowMs net) s).2 := .still rfl rfl rfl
  generalize onWire (Wire.nowMs net) s = r at h0 ⊢
  obtain ⟨now, s0⟩ := r
  have h1 := hsend head s0
  generalize onConn i (hcSend net head) s0 = r at h1 ⊢
  obtain ⟨e | _, s1⟩ := r
  · exact ⟨_, h0.trans h1, nofun⟩
  have h2 := hsend h.req.body s1
  simp only [bind_apply]
  generalize onConn i (hcSend net h.req.body) s1 = r at h2 ⊢
  obtain ⟨e | _, s2⟩ := r
  · exact ⟨_, (h0.trans h1).trans h2, nofun⟩
  · obtain ⟨bs, hd, hok⟩ := readHeadRounds_draws net (i := i) _ 16 s2
    exact ⟨bs, ((h0.then_nothing h1).then_nothing h2).trans hd, hok⟩

end Head

def Rx.Hands (r r' : Rx (τ × List UInt8) σ) : Prop :=
  ∃ bs d, Link.Draws bs r.link r'.link ∧ r'.out.2 = r.out.2 ++ d ∧ d.Sublist bs

instance : Std.Refl (@Rx.Hands σ τ) where
  refl _ := ⟨[], [], .refl _, (List.append_nil _).symm, .slnil⟩

instance : IsTrans (Rx (τ × List UInt8) σ) Rx.Hands where
  trans r r' r'' h h' := by
    obtain ⟨bs, d, hd, ho, hsub⟩ := h
    obtain ⟨bs', d', hd', ho', hsub'⟩ := h'
    exact ⟨bs ++ bs', d ++ d', hd.trans hd', by rw [ho', ho, List.append_assoc], hsub.append hsub'⟩

section Readers

variable {fn : WireSink τ σ} (deadline : Nat)
  (hfn : ∀ d, Steps (fun p p' => p.2.Grows WireEvent.Sunk p'.2) (fn d))

private theorem onLink_hands {α : Type} {x : StProg (Link σ) α}
    (hx : ∀ l, ∃ bs, Link.Draws bs l (x l).2) :
    Steps (@Rx.Hands σ τ) (onLink x) := by
  intro r
  obtain ⟨bs, hd⟩ := hx r.link
  exact ⟨bs, [], hd, (append_nil _).symm, nil_sublist _⟩

include hfn

theorem handPiece_gives (max : Nat) (r : Rx (τ × List UInt8) σ) :
    ∃ bs d, Link.Draws bs r.link (handPiece net (collecting fn) max deadline r).2.link ∧
      (handPiece net (collecting fn) max deadline r).2.out.2 = r.out.2 ++ d ∧ d.Sublist bs ∧
      (handPiece net (collecting fn) max deadline r).2.link.conn =
        (hcRead net max deadline r.link).2.conn ∧
      ∀ x, (handPiece net (collecting fn) max deadline r).1 = .ok x →
        bs = x ∧ d = x ∧ (hcRead net max deadline r.link).1 = .ok x := by
  obtain ⟨bs, hd, hok⟩ := hcRead_draws net deadline max r.link
  have hlink : Link.Draws bs r.link (onLink (hcRead net max deadline) r).2.link := hd
  have hread : (onLink (hcRead net max deadline) r).2.out = r.out := rfl
  have hconn : (onLink (hcRead net max deadline) r).2.link.conn =
      (hcRead net max deadline r.link).2.conn := rfl
  have hfst : (hcRead net max deadline r.link).1 = (onLink (hcRead net max deadline) r).1 := rfl
  rw [hfst] at hok ⊢
  rw [handPiece, bind_apply]
  generalize onLink (hcRead net max deadline) r = q at hread hlink hconn hok ⊢
  obtain ⟨res, r1⟩ := q
  have hsame : r1.out.2 = r.out.2 ++ [] := by rw [hread, append_nil]
  rcases res with e | _ | ⟨c, d⟩
  · exact ⟨bs, [], hlink, hsame, nil_sublist _, hconn, fun x hx => by cases hx⟩
  · refine ⟨bs, [], hlink, hsame, nil_sublist _, hconn, fun x hx => ?_⟩
    cases hx
    exact ⟨hok _ rfl, rfl, rfl⟩
  obtain rfl := hok _ rfl
  have hdraws : Link.Draws (c :: d) r.link (callSink (collecting fn) (c :: d) r1).2.link :=
    hlink.then_nothing (.sunk rfl rfl (hfn (c :: d) (r1.out.1, r1.link.wire)))
  have hgiven : (callSink (collecting fn) (c :: d) r1).2.out.2 = r.out.2 ++ (c :: d) := by
    rw [← hread]
    rfl
  refine ⟨c :: d, c :: d, ?_⟩
  dsimp only [bind_apply]
  cases (callSink (collecting fn) (c :: d) r1).1 with
  | error e => exact ⟨hdraws, hgiven, List.Sublist.refl _, hconn, fun x hx => by cases hx⟩
  | ok =>
    refine ⟨hdraws, hgiven, List.Sublist.refl _, hconn, fun x hx => ?_⟩
    cases hx
    exact ⟨rfl, rfl, rfl⟩

private theorem readBody_hands (f : Framing) :
    Steps Rx.Hands (readBody net f (collecting fn) deadline) := by
  have hline : Steps (@Rx.Hands σ τ) (onLink (hcLine net httpLineMax deadline)) :=
    onLink_hands fun l => by
      obtain ⟨bs, hd, -⟩ := hcLine_draws net deadline httpLineMax l
      exact ⟨bs, hd⟩
  have hadd (line : List UInt8) : Steps (@Rx.Hands σ τ) (addTrailer line) := by
    intro r
    unfold addTrailer
    dsimp only
    split_ifs
    · exact ⟨[], [], .refl _, (append_nil _).symm, .slnil⟩
    · exact Std.Refl.refl r
  have hpiece (max : Nat) : Steps Rx.Hands (handPiece net (collecting fn) max deadline) :=
    fun r => by
    obtain ⟨bs, d, hd, ho, hsub, -⟩ := handPiece_gives net deadline hfn max r
    exact ⟨bs, d, hd, ho, hsub⟩
  exact (Reading.of_steps net hline hpiece hadd).body f

omit hfn in
theorem readBody_forget (f : Framing) (r : Rx (τ × List UInt8) σ) :
    readBody net f fn deadline r.forget = ((readBody net f (collecting fn) deadline r).1,
      (readBody net f (collecting fn) deadline r).2.forget) :=
  (readBody_shadows net deadline (I := fun _ _ => True)
    ⟨fun _ _ _ _ _ => trivial, fun _ _ _ _ _ => trivial⟩ f r trivial).1

private theorem bodyFrom_draws (i : Fin httpPoolMax) (f : Framing) (t : τ) (s : Ex σ J K) :
    ∃ bs, Ex.Draws i bs s (bodyFrom net i f fn deadline t s).2 ∧
      (handed net i f fn deadline t s).Sublist bs := by
  let r : Rx (τ × List UInt8) σ := ⟨⟨s.pool i, s.wire⟩, s.raw, (t, [])⟩
  obtain ⟨bs, d, hd, ho, hsub⟩ := readBody_hands net deadline hfn f r
  refine ⟨bs, ?_, ?_⟩
  · unfold Ex.Draws bodyFrom
    dsimp only
    rw [update_self]
    change Link.Draws bs r.link (readBody net f fn deadline r.forget).2.link
    rw [readBody_forget]
    exact hd
  · have hhand : handed net i f fn deadline t s = d := ho
    rw [hhand]
    exact hsub

end Readers

theorem receiveBody_draws (i : Fin httpPoolMax) (f : Framing) (codings : List HttpInflate)
    (deadline : Nat) (s : Ex σ J K) :
    ∃ bs raw, Ex.Draws i bs s (receiveBody net stores i f codings deadline s).2 ∧ raw.Sublist bs ∧
      decodedBody net stores i f codings deadline s =
        if codings = [] then raw else uncoded stores s.out.max codings raw := by
  unfold receiveBody decodedBody
  split_ifs
  · obtain ⟨bs, hd, hsub⟩ := bodyFrom_draws net deadline (outWrite_keeps net) i f s.out s
    exact ⟨bs, _, hd, hsub, rfl⟩
  obtain ⟨bs, hd, hsub⟩ := bodyFrom_draws net deadline (sinkToBuf_keeps _) i f (hbInit codedMax) s
  refine ⟨bs, _, ?_, hsub, rfl⟩
  unfold receiveCoded
  rw [bind_apply]
  generalize bodyFrom net i f sinkToBuf deadline (hbInit codedMax) s = r at hd ⊢
  obtain ⟨⟨_ | _, coded⟩, s1⟩ := r
  · exact hd
  refine hd.then_nothing ?_
  exact .sunk rfl rfl (decodeBody_keeps net stores coded.data codings (s1.out, s1.wire))

end KestrelOS.Http
