import KestrelOS.Http.Draws

/-!
# Responses answer their own request

As long as every connection is drained when it is pooled, the next request that takes it finds
nothing in its buffer, and what is parsed as its response was delivered after it was sent.
-/

namespace KestrelOS.Http

open StProg

variable {σ J K : Type} (net : Net σ) (stores : Stores J K)

section Each

def HopEach (P : Hop → Ex σ J K → Prop) (hs : Hops) (s : Ex σ J K) : Prop :=
  match urlSerialize hs.hop.u urlMax with
  | .error _ => True
  | .ok url =>
    hs.seen.contains (fnv1a url) = false → P hs.hop { s with raw := hbInit httpHeadersMax }

def LoopEach (P : Hop → Ex σ J K → Prop) (plan : Plan) : Nat → Hops → Ex σ J K → Prop
  | 0, hs, s => HopEach P hs s
  | left + 1, hs, s => HopEach P hs s ∧
    match hopStep net stores plan (left + 1) hs s with
    | (.follow hs', s') => LoopEach P plan left hs' s'
    | _ => True

def FetchEach (P : Hop → Ex σ J K → Prop) (req : HttpRequest) (s : Ex σ J K) : Prop :=
  match prepare net stores req s with
  | (.go plan hs, s') => LoopEach net stores P plan (maxHops req) hs s'
  | _ => True

def RunEach (P : Hop → Ex σ J K → Prop) : List HttpRequest → Ex σ J K → Prop
  | [], _ => True
  | req :: reqs, s => FetchEach net stores P req s ∧ RunEach P reqs (httpFetch net stores req s).2

variable {P Q : Hop → Ex σ J K → Prop} [∀ h s, Decidable (P h s)]

instance (hs : Hops) (s : Ex σ J K) : Decidable (HopEach P hs s) := by
  unfold HopEach
  split <;> infer_instance

def LoopEach.decidable (plan : Plan) : (left : Nat) → (hs : Hops) → (s : Ex σ J K) →
    Decidable (LoopEach net stores P plan left hs s)
  | 0, hs, s => inferInstanceAs (Decidable (HopEach P hs s))
  | left + 1, hs, s =>
    have : Decidable (match hopStep net stores plan (left + 1) hs s with
      | (.follow hs', s') => LoopEach net stores P plan left hs' s'
      | _ => True) := by
      split
      · exact LoopEach.decidable plan left _ _
      · infer_instance
    inferInstanceAs (Decidable (HopEach P hs s ∧ _))

instance (req : HttpRequest) (s : Ex σ J K) : Decidable (FetchEach net stores P req s) := by
  unfold FetchEach
  split
  · exact LoopEach.decidable net stores _ _ _ _
  · infer_instance

def RunEach.decidable : (reqs : List HttpRequest) → (s : Ex σ J K) →
    Decidable (RunEach net stores P reqs s)
  | [], _ => inferInstanceAs (Decidable True)
  | req :: reqs, s =>
    have := RunEach.decidable reqs (httpFetch net stores req s).2
    inferInstanceAs (Decidable (FetchEach net stores P req s ∧ _))

instance (reqs : List HttpRequest) (s : Ex σ J K) : Decidable (RunEach net stores P reqs s) :=
  RunEach.decidable net stores reqs s

end Each

theorem pool_eq_of_uses {P : WireEvent → Prop} {s s' : Ex σ J K} (h : ∀ i, Ex.Uses P i s s') :
    s'.pool = s.pool := by
  funext i
  by_cases hi : i = firstSlot
  · subst hi
    exact (h ⟨1, by decide⟩).others firstSlot (by decide)
  · exact (h firstSlot).others i hi

section Invariant

variable {I : (Fin httpPoolMax → HConn) → Prop} {P Q : Hop → Ex σ J K → Prop}
  (hstep : ∀ h s, I s.pool → P h s → Q h s ∧ I (exchange net stores h s).2.pool)

include hstep

variable {hs : Hops} {s : Ex σ J K}

theorem hopEach_of_keeps (plan : Plan) (left : Nat) (hI : I s.pool) (h : HopEach P hs s) :
    HopEach Q hs s ∧ I (hopStep net stores plan left hs s).2.pool := by
  have hround := hopStep_rounded net stores plan left hs s
  unfold HopEach at h ⊢
  generalize hopStep net stores plan left hs s = r at hround ⊢
  cases hround with
  | unsent e hno =>
    refine ⟨?_, hI⟩
    split
    · trivial
    · rename_i url hurl
      exact fun hseen => absurd hseen (hno url hurl)
  | sent url r s' hurl hseen hx =>
    rw [hurl] at h ⊢
    obtain ⟨hq, hex⟩ := hstep hs.hop { s with raw := hbInit httpHeadersMax } hI (h hseen)
    rw [hx] at hex
    refine ⟨fun _ => hq, ?_⟩
    cases r with
    | error e => exact hex
    | ok =>
      rw [afterRound]
      rw [pool_eq_of_uses fun i =>
        afterExchange_uses net stores plan left (hs.visit (fnv1a url)) url s']
      exact hex

theorem loopEach_of_keeps (plan : Plan) (left : Nat) (hI : I s.pool)
    (h : LoopEach net stores P plan left hs s) :
    LoopEach net stores Q plan left hs s ∧ I (fetchLoop net stores plan left hs s).2.pool := by
  have hcomplete (hs : Hops) (cached : Bool) (t : Ex σ J K) : (complete hs cached t).2.pool =
      t.pool :=
    pool_eq_of_uses fun i => (complete_uses hs cached t : Ex.Uses WireEvent.Sunk i t _)
  induction left generalizing hs s with
  | zero =>
    obtain ⟨hq, hI'⟩ := hopEach_of_keeps net stores hstep plan 0 hI h
    refine ⟨hq, ?_⟩
    rw [fetchLoop]
    simp only [bind_apply]
    generalize hopStep net stores plan 0 hs s = r at hI' ⊢
    obtain ⟨hs' | cached | e, s'⟩ := r
    · exact hI'
    · exact (hcomplete hs cached s').symm ▸ hI'
    · exact hI'
  | succ left ih =>
    obtain ⟨hq, hI'⟩ := hopEach_of_keeps net stores hstep plan (left + 1) hI h.1
    have hrest := h.2
    rw [fetchLoop, LoopEach]
    simp only [bind_apply]
    generalize hopStep net stores plan (left + 1) hs s = r at hI' hrest ⊢
    obtain ⟨hs' | cached | e, s'⟩ := r
    · obtain ⟨hq', hI''⟩ := ih hI' hrest
      exact ⟨⟨hq, hq'⟩, hI''⟩
    · exact ⟨⟨hq, trivial⟩, (hcomplete hs cached s').symm ▸ hI'⟩
    · exact ⟨⟨hq, trivial⟩, hI'⟩

theorem fetchEach_of_keeps {req : HttpRequest} (hI : I s.pool) (h : FetchEach net stores P req s) :
    FetchEach net stores Q req s ∧ I (httpFetch net stores req s).2.pool := by
  have hprep : (prepare net stores req s).2.pool = s.pool :=
    pool_eq_of_uses fun i => prepare_uses net stores req s
  unfold FetchEach at h ⊢
  simp only [httpFetch, bind_apply]
  generalize prepare net stores req s = r at h hprep ⊢
  obtain ⟨rc | ⟨plan, hops⟩, s'⟩ := r
  · exact ⟨trivial, hprep.symm ▸ hI⟩
  · exact loopEach_of_keeps net stores hstep plan _ (hprep.symm ▸ hI) h

theorem runEach_of_keeps {reqs : List HttpRequest} (hI : I s.pool)
    (h : RunEach net stores P reqs s) :
    RunEach net stores Q reqs s := by
  induction reqs generalizing s with
  | nil => exact trivial
  | cons req reqs ih =>
    obtain ⟨hq, hI'⟩ := fetchEach_of_keeps net stores hstep hI h.1
    exact ⟨hq, ih hI' h.2⟩

end Invariant

def Clean (pool : Fin httpPoolMax → HConn) : Prop := ∀ i, (pool i).pooled → (pool i).buf = []

/-- Slot `i` is at hand, and no pooled connection has unread bytes. -/
structure AtHand (i : Fin httpPoolMax) (pool : Fin httpPoolMax → HConn) : Prop where
  clean : Clean pool
  pooled : (pool i).pooled = false

variable {i : Fin httpPoolMax} {s : Ex σ J K}

theorem AtHand.uses {P : WireEvent → Prop} {s' : Ex σ J K} (h : AtHand i s.pool)
    (hu : Ex.Uses P i s s') : AtHand i s'.pool where
  clean j hj := by
    by_cases hji : j = i
    · subst hji
      rw [hu.pooled, h.pooled] at hj
      cases hj
    · rw [hu.others j hji] at hj ⊢
      exact h.clean j hj
  pooled := hu.pooled.trans h.pooled

def PooledClean (c : HConn) : Prop := c.pooled → c.buf = []

theorem InUse.atHand (h : InUse PooledClean i s.pool) : AtHand i s.pool where
  clean j hj := by
    by_cases hji : j = i
    · subst hji
      cases h.pooled.symm.trans hj
    · exact h.others j hji hj
  pooled := h.pooled

section Weaken

variable {P Q : Hop → List UInt8 → Fin httpPoolMax → Ex σ J K → Prop}

variable {h : Hop} {s : Ex σ J K}

theorem AttemptsEach.mono (hPQ : ∀ h head i s, P h head i s → Q h head i s)
    {origin head : List UInt8} {n : Nat} (hp : AttemptsEach net P h origin head n s) :
    AttemptsEach net Q h origin head n s := by
  induction n generalizing s with
  | zero => exact trivial
  | succ n ih =>
    rw [AttemptsEach] at hp ⊢
    generalize acquire net h origin s = r at hp ⊢
    obtain ⟨e | ⟨i, reused⟩, s1⟩ := r
    · exact trivial
    refine ⟨hPQ _ _ _ _ hp.1, ?_⟩
    have hrest := hp.2
    generalize sendAndRead net h head i s1 = r at hrest ⊢
    obtain ⟨e | _, s2⟩ := r
    · exact fun hr => ih (hrest hr)
    · exact trivial

theorem ExchangeEach.mono (hPQ : ∀ h head i s, P h head i s → Q h head i s)
    (hp : ExchangeEach net stores P h s) : ExchangeEach net stores Q h s := by
  unfold ExchangeEach at hp ⊢
  revert hp
  cases urlOrigin h.u (urlHostMax + 32) with
  | error e => exact fun _ => trivial
  | ok origin =>
    generalize buildRequest net stores h s = r
    obtain ⟨e | head, s1⟩ := r
    · exact fun _ => trivial
    · exact fun hp => hp.mono net hPQ

variable [∀ h head i s, Decidable (P h head i s)]

def AttemptsEach.decidable (h : Hop) (origin head : List UInt8) : (n : Nat) → (s : Ex σ J K) →
    Decidable (AttemptsEach net P h origin head n s)
  | 0, _ => inferInstanceAs (Decidable True)
  | n + 1, s => by
    rw [AttemptsEach]
    split
    · infer_instance
    have : ∀ s, Decidable (AttemptsEach net P h origin head n s) :=
      AttemptsEach.decidable h origin head n
    split <;> infer_instance

instance (h : Hop) (s : Ex σ J K) : Decidable (ExchangeEach net stores P h s) := by
  unfold ExchangeEach
  split
  · infer_instance
  split
  · infer_instance
  · exact AttemptsEach.decidable net _ _ _ _ _

end Weaken

def kept (h : Hop) (f : Framing) (ok : Bool) (s : Ex σ J K) : Bool :=
  ok && shouldKeepAlive (if ok && f.chunked then { s.res with headers := headersBuild s.raw.data }
    else s.res) f h.req

/-- When the connection of the exchange is about to be pooled, all that it buffered has been
read. -/
def Drained (h : Hop) (s : Ex σ J K) : Prop :=
  match answer net stores h s with
  | (.error _, _) => True
  | (.ok i, s1) =>
    match beforeBody net stores h s1 with
    | (.error _, _) => True
    | (.ok (f, codings), s2) =>
      let r := receiveBody net stores i f codings (bodyStart net h s2).1 (bodyStart net h s2).2
      kept h f r.1.isOk r.2 = true → (r.2.pool i).buf = []

instance (h : Hop) (s : Ex σ J K) : Decidable (Drained net stores h s) := by
  unfold Drained
  split
  · infer_instance
  · split <;> infer_instance

variable {i : Fin httpPoolMax} {s : Ex σ J K}

theorem finishBody_clean (h : Hop) {f : Framing} {codings : List HttpInflate} (hs : AtHand i s.pool)
    (hd : let r := receiveBody net stores i f codings (bodyStart net h s).1 (bodyStart net h s).2
      kept h f r.1.isOk r.2 → (r.2.pool i).buf = []) :
    Clean (finishBody net stores h i f codings s).2.pool := by
  have hnow : AtHand i (bodyStart net h s).2.pool :=
    hs.uses (onWire_works net s : Ex.Works (fun _ => True) i s _).toUses
  have hbody := hnow.uses (receiveBody_uses net stores f codings (bodyStart net h s).1 _)
  have heq : (finishBody net stores h i f codings s).2 =
      (afterBody net h i f (receiveBody net stores i f codings (bodyStart net h s).1
        (bodyStart net h s).2).1.isOk (receiveBody net stores i f codings (bodyStart net h s).1
        (bodyStart net h s).2).2).2 := rfl
  rw [heq]
  generalize receiveBody net stores i f codings (bodyStart net h s).1 (bodyStart net h s).2 = r
    at hd hbody ⊢
  obtain ⟨rc, s1⟩ := r
  simp only [afterBody, bind_apply]
  have hmod : ∀ c : Bool, (if c = true then { s1 with res := { s1.res with
      headers := headersBuild s1.raw.data } } else s1).pool = s1.pool := fun c => by
    split <;> rfl
  have hkept : (rc.isOk && shouldKeepAlive (if (rc.isOk && f.chunked) = true then { s1 with
      res := { s1.res with headers := headersBuild s1.raw.data } } else s1).res f h.req) =
      kept h f rc.isOk s1 := by
    unfold kept
    split <;> rfl
  rw [hkept]
  have hpool := hmod (rc.isOk && f.chunked)
  generalize (if (rc.isOk && f.chunked) = true then { s1 with res := { s1.res with
      headers := headersBuild s1.raw.data } } else s1) = s2 at hpool ⊢
  cases hk : kept h f rc.isOk s1 with
  | true =>
    simp only [giveBack, if_true, bind_apply]
    refine each_update (R := PooledClean) (fun j _ => ?_) fun _ => ?_
    · simpa [onWire, hpool, PooledClean] using hbody.clean j
    · simpa [onWire, hpool] using hd hk
  | false =>
    simp only [giveBack, Bool.false_eq_true, if_false]
    refine shutdown_each (R := PooledClean) net (fun _ hbuf _ _ => hbuf) fun j _ => ?_
    rw [hpool]
    exact hbody.clean j

def delivered (ctx : Nat) (w w' : Wire σ) : List UInt8 := gotBytes ctx (w'.log.drop w.log.length)

theorem Ex.Draws.delivered {bs : List UInt8} {s' : Ex σ J K} (h : Ex.Draws i bs s s')
    (hbuf : (s.pool i).buf = []) :
    delivered (s.pool i).ctx s.wire s'.wire = bs ++ (s'.pool i).buf := by
  obtain ⟨evs, hlog, hbytes⟩ := h.bytes
  dsimp only at hlog hbytes
  rw [hbuf, List.nil_append] at hbytes
  unfold Http.delivered
  rw [hlog, List.drop_left]
  exact hbytes

/-- The request that is about to be sent on slot `i` finds no byte there; and the head and the body
of its response are read from what the transport delivers from then on. -/
structure Own (h : Hop) (head : List UInt8) (i : Fin httpPoolMax) (s : Ex σ J K) : Prop where
  unread : (s.pool i).buf = []
  lines : ∀ s1, sendAndRead net h head i s = (.ok (), s1) →
    ∃ taken, delivered (s.pool i).ctx s.wire s1.wire = taken ++ (s1.pool i).buf ∧
      HeadOf taken s1.res s1.raw
  body : ∀ s1, sendAndRead net h head i s = (.ok (), s1) →
    ∀ f codings s2, beforeBody net stores h s1 = (.ok (f, codings), s2) →
      ∃ taken raw, delivered (s.pool i).ctx s.wire (receiveBody net stores i f codings
          (bodyStart net h s2).1 (bodyStart net h s2).2).2.wire =
        taken ++ ((receiveBody net stores i f codings (bodyStart net h s2).1
          (bodyStart net h s2).2).2.pool i).buf ∧ raw.Sublist taken ∧
        decodedBody net stores i f codings (bodyStart net h s2).1 (bodyStart net h s2).2 =
          if codings = [] then raw else uncoded stores s2.out.max codings raw

theorem beforeBody_draws {h : Hop} {f : Framing} {codings : List HttpInflate} {s1 : Ex σ J K}
    (hok : beforeBody net stores h s = (.ok (f, codings), s1)) :
    Ex.Draws i [] s (bodyStart net h s1).2 := by
  have hworks (j : Fin httpPoolMax) : Ex.Works (fun _ => False) j s s1 := by
    have := beforeBody_works net stores h s (P := fun _ => False) (i := j)
    rwa [hok] at this
  have hpool : s1.pool = s.pool := pool_eq_of_uses fun j => (hworks j).toUses
  refine .same (fun _ h => h.elim) ?_ ?_ ((hworks i).grows.trans (.same rfl))
  · exact congrArg (fun pool => (pool i).ctx) hpool
  · exact congrArg (fun pool => (pool i).buf) hpool

theorem Taken.own (h : Hop) (head : List UInt8) (i : Fin httpPoolMax) (s : Ex σ J K)
    (hs : Taken PooledClean i s.pool) : Own net stores h head i s := by
  have hunread : (s.pool i).buf = [] := hs.ready rfl
  obtain ⟨bs, hdraws, hhead⟩ := sendAndRead_draws net (i := i) h head s
  refine ⟨hunread, fun s1 hread => ?_, fun s1 hread f codings s2 hbefore => ?_⟩
  · rw [hread] at hdraws hhead
    exact ⟨bs, hdraws.delivered hunread, hhead rfl⟩
  rw [hread] at hdraws
  obtain ⟨bs', raw, hd, hsub, hdec⟩ := receiveBody_draws net stores i f codings
    (bodyStart net h s2).1 (bodyStart net h s2).2
  have hall : Ex.Draws i (bs ++ bs') s _ :=
    (hdraws.then_nothing (beforeBody_draws net stores hbefore)).trans hd
  exact ⟨bs ++ bs', raw, hall.delivered hunread, hsub.trans (List.sublist_append_right _ _), hdec⟩

theorem exchange_own (h : Hop) (s : Ex σ J K) (hs : Clean s.pool) (hd : Drained net stores h s) :
    ExchangeEach net stores (Own net stores) h s ∧ Clean (exchange net stores h s).2.pool := by
  obtain ⟨heach, hans⟩ := answer_each (R := PooledClean) net stores (fun _ hbuf _ _ => hbuf)
    (Taken.own net stores) h hs
  refine ⟨heach, ?_⟩
  unfold Drained at hd
  simp only [exchange, bind_apply]
  generalize answer net stores h s = r at hans hd ⊢
  obtain ⟨e | i, s1⟩ := r
  · exact hans
  dsimp only at hd
  have hbefore := (InUse.atHand hans).uses
    (beforeBody_works net stores h s1 : Ex.Works (fun _ => True) i s1 _).toUses
  simp only [finish, bind_apply]
  generalize beforeBody net stores h s1 = r at hbefore hd ⊢
  obtain ⟨e | ⟨f, codings⟩, s2⟩ := r
  · exact hbefore.clean
  · exact finishBody_clean net stores h hbefore hd

/-- In every run of fetches in which each connection is drained when it is pooled, every request
finds an empty buffer and its response comes from bytes delivered after it was sent. -/
theorem responses_answer_their_own_request (jar : Option J) (cache : Option K) (agent : List UInt8)
    (env : σ) (reqs : List HttpRequest)
    (h : RunEach net stores (Drained net stores) reqs (Ex.new jar cache agent env)) :
    RunEach net stores (ExchangeEach net stores (Own net stores)) reqs
      (Ex.new jar cache agent env) := by
  apply runEach_of_keeps net stores (exchange_own net stores)
  · exact nofun
  · exact h

/-- Two requests over one connection, whose peer sends each answer in a piece of its own. -/
def politePeer : Ex Script Unit Unit :=
  Ex.new none none (ascii "kestrel") { next := 0, peers := [[
    ascii "HTTP/1.1 200 OK\r\nContent-Length: 2\r\n\r\nok",
    ascii "HTTP/1.1 200 OK\r\nContent-Length: 4\r\n\r\nfine"]] }

theorem responses_answer_their_own_request_politely :
    RunEach Script.world bareStores
      (ExchangeEach Script.world bareStores (Own Script.world bareStores))
      [plainGet "http://h/a", plainGet "http://h/b"] politePeer :=
  responses_answer_their_own_request Script.world bareStores none none (ascii "kestrel") _ _
    (by decide +kernel)

/-- A peer that sends two responses at once to the first request. -/
def eagerPeer : Ex Script Unit Unit :=
  scriptedClient ["HTTP/1.1 200 OK\r\nContent-Length: 2\r\n\r\nok" ++
    "HTTP/1.1 200 OK\r\nContent-Length: 4\r\n\r\nevil"]

/-- The second request takes the second response for its own, which came before it was sent. -/
theorem leftover_is_taken_for_a_response :
    let s := (httpFetch Script.world bareStores (plainGet "http://h/a") eagerPeer).2
    let r := httpFetch Script.world bareStores (plainGet "http://h/b") s
    r.1 = .ok () ∧ r.2.res.body = some (ascii "evil") ∧ delivered 0 s.wire r.2.wire = [] ∧
      ¬ RunEach Script.world bareStores
        (ExchangeEach Script.world bareStores (Own Script.world bareStores))
        [plainGet "http://h/a", plainGet "http://h/b"] eagerPeer := by
  refine ⟨by decide +kernel, by decide +kernel, by decide +kernel, fun hrun => ?_⟩
  have hunread : RunEach Script.world bareStores (ExchangeEach Script.world bareStores
      fun _ _ i s => (s.pool i).buf = []) [plainGet "http://h/a", plainGet "http://h/b"]
      eagerPeer := by
    apply runEach_of_keeps (I := fun _ => True) Script.world bareStores _ trivial hrun
    intro h s _ hown
    exact ⟨ExchangeEach.mono Script.world bareStores (fun _ _ _ _ ho => ho.unread) hown, trivial⟩
  exact absurd hunread (by decide +kernel)

end KestrelOS.Http
