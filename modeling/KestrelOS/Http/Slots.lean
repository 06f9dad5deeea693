import KestrelOS.Http.Effects

/-!
# Connection slots

A slot that is open and not pooled belongs to the exchange at hand; when the exchange returns it
must have been closed or pooled. An exchange keeps this rule on every way out but three, all after
the head of a response.
-/

namespace KestrelOS.Http

open StProg Function List

variable {σ J K : Type} (net : Net σ) (stores : Stores J K)

def firstSlot : Fin httpPoolMax := ⟨0, by decide⟩

def Settled (pool : Fin httpPoolMax → HConn) : Prop := ∀ i, (pool i).opened → (pool i).pooled

structure Held (i : Fin httpPoolMax) (pool : Fin httpPoolMax → HConn) : Prop where
  others : ∀ j, j ≠ i → (pool j).opened → (pool j).pooled
  opened : (pool i).opened = true
  pooled : (pool i).pooled = false

variable {i : Fin httpPoolMax} {pool : Fin httpPoolMax → HConn} {P : WireEvent → Prop}
  {s s' : Ex σ J K} {c : HConn} {h : Hop}

theorem Held.not_settled (h : Held i pool) :
    ¬ Settled pool := fun hs => by simpa [h.pooled] using hs i h.opened

theorem Held.uses (h : Held i s.pool) (hu : Ex.Uses P i s s') : Held i s'.pool where
  others j hj := by rw [hu.others j hj]; exact h.others j hj
  opened := hu.opened.trans h.opened
  pooled := hu.pooled.trans h.pooled

theorem Ex.Uses.settled_iff (hu : Ex.Uses P i s s') : Settled s'.pool ↔ Settled s.pool := by
  refine forall_congr' fun j => ?_
  by_cases hj : j = i
  · subst hj
    rw [hu.opened, hu.pooled]
  · rw [hu.others j hj]

def AttemptsEach (P : Hop → List UInt8 → Fin httpPoolMax → Ex σ J K → Prop) (h : Hop)
    (origin head : List UInt8) : Nat → Ex σ J K → Prop
  | 0, _ => True
  | n + 1, s =>
    match acquire net h origin s with
    | (.error _, _) => True
    | (.ok (i, reused), s1) => P h head i s1 ∧
      match sendAndRead net h head i s1 with
      | (.ok (), _) => True
      | (.error _, s2) => reused = true →
        AttemptsEach P h origin head n (onConn i (hcShutdown net) s2).2

def ExchangeEach (P : Hop → List UInt8 → Fin httpPoolMax → Ex σ J K → Prop) (h : Hop)
    (s : Ex σ J K) :
    Prop :=
  match urlOrigin h.u (urlHostMax + 32) with
  | .error _ => True
  | .ok origin =>
    match buildRequest net stores h s with
    | (.error _, _) => True
    | (.ok head, s1) => AttemptsEach net P h origin head 2 s1

section Closing

-- what closing a connection does, closing any of them does
variable {R : Ex σ J K → Ex σ J K → Prop} [Std.Refl R] [IsTrans (Ex σ J K) R]
  (hR : ∀ i, Steps R (onConn i (hcShutdown net)))

include hR

theorem poolRetire_steps (now : Nat) (is : List (Fin httpPoolMax)) :
    Steps R (poolRetire net now is) := by
  induction is with
  | nil => exact steps_pure _
  | cons i is ih =>
    refine steps_bind (fun s => Std.Refl.refl s) fun s => ?_
    dsimp only
    split_ifs
    · exact steps_bind (hR i) fun _ => ih
    · exact ih

theorem poolSlot_steps : Steps R (poolSlot net) := by
  refine steps_bind (fun s => Std.Refl.refl s) fun s => ?_
  cases slots.find? fun i => !(s.pool i).opened with
  | some i => exact steps_pure _
  | none =>
    cases oldestPooled s.pool slots none with
    | none => exact steps_pure _
    | some i => exact steps_bind (hR i) fun _ => steps_pure _

end Closing

section Slotwise

structure InUse (R : HConn → Prop) (i : Fin httpPoolMax) (pool : Fin httpPoolMax → HConn) :
    Prop where
  others : ∀ j, j ≠ i → R (pool j)
  opened : (pool i).opened = true
  pooled : (pool i).pooled = false

structure Taken (R : HConn → Prop) (i : Fin httpPoolMax) (pool : Fin httpPoolMax → HConn) : Prop
    extends InUse R i pool where
  ready : R { pool i with pooled := true }

variable {R : HConn → Prop}

theorem each_update (h : ∀ j, j ≠ i → R (pool j)) (hc : R c) (j : Fin httpPoolMax) :
    R (update pool i c j) :=
  (forall_update_iff pool fun _ c => R c).mpr ⟨hc, h⟩ j

theorem taken_update (h : ∀ j, R (pool j)) (hc : R { c with pooled := true }) (ho : c.opened)
    (hp : c.pooled = false) : Taken R i (update pool i c) where
  others j hj := by rw [update_of_ne hj]; exact h j
  opened := by rw [update_self]; exact ho
  pooled := by rw [update_self]; exact hp
  ready := by rw [update_self]; exact hc

theorem InUse.uses (h : InUse R i s.pool) (hu : Ex.Uses P i s s') : InUse R i s'.pool where
  others j hj := by rw [hu.others j hj]; exact h.others j hj
  opened := hu.opened.trans h.opened
  pooled := hu.pooled.trans h.pooled

-- `R` holds of a connection without bytes that is closed or pooled
variable (hR : ∀ c : HConn, c.buf = [] → (c.opened → c.pooled) → R c)

include hR

theorem shutdown_each (h : ∀ j, j ≠ i → R (s.pool j)) (j : Fin httpPoolMax) :
    R ((onConn i (hcShutdown net) s).2.pool j) :=
  each_update h (hR _ rfl (by simp [hcShutdown])) j

theorem shutdown_keeps (i : Fin httpPoolMax) :
    Steps (Keeps fun s : Ex σ J K => ∀ j, R (s.pool j)) (onConn i (hcShutdown net)) :=
  fun _ hs => shutdown_each net hR fun j _ => hs j

theorem poolTake_each (origin : List UInt8) :
    Triple (fun s : Ex σ J K => ∀ j, R (s.pool j)) (poolTake net origin) fun r s =>
      match r with
      | none => ∀ j, R (s.pool j)
      | some i => Taken R i s.pool := by
  intro s hs
  have hret := poolRetire_steps net (shutdown_keeps net hR) (onWire (Wire.nowMs net) s).1 slots
    (onWire (Wire.nowMs net) s).2 hs
  simp only [poolTake, bind_apply]
  generalize (poolRetire net _ slots _).2 = s' at hret
  cases hfind : slots.find? fun i => reusable origin (s'.pool i) with
  | none => exact hret
  | some i =>
    have huse : reusable origin (s'.pool i) = true := by simpa using find?_some hfind
    simp only [reusable, Bool.and_eq_true] at huse
    have hsame : { s'.pool i with pooled := true } = s'.pool i := by rw [← huse.1.1.1.2]
    exact taken_update hret (hsame.symm ▸ hret i) huse.1.1.1.1 rfl

theorem connectSlot_each (h : Hop) (origin : List UInt8) (i : Fin httpPoolMax) :
    Triple (fun s : Ex σ J K => ∀ j, R (s.pool j)) (connectSlot net h origin i) fun r s =>
      match r with
      | .error _ => ∀ j, R (s.pool j)
      | .ok (i, _) => Taken R i s.pool := by
  intro s hs
  unfold connectSlot
  dsimp only
  cases (net.connect h.u.scheme h.u.host _ _ s.wire.env).1 with
  | error e => exact each_update (fun j _ => hs j) (hR _ rfl id)
  | ok ctx => exact taken_update hs (hR _ rfl fun _ => rfl) rfl rfl

theorem acquire_each (h : Hop) (origin : List UInt8) :
    Triple (fun s : Ex σ J K => ∀ j, R (s.pool j)) (acquire net h origin) fun r s =>
      match r with
      | .error _ => ∀ j, R (s.pool j)
      | .ok (i, _) => Taken R i s.pool := by
  refine triple_bind (poolTake_each net hR origin) fun r => ?_
  cases r with
  | some i => exact fun _ h => h
  | none =>
    intro s (hs : ∀ j, R (s.pool j))
    simp only [bind_apply, cond_apply, pure_apply]
    split_ifs
    · exact hs
    have hslot := poolSlot_steps net (shutdown_keeps net hR) s hs
    generalize poolSlot net s = r at hslot ⊢
    obtain ⟨_ | i, s'⟩ := r
    · exact hslot
    · exact connectSlot_each net hR h origin i s' hslot

variable {Q : Hop → List UInt8 → Fin httpPoolMax → Ex σ J K → Prop}
  (hQ : ∀ h head i s, Taken R i s.pool → Q h head i s)

include hQ

theorem attempts_each (h : Hop) (origin head : List UInt8) (n : Nat) (hs : ∀ j, R (s.pool j)) :
    AttemptsEach net Q h origin head n s ∧
      match attempts net h origin head n s with
      | (.error _, s') => ∀ j, R (s'.pool j)
      | (.ok i, s') => InUse R i s'.pool := by
  induction n generalizing s with
  | zero => exact ⟨trivial, hs⟩
  | succ n ih =>
    have hacq := acquire_each net hR h origin s hs
    rw [AttemptsEach, attempts]
    simp only [bind_apply]
    generalize acquire net h origin s = r at hacq ⊢
    obtain ⟨e | ⟨i, reused⟩, s1⟩ := r
    · exact ⟨trivial, hacq⟩
    have htaken : Taken R i s1.pool := hacq
    have hused := htaken.toInUse.uses (sendAndRead_works net h head s1).toUses
    simp only [bind_apply]
    generalize sendAndRead net h head i s1 = r at hused ⊢
    obtain ⟨e | _, s2⟩ := r
    · have hdown := shutdown_each net hR hused.others
      obtain ⟨hrest, heach⟩ := ih hdown
      refine ⟨⟨hQ h head i s1 htaken, fun _ => hrest⟩, ?_⟩
      simp only [bind_apply, cond_apply]
      split_ifs
      · exact hdown
      · exact heach
    · exact ⟨⟨hQ h head i s1 htaken, trivial⟩, hused⟩

theorem answer_each (h : Hop) (hs : ∀ j, R (s.pool j)) : ExchangeEach net stores Q h s ∧
      match answer net stores h s with
      | (.error _, s') => ∀ j, R (s'.pool j)
      | (.ok i, s') => InUse R i s'.pool := by
  obtain ⟨env, hb⟩ := buildRequest_env net stores h s
  unfold ExchangeEach answer
  cases urlOrigin h.u (urlHostMax + 32) with
  | error e => exact ⟨trivial, hs⟩
  | ok origin =>
    have hs' : ∀ j, R ((buildRequest net stores h s).2.pool j) := by simpa [hb] using hs
    simp only [bind_apply]
    generalize buildRequest net stores h s = r at hs' ⊢
    obtain ⟨e | head, s1⟩ := r
    · exact ⟨trivial, hs'⟩
    · exact attempts_each net hR hQ h origin head 2 hs'

end Slotwise

def ClosedOrPooled (c : HConn) : Prop := c.opened → c.pooled

theorem answer_settled (h : Hop) (hs : Settled s.pool) : match answer net stores h s with
    | (.error _, s') => Settled s'.pool
    | (.ok i, s') => Held i s'.pool := by
  have hans := (answer_each (R := ClosedOrPooled) (Q := fun _ _ _ _ => True) net stores
    (fun _ _ hc => hc) (fun _ _ _ _ _ => trivial) h hs).2
  generalize answer net stores h s = r at hans ⊢
  obtain ⟨e | i, s'⟩ := r
  · exact hans
  · exact ⟨hans.others, hans.opened, hans.pooled⟩

theorem oldestPooled_isSome (pool : Fin httpPoolMax → HConn) {is : List (Fin httpPoolMax)}
    {oldest : Option (Fin httpPoolMax)} (h : oldest.isSome ∨ ∃ i ∈ is, (pool i).pooled) :
    (oldestPooled pool is oldest).isSome := by
  induction is generalizing oldest with
  | nil => simpa [oldestPooled] using h
  | cons i is ih =>
    rw [oldestPooled]
    split_ifs with hc
    · exact ih (.inl rfl)
    apply ih
    rcases h with h | ⟨j, hj, hp⟩
    · exact .inl h
    rcases mem_cons.mp hj with rfl | hj
    · left
      cases oldest with
      | none => simp [hp] at hc
      | some _ => rfl
    · exact .inr ⟨j, hj, hp⟩

theorem poolSlot_isSome (hs : Settled s.pool) : (poolSlot net s).1.isSome := by
  simp only [poolSlot, bind_apply]
  cases hfind : slots.find? fun i => !(s.pool i).opened with
  | some i => rfl
  | none =>
    have hopen (i : Fin httpPoolMax) : (s.pool i).opened := by
      simpa using find?_eq_none.mp hfind i (mem_finRange i)
    have hpooled : ∃ i ∈ slots, (s.pool i).pooled :=
      ⟨firstSlot, mem_finRange _, hs _ (hopen _)⟩
    have hsome : (oldestPooled s.pool slots none).isSome :=
      oldestPooled_isSome s.pool (.inr hpooled)
    obtain ⟨i, hi⟩ := Option.isSome_iff_exists.mp hsome
    simp only [hi]
    rfl

theorem giveBack_settled (i : Fin httpPoolMax) (keep : Bool) :
    Triple (fun s : Ex σ J K => Held i s.pool) (giveBack net i keep) fun _ s => Settled s.pool := by
  intro s hs
  cases keep with
  | true => exact each_update (R := ClosedOrPooled) hs.others fun _ => rfl
  | false => exact shutdown_each (R := ClosedOrPooled) net (fun _ _ hc => hc) hs.others

theorem finishBody_settled (h : Hop) (i : Fin httpPoolMax) (f : Framing)
    (codings : List HttpInflate) :
    Triple (fun s : Ex σ J K => Held i s.pool) (finishBody net stores h i f codings)
      fun _ s => Settled s.pool := by
  intro s hs
  have hnow := hs.uses (onWire_works net s : Ex.Works (fun _ => True) i s _).toUses
  have hbody (deadline : Nat) := hnow.uses (receiveBody_uses net stores f codings deadline _)
  refine giveBack_settled net i _ _ ?_
  dsimp only
  split_ifs <;> exact hbody _

/-- The head that was read lets the exchange go on to the body. -/
structure Acceptable (h : Hop) (s : Ex σ J K) : Prop where
  framing : (decideFraming s.res h.wantBody).isOk
  headers : (headersAccepted net h s).1
  codings : (codingsOf stores h s.res).isOk

theorem beforeBody_isOk_iff (h : Hop) (s : Ex σ J K) :
    (beforeBody net stores h s).1.isOk ↔ Acceptable net stores h s := by
  simp only [beforeBody, bind_apply]
  cases hf : decideFraming s.res h.wantBody with
  | error e => exact iff_of_false Bool.false_ne_true fun hacc => by cases hf ▸ hacc.framing
  | ok f =>
    simp only [bind_apply, cond_apply]
    cases ha : (headersAccepted net h s).1 with
    | false =>
      refine iff_of_false Bool.false_ne_true fun hacc => ?_
      simpa [ha] using hacc.headers
    | true =>
      cases hc : codingsOf stores h s.res with
      | error e => exact iff_of_false Bool.false_ne_true fun hacc => by cases hc ▸ hacc.codings
      | ok codings => exact iff_of_true rfl ⟨by rw [hf]; rfl, ha, by rw [hc]; rfl⟩

theorem finish_settled_iff (h : Hop) (hs : Held i s.pool) :
    Settled (finish net stores h i s).2.pool ↔ Acceptable net stores h s := by
  have hheld := hs.uses (beforeBody_works net stores h s : Ex.Works (fun _ => True) i s _).toUses
  rw [← beforeBody_isOk_iff]
  simp only [finish, bind_apply]
  generalize beforeBody net stores h s = r at hheld ⊢
  obtain ⟨e | ⟨f, codings⟩, s'⟩ := r
  · exact iff_of_false hheld.not_settled Bool.false_ne_true
  · exact iff_of_true (finishBody_settled net stores h i f codings _ hheld) rfl

def ExchangeMeets (h : Hop) (s : Ex σ J K) : Prop :=
  ∀ i s', answer net stores h s = (.ok i, s') → Acceptable net stores h s'

theorem exchange_settled_iff (h : Hop) (hs : Settled s.pool) :
    Settled (exchange net stores h s).2.pool ↔ ExchangeMeets net stores h s := by
  have hans := answer_settled net stores h hs
  simp only [exchange, bind_apply, ExchangeMeets]
  generalize answer net stores h s = r at hans ⊢
  obtain ⟨_ | i, s'⟩ := r
  · exact iff_of_true hans (by simp)
  refine (finish_settled_iff net stores h hans).trans ⟨fun hacc j t ht => ?_, fun hall => ?_⟩
  · cases ht
    exact hacc
  · exact hall i s' rfl

theorem finish_ok (hok : (finish net stores h i s).1 = .ok ()) : Acceptable net stores h s := by
  rw [← beforeBody_isOk_iff]
  simp only [finish, bind_apply] at hok
  cases hb : (beforeBody net stores h s).1 with
  | error e => simp [hb] at hok
  | ok p => rfl

theorem exchange_ok (hok : (exchange net stores h s).1 = .ok ()) :
    ExchangeMeets net stores h s := by
  simp only [exchange, bind_apply] at hok
  intro i s' hans
  rw [hans] at hok
  exact finish_ok net stores hok

def HopMeets (hs : Hops) (s : Ex σ J K) : Prop :=
  ∀ url, urlSerialize hs.hop.u urlMax = .ok url → hs.seen.contains (fnv1a url) = false →
    ExchangeMeets net stores hs.hop { s with raw := hbInit httpHeadersMax }

def LoopMeets (plan : Plan) : Nat → Hops → Ex σ J K → Prop
  | 0, hs, s => HopMeets net stores hs s
  | left + 1, hs, s => HopMeets net stores hs s ∧
    ∀ hs' s', hopStep net stores plan (left + 1) hs s = (.follow hs', s') →
      LoopMeets plan left hs' s'

def FetchMeets (req : HttpRequest) (s : Ex σ J K) : Prop :=
  ∀ plan hs s', prepare net stores req s = (.go plan hs, s') →
    LoopMeets net stores plan (maxHops req) hs s'

theorem hopStep_settled_iff (plan : Plan) (left : Nat) (hs : Hops) (h : Settled s.pool) :
    Settled (hopStep net stores plan left hs s).2.pool ↔ HopMeets net stores hs s := by
  have hex := exchange_settled_iff net stores hs.hop
    (show Settled { s with raw := hbInit httpHeadersMax }.pool from h)
  have hround := hopStep_rounded net stores plan left hs s
  generalize hopStep net stores plan left hs s = r at hround ⊢
  cases hround with
  | unsent e hno => exact iff_of_true h fun url hurl hseen => absurd hseen (hno url hurl)
  | sent url r s' hurl hseen hx =>
    have hok := @exchange_ok σ J K net stores { s with raw := hbInit httpHeadersMax } hs.hop
    rw [hx] at hex hok
    cases r with
    | error e => exact hex.trans ⟨fun hm _ _ _ => hm, fun hm => hm url hurl hseen⟩
    | ok =>
      have hafter : Ex.Uses _ firstSlot s' _ :=
        afterExchange_uses net stores plan left (hs.visit (fnv1a url)) url s'
      exact iff_of_true (hafter.settled_iff.mpr (hex.mpr (hok rfl))) fun _ _ _ => hok rfl

theorem hopMeets_of_follow {plan : Plan} {left : Nat} {hs hs' : Hops} {s s' : Ex σ J K}
    (h : hopStep net stores plan left hs s = (.follow hs', s')) : HopMeets net stores hs s := by
  have hround := hopStep_rounded net stores plan left hs s
  generalize hopStep net stores plan left hs s = r at h hround
  cases hround with
  | unsent e => cases h
  | sent url r t _ _ hx =>
    cases r with
    | error e => cases h
    | ok => exact fun _ _ _ => exchange_ok net stores (by rw [hx])

theorem fetchLoop_settled_iff (plan : Plan) (left : Nat) (hs : Hops) (h : Settled s.pool) :
    Settled (fetchLoop net stores plan left hs s).2.pool ↔ LoopMeets net stores plan left hs s := by
  have hcomplete (hs : Hops) (cached : Bool) (t : Ex σ J K) :
      Settled (complete hs cached t).2.pool ↔ Settled t.pool :=
    (complete_uses hs cached t : Ex.Uses WireEvent.Sunk firstSlot t _).settled_iff
  -- a round that ends the loop leaves the slots as its exchange does; a round that goes on is
  -- acceptable, and leaves the rest to the next one
  induction left generalizing hs s with
  | zero =>
    have hstep := hopStep_settled_iff net stores plan 0 hs h
    rw [fetchLoop, LoopMeets, ← hstep]
    simp only [bind_apply]
    generalize hopStep net stores plan 0 hs s = r
    obtain ⟨hs' | cached | e, s'⟩ := r
    · exact Iff.rfl
    · exact hcomplete hs cached s'
    · exact Iff.rfl
  | succ left ih =>
    have hstep := hopStep_settled_iff net stores plan (left + 1) hs h
    have hfollow := @hopMeets_of_follow σ J K net stores plan (left + 1) hs
    rw [fetchLoop, LoopMeets, ← hstep]
    simp only [bind_apply]
    cases hr : hopStep net stores plan (left + 1) hs s with
    | mk next s' =>
      rw [hr] at hstep
      cases next with
      | follow hs' =>
        have hset : Settled s'.pool := hstep.mpr (hfollow hr)
        refine (ih hs' hset).trans ⟨fun hm => ⟨hset, fun _ _ he => ?_⟩, fun hm => hm.2 hs' s' rfl⟩
        cases he
        exact hm
      | done cached => exact (hcomplete hs cached s').trans (by simp)
      | fail e => simp

def runFetches : List HttpRequest → Ex σ J K → Ex σ J K
  | [], s => s
  | req :: reqs, s => runFetches reqs (httpFetch net stores req s).2

theorem httpFetch_settled_iff (req : HttpRequest) (h : Settled s.pool) :
    Settled (httpFetch net stores req s).2.pool ↔ FetchMeets net stores req s := by
  have hprep : Ex.Uses _ firstSlot s _ := prepare_uses net stores req s
  simp only [httpFetch, bind_apply, FetchMeets]
  generalize prepare net stores req s = r at hprep ⊢
  obtain ⟨rc | ⟨plan, hops⟩, s'⟩ := r
  · exact iff_of_true (hprep.settled_iff.mpr h) (by simp)
  refine (fetchLoop_settled_iff net stores plan _ hops (hprep.settled_iff.mpr h)).trans ?_
  constructor
  · intro hm _ _ _ he
    cases he
    exact hm
  · exact fun hm => hm plan hops s' rfl

/-- An exchange that finds no connection to reuse finds a slot for a new one. -/
def SlotAtHand (s : Ex σ J K) : Prop :=
  ∀ origin, (poolTake net origin s).1 = none → (poolSlot net (poolTake net origin s).2).1.isSome

theorem Settled.slotAtHand (h : Settled s.pool) : SlotAtHand net s := by
  intro origin hnone
  have htake := poolTake_each (R := ClosedOrPooled) net (fun _ _ hc => hc) origin s h
  rw [hnone] at htake
  exact poolSlot_isSome net htake

/-- After every fetch of a run no slot is in use and the next fetch does not lack one, precisely if
every head that was read along the way was acceptable. -/
theorem slots_settled_iff {s : Ex σ J K} (h : Settled s.pool) (reqs : List HttpRequest) :
    (∀ k, Settled (runFetches net stores (reqs.take k) s).pool ∧
        SlotAtHand net (runFetches net stores (reqs.take k) s)) ↔
      ∀ k req, reqs[k]? = some req →
        FetchMeets net stores req (runFetches net stores (reqs.take k) s) := by
  induction reqs generalizing s with
  | nil => simpa [runFetches] using ⟨h, h.slotAtHand net⟩
  | cons req reqs ih =>
    have hfetch := httpFetch_settled_iff net stores req h
    constructor
    · intro hall k req' hk
      have hone := (hall 1).1
      cases k with
      | zero =>
        cases hk
        exact hfetch.mp (by simpa [runFetches] using hone)
      | succ k =>
        exact (ih (by simpa [runFetches] using hone)).mp (fun k => hall (k + 1)) k req' hk
    · intro hall k
      have hset := hfetch.mpr (hall 0 req rfl)
      cases k with
      | zero => exact ⟨h, h.slotAtHand net⟩
      | succ k => exact (ih hset).mpr (fun k => hall (k + 1)) k

def scriptedClient (pieces : List String) : Ex Script Unit Unit :=
  Ex.new none none (ascii "kestrel") { peers := pieces.map fun p => [ascii p], next := 0 }

theorem slots_settled_iff_one :
    let s := scriptedClient ["HTTP/1.1 200 OK\r\nContent-Length: 2\r\n\r\nok"]
    Settled (runFetches Script.world bareStores [plainGet "http://h/"] s).pool ∧
      FetchMeets Script.world bareStores (plainGet "http://h/") s := by
  intro s
  have hnew : Settled s.pool := fun _ ho => ho
  have hset : Settled (runFetches Script.world bareStores [plainGet "http://h/"] s).pool := by
    unfold Settled
    decide +kernel
  refine ⟨hset, (slots_settled_iff Script.world bareStores hnew [plainGet "http://h/"]).mp
    (fun k => ?_) 0 _ rfl⟩
  cases k with
  | zero => exact ⟨hnew, hnew.slotAtHand _⟩
  | succ k =>
    rw [List.take_of_length_le (by simp)]
    exact ⟨hset, hset.slotAtHand _⟩

/-- Six responses whose length is no number use up all slots: each of them stays open for good, and
the seventh fetch fails although the world would connect. -/
theorem slots_leaked :
    let s := runFetches Script.world bareStores (List.replicate 6 (plainGet "http://h/"))
      (scriptedClient (List.replicate 7 "HTTP/1.1 200 OK\r\nContent-Length: x\r\n\r\n"))
    (∀ i, (s.pool i).opened ∧ ¬ (s.pool i).pooled) ∧
      (httpFetch Script.world bareStores (plainGet "http://h/") s).1 = .error .connect := by
  decide +kernel

end KestrelOS.Http
