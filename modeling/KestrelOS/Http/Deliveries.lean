import KestrelOS.Http.Slots

/-!
# How often a request is sent

The bytes written to each transport since it was opened or closed are one stream; wherever the head
and the body of the request stand in it they have been delivered. A failure on a connection from the
pool is answered with a second attempt, whatever the method.
-/

namespace KestrelOS.Http

open StProg List Nat Function

variable {σ J K : Type} (net : Net σ) (stores : Stores J K)

/-- How often `msg` stands in `l`, overlaps included. -/
def occurrences (msg l : List UInt8) : Nat := l.tails.countP msg.isPrefixOf

/-- What each transport was sent since it was opened, and how often the whole request was in it. -/
structure Tally where
  sent : Nat → List UInt8
  count : Nat

def Tally.empty (n : Nat) : Tally := { sent := fun _ => [], count := n }

def Tally.add (msg : List UInt8) (t : Tally) : WireEvent → Tally
  | .wrote ctx bs =>
    let sent := t.sent ctx ++ bs
    { sent := Function.update t.sent ctx sent
      count := t.count + (occurrences msg sent - occurrences msg (t.sent ctx)) }
  | .opened ctx => { t with sent := Function.update t.sent ctx [] }
  | .closed ctx => { t with sent := Function.update t.sent ctx [] }
  | .got _ _ => t
  | .sunk _ => t

def deliveries (msg : List UInt8) (evs : List WireEvent) : Nat :=
  (evs.foldl (Tally.add msg) (Tally.empty 0)).count

section Counting

variable {msg : List UInt8} {evs : List WireEvent}

private theorem Tally.add_got {e : WireEvent} (he : e.Got) (t : Tally) : t.add msg e = t := by
  cases e with
  | got ctx bs => rfl
  | _ => exact he.elim

private theorem foldl_got (h : ∀ e ∈ evs, e.Got) (t : Tally) : evs.foldl (Tally.add msg) t = t := by
  induction evs with
  | nil => rfl
  | cons e evs ih =>
    rw [foldl_cons, Tally.add_got (h e (mem_cons_self))]
    exact ih fun e he => h e (mem_cons_of_mem _ he)

def WireEvent.Moved : WireEvent → Prop
  | opened _ => True
  | closed _ => True
  | _ => False

private theorem Tally.add_moved {e : WireEvent} (he : e.Moved) (n : Nat) :
    (Tally.empty n).add msg e = Tally.empty n := by
  cases e with
  | opened ctx => simp [Tally.add, Tally.empty]
  | closed ctx => simp [Tally.add, Tally.empty]
  | _ => exact he.elim

private theorem foldl_moved (h : ∀ e ∈ evs, e.Moved) (n : Nat) :
    evs.foldl (Tally.add msg) (Tally.empty n) = Tally.empty n := by
  induction evs with
  | nil => rfl
  | cons e evs ih =>
    rw [foldl_cons, Tally.add_moved (h e (mem_cons_self))]
    exact ih fun e he => h e (mem_cons_of_mem _ he)

private theorem count_not_wrote (h : ∀ e ∈ evs, ¬ e.Wrote) (t : Tally) :
    (evs.foldl (Tally.add msg) t).count = t.count := by
  induction evs generalizing t with
  | nil => rfl
  | cons e evs ih =>
    rw [foldl_cons, ih fun e he => h e (mem_cons_of_mem _ he)]
    cases e with
    | wrote ctx bs => exact absurd trivial (h _ (mem_cons_self))
    | _ => rfl

private theorem occurrences_append_le (msg l bs : List UInt8) :
    occurrences msg l ≤ occurrences msg (l ++ bs) := by
  unfold occurrences
  induction l with
  | nil =>
    rw [tails, countP_singleton, nil_append]
    split_ifs with hnil
    · obtain rfl : msg = [] := by simpa using hnil
      cases bs <;> simp
    · exact Nat.zero_le _
  | cons c l ih =>
    rw [cons_append, tails, tails, countP_cons, countP_cons]
    have hmono : msg.isPrefixOf (c :: l) → msg.isPrefixOf (c :: (l ++ bs)) := by
      simp only [ isPrefixOf_iff_prefix]
      exact fun h => h.trans (prefix_append (c :: l) bs)
    grind

/-- A message stands in what is sent of it at most once. -/
private theorem occurrences_prefix_le {l : List UInt8} (h : l <+: msg) : occurrences msg l ≤ 1 := by
  have hlen := h.length_le
  have hshort : ∀ q : List UInt8, q.length < msg.length → occurrences msg q = 0 := by
    intro q hq
    refine countP_eq_zero.mpr fun t ht hpre => ?_
    have := ( isPrefixOf_iff_prefix.mp hpre).length_le
    have := ((mem_tails _ _).mp ht).length_le
    omega
  cases l with
  | nil =>
    rw [occurrences, tails]
    exact countP_le_length
  | cons c q =>
    rw [length_cons] at hlen
    have := hshort q (by omega)
    unfold occurrences at this ⊢
    rw [tails, countP_cons, this]
    split_ifs <;> omega

private theorem foldl_wrote (ctx : Nat) (pieces : List (List UInt8)) (t : Tally) :
    (pieces.map (WireEvent.wrote ctx)).foldl (Tally.add msg) t =
      { sent := update t.sent ctx (t.sent ctx ++ pieces.flatten)
        count := t.count + (occurrences msg (t.sent ctx ++ pieces.flatten) -
          occurrences msg (t.sent ctx)) } := by
  induction pieces generalizing t with
  | nil => simp
  | cons p pieces ih =>
    have hfirst := occurrences_append_le msg (t.sent ctx) p
    have hrest := occurrences_append_le msg (t.sent ctx ++ p) pieces.flatten
    rw [map_cons, foldl_cons, ih]
    simp only [Tally.add, update_self, update_idem, flatten_cons, ← append_assoc]
    congr 1
    omega

end Counting

private theorem hcWrite_cases (chunk : List UInt8) (l : Link σ) :
    ((hcWrite net chunk l).1 = none ∧ (hcWrite net chunk l).2.wire.log = l.wire.log) ∨
      ∃ n, 0 < n ∧ n ≤ chunk.length ∧ (hcWrite net chunk l).1 = some n ∧
        (hcWrite net chunk l).2.conn = l.conn ∧
        (hcWrite net chunk l).2.wire.log = l.wire.log ++ [.wrote l.conn.ctx (chunk.take n)] := by
  unfold hcWrite
  dsimp only
  cases hw : (net.write l.conn.ctx chunk l.wire.env).1 with
  | none => exact .inl ⟨rfl, rfl⟩
  | some n =>
    obtain ⟨hpos, hle⟩ := net.write_some _ _ _ _ hw
    exact .inr ⟨n, hpos, hle, rfl, rfl, rfl⟩

private theorem hcSendLoop_writes {fuel : Nat} {data : List UInt8} (hfuel : data.length ≤ fuel)
    (l : Link σ) :
    ∃ pieces : List (List UInt8),
      (hcSendLoop net fuel data l).2.wire.log = l.wire.log ++ pieces.map (.wrote l.conn.ctx) ∧
      pieces.flatten <+: data ∧
        ((hcSendLoop net fuel data l).1 = .ok () → pieces.flatten = data) := by
  induction fuel generalizing data l with
  | zero =>
    obtain rfl : data = [] := length_eq_zero_iff.mp (le_zero.mp hfuel)
    exact ⟨[], by simp [hcSendLoop], by simp, by simp⟩
  | succ fuel ih =>
    by_cases hdata : data = []
    · subst hdata
      exact ⟨[], by simp [hcSendLoop], by simp, by simp⟩
    simp only [hcSendLoop, if_neg hdata, bind_apply]
    rcases hcWrite_cases net (data.take sendChunk) l with
      ⟨hnone, hlog⟩ | ⟨n, hpos, hle, hsome, hconn, hlog⟩
    · rw [hnone]
      exact ⟨[], by simpa using hlog, by simp, by simp⟩
    rw [hsome]
    rw [length_take] at hle
    obtain ⟨pieces, hrest, hpre, hok⟩ := ih
      (show (data.drop n).length ≤ fuel by rw [length_drop]; omega)
      (hcWrite net (data.take sendChunk) l).2
    have htake : (data.take sendChunk).take n = data.take n := by
      rw [take_take, min_eq_left (by omega)]
    refine ⟨data.take n :: pieces, ?_, ?_, ?_⟩
    · dsimp only
      rw [hrest, hlog, hconn, htake, append_assoc]
      rfl
    · rw [flatten_cons]
      conv_rhs => rw [← take_append_drop n data]
      exact (prefix_append_right_inj _).mpr hpre
    · intro hr
      rw [flatten_cons, hok hr, take_append_drop]

private theorem onConn_hcSend_writes (d : List UInt8) (i : Fin httpPoolMax) (s : Ex σ J K) :
    ∃ pieces : List (List UInt8),
      (onConn i (hcSend net d) s).2.wire.log = s.wire.log ++ pieces.map (.wrote (s.pool i).ctx) ∧
      pieces.flatten <+: d ∧ ((onConn i (hcSend net d) s).1 = .ok () → pieces.flatten = d) :=
  hcSendLoop_writes net (le_refl d.length) ⟨s.pool i, s.wire⟩

private theorem sendAndRead_writes (h : Hop) (head : List UInt8) (i : Fin httpPoolMax)
    (s : Ex σ J K) :
    ∃ (pieces : List (List UInt8)) (evs : List WireEvent), (∀ e ∈ evs, e.Got) ∧
      pieces.flatten <+: head ++ h.req.body ∧
      (sendAndRead net h head i s).2.wire.log =
        s.wire.log ++ (pieces.map (.wrote (s.pool i).ctx) ++ evs) := by
  simp only [sendAndRead, bind_apply]
  obtain ⟨ps, hlog, hpre, hok⟩ := onConn_hcSend_writes net head i (onWire (Wire.nowMs net) s).2
  have hctx : ((onConn i (hcSend net head) (onWire (Wire.nowMs net) s).2).2.pool i).ctx =
      (s.pool i).ctx :=
    (onConn_works (hcSend_keeps net head) (onWire (Wire.nowMs net) s).2).ctx
  generalize onConn i (hcSend net head) (onWire (Wire.nowMs net) s).2 = r at hlog hok hctx ⊢
  obtain ⟨_ | _, s1⟩ := r
  · refine ⟨ps, [], by simp, hpre.trans (prefix_append _ _), ?_⟩
    rw [append_nil]
    exact hlog
  obtain ⟨qs, hlog', hpre', -⟩ := onConn_hcSend_writes net h.req.body i s1
  have hfull : (ps ++ qs).flatten <+: head ++ h.req.body := by
    rw [flatten_append, hok rfl]
    exact (prefix_append_right_inj _).mpr hpre'
  have hboth : (onConn i (hcSend net h.req.body) s1).2.wire.log =
      s.wire.log ++ (ps ++ qs).map (.wrote (s.pool i).ctx) := by
    rw [hlog', hctx, hlog, map_append, append_assoc]
    rfl
  simp only [bind_apply]
  generalize onConn i (hcSend net h.req.body) s1 = r' at hboth ⊢
  obtain ⟨_ | _, s2⟩ := r'
  · exact ⟨ps ++ qs, [], by simp, hfull, by rw [append_nil]; exact hboth⟩
  obtain ⟨evs, hgrow, hgot⟩ := (readHeadRounds_works net _ 16 s2 :
    Ex.Works WireEvent.Got i s2 (readHead net i _ s2).2).grows
  refine ⟨ps ++ qs, evs, hgot, hfull, ?_⟩
  rw [← append_assoc, ← hboth]
  exact hgrow

structure Ex.Moves (s s' : Ex σ J K) : Prop where
  grows : s.wire.Grows WireEvent.Moved s'.wire
  out : s'.out = s.out

instance : Std.Refl (@Ex.Moves σ J K) where
  refl _ := ⟨.refl _, rfl⟩

instance : IsTrans (Ex σ J K) Ex.Moves where
  trans _ _ _ h h' := ⟨h.grows.trans h'.grows, h'.out.trans h.out⟩

theorem shutdown_moves (i : Fin httpPoolMax) :
    Steps (@Ex.Moves σ J K) (onConn i (hcShutdown net)) := by
  intro s
  simp only [onConn, zoom_apply, hcShutdown]
  split_ifs
  · exact ⟨.record _ trivial, rfl⟩
  · exact ⟨.refl _, rfl⟩

private theorem poolTake_moves (origin : List UInt8) :
    Steps (@Ex.Moves σ J K) (poolTake net origin) := by
  refine steps_bind (fun _ => ⟨.same rfl, rfl⟩) fun now => ?_
  refine steps_bind (poolRetire_steps net (shutdown_moves net) now slots) fun _ => ?_
  refine steps_bind (fun s => Std.Refl.refl s) fun s => ?_
  cases slots.find? fun i => reusable origin (s.pool i) with
  | none => exact steps_pure _
  | some i => exact steps_bind (fun _ => ⟨.same rfl, rfl⟩) fun _ => steps_pure _

private theorem connectSlot_moves (h : Hop) (origin : List UInt8) (i : Fin httpPoolMax) :
    Steps (@Ex.Moves σ J K) (connectSlot net h origin i) := by
  intro s
  simp only [connectSlot]
  split
  · exact ⟨.same rfl, rfl⟩
  · exact ⟨.record _ trivial, rfl⟩

theorem acquire_moves (h : Hop) (origin : List UInt8) :
    Steps (@Ex.Moves σ J K) (acquire net h origin) := by
  refine steps_bind (poolTake_moves net origin) fun r => ?_
  cases r with
  | some i => exact steps_pure _
  | none =>
    refine steps_bind (fun s => Std.Refl.refl s) fun s => ?_
    split_ifs
    · exact steps_pure _
    refine steps_bind (poolSlot_steps net (shutdown_moves net)) fun r => ?_
    cases r with
    | none => exact steps_pure _
    | some i => exact connectSlot_moves net h origin i

private theorem giveBack_moves (i : Fin httpPoolMax) (keep : Bool) :
    Steps (@Ex.Moves σ J K) (giveBack net i keep) := by
  cases keep with
  | true => exact steps_bind (fun _ => ⟨.same rfl, rfl⟩) fun _ _ => ⟨.same rfl, rfl⟩
  | false => exact shutdown_moves net i

theorem afterBody_moves (h : Hop) (i : Fin httpPoolMax) (f : Framing) (ok : Bool) :
    Steps (@Ex.Moves σ J K) (afterBody net h i f ok) := by
  refine steps_bind (fun s => ?_) fun _ => ?_
  · rw [modify_apply]
    split_ifs <;> exact ⟨.same rfl, rfl⟩
  · exact steps_bind (fun s => Std.Refl.refl s) fun s => giveBack_moves net i _

private theorem acquire_opened (h : Hop) (origin : List UInt8) (s : Ex σ J K) {i : Fin httpPoolMax}
    {reused : Bool} (hi : (acquire net h origin s).1 = .ok (i, reused)) :
    ((acquire net h origin s).2.pool i).opened := by
  have htaken := acquire_each net (R := fun _ => True) (fun _ _ _ => trivial) h origin s
    fun _ => trivial
  rw [hi] at htaken
  exact htaken.opened

private theorem sendAndRead_count (h : Hop) (head : List UInt8) (i : Fin httpPoolMax) (s : Ex σ J K)
    (c : Nat) :
    ∃ (evs : List WireEvent) (sent : List UInt8), ∃ m ≤ 1,
      (sendAndRead net h head i s).2.wire.log = s.wire.log ++ evs ∧
      evs.foldl (Tally.add (head ++ h.req.body)) (Tally.empty c) =
        { sent := update (fun _ => []) (s.pool i).ctx sent, count := c + m } := by
  obtain ⟨pieces, evs, hgot, hpre, hlog⟩ := sendAndRead_writes net h head i s
  refine ⟨_, pieces.flatten, _,
    (Nat.sub_le _ (occurrences (head ++ h.req.body) [])).trans (occurrences_prefix_le hpre), hlog,
    ?_⟩
  rw [foldl_append, foldl_wrote, foldl_got hgot]
  rfl

private theorem attempt_failed_count (h : Hop) (head : List UInt8) {i : Fin httpPoolMax}
    {s : Ex σ J K} (hopen : (s.pool i).opened) (c : Nat) : ∃ evs : List WireEvent, ∃ m ≤ 1,
      (onConn i (hcShutdown net) (sendAndRead net h head i s).2).2.wire.log = s.wire.log ++ evs ∧
      evs.foldl (Tally.add (head ++ h.req.body)) (Tally.empty c) = Tally.empty (c + m) := by
  obtain ⟨evs, sent, m, hm, hlog, hfold⟩ := sendAndRead_count net h head i s c
  have huse := @sendAndRead_works σ J K net i h head s
  have hclosed : (onConn i (hcShutdown net) (sendAndRead net h head i s).2).2.wire.log =
      (sendAndRead net h head i s).2.wire.log ++ [.closed (s.pool i).ctx] := by
    simp only [onConn, zoom_apply, hcShutdown, huse.opened, hopen, huse.ctx]
    rfl
  refine ⟨evs ++ [.closed (s.pool i).ctx], m, hm, ?_, ?_⟩
  · rw [hclosed, hlog, append_assoc]
  · rw [foldl_append, hfold]
    simp [Tally.add, Tally.empty]

def FirstAttemptLost (h : Hop) (origin head : List UInt8) (s : Ex σ J K) : Prop :=
  ∃ i e, (acquire net h origin s).1 = .ok (i, true) ∧
    (sendAndRead net h head i (acquire net h origin s).2).1 = .error e

private theorem attempts_count (h : Hop) (origin head : List UInt8) (n : Nat) (s : Ex σ J K)
    (c : Nat) :
    ∃ evs : List WireEvent, (attempts net h origin head n s).2.wire.log = s.wire.log ++ evs ∧
      (evs.foldl (Tally.add (head ++ h.req.body)) (Tally.empty c)).count ≤ c + n ∧
      ((evs.foldl (Tally.add (head ++ h.req.body)) (Tally.empty c)).count ≤ c + 1 ∨
        FirstAttemptLost net h origin head s) := by
  induction n generalizing s c with
  | zero => exact ⟨[], by simp [attempts], by simp [Tally.empty], by simp [Tally.empty]⟩
  | succ n ih =>
    obtain ⟨evs0, hlog0, hmoved⟩ := (acquire_moves net h origin s).grows
    have hopened := @acquire_opened σ J K net h origin s
    simp only [attempts, bind_apply]
    cases hacq : (acquire net h origin s).1 with
    | error e =>
      refine ⟨evs0, hlog0, ?_, ?_⟩ <;> rw [foldl_moved hmoved] <;> simp [Tally.empty]
    | ok p =>
      obtain ⟨i, reused⟩ := p
      have hopen := hopened hacq
      simp only [bind_apply]
      cases hsend : (sendAndRead net h head i (acquire net h origin s).2).1 with
      | ok _ =>
        obtain ⟨evs, sent, m, hm, hlog, hfold⟩ :=
          sendAndRead_count net h head i (acquire net h origin s).2 c
        have hcount : ((evs0 ++ evs).foldl (Tally.add (head ++ h.req.body)) (Tally.empty c)).count =
            c + m := by
          rw [foldl_append, foldl_moved hmoved, hfold]
        refine ⟨evs0 ++ evs, ?_, by omega, .inl (by omega)⟩
        rw [← append_assoc, ← hlog0]
        exact hlog
      | error e =>
        obtain ⟨evs, m, hm, hlog, hfold⟩ := attempt_failed_count net h head hopen c
        simp only [bind_apply, cond_apply]
        split_ifs with hlast
        · have hcount : ((evs0 ++ evs).foldl (Tally.add (head ++ h.req.body))
              (Tally.empty c)).count = c + m := by
            rw [foldl_append, foldl_moved hmoved, hfold]
            rfl
          refine ⟨evs0 ++ evs, ?_, by omega, .inl (by omega)⟩
          rw [← append_assoc, ← hlog0]
          exact hlog
        · have hreused : reused := by
            cases reused <;> simp_all
          obtain ⟨evs', hlog', hcount, -⟩ :=
            ih (onConn i (hcShutdown net) (sendAndRead net h head i (acquire net h origin s).2).2).2
              (c + m)
          refine ⟨evs0 ++ evs ++ evs', ?_, ?_, .inr ⟨i, e, by rw [hacq, hreused], hsend⟩⟩
          · rw [← append_assoc, ← append_assoc, ← hlog0, ← hlog]
            exact hlog'
          · rw [foldl_append, foldl_append, foldl_moved hmoved, hfold]
            omega

def Ex.NoWrites (s s' : Ex σ J K) : Prop := s.wire.Grows (fun e => ¬ e.Wrote) s'.wire

instance : Std.Refl (@Ex.NoWrites σ J K) where
  refl s := .refl s.wire

instance : IsTrans (Ex σ J K) Ex.NoWrites where
  trans _ _ _ h h' := Wire.Grows.trans h h'

private theorem finishBody_noWrites (h : Hop) (i : Fin httpPoolMax) (f : Framing)
    (codings : List HttpInflate) :
    Steps (@Ex.NoWrites σ J K) (finishBody net stores h i f codings) := by
  have hbody (deadline : Nat) :
      Steps (@Ex.NoWrites σ J K) (receiveBody net stores i f codings deadline) := by
    intro s
    refine (receiveBody_uses net stores f codings deadline s : Ex.Uses _ i s _).grows.mono
      fun e he => ?_
    cases e <;> simp_all [WireEvent.Got, WireEvent.Sunk, WireEvent.Wrote]
  have hback (ok : Bool) : Steps (@Ex.NoWrites σ J K) (afterBody net h i f ok) := by
    intro s
    refine (afterBody_moves net h i f ok s).grows.mono fun e he => ?_
    cases e <;> simp_all [WireEvent.Moved, WireEvent.Wrote]
  refine steps_bind (fun _ => .same rfl) fun now => steps_bind (hbody _) fun rc => ?_
  exact steps_bind (fun s => hback rc.isOk s) fun _ => steps_pure _

private theorem finish_noWrites (h : Hop) (i : Fin httpPoolMax) :
    Steps (@Ex.NoWrites σ J K) (finish net stores h i) := by
  intro s
  have hhead : s.wire.Grows (fun e => ¬ e.Wrote) (beforeBody net stores h s).2.wire :=
    (beforeBody_works net stores h s : Ex.Works _ i s _).grows
  simp only [finish, bind_apply]
  generalize beforeBody net stores h s = r at hhead ⊢
  obtain ⟨e | ⟨f, codings⟩, s'⟩ := r
  · exact hhead
  · exact hhead.trans (finishBody_noWrites net stores h i f codings s')

def wholeRequest (h : Hop) (s : Ex σ J K) : List UInt8 :=
  match (buildRequest net stores h s).1 with
  | .ok head => head ++ h.req.body
  | .error _ => []

/-- The first attempt of an exchange took a connection from the pool and failed on it. -/
def ReusedAndLost (h : Hop) (s : Ex σ J K) : Prop :=
  ∃ origin head, urlOrigin h.u (urlHostMax + 32) = .ok origin ∧
    (buildRequest net stores h s).1 = .ok head ∧
    FirstAttemptLost net h origin head (buildRequest net stores h s).2

private theorem answer_count (h : Hop) (s : Ex σ J K) :
    ∃ evs : List WireEvent, (answer net stores h s).2.wire.log = s.wire.log ++ evs ∧
      deliveries (wholeRequest net stores h s) evs ≤ 2 ∧
      (deliveries (wholeRequest net stores h s) evs ≤ 1 ∨ ReusedAndLost net stores h s) := by
  have hlog : (buildRequest net stores h s).2.wire.log = s.wire.log := by
    obtain ⟨env, hb⟩ := buildRequest_env net stores h s
    rw [hb]
  simp only [answer, wholeRequest, ReusedAndLost]
  cases horigin : urlOrigin h.u (urlHostMax + 32) with
  | error e =>
    exact ⟨[], by simp, by simp [deliveries, Tally.empty], by simp [deliveries, Tally.empty]⟩
  | ok origin =>
    simp only [bind_apply]
    cases hbuild : (buildRequest net stores h s).1 with
    | error e =>
      exact ⟨[], by simpa using hlog, by simp [deliveries, Tally.empty],
        by simp [deliveries, Tally.empty]⟩
    | ok head =>
      obtain ⟨evs, hevs, htwo, hone⟩ :=
        attempts_count net h origin head 2 (buildRequest net stores h s).2 0
      rw [Nat.zero_add] at htwo hone
      exact ⟨evs, by rw [← hlog]; exact hevs, htwo,
        hone.imp_right fun hl => ⟨origin, head, rfl, rfl, hl⟩⟩

theorem exchange_count (h : Hop) (s : Ex σ J K) :
    ∃ evs : List WireEvent, (exchange net stores h s).2.wire.log = s.wire.log ++ evs ∧
      deliveries (wholeRequest net stores h s) evs ≤ 2 ∧
      (deliveries (wholeRequest net stores h s) evs ≤ 1 ∨ ReusedAndLost net stores h s) := by
  obtain ⟨evs, hlog, hcount⟩ := answer_count net stores h s
  simp only [exchange, bind_apply]
  generalize answer net stores h s = r at hlog ⊢
  obtain ⟨_ | i, s'⟩ := r
  · exact ⟨evs, hlog, hcount⟩
  obtain ⟨evs', hlog', hquiet⟩ := finish_noWrites net stores h i s'
  have hsame : deliveries (wholeRequest net stores h s) (evs ++ evs') =
      deliveries (wholeRequest net stores h s) evs := by
    rw [deliveries, deliveries, foldl_append, count_not_wrote hquiet]
  refine ⟨evs ++ evs', ?_, by rw [hsame]; exact hcount⟩
  rw [← append_assoc, ← hlog]
  exact hlog'

def Ex.since (s s' : Ex σ J K) : List WireEvent := s'.wire.log.drop s.wire.log.length

theorem Ex.since_eq {s s' : Ex σ J K} {evs : List WireEvent} (h : s'.wire.log = s.wire.log ++ evs) :
    s.since s' = evs := by rw [Ex.since, h, drop_left]

/-- During one hop the complete request is written to a transport at most twice, and at most once
unless the first attempt used a connection from the pool and failed. -/
theorem request_delivered_at_most_twice (plan : Plan) (left : Nat) (hs : Hops) (s : Ex σ J K) :
    let start := { s with raw := hbInit httpHeadersMax }
    let n := deliveries (wholeRequest net stores hs.hop start)
      (s.since (hopStep net stores plan left hs s).2)
    n ≤ 2 ∧ (n ≤ 1 ∨ ReusedAndLost net stores hs.hop start) := by
  obtain ⟨evs, hlog, hcount⟩ := exchange_count net stores hs.hop
    { s with raw := hbInit httpHeadersMax }
  have hround := hopStep_rounded net stores plan left hs s
  dsimp only
  generalize hopStep net stores plan left hs s = r at hround ⊢
  cases hround with
  | unsent e =>
    rw [Ex.since_eq (append_nil _).symm]
    exact ⟨zero_le _, .inl (zero_le _)⟩
  | sent url r s' _ _ hex =>
    rw [hex] at hlog
    rw [afterRound.eq_def]
    cases r with
    | error e =>
      have hall : s.since s' = evs := Ex.since_eq hlog
      rw [hall]
      exact hcount
    | ok =>
      obtain ⟨evs', hlog', hsunk⟩ := (afterExchange_uses net stores plan left
        (hs.visit (fnv1a url)) url s' : Ex.Uses _ firstSlot s' _).grows
      have hquiet : ∀ e ∈ evs', ¬ e.Wrote := by
        intro e he hw
        have := hsunk e he
        cases e <;> simp_all [WireEvent.Sunk, WireEvent.Wrote]
      have hall : (afterExchange net stores plan left (hs.visit (fnv1a url)) url s').2.wire.log =
          s.wire.log ++ (evs ++ evs') := by
        rw [hlog', ← append_assoc]
        exact congrArg (· ++ evs') hlog
      rw [Ex.since_eq hall, deliveries, foldl_append, count_not_wrote hquiet]
      exact hcount

def plainPost (url body : String) : HttpRequest :=
  { plainGet url with method := some (ascii "POST"), body := ascii body }

/-- A server that closes an idle connection after it took a POST gets the same POST once more. -/
theorem post_delivered_twice :
    let s := (httpFetch Script.world bareStores (plainGet "http://h/")
      (scriptedClient (List.replicate 2 "HTTP/1.1 200 OK\r\nContent-Length: 2\r\n\r\nok"))).2
    let post := plainPost "http://h/" "x"
    (urlParse post.url).toOption.map (fun u =>
      deliveries (wholeRequest Script.world bareStores
        { method := post.effectiveMethod, u, req := post, condEtag := none, condLm := none } s)
        (s.since (httpFetch Script.world bareStores post s).2)) = some 2 := by
  decide +kernel

end KestrelOS.Http
