import KestrelOS.Supervisor.Sorting

/-!
# One instance of each unit

What the supervisor keeps: a process that has not been collected is the recorded pid of its unit,
and a unit with a recorded pid is up, or was failed by a lost dependency and is being stopped.
-/

namespace KestrelOS.Supervisor

open StProg Function List Nat
open Machine (Meets Always)

def Live (log : List ProcEvent) (u p : Nat) : Prop :=
  .spawned u p ∈ log ∧ .exited p ∉ log ∧ .collected p ∉ log

instance (log : List ProcEvent) (u p : Nat) : Decidable (Live log u p) :=
  inferInstanceAs (Decidable (_ ∧ _ ∧ _))

def Held (log : List ProcEvent) (u p : Nat) : Prop := .spawned u p ∈ log ∧ .collected p ∉ log

/-- At every moment that the log records, at most one process of each unit was live. -/
def Single (log : List ProcEvent) : Prop :=
  ∀ l, l <:+ log → ∀ u p q, Live l u p → Live l u q → p = q

/-- A recorded process of a unit that is not up: one that has been declared failed while its
process is being terminated. -/
def SvcUnit.Lingering (u : SvcUnit) : Prop := u.pid ≠ 0 ∧ ¬ u.Up

instance (u : SvcUnit) : Decidable u.Lingering := inferInstanceAs (Decidable (_ ∧ _))

structure Kept (unit : Nat → SvcUnit) (s : Init) : Prop where
  held : ∀ u p, Held s.log u p → (unit u).pid = p ∧ u < s.nunits
  lingering : ∀ u, (unit u).pid ≠ 0 → (unit u).Up ∨ ((unit u).state = .failed ∧ (unit u).stopping)
  single : Single s.log
  fresh : 0 < s.nextPid ∧ ∀ u p, .spawned u p ∈ s.log → 0 < p ∧ p < s.nextPid

namespace Kept

variable {unit : Nat → SvcUnit} {s s' : Init}

variable {u : SvcUnit}

theorem update (h : Kept unit s) {i : Nat} (hheld : ∀ p, Held s.log i p → u.pid = p)
    (hling : u.pid ≠ 0 → u.Up ∨ (u.state = .failed ∧ u.stopping)) : Kept (update unit i u) s := by
  obtain ⟨hk, hl, hs, hf⟩ := h
  constructor <;> grind [update_apply]

theorem not_held (h : Kept unit s) {i : Nat} (hi : (unit i).pid = 0) (p : Nat) :
    ¬ Held s.log i p := by
  intro hp
  have hpos := (h.fresh.2 i p hp.1).1
  rw [← (h.held i p hp).1, hi] at hpos
  exact lt_irrefl 0 hpos

theorem update_idle (h : Kept unit s) {i : Nat} (hi : (unit i).pid = 0) (hu : u.pid = 0) :
    Kept (Function.update unit i u) s :=
  h.update (fun p hp => absurd hp (h.not_held hi p)) fun hne => absurd hu hne

theorem update_same (h : Kept unit s) {i : Nat} (hpid : u.pid = (unit i).pid)
    (hstate : u.state = (unit i).state) (hstop : (unit i).stopping → u.stopping) :
    Kept (Function.update unit i u) s := by
  have hl := h.lingering i
  apply h.update <;> grind [h.held i, SvcUnit.Up]

theorem update_up (h : Kept unit s) {i : Nat} (hpid : u.pid = (unit i).pid) (hup : u.Up) :
    Kept (Function.update unit i u) s := by
  apply h.update <;> grind [h.held i]

end Kept

variable {f : SvcUnit → SvcUnit} {i : Nat} {s : Init}

theorem Kept.setUnit (h : Kept (Function.update s.unit i (f (s.unit i))) s) :
    Kept (setUnit i f s).2.unit (setUnit i f s).2 := ⟨h.held, h.lingering, h.single, h.fresh⟩

variable {log : List ProcEvent} {e : ProcEvent}

theorem Single.cons (h : Single log)
    (he : ∀ u p q, Live (e :: log) u p → Live (e :: log) u q → p = q) : Single (e :: log) := by
  intro l hl
  obtain rfl | hl := suffix_cons_iff.mp hl
  · exact he
  · exact h l hl

theorem Single.cons_gone (h : Single log) (he : ∀ u p, e ≠ .spawned u p) : Single (e :: log) := by
  have hlive : ∀ u p, Live (e :: log) u p → Live log u p := by
    intro u p
    unfold Live
    grind
  exact h.cons fun u p q hp hq => h log (suffix_refl _) u p q (hlive u p hp) (hlive u q hq)

/-- Nothing of the units is touched, and what fitted the processes still does. -/
structure Calm (s s' : Init) : Prop where
  unit : s'.unit = s.unit
  nunits : s'.nunits = s.nunits
  log : s.log <:+ s'.log
  kept : ∀ unit, Kept unit s → Kept unit s'

instance : Std.Refl Calm := ⟨fun _ => ⟨rfl, rfl, List.suffix_refl _, fun _ h => h⟩⟩

instance : IsTrans Init Calm := ⟨fun _ _ _ h h' =>
  ⟨h'.unit.trans h.unit, h'.nunits.trans h.nunits, h.log.trans h'.log,
    fun unit hk => h'.kept unit (h.kept unit hk)⟩⟩

theorem calm_log (hsuffix : s.log <:+ log)
    (hspawn : ∀ u p, ProcEvent.spawned u p ∈ log → .spawned u p ∈ s.log)
    (hsingle : Single s.log → Single log) (time calls : Nat) :
    Calm s { s with log := log, time := time, calls := calls } := by
  refine ⟨rfl, rfl, hsuffix, fun unit h => ⟨?_, h.lingering, hsingle h.single, h.fresh.1, ?_⟩⟩
  · intro u p hp
    exact h.held u p ⟨hspawn u p hp.1, fun hc => hp.2 (hsuffix.subset hc)⟩
  · exact fun u p hp => h.fresh.2 u p (hspawn u p hp)

theorem noteExit_spec (log : List ProcEvent) (pid : Nat) : log <:+ noteExit log pid ∧
      (∀ u p, ProcEvent.spawned u p ∈ noteExit log pid → .spawned u p ∈ log) ∧
      (Single log → Single (noteExit log pid)) := by
  unfold noteExit
  split
  · refine ⟨suffix_cons _ _, fun u p hp => ?_, fun h => h.cons_gone (by simp)⟩
    exact (mem_cons.mp hp).resolve_left (by simp)
  · exact ⟨suffix_refl _, fun _ _ hp => hp, id⟩

theorem foldl_noteExit_spec (pids : List Nat) (log : List ProcEvent) :
    log <:+ pids.foldl noteExit log ∧
      (∀ u p, ProcEvent.spawned u p ∈ pids.foldl noteExit log → .spawned u p ∈ log) ∧
      (Single log → Single (pids.foldl noteExit log)) := by
  induction pids generalizing log with
  | nil => exact ⟨suffix_refl _, fun _ _ hp => hp, id⟩
  | cons pid pids ih =>
    obtain ⟨hs, hm, hsingle⟩ := ih (noteExit log pid)
    obtain ⟨hs', hm', hsingle'⟩ := noteExit_spec log pid
    exact ⟨hs'.trans hs, fun u p hp => hm' u p (hm u p hp), fun h => hsingle (hsingle' h)⟩

variable (env : Nat → Reply)

theorem sys_calm : Steps Calm (sys env) := by
  intro s
  obtain ⟨hsuffix, hspawn, hsingle⟩ := foldl_noteExit_spec (env s.calls).exits s.log
  exact calm_log hsuffix hspawn hsingle _ _

theorem uptimeMs_calm : Steps Calm (uptimeMs env) := sys_calm env

theorem stat_calm : Steps Calm (stat env) := sys_calm env

theorem pidAlive_calm (pid : Nat) : Steps Calm (pidAlive env pid) := sys_calm env

theorem sleepMs_calm (ms : Nat) : Steps Calm (sleepMs env ms) :=
  steps_bind (sys_calm env)
    fun _ _ => ⟨rfl, rfl, suffix_refl _, fun _ h => ⟨h.held, h.lingering, h.single, h.fresh⟩⟩

theorem waitpid_calm (pid : Nat) : Steps Calm (waitpid env pid) := by
  refine steps_bind (sys_calm env) fun _ s => ?_
  obtain ⟨hsuffix, hspawn, hsingle⟩ := noteExit_spec s.log pid
  refine calm_log (hsuffix.trans (suffix_cons _ _)) (fun u p hp => ?_)
    (fun h => (hsingle h).cons_gone (by simp)) _ _
  exact hspawn u p ((mem_cons.mp hp).resolve_left (by simp))

theorem kill_calm (pid : Nat) : Steps Calm (kill env pid) := by
  refine steps_bind (sys_calm env) fun _ s => calm_log (suffix_cons _ _) (fun u p hp => ?_)
    (fun h => h.cons_gone (by simp)) _ _
  exact (mem_cons.mp hp).resolve_left (by simp)

theorem waitpid_collected (pid : Nat) (s : Init) :
    .collected pid ∈ (waitpid env pid s).2.log := mem_cons_self

theorem termLoop_calm (pid fuel : Nat) : Steps Calm (termLoop env pid fuel) := by
  induction fuel with
  | zero => exact steps_pure ()
  | succ fuel ih =>
    refine steps_bind (pidAlive_calm env pid) fun alive => ?_
    cases alive with
    | true => exact steps_bind (sleepMs_calm env 10) fun _ => ih
    | false => exact steps_pure ()

theorem executable_calm (i : Nat) : Steps Calm (executable env i) := by
  intro s
  unfold executable
  simp only [bind_apply, cond_apply]
  split
  · exact steps_pure (R := Calm) false s
  · exact stat_calm env s

/-- Only unit `i` is touched, and neither its kind nor its guard. -/
structure Only (i : Nat) (s s' : Init) : Prop where
  others : ∀ v, v ≠ i → s'.unit v = s.unit v
  same : (s'.unit i).startGuard = (s.unit i).startGuard ∧ (s'.unit i).kind = (s.unit i).kind
  nunits : s'.nunits = s.nunits
  log : s.log <:+ s'.log

instance (i : Nat) : Std.Refl (Only i) :=
  ⟨fun _ => ⟨fun _ _ => rfl, ⟨rfl, rfl⟩, rfl, List.suffix_refl _⟩⟩

instance (i : Nat) : IsTrans Init (Only i) := ⟨fun _ _ _ h h' =>
  ⟨fun v hv => (h'.others v hv).trans (h.others v hv),
    ⟨h'.same.1.trans h.same.1, h'.same.2.trans h.same.2⟩, h'.nunits.trans h.nunits,
    h.log.trans h'.log⟩⟩

variable {s' : Init}

theorem Calm.only (h : Calm s s') (i : Nat) : Only i s s' :=
  ⟨fun _ _ => by rw [h.unit], by rw [h.unit]; exact ⟨rfl, rfl⟩, h.nunits, h.log⟩

theorem setUnit_only (i : Nat) (hf : ∀ u, (f u).startGuard = u.startGuard ∧ (f u).kind = u.kind) :
    Steps (Only i) (setUnit i f) := by
  intro s
  refine ⟨fun v hv => update_of_ne hv _ _, ?_, rfl, suffix_refl _⟩
  change (update s.unit i (f (s.unit i)) i).startGuard = _ ∧ _
  rw [setUnit, modify_apply]
  simp only [update_self]
  exact hf _

def Idle (i : Nat) (s : Init) : Prop := Kept s.unit s ∧ (s.unit i).pid = 0 ∧ i < s.nunits

def Busy (i pid : Nat) (s : Init) : Prop := Kept s.unit s ∧ (s.unit i).pid = pid ∧ (s.unit i).Up

theorem Calm.keptSelf (h : Calm s s') (hk : Kept s.unit s) : Kept s'.unit s' := by
  rw [h.unit]
  exact h.kept _ hk

theorem Calm.idle (h : Calm s s') (hi : Idle i s) : Idle i s' :=
  ⟨h.keptSelf hi.1, by rw [h.unit]; exact hi.2.1, by rw [h.nunits]; exact hi.2.2⟩

theorem Calm.busy (h : Calm s s') {pid : Nat} (hi : Busy i pid s) : Busy i pid s' :=
  ⟨h.keptSelf hi.1, by rw [h.unit]; exact hi.2⟩

/-- Only unit `i` was touched since `s0`, and `P` holds. -/
def Since (s0 : Init) (i : Nat) (P : Init → Prop) (s : Init) : Prop := Only i s0 s ∧ P s

variable {s0 : Init}

variable {α : Type}

theorem since {x : StProg Init α} {P : Init → Prop} {Q : α → Init → Prop}
    (honly : Steps (Only i) x) (h : Triple P x Q) :
    Triple (Since s0 i P) x fun a => Since s0 i (Q a) :=
  fun s hs => ⟨IsTrans.trans _ _ _ hs.1 (honly s), h s hs.2⟩

theorem idle_of_calm {x : StProg Init α} (h : Steps Calm x) (i : Nat) :
    Triple (Since s0 i (Idle i)) x fun _ => Since s0 i (Idle i) :=
  since (fun s => (h s).only i) fun s hs => (h s).idle hs

theorem busy_of_calm {x : StProg Init α} (h : Steps Calm x) (i pid : Nat) :
    Triple (Since s0 i (Busy i pid)) x fun _ => Since s0 i (Busy i pid) :=
  since (fun s => (h s).only i) fun s hs => (h s).busy hs

theorem idle_setUnit (i : Nat) (hf : ∀ u, (f u).pid = u.pid)
    (hsame : ∀ u, (f u).startGuard = u.startGuard ∧ (f u).kind = u.kind) :
    Triple (Since s0 i (Idle i)) (setUnit i f) fun _ => Since s0 i (Idle i) := by
  refine since (setUnit_only i hsame) fun s hs => ?_
  have hpid : (f (s.unit i)).pid = 0 := (hf _).trans hs.2.1
  refine ⟨(hs.1.update_idle hs.2.1 hpid).setUnit, ?_, hs.2.2⟩
  change (update s.unit i (f (s.unit i)) i).pid = 0
  rw [update_self]
  exact hpid

theorem idle_become (i : Nat) (state : UnitState) :
    Triple (Since s0 i (Idle i)) (setUnit i (·.become state)) fun _ =>
      Since s0 i fun s => Kept s.unit s := by
  intro s hs
  have h := idle_setUnit i (f := (·.become state)) (fun _ => rfl) (fun _ => ⟨rfl, rfl⟩) s hs
  exact ⟨h.1, h.2.1⟩

theorem busy_running (i pid : Nat) :
    Triple (Since s0 i (Busy i pid)) (setUnit i (·.become .running)) fun _ =>
      Since s0 i fun s => Kept s.unit s :=
  since (setUnit_only i fun _ => ⟨rfl, rfl⟩) fun _ hs =>
    Kept.setUnit (f := (·.become .running)) (hs.1.update_up rfl (.inl rfl))

theorem busy_lost (i pid : Nat) :
    Triple (Since s0 i (Busy i pid)) (do setUnit i (.lost (← waitpid env pid))) fun _ =>
      Since s0 i fun s => Kept s.unit s := by
  refine since (fun s => IsTrans.trans _ _ _ ((waitpid_calm env pid s).only i)
    (setUnit_only i (f := .lost _) (fun _ => ⟨rfl, rfl⟩) _)) fun s hs => ?_
  have hb := (waitpid_calm env pid s).busy hs
  have hgone := waitpid_collected env pid s
  rw [bind_apply]
  refine (hb.1.update (fun p hp => ?_) fun hne => absurd rfl hne).setUnit
  have heq := (hb.1.held i p hp).1
  rw [hb.2.1] at heq
  exact absurd (heq ▸ hgone) hp.2

theorem readyLoop_kept (i pid deadline fuel : Nat) :
    Triple (Since s0 i (Busy i pid)) (readyLoop env i pid deadline fuel) fun done =>
      Since s0 i fun s => if done then Kept s.unit s else Busy i pid s := by
  induction fuel with
  | zero => exact fun s hs => hs
  | succ fuel ih =>
    refine triple_bind (busy_of_calm (uptimeMs_calm env) i pid) fun now => ?_
    by_cases hnow : now < deadline
    · rw [if_pos hnow]
      refine triple_bind (busy_of_calm (stat_calm env) i pid) fun ready => ?_
      cases ready with
      | true => exact fun s hs => busy_running i pid s hs
      | false =>
        refine triple_bind (busy_of_calm (pidAlive_calm env pid) i pid) fun alive => ?_
        cases alive with
        | true => exact triple_bind (busy_of_calm (sleepMs_calm env 50) i pid) fun _ => ih
        | false => exact fun s hs => busy_lost env i pid s hs
    · rw [if_neg hnow]
      exact fun s hs => hs

theorem awaitReady_kept (i pid : Nat) :
    Triple (Since s0 i (Busy i pid)) (awaitReady env i pid) fun _ =>
      Since s0 i fun s => Kept s.unit s := by
  refine triple_bind (busy_of_calm (uptimeMs_calm env) i pid) fun now => ?_
  refine triple_bind (R := fun _ => Since s0 i (Busy i pid)) (fun _ hs => hs) fun s => ?_
  refine triple_bind (readyLoop_kept env i pid _ _) fun done => ?_
  cases done with
  | true => exact fun s hs => hs
  | false =>
    refine triple_bind (busy_of_calm (kill_calm env pid) i pid) fun _ => ?_
    refine triple_bind (busy_of_calm (termLoop_calm env pid 20) i pid) fun _ => ?_
    exact busy_lost env i pid

/-- The process `pid` of unit `i` has been spawned and is still to be recorded. -/
def Launching (i pid : Nat) (s : Init) : Prop :=
  ∀ u : SvcUnit, u.pid = pid → u.Up → Kept (Function.update s.unit i u) s

theorem spawn_kept (i : Nat) :
    Triple (Since s0 i (Idle i)) (spawn env i) fun r => Since s0 i fun s => match r with
      | none => Idle i s
      | some pid => Launching i pid s := by
  refine triple_bind (idle_of_calm (sys_calm env) i) fun r => ?_
  cases r.pid with
  | none => exact fun s hs => hs
  | some d =>
    refine since (fun s => ⟨fun _ _ => rfl, ⟨rfl, rfl⟩, rfl, suffix_cons _ _⟩)
      fun s hs u hpid hup => ?_
    have hk := hs.1
    have hnone : ∀ p, ¬ Held s.log i p := hk.not_held hs.2.1
    refine ⟨?_, ?_, ?_, succ_pos _, ?_⟩
    · intro v p hp
      obtain heq | hmem := mem_cons.mp hp.1
      · cases heq
        rw [update_self]
        exact ⟨hpid, hs.2.2⟩
      have hold : Held s.log v p := ⟨hmem, fun hc => hp.2 (mem_cons_of_mem _ hc)⟩
      have hv : v ≠ i := fun heq => hnone p (heq ▸ hold)
      rw [update_of_ne hv]
      exact hk.held v p hold
    · intro v
      by_cases hv : v = i
      · subst hv
        rw [update_self]
        exact fun _ => .inl hup
      · rw [update_of_ne hv]
        exact hk.lingering v
    · -- The only process that can be live for `i` now is the new one.
      refine hk.single.cons fun v p q hp hq => ?_
      have hold : ∀ p, Live (.spawned i (s.nextPid + d) :: s.log) v p → p ≠ s.nextPid + d ∨ v ≠ i →
          Live s.log v p := by
        intro p hp hne
        refine ⟨(mem_cons.mp hp.1).resolve_left fun heq => ?_, fun hx => ?_, fun hx => ?_⟩
        · cases heq
          exact hne.elim (fun h => h rfl) fun h => h rfl
        · exact hp.2.1 (mem_cons_of_mem _ hx)
        · exact hp.2.2 (mem_cons_of_mem _ hx)
      by_cases hv : v = i
      · subst hv
        have hnew : ∀ p, Live (.spawned v (s.nextPid + d) :: s.log) v p → p = s.nextPid + d := by
          intro p hp
          by_contra hne
          have hl := hold p hp (.inl hne)
          exact hnone p ⟨hl.1, hl.2.2⟩
        rw [hnew p hp, hnew q hq]
      · exact hk.single s.log (suffix_refl _) v p q (hold p hp (.inr hv)) (hold q hq (.inr hv))
    · intro v p hp
      have hpos := hk.fresh.1
      obtain heq | hmem := mem_cons.mp hp
      · cases heq
        exact ⟨lt_of_lt_of_le hpos (le_add_right _ _), lt_succ_self _⟩
      · obtain ⟨h0, hlt⟩ := hk.fresh.2 v p hmem
        exact ⟨h0, lt_succ_of_lt (lt_of_lt_of_le hlt (le_add_right _ _))⟩

theorem launch_kept (i pid : Nat) :
    Triple (Since s0 i (Launching i pid)) (launch env i pid) fun _ =>
      Since s0 i fun s => Kept s.unit s := by
  have hcalm := uptimeMs_calm env
  refine triple_bind (R := fun _ => Since s0 i (Launching i pid))
    (since (fun s => (hcalm s).only i) fun s hs u hpid hup => ?_) fun now => ?_
  · rw [(hcalm s).unit]
    exact (hcalm s).kept _ (hs u hpid hup)
  refine triple_bind (R := fun _ => Since s0 i (Launching i pid))
    (since (fun s => ⟨fun _ _ => rfl, ⟨rfl, rfl⟩, rfl, suffix_refl _⟩) fun s hs u hpid hup => ?_)
    fun _ => ?_
  · exact ⟨(hs u hpid hup).held, (hs u hpid hup).lingering, (hs u hpid hup).single,
      (hs u hpid hup).fresh⟩
  refine triple_bind (R := fun _ => Since s0 i (Launching i pid)) (fun _ hs => hs) fun s => ?_
  refine triple_bind (R := fun _ => Since s0 i (Busy i pid))
    (since (setUnit_only i fun _ => ⟨rfl, rfl⟩) fun s' hs => ?_) fun _ => ?_
  · have hup : ((s'.unit i).launched pid now s.seqCounter).Up := by
      simp only [SvcUnit.launched, SvcUnit.Up]
      split
      · exact .inl rfl
      · exact .inr rfl
    refine ⟨(hs _ rfl hup).setUnit, ?_⟩
    rw [setUnit_unit_self]
    exact ⟨rfl, hup⟩
  by_cases hready : (s.unit i).config.ready = []
  · rw [if_pos hready]
    exact fun s hs => ⟨hs.1, hs.2.1⟩
  · rw [if_neg hready]
    exact awaitReady_kept env i pid

theorem unitSpawn_kept (i : Nat) :
    Triple (Since s0 i (Idle i)) (unitSpawn env i) fun _ => Since s0 i fun s => Kept s.unit s := by
  refine triple_bind (idle_setUnit i (fun _ => rfl) fun _ => ⟨rfl, rfl⟩) fun _ => ?_
  refine triple_bind (R := fun _ => Since s0 i (Idle i)) (fun _ hs => hs) fun s => ?_
  cases (s.unit i).enabled with
  | false => exact idle_become i .disabled
  | true =>
    refine triple_bind (idle_of_calm (executable_calm env i) i) fun ok => ?_
    cases ok with
    | false => exact idle_become i .failed
    | true =>
      refine triple_bind (spawn_kept env i) fun r => ?_
      cases r with
      | none => exact idle_become i .failed
      | some pid => exact launch_kept env i pid

/-- The invariant between two functions: a unit that is being started has no process yet. -/
structure Fine (s : Init) : Prop where
  kept : Kept s.unit s
  guarded : ∀ u, (s.unit u).startGuard → (s.unit u).pid = 0

/-- What every function leaves alone. -/
structure Frame (s s' : Init) : Prop where
  guards : ∀ v, (s'.unit v).startGuard = (s.unit v).startGuard
  nunits : s'.nunits = s.nunits
  log : s.log <:+ s'.log

theorem Frame.refl (s : Init) : Frame s s := ⟨fun _ => rfl, rfl, suffix_refl _⟩

variable {s'' : Init}

theorem Frame.trans (h : Frame s s') (h' : Frame s' s'') : Frame s s'' :=
  ⟨fun v => (h'.guards v).trans (h.guards v), h'.nunits.trans h.nunits, h.log.trans h'.log⟩

theorem Calm.frame (h : Calm s s') : Frame s s' :=
  ⟨fun v => by rw [h.unit], h.nunits, h.log⟩

def Goes (s s' : Init) : Prop := Fine s' ∧ Frame s s'

theorem Goes.trans (h : Goes s s') (h' : Goes s' s'') : Goes s s'' :=
  ⟨h'.1, h.2.trans h'.2⟩

theorem Calm.goes (h : Calm s s') (hf : Fine s) : Goes s s' :=
  ⟨⟨h.keptSelf hf.kept, by rw [h.unit]; exact hf.guarded⟩, h.frame⟩

namespace Fine

variable {s : Init} {i : Nat} {f : SvcUnit → SvcUnit}

theorem setUnit (h : Fine s) (hk : Kept (update s.unit i (f (s.unit i))) s)
    (hg : (f (s.unit i)).startGuard = (s.unit i).startGuard)
    (hpid : (s.unit i).pid = 0 → (f (s.unit i)).pid = 0) : Goes s (setUnit i f s).2 := by
  have hguarded := h.guarded
  refine ⟨⟨hk.setUnit, fun u hu => ?_⟩, ⟨fun v => ?_, rfl, suffix_refl _⟩⟩
  · by_cases hi : u = i <;> grind [setUnit_unit_self, setUnit_unit_of_ne]
  · by_cases hi : v = i <;> grind [setUnit_unit_self, setUnit_unit_of_ne]

theorem idle (h : Fine s) (hi : (s.unit i).pid = 0) (hpid : (f (s.unit i)).pid = 0)
    (hg : (f (s.unit i)).startGuard = (s.unit i).startGuard) :
    Goes s (Supervisor.setUnit i f s).2 :=
  h.setUnit (h.kept.update_idle hi hpid) hg fun _ => hpid

theorem same (h : Fine s) (hpid : (f (s.unit i)).pid = (s.unit i).pid)
    (hstate : (f (s.unit i)).state = (s.unit i).state)
    (hstop : (s.unit i).stopping → (f (s.unit i)).stopping)
    (hg : (f (s.unit i)).startGuard = (s.unit i).startGuard) :
    Goes s (Supervisor.setUnit i f s).2 :=
  h.setUnit (h.kept.update_same hpid hstate hstop) hg hpid.trans

end Fine

theorem Fine.not_lingering (h : Fine s) (hs : (s.unit i).state ≠ .failed) :
    ¬ (s.unit i).Lingering := fun hl =>
  (h.kept.lingering i hl.1).elim hl.2 fun hf => hs hf.1

theorem ensureRequirements_goes {start : Nat → StProg Init Unit}
    (hstart : ∀ d s, Fine s → d < s.nunits → ¬ (s.unit d).Lingering → Goes s (start d s).2)
    (i : Nat) (deps : List (List UInt8)) (s : Init) (h : Fine s) :
    Goes s (ensureRequirements start i deps s).2 := by
  induction deps generalizing s with
  | nil => exact ⟨h, .refl s⟩
  | cons dep deps ih =>
    unfold ensureRequirements
    simp only [bind_apply]
    cases hd : findUnit s dep with
    | none => exact ⟨h, .refl s⟩
    | some d =>
      simp only [cond_apply]
      split
      · exact ⟨h, .refl s⟩
      rename_i hbad
      have hstate : (s.unit d).state ≠ .failed := fun hf => hbad (.inr (.inr hf))
      have hlinger := h.not_lingering hstate
      have henable : Goes s (setUnit d .pulled s).2 := by
        apply h.same <;> unfold SvcUnit.pulled <;> split <;> first | rfl | exact id
      have hkeep : ((setUnit d .pulled s).2.unit d).pid = (s.unit d).pid ∧
          ((setUnit d .pulled s).2.unit d).state = (s.unit d).state := by
        rw [setUnit_unit_self, SvcUnit.pulled]
        split <;> exact ⟨rfl, rfl⟩
      simp only [bind_apply, cond_apply]
      generalize (setUnit d .pulled s).2 = s1 at henable hkeep
      split
      · exact henable.trans (ih s1 henable.1)
      have hlinger1 : ¬ (s1.unit d).Lingering := by
        rw [SvcUnit.Lingering, SvcUnit.Up, hkeep.1, hkeep.2]
        exact hlinger
      have hgo := hstart d s1 henable.1 (henable.2.nunits ▸ findUnit_lt hd) hlinger1
      split
      · exact (henable.trans hgo).trans (ih _ hgo.1)
      · exact henable.trans hgo

theorem unguard_fine (h : Fine s) (hk : Kept s'.unit s') (honly : Only i s s') :
    Fine (setUnit i (.guard false) s').2 := by
  have hk' : Kept (update s'.unit i ((s'.unit i).guard false)) s' :=
    hk.update_same rfl rfl id
  refine ⟨hk'.setUnit, fun v hv => ?_⟩
  by_cases hvi : v = i
  · rw [hvi, setUnit_unit_self] at hv
    cases hv
  · grind [setUnit_unit_of_ne, honly.others v hvi, h.guarded v]

theorem unitStart_goes (depth i : Nat) (s : Init) (h : Fine s) (hi : i < s.nunits)
    (hl : ¬ (s.unit i).Lingering) : Goes s (unitStart env depth i s).2 := by
  induction depth generalizing i s with
  | zero => exact ⟨h, .refl s⟩
  | succ depth ih =>
    unfold unitStart
    simp only [bind_apply, cond_apply]
    split
    · exact ⟨h, .refl s⟩
    rename_i hup
    have hpid : (s.unit i).pid = 0 := Decidable.not_not.mp fun hne => hl ⟨hne, hup⟩
    split
    · exact h.idle hpid hpid rfl
    rename_i hguard
    -- From here to the end the guard is up, so no requirement starts unit `i`.
    have hk : Kept (update s.unit i ((s.unit i).guard true)) s :=
      h.kept.update_same rfl rfl id
    have h1 : Fine (setUnit i (.guard true) s).2 := by
      refine ⟨hk.setUnit, fun v hv => ?_⟩
      by_cases hvi : v = i
      · rw [hvi, setUnit_unit_self]
        exact hpid
      · rw [setUnit_unit_of_ne _ _ hvi] at hv ⊢
        exact h.guarded v hv
    have hgo := ensureRequirements_goes (fun d s hs hd hld => ih d s hs hd hld) i
      (s.unit i).requirements _ h1
    generalize hr : ensureRequirements (unitStart env depth) i (s.unit i).requirements
      (setUnit i (.guard true) s).2 = r at hgo ⊢
    obtain ⟨ok, s2⟩ := r
    have hguard2 : (s2.unit i).startGuard := by
      rw [hgo.2.guards, setUnit_unit_self]
      rfl
    have hidle : Idle i s2 :=
      ⟨hgo.1.kept, hgo.1.guarded i hguard2, hgo.2.nunits ▸ hi⟩
    have hdone : ∀ s3, Kept s3.unit s3 → Only i s2 s3 →
        Goes s (setUnit i (.guard false) s3).2 := by
      intro s3 hk honly
      refine ⟨unguard_fine hgo.1 hk honly, fun v => ?_, honly.nunits.trans hgo.2.nunits,
        hgo.2.log.trans honly.log⟩
      by_cases hvi : v = i
      · rw [hvi, setUnit_unit_self]
        exact (Bool.eq_false_iff.mpr hguard).symm
      · rw [setUnit_unit_of_ne _ _ hvi, honly.others v hvi, hgo.2.guards,
          setUnit_unit_of_ne _ _ hvi]
    cases ok with
    | true =>
      obtain ⟨honly, hk⟩ := unitSpawn_kept env i s2 ⟨Std.Refl.refl _, hidle⟩
      exact hdone _ hk honly
    | false =>
      obtain ⟨honly, hk⟩ := idle_become i .failed s2 ⟨Std.Refl.refl _, hidle⟩
      exact hdone _ hk honly

variable {u : SvcUnit}

theorem start_goes (i : Nat) (s : Init) (h : Fine s) (hi : i < s.nunits)
    (hl : ¬ (s.unit i).Lingering) : Goes s (start env i s).2 :=
  unitStart_goes env _ i s h hi hl

theorem setStart_goes (h : Fine s) (hi : i < s.nunits) (hpid : (s.unit i).pid = 0)
    (hf : (f (s.unit i)).pid = 0) (hg : (f (s.unit i)).startGuard = (s.unit i).startGuard) :
    Goes s (start env i (setUnit i f s).2).2 := by
  have h1 := h.idle hpid hf hg
  refine h1.trans (start_goes env i _ h1.1 (h1.2.nunits ▸ hi) fun hl => hl.1 ?_)
  rw [setUnit_unit_self]
  exact hf

theorem each_goes {n : Nat} {f : Nat → StProg Init Unit}
    (hf : ∀ i s, Fine s → s.nunits = n → i < n → Goes s (f i s).2) (is : List Nat) (s : Init)
    (h : Fine s) (hn : s.nunits = n) (his : ∀ i ∈ is, i < n) : Goes s (each f is s).2 := by
  induction is generalizing s with
  | nil => exact ⟨h, .refl s⟩
  | cons i is ih =>
    have hgo := hf i s h hn (his i mem_cons_self)
    refine hgo.trans (ih _ hgo.1 (hgo.2.nunits.trans hn) fun j hj => ?_)
    exact his j (mem_cons_of_mem _ hj)

theorem Fine.drop (h : Fine s) (hgone : .collected (s.unit i).pid ∈ s.log)
    (hpid : (f (s.unit i)).pid = 0) (hg : (f (s.unit i)).startGuard = (s.unit i).startGuard) :
    Goes s (Supervisor.setUnit i f s).2 := by
  refine h.setUnit (h.kept.update (fun p hp => ?_) fun hne => absurd hpid hne) hg fun _ => hpid
  rw [(h.kept.held i p hp).1] at hgone
  exact absurd hgone hp.2

theorem died_pid (now : Nat) (u : SvcUnit) :
    (u.died now).pid = u.pid ∧ (u.died now).startGuard = u.startGuard := by
  grind [SvcUnit.died, SvcUnit.counted, SvcUnit.become]

theorem unitDied_goes (i : Nat) (code : Int) (s : Init) (h : Fine s) (hi : i < s.nunits)
    (hgone : .collected (s.unit i).pid ∈ s.log) : Goes s (unitDied env i code s).2 := by
  have hcalm := uptimeMs_calm env s
  have h1 := hcalm.goes h
  unfold unitDied
  simp only [bind_apply, get_apply]
  generalize (uptimeMs env s).1 = now
  generalize (uptimeMs env s).2 = s1 at hcalm h1 ⊢
  rw [← hcalm.unit] at hgone
  generalize hs2 : (setUnit i _ s1).2 = s2
  have h2 : Goes s1 s2 := hs2 ▸ h1.1.drop (hcalm.log.subset hgone) rfl rfl
  have hpid : (s2.unit i).pid = 0 := by rw [← hs2, setUnit_unit_self]
  have hi2 : i < s2.nunits := by
    rw [h2.2.nunits, hcalm.nunits]
    exact hi
  refine h1.trans (h2.trans ?_)
  simp only [cond_apply, bind_apply]
  split
  · exact setStart_goes env h2.1 hi2 hpid hpid rfl
  · exact h2.1.idle hpid ((died_pid now _).1.trans hpid) (died_pid now _).2

theorem reapUnit_goes (i : Nat) (s : Init) (h : Fine s) (hi : i < s.nunits) :
    Goes s (reapUnit env i s).2 ∧ ∀ p, .spawned i p ∈ s.log → .exited p ∈ s.log →
      .collected p ∈ (reapUnit env i s).2.log := by
  unfold reapUnit
  simp only [bind_apply, cond_apply]
  split
  · have hcalm := pidAlive_calm env (s.unit i).pid s
    have h1 := hcalm.goes h
    have hdead : .exited (s.unit i).pid ∈ s.log → (pidAlive env (s.unit i).pid s).1 = false := by
      intro hx
      have hx' := hcalm.log.subset hx
      simp only [pidAlive, bind_apply, pure_apply, alive, decide_eq_false_iff_not, not_and,
        not_not]
      exact fun _ => hx'
    cases halive : (pidAlive env (s.unit i).pid s).1 with
    | true =>
      refine ⟨h1, fun p hp hx => hcalm.log.subset ?_⟩
      -- A process that has exited and is not collected would be the unit's, and is not alive.
      by_contra hc
      have hpid := (h.kept.held i p ⟨hp, hc⟩).1
      rw [hdead (hpid ▸ hx)] at halive
      cases halive
    | false =>
      generalize (pidAlive env (s.unit i).pid s).2 = s1 at hcalm h1 ⊢
      have hwait := waitpid_calm env (s.unit i).pid s1
      have hgone := waitpid_collected env (s.unit i).pid s1
      have h2 := hwait.goes h1.1
      have hunit : ((waitpid env (s.unit i).pid s1).2.unit i).pid = (s.unit i).pid := by
        rw [hwait.unit, hcalm.unit]
      have h3 := unitDied_goes env i (waitpid env (s.unit i).pid s1).1 _ h2.1
        (by rw [hwait.nunits, hcalm.nunits]; exact hi) (hunit.symm ▸ hgone)
      have hgo := (h1.trans h2).trans h3
      refine ⟨hgo, fun p hp hx => ?_⟩
      by_cases hc : .collected p ∈ s.log
      · exact hgo.2.log.subset hc
      · have hpid := (h.kept.held i p ⟨hp, hc⟩).1
        exact h3.2.log.subset (hpid ▸ hgone)
  · rename_i hskip
    refine ⟨⟨h, .refl s⟩, fun p hp hx => ?_⟩
    by_contra hc
    have hpid := (h.kept.held i p ⟨hp, hc⟩).1
    have hpos : 0 < (s.unit i).pid := by
      rw [hpid]
      exact (h.kept.fresh.2 i p hp).1
    refine hskip ⟨?_, hpos⟩
    exact (h.kept.lingering i hpos.ne').imp id fun hf => hf.2

theorem each_reapUnit_goes (is : List Nat) (s : Init) (h : Fine s) (his : ∀ i ∈ is, i < s.nunits) :
    Goes s (each (reapUnit env) is s).2 ∧ ∀ i ∈ is, ∀ p, .spawned i p ∈ s.log →
      .exited p ∈ s.log → .collected p ∈ (each (reapUnit env) is s).2.log := by
  induction is generalizing s with
  | nil => exact ⟨⟨h, .refl s⟩, fun i hi => by cases hi⟩
  | cons i is ih =>
    obtain ⟨hgo, hcol⟩ := reapUnit_goes env i s h (his i mem_cons_self)
    obtain ⟨hgo', hcol'⟩ := ih _ hgo.1 fun j hj => by
      rw [hgo.2.nunits]
      exact his j (mem_cons_of_mem _ hj)
    refine ⟨hgo.trans hgo', fun j hj p hp hx => ?_⟩
    obtain rfl | hj := mem_cons.mp hj
    · exact hgo'.2.log.subset (hcol p hp hx)
    · exact hcol' j hj p (hgo.2.log.subset hp) (hgo.2.log.subset hx)

theorem reapChildren_goes (s : Init) (h : Fine s) :
    Goes s (reapChildren env s).2 ∧ ∀ u p, .spawned u p ∈ s.log → .exited p ∈ s.log →
      .collected p ∈ (reapChildren env s).2.log := by
  obtain ⟨hgo, hcol⟩ := each_reapUnit_goes env (range s.nunits) s h fun i hi =>
    mem_range.mp hi
  refine ⟨hgo, fun u p hp hx => ?_⟩
  by_cases hc : .collected p ∈ s.log
  · exact hgo.2.log.subset hc
  · exact hcol u (mem_range.mpr (h.kept.held u p ⟨hp, hc⟩).2) p hp hx

theorem runBackoff_goes (s : Init) (h : Fine s) : Goes s (runBackoff env s).2 := by
  have h1 := (uptimeMs_calm env s).goes h
  refine h1.trans (each_goes (fun i s hs hn hi => ?_) _ _ h1.1 rfl fun i hi => mem_range.mp hi)
  simp only [bind_apply, cond_apply]
  split
  · rename_i hw
    exact start_goes env i s hs (hn ▸ hi) (hs.not_lingering (by rw [hw.1]; decide))
  · exact ⟨hs, .refl s⟩

theorem unitStop_goes (i : Nat) (s : Init) (h : Fine s) :
    Goes s (unitStop env i s).2 ∧ (unitStop env i s).2.unit = (setUnit i
      (fun u => { u with stopping := true }) s).2.unit := by
  have h1 : Goes s (setUnit i (fun u => { u with stopping := true }) s).2 :=
    h.same rfl rfl (fun _ => rfl) rfl
  unfold unitStop
  simp only [bind_apply, cond_apply]
  split
  · generalize ((setUnit i (fun u => { u with stopping := true }) s).2.unit i).pid = pid
    have hcalm := kill_calm env pid (setUnit i (fun u => { u with stopping := true }) s).2
    exact ⟨h1.trans (hcalm.goes h1.1), hcalm.unit⟩
  · exact ⟨h1, rfl⟩

theorem restart_goes (i : Nat) (s : Init) (h : Fine s) :
    Goes s (unitStop env i (setUnit i (fun u => { u with restartPending := true }) s).2).2 := by
  have h1 : Goes s (setUnit i (fun u => { u with restartPending := true }) s).2 :=
    h.same rfl rfl id rfl
  exact h1.trans (unitStop_goes env i _ h1.1).1

theorem enforceUnit_goes (i : Nat) (s : Init) (h : Fine s) : Goes s (enforceUnit env i s).2 := by
  unfold enforceUnit
  simp only [bind_apply, cond_apply]
  split
  · generalize hs1 : (setUnit i _ s).2 = s1
    have h1 : Goes s s1 := hs1 ▸ h.same rfl rfl id rfl
    have hpid : (s1.unit i).pid = (s.unit i).pid := by rw [← hs1, setUnit_unit_self]
    refine h1.trans ?_
    split
    · -- The unit is failed while its process is still there: `stopping` keeps it in the reaper.
      obtain ⟨h2, hunit⟩ := unitStop_goes env i s1 h1.1
      refine h2.trans (h2.1.setUnit (h2.1.kept.update ?_ fun _ => .inr ⟨rfl, ?_⟩) rfl id)
      · exact fun p hp => (h2.1.kept.held i p hp).1
      · change ((unitStop env i s1).2.unit i).stopping
        rw [hunit, setUnit_unit_self]
    · rename_i hzero
      have hpid1 : (s1.unit i).pid = 0 := hpid.trans (Nat.eq_zero_of_not_pos hzero)
      exact h1.1.idle hpid1 hpid1 rfl
  · exact ⟨h, .refl s⟩

theorem enforceDependencies_goes (s : Init) (h : Fine s) : Goes s (enforceDependencies env s).2 :=
  each_goes (fun i s hs _ _ => enforceUnit_goes env i s hs) _ s h rfl fun _ hi => mem_range.mp hi

theorem Ordered.goes (h : Ordered s s') (hf : Fine s)
    (hup : ∀ v, (s.unit v).pid ≠ 0 → (s'.unit v).state = (s.unit v).state) : Goes s s' := by
  have hunit := h.unit
  obtain ⟨⟨hheld, hling, hsingle, hfresh⟩, hguarded⟩ := hf
  have hlog : s'.log = s.log := by rw [h.world]
  have hnext : s'.nextPid = s.nextPid := by rw [h.world]
  have hn := h.nunits
  refine ⟨⟨⟨?_, ?_, hlog ▸ hsingle, ?_⟩, ?_⟩, ⟨?_, hn, by rw [hlog]⟩⟩ <;> grind [SvcUnit.Up]

/-- Reloading `i` with the configuration `fresh` leaves the other units that have a process in an
order. -/
def ReloadSpares (s : Init) (i : Nat) (fresh : Config) : Prop :=
  ∀ v, v ≠ i → (s.unit v).pid ≠ 0 → Orderable (setUnit i (.reloaded fresh) s).2 v

theorem ne_failed_of_not_lingering (hl : ¬ u.Lingering) (hpid : u.pid ≠ 0) : u.state ≠ .failed := by
  have hup : u.Up := Decidable.not_not.mp fun hn => hl ⟨hpid, hn⟩
  obtain hr | hr := hup <;> rw [hr] <;> decide

theorem reloadService_goes (i : Nat) (fresh : Option Config) (s : Init) (h : Fine s)
    (hl : ¬ (s.unit i).Lingering) (hspare : ∀ c ∈ fresh, ReloadSpares s i c) :
    Goes s (reloadService i fresh s).2 ∧ ¬ ((reloadService i fresh s).2.unit i).Lingering := by
  unfold reloadService
  cases fresh with
  | none => exact ⟨⟨h, .refl s⟩, hl⟩
  | some c =>
    change Goes s (if (s.unit i).kind ≠ .service then (false, s) else _).2 ∧ _
    by_cases hkind : (s.unit i).kind ≠ .service
    · simp only [if_pos hkind]
      exact ⟨⟨h, .refl s⟩, hl⟩
    simp only [if_neg hkind]
    split
    · rename_i hstate
      -- A unit that has a process is up, so the reload leaves its state.
      have hsame : (s.unit i).pid ≠ 0 →
          ((s.unit i).reloaded c).state = (s.unit i).state :=
        fun hpid => if_neg (ne_failed_of_not_lingering hl hpid)
      have h1 : Goes s (setUnit i (.reloaded c) s).2 := by
        by_cases hpid : (s.unit i).pid = 0
        · exact h.idle hpid hpid rfl
        · exact h.same rfl (hsame hpid) id rfl
      have hord := (orderServices_inOrder (setUnit i (.reloaded c) s).2).1
      have hgo := hord.goes h1.1 fun v hv => by
        by_cases hvi : v = i
        · subst hvi
          exact (hord.state v).resolve_right fun hf => hstate hf.2
        · rw [setUnit_unit_of_ne _ _ hvi] at hv
          exact orderServices_keeps (hspare c rfl v hvi hv)
      exact ⟨h1.trans hgo, hgo.1.not_lingering hstate⟩
    · exact ⟨⟨h, .refl s⟩, hl⟩

theorem pid_of_not_lingering (hl : ¬ u.Lingering) (hdown : ¬ (u.Up ∧ 0 < u.pid)) : u.pid = 0 := by
  by_contra hpid
  exact hl ⟨hpid, fun hup => hdown ⟨hup, Nat.pos_of_ne_zero hpid⟩⟩

theorem runVerb_goes (i : Nat) (fresh : Option Config) (verb : Verb) (s : Init) (h : Fine s)
    (hi : i < s.nunits) (hl : ¬ (s.unit i).Lingering)
    (hspare : verb = .reload → ∀ c ∈ fresh, ReloadSpares s i c) :
    Goes s (runVerb env i fresh verb s).2 := by
  cases verb with
  | start =>
    unfold runVerb
    simp only [bind_apply, cond_apply]
    split
    · exact ⟨h, .refl s⟩
    rename_i hup
    have hpid := pid_of_not_lingering hl fun hn => hup hn.1
    exact setStart_goes env h hi hpid hpid rfl
  | stop =>
    unfold runVerb
    simp only [bind_apply, cond_apply]
    generalize hs1 : (setUnit i _ s).2 = s1
    have h1 : Goes s s1 := hs1 ▸ h.same rfl rfl id rfl
    have hl1 : ¬ (s1.unit i).Lingering := by
      rw [← hs1, setUnit_unit_self]
      exact hl
    refine h1.trans ?_
    split
    · exact (unitStop_goes env i s1 h1.1).1
    rename_i hdown
    have hpid := pid_of_not_lingering hl1 hdown
    exact h1.1.idle hpid hpid rfl
  | restart =>
    unfold runVerb
    simp only [bind_apply, cond_apply]
    generalize hs1 : (setUnit i _ s).2 = s1
    have h1 : Goes s s1 := hs1 ▸ h.same rfl rfl id rfl
    have hl1 : ¬ (s1.unit i).Lingering := by
      rw [← hs1, setUnit_unit_self]
      exact hl
    refine h1.trans ?_
    split
    · exact restart_goes env i s1 h1.1
    rename_i hdown
    have hpid := pid_of_not_lingering hl1 hdown
    exact setStart_goes env h1.1 (h1.2.nunits ▸ hi) hpid hpid rfl
  | reload =>
    obtain ⟨h1, hl1⟩ := reloadService_goes i fresh s h hl (hspare rfl)
    unfold runVerb
    simp only [bind_apply, cond_apply]
    generalize (reloadService i fresh s).2 = s1 at h1 hl1 ⊢
    split
    · refine h1.trans ?_
      split
      · split
        · exact restart_goes env i s1 h1.1
        · exact (unitStop_goes env i s1 h1.1).1
      rename_i hdown
      have hpid := pid_of_not_lingering hl1 hdown
      split
      · exact ⟨h1.1, .refl s1⟩
      · exact h1.1.idle (f := (·.become .disabled)) hpid hpid rfl
    · exact h1
  | resetFailed =>
    by_cases hpid : (s.unit i).pid = 0
    · exact h.idle hpid hpid rfl
    · exact h.same rfl (if_neg (ne_failed_of_not_lingering hl hpid)) id rfl

theorem unitStart_others (depth i : Nat) (s : Init) (h : Fine s) (hi : i < s.nunits)
    (hl : ¬ (s.unit i).Lingering) (hk : (s.unit i).kind ≠ .service) :
    (∀ v, v ≠ i → (unitStart env depth i s).2.unit v = s.unit v) ∧
      ((unitStart env depth i s).2.unit i).kind = (s.unit i).kind := by
  have hset : ∀ (f : SvcUnit → SvcUnit) (s' : Init), (f (s'.unit i)).kind = (s'.unit i).kind →
      (∀ v, v ≠ i → (setUnit i f s').2.unit v = s'.unit v) ∧
        ((setUnit i f s').2.unit i).kind = (s'.unit i).kind := by
    intro f s' hf
    refine ⟨fun v hv => setUnit_unit_of_ne f s' hv, ?_⟩
    rw [setUnit_unit_self]
    exact hf
  cases depth with
  | zero => exact ⟨fun _ _ => rfl, rfl⟩
  | succ depth =>
    unfold unitStart
    simp only [bind_apply, cond_apply]
    split
    · exact ⟨fun _ _ => rfl, rfl⟩
    rename_i hup
    split
    · exact hset _ s rfl
    have hreq : (s.unit i).requirements = [] := if_neg hk
    have h1 := hset (.guard true) s rfl
    have hidle : Idle i (setUnit i (.guard true) s).2 := by
      refine ⟨Kept.setUnit (h.kept.update_same rfl rfl id), ?_, hi⟩
      rw [setUnit_unit_self]
      exact Decidable.not_not.mp fun hne => hl ⟨hne, hup⟩
    have h2 := (unitSpawn_kept env i _ ⟨Std.Refl.refl _, hidle⟩).1
    have h3 := hset (.guard false) (unitSpawn env i (setUnit i (.guard true) s).2).2 rfl
    simp only [hreq, ensureRequirements, pure_apply, if_true]
    refine ⟨fun v hv => ?_, ?_⟩
    · exact (h3.1 v hv).trans ((h2.others v hv).trans (h1.1 v hv))
    · exact h3.2.trans (h2.same.2.trans h1.2)

/-- Before the services are ordered none of them has a process. -/
def Services (s : Init) : Prop := ∀ v, (s.unit v).kind = .service → (s.unit v).pid = 0

theorem Services.touch (h : Services s) (hi : (s.unit i).kind ≠ .service)
    (hothers : ∀ v, v ≠ i → s'.unit v = s.unit v) (hkind : (s'.unit i).kind = (s.unit i).kind) :
    Services s' := by
  intro v hv
  by_cases hvi : v = i <;> grind [h v]

theorem unitRunSync_goes (i : Nat) (s : Init) (h : Fine s) (hi : i < s.nunits)
    (hk : (s.unit i).kind ≠ .service) (hl : ¬ (s.unit i).Lingering) (hsvc : Services s) :
    Goes s (unitRunSync env i s).2 ∧ Services (unitRunSync env i s).2 := by
  have h1 := start_goes env i s h hi hl
  obtain ⟨hothers, hkind⟩ := unitStart_others env (s.nunits + 1) i s h hi hl hk
  have hsvc1 : Services (start env i s).2 := hsvc.touch hk hothers hkind
  have hk1 : ((start env i s).2.unit i).kind ≠ .service := hkind.symm ▸ hk
  unfold unitRunSync
  simp only [bind_apply, cond_apply]
  generalize (start env i s).2 = s1 at h1 hsvc1 hk1 ⊢
  split
  · have hcalm := waitpid_calm env (s1.unit i).pid s1
    have hgone := waitpid_collected env (s1.unit i).pid s1
    have h2 := hcalm.goes h1.1
    have hunit := hcalm.unit
    generalize waitpid env (s1.unit i).pid s1 = r at hcalm hgone h2 hunit ⊢
    rw [← hunit] at hgone
    refine ⟨(h1.trans h2).trans (h2.1.drop hgone rfl rfl), ?_⟩
    refine Services.touch (s := s1) hsvc1 hk1 (fun v hv => ?_) ?_
    · rw [setUnit_unit_of_ne _ _ hv, hunit]
    · rw [setUnit_unit_self, hunit]
  · exact ⟨h1, hsvc1⟩

theorem sysinitUnit_goes (i : Nat) (s : Init) (h : Fine s) (hi : i < s.nunits) (hsvc : Services s) :
    Goes s (sysinitUnit env i s).2 ∧ Services (sysinitUnit env i s).2 := by
  unfold sysinitUnit
  simp only [bind_apply, cond_apply]
  split
  · rename_i hdue
    have hk : (s.unit i).kind ≠ .service := by
      rw [show (s.unit i).kind = .sysinit from hdue.1]
      decide
    exact unitRunSync_goes env i s h hi hk (h.not_lingering hdue.2) hsvc
  · exact ⟨⟨h, .refl s⟩, hsvc⟩

theorem each_sysinitUnit_goes (is : List Nat) (s : Init) (h : Fine s) (his : ∀ i ∈ is, i < s.nunits)
    (hsvc : Services s) :
    Goes s (each (sysinitUnit env) is s).2 ∧ Services (each (sysinitUnit env) is s).2 := by
  induction is generalizing s with
  | nil => exact ⟨⟨h, .refl s⟩, hsvc⟩
  | cons i is ih =>
    obtain ⟨hgo, hsvc1⟩ := sysinitUnit_goes env i s h (his i mem_cons_self) hsvc
    obtain ⟨hgo', hsvc2⟩ := ih (sysinitUnit env i s).2 hgo.1 (fun j hj => by
      rw [hgo.2.nunits]
      exact his j (mem_cons_of_mem _ hj)) hsvc1
    exact ⟨hgo.trans hgo', hsvc2⟩

theorem startUnit_goes (due : SvcUnit → Bool) (i : Nat) (s : Init) (h : Fine s)
    (hi : i < s.nunits) :
    Goes s (startUnit env due i s).2 := by
  unfold startUnit
  simp only [bind_apply, cond_apply]
  split
  · rename_i hdue
    exact start_goes env i s h hi (h.not_lingering hdue.2)
  · exact ⟨h, .refl s⟩

theorem each_startUnit_goes (due : SvcUnit → Bool) (n : Nat) (s : Init) (h : Fine s)
    (hn : s.nunits = n) : Goes s (each (startUnit env due) (range n) s).2 :=
  each_goes (fun i s hs hn hi => startUnit_goes env due i s hs (hn ▸ hi)) _ s h hn
    fun _ hi => mem_range.mp hi

theorem startAll_goes (s : Init) (h : Fine s) (hsvc : Services s) : Goes s (startAll env s).2 := by
  obtain ⟨h1, hsvc1⟩ := each_sysinitUnit_goes env (range s.nunits) s h
    (fun i hi => mem_range.mp hi) hsvc
  unfold startAll
  simp only [bind_apply]
  generalize (each (sysinitUnit env) (range s.nunits) s).2 = s1 at h1 hsvc1 ⊢
  have hord := (orderServices_inOrder s1).1
  have h2 : Goes s (orderServices s1).2 := h1.trans <| hord.goes h1.1 fun v hv =>
    (hord.state v).resolve_right fun hf => hv (hsvc1 v hf.1)
  generalize (orderServices s1).2 = s2 at h2 ⊢
  have h3 : Goes s
    (each (fun o => each (startUnit env fun u => u.kind = .service ∧ u.order = some o)
      (range s.nunits)) (range s.nunits) s2).2 :=
    h2.trans <| each_goes (fun o s' hs' hn _ => each_startUnit_goes env _ s.nunits s' hs' hn)
      _ s2 h2.1 h2.2.nunits fun _ hi => mem_range.mp hi
  exact h3.trans (each_startUnit_goes env _ s.nunits _ h3.1 h3.2.nunits)

theorem boot_fine (units : List Setup) : Fine (boot env units) := by
  have hpid : ∀ v, ((configured units).unit v).pid = 0 := fun _ => rfl
  refine (startAll_goes env (configured units) ⟨⟨?_, ?_, ?_, ?_⟩, fun _ _ => rfl⟩ fun _ _ => rfl).1
  · exact fun u p hp => absurd hp.1 not_mem_nil
  · exact fun u hne => absurd (hpid u) hne
  · intro l hl u p q hp
    rw [suffix_nil.mp hl] at hp
    exact absurd hp.1 not_mem_nil
  · exact ⟨succ_pos 1, fun u p hp => absurd hp not_mem_nil⟩

/-- No command is for a unit whose process is still being terminated, and a reload leaves the other
units that run in an order. -/
def Careful (s : Init) : Event → Prop
  | .command verb name fresh => ∀ i ∈ findUnit s name, ¬ (s.unit i).Lingering ∧
      (verb = .reload → ∀ c ∈ fresh, ReloadSpares s i c)
  | _ => True

theorem step_fine (s : Init) (e : Event) (h : Fine s) (hc : Careful s e) : Fine (step env s e) := by
  cases e with
  | reapChildren => exact (reapChildren_goes env s h).1.1
  | enforceDependencies => exact (enforceDependencies_goes env s h).1
  | runBackoff => exact (runBackoff_goes env s h).1
  | command verb name fresh =>
    change Fine ((match findUnit s name with
      | none => pure ()
      | some i => runVerb env i fresh verb : StProg Init Unit) s).2
    cases hi : findUnit s name with
    | none => exact h
    | some i =>
      obtain ⟨hl, hspare⟩ := hc i hi
      exact (runVerb_goes env i fresh verb s h (findUnit_lt hi) hl hspare).1

/-- One process at most is live for each unit at every moment, and it is the recorded one. -/
def OneInstance (s : Init) : Prop :=
  Single s.log ∧ ∀ u p, Live s.log u p → (s.unit u).pid = p

/-- A pass of the reaper collects every process of init that has exited. -/
def Reaps (s : Init) (e : Event) : Prop :=
  e = .reapChildren → ∀ u p, .spawned u p ∈ s.log → .exited p ∈ s.log →
    .collected p ∈ (step env s e).log

theorem one_instance_of_each_unit (units : List Setup) (es : List Event)
    (h : Meets (step env) Careful es (boot env units)) :
    Always (step env) OneInstance es (boot env units) ∧
      Meets (step env) (Reaps env) es (boot env units) := by
  have hboot := boot_fine env units
  have hkeep : ∀ s e, Careful s e → Fine s → Fine (step env s e) :=
    fun s e hc hs => step_fine env s e hs hc
  constructor
  · refine Machine.always_of_keeps hkeep (fun s hs => ?_) h hboot
    exact ⟨hs.kept.single, fun u p hp => (hs.kept.held u p ⟨hp.1, hp.2.2⟩).1⟩
  refine Machine.meets_of_keeps hkeep (fun s e _ hs he => ?_) h hboot
  subst he
  exact (reapChildren_goes env s hs).2

def dbAndWeb : List Setup :=
  [⟨ascii "db", .service, ⟨ascii "/bin/db", [], [], [], .never, 0⟩, true, true⟩,
    ⟨ascii "web", .service, ⟨ascii "/bin/web", [], ascii "db", [], .always, 0⟩, true, true⟩]

/-- The first process, pid 2, exits with code 1 when the reaper first looks at it. -/
def dbExits (n : Nat) : Reply :=
  { gap := 1, ok := true, pid := some 0, code := 1, exits := if n = 6 then [2] else [] }

theorem one_instance_of_each_unit_start_again :
    Always (step dbExits) OneInstance [.reapChildren, .command .start (ascii "db") none]
      (boot dbExits dbAndWeb) := by
  have hfind : findUnit (step dbExits (boot dbExits dbAndWeb) .reapChildren) (ascii "db") =
      some 0 := by
    decide +kernel
  have hcareful : Careful (step dbExits (boot dbExits dbAndWeb) .reapChildren)
      (.command .start (ascii "db") none) := by
    intro i hi
    obtain rfl : i = 0 := Option.some.inj (hi.symm.trans hfind)
    exact ⟨by decide +kernel, nofun⟩
  exact (one_instance_of_each_unit dbExits dbAndWeb
    [.reapChildren, .command .start (ascii "db") none] ⟨trivial, hcareful, trivial⟩).1

/-- `web` was failed with its dependency and its process still runs; `start` spawns another. -/
theorem failed_unit_runs_twice :
    ¬ Always (step dbExits) OneInstance
      [.reapChildren, .enforceDependencies, .command .start (ascii "web") none]
      (boot dbExits dbAndWeb) := by
  intro h
  have hlast := h.2.2.2.1 _ (suffix_refl _) 1 3 5 (by decide +kernel) (by decide +kernel)
  cases hlast

end KestrelOS.Supervisor
