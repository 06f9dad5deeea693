import KestrelOS.Supervisor.OneInstance

/-!
# Shutdown

`do_shutdown` of `apps/init.c`: every unit that is up is told to stop, the latest started first,
and the deaths of the grace period go through the supervisor's own reaper. The log shows whom init
has sent SIGTERM; the result records when it looked at the children and when it stopped waiting.
-/

namespace KestrelOS.Supervisor

open StProg Function List Nat

def STOP_GRACE_MS : Nat := 3000

def anyRunning (s : Init) : Bool :=
  (List.range s.nunits).any fun i => (s.unit i).Up ∧ 0 < (s.unit i).pid

def SvcUnit.ToStop (u : SvcUnit) : Prop := u.Up ∧ 0 < u.pid ∧ ¬ u.stopping

instance (u : SvcUnit) : Decidable u.ToStop := inferInstanceAs (Decidable (_ ∧ _ ∧ _))

def laterStarted (unit : Nat → SvcUnit) : Option Nat → Nat → Nat
  | none, i => i
  | some best, i => if (unit best).seq < (unit i).seq then i else best

/-- The inner loop over the indices left; `best` is `none` for the source's -1. -/
def lastStarted (unit : Nat → SvcUnit) : Option Nat → List Nat → Option Nat
  | best, [] => best
  | best, i :: is =>
    if (unit i).ToStop then lastStarted unit (some (laterStarted unit best i)) is
    else lastStarted unit best is

def nextToStop (s : Init) : Option Nat := lastStarted s.unit none (List.range s.nunits)

def SvcUnit.unrespawned (u : SvcUnit) : SvcUnit :=
  { u with config := { u.config with respawn := .never } }

variable (env : Nat → Reply)

/-- The stop loop; a unit is picked once, so it takes no more turns than there are units. -/
def stopAll : Nat → StProg Init Unit
  | 0 => pure ()
  | fuel + 1 => do
    let s ← get
    match nextToStop s with
    | none => pure ()
    | some i => do
      setUnit i .unrespawned
      unitStop env i
      stopAll fuel

/-- The wait: the times at which its turns began. A turn sleeps 50 ms. -/
def graceLoop (deadline : Nat) : Nat → StProg Init (List Nat)
  | 0 => pure []
  | fuel + 1 => do
    let now ← uptimeMs env
    let s ← get
    if now < deadline ∧ anyRunning s then do
      reapChildren env
      sleepMs env 50
      let later ← graceLoop deadline fuel
      pure (now :: later)
    else pure []

structure Shutdown where
  /-- The time after the last signal. -/
  signalled : Nat
  deadline : Nat
  turns : List Nat
  /-- The time after the wait. -/
  ended : Nat
  /-- The warning that some services did not stop in time. -/
  warned : Bool

def doShutdown : StProg Init Shutdown := do
  let s ← get
  stopAll env s.nunits
  let signalled ← get
  let now ← uptimeMs env
  let turns ← graceLoop env (now + STOP_GRACE_MS) (STOP_GRACE_MS / 50 + 1)
  let ended ← get
  reapChildren env
  let s ← get
  pure ⟨signalled.time, now + STOP_GRACE_MS, turns, ended.time, anyRunning s⟩

def ProcEvent.target : ProcEvent → Option Nat
  | .signalled pid => some pid
  | _ => none

/-- The processes that init has sent SIGTERM, the last one first. -/
def signalled (log : List ProcEvent) : List Nat := log.filterMap ProcEvent.target

/-- A shutdown from `s` is final. The wait begins no turn after its deadline, and where system calls
take no time it is over by then. -/
structure Final (s : Init) : Prop where
  unstarted : ∀ u p, .spawned u p ∈ (doShutdown env s).2.log → .spawned u p ∈ s.log
  told : ∀ p, alive (doShutdown env s).2.log p → p ∈ signalled (doShutdown env s).2.log
  reverse : ∃ is : List Nat, signalled (doShutdown env s).2.log =
      (is.map fun i => (s.unit i).pid).reverse ++ signalled s.log ∧
    (∀ i ∈ is, i < s.nunits ∧ (s.unit i).ToStop) ∧ (is.map fun i => (s.unit i).seq).Pairwise (· ≥ ·)
  turns : ∀ t ∈ (doShutdown env s).1.turns, t < (doShutdown env s).1.deadline
  early : (doShutdown env s).1.ended < (doShutdown env s).1.deadline →
    (doShutdown env s).1.warned = false
  inTime : (∀ n, (env n).gap = 0) →
    (doShutdown env s).1.ended ≤ (doShutdown env s).1.signalled + STOP_GRACE_MS

/-- No process of a unit that is up or being stopped is to be replaced, and a live process that has
not been sent SIGTERM is that of a unit that is up. -/
structure Settled (s : Init) : Prop where
  unpended : ∀ i < s.nunits, 0 < (s.unit i).pid → (s.unit i).Up ∨ (s.unit i).stopping →
    ¬ (s.unit i).restartPending
  told : ∀ p, alive s.log p → p ∈ signalled s.log ∨ ∃ i < s.nunits, (s.unit i).ToStop ∧
    (s.unit i).pid = p

private theorem alive_iff {log : List ProcEvent} {p : Nat} :
    alive log p ↔ (∃ u, .spawned u p ∈ log) ∧ .exited p ∉ log := by
  rw [alive, decide_eq_true_iff, any_eq_true]
  refine and_congr_left fun _ => ⟨fun h => ?_, fun h => h.elim fun u hu => ⟨_, hu, by simp⟩⟩
  obtain ⟨e, he, hp⟩ := h
  cases e with
  | spawned u q =>
    cases of_decide_eq_true hp
    exact ⟨u, he⟩
  | exited q => cases hp
  | collected q => cases hp
  | signalled q => cases hp

structure Quiet (s s' : Init) : Prop where
  nunits : s'.nunits = s.nunits
  log : s.log <:+ s'.log
  spawned : ∀ u p, .spawned u p ∈ s'.log → .spawned u p ∈ s.log
  later : s.time ≤ s'.time

namespace Quiet

private theorem refl (s : Init) : Quiet s s := ⟨rfl, suffix_refl _, fun _ _ h => h, le_refl _⟩

private theorem trans {s s' s'' : Init} (h : Quiet s s') (h' : Quiet s' s'') : Quiet s s'' :=
  ⟨h'.nunits.trans h.nunits, h.log.trans h'.log, fun u p hp => h.spawned u p (h'.spawned u p hp),
    le_trans h.later h'.later⟩

private theorem alive {s s' : Init} (h : Quiet s s') {p : Nat} (hp : Supervisor.alive s'.log p) :
    Supervisor.alive s.log p := by
  obtain ⟨⟨u, hu⟩, hx⟩ := alive_iff.mp hp
  exact alive_iff.mpr ⟨⟨u, h.spawned u p hu⟩, fun he => hx (h.log.subset he)⟩

end Quiet

instance : IsTrans Init Quiet := ⟨fun _ _ _ => Quiet.trans⟩

private theorem sys_quiet : Steps Quiet (sys env) := by
  intro s
  obtain ⟨hsuffix, hspawn, -⟩ := foldl_noteExit_spec (env s.calls).exits s.log
  exact ⟨rfl, hsuffix, hspawn, le_add_right _ _⟩

private theorem sleepMs_quiet (ms : Nat) : Steps Quiet (sleepMs env ms) :=
  steps_bind (sys_quiet env) fun _ _ =>
    ⟨rfl, suffix_refl _, fun _ _ h => h, le_add_right _ _⟩

private theorem waitpid_quiet (pid : Nat) : Steps Quiet (waitpid env pid) := by
  refine steps_bind (sys_quiet env) fun _ s => ?_
  obtain ⟨hsuffix, hspawn, -⟩ := noteExit_spec s.log pid
  refine ⟨rfl, hsuffix.trans (suffix_cons _ _), fun u p hp => ?_, le_refl _⟩
  exact hspawn u p ((mem_cons.mp hp).resolve_left (by simp))

private theorem kill_quiet (pid : Nat) : Steps Quiet (kill env pid) :=
  steps_bind (sys_quiet env) fun _ _ => ⟨rfl, suffix_cons _ _,
    fun _ _ hp => (mem_cons.mp hp).resolve_left (by simp), le_refl _⟩

private theorem setUnit_quiet (i : Nat) (f : SvcUnit → SvcUnit) : Steps Quiet (setUnit i f) :=
  fun _ => ⟨rfl, suffix_refl _, fun _ _ h => h, le_refl _⟩

private theorem signalled_noteExit (log : List ProcEvent) (pid : Nat) :
    signalled (noteExit log pid) = signalled log := by
  unfold noteExit
  split <;> rfl

private theorem signalled_sys (s : Init) : signalled (sys env s).2.log = signalled s.log := by
  change signalled ((env s.calls).exits.foldl noteExit s.log) = _
  generalize s.log = log
  induction (env s.calls).exits generalizing log with
  | nil => rfl
  | cons pid pids ih => exact (ih _).trans (signalled_noteExit log pid)

private theorem signalled_waitpid (pid : Nat) (s : Init) :
    signalled (waitpid env pid s).2.log = signalled s.log :=
  (signalled_noteExit _ pid).trans (signalled_sys env s)

section
variable {env} (hgap : ∀ n, (env n).gap = 0)
include hgap

private theorem sys_time (s : Init) : (sys env s).2.time = s.time := by
  change s.time + (env s.calls).gap = s.time
  rw [hgap, add_zero]

private theorem waitpid_time (pid : Nat) (s : Init) : (waitpid env pid s).2.time = s.time :=
  sys_time hgap s

private theorem sleepMs_time (ms : Nat) (s : Init) : (sleepMs env ms s).2.time = s.time + ms :=
  congrArg (· + ms) (sys_time hgap s)

end

private theorem sleepMs_later (ms : Nat) (s : Init) : s.time + ms ≤ (sleepMs env ms s).2.time :=
  Nat.add_le_add_right (Nat.le_add_right _ _) ms

/-- Every unit that is up is being stopped, and none is to be started again. -/
def Closing (s : Init) : Prop := ∀ i, i < s.nunits → 0 < (s.unit i).pid →
  ((s.unit i).Up → (s.unit i).stopping) ∧ ((s.unit i).stopping → ¬ (s.unit i).restartPending)

structure Reaped (s s' : Init) : Prop where
  unit : ∀ v, s'.unit v = s.unit v ∨ (s'.unit v).pid = 0
  quiet : Quiet s s'
  instant : (∀ n, (env n).gap = 0) → s'.time = s.time
  signalled : signalled s'.log = signalled s.log

namespace Reaped

variable {env} {s s' s'' : Init}

private theorem refl (s : Init) : Reaped env s s := ⟨fun _ => .inl rfl, .refl s, fun _ => rfl, rfl⟩

private theorem trans (h : Reaped env s s') (h' : Reaped env s' s'') : Reaped env s s'' := by
  refine ⟨fun v => ?_, h.quiet.trans h'.quiet, fun hgap => (h'.instant hgap).trans (h.instant hgap),
    h'.signalled.trans h.signalled⟩
  obtain hv | hv := h'.unit v
  · rw [hv]
    exact h.unit v
  · exact .inr hv

private theorem closing (h : Reaped env s s') (hs : Closing s) : Closing s' := by
  intro i hi hpos
  obtain hu | hu := h.unit i
  · rw [hu] at hpos ⊢
    exact hs i (h.quiet.nunits ▸ hi) hpos
  · exact absurd hu hpos.ne'

private theorem anyRunning (h : Reaped env s s') (hs : anyRunning s = false) :
    Supervisor.anyRunning s' = false := by
  simp only [Supervisor.anyRunning, any_eq_false, mem_range, decide_eq_true_eq,
    not_and] at hs ⊢
  intro i hi hup hpos
  obtain hu | hu := h.unit i
  · rw [hu] at hup hpos
    exact hs i (h.quiet.nunits ▸ hi) hup hpos
  · exact absurd hu hpos.ne'

end Reaped

private theorem sys_reaped (s : Init) : Reaped env s (sys env s).2 :=
  ⟨fun _ => .inl rfl, sys_quiet env s, fun hgap => sys_time hgap s, signalled_sys env s⟩

private theorem waitpid_reaped (pid : Nat) (s : Init) : Reaped env s (waitpid env pid s).2 :=
  ⟨fun _ => .inl rfl, waitpid_quiet env pid s, fun hgap => waitpid_time hgap pid s,
    signalled_waitpid env pid s⟩

private theorem unitDied_reaped (i : Nat) (code : Int) (s : Init)
    (h : ¬ (s.unit i).restartPending) :
    Reaped env s (unitDied env i code s).2 := by
  have hsys := sys_reaped env s
  have hunit := (uptimeMs_calm env s).unit
  unfold unitDied
  simp only [bind_apply, get_apply]
  generalize (uptimeMs env s).1 = now
  change Reaped env s (uptimeMs env s).2 at hsys
  generalize (uptimeMs env s).2 = s1 at hsys hunit ⊢
  have hpend : ((setUnit i (fun u => { u with pid := 0, exitCode := code }) s1).2.unit
      i).restartPending = (s.unit i).restartPending := by
    rw [setUnit_unit_self, hunit]
  rw [hpend, if_neg h]
  refine hsys.trans ⟨fun v => ?_, ?_, fun _ => rfl, rfl⟩
  · by_cases hv : v = i
    · subst hv
      rw [setUnit_unit_self, (died_pid now _).1, setUnit_unit_self]
      exact .inr rfl
    · rw [setUnit_unit_of_ne _ _ hv, setUnit_unit_of_ne _ _ hv]
      exact .inl rfl
  · exact (setUnit_quiet i _ s1).trans (setUnit_quiet i _ _)

private theorem reapUnit_reaped (i : Nat) (s : Init) (hi : i < s.nunits) (h : Closing s) :
    Reaped env s (reapUnit env i s).2 := by
  unfold reapUnit
  simp only [bind_apply, cond_apply]
  split
  · rename_i hdue
    have hstop : (s.unit i).stopping := hdue.1.elim (h i hi hdue.2).1 id
    have hpend := (h i hi hdue.2).2 hstop
    have hsys : Reaped env s (pidAlive env (s.unit i).pid s).2 := sys_reaped env s
    have hunit := (pidAlive_calm env (s.unit i).pid s).unit
    cases (pidAlive env (s.unit i).pid s).1 with
    | true => exact hsys
    | false =>
      generalize (pidAlive env (s.unit i).pid s).2 = s1 at hsys hunit ⊢
      have hwait := waitpid_reaped env (s.unit i).pid s1
      refine hsys.trans (hwait.trans (unitDied_reaped env i _ _ ?_))
      rw [(waitpid_calm env (s.unit i).pid s1).unit, hunit]
      exact hpend
  · exact .refl s

private theorem each_reapUnit_reaped (is : List Nat) (s : Init) (his : ∀ i ∈ is, i < s.nunits)
    (h : Closing s) : Reaped env s (each (reapUnit env) is s).2 := by
  induction is generalizing s with
  | nil => exact .refl s
  | cons i is ih =>
    have hone := reapUnit_reaped env i s (his i mem_cons_self) h
    apply hone.trans
    apply ih
    · intro j hj
      rw [hone.quiet.nunits]
      exact his j (mem_cons_of_mem _ hj)
    · exact hone.closing h

private theorem reapChildren_reaped (s : Init) (h : Closing s) :
    Reaped env s (reapChildren env s).2 :=
  each_reapUnit_reaped env _ s (fun _ hi => mem_range.mp hi) h

structure Waited (deadline fuel : Nat) (s : Init) : Prop where
  closing : Closing (graceLoop env deadline fuel s).2
  quiet : Quiet s (graceLoop env deadline fuel s).2
  turns : ∀ t ∈ (graceLoop env deadline fuel s).1, t < deadline
  early : deadline ≤ s.time + 50 * fuel → (graceLoop env deadline fuel s).2.time < deadline →
    anyRunning (graceLoop env deadline fuel s).2 = false
  inTime : (∀ n, (env n).gap = 0) → ∀ k, deadline = s.time + 50 * k →
    (graceLoop env deadline fuel s).2.time ≤ deadline
  signalled : signalled (graceLoop env deadline fuel s).2.log = signalled s.log

private theorem graceLoop_waited (deadline fuel : Nat) (s : Init) (h : Closing s) :
    Waited env deadline fuel s := by
  induction fuel generalizing s with
  | zero =>
    refine ⟨h, .refl s, fun t ht => absurd ht not_mem_nil, fun hd hlt => ?_, fun _ k hk => ?_,
      rfl⟩
    · exact absurd hlt (not_lt.mpr hd)
    · exact hk ▸ le_add_right _ _
  | succ fuel ih =>
    have hup : Reaped env s (uptimeMs env s).2 := sys_reaped env s
    have hclose := hup.closing h
    have hnow : (uptimeMs env s).1 = (uptimeMs env s).2.time := rfl
    by_cases hturn : (uptimeMs env s).1 < deadline ∧ anyRunning (uptimeMs env s).2
    · have heq : graceLoop env deadline (fuel + 1) s =
          ((uptimeMs env s).1 :: (graceLoop env deadline fuel (sleepMs env 50
            (reapChildren env (uptimeMs env s).2).2).2).1,
          (graceLoop env deadline fuel (sleepMs env 50
            (reapChildren env (uptimeMs env s).2).2).2).2) := by
        simp only [graceLoop, bind_apply, get_apply, cond_apply, if_pos hturn, pure_apply]
      generalize (uptimeMs env s).2 = s1 at hup hclose hnow hturn heq
      have hreap := hup.trans (reapChildren_reaped env s1 hclose)
      generalize (reapChildren env s1).2 = s2 at hreap heq
      have hsleep := sleepMs_quiet env 50 s2
      have hcalm := sleepMs_calm env 50 s2
      have hlater := sleepMs_later env 50 s2
      have hclose3 : Closing (sleepMs env 50 s2).2 := by
        intro i
        rw [hcalm.unit, hcalm.nunits]
        exact hreap.closing h i
      have hrest := ih _ hclose3
      have hquiet := (hreap.quiet.trans hsleep).trans hrest.quiet
      refine ⟨?_, ?_, ?_, ?_, ?_, ?_⟩ <;> rw [heq]
      · exact hrest.closing
      · exact hquiet
      · intro t ht
        obtain rfl | ht := mem_cons.mp ht
        · exact hturn.1
        · exact hrest.turns t ht
      · intro hd
        apply hrest.early
        have := hreap.quiet.later
        omega
      · intro hgap k hk
        have h2 := hreap.instant hgap
        have h3 := sleepMs_time hgap 50 s2
        have h1 := hup.instant hgap
        apply hrest.inTime hgap (k - 1)
        omega
      · exact hrest.signalled.trans ((signalled_sys env s2).trans hreap.signalled)
    · have heq : graceLoop env deadline (fuel + 1) s = ([], (uptimeMs env s).2) := by
        simp only [graceLoop, bind_apply, get_apply, cond_apply, if_neg hturn, pure_apply]
      refine ⟨?_, ?_, ?_, ?_, ?_, ?_⟩ <;> rw [heq]
      · exact hclose
      · exact hup.quiet
      · exact fun t ht => absurd ht not_mem_nil
      · intro _ hlt
        rw [← Bool.not_eq_true]
        exact fun hrun => hturn ⟨hlt, hrun⟩
      · intro hgap k hk
        rw [hup.instant hgap, hk]
        exact le_add_right _ _
      · exact hup.signalled

/-- `b` is the latest started of `best` and those of `is` that are to be stopped. -/
structure Latest (unit : Nat → SvcUnit) (best : Option Nat) (is : List Nat) (b : Nat) : Prop where
  mem : best = some b ∨ b ∈ is ∧ (unit b).ToStop
  best : ∀ c ∈ best, (unit c).seq ≤ (unit b).seq
  left : ∀ i ∈ is, (unit i).ToStop → (unit i).seq ≤ (unit b).seq

private theorem laterStarted_spec (unit : Nat → SvcUnit) (best : Option Nat) (i : Nat) :
    (laterStarted unit best i = i ∨ best = some (laterStarted unit best i)) ∧
      (unit i).seq ≤ (unit (laterStarted unit best i)).seq ∧
      ∀ c ∈ best, (unit c).seq ≤ (unit (laterStarted unit best i)).seq := by
  cases best with
  | none => exact ⟨.inl rfl, le_refl _, nofun⟩
  | some b =>
    by_cases hlt : (unit b).seq < (unit i).seq
    · rw [laterStarted, if_pos hlt]
      exact ⟨.inl rfl, le_refl _, fun c hc => by cases hc; exact hlt.le⟩
    · rw [laterStarted, if_neg hlt]
      exact ⟨.inr rfl, not_lt.mp hlt, fun c hc => by cases hc; exact le_refl _⟩

variable {unit : Nat → SvcUnit} {best : Option Nat} {is : List Nat} {b : Nat}

private theorem lastStarted_latest (h : lastStarted unit best is = some b) :
    Latest unit best is b := by
  induction is generalizing best with
  | nil => exact ⟨.inl h, fun c hc => by cases h.symm.trans hc; exact le_refl _, nofun⟩
  | cons i is ih =>
    rw [lastStarted] at h
    by_cases hi : (unit i).ToStop
    · rw [if_pos hi] at h
      have hl := ih h
      have hle := hl.best _ rfl
      obtain ⟨hwhich, hseq, hbest⟩ := laterStarted_spec unit best i
      refine ⟨?_, fun c hc => (hbest c hc).trans hle, fun j hj hstop => ?_⟩
      · obtain hb | ⟨hb, hstop⟩ := hl.mem
        · cases hb
          refine hwhich.symm.imp_right fun heq => ?_
          rw [heq]
          exact ⟨mem_cons_self, hi⟩
        · exact .inr ⟨mem_cons_of_mem _ hb, hstop⟩
      · obtain rfl | hj := mem_cons.mp hj
        · exact hseq.trans hle
        · exact hl.left j hj hstop
    · rw [if_neg hi] at h
      have hl := ih h
      refine ⟨hl.mem.imp_right fun hb => ⟨mem_cons_of_mem _ hb.1, hb.2⟩, hl.best, ?_⟩
      intro j hj hstop
      obtain rfl | hj := mem_cons.mp hj
      · exact absurd hstop hi
      · exact hl.left j hj hstop

private theorem lastStarted_none (h : lastStarted unit best is = none) :
    best = none ∧ ∀ i ∈ is, ¬ (unit i).ToStop := by
  induction is generalizing best with
  | nil => exact ⟨h, nofun⟩
  | cons i is ih =>
    rw [lastStarted] at h
    by_cases hi : (unit i).ToStop
    · rw [if_pos hi] at h
      cases (ih h).1
    rw [if_neg hi] at h
    refine ⟨(ih h).1, fun j hj => ?_⟩
    obtain rfl | hj := mem_cons.mp hj
    · exact hi
    · exact (ih h).2 j hj

def toStop (s : Init) : Finset Nat := (Finset.range s.nunits).filter fun i => (s.unit i).ToStop

variable {i : Nat} {s : Init}

private theorem mem_toStop : i ∈ toStop s ↔ i < s.nunits ∧ (s.unit i).ToStop := by
  rw [toStop, Finset.mem_filter, Finset.mem_range]

private theorem nextToStop_none (h : nextToStop s = none) (i : Nat) : i ∉ toStop s := fun hi =>
  (lastStarted_none h).2 i (mem_range.mpr (mem_toStop.mp hi).1) (mem_toStop.mp hi).2

private theorem nextToStop_some (h : nextToStop s = some b) :
    b ∈ toStop s ∧ ∀ i ∈ toStop s, (s.unit i).seq ≤ (s.unit b).seq := by
  have hl := lastStarted_latest h
  have hb := hl.mem.resolve_left nofun
  refine ⟨mem_toStop.mpr ⟨mem_range.mp hb.1, hb.2⟩, fun i hi => ?_⟩
  exact hl.left i (mem_range.mpr (mem_toStop.mp hi).1) (mem_toStop.mp hi).2

def stopOne (i : Nat) : StProg Init Unit := do
  setUnit i .unrespawned
  unitStop env i

private theorem stopAll_succ (fuel : Nat) (s : Init) :
    stopAll env (fuel + 1) s = match nextToStop s with
    | none => ((), s)
    | some i => stopAll env fuel (stopOne env i s).2 := by
  simp only [stopAll, bind_apply]
  cases nextToStop s <;> rfl

/-- Units are told to stop, and nothing else about them changes but the respawn flag. -/
structure Stopped (s s' : Init) : Prop where
  same : ∀ v, (s'.unit v).state = (s.unit v).state ∧ (s'.unit v).pid = (s.unit v).pid ∧
    (s'.unit v).seq = (s.unit v).seq ∧ (s'.unit v).restartPending = (s.unit v).restartPending
  stopping : ∀ v, (s.unit v).stopping → (s'.unit v).stopping
  wasUp : ∀ v, (s'.unit v).stopping → (s.unit v).stopping ∨ (s.unit v).Up
  quiet : Quiet s s'

namespace Stopped

variable {s s' s'' : Init}

private theorem refl (s : Init) : Stopped s s :=
  ⟨fun _ => ⟨rfl, rfl, rfl, rfl⟩, fun _ h => h, fun _ => .inl, .refl s⟩

private theorem trans (h : Stopped s s') (h' : Stopped s' s'') : Stopped s s'' := by
  refine ⟨fun v => ?_, fun v hv => h'.stopping v (h.stopping v hv), fun v hv => ?_,
    h.quiet.trans h'.quiet⟩
  · obtain ⟨hstate, hpid, hseq, hpend⟩ := h'.same v
    rw [hstate, hpid, hseq, hpend]
    exact h.same v
  obtain hstop | hup := h'.wasUp v hv
  · exact h.wasUp v hstop
  · rw [SvcUnit.Up, (h.same v).1] at hup
    exact .inr hup

end Stopped

private theorem stopOne_unit (i : Nat) (s : Init) : (stopOne env i s).2.unit =
    update s.unit i { (s.unit i).unrespawned with stopping := true } := by
  simp only [stopOne, unitStop, bind_apply, cond_apply]
  have hupd : ∀ s : Init, (setUnit i (fun u => { u with stopping := true })
      (setUnit i .unrespawned s).2).2.unit =
        update s.unit i { (s.unit i).unrespawned with stopping := true } := by
    intro s
    simp only [setUnit, modify_apply, update_self, update_idem]
  split
  · exact hupd s
  · exact hupd s

private theorem stopOne_stopped (hi : i ∈ toStop s) : Stopped s (stopOne env i s).2 := by
  have hunit := stopOne_unit env i s
  refine ⟨fun v => ?_, fun v hv => ?_, fun v hv => ?_, ?_⟩
  · rw [hunit]
    by_cases hv : v = i
    · subst hv
      rw [update_self]
      exact ⟨rfl, rfl, rfl, rfl⟩
    · rw [update_of_ne hv]
      exact ⟨rfl, rfl, rfl, rfl⟩
  · rw [hunit]
    by_cases hvi : v = i
    · subst hvi
      rw [update_self]
    · rw [update_of_ne hvi]
      exact hv
  · by_cases hvi : v = i
    · rw [hvi]
      exact .inr (mem_toStop.mp hi).2.1
    · rw [hunit, update_of_ne hvi] at hv
      exact .inl hv
  · apply (setUnit_quiet i .unrespawned s).trans
    apply (setUnit_quiet i (fun u => { u with stopping := true }) _).trans
    simp only [stopOne, unitStop, bind_apply, cond_apply]
    split
    · exact kill_quiet env _ _
    · exact .refl _

private theorem toStop_stopOne (hi : i ∈ toStop s) :
    toStop (stopOne env i s).2 = (toStop s).erase i := by
  have hn := (stopOne_stopped env hi).quiet.nunits
  ext v
  rw [Finset.mem_erase, mem_toStop, mem_toStop, hn, stopOne_unit]
  by_cases hv : v = i
  · subst hv
    rw [update_self]
    exact iff_of_false (fun h => h.2.2.2 rfl) fun h => h.1 rfl
  · rw [update_of_ne hv]
    exact (and_iff_right hv).symm

private theorem signalled_stopOne (hi : i ∈ toStop s) :
    signalled (stopOne env i s).2.log = (s.unit i).pid :: signalled s.log := by
  have hpid : ((setUnit i (fun u => { u with stopping := true })
      (setUnit i .unrespawned s).2).2.unit i).pid = (s.unit i).pid := by
    rw [setUnit_unit_self, setUnit_unit_self]
    rfl
  simp only [stopOne, unitStop, bind_apply, cond_apply]
  rw [hpid, if_pos (mem_toStop.mp hi).2.2.1]
  exact congrArg ((s.unit i).pid :: ·) (signalled_sys env _)

private theorem stopAll_stopped (fuel : Nat) (s : Init) : Stopped s (stopAll env fuel s).2 := by
  induction fuel generalizing s with
  | zero => exact .refl s
  | succ fuel ih =>
    rw [stopAll_succ]
    cases hnext : nextToStop s with
    | none => exact .refl s
    | some i => exact (stopOne_stopped env (nextToStop_some hnext).1).trans (ih _)

/-- The loop signals the units that are to be stopped, each once and the latest started first. -/
private theorem stopAll_signals (fuel : Nat) (s : Init) (hfuel : (toStop s).card ≤ fuel) :
    toStop (stopAll env fuel s).2 = ∅ ∧ ∃ is : List Nat, signalled (stopAll env fuel s).2.log =
        (is.map fun i => (s.unit i).pid).reverse ++ signalled s.log ∧ (∀ i, i ∈ is ↔ i ∈ toStop s) ∧
      (is.map fun i => (s.unit i).seq).Pairwise (· ≥ ·) := by
  induction fuel generalizing s with
  | zero =>
    have hnone := Finset.card_eq_zero.mp (le_zero.mp hfuel)
    exact ⟨hnone, [], rfl, by simp [hnone], .nil⟩
  | succ fuel ih =>
    rw [stopAll_succ]
    cases hnext : nextToStop s with
    | none =>
      have hnone := Finset.eq_empty_of_forall_notMem (nextToStop_none hnext)
      exact ⟨hnone, [], rfl, by simp [hnone], .nil⟩
    | some b =>
      obtain ⟨hb, hlatest⟩ := nextToStop_some hnext
      have herase := toStop_stopOne env hb
      have hcard := Finset.card_erase_lt_of_mem hb
      obtain ⟨hnone, is, hsig, hmem, hseq⟩ := ih (stopOne env b s).2 (by rw [herase]; omega)
      have hsame := (stopOne_stopped env hb).same
      simp only [(hsame _).2.1, (hsame _).2.2.1, signalled_stopOne env hb, herase,
        Finset.mem_erase] at hsig hmem hseq
      refine ⟨hnone, b :: is, ?_, fun i => ?_, ?_⟩
      · rw [hsig, map_cons, reverse_cons, append_assoc, singleton_append]
      · rw [mem_cons, hmem]
        by_cases hib : i = b
        · rw [hib]
          exact iff_of_true (.inl rfl) hb
        · rw [or_iff_right hib, and_iff_right hib]
      · refine pairwise_cons.mpr ⟨fun q hq => ?_, hseq⟩
        obtain ⟨i, hi, rfl⟩ := mem_map.mp hq
        exact hlatest i ((hmem i).mp hi).2

private theorem card_toStop_le (s : Init) : (toStop s).card ≤ s.nunits :=
  (Finset.card_filter_le _ _).trans (Finset.card_range s.nunits).le

private theorem Settled.closing (h : Settled s) :
    Closing (stopAll env s.nunits s).2 := by
  have hstop := stopAll_stopped env s.nunits s
  have hnone := (stopAll_signals env s.nunits s (card_toStop_le s)).1
  intro i hi hpos
  obtain ⟨hstate, hpid, -, hpend⟩ := hstop.same i
  refine ⟨fun hup => ?_, fun hs => ?_⟩
  · by_contra hns
    have hmem : i ∈ toStop (stopAll env s.nunits s).2 := mem_toStop.mpr ⟨hi, hup, hpos, hns⟩
    rw [hnone] at hmem
    exact Finset.notMem_empty i hmem
  · rw [hpend]
    exact h.unpended i (hstop.quiet.nunits ▸ hi) (hpid ▸ hpos) (hstop.wasUp i hs).symm

private theorem doShutdown_eq (s : Init) :
    let s1 := (stopAll env s.nunits s).2
    let s2 := (uptimeMs env s1).2
    let wait := graceLoop env (s2.time + STOP_GRACE_MS) (STOP_GRACE_MS / 50 + 1) s2
    let s4 := (reapChildren env wait.2).2
    doShutdown env s = (⟨s1.time, s2.time + STOP_GRACE_MS, wait.1,
      wait.2.time, anyRunning s4⟩, s4) := rfl

/-- From a state where nothing is to be restarted and every live process that has not been told is
that of a unit that is up, shutdown is final whenever the children exit. -/
theorem shutdown_is_final (s : Init) (h : Settled s) : Final env s := by
  have hclose := h.closing env
  have hstop := stopAll_stopped env s.nunits s
  obtain ⟨-, is, hsent, hmem, hreverse⟩ := stopAll_signals env s.nunits s (card_toStop_le s)
  have heq := doShutdown_eq env s
  dsimp only at heq
  generalize (stopAll env s.nunits s).2 = s1 at hclose hstop hsent heq
  have hup : Reaped env s1 (uptimeMs env s1).2 := sys_reaped env s1
  generalize (uptimeMs env s1).2 = s2 at hup heq
  have hwait := graceLoop_waited env (s2.time + STOP_GRACE_MS) (STOP_GRACE_MS / 50 + 1) s2
    (hup.closing hclose)
  obtain ⟨hclose3, hquiet3, hturns, hover, hinTime, hsent3⟩ := hwait
  generalize (graceLoop env (s2.time + STOP_GRACE_MS) (STOP_GRACE_MS / 50 + 1) s2).1 = turns
    at hturns heq
  generalize (graceLoop env (s2.time + STOP_GRACE_MS) (STOP_GRACE_MS / 50 + 1) s2).2 = s3
    at hclose3 hquiet3 hover hinTime hsent3 heq
  have hreap := reapChildren_reaped env s3 hclose3
  have hquiet := ((hstop.quiet.trans hup.quiet).trans hquiet3).trans hreap.quiet
  have hall := (hreap.signalled.trans (hsent3.trans hup.signalled)).trans hsent
  refine ⟨?_, ?_, ?_, ?_, ?_, ?_⟩ <;> rw [heq]
  · exact hquiet.spawned
  · intro p hp
    rw [hall, mem_append, mem_reverse]
    refine (h.told p (hquiet.alive hp)).symm.imp_left fun ⟨i, hi, hto, hpid⟩ => ?_
    exact mem_map.mpr ⟨i, (hmem i).mpr (mem_toStop.mpr ⟨hi, hto⟩), hpid⟩
  · exact ⟨is, hall, fun i hi => mem_toStop.mp ((hmem i).mp hi), hreverse⟩
  · exact hturns
  · intro hlt
    exact hreap.anyRunning (hover (by unfold STOP_GRACE_MS; omega) hlt)
  · intro hgap
    have hle := hinTime hgap 60 rfl
    rw [hup.instant hgap] at hle
    exact hle

theorem shutdown_is_final_after_boot : Final dbExits (boot dbExits dbAndWeb) := by
  have hlog : (boot dbExits dbAndWeb).log = [.spawned 1 3, .spawned 0 2] := by decide +kernel
  refine shutdown_is_final dbExits _ ⟨by decide +kernel, fun p hp => .inr ?_⟩
  obtain ⟨⟨u, hu⟩, -⟩ := alive_iff.mp hp
  rw [hlog, mem_cons, mem_singleton] at hu
  obtain hu | hu := hu
  · cases hu
    exact ⟨1, by decide +kernel⟩
  · cases hu
    exact ⟨0, by decide +kernel⟩

/-- Every call takes a second, and process 3 exits at the call `n`. -/
def slowly (n : Nat) : Nat → Reply := fun k =>
  { gap := 1000, ok := true, pid := some 0, code := 0, exits := if k = n then [3] else [] }

def webRestarted : Init :=
  step (slowly 11) (boot (slowly 11) dbAndWeb) (.command .restart (ascii "web") none)

/-- Two services that each wait for the other, and one that is disabled. -/
def afterEachOther : List Setup :=
  [⟨ascii "a", .service, ⟨ascii "/bin/a", ascii "b", [], [], .always, 0⟩, true, true⟩,
    ⟨ascii "b", .service, ⟨ascii "/bin/b", ascii "a", [], [], .always, 0⟩, true, true⟩,
    ⟨ascii "c", .service, ⟨ascii "/bin/c", [], [], [], .always, 0⟩, false, true⟩]

/-- `a` is started by hand and then declared failed while it runs, by the reload of `c`. -/
def failedRunning : Init :=
  [.command .start (ascii "a") none,
    .command .reload (ascii "c") (some ⟨ascii "/bin/c", [], [], [], .always, 0⟩)].foldl
    (step (slowly 99)) (boot (slowly 99) afterEachOther)

/-- A restart that is pending brings the service back during the shutdown, and a unit that is failed
while its process runs is never told to stop. -/
theorem shutdown_restarts_and_forgets :
    ¬ Final (slowly 11) webRestarted ∧ ¬ Final (slowly 99) failedRunning := by
  constructor
  · intro h
    have hnew := h.unstarted 1 4 (by decide +kernel)
    revert hnew
    decide +kernel
  · intro h
    have htold := h.told 2 (by decide +kernel)
    revert htold
    decide +kernel

end KestrelOS.Supervisor
