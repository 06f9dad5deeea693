import KestrelOS.Proc.OneCpu

/-!
# Stop, continue and kill

A task that is stopped, or has taken a stop signal and not yet written its state, holds no SIGKILL
and no SIGCONT, except for a SIGCONT whose sender has still to wake it.
-/

namespace KestrelOS.Proc

open List Function

open Machine (Meets Always)

variable {n : Nat}

/-- A stop signal has been taken from the pending set and `TASK_STOPPED` is still to be written. -/
def Task.StopTaken (t : Task) : Prop := Sec.stop ∈ t.code

/-- Some `signal_send(t, SIGCONT)` has queued the signal and not yet woken the task. -/
def WakeDue (k : Kernel n) (t : Nat) : Prop :=
  ∃ s, s < k.nextPid ∧ Sec.signalWake t true ∈ (k.task s).code

/-- A stopped task has left its CPU with a SIGCONT or SIGKILL that nobody will act on. -/
def Lost (k : Kernel n) (t : Nat) : Prop :=
  (k.task t).state = .stopped ∧ OffCpu k t ∧
    (SIGKILL ∈ (k.task t).sigPending ∨ (SIGCONT ∈ (k.task t).sigPending ∧ ¬ WakeDue k t))

/-- No SIGCONT or SIGKILL is queued between the taking of a stop signal and its write, no SIGKILL
for a stopped task. -/
def MayQueue (t : Task) (sig : Nat) : Prop :=
  (sig = SIGKILL ∨ sig = SIGCONT → ¬ t.StopTaken) ∧ (sig = SIGKILL → t.state ≠ .stopped)

/-- The queueing sections respect `MayQueue`, and no stop signal is taken past a blocked SIGCONT. -/
def Sec.Mindful (k : Kernel n) (p : Nat) : Sec → Prop
  | .signalPid pid sig _ _ => MayQueue (k.task pid) sig
  | .queueTask t sig => MayQueue (k.task t) sig
  | .dequeue => ∀ sig ∈ nextPending (k.task p), defaultStops sig →
      ¬ (SIGCONT ∈ (k.task p).sigPending ∧ SIGCONT ∈ (k.task p).sigMask)
  | _ => True

def Mindful (k : Kernel n) : Event n → Prop
  | .run c _ => ∀ sec ∈ k.next c, sec.Mindful k (k.stack c)
  | _ => True

instance (t : Task) : Decidable t.StopTaken := inferInstanceAs (Decidable (_ ∈ _))

instance (t : Task) (sig : Nat) : Decidable (MayQueue t sig) := inferInstanceAs (Decidable (_ ∧ _))

instance (k : Kernel n) (p : Nat) : (sec : Sec) → Decidable (sec.Mindful k p) := by
  rintro ⟨⟩ <;> delta Sec.Mindful <;> infer_instance

instance (k : Kernel n) (t : Nat) : Decidable (WakeDue k t) :=
  inferInstanceAs (Decidable (∃ s, s < k.nextPid ∧ _))

instance (k : Kernel n) (t : Nat) : Decidable (Lost k t) := inferInstanceAs (Decidable (_ ∧ _))

instance (k : Kernel n) : (e : Event n) → Decidable (Mindful k e) := by
  rintro ⟨⟩ <;> delta Mindful <;> infer_instance

/-- Neither of the two signals that a stop must not swallow. -/
def Clear (pending : Finset Nat) : Prop := SIGKILL ∉ pending ∧ SIGCONT ∉ pending

structure Minded (k : Kernel n) : Prop where
  stopped : ∀ t, (k.task t).state = .stopped →
    SIGKILL ∉ (k.task t).sigPending ∧ (SIGCONT ∈ (k.task t).sigPending → WakeDue k t)
  taken : ∀ t, (k.task t).StopTaken → Clear (k.task t).sigPending
  made : (∀ c, k.stack c < k.nextPid ∧ k.current c < k.nextPid) ∧ ∀ t ∈ k.runq, t < k.nextPid

/-- From `k` to `k'`, while task `p` is in `sec` and will go on with `more`: what `Minded` needs. -/
structure Minds (k k' : Kernel n) (p : Nat) (sec : Sec) (more : List Sec) : Prop where
  code : ∀ t, (k'.task t).code = (k.task t).code
  stopped : ∀ t, (k'.task t).state = .stopped → SIGKILL ∉ (k'.task t).sigPending ∧
    (SIGCONT ∈ (k'.task t).sigPending →
      Sec.signalWake t true ∈ more ∨ (WakeDue k t ∧ sec ≠ .signalWake t true))
  taken : ∀ t, (k.task t).StopTaken ∨ (t = p ∧ Sec.stop ∈ more) → Clear (k'.task t).sigPending
  made : k'.nextPid = k.nextPid ∧ (∀ c, k'.stack c < k.nextPid ∧ k'.current c < k.nextPid) ∧
    ∀ t ∈ k'.runq, t < k.nextPid

/-- What a section does to a task that it neither sends a signal nor stops. -/
structure Quiet (t t' : Task) : Prop where
  code : t'.code = t.code
  pending : t'.sigPending ⊆ t.sigPending
  state : t'.state = .stopped → t.state = .stopped

theorem Quiet.refl (t : Task) : Quiet t t := ⟨rfl, subset_rfl, id⟩

variable {t : Task} {c : Fin n} {now sig : Nat} {acts : List (Act n)}

theorem Quiet.trans {u v : Task} (h : Quiet t u) (h' : Quiet u v) : Quiet t v :=
  ⟨h'.code.trans h.code, h'.pending.trans h.pending, fun hs => h.state (h'.state hs)⟩

theorem Quiet.of_state {t' : Task} (hcode : t'.code = t.code) (hpend : t'.sigPending = t.sigPending)
    (hs : t'.state ≠ .stopped) : Quiet t t' := ⟨hcode, hpend ▸ subset_rfl, fun h => absurd h hs⟩

theorem quiet_wake (resume : Bool) (t : Task) : Quiet t (wake resume t) := by
  unfold wake
  split
  · exact .of_state rfl rfl TaskState.noConfusion
  · exact .refl t

theorem wake_true_state (t : Task) : (wake true t).state ≠ .stopped := by
  unfold wake
  split
  · exact TaskState.noConfusion
  · rename_i h
    exact fun hs => h (.inr ⟨rfl, hs⟩)

theorem queueSignal_pending (sig : Nat) (t : Task) :
    (queueSignal sig t).sigPending ⊆ insert sig t.sigPending := by
  simp only [queueSignal]
  split
  · exact Finset.sdiff_subset
  · exact subset_rfl

theorem quiet_leave (t : Task) : Quiet t t.leave := by
  unfold Task.leave
  split
  · exact .of_state rfl rfl TaskState.noConfusion
  · exact .refl t

theorem quiet_modify {k : Kernel n} {t : Nat} {f : Task → Task}
    (hf : Quiet (k.task t) (f (k.task t)))
    (u : Nat) : Quiet (k.task u) ((k.modify t f).task u) := by
  by_cases hu : u = t
  · subst hu
    rw [modify_task_self]
    exact hf
  · rw [modify_task_of_ne _ _ hu]
    exact .refl _

theorem quiet_wakeSleepers (k : Kernel n) (now t : Nat) :
    Quiet (k.task t) ((wakeSleepersLocked now k).task t) := by
  obtain ht | ⟨-, -, ht⟩ := wakeSleepersLocked_task k now t
  · rw [ht]
    exact .refl _
  · rw [ht]
    exact .of_state rfl rfl TaskState.noConfusion

theorem quiet_schedule {k k' : Kernel n} (h : scheduleLocked k c now = some (k', acts)) (t : Nat) :
    Quiet (k.task t) (k'.task t) := by
  have hready : Quiet (k.task t) ((readied k c now).task t) :=
    quiet_wakeSleepers (reapLocked _ k) now t
  obtain ⟨pick, -, -, ⟨-, rfl⟩ | ⟨hne, rfl⟩⟩ := scheduleLocked_cases h
  · exact hready
  apply hready.trans
  by_cases hp : t = pick
  · rw [hp, handOver_task_pick _ _ hne]
    exact .of_state rfl rfl TaskState.noConfusion
  by_cases hprev : t = k.current c
  · rw [hprev, handOver_task_prev _ _ hne]
    exact quiet_leave _
  · rw [handOver_task_of_ne _ _ hp hprev]
    exact .refl _

theorem made_schedule {k k' : Kernel n} (h : scheduleLocked k c now = some (k', acts)) {m : Nat}
    (hstack : ∀ c, k.stack c < m ∧ k.current c < m) (hrunq : ∀ t ∈ k.runq, t < m) :
    k'.nextPid = k.nextPid ∧ (∀ c, k'.stack c < m ∧ k'.current c < m) ∧ ∀ t ∈ k'.runq, t < m := by
  obtain ⟨pick, hpick, -, ⟨-, rfl⟩ | ⟨hne, rfl⟩⟩ := scheduleLocked_cases h
  · exact ⟨rfl, hstack, hrunq⟩
  refine ⟨rfl, fun c' => ⟨(hstack c').1, ?_⟩, hrunq⟩
  change update k.current c pick c' < m
  by_cases hc : c' = c
  · rw [hc, update_self]
    obtain ⟨hmem, -⟩ | ⟨heq, -⟩ := choose_spec hpick
    · exact hrunq pick hmem
    · exact absurd heq hne
  · rw [update_of_ne hc]
    exact (hstack c').2

theorem stop_not_mem_taskExit (t : Task) (code : Nat) : Sec.stop ∉ taskExit t code := by
  unfold taskExit
  split <;> simp

theorem stop_mem_deliver (h : Sec.stop ∈ deliver t sig) : defaultStops sig := by
  simp only [deliver] at h
  split at h
  · simp at h
  split at h
  · split at h
    · assumption
    · exact absurd h (stop_not_mem_taskExit t _)
  · simp at h

theorem nextPending_spec (h : nextPending t = some sig) {s : Nat} (hs : 0 < s) (hlt : s < sig)
    (hp : s ∈ t.sigPending) : s ∈ t.sigMask ∧ s ∉ unblockableMask := by
  have hspec := (find?_range'_eq_some.mp h).2.2 s hs hlt
  simp only [hp, true_and, Bool.not_eq_true', decide_eq_false_iff_not, not_or, not_not] at hspec
  exact hspec

theorem clear_of_nextPending (h : nextPending t = some sig) (hstop : defaultStops sig)
    (hblock : ¬ (SIGCONT ∈ t.sigPending ∧ SIGCONT ∈ t.sigMask)) : Clear t.sigPending := by
  have hsig : SIGCONT < sig := by
    simp only [defaultStops, decide_eq_true_eq] at hstop
    obtain rfl | rfl | rfl | rfl := hstop <;> decide
  constructor
  · intro hk
    have hlt : SIGKILL < sig := Nat.lt_trans (by decide) hsig
    exact (nextPending_spec h (by decide) hlt hk).2 (by decide)
  · intro hk
    exact hblock ⟨hk, (nextPending_spec h (by decide) hsig hk).1⟩

theorem Clear.subset {a b : Finset Nat} (h : Clear b) (hab : a ⊆ b) : Clear a :=
  ⟨fun hk => h.1 (hab hk), fun hk => h.2 (hab hk)⟩

namespace Minded

variable {k k' : Kernel n} {p : Nat} {sec : Sec} {more : List Sec}

theorem quiet (h : Minded k) (hq : ∀ t, Quiet (k.task t) (k'.task t))
    (hmore : Sec.stop ∈ more → Clear (k.task p).sigPending)
    (hwake : ∀ t, sec = .signalWake t true → (k'.task t).state ≠ .stopped)
    (hmade : k'.nextPid = k.nextPid ∧ (∀ c, k'.stack c < k.nextPid ∧ k'.current c < k.nextPid) ∧
      ∀ t ∈ k'.runq, t < k.nextPid) : Minds k k' p sec more := by
  refine ⟨fun t => (hq t).code, ?_, ?_, hmade⟩
  · intro t hs
    have ht := h.stopped t ((hq t).state hs)
    exact ⟨fun hk => ht.1 ((hq t).pending hk), fun hc => .inr
      ⟨ht.2 ((hq t).pending hc), fun hsec => hwake t hsec hs⟩⟩
  · intro t ht
    obtain ht | ⟨rfl, ht⟩ := ht
    · exact (h.taken t ht).subset (hq t).pending
    · exact (hmore ht).subset (hq t).pending

variable {t : Nat} {f : Task → Task}

theorem quietly (h : Minded k) (hf : Quiet (k.task t) (f (k.task t)))
    (hmore : Sec.stop ∈ more → Clear (k.task p).sigPending) (hsec : ∀ u, sec ≠ .signalWake u true) :
    Minds k (k.modify t f) p sec more :=
  h.quiet (quiet_modify hf) hmore (fun u hu => absurd hu (hsec u)) ⟨rfl, h.made.1, h.made.2⟩

theorem queued (h : Minded k) {sig : Nat} (hmay : MayQueue (k.task t) sig)
    (hcode : (f (k.task t)).code = (k.task t).code)
    (hpend : (f (k.task t)).sigPending ⊆ insert sig (k.task t).sigPending)
    (hstate : (f (k.task t)).state = .stopped → (k.task t).state = .stopped ∧
      (sig = SIGCONT → Sec.signalWake t true ∈ more)) (hmore : Sec.stop ∉ more)
    (hsec : ∀ u, sec ≠ .signalWake u true) :
    Minds k (k.modify t f) p sec more := by
  refine ⟨fun u => modify_field Task.code k t f hcode u, ?_, ?_, rfl, h.made.1, h.made.2⟩
  · intro u hs
    by_cases hu : u = t
    · subst hu
      rw [modify_task_self] at hs ⊢
      obtain ⟨hst, hcont⟩ := hstate hs
      have hold := h.stopped u hst
      constructor
      · intro hk
        obtain heq | hk := Finset.mem_insert.mp (hpend hk)
        · exact hmay.2 heq.symm hst
        · exact hold.1 hk
      · intro hc
        obtain heq | hc := Finset.mem_insert.mp (hpend hc)
        · exact .inl (hcont heq.symm)
        · exact .inr ⟨hold.2 hc, hsec u⟩
    · rw [modify_task_of_ne _ _ hu] at hs ⊢
      exact ⟨(h.stopped u hs).1, fun hc => .inr ⟨(h.stopped u hs).2 hc, hsec u⟩⟩
  · intro u hu
    obtain hu | ⟨-, hu⟩ := hu
    · by_cases hut : u = t
      · subst hut
        rw [modify_task_self]
        constructor
        · intro hk
          obtain heq | hk := Finset.mem_insert.mp (hpend hk)
          · exact hmay.1 (.inl heq.symm) hu
          · exact (h.taken u hu).1 hk
        · intro hk
          obtain heq | hk := Finset.mem_insert.mp (hpend hk)
          · exact hmay.1 (.inr heq.symm) hu
          · exact (h.taken u hu).2 hk
      · rw [modify_task_of_ne _ _ hut]
        exact h.taken u hu
    · exact absurd hu hmore

theorem exec (h : Minded k) {c : Fin n} {inp : Input} {acts : List (Act n)}
    (hnext : k.next c = some sec) (hm : sec.Mindful k (k.stack c))
    (he : exec k c inp (k.stack c) sec = some (k', more, acts)) :
    Minds k k' (k.stack c) sec more := by
  obtain ⟨⟨rest, hcode⟩, -, -⟩ := next_some hnext
  have hsame : ∀ (more : List Sec), Sec.stop ∉ more → (∀ u, sec ≠ .signalWake u true) →
      Minds k k (k.stack c) sec more := fun _ hmore hsec =>
    h.quiet (fun _ => .refl _) (fun hs => absurd hs hmore) (fun u hu => absurd hu (hsec u))
      ⟨rfl, h.made.1, h.made.2⟩
  cases sec with
  | signalPid pid sig uid check =>
    cases he
    obtain hk | ⟨-, hk⟩ := taskSignalPid_cases k pid sig uid check
    · rw [hk]
      exact hsame _ (by simp) (by simp)
    rw [hk]
    refine h.queued hm (quiet_wake _ _).code ?_ ?_ (by simp) (by simp)
    · exact ((quiet_wake _ _).pending).trans (queueSignal_pending _ _)
    intro hs
    refine ⟨(quiet_wake _ (queueSignal sig (k.task pid))).state hs, fun hcont => ?_⟩
    rw [hcont] at hs
    exact absurd hs (wake_true_state _)
  | wakeSleepers =>
    cases he
    exact h.quiet (quiet_wakeSleepers k _) (by simp) (by simp) ⟨rfl, h.made.1, h.made.2⟩
  | signalWake t resume =>
    cases he
    refine h.quiet (quiet_modify (quiet_wake _ _)) (by simp) ?_ ⟨rfl, h.made.1, h.made.2⟩
    intro u hu
    cases hu
    rw [modify_task_self]
    exact wake_true_state _
  | schedule =>
    obtain ⟨⟨k1, acts1⟩, hs, heq⟩ := Option.map_eq_some_iff.mp he
    cases heq
    exact h.quiet (quiet_schedule hs) (by simp) (by simp) (made_schedule hs h.made.1 h.made.2)
  | sleepTicks ticks =>
    obtain ⟨⟨k1, acts1⟩, hs, heq⟩ := Option.map_eq_some_iff.mp he
    cases heq
    have hq := quiet_modify (k := k) (t := k.current c) (f := Task.sleepTill (inp.now + ticks))
      (.of_state rfl rfl TaskState.noConfusion)
    exact h.quiet (fun t => (hq t).trans (quiet_schedule hs t)) (by simp) (by simp)
      (made_schedule hs h.made.1 h.made.2)
  | exit code =>
    obtain ⟨⟨k1, acts1⟩, hs, heq⟩ := Option.map_eq_some_iff.mp he
    cases heq
    have hq := quiet_modify (k := k) (t := k.current c) (f := Task.die code)
      (.of_state rfl rfl TaskState.noConfusion)
    exact h.quiet (fun t => (hq t).trans (quiet_schedule hs t)) (by simp) (by simp)
      (made_schedule hs h.made.1 fun t ht => h.made.2 t (mem_runqRemove ht))
  | kill t =>
    simp only [Proc.exec] at he
    split at he
    · cases he
      exact hsame _ (by simp) (by simp)
    cases he
    have hmark : Quiet (k.task t) { k.task t with killPending := true } := ⟨rfl, subset_rfl, id⟩
    exact h.quietly (hmark.trans (quiet_wake false _)) (by simp) (by simp)
  | queueTask t sig =>
    cases he
    obtain hk | ⟨-, hk⟩ := signalQueueTask_cases k t sig
    · rw [hk]
      exact hsame _ (by simp) (by simp)
    rw [hk]
    refine h.queued hm rfl (queueSignal_pending _ _) ?_ (by simp) (by simp)
    intro hs
    exact ⟨hs, fun hcont => by simp [hcont]⟩
  | dequeue =>
    simp only [Proc.exec] at he
    split at he
    · cases he
      exact hsame _ (by simp) (by simp)
    rename_i sig hsig
    cases he
    have htaken : nextPending (k.task (k.stack c)) = some sig := by
      split at hsig
      · exact hsig
      · cases hsig
    refine h.quietly ⟨rfl, Finset.erase_subset _ _, id⟩ (fun hstop => ?_) (by simp)
    have hstops := stop_mem_deliver hstop
    exact clear_of_nextPending htaken hstops (hm sig htaken hstops)
  | stop =>
    cases he
    have htaken : (k.task (k.stack c)).StopTaken := by
      rw [Task.StopTaken, hcode]
      exact mem_cons_self
    refine ⟨modify_field Task.code k _ _ rfl, ?_, ?_, rfl, h.made.1, h.made.2⟩
    · intro t hs
      by_cases ht : t = k.stack c
      · rw [ht, modify_task_self]
        have hclear := h.taken _ htaken
        exact ⟨hclear.1, fun hcont => absurd hcont hclear.2⟩
      · rw [modify_task_of_ne _ _ ht] at hs ⊢
        exact ⟨(h.stopped t hs).1, fun hcont => .inr ⟨(h.stopped t hs).2 hcont, Sec.noConfusion⟩⟩
    · intro t ht
      rw [modify_field Task.sigPending k _ (·.become .stopped) rfl]
      exact h.taken t (ht.resolve_right (by simp))
  | frame sig action =>
    simp only [Proc.exec] at he
    split at he
    · cases he
      exact hsame _ (stop_not_mem_taskExit _ _) (by simp)
    · cases he
      exact h.quietly ⟨rfl, subset_rfl, id⟩ (by simp) (by simp)
  | sigaction sig action =>
    simp only [Proc.exec] at he
    split at he
    · cases he
      exact h.quietly ⟨rfl, subset_rfl, id⟩ (by simp) (by simp)
    · cases he
      exact hsame _ (by simp) (by simp)
  | sigprocmask mask =>
    cases he
    exact h.quietly ⟨rfl, subset_rfl, id⟩ (by simp) (by simp)

theorem advance {rest : List Sec} (hm : Minds k k' p sec more)
    (hcode : (k.task p).code = sec :: rest)
    (hp : p < k.nextPid) : Minded (k'.modify p fun t => { t with code := more ++ rest }) := by
  obtain ⟨hcode', hstopped, htaken, hpid, hstack, hrunq⟩ := hm
  have hstate := modify_field Task.state k' p (fun t => { t with code := more ++ rest }) rfl
  have hpend := modify_field Task.sigPending k' p (fun t => { t with code := more ++ rest }) rfl
  refine ⟨?_, ?_, fun c => hpid ▸ hstack c, fun t ht => hpid ▸ hrunq t ht⟩
  · intro t hs
    rw [hstate] at hs
    rw [hpend]
    refine ⟨(hstopped t hs).1, fun hc => ?_⟩
    obtain hmem | ⟨⟨s, hlt, hmem⟩, hsec⟩ := (hstopped t hs).2 hc
    · refine ⟨p, hpid ▸ hp, ?_⟩
      rw [modify_task_self]
      exact mem_append_left _ hmem
    refine ⟨s, hpid ▸ hlt, ?_⟩
    by_cases hsp : s = p
    · rw [hsp, hcode] at hmem
      rw [hsp, modify_task_self]
      exact mem_append_right _ ((mem_cons.mp hmem).resolve_left hsec.symm)
    · rw [modify_task_of_ne _ _ hsp, hcode']
      exact hmem
  · intro t ht
    rw [hpend]
    apply htaken
    by_cases htp : t = p
    · subst htp
      rw [Task.StopTaken, modify_task_self] at ht
      obtain ht | ht := mem_append.mp ht
      · exact .inr ⟨rfl, ht⟩
      refine .inl ?_
      rw [Task.StopTaken, hcode]
      exact mem_cons_of_mem _ ht
    · rw [modify_task_of_ne _ _ htp, Task.StopTaken, hcode'] at ht
      exact .inl ht

theorem push (h : Minded k) {code : List Sec} (hcode : Sec.stop ∉ code) :
    Minded (k.push t code) := by
  have hstate := modify_field Task.state k t (fun u => { u with code := code ++ u.code }) rfl
  have hpend := modify_field Task.sigPending k t (fun u => { u with code := code ++ u.code }) rfl
  have hgrow : ∀ u sec', sec' ∈ (k.task u).code → sec' ∈ ((k.push t code).task u).code := by
    intro u sec' hu
    by_cases hut : u = t
    · subst hut
      rw [Kernel.push, modify_task_self]
      exact mem_append_right _ hu
    · rw [Kernel.push, modify_task_of_ne _ _ hut]
      exact hu
  refine ⟨?_, ?_, h.made⟩
  · intro u hs
    rw [Kernel.push, hstate] at hs
    rw [Kernel.push, hpend]
    refine ⟨(h.stopped u hs).1, fun hc => ?_⟩
    obtain ⟨s, hlt, hmem⟩ := (h.stopped u hs).2 hc
    exact ⟨s, hlt, hgrow s _ hmem⟩
  · intro u hu
    rw [Kernel.push, hpend]
    apply h.taken
    by_cases hut : u = t
    · subst hut
      rw [Kernel.push, Task.StopTaken, modify_task_self] at hu
      exact (mem_append.mp hu).resolve_left hcode
    · rw [Kernel.push, modify_task_of_ne _ _ hut] at hu
      exact hu

theorem create (h : Minded k) (c : Fin n) (user : Bool) : Minded (kthreadCreate k c user) := by
  have hold : ∀ t, t ≠ k.nextPid → (kthreadCreate k c user).task t = k.task t := fun _ ht =>
    kthreadCreate_task_of_ne k c user ht
  have hnew := kthreadCreate_task_self k c user
  refine ⟨?_, ?_, fun c' => ?_, ?_⟩
  · intro t hs
    by_cases ht : t = k.nextPid
    · rw [ht, hnew] at hs
      cases hs
    rw [hold t ht] at hs ⊢
    refine ⟨(h.stopped t hs).1, fun hc => ?_⟩
    obtain ⟨s, hlt, hmem⟩ := (h.stopped t hs).2 hc
    exact ⟨s, hlt.trans (Nat.lt_succ_self _), by rwa [hold s hlt.ne]⟩
  · intro t hs
    by_cases ht : t = k.nextPid
    · rw [ht, hnew] at hs
      cases hs
    · rw [hold t ht] at hs ⊢
      exact h.taken t hs
  · exact ⟨(h.made.1 c').1.trans (Nat.lt_succ_self _), (h.made.1 c').2.trans (Nat.lt_succ_self _)⟩
  · intro t ht
    obtain rfl | ht := mem_runqInsert ht
    · exact Nat.lt_succ_self _
    · exact (h.made.2 t ht).trans (Nat.lt_succ_self _)

theorem step (h : Minded k) (e : Event n) (hm : Mindful k e) : Minded (step k e) := by
  refine effect_cases (P := fun k' _ => Minded k') e h (fun c code hcode => h.push ?_)
    (fun c inp sec k' more acts he hnext hex => ?_)
      (fun c hlock => ?_) fun c user => h.create c user
  · obtain ⟨call, rfl⟩ | ⟨quantumOver, rfl⟩ := hcode
    · cases call with
      | exit code => exact stop_not_mem_taskExit _ _
      | checkKill =>
        simp only [Call.code]
        split
        · exact stop_not_mem_taskExit _ _
        · simp
      | _ => simp [Call.code]
    · unfold preempt
      split
      · exact stop_not_mem_taskExit _ _
      · cases quantumOver <;> split <;> simp
  · subst he
    obtain ⟨⟨rest, hcode⟩, -, -⟩ := next_some hnext
    rw [hcode]
    exact advance (h.exec hnext (hm sec hnext) hex) hcode (h.made.1 c).1
  · refine ⟨h.stopped, h.taken, fun c' => ⟨?_, (h.made.1 c').2⟩, h.made.2⟩
    change update k.stack c (k.current c) c' < k.nextPid
    by_cases hc : c' = c
    · rw [hc, update_self]
      exact (h.made.1 c).2
    · rw [update_of_ne hc]
      exact (h.made.1 c').1

theorem not_lost (h : Minded k) (t : Nat) : ¬ Lost k t := by
  rintro ⟨hs, -, hk | ⟨hc, hdue⟩⟩
  · exact (h.stopped t hs).1 hk
  · exact hdue ((h.stopped t hs).2 hc)

end Minded

theorem minded_boot (n : Nat) : Minded (boot n) := by
  have hone := oneCpu_boot n
  refine ⟨?_, ?_, fun c => ⟨hone.made.1 c, hone.made.1 c⟩, hone.made.2.2⟩
  · intro t hs
    change (if t = 1 then TaskState.runnable else .running) = .stopped at hs
    split at hs <;> cases hs
  · intro t ht
    cases ht

/-- A SIGCONT or SIGKILL that `task_signal_pid` lets through to a task that is stopped, or about to
write that it is, makes the task runnable. -/
def Answered (k : Kernel n) (e : Event n) : Prop :=
  ∀ c inp pid sig uid check, e = .run c inp → k.next c = some (.signalPid pid sig uid check) →
    signalPermitted k pid uid check → sig = SIGCONT ∨ sig = SIGKILL →
    (k.task pid).state = .stopped ∨ (k.task pid).StopTaken → ((step k e).task pid).state = .runnable

theorem answered_of_mindful {k : Kernel n} {e : Event n} (hm : Mindful k e) : Answered k e := by
  rintro c inp pid sig uid check rfl hnext hperm hsig hst
  have hmay : MayQueue (k.task pid) sig := hm _ hnext
  have hcont : sig = SIGCONT ∧ (k.task pid).state = .stopped := by
    have hs := hst.resolve_right (hmay.1 hsig.symm)
    exact ⟨hsig.resolve_right fun hk => hmay.2 hk hs, hs⟩
  have hstate : ((taskSignalPid k pid sig uid check).task pid).state = .runnable := by
    have hq : signalQueueTask k pid sig = (k.modify pid (queueSignal sig), true) := by
      rw [signalQueueTask, if_pos ⟨by rw [hcont.1]; decide, by rw [hcont.2]; decide⟩]
    have hgo : signalPermitted k pid uid check ∧ sig ≠ 0 ∧ (signalQueueTask k pid sig).2 :=
      ⟨hperm, by rw [hcont.1]; decide, by rw [hq]⟩
    rw [taskSignalPid, if_pos hgo, hq, modify_modify, modify_task_self, wake,
      if_pos (.inr ⟨decide_eq_true hcont.1, hcont.2⟩)]
    rfl
  simp only [step, effect, hnext, exec]
  exact (modify_field Task.state _ _ _ rfl pid).trans hstate

/-- In a run where no SIGCONT or SIGKILL is queued between the taking of a stop signal and its
write, no SIGKILL for a stopped task, and no stop signal is taken past a blocked SIGCONT, no
stopped task holds a signal that should have moved it. -/
theorem stop_loses_no_signal (n : Nat) (es : List (Event n)) (h : Meets step Mindful es (boot n)) :
    Always step (fun k => ∀ t, ¬ Lost k t) es (boot n) ∧ Meets step Answered es (boot n) := by
  have hkeep : ∀ (k : Kernel n) e, Mindful k e → Minded k → Minded (step k e) :=
    fun k e hm hk => hk.step e hm
  constructor
  · exact Machine.always_of_keeps hkeep (fun k hk => hk.not_lost) h (minded_boot n)
  · exact Machine.meets_of_keeps hkeep (fun k e hm _ => answered_of_mindful hm) h (minded_boot n)

theorem stop_loses_no_signal_stop_and_continue :
    Always step (fun k => ∀ t, ¬ Lost k t) (stopAndContinue true) (boot 2) ∧
      Meets step Answered (stopAndContinue true) (boot 2) :=
  stop_loses_no_signal 2 (stopAndContinue true) (by decide +kernel)

/-- Task 3 takes SIGSTOP; `early` is sent before it writes its state, `late` after it has left. -/
def stopWith (early late : List Nat) : List (Event 2) :=
  let send (sig : Nat) : List (Event 2) :=
    [.call 0 (.signalPid 3 sig 0 true), .run 0 ⟨0, 0, true⟩]
  startUser ++ send SIGSTOP ++ [.preempt 1 false, .run 1 ⟨0, 0, true⟩] ++ early.flatMap send ++
    [.run 1 ⟨0, 0, true⟩, .run 1 ⟨0, 0, true⟩, .switch 1] ++ late.flatMap send

/-- A SIGCONT between the taking of SIGSTOP and the write is lost, and SIGKILL does not wake a
stopped task. -/
theorem stop_swallows_signals :
    Lost (Machine.run step (stopWith [SIGCONT] []) (boot 2)) 3 ∧
      Lost (Machine.run step (stopWith [] [SIGKILL]) (boot 2)) 3 := by
  decide +kernel

end KestrelOS.Proc
