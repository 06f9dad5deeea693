import KestrelOS.Proc.Sched
import Mathlib.Algebra.GroupWithZero.Nat

/-!
# A task runs on one CPU

What the sections keep: a CPU is on the stack of its current task except while it hands over, and
the current tasks are different tasks, each running or just stopped.
-/

namespace KestrelOS.Proc

open Function List Nat
open Machine (Meets Always)

variable {n : Nat}

def OffCpu (k : Kernel n) (t : Nat) : Prop := ∀ c, k.stack c ≠ t

instance (k : Kernel n) (t : Nat) : Decidable (OffCpu k t) :=
  inferInstanceAs (Decidable (∀ _, _))

/-- Nothing is done to a task that some CPU executes, but for going on with the task that runs. -/
def Act.Safe (k : Kernel n) : Act n → Prop
  | .select c t state => (state = .running ∧ k.stack c = t) ∨ OffCpu k t
  | .switchTo _ t => OffCpu k t
  | .reap t => OffCpu k t

instance (k : Kernel n) (a : Act n) : Decidable (a.Safe k) := by
  cases a <;> unfold Act.Safe <;> infer_instance

def SafeStep (k : Kernel n) (e : Event n) : Prop := ∀ a ∈ (effect k e).2, a.Safe k

/-- No task is current on two CPUs, and no two CPUs are on one stack. -/
def Apart (k : Kernel n) : Prop := Function.Injective k.current ∧ Function.Injective k.stack

/-- A sleep is not over when `wake_sleepers_locked` looks at the clock, and a stopped task is
resumed when it has left its CPU. -/
def Sec.Careful (k : Kernel n) (inp : Input) : Sec → Prop
  | .sleepTicks ticks => inp.later < inp.now + ticks
  | .signalPid pid sig _ _ => sig = SIGCONT → (k.task pid).state = .stopped → OffCpu k pid
  | .signalWake t resume => resume → (k.task t).state = .stopped → OffCpu k t
  | _ => True

instance (k : Kernel n) (inp : Input) (sec : Sec) : Decidable (sec.Careful k inp) := by
  cases sec <;> unfold Sec.Careful <;> infer_instance

def Careful (k : Kernel n) : Event n → Prop
  | .run c inp => ∀ sec ∈ k.next c, sec.Careful k inp
  | _ => True

instance (k : Kernel n) (e : Event n) : Decidable (Careful k e) := by
  cases e <;> unfold Careful <;> infer_instance

def Active (s : TaskState) : Prop := s = .running ∨ s = .stopped

variable {s : TaskState}

theorem Active.ne_sleeping (h : Active s) : s ≠ .sleeping := by
  obtain rfl | rfl := h <;> decide

theorem Active.ne_runnable (h : Active s) : s ≠ .runnable := by
  obtain rfl | rfl := h <;> decide

theorem Active.ne_zombie (h : Active s) : s ≠ .zombie := by
  obtain rfl | rfl := h <;> decide

structure OneCpu (k : Kernel n) : Prop where
  aligned : ∀ c, k.schedLock ≠ some c → k.stack c = k.current c
  injective : Function.Injective k.current
  active : ∀ c, Active (k.task (k.current c)).state
  left : ∀ c, k.schedLock = some c → ∀ c', k.current c' ≠ k.stack c
  dead : ∀ t ∈ k.reapList, (k.task t).state = .zombie
  made : (∀ c, k.current c < k.nextPid) ∧ (∀ t ∈ k.reapList, t < k.nextPid) ∧
    ∀ t ∈ k.runq, t < k.nextPid

namespace OneCpu

variable {k k' : Kernel n}

theorem stack_injective (h : OneCpu k) : Function.Injective k.stack := by
  intro c c' heq
  by_cases hc : k.schedLock = some c
  · by_cases hc' : k.schedLock = some c'
    · exact Option.some.inj (hc.symm.trans hc')
    · exact absurd ((h.aligned c' hc').symm.trans heq.symm) (h.left c hc c')
  by_cases hc' : k.schedLock = some c'
  · exact absurd ((h.aligned c hc).symm.trans heq) (h.left c' hc' c)
  · apply h.injective
    rw [← h.aligned c hc, ← h.aligned c' hc', heq]

variable {t : Nat} {f : Task → Task}

theorem modify (h : OneCpu k) (hactive : (∃ c, k.current c = t) → Active (f (k.task t)).state)
    (hdead : (k.task t).state = .zombie → (f (k.task t)).state = .zombie) :
    OneCpu (k.modify t f) := by
  refine ⟨h.aligned, h.injective, ?_, h.left, ?_, h.made⟩
  · intro c
    change Active ((k.modify t f).task (k.current c)).state
    by_cases hc : k.current c = t
    · rw [hc, modify_task_self]
      exact hactive ⟨c, hc⟩
    · rw [modify_task_of_ne _ _ hc]
      exact h.active c
  · intro u hu
    by_cases hut : u = t
    · subst hut
      rw [modify_task_self]
      exact hdead (h.dead u hu)
    · rw [modify_task_of_ne _ _ hut]
      exact h.dead u hu

theorem modify_state (h : OneCpu k) (hf : (f (k.task t)).state = (k.task t).state) :
    OneCpu (k.modify t f) := by
  apply h.modify
  · rintro ⟨c, rfl⟩
    rw [hf]
    exact h.active c
  · exact hf.trans

theorem wake (h : OneCpu k) (hlock : k.schedLock = none) {resume : Bool}
    (hf : (f (k.task t)).state = (k.task t).state)
    (hres : resume → (k.task t).state = .stopped → OffCpu k t) :
    OneCpu (k.modify t fun u => wake resume (f u)) := by
  apply h.modify
  · rintro ⟨c, rfl⟩
    have hc := h.active c
    have hstack : k.stack c = k.current c := h.aligned c (by simp [hlock])
    unfold Proc.wake
    rw [hf]
    split
    · rename_i hw
      obtain hs | ⟨hr, hs⟩ := hw
      · exact absurd hs hc.ne_sleeping
      · exact absurd hstack (hres hr hs c)
    · rw [hf]
      exact hc
  · intro hz
    unfold Proc.wake
    rw [hf, hz]
    simp [hf, hz]

end OneCpu

/-- The state in which `schedule_locked` starts: all but CPU `c` as in `OneCpu`, and the task that
`c` leaves will not be found runnable. -/
structure Leaving (k : Kernel n) (c : Fin n) (now : Nat) : Prop where
  unlocked : k.schedLock = none
  aligned : k.stack = k.current
  injective : Function.Injective k.current
  active : ∀ c', c' ≠ c → Active (k.task (k.current c')).state
  settled : (k.task (k.current c)).state ≠ .runnable ∧
    ((k.task (k.current c)).state = .sleeping → now < (k.task (k.current c)).sleepUntil)
  dead : ∀ t ∈ k.reapList, (k.task t).state = .zombie
  made : (∀ c, k.current c < k.nextPid) ∧ (∀ t ∈ k.reapList, t < k.nextPid) ∧
    ∀ t ∈ k.runq, t < k.nextPid

namespace Leaving

variable {k k' : Kernel n} {c : Fin n} {now : Nat}

section
variable (h : Leaving k c now)
include h

theorem readied_prev : (readied k c now).task (k.current c) = k.task (k.current c) := by
  obtain ht | ⟨ht, hnow, -⟩ :=
    wakeSleepersLocked_task (reapLocked (k.current c) k) now (k.current c)
  · exact ht
  · exact absurd hnow (not_le.mpr (h.settled.2 ht))

theorem readied_other {c' : Fin n} (hc : c' ≠ c) :
    (readied k c now).task (k.current c') = k.task (k.current c') := by
  apply wakeSleepersLocked_of_ne
  exact (h.active c' hc).ne_sleeping

theorem readied_dead {t : Nat} (ht : t ∈ k.reapList) : (readied k c now).task t = k.task t := by
  apply wakeSleepersLocked_of_ne
  change (k.task t).state ≠ .sleeping
  rw [h.dead t ht]
  decide

theorem offCpu {t : Nat} (ht : t ≠ k.current c) (hs : ¬ Active ((readied k c now).task t).state) :
    OffCpu k t := by
  intro c' hc'
  rw [h.aligned] at hc'
  subst hc'
  by_cases hc : c' = c
  · exact ht (congrArg k.current hc)
  · rw [h.readied_other hc] at hs
    exact hs (h.active c' hc)

theorem readied_oneCpu (hrun : ((readied k c now).task (k.current c)).state = .running) :
    OneCpu (readied k c now) := by
  refine ⟨fun c' _ => congrFun h.aligned c', h.injective, ?_, ?_, ?_, h.made.1, ?_, h.made.2.2⟩
  · intro c'
    by_cases hc : c' = c
    · rw [hc]
      exact .inl hrun
    change Active ((readied k c now).task (k.current c')).state
    rw [h.readied_other hc]
    exact h.active c' hc
  · intro c' hc'
    exact absurd (h.unlocked.symm.trans hc') (by simp)
  · intro t ht
    have ht' := (mem_filter.mp ht).1
    rw [h.readied_dead ht']
    exact h.dead t ht'
  · intro t ht
    exact h.made.2.1 t (mem_filter.mp ht).1

theorem handOver_oneCpu {pick : Nat} (hne : pick ≠ k.current c) (hmade : pick < k.nextPid)
    (hoff : OffCpu k pick) : OneCpu (handOver (readied k c now) c (k.current c) pick) := by
  have hother : ∀ c', c' ≠ c → k.current c' ≠ pick := by
    intro c' _ heq
    exact hoff c' ((congrFun h.aligned c').trans heq)
  have hcur : (handOver (readied k c now) c (k.current c) pick).current =
      update k.current c pick := rfl
  have hlock : ∀ c', some c = some c' → c' = c := fun c' hc' => (Option.some.inj hc').symm
  refine ⟨?_, ?_, ?_, ?_, ?_, ?_, ?_, h.made.2.2⟩
  · intro c' hc'
    have hc : c' ≠ c := fun heq => hc' (congrArg some heq.symm)
    rw [hcur, update_of_ne hc]
    exact congrFun h.aligned c'
  · intro a b hab
    rw [hcur] at hab
    by_cases ha : a = c <;> by_cases hb : b = c
    · exact ha.trans hb.symm
    · rw [ha, update_self, update_of_ne hb] at hab
      exact absurd hab.symm (hother b hb)
    · rw [hb, update_self, update_of_ne ha] at hab
      exact absurd hab (hother a ha)
    · rw [update_of_ne ha, update_of_ne hb] at hab
      exact h.injective hab
  · intro c'
    rw [hcur]
    by_cases hc : c' = c
    · rw [hc, update_self, handOver_task_pick _ _ hne]
      exact .inl rfl
    have hprev : k.current c' ≠ k.current c := fun heq => hc (h.injective heq)
    rw [update_of_ne hc, handOver_task_of_ne _ _ (hother c' hc) hprev,
      h.readied_other hc]
    exact h.active c' hc
  · intro c' hc' c''
    rw [hlock c' hc', hcur]
    change update k.current c pick c'' ≠ k.stack c
    rw [congrFun h.aligned c]
    by_cases hc : c'' = c
    · rw [hc, update_self]
      exact hne
    · rw [update_of_ne hc]
      exact fun heq => hc (h.injective heq)
  · intro t ht
    -- Only the task that leaves can still be on the list, and then it exits.
    obtain ⟨hmem, hprev⟩ := mem_filter.mp ht
    have hprev : t = k.current c := of_decide_eq_true hprev
    have hz := h.dead t hmem
    have hready := h.readied_dead hmem
    rw [hprev, handOver_task_prev _ _ hne, ← hprev, hready, Task.leave, hz, if_neg (by decide), hz]
  · intro c'
    rw [hcur]
    by_cases hc : c' = c
    · rw [hc, update_self]
      exact hmade
    · rw [update_of_ne hc]
      exact h.made.1 c'
  · intro t ht
    exact h.made.2.1 t (mem_filter.mp ht).1

theorem schedule {acts : List (Act n)} (hs : scheduleLocked k c now = some (k', acts)) :
    OneCpu k' ∧ ∀ a ∈ acts, a.Safe k := by
  obtain ⟨pick, hpick, rfl, hk'⟩ := scheduleLocked_cases hs
  have hreap : ∀ a ∈ (k.reapList.filter (· ≠ k.current c)).map Act.reap, a.Safe k := by
    intro a ha
    obtain ⟨t, ht, rfl⟩ := mem_map.mp ha
    obtain ⟨hmem, hne⟩ := mem_filter.mp ht
    apply h.offCpu (of_decide_eq_true hne)
    rw [h.readied_dead hmem, h.dead t hmem]
    simp [Active]
  have hsafe : ∀ a : Act n, a = .select c pick ((readied k c now).task pick).state → a.Safe k →
      ∀ b ∈ (k.reapList.filter (· ≠ k.current c)).map Act.reap ++ [a], b.Safe k := by
    intro a _ ha b hb
    obtain hb | hb := mem_append.mp hb
    · exact hreap b hb
    · rw [mem_singleton.mp hb]
      exact ha
  obtain ⟨rfl, rfl⟩ | ⟨hne, rfl⟩ := hk'
  · have hrun : ((readied k c now).task (k.current c)).state = .running := by
      obtain ⟨-, hr⟩ | ⟨-, hr⟩ := choose_spec hpick
      · rw [h.readied_prev] at hr
        exact absurd hr h.settled.1
      · exact hr
    exact ⟨h.readied_oneCpu hrun, hsafe _ rfl (.inl ⟨hrun, congrFun h.aligned c⟩)⟩
  · obtain ⟨hmem, hr⟩ | ⟨heq, -⟩ := choose_spec hpick
    · have hoff : OffCpu k pick := by
        apply h.offCpu hne
        rw [hr]
        simp [Active]
      exact ⟨h.handOver_oneCpu hne (h.made.2.2 pick hmem) hoff, hsafe _ rfl (.inr hoff)⟩
    · exact absurd heq hne

end

end Leaving

namespace OneCpu

variable {k k' : Kernel n} {c : Fin n} {inp : Input} {more : List Sec} {acts : List (Act n)}

section
variable (h : OneCpu k)
include h

theorem leaving (hlock : k.schedLock = none) {now : Nat} {f : Task → Task}
    (hf : (f (k.task (k.current c))).state ≠ .runnable ∧
      ((f (k.task (k.current c))).state = .sleeping →
        now < (f (k.task (k.current c))).sleepUntil)) :
    Leaving (k.modify (k.current c) f) c now := by
  have haligned : k.stack = k.current := by
    funext c'
    exact h.aligned c' (by simp [hlock])
  refine ⟨hlock, haligned, h.injective, ?_, ?_, ?_, h.made⟩
  · intro c' hc
    change Active ((k.modify (k.current c) f).task (k.current c')).state
    rw [modify_task_of_ne _ _ fun heq => hc (h.injective heq)]
    exact h.active c'
  · change ((k.modify (k.current c) f).task (k.current c)).state ≠ .runnable ∧ _
    change _ ∧ (((k.modify (k.current c) f).task (k.current c)).state = .sleeping →
      now < ((k.modify (k.current c) f).task (k.current c)).sleepUntil)
    rw [modify_task_self]
    exact hf
  · intro t ht
    have hne : t ≠ k.current c := by
      rintro rfl
      exact (h.active c).ne_zombie (h.dead _ ht)
    rw [modify_task_of_ne _ _ hne]
    exact h.dead t ht

theorem leaving_same (hlock : k.schedLock = none) (now : Nat) : Leaving k c now := by
  have hk : k.modify (k.current c) id = k := by simp [Kernel.modify]
  rw [← hk]
  exact h.leaving hlock ⟨(h.active c).ne_runnable, fun hs => absurd hs (h.active c).ne_sleeping⟩

theorem leaving_exit (hlock : k.schedLock = none) (now code : Nat) :
    Leaving (exitLocked k (k.current c) code) c now := by
  have hz : Leaving (k.modify (k.current c) (Task.die code)) c now :=
    h.leaving hlock ⟨TaskState.noConfusion, TaskState.noConfusion⟩
  refine ⟨hlock, hz.aligned, hz.injective, hz.active, hz.settled, ?_, hz.made.1, ?_, ?_⟩
  · intro t ht
    obtain rfl | ht := mem_cons.mp ht
    · exact congrArg Task.state (modify_task_self k (k.current c) (Task.die code))
    · exact hz.dead t ht
  · intro t ht
    obtain rfl | ht := mem_cons.mp ht
    · exact h.made.1 c
    · exact hz.made.2.1 t ht
  · intro t ht
    exact hz.made.2.2 t (mem_runqRemove ht)

theorem wakeSleepers {now : Nat} : OneCpu (wakeSleepersLocked now k) := by
  refine ⟨h.aligned, h.injective, ?_, h.left, ?_, h.made⟩
  · intro c
    change Active ((wakeSleepersLocked now k).task (k.current c)).state
    rw [wakeSleepersLocked_of_ne k now (h.active c).ne_sleeping]
    exact h.active c
  · intro t ht
    have hz := h.dead t ht
    rw [wakeSleepersLocked_of_ne k now (by rw [hz]; decide)]
    exact hz

theorem exec {sec : Sec} (hnext : k.next c = some sec) (hc : sec.Careful k inp)
    (he : exec k c inp (k.stack c) sec = some (k', more, acts)) :
    OneCpu k' ∧ ∀ a ∈ acts, a.Safe k := by
  obtain ⟨-, hfree, hlock⟩ := next_some hnext
  have hquiet : ∀ k'' : Kernel n, OneCpu k'' → OneCpu k'' ∧ ∀ a ∈ ([] : List (Act n)), a.Safe k :=
    fun k'' hk => ⟨hk, by simp⟩
  cases sec with
  | signalPid pid sig uid check =>
    cases he
    apply hquiet
    obtain hk | ⟨-, hk⟩ := taskSignalPid_cases k pid sig uid check
    · rw [hk]
      exact h
    · rw [hk]
      exact h.wake (hlock rfl) rfl fun hr => hc (of_decide_eq_true hr)
  | wakeSleepers =>
    cases he
    exact hquiet _ h.wakeSleepers
  | signalWake t resume =>
    cases he
    exact hquiet _ (h.wake (f := id) (hlock rfl) rfl hc)
  | schedule =>
    obtain ⟨⟨k1, acts1⟩, hs, heq⟩ := Option.map_eq_some_iff.mp he
    cases heq
    exact (h.leaving_same (hlock rfl) _).schedule hs
  | sleepTicks ticks =>
    obtain ⟨⟨k1, acts1⟩, hs, heq⟩ := Option.map_eq_some_iff.mp he
    cases heq
    apply (h.leaving (hlock rfl) _).schedule hs
    exact ⟨TaskState.noConfusion, fun _ => hc⟩
  | exit code =>
    obtain ⟨⟨k1, acts1⟩, hs, heq⟩ := Option.map_eq_some_iff.mp he
    cases heq
    exact (h.leaving_exit (hlock rfl) _ code).schedule hs
  | kill t =>
    simp only [Proc.exec] at he
    split at he
    · cases he
      exact hquiet _ h
    · cases he
      exact hquiet _ (h.wake (hlock rfl) rfl (by simp))
  | queueTask t sig =>
    cases he
    apply hquiet
    obtain hk | ⟨-, hk⟩ := signalQueueTask_cases k t sig
    · rw [hk]
      exact h
    · rw [hk]
      exact h.modify_state rfl
  | dequeue =>
    simp only [Proc.exec] at he
    split at he
    · cases he
      exact hquiet _ h
    · cases he
      exact hquiet _ (h.modify_state rfl)
  | stop =>
    cases he
    apply hquiet
    apply h.modify
    · exact fun _ => .inr rfl
    intro hz
    rw [h.aligned c hfree] at hz
    exact absurd hz (h.active c).ne_zombie
  | frame sig action =>
    simp only [Proc.exec] at he
    split at he
    · cases he
      exact hquiet _ h
    · cases he
      exact hquiet _ (h.modify_state rfl)
  | sigaction sig action =>
    simp only [Proc.exec] at he
    split at he
    · cases he
      exact hquiet _ (h.modify_state rfl)
    · cases he
      exact hquiet _ h
  | sigprocmask mask =>
    cases he
    exact hquiet _ (h.modify_state rfl)

theorem create (user : Bool) : OneCpu (kthreadCreate k c user) := by
  have hfresh : ∀ t, t < k.nextPid → (kthreadCreate k c user).task t = k.task t := fun _ ht =>
    kthreadCreate_task_of_ne k c user ht.ne
  refine ⟨h.aligned, h.injective, ?_, h.left, ?_, ?_, ?_, ?_⟩
  · intro c'
    change Active ((kthreadCreate k c user).task (k.current c')).state
    rw [hfresh _ (h.made.1 c')]
    exact h.active c'
  · intro t ht
    rw [hfresh t (h.made.2.1 t ht)]
    exact h.dead t ht
  · exact fun c' => (h.made.1 c').trans (lt_succ_self _)
  · exact fun t ht => (h.made.2.1 t ht).trans (lt_succ_self _)
  · intro t ht
    obtain rfl | ht := mem_runqInsert ht
    · exact lt_succ_self _
    · exact (h.made.2.2 t ht).trans (lt_succ_self _)

theorem switch (hlock : k.schedLock = some c) :
    OneCpu { k with stack := update k.stack c (k.current c), schedLock := none } := by
  refine ⟨?_, h.injective, h.active, ?_, h.dead, h.made⟩
  · intro c' _
    change update k.stack c (k.current c) c' = k.current c'
    by_cases hc : c' = c
    · rw [hc, update_self]
    · rw [update_of_ne hc]
      exact h.aligned c' fun heq => hc (Option.some.inj (heq.symm.trans hlock))
  · intro c' hc'
    cases hc'

theorem offCpu_current (hlock : k.schedLock = some c) : OffCpu k (k.current c) := by
  intro c' heq
  by_cases hc : c' = c
  · subst hc
    exact h.left c' hlock c' heq.symm
  have hfree : k.schedLock ≠ some c' := fun heq => hc (Option.some.inj (heq.symm.trans hlock))
  rw [h.aligned c' hfree] at heq
  exact hc (h.injective heq)

theorem effect (e : Event n) (hc : Careful k e) : OneCpu (effect k e).1 ∧ SafeStep k e := by
  have hquiet : ∀ a ∈ ([] : List (Act n)), a.Safe k := nofun
  refine effect_cases (P := fun k' acts => OneCpu k' ∧ ∀ a ∈ acts, a.Safe k) e ⟨h, hquiet⟩
    (fun c code _ => ⟨h.modify_state rfl, hquiet⟩) (fun c inp sec k' more acts he hnext hex => ?_)
    (fun c hlock => ⟨h.switch hlock, ?_⟩) fun c user => ⟨h.create user, hquiet⟩
  · subst he
    obtain ⟨hk', hsafe⟩ := h.exec hnext (hc sec hnext) hex
    exact ⟨hk'.modify_state rfl, hsafe⟩
  intro a ha
  rw [mem_singleton.mp ha]
  exact h.offCpu_current hlock

end

end OneCpu

theorem oneCpu_boot (n : Nat) : OneCpu (boot n) := by
  refine ⟨fun _ _ => rfl, ?_, ?_, ?_, ?_, ?_, ?_, ?_⟩
  · intro c c' heq
    apply Fin.ext
    simp only [boot, bootCurrent] at heq
    split at heq <;> split at heq <;> omega
  · intro c
    refine .inl (if_neg ?_)
    change bootCurrent c ≠ 1
    unfold bootCurrent
    split <;> omega
  · intro c hc
    cases hc
  · intro t ht
    cases ht
  · intro c
    change bootCurrent c < n + 1
    unfold bootCurrent
    split <;> omega
  · intro t ht
    cases ht
  · intro t ht
    simp only [boot, mem_cons, mem_reverse, mem_map, mem_range] at ht
    obtain rfl | ⟨i, hi, rfl⟩ := ht
    · exact succ_pos n
    · exact succ_lt_succ hi

/-- In a run where no sleep is over before the CPU has left it and no stopped task is resumed before
it has left its CPU, no task is current on two CPUs, and none is selected, switched to or reaped
while a CPU executes it, but for the running task that its own CPU goes on with. -/
theorem task_on_one_cpu (n : Nat) (es : List (Event n)) (h : Meets step Careful es (boot n)) :
    Always step Apart es (boot n) ∧ Meets step SafeStep es (boot n) := by
  have hkeep : ∀ (k : Kernel n) e, Careful k e → OneCpu k → OneCpu (step k e) :=
    fun k e hc hk => (hk.effect e hc).1
  constructor
  · exact Machine.always_of_keeps hkeep (fun k hk => ⟨hk.injective, hk.stack_injective⟩) h
      (oneCpu_boot n)
  · exact Machine.meets_of_keeps hkeep (fun k e hc hk => (hk.effect e hc).2) h (oneCpu_boot n)

scoped instance neZero_two : NeZero 2 := ⟨by decide⟩

/-- CPU 1 leaves its idle task for the new user task 3. -/
def startUser : List (Event 2) :=
  [.create 0 true, .call 1 .yield, .run 1 ⟨0, 0, true⟩, .switch 1]

/-- Task 3 takes SIGSTOP and writes its state; CPU 0 sends SIGCONT and looks for work. With
`leaveFirst` CPU 1 gets to leave task 3 in between. -/
def stopAndContinue (leaveFirst : Bool) : List (Event 2) :=
  startUser ++
    [.call 0 (.signalPid 3 SIGSTOP 0 true), .run 0 ⟨0, 0, true⟩,
      .preempt 1 false, .run 1 ⟨0, 0, true⟩, .run 1 ⟨0, 0, true⟩] ++
    (if leaveFirst then [.run 1 ⟨0, 0, true⟩, .switch 1] else []) ++
    [.call 0 (.signalPid 3 SIGCONT 0 true), .run 0 ⟨0, 0, true⟩,
      .call 0 .yield, .run 0 ⟨0, 0, true⟩]

/-- Task 3 sleeps for one tick, and the clock reads `later` when the sleepers are woken. -/
def sleepOneTick (later : Nat) : List (Event 2) :=
  startUser ++
    [.call 1 (.sleepTicks 1), .run 1 ⟨5, later, true⟩, .call 0 .yield, .run 0 ⟨6, 6, true⟩]

theorem task_on_one_cpu_stop_and_continue :
    Always step Apart (stopAndContinue true) (boot 2) ∧
      Meets step SafeStep (stopAndContinue true) (boot 2) :=
  task_on_one_cpu 2 (stopAndContinue true) (by decide +kernel)

/-- A task resumed between its unlocked write of `TASK_STOPPED` and its `schedule` is picked by
another CPU; so is one whose tick is over before `schedule_locked` has left it. -/
theorem task_on_two_cpus :
    ¬ Apart (Machine.run step (stopAndContinue false) (boot 2)) ∧
      ¬ Apart (Machine.run step (sleepOneTick 6) (boot 2)) := by
  have hstop : (Machine.run step (stopAndContinue false) (boot 2)).current 0 =
      (Machine.run step (stopAndContinue false) (boot 2)).current 1 := by decide +kernel
  have hsleep : (Machine.run step (sleepOneTick 6) (boot 2)).current 0 =
      (Machine.run step (sleepOneTick 6) (boot 2)).current 1 := by decide +kernel
  exact ⟨fun h => absurd (h.1 hstop) (by decide), fun h => absurd (h.1 hsleep) (by decide)⟩

end KestrelOS.Proc
