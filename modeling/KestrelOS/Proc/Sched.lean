import KestrelOS.Lib.Machine
import Mathlib.Data.Finset.Basic

/-!
# The scheduler and signals

`kernel/proc.c` and `kernel/signal.c` on any number of CPUs. What a CPU runs is cut where another
CPU can get in: a section under `sched_lock` or `signal_lock`, an unlocked write of a task's state,
a context switch. `current` is the per-CPU pointer, `stack` the stack in use: the two differ
between `schedule_locked` and the end of `ctx_switch_unlock`, while the CPU holds `sched_lock`.
-/

namespace KestrelOS.Proc

open List Function

inductive TaskState
  | runnable | running | sleeping | stopped | zombie
  deriving DecidableEq, Repr

def SIGKILL : Nat := 9
def SIGSEGV : Nat := 11
def SIGCHLD : Nat := 17
def SIGCONT : Nat := 18
def SIGSTOP : Nat := 19
def SIGTSTP : Nat := 20
def SIGTTIN : Nat := 21
def SIGTTOU : Nat := 22
def SIGURG : Nat := 23
def SIGWINCH : Nat := 28
def SIG_DFL : Nat := 0
def SIG_IGN : Nat := 1
def K_NSIG : Nat := 32
def PAGE_SIZE : Nat := 4096
def USER_VA_LIMIT : Nat := 0x0000800000000000

structure SigAction where
  handler : Nat
  restorer : Nat
  mask : Finset Nat
  noDefer : Bool
  resetHand : Bool
  deriving DecidableEq

def SigAction.default : SigAction := ⟨SIG_DFL, 0, ∅, false, false⟩

/-- The sections, in the order of the functions they come from. -/
inductive Sec
  | signalPid (pid sig senderUid : Nat) (checkPermission : Bool)
  | wakeSleepers
  | signalWake (t : Nat) (resumeStopped : Bool)
  | schedule
  | sleepTicks (ticks : Nat)
  | exit (code : Nat)
  | kill (t : Nat)
  | queueTask (t sig : Nat)
  | dequeue
  | stop
  | frame (sig : Nat) (action : SigAction)
  | sigaction (sig : Nat) (action : SigAction)
  | sigprocmask (mask : Finset Nat)
  deriving DecidableEq

def Sec.locked : Sec → Bool
  | .signalPid .. | .wakeSleepers | .signalWake .. | .schedule | .sleepTicks .. | .exit .. |
    .kill .. => true
  | .queueTask .. | .dequeue | .stop | .frame .. | .sigaction .. | .sigprocmask .. => false

structure Task where
  state : TaskState
  uid : Nat
  user : Bool
  sleepUntil : Nat
  exitCode : Nat
  killPending : Bool
  sigPending : Finset Nat
  sigMask : Finset Nat
  sigActions : Nat → SigAction
  parentPid : Nat
  cpu : Option Nat
  affinity : Option Nat
  idle : Bool
  code : List Sec

def Task.become (t : Task) (s : TaskState) : Task := { t with state := s }

def Task.place (t : Task) (cpu : Option Nat) : Task := { t with cpu := cpu }

structure Kernel (n : Nat) where
  task : Nat → Task
  allTasks : List Nat
  /-- The run ring from the node that `runq` points to. -/
  runq : List Nat
  reapList : List Nat
  nextPid : Nat
  current : Fin n → Nat
  stack : Fin n → Nat
  schedLock : Option (Fin n)

/-- What the scheduler does to a task: `select` carries the state it finds the task in. -/
inductive Act (n : Nat)
  | select (c : Fin n) (t : Nat) (state : TaskState)
  | switchTo (c : Fin n) (t : Nat)
  | reap (t : Nat)
  deriving DecidableEq

variable {n : Nat}

def Kernel.modify (k : Kernel n) (t : Nat) (f : Task → Task) : Kernel n :=
  { k with task := Function.update k.task t (f (k.task t)) }

def runqInsert (t : Nat) : List Nat → List Nat
  | [] => [t]
  | r :: rest => r :: t :: rest

def runqRemove (t : Nat) : List Nat → List Nat
  | [] => []
  | r :: rest =>
    if r = t then
      match rest.getLast? with
      | none => []
      | some p => p :: rest.dropLast
    else r :: rest.erase t

/-- The ring in the order in which `pick_next` visits it, `from` last; `from` is `prev`, or the
node that `runq` points to when `prev` has left the ring. -/
def roundFrom (prev : Nat) (ring : List Nat) : List Nat :=
  if prev ∈ ring then
    (ring.dropWhile (· ≠ prev)).tail ++ ring.takeWhile (· ≠ prev) ++ [prev]
  else
    match ring with
    | [] => []
    | r :: rest => rest ++ [r]

def wakeSleepersLocked (now : Nat) (k : Kernel n) : Kernel n :=
  { k with
    task := fun t =>
      if t ∈ k.runq ∧ (k.task t).state = .sleeping ∧ (k.task t).sleepUntil ≤ now then
        (k.task t).become .runnable
      else k.task t }

def reapLocked (cur : Nat) (k : Kernel n) : Kernel n :=
  { k with
    reapList := k.reapList.filter (· = cur)
    allTasks := k.allTasks.filter fun t => ¬ (t ∈ k.reapList ∧ t ≠ cur) }

def pickNext (k : Kernel n) (cpu : Nat) : List Nat → Option Nat → Option Nat
  | [], fallback => fallback
  | t :: ts, fallback =>
    if (k.task t).state ≠ .runnable then pickNext k cpu ts fallback
    else if (k.task t).affinity.any (· ≠ cpu) then pickNext k cpu ts fallback
    else if (k.task t).idle then pickNext k cpu ts (fallback <|> some t)
    else some t

/-- The task that `schedule_locked` goes on with, out of a state where the dead are reaped and the
sleepers woken; `none` where it panics. -/
def choose (k : Kernel n) (c : Fin n) (prev : Nat) : Option Nat :=
  pickNext k c (roundFrom prev k.runq) none <|>
    if (k.task prev).state = .running then some prev else none

def Task.leave (t : Task) : Task :=
  if t.state = .running then (t.become .runnable).place none else t

def Task.enter (cpu : Nat) (t : Task) : Task := (t.become .running).place (some cpu)

/-- The CPU leaves `prev` for `pick`, up to the context switch. -/
def handOver (k : Kernel n) (c : Fin n) (prev pick : Nat) : Kernel n :=
  { (k.modify prev Task.leave).modify pick (Task.enter c) with
    current := Function.update k.current c pick
    schedLock := some c }

def scheduleLocked (k : Kernel n) (c : Fin n) (now : Nat) : Option (Kernel n × List (Act n)) :=
  let prev := k.current c
  let ready := wakeSleepersLocked now (reapLocked prev k)
  match choose ready c prev with
  | none => none
  | some pick =>
    some (if pick = prev then ready else handOver ready c prev pick,
      (k.reapList.filter (· ≠ prev)).map .reap ++ [.select c pick (ready.task pick).state])

def signalValid (sig : Nat) : Bool := 0 < sig ∧ sig < K_NSIG

def unblockableMask : Finset Nat := {SIGKILL, SIGSTOP}

def stopSignals : Finset Nat := {SIGSTOP, SIGTSTP, SIGTTIN, SIGTTOU}

def queueSignal (sig : Nat) (t : Task) : Task :=
  let pending := insert sig t.sigPending
  { t with sigPending := if sig = SIGCONT then pending \ stopSignals else pending }

/-- `signal_queue_task`: the new state and whether the signal was queued. -/
def signalQueueTask (k : Kernel n) (t sig : Nat) : Kernel n × Bool :=
  if signalValid sig ∧ (k.task t).state ≠ .zombie then (k.modify t (queueSignal sig), true)
  else (k, false)

def wake (resumeStopped : Bool) (t : Task) : Task :=
  if t.state = .sleeping ∨ (resumeStopped ∧ t.state = .stopped) then t.become .runnable else t

def signalPermitted (k : Kernel n) (pid senderUid : Nat) (checkPermission : Bool) : Bool :=
  pid ∈ k.allTasks ∧ (k.task pid).state ≠ .zombie ∧
    ¬ (checkPermission ∧ senderUid ≠ 0 ∧ senderUid ≠ (k.task pid).uid)

def taskSignalPid (k : Kernel n) (pid sig senderUid : Nat) (checkPermission : Bool) : Kernel n :=
  if signalPermitted k pid senderUid checkPermission ∧ sig ≠ 0 ∧ (signalQueueTask k pid sig).2 then
    (signalQueueTask k pid sig).1.modify pid (wake (sig = SIGCONT))
  else k

def defaultIgnored (sig : Nat) : Bool :=
  sig = SIGCHLD ∨ sig = SIGURG ∨ sig = SIGWINCH ∨ sig = SIGCONT

def defaultStops (sig : Nat) : Bool :=
  sig = SIGSTOP ∨ sig = SIGTSTP ∨ sig = SIGTTIN ∨ sig = SIGTTOU

def nextPending (t : Task) : Option Nat :=
  (List.range' 1 (K_NSIG - 1)).find? fun sig =>
    sig ∈ t.sigPending ∧ (sig ∉ t.sigMask ∨ sig ∈ unblockableMask)

def taskExit (t : Task) (code : Nat) : List Sec :=
  (if 0 < t.parentPid then [.signalPid t.parentPid SIGCHLD 0 false] else []) ++ [.exit code]

def terminateForSignal (t : Task) (sig : Nat) : List Sec := taskExit t (128 + sig)

def handlerOf (t : Task) (sig : Nat) : Nat :=
  if sig = SIGKILL ∨ sig = SIGSTOP then SIG_DFL else (t.sigActions sig).handler

/-- What follows in `signal_deliver_pending` after `sig` has been taken. -/
def deliver (t : Task) (sig : Nat) : List Sec :=
  if handlerOf t sig = SIG_IGN ∨ (handlerOf t sig = SIG_DFL ∧ defaultIgnored sig) then [.dequeue]
  else if handlerOf t sig = SIG_DFL then
    if defaultStops sig then [.stop, .schedule, .dequeue] else terminateForSignal t sig
  else [.frame sig (t.sigActions sig)]

/-- The mask and the actions once the frame for `sig` is on the user stack. -/
def enterHandler (sig : Nat) (action : SigAction) (t : Task) : Task :=
  let mask := t.sigMask ∪ action.mask
  { t with
    sigMask := (if action.noDefer then mask else insert sig mask) \ unblockableMask
    sigActions := if action.resetHand then Function.update t.sigActions sig .default
      else t.sigActions }

def badHandler (action : SigAction) : Bool :=
  USER_VA_LIMIT ≤ action.handler ∨ action.restorer < PAGE_SIZE ∨ USER_VA_LIMIT ≤ action.restorer

def sigactionAllowed (sig : Nat) (action : SigAction) : Bool :=
  signalValid sig ∧ sig ≠ SIGKILL ∧ sig ≠ SIGSTOP ∧
    (action.handler = SIG_DFL ∨ action.handler = SIG_IGN ∨
      (PAGE_SIZE ≤ action.handler ∧ ¬ badHandler action))

/-- What a section reads from outside: the clock, read by `task_sleep_ticks` and again by
`wake_sleepers_locked`, and whether the user stack takes a signal frame. -/
structure Input where
  now : Nat
  later : Nat
  frameOk : Bool
  deriving DecidableEq

def Task.die (code : Nat) (t : Task) : Task :=
  { (t.become .zombie).place none with exitCode := code }

def Task.sleepTill (deadline : Nat) (t : Task) : Task :=
  { (t.become .sleeping).place none with sleepUntil := deadline }

def exitLocked (k : Kernel n) (cur code : Nat) : Kernel n :=
  { k.modify cur (Task.die code) with
    runq := runqRemove cur k.runq
    reapList := cur :: k.reapList }

/-- One section of task `p` on CPU `c`: the new state, the sections that it goes on with before
the rest of its code, and what the scheduler did. `none` where the kernel panics. -/
def exec (k : Kernel n) (c : Fin n) (inp : Input) (p : Nat) :
    Sec → Option (Kernel n × List Sec × List (Act n))
  | .signalPid pid sig senderUid check => some (taskSignalPid k pid sig senderUid check, [], [])
  | .wakeSleepers => some (wakeSleepersLocked inp.now k, [], [])
  | .signalWake t resume => some (k.modify t (wake resume), [], [])
  | .schedule => (scheduleLocked k c inp.later).map fun r => (r.1, [], r.2)
  | .sleepTicks ticks =>
    (scheduleLocked (k.modify (k.current c) (Task.sleepTill (inp.now + ticks))) c inp.later).map
      fun r => (r.1, [], r.2)
  | .exit code => (scheduleLocked (exitLocked k (k.current c) code) c inp.later).map
      fun r => (r.1, [], r.2)
  | .kill t =>
    if (k.task t).state = .zombie then some (k, [], [])
    else some (k.modify t fun u => wake false { u with killPending := true },
      [.queueTask t SIGKILL], [])
  | .queueTask t sig =>
    some ((signalQueueTask k t sig).1,
      if (signalQueueTask k t sig).2 then [.signalWake t (sig = SIGCONT)] else [], [])
  | .dequeue =>
    match (if (k.task p).user then nextPending (k.task p) else none) with
    | none => some (k, [], [])
    | some sig =>
      some (k.modify p fun t => { t with sigPending := t.sigPending.erase sig },
        deliver (k.task p) sig, [])
  | .stop => some (k.modify p (·.become .stopped), [], [])
  | .frame sig action =>
    if badHandler action ∨ ¬ inp.frameOk then some (k, terminateForSignal (k.task p) SIGSEGV, [])
    else some (k.modify p (enterHandler sig action), [], [])
  | .sigaction sig action =>
    if sigactionAllowed sig action then
      some (k.modify p fun t =>
        { t with sigActions := Function.update t.sigActions sig
                   { action with mask := action.mask \ unblockableMask } }, [], [])
    else some (k, [], [])
  | .sigprocmask mask =>
    some (k.modify p fun t => { t with sigMask := mask \ unblockableMask }, [], [])

/-- What a task with no kernel code left may enter the kernel for. -/
inductive Call
  | yield
  | sleepTicks (ticks : Nat)
  | exit (code : Nat)
  | wakeSleepers
  | signalPid (pid sig senderUid : Nat) (checkPermission : Bool)
  | signalSend (t sig : Nat)
  | kill (t : Nat)
  | deliverPending
  | sigaction (sig : Nat) (action : SigAction)
  | sigprocmask (mask : Finset Nat)
  | checkKill
  deriving DecidableEq

def Call.code (t : Task) : Call → List Sec
  | .yield => [.schedule]
  | .sleepTicks ticks => [.sleepTicks ticks]
  | .exit code => taskExit t code
  | .wakeSleepers => [.wakeSleepers]
  | .signalPid pid sig senderUid check => [.signalPid pid sig senderUid check]
  | .signalSend t sig => [.queueTask t sig]
  | .kill t => [.kill t]
  | .deliverPending => [.dequeue]
  | .sigaction sig action => [.sigaction sig action]
  | .sigprocmask mask => [.sigprocmask mask]
  | .checkKill => if t.killPending then taskExit t (128 + SIGKILL) else []

inductive Event (n : Nat)
  | call (c : Fin n) (call : Call)
  | run (c : Fin n) (inp : Input)
  | switch (c : Fin n)
  | preempt (c : Fin n) (quantumOver : Bool)
  | create (c : Fin n) (user : Bool)
  deriving DecidableEq

/-- The timer interrupt; the interrupted code is in user mode when it has no kernel code left. -/
def preempt (t : Task) (quantumOver : Bool) : List Sec :=
  if t.killPending ∧ t.code = [] then taskExit t (128 + SIGKILL)
  else (if quantumOver then [.schedule] else []) ++ if t.code = [] then [.dequeue] else []

def kthread (creator : Task) (parent : Nat) (user : Bool) : Task where
  state := .runnable
  uid := creator.uid
  user := user
  sleepUntil := 0
  exitCode := 0
  killPending := false
  sigPending := ∅
  sigMask := ∅
  sigActions := fun _ => .default
  parentPid := parent
  cpu := none
  affinity := none
  idle := false
  code := []

def kthreadCreate (k : Kernel n) (c : Fin n) (user : Bool) : Kernel n :=
  { k.modify k.nextPid fun _ => kthread (k.task (k.current c)) (k.current c) user with
    allTasks := k.nextPid :: k.allTasks
    runq := runqInsert k.nextPid k.runq
    nextPid := k.nextPid + 1 }

def Kernel.push (k : Kernel n) (t : Nat) (code : List Sec) : Kernel n :=
  k.modify t fun u => { u with code := code ++ u.code }

/-- The section that CPU `c` runs next: not while it is about to switch, and not a section under
`sched_lock` while another CPU holds it. -/
def Kernel.next (k : Kernel n) (c : Fin n) : Option Sec :=
  match (k.task (k.stack c)).code with
  | [] => none
  | sec :: _ =>
    if k.schedLock = some c ∨ (sec.locked ∧ k.schedLock ≠ none) then none else some sec

/-- An event that cannot happen leaves the state as it is. -/
def effect (k : Kernel n) : Event n → Kernel n × List (Act n)
  | .call c call =>
    if k.schedLock ≠ some c ∧ (k.task (k.stack c)).code = [] then
      (k.push (k.stack c) (call.code (k.task (k.stack c))), [])
    else (k, [])
  | .run c inp =>
    match k.next c with
    | none => (k, [])
    | some sec =>
      match exec k c inp (k.stack c) sec with
      | none => (k, [])
      | some (k', more, acts) =>
        (k'.modify (k.stack c) fun t =>
          { t with code := more ++ (k.task (k.stack c)).code.tail }, acts)
  | .switch c =>
    if k.schedLock = some c then
      ({ k with stack := Function.update k.stack c (k.current c), schedLock := none },
        [.switchTo c (k.current c)])
    else (k, [])
  | .preempt c quantumOver =>
    if k.schedLock ≠ some c then
      (k.push (k.stack c) (preempt (k.task (k.stack c)) quantumOver), [])
    else (k, [])
  | .create c user => if k.schedLock = none then (kthreadCreate k c user, []) else (k, [])

def step (k : Kernel n) (e : Event n) : Kernel n := (effect k e).1

/-- A task that a boot leaves behind: 0 is the kernel's first task and 1 the idle task of CPU 0, any
later one is the idle task that its own CPU started on. -/
def bootTask (t : Nat) : Task where
  state := if t = 1 then .runnable else .running
  uid := 0
  user := false
  sleepUntil := 0
  exitCode := 0
  killPending := false
  sigPending := ∅
  sigMask := ∅
  sigActions := fun _ => .default
  parentPid := 0
  cpu := if t = 1 then none else some (t - 1)
  affinity := some (t - 1)
  idle := t ≠ 0
  code := []

def bootCurrent (c : Fin n) : Nat := if c.val = 0 then 0 else c.val + 1

/-- The machine after `proc_init` and `smp_start_aps` on `n` CPUs. -/
def boot (n : Nat) : Kernel n where
  task := bootTask
  allTasks := (List.range (n + 1)).reverse
  runq := 0 :: ((List.range n).map (· + 1)).reverse
  reapList := []
  nextPid := n + 1
  current := bootCurrent
  stack := bootCurrent
  schedLock := none

@[simp] theorem modify_task_self (k : Kernel n) (t : Nat) (f : Task → Task) :
    (k.modify t f).task t = f (k.task t) := update_self ..

variable {pick prev t u : Nat} {k : Kernel n} {c : Fin n} {ring : List Nat}

theorem modify_task_of_ne (k : Kernel n) (f : Task → Task) (h : u ≠ t) :
    (k.modify t f).task u = k.task u := update_of_ne h ..

theorem modify_field {α : Type} (g : Task → α) (k : Kernel n) (t : Nat) (f : Task → Task)
    (hf : g (f (k.task t)) = g (k.task t)) (u : Nat) :
    g ((k.modify t f).task u) = g (k.task u) := by
  by_cases hu : u = t
  · subst hu
    rw [modify_task_self, hf]
  · rw [modify_task_of_ne _ _ hu]

theorem next_some {sec : Sec} (h : k.next c = some sec) :
    (∃ rest, (k.task (k.stack c)).code = sec :: rest) ∧ k.schedLock ≠ some c ∧
      (sec.locked → k.schedLock = none) := by
  unfold Kernel.next at h
  split at h
  · cases h
  rename_i sec' rest hcode
  split at h
  · cases h
  rename_i hfree
  cases h
  rw [not_or, not_and, ne_eq, Decidable.not_not] at hfree
  exact ⟨⟨rest, hcode⟩, hfree⟩

theorem effect_cases {P : Kernel n → List (Act n) → Prop} (e : Event n) (idle : P k [])
    (push : ∀ c code, ((∃ call : Call, code = call.code (k.task (k.stack c))) ∨
      ∃ q, code = preempt (k.task (k.stack c)) q) → P (k.push (k.stack c) code) [])
    (run : ∀ c inp sec k' more acts, e = .run c inp → k.next c = some sec →
      exec k c inp (k.stack c) sec = some (k', more, acts) →
      P (k'.modify (k.stack c) fun t => { t with code := more ++ (k.task (k.stack c)).code.tail })
        acts)
    (switch : ∀ c, k.schedLock = some c →
      P { k with stack := update k.stack c (k.current c), schedLock := none }
        [.switchTo c (k.current c)])
    (create : ∀ c user, P (kthreadCreate k c user) []) : P (effect k e).1 (effect k e).2 := by
  cases e <;> simp only [effect] <;> split
  case call.isTrue c call _ => exact push c _ (.inl ⟨call, rfl⟩)
  case h_2 c inp _ sec hnext =>
    split
    · exact idle
    · rename_i hex
      exact run c inp _ _ _ _ rfl hnext hex
  case switch.isTrue c hlock => exact switch c hlock
  case preempt.isTrue c quantumOver _ => exact push c _ (.inr ⟨quantumOver, rfl⟩)
  case create.isTrue c user _ => exact create c user
  all_goals exact idle

theorem modify_modify (k : Kernel n) (t : Nat) (f g : Task → Task) :
    (k.modify t f).modify t g = k.modify t fun u => g (f u) := by
  simp [Kernel.modify]

theorem kthreadCreate_task_self (k : Kernel n) (c : Fin n) (user : Bool) :
    (kthreadCreate k c user).task k.nextPid = kthread (k.task (k.current c)) (k.current c) user :=
  modify_task_self k k.nextPid fun _ => kthread (k.task (k.current c)) (k.current c) user

theorem kthreadCreate_task_of_ne (k : Kernel n) (c : Fin n) (user : Bool) (h : t ≠ k.nextPid) :
    (kthreadCreate k c user).task t = k.task t :=
  modify_task_of_ne k (fun _ => kthread (k.task (k.current c)) (k.current c) user) h

theorem signalQueueTask_cases (k : Kernel n) (t sig : Nat) : signalQueueTask k t sig = (k, false) ∨
      ((k.task t).state ≠ .zombie ∧
        signalQueueTask k t sig = (k.modify t (queueSignal sig), true)) := by
  unfold signalQueueTask
  split
  · rename_i h
    exact .inr ⟨h.2, rfl⟩
  · exact .inl rfl

theorem taskSignalPid_cases (k : Kernel n) (pid sig uid : Nat) (check : Bool) :
    taskSignalPid k pid sig uid check = k ∨
      ((k.task pid).state ≠ .zombie ∧ taskSignalPid k pid sig uid check =
        k.modify pid fun t => wake (sig = SIGCONT) (queueSignal sig t)) := by
  unfold taskSignalPid
  split
  · rename_i h
    obtain hq | ⟨hz, hq⟩ := signalQueueTask_cases k pid sig
    · rw [hq] at h
      exact absurd h.2.2 Bool.false_ne_true
    · rw [hq]
      exact .inr ⟨hz, modify_modify ..⟩
  · exact .inl rfl

theorem mem_runqInsert (h : u ∈ runqInsert t ring) : u = t ∨ u ∈ ring := by
  cases ring with
  | nil => exact .inl (mem_singleton.mp h)
  | cons r rest =>
    simp only [runqInsert, mem_cons] at h ⊢
    tauto

theorem mem_runqRemove (h : u ∈ runqRemove t ring) : u ∈ ring := by
  cases ring with
  | nil => exact h
  | cons r rest =>
    simp only [runqRemove] at h
    split at h
    · cases hl : rest.getLast? with
      | none => simp [hl] at h
      | some p =>
        rw [hl] at h
        obtain rfl | h := mem_cons.mp h
        · exact mem_cons_of_mem _ (mem_of_getLast? hl)
        · exact mem_cons_of_mem _ (mem_of_mem_dropLast h)
    · obtain rfl | h := mem_cons.mp h
      · exact mem_cons_self
      · exact mem_cons_of_mem _ (mem_of_mem_erase h)

theorem mem_roundFrom (h : t ∈ roundFrom prev ring) : t ∈ ring := by
  unfold roundFrom at h
  split at h
  · rename_i hprev
    simp only [mem_append, mem_singleton] at h
    obtain (h | h) | rfl := h
    · exact (dropWhile_sublist _).mem (mem_of_mem_tail h)
    · exact (takeWhile_sublist _).mem h
    · exact hprev
  · cases ring with
    | nil => exact h
    | cons r rest => simpa [or_comm] using h

theorem pickNext_spec {cpu : Nat} {order : List Nat} {fallback : Option Nat}
    (h : pickNext k cpu order fallback = some t) :
    fallback = some t ∨ (t ∈ order ∧ (k.task t).state = .runnable) := by
  induction order generalizing fallback with
  | nil => exact .inl h
  | cons u us ih =>
    unfold pickNext at h
    have hrest : ∀ fb, pickNext k cpu us fb = some t →
        fb = some t ∨ (t ∈ u :: us ∧ (k.task t).state = .runnable) := by
      intro fb hfb
      exact (ih hfb).imp id fun ht => ⟨mem_cons_of_mem _ ht.1, ht.2⟩
    split at h
    · exact hrest _ h
    rename_i hstate
    have hu : (k.task u).state = .runnable := Decidable.not_not.mp hstate
    split at h
    · exact hrest _ h
    split at h
    · obtain hfb | ht := hrest _ h
      · cases fallback with
        | none =>
          cases hfb
          exact .inr ⟨mem_cons_self, hu⟩
        | some f => exact .inl hfb
      · exact .inr ht
    · cases h
      exact .inr ⟨mem_cons_self, hu⟩

theorem choose_spec (h : choose k c prev = some pick) :
    (pick ∈ k.runq ∧ (k.task pick).state = .runnable) ∨
      (pick = prev ∧ (k.task prev).state = .running) := by
  unfold choose at h
  cases hp : pickNext k c (roundFrom prev k.runq) none with
  | some t =>
    rw [hp] at h
    cases h
    obtain hfb | ht := pickNext_spec hp
    · cases hfb
    · exact .inl ⟨mem_roundFrom ht.1, ht.2⟩
  | none =>
    rw [hp] at h
    change (if (k.task prev).state = .running then some prev else none) = some pick at h
    split at h
    · rename_i hrun
      cases h
      exact .inr ⟨rfl, hrun⟩
    · cases h

def readied (k : Kernel n) (c : Fin n) (now : Nat) : Kernel n :=
  wakeSleepersLocked now (reapLocked (k.current c) k)

theorem scheduleLocked_cases {k' : Kernel n} {now : Nat} {acts : List (Act n)}
    (h : scheduleLocked k c now = some (k', acts)) :
    ∃ pick, choose (readied k c now) c (k.current c) = some pick ∧
      acts = (k.reapList.filter (· ≠ k.current c)).map .reap ++
        [.select c pick ((readied k c now).task pick).state] ∧
      (pick = k.current c ∧ k' = readied k c now ∨
        pick ≠ k.current c ∧ k' = handOver (readied k c now) c (k.current c) pick) := by
  simp only [scheduleLocked] at h
  split at h
  · cases h
  rename_i pick hpick
  cases h
  refine ⟨pick, hpick, rfl, ?_⟩
  by_cases heq : pick = k.current c
  · exact .inl ⟨heq, if_pos heq⟩
  · exact .inr ⟨heq, if_neg heq⟩

theorem wakeSleepersLocked_task (k : Kernel n) (now t : Nat) :
    (wakeSleepersLocked now k).task t = k.task t ∨
      ((k.task t).state = .sleeping ∧ (k.task t).sleepUntil ≤ now ∧
        (wakeSleepersLocked now k).task t = (k.task t).become .runnable) := by
  by_cases h : t ∈ k.runq ∧ (k.task t).state = .sleeping ∧ (k.task t).sleepUntil ≤ now
  · exact .inr ⟨h.2.1, h.2.2, if_pos h⟩
  · exact .inl (if_neg h)

theorem wakeSleepersLocked_of_ne (k : Kernel n) (now : Nat) (h : (k.task t).state ≠ .sleeping) :
    (wakeSleepersLocked now k).task t = k.task t := by
  obtain ht | ⟨ht, -⟩ := wakeSleepersLocked_task k now t
  · exact ht
  · exact absurd ht h

theorem handOver_task_pick (k : Kernel n) (c : Fin n) (h : pick ≠ prev) :
    (handOver k c prev pick).task pick = (k.task pick).enter c := by
  rw [← modify_task_of_ne k Task.leave h]
  exact modify_task_self (k.modify prev Task.leave) pick (Task.enter c)

theorem handOver_task_prev (k : Kernel n) (c : Fin n) (h : pick ≠ prev) :
    (handOver k c prev pick).task prev = (k.task prev).leave := by
  rw [← modify_task_self k prev Task.leave]
  exact modify_task_of_ne (k.modify prev Task.leave) (Task.enter c) h.symm

theorem handOver_task_of_ne (k : Kernel n) (c : Fin n) (h : t ≠ pick) (hp : t ≠ prev) :
    (handOver k c prev pick).task t = k.task t := by
  rw [← modify_task_of_ne k Task.leave hp]
  exact modify_task_of_ne (k.modify prev Task.leave) (Task.enter c) h

end KestrelOS.Proc
