import KestrelOS.Proc.Sched

/-!
# Waiting for children

`uproc_record_exit`, `exit_lookup` and `uproc_waitany` of `kernel/uproc.c` over the scheduler.
`uproc_waitany` takes the list of its children under `sched_lock`, then looks them up one by one
under `exit_lock`. The log holds what can be seen from outside, newest first.
-/

namespace KestrelOS.Proc

open Function List Nat
open Machine (run)

variable {n : Nat}

def EXIT_RING : Nat := 64

inductive Note
  | created (parent pid : Nat)
  | reaped (pid : Nat)
  | recorded (pid : Nat) (code : Int)
  | listed (parent : Nat) (pids : List Nat)
  | reported (parent pid : Nat) (code : Int)
  | slept (parent : Nat)
  | noChildren (parent : Nat)
  deriving DecidableEq, Repr

/-- Where a task is in `uproc.c`: nowhere, in `uproc_waitany` with children still to look up, or on
its way from `uproc_record_exit` to `task_exit`. -/
inductive Phase
  | free
  | looking (pids : List Nat)
  | exiting
  deriving DecidableEq, Repr

structure World (n : Nat) where
  kernel : Kernel n
  exitRing : Nat → Nat × Int
  exitHead : Nat
  phase : Nat → Phase
  log : List Note

def recordExit (w : World n) (pid : Nat) (code : Int) : World n :=
  { w with
    exitRing := Function.update w.exitRing w.exitHead (pid, code)
    exitHead := (w.exitHead + 1) % EXIT_RING
    log := .recorded pid code :: w.log }

def exitLookup (w : World n) (pid : Nat) : Option Int :=
  ((List.range EXIT_RING).find? fun i => (w.exitRing i).1 = pid ∧ 0 < pid).map fun i =>
    (w.exitRing i).2

def taskChildPids (k : Kernel n) (parent max : Nat) : List Nat :=
  (k.allTasks.filter fun t => (k.task t).parentPid = parent ∧ t ≠ parent).take max

def World.goto (w : World n) (t : Nat) (phase : Phase) : World n :=
  { w with phase := Function.update w.phase t phase }

def World.note (w : World n) (note : Note) : World n := { w with log := note :: w.log }

/-- The list is taken; without children the call returns -1. -/
def waitanyList (w : World n) (t : Nat) : World n :=
  match taskChildPids w.kernel t 64 with
  | [] => w.note (.noChildren t)
  | pids => (w.note (.listed t pids)).goto t (.looking pids)

/-- One child is looked up; after the last one the caller sleeps and then starts again. -/
def waitanyLook (w : World n) (t pid : Nat) (rest : List Nat) : World n :=
  match exitLookup w pid, rest with
  | some code, _ => (w.note (.reported t pid code)).goto t .free
  | none, [] =>
    { (w.note (.slept t)).goto t .free with kernel := w.kernel.push t [.sleepTicks 1] }
  | none, rest => w.goto t (.looking rest)

/-- The tasks that an event has linked into `all_tasks` and those it has unlinked. -/
def listNotes (k k' : Kernel n) : List Note :=
  ((k'.allTasks.filter (· ∉ k.allTasks)).map fun t => .created (k'.task t).parentPid t) ++
    (k.allTasks.filter (· ∉ k'.allTasks)).map .reaped

inductive Move (n : Nat)
  | kernel (e : Event n)
  | record (c : Fin n) (code : Int)
  | list (c : Fin n)
  | look (c : Fin n)

/-- The task on CPU `c`, when it is not in a section of the scheduler. -/
def World.onCpu (w : World n) (c : Fin n) : Option Nat :=
  if w.kernel.schedLock ≠ some c ∧ (w.kernel.task (w.kernel.stack c)).code = [] then
    some (w.kernel.stack c)
  else none

/-- A move that cannot be made leaves the state as it is. -/
def World.step (w : World n) : Move n → World n
  | .kernel e =>
    { w with
      kernel := Proc.step w.kernel e
      log := listNotes w.kernel (Proc.step w.kernel e) ++ w.log }
  | .record c code =>
    match w.onCpu c with
    | none => w
    | some t => if w.phase t = .free then (recordExit w t code).goto t .exiting else w
  | .list c =>
    match w.onCpu c with
    | none => w
    | some t => if w.phase t = .free ∧ w.kernel.schedLock = none then waitanyList w t else w
  | .look c =>
    match w.onCpu c with
    | none => w
    | some t =>
      match w.phase t with
      | .looking (pid :: rest) => waitanyLook w t pid rest
      | _ => w

/-- The machine after boot; the idle tasks are children of the first task. -/
def bootWorld (n : Nat) : World n where
  kernel := boot n
  exitRing := fun _ => (0, 0)
  exitHead := 0
  phase := fun _ => .free
  log := (List.range n).map fun c => .created 0 (c + 1)

/-- Nothing is linked, no parent changes, and a CPU goes on with a task of the ring. -/
structure Keeps (k k' : Kernel n) : Prop where
  nextPid : k'.nextPid = k.nextPid
  allTasks : k'.allTasks ⊆ k.allTasks
  runq : k'.runq ⊆ k.runq
  parentPid : ∀ t, (k'.task t).parentPid = (k.task t).parentPid
  current : ∀ c, k'.current c = k.current c ∨ k'.current c ∈ k.runq

namespace Keeps

variable {k k' k'' : Kernel n}

private theorem refl (k : Kernel n) : Keeps k k :=
  ⟨rfl, List.Subset.refl _, List.Subset.refl _, fun _ => rfl, fun _ => .inl rfl⟩

private theorem trans (h : Keeps k k') (h' : Keeps k' k'') : Keeps k k'' := by
  constructor
  · exact h'.nextPid.trans h.nextPid
  · exact List.Subset.trans h'.allTasks h.allTasks
  · exact List.Subset.trans h'.runq h.runq
  · exact fun t => (h'.parentPid t).trans (h.parentPid t)
  · intro c
    obtain hsame | hring := h'.current c
    · rw [hsame]
      exact h.current c
    · exact .inr (h.runq hring)

private theorem of_tasks (hall : k'.allTasks = k.allTasks) (hring : k'.runq = k.runq)
    (hpid : k'.nextPid = k.nextPid) (hcur : k'.current = k.current)
    (hparent : ∀ t, (k'.task t).parentPid = (k.task t).parentPid) : Keeps k k' :=
  ⟨hpid, hall ▸ List.Subset.refl _, hring ▸ List.Subset.refl _, hparent,
    fun c => .inl (congrFun hcur c)⟩

private theorem modify (k : Kernel n) (t : Nat) {f : Task → Task}
    (hf : (f (k.task t)).parentPid = (k.task t).parentPid) : Keeps k (k.modify t f) :=
  of_tasks rfl rfl rfl rfl (modify_field (·.parentPid) k t f hf)

private theorem push (k : Kernel n) (t : Nat) (code : List Sec) : Keeps k (k.push t code) :=
  modify k t rfl

private theorem wake (k : Kernel n) (t : Nat) (resume : Bool) :
    Keeps k (k.modify t (wake resume)) := by
  apply modify
  unfold Proc.wake
  split <;> rfl

private theorem signalQueueTask (k : Kernel n) (t sig : Nat) :
    Keeps k (signalQueueTask k t sig).1 := by
  obtain heq | ⟨-, heq⟩ := signalQueueTask_cases k t sig <;> rw [heq]
  · exact refl k
  · exact modify k t rfl

private theorem readied (k : Kernel n) (c : Fin n) (now : Nat) : Keeps k (readied k c now) := by
  refine ⟨rfl, filter_subset_self .., List.Subset.refl _, fun t => ?_, fun _ => .inl rfl⟩
  unfold Proc.readied
  obtain heq | ⟨-, -, heq⟩ := wakeSleepersLocked_task (reapLocked (k.current c) k) now t <;>
    rw [heq]
  · rfl
  · rfl

private theorem handOver (k : Kernel n) (c : Fin n) {prev pick : Nat} (hpick : pick ∈ k.runq) :
    Keeps k (handOver k c prev pick) := by
  have hleave : ((k.task prev).leave).parentPid = (k.task prev).parentPid := by
    unfold Task.leave
    split <;> rfl
  have htasks := (modify k prev hleave).trans
    (modify (k.modify prev Task.leave) pick (f := Task.enter c) rfl)
  refine ⟨rfl, List.Subset.refl _, List.Subset.refl _, htasks.parentPid, fun c' => ?_⟩
  by_cases hc : c' = c
  · subst hc
    have hself : (Proc.handOver k c' prev pick).current c' = pick := update_self ..
    rw [hself]
    exact .inr hpick
  · exact .inl (update_of_ne hc _ k.current)

variable {c : Fin n} {acts : List (Act n)}

private theorem schedule {now : Nat} (h : scheduleLocked k c now = some (k', acts)) :
    Keeps k k' := by
  obtain ⟨pick, hchoose, -, ⟨-, rfl⟩ | ⟨hne, rfl⟩⟩ := scheduleLocked_cases h
  · exact readied k c now
  obtain ⟨hring, -⟩ | ⟨hprev, -⟩ := choose_spec hchoose
  · exact (readied k c now).trans (handOver _ c hring)
  · exact absurd hprev hne

private theorem exec {inp : Input} {p : Nat} {sec : Sec} {more : List Sec}
    (h : exec k c inp p sec = some (k', more, acts)) : Keeps k k' := by
  -- The sections that end in `schedule_locked`, after some change to the state.
  have hsched : ∀ k1 : Kernel n, Keeps k k1 →
      (scheduleLocked k1 c inp.later).map (fun r => (r.1, ([] : List Sec), r.2)) =
        some (k', more, acts) → Keeps k k' := by
    intro k1 hk1 hs
    obtain ⟨⟨k2, acts2⟩, hr, heq⟩ := Option.map_eq_some_iff.mp hs
    cases heq
    exact hk1.trans (schedule hr)
  cases sec with
  | signalPid pid sig uid check =>
    cases h
    obtain heq | ⟨-, heq⟩ := taskSignalPid_cases k pid sig uid check <;> rw [heq]
    · exact refl k
    · rw [← modify_modify]
      exact (modify k pid rfl).trans (wake _ pid _)
  | wakeSleepers =>
    cases h
    refine of_tasks rfl rfl rfl rfl fun t => ?_
    obtain heq | ⟨-, -, heq⟩ := wakeSleepersLocked_task k inp.now t <;> rw [heq]
    rfl
  | signalWake t resume =>
    cases h
    exact wake k t resume
  | schedule => exact hsched k (refl k) h
  | sleepTicks ticks => exact hsched _ (modify k (k.current c) rfl) h
  | exit code =>
    refine hsched _ ?_ h
    have hdie := modify k (k.current c) (f := Task.die code) rfl
    exact ⟨rfl, List.Subset.refl _, fun t ht => mem_runqRemove ht, hdie.parentPid,
      fun _ => .inl rfl⟩
  | kill t =>
    simp only [Proc.exec] at h
    split at h <;> cases h
    · exact refl k
    · rw [← modify_modify]
      exact (modify k t rfl).trans (wake _ t _)
  | queueTask t sig =>
    cases h
    exact signalQueueTask k t sig
  | dequeue =>
    simp only [Proc.exec] at h
    split at h <;> cases h
    · exact refl k
    · exact modify k p rfl
  | stop =>
    cases h
    exact modify k p rfl
  | frame sig action =>
    simp only [Proc.exec] at h
    split at h <;> cases h
    · exact refl k
    · exact modify k p rfl
  | sigaction sig action =>
    simp only [Proc.exec] at h
    split at h <;> cases h
    · exact modify k p rfl
    · exact refl k
  | sigprocmask mask =>
    cases h
    exact modify k p rfl

end Keeps

private theorem step_cases (k : Kernel n) (e : Event n) :
    Keeps k (step k e) ∨ ∃ c user, step k e = kthreadCreate k c user := by
  refine effect_cases (P := fun k' _ => Keeps k k' ∨ ∃ c user, k' = kthreadCreate k c user) e
    (.inl (.refl k)) (fun c code _ => .inl (.push k (k.stack c) code))
    (fun c inp sec k' more acts _ _ hexec => .inl ?_) (fun c _ => .inl ?_)
    fun c user => .inr ⟨c, user, rfl⟩
  · exact (Keeps.exec hexec).trans (.modify k' (k.stack c) rfl)
  · exact .of_tasks rfl rfl rfl rfl fun _ => rfl

def records (log : List Note) : List (Nat × Int) :=
  log.filterMap fun note => match note with
    | .recorded pid code => some (pid, code)
    | _ => none

variable {a b log notes : List Note} {parent pid t : Nat} {code : Int} {w w' : World n}
  {rest : List Nat} {e : Event n}

private theorem mem_records : (pid, code) ∈ records log ↔ .recorded pid code ∈ log := by
  unfold records
  rw [mem_filterMap]
  constructor
  · rintro ⟨note, hnote, heq⟩
    cases note with
    | recorded pid' code' =>
      cases heq
      exact hnote
    | _ => cases heq
  · intro h
    exact ⟨_, h, rfl⟩

private theorem records_append (a b : List Note) : records (a ++ b) = records a ++ records b :=
  filterMap_append

/-- A slot holds the record whose age is its distance from the head. -/
structure RingHolds (w : World n) : Prop where
  head : w.exitHead < EXIT_RING
  slot : ∀ i < EXIT_RING, w.exitRing i =
    (records w.log).getD ((w.exitHead + (EXIT_RING - 1) - i) % EXIT_RING) (0, 0)

private theorem RingHolds.record (h : RingHolds w) (pid : Nat) (code : Int) :
    RingHolds (recordExit w pid code) := by
  have hhead := h.head
  unfold EXIT_RING at hhead
  constructor
  · exact mod_lt _ (by decide)
  intro i hi
  change update w.exitRing w.exitHead (pid, code) i =
    ((pid, code) :: records w.log).getD
      (((w.exitHead + 1) % EXIT_RING + (EXIT_RING - 1) - i) % EXIT_RING) (0, 0)
  by_cases hhere : i = w.exitHead
  · have hage : ((w.exitHead + 1) % EXIT_RING + (EXIT_RING - 1) - i) % EXIT_RING = 0 := by
      unfold EXIT_RING
      omega
    rw [hage, hhere, update_self]
    rfl
  · have hage : ((w.exitHead + 1) % EXIT_RING + (EXIT_RING - 1) - i) % EXIT_RING =
        (w.exitHead + (EXIT_RING - 1) - i) % EXIT_RING + 1 := by
      unfold EXIT_RING at hi ⊢
      omega
    rw [hage, update_of_ne hhere, h.slot i hi]
    rfl

private theorem RingHolds.recorded (h : RingHolds w) (hlook : exitLookup w pid = some code) :
    .recorded pid code ∈ w.log := by
  obtain ⟨i, hfind, rfl⟩ := Option.map_eq_some_iff.mp hlook
  have hi : i < EXIT_RING := mem_range.mp (mem_of_find?_eq_some hfind)
  have hsome := find?_some hfind
  obtain ⟨hpid, hpos⟩ := of_decide_eq_true hsome
  have hslot := h.slot i hi
  rw [← mem_records]
  generalize (w.exitHead + (EXIT_RING - 1) - i) % EXIT_RING = age at hslot
  cases hage : (records w.log)[age]? with
  | none =>
    rw [getD_eq_getElem?_getD, hage] at hslot
    rw [hslot] at hpid
    exact absurd hpid (Nat.ne_of_lt hpos)
  | some r =>
    rw [getD_eq_getElem?_getD, hage] at hslot
    have hr : (pid, (w.exitRing i).2) = r := by
      rw [← hpid]
      exact hslot
    rw [hr]
    exact mem_of_getElem? hage

private theorem RingHolds.found (h : RingHolds w) {age : Nat} (hpid : 0 < pid)
    (hage : age < EXIT_RING)
    (hrec : (records w.log)[age]? = some (pid, code)) : exitLookup w pid ≠ none := by
  have hhead := h.head
  have hmod : (w.exitHead + (EXIT_RING - 1) - (w.exitHead + (EXIT_RING - 1) - age) % EXIT_RING) %
      EXIT_RING = age := by
    unfold EXIT_RING at hhead hage ⊢
    omega
  have hi : (w.exitHead + (EXIT_RING - 1) - age) % EXIT_RING < EXIT_RING := mod_lt _ (by decide)
  have hslot := h.slot _ hi
  rw [hmod, getD_eq_getElem?_getD, hrec] at hslot
  unfold exitLookup
  rw [ne_eq, Option.map_eq_none_iff, find?_eq_none]
  intro hnone
  apply hnone _ (mem_range.mpr hi)
  rw [hslot]
  exact decide_eq_true ⟨rfl, hpid⟩

/-- `before` goes back to the list that the current look of `parent` has taken. -/
def LooksAt (parent : Nat) (pids : List Nat) (mid old before : List Note) : Prop :=
  before = mid ++ .listed parent pids :: old ∧
    ∀ note ∈ mid, (∀ l, note ≠ .listed parent l) ∧ ∀ pid code, note ≠ .reported parent pid code

/-- A child that had recorded its exit when the list was taken has been followed by 64 others. -/
def Missed (mid old : List Note) (pid : Nat) : Prop :=
  ∀ code newer older, old = newer ++ .recorded pid code :: older →
    EXIT_RING ≤ (records mid).length + (records newer).length

/-- The list holds linked children of `parent`: all of them, or as many as fit. -/
def ListsChildren (parent : Nat) (pids : List Nat) (before : List Note) : Prop :=
  (∀ pid ∈ pids, .created parent pid ∈ before ∧ .reaped pid ∉ before) ∧
    (pids.length = 64 ∨ ∀ pid, .created parent pid ∈ before → .reaped pid ∈ before ∨ pid ∈ pids)

/-- A note and what happened before it. A pid is used once and recorded once. A list holds the
children that were linked. What is reported is a child of the caller that was linked when the list
was taken, with a code that it recorded; -1 is returned when all children have been reaped; and the
caller sleeps if no child of its list was found. -/
def Note.Holds : Note → List Note → Prop
  | .created _ pid, before => .reaped pid ∉ before
  | .reaped _, _ => True
  | .recorded pid _, before => ∀ code, .recorded pid code ∉ before
  | .listed parent pids, before => ListsChildren parent pids before
  | .reported parent pid code, before => ∃ pids mid old, LooksAt parent pids mid old before ∧
      pid ∈ pids ∧ .created parent pid ∈ old ∧ .reaped pid ∉ old ∧ .recorded pid code ∈ before
  | .slept parent, before => ∃ pids mid old, LooksAt parent pids mid old before ∧
      ∀ pid ∈ pids, Missed mid old pid
  | .noChildren parent, before => ∀ pid, .created parent pid ∈ before → .reaped pid ∈ before

def Truthful : List Note → Prop
  | [] => True
  | note :: before => note.Holds before ∧ Truthful before

private theorem truthful_append {before : List Note} (h : Truthful before)
    (hnotes : ∀ a note b, notes = a ++ note :: b → note.Holds (b ++ before)) :
    Truthful (notes ++ before) := by
  induction notes with
  | nil => exact h
  | cons note notes ih =>
    refine ⟨hnotes [] note notes rfl, ih fun a m b heq => ?_⟩
    exact hnotes (note :: a) m b (by rw [heq, cons_append])

def Begun (w : World n) (parent : Nat) (rest : List Nat) : Prop :=
  ∃ seen mid old, LooksAt parent (seen ++ rest) mid old w.log ∧
    (∀ pid ∈ seen ++ rest, 0 < pid ∧ .created parent pid ∈ old ∧ .reaped pid ∉ old) ∧
    ∀ pid ∈ seen, Missed mid old pid

structure Kept (w : World n) : Prop where
  truthful : Truthful w.log
  ring : RingHolds w
  pids : 0 < w.kernel.nextPid ∧ (∀ c, w.kernel.current c < w.kernel.nextPid) ∧
    (∀ t ∈ w.kernel.runq, t < w.kernel.nextPid) ∧ ∀ t ∈ w.kernel.allTasks, t < w.kernel.nextPid
  made : ∀ parent pid, .created parent pid ∈ w.log → pid < w.kernel.nextPid ∧ 0 < pid ∧
    pid ≠ parent ∧ (w.kernel.task pid).parentPid = parent ∧
    (pid ∈ w.kernel.allTasks ∨ .reaped pid ∈ w.log)
  linked : ∀ t ∈ w.kernel.allTasks, .reaped t ∉ w.log ∧
    (t ≠ (w.kernel.task t).parentPid → .created (w.kernel.task t).parentPid t ∈ w.log)
  reaped : ∀ t, .reaped t ∈ w.log → t < w.kernel.nextPid
  recorded : ∀ pid code, .recorded pid code ∈ w.log → w.phase pid = .exiting
  begun : ∀ parent rest, w.phase parent = .looking rest → Begun w parent rest

private theorem Missed.extend {mid old : List Note} (h : Missed mid old pid) (notes : List Note) :
    Missed (notes ++ mid) old pid := by
  intro code newer older heq
  have hmany := h code newer older heq
  rw [records_append, length_append]
  omega

private theorem Begun.extend (h : Begun w parent rest) (hlog : w'.log = notes ++ w.log)
    (hnotes : ∀ note ∈ notes, (∀ l, note ≠ .listed parent l) ∧
      ∀ pid code, note ≠ .reported parent pid code) : Begun w' parent rest := by
  obtain ⟨seen, mid, old, ⟨heq, hmid⟩, hpids, hseen⟩ := h
  refine ⟨seen, notes ++ mid, old, ⟨?_, ?_⟩, hpids, fun pid hpid => (hseen pid hpid).extend notes⟩
  · rw [hlog, heq, append_assoc]
  intro note hnote
  obtain hnote | hnote := mem_append.mp hnote
  · exact hnotes note hnote
  · exact hmid note hnote

private theorem RingHolds.congr (h : RingHolds w) (hhead : w'.exitHead = w.exitHead)
    (hring : w'.exitRing = w.exitRing) (hrec : records w'.log = records w.log) : RingHolds w' := by
  constructor
  · rw [hhead]
    exact h.head
  · rw [hhead, hring, hrec]
    exact h.slot

private theorem listNotes_keeps {k k' : Kernel n} (h : Keeps k k') :
    listNotes k k' = (k.allTasks.filter (· ∉ k'.allTasks)).map .reaped := by
  unfold listNotes
  have hnone : k'.allTasks.filter (· ∉ k.allTasks) = [] := by
    rw [filter_eq_nil_iff]
    intro t ht
    simp [h.allTasks ht]
  rw [hnone]
  rfl

private theorem listNotes_create {k : Kernel n} (c : Fin n) (user : Bool)
    (hpids : ∀ t ∈ k.allTasks, t < k.nextPid) :
    listNotes k (kthreadCreate k c user) = [.created (k.current c) k.nextPid] := by
  have hall : (kthreadCreate k c user).allTasks = k.nextPid :: k.allTasks := rfl
  have hnew : k.nextPid ∉ k.allTasks := fun hmem => lt_irrefl _ (hpids _ hmem)
  have hlinked : (k.nextPid :: k.allTasks).filter (· ∉ k.allTasks) = [k.nextPid] := by
    rw [filter_cons_of_pos (by simpa using hnew), filter_eq_nil_iff.mpr]
    intro t ht
    simp [ht]
  have hunlinked : k.allTasks.filter (· ∉ k.nextPid :: k.allTasks) = [] := by
    rw [filter_eq_nil_iff]
    intro t ht
    simp [ht]
  unfold listNotes
  rw [hall, hlinked, hunlinked]
  simp only [map_cons, map_nil, append_nil, kthreadCreate_task_self]
  rfl

private theorem records_map_reaped (pids : List Nat) : records (pids.map .reaped) = [] := by
  induction pids with
  | nil => rfl
  | cons pid pids ih => exact ih

private theorem Kept.pids_keeps {k : Kernel n} (h : Kept w) (hk : Keeps w.kernel k) :
    0 < k.nextPid ∧ (∀ c, k.current c < k.nextPid) ∧ (∀ t ∈ k.runq, t < k.nextPid) ∧
      ∀ t ∈ k.allTasks, t < k.nextPid := by
  rw [hk.nextPid]
  refine ⟨h.pids.1, fun c => ?_, fun t ht => h.pids.2.2.1 t (hk.runq ht),
    fun t ht => h.pids.2.2.2 t (hk.allTasks ht)⟩
  obtain hsame | hring := hk.current c
  · rw [hsame]
    exact h.pids.2.1 c
  · exact h.pids.2.2.1 _ hring

private theorem Kept.keeps (h : Kept w) (hk : Keeps w.kernel (step w.kernel e)) :
    Kept (w.step (.kernel e)) := by
  have hlog : (w.step (.kernel e)).log =
      (w.kernel.allTasks.filter (· ∉ (step w.kernel e).allTasks)).map .reaped ++ w.log := by
    rw [← listNotes_keeps hk]
    rfl
  have hreaped : ∀ t, .reaped t ∈ (w.step (.kernel e)).log ↔
      (t ∈ w.kernel.allTasks ∧ t ∉ (step w.kernel e).allTasks) ∨ .reaped t ∈ w.log := by
    intro t
    rw [hlog, mem_append]
    simp
  have hother : ∀ note, (∀ t, note ≠ .reaped t) → note ∈ (w.step (.kernel e)).log →
      note ∈ w.log := by
    intro note hnote hmem
    rw [hlog, mem_append, mem_map] at hmem
    obtain ⟨t, -, rfl⟩ | hmem := hmem
    · exact absurd rfl (hnote t)
    · exact hmem
  have hold : ∀ note ∈ w.log, note ∈ (w.step (.kernel e)).log := by
    intro note hmem
    rw [hlog]
    exact mem_append_right _ hmem
  have hkernel : (w.step (.kernel e)).kernel = step w.kernel e := rfl
  constructor
  · rw [hlog]
    refine truthful_append h.truthful fun a note b heq => ?_
    have hmem : note ∈ (w.kernel.allTasks.filter (· ∉ (step w.kernel e).allTasks)).map .reaped := by
      rw [heq]
      simp
    obtain ⟨t, -, rfl⟩ := mem_map.mp hmem
    trivial
  · refine h.ring.congr rfl rfl ?_
    rw [hlog, records_append, records_map_reaped]
    rfl
  · exact h.pids_keeps hk
  · intro parent pid hmade
    obtain ⟨hlt, hpos, hne, hparent, hwhere⟩ := h.made parent pid (hother _ nofun hmade)
    rw [hkernel, hk.nextPid, hk.parentPid pid, hreaped pid]
    refine ⟨hlt, hpos, hne, hparent, ?_⟩
    by_cases hin : pid ∈ (step w.kernel e).allTasks
    · exact .inl hin
    · exact .inr (hwhere.imp_left fun hall => ⟨hall, hin⟩)
  · intro t ht
    have ht0 : t ∈ w.kernel.allTasks := hk.allTasks ht
    obtain ⟨hnot, hmade⟩ := h.linked t ht0
    rw [hkernel, hk.parentPid t, hreaped t]
    refine ⟨?_, fun hne => hold _ (hmade hne)⟩
    rintro (⟨-, hout⟩ | hbefore)
    · exact hout ht
    · exact hnot hbefore
  · intro t ht
    rw [hkernel, hk.nextPid]
    obtain ⟨hall, -⟩ | hbefore := (hreaped t).mp ht
    · exact h.pids.2.2.2 t hall
    · exact h.reaped t hbefore
  · exact fun pid code hrec => h.recorded pid code (hother _ nofun hrec)
  · intro parent rest hphase
    refine (h.begun parent rest hphase).extend hlog fun note hnote => ?_
    obtain ⟨t, -, rfl⟩ := mem_map.mp hnote
    exact ⟨nofun, nofun⟩

private theorem Kept.create (h : Kept w) {c : Fin n} {user : Bool}
    (hk : step w.kernel e = kthreadCreate w.kernel c user) : Kept (w.step (.kernel e)) := by
  have hlog : (w.step (.kernel e)).log =
      .created (w.kernel.current c) w.kernel.nextPid :: w.log := by
    have hnotes := listNotes_create c user h.pids.2.2.2
    rw [← hk] at hnotes
    change listNotes w.kernel (step w.kernel e) ++ w.log = _
    rw [hnotes]
    rfl
  have hkernel : (w.step (.kernel e)).kernel = kthreadCreate w.kernel c user := hk
  have hnext : (kthreadCreate w.kernel c user).nextPid = w.kernel.nextPid + 1 := rfl
  have hall : (kthreadCreate w.kernel c user).allTasks = w.kernel.nextPid :: w.kernel.allTasks :=
    rfl
  have htask : ∀ t < w.kernel.nextPid,
      (kthreadCreate w.kernel c user).task t = w.kernel.task t :=
    fun t ht => kthreadCreate_task_of_ne w.kernel c user (Nat.ne_of_lt ht)
  have hparent : ((kthreadCreate w.kernel c user).task w.kernel.nextPid).parentPid =
      w.kernel.current c := by
    rw [kthreadCreate_task_self]
    rfl
  have hreaped : ∀ t, .reaped t ∈ (w.step (.kernel e)).log ↔ .reaped t ∈ w.log := by
    intro t
    rw [hlog, mem_cons]
    exact or_iff_right nofun
  have hcur : ∀ c, w.kernel.current c < w.kernel.nextPid := h.pids.2.1
  constructor
  · rw [hlog]
    refine ⟨fun hmem => ?_, h.truthful⟩
    exact lt_irrefl _ (h.reaped _ hmem)
  · refine h.ring.congr rfl rfl ?_
    rw [hlog]
    rfl
  · rw [hkernel, hnext, hall]
    refine ⟨succ_pos _, fun c' => lt_succ_of_lt (hcur c'), fun t ht => ?_,
      forall_mem_cons.mpr ⟨lt_succ_self _, fun t ht => lt_succ_of_lt (h.pids.2.2.2 t ht)⟩⟩
    obtain rfl | hring := mem_runqInsert ht
    · exact lt_succ_self _
    · exact lt_succ_of_lt (h.pids.2.2.1 t hring)
  · intro parent pid hmade
    rw [hlog] at hmade
    rw [hkernel, hnext, hall, hreaped pid]
    obtain heq | hmade := mem_cons.mp hmade
    · cases heq
      exact ⟨lt_succ_self _, h.pids.1, (Nat.ne_of_lt (hcur c)).symm, hparent,
        .inl mem_cons_self⟩
    obtain ⟨hlt, hpos, hne, hpar, hwhere⟩ := h.made parent pid hmade
    rw [htask pid hlt]
    exact ⟨lt_succ_of_lt hlt, hpos, hne, hpar, hwhere.imp_left (mem_cons_of_mem _)⟩
  · intro t ht
    rw [hkernel, hall] at ht
    rw [hkernel, hlog]
    obtain rfl | ht := mem_cons.mp ht
    · rw [hparent]
      refine ⟨fun hmem => ?_, fun _ => mem_cons_self⟩
      exact lt_irrefl _ (h.reaped _ ((mem_cons.mp hmem).resolve_left nofun))
    obtain ⟨hnot, hmade⟩ := h.linked t ht
    rw [htask t (h.pids.2.2.2 t ht)]
    refine ⟨fun hmem => hnot ((mem_cons.mp hmem).resolve_left nofun), fun hne => ?_⟩
    exact mem_cons_of_mem _ (hmade hne)
  · intro t ht
    rw [hkernel, hnext]
    exact lt_succ_of_lt (h.reaped t ((hreaped t).mp ht))
  · intro pid code hrec
    rw [hlog] at hrec
    exact h.recorded pid code ((mem_cons.mp hrec).resolve_left nofun)
  · intro parent rest hphase
    have hlog' : (w.step (.kernel e)).log =
        [.created (w.kernel.current c) w.kernel.nextPid] ++ w.log := hlog
    refine (h.begun parent rest hphase).extend hlog' fun note hnote => ?_
    rw [mem_singleton.mp hnote]
    exact ⟨nofun, nofun⟩

def Note.By (t : Nat) : Note → Prop
  | .created .. | .reaped .. => False
  | .recorded pid _ => pid = t
  | .listed parent _ | .reported parent .. | .slept parent | .noChildren parent => parent = t

private theorem Kept.not_recorded (h : Kept w) (ht : w.phase t ≠ .exiting) (code : Int) :
    .recorded t code ∉ w.log := fun hmem => ht (h.recorded t code hmem)

private theorem Kept.tell (h : Kept w) (t : Nat) (notes : List Note)
    (hlog : w'.log = notes ++ w.log)
    (hby : ∀ note ∈ notes, note.By t) (htrue : Truthful w'.log) (hring : RingHolds w')
    (hk : Keeps w.kernel w'.kernel) (hall : w'.kernel.allTasks = w.kernel.allTasks)
    (hphase : ∀ u, u ≠ t → w'.phase u = w.phase u)
    (hrec : w'.phase t = .exiting ∨ w.phase t ≠ .exiting ∧ ∀ code, .recorded t code ∉ notes)
    (hbegun : ∀ rest, w'.phase t = .looking rest → Begun w' t rest) : Kept w' := by
  have hother : ∀ note, ¬ note.By t → (note ∈ w'.log ↔ note ∈ w.log) := by
    intro note hnote
    rw [hlog, mem_append]
    exact or_iff_right fun hmem => hnote (hby note hmem)
  refine ⟨htrue, hring, h.pids_keeps hk, fun parent pid hmade => ?_, fun u hu => ?_, fun u hu => ?_,
    fun pid code hmem => ?_, fun parent rest hlooking => ?_⟩
  · rw [hk.nextPid, hk.parentPid pid, hall, hother (.reaped pid) id]
    exact h.made parent pid ((hother (.created parent pid) id).mp hmade)
  · rw [hall] at hu
    rw [hk.parentPid u, hother (.reaped u) id, hother (.created _ u) id]
    exact h.linked u hu
  · rw [hk.nextPid]
    exact h.reaped u ((hother (.reaped u) id).mp hu)
  · by_cases hpid : pid = t
    · subst hpid
      refine hrec.resolve_right fun ⟨hlive, hnotes⟩ => ?_
      rw [hlog, mem_append] at hmem
      exact h.not_recorded hlive code (hmem.resolve_left (hnotes code))
    · rw [hphase pid hpid]
      exact h.recorded pid code ((hother (.recorded pid code) hpid).mp hmem)
  · by_cases hparent : parent = t
    · subst hparent
      exact hbegun rest hlooking
    rw [hphase parent hparent] at hlooking
    refine (h.begun parent rest hlooking).extend hlog fun note hnote => ?_
    have hnote := hby note hnote
    constructor
    · rintro l rfl
      exact hparent hnote
    · rintro pid code rfl
      exact hparent hnote

@[simp] theorem goto_phase_self (w : World n) (t : Nat) (phase : Phase) :
    (w.goto t phase).phase t = phase := update_self ..

private theorem goto_phase_of_ne (w : World n) {u : Nat} (phase : Phase) (h : u ≠ t) :
    (w.goto t phase).phase u = w.phase u := update_of_ne h ..

private theorem Kept.record (h : Kept w) (ht : w.phase t = .free) (code : Int) :
    Kept ((recordExit w t code).goto t .exiting) := by
  have hfirst := h.not_recorded (t := t) (by rw [ht]; nofun)
  refine h.tell t [.recorded t code] rfl ?_ ⟨hfirst, h.truthful⟩ ?_ (.refl _) rfl
    (fun u hu => goto_phase_of_ne _ _ hu) (.inl (goto_phase_self ..)) fun rest hrest => ?_
  · exact forall_mem_singleton.mpr rfl
  · exact (h.ring.record t code).congr rfl rfl rfl
  · rw [goto_phase_self] at hrest
    cases hrest

private theorem Kept.lists (h : Kept w) (t : Nat) :
    ListsChildren t (taskChildPids w.kernel t 64) w.log := by
  constructor
  · intro pid hpid
    obtain ⟨hall, hchild⟩ := mem_filter.mp (mem_of_mem_take hpid)
    obtain ⟨hparent, hne⟩ := of_decide_eq_true hchild
    obtain ⟨hnot, hmade⟩ := h.linked pid hall
    rw [hparent] at hmade
    exact ⟨hmade hne, hnot⟩
  -- a list that is not cut short is the whole filtered list
  rw [or_iff_not_imp_left]
  intro hshort pid hmade
  obtain ⟨-, -, hne, hparent, hwhere⟩ := h.made t pid hmade
  refine hwhere.symm.imp_right fun hall => ?_
  have hmem : pid ∈ w.kernel.allTasks.filter fun u => (w.kernel.task u).parentPid = t ∧ u ≠ t :=
    mem_filter.mpr ⟨hall, decide_eq_true ⟨hparent, hne⟩⟩
  unfold taskChildPids at hshort ⊢
  rw [length_take] at hshort
  rwa [take_of_length_le (by omega)]

private theorem Kept.list (h : Kept w) (ht : w.phase t = .free) : Kept (waitanyList w t) := by
  have hlive : w.phase t ≠ .exiting := by rw [ht]; nofun
  have hlists := h.lists t
  unfold waitanyList
  generalize taskChildPids w.kernel t 64 = pids at hlists
  cases pids with
  | nil =>
    have hnone : ∀ pid, .created t pid ∈ w.log → .reaped pid ∈ w.log :=
      fun pid hmade => (hlists.2.resolve_left nofun pid hmade).resolve_right nofun
    refine h.tell t [.noChildren t] rfl (forall_mem_singleton.mpr rfl)
      ⟨hnone, h.truthful⟩ (h.ring.congr rfl rfl rfl) (.refl _) rfl (fun _ _ => rfl)
      (.inr ⟨hlive, by simp⟩) fun rest hrest => ?_
    exact absurd (ht.symm.trans hrest) nofun
  | cons pid pids =>
    refine h.tell t [.listed t (pid :: pids)] rfl
      (forall_mem_singleton.mpr rfl) ⟨hlists, h.truthful⟩ (h.ring.congr rfl rfl rfl) (.refl _)
      rfl (fun u hu => goto_phase_of_ne _ _ hu) (.inr ⟨hlive, by simp⟩) fun rest hrest => ?_
    rw [goto_phase_self] at hrest
    cases hrest
    refine ⟨[], [], w.log, ⟨rfl, nofun⟩, fun pid hpid => ?_, nofun⟩
    have hchild := hlists.1 pid hpid
    exact ⟨(h.made t pid hchild.1).2.1, hchild⟩

private theorem Kept.look (h : Kept w) (ht : w.phase t = .looking (pid :: rest)) :
    Kept (waitanyLook w t pid rest) := by
  have hlive : w.phase t ≠ .exiting := by rw [ht]; nofun
  obtain ⟨seen, mid, old, hlooks, hpids, hseen⟩ := h.begun t (pid :: rest) ht
  have hpid := hpids pid (mem_append_right _ mem_cons_self)
  -- A lookup that fails has gone through the whole ring.
  have hmiss : exitLookup w pid = none → Missed mid old pid := by
    intro hnone code newer older heq
    by_contra hfew
    have hrec : (records w.log)[(records mid).length + (records newer).length]? =
        some (pid, code) := by
      have hsplit : records w.log =
          records mid ++ (records newer ++ (pid, code) :: records older) := by
        rw [hlooks.1, heq, records_append]
        change records mid ++ records (newer ++ .recorded pid code :: older) = _
        rw [records_append]
        rfl
      rw [hsplit, getElem?_append_right (Nat.le_add_right _ _), Nat.add_sub_cancel_left,
        getElem?_append_right (Nat.le_refl _), Nat.sub_self]
      rfl
    exact h.ring.found hpid.1 (Nat.lt_of_not_le hfew) hrec hnone
  unfold waitanyLook
  cases hlook : exitLookup w pid with
  | some code =>
    refine h.tell t [.reported t pid code] rfl (forall_mem_singleton.mpr rfl)
      ⟨?_, h.truthful⟩ (h.ring.congr rfl rfl rfl) (.refl _) rfl
      (fun u hu => goto_phase_of_ne _ _ hu) (.inr ⟨hlive, by simp⟩) fun rest' hrest => ?_
    · exact ⟨seen ++ pid :: rest, mid, old, hlooks, mem_append_right _ mem_cons_self,
        hpid.2.1, hpid.2.2, h.ring.recorded hlook⟩
    · rw [goto_phase_self] at hrest
      cases hrest
  | none =>
    have hseen' : ∀ q ∈ seen ++ [pid], Missed mid old q := by
      intro q hq
      obtain hq | hq := mem_append.mp hq
      · exact hseen q hq
      · rw [mem_singleton.mp hq]
        exact hmiss hlook
    cases rest with
    | nil =>
      refine h.tell t [.slept t] rfl (forall_mem_singleton.mpr rfl)
        ⟨⟨seen ++ [pid], mid, old, hlooks, hseen'⟩, h.truthful⟩ (h.ring.congr rfl rfl rfl)
        (.push _ t _) rfl (fun u hu => goto_phase_of_ne _ _ hu) (.inr ⟨hlive, by simp⟩)
        fun rest' hrest => ?_
      have hfree : ((w.note (.slept t)).goto t .free).phase t = .free := goto_phase_self ..
      exact absurd (hfree.symm.trans hrest) nofun
    | cons next rest =>
      refine h.tell t [] rfl nofun h.truthful
        (h.ring.congr rfl rfl rfl) (.refl _) rfl (fun u hu => goto_phase_of_ne _ _ hu)
        (.inr ⟨hlive, nofun⟩) fun rest' hrest => ?_
      rw [goto_phase_self] at hrest
      cases hrest
      refine ⟨seen ++ [pid], mid, old, ?_, ?_, hseen'⟩
      · rw [append_assoc]
        exact hlooks
      · rw [append_assoc]
        exact hpids

private theorem Kept.step {w : World n} (h : Kept w) (m : Move n) : Kept (w.step m) := by
  cases m with
  | kernel e =>
    obtain hk | ⟨c, user, hk⟩ := step_cases w.kernel e
    · exact h.keeps hk
    · exact h.create hk
  | record c code =>
    simp only [World.step]
    split
    · exact h
    split
    · rename_i hfree
      exact h.record hfree code
    · exact h
  | list c =>
    simp only [World.step]
    split
    · exact h
    split
    · rename_i hfree
      exact h.list hfree.1
    · exact h
  | look c =>
    simp only [World.step]
    split
    · exact h
    split
    · rename_i hlooking
      exact h.look hlooking
    · exact h

private theorem kept_boot (n : Nat) : Kept (bootWorld n) := by
  have hlog : ∀ note ∈ (bootWorld n).log, ∃ c < n, note = .created 0 (c + 1) := by
    intro note hnote
    obtain ⟨c, hc, rfl⟩ := mem_map.mp hnote
    exact ⟨c, mem_range.mp hc, rfl⟩
  have hrecords : records (bootWorld n).log = [] := by
    refine eq_nil_iff_forall_not_mem.mpr fun r hr => ?_
    obtain ⟨c, -, heq⟩ := hlog _ (mem_records.mp hr)
    cases heq
  have hall : ∀ t, t ∈ (bootWorld n).kernel.allTasks ↔ t < n + 1 := by
    intro t
    change t ∈ (range (n + 1)).reverse ↔ _
    rw [mem_reverse, mem_range]
  have hnext : (bootWorld n).kernel.nextPid = n + 1 := rfl
  constructor
  · rw [← append_nil (bootWorld n).log]
    refine truthful_append (show Truthful [] from trivial) fun a note b heq => ?_
    have hmem : ∀ m ∈ note :: b, ∃ c < n, m = .created 0 (c + 1) := by
      intro m hm
      apply hlog
      rw [heq]
      exact mem_append_right _ hm
    obtain ⟨c, -, rfl⟩ := hmem note mem_cons_self
    intro hreaped
    rw [append_nil] at hreaped
    obtain ⟨c', -, heq'⟩ := hmem _ (mem_cons_of_mem _ hreaped)
    cases heq'
  · refine ⟨succ_pos 63, fun i _ => ?_⟩
    rw [hrecords]
    rfl
  · rw [hnext]
    refine ⟨succ_pos n, fun c => ?_, fun t ht => ?_, fun t ht => (hall t).mp ht⟩
    · change (if c.val = 0 then 0 else c.val + 1) < n + 1
      split
      · exact succ_pos n
      · exact succ_lt_succ c.2
    · change t ∈ 0 :: ((range n).map (· + 1)).reverse at ht
      simp only [mem_cons, mem_reverse, mem_map, mem_range] at ht
      omega
  · intro parent pid hmade
    obtain ⟨c, hc, heq⟩ := hlog _ hmade
    cases heq
    rw [hnext, hall]
    exact ⟨succ_lt_succ hc, succ_pos c, succ_ne_zero c, rfl,
      .inl (succ_lt_succ hc)⟩
  · intro t ht
    constructor
    · intro hreaped
      obtain ⟨c, -, heq⟩ := hlog _ hreaped
      cases heq
    intro hne
    have hpos : 0 < t := Nat.pos_of_ne_zero hne
    have hlt := (hall t).mp ht
    refine mem_map.mpr ⟨t - 1, mem_range.mpr (by omega), ?_⟩
    rw [Nat.sub_add_cancel hpos]
    rfl
  · intro t hreaped
    obtain ⟨c, -, heq⟩ := hlog _ hreaped
    cases heq
  · intro pid code hrec
    obtain ⟨c, -, heq⟩ := hlog _ hrec
    cases heq
  · intro parent rest hphase
    cases hphase

private theorem Kept.run (h : Kept w) (moves : List (Move n)) : Kept (run World.step moves w) := by
  induction moves generalizing w with
  | nil => exact h
  | cons m moves ih => exact ih (h.step m)

def Note.reports (parent pid : Nat) : Note → Bool
  | .reported parent' pid' _ => parent' = parent ∧ pid' = pid
  | _ => false

def reports (parent pid : Nat) (log : List Note) : Nat := log.countP (Note.reports parent pid)

/-- The children of `parent` stay linked until they are reported, and are gone at its next look. -/
def Prompt (parent : Nat) : List Note → Prop
  | [] => True
  | .reaped pid :: before =>
    (.created parent pid ∈ before → reports parent pid before ≠ 0) ∧ Prompt parent before
  | .listed caller _ :: before =>
    (caller = parent → ∀ pid, reports parent pid before ≠ 0 → .reaped pid ∈ before) ∧
      Prompt parent before
  | _ :: before => Prompt parent before

/-- No child is reported twice, and when -1 is returned each has been reported. -/
def OnceEach (parent : Nat) (log : List Note) : Prop :=
  (∀ pid, reports parent pid log ≤ 1) ∧
    ∀ after before, log = after ++ .noChildren parent :: before →
    ∀ pid, .created parent pid ∈ before → reports parent pid before = 1

private theorem Truthful.suffix (h : Truthful (a ++ b)) : Truthful b := by
  induction a with
  | nil => exact h
  | cons note a ih => exact ih h.2

private theorem Prompt.suffix (h : Prompt parent (a ++ b)) : Prompt parent b := by
  induction a with
  | nil => exact h
  | cons note a ih =>
    cases note with
    | reaped pid => exact ih h.2
    | listed caller pids => exact ih h.2
    | _ => exact ih h

private theorem reports_append (parent pid : Nat) (a b : List Note) :
    reports parent pid (a ++ b) = reports parent pid a + reports parent pid b := countP_append

private theorem reports_le_one (ht : Truthful log) (hp : Prompt parent log) (pid : Nat) :
    reports parent pid log ≤ 1 := by
  induction log with
  | nil => exact zero_le 1
  | cons note before ih =>
    have hbefore := ih ht.2 (Prompt.suffix (a := [note]) hp)
    by_cases hnote : note.reports parent pid
    · -- The list of this report was taken when no earlier report of the child was left standing.
      have hzero : reports parent pid before = 0 := by
        by_contra hne
        cases note with
        | reported parent' pid' code =>
          obtain ⟨rfl, rfl⟩ := of_decide_eq_true hnote
          obtain ⟨pids, mid, old, ⟨heq, hmid⟩, -, -, hnot, -⟩ := ht.1
          have hlisted : Prompt parent' (.listed parent' pids :: old) := by
            apply Prompt.suffix (a := .reported parent' pid' code :: mid)
            rw [cons_append, ← heq]
            exact hp
          have hmid0 : reports parent' pid' mid = 0 := by
            refine countP_eq_zero.mpr fun m hm hrep => ?_
            cases m with
            | reported p q c =>
              obtain ⟨rfl, rfl⟩ := of_decide_eq_true hrep
              exact (hmid _ hm).2 q c rfl
            | _ => cases hrep
          apply hnot
          apply hlisted.1 rfl pid'
          rw [heq, reports_append, hmid0, Nat.zero_add] at hne
          exact hne
        | _ => cases hnote
      unfold reports at hzero ⊢
      rw [countP_cons_of_pos hnote, hzero]
    · unfold reports at hbefore ⊢
      rw [countP_cons_of_neg hnote]
      exact hbefore

private theorem once_each (ht : Truthful log) (hp : Prompt parent log) : OnceEach parent log := by
  refine ⟨reports_le_one ht hp, fun after before heq pid hmade => ?_⟩
  have hsplit : after ++ .noChildren parent :: before =
      (after ++ [.noChildren parent]) ++ before := by
    rw [append_assoc]
    rfl
  have ht' : Truthful before := by
    rw [heq, hsplit] at ht
    exact ht.suffix
  have hp' : Prompt parent before := by
    rw [heq, hsplit] at hp
    exact hp.suffix
  have hreaped : .reaped pid ∈ before := by
    rw [heq] at ht
    exact ht.suffix.1 pid hmade
  obtain ⟨newer, older, rfl⟩ := append_of_mem hreaped
  -- The child was created before it was reaped.
  have hcreated : .created parent pid ∈ older := by
    obtain hnew | hold := mem_append.mp hmade
    · obtain ⟨a, b, rfl⟩ := append_of_mem hnew
      rw [append_assoc] at ht'
      refine absurd ?_ ht'.suffix.1
      exact mem_append_right _ mem_cons_self
    · exact (mem_cons.mp hold).resolve_left nofun
  have hsome : reports parent pid older ≠ 0 := hp'.suffix.1 hcreated
  have hone := reports_le_one ht' hp' pid
  have hall : reports parent pid (newer ++ .reaped pid :: older) =
      reports parent pid newer + reports parent pid older := reports_append ..
  omega

/-- In every run the log is truthful; and where children stay linked until they are reported and no
longer than the next look, each is reported once. -/
theorem children_are_reported (n : Nat) (moves : List (Move n)) :
    Truthful (run World.step moves (bootWorld n)).log ∧
      ∀ parent, Prompt parent (run World.step moves (bootWorld n)).log →
        OnceEach parent (run World.step moves (bootWorld n)).log := by
  have h := ((kept_boot n).run moves).truthful
  exact ⟨h, fun parent hp => once_each h hp⟩

/-- Task 2 is the parent of task 3, which exits with code 7 and leaves the CPU to it. -/
def childExits : List (Move 1) :=
  [.kernel (.create 0 true), .kernel (.call 0 (.sleepTicks 1000)), .kernel (.run 0 ⟨0, 0, true⟩),
    .kernel (.switch 0), .kernel (.create 0 true), .kernel (.call 0 .yield),
    .kernel (.run 0 ⟨0, 0, true⟩), .kernel (.switch 0), .record 0 7, .kernel (.call 0 (.exit 7)),
    .kernel (.run 0 ⟨0, 0, true⟩), .kernel (.run 0 ⟨0, 0, true⟩), .kernel (.switch 0)]

/-- The parent sleeps for a tick first, and its child is reaped. -/
def pollsLate : List (Move 1) :=
  childExits ++ [.kernel (.call 0 (.sleepTicks 1)), .kernel (.run 0 ⟨0, 0, true⟩),
    .kernel (.switch 0), .kernel (.call 0 .yield), .kernel (.run 0 ⟨1, 1, true⟩),
    .kernel (.switch 0), .list 0]

def pollsTwice : List (Move 1) := childExits ++ [.list 0, .look 0, .list 0, .look 0]

theorem exits_are_lost_and_repeated :
    ¬ OnceEach 2 (run World.step pollsLate (bootWorld 1)).log ∧
      ¬ OnceEach 2 (run World.step pollsTwice (bootWorld 1)).log := by
  constructor
  · have hlog : (run World.step pollsLate (bootWorld 1)).log = [.noChildren 2, .reaped 3,
        .recorded 3 7, .created 2 3, .created 0 2, .created 0 1] := by decide +kernel
    rw [hlog]
    intro h
    have hone := h.2 [] _ rfl 3 (by decide)
    exact absurd hone (by decide)
  · have hlog : (run World.step pollsTwice (bootWorld 1)).log = [.reported 2 3 7, .listed 2 [3],
        .reported 2 3 7, .listed 2 [3], .recorded 3 7, .created 2 3, .created 0 2,
        .created 0 1] := by decide +kernel
    rw [hlog]
    intro h
    exact absurd (h.1 3) (by decide)

end KestrelOS.Proc
