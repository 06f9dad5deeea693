import KestrelOS.Lib.ByteNum
import KestrelOS.Proc.Sched

/-!
# Signal frames

`signal_deliver_pending`, `signal_sigreturn` and the two system calls that set up handlers and the
mask, with the frame as bytes of user memory. `vm` answers `vm_fault_in_range`. What a program does
to its registers and its memory between two calls is arbitrary.
-/

namespace KestrelOS.Signal

open Proc (SIGKILL SIGSEGV SIGSTOP SIG_DFL SIG_IGN K_NSIG PAGE_SIZE USER_VA_LIMIT defaultIgnored
  defaultStops)

abbrev Word := BitVec 64

def SIGFRAME_MAGIC : Word := 0x4B5349474652414D
def SEL_UCODE : Word := 0x18
def SEL_UDATA : Word := 0x20
def SA_NODEFER : Word := 1
def SA_RESETHAND : Word := 2
def SA_RESTART : Word := 4

structure Regs where
  (rax rbx rcx rdx rsi rdi rbp r8 r9 r10 r11 r12 r13 r14 r15 vector err rip cs rflags rsp ss : Word)
  deriving DecidableEq

structure KSigaction where
  (handler mask flags restorer : Word)
  deriving DecidableEq

structure SignalFrame where
  (magic oldMask signal : Word)
  saved : Regs

structure Task where
  user : Bool
  sigPending : Word
  sigMask : Word
  sigActions : Nat → KSigaction

def word (b : Bytes) (i : Nat) : Word := BitVec.ofNat 64 (leNat (fun k => b (8 * i + k)) 8)

def wordBytes (w : List Word) : Bytes := fun i => leByte (w.getD (i / 8) 0).toNat (i % 8)

def KSigaction.bytes (a : KSigaction) : Bytes := wordBytes [a.handler, a.mask, a.flags, a.restorer]

def KSigaction.ofBytes (b : Bytes) : KSigaction := ⟨word b 0, word b 1, word b 2, word b 3⟩

def SignalFrame.words (f : SignalFrame) : List Word :=
  let r := f.saved
  [f.magic, f.oldMask, f.signal, r.rax, r.rbx, r.rcx, r.rdx, r.rsi, r.rdi, r.rbp, r.r8, r.r9, r.r10,
    r.r11, r.r12, r.r13, r.r14, r.r15, r.vector, r.err, r.rip, r.cs, r.rflags, r.rsp, r.ss]

def SignalFrame.ofBytes (b : Bytes) : SignalFrame :=
  let w := word b
  ⟨w 0, w 1, w 2, w 3, w 4, w 5, w 6, w 7, w 8, w 9, w 10, w 11, w 12, w 13, w 14, w 15, w 16, w 17,
    w 18, w 19, w 20, w 21, w 22, w 23, w 24⟩

def frameSize : Nat := 200

def userRangeOk (a len : Nat) : Bool :=
  a ≠ 0 ∧ len ≤ 0x10000000 ∧ a < USER_VA_LIMIT ∧ len ≤ USER_VA_LIMIT - a

/-- Address, length and whether the range is to be written. -/
abbrev Vm := Nat → Nat → Bool → Bool

variable (vm : Vm)

def copyFromUser (mem : Bytes) (a len : Nat) : Option Bytes :=
  if userRangeOk a len ∧ vm a len false then some fun i => mem (a + i) else none

def copyToUser (mem : Bytes) (a len : Nat) (src : Bytes) : Option Bytes :=
  if userRangeOk a len ∧ vm a len true then some (splice mem a len src) else none

def sigBit (sig : Nat) : Word := 1 <<< (sig - 1)

def unblockableMask : Word := sigBit SIGKILL ||| sigBit SIGSTOP

def nextPending (t : Task) : Option Nat :=
  let ready := t.sigPending &&& (~~~t.sigMask ||| unblockableMask)
  (List.range' 1 (K_NSIG - 1)).find? fun sig => ready &&& sigBit sig ≠ 0

inductive Outcome
  | nothing (t : Task)
  | handler (t : Task) (r : Regs) (mem : Bytes)
  | terminated (sig : Nat)
  /-- The loop goes on: the task is stopped, or has ignored a signal. -/
  | looping (t : Task)

def enterHandler (sig : Nat) (action : KSigaction) (t : Task) : Task :=
  let mask := t.sigMask ||| action.mask
  let mask := if action.flags &&& SA_NODEFER = 0 then mask ||| sigBit sig else mask
  { t with
    sigMask := mask &&& ~~~unblockableMask
    sigActions := if action.flags &&& SA_RESETHAND = 0 then t.sigActions
      else Function.update t.sigActions sig ⟨0, 0, 0, 0⟩ }

/-- From the frame of one signal to its handler; `none` where the task is terminated by SIGSEGV. -/
def buildFrame (sig : Nat) (action : KSigaction) (t : Task) (r : Regs) (mem : Bytes) :
    Option (Task × Regs × Bytes) :=
  if USER_VA_LIMIT ≤ action.handler.toNat ∨ action.restorer.toNat < PAGE_SIZE ∨
      USER_VA_LIMIT ≤ action.restorer.toNat then none
  else
    let frameSp := (r.rsp - BitVec.ofNat 64 frameSize) &&& ~~~0xF
    let returnSp := frameSp - 8
    if frameSp > r.rsp ∨ ¬ vm returnSp.toNat (r.rsp - returnSp).toNat true then none
    else do
      let frame : SignalFrame := ⟨SIGFRAME_MAGIC, t.sigMask, BitVec.ofNat 64 sig, r⟩
      let mem ← copyToUser vm mem frameSp.toNat frameSize (wordBytes frame.words)
      let mem ← copyToUser vm mem returnSp.toNat 8 (wordBytes [action.restorer])
      some (enterHandler sig action t,
        { r with rip := action.handler, rsp := returnSp, rdi := BitVec.ofNat 64 sig, rax := 0 },
        mem)

/-- SIGKILL and SIGSTOP are not handled. -/
def handlerOf (t : Task) (sig : Nat) : Nat :=
  if sig = SIGKILL ∨ sig = SIGSTOP then SIG_DFL else (t.sigActions sig).handler.toNat

/-- The loop of `signal_deliver_pending`: each turn finds in `sig_pending` what the others have made
of it by then. -/
def deliverLoop (r : Regs) (mem : Bytes) : List (Word → Word) → Task → Outcome
  | [], t => .looping t
  | arrive :: later, t =>
    let t := { t with sigPending := arrive t.sigPending }
    match nextPending t with
    | none => .nothing t
    | some sig =>
      let t := { t with sigPending := t.sigPending &&& ~~~sigBit sig }
      if handlerOf t sig = SIG_IGN ∨ (handlerOf t sig = SIG_DFL ∧ defaultIgnored sig) then
        deliverLoop r mem later t
      else if handlerOf t sig = SIG_DFL then
        if defaultStops sig then deliverLoop r mem later t else .terminated sig
      else
        match buildFrame vm sig (t.sigActions sig) t r mem with
        | none => .terminated SIGSEGV
        | some (t, r, mem) => .handler t r mem

def signalDeliverPending (arrivals : List (Word → Word)) (t : Task) (r : Regs) (mem : Bytes) :
    Outcome :=
  if ¬ t.user ∨ r.cs &&& 3 ≠ 3 then .nothing t else deliverLoop vm r mem arrivals t

def signalSysSigaction (usig uact uold : Word) (t : Task) (mem : Bytes) : Int × Task :=
  let sig := (usig.truncate 32).toInt
  if ¬ (0 < sig ∧ sig < K_NSIG) ∨ sig = SIGKILL ∨ sig = SIGSTOP then (-1, t)
  else
    let old := if uold = 0 then some mem
      else copyToUser vm mem uold.toNat 32 (t.sigActions sig.toNat).bytes
    match old with
    | none => (-1, t)
    | some mem =>
      if uact = 0 then (0, t)
      else
        match copyFromUser vm mem uact.toNat 32 with
        | none => (-1, t)
        | some b =>
          let action := KSigaction.ofBytes b
          if action.flags &&& ~~~(SA_NODEFER ||| SA_RESETHAND ||| SA_RESTART) ≠ 0 then (-1, t)
          else if action.handler.toNat ≠ SIG_DFL ∧ action.handler.toNat ≠ SIG_IGN ∧
              (action.handler.toNat < PAGE_SIZE ∨ USER_VA_LIMIT ≤ action.handler.toNat ∨
                action.restorer.toNat < PAGE_SIZE ∨
                USER_VA_LIMIT ≤ action.restorer.toNat) then (-1, t)
          else
            let action := { action with mask := action.mask &&& ~~~unblockableMask }
            (0, { t with sigActions := Function.update t.sigActions sig.toNat action })

def signalSysSigprocmask (how uset uold : Word) (t : Task) (mem : Bytes) : Int × Task :=
  let old := if uold = 0 then some mem else copyToUser vm mem uold.toNat 8 (wordBytes [t.sigMask])
  match old with
  | none => (-1, t)
  | some mem =>
    if uset = 0 then (0, t)
    else
      match copyFromUser vm mem uset.toNat 8 with
      | none => (-1, t)
      | some b =>
        let set := word b 0 &&& ~~~unblockableMask
        if how = 0 then (0, { t with sigMask := t.sigMask ||| set })
        else if how = 1 then (0, { t with sigMask := t.sigMask &&& ~~~set })
        else if how = 2 then (0, { t with sigMask := set })
        else (-1, t)

def signalSigreturn (t : Task) (r : Regs) (mem : Bytes) : Int × Task × Regs :=
  match copyFromUser vm mem r.rsp.toNat frameSize with
  | none => (-1, t, r)
  | some b =>
    let frame := SignalFrame.ofBytes b
    if frame.magic ≠ SIGFRAME_MAGIC ∨ frame.saved.cs ≠ SEL_UCODE ||| 3 ∨
        frame.saved.ss ≠ SEL_UDATA ||| 3 ∨ frame.saved.rip.toNat < PAGE_SIZE ∨
        USER_VA_LIMIT ≤ frame.saved.rip.toNat ∨ frame.saved.rsp.toNat < PAGE_SIZE ∨
        USER_VA_LIMIT ≤ frame.saved.rsp.toNat then (-1, t, r)
    else
      (0, { t with sigMask := frame.oldMask &&& ~~~unblockableMask },
        { frame.saved with rflags := (frame.saved.rflags &&& 0x240FD5) ||| 0x202 })

/-- A call of a task, with the registers and the memory its program has come to. -/
inductive Call
  | sigaction (vm : Vm) (usig uact uold : Word) (mem : Bytes)
  | sigprocmask (vm : Vm) (how uset uold : Word) (mem : Bytes)
  | deliver (vm : Vm) (arrivals : List (Word → Word)) (r : Regs) (mem : Bytes)
  | sigreturn (vm : Vm) (r : Regs) (mem : Bytes)

/-- What is left of the task by its delivery: nothing runs after it was terminated. -/
def Outcome.task (t : Task) : Outcome → Task
  | .nothing t' | .handler t' _ _ | .looping t' => t'
  | .terminated _ => t

def step (t : Task) : Call → Task
  | .sigaction vm usig uact uold mem => (signalSysSigaction vm usig uact uold t mem).2
  | .sigprocmask vm how uset uold mem => (signalSysSigprocmask vm how uset uold t mem).2
  | .deliver vm arrivals r mem => (signalDeliverPending vm arrivals t r mem).task t
  | .sigreturn vm r mem => (signalSigreturn vm t r mem).2.1

def Task.new : Task := ⟨true, 0, 0, fun _ => ⟨0, 0, 0, 0⟩⟩

theorem word_wordBytes {b : Bytes} {w : List Word} {i n : Nat} (hi : i < n)
    (h : ∀ k < 8 * n, b k = wordBytes w k) : word b i = w.getD i 0 := by
  have hbyte : ∀ k < 8, b (8 * i + k) = leByte (w.getD i 0).toNat k := by
    intro k hk
    rw [h _ (by omega), wordBytes, show (8 * i + k) / 8 = i by omega,
      show (8 * i + k) % 8 = k by omega]
  rw [word, leNat_leByte hbyte]
  apply BitVec.eq_of_toNat_eq
  rw [BitVec.toNat_ofNat]
  omega

theorem ofBytes_of_bytes {b : Bytes} {f : SignalFrame}
    (h : ∀ k < frameSize, b k = wordBytes f.words k) : SignalFrame.ofBytes b = f := by
  have hword : ∀ i < 25, word b i = f.words.getD i 0 := fun i hi => word_wordBytes hi h
  simp [SignalFrame.ofBytes, hword, SignalFrame.words]

theorem copyToUser_eq_some {mem mem' src : Bytes} {a len : Nat}
    (h : copyToUser vm mem a len src = some mem') :
    userRangeOk a len ∧ mem' = splice mem a len src := by
  unfold copyToUser at h
  split at h
  · rename_i hok
    exact ⟨hok.1, (Option.some.inj h).symm⟩
  · cases h

def Task.Clean (t : Task) : Prop := t.sigMask &&& unblockableMask = 0

/-- RFLAGS that a program can have: interrupts on, the reserved bit, and flags of its own. -/
def Regs.CleanFlags (r : Regs) : Prop :=
  r.rflags &&& 0x202 = 0x202 ∧ r.rflags &&& 0x240FD7 = r.rflags

def Regs.InUser (r : Regs) : Prop :=
  r.cs = SEL_UCODE ||| 3 ∧ r.ss = SEL_UDATA ||| 3 ∧ PAGE_SIZE ≤ r.rip.toNat ∧
    r.rip.toNat < USER_VA_LIMIT ∧ PAGE_SIZE ≤ r.rsp.toNat ∧ r.rsp.toNat < USER_VA_LIMIT

/-- Interrupts are on, and IOPL, NT and VM are clear. -/
def Regs.Unprivileged (r : Regs) : Prop := r.rflags &&& 0x200 = 0x200 ∧ r.rflags &&& 0x27000 = 0

/-- The frame of a delivery to a program in a state `ok`, read unmodified by a later `sigreturn`,
restores the registers and the mask. -/
def RoundTrips (ok : Regs → Prop) (t : Task) : Prop :=
  ∀ vm arrivals r mem t' r' mem', ok r →
    signalDeliverPending vm arrivals t r mem = .handler t' r' mem' →
    ∀ (vm2 : Vm) (t2 : Task) (r2 : Regs) (mem2 : Bytes), r2.rsp = r'.rsp + 8 →
      (∀ k < frameSize, mem2 (r2.rsp.toNat + k) = mem' (r2.rsp.toNat + k)) →
      (copyFromUser vm2 mem2 r2.rsp.toNat frameSize).isSome →
      signalSigreturn vm2 t2 r2 mem2 = (0, { t2 with sigMask := t.sigMask }, r)

/-- Whatever is on the stack, `sigreturn` fails and changes nothing or goes to user code. -/
def Confined (t : Task) : Prop :=
  ∀ vm r mem, signalSigreturn vm t r mem = (-1, t, r) ∨
    ((signalSigreturn vm t r mem).1 = 0 ∧ (signalSigreturn vm t r mem).2.2.InUser ∧
      (signalSigreturn vm t r mem).2.2.Unprivileged)

theorem and_not_and (m u : Word) : (m &&& ~~~u) &&& u = 0 := by
  rw [BitVec.and_assoc, BitVec.not_and_self]
  simp

theorem and_not_of_and {m u : Word} (h : m &&& u = 0) : m &&& ~~~u = m := by
  ext i hi
  have hbit := congrArg (·.getLsbD i) h
  simp only [BitVec.getLsbD_and] at hbit
  simp only [BitVec.getElem_and, BitVec.getElem_not, BitVec.getLsbD_eq_getElem hi] at hbit ⊢
  grind

theorem restored_flags {f : Word} (h : f &&& 0x202 = 0x202) (h' : f &&& 0x240FD7 = f) :
    (f &&& 0x240FD5) ||| 0x202 = f := by
  calc (f &&& 0x240FD5) ||| 0x202 = (f &&& 0x240FD5) ||| (f &&& 0x202) := by rw [h]
    _ = f &&& 0x240FD7 := BitVec.and_or_distrib_left.symm
    _ = f := h'

theorem or_and_self (m u : Word) : (m ||| u) &&& u = u := by
  ext i hi
  simp only [BitVec.getElem_and, BitVec.getElem_or]
  grind

theorem unprivileged_flags (f : Word) :
    ((f &&& 0x240FD5) ||| 0x202) &&& 0x200 = 0x200 ∧ ((f &&& 0x240FD5) ||| 0x202) &&& 0x27000 =
      0 := by
  constructor
  · rw [show (0x202 : Word) = 2 ||| 0x200 from rfl, ← BitVec.or_assoc]
    exact or_and_self _ _
  · rw [BitVec.and_or_distrib_right, BitVec.and_assoc]
    simp

/-- The frame is where the handler's stack pointer is once it has returned. -/
def Framed (t : Task) (r r' : Regs) (mem' : Bytes) : Prop :=
  ∃ sig, ∀ k < frameSize, mem' ((r'.rsp + 8).toNat + k) =
    wordBytes (SignalFrame.words ⟨SIGFRAME_MAGIC, t.sigMask, sig, r⟩) k

theorem buildFrame_framed {sig : Nat} {action : KSigaction} {t t' : Task} {r r' : Regs}
    {mem mem' : Bytes} (h : buildFrame vm sig action t r mem = some (t', r', mem')) :
    t'.Clean ∧ Framed t r r' mem' := by
  unfold buildFrame at h
  split at h
  · cases h
  dsimp only at h
  split at h
  · cases h
  obtain ⟨mem1, h1, h⟩ := Option.bind_eq_some_iff.mp h
  obtain ⟨mem2, h2, h⟩ := Option.bind_eq_some_iff.mp h
  obtain ⟨-, rfl⟩ := copyToUser_eq_some vm h1
  obtain ⟨hlow, rfl⟩ := copyToUser_eq_some vm h2
  cases h
  refine ⟨and_not_and _ _, BitVec.ofNat 64 sig, fun k hk => ?_⟩
  dsimp only
  generalize (r.rsp - BitVec.ofNat 64 frameSize) &&& ~~~0xF = sp at hlow ⊢
  replace hlow := of_decide_eq_true hlow
  have hsp : sp - 8 + 8 = sp := BitVec.sub_add_cancel sp 8
  -- The return address goes below the frame: its range would not be the user's if it wrapped.
  have hbelow : (sp - 8).toNat + 8 = sp.toNat := by
    unfold USER_VA_LIMIT at hlow
    bv_omega
  rw [hsp, splice_outside _ _ _ _ _ (.inr (by omega)), splice_inside _ _ _ _ _ hk]

def Outcome.Fits (t : Task) (r : Regs) : Outcome → Prop
  | .handler t' r' mem' => t'.Clean ∧ Framed t r r' mem'
  | .nothing t' | .looping t' => t'.sigMask = t.sigMask
  | .terminated _ => True

theorem deliverLoop_fits (r : Regs) (mem : Bytes) (arrivals : List (Word → Word)) (t : Task) :
    (deliverLoop vm r mem arrivals t).Fits t r := by
  induction arrivals generalizing t with
  | nil => rfl
  | cons arrive later ih =>
    unfold deliverLoop
    dsimp only
    split
    · rfl
    split
    · exact ih _
    split
    · split
      · exact ih _
      · trivial
    split
    · trivial
    rename_i hbuild
    have hframed := buildFrame_framed vm hbuild
    exact hframed

theorem signalDeliverPending_fits (arrivals : List (Word → Word)) (t : Task) (r : Regs)
    (mem : Bytes) : (signalDeliverPending vm arrivals t r mem).Fits t r := by
  unfold signalDeliverPending
  split
  · rfl
  · exact deliverLoop_fits vm r mem arrivals t

theorem signalSysSigaction_sigMask (usig uact uold : Word) (t : Task) (mem : Bytes) :
    (signalSysSigaction vm usig uact uold t mem).2.sigMask = t.sigMask := by
  unfold signalSysSigaction
  grind

theorem signalSysSigprocmask_clean (how uset uold : Word) {t : Task} (mem : Bytes) (h : t.Clean) :
    (signalSysSigprocmask vm how uset uold t mem).2.Clean := by
  have hor : ∀ w, (t.sigMask ||| w &&& ~~~unblockableMask) &&& unblockableMask = 0 := by
    intro w
    rw [BitVec.and_or_distrib_right, and_not_and, h]
    rfl
  have hand : ∀ w, (t.sigMask &&& w) &&& unblockableMask = 0 := by
    intro w
    rw [BitVec.and_assoc, BitVec.and_comm w, ← BitVec.and_assoc, h]
    simp
  unfold signalSysSigprocmask
  grind [Task.Clean, and_not_and]

theorem Task.Clean.step {t : Task} (h : t.Clean) (c : Call) : (Signal.step t c).Clean := by
  cases c with
  | sigaction vm usig uact uold mem =>
    exact (congrArg (· &&& unblockableMask)
      (signalSysSigaction_sigMask vm usig uact uold t mem)).trans h
  | sigprocmask vm how uset uold mem => exact signalSysSigprocmask_clean vm how uset uold mem h
  | deliver vm arrivals r mem =>
    have hfits := signalDeliverPending_fits vm arrivals t r mem
    change ((signalDeliverPending vm arrivals t r mem).task t).Clean
    cases hd : signalDeliverPending vm arrivals t r mem with
    | handler t' r' mem' => exact (hd ▸ hfits).1
    | terminated sig => exact h
    | nothing t' | looping t' =>
      rw [hd] at hfits
      exact (congrArg (· &&& unblockableMask) hfits).trans h
  | sigreturn vm r mem =>
    change (signalSigreturn vm t r mem).2.1.Clean
    unfold signalSigreturn
    grind [Task.Clean, and_not_and]

theorem Task.Clean.roundTrips {t : Task} (h : t.Clean) :
    RoundTrips (fun r => r.InUser ∧ r.CleanFlags) t := by
  intro vm arrivals r mem t' r' mem' hr hdeliver vm2 t2 r2 mem2 hsp hsame hread
  obtain ⟨⟨hcs, hss, hrip, hrip', hrsp, hrsp'⟩, hflags⟩ := hr
  have hfits := signalDeliverPending_fits vm arrivals t r mem
  rw [hdeliver] at hfits
  obtain ⟨-, sig, hframe⟩ := hfits
  have hbytes : SignalFrame.ofBytes (fun i => mem2 (r2.rsp.toNat + i)) =
      ⟨SIGFRAME_MAGIC, t.sigMask, sig, r⟩ := by
    apply ofBytes_of_bytes
    intro k hk
    rw [hsame k hk, hsp]
    exact hframe k hk
  unfold signalSigreturn
  unfold copyFromUser at hread ⊢
  split at hread
  · rename_i hok
    simp only [if_pos hok, hbytes, and_not_of_and h, restored_flags hflags.1 hflags.2]
    rw [if_neg (by simp [hcs, hss, hrip, hrip', hrsp, hrsp'])]
  · cases hread

theorem confined (t : Task) : Confined t := by
  intro vm r mem
  unfold signalSigreturn
  split
  · exact .inl rfl
  dsimp only
  split
  · exact .inl rfl
  rename_i hok
  simp only [not_or, not_lt, not_le, not_not, ne_eq] at hok
  exact .inr ⟨rfl, hok.2, unprivileged_flags _⟩

theorem signal_frames_stay_in_user (calls : List Call) :
    Machine.Always step (fun t => t.Clean ∧ RoundTrips (fun r => r.InUser ∧ r.CleanFlags) t ∧
      Confined t) calls Task.new := by
  apply Machine.always_of_invariant (I := Task.Clean)
  · exact fun t c h => h.step c
  · exact fun t h => ⟨h, h.roundTrips, confined t⟩
  · rfl

def segvHandler : Bytes := splice (fun _ => 0) 0x5000 32 (wordBytes [0x400000, 0, 0, 0x401000])

def nullCall : Regs :=
  { rax := 0, rbx := 0, rcx := 0, rdx := 0, rsi := 0, rdi := 0, rbp := 0, r8 := 0, r9 := 0,
    r10 := 0, r11 := 0, r12 := 0, r13 := 0, r14 := 0, r15 := 0, vector := 14, err := 0x14,
    rip := 0, cs := 0x1B, rflags := 0x202, rsp := 0x7000, ss := 0x23 }

/-- The frame of a fault at address 0 is one that `sigreturn` refuses. -/
theorem null_call_is_not_restored :
    ¬ Machine.Always step (RoundTrips fun r => r.cs &&& 3 = 3 ∧ r.CleanFlags)
      [.sigaction (fun _ _ _ => true) 11 0x5000 0 segvHandler] Task.new := by
  intro h
  have hfail := h.2 (fun _ _ _ => true) [fun p => p ||| sigBit 11] nullCall segvHandler _ _ _
    ⟨by decide, by decide, by decide⟩ rfl (fun _ _ _ => true) Task.new
    { nullCall with rsp := 0x6F30 } _ (by decide +kernel) (fun _ _ => rfl) (by decide +kernel)
  exact absurd (congrArg Prod.fst hfail) (by decide +kernel)

end KestrelOS.Signal
