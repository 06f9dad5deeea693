import KestrelOS.Kfs.Crash
import KestrelOS.Kfs.Mount

/-!
# One instance per device

Mounts and unmounts run concurrently, one section at a time. A mount becomes mounted in a later
section than its check for a duplicate, so the check cannot see a mount that is still on its way.
-/

namespace KestrelOS.Kfs

open Function

def MountedUsed (s : Driver) : Prop :=
  ∀ f, (s.instances f).mounted = true → (s.instances f).used = true

theorem mountProbe_inst (fs : InstId) (partLba : Nat) (s : Driver) :
    (∀ g, g ≠ fs → (mountProbe fs partLba s).2.instances g = s.instances g) ∧
      ∃ lba sb, (mountProbe fs partLba s).2.instances fs = { s.instances fs with
        startLba := lba, sb := sb,
        mounted := (mountProbe fs partLba s).1 || (s.instances fs).mounted } := by
  have hrecover : ∀ t, Probed fs s t →
      (∀ g, g ≠ fs → (mountRecover fs t).2.instances g = s.instances g) ∧
      ∃ lba sb, (mountRecover fs t).2.instances fs =
        { s.instances fs with startLba := lba, sb := sb } := by
    intro t ht
    have hf := journalRecover_frame fs t
    obtain ⟨lba, sb, heq⟩ := ht.inst
    have hplain : (∀ g, g ≠ fs → (journalRecover fs t).2.instances g = s.instances g) ∧
        ∃ lba sb, (journalRecover fs t).2.instances fs =
          { s.instances fs with startLba := lba, sb := sb } := by
      rw [hf.instances]
      exact ⟨ht.others, lba, sb, heq⟩
    unfold mountRecover
    dsimp only
    split
    · exact hplain
    split
    · have hp := (tryOffset_probed fs ((journalRecover fs t).2.instances fs).startLba
        (journalRecover fs t).2).1
      obtain ⟨lba', sb', heq'⟩ := hp.inst
      obtain ⟨lba'', sb'', heq''⟩ := hplain.2
      exact ⟨fun g hg => (hp.others g hg).trans (hplain.1 g hg), lba', sb', by rw [heq', heq'']⟩
    · exact hplain
  have hp := (probeOffsets_probed fs partLba s).1
  unfold mountProbe
  dsimp only
  cases hok : (probeOffsets fs partLba s).1 with
  | false =>
    obtain ⟨lba, sb, heq⟩ := hp.inst
    simp only [Bool.false_eq_true, if_false, hok, Bool.false_or]
    exact ⟨hp.others, lba, sb, heq⟩
  | true =>
    obtain ⟨hothers, lba, sb, heq⟩ := hrecover _ hp
    simp only [if_true]
    cases (mountRecover fs (probeOffsets fs partLba s).2).1 with
    | false =>
      simp only [Bool.false_eq_true, if_false, Bool.false_or]
      exact ⟨hothers, lba, sb, heq⟩
    | true =>
      simp only [if_true, Bool.true_or]
      refine ⟨fun g hg => ?_, lba, sb, by simp [setMounted, heq]⟩
      simp only [setMounted, hg, if_false]
      exact hothers g hg

/-- A mount, and perhaps later the unmount of what it returned: the mount table hands an instance
to `kfs_type_unmount` once. -/
def mountTail (thenUnmount : Bool) : Option InstId → MountProg Unit
  | none => pure ()
  | some fs => if thenUnmount then kfsTypeUnmount (some fs) else pure ()

def mountTask (bd : Option DevId) (thenUnmount : Bool) : MountProg Unit :=
  kfsTypeMount bd >>= mountTail thenUnmount

inductive MountStage
  | start (dev : DevId)
  | checked (dev : DevId) (d : Blockdev)
  | reserved (fs : InstId) (dev : DevId) (d : Blockdev)
  | bound (fs : InstId) (dev : DevId) (d : Blockdev)
  | failed (fs : InstId)
  | serving (fs : InstId)
  | retired (fs : InstId)
  | finished

def MountStage.prog (thenUnmount : Bool) : MountStage → MountProg Unit
  | .start dev => mountTask (some dev) thenUnmount
  | .checked dev d => mountDevice dev d >>= mountTail thenUnmount
  | .reserved fs dev d => mountInto fs dev d >>= mountTail thenUnmount
  | .bound fs _ d => .call (.probe fs (2048 * 512 / d.blockSize)) fun ok =>
      if ok then mountTail thenUnmount (some fs) else .call (.abandon fs) fun _ => pure ()
  | .failed fs => .call (.abandon fs) fun _ => pure ()
  | .serving fs => .call (.retire fs) fun _ => .call (.release fs) fun _ => pure ()
  | .retired fs => .call (.release fs) fun _ => pure ()
  | .finished => pure ()

def MountStage.slot : MountStage → Option InstId
  | .reserved fs _ _ => some fs
  | .bound fs _ _ => some fs
  | .failed fs => some fs
  | .serving fs => some fs
  | .retired fs => some fs
  | _ => none

/-- The device of a mount that has passed the duplicate check and is not mounted yet. -/
def MountStage.flight : MountStage → Option DevId
  | .reserved _ dev _ => some dev
  | .bound _ dev _ => some dev
  | _ => none

def InFlight (s : Driver) (dev : DevId) : MountProg Unit → Prop
  | .call (.bind _ d _) _ => d = dev
  | .call (.probe fs _) _ => (s.instances fs).bd = some dev
  | _ => False

def MountStage.Ok (s : Driver) : MountStage → Prop
  | .reserved fs _ _ => (s.instances fs).used = true ∧ (s.instances fs).mounted = false
  | .bound fs dev _ => (s.instances fs).used = true ∧ (s.instances fs).mounted = false ∧
      (s.instances fs).bd = some dev
  | .failed fs => (s.instances fs).used = true ∧ (s.instances fs).mounted = false
  | .serving fs => (s.instances fs).used = true
  | .retired fs => (s.instances fs).used = true ∧ (s.instances fs).mounted = false
  | _ => True

theorem MountStage.Ok.used {s : Driver} {st : MountStage} (h : st.Ok s) {fs : InstId}
    (hfs : st.slot = some fs) : (s.instances fs).used := by
  cases st <;> simp only [slot, Option.some.injEq, reduceCtorEq] at hfs <;> subst hfs
  case serving => exact h
  all_goals exact h.1

theorem MountStage.Ok.congr {s t : Driver} {st : MountStage} (h : st.Ok s)
    (heq : ∀ fs, st.slot = some fs → t.instances fs = s.instances fs) : st.Ok t := by
  cases st with
  | start dev => trivial
  | checked dev d => trivial
  | finished => trivial
  | reserved fs dev d => simpa only [Ok, heq fs rfl] using h
  | bound fs dev d => simpa only [Ok, heq fs rfl] using h
  | failed fs => simpa only [Ok, heq fs rfl] using h
  | serving fs => simpa only [Ok, heq fs rfl] using h
  | retired fs => simpa only [Ok, heq fs rfl] using h

def OnePerDevice (s : Driver) : Prop :=
  ∀ dev f g, (s.instances f).mounted = true → (s.instances g).mounted = true →
    (s.instances f).bd = some dev → (s.instances g).bd = some dev → f = g

/-- Tasks own their slots, and no two of them, or one of them and a mounted instance, are about the
same device. -/
structure Mounting (stage : Nat → MountStage) (s : Driver) : Prop where
  ok : ∀ i, (stage i).Ok s
  slots : ∀ i j fs, (stage i).slot = some fs → (stage j).slot = some fs → i = j
  flights : ∀ i j dev, (stage i).flight = some dev → (stage j).flight = some dev → i = j
  landed : ∀ i dev, (stage i).flight = some dev → ∀ f, (s.instances f).mounted = true →
    (s.instances f).bd ≠ some dev
  used : MountedUsed s
  one : OnePerDevice s

section Mounting

variable {stage : Nat → MountStage} {s t : Driver} {i : Nat} {st : MountStage}

theorem Mounting.look (h : Mounting stage s) (hslot : st.slot = none) (hflight : st.flight = none)
    (hok : st.Ok s) : Mounting (update stage i st) s := by
  obtain ⟨hoks, hslots, hflights, hlanded, hused, hone⟩ := h
  constructor <;> grind [update_apply]

theorem Mounting.work (h : Mounting stage s) (fs : InstId)
    (hothers : ∀ g, g ≠ fs → t.instances g = s.instances g)
    (hmine : ∀ j, j ≠ i → (stage j).slot ≠ some fs) (hok : st.Ok t)
    (hslot : ∀ f, st.slot = some f → f = fs)
    (hflight : ∀ dev, st.flight = some dev → (t.instances fs).mounted = false ∧
      (∀ j, j ≠ i → (stage j).flight ≠ some dev) ∧
      ∀ g, (s.instances g).mounted → (s.instances g).bd ≠ some dev)
    (hmount : (t.instances fs).mounted → (t.instances fs).used ∧
      ∀ dev, (t.instances fs).bd = some dev → (∀ j, j ≠ i → (stage j).flight ≠ some dev) ∧
        ∀ g, g ≠ fs → (s.instances g).mounted → (s.instances g).bd ≠ some dev) :
    Mounting (update stage i st) t := by
  obtain ⟨hoks, hslots, hflights, hlanded, hused, hone⟩ := h
  have hoks' : ∀ j, j ≠ i → (stage j).Ok t := fun j hj =>
    (hoks j).congr fun f hf => hothers f (by rintro rfl; exact hmine j hj hf)
  unfold MountedUsed at hused
  unfold OnePerDevice at hone
  constructor
  · grind [update_apply]
  · grind [update_apply]
  · grind [update_apply]
  · grind [update_apply]
  · grind [MountedUsed]
  · grind [OnePerDevice]

theorem Mounting.leave (h : Mounting stage s) {fs : InstId} (hfs : (stage i).slot = some fs)
    (hothers : ∀ g, g ≠ fs → t.instances g = s.instances g)
    (hgone : (t.instances fs).mounted = false) (hok : st.Ok t)
    (hslot : ∀ f, st.slot = some f → f = fs)
    (hflight : st.flight = none) : Mounting (update stage i st) t := by
  refine h.work fs hothers (fun j hj hjs => hj (h.slots j i fs hjs hfs)) hok hslot ?_ ?_
  · simp [hflight]
  · simp [hgone]

end Mounting

abbrev MountPool := Pool MountSec MountSec.Res Driver

/-- Every task runs the same sections. -/
def mountSem : Nat → (c : MountSec) → Driver → c.Res × Driver := fun _ => MountSec.step

/-- The duplicate check runs while no other mount of the device is on its way. -/
def NoneInFlight (_ : Nat) (c : MountSec) (p : MountPool) : Prop :=
  match c with
  | .reserve dev => ∀ j, ¬ InFlight p.state dev (p.prog j)
  | _ => True

/-- The programs are those of the stages, which keep to `Mounting`. -/
def Tracked (p : MountPool) : Prop :=
  ∃ (stage : Nat → MountStage) (thenUnmount : Nat → Bool),
    (∀ i, p.prog i = (stage i).prog (thenUnmount i)) ∧ Mounting stage p.state

theorem inFlight_of_stage {s : Driver} {st : MountStage} (h : st.Ok s) (u : Bool) {dev : DevId}
    (hf : st.flight = some dev) : InFlight s dev (st.prog u) := by
  cases st with
  | reserved fs d bd =>
    simp only [MountStage.flight, Option.some.injEq] at hf
    exact hf
  | bound fs d bd =>
    simp only [MountStage.flight, Option.some.injEq] at hf
    exact hf ▸ h.2.2
  | _ => simp [MountStage.flight] at hf

theorem Tracked.step (p : MountPool) (i : Nat) (c : MountSec)
    (k : c.Res → SecProg MountSec MountSec.Res Unit) (hc : p.prog i = .call c k)
    (hok : NoneInFlight i c p) (h : Tracked p) :
    Tracked ⟨(mountSem i c p.state).2, update p.prog i (k (mountSem i c p.state).1)⟩ := by
  obtain ⟨stage, u, hprog, hm⟩ := h
  -- the new stage of the task, with its program
  have hdone : ∀ (st : MountStage) (t : Driver), (mountSem i c p.state).2 = t →
      k (mountSem i c p.state).1 = st.prog (u i) → Mounting (update stage i st) t →
      Tracked ⟨(mountSem i c p.state).2,
        update p.prog i (k (mountSem i c p.state).1)⟩ := by
    intro st t ht hk hmt
    refine ⟨update stage i st, u, fun j => ?_, ht ▸ hmt⟩
    by_cases hj : j = i
    · subst hj
      simp only [update_self]
      exact hk
    · simp only [update_of_ne hj]
      exact hprog j
  have hown : ∀ fs, (stage i).slot = some fs → ∀ j, j ≠ i → (stage j).slot ≠ some fs :=
    fun fs hfs j hj hjs => hj (hm.slots j i fs hjs hfs)
  have hfly : ∀ dev, (stage i).flight = some dev → ∀ j, j ≠ i → (stage j).flight ≠ some dev :=
    fun dev hdev j hj hjf => hj (hm.flights j i dev hjf hdev)
  have hi := hprog i
  have hoki := hm.ok i
  rw [hc] at hi
  cases hst : stage i with
  | start dev =>
    rw [hst] at hi
    cases hi
    exact hdone (.checked dev (p.state.bdev dev)) p.state rfl rfl (hm.look rfl rfl trivial)
  | checked dev d =>
    rw [hst] at hi
    simp only [MountStage.prog, mountDevice] at hi
    split at hi
    · cases hi
    cases hi
    cases hdup : alreadyMounted p.state dev with
    | true =>
      have hsem : mountSem i (.reserve dev) p.state = (none, p.state) := by
        simp [mountSem, MountSec.step, mountReserve, hdup]
      exact hdone .finished p.state (by rw [hsem]) (by rw [hsem]; rfl) (hm.look rfl rfl trivial)
    | false =>
      cases hfree : freeInstance p.state with
      | none =>
        have hsem : mountSem i (.reserve dev) p.state = (none, p.state) := by
          simp [mountSem, MountSec.step, mountReserve, hdup, hfree]
        exact hdone .finished p.state (by rw [hsem]) (by rw [hsem]; rfl) (hm.look rfl rfl trivial)
      | some fs =>
        have hunused := freeInstance_unused hfree
        have hsem : mountSem i (.reserve dev) p.state = (some fs, updInst p.state fs fun _ =>
            { KfsFs.zero with used := true }) := by
          simp only [mountSem, MountSec.step, mountReserve, hdup, hfree, Bool.false_eq_true,
            if_false]
        refine hdone (.reserved fs dev d) _ rfl (by rw [hsem]; rfl) ?_
        rw [hsem]
        refine hm.work fs (fun g hg => by simp [updInst, hg]) ?_ ?_
          (by simp [MountStage.slot]) ?_ ?_
        · intro j _ hjs
          rw [(hm.ok j).used hjs] at hunused
          simp at hunused
        · simp [MountStage.Ok, updInst, KfsFs.zero]
        · intro dev' hdev'
          obtain rfl : dev = dev' := Option.some.inj hdev'
          refine ⟨by simp [updInst, KfsFs.zero], fun j _ hj => ?_, fun g hg => ?_⟩
          · apply hok j
            rw [hprog j]
            exact inFlight_of_stage (hm.ok j) (u j) hj
          · exact alreadyMounted_false hdup g (hm.used g hg) hg
        · simp [updInst, KfsFs.zero]
  | reserved fs dev d =>
    rw [hst] at hi hoki
    cases hi
    have hself : (mountBind fs dev (4096 / d.blockSize) p.state).instances fs =
        { p.state.instances fs with bd := some dev, spb := 4096 / d.blockSize } := by
      simp [mountBind, updInst]
    have hfl : (stage i).flight = some dev := by rw [hst]; rfl
    refine hdone (.bound fs dev d) (mountBind fs dev (4096 / d.blockSize) p.state) rfl ?_ ?_
    · change SecProg.call _ _ = SecProg.call _ _
      congr 1
      funext ok
      cases ok <;> rfl
    refine hm.work fs (fun g hg => by simp [mountBind, updInst, hg]) (hown fs (by rw [hst]; rfl)) ?_
      (by simp [MountStage.slot]) (fun dev' hdev' => ?_) (by simp [hself, hoki.2])
    · simp only [MountStage.Ok, hself, and_true]
      exact hoki
    · obtain rfl : dev = dev' := Option.some.inj hdev'
      exact ⟨by rw [hself]; exact hoki.2, hfly dev hfl, hm.landed i dev hfl⟩
  | bound fs dev d =>
    rw [hst] at hi hoki
    cases hi
    obtain ⟨hothers, lba, sb, heq⟩ := mountProbe_inst fs (2048 * 512 / d.blockSize) p.state
    have hfl : (stage i).flight = some dev := by rw [hst]; rfl
    have hslot : (stage i).slot = some fs := by rw [hst]; rfl
    cases hprobe : (mountProbe fs (2048 * 512 / d.blockSize) p.state).1 with
    | false =>
      rw [hprobe, Bool.false_or] at heq
      refine hdone (.failed fs) (mountProbe fs (2048 * 512 / d.blockSize) p.state).2 rfl ?_ ?_
      · simp only [mountSem, MountSec.step, hprobe]
        rfl
      refine hm.leave hslot hothers (by rw [heq]; exact hoki.2.1) ?_ (by simp [MountStage.slot]) rfl
      simp only [MountStage.Ok, heq]
      exact ⟨hoki.1, hoki.2.1⟩
    | true =>
      rw [hprobe, Bool.true_or] at heq
      -- the slot is mounted from here on, and what flew to its device has landed
      have hland : ∀ st : MountStage, st.Ok (mountProbe fs (2048 * 512 / d.blockSize) p.state).2 →
          (∀ f, st.slot = some f → f = fs) → st.flight = none →
          Mounting (update stage i st)
            (mountProbe fs (2048 * 512 / d.blockSize) p.state).2 := by
        intro st hst hs hf
        refine hm.work fs hothers (hown fs hslot) hst hs (by simp [hf]) fun _ => ?_
        rw [heq]
        refine ⟨hoki.1, fun dev' hdev' => ?_⟩
        obtain rfl : dev = dev' := Option.some.inj (hoki.2.2.symm.trans hdev')
        exact ⟨hfly dev hfl, fun g _ => hm.landed i dev hfl g⟩
      by_cases hu : u i = true
      · refine hdone (.serving fs) _ rfl ?_ (hland _ ?_ (by simp [MountStage.slot]) rfl)
        · simp only [mountSem, MountSec.step, hprobe, mountTail, hu]
          rfl
        · simp only [MountStage.Ok, heq]
          exact hoki.1
      · refine hdone .finished _ rfl ?_ (hland _ trivial (by simp [MountStage.slot]) rfl)
        simp only [mountSem, MountSec.step, hprobe, mountTail, hu]
        rfl
  | failed fs =>
    rw [hst] at hi hoki
    cases hi
    refine hdone .finished (mountAbandon fs p.state) rfl rfl ?_
    refine hm.leave (by rw [hst]; rfl) (fun g hg => ?_) ?_ trivial (by simp [MountStage.slot]) rfl
    · simp [mountAbandon, updInst, hg]
    · simp [mountAbandon, updInst, hoki.2]
  | serving fs =>
    rw [hst] at hi hoki
    cases hi
    obtain ⟨hothers, hgone⟩ := retire_frame fs p.state
    have hused : ((retire fs p.state).instances fs).used = (p.state.instances fs).used := by
      simp [retire, bcacheInvalidate, setMounted]
    refine hdone (.retired fs) (retire fs p.state) rfl rfl ?_
    refine hm.leave (by rw [hst]; rfl) hothers hgone ?_ (by simp [MountStage.slot]) rfl
    simp only [MountStage.Ok, hused]
    exact ⟨hoki, hgone⟩
  | retired fs =>
    rw [hst] at hi hoki
    cases hi
    refine hdone .finished (instanceRelease fs p.state) rfl rfl ?_
    refine hm.leave (by rw [hst]; rfl) (fun g hg => ?_) ?_ trivial (by simp [MountStage.slot]) rfl
    · unfold instanceRelease
      split
      · simp [updInst, hg]
      · rfl
    · unfold instanceRelease
      split
      · simp [updInst, hoki.2]
      · exact hoki.2
  | finished =>
    rw [hst] at hi
    cases hi

/-- From boot, over any interleaving of any number of mounts and unmounts: where no duplicate check
runs while another mount of the same device is on its way, no device has two mounted instances. -/
theorem mounts_onePerDevice {s : Driver} (hboot : ∀ f, (s.instances f).mounted = false)
    (tasks : Nat → Option DevId × Bool) (sched : List Nat)
    (hok : Pool.Meets mountSem NoneInFlight sched
      ⟨s, fun i => mountTask (tasks i).1 (tasks i).2⟩) :
    OnePerDevice
      (Pool.run mountSem sched ⟨s, fun i => mountTask (tasks i).1 (tasks i).2⟩).state := by
  have hstart : Tracked ⟨s, fun i => mountTask (tasks i).1 (tasks i).2⟩ := by
    refine ⟨fun i => match (tasks i).1 with | some dev => .start dev | none => .finished,
      fun i => (tasks i).2, fun i => ?_, ?_⟩
    · cases hbd : (tasks i).1 with
      | none => simp only [hbd]; rfl
      | some dev => simp only [hbd]; rfl
    have hnone : ∀ i, (match (tasks i).1 with
        | some dev => MountStage.start dev | none => .finished).slot = none ∧
        (match (tasks i).1 with
        | some dev => MountStage.start dev | none => .finished).flight = none := by
      intro i
      split <;> exact ⟨rfl, rfl⟩
    refine ⟨fun i => ?_, fun i j f hi => ?_, fun i j dev hi => ?_, fun i dev hi => ?_,
      fun f hf => ?_, fun dev f g hf => ?_⟩
    · split <;> trivial
    · simp [(hnone i).1] at hi
    · simp [(hnone i).2] at hi
    · simp [(hnone i).2] at hi
    · simp [hboot] at hf
    · simp [hboot] at hf
  obtain ⟨stage, u, -, hm⟩ := Pool.run_keeps Tracked.step sched hok hstart
  exact hm.one

def cleanDevices : Driver :=
  { smallDriver 40 4 (fun b =>
      if b = 0 then Block.ofBytes (smallSb 40 4).toBytes else Block.zero) with
    instances := fun _ => KfsFs.zero }

def sameDevice : MountPool := ⟨cleanDevices, fun _ => mountTask (some 0) false⟩

/-- One mount after the other: the second is refused. -/
theorem mounts_onePerDevice_serial :
    OnePerDevice (Pool.run mountSem [0, 0, 0, 0, 1, 1] sameDevice).state :=
  mounts_onePerDevice (s := cleanDevices) (fun _ => rfl) (fun _ => (some 0, false))
    [0, 0, 0, 0, 1, 1] (by
      refine ⟨fun c k hc => ?_, fun c k hc => ?_, fun c k hc => ?_, fun c k hc => ?_,
        fun c k hc => ?_, fun c k hc => ?_, trivial⟩ <;> cases hc
      case refine_2 =>
        rintro (_ | _ | j) <;> exact id
      case refine_6 =>
        rintro (_ | _ | j) <;> exact id
      all_goals trivial)

/-- Two mounts of one device that both pass the duplicate check before either has bound it. -/
theorem mounts_twice :
    ¬ OnePerDevice (Pool.run mountSem [0, 0, 1, 1, 0, 0, 1, 1] sameDevice).state := by
  intro h
  have := h 0 0 1 (by decide +kernel) (by decide +kernel) (by decide +kernel) (by decide +kernel)
  simp at this

end KestrelOS.Kfs
