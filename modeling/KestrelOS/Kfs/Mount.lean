import KestrelOS.Kfs.Handles

/-!
# Mounting and unmounting

`kfs_type_mount` takes a slot of the instance pool under the meta lock, binds the device to it, and
under the file system lock looks for a superblock and replays the journal. KFS_PART_LBA is 2048
sectors of 512 bytes.
-/

namespace KestrelOS.Kfs

def alreadyMounted (s : Driver) (bd : DevId) : Bool :=
  (List.finRange 4).any fun i =>
    (s.instances i).used && (s.instances i).mounted && decide ((s.instances i).bd = some bd)

def freeInstance (s : Driver) : Option InstId :=
  (List.finRange 4).find? fun i => !(s.instances i).used

def KfsFs.zero : KfsFs := ⟨none, 0, 0, ⟨0, 0, 0, 0, 0, 0, 0, 0, 0, 0, 0, 0, 0⟩, false, false, 0⟩

/-- The section under the meta lock: refuse a second instance of the device and take a slot. -/
def mountReserve (bd : DevId) (s : Driver) : Option InstId × Driver :=
  if alreadyMounted s bd then (none, s)
  else
    match freeInstance s with
    | none => (none, s)
    | some fs => (some fs, updInst s fs fun _ => { KfsFs.zero with used := true })

def mountBind (fs : InstId) (bd : DevId) (spb : Nat) (s : Driver) : Driver :=
  updInst s fs fun f => { f with bd := some bd, spb := spb }

def tryOffset (fs : InstId) (lba : Nat) (s : Driver) : Bool × Driver :=
  let s := updInst s fs fun f => { f with startLba := lba }
  match (s.instances fs).bd with
  | none => (false, s)
  | some dev =>
    match blockdevRead dev lba (s.instances fs).spb s with
    | (none, s) => (false, s)
    | (some d, s) =>
      let s := setMem s fs ⟨KfsSuperblock.ofBytes d.byte, d⟩
      (sbPlausible (s.bdev dev) (s.instances fs), s)

/-- The whole device, or else the boot partition; the last attempt only repeats the messages. -/
def probeOffsets (fs : InstId) (partLba : Nat) (s : Driver) : Bool × Driver :=
  let r := tryOffset fs 0 s
  let r := if r.1 = false ∧ partLba ≠ 0 then tryOffset fs partLba r.2 else r
  if r.1 then r else tryOffset fs partLba r.2

/-- A replayed transaction may include block 0, so the superblock is read and checked again. -/
def mountRecover (fs : InstId) (s : Driver) : Bool × Driver :=
  let r := journalRecover fs s
  if r.1 < 0 then (false, r.2)
  else if 0 < r.1 then tryOffset fs (r.2.instances fs).startLba r.2
  else (true, r.2)

def mountProbe (fs : InstId) (partLba : Nat) (s : Driver) : Bool × Driver :=
  let r := probeOffsets fs partLba s
  let r := if r.1 then mountRecover fs r.2 else r
  (r.1, if r.1 then setMounted r.2 fs true else r.2)

def mountAbandon (fs : InstId) (s : Driver) : Driver :=
  updInst s fs fun f => { f with used := false }

inductive MountSec
  | device (bd : DevId)
  | reserve (bd : DevId)
  | bind (fs : InstId) (bd : DevId) (spb : Nat)
  | probe (fs : InstId) (partLba : Nat)
  | abandon (fs : InstId)
  | retire (fs : InstId)
  | release (fs : InstId)

@[reducible] def MountSec.Res : MountSec → Type
  | .device _ => Blockdev
  | .reserve _ => Option InstId
  | .bind .. => Unit
  | .probe .. => Bool
  | .abandon _ => Unit
  | .retire _ => Unit
  | .release _ => Unit

def MountSec.step : (c : MountSec) → Driver → c.Res × Driver
  | .device bd, s => (s.bdev bd, s)
  | .reserve bd, s => mountReserve bd s
  | .bind fs bd spb, s => ((), mountBind fs bd spb s)
  | .probe fs partLba, s => mountProbe fs partLba s
  | .abandon fs, s => ((), mountAbandon fs s)
  | .retire fs, s => ((), Kfs.retire fs s)
  | .release fs, s => ((), instanceRelease fs s)

abbrev MountProg := SecProg MountSec MountSec.Res

namespace Mount

def device (bd : DevId) : MountProg Blockdev := .atomic (MountSec.device bd)
def reserve (bd : DevId) : MountProg (Option InstId) := .atomic (MountSec.reserve bd)
def bind (fs : InstId) (bd : DevId) (spb : Nat) : MountProg Unit :=
  .atomic (MountSec.bind fs bd spb)
def probe (fs : InstId) (partLba : Nat) : MountProg Bool := .atomic (MountSec.probe fs partLba)
def abandon (fs : InstId) : MountProg Unit := .atomic (MountSec.abandon fs)
def retire (fs : InstId) : MountProg Unit := .atomic (MountSec.retire fs)
def release (fs : InstId) : MountProg Unit := .atomic (MountSec.release fs)

end Mount

def mountInto (fs : InstId) (dev : DevId) (d : Blockdev) : MountProg (Option InstId) := do
  Mount.bind fs dev (4096 / d.blockSize)
  if ← Mount.probe fs (2048 * 512 / d.blockSize) then pure (some fs)
  else
    Mount.abandon fs
    pure none

def mountDevice (dev : DevId) (d : Blockdev) : MountProg (Option InstId) :=
  if d.blockSize = 0 ∨ 4096 % d.blockSize ≠ 0 then pure none
  else do
    match ← Mount.reserve dev with
    | none => pure none
    | some fs => mountInto fs dev d

/-- `none` stands for a NULL device; the result is the instance, if the mount succeeds. -/
def kfsTypeMount (bd : Option DevId) : MountProg (Option InstId) :=
  match bd with
  | none => pure none
  | some dev => do
    let d ← Mount.device dev
    mountDevice dev d

def kfsTypeUnmount (fs : Option InstId) : MountProg Unit :=
  match fs with
  | none => pure ()
  | some fs => do
    Mount.retire fs
    Mount.release fs

theorem alreadyMounted_false {s : Driver} {bd : DevId} (h : alreadyMounted s bd = false)
    (g : InstId)
    (hu : (s.instances g).used) (hm : (s.instances g).mounted) : (s.instances g).bd ≠ some bd := by
  intro hbd
  have := List.any_eq_false.mp h g (List.mem_finRange g)
  simp [hu, hm, hbd] at this

theorem freeInstance_unused {fs : InstId} {s : Driver} (h : freeInstance s = some fs) :
    (s.instances fs).used = false := by
  simpa using List.find?_some h

/-- Only the superblock and the offset of `fs` differ. -/
structure Probed (fs : InstId) (s t : Driver) : Prop where
  bdev : t.bdev = s.bdev
  disk : t.disk = s.disk
  bcache : t.bcache = s.bcache
  journalTx : t.journalTx = s.journalTx
  others : ∀ g, g ≠ fs → t.instances g = s.instances g
  inst : ∃ lba sb, t.instances fs = { s.instances fs with startLba := lba, sb := sb }

namespace Probed

variable {fs : InstId} {s t u : Driver}

theorem trans (h : Probed fs s t) (h' : Probed fs t u) : Probed fs s u where
  bdev := h'.bdev.trans h.bdev
  disk := h'.disk.trans h.disk
  bcache := h'.bcache.trans h.bcache
  journalTx := h'.journalTx.trans h.journalTx
  others := fun g hg => (h'.others g hg).trans (h.others g hg)
  inst := by
    obtain ⟨lba, sb, heq⟩ := h.inst
    obtain ⟨lba', sb', heq'⟩ := h'.inst
    exact ⟨lba', sb', by rw [heq', heq]⟩

end Probed

theorem sbPlausible_journal {bd : Blockdev} {f : KfsFs} (h : sbPlausible bd f) :
    f.sb.journalBlocks = 33 := by
  simp only [sbPlausible, decide_eq_true_eq] at h
  exact h.2.2.2.2.2.2.1

theorem tryOffset_probed (fs : InstId) (lba : Nat) (s : Driver) :
    Probed fs s (tryOffset fs lba s).2 ∧
      ((tryOffset fs lba s).2.instances fs).startLba = lba ∧
      ((tryOffset fs lba s).1 →
        ((tryOffset fs lba s).2.instances fs).sb.journalBlocks = 33) := by
  have hset : Probed fs s (updInst s fs fun f => { f with startLba := lba }) :=
    ⟨rfl, rfl, rfl, rfl, fun g hg => by simp [updInst, hg], lba,
      (s.instances fs).sb, by simp [updInst]⟩
  unfold tryOffset
  dsimp only
  split
  · exact ⟨hset, by simp [updInst], by simp⟩
  rename_i dev hdev
  have hread : ∀ t : Driver, SameButTick (updInst s fs fun f => { f with startLba := lba }) t →
      Probed fs s t ∧ (t.instances fs).startLba = lba := by
    intro t ht
    exact ⟨hset.trans
      ⟨ht.bdev, ht.disk, ht.bcache, ht.journalTx, fun g _ => congrFun ht.instances g,
      _, _, by rw [ht.instances]⟩, by rw [ht.instances]; simp [updInst]⟩
  split
  · rename_i s' hs'
    obtain ⟨h1, h2⟩ := hread s' (blockdevRead_frame hs')
    exact ⟨h1, h2, by simp⟩
  rename_i d s' hs'
  obtain ⟨h1, h2⟩ := hread s' (blockdevRead_frame hs')
  refine ⟨h1.trans ⟨rfl, rfl, rfl, rfl, fun g hg => by simp [setMem, setSb, hg],
    (s'.instances fs).startLba, KfsSuperblock.ofBytes d.byte, by simp [setMem, setSb]⟩,
    by simpa [setMem, setSb] using h2, ?_⟩
  exact sbPlausible_journal

theorem probeOffsets_probed (fs : InstId) (partLba : Nat) (s : Driver) :
    Probed fs s (probeOffsets fs partLba s).2 ∧ ((probeOffsets fs partLba s).1 →
      ((probeOffsets fs partLba s).2.instances fs).sb.journalBlocks = 33) := by
  obtain ⟨h0, -, hj0⟩ := tryOffset_probed fs 0 s
  have hsecond : ∀ r : Bool × Driver, Probed fs s r.2 →
      (r.1 → (r.2.instances fs).sb.journalBlocks = 33) → ∀ again : Bool,
      Probed fs s (if again then tryOffset fs partLba r.2 else r).2 ∧
        ((if again then tryOffset fs partLba r.2 else r).1 →
          ((if again then tryOffset fs partLba r.2 else r).2.instances fs).sb.journalBlocks =
          33) := by
    intro r hr hj again
    obtain ⟨h1, -, hj1⟩ := tryOffset_probed fs partLba r.2
    cases again with
    | true => exact ⟨hr.trans h1, hj1⟩
    | false => exact ⟨hr, hj⟩
  obtain ⟨h1, hj1⟩ := hsecond _ h0 hj0 (decide ((tryOffset fs 0 s).1 = false ∧ partLba ≠ 0))
  simp only [decide_eq_true_eq] at h1 hj1
  obtain ⟨h2, hj2⟩ := hsecond _ h1 hj1 (!(if (tryOffset fs 0 s).1 = false ∧ partLba ≠ 0 then
    tryOffset fs partLba (tryOffset fs 0 s).2 else tryOffset fs 0 s).1)
  unfold probeOffsets
  dsimp only
  generalize (if (tryOffset fs 0 s).1 = false ∧ partLba ≠ 0 then
    tryOffset fs partLba (tryOffset fs 0 s).2 else tryOffset fs 0 s) = r at h2 hj2 ⊢
  cases hr : r.1 with
  | true => simpa [hr] using And.intro h2 hj2
  | false => simpa [hr] using And.intro h2 hj2

end KestrelOS.Kfs
