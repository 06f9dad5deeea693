import KestrelOS.Kfs.Layout
import KestrelOS.Lib.TxProg
import Mathlib.Data.List.FinRange

/-!
# Block devices and the block cache

The driver state holds the devices, the pool of mounted instances, the write-through cache and the
one running transaction. Device contents are kept in units of 4 KiB, addressed by the lba where the
unit starts. Whether an access fails is read from a script, and a failed write may leave any
contents on the platter.
-/

namespace KestrelOS.Kfs

open Function

abbrev DevId := Nat

/-- An index into the pool of KFS_MAX_MOUNTS instances. -/
abbrev InstId := Fin 4

scoped instance four : NeZero 4 := ⟨by decide⟩

structure Blockdev where
  blockSize : Nat
  blocks : Nat
  /-- The driver has a `write` callback. -/
  writable : Bool

inductive IoOutcome
  | ok
  | fail (residue : Option Block)

structure KfsFs where
  bd : Option DevId
  startLba : Nat
  spb : Nat
  sb : KfsSuperblock
  used : Bool
  mounted : Bool
  handles : Nat

structure BcacheSlot where
  fs : Option InstId
  blk : Nat
  stamp : Nat
  data : Block

/-- The single global transaction; `count` is the number of entries. -/
structure JournalTx where
  fs : Option InstId
  active : Bool
  failed : Bool
  sequence : Nat
  savedSb : KfsSuperblock
  entry : List (Nat × Block)

structure Driver where
  bdev : DevId → Blockdev
  disk : DevId → Nat → Block
  instances : InstId → KfsFs
  bcache : Fin 16 → BcacheSlot
  bcacheClock : Nat
  journalTx : JournalTx
  /-- The raw superblock buffer shared by all instances. -/
  sbBlock : Block
  /-- Outcome of the n-th device access, which may depend on the device and the lba. -/
  io : Nat → DevId → Nat → IoOutcome
  tick : Nat

def KfsFs.lba (f : KfsFs) (blk : Nat) : Nat := f.startLba + blk * f.spb

/-- The sanity check on a superblock read at mount; the v1 and v2 magics only change a message. -/
def sbPlausible (bd : Blockdev) (f : KfsFs) : Bool :=
  let sb := f.sb
  decide (sb.magic = 0x3353464B ∧
    sb.totalBlocks ≠ 0 ∧
    sb.rootIno = 1 ∧
    sb.bitmapStart = 1 ∧
    sb.bitmapBlocks ≠ 0 ∧
    sb.bitmapStart + sb.bitmapBlocks = sb.journalStart ∧
    sb.journalBlocks = 33 ∧
    sb.journalStart + sb.journalBlocks = sb.inodeStart ∧
    sb.inodeBlocks ≠ 0 ∧
    sb.inodeStart + sb.inodeBlocks = sb.dataStart ∧
    sb.dataStart < sb.totalBlocks ∧
    sb.freeBlocks ≤ sb.totalBlocks - sb.dataStart ∧
    sb.features = 1 ∧
    sb.inodeCount ≠ 0 ∧
    sb.inodeCount ≤ sb.inodeBlocks * 64 ∧
    f.startLba ≤ bd.blocks ∧
    sb.totalBlocks * f.spb ≤ bd.blocks - f.startLba)

def rangeOk (bd : Blockdev) (lba count : Nat) : Bool :=
  decide (count = 0 ∨ lba < bd.blocks ∧ count ≤ bd.blocks - lba)

def blockdevRead (dev : DevId) (lba count : Nat) (s : Driver) : Option Block × Driver :=
  if rangeOk (s.bdev dev) lba count then
    match s.io s.tick dev lba with
    | .ok => (some (s.disk dev lba), { s with tick := s.tick + 1 })
    | .fail _ => (none, { s with tick := s.tick + 1 })
  else (none, s)

def setDisk (s : Driver) (dev : DevId) (lba : Nat) (d : Block) : Driver :=
  { s with disk := fun e l => if e = dev ∧ l = lba then d else s.disk e l }

def blockdevWrite (dev : DevId) (lba count : Nat) (buf : Block) (s : Driver) : Bool × Driver :=
  if rangeOk (s.bdev dev) lba count && (s.bdev dev).writable then
    match s.io s.tick dev lba with
    | .ok => (true, { setDisk s dev lba buf with tick := s.tick + 1 })
    | .fail none => (false, { s with tick := s.tick + 1 })
    | .fail (some junk) => (false, { setDisk s dev lba junk with tick := s.tick + 1 })
  else (false, s)

def journalRawRead (fs : InstId) (blk : Nat) (s : Driver) : Option Block × Driver :=
  match (s.instances fs).bd with
  | none => (none, s)
  | some dev => blockdevRead dev ((s.instances fs).lba blk) (s.instances fs).spb s

def journalRawWrite (fs : InstId) (blk : Nat) (buf : Block) (s : Driver) : Bool × Driver :=
  match (s.instances fs).bd with
  | none => (false, s)
  | some dev => blockdevWrite dev ((s.instances fs).lba blk) (s.instances fs).spb buf s

def bcacheFind (s : Driver) (fs : InstId) (blk : Nat) : Option (Fin 16) :=
  (List.finRange 16).find? fun i => (s.bcache i).fs = some fs ∧ (s.bcache i).blk = blk

def bcacheVictim (s : Driver) : Fin 16 :=
  match (List.finRange 16).find? fun i => (s.bcache i).fs.isNone with
  | some i => i
  | none => (List.finRange 16).foldl
      (fun best i => if (s.bcache i).stamp < (s.bcache best).stamp then i else best) 0

def setSlot (s : Driver) (i : Fin 16) (c : BcacheSlot) : Driver :=
  { s with bcache := fun j => if j = i then c else s.bcache j }

def bcacheInvalidate (fs : InstId) (s : Driver) : Driver :=
  { s with bcache := fun i =>
      if (s.bcache i).fs = some fs then { s.bcache i with fs := none } else s.bcache i }

def journalPending (s : Driver) (fs : InstId) (blk : Nat) : Option Block :=
  if s.journalTx.active ∧ s.journalTx.fs = some fs then
    (s.journalTx.entry.find? fun e => e.1 = blk).map Prod.snd
  else none

def fillSlot (s : Driver) (i : Fin 16) (fs : InstId) (blk : Nat) (d : Block) : Driver :=
  { setSlot s i ⟨some fs, blk, s.bcacheClock + 1, d⟩ with bcacheClock := s.bcacheClock + 1 }

def bread (fs : InstId) (blk : Nat) (s : Driver) : Option Block × Driver :=
  match journalPending s fs blk with
  | some d => (some d, s)
  | none =>
    match bcacheFind s fs blk with
    | some i => (some (s.bcache i).data, fillSlot s i fs blk (s.bcache i).data)
    | none =>
      match journalRawRead fs blk s with
      | (none, s') => (none, s')
      | (some d, s') => (some d, fillSlot s' (bcacheVictim s') fs blk d)

def bwrite (fs : InstId) (blk : Nat) (buf : Block) (s : Driver) : Bool × Driver :=
  match journalRawWrite fs blk buf s with
  | (false, s') =>
    match bcacheFind s fs blk with
    | some i => (false, setSlot s' i { s'.bcache i with fs := none })
    | none => (false, s')
  | (true, s') =>
    match bcacheFind s fs blk with
    | some i => (true, fillSlot s' i fs blk buf)
    | none => (true, fillSlot s' (bcacheVictim s') fs blk buf)

def home (s : Driver) (fs : InstId) (blk : Nat) : Block :=
  match (s.instances fs).bd with
  | none => Block.zero
  | some dev => s.disk dev ((s.instances fs).lba blk)

/-- What a reader inside the running transaction is meant to see. -/
def seen (s : Driver) (fs : InstId) (blk : Nat) : Block :=
  (journalPending s fs blk).getD (home s fs blk)

/-- Every cached copy of the block agrees with the device. -/
def CacheOk (s : Driver) (fs : InstId) (blk : Nat) : Prop :=
  ∀ i, (s.bcache i).fs = some fs → (s.bcache i).blk = blk → (s.bcache i).data = home s fs blk

def ReadsOk (s : Driver) (fs : InstId) (blk : Nat) : Prop :=
  ∃ dev, (s.instances fs).bd = some dev ∧
    rangeOk (s.bdev dev) ((s.instances fs).lba blk) (s.instances fs).spb = true ∧
    ∀ n, s.io n dev ((s.instances fs).lba blk) = .ok

/-- The instance is bound to a writable device that holds all of its file system. -/
structure Attached (s : Driver) (fs : InstId) (dev : DevId) : Prop where
  bd : (s.instances fs).bd = some dev
  spb : 0 < (s.instances fs).spb
  writable : (s.bdev dev).writable = true
  passed : sbPlausible (s.bdev dev) (s.instances fs) = true

variable {s : Driver} {fs : InstId} {dev : DevId} {blk : Nat}

theorem Attached.range (h : Attached s fs dev) {b : Nat}
    (hb : b < (s.instances fs).sb.totalBlocks) :
    rangeOk (s.bdev dev) ((s.instances fs).lba b) (s.instances fs).spb := by
  have hp := h.passed
  have hspb := h.spb
  simp only [sbPlausible, decide_eq_true_eq] at hp
  have hmul : b * (s.instances fs).spb + (s.instances fs).spb ≤
      (s.instances fs).sb.totalBlocks * (s.instances fs).spb := by
    rw [← Nat.succ_mul]
    exact Nat.mul_le_mul_right _ hb
  obtain ⟨-, -, -, -, -, -, -, -, -, -, -, -, -, -, -, h1, h2⟩ := hp
  unfold rangeOk KfsFs.lba
  rw [decide_eq_true_eq]
  omega

theorem Attached.journal (h : Attached s fs dev) : (s.instances fs).sb.journalBlocks = 33 ∧
      (s.instances fs).sb.journalStart + 33 < (s.instances fs).sb.totalBlocks := by
  have hp := h.passed
  simp only [sbPlausible, decide_eq_true_eq] at hp
  omega

theorem bcacheFind_some {i : Fin 16} (h : bcacheFind s fs blk = some i) :
    (s.bcache i).fs = some fs ∧ (s.bcache i).blk = blk := by
  simpa using List.find?_some h

theorem bcacheFind_none (h : bcacheFind s fs blk = none) (i : Fin 16)
    (hi : (s.bcache i).fs = some fs) : (s.bcache i).blk ≠ blk := by
  have := List.find?_eq_none.mp h i (List.mem_finRange i)
  simpa [hi] using this

/-! ## Frames

`SameButTick` relates two states that differ in the access counter only, `SameButCache` two that may
also differ in the cache and `SameButIo` two that may also differ in device contents. -/

structure SameButIo (s t : Driver) : Prop where
  bdev : t.bdev = s.bdev
  instances : t.instances = s.instances
  journalTx : t.journalTx = s.journalTx
  sbBlock : t.sbBlock = s.sbBlock
  io : t.io = s.io

structure SameButCache (s t : Driver) : Prop extends SameButIo s t where
  disk : t.disk = s.disk

structure SameButTick (s t : Driver) : Prop extends SameButCache s t where
  bcache : t.bcache = s.bcache

namespace SameButIo

theorem refl (s : Driver) : SameButIo s s := ⟨rfl, rfl, rfl, rfl, rfl⟩

variable {s t : Driver}

theorem trans {u : Driver} (h : SameButIo s t) (h' : SameButIo t u) : SameButIo s u :=
  ⟨h'.bdev.trans h.bdev, h'.instances.trans h.instances, h'.journalTx.trans h.journalTx,
    h'.sbBlock.trans h.sbBlock, h'.io.trans h.io⟩

theorem pending (h : SameButIo s t) (fs : InstId) (blk : Nat) :
    journalPending t fs blk = journalPending s fs blk := by
  simp only [journalPending, h.journalTx]

theorem readsOk (h : SameButIo s t) {fs : InstId} {blk : Nat} (hr : ReadsOk s fs blk) :
    ReadsOk t fs blk := by
  obtain ⟨dev, hbd, hrange, hio⟩ := hr
  exact ⟨dev, by rw [h.instances]; exact hbd, by rw [h.instances, h.bdev]; exact hrange,
    by rw [h.instances, h.io]; exact hio⟩

end SameButIo

namespace SameButCache

theorem refl (s : Driver) : SameButCache s s := ⟨.refl s, rfl⟩

variable {s t : Driver}

theorem trans {u : Driver} (h : SameButCache s t) (h' : SameButCache t u) : SameButCache s u :=
  ⟨h.toSameButIo.trans h'.toSameButIo, h'.disk.trans h.disk⟩

theorem home (h : SameButCache s t) (fs : InstId) (blk : Nat) :
    Kfs.home t fs blk = Kfs.home s fs blk := by
  simp only [Kfs.home, h.instances, h.disk]

theorem seen (h : SameButCache s t) (fs : InstId) (blk : Nat) :
    Kfs.seen t fs blk = Kfs.seen s fs blk := by
  simp only [Kfs.seen, h.pending, h.home]

end SameButCache

variable {f fs : InstId} {dev : DevId} {b blk lba count : Nat} {s t : Driver} {r : Option Block}
  {d buf : Block} {ok : Bool} {i : Fin 16}

theorem SameButTick.refl (s : Driver) : SameButTick s s := ⟨.refl s, rfl⟩

theorem SameButTick.trans {u : Driver} (h : SameButTick s t) (h' : SameButTick t u) :
    SameButTick s u :=
  ⟨h.toSameButCache.trans h'.toSameButCache, h'.bcache.trans h.bcache⟩

theorem blockdevRead_frame (h : blockdevRead dev lba count s = (r, t)) : SameButTick s t := by
  unfold blockdevRead at h
  split at h
  · split at h <;> cases h <;> exact ⟨⟨⟨rfl, rfl, rfl, rfl, rfl⟩, rfl⟩, rfl⟩
  · cases h
    exact .refl s

theorem journalRawRead_frame (h : journalRawRead fs blk s = (r, t)) : SameButTick s t := by
  unfold journalRawRead at h
  split at h
  · cases h
    exact .refl s
  · exact blockdevRead_frame h

theorem journalRawRead_some (h : journalRawRead fs blk s = (some d, t)) : d = home s fs blk := by
  cases hbd : (s.instances fs).bd with
  | none => simp [journalRawRead, hbd] at h
  | some dev =>
    simp only [journalRawRead, hbd, blockdevRead] at h
    simp only [home, hbd]
    split at h
    · split at h <;> simp at h
      exact h.1.symm
    · simp at h

theorem journalRawRead_none (h : journalRawRead fs blk s = (none, t)) : ¬ ReadsOk s fs blk := by
  rintro ⟨dev, hbd, hrange, hio⟩
  simp [journalRawRead, hbd, blockdevRead, hrange, hio] at h

def CacheUniq (s : Driver) : Prop :=
  ∀ i j fs, (s.bcache i).fs = some fs → (s.bcache j).fs = some fs →
    (s.bcache i).blk = (s.bcache j).blk → i = j

theorem CacheUniq.of_bcache (h : CacheUniq s) (hc : t.bcache = s.bcache) : CacheUniq t := by
  unfold CacheUniq
  rw [hc]
  exact h

theorem CacheOk.congr (hok : CacheOk s fs blk) (hc : t.bcache = s.bcache)
    (hh : home t fs blk = home s fs blk) : CacheOk t fs blk := by
  intro i hi hb
  rw [hc] at hi hb ⊢
  rw [hh]
  exact hok i hi hb

/-- Slot `i` was given the block `blk` of `fs`, with contents `d`, or freed. The other slots are as
they were, and none of them has the block. -/
def Recached (i : Fin 16) (fs : InstId) (blk : Nat) (d : Block) (s t : Driver) : Prop :=
  ∀ j g, (t.bcache j).fs = some g →
    j = i ∧ g = fs ∧ (t.bcache j).blk = blk ∧ (t.bcache j).data = d ∨
      t.bcache j = s.bcache j ∧ (CacheUniq s → g = fs → (s.bcache j).blk ≠ blk)

namespace Recached

theorem uniq (h : Recached i fs blk d s t) (hu : CacheUniq s) : CacheUniq t := by
  intro a b g ha hb hab
  rcases h a g ha with ⟨hai, hg, hblk, -⟩ | ⟨hae, hane⟩ <;>
    rcases h b g hb with ⟨hbi, hg', hblk', -⟩ | ⟨hbe, hbne⟩
  · rw [hai, hbi]
  · rw [hbe] at hab
    exact absurd (hab.symm.trans hblk) (hbne hu hg)
  · rw [hae] at hab
    exact absurd (hab.trans hblk') (hane hu hg')
  rw [hae] at ha hab
  rw [hbe] at hb hab
  exact hu a b g ha hb hab

theorem cacheOk (h : Recached i fs blk d s t) (hd : f = fs → b = blk → d = home t fs blk)
    (hsame : (CacheUniq s → f = fs → b ≠ blk) → home t f b = home s f b) (hc : CacheOk s f b) :
    CacheOk t f b := by
  intro j hj hb
  rcases h j f hj with ⟨-, rfl, hblk, hdata⟩ | ⟨he, hne⟩
  · rw [hdata, hd rfl (hb.symm.trans hblk), ← hb, hblk]
  · rw [he] at hj hb ⊢
    rw [hc j hj hb, hsame fun hu hf => hb ▸ hne hu hf]

end Recached

theorem fillSlot_frame (s : Driver) (i : Fin 16) (fs : InstId) (blk : Nat) (d : Block) :
    SameButCache s (fillSlot s i fs blk d) := ⟨⟨rfl, rfl, rfl, rfl, rfl⟩, rfl⟩

theorem blk_ne_of_bcacheFind (h : bcacheFind s fs blk = some i ∨ bcacheFind s fs blk = none)
    (hu : CacheUniq s) {j : Fin 16} (hj : j ≠ i) (hjf : (s.bcache j).fs = some fs) :
    (s.bcache j).blk ≠ blk := by
  rcases h with h | h
  · obtain ⟨hif, hib⟩ := bcacheFind_some h
    exact fun hjb => hj (hu j i fs hjf hif (hjb.trans hib.symm))
  · exact bcacheFind_none h j hjf

theorem fillSlot_recached (h : bcacheFind s fs blk = some i ∨ bcacheFind s fs blk = none)
    (hc : t.bcache = s.bcache) (d : Block) : Recached i fs blk d s (fillSlot t i fs blk d) := by
  intro j g hj
  by_cases hji : j = i
  · subst hji
    simp only [fillSlot, setSlot, if_true, Option.some.injEq] at hj ⊢
    exact .inl ⟨trivial, hj.symm, trivial, trivial⟩
  · simp only [fillSlot, setSlot, hji, if_false, hc] at hj ⊢
    exact .inr ⟨trivial, fun hu hg => blk_ne_of_bcacheFind h hu hji (hg ▸ hj)⟩

theorem bread_cases (fs : InstId) (blk : Nat) (s : Driver) :
    (∃ d, journalPending s fs blk = some d ∧ bread fs blk s = (some d, s)) ∨
    journalPending s fs blk = none ∧ ∃ t, SameButCache s t ∧
      ((bread fs blk s = (none, t) ∧ t.bcache = s.bcache ∧ ¬ ReadsOk s fs blk) ∨
        ∃ i d, bread fs blk s = (some d, t) ∧ Recached i fs blk d s t ∧
          (CacheOk s fs blk → d = home s fs blk)) := by
  unfold bread
  split
  · exact .inl ⟨_, ‹_›, rfl⟩
  rename_i hp
  refine .inr ⟨hp, ?_⟩
  split
  · rename_i i hi
    obtain ⟨hfs, hblk⟩ := bcacheFind_some hi
    exact ⟨_, fillSlot_frame .., .inr ⟨i, _, rfl, fillSlot_recached (.inl hi) rfl _,
      fun hc => hc i hfs hblk⟩⟩
  rename_i hnone
  split
  · rename_i t ht
    have hf := journalRawRead_frame ht
    exact ⟨t, hf.toSameButCache, .inl ⟨rfl, hf.bcache, journalRawRead_none ht⟩⟩
  rename_i d t ht
  have hf := journalRawRead_frame ht
  exact ⟨_, hf.toSameButCache.trans (fillSlot_frame ..), .inr ⟨_, d, rfl,
    fillSlot_recached (.inr hnone) hf.bcache d, fun _ => journalRawRead_some ht⟩⟩

theorem bread_frame (fs : InstId) (blk : Nat) (s : Driver) : SameButCache s (bread fs blk s).2 := by
  rcases bread_cases fs blk s with ⟨d, -, h⟩ | ⟨-, t, hf, ⟨h, -⟩ | ⟨i, d, h, -⟩⟩ <;> rw [h]
  · exact .refl s
  · exact hf
  · exact hf

theorem bread_cacheOk (hc : CacheOk s f b) : CacheOk (bread fs blk s).2 f b := by
  rcases bread_cases fs blk s with
    ⟨d, -, h⟩ | ⟨-, t, hf, ⟨h, hsame, -⟩ | ⟨i, d, h, hre, hd⟩⟩ <;> rw [h]
  · exact hc
  · exact hc.congr hsame (hf.home f b)
  refine hre.cacheOk ?_ (fun _ => hf.home f b) hc
  rintro rfl rfl
  rw [hf.home]
  exact hd hc

theorem bread_some (hc : CacheOk s fs blk) (hr : (bread fs blk s).1 = some d) :
    d = seen s fs blk := by
  unfold seen
  rcases bread_cases fs blk s with ⟨d, hp, h⟩ | ⟨hp, t, -, ⟨h, -⟩ | ⟨i, d, h, -, hd⟩⟩ <;>
    rw [h] at hr <;> cases hr <;> rw [hp]
  · rfl
  · exact hd hc

theorem bread_ok (hc : CacheOk s fs blk) (hr : ReadsOk s fs blk) :
    (bread fs blk s).1 = some (seen s fs blk) := by
  cases hb : (bread fs blk s).1 with
  | some d => rw [bread_some hc hb]
  | none =>
    rcases bread_cases fs blk s with ⟨d, -, h⟩ | ⟨-, t, -, ⟨h, -, hno⟩ | ⟨i, d, h, -⟩⟩
    · simp [h] at hb
    · exact absurd hr hno
    · simp [h] at hb

theorem bread_uniq (hu : CacheUniq s) (fs : InstId) (blk : Nat) : CacheUniq (bread fs blk s).2 := by
  rcases bread_cases fs blk s with
    ⟨d, -, h⟩ | ⟨-, t, -, ⟨h, hsame, -⟩ | ⟨i, d, h, hre, -⟩⟩ <;> rw [h]
  · exact hu
  · exact hu.of_bcache hsame
  · exact hre.uniq hu

theorem KfsFs.lba_inj {f : KfsFs} (h : 0 < f.spb) {a : Nat} (hab : f.lba a = f.lba b) : a = b := by
  simp only [KfsFs.lba, Nat.add_left_cancel_iff] at hab
  exact Nat.eq_of_mul_eq_mul_right h hab

/-- Device contents of every device but the one of `fs` are untouched. -/
def OtherDevs (fs : InstId) (s t : Driver) : Prop :=
  ∀ e, (s.instances fs).bd ≠ some e → t.disk e = s.disk e

theorem OtherDevs.trans {u : Driver} (h : OtherDevs fs s t)
    (hi : (t.instances fs).bd = (s.instances fs).bd) (h' : OtherDevs fs t u) :
    OtherDevs fs s u := by
  intro e he
  rw [h' e (by rw [hi]; exact he), h e he]

/-- Accesses of `fs`: only its device, the cache and the access counter differ. -/
structure OwnIo (fs : InstId) (s t : Driver) : Prop extends SameButIo s t where
  otherDevs : OtherDevs fs s t

structure RawIo (fs : InstId) (s t : Driver) : Prop extends OwnIo fs s t where
  bcache : t.bcache = s.bcache

theorem OwnIo.trans {u : Driver} (h : OwnIo fs s t) (h' : OwnIo fs t u) : OwnIo fs s u :=
  ⟨h.toSameButIo.trans h'.toSameButIo, h.otherDevs.trans (by rw [h.instances]) h'.otherDevs⟩

theorem RawIo.trans {u : Driver} (h : RawIo fs s t) (h' : RawIo fs t u) : RawIo fs s u :=
  ⟨h.toOwnIo.trans h'.toOwnIo, h'.bcache.trans h.bcache⟩

theorem SameButCache.ownIo (h : SameButCache s t) : OwnIo fs s t :=
  ⟨h.toSameButIo, fun e _ => congrFun h.disk e⟩

theorem SameButTick.rawIo (h : SameButTick s t) : RawIo fs s t := ⟨h.ownIo, h.bcache⟩

theorem RawIo.refl (fs : InstId) (s : Driver) : RawIo fs s s := (SameButTick.refl s).rawIo

theorem blockdevWrite_frame (h : blockdevWrite dev lba count buf s = (ok, t)) :
    SameButIo s t ∧ t.bcache = s.bcache ∧
      ∀ e l, (e = dev → l ≠ lba) → t.disk e l = s.disk e l := by
  have hset : ∀ d e l, (e = dev → l ≠ lba) → (setDisk s dev lba d).disk e l = s.disk e l :=
    fun d e l hne => if_neg fun h => hne h.1 h.2
  unfold blockdevWrite at h
  split at h
  · split at h <;> cases h
    · exact ⟨⟨rfl, rfl, rfl, rfl, rfl⟩, rfl, hset buf⟩
    · exact ⟨⟨rfl, rfl, rfl, rfl, rfl⟩, rfl, fun _ _ _ => rfl⟩
    · exact ⟨⟨rfl, rfl, rfl, rfl, rfl⟩, rfl, hset _⟩
  · cases h
    exact ⟨.refl s, rfl, fun _ _ _ => rfl⟩

theorem journalRawWrite_frame (h : journalRawWrite fs blk buf s = (ok, t)) : RawIo fs s t := by
  unfold journalRawWrite at h
  split at h
  · cases h
    exact .refl fs s
  rename_i dev hdev
  obtain ⟨hf, hc, hd⟩ := blockdevWrite_frame h
  refine ⟨⟨hf, fun e he => funext fun l => hd e l ?_⟩, hc⟩
  rintro rfl
  exact absurd hdev he

theorem journalRawWrite_home (h : journalRawWrite fs blk buf s = (ok, t))
    (hspb : 0 < (s.instances fs).spb) (hb : b ≠ blk) : home t fs b = home s fs b := by
  have hframe := journalRawWrite_frame h
  unfold home
  rw [hframe.instances]
  cases hbd : (s.instances fs).bd with
  | none => rfl
  | some dev =>
    simp only [journalRawWrite, hbd] at h
    exact (blockdevWrite_frame h).2.2 _ _ fun _ hl => hb (KfsFs.lba_inj hspb hl)

theorem journalRawWrite_true (h : journalRawWrite fs blk buf s = (true, t)) :
    home t fs blk = buf := by
  have hframe := journalRawWrite_frame h
  unfold home
  rw [hframe.instances]
  cases hbd : (s.instances fs).bd with
  | none => simp [journalRawWrite, hbd] at h
  | some dev =>
    simp only [journalRawWrite, hbd, blockdevWrite] at h
    split at h
    · split at h <;> cases h
      simp [setDisk]
    · simp at h

theorem journalRawWrite_true_eq (h : journalRawWrite fs blk buf s = (true, t))
    (hspb : 0 < (s.instances fs).spb) : home t fs = update (home s fs) blk buf := by
  funext b
  by_cases hb : b = blk
  · rw [hb, update_self, journalRawWrite_true h]
  · rw [update_of_ne hb, journalRawWrite_home h hspb hb]

section
variable (h : bwrite fs blk buf s = (ok, t))
include h

theorem bwrite_cases :
    ∃ u i, journalRawWrite fs blk buf s = (ok, u) ∧ SameButCache u t ∧ t.tick = u.tick ∧
      Recached i fs blk (home t fs blk) s t := by
  unfold bwrite at h
  split at h
  · rename_i u hu
    have hc := (journalRawWrite_frame hu).bcache
    split at h <;> cases h
    · rename_i i hi
      refine ⟨u, i, hu, ⟨⟨rfl, rfl, rfl, rfl, rfl⟩, rfl⟩, rfl, fun j g hj => .inr ?_⟩
      by_cases hji : j = i
      · simp [setSlot, hji] at hj
      · simp only [setSlot, hji, if_false, hc] at hj ⊢
        exact ⟨trivial, fun hu hg => blk_ne_of_bcacheFind (.inl hi) hu hji (hg ▸ hj)⟩
    · rename_i hnone
      refine ⟨t, 0, hu, .refl t, rfl, fun j g hj => .inr ?_⟩
      rw [hc] at hj ⊢
      exact ⟨rfl, fun _ hg => bcacheFind_none hnone j (hg ▸ hj)⟩
  · rename_i u hu
    have hc := (journalRawWrite_frame hu).bcache
    have hslot : ∀ i, bcacheFind s fs blk = some i ∨ bcacheFind s fs blk = none →
        Recached i fs blk (home (fillSlot u i fs blk buf) fs blk) s (fillSlot u i fs blk buf) := by
      intro i hi
      rw [(fillSlot_frame ..).home, journalRawWrite_true hu]
      exact fillSlot_recached hi hc buf
    split at h <;> cases h
    · exact ⟨u, _, hu, fillSlot_frame .., rfl, hslot _ (.inl ‹_›)⟩
    · exact ⟨u, _, hu, fillSlot_frame .., rfl, hslot _ (.inr ‹_›)⟩

theorem bwrite_frame : OwnIo fs s t := by
  obtain ⟨u, i, hu, hf, -⟩ := bwrite_cases h
  exact (journalRawWrite_frame hu).toOwnIo.trans hf.ownIo

theorem bwrite_home (hspb : 0 < (s.instances fs).spb) (hb : b ≠ blk) :
    home t fs b = home s fs b := by
  obtain ⟨u, i, hu, hf, -⟩ := bwrite_cases h
  rw [hf.home, journalRawWrite_home hu hspb hb]

theorem bwrite_uniq (hu : CacheUniq s) : CacheUniq t := by
  obtain ⟨u, i, -, -, -, hre⟩ := bwrite_cases h
  exact hre.uniq hu

end

theorem bwrite_true_eq (h : bwrite fs blk buf s = (true, t)) (hspb : 0 < (s.instances fs).spb) :
    home t fs = update (home s fs) blk buf := by
  obtain ⟨u, i, hu, hf, -⟩ := bwrite_cases h
  rw [funext (hf.home fs), journalRawWrite_true_eq hu hspb]

theorem bwrite_cacheOk (h : bwrite fs blk buf s = (ok, t)) (hu : CacheUniq s)
    (hspb : 0 < (s.instances fs).spb) (hc : CacheOk s fs b) : CacheOk t fs b := by
  obtain ⟨u, i, -, -, -, hre⟩ := bwrite_cases h
  exact hre.cacheOk (fun _ _ => rfl) (fun hne => bwrite_home h hspb (hne hu rfl)) hc

/-! ## A small instance

Concrete runs use a file system with one bitmap block and one block of inodes: the journal is
blocks 2 to 34, the inodes are in block 35 and data starts at block 36. -/

def smallSb (total free : Nat) : KfsSuperblock :=
  ⟨0x3353464B, total, 1, 1, 2, 33, 35, 1, 64, 36, 1, free, 1⟩

theorem smallSb_bounded (total free : Nat) (ht : total < 4294967296) (hf : free < 4294967296) :
    (smallSb total free).Bounded := by
  intro k
  unfold KfsSuperblock.word smallSb
  split <;> simp <;> assumption

/-- Instance 0 mounted on device 0 with nothing cached and no transaction running. -/
def smallDriver (total free : Nat) (disk : Nat → Block) : Driver where
  bdev := fun _ => ⟨4096, total, true⟩
  disk := fun _ => disk
  instances := fun f => if f = 0 then ⟨some 0, 0, 1, smallSb total free, true, true, 0⟩
    else ⟨none, 0, 0, smallSb 0 0, false, false, 0⟩
  bcache := fun _ => ⟨none, 0, 0, Block.zero⟩
  bcacheClock := 0
  journalTx := ⟨none, false, false, 0, smallSb 0 0, []⟩
  sbBlock := Block.zero
  io := fun _ _ _ => .ok
  tick := 0

end KestrelOS.Kfs
