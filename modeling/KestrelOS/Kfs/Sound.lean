import KestrelOS.Kfs.Accounting

/-!
# Sound file systems

`BlocksAccounted` is the condition on the blocks of a file system: the bitmap marks the metadata
and the blocks of allocated inodes, each with one owner. `Serving` says that an instance is mounted
on a device and between two calls.
-/

namespace KestrelOS.Kfs

open List

def FreeClean (sb : KfsSuperblock) (view : Nat → Block) : Prop :=
  ∀ ino, inoValid sb ino = true → (inodeAt sb view ino).type = 0 →
    ∀ slot, ptrOf sb view ino slot = 0

def liveOwn (sb : KfsSuperblock) (view : Nat → Block) (k : Nat × Option Nat) : Nat :=
  if (inodeAt sb view k.1).type = 0 then 0 else ownOf sb view k

/-- Exactly the metadata and the blocks of allocated inodes are marked, no block has two owners, and
`free` is the number of unmarked ones. -/
def BlocksAccounted (sb : KfsSuperblock) (view : Nat → Block) (free : Nat) : Prop :=
  Ledger sb.dataStart sb.totalBlocks (sb.bitmapBlocks * 32768) (liveOwn sb view)
    (bitAt sb view) free

section

variable {may : ReadRule Block} {sb : KfsSuperblock} {view view' : Nat → Block}
  {free : Nat}

theorem liveOwn_eq (hc : FreeClean sb view) (k : Nat × Option Nat) :
    liveOwn sb view k = ownOf sb view k := by
  unfold liveOwn ownOf
  split
  · rename_i htype
    split
    · rename_i hv
      exact (hc k.1 hv htype k.2).symm
    · rfl
  · rfl

theorem FreeClean.accounted (hc : FreeClean sb view) (h : BlocksAccounted sb view free) :
    Accounted sb view free :=
  Ledger.congr h (fun k => (liveOwn_eq hc k).symm) fun _ _ => rfl

theorem FreeClean.blocksAccounted (hc : FreeClean sb view) (h : Accounted sb view free) :
    BlocksAccounted sb view free := Ledger.congr h (liveOwn_eq hc) fun _ _ => rfl

section
variable (hg : Geometry sb) (h : Accounted sb view free)
  (heq : ∀ b, ¬ InJournal sb b → view' b = view b)
include hg h heq

theorem Accounted.outside : Accounted sb view' free ∧ ∀ ino, inoValid sb ino →
      inodeAt sb view' ino = inodeAt sb view ino ∧
        ∀ slot, ptrOf sb view' ino slot = ptrOf sb view ino slot := by
  have hreg := hg.regions
  have hinode : ∀ ino, inoValid sb ino → inodeAt sb view' ino = inodeAt sb view ino := by
    intro ino hv
    exact inodeAt_congr (heq _ (hg.not_inJournal (hg.inodeBlk_range hv).1))
  have hptr : ∀ ino, inoValid sb ino → ∀ slot,
      ptrOf sb view' ino slot = ptrOf sb view ino slot := by
    intro ino hv
    refine ptrOf_congr (hinode ino hv) fun h0 => heq _ (hg.not_inJournal ?_)
    have hr := h.table_range hv h0
    omega
  refine ⟨Ledger.congr h ?_ ?_, fun ino hv => ⟨hinode ino hv, hptr ino hv⟩⟩
  · intro k
    unfold ownOf
    split
    · rename_i hv
      exact hptr k.1 hv k.2
    · rfl
  · intro b hb
    refine bitAt_congr (heq _ ?_)
    unfold InJournal
    omega

theorem Accounted.fileByte_outside {ino : Nat} (hv : inoValid sb ino) (k : Nat) :
    fileByte sb view' ino k = fileByte sb view ino k := by
  refine fileByte_congr (((h.outside hg heq).2 ino hv).2 _) fun h0 => heq _ (hg.not_inJournal ?_)
  have h1 := h.own_range hv h0
  have hreg := hg.regions
  omega

end

structure Sound (sb : KfsSuperblock) (view : Nat → Block) : Prop where
  blocks : BlocksAccounted sb view sb.freeBlocks
  clean : FreeClean sb view

theorem Sound.accounted {sb : KfsSuperblock} {view : Nat → Block} (h : Sound sb view) :
    Accounted sb view sb.freeBlocks := h.clean.accounted h.blocks

theorem Sound.of_accounted {sb sb' : KfsSuperblock} {view view' : Nat → Block} (hg : Geometry sb)
    (hl : SameLayout sb sb') (hacc : Accounted sb view sb'.freeBlocks) (hclean : FreeClean sb view)
    (heq : ∀ b, ¬ InJournal sb b → view' b = view b) : Sound sb' view' := by
  obtain ⟨hacc', hsame⟩ := hacc.outside hg heq
  have hclean' : FreeClean sb view' := by
    intro ino hv htype slot
    rw [(hsame ino hv).1] at htype
    rw [(hsame ino hv).2]
    exact hclean ino hv htype slot
  have hb := hclean'.blocksAccounted hacc'
  rw [hl] at hb ⊢
  exact ⟨hb, by rw [hl] at *; exact hclean'⟩

end

/-- A mounted instance between two calls: its device holds the superblock it works with, and cached
copies of blocks outside the journal are right. -/
structure Serving (fs : InstId) (dev : DevId) (s : Driver) : Prop where
  attached : Attached s fs dev
  mounted : (s.instances fs).mounted = true
  idle : s.journalTx.active = false
  uniq : CacheUniq s
  cache : ∀ b, ¬ InJournal (s.instances fs).sb b → CacheOk s fs b
  sbHome : KfsSuperblock.ofBytes (home s fs 0).byte = (s.instances fs).sb

section

variable {fs : InstId} {dev : DevId} {s t : Driver}

theorem Serving.geometry (h : Serving fs dev s)
    (hcov : (s.instances fs).sb.totalBlocks ≤ (s.instances fs).sb.bitmapBlocks * 32768) :
    Geometry (s.instances fs).sb := by
  have hp := h.attached.passed
  simp only [sbPlausible, decide_eq_true_eq] at hp
  refine ⟨?_, hp.2.2.2.1, by omega, by omega, by omega, by omega, by omega, by omega, by omega,
    hcov⟩
  rw [← h.sbHome]
  exact KfsSuperblock.ofBytes_bounded _

end

/-! ## Small file systems

One bitmap block, one block of inodes, and blocks in use without gaps. -/

def bitsBelow (n : Nat) : Block :=
  Block.ofBytes fun i =>
    if i < n / 8 then 255 else if i = n / 8 then UInt8.ofNat (2 ^ (n % 8) - 1) else 0

def inodesOf : List (Nat × KfsInode) → Block
  | [] => Block.zero
  | (ino, ip) :: inodes => putInode (inodesOf inodes) ino ip

def direntsOf (entries : List KfsDirent) : Block :=
  Block.ofBytes fun i => (entries.getD (i / 64) ⟨0, []⟩).toBytes (i % 64)

/-- Block 36 holds the entries "." and ".." of inode 1. -/
def rootData (b : Nat) : Block :=
  if b = 36 then direntsOf [⟨1, [46]⟩, ⟨1, [46, 46]⟩] else Block.zero

def slotOf (inodes : List (Nat × KfsInode)) (ino : Nat) : KfsInode :=
  match inodes.find? fun p => decide (p.1 = ino) with
  | some p => p.2
  | none => KfsInode.zero

def smallImage (total used : Nat) (inodes : List (Nat × KfsInode)) (data : Nat → Block) (b : Nat) :
    Block :=
  if b = 0 then sbImage ⟨smallSb total (total - used), Block.zero⟩
  else if b = 1 then bitsBelow used
  else if b = 35 then inodesOf inodes
  else data b

def smallFs (total used : Nat) (inodes : List (Nat × KfsInode)) (data : Nat → Block) : Driver :=
  smallDriver total (total - used) (smallImage total used inodes data)

/-- The inodes have slots of their own, and the allocated ones share out the blocks in use. -/
structure Laid (used : Nat) (inodes : List (Nat × KfsInode)) : Prop where
  nodup : (inodes.map Prod.fst).Nodup
  valid : ∀ p ∈ inodes, 1 ≤ p.1 ∧ p.1 ≤ 64
  bounded : ∀ p ∈ inodes, p.2.Bounded
  noTable : ∀ p ∈ inodes, p.2.type ≠ 0 → p.2.indirect = 0
  range : ∀ p ∈ inodes, p.2.type ≠ 0 → ∀ i, p.2.direct i ≠ 0 →
    36 ≤ p.2.direct i ∧ p.2.direct i < used
  inj : ∀ p ∈ inodes, p.2.type ≠ 0 → ∀ q ∈ inodes, q.2.type ≠ 0 → ∀ i j, p.2.direct i ≠ 0 →
    p.2.direct i = q.2.direct j → p.1 = q.1 ∧ i = j
  cover : ∀ b < used, 36 ≤ b → ∃ p ∈ inodes, p.2.type ≠ 0 ∧ ∃ i, p.2.direct i = b

/-- `view` has these inodes, and the allocated ones need no indirect table. -/
structure Holding (sb : KfsSuperblock) (view : Nat → Block) (inodes : List (Nat × KfsInode)) :
    Prop where
  slots : ∀ ino, inoValid sb ino = true → inodeAt sb view ino = slotOf inodes ino
  noTable : ∀ p ∈ inodes, p.2.type ≠ 0 → p.2.indirect = 0

/-- The blocks below `used` are marked, and the allocated inodes share out those of the data. -/
structure Filled (sb : KfsSuperblock) (view : Nat → Block) (used : Nat)
    (inodes : List (Nat × KfsInode)) : Prop extends Holding sb view inodes where
  nodup : (inodes.map Prod.fst).Nodup
  valid : ∀ p ∈ inodes, inoValid sb p.1 = true
  range : ∀ p ∈ inodes, p.2.type ≠ 0 → ∀ i, p.2.direct i ≠ 0 →
    sb.dataStart ≤ p.2.direct i ∧ p.2.direct i < used
  inj : ∀ p ∈ inodes, p.2.type ≠ 0 → ∀ q ∈ inodes, q.2.type ≠ 0 → ∀ i j, p.2.direct i ≠ 0 →
    p.2.direct i = q.2.direct j → p.1 = q.1 ∧ i = j
  cover : ∀ b < used, sb.dataStart ≤ b → ∃ p ∈ inodes, p.2.type ≠ 0 ∧ ∃ i, p.2.direct i = b
  bit : ∀ b < sb.bitmapBlocks * 32768, bitAt sb view b = decide (b < used)
  lo_pos : 0 < sb.dataStart
  lo : sb.dataStart ≤ used
  hi : used ≤ sb.totalBlocks
  hi_cap : sb.totalBlocks ≤ sb.bitmapBlocks * 32768

section Small

variable {total used : Nat} {inodes : List (Nat × KfsInode)} {data : Nat → Block}

theorem bitOf_bitsBelow (n b : Nat) (hb : b < 32768) :
    bitOf ((bitsBelow n).byte (b / 8 % 4096)) (b % 8) = decide (b < n) := by
  have hones : ∀ j < 8, bitOf 255 j := by decide
  have hpart : ∀ m < 8, ∀ j < 8, bitOf (UInt8.ofNat (2 ^ m - 1)) j = decide (j < m) := by decide
  have hzero : ∀ j < 8, bitOf 0 j = false := by decide
  rw [bitsBelow, Block.byte_ofBytes _ _ (by omega)]
  split
  · rw [hones _ (by omega), eq_comm, decide_eq_true_eq]
    omega
  split
  · rw [hpart _ (by omega) _ (by omega), decide_eq_decide]
    omega
  · rw [hzero _ (by omega), eq_comm, decide_eq_false_iff_not]
    omega

theorem slotOf_mem (inodes : List (Nat × KfsInode)) (ino : Nat) :
    (∃ p ∈ inodes, p.1 = ino ∧ slotOf inodes ino = p.2) ∨ slotOf inodes ino = KfsInode.zero := by
  unfold slotOf
  split
  · rename_i p hp
    exact .inl ⟨p, mem_of_find?_eq_some hp, by simpa using find?_some hp, rfl⟩
  · exact .inr rfl

theorem slotOf_eq (h : (inodes.map Prod.fst).Nodup) {p : Nat × KfsInode} (hp : p ∈ inodes) :
    slotOf inodes p.1 = p.2 := by
  induction inodes with
  | nil => simp at hp
  | cons q inodes ih =>
    simp only [map_cons, nodup_cons] at h
    unfold slotOf
    rw [find?_cons]
    rcases mem_cons.mp hp with rfl | hp'
    · simp
    have hne : q.1 ≠ p.1 := fun heq => h.1 (heq ▸ mem_map_of_mem hp')
    simp only [hne, decide_false]
    exact ih h.2 hp'

theorem inodeAt_inodesOf (hv : ∀ p ∈ inodes, 1 ≤ p.1 ∧ p.1 ≤ 64) (hb : ∀ p ∈ inodes, p.2.Bounded)
    {ino : Nat} (h1 : 1 ≤ ino) (h2 : ino ≤ 64) :
    KfsInode.ofBytes (inodesOf inodes).byte (inodeOff ino) = slotOf inodes ino := by
  induction inodes with
  | nil =>
    exact KfsInode.ofBytes_zero _
  | cons p inodes ih =>
    have hp := hv p (by simp)
    have hwrite := @inodeAt_putInode (smallSb 0 0) ⟨fun _ => inodesOf inodes, fun _ => false,
      ⟨smallSb 0 0, Block.zero⟩⟩ p.1 ino p.2 (hb p (by simp)) hp.1 h1
    have hblk : inodeBlk (smallSb 0 0) ino = inodeBlk (smallSb 0 0) p.1 := by
      unfold inodeBlk
      omega
    rw [inodeAt, hblk, TxView.write_same] at hwrite
    rw [inodesOf]
    refine hwrite.trans ?_
    unfold slotOf
    rw [find?_cons]
    by_cases hne : ino = p.1
    · simp [hne]
    have hne' : ¬ p.1 = ino := fun h => hne h.symm
    rw [if_neg hne]
    simp only [hne', decide_false]
    exact ih (fun q hq => hv q (by simp [hq])) fun q hq => hb q (by simp [hq])

theorem smallFs_home (b : Nat) :
    home (smallFs total used inodes data) 0 b = smallImage total used inodes data b := by
  simp [home, smallFs, smallDriver, KfsFs.lba]

theorem smallFs_serving (h36 : 36 ≤ used) (hut : used ≤ total) (h37 : 36 < total)
    (ht : total < 4294967296) : Serving 0 0 (smallFs total used inodes data) := by
  refine ⟨⟨rfl, Nat.one_pos, rfl, ?_⟩, rfl, rfl, ?_, ?_, ?_⟩
  · simp only [sbPlausible, smallFs, smallDriver, if_true, decide_eq_true_eq]
    simp only [smallSb, Nat.mul_one, Nat.sub_zero, true_and]
    omega
  · intro i j f hi
    simp [smallFs, smallDriver] at hi
  · intro b _ i hi
    simp [smallFs, smallDriver] at hi
  · rw [smallFs_home]
    exact sbImage_ofBytes _ (smallSb_bounded _ _ ht (by omega))

theorem inoValid_small {free ino : Nat} :
    inoValid (smallSb total free) ino ↔ 1 ≤ ino ∧ ino ≤ 64 := by
  simp only [inoValid, decide_eq_true_eq]
  rfl

theorem smallImage_inodeAt {free : Nat} (hvalid : ∀ p ∈ inodes, 1 ≤ p.1 ∧ p.1 ≤ 64)
    (hbounded : ∀ p ∈ inodes, p.2.Bounded) {ino : Nat} (hv : inoValid (smallSb total free) ino) :
    inodeAt (smallSb total free) (smallImage total used inodes data) ino = slotOf inodes ino := by
  rw [inoValid_small] at hv
  have hblk : inodeBlk (smallSb total free) ino = 35 := by
    simp only [inodeBlk, smallSb]
    omega
  rw [inodeAt, hblk]
  exact inodeAt_inodesOf hvalid hbounded hv.1 hv.2

section Filled

variable {sb : KfsSuperblock} {view : Nat → Block}

theorem Holding.own (h : Holding sb view inodes) {k : Nat × Option Nat}
    (hk : liveOwn sb view k ≠ 0) :
    ∃ p ∈ inodes, slotOf inodes p.1 = p.2 ∧ p.2.type ≠ 0 ∧ ∃ i : Fin 10, k = (p.1, some i.val) ∧
      liveOwn sb view k = p.2.direct i := by
  obtain ⟨ino, slot⟩ := k
  unfold liveOwn ownOf at hk ⊢
  split at hk
  · simp at hk
  rename_i htype
  split at hk
  swap
  · simp at hk
  rename_i hv
  rw [if_neg htype, if_pos hv]
  simp only [ptrOf] at hk ⊢
  simp only at htype hv
  rw [h.slots ino hv] at hk htype ⊢
  rcases slotOf_mem inodes ino with ⟨p, hp, rfl, hslot⟩ | hzero
  · rw [hslot] at hk htype ⊢
    have ht := h.noTable p hp htype
    cases slot with
    | none => exact absurd ht hk
    | some n =>
      simp only [ptr, ht, true_or, if_true] at hk ⊢
      split at hk
      · rename_i hn
        refine ⟨p, hp, hslot, htype, ⟨n, hn⟩, rfl, ?_⟩
        rw [if_pos hn, KfsInode.directAt, dif_pos hn]
      · simp at hk
  · rw [hzero] at htype
    exact absurd rfl htype

theorem Holding.clean (h : Holding sb view inodes) (hlive : ∀ p ∈ inodes, p.2.type ≠ 0) :
    FreeClean sb view := by
  intro ino hv htype slot
  rw [ptrOf, h.slots ino hv]
  rw [h.slots ino hv] at htype
  rcases slotOf_mem inodes ino with ⟨p, hp, -, hslot⟩ | hzero
  · rw [hslot] at htype
    exact absurd htype (hlive p hp)
  rw [hzero]
  cases slot with
  | none => rfl
  | some n => simp [ptr, KfsInode.zero, KfsInode.directAt]

theorem Filled.owned (h : Filled sb view used inodes) {p : Nat × KfsInode} (hp : p ∈ inodes)
    (ht : p.2.type ≠ 0) (i : Fin 10) : liveOwn sb view (p.1, some i.val) = p.2.direct i := by
  have hv := h.valid p hp
  simp only [liveOwn, ownOf, hv, if_true, ptrOf, h.slots _ hv, slotOf_eq h.nodup hp, ht,
    if_false, ptr, i.isLt, KfsInode.directAt, dif_pos]

theorem Filled.accounted (h : Filled sb view used inodes) :
    BlocksAccounted sb view (sb.totalBlocks - used) := by
  have hlo := h.lo
  have hcap := h.hi_cap
  refine ⟨?_, ?_, ?_, ?_, h.lo_pos, hcap⟩
  · intro k k' hk heq
    obtain ⟨p, hp, -, hpt, i, rfl, hi⟩ := h.own hk
    obtain ⟨q, hq, -, hqt, j, rfl, hj⟩ := h.own (heq ▸ hk)
    rw [hi] at hk
    have := h.inj p hp hpt q hq hqt i j hk (by rw [← hi, ← hj, heq])
    rw [this.1, this.2]
  · intro k hk
    obtain ⟨p, hp, -, hpt, i, rfl, hi⟩ := h.own hk
    rw [hi] at hk ⊢
    obtain ⟨h1, h2⟩ := h.range p hp hpt i hk
    exact ⟨h1, Nat.lt_of_lt_of_le h2 h.hi⟩
  · intro b hb
    rw [h.bit b hb, decide_eq_true_eq]
    constructor
    · intro hlt
      by_cases hlo : b < sb.dataStart
      · exact .inl hlo
      obtain ⟨p, hp, hpt, i, hi⟩ := h.cover b hlt (by omega)
      refine .inr ⟨(p.1, some i.val), ?_⟩
      rw [h.owned hp hpt, hi]
      have := h.lo_pos
      exact ⟨by omega, rfl⟩
    · rintro (hb' | ⟨k, hk, rfl⟩)
      · omega
      obtain ⟨p, hp, -, hpt, i, rfl, hi⟩ := h.own hk
      rw [hi] at hk ⊢
      exact (h.range p hp hpt i hk).2
  · have hset : unusedCells sb.totalBlocks (bitAt sb view) = Finset.Ico used sb.totalBlocks := by
      ext b
      simp only [unusedCells, Finset.mem_filter, Finset.mem_range, Finset.mem_Ico]
      constructor
      · rintro ⟨h1, h2⟩
        rw [h.bit b (by omega), decide_eq_false_iff_not] at h2
        omega
      rintro ⟨h1, h2⟩
      rw [h.bit b (by omega), decide_eq_false_iff_not]
      omega
    rw [hset, Nat.card_Ico]

theorem Filled.sound (h : Filled sb view used inodes)
    (hfree : sb.freeBlocks = sb.totalBlocks - used)
    (hlive : ∀ p ∈ inodes, p.2.type ≠ 0) : Sound sb view :=
  ⟨hfree ▸ h.accounted, h.clean hlive⟩

end Filled

theorem Laid.holding {free : Nat} (h : Laid used inodes) :
    Holding (smallSb total free) (smallImage total used inodes data) inodes :=
  ⟨fun _ hv => smallImage_inodeAt h.valid h.bounded hv, h.noTable⟩

theorem Laid.filled (h : Laid used inodes) (h36 : 36 ≤ used) (hut : used ≤ total)
    (ht : total ≤ 32768) :
    Filled (smallSb total (total - used)) (smallImage total used inodes data) used inodes := by
  refine ⟨h.holding, h.nodup, fun p hp => inoValid_small.mpr (h.valid p hp), h.range, h.inj,
    h.cover, fun b hb => ?_, by simp [smallSb], h36, hut, by simpa [smallSb] using ht⟩
  simp only [smallSb, Nat.one_mul] at hb
  have hblk : (smallSb total (total - used)).bitmapStart + b / 32768 = 1 := by
    simp only [smallSb]
    omega
  rw [bitAt, hblk]
  exact bitOf_bitsBelow used b hb

theorem smallFs_image :
    home (smallFs total used inodes data) 0 = smallImage total used inodes data :=
  funext smallFs_home

theorem smallFs_sound (h : Laid used inodes) (h36 : 36 ≤ used) (hut : used ≤ total)
    (ht : total ≤ 32768) (hlive : ∀ p ∈ inodes, p.2.type ≠ 0) :
    Sound ((smallFs total used inodes data).instances 0).sb
      (home (smallFs total used inodes data) 0) := by
  rw [smallFs_image]
  exact (h.filled h36 hut ht).sound rfl hlive

end Small

end KestrelOS.Kfs
