import KestrelOS.Kfs.Inode
import KestrelOS.Kfs.BlockIo

/-!
# What the superblock check ensures

An accepted superblock lays out its regions one behind the other on the device. The bitmap may be
too short for the blocks it is for: then freeing a block behind its reach takes a block of the
journal, of the inode table or of a file for bitmap.
-/

namespace KestrelOS.Kfs

def inRegion (start blocks b : Nat) : Prop := start ≤ b ∧ b < start + blocks

instance (start blocks b : Nat) : Decidable (inRegion start blocks b) :=
  inferInstanceAs (Decidable (_ ∧ _))

def KfsSuperblock.inBitmap (sb : KfsSuperblock) (b : Nat) : Prop :=
  inRegion sb.bitmapStart sb.bitmapBlocks b

def KfsSuperblock.inTable (sb : KfsSuperblock) (b : Nat) : Prop :=
  inRegion sb.inodeStart sb.inodeBlocks b

structure Regions (bd : Blockdev) (f : KfsFs) : Prop where
  bitmap : 1 ≤ f.sb.bitmapStart
  journal : f.sb.bitmapStart + f.sb.bitmapBlocks ≤ f.sb.journalStart
  table : f.sb.journalStart + f.sb.journalBlocks ≤ f.sb.inodeStart
  data : f.sb.inodeStart + f.sb.inodeBlocks ≤ f.sb.dataStart
  last : f.sb.dataStart ≤ f.sb.totalBlocks
  device : ∀ b < f.sb.totalBlocks, f.lba b + f.spb ≤ bd.blocks

/-- What the allocator may stage: the superblock, bitmap blocks, and zeros. -/
def KfsSuperblock.allocates (sb : KfsSuperblock) (b : Nat) (d : Block) : Prop :=
  sb.inBitmap b ∨ b = 0 ∨ d = Block.zero

/-- Inodes are looked for in the inode table, and block bits in the bitmap. -/
structure Located (sb : KfsSuperblock) : Prop where
  iget : ∀ ino raw, inoValid sb ino → (iget ino).within sb.inTable (fun _ _ => False)
    (fun _ _ => True) ⟨sb, raw⟩
  iput : ∀ ino ip raw, inoValid sb ino → (iput ino ip).within sb.inTable (fun b _ => sb.inTable b)
    (fun _ _ => True) ⟨sb, raw⟩
  balloc : ∀ raw, balloc.within sb.inBitmap sb.allocates (fun _ _ => True) ⟨sb, raw⟩
  bfree : ∀ blk raw, (bfree blk).within sb.inBitmap sb.allocates (fun _ _ => True) ⟨sb, raw⟩
  bits : ∀ blk, sb.dataStart ≤ blk → blk < sb.totalBlocks →
    sb.inBitmap (sb.bitmapStart + blk / 32768)

section Within

variable {R : Nat → Prop} {W : Nat → Block → Prop}

@[simp] theorem Tx.within_read (b : Nat) (Q : Option Block → KfsMem → Prop) (m : KfsMem) :
    (Tx.read b).within R W Q m ↔ R b ∧ ∀ r, Q r m := Iff.rfl

@[simp] theorem Tx.within_stage (b : Nat) (d : Block) (Q : Bool → KfsMem → Prop) (m : KfsMem) :
    (Tx.stage b d).within R W Q m ↔ W b d ∧ ∀ r, Q r m := Iff.rfl

@[simp] theorem Tx.within_load (Q : KfsMem → KfsMem → Prop) (m : KfsMem) :
    Tx.load.within R W Q m ↔ Q m m := Iff.rfl

@[simp] theorem Tx.within_store (m' : KfsMem) (Q : Unit → KfsMem → Prop) (m : KfsMem) :
    (Tx.store m').within R W Q m ↔ Q () m' := Iff.rfl

@[simp] theorem Tx.within_live (Q : Bool → KfsMem → Prop) (m : KfsMem) :
    Tx.live.within R W Q m ↔ ∀ l, Q l m := Iff.rfl

@[simp] theorem Tx.within_ignored (Q : Unit → KfsMem → Prop) (m : KfsMem) :
    Tx.ignored.within R W Q m ↔ Q () m := Iff.rfl

variable {sb : KfsSuperblock} {raw : Block}

theorem iget_within {ino : Nat} (h : sb.inTable (inodeBlk sb ino)) :
    (iget ino).within sb.inTable (fun _ _ => False) (fun _ _ => True) ⟨sb, raw⟩ := by
  unfold iget
  simp only [TxProg.within_bind, Tx.within_live, Tx.within_load]
  intro mounted
  split
  · simp only [TxProg.within_bind, Tx.within_read]
    refine ⟨h, fun r => ?_⟩
    cases r <;> exact trivial
  · exact trivial

theorem iput_within {ino : Nat} {ip : KfsInode} (h : sb.inTable (inodeBlk sb ino)) :
    (iput ino ip).within sb.inTable (fun b _ => sb.inTable b) (fun _ _ => True) ⟨sb, raw⟩ := by
  unfold iput
  simp only [TxProg.within_bind, Tx.within_load, Tx.within_read]
  refine ⟨h, fun r => ?_⟩
  cases r with
  | none => exact trivial
  | some d => exact ⟨h, fun _ => trivial⟩

theorem setFree_sbSync_within {α : Type} (f : Nat → Nat) (k : Bool → Tx α) {Q : α → KfsMem → Prop}
    {m : KfsMem} (h0 : ∀ d, W 0 d) (hk : ∀ r sb' raw', (k r).within R W Q ⟨sb', raw'⟩) :
    (setFree f >>= fun _ => sbSync >>= k).within R W Q m := by
  unfold setFree sbSync
  simp only [TxProg.within_bind, Tx.within_load, Tx.within_store, Tx.within_stage]
  exact ⟨h0 _, fun r => hk r _ _⟩

theorem bfree_within {blk : Nat} (h : sb.dataStart ≤ blk → blk < sb.totalBlocks →
    sb.inBitmap (sb.bitmapStart + blk / 32768)) :
    (bfree blk).within sb.inBitmap sb.allocates (fun _ _ => True) ⟨sb, raw⟩ := by
  unfold bfree
  rw [TxProg.within_bind, Tx.within_load]
  dsimp only
  split
  · exact trivial
  rename_i hin
  have hbit := h (by omega) (by omega)
  rw [TxProg.within_bind, Tx.within_read]
  refine ⟨hbit, fun r => ?_⟩
  cases r with
  | none => exact trivial
  | some d =>
    dsimp only
    split
    · rw [TxProg.within_bind, Tx.within_stage]
      exact ⟨.inl hbit, fun _ => setFree_sbSync_within _ _ (fun _ => .inr (.inl rfl))
        fun _ _ _ => trivial⟩
    · exact trivial

theorem ballocFrom_within (n bb : Nat) (h : bb + n ≤ sb.bitmapBlocks) :
    (ballocFrom n bb).within sb.inBitmap sb.allocates (fun _ _ => True) ⟨sb, raw⟩ := by
  induction n generalizing bb with
  | zero => exact trivial
  | succ n ih =>
    have hbit : sb.inBitmap (sb.bitmapStart + bb) := ⟨by omega, by omega⟩
    rw [ballocFrom, TxProg.within_bind, Tx.within_load]
    dsimp only
    rw [TxProg.within_bind, Tx.within_read]
    refine ⟨hbit, fun r => ?_⟩
    cases r with
    | none => exact trivial
    | some d =>
      dsimp only
      split
      · exact ih (bb + 1) (by omega)
      split
      · exact trivial
      rw [TxProg.within_bind, Tx.within_stage]
      refine ⟨.inl hbit, fun r => ?_⟩
      cases r with
      | false => exact trivial
      | true =>
        apply setFree_sbSync_within _ _ (fun _ => .inr (.inl rfl))
        intro _ sb' raw'
        rw [TxProg.within_bind, Tx.within_stage]
        refine ⟨.inr (.inr rfl), fun r => ?_⟩
        cases r <;> exact trivial

end Within

theorem regions_of_sb {bd : Blockdev} {f : KfsFs} (h : sbPlausible bd f) : Regions bd f := by
  simp only [sbPlausible, decide_eq_true_eq] at h
  obtain ⟨-, -, -, hb, -, hj, -, ht, -, hd, hlast, -, -, -, -, hstart, hneed⟩ := h
  refine ⟨by omega, by omega, by omega, by omega, by omega, fun b hlt => ?_⟩
  have hmul : b * f.spb + f.spb ≤ f.sb.totalBlocks * f.spb := by
    rw [← Nat.succ_mul]
    exact Nat.mul_le_mul_right _ hlt
  unfold KfsFs.lba
  omega

theorem inTable_of_sb {bd : Blockdev} {f : KfsFs} (h : sbPlausible bd f) {ino : Nat}
    (hino : inoValid f.sb ino) : f.sb.inTable (inodeBlk f.sb ino) := by
  simp only [sbPlausible, decide_eq_true_eq] at h
  simp only [inoValid, decide_eq_true_eq] at hino
  unfold KfsSuperblock.inTable inRegion inodeBlk
  omega

/-- Of an accepted superblock the regions are in order and on the device; everything is looked for
where it is, precisely if the bitmap has a bit for every block. -/
theorem located_iff_bitmap_covers (bd : Blockdev) (f : KfsFs) (h : sbPlausible bd f = true) :
    (Regions bd f ∧ Located f.sb) ↔ f.sb.totalBlocks ≤ f.sb.bitmapBlocks * 32768 := by
  have hdata : f.sb.dataStart < f.sb.totalBlocks := by
    simp only [sbPlausible, decide_eq_true_eq] at h
    omega
  constructor
  · intro hloc
    have hlast := hloc.2.bits (f.sb.totalBlocks - 1) (by omega) (by omega)
    unfold KfsSuperblock.inBitmap inRegion at hlast
    omega
  intro hcover
  have hbits : ∀ blk, f.sb.dataStart ≤ blk → blk < f.sb.totalBlocks →
      f.sb.inBitmap (f.sb.bitmapStart + blk / 32768) := by
    intro blk _ hlt
    unfold KfsSuperblock.inBitmap inRegion
    omega
  refine ⟨regions_of_sb h, ?_⟩
  exact {
    iget := fun ino raw hino => iget_within (inTable_of_sb h hino)
    iput := fun ino ip raw hino => iput_within (inTable_of_sb h hino)
    balloc := fun raw => ballocFrom_within _ 0 (Nat.le_of_eq (Nat.zero_add _))
    bfree := fun blk raw => bfree_within (hbits blk)
    bits := hbits }

/-- A file system of `total` blocks with one block of bitmap. -/
def oneBitmapBlock (total : Nat) : KfsFs where
  bd := none
  startLba := 0
  spb := 1
  sb := ⟨0x3353464B, total, 1, 1, 2, 33, 35, 1, 64, 36, 1, 0, 1⟩
  used := true
  mounted := false
  handles := 0

theorem located_iff_bitmap_covers_small :
    (Regions ⟨4096, 1000, true⟩ (oneBitmapBlock 1000) ∧ Located (oneBitmapBlock 1000).sb) ↔
      (oneBitmapBlock 1000).sb.totalBlocks ≤ (oneBitmapBlock 1000).sb.bitmapBlocks * 32768 :=
  located_iff_bitmap_covers _ _ (by decide)

/-- A superblock is accepted although freeing block 40000 reads the journal header as bitmap. -/
theorem short_bitmap_is_accepted :
    sbPlausible ⟨4096, 65536, true⟩ (oneBitmapBlock 65536) = true ∧
      ¬ Located (oneBitmapBlock 65536).sb ∧
      ¬ (bfree 40000).within (oneBitmapBlock 65536).sb.inBitmap (oneBitmapBlock 65536).sb.allocates
        (fun _ _ => True) ⟨(oneBitmapBlock 65536).sb, Block.zero⟩ ∧
      inRegion (oneBitmapBlock 65536).sb.journalStart (oneBitmapBlock 65536).sb.journalBlocks
        ((oneBitmapBlock 65536).sb.bitmapStart + 40000 / 32768) := by
  have hout : ¬ (oneBitmapBlock 65536).sb.inBitmap
      ((oneBitmapBlock 65536).sb.bitmapStart + 40000 / 32768) := by
    unfold KfsSuperblock.inBitmap
    decide
  refine ⟨by decide, fun hloc => hout (hloc.bits 40000 (by decide) (by decide)), fun hfree => ?_,
    by decide⟩
  unfold bfree at hfree
  rw [TxProg.within_bind, Tx.within_load] at hfree
  dsimp only at hfree
  rw [if_neg (by decide), TxProg.within_bind, Tx.within_read] at hfree
  exact hout hfree.1

end KestrelOS.Kfs
