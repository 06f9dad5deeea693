import KestrelOS.Kfs.Rollback
import KestrelOS.Lib.Ledger

/-!
# What a staged write does to inodes, bits and tables

The contents of a file system are read off its blocks by `inodeAt`, `bitAt`, `tabAt` and, over
these, `ptrOf` and `fileByte`. A lemma for each kind of write says what it changes.
-/

namespace KestrelOS.Kfs

/-- The regions of a superblock that passed `sb_plausible` and whose bitmap covers the device. -/
structure Geometry (sb : KfsSuperblock) : Prop where
  bounded : sb.Bounded
  bitmapStart : sb.bitmapStart = 1
  journalStart : sb.journalStart = 1 + sb.bitmapBlocks
  inodeStart : sb.inodeStart = sb.journalStart + 33
  dataStart : sb.dataStart = sb.inodeStart + sb.inodeBlocks
  dataLt : sb.dataStart < sb.totalBlocks
  rootIno : sb.rootIno = 1
  countPos : 0 < sb.inodeCount
  countLe : sb.inodeCount ≤ sb.inodeBlocks * 64
  covers : sb.totalBlocks ≤ sb.bitmapBlocks * 32768

theorem Geometry.regions {sb : KfsSuperblock} (hg : Geometry sb) :
    sb.bitmapStart = 1 ∧ sb.journalStart = 1 + sb.bitmapBlocks ∧
      sb.inodeStart = sb.journalStart + 33 ∧ sb.dataStart = sb.inodeStart + sb.inodeBlocks ∧
      sb.dataStart < sb.totalBlocks ∧ sb.totalBlocks ≤ sb.bitmapBlocks * 32768 :=
  ⟨hg.bitmapStart, hg.journalStart, hg.inodeStart, hg.dataStart, hg.dataLt, hg.covers⟩

theorem Geometry.ne_zero {sb : KfsSuperblock} (hg : Geometry sb) {b : Nat} (hb : sb.dataStart ≤ b) :
    b ≠ 0 := by
  have hreg := hg.regions
  omega

theorem Geometry.not_inJournal {sb : KfsSuperblock} (hg : Geometry sb) {b : Nat}
    (hb : sb.inodeStart ≤ b) : ¬ InJournal sb b := by
  have hreg := hg.regions
  unfold InJournal
  omega

/-- The block a reference names: `none` is the indirect block, `some n` is file block `n`. -/
def ptr (ip : KfsInode) (tab : Nat → Nat → Nat) : Option Nat → Nat
  | none => ip.indirect
  | some n =>
    if n < 10 then ip.directAt n
    else if ip.indirect = 0 ∨ 1034 ≤ n then 0
    else tab ip.indirect (n - 10)

def ptrOf (sb : KfsSuperblock) (view : Nat → Block) (ino : Nat) (slot : Option Nat) : Nat :=
  ptr (inodeAt sb view ino) (tabAt view) slot

/-- Byte `i` of the file in inode `ino`; a file block that is not mapped reads as zeros. -/
def fileByte (sb : KfsSuperblock) (view : Nat → Block) (ino i : Nat) : UInt8 :=
  if ptrOf sb view ino (some (i / 4096)) = 0 then 0
  else (view (ptrOf sb view ino (some (i / 4096)))).byte (i % 4096)

variable {sb : KfsSuperblock} {view view' : Nat → Block}

variable {b i ino : Nat} {x : UInt8} {d : Block} {sb' : KfsSuperblock}

theorem inodeAt_congr (h : view' (inodeBlk sb ino) = view (inodeBlk sb ino)) :
    inodeAt sb view' ino = inodeAt sb view ino := by
  unfold inodeAt
  rw [h]

theorem bitAt_congr (h : view' (sb.bitmapStart + b / 32768) = view (sb.bitmapStart + b / 32768)) :
    bitAt sb view' b = bitAt sb view b := by
  unfold bitAt
  rw [h]

theorem tabAt_congr (h : view' b = view b) : tabAt view' b = tabAt view b := by
  unfold tabAt
  rw [h]

theorem Geometry.inodeBlk_range (hg : Geometry sb) (h : inoValid sb ino) :
    sb.inodeStart ≤ inodeBlk sb ino ∧ inodeBlk sb ino < sb.dataStart := by
  have h1 := hg.dataStart
  have h2 := hg.countLe
  simp only [inoValid, decide_eq_true_eq] at h
  unfold inodeBlk
  omega

theorem Geometry.total_lt (hg : Geometry sb) : sb.totalBlocks < 4294967296 := hg.bounded 1

theorem Geometry.ino_lt (hg : Geometry sb) (h : inoValid sb ino) : 0 < ino ∧ ino < 4294967296 := by
  have hcount : sb.inodeCount < 4294967296 := hg.bounded 8
  simp only [inoValid, decide_eq_true_eq] at h
  omega

theorem bitOf_setBit (x : UInt8) (bit j : Nat) (val : Bool) (hb : bit < 8) (hj : j < 8) :
    bitOf (setBit x bit val) j = if j = bit then val else bitOf x j := by
  have hone : (1 <<< UInt8.ofNat bit : UInt8).toBitVec.getLsbD j = decide (j = bit) := by
    have hsmall : ∀ b : Fin 8, ∀ k : Fin 8,
        (1 <<< UInt8.ofNat b : UInt8).toBitVec.getLsbD k = decide ((k : Nat) = b) := by decide
    exact hsmall ⟨bit, hb⟩ ⟨j, hj⟩
  unfold bitOf setBit
  cases val
  · simp only [Bool.false_eq_true, if_false, UInt8.toBitVec_and, UInt8.toBitVec_not,
      BitVec.getLsbD_and, BitVec.getLsbD_not, hone, hj]
    by_cases h : j = bit <;> simp [h]
  · simp only [if_true, UInt8.toBitVec_or, BitVec.getLsbD_or, hone]
    by_cases h : j = bit <;> simp [h]

def blockBit (d : Block) (k : Nat) : Bool := bitOf (d.byte (k / 8)) (k % 8)

theorem bitAt_eq (b : Nat) :
    bitAt sb view b = blockBit (view (sb.bitmapStart + b / 32768)) (b % 32768) := by
  have h1 : b % 32768 / 8 = b / 8 % 4096 := by omega
  have h2 : b % 32768 % 8 = b % 8 := by omega
  rw [bitAt, blockBit, h1, h2]

theorem blockBit_putBit (d : Block) (k j : Nat) (val : Bool) (hj : j < 32768) :
    blockBit (putBit d k val) j = if j = k then val else blockBit d j := by
  unfold blockBit putBit
  rw [Block.byte_ofBytes _ _ (by omega)]
  by_cases hbyte : j / 8 = k / 8
  · rw [if_pos hbyte, bitOf_setBit _ _ _ _ (by omega) (by omega)]
    have hiff : j % 8 = k % 8 ↔ j = k := by omega
    simp only [hiff]
  · rw [if_neg hbyte, if_neg (by rintro rfl; exact hbyte rfl)]

theorem bitAt_write (v : View) (b c : Nat) (val : Bool) :
    bitAt sb (v.write (sb.bitmapStart + b / 32768)
        (putBit (v.view (sb.bitmapStart + b / 32768)) (b % 32768) val)).view c =
      if c = b then val else bitAt sb v.view c := by
  rw [bitAt_eq, bitAt_eq]
  by_cases hblk : c / 32768 = b / 32768
  · rw [hblk, TxView.write_same, blockBit_putBit _ _ _ _ (by omega)]
    have hiff : c % 32768 = b % 32768 ↔ c = b := by omega
    simp only [hiff]
  · rw [TxView.write_other _ _ _ _ (by omega), if_neg (by rintro rfl; exact hblk rfl)]

theorem clearBitIn_some {n k : Nat} (h : clearBitIn x n i = some k) :
    i ≤ k ∧ k < i + n ∧ bitOf x k = false ∧ ∀ j, i ≤ j → j < k → bitOf x j := by
  induction n generalizing i with
  | zero => simp [clearBitIn] at h
  | succ n ih =>
    unfold clearBitIn at h
    split at h
    · rename_i hi
      obtain ⟨h1, h2, h3, h4⟩ := ih h
      refine ⟨by omega, by omega, h3, fun j hj hjk => ?_⟩
      by_cases hji : j = i
      · rw [hji]
        exact hi
      · exact h4 j (by omega) hjk
    · rename_i hi
      simp only [Option.some.injEq] at h
      subst h
      exact ⟨le_refl _, by omega, by simpa using hi, fun j _ _ => by omega⟩

theorem clearBitIn_none {n : Nat} (h : clearBitIn x n i = none) (j : Nat) (hj : i ≤ j)
    (hn : j < i + n) : bitOf x j := by
  induction n generalizing i with
  | zero => omega
  | succ n ih =>
    unfold clearBitIn at h
    split at h
    · rename_i hi
      by_cases hji : j = i
      · rw [hji]
        exact hi
      · exact ih h (by omega) (by omega)
    · simp at h

theorem findClear_some {n k : Nat} (h : findClear d n i = some k) :
    k < (i + n) * 8 ∧ blockBit d k = false ∧ ∀ j, i * 8 ≤ j → j < k → blockBit d j := by
  induction n generalizing i with
  | zero => simp [findClear] at h
  | succ n ih =>
    unfold findClear at h
    split at h
    · rename_i bit hbit
      simp only [Option.some.injEq] at h
      obtain ⟨-, h2, h3, h4⟩ := clearBitIn_some hbit
      have hdiv : ∀ m, m < 8 → (i * 8 + m) / 8 = i ∧ (i * 8 + m) % 8 = m := by
        intro m hm
        omega
      subst h
      refine ⟨by omega, ?_, fun j hj hjk => ?_⟩
      · rw [blockBit, (hdiv bit (by omega)).1, (hdiv bit (by omega)).2]
        exact h3
      obtain ⟨m, rfl⟩ : ∃ m, j = i * 8 + m := ⟨j - i * 8, by omega⟩
      rw [blockBit, (hdiv m (by omega)).1, (hdiv m (by omega)).2]
      exact h4 m (by omega) (by omega)
    · rename_i hnone
      obtain ⟨h1, h2, h3⟩ := ih h
      refine ⟨by omega, h2, fun j hj hjk => ?_⟩
      by_cases hnext : (i + 1) * 8 ≤ j
      · exact h3 j hnext hjk
      · rw [blockBit, show j / 8 = i by omega]
        exact clearBitIn_none hnone _ (by omega) (by omega)

theorem findClear_none {n : Nat} (h : findClear d n i = none) (j : Nat) (hj : i * 8 ≤ j)
    (hn : j < (i + n) * 8) : blockBit d j := by
  induction n generalizing i with
  | zero => omega
  | succ n ih =>
    unfold findClear at h
    split at h
    · simp at h
    rename_i hnone
    by_cases hnext : (i + 1) * 8 ≤ j
    · exact ih h hnext (by omega)
    · rw [blockBit, show j / 8 = i by omega]
      exact clearBitIn_none hnone _ (by omega) (by omega)

theorem inodeAt_putInode {v : View} {ino ino' : Nat} {ip : KfsInode}
    (hb : ip.Bounded) (h1 : 1 ≤ ino) (h2 : 1 ≤ ino') :
    inodeAt sb (v.write (inodeBlk sb ino) (putInode (v.view (inodeBlk sb ino)) ino ip)).view ino' =
      if ino' = ino then ip else inodeAt sb v.view ino' := by
  unfold inodeAt
  by_cases hblk : inodeBlk sb ino' = inodeBlk sb ino
  · rw [hblk, TxView.write_same]
    have hoff : inodeOff ino + 64 ≤ 4096 ∧ inodeOff ino' + 64 ≤ 4096 := by
      unfold inodeOff
      omega
    unfold inodeBlk at hblk
    by_cases hino : ino' = ino
    · subst hino
      rw [if_pos rfl]
      calc KfsInode.ofBytes (putInode (v.view (inodeBlk sb ino')) ino' ip).byte (inodeOff ino')
          = KfsInode.ofBytes ip.toBytes 0 := by
            apply KfsInode.ofBytes_congr
            intro k hk
            rw [putInode, Block.byte_ofBytes _ _ (by omega), splice_inside _ _ _ _ _ hk,
              Nat.zero_add]
        _ = ip := KfsInode.ofBytes_toBytes ip hb
    · rw [if_neg hino]
      apply KfsInode.ofBytes_congr
      intro k hk
      rw [putInode, Block.byte_ofBytes _ _ (by omega), splice_outside]
      unfold inodeOff
      omega
  · have hino : ino' ≠ ino := by
      rintro rfl
      exact hblk rfl
    rw [TxView.write_other _ _ _ _ hblk, if_neg hino]

theorem tabAt_putWord (d : Block) (j k b : Nat) (hb : b < 4294967296) (hk : k < 1024) :
    le32 (putWord d j b).byte (4 * k) = if k = j then b else le32 d.byte (4 * k) := by
  rw [putWord, Block.le32_ofBytes _ _ (by omega)]
  by_cases hkj : k = j
  · subst hkj
    rw [if_pos rfl]
    have := le32_splice_inside d.byte (leByte b) (4 * k) 4 0 (by omega)
    rw [Nat.add_zero] at this
    rw [this, le32_eq_of_leByte (leByte b) 0 b, Nat.mod_eq_of_lt hb]
    intro i _
    rw [Nat.zero_add]
  · rw [if_neg hkj, le32_splice_outside]
    omega

theorem SameLayout.bounded (h : SameLayout sb sb') (hb : sb.Bounded)
    (hf : sb'.freeBlocks < 4294967296) : sb'.Bounded := by
  intro k
  have hk := hb k
  unfold SameLayout at h
  unfold KfsSuperblock.word at hk ⊢
  rw [h]
  split at hk <;> first | exact hk | exact hf

theorem sbImage_ofBytes (m : KfsMem) (h : m.sb.Bounded) :
    KfsSuperblock.ofBytes (sbImage m).byte = m.sb := by
  rw [← KfsSuperblock.ofBytes_toBytes m.sb h]
  apply KfsSuperblock.ofBytes_congr
  intro k hk
  rw [sbImage, Block.byte_ofBytes _ _ (by omega)]
  have := splice_inside m.sbBlock.byte m.sb.toBytes 0 52 k hk
  rw [Nat.zero_add] at this
  rw [this]

/-! ## The shape of a consistent view

`Shape` holds of what a transaction sees between any two of its writes: the superblock copies
agree, only blocks that may be written are staged, and blocks are read as they are or not at all. -/

structure HonestReads (may : ReadRule Block) (sb : KfsSuperblock) : Prop where
  bitmap : ∀ bb < sb.bitmapBlocks, may.Honest (sb.bitmapStart + bb)
  inodes : ∀ ino, inoValid sb ino = true → may.Honest (inodeBlk sb ino)
  data : ∀ b, sb.dataStart ≤ b → b < sb.totalBlocks → may.Honest b

structure Shape (may : ReadRule Block) (sb : KfsSuperblock)
    (v : TxView Block KfsMem) : Prop where
  layout : SameLayout sb v.mem.sb
  sbHome : KfsSuperblock.ofBytes (v.view 0).byte = v.mem.sb
  staged : ∀ b, v.staged b = true → b < sb.totalBlocks ∧ ¬ InJournal sb b
  honest : HonestReads may sb

variable {may : ReadRule Block} {v : View}

theorem Shape.write (h : Shape may sb v) (d : Block) (h0 : b ≠ 0) (hb : b < sb.totalBlocks)
    (hj : ¬ InJournal sb b) : Shape may sb (v.write b d) where
  layout := h.layout
  sbHome := by
    rw [TxView.write_other _ _ _ _ (by omega)]
    exact h.sbHome
  staged := by
    intro c hc
    rcases (TxView.write_staged v b c d).mp hc with rfl | hc
    · exact ⟨hb, hj⟩
    · exact h.staged c hc
  honest := h.honest

/-- The view after a bitmap bit was changed and the free count with it. -/
def mark (v : TxView Block KfsMem) (b : Nat) (val : Bool) : TxView Block KfsMem :=
  let sb := v.mem.sb
  let free := (if val then sb.freeBlocks + 4294967295 else sb.freeBlocks + 1) % 4294967296
  let m : KfsMem := { v.mem with sb := { sb with freeBlocks := free } }
  let blk := sb.bitmapStart + b / 32768
  TxView.write { v.write blk (putBit (v.view blk) (b % 32768) val) with
    mem := { m with sbBlock := sbImage m } } 0 (sbImage m)

theorem mark_mem (v : View) (b : Nat) (val : Bool) :
    (mark v b val).mem.sb = { v.mem.sb with freeBlocks :=
      (if val then v.mem.sb.freeBlocks + 4294967295 else v.mem.sb.freeBlocks + 1) % 4294967296 } :=
  rfl

theorem mark_view_other (v : View) (b c : Nat) (val : Bool) (h0 : c ≠ 0)
    (hc : c ≠ v.mem.sb.bitmapStart + b / 32768) : (mark v b val).view c = v.view c := by
  unfold mark
  rw [TxView.write_other _ _ _ _ h0]
  exact TxView.write_other v _ c _ hc

theorem SameLayout.bitmapStart (h : SameLayout sb sb') :
    sb'.bitmapStart = sb.bitmapStart := by rw [h]

theorem mark_bit (hg : Geometry sb) (hl : SameLayout sb v.mem.sb) (b c : Nat) (val : Bool) :
    bitAt sb (mark v b val).view c = if c = b then val else bitAt sb v.view c := by
  rw [← bitAt_write v b c val]
  apply bitAt_congr
  unfold mark
  rw [TxView.write_other _ _ _ _ (by have := hg.bitmapStart; omega), hl.bitmapStart]

theorem mark_view_above (hg : Geometry sb) (hl : SameLayout sb v.mem.sb) {c : Nat} (val : Bool)
    (hb : b < sb.totalBlocks) (hc : sb.inodeStart ≤ c) : (mark v b val).view c = v.view c := by
  have hreg := hg.regions
  apply mark_view_other
  · omega
  · rw [hl.bitmapStart]
    omega

theorem mark_staged (v : View) (b c : Nat) (val : Bool) : (mark v b val).staged c ↔
      c = 0 ∨ c = v.mem.sb.bitmapStart + b / 32768 ∨ v.staged c := by
  simp [mark, TxView.write]

theorem Shape.mark (hg : Geometry sb) (h : Shape may sb v) (val : Bool) (hb : b < sb.totalBlocks) :
    Shape may sb (mark v b val) := by
  have hreg := hg.regions
  have hlayout : SameLayout sb (Kfs.mark v b val).mem.sb := by
    rw [mark_mem]
    exact h.layout.setFree _
  have hfit : b / 32768 < sb.bitmapBlocks := by omega
  refine ⟨hlayout, ?_, ?_, h.honest⟩
  · have hbounded := hlayout.bounded hg.bounded (Nat.mod_lt _ (by decide))
    unfold Kfs.mark
    rw [TxView.write_same]
    exact sbImage_ofBytes _ hbounded
  · intro c hc
    rcases (mark_staged v b c val).mp hc with rfl | rfl | hc
    · exact ⟨by omega, by unfold InJournal; omega⟩
    · rw [h.layout.bitmapStart]
      exact ⟨by omega, by unfold InJournal; omega⟩
    · exact h.staged c hc

def take (v : TxView Block KfsMem) (b : Nat) : TxView Block KfsMem :=
  (mark v b true).write b Block.zero

def store (v : TxView Block KfsMem) (ino : Nat) (ip : KfsInode) : TxView Block KfsMem :=
  v.write (inodeBlk v.mem.sb ino) (putInode (v.view (inodeBlk v.mem.sb ino)) ino ip)

end KestrelOS.Kfs
