import KestrelOS.Lib.Bytes
import Mathlib.Data.Fin.VecNotation

/-!
# The on-disk format, version 3

Blocks of KFS_BLOCK_SIZE = 4096 bytes: the superblock, the block bitmap, the journal of
KFS_JOURNAL_BLOCKS = 33 blocks, the inode table of 64 inodes a block, and the data blocks.
An inode has KFS_NDIRECT = 10 direct pointers and one indirect block of KFS_NINDIRECT = 1024;
a directory is an array of 64-byte entries.
-/

namespace KestrelOS.Kfs

abbrev Block := Fin 4096 → UInt8

namespace Block

def byte (b : Block) : Bytes := fun i => if h : i < 4096 then b ⟨i, h⟩ else 0

def ofBytes (f : Bytes) : Block := fun i => f i

def zero : Block := fun _ => 0

theorem byte_ofBytes (f : Bytes) (i : Nat) (h : i < 4096) : (ofBytes f).byte i = f i := by
  simp [byte, ofBytes, h]

theorem byte_zero (i : Nat) : zero.byte i = 0 := by simp [byte, zero]

theorem le32_ofBytes (f : Bytes) (i : Nat) (h : i + 4 ≤ 4096) :
    le32 (ofBytes f).byte i = le32 f i := by
  apply le32_congr
  intro k hk
  exact byte_ofBytes f (i + k) (by omega)

theorem le32_zero (i : Nat) : le32 zero.byte i = 0 := by simp [le32, byte_zero]

end Block

structure KfsSuperblock where
  magic : Nat
  totalBlocks : Nat
  bitmapStart : Nat
  bitmapBlocks : Nat
  journalStart : Nat
  journalBlocks : Nat
  inodeStart : Nat
  inodeBlocks : Nat
  inodeCount : Nat
  dataStart : Nat
  rootIno : Nat
  freeBlocks : Nat
  features : Nat
  deriving DecidableEq

namespace KfsSuperblock

def ofBytes (f : Bytes) : KfsSuperblock where
  magic := le32 f 0
  totalBlocks := le32 f 4
  bitmapStart := le32 f 8
  bitmapBlocks := le32 f 12
  journalStart := le32 f 16
  journalBlocks := le32 f 20
  inodeStart := le32 f 24
  inodeBlocks := le32 f 28
  inodeCount := le32 f 32
  dataStart := le32 f 36
  rootIno := le32 f 40
  freeBlocks := le32 f 44
  features := le32 f 48

def word (sb : KfsSuperblock) : Nat → Nat
  | 0 => sb.magic
  | 1 => sb.totalBlocks
  | 2 => sb.bitmapStart
  | 3 => sb.bitmapBlocks
  | 4 => sb.journalStart
  | 5 => sb.journalBlocks
  | 6 => sb.inodeStart
  | 7 => sb.inodeBlocks
  | 8 => sb.inodeCount
  | 9 => sb.dataStart
  | 10 => sb.rootIno
  | 11 => sb.freeBlocks
  | 12 => sb.features
  | _ => 0

def toBytes (sb : KfsSuperblock) : Bytes := wordsBytes sb.word

/-- Every field fits its 32-bit word. -/
def Bounded (sb : KfsSuperblock) : Prop := ∀ k, sb.word k < 4294967296

theorem ofBytes_bounded (f : Bytes) : (ofBytes f).Bounded := by
  intro k
  unfold word ofBytes
  split <;> first | exact le32_lt _ _ | omega

theorem ofBytes_congr (f g : Bytes) (h : ∀ k < 52, f k = g k) : ofBytes f = ofBytes g := by
  have hw : ∀ i, i + 4 ≤ 52 → le32 f i = le32 g i := by
    intro i hi
    apply le32_congr
    intro k hk
    exact h (i + k) (by omega)
  simp [ofBytes, hw]

theorem ofBytes_toBytes (sb : KfsSuperblock) (h : sb.Bounded) : ofBytes sb.toBytes = sb := by
  have hw : ∀ k, le32 sb.toBytes (4 * k) = sb.word k := by
    intro k
    rw [toBytes, le32_wordsBytes, Nat.mod_eq_of_lt (h k)]
  have h0 := hw 0
  have h1 := hw 1
  have h2 := hw 2
  have h3 := hw 3
  have h4 := hw 4
  have h5 := hw 5
  have h6 := hw 6
  have h7 := hw 7
  have h8 := hw 8
  have h9 := hw 9
  have h10 := hw 10
  have h11 := hw 11
  have h12 := hw 12
  simp only [word, Nat.mul_zero, Nat.reduceMul] at h0 h1 h2 h3 h4 h5 h6 h7 h8 h9 h10 h11 h12
  simp only [ofBytes, h0, h1, h2, h3, h4, h5, h6, h7, h8, h9, h10, h11, h12]

end KfsSuperblock

scoped instance neZero_ten : NeZero 10 := ⟨by decide⟩

/-- KFS_TYPE_FREE, KFS_TYPE_FILE and KFS_TYPE_DIR are the values 0, 1 and 2 of `type`. -/
structure KfsInode where
  type : Nat
  mode : Nat
  size : Nat
  uid : Nat
  gid : Nat
  mtime : Nat
  direct : Fin 10 → Nat
  indirect : Nat

namespace KfsInode

def zero : KfsInode := ⟨0, 0, 0, 0, 0, 0, fun _ => 0, 0⟩

def ofBytes (f : Bytes) (off : Nat) : KfsInode where
  type := le16 f off
  mode := le16 f (off + 2)
  size := le32 f (off + 4)
  uid := le32 f (off + 8)
  gid := le32 f (off + 12)
  mtime := le32 f (off + 16)
  direct := fun i => le32 f (off + (20 + 4 * i))
  indirect := le32 f (off + 60)

def word (ip : KfsInode) (k : Nat) : Nat :=
  if k = 0 then ip.type + 65536 * ip.mode
  else if k = 1 then ip.size
  else if k = 2 then ip.uid
  else if k = 3 then ip.gid
  else if k = 4 then ip.mtime
  else if h : k - 5 < 10 then ip.direct ⟨k - 5, h⟩
  else ip.indirect

def toBytes (ip : KfsInode) : Bytes := wordsBytes ip.word

/-- Every field fits the width it has on disk. -/
@[mk_iff] structure Bounded (ip : KfsInode) : Prop where
  type : ip.type < 65536
  mode : ip.mode < 65536
  size : ip.size < 4294967296
  uid : ip.uid < 4294967296
  gid : ip.gid < 4294967296
  mtime : ip.mtime < 4294967296
  direct : ∀ i, ip.direct i < 4294967296
  indirect : ip.indirect < 4294967296

instance (ip : KfsInode) : Decidable ip.Bounded := decidable_of_iff' _ (bounded_iff ip)

theorem zero_bounded : zero.Bounded := by decide

theorem ofBytes_bounded (f : Bytes) (off : Nat) : (ofBytes f off).Bounded where
  type := le16_lt _ _
  mode := le16_lt _ _
  size := le32_lt _ _
  uid := le32_lt _ _
  gid := le32_lt _ _
  mtime := le32_lt _ _
  direct := fun _ => le32_lt _ _
  indirect := le32_lt _ _

theorem ofBytes_congr (f g : Bytes) (i j : Nat) (h : ∀ k < 64, f (i + k) = g (j + k)) :
    ofBytes f i = ofBytes g j := by
  have h32 : ∀ k, k + 4 ≤ 64 → le32 f (i + k) = le32 g (j + k) := by
    intro k hk
    apply le32_congr
    intro l hl
    rw [Nat.add_assoc, Nat.add_assoc]
    exact h (k + l) (by omega)
  have h16 : ∀ k, k + 2 ≤ 64 → le16 f (i + k) = le16 g (j + k) := by
    intro k hk
    apply le16_congr
    intro l hl
    rw [Nat.add_assoc, Nat.add_assoc]
    exact h (k + l) (by omega)
  have h0 := h16 0 (by omega)
  simp only [Nat.add_zero] at h0
  simp only [ofBytes, h0, h16 2 (by omega), h32 4 (by omega), h32 8 (by omega), h32 12 (by omega),
    h32 16 (by omega), h32 60 (by omega), mk.injEq, and_true, true_and]
  funext d
  exact h32 (20 + 4 * d) (by omega)

theorem ofBytes_toBytes (ip : KfsInode) (h : ip.Bounded) : ofBytes ip.toBytes 0 = ip := by
  have hw : ∀ k, ip.word k < 4294967296 → le32 ip.toBytes (4 * k) = ip.word k := by
    intro k hk
    rw [toBytes, le32_wordsBytes, Nat.mod_eq_of_lt hk]
  have htype : le16 ip.toBytes 0 = ip.type := by
    have ht := h.type
    have hl := le16_wordsBytes_low ip.word 0
    simp only [Nat.mul_zero, word, if_true] at hl
    rw [toBytes, hl]
    omega
  have hmode : le16 ip.toBytes 2 = ip.mode := by
    have ht := h.type
    have hm := h.mode
    have hl := le16_wordsBytes_high ip.word 0
    simp only [Nat.mul_zero, Nat.zero_add, word, if_true] at hl
    rw [toBytes, hl]
    omega
  have hdir : ∀ i : Fin 10, le32 ip.toBytes (20 + 4 * i) = ip.direct i := by
    intro i
    have hk : ip.word (i + 5) = ip.direct i := by simp [word]
    have := hw (i + 5) (by rw [hk]; exact h.direct i)
    rw [hk] at this
    rw [← this]
    congr 1
    omega
  have h4 := hw 1 h.size
  have h8 := hw 2 h.uid
  have h12 := hw 3 h.gid
  have h16 := hw 4 h.mtime
  have h60 := hw 15 h.indirect
  simp only [word, Nat.reduceMul, Nat.reduceEqDiff, Nat.reduceSub, if_false, if_true,
    Nat.one_ne_zero, Nat.reduceLT, dite_false, Nat.mul_one] at h4 h8 h12 h16 h60
  simp only [ofBytes, Nat.zero_add, htype, hmode, hdir, h4, h8, h12, h16, h60]

@[simp] theorem ofBytes_zero (off : Nat) : ofBytes Block.zero.byte off = zero := by
  simp [ofBytes, zero, le32, le16, Block.byte_zero]

end KfsInode

structure KfsDirent where
  ino : Nat
  name : List UInt8
  deriving DecidableEq

namespace KfsDirent

/-- `name` is the C string in the 60-byte field; an unterminated field gives all 60 bytes. -/
def ofBytes (f : Bytes) (off : Nat) : KfsDirent where
  ino := le32 f off
  name := cstrAt f (off + 4) 60

/-- The entry `dir_add` builds: a zeroed struct, the inode number, and at most 59 name bytes. -/
def toBytes (de : KfsDirent) : Bytes := fun i =>
  if i < 4 then leByte de.ino i else if i < 63 then de.name.getD (i - 4) 0 else 0

theorem ofBytes_congr (f g : Bytes) (i j : Nat) (h : ∀ k < 64, f (i + k) = g (j + k)) :
    ofBytes f i = ofBytes g j := by
  have hi : le32 f i = le32 g j := le32_congr f g i j fun k hk => h k (by omega)
  have hn : cstrAt f (i + 4) 60 = cstrAt g (j + 4) 60 := by
    apply cstrAt_congr
    intro k hk
    rw [Nat.add_assoc, Nat.add_assoc]
    exact h (4 + k) (by omega)
  simp only [ofBytes, hi, hn]

theorem ofBytes_toBytes (de : KfsDirent) (hino : de.ino < 4294967296) (hlen : de.name.length ≤ 59)
    (hnul : 0 ∉ de.name) : ofBytes de.toBytes 0 = de := by
  have hi : le32 de.toBytes 0 = de.ino := by
    rw [le32_eq_of_leByte de.toBytes 0 de.ino, Nat.mod_eq_of_lt hino]
    intro k hk
    simp [toBytes, hk]
  have hn : cstrAt de.toBytes (0 + 4) 60 = de.name := by
    apply cstrAt_of_padded _ _ _ _ (by omega) hnul
    intro k hk
    have h4 : ¬ 0 + 4 + k < 4 := by omega
    have hsub : 0 + 4 + k - 4 = k := by omega
    simp only [toBytes, h4, if_false, hsub]
    split
    · rfl
    · rw [List.getD_eq_getElem?_getD, List.getElem?_eq_none (by omega)]
      rfl
  simp only [ofBytes, hi, hn]

theorem ofBytes_cleared (f : Bytes) (off : Nat) (h : ∀ k < 64, f (off + k) = 0) :
    (ofBytes f off).ino = 0 := by
  have h0 := h 0 (by omega)
  simp only [Nat.add_zero] at h0
  simp [ofBytes, le32, h0, h 1, h 2, h 3]

end KfsDirent

/-- Block and byte offset of an inode slot; inode numbers are 1-based. -/
def inodeBlk (sb : KfsSuperblock) (ino : Nat) : Nat := sb.inodeStart + (ino - 1) / 64

def inodeOff (ino : Nat) : Nat := (ino - 1) % 64 * 64

def inodeAt (sb : KfsSuperblock) (v : Nat → Block) (ino : Nat) : KfsInode :=
  KfsInode.ofBytes (v (inodeBlk sb ino)).byte (inodeOff ino)

def bitOf (x : UInt8) (k : Nat) : Bool := x.toBitVec.getLsbD k

def bitAt (sb : KfsSuperblock) (v : Nat → Block) (blk : Nat) : Bool :=
  bitOf ((v (sb.bitmapStart + blk / 32768)).byte (blk / 8 % 4096)) (blk % 8)

def tabAt (v : Nat → Block) (blk j : Nat) : Nat := le32 (v blk).byte (4 * j)

end KestrelOS.Kfs
