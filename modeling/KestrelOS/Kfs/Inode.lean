import KestrelOS.Kfs.Layout
import KestrelOS.Lib.TxProg

/-!
# Block allocation, inodes and file data

The helpers below the entry points, as programs over the blocks a transaction sees. A C loop is a
recursion on a bound of its iterations. Sums of block numbers stay below 2^32 on a superblock that
passed `sb_plausible`, so only the allocator's products are reduced.
-/

namespace KestrelOS.Kfs

/-- The superblock of the instance, and the raw block 0 buffer shared by all instances. -/
structure KfsMem where
  sb : KfsSuperblock
  sbBlock : Block

abbrev Tx := TxProg Block KfsMem

abbrev View := TxView Block KfsMem

namespace Tx

def read (b : Nat) : Tx (Option Block) := TxProg.read b .done

def stage (b : Nat) (d : Block) : Tx Bool := TxProg.stage b d .done

def load : Tx KfsMem := TxProg.load .done

def store (m : KfsMem) : Tx Unit := TxProg.store m (.done ())

def live : Tx Bool := TxProg.live .done

/-- Marks where the code goes on although what it set out to do is lost. -/
def ignored : Tx Unit := TxProg.ignore (.done ())

/-- A call whose result is not looked at, and that nothing later makes up for. -/
def drop (p : Tx Bool) : Tx Unit := do
  if ← p then pure () else ignored

section wp

variable {may : ReadRule Block} {v : View}

@[simp] theorem wp_read (b : Nat) (Q : Option Block → View → Prop) :
    (read b).wp may Q v ↔ ∀ r, v.Reads may b r → Q r v := Iff.rfl

@[simp] theorem wp_stage (b : Nat) (d : Block) (Q : Bool → View → Prop) :
    (stage b d).wp may Q v ↔ Q true (v.write b d) := Iff.rfl

@[simp] theorem wp_load (Q : KfsMem → View → Prop) : load.wp may Q v ↔ Q v.mem v := Iff.rfl

@[simp] theorem wp_store (m : KfsMem) (Q : Unit → View → Prop) :
    (store m).wp may Q v ↔ Q () { v with mem := m } := Iff.rfl

@[simp] theorem wp_live (Q : Bool → View → Prop) : live.wp may Q v ↔ Q true v := Iff.rfl

@[simp] theorem wp_ignored (Q : Unit → View → Prop) :
    ignored.wp may Q v ↔ may.fallible ∨ Q () v := Iff.rfl

end wp

end Tx

def sbImage (m : KfsMem) : Block := Block.ofBytes (splice m.sbBlock.byte 0 52 m.sb.toBytes)

def sbSync : Tx Bool := do
  let m ← Tx.load
  Tx.store { m with sbBlock := sbImage m }
  Tx.stage 0 (sbImage m)

def setFree (f : Nat → Nat) : Tx Unit := do
  let m ← Tx.load
  Tx.store { m with sb := { m.sb with freeBlocks := f m.sb.freeBlocks % 4294967296 } }

def clearBitIn (x : UInt8) : Nat → Nat → Option Nat
  | 0, _ => none
  | n + 1, bit => if bitOf x bit then clearBitIn x n (bit + 1) else some bit

def findClear (d : Block) : Nat → Nat → Option Nat
  | 0, _ => none
  | n + 1, i =>
    match clearBitIn (d.byte i) 8 0 with
    | some bit => some (i * 8 + bit)
    | none => findClear d n (i + 1)

def setBit (x : UInt8) (bit : Nat) (val : Bool) : UInt8 :=
  if val then x ||| (1 <<< UInt8.ofNat bit) else x &&& ~~~(1 <<< UInt8.ofNat bit)

def putBit (d : Block) (k : Nat) (val : Bool) : Block :=
  Block.ofBytes fun i => if i = k / 8 then setBit (d.byte i) (k % 8) val else d.byte i

def ballocFrom : Nat → Nat → Tx Nat
  | 0, _ => pure 0
  | n + 1, bb => do
    let m ← Tx.load
    match ← Tx.read (m.sb.bitmapStart + bb) with
    | none => pure 0
    | some d =>
      match findClear d 4096 0 with
      | none => ballocFrom n (bb + 1)
      | some k =>
        let blk := (bb * 32768 + k) % 4294967296
        if m.sb.totalBlocks ≤ blk then pure 0
        else if ← Tx.stage (m.sb.bitmapStart + bb) (putBit d k true) then
          setFree (· + 4294967295)
          let _ ← sbSync
          if ← Tx.stage blk Block.zero then pure blk else pure 0
        else pure 0

def balloc : Tx Nat := do
  let m ← Tx.load
  ballocFrom m.sb.bitmapBlocks 0

def bfree (blk : Nat) : Tx Unit := do
  let m ← Tx.load
  if blk < m.sb.dataStart ∨ m.sb.totalBlocks ≤ blk then pure ()
  else
    match ← Tx.read (m.sb.bitmapStart + blk / 32768) with
    | none => Tx.ignored
    | some d =>
      if bitOf (d.byte (blk / 8 % 4096)) (blk % 8) then
        let _ ← Tx.stage (m.sb.bitmapStart + blk / 32768) (putBit d (blk % 32768) false)
        setFree (· + 1)
        let _ ← sbSync
        pure ()
      else pure ()

def inoValid (sb : KfsSuperblock) (ino : Nat) : Bool := decide (1 ≤ ino ∧ ino ≤ sb.inodeCount)

def iget (ino : Nat) : Tx (Option KfsInode) := do
  let mounted ← Tx.live
  let m ← Tx.load
  if mounted && inoValid m.sb ino then
    match ← Tx.read (inodeBlk m.sb ino) with
    | none => pure none
    | some d => pure (some (KfsInode.ofBytes d.byte (inodeOff ino)))
  else pure none

def putInode (d : Block) (ino : Nat) (ip : KfsInode) : Block :=
  Block.ofBytes (splice d.byte (inodeOff ino) 64 ip.toBytes)

def iput (ino : Nat) (ip : KfsInode) : Tx Bool := do
  let m ← Tx.load
  match ← Tx.read (inodeBlk m.sb ino) with
  | none => pure false
  | some d => Tx.stage (inodeBlk m.sb ino) (putInode d ino ip)

def iallocFrom (fresh : KfsInode) : Nat → Nat → Tx Nat
  | 0, _ => pure 0
  | n + 1, i => do
    match ← iget i with
    | none => pure 0
    | some ip =>
      if ip.type = 0 then
        if ← iput i fresh then pure i else pure 0
      else iallocFrom fresh n (i + 1)

/-- KFS_MODE_MASK is 0777. -/
def ialloc (type mode uid gid mtime : Nat) : Tx Nat := do
  let m ← Tx.load
  iallocFrom ⟨type, mode % 512, 0, uid, gid, mtime, fun _ => 0, 0⟩ m.sb.inodeCount 1

def ifree (ino : Nat) : Tx Unit := do
  let _ ← iput ino KfsInode.zero
  pure ()

def KfsInode.setDirect (ip : KfsInode) (n : Fin 10) (b : Nat) : KfsInode :=
  { ip with direct := fun i => if i = n then b else ip.direct i }

def putWord (d : Block) (j b : Nat) : Block :=
  Block.ofBytes (splice d.byte (4 * j) 4 (leByte b))

def bmapIndirect (ip : KfsInode) (j : Nat) (alloc : Bool) : Tx Nat := do
  match ← Tx.read ip.indirect with
  | none => pure 0
  | some d =>
    let b := le32 d.byte (4 * j)
    if b = 0 ∧ alloc then
      let b ← balloc
      if b = 0 then pure 0
      else if ← Tx.stage ip.indirect (putWord d j b) then pure b else pure 0
    else pure b

/-- Map file block `fbn` to a block, or 0; the caller's copy of the inode may change. -/
def bmap (ino : Nat) (ip : KfsInode) (fbn : Nat) (alloc : Bool) : Tx (Nat × KfsInode) := do
  if h : fbn < 10 then
    let b := ip.direct ⟨fbn, h⟩
    if b = 0 ∧ alloc then
      let b ← balloc
      if b = 0 then pure (0, ip)
      else
        let ip := ip.setDirect ⟨fbn, h⟩ b
        let _ ← iput ino ip
        pure (b, ip)
    else pure (b, ip)
  else if 1034 ≤ fbn then pure (0, ip)
  else if ip.indirect = 0 then
    if alloc then
      let nb ← balloc
      if nb = 0 then pure (0, ip)
      else
        let ip := { ip with indirect := nb }
        let _ ← iput ino ip
        let b ← bmapIndirect ip (fbn - 10) alloc
        pure (b, ip)
    else pure (0, ip)
  else
    let b ← bmapIndirect ip (fbn - 10) alloc
    pure (b, ip)

/-- Bytes from position `pos` to the end of its block, at most `rest`. -/
def chunkLen (pos rest : Nat) : Nat := min (4096 - pos % 4096) rest

def readLoop (ino : Nat) (ip : KfsInode) (off n : Nat) : Nat → Nat → Bytes → Tx (Nat × Bytes)
  | 0, done, buf => pure (done, buf)
  | fuel + 1, done, buf =>
    if n ≤ done then pure (done, buf)
    else do
      let pos := off + done
      let chunk := chunkLen pos (n - done)
      let (b, _) ← bmap ino ip (pos / 4096) false
      if b = 0 then pure (done, buf)
      else
        match ← Tx.read b with
        | none => pure (done, buf)
        | some d =>
          readLoop ino ip off n fuel (done + chunk)
            (splice buf done chunk fun i => d.byte (pos % 4096 + i))

/-- Result of the call, and the destination buffer after it. -/
def readi (ino off : Nat) (buf : Bytes) (n : Nat) : Tx (Int × Bytes) := do
  match ← iget ino with
  | none => pure (-1, buf)
  | some ip =>
    if ip.type = 0 then pure (-1, buf)
    else if ip.size ≤ off then pure (0, buf)
    else
      let n := min n (ip.size - off)
      let (done, buf) ← readLoop ino ip off n n 0 buf
      pure (if done = 0 ∧ n ≠ 0 then -1 else done, buf)

def writeLoop (ino off : Nat) (buf : Bytes) (n : Nat) : Nat → KfsInode → Nat → Tx (KfsInode × Nat)
  | 0, ip, done => pure (ip, done)
  | fuel + 1, ip, done =>
    if n ≤ done then pure (ip, done)
    else do
      let pos := off + done
      let chunk := chunkLen pos (n - done)
      let (b, ip) ← bmap ino ip (pos / 4096) true
      if b = 0 then pure (ip, done)
      else
        -- a whole block is overwritten without being read
        match ← (if chunk < 4096 then Tx.read b else pure (some Block.zero)) with
        | none => pure (ip, done)
        | some d =>
          let d := Block.ofBytes (splice d.byte (pos % 4096) chunk fun i => buf (done + i))
          if ← Tx.stage b d then
            if ip.size < pos + chunk then
              let ip := { ip with size := pos + chunk }
              let _ ← iput ino ip
              writeLoop ino off buf n fuel ip (done + chunk)
            else writeLoop ino off buf n fuel ip (done + chunk)
          else pure (ip, done)

/-- KFS_MAX_FILE_SIZE is 1034 blocks. -/
def writei (ino off : Nat) (buf : Bytes) (n mtime : Nat) : Tx Int := do
  match ← iget ino with
  | none => pure (-1)
  | some ip =>
    if ip.type = 0 then pure (-1)
    else if n = 0 then pure 0
    else if 4235264 < off ∨ 4235264 - off < n then pure (-1)
    else
      let (ip, done) ← writeLoop ino off buf n n ip 0
      if done = 0 then pure (-1)
      else
        Tx.drop (iput ino { ip with mtime := mtime })
        pure done

/-- `bfree` on every non-zero pointer of a table, in order. -/
def freeAll (ptr : Nat → Nat) : Nat → Nat → Tx Unit
  | 0, _ => pure ()
  | n + 1, i =>
    if ptr i = 0 then freeAll ptr n (i + 1)
    else do
      bfree (ptr i)
      freeAll ptr n (i + 1)

/-- The blocks of the indirect table, when it can be read, and then the table's own block. -/
def freeIndirect (blk : Nat) : Tx Unit :=
  if blk = 0 then pure ()
  else do
    match ← Tx.read blk with
    | none =>
      Tx.ignored
      bfree blk
    | some d =>
      freeAll (fun i => le32 d.byte (4 * i)) 1024 0
      bfree blk

def KfsInode.directAt (ip : KfsInode) (i : Nat) : Nat := if h : i < 10 then ip.direct ⟨i, h⟩ else 0

def KfsInode.emptied (ip : KfsInode) (mtime : Nat) : KfsInode :=
  { ip with size := 0, mtime := mtime, direct := fun _ => 0, indirect := 0 }

def truncateLocked (ino mtime : Nat) : Tx Int := do
  if ← Tx.live then
    match ← iget ino with
    | none => pure (-1)
    | some ip =>
      freeAll ip.directAt 10 0
      freeIndirect ip.indirect
      let ok ← iput ino (ip.emptied mtime)
      pure (if ok then 0 else -1)
  else pure (-1)

end KestrelOS.Kfs
