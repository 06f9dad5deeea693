import KestrelOS.Kfs.Inode

/-!
# Directories, paths and the locked operations

A directory is scanned one 64-byte entry at a time; `dir_lookup`, `dir_add`, `dir_is_empty` and
`readdir_locked` differ in what they look for. Strings are lists of bytes without a NUL.
-/

namespace KestrelOS.Kfs

structure CString where
  chars : List UInt8
  nul : (0 : UInt8) ∉ chars

def asInt (n : Nat) : Int := if n < 2147483648 then n else (n : Int) - 4294967296

/-- One entry read with `readi`; `none` when the read falls short. -/
def readDirent (dir off : Nat) : Tx (Option KfsDirent) := do
  let (r, buf) ← readi dir off (fun _ => 0) 64
  pure (if r = 64 then some (KfsDirent.ofBytes buf 0) else none)

inductive DirScan
  | found (off : Nat) (de : KfsDirent)
  | failed
  | ended

/-- Entries from `off` on, at most the given number, until one satisfies `hit`. -/
def scanDir (dir : Nat) (hit : KfsDirent → Bool) : Nat → Nat → Tx DirScan
  | 0, _ => pure .ended
  | n + 1, off => do
    match ← readDirent dir off with
    | none => pure .failed
    | some de => if hit de then pure (.found off de) else scanDir dir hit n (off + 64)

/-- `strncmp` over the 60-byte name field. -/
def nameHit (name : List UInt8) (de : KfsDirent) : Bool :=
  decide (de.ino ≠ 0 ∧ de.name = name.take 60)

/-- Inode number and offset of the entry; the number is 0 when there is none. -/
def dirLookup (dir : Nat) (name : List UInt8) : Tx (Nat × Nat) := do
  match ← iget dir with
  | none => pure (0, 0)
  | some ip =>
    if ip.type ≠ 2 then pure (0, 0)
    else
      match ← scanDir dir (nameHit name) (ip.size / 64) 0 with
      | .found off de => pure (de.ino, off)
      | _ => pure (0, 0)

def dirAdd (dir : Nat) (name : List UInt8) (ino mtime : Nat) : Tx Int := do
  match ← iget dir with
  | none => pure (-1)
  | some ip =>
    if ip.type ≠ 2 then pure (-1)
    else
      let write := fun slot => do
        let r ← writei dir slot (KfsDirent.toBytes ⟨ino, name⟩) 64 mtime
        pure (if r = 64 then 0 else -1)
      match ← scanDir dir (fun de => decide (de.ino = 0)) (ip.size / 64) 0 with
      | .failed => pure (-1)
      | .found off _ => write off
      | .ended => write ip.size

def dirRemove (dir : Nat) (name : List UInt8) (mtime : Nat) : Tx Int := do
  let (ino, slot) ← dirLookup dir name
  if ino = 0 then pure (-1)
  else
    let r ← writei dir slot (fun _ => 0) 64 mtime
    pure (if r = 64 then 0 else -1)

def dotName : List UInt8 := [46]
def dotDotName : List UInt8 := [46, 46]

/-- An entry other than "." and ".."; the last byte of the name field is taken as NUL. -/
def otherHit (de : KfsDirent) : Bool :=
  decide (de.ino ≠ 0 ∧ de.name.take 59 ≠ dotName ∧ de.name.take 59 ≠ dotDotName)

def dirIsEmpty (dir : Nat) : Tx Bool := do
  match ← iget dir with
  | none => pure false
  | some ip =>
    match ← scanDir dir otherHit (ip.size / 64) 0 with
    | .ended => pure true
    | _ => pure false

inductive PathStep
  | atEnd
  | tooLong
  | comp (name rest : List UInt8)

def slash : UInt8 := 47

/-- The next component of at most KFS_NAME_MAX = 59 bytes, and what follows it. -/
def pathNext (p : List UInt8) : PathStep :=
  let p := p.dropWhile (· == slash)
  if p = [] then .atEnd
  else
    let name := p.takeWhile (· != slash)
    if 59 < name.length then .tooLong else .comp name (p.dropWhile (· != slash))

/-- The walk of `lookup_path`; every component shortens the path. -/
def lookupPathFrom : Nat → Nat → List UInt8 → Tx Int
  | 0, _, _ => pure (-1)
  | n + 1, cur, p =>
    match pathNext p with
    | .atEnd => pure (asInt cur)
    | .tooLong => pure (-1)
    | .comp name rest => do
      let (next, _) ← dirLookup cur name
      if next = 0 then pure (-1) else lookupPathFrom n next rest

def absolute : Option CString → Option (List UInt8)
  | some path => if path.chars.head? = some slash then some path.chars else none
  | none => none

def lookupPath (path : Option CString) : Tx Int := do
  let mounted ← Tx.live
  match absolute path with
  | some p =>
    if mounted then
      let m ← Tx.load
      lookupPathFrom (p.length + 1) m.sb.rootIno p
    else pure (-1)
  | none => pure (-1)

/-- The walk of `lookup_parent`, with the component `comp` in hand. -/
def lookupParentFrom : Nat → Nat → List UInt8 → List UInt8 → Tx (Int × List UInt8)
  | 0, _, _, _ => pure (-1, [])
  | n + 1, cur, comp, p =>
    if p.dropWhile (· == slash) = [] then pure (asInt cur, comp)
    else do
      let (nino, _) ← dirLookup cur comp
      if nino = 0 then pure (-1, [])
      else
        match ← iget nino with
        | none => pure (-1, [])
        | some ip =>
          if ip.type ≠ 2 then pure (-1, [])
          else
            match pathNext p with
            | .comp name rest => lookupParentFrom n nino name rest
            | _ => pure (-1, [])

def lookupParent (path : Option CString) : Tx (Int × List UInt8) := do
  let mounted ← Tx.live
  match absolute path with
  | some p =>
    if mounted then
      let m ← Tx.load
      match pathNext p with
      | .comp name rest => lookupParentFrom (p.length + 1) m.sb.rootIno name rest
      | _ => pure (-1, [])
    else pure (-1, [])
  | none => pure (-1, [])

def createLocked (path : Option CString) (mode uid gid mtime : Nat) : Tx Int := do
  let (parent, name) ← lookupParent path
  if parent < 0 then pure (-1)
  else
    let (old, _) ← dirLookup parent.toNat name
    if old ≠ 0 then pure (-1)
    else
      let ino ← ialloc 1 mode uid gid mtime
      if ino = 0 then pure (-1)
      else if (← dirAdd parent.toNat name ino mtime) < 0 then
        ifree ino
        pure (-1)
      else pure (asInt ino)

def mkdirEntries (ino parent : Nat) (name : List UInt8) (mtime : Nat) : Tx Bool := do
  if (← dirAdd ino dotName ino mtime) < 0 then pure false
  else if (← dirAdd ino dotDotName parent mtime) < 0 then pure false
  else if (← dirAdd parent name ino mtime) < 0 then pure false
  else pure true

def mkdirLocked (path : Option CString) (mode uid gid mtime : Nat) : Tx Int := do
  let (parent, name) ← lookupParent path
  if parent < 0 then pure (-1)
  else
    let (old, _) ← dirLookup parent.toNat name
    if old ≠ 0 then pure (-1)
    else
      let ino ← ialloc 2 mode uid gid mtime
      if ino = 0 then pure (-1)
      else if ← mkdirEntries ino parent.toNat name mtime then pure 0
      else
        let _ ← truncateLocked ino mtime
        ifree ino
        pure (-1)

def removable (ino : Nat) (ip : KfsInode) : Tx Bool :=
  if ip.type = 2 then dirIsEmpty ino else pure true

/-- The name goes first, then the blocks, then the inode. -/
def unlinkInode (parent : Nat) (name : List UInt8) (ino mtime : Nat) : Tx Int := do
  if (← dirRemove parent name mtime) < 0 then pure (-1)
  else if (← truncateLocked ino mtime) < 0 then pure (-1)
  else
    ifree ino
    pure 0

def unlinkLocked (path : Option CString) (mtime : Nat) : Tx Int := do
  let (parent, name) ← lookupParent path
  if parent < 0 then pure (-1)
  else if name = dotName ∨ name = dotDotName then pure (-1)
  else
    let (ino, _) ← dirLookup parent.toNat name
    if ino = 0 then pure (-1)
    else
      match ← iget ino with
      | none => pure (-1)
      | some ip =>
        if ← removable ino ip then unlinkInode parent.toNat name ino mtime else pure (-1)

def writeLocked (ino off : Nat) (buf : Bytes) (n mtime : Nat) : Tx Int := do
  match ← iget ino with
  | none => pure (-1)
  | some ip => if ip.type = 1 then writei ino off buf n mtime else pure (-1)

/-- `kfs_chmod` and `kfs_chown` rewrite an allocated inode. -/
def editInode (ino : Nat) (edit : KfsInode → KfsInode) : Tx Int := do
  match ← iget ino with
  | none => pure (-1)
  | some ip =>
    if ip.type = 0 then pure (-1)
    else
      let ok ← iput ino (edit ip)
      pure (if ok then 0 else -1)

def chmodLocked (ino mode mtime : Nat) : Tx Int :=
  editInode ino fun ip => { ip with mode := mode % 512, mtime := mtime }

def chownLocked (ino uid gid mtime : Nat) : Tx Int :=
  editInode ino fun ip => { ip with uid := uid, gid := gid, mtime := mtime }

/-- Entry number `index` among the live ones; `none` when there are fewer or a read fails. -/
def readdirFrom (dir : Nat) : Nat → Nat → Nat → Tx (Option KfsDirent)
  | 0, _, _ => pure none
  | n + 1, off, left => do
    match ← readDirent dir off with
    | none => pure none
    | some de =>
      if de.ino = 0 then readdirFrom dir n (off + 64) left
      else
        match left with
        | 0 => pure (some { de with name := de.name.take 59 })
        | left + 1 => readdirFrom dir n (off + 64) left

def readdirLocked (dir index : Nat) : Tx (Option KfsDirent) := do
  match ← iget dir with
  | none => pure none
  | some ip => if ip.type = 2 then readdirFrom dir (ip.size / 64) 0 index else pure none

section ReadOnly

open TxProg (NoWrites)

@[grind ←] theorem Tx.read_noWrites (b : Nat) : (Tx.read b).NoWrites := fun _ => trivial

@[grind ←] theorem Tx.live_noWrites : Tx.live.NoWrites := fun _ => trivial

@[grind ←] theorem Tx.load_noWrites : Tx.load.NoWrites := fun _ => trivial

@[grind ←] theorem iget_noWrites (ino : Nat) : (iget ino).NoWrites := by
  grind [iget]

@[grind ←] theorem bmap_noWrites (ino : Nat) (ip : KfsInode) (n : Nat) :
    (bmap ino ip n false).NoWrites := by
  have htable : (bmapIndirect ip (n - 10) false).NoWrites := by
    grind [bmapIndirect]
  grind [bmap]

@[grind ←] theorem readLoop_noWrites (ino : Nat) (ip : KfsInode) (off n fuel done : Nat)
    (buf : Bytes) :
    (readLoop ino ip off n fuel done buf).NoWrites := by
  induction fuel generalizing done buf with
  | zero => exact NoWrites.pure _
  | succ fuel ih => grind [readLoop]

@[grind ←] theorem readi_noWrites (ino off : Nat) (buf : Bytes) (n : Nat) :
    (readi ino off buf n).NoWrites := by
  grind [readi]

@[grind ←] theorem readDirent_noWrites (dir off : Nat) : (readDirent dir off).NoWrites := by
  grind [readDirent]

@[grind ←] theorem scanDir_noWrites (dir : Nat) (hit : KfsDirent → Bool) (n off : Nat) :
    (scanDir dir hit n off).NoWrites := by
  induction n generalizing off with
  | zero => exact NoWrites.pure _
  | succ n ih => grind [scanDir]

@[grind ←] theorem dirLookup_noWrites (dir : Nat) (name : List UInt8) :
    (dirLookup dir name).NoWrites := by
  grind [dirLookup]

@[grind ←] theorem dirIsEmpty_noWrites (dir : Nat) : (dirIsEmpty dir).NoWrites := by
  grind [dirIsEmpty]

theorem removable_noWrites (ino : Nat) (ip : KfsInode) : (removable ino ip).NoWrites := by
  grind [removable]

theorem lookupPath_noWrites (path : Option CString) : (lookupPath path).NoWrites := by
  have hloop : ∀ n cur p, (lookupPathFrom n cur p).NoWrites := by
    intro n
    induction n with
    | zero => exact fun _ _ => NoWrites.pure _
    | succ n ih => grind [lookupPathFrom]
  grind [lookupPath]

@[grind ←] theorem lookupParent_noWrites (path : Option CString) :
    (lookupParent path).NoWrites := by
  have hloop : ∀ n cur comp p, (lookupParentFrom n cur comp p).NoWrites := by
    intro n
    induction n with
    | zero => exact fun _ _ _ => NoWrites.pure _
    | succ n ih => grind [lookupParentFrom]
  grind [lookupParent]

theorem readdirLocked_noWrites (dir index : Nat) : (readdirLocked dir index).NoWrites := by
  have hloop : ∀ n off left, (readdirFrom dir n off left).NoWrites := by
    intro n
    induction n with
    | zero => exact fun _ _ => NoWrites.pure _
    | succ n ih => grind [readdirFrom]
  grind [readdirLocked]

end ReadOnly

end KestrelOS.Kfs
