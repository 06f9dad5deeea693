import KestrelOS.Kfs.Entry
import KestrelOS.Lib.Sections
import Mathlib.Data.List.TakeWhile

/-!
# The file handle layer

The `kfs_op_*` operations behind the VFS are sequences of separately locked sections. A path is
walked one component at a time with a permission check in every directory.
-/

namespace KestrelOS.Kfs

structure OpenInode where
  fs : Option InstId
  inum : UInt32
  count : Nat
  deriving DecidableEq

structure KfsFile where
  fs : InstId
  inum : UInt32
  pos : UInt32
  flags : UInt32

structure Vfs where
  drv : Driver
  openInodes : Fin 64 → OpenInode
  files : Nat → Option KfsFile
  nextFile : Nat

def freshVfs (s : Driver) : Vfs := ⟨s, fun _ => ⟨none, 0, 0⟩, fun _ => none, 0⟩

structure Cred where
  uid : UInt32
  gid : UInt32

def OpenInode.holds (o : OpenInode) (fs : InstId) (inum : UInt32) : Bool :=
  decide (0 < o.count ∧ o.fs = some fs ∧ o.inum = inum)

def findOpen (s : Vfs) (fs : InstId) (inum : UInt32) : Option (Fin 64) :=
  (List.finRange 64).find? fun i => (s.openInodes i).holds fs inum

def setOpen (s : Vfs) (i : Fin 64) (o : OpenInode) : Vfs :=
  { s with openInodes := fun j => if j = i then o else s.openInodes j }

def updInst (s : Driver) (fs : InstId) (f : KfsFs → KfsFs) : Driver :=
  { s with instances := fun g => if g = fs then f (s.instances g) else s.instances g }

def setHandles (s : Vfs) (fs : InstId) (f : Nat → Nat) : Vfs :=
  { s with drv := updInst s.drv fs fun i => { i with handles := f i.handles } }

/-- `false` when 64 other inodes are open. -/
def inodeRef (fs : InstId) (inum : UInt32) (s : Vfs) : Bool × Vfs :=
  match findOpen s fs inum with
  | some i =>
    (true, setHandles
      (setOpen s i { s.openInodes i with count := (s.openInodes i).count + 1 }) fs (· + 1))
  | none =>
    match (List.finRange 64).find? fun i => (s.openInodes i).count = 0 with
    | none => (false, s)
    | some i => (true, setHandles (setOpen s i ⟨some fs, inum, 1⟩) fs (· + 1))

def inodeUnref (fs : InstId) (inum : UInt32) (s : Vfs) : Vfs :=
  setHandles
    (match findOpen s fs inum with
      | some i => setOpen s i { s.openInodes i with count := (s.openInodes i).count - 1 }
      | none => s) fs (· - 1)

def inodeIsOpen (fs : InstId) (inum : UInt32) (s : Vfs) : Bool := (findOpen s fs inum).isSome

/-- A retired instance without handles gives its slot back. -/
def instanceRelease (fs : InstId) (s : Driver) : Driver :=
  if (s.instances fs).mounted = false ∧ (s.instances fs).handles = 0 then
    updInst s fs fun i => { i with used := false }
  else s

inductive FsSec
  | mounted (fs : InstId)
  | rootIno (fs : InstId)
  | iget (fs : InstId) (ino : UInt32)
  | lookupIn (fs : InstId) (dir : UInt32) (name : CString)
  | read (fs : InstId) (ino off : UInt32) (buf : Option Bytes) (n : UInt32)
  | call (fs : InstId) (c : KfsCall)
  | ref (fs : InstId) (inum : UInt32)
  | unref (fs : InstId) (inum : UInt32)
  | isOpen (fs : InstId) (inum : UInt32)
  | release (fs : InstId)
  | newFile (kf : KfsFile)
  | file (h : Nat)
  | setPos (h : Nat) (pos : UInt32)
  | dropFile (h : Nat)

@[reducible] def FsSec.Res : FsSec → Type
  | .mounted _ => Bool
  | .rootIno _ => UInt32
  | .iget .. => Option KfsInode
  | .lookupIn .. => Int
  | .read .. => Int × Bytes
  | .call .. => Int
  | .ref .. => Bool
  | .unref .. => Unit
  | .isOpen .. => Bool
  | .release _ => Unit
  | .newFile _ => Nat
  | .file _ => Option KfsFile
  | .setPos .. => Unit
  | .dropFile _ => Unit

def setFile (s : Vfs) (h : Nat) (kf : Option KfsFile) : Vfs :=
  { s with files := fun g => if g = h then kf else s.files g }

def onDrv {α : Type} (r : α × Driver) (s : Vfs) : α × Vfs := (r.1, { s with drv := r.2 })

def FsSec.step : (c : FsSec) → Vfs → c.Res × Vfs
  | .mounted fs, s => ((s.drv.instances fs).mounted, s)
  | .rootIno fs, s => (UInt32.ofNat (s.drv.instances fs).sb.rootIno, s)
  | .iget fs ino, s => onDrv (kfsIget fs ino s.drv) s
  | .lookupIn fs dir name, s => onDrv (kfsLookupIn fs dir (some name) s.drv) s
  | .read fs ino off buf n, s => onDrv (kfsRead fs ino off buf n s.drv) s
  | .call fs c, s => onDrv (c.run fs s.drv) s
  | .ref fs inum, s => inodeRef fs inum s
  | .unref fs inum, s => ((), inodeUnref fs inum s)
  | .isOpen fs inum, s => (inodeIsOpen fs inum s, s)
  | .release fs, s => ((), { s with drv := instanceRelease fs s.drv })
  | .newFile kf, s =>
    (s.nextFile, { setFile s s.nextFile (some kf) with nextFile := s.nextFile + 1 })
  | .file h, s => (s.files h, s)
  | .setPos h pos, s => ((), setFile s h ((s.files h).map fun kf => { kf with pos := pos }))
  | .dropFile h, s => ((), setFile s h none)

abbrev FsProg := SecProg FsSec FsSec.Res

namespace Fs

def mounted (fs : InstId) : FsProg Bool := .atomic (FsSec.mounted fs)
def rootIno (fs : InstId) : FsProg UInt32 := .atomic (FsSec.rootIno fs)
def iget (fs : InstId) (ino : UInt32) : FsProg (Option KfsInode) := .atomic (FsSec.iget fs ino)
def lookupIn (fs : InstId) (dir : UInt32) (name : CString) : FsProg Int :=
  .atomic (FsSec.lookupIn fs dir name)
def read (fs : InstId) (ino off : UInt32) (buf : Option Bytes) (n : UInt32) :
    FsProg (Int × Bytes) :=
  .atomic (FsSec.read fs ino off buf n)
def call (fs : InstId) (c : KfsCall) : FsProg Int := .atomic (FsSec.call fs c)
def ref (fs : InstId) (inum : UInt32) : FsProg Bool := .atomic (FsSec.ref fs inum)
def unref (fs : InstId) (inum : UInt32) : FsProg Unit := .atomic (FsSec.unref fs inum)
def isOpen (fs : InstId) (inum : UInt32) : FsProg Bool := .atomic (FsSec.isOpen fs inum)
def release (fs : InstId) : FsProg Unit := .atomic (FsSec.release fs)
def newFile (kf : KfsFile) : FsProg Nat := .atomic (FsSec.newFile kf)
def file (h : Nat) : FsProg (Option KfsFile) := .atomic (FsSec.file h)
def setPos (h : Nat) (pos : UInt32) : FsProg Unit := .atomic (FsSec.setPos h pos)
def dropFile (h : Nat) : FsProg Unit := .atomic (FsSec.dropFile h)

end Fs

def vfsPermOk (cred : Cred) (mode uid gid want : Nat) : Bool :=
  if cred.uid = 0 then true
  else
    let bits :=
      if cred.uid.toNat = uid then mode / 64 % 8
      else if cred.gid.toNat = gid then mode / 8 % 8
      else mode % 8
    bits &&& want == want

def permOk (cred : Cred) (ip : KfsInode) (want : Nat) : Bool :=
  vfsPermOk cred (ip.mode % 512) ip.uid ip.gid want

/-- VFS_R, VFS_W and VFS_X. -/
def vfsR : Nat := 4
def vfsW : Nat := 2
def vfsX : Nat := 1

def oCreat : UInt32 := 0x40
def oTrunc : UInt32 := 0x200
def oAppend : UInt32 := 0x400

def vfsFlagsAllowRead (flags : UInt32) : Bool := flags &&& 3 == 0 || flags &&& 3 == 2

def vfsFlagsAllowWrite (flags : UInt32) : Bool := flags &&& 3 == 1 || flags &&& 3 == 2

/-- The string in a buffer that holds these bytes and a NUL after them. -/
def CString.ofBytes (chars : List UInt8) : CString where
  chars := chars.takeWhile (· != 0)
  nul := fun h => by simpa using List.mem_takeWhile_imp h

/-- The walk of `resolve`; every component shortens the path. -/
def resolveFrom (cred : Cred) (fs : InstId) (wantParent : Bool) :
    Nat → UInt32 → List UInt8 → FsProg (Int × List UInt8)
  | 0, _, _ => pure (-1, [])
  | n + 1, cur, p =>
    match pathNext p with
    | .tooLong => pure (-1, [])
    | .atEnd => pure (if wantParent then -1 else asInt cur.toNat, [])
    | .comp name rest => do
      match ← Fs.iget fs cur with
      | none => pure (-1, [])
      | some ip =>
        if ip.type ≠ 2 then pure (-1, [])
        else if permOk cred ip vfsX = false then pure (-1, [])
        else if wantParent ∧ rest.dropWhile (· == slash) = [] then pure (asInt cur.toNat, name)
        else
          let next ← Fs.lookupIn fs cur (CString.ofBytes name)
          if next < 0 then pure (-1, [])
          else resolveFrom cred fs wantParent n (UInt32.ofNat next.toNat) rest

def resolve (cred : Cred) (fs : InstId) (path : Option CString) (wantParent : Bool) :
    FsProg (Int × List UInt8) := do
  let mounted ← Fs.mounted fs
  match absolute path with
  | some p =>
    if mounted then
      let root ← Fs.rootIno fs
      resolveFrom cred fs wantParent (p.length + 1) root p
    else pure (-1, [])
  | none => pure (-1, [])

def resolveParent (cred : Cred) (fs : InstId) (path : Option CString) :
    FsProg (Option (UInt32 × KfsInode × List UInt8)) := do
  let (parent, name) ← resolve cred fs path true
  if parent < 0 then pure none
  else
    match ← Fs.iget fs (UInt32.ofNat parent.toNat) with
    | none => pure none
    | some dirp => pure (some (UInt32.ofNat parent.toNat, dirp, name))

/-- The inode `path` names, created when `flags` ask for it; KFS_DEFAULT_FILE_MODE is 0644. -/
def openInode (cred : Cred) (fs : InstId) (path : Option CString) (flags now : UInt32)
    (parent : UInt32) (dirp : KfsInode) (name : List UInt8) : FsProg Int := do
  let ino ← Fs.lookupIn fs parent (CString.ofBytes name)
  if 0 ≤ ino then pure ino
  else if flags &&& oCreat = 0 then pure (-1)
  else if permOk cred dirp (vfsW + vfsX) = false then pure (-1)
  else Fs.call fs (.create path 420 cred.uid cred.gid now)

def openAllowed (cred : Cred) (ip : KfsInode) (flags : UInt32) : Bool :=
  let needR := vfsFlagsAllowRead flags
  let needW := vfsFlagsAllowWrite flags || flags &&& (oCreat ||| oTrunc) != 0
  !(decide (ip.type = 2) && needW) && (!needR || permOk cred ip vfsR) &&
    (!needW || permOk cred ip vfsW)

def openTruncate (fs : InstId) (ino : UInt32) (type : Nat) (flags now : UInt32) : FsProg Int :=
  if flags &&& oTrunc ≠ 0 ∧ type = 1 then Fs.call fs (.truncate ino now) else pure 0

/-- Truncation on open, and the new handle. `memOk` tells whether `kzalloc` succeeds. -/
def openFile (fs : InstId) (ino : UInt32) (type : Nat) (flags now : UInt32) (memOk : Bool) :
    FsProg (Option Nat) := do
  let r ← openTruncate fs ino type flags now
  if r < 0 ∨ memOk = false then
    Fs.unref fs ino
    pure none
  else
    let h ← Fs.newFile ⟨fs, ino, 0, flags⟩
    pure (some h)

def kfsOpOpen (cred : Cred) (fs : InstId) (path : Option CString) (flags now now' : UInt32)
    (memOk : Bool) : FsProg (Option Nat) := do
  if (← Fs.mounted fs) = false ∨ path.isNone then pure none
  else
    match ← resolveParent cred fs path with
    | none => pure none
    | some (parent, dirp, name) =>
      let r ← openInode cred fs path flags now parent dirp name
      if r < 0 then pure none
      else
        let ino := UInt32.ofNat r.toNat
        match ← Fs.iget fs ino with
        | none => pure none
        | some ip =>
          if openAllowed cred ip flags = false then pure none
          else if ← Fs.ref fs ino then openFile fs ino ip.type flags now' memOk
          else pure none

def kfsOpClose (h : Nat) : FsProg Unit := do
  match ← Fs.file h with
  | none => pure ()
  | some kf =>
    Fs.unref kf.fs kf.inum
    Fs.dropFile h
    Fs.release kf.fs

def vfsRead (h : Nat) (buf : Option Bytes) (n : UInt64) : FsProg Int := do
  match ← Fs.file h with
  | none => pure (-1)
  | some kf =>
    if buf.isNone ∨ vfsFlagsAllowRead kf.flags = false then pure (-1)
    else
      let r ← Fs.read kf.fs kf.inum kf.pos buf (UInt32.ofNat (min n.toNat 0x7FFFFFFF))
      if 0 < r.1 then
        Fs.setPos h (kf.pos + UInt32.ofNat r.1.toNat)
        pure r.1
      else pure r.1

/-- An appending handle moves to the end of its file before each write; `false` if it cannot. -/
def seekAppend (h : Nat) (kf : KfsFile) : FsProg Bool :=
  if kf.flags &&& oAppend ≠ 0 then do
    match ← Fs.iget kf.fs kf.inum with
    | none => pure false
    | some ip =>
      Fs.setPos h (UInt32.ofNat ip.size)
      pure true
  else pure true

def vfsWrite (h : Nat) (buf : Option Bytes) (n : UInt64) (now : UInt32) : FsProg Int := do
  match ← Fs.file h with
  | none => pure (-1)
  | some kf =>
    if buf.isNone ∨ vfsFlagsAllowWrite kf.flags = false then pure (-1)
    else if ← seekAppend h kf then
      match ← Fs.file h with
      | none => pure (-1)
      | some kf =>
        let r ← Fs.call kf.fs
          (.write kf.inum kf.pos buf (UInt32.ofNat (min n.toNat 0x7FFFFFFF)) now)
        if 0 < r then
          Fs.setPos h (kf.pos + UInt32.ofNat r.toNat)
          pure r
        else pure r
    else pure (-1)

def seekBase (kf : KfsFile) (whence : Int) : FsProg (Option Nat) :=
  if whence = 0 then pure (some 0)
  else if whence = 1 then pure (some kf.pos.toNat)
  else if whence = 2 then do
    match ← Fs.iget kf.fs kf.inum with
    | none => pure none
    | some ip => pure (some ip.size)
  else pure none

def kfsOpSeek (h : Nat) (off : Int64) (whence : Int) : FsProg Int := do
  match ← Fs.file h with
  | none => pure (-1)
  | some kf =>
    match ← seekBase kf whence with
    | none => pure (-1)
    | some base =>
      let pos := (base : Int) + off.toInt
      if 0x7FFFFFFFFFFFFFFF < pos ∨ pos < 0 ∨ 4235264 < pos then pure (-1)
      else
        Fs.setPos h (UInt32.ofNat pos.toNat)
        pure pos

def kfsOpUnlink (cred : Cred) (fs : InstId) (path : Option CString) (now : UInt32) :
    FsProg Int := do
  match ← resolveParent cred fs path with
  | none => pure (-1)
  | some (parent, dirp, name) =>
    if permOk cred dirp (vfsW + vfsX) = false then pure (-1)
    else
      let ino ← Fs.lookupIn fs parent (CString.ofBytes name)
      if ino < 0 then pure (-1)
      else if ← Fs.isOpen fs (UInt32.ofNat ino.toNat) then pure (-1)
      else Fs.call fs (.unlink path now)

/-- KFS_DEFAULT_DIR_MODE is 0755. -/
def kfsOpMkdir (cred : Cred) (fs : InstId) (path : Option CString) (now : UInt32) : FsProg Int := do
  match ← resolveParent cred fs path with
  | none => pure (-1)
  | some (_, dirp, _) =>
    if permOk cred dirp (vfsW + vfsX) = false then pure (-1)
    else Fs.call fs (.mkdir path 493 cred.uid cred.gid now)

def resolveInode (cred : Cred) (fs : InstId) (path : Option CString) :
    FsProg (Option (UInt32 × KfsInode)) := do
  let (ino, _) ← resolve cred fs path false
  if ino < 0 then pure none
  else
    match ← Fs.iget fs (UInt32.ofNat ino.toNat) with
    | none => pure none
    | some ip => pure (some (UInt32.ofNat ino.toNat, ip))

/-- Only the owner or root may change permissions. -/
def kfsOpChmod (cred : Cred) (fs : InstId) (path : Option CString) (mode now : UInt32) :
    FsProg Int := do
  match ← resolveInode cred fs path with
  | none => pure (-1)
  | some (ino, ip) =>
    if cred.uid ≠ 0 ∧ cred.uid.toNat ≠ ip.uid then pure (-1)
    else Fs.call fs (.chmod ino (UInt16.ofNat (mode.toNat % 512)) now)

def kfsOpChown (cred : Cred) (fs : InstId) (path : Option CString) (uid gid now : UInt32) :
    FsProg Int := do
  if cred.uid ≠ 0 then pure (-1)
  else
    match ← resolveInode cred fs path with
    | none => pure (-1)
    | some (ino, _) => Fs.call fs (.chown ino uid gid now)

inductive VfsOp
  | open (cred : Cred) (path : Option CString) (flags now now' : UInt32) (memOk : Bool)
  | close (h : Nat)
  | read (h : Nat) (buf : Option Bytes) (n : UInt64)
  | write (h : Nat) (buf : Option Bytes) (n : UInt64) (now : UInt32)
  | seek (h : Nat) (off : Int64) (whence : Int)
  | unlink (cred : Cred) (path : Option CString) (now : UInt32)
  | mkdir (cred : Cred) (path : Option CString) (now : UInt32)
  | chmod (cred : Cred) (path : Option CString) (mode now : UInt32)
  | chown (cred : Cred) (path : Option CString) (uid gid now : UInt32)

/-- The operation as a program; what it returns is of no interest here. -/
def VfsOp.prog (fs : InstId) : VfsOp → FsProg Unit
  | .open cred path flags now now' memOk => do
    let _ ← kfsOpOpen cred fs path flags now now' memOk
  | .close h => kfsOpClose h
  | .read h buf n => do
    let _ ← vfsRead h buf n
  | .write h buf n now => do
    let _ ← vfsWrite h buf n now
  | .seek h off whence => do
    let _ ← kfsOpSeek h off whence
  | .unlink cred path now => do
    let _ ← kfsOpUnlink cred fs path now
  | .mkdir cred path now => do
    let _ ← kfsOpMkdir cred fs path now
  | .chmod cred path mode now => do
    let _ ← kfsOpChmod cred fs path mode now
  | .chown cred path uid gid now => do
    let _ ← kfsOpChown cred fs path uid gid now

section ReadOnly

theorem exec_noWrites {α : Type} {fs : InstId} {p : TxProg Block KfsMem α} (hp : p.NoWrites)
    (s : Driver) : SameButCache s (exec fs p s).2 ∧ (CacheUniq s → CacheUniq (exec fs p s).2) ∧
      ∀ f b, CacheOk s f b → CacheOk (exec fs p s).2 f b := by
  induction p generalizing s with
  | done a => exact ⟨.refl s, id, fun _ _ => id⟩
  | read b k ih =>
    obtain ⟨h1, h2, h3⟩ := ih _ (hp _) (bread fs b s).2
    exact ⟨(bread_frame fs b s).trans h1, fun hu => h2 (bread_uniq hu fs b),
      fun f c hc => h3 f c (bread_cacheOk hc)⟩
  | stage b d k _ => exact hp.elim
  | load k ih => exact ih _ (hp _) s
  | store m k _ => exact hp.elim
  | live k ih => exact ih _ (hp _) s
  | ignore k _ => exact hp.elim

end ReadOnly

/-- Sections other than calls leave the devices, the transaction and everything a call depends on
alone. -/
structure Idles (fs : InstId) (s t : Driver) : Prop where
  bdev : t.bdev = s.bdev
  io : t.io = s.io
  disk : t.disk = s.disk
  journalTx : t.journalTx = s.journalTx
  inst : ∃ used handles, t.instances fs =
    { s.instances fs with used := used, handles := handles }
  used : (s.instances fs).mounted = true → (t.instances fs).used = (s.instances fs).used
  uniq : CacheUniq s → CacheUniq t
  cache : ∀ b, CacheOk s fs b → CacheOk t fs b

theorem SameButCache.idles {fs : InstId} {s t : Driver} (h : SameButCache s t)
    (hu : CacheUniq s → CacheUniq t) (hc : ∀ f b, CacheOk s f b → CacheOk t f b) : Idles fs s t :=
  ⟨h.bdev, h.io, h.disk, h.journalTx, ⟨_, _, by rw [h.instances]⟩, fun _ => by rw [h.instances], hu,
    fun b => hc fs b⟩

theorem updInst_idles {fs g : InstId} {s : Driver} (f : KfsFs → KfsFs)
    (hf : ∃ used handles, f (s.instances g) =
      { s.instances g with used := used, handles := handles } ∧
      ((s.instances g).mounted → used = (s.instances g).used)) :
    Idles fs s (updInst s g f) := by
  obtain ⟨used, handles, heq, hused⟩ := hf
  have hhome : ∀ b, home (updInst s g f) fs b = home s fs b := by
    intro b
    unfold home updInst KfsFs.lba
    by_cases hfg : fs = g
    · simp only [hfg, if_true, heq]
    · simp only [if_neg hfg]
  refine ⟨rfl, rfl, rfl, rfl, ?_, ?_, id, ?_⟩
  · by_cases hfg : fs = g
    · exact ⟨used, handles, by simp only [updInst, hfg, if_true, heq]⟩
    · exact ⟨(s.instances fs).used, (s.instances fs).handles, by simp only [updInst, if_neg hfg]⟩
  · intro hm
    by_cases hfg : fs = g
    · subst hfg
      simp only [updInst, if_true, heq, hused hm]
    · simp only [updInst, if_neg hfg]
  · intro b hc i hi hb
    rw [hhome]
    exact hc i hi hb

theorem Idles.refl (fs : InstId) (s : Driver) : Idles fs s s :=
  ⟨rfl, rfl, rfl, rfl, ⟨_, _, rfl⟩, fun _ => rfl, id, fun _ => id⟩

theorem exec_idles {α : Type} {fs g : InstId} {p : TxProg Block KfsMem α} (hp : p.NoWrites)
    (s : Driver) : Idles fs s (exec g p s).2 := by
  obtain ⟨h1, h2, h3⟩ := @exec_noWrites _ g p hp s
  exact h1.idles h2 h3

theorem setHandles_idles (fs g : InstId) (s : Vfs) (f : Nat → Nat) :
    Idles fs s.drv (setHandles s g f).drv :=
  updInst_idles (fun i => { i with handles := f i.handles }) ⟨_, _, rfl, fun _ => rfl⟩

theorem inodeRef_drv (fs g : InstId) (inum : UInt32) (s : Vfs) :
    Idles fs s.drv (inodeRef g inum s).2.drv := by
  unfold inodeRef
  split
  · exact setHandles_idles fs g (setOpen s _ _) _
  split
  · exact .refl fs s.drv
  · exact setHandles_idles fs g (setOpen s _ _) _

theorem inodeUnref_drv (fs g : InstId) (inum : UInt32) (s : Vfs) :
    Idles fs s.drv (inodeUnref g inum s).drv := by
  unfold inodeUnref
  split
  · exact setHandles_idles fs g (setOpen s _ _) _
  · exact setHandles_idles fs g s _

theorem FsSec.step_idles {c : FsSec} (hc : ∀ g k, c ≠ .call g k) (fs : InstId) (s : Vfs) :
    Idles fs s.drv (c.step s).2.drv := by
  cases c with
  | mounted g => exact .refl fs s.drv
  | rootIno g => exact .refl fs s.drv
  | iget g ino => exact exec_idles (iget_noWrites _) s.drv
  | lookupIn g dir name =>
    simp only [FsSec.step, onDrv, kfsLookupIn]
    split
    · exact exec_idles (dirLookup_noWrites _ _) s.drv
    · exact .refl fs s.drv
  | read g ino off buf n =>
    cases buf with
    | none => exact .refl fs s.drv
    | some buf =>
      simp only [FsSec.step, onDrv, kfsRead]
      split
      · exact exec_idles (readi_noWrites _ _ _ _) s.drv
      · exact .refl fs s.drv
  | call g k => exact absurd rfl (hc g k)
  | ref g inum => exact inodeRef_drv fs g inum s
  | unref g inum => exact inodeUnref_drv fs g inum s
  | isOpen g inum => exact .refl fs s.drv
  | release g =>
    simp only [FsSec.step, instanceRelease]
    split
    · rename_i hrel
      exact updInst_idles _ ⟨false, _, rfl, fun hm => by simp [hrel.1] at hm⟩
    · exact .refl fs s.drv
  | newFile kf => exact .refl fs s.drv
  | file h => exact .refl fs s.drv
  | setPos h pos => exact .refl fs s.drv
  | dropFile h => exact .refl fs s.drv

def FsSec.On (fs : InstId) : FsSec → Prop
  | .mounted g => g = fs
  | .rootIno g => g = fs
  | .iget g _ => g = fs
  | .lookupIn g _ _ => g = fs
  | .read g .. => g = fs
  | .call g _ => g = fs
  | .ref g _ => g = fs
  | .unref g _ => g = fs
  | .isOpen g _ => g = fs
  | .release g => g = fs
  | .newFile kf => kf.fs = fs
  | .file _ => True
  | .setPos .. => True
  | .dropFile _ => True

def FsSec.Finds (fs : InstId) : (c : FsSec) → c.Res → Prop
  | .file _, r => ∀ kf, r = some kf → kf.fs = fs
  | _, _ => True

section On

open SecProg (Only)

variable {fs : InstId} {cred : Cred} {path : Option CString}

abbrev StaysOn {α : Type} (fs : InstId) (p : FsProg α) : Prop :=
  p.Only (FsSec.On fs) (FsSec.Finds fs)

@[grind ←] theorem sec_on (c : FsSec) (hc : c.On fs) :
    StaysOn fs (SecProg.atomic c : FsProg c.Res) := Only.atomic hc

attribute [local grind =] FsSec.On Fs.mounted Fs.rootIno Fs.iget Fs.lookupIn Fs.read Fs.call Fs.ref
  Fs.unref Fs.isOpen Fs.release Fs.newFile Fs.setPos Fs.dropFile

@[grind ←] theorem file_on {α : Type} (h : Nat) {f : Option KfsFile → FsProg α}
    (hf : ∀ r, (∀ kf, r = some kf → kf.fs = fs) → StaysOn fs (f r)) :
    StaysOn fs (Fs.file h >>= f) :=
  Only.atomic_bind trivial hf

@[grind ←] theorem resolve_on (wantParent : Bool) :
    StaysOn fs (resolve cred fs path wantParent) := by
  have hloop : ∀ (n : Nat) (cur : UInt32) (p : List UInt8),
      StaysOn fs (resolveFrom cred fs wantParent n cur p) := by
    intro n
    induction n with
    | zero => exact fun _ _ => Only.pure _
    | succ n ih =>
      intro cur p
      rw [resolveFrom]
      cases pathNext p <;> grind
  grind [resolve]

@[grind ←] theorem resolveParent_on : StaysOn fs (resolveParent cred fs path) := by
  grind [resolveParent]

@[grind ←] theorem resolveInode_on : StaysOn fs (resolveInode cred fs path) := by
  grind [resolveInode]

@[grind ←] theorem openInode_on (flags now parent : UInt32) (dirp : KfsInode) (name : List UInt8) :
    StaysOn fs (openInode cred fs path flags now parent dirp name) := by
  grind [openInode]

@[grind ←] theorem openFile_on (ino : UInt32) (type : Nat) (flags now : UInt32) (memOk : Bool) :
    StaysOn fs (openFile fs ino type flags now memOk) := by
  grind [openFile, openTruncate]

@[grind ←] theorem kfsOpOpen_on (flags now now' : UInt32) (memOk : Bool) :
    StaysOn fs (kfsOpOpen cred fs path flags now now' memOk) := by
  refine Only.bind (by grind) fun m => ?_
  split
  · exact Only.pure _
  refine Only.bind resolveParent_on fun r => ?_
  cases r with
  | none => exact Only.pure _
  | some r => exact Only.bind (openInode_on _ _ _ _ _) fun ino => by grind

@[grind ←] theorem kfsOpClose_on (h : Nat) : StaysOn fs (kfsOpClose h) := by
  refine file_on _ fun r hr => ?_
  cases r with
  | none => exact Only.pure _
  | some kf =>
    have hfs := hr kf rfl
    exact Only.bind (by grind) fun _ => Only.bind (by grind) fun _ => by grind

@[grind ←] theorem vfsRead_on (h : Nat) (buf : Option Bytes) (n : UInt64) :
    StaysOn fs (vfsRead h buf n) := by
  grind [vfsRead]

@[grind ←] theorem vfsWrite_on (h : Nat) (buf : Option Bytes) (n : UInt64) (now : UInt32) :
    StaysOn fs (vfsWrite h buf n now) := by
  refine file_on _ fun r hr => ?_
  cases r with
  | none => exact Only.pure _
  | some kf =>
    have happend : StaysOn fs (seekAppend h kf) := by
      grind [seekAppend]
    grind

@[grind ←] theorem kfsOpSeek_on (h : Nat) (off : Int64) (whence : Int) :
    StaysOn fs (kfsOpSeek h off whence) := by
  refine file_on _ fun r hr => ?_
  cases r with
  | none => exact Only.pure _
  | some kf =>
    have hbase : StaysOn fs (seekBase kf whence) := by
      grind [seekBase]
    grind

theorem VfsOp.prog_on (op : VfsOp) : StaysOn fs (op.prog fs) := by
  cases op with
  | unlink cred path now =>
    refine Only.bind (Only.bind resolveParent_on fun r => ?_) fun _ => Only.pure _
    cases r <;> grind
  | mkdir cred path now =>
    refine Only.bind (Only.bind resolveParent_on fun r => ?_) fun _ => Only.pure _
    cases r <;> grind
  | chmod cred path mode now =>
    refine Only.bind (Only.bind resolveInode_on fun r => ?_) fun _ => Only.pure _
    cases r <;> grind
  | chown cred path uid gid now => exact Only.bind (by grind [kfsOpChown]) fun _ => Only.pure _
  | _ => grind [VfsOp.prog]

end On

def runOps (fs : InstId) : List VfsOp → Vfs → Vfs
  | [], s => s
  | op :: ops, s => runOps fs ops ((op.prog fs).run FsSec.step s).2

end KestrelOS.Kfs
