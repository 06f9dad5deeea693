import KestrelOS.Kfs.Calls
import KestrelOS.Kfs.Handles
import KestrelOS.Kfs.Sound

/-!
# What an open checks

`kfs_op_open` takes and drops the lock for every step of its walk. Whatever other tasks do in
between, each directory is crossed at a moment when the caller may search it, and the inode a
handle gets was looked at when the caller had the permissions that the flags ask for.
-/

namespace KestrelOS.Kfs

open List
open SecProg (along_bind along_pure along_atomic along_atomic_bind)

abbrev FsPool := Pool FsSec FsSec.Res Vfs

/-- The caller's identity is part of its program, so every task runs the same sections. -/
def fsSem : Nat → (c : FsSec) → Vfs → c.Res × Vfs := fun _ => FsSec.step

def inodeIn (fs : InstId) (ino : UInt32) (s : Vfs) : Option KfsInode := (kfsIget fs ino s.drv).1

def entryIn (fs : InstId) (dir : UInt32) (name : List UInt8) (s : Vfs) : Int :=
  (kfsLookupIn fs dir (some (CString.ofBytes name)) s.drv).1

def MaySearch (cred : Cred) (fs : InstId) (dir : UInt32) (s : Vfs) : Prop :=
  ∃ ip ∈ inodeIn fs dir s, ip.type = 2 ∧ permOk cred ip vfsX

def MayAdd (cred : Cred) (fs : InstId) (dir : UInt32) (s : Vfs) : Prop :=
  ∃ ip ∈ inodeIn fs dir s, permOk cred ip (vfsW + vfsX)

def MayUse (cred : Cred) (fs : InstId) (ino flags : UInt32) (s : Vfs) : Prop :=
  ∃ ip ∈ inodeIn fs ino s, (vfsFlagsAllowRead flags → permOk cred ip vfsR) ∧
    (vfsFlagsAllowWrite flags → permOk cred ip vfsW)

/-- The walk from `dir` along the path `p`, through the states in which its steps ran: each
directory may be searched when it is crossed, and its entry leads to the next one. -/
inductive Crosses (cred : Cred) (fs : InstId) :
    UInt32 → List UInt8 → List Vfs → UInt32 → List UInt8 → Prop
  | last {dir : UInt32} {p name rest : List UInt8} {s : Vfs} (hp : pathNext p = .comp name rest)
      (hrest : rest.dropWhile (· == slash) = []) (hs : MaySearch cred fs dir s) :
      Crosses cred fs dir p [s] dir name
  | next {dir : UInt32} {p name rest : List UInt8} {s s' : Vfs} {seen : List Vfs} {parent : UInt32}
      {last : List UInt8} (hp : pathNext p = .comp name rest) (hs : MaySearch cred fs dir s)
      (hentry : 0 ≤ entryIn fs dir name s')
      (hwalk : Crosses cred fs
        (UInt32.ofNat (entryIn fs dir name s').toNat) rest seen parent last) :
      Crosses cred fs dir p (s :: s' :: seen) parent last

/-- The entry is found, or it is missing and the file is created by a caller who may add entries to
the directory. -/
def Reaches (cred : Cred) (fs : InstId) (path : Option CString) (parent : UInt32)
    (name : List UInt8) (ino : UInt32) (seen : List Vfs) : Prop :=
  ∃ r : Int, 0 ≤ r ∧ ino = UInt32.ofNat r.toNat ∧
    ((∃ s ∈ seen, entryIn fs parent name s = r) ∨
      ∃ s ∈ seen, MayAdd cred fs parent s ∧ ∃ s' ∈ seen, ∃ now,
        (kfsCreate fs path 420 cred.uid cred.gid now s'.drv).1 = r)

def rootIn (fs : InstId) (s : Vfs) : UInt32 := UInt32.ofNat (s.drv.instances fs).sb.rootIno

def Checked (cred : Cred) (fs : InstId) (path : Option CString) (flags ino : UInt32)
    (seen : List Vfs) : Prop :=
  ∃ chars, absolute path = some chars ∧ ∃ before s walk after parent name,
    seen = before ++ s :: walk ++ after ∧ Crosses cred fs (rootIn fs s) chars walk parent name ∧
      Reaches cred fs path parent name ino after ∧ ∃ s ∈ after, MayUse cred fs ino flags s

theorem ofNat_asInt {n : UInt32} (h : 0 ≤ asInt n.toNat) :
    UInt32.ofNat (asInt n.toNat).toNat = n := by
  rw [asInt_toNat h n.toNat_lt]
  exact UInt32.ofNat_toNat

variable {cred : Cred} {fs : InstId} {path : Option CString}

variable {s t : Vfs} {parent r : Int} {name p : List UInt8} {dirp : KfsInode}
  {flags ino now : UInt32} {memOk : Bool} {h : Nat} {kf : KfsFile} {buf : Option Bytes}

variable {seen : List Vfs}

theorem not_along_failed (hparent : 0 ≤ parent) :
    (pure (-1, []) : FsProg (Int × List UInt8)).along FsSec.step seen s ≠
      some ((parent, name), t) := by
  intro h
  obtain ⟨-, heq, -⟩ := along_pure.mp h
  cases heq
  omega

theorem resolveFrom_crosses {n : Nat} {cur : UInt32}
    (h : (resolveFrom cred fs true n cur p).along FsSec.step seen s = some ((parent, name), t))
    (hparent : 0 ≤ parent) : Crosses cred fs cur p seen (UInt32.ofNat parent.toNat) name := by
  induction n generalizing cur p seen s with
  | zero => exact absurd h (not_along_failed hparent)
  | succ n ih =>
    unfold resolveFrom at h
    split at h
    · exact absurd h (not_along_failed hparent)
    · exact absurd h (not_along_failed hparent)
    rename_i comp rest hp
    replace h := along_atomic_bind.mp h
    obtain ⟨s0, seen, rfl, h⟩ := h
    cases hfound : ((FsSec.iget fs cur).step s0).1 with
    | none =>
      rw [hfound] at h
      exact absurd h (not_along_failed hparent)
    | some ip =>
      rw [hfound] at h
      dsimp only at h
      split at h
      · exact absurd h (not_along_failed hparent)
      rename_i htype
      split at h
      · exact absurd h (not_along_failed hparent)
      rename_i hperm
      have hmay : MaySearch cred fs cur s0 :=
        ⟨ip, hfound, not_not.mp htype, eq_true_of_ne_false hperm⟩
      split at h
      · rename_i hlast
        obtain ⟨rfl, heq, -⟩ := along_pure.mp h
        cases heq
        rw [ofNat_asInt hparent]
        exact .last hp hlast.2 hmay
      · replace h := along_atomic_bind.mp h
        obtain ⟨s', seen, rfl, h⟩ := h
        split at h
        · exact absurd h (not_along_failed hparent)
        · rename_i hneg
          exact .next hp hmay (not_lt.mp hneg) (ih h)

theorem resolve_crosses
    (h : (resolve cred fs path true).along FsSec.step seen s = some ((parent, name), t))
    (hparent : 0 ≤ parent) : ∃ chars, absolute path = some chars ∧ ∃ s1 s2 walk,
      seen = s1 :: s2 :: walk ∧
        Crosses cred fs (rootIn fs s2) chars walk (UInt32.ofNat parent.toNat) name := by
  replace h := along_atomic_bind.mp h
  obtain ⟨s1, seen, rfl, h⟩ := h
  split at h
  · rename_i chars habs
    split at h
    · replace h := along_atomic_bind.mp h
      obtain ⟨s2, walk, rfl, h⟩ := h
      exact ⟨chars, habs, s1, s2, walk, rfl, resolveFrom_crosses h hparent⟩
    · exact absurd h (not_along_failed hparent)
  · exact absurd h (not_along_failed hparent)

theorem not_along_none {α : Type} {a : α} :
    (pure none : FsProg (Option α)).along FsSec.step seen s ≠ some (some a, t) := by
  intro h
  obtain ⟨-, heq, -⟩ := along_pure.mp h
  cases heq

theorem resolveParent_crosses {parent : UInt32}
    (h : (resolveParent cred fs path).along FsSec.step seen s =
      some (some (parent, dirp, name), t)) :
    ∃ chars, absolute path = some chars ∧ ∃ s1 s2 walk s3, seen = s1 :: s2 :: walk ++ [s3] ∧
      Crosses cred fs (rootIn fs s2) chars walk parent name ∧ inodeIn fs parent s3 = some dirp := by
  replace h := along_bind.mp h
  obtain ⟨seen1, seen2, ⟨r, last⟩, t1, rfl, hres, h⟩ := h
  dsimp only at h
  split at h
  · exact absurd h not_along_none
  rename_i hneg
  obtain ⟨chars, habs, s1, s2, walk, rfl, hwalk⟩ := resolve_crosses hres (not_lt.mp hneg)
  replace h := along_atomic_bind.mp h
  obtain ⟨s3, seen, rfl, h⟩ := h
  cases hfound : ((FsSec.iget fs (UInt32.ofNat r.toNat)).step s3).1 with
  | none =>
    rw [hfound] at h
    exact absurd h not_along_none
  | some ip =>
    rw [hfound] at h
    obtain ⟨rfl, heq, -⟩ := along_pure.mp h
    cases heq
    exact ⟨chars, habs, s1, s2, walk, s3, rfl, hwalk, hfound⟩

theorem openInode_reaches {parent : UInt32} {s0 : Vfs} (hdir : inodeIn fs parent s0 = some dirp)
    (h : (openInode cred fs path flags now parent dirp name).along FsSec.step seen s = some (r, t))
    (hr : 0 ≤ r) : Reaches cred fs path parent name (UInt32.ofNat r.toNat) (s0 :: seen) := by
  have hnone : ∀ {seen : List Vfs} {s : Vfs},
      (pure (-1) : FsProg Int).along FsSec.step seen s ≠ some (r, t) := by
    intro seen s h
    obtain ⟨-, heq, -⟩ := along_pure.mp h
    omega
  replace h := along_atomic_bind.mp h
  obtain ⟨s1, seen, rfl, h⟩ := h
  split at h
  · obtain ⟨rfl, rfl, -⟩ := along_pure.mp h
    exact ⟨_, hr, rfl, .inl ⟨s1, by simp, rfl⟩⟩
  split at h
  · exact absurd h hnone
  split at h
  · exact absurd h hnone
  rename_i hperm
  obtain ⟨s2, rfl, hs2⟩ := along_atomic.mp h
  refine ⟨r, hr, rfl, .inr ⟨s0, by simp, ⟨dirp, hdir, eq_true_of_ne_false hperm⟩, s2, by simp,
    now, ?_⟩⟩
  exact congrArg Prod.fst hs2

theorem openAllowed_mayUse {ip : KfsInode} (hip : inodeIn fs ino s = some ip)
    (h : openAllowed cred ip flags) : MayUse cred fs ino flags s := by
  simp only [openAllowed, Bool.and_eq_true, Bool.or_eq_true, Bool.not_eq_true'] at h
  refine ⟨ip, hip, fun hread => ?_, fun hwrite => ?_⟩
  · exact h.1.2.resolve_left (by rw [hread]; simp)
  · exact h.2.resolve_left (by rw [hwrite]; simp)

theorem openFile_handle {type : Nat}
    (hrun : (openFile fs ino type flags now memOk).along FsSec.step seen s = some (some h, t)) :
    t.files h = some ⟨fs, ino, 0, flags⟩ ∧ h < t.nextFile := by
  replace hrun := along_bind.mp hrun
  obtain ⟨seen1, seen2, r, t1, rfl, -, hrun⟩ := hrun
  split at hrun
  · replace hrun := along_atomic_bind.mp hrun
    obtain ⟨s1, seen, rfl, hrun⟩ := hrun
    exact absurd hrun not_along_none
  replace hrun := along_atomic_bind.mp hrun
  obtain ⟨s1, seen, rfl, hrun⟩ := hrun
  obtain ⟨rfl, heq, rfl⟩ := along_pure.mp hrun
  cases heq
  exact ⟨if_pos rfl, Nat.lt_succ_self _⟩

theorem kfsOpOpen_checked {now' : UInt32}
    (hrun : (kfsOpOpen cred fs path flags now now' memOk).along FsSec.step seen s =
      some (some h, t)) :
    ∃ ino, Checked cred fs path flags ino seen ∧ t.files h = some ⟨fs, ino, 0, flags⟩ ∧
      h < t.nextFile := by
  replace hrun := along_atomic_bind.mp hrun
  obtain ⟨s1, seen, rfl, hrun⟩ := hrun
  split at hrun
  · exact absurd hrun not_along_none
  replace hrun := along_bind.mp hrun
  obtain ⟨seen1, seen, res, t1, rfl, hres, hrun⟩ := hrun
  cases res with
  | none => exact absurd hrun not_along_none
  | some res =>
    obtain ⟨parent, dirp, name⟩ := res
    obtain ⟨chars, habs, s2, s3, walk, s4, rfl, hwalk, hdir⟩ := resolveParent_crosses hres
    replace hrun := along_bind.mp hrun
    obtain ⟨seen2, seen, r, t2, rfl, hino, hrun⟩ := hrun
    split at hrun
    · exact absurd hrun not_along_none
    rename_i hneg
    have hreach := openInode_reaches hdir hino (not_lt.mp hneg)
    replace hrun := along_atomic_bind.mp hrun
    obtain ⟨s5, seen, rfl, hrun⟩ := hrun
    cases hfound : ((FsSec.iget fs (UInt32.ofNat r.toNat)).step s5).1 with
    | none =>
      rw [hfound] at hrun
      exact absurd hrun not_along_none
    | some ip =>
      rw [hfound] at hrun
      dsimp only at hrun
      split at hrun
      · exact absurd hrun not_along_none
      rename_i hallow
      have hmay := openAllowed_mayUse hfound (eq_true_of_ne_false hallow)
      replace hrun := along_atomic_bind.mp hrun
      obtain ⟨s6, seen, rfl, hrun⟩ := hrun
      split at hrun
      · refine ⟨_, ⟨chars, habs, [s1, s2], s3, walk, s4 :: seen2 ++ s5 :: s6 :: seen, parent, name,
          by simp, hwalk, ?_, s5, by simp, hmay⟩, openFile_handle hrun⟩
        obtain ⟨r', hr', heq, hcases⟩ := hreach
        refine ⟨r', hr', heq, hcases.imp ?_ ?_⟩
        · exact fun ⟨s, hs, hentry⟩ => ⟨s, mem_append_left _ hs, hentry⟩
        · exact fun ⟨s, hs, hadd, s', hs', hnew⟩ =>
            ⟨s, mem_append_left _ hs, hadd, s', mem_append_left _ hs', hnew⟩
      · exact absurd hrun not_along_none

/-- Handle `h`, while it is open, is the one that was given out as `kf`. -/
structure Handed (h : Nat) (kf : KfsFile) (s : Vfs) : Prop where
  lt : h < s.nextFile
  same : ∀ kf', s.files h = some kf' → kf'.fs = kf.fs ∧ kf'.inum = kf.inum ∧ kf'.flags = kf.flags

theorem Handed.of_files {s' : Vfs} (hs : Handed h kf s) (hfiles : s'.files h = s.files h)
    (hnext : s'.nextFile = s.nextFile) : Handed h kf s' :=
  ⟨hnext ▸ hs.lt, fun kf' hkf => hs.same kf' (hfiles ▸ hkf)⟩

theorem Handed.step {h : Nat} {kf : KfsFile} {s : Vfs} (hs : Handed h kf s) (c : FsSec) :
    Handed h kf (c.step s).2 := by
  cases c with
  | newFile kf' =>
    have hne : h ≠ s.nextFile := Nat.ne_of_lt hs.lt
    exact ⟨Nat.lt_succ_of_lt hs.lt, fun kf'' hkf => hs.same kf'' ((if_neg hne).symm.trans hkf)⟩
  | setPos g pos =>
    refine ⟨hs.lt, fun kf' hkf => ?_⟩
    change (if h = g then (s.files g).map _ else s.files h) = some kf' at hkf
    split at hkf
    · rename_i hg
      obtain ⟨kf'', hkf'', rfl⟩ := Option.map_eq_some_iff.mp hkf
      exact hs.same kf'' (hg ▸ hkf'')
    · exact hs.same kf' hkf
  | dropFile g =>
    refine ⟨hs.lt, fun kf' hkf => ?_⟩
    change (if h = g then none else s.files h) = some kf' at hkf
    split at hkf
    · cases hkf
    · exact hs.same kf' hkf
  | ref g inum =>
    apply hs.of_files
    · simp only [FsSec.step, inodeRef]
      split
      · rfl
      · split <;> rfl
    · simp only [FsSec.step, inodeRef]
      split
      · rfl
      · split <;> rfl
  | unref g inum =>
    apply hs.of_files
    · simp only [FsSec.step, inodeUnref]
      split <;> rfl
    · simp only [FsSec.step, inodeUnref]
      split <;> rfl
  | _ => exact hs.of_files rfl rfl

theorem refused {f : Option KfsFile → FsProg Int} (hseen : ∀ s ∈ seen, Handed h kf s)
    (hnone : f none = pure (-1)) (hsome : ∀ kf', kf'.flags = kf.flags → f (some kf') = pure (-1))
    (hrun : (Fs.file h >>= f).along FsSec.step seen s = some (r, t)) :
    r = -1 ∧ seen.length = 1 := by
  replace hrun := along_atomic_bind.mp hrun
  obtain ⟨s1, seen, rfl, hrun⟩ := hrun
  have hturned : f ((FsSec.file h).step s1).1 = pure (-1) := by
    cases hfile : ((FsSec.file h).step s1).1 with
    | none => exact hnone
    | some kf' => exact hsome kf' ((hseen s1 mem_cons_self).same kf' hfile).2.2
  rw [hturned] at hrun
  obtain ⟨rfl, rfl, -⟩ := along_pure.mp hrun
  exact ⟨rfl, rfl⟩

variable {n : UInt64}

theorem vfsRead_refused (hflags : vfsFlagsAllowRead kf.flags = false)
    (hseen : ∀ s ∈ seen, Handed h kf s)
    (hrun : (vfsRead h buf n).along FsSec.step seen s = some (r, t)) : r = -1 ∧ seen.length = 1 :=
  refused hseen rfl (fun _ hkf => if_pos (.inr (hkf ▸ hflags))) hrun

theorem vfsWrite_refused (hflags : vfsFlagsAllowWrite kf.flags = false)
    (hseen : ∀ s ∈ seen, Handed h kf s)
    (hrun : (vfsWrite h buf n now).along FsSec.step seen s = some (r, t)) :
    r = -1 ∧ seen.length = 1 :=
  refused hseen rfl (fun _ hkf => if_pos (.inr (hkf ▸ hflags))) hrun

/-- From `p` on, what a task returns from reading or writing the handle agrees with the flags. -/
structure ModesKept (h : Nat) (flags : UInt32) (p : FsPool) : Prop where
  read : vfsFlagsAllowRead flags = false → ∀ j buf n k sched r t, p.prog j = vfsRead h buf n >>= k →
    (vfsRead h buf n).along FsSec.step (p.turns fsSem j sched) p.state = some (r, t) →
      r = -1 ∧ (p.turns fsSem j sched).length = 1
  write : vfsFlagsAllowWrite flags = false → ∀ j buf n now k sched r t,
    p.prog j = vfsWrite h buf n now >>= k →
    (vfsWrite h buf n now).along FsSec.step (p.turns fsSem j sched) p.state = some (r, t) →
      r = -1 ∧ (p.turns fsSem j sched).length = 1

theorem Handed.modesKept {p : FsPool} (hp : Handed h kf p.state) : ModesKept h kf.flags p where
  read := fun hflags j _ _ _ sched _ _ _ hrun =>
    vfsRead_refused hflags (Pool.turns_keeps (fun _ c _ hs => hs.step c) j sched hp) hrun
  write := fun hflags j _ _ _ _ sched _ _ _ hrun =>
    vfsWrite_refused hflags (Pool.turns_keeps (fun _ c _ hs => hs.step c) j sched hp) hrun

/-- Whatever the other tasks do, an open that returns a handle has crossed every directory of its
path at a moment when the caller might search it, and then had at a moment the permissions that the
flags ask for on the inode of the handle, which it found there or created in a directory that the
caller might write and search. The handle stays that inode's and is used in its modes only. -/
theorem open_is_checked_as_it_walks (p : FsPool) (i : Nat) (cred : Cred) (fs : InstId)
    (path : Option CString) (flags now now' : UInt32) (memOk : Bool) (k : Option Nat → FsProg Unit)
    (hcall : p.prog i = kfsOpOpen cred fs path flags now now' memOk >>= k) (during : List Nat)
    (h : Nat) (t : Vfs) (hret : (kfsOpOpen cred fs path flags now now' memOk).along FsSec.step
      (p.turns fsSem i during) p.state = some (some h, t)) :
    p.turns fsSem i during ⊆ p.states fsSem during ∧
      ∃ ino, Checked cred fs path flags ino (p.turns fsSem i during) ∧
        t.files h = some ⟨fs, ino, 0, flags⟩ ∧ ∀ after,
          Handed h ⟨fs, ino, 0, flags⟩ (p.run fsSem (during ++ after)).state ∧
            ModesKept h flags (p.run fsSem (during ++ after)) := by
  obtain ⟨ino, hchecked, hfile, hlt⟩ := kfsOpOpen_checked hret
  refine ⟨Pool.turns_subset_states i during p, ino, hchecked, hfile, fun after => ?_⟩
  obtain ⟨pre, post, rfl, hst, -⟩ :=
    @Pool.along_turns _ _ _ fsSem _ i _ _ _ _ during p hcall hret
  have hgiven : Handed h ⟨fs, ino, 0, flags⟩ (p.run fsSem pre).state := by
    rw [hst]
    refine ⟨hlt, fun kf' hkf => ?_⟩
    rw [hfile] at hkf
    cases hkf
    exact ⟨rfl, rfl, rfl⟩
  have hkept : Handed h ⟨fs, ino, 0, flags⟩ (p.run fsSem (pre ++ post ++ after)).state := by
    rw [append_assoc, Pool.run_append]
    exact Pool.state_keeps (fun _ c _ hs => hs.step c) (post ++ after) hgiven
  exact ⟨hkept, hkept.modesKept⟩

/-- At one moment the caller may search every directory of the path, and use the inode as the flags
ask. -/
def AtOnce (cred : Cred) (fs : InstId) (path : Option CString) (flags ino : UInt32) (s : Vfs) :
    Prop :=
  (∃ chars, absolute path = some chars ∧ ∃ n parent name,
    Crosses cred fs (rootIn fs s) chars (List.replicate n s) parent name) ∧
    MayUse cred fs ino flags s

theorem Crosses.search {dir parent : UInt32} (h : Crosses cred fs dir p seen parent name) :
    ∃ s ∈ seen, MaySearch cred fs dir s := by
  cases h with
  | last _ _ hs => exact ⟨_, mem_cons_self, hs⟩
  | next _ hs _ _ => exact ⟨_, mem_cons_self, hs⟩

theorem AtOnce.root (h : AtOnce cred fs path flags ino s) :
    MaySearch cred fs (rootIn fs s) s ∧ MayUse cred fs ino flags s := by
  obtain ⟨⟨chars, -, n, parent, name, hwalk⟩, huse⟩ := h
  obtain ⟨s', hs', hsearch⟩ := hwalk.search
  cases eq_of_mem_replicate hs'
  exact ⟨hsearch, huse⟩

instance (s : Vfs) (dir : UInt32) : Decidable (MaySearch cred fs dir s) :=
  inferInstanceAs (Decidable (∃ ip ∈ inodeIn fs dir s, _))

instance (s : Vfs) (ino flags : UInt32) : Decidable (MayUse cred fs ino flags s) :=
  inferInstanceAs (Decidable (∃ ip ∈ inodeIn fs ino s, _))

/-- The root directory with the file "f", which only its owner may use. -/
def privateFile : Vfs :=
  freshVfs (smallFs 40 37
    [(1, ⟨2, 493, 192, 0, 0, 0, fun i => if i = 0 then 36 else 0, 0⟩),
      (2, ⟨1, 384, 0, 0, 0, 0, fun _ => 0, 0⟩)]
    fun b => if b = 36 then direntsOf [⟨1, [46]⟩, ⟨1, [46, 46]⟩, ⟨2, [102]⟩] else Block.zero)

def slashF : Option CString := some ⟨[47, 102], by decide⟩

/-- A user opens "/f" while root closes "/" to others and then opens "/f" to them. -/
def closingDoors : FsPool where
  state := privateFile
  prog i :=
    if i = 0 then do
      let _ ← kfsOpOpen ⟨1, 1⟩ 0 slashF 0 0 0 true
    else do
      let _ ← kfsOpChmod ⟨0, 0⟩ 0 (some ⟨[47], by decide⟩) 448 0
      let _ ← kfsOpChmod ⟨0, 0⟩ 0 slashF 420 0

def afterTheWalk : List Nat :=
  [0, 0, 0, 0, 0, 0, 1, 1, 1, 1, 1, 1, 1, 1, 1, 1, 0, 0, 0]

theorem closingDoors_returns : ∃ t, (kfsOpOpen ⟨1, 1⟩ 0 slashF 0 0 0 true).along FsSec.step
    (closingDoors.turns fsSem 0 afterTheWalk) closingDoors.state = some (some 0, t) ∧
      (t.files 0).map KfsFile.inum = some 2 := by
  have hres : ((kfsOpOpen ⟨1, 1⟩ 0 slashF 0 0 0 true).along FsSec.step
      (closingDoors.turns fsSem 0 afterTheWalk) closingDoors.state).map
        (fun r => (r.1, (r.2.files 0).map KfsFile.inum)) = some (some 0, some 2) := by
    decide +kernel
  obtain ⟨⟨r, t⟩, hrun, heq⟩ := Option.map_eq_some_iff.mp hres
  obtain ⟨hr, hinum⟩ := Prod.mk.inj heq
  dsimp only at hr hinum
  subst hr
  exact ⟨t, hrun, hinum⟩

/-- The user gets a handle on inode 2 and was at no moment allowed to search "/" and to read it. -/
theorem open_was_never_permitted_at_once :
    (∃ t, (kfsOpOpen ⟨1, 1⟩ 0 slashF 0 0 0 true).along FsSec.step
      (closingDoors.turns fsSem 0 afterTheWalk) closingDoors.state = some (some 0, t) ∧
        (t.files 0).map KfsFile.inum = some 2) ∧
      ∀ s ∈ closingDoors.states fsSem afterTheWalk, ¬ AtOnce ⟨1, 1⟩ 0 slashF 0 2 s := by
  have hnever : ∀ s ∈ closingDoors.states fsSem afterTheWalk,
      ¬ (MaySearch ⟨1, 1⟩ 0 (rootIn 0 s) s ∧ MayUse ⟨1, 1⟩ 0 2 0 s) := by
    decide +kernel
  exact ⟨closingDoors_returns, fun s hs hat => hnever s hs hat.root⟩

theorem open_is_checked_while_doors_close :
    ∃ ino, Checked ⟨1, 1⟩ 0 slashF 0 ino (closingDoors.turns fsSem 0 afterTheWalk) := by
  obtain ⟨t, hrun, -⟩ := closingDoors_returns
  obtain ⟨-, ino, hchecked, -⟩ := open_is_checked_as_it_walks closingDoors 0 ⟨1, 1⟩ 0 slashF 0 0 0
    true (fun _ => pure ()) rfl afterTheWalk 0 t hrun
  exact ⟨ino, hchecked⟩

end KestrelOS.Kfs
