import KestrelOS.Kfs.Consistency
import KestrelOS.Kfs.Handles

/-!
# Files without holes

File block `n` of a dense file is mapped exactly when `n` lies below the size in blocks. Every
change of the driver keeps this but two: a write that starts past the last block, and a write that
spends the last free block on the indirect table.
-/

namespace KestrelOS.Kfs

open TxProg (wp_bind wp_pure wp_mono wp_trivial)

def Dense (sb : KfsSuperblock) (view : Nat → Block) (ino : Nat) : Prop :=
  (∀ n, ptrOf sb view ino (some n) ≠ 0 ↔ n < blocksFor (inodeAt sb view ino).size) ∧
    ((inodeAt sb view ino).indirect ≠ 0 ↔ 10 < blocksFor (inodeAt sb view ino).size)

def NonSparse (sb : KfsSuperblock) (view : Nat → Block) : Prop :=
  ∀ ino, inoValid sb ino = true → (inodeAt sb view ino).type ≠ 0 → Dense sb view ino

structure Tight (may : ReadRule Block) (sb : KfsSuperblock)
    (v : TxView Block KfsMem) : Prop extends Good may sb v where
  dense : NonSparse sb v.view

section

variable {may : ReadRule Block} {sb : KfsSuperblock} {view view' : Nat → Block}
  {v w : View}

theorem Dense.congr {ino : Nat} (h : Dense sb view ino)
    (hsize : (inodeAt sb view' ino).size = (inodeAt sb view ino).size)
    (hind : (inodeAt sb view' ino).indirect = (inodeAt sb view ino).indirect)
    (hptr : ∀ slot, ptrOf sb view' ino slot = ptrOf sb view ino slot) : Dense sb view' ino := by
  refine ⟨fun n => ?_, ?_⟩
  · rw [hptr, hsize]
    exact h.1 n
  · rw [hind, hsize]
    exact h.2

theorem dense_of_empty {ino : Nat} (hsize : (inodeAt sb view ino).size = 0)
    (hptr : ∀ slot, ptrOf sb view ino slot = 0) : Dense sb view ino := by
  have hind : (inodeAt sb view ino).indirect = 0 := hptr none
  refine ⟨fun n => ?_, ?_⟩
  · simp [hptr, hsize, blocksFor]
  · simp [hind, hsize, blocksFor]

theorem NonSparse.change {ino : Nat} (h : NonSparse sb view) (ho : OnlyInode sb ino view view')
    (hself : (inodeAt sb view' ino).type ≠ 0 → Dense sb view' ino) : NonSparse sb view' := by
  intro i hi htype
  by_cases hne : i = ino
  · subst hne
    exact hself htype
  have hat := ho.inodes i hi hne
  rw [hat] at htype
  exact (h i hi htype).congr (by rw [hat]) (by rw [hat]) fun slot => ho.ptrs i slot hi hne

theorem Tight.store_same (hg : Geometry sb) (h : Tight may sb v) {ino : Nat} {ip : KfsInode}
    (hv : inoValid sb ino) (hb : ip.Bounded) (hd : ip.direct = (inodeAt sb v.view ino).direct)
    (hi : ip.indirect = (inodeAt sb v.view ino).indirect)
    (hself : ip.type = 0 → ∀ slot, ptrOf sb v.view ino slot = 0)
    (hdense : ip.type ≠ 0 → (inodeAt sb v.view ino).type ≠ 0 ∧
      ip.size = (inodeAt sb v.view ino).size ∨ ip.size = 0 ∧
        ∀ slot, ptrOf sb v.view ino slot = 0) : Tight may sb (store v ino ip) := by
  obtain ⟨-, ho, hat, hptr, -⟩ := h.toTxOk.store_only hg hv hb hd hi
  refine ⟨h.toGood.store_same hg hv hb hd hi hself, h.dense.change ho fun htype => ?_⟩
  rw [hat] at htype
  rcases hdense htype with ⟨hlive, hsize⟩ | ⟨hsize, hzero⟩
  · exact (h.dense ino hv hlive).congr (by rw [hat, hsize]) (by rw [hat, hi]) hptr
  · refine dense_of_empty (by rw [hat, hsize]) fun slot => ?_
    rw [hptr, hzero]

theorem Tight.wrote (h : Tight may sb v) {ino pos len : Nat} {data : Nat → UInt8}
    (hv : inoValid sb ino) (htype : (inodeAt sb v.view ino).type ≠ 0) (hlen : 0 < len)
    (hin : pos % 4096 + len ≤ 4096) (hpos : pos / 4096 ≤ blocksFor (inodeAt sb v.view ino).size)
    (hw : Wrote may sb ino pos len data v w) : Tight may sb w := by
  obtain ⟨hmap, htab⟩ := h.dense ino hv htype
  refine ⟨h.toGood.wrote htype hw, h.dense.change hw.only fun _ => ?_⟩
  have hsize : blocksFor (inodeAt sb w.view ino).size =
      max (blocksFor (inodeAt sb v.view ino).size) (pos / 4096 + 1) := by
    rw [hw.attrs]
    simp only [blocksFor]
    omega
  refine ⟨fun n => ?_, ?_⟩
  · rw [hsize]
    by_cases hn : n = pos / 4096
    · subst hn
      simp only [hw.here, ne_eq, not_false_eq_true, true_iff]
      omega
    · rw [hw.ptrs ino (some n) hv (by simp [hn]) (by simp), hmap n]
      omega
  · rw [hw.table, htab, hsize]
    omega

theorem tight_stable (hg : Geometry sb) :
    Stable may sb (Tight may sb) where
  ok := fun v h => h.toTxOk
  alloc := by
    intro v ino ip h hv htype hb ht hs hd hi
    have hzero := h.clean ino hv htype
    obtain ⟨h1, h2⟩ := direct_zero_of_ptrs hzero
    exact h.store_same hg hv hb (by rw [h1]; exact funext hd) (by rw [h2, hi])
      (fun hz => absurd hz ht) fun _ => .inr ⟨hs, hzero⟩
  release := by
    intro v ino h hv _ hptr
    obtain ⟨h1, h2⟩ := direct_zero_of_ptrs hptr
    exact h.store_same hg hv KfsInode.zero_bounded h1.symm h2.symm (fun _ => hptr)
      fun hne => absurd rfl hne
  attrs := by
    intro v ino ip h hv hb ht hs hd hi
    exact h.store_same hg hv hb hd hi (fun hz => h.clean ino hv (ht ▸ hz))
      fun hne => .inl ⟨ht ▸ hne, hs⟩
  truncated := by
    intro v w ino mtime h hv ht
    have hgood := (good_stable hg).truncated v w ino mtime h.toGood hv ht
    refine ⟨hgood, h.dense.change ht.only fun _ => dense_of_empty ?_ fun slot => ?_⟩
    · rw [ht.self]
      rfl
    · rw [ptrOf, ht.self, ptr_emptied]
  wrote := fun v w ino _ _ _ h hv htype hlen hin hpos hw => h.wrote hv htype hlen hin hpos hw

/-- A write starts at or before the first unmapped block of its file, and if it goes on into the
eleventh block of a smaller file, it does not find exactly one block left there. -/
def WriteFits (sb : KfsSuperblock) (view : Nat → Block) (free ino off n : Nat) : Prop :=
  off / 4096 ≤ blocksFor (inodeAt sb view ino).size ∧
    ¬ (off < 40960 ∧ 40960 < off + n ∧ free + blocksFor (inodeAt sb view ino).size = 11)

instance (sb : KfsSuperblock) (view : Nat → Block) (free ino off n : Nat) :
    Decidable (WriteFits sb view free ino off n) := inferInstanceAs (Decidable (_ ∧ _))

def blocksOf (size : Nat) : Nat := blocksFor size + if 10 < blocksFor size then 1 else 0

/-- Invariant of the copy loop: chunks end at block boundaries, and every block taken is one more
block of the file. -/
structure Filling (may : ReadRule Block) (sb : KfsSuperblock) (ino off n : Nat)
    (v : TxView Block KfsMem) (done : Nat) (w : TxView Block KfsMem) : Prop where
  writing : Writing (Tight may sb) sb ino off done w
  aligned : done = 0 ∨ done = n ∨ (off + done) % 4096 = 0
  spent : w.mem.sb.freeBlocks + blocksOf (inodeAt sb w.view ino).size =
    v.mem.sb.freeBlocks + blocksOf (inodeAt sb v.view ino).size

theorem Filling.step {v0 : View} (hst : Stable may sb (Tight may sb))
    {ino off n done : Nat} {buf : Bytes}
    (hv : inoValid sb ino) (h : Filling may sb ino off n v0 done v) (hlt : done < n)
    (hw : Wrote may sb ino (off + done) (chunkLen (off + done) (n - done)) (fun i => buf (i - off))
      v w) : Filling may sb ino off n v0 (done + chunkLen (off + done) (n - done)) w := by
  have hwr := h.writing
  obtain ⟨hmap, htab⟩ := hwr.1.dense ino hv hwr.2.1
  have hlen : chunkLen (off + done) (n - done) = min (4096 - (off + done) % 4096) (n - done) := rfl
  refine ⟨hwr.step hst hv hlt hw, ?_, ?_⟩
  · omega
  have hsize : blocksFor (inodeAt sb w.view ino).size =
      max (blocksFor (inodeAt sb v.view ino).size) ((off + done) / 4096 + 1) := by
    rw [hw.attrs]
    simp only [blocksFor]
    omega
  have hpos := hwr.2.2
  have hfree := hw.free
  have hspent := h.spent
  have hhere := hmap ((off + done) / 4096)
  simp only [blocksOf, hsize] at hspent ⊢
  by_cases hold : (off + done) / 4096 < blocksFor (inodeAt sb v.view ino).size
  · have hne := hhere.mpr hold
    have htab' : ¬ (10 ≤ (off + done) / 4096 ∧ (inodeAt sb v.view ino).indirect = 0) := by
      rintro ⟨h10, hz⟩
      exact htab.mpr (by omega) hz
    rw [if_neg hne, if_neg htab'] at hfree
    rw [Nat.max_eq_left (by omega)]
    omega
  have hz : ptrOf sb v.view ino (some ((off + done) / 4096)) = 0 := by
    by_contra hne
    exact hold (hhere.mp hne)
  rw [if_pos hz] at hfree
  rw [Nat.max_eq_right (by omega)]
  by_cases h10 : blocksFor (inodeAt sb v.view ino).size = 10
  · have hind : (inodeAt sb v.view ino).indirect = 0 := by
      by_contra hne
      have := htab.mp hne
      omega
    rw [if_pos ⟨by omega, hind⟩] at hfree
    rw [if_neg (by omega)] at hspent
    rw [if_pos (by omega)]
    omega
  · have htab' : ¬ (10 ≤ (off + done) / 4096 ∧ (inodeAt sb v.view ino).indirect = 0) := by
      rintro ⟨hle, hz'⟩
      exact htab.mpr (by omega) hz'
    rw [if_neg htab'] at hfree
    by_cases hbig : 10 < blocksFor (inodeAt sb v.view ino).size
    · rw [if_pos hbig] at hspent
      rw [if_pos (by omega)]
      omega
    rw [if_neg hbig] at hspent
    rw [if_neg (by omega)]
    omega

theorem wp_writeLocked_tight (hg : Geometry sb) (hsure : ¬ may.fallible) (h : Tight may sb v)
    {ino off n mtime : Nat} (buf : Bytes) (hm : mtime < 4294967296)
    (hfit : inoValid sb ino → (inodeAt sb v.view ino).type = 1 →
      WriteFits sb v.view v.mem.sb.freeBlocks ino off n) :
    (writeLocked ino off buf n mtime).wp may (fun r w => 0 ≤ r → Tight may sb w) v := by
  have hst : Stable may sb (Tight may sb) := tight_stable hg
  refine wp_writeLocked h.toShape (by simp) fun hv htype => ?_
  obtain ⟨hstart, hhalf⟩ := hfit hv htype
  refine wp_writei hg (I := Filling may sb ino off n v) ?_ ?_ h.toTxOk ?_ ?_ ?_ ?_
  · exact fun _ w hw => hw.writing.1.toTxOk
  · exact fun done w w' hw hlt hwr => hw.step hst hv hlt hwr
  · intro w hneg
    omega
  · exact fun _ _ => h
  · exact fun _ htype _ => ⟨⟨h, htype, hstart⟩, .inl rfl, rfl⟩
  · intro _ _ _ done w hpos hend _
    have hattrs : ∀ {w}, Filling may sb ino off n v done w →
        Tight may sb (store w ino { inodeAt sb w.view ino with mtime := mtime }) :=
      fun hw => hw.writing.attrs hst hv hm
    cases hend with
    | all _ hw => exact hattrs hw
    | full _ _ hw => exact hattrs hw
    | half _ nb w0 _ hw hlt h10 hz hfree hl =>
      -- the table took the last free block, which the condition excludes
      exfalso
      have hone := hfree.resolve_right hsure
      obtain ⟨-, htab⟩ := hw.writing.1.dense ino hv hw.writing.2.1
      have hle : ¬ 10 < blocksFor (inodeAt sb w0.view ino).size := fun hlt => htab.mpr hlt hz
      have hat := hw.writing.2.2
      have halign := hw.aligned
      have hspent := hw.spent
      have hgrow : ¬ 10 < blocksFor (inodeAt sb v.view ino).size := by
        intro hbig
        simp only [blocksOf, if_neg hle, if_pos hbig] at hspent
        omega
      simp only [blocksOf, if_neg hle, if_neg hgrow] at hspent
      apply hhalf
      omega
    | unread _ b w0 _ hw hlt hmap hr =>
      rcases hmap.reads hv hr with hr' | hr'
      · simp at hr'
      · exact absurd hr'.2 hsure

end

section

variable {fs : InstId} {dev : DevId}

theorem NonSparse.outside {sb sb' : KfsSuperblock} {view view' : Nat → Block} {free : Nat}
    (hg : Geometry sb) (hl : SameLayout sb sb') (hacc : Accounted sb view free)
    (h : NonSparse sb view) (heq : ∀ b, ¬ InJournal sb b → view' b = view b) :
    NonSparse sb' view' := by
  obtain ⟨-, hsame⟩ := hacc.outside hg heq
  rw [hl]
  intro ino hv htype
  have hv' : inoValid sb ino := hv
  obtain ⟨hat, hptr⟩ := hsame ino hv'
  have hlive : (inodeAt sb view ino).type ≠ 0 := by
    rw [← hat]
    exact htype
  exact (h ino hv' hlive).congr (by rw [hat]) (by rw [hat]) hptr

/-- The instance serves a sound file system without holes, its device has no errors, and every
handle is on it. -/
structure Solid (fs : InstId) (dev : DevId) (s : Vfs) : Prop where
  serving : Serving fs dev s.drv
  sound : Sound (s.drv.instances fs).sb (home s.drv fs)
  dense : NonSparse (s.drv.instances fs).sb (home s.drv fs)
  io : ∀ k lba, s.drv.io k dev lba = .ok
  files : ∀ h kf, s.files h = some kf → kf.fs = fs

/-- Instance, inode, offset and length of the write that a section makes. -/
def FsSec.writeArgs : FsSec → Option (InstId × UInt32 × UInt32 × UInt32)
  | .call fs (.write ino off (some _) n _) => some (fs, ino, off, n)
  | _ => none

/-- Where a section writes to a regular file, the write fits. -/
def FsSec.Fits (c : FsSec) (s : Vfs) : Prop :=
  ∀ w ∈ c.writeArgs, inoValid (s.drv.instances w.1).sb w.2.1.toNat = true →
    (inodeAt (s.drv.instances w.1).sb (home s.drv w.1) w.2.1.toNat).type = 1 →
      WriteFits (s.drv.instances w.1).sb (home s.drv w.1) (s.drv.instances w.1).sb.freeBlocks
        w.2.1.toNat w.2.2.1.toNat w.2.2.2.toNat

instance (c : FsSec) (s : Vfs) : Decidable (c.Fits s) := Option.decidableForallMem c.writeArgs

theorem Idles.home_eq {s t : Driver} (h : Idles fs s t) (b : Nat) : home t fs b = home s fs b := by
  obtain ⟨used, handles, hinst⟩ := h.inst
  simp only [home, hinst, h.disk, KfsFs.lba]

theorem Serving.idles {s t : Driver} (h : Serving fs dev s) (hi : Idles fs s t) :
    Serving fs dev t ∧ (t.instances fs).sb = (s.instances fs).sb := by
  obtain ⟨used, handles, hinst⟩ := hi.inst
  have hA := h.attached
  refine ⟨⟨⟨?_, ?_, ?_, ?_⟩, ?_, ?_, hi.uniq h.uniq, ?_, ?_⟩, by rw [hinst]⟩
  · rw [hinst]; exact hA.bd
  · rw [hinst]; exact hA.spb
  · rw [hi.bdev]; exact hA.writable
  · rw [hi.bdev, hinst]; exact hA.passed
  · rw [hinst]; exact h.mounted
  · rw [hi.journalTx]; exact h.idle
  · intro b hb
    rw [hinst] at hb
    exact hi.cache b (h.cache b hb)
  · rw [hi.home_eq, hinst]; exact h.sbHome

theorem Solid.idles {s t : Vfs} (h : Solid fs dev s) (hi : Idles fs s.drv t.drv)
    (hfiles : ∀ h kf, t.files h = some kf → kf.fs = fs) : Solid fs dev t := by
  obtain ⟨hserve, hsb⟩ := h.serving.idles hi
  have hhome : home t.drv fs = home s.drv fs := funext hi.home_eq
  refine ⟨hserve, ?_, ?_, ?_, hfiles⟩
  · rw [hsb, hhome]; exact h.sound
  · rw [hsb, hhome]; exact h.dense
  · rw [hi.io]; exact h.io

theorem Solid.call {s : Vfs} (h : Solid fs dev s) (c : KfsCall) (hfit : (FsSec.call fs c).Fits s) :
    Solid fs dev ((FsSec.call fs c).step s).2 := by
  have hg := h.serving.geometry h.sound.blocks.hi_cap
  have hstart : Tight (readOr (s.drv.instances fs).sb False) (s.drv.instances fs).sb
      (startView fs s.drv) :=
    ⟨h.serving.start h.sound.accounted h.sound.clean, h.dense⟩
  have hwp := c.wp_body hg (tight_stable hg) hstart (by
    intro ino off buf n mtime hc
    subst hc
    exact wp_writeLocked_tight hg id hstart buf mtime.toNat_lt (hfit _ rfl))
  obtain ⟨hserve, hsound, hio⟩ := c.run_ok h.serving h.sound h.io
  refine ⟨hserve, hsound, ?_, hio, h.files⟩
  rcases c.run_cases h.serving (h.serving.allows fun _ _ hb => h.serving.attached.readsOk h.io hb)
    (fun _ hw => hw.toTxOk) hwp False.elim
      (fun k _ => h.io k) with hsame | ⟨hu, -⟩ | ⟨v, hdone, htight⟩
  · simp only [FsSec.step, onDrv, hsame]
    exact h.dense
  · simp only [FsSec.step, onDrv]
    rw [hu.instances]
    exact h.dense.outside hg (.refl _) h.sound.accounted hu.home
  simp only [FsSec.step, onDrv]
  rw [hdone.inst]
  exact htight.dense.outside hg hdone.layout htight.ledger hdone.home

theorem Solid.step {s : Vfs} (h : Solid fs dev s) {c : FsSec} (hon : c.On fs) (hfit : c.Fits s) :
    c.Finds fs (c.step s).1 ∧ Solid fs dev (c.step s).2 := by
  have hidle : (∀ g k, c ≠ .call g k) →
      (∀ h kf, (c.step s).2.files h = some kf → kf.fs = fs) → Solid fs dev (c.step s).2 :=
    fun hc hfiles => h.idles (FsSec.step_idles hc fs s) hfiles
  cases c with
  | call g k =>
    cases hon
    exact ⟨trivial, h.call k hfit⟩
  | newFile kf =>
    refine ⟨trivial, hidle (by simp) ?_⟩
    intro n kf' hkf
    simp only [FsSec.step, setFile] at hkf
    split at hkf
    · cases hkf
      exact hon
    · exact h.files n kf' hkf
  | file n => exact ⟨fun kf hkf => h.files n kf hkf, h⟩
  | setPos n pos =>
    refine ⟨trivial, hidle (by simp) ?_⟩
    intro n' kf' hkf
    simp only [FsSec.step, setFile] at hkf
    split at hkf
    · obtain ⟨kf, hfile, rfl⟩ := Option.map_eq_some_iff.mp hkf
      exact h.files n kf hfile
    · exact h.files n' kf' hkf
  | dropFile n =>
    refine ⟨trivial, hidle (by simp) ?_⟩
    intro n' kf' hkf
    simp only [FsSec.step, setFile] at hkf
    split at hkf
    · simp at hkf
    · exact h.files n' kf' hkf
  | ref g inum =>
    refine ⟨trivial, hidle (by simp) fun n kf hkf => h.files n kf ?_⟩
    rw [← hkf]
    simp only [FsSec.step, inodeRef]
    split
    · rfl
    · split <;> rfl
  | unref g inum =>
    refine ⟨trivial, hidle (by simp) fun n kf hkf => h.files n kf ?_⟩
    rw [← hkf]
    simp only [FsSec.step, inodeUnref]
    split <;> rfl
  | _ => exact ⟨trivial, hidle (by simp) h.files⟩

def OpsFit (fs : InstId) : List VfsOp → Vfs → Prop
  | [], _ => True
  | op :: ops, s =>
    (op.prog fs).Meets FsSec.step FsSec.Fits s ∧ OpsFit fs ops ((op.prog fs).run FsSec.step s).2

theorem Solid.runOps {s : Vfs} (h : Solid fs dev s) (ops : List VfsOp) (hfit : OpsFit fs ops s) :
    Solid fs dev (runOps fs ops s) := by
  induction ops generalizing s with
  | nil => exact h
  | cons op ops ih =>
    have hstep : ∀ (c : FsSec) (s : Vfs), c.On fs → c.Fits s → Solid fs dev s →
        c.Finds fs (c.step s).1 ∧ Solid fs dev (c.step s).2 :=
      fun c s hon hok hI => hI.step hon hok
    have hop := SecProg.run_keeps hstep (op.prog fs) op.prog_on hfit.1 h
    exact ih hop hfit.2

/-- From a consistent file system without holes and without device errors, operations whose writes
all fit leave no file with a hole. -/
theorem runOps_nonSparse {s : Vfs} (h : Serving fs dev s.drv)
    (hs : Sound (s.drv.instances fs).sb (home s.drv fs))
    (hdense : NonSparse (s.drv.instances fs).sb (home s.drv fs))
    (hio : ∀ k lba, s.drv.io k dev lba = .ok) (hfiles : ∀ h kf, s.files h = some kf → kf.fs = fs)
    (ops : List VfsOp) (hfit : OpsFit fs ops s) :
    NonSparse ((runOps fs ops s).drv.instances fs).sb (home (runOps fs ops s).drv fs) :=
  (Solid.runOps ⟨h, hs, hdense, hio, hfiles⟩ ops hfit).dense

end

theorem Holding.nonSparse {sb : KfsSuperblock} {view : Nat → Block} {inodes : List (Nat × KfsInode)}
    (h : Holding sb view inodes) (hsize : ∀ p ∈ inodes, blocksFor p.2.size ≤ 10)
    (hdirect : ∀ p ∈ inodes, ∀ i : Fin 10, p.2.direct i ≠ 0 ↔ i.val < blocksFor p.2.size) :
    NonSparse sb view := by
  intro ino hv htype
  have hat := h.slots ino hv
  rw [hat] at htype
  rcases slotOf_mem inodes ino with ⟨p, hp, -, hslot⟩ | hzero
  · rw [hslot] at hat htype
    have hind := h.noTable p hp htype
    have hle := hsize p hp
    refine ⟨fun n => ?_, by rw [hat, hind]; omega⟩
    rw [hat]
    simp only [ptrOf, hat, ptr, hind, true_or, if_true]
    split
    · rename_i hn
      rw [KfsInode.directAt, dif_pos hn]
      exact hdirect p hp ⟨n, hn⟩
    · omega
  · rw [hzero] at htype
    exact absurd rfl htype

theorem smallFs_nonSparse {total used : Nat} {inodes : List (Nat × KfsInode)} {data : Nat → Block}
    (h : Laid used inodes) (hsize : ∀ p ∈ inodes, blocksFor p.2.size ≤ 10)
    (hdirect : ∀ p ∈ inodes, ∀ i : Fin 10, p.2.direct i ≠ 0 ↔ i.val < blocksFor p.2.size) :
    NonSparse ((smallFs total used inodes data).instances 0).sb
      (home (smallFs total used inodes data) 0) := by
  rw [smallFs_image]
  exact h.holding.nonSparse hsize hdirect

/-- Open and create "/a", seek to its third block, and write one byte. -/
def seekPastEnd : List VfsOp :=
  [.open ⟨0, 0⟩ (some slashA) 0x42 0 0 true, .seek 0 8192 0,
    .write 0 (some fun _ => 7) 1 0]

/-- A seek past the end and a write leave a hole. -/
theorem runOps_seek_sparse :
    let s := freshVfs (smallFs 40 37 smallRoot rootData)
    let t := runOps 0 seekPastEnd s
    Serving 0 0 s.drv ∧ Sound (s.drv.instances 0).sb (home s.drv 0) ∧
      NonSparse (s.drv.instances 0).sb (home s.drv 0) ∧ (∀ k lba, s.drv.io k 0 lba = .ok) ∧
      (inodeAt (t.drv.instances 0).sb (home t.drv 0) 2).size = 8193 ∧
      ptrOf (t.drv.instances 0).sb (home t.drv 0) 2 (some 0) = 0 ∧
      ¬ NonSparse (t.drv.instances 0).sb (home t.drv 0) := by
  obtain ⟨hsize, hptr⟩ : let t := runOps 0 seekPastEnd (freshVfs (smallFs 40 37 smallRoot rootData))
      (inodeAt (t.drv.instances 0).sb (home t.drv 0) 2).size = 8193 ∧
        ptrOf (t.drv.instances 0).sb (home t.drv 0) 2 (some 0) = 0 := by decide +kernel
  refine ⟨smallFs_serving (by decide) (by decide) (by decide) (by decide),
    smallFs_sound smallRoot_laid (by decide) (by decide) (by decide) (by decide),
    smallFs_nonSparse smallRoot_laid (by decide) (by decide), fun _ _ => rfl, hsize, hptr, ?_⟩
  intro h
  have := ((h 2 (by decide +kernel) (by decide +kernel)).1 0).mpr (by rw [hsize]; decide)
  exact this hptr

theorem runOps_nonSparse_append :
    let t := runOps 0 [.open ⟨0, 0⟩ (some ⟨[47, 97], by decide⟩) 0x42 0 0 true,
      .write 0 (some fun _ => 7) 5 0] (freshVfs (smallFs 40 37 smallRoot rootData))
    NonSparse (t.drv.instances 0).sb (home t.drv 0) := by
  refine @runOps_nonSparse 0 0 (freshVfs (smallFs 40 37 smallRoot rootData))
    (smallFs_serving (by decide) (by decide) (by decide) (by decide))
    (smallFs_sound smallRoot_laid (by decide) (by decide) (by decide) (by decide))
    (smallFs_nonSparse smallRoot_laid (by decide) (by decide)) (fun _ _ => rfl)
    (fun h kf hkf => by simp [freshVfs] at hkf) _ ?_
  exact ⟨by decide +kernel, by decide +kernel, trivial⟩

end KestrelOS.Kfs
