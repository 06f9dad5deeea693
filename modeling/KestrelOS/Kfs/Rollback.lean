import KestrelOS.Kfs.Entry

/-!
# What a call leaves behind

Every mutating call ends in one of three ways: nothing happened (`Undone`), the contents its
program saw last are on the device (`Done`), or the instance was retired in the middle of the home
writes.
-/

namespace KestrelOS.Kfs

/-- The superblocks differ at most in `free_blocks`. -/
def SameLayout (sb sb' : KfsSuperblock) : Prop := sb' = { sb with freeBlocks := sb'.freeBlocks }

theorem SameLayout.refl (sb : KfsSuperblock) : SameLayout sb sb := rfl

variable {sb sb' : KfsSuperblock}

theorem SameLayout.setFree (h : SameLayout sb sb') (f : Nat) :
    SameLayout sb { sb' with freeBlocks := f } := by
  unfold SameLayout at h ⊢
  rw [h]

theorem SameLayout.journalStart (h : SameLayout sb sb') : sb'.journalStart = sb.journalStart := by
  rw [h]

section Keeps

variable {sb : KfsSuperblock}

open TxProg (Keeps)

private def InLayout (sb : KfsSuperblock) (m : KfsMem) : Prop := SameLayout sb m.sb

@[grind ←] private theorem read_keeps (b : Nat) : (Tx.read b).Keeps (InLayout sb) :=
  fun _ => trivial

@[grind ←] private theorem live_keeps : Tx.live.Keeps (InLayout sb) := fun _ => trivial

@[grind ←] private theorem load_keeps : Tx.load.Keeps (InLayout sb) := fun _ _ => trivial

@[grind ←] private theorem ignored_keeps : Tx.ignored.Keeps (InLayout sb) := trivial

@[grind ←] private theorem iget_keeps (ino : Nat) : (iget ino).Keeps (InLayout sb) :=
  (iget_noWrites ino).keeps

@[grind ←] private theorem scanDir_keeps (dir : Nat) (hit : KfsDirent → Bool) (n off : Nat) :
    (scanDir dir hit n off).Keeps (InLayout sb) := (scanDir_noWrites dir hit n off).keeps

@[grind ←] private theorem dirLookup_keeps (dir : Nat) (name : List UInt8) :
    (dirLookup dir name).Keeps (InLayout sb) := (dirLookup_noWrites dir name).keeps

@[grind ←] private theorem stage_keeps (b : Nat) (d : Block) : (Tx.stage b d).Keeps (InLayout sb) :=
  fun _ => trivial

@[grind ←] private theorem setFree_keeps (f : Nat → Nat) : (setFree f).Keeps (InLayout sb) :=
  fun _ hm => ⟨SameLayout.setFree hm _, trivial⟩

@[grind ←] private theorem sbSync_keeps : sbSync.Keeps (InLayout sb) :=
  fun _ hm => ⟨hm, fun _ => trivial⟩

@[grind ←] private theorem balloc_keeps : balloc.Keeps (InLayout sb) := by
  have hfrom : ∀ n bb, (ballocFrom n bb).Keeps (InLayout sb) := by
    intro n
    induction n with
    | zero => exact fun _ => Keeps.pure _
    | succ n ih =>
      intro bb
      refine Keeps.bind load_keeps fun m => Keeps.bind (read_keeps _) fun r => ?_
      cases r with
      | none => exact Keeps.pure _
      | some d => cases findClear d 4096 0 <;> grind
  grind [balloc]

@[grind ←] private theorem bfree_keeps (blk : Nat) : (bfree blk).Keeps (InLayout sb) := by
  refine Keeps.bind (by grind) fun m => ?_
  split
  · grind
  · refine Keeps.bind (by grind) fun r => ?_
    cases r <;> grind

@[grind ←] private theorem iput_keeps (ino : Nat) (ip : KfsInode) :
    (iput ino ip).Keeps (InLayout sb) := by
  grind [iput]

@[grind ←] private theorem drop_iput_keeps (ino : Nat) (ip : KfsInode) :
    (Tx.drop (iput ino ip)).Keeps (InLayout sb) := by
  grind [Tx.drop]

@[grind ←] private theorem ialloc_keeps (type mode uid gid mtime : Nat) :
    (ialloc type mode uid gid mtime).Keeps (InLayout sb) := by
  have hfrom : ∀ fresh n i, (iallocFrom fresh n i).Keeps (InLayout sb) := by
    intro fresh n
    induction n with
    | zero => exact fun _ => Keeps.pure _
    | succ n ih => grind [iallocFrom]
  grind [ialloc]

@[grind ←] private theorem ifree_keeps (ino : Nat) : (ifree ino).Keeps (InLayout sb) := by
  grind [ifree]

@[grind ←] private theorem bmap_keeps (ino : Nat) (ip : KfsInode) (fbn : Nat) (alloc : Bool) :
    (bmap ino ip fbn alloc).Keeps (InLayout sb) := by
  have htable : ∀ ip j, (bmapIndirect ip j alloc).Keeps (InLayout sb) := by
    grind [bmapIndirect]
  grind [bmap]

@[grind ←] private theorem writei_keeps (ino off : Nat) (buf : Bytes) (n mtime : Nat) :
    (writei ino off buf n mtime).Keeps (InLayout sb) := by
  have hloop : ∀ fuel ip done, (writeLoop ino off buf n fuel ip done).Keeps (InLayout sb) := by
    intro fuel
    induction fuel with
    | zero => exact fun _ _ => Keeps.pure _
    | succ fuel ih =>
      intro ip done
      unfold writeLoop
      split
      · grind
      · refine Keeps.bind (bmap_keeps ..) fun r => ?_
        grind
  grind [writei]

@[grind ←] private theorem truncateLocked_keeps (ino mtime : Nat) :
    (truncateLocked ino mtime).Keeps (InLayout sb) := by
  have hfree : ∀ ptr n i, (freeAll ptr n i).Keeps (InLayout sb) := by
    intro ptr n
    induction n with
    | zero => exact fun _ => Keeps.pure _
    | succ n ih => grind [freeAll]
  have htable : ∀ blk, (freeIndirect blk).Keeps (InLayout sb) := by
    grind [freeIndirect]
  refine Keeps.bind live_keeps fun l => ?_
  split
  · refine Keeps.bind (iget_keeps _) fun r => ?_
    cases r with
    | none => exact Keeps.pure _
    | some ip => exact Keeps.bind (hfree _ _ _) fun _ => Keeps.bind (htable _) fun _ => by grind
  · exact Keeps.pure _

@[grind ←] private theorem dirAdd_keeps (dir : Nat) (name : List UInt8) (ino mtime : Nat) :
    (dirAdd dir name ino mtime).Keeps (InLayout sb) := by
  refine Keeps.bind (iget_keeps _) fun r => ?_
  cases r with
  | none => exact Keeps.pure _
  | some ip => grind

@[grind ←] private theorem dirRemove_keeps (dir : Nat) (name : List UInt8) (mtime : Nat) :
    (dirRemove dir name mtime).Keeps (InLayout sb) := by
  grind [dirRemove]

@[grind ←] private theorem editInode_keeps (ino : Nat) (edit : KfsInode → KfsInode) :
    (editInode ino edit).Keeps (InLayout sb) := by
  grind [editInode]

theorem KfsCall.body_keeps (c : KfsCall) : c.body.Keeps fun m => SameLayout sb m.sb := by
  change c.body.Keeps (InLayout sb)
  have hparent : ∀ path, (lookupParent path).Keeps (InLayout sb) :=
    fun path => (lookupParent_noWrites path).keeps
  have hempty : ∀ dir, (dirIsEmpty dir).Keeps (InLayout sb) :=
    fun dir => (dirIsEmpty_noWrites dir).keeps
  cases c with
  | write ino off buf n mtime => cases buf <;> grind [KfsCall.body, writeLocked]
  | create path mode uid gid mtime => grind [KfsCall.body, createLocked]
  | mkdir path mode uid gid mtime =>
    have hentries : ∀ ino parent name mtime,
        (mkdirEntries ino parent name mtime).Keeps (InLayout sb) := by
      grind [mkdirEntries]
    refine Keeps.bind (hparent _) fun r => ?_
    generalize r.1.toNat = parent
    grind
  | unlink path mtime =>
    have hremovable : ∀ ino ip, (removable ino ip).Keeps (InLayout sb) := by
      grind [removable]
    have hinode : ∀ parent name ino, (unlinkInode parent name ino mtime.toNat).Keeps
        (InLayout sb) := by
      grind [unlinkInode]
    refine Keeps.bind (hparent _) fun r => ?_
    generalize r.1.toNat = parent
    grind
  | truncate ino mtime => exact truncateLocked_keeps _ _
  | chmod ino mode mtime => exact editInode_keeps _ _
  | chown ino uid gid mtime => exact editInode_keeps _ _

end Keeps

variable {fs : InstId} {s : Driver}

theorem exec_keeps {α : Type} {I : KfsMem → Prop} (p : TxProg Block KfsMem α) (hp : p.Keeps I)
    (hin : InTx fs s) (h : I ⟨(s.instances fs).sb, s.sbBlock⟩) :
    I ⟨((exec fs p s).2.instances fs).sb, (exec fs p s).2.sbBlock⟩ := by
  induction p generalizing s with
  | done a => exact h
  | read b k ih =>
    have hf := bread_frame fs b s
    apply ih _ (hp _) (hin.of_tx hf.journalTx)
    rw [hf.instances, hf.sbBlock]
    exact h
  | stage b d k ih =>
    obtain ⟨-, hin', -⟩ := journalStage_inTx hin b d
    apply ih _ (hp _) hin'
    have hmem : ((journalStage fs b d s).2.instances fs).sb = (s.instances fs).sb ∧
        (journalStage fs b d s).2.sbBlock = s.sbBlock := by
      unfold journalStage
      rw [if_pos ⟨hin.active, hin.fs⟩]
      split
      · exact ⟨rfl, rfl⟩
      · split <;> exact ⟨rfl, rfl⟩
    rw [hmem.1, hmem.2]
    exact h
  | load k ih => exact ih _ (hp _ h) hin h
  | store m k ih =>
    obtain ⟨-, hin', -⟩ := setMem_inTx hin m
    apply ih hp.2 hin'
    have hmem : ((setMem s fs m).instances fs).sb = m.sb := by simp [setMem, setSb]
    rw [hmem]
    exact hp.1
  | live k ih => exact ih _ (hp _) hin h
  | ignore k ih => exact ih hp hin h

/-- Nothing outside the journal region changed; only copies of blocks came into the cache. -/
structure Undone (fs : InstId) (s t : Driver) : Prop where
  bdev : t.bdev = s.bdev
  io : t.io = s.io
  instances : t.instances = s.instances
  home : ∀ b, ¬ InJournal (s.instances fs).sb b → Kfs.home t fs b = Kfs.home s fs b
  otherDevs : OtherDevs fs s t
  active : t.journalTx.active = false
  uniq : CacheUniq s → CacheUniq t
  cache : ∀ b, ¬ InJournal (s.instances fs).sb b → CacheOk s fs b → CacheOk t fs b

/-- The blocks outside the journal region and the superblock are as in `v`. -/
structure Done (fs : InstId) (s t : Driver) (v : TxView Block KfsMem) : Prop where
  bdev : t.bdev = s.bdev
  io : t.io = s.io
  others : ∀ f, f ≠ fs → t.instances f = s.instances f
  inst : t.instances fs = { s.instances fs with sb := v.mem.sb }
  layout : SameLayout (s.instances fs).sb v.mem.sb
  home : ∀ b, ¬ InJournal (s.instances fs).sb b → Kfs.home t fs b = v.view b
  otherDevs : OtherDevs fs s t
  active : t.journalTx.active = false
  uniq : CacheUniq s → CacheUniq t
  cache : CacheUniq s → ∀ b, ¬ InJournal (s.instances fs).sb b → CacheOk s fs b → CacheOk t fs b

def begun (fs : InstId) (s : Driver) : Driver := (journalBegin fs s).2

def startView (fs : InstId) (s : Driver) : TxView Block KfsMem :=
  ⟨home s fs, fun _ => false, ⟨(s.instances fs).sb, s.sbBlock⟩⟩

variable {fs : InstId} {s : Driver}

theorem begun_eq (hidle : s.journalTx.active = false) : ∃ sequence, begun fs s =
      { s with journalTx := ⟨some fs, true, false, sequence, (s.instances fs).sb, []⟩ } ∧
      journalBegin fs s = (true, begun fs s) := by
  unfold begun journalBegin
  rw [hidle]
  exact ⟨_, rfl, rfl⟩

theorem begun_inTx (hidle : s.journalTx.active = false) : InTx fs (begun fs s) := by
  obtain ⟨sequence, h, -⟩ := @begun_eq fs _ hidle
  rw [h]
  exact ⟨rfl, rfl, by simp, by simp⟩

theorem begun_view (hidle : s.journalTx.active = false) :
    viewOf fs (begun fs s) = startView fs s := by
  obtain ⟨sequence, h, -⟩ := @begun_eq fs _ hidle
  have hpending : ∀ b, journalPending (begun fs s) fs b = none := by
    intro b
    rw [h]
    simp [journalPending]
  have hhome : ∀ b, home (begun fs s) fs b = home s fs b := by
    intro b
    rw [h]
    rfl
  simp only [viewOf, startView, TxView.mk.injEq]
  refine ⟨?_, ?_, ?_⟩
  · funext b
    rw [seen, hpending, Option.getD_none, hhome]
  · funext b
    rw [hpending, Option.isSome_none]
  · rw [h]

theorem exec_begun (c : KfsCall) (hidle : s.journalTx.active = false) :
    let e := (exec fs c.body (begun fs s)).2
    InTx fs e ∧ e.bdev = s.bdev ∧ e.io = s.io ∧ e.disk = s.disk ∧
      (∀ f, f ≠ fs → e.instances f = s.instances f) ∧
      e.instances fs = { s.instances fs with sb := (e.instances fs).sb } ∧
      e.journalTx.savedSb = (s.instances fs).sb ∧
      SameLayout (s.instances fs).sb (e.instances fs).sb ∧
      (CacheUniq s → CacheUniq e) ∧ ∀ b, CacheOk s fs b → CacheOk e fs b := by
  obtain ⟨sequence, hb, -⟩ := @begun_eq fs _ hidle
  obtain ⟨hr, hin⟩ := exec_running c.body (@begun_inTx fs _ hidle)
  have hlayout := exec_keeps (I := fun m => SameLayout (s.instances fs).sb m.sb) c.body c.body_keeps
    (@begun_inTx fs _ hidle) (by rw [hb]; exact .refl _)
  rw [hb] at hr hin hlayout ⊢
  exact ⟨hin, hr.bdev, hr.io, hr.disk, hr.others, hr.inst, hr.savedSb, hlayout, hr.uniq,
    fun b hc => hr.cache fs b hc⟩

theorem inJournal_of_layout (h : SameLayout sb sb') (b : Nat) :
    InJournal sb' b ↔ InJournal sb b := by
  simp only [InJournal, h.journalStart]

theorem home_of_inst {t : Driver} (hi : ∃ sb, t.instances fs =
    { s.instances fs with sb := sb }) (hd : t.disk = s.disk) (b : Nat) :
    home t fs b = home s fs b := by
  obtain ⟨sb, hi⟩ := hi
  unfold home KfsFs.lba
  rw [hi, hd]

theorem transact_outcome (c : KfsCall) (hm : (s.instances fs).mounted)
    (hidle : s.journalTx.active = false) (hspb : 0 < (s.instances fs).spb) :
    let e := exec fs c.body (begun fs s)
    let r := transact fs c.body c.ok s
    Undone fs s r.2 ∧ (c.ok r.1 = false ∨ r.1 = -1) ∨
      c.ok e.1 ∧ r.1 = e.1 ∧ e.2.journalTx.failed = false ∧
        Done fs s r.2 (viewOf fs e.2) ∨
      r.1 = -1 ∧ (r.2.instances fs).mounted = false := by
  intro e r
  obtain ⟨hin, hbdev, hio, hdisk, hothers, hinst, hsaved, hlayout, huniq, hcache⟩ :=
    @exec_begun fs _ c hidle
  obtain ⟨sequence, -, hbegin⟩ := @begun_eq fs _ hidle
  have hhome : ∀ b, home e.2 fs b = home s fs b := home_of_inst ⟨_, hinst⟩ hdisk
  have hbd : (e.2.instances fs).bd = (s.instances fs).bd := by rw [hinst]
  have hj : ∀ b, ¬ InJournal (s.instances fs).sb b → ¬ InJournal (e.2.instances fs).sb b :=
    fun b hb h => hb ((inJournal_of_layout hlayout b).mp h)
  have hundone : ∀ t, RolledBack fs e.2 t → Undone fs s t := by
    intro t hrb
    have hhome' : ∀ b, ¬ InJournal (s.instances fs).sb b → home t fs b = home e.2 fs b :=
      fun b hb => hrb.home b (hj b hb)
    exact {
      bdev := hrb.bdev.trans hbdev
      io := hrb.io.trans hio
      instances := by
        funext f
        by_cases hf : f = fs
        · subst hf
          rw [hrb.inst, hsaved, hinst]
        · rw [hrb.others f hf, hothers f hf]
      home := fun b hb => (hhome' b hb).trans (hhome b)
      otherDevs := by
        intro d hd
        rw [hrb.otherDevs d (by rw [hbd]; exact hd), hdisk]
      active := hrb.active
      uniq := fun hu => (huniq hu).of_bcache hrb.bcache
      cache := fun b hb hc => (hcache b hc).congr hrb.bcache (hhome' b hb) }
  have hr : r = if c.ok e.1 then (if (journalCommit fs e.2).1 then e.1 else -1,
      (journalCommit fs e.2).2) else (e.1, journalAbort e.2) := by
    simp only [r, e, transact, hm, if_true, hbegin]
    rcases journalCommit fs _ with ⟨_ | _, t⟩ <;> rfl
  by_cases hok : c.ok e.1 = true
  · rw [if_pos hok] at hr
    rcases hc : journalCommit fs e.2 with ⟨ok, t⟩
    rw [hc] at hr
    rcases journalCommit_outcome hc hin.active hin.fs (by rw [hinst]; exact hspb) hin.len
      (by rw [hinst]; exact hm) with ⟨rfl, hfail, hcom⟩ | ⟨rfl, hrb⟩ | ⟨rfl, hret⟩ <;> rw [hr]
    · refine .inr (.inl ⟨hok, rfl, hfail, ?_⟩)
      exact {
        bdev := hcom.bdev.trans hbdev
        io := hcom.io.trans hio
        others := fun f hf => (hcom.others f hf).trans (hothers f hf)
        inst := hcom.inst.trans hinst
        layout := hlayout
        home := fun b hb => (hcom.home b (hj b hb)).trans (congrFun hin.seen b).symm
        otherDevs := by
          intro d hd
          rw [hcom.otherDevs d (by rw [hbd]; exact hd), hdisk]
        active := hcom.active
        uniq := fun hu => hcom.uniq (huniq hu)
        cache := fun hu b hb hc => hcom.cache (huniq hu) b (hj b hb) (hcache b hc) }
    · exact .inl ⟨hundone t hrb, .inr rfl⟩
    · exact .inr (.inr ⟨rfl, hret.mounted⟩)
  · rw [if_neg hok] at hr
    have hact : e.2.journalTx.active := hin.active
    have hfs : e.2.journalTx.fs = some fs := hin.fs
    have habort : RolledBack fs e.2 (journalAbort e.2) := by
      simp only [journalAbort, hact, hfs]
      exact RolledBack.of_rawIo (.refl fs e.2) (fun _ _ => rfl) fun _ _ => rfl
    rw [hr]
    exact .inl ⟨hundone _ habort, .inl (by simpa using hok)⟩

/-- What `bread` copies out when it succeeds: the staged block, the cached one or the device's. -/
def breadContent (s : Driver) (fs : InstId) (b : Nat) : Block :=
  match journalPending s fs b, bcacheFind s fs b with
  | some d, _ => d
  | none, some i => (s.bcache i).data
  | none, none => home s fs b

theorem breadContent_of_cacheOk {b : Nat} (hidle : s.journalTx.active = false)
    (hc : CacheOk s fs b) :
    breadContent s fs b = home s fs b := by
  unfold breadContent
  have hp : journalPending s fs b = none := by simp [journalPending, hidle]
  rw [hp]
  cases hf : bcacheFind s fs b with
  | none => rfl
  | some i =>
    have hfound := bcacheFind_some hf
    exact hc i hfound.1 hfound.2

/-- A call that returns -1 and leaves the instance mounted has changed nothing: no block outside
the journal region, not the superblock, and no block's content as read through the cache, provided
the cached copy was right to begin with. -/
theorem KfsCall.failed_unchanged {fs : InstId} {s : Driver} (c : KfsCall)
    (hm : (s.instances fs).mounted = true) (hidle : s.journalTx.active = false)
    (hspb : 0 < (s.instances fs).spb) (hret : (c.run fs s).1 = -1)
    (hstill : ((c.run fs s).2.instances fs).mounted = true) :
    (∀ b, ¬ InJournal (s.instances fs).sb b → home (c.run fs s).2 fs b = home s fs b) ∧
      ((c.run fs s).2.instances fs).sb = (s.instances fs).sb ∧
      (∀ b, ¬ InJournal (s.instances fs).sb b → CacheOk s fs b →
        breadContent (c.run fs s).2 fs b = breadContent s fs b) ∧
      (c.run fs s).2.journalTx.active = false := by
  rcases c.run_eq s with hrun | hrun
  · rw [hrun] at hret hstill ⊢
    rcases transact_outcome c hm hidle hspb with ⟨hu, -⟩ | ⟨hok, hr, -⟩ | ⟨-, hgone⟩
    · refine ⟨hu.home, by rw [hu.instances], ?_, hu.active⟩
      intro b hb hc
      rw [breadContent_of_cacheOk hu.active (hu.cache b hb hc), breadContent_of_cacheOk hidle hc,
        hu.home b hb]
    · -- an accepted result is not -1
      rw [hret] at hr
      rw [← hr] at hok
      cases c <;> simp [KfsCall.ok, nonneg, isZero] at hok
    · rw [hgone] at hstill
      simp at hstill
  · rw [hrun]
    exact ⟨fun _ _ => rfl, rfl, fun _ _ _ => rfl, hidle⟩

/-- A file in inode 2 whose block is 36; the fourth device access fails. -/
def tornPayload : Driver :=
  { smallDriver 38 1 (fun b =>
      if b = 1 then Block.ofBytes fun i => if i < 4 then 255 else if i = 4 then 31 else 0
      else if b = 35 then
        putInode Block.zero 2 ⟨1, 420, 1, 0, 0, 0, fun i => if i = 0 then 36 else 0, 0⟩
      else Block.zero) with
    io := fun k _ _ => if k = 3 then .fail none else .ok }

theorem KfsCall.failed_unchanged_tornPayload :
    home ((KfsCall.truncate 2 0).run 0 tornPayload).2 0 1 = home tornPayload 0 1 :=
  (@KfsCall.failed_unchanged 0 tornPayload (.truncate 2 0) rfl rfl (by decide)
    (by decide) (by decide)).1 1 (by decide)

/-- A full cache whose oldest slot holds a wrong copy of block 36. -/
def staleSlot : Driver :=
  { smallDriver 60 24 (fun _ => Block.zero) with
    bcache := fun i => ⟨some 0, 36 + i, i, Block.ofBytes fun _ => 1⟩
    bcacheClock := 16 }

/-- What `bread` returns does change for a payload block of the journal, and for a block whose
cached copy was wrong and is evicted. -/
theorem KfsCall.failed_changes_bread :
    (((KfsCall.truncate 2 0).run 0 tornPayload).1 = -1 ∧
      (((KfsCall.truncate 2 0).run 0 tornPayload).2.instances 0).mounted = true ∧
      breadContent ((KfsCall.truncate 2 0).run 0 tornPayload).2 0 3 ≠
        breadContent tornPayload 0 3) ∧
    ((KfsCall.chmod 2 0 0).run 0 staleSlot).1 = -1 ∧
      (((KfsCall.chmod 2 0 0).run 0 staleSlot).2.instances 0).mounted = true ∧
      breadContent ((KfsCall.chmod 2 0 0).run 0 staleSlot).2 0 36 ≠
        breadContent staleSlot 0 36 := by
  refine ⟨⟨by decide, by decide, fun h => ?_⟩, by decide, by decide, fun h => ?_⟩
  · exact absurd (congrFun h 0) (by decide)
  · exact absurd (congrFun h 0) (by decide)

end KestrelOS.Kfs
