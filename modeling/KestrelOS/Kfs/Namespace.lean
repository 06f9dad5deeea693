import KestrelOS.Kfs.Consistency
import KestrelOS.Kfs.Dirs

/-!
# The name space over runs of calls

`create`, `mkdir` and `unlink` act on the directory tree as adding a leaf and removing one, and
the other calls on regular files leave the tree alone. So a well-formed tree stays well formed.
-/

namespace KestrelOS.Kfs

open TxProg (wp_bind wp_pure wp_mono wp_trivial)

abbrev TreeOk (sb : KfsSuperblock) (view : Nat → Block) : Prop :=
  (namesOf sb view).WellFormed dotName dotDotName sb.rootIno

structure Orderly (may : ReadRule Block) (sb : KfsSuperblock)
    (v : TxView Block KfsMem) : Prop extends Tidy may sb v where
  tree : TreeOk sb v.view

section

variable {may : ReadRule Block} {sb : KfsSuperblock} {v w : View}

variable {ino mtime : Nat} {ip : KfsInode}

theorem entries_of_size_zero {view : Nat → Block} (h : (inodeAt sb view ino).size = 0) (k : Nat) :
    (namesOf sb view).entry ino k = none := by
  simp [namesOf, h]

theorem Tidy.store_empty (hg : Geometry sb) (h : Tidy may sb v) (hv : inoValid sb ino)
    (hb : ip.Bounded) (hs : ip.size = 0) (hd : ip.direct = (inodeAt sb v.view ino).direct)
    (hi : ip.indirect = (inodeAt sb v.view ino).indirect) (hzero : ip.type = 0 → ip = KfsInode.zero)
    (hnone : ∀ k, (namesOf sb v.view).entry ino k = none) : Tidy may sb (store v ino ip) ∧
      namesOf sb (store v ino ip).view = (namesOf sb v.view).setKind ino (kindOf ip.type) := by
  obtain ⟨hok, honly, hself, -, -⟩ := h.toTxOk.store_only hg hv hb hd hi
  refine ⟨honly.tidy h hok ⟨?_, ?_, ?_⟩, honly.names ?_ ?_ ?_ ?_⟩
  · rw [hself]
    exact hzero
  · rw [hself, hs]
    simp
  · rw [hself, hs]
    simp [blocksFor]
  · simp [namesOf, hv, hself]
  · intro i hne
    simp [hne]
  · intro k
    rw [DirTree.setKind_entry, hnone, entries_of_size_zero (by rw [hself, hs])]
  · exact fun _ _ _ => rfl

theorem wp_iallocFrom_names (hg : Geometry sb) (h : Tidy may sb v) {fresh : KfsInode}
    (hb : fresh.Bounded) (ht : fresh.type ≠ 0) (hs : fresh.size = 0)
    (hd : fresh.direct = fun _ => 0)
    (hi : fresh.indirect = 0) (n i : Nat) {Q : Nat → View → Prop} (hbad : ∀ w, Q 0 w)
    (hgood : ∀ ino w, inoValid sb ino → (namesOf sb v.view).kind ino = .free → Tidy may sb w →
      namesOf sb w.view = (namesOf sb v.view).setKind ino (kindOf fresh.type) → Q ino w) :
    (iallocFrom fresh n i).wp may Q v := by
  induction n generalizing i with
  | zero => exact hbad v
  | succ n ih =>
    simp only [iallocFrom, wp_bind]
    refine wp_iget h.toShape i (fun _ => hbad v) fun hv => ?_
    dsimp only
    split
    · rename_i hfree
      have hzero := (h.inode i hv).zero hfree
      obtain ⟨htidy, hnames⟩ := h.store_empty hg hv hb hs (by rw [hzero, hd]; rfl)
        (by rw [hzero, hi]; rfl) (fun h0 => absurd h0 ht)
          (entries_of_size_zero (by rw [hzero]; rfl))
      simp only [wp_bind]
      exact wp_iput h.toShape _ hv (fun _ => hbad v)
        (hgood i _ hv ((namesOf_free hv).mpr hfree) htidy hnames)
    · exact ih (i + 1)

theorem Truncated.names (h : Truncated may sb v w ino mtime) :
    namesOf sb w.view = (namesOf sb v.view).clear ino := by
  refine h.only.names ?_ (fun _ _ => rfl) (fun k => ?_) fun i k hne => by simp [hne]
  · simp [namesOf, h.self, KfsInode.emptied]
  · rw [DirTree.clear_entry, if_pos rfl, entries_of_size_zero (by rw [h.self]; rfl)]

theorem Truncated.tidy (ht : Truncated may sb v w ino mtime) (h : Tidy may sb v)
    (hlive : (inodeAt sb v.view ino).type ≠ 0) : Tidy may sb w := by
  have htype : (inodeAt sb w.view ino).type = (inodeAt sb v.view ino).type := by
    rw [ht.self]
    rfl
  refine ht.only.tidy h ht.ok ⟨fun h0 => absurd (htype ▸ h0) hlive, ?_, ?_⟩
  · rw [ht.self]
    simp [KfsInode.emptied]
  · rw [ht.self]
    simp [KfsInode.emptied, blocksFor]

theorem Tidy.store_attrs (hg : Geometry sb) (h : Tidy may sb v) (hv : inoValid sb ino)
    (hb : ip.Bounded) (hlive : ip.type ≠ 0) (ht : ip.type = (inodeAt sb v.view ino).type)
    (hs : ip.size = (inodeAt sb v.view ino).size) (hd : ip.direct = (inodeAt sb v.view ino).direct)
    (hi : ip.indirect = (inodeAt sb v.view ino).indirect) :
    Tidy may sb (store v ino ip) ∧ namesOf sb (store v ino ip).view = namesOf sb v.view := by
  obtain ⟨hok, honly, hself, hptr, hfile⟩ := h.toTxOk.store_only hg hv hb hd hi
  obtain ⟨-, h2, h3⟩ := h.inode ino hv
  have hentry : ∀ k, entryAt sb (store v ino ip).view ino k = entryAt sb v.view ino k :=
    fun k => entryAt_congr hfile
  refine ⟨honly.tidy h hok ⟨?_, ?_, ?_⟩, honly.names ?_ ?_ ?_ ?_⟩
  · rw [hself]
    exact fun h0 => absurd h0 hlive
  · rw [hself, ht, hs]
    exact h2
  · rw [hself, ht, hs]
    intro htype n hn
    rw [hptr]
    exact h3 htype n hn
  · simp only [namesOf, hself, ht]
  · exact fun _ _ => rfl
  · intro k
    simp only [namesOf, hself, ht, hs, hentry]
  · exact fun _ _ _ => rfl

section

variable (hg : Geometry sb) (hs : ¬ may.fallible) (h : Orderly may sb v)

variable {ino mtime : Nat}

theorem Orderly.isDir (h : Orderly may sb v) (hw : WalkedTo sb v.view ino) :
    (namesOf sb v.view).kind ino = .dir := by
  rcases hw with rfl | hdir
  · exact h.tree.rootDir
  · exact namesOf_dir.mpr hdir

include hg hs h in
theorem wp_createLocked_tree (path : Option CString) (mode : Nat) {uid gid : Nat}
    (hu : uid < 4294967296) (hgid : gid < 4294967296) (hm : mtime < 4294967296) :
    (createLocked path mode uid gid mtime).wp may (fun r w => 0 ≤ r → Orderly may sb w) v := by
  simp only [createLocked, wp_bind]
  refine wp_lookupParent_any h.toTxOk hg _ fun r hr => ?_
  obtain ⟨parent, name⟩ := r
  dsimp only
  split
  · simp
  rename_i hpos
  have hdir := h.isDir (hr.2 (by simpa using hpos))
  dsimp only at hdir
  simp only [wp_bind]
  refine wp_dirLookup hs h.toTidy _ hr.1.1 (fun j n he hn => by simp [hn]) fun hnone => ?_
  rw [if_neg (by simp)]
  simp only [ialloc, wp_bind, Tx.wp_load]
  refine wp_iallocFrom_names hg h.toTidy
    ⟨by simp, by simp only; omega, by simp, hu, hgid, hm, by simp, by simp⟩
      (by simp) rfl rfl rfl _ _
    (fun w => by simp) fun ino w hv hfree hw hnames => ?_
  have hino := hg.ino_lt hv
  rw [if_neg (by omega)]
  simp only [wp_bind]
  refine wp_dirAdd hg hs hw hr.1 (by omega) hino.2 hm ?_ fun j w' _ hfreeSlot hw' hnames' => ?_
  · intro w'
    simp only [Int.reduceNeg, Int.reduceLT, if_true, wp_bind]
    exact wp_trivial _ _ fun _ _ => by simp
  rw [if_neg (by simp)]
  refine fun _ => ⟨hw', ?_⟩
  rw [hnames] at hnames' hfreeSlot
  rw [TreeOk, hnames']
  exact h.tree.addFile hdir hfree hfreeSlot hnone

include hg hs in
theorem wp_mkdirEntries_tree {parent : Nat} {name : List UInt8} (hw : Tidy may sb v)
    {t : DirTree Nat Nat (List UInt8)} (ht : t.WellFormed dotName dotDotName sb.rootIno)
    (hnames : namesOf sb v.view = t.setKind ino .dir) (hv : inoValid sb ino)
    (hfree : t.kind ino = .free) (hparent : inoValid sb parent) (hdir : t.kind parent = .dir)
    (hname : NameOk name) (hnone : ∀ j n, t.entry parent j ≠ some (name, n))
    (hm : mtime < 4294967296) :
    (mkdirEntries ino parent name mtime).wp may (fun r w => r → Orderly may sb w) v := by
  have hino := hg.ino_lt hv
  have hpar := hg.ino_lt hparent
  have hne : parent ≠ ino := by
    rintro rfl
    simp [hfree] at hdir
  simp only [mkdirEntries, wp_bind]
  refine wp_dirAdd hg hs hw ⟨by decide, by decide⟩ (by omega) hino.2 hm (fun _ => by simp)
    fun j0 w1 _ _ hw1 hn1 => ?_
  rw [if_neg (by simp)]
  simp only [wp_bind]
  refine wp_dirAdd hg hs hw1 ⟨by decide, by decide⟩ (by omega) hpar.2 hm (fun _ => by simp)
    fun j1 w2 _ hfree1 hw2 hn2 => ?_
  rw [if_neg (by simp)]
  simp only [wp_bind]
  refine wp_dirAdd hg hs hw2 hname (by omega) hino.2 hm (fun _ => by simp)
    fun j w3 _ hfree3 hw3 hn3 => ?_
  rw [if_neg (by simp)]
  refine fun _ => ⟨hw3, ?_⟩
  rw [hn2, hn1, hnames] at hn3 hfree3
  rw [hn1] at hfree1
  have h01 : j0 ≠ j1 := by
    rintro rfl
    simp at hfree1
  have hslot : t.entry parent j = none := by simpa [hne] using hfree3
  rw [TreeOk, hn3]
  exact ht.addDir (by decide) hdir hfree hslot hnone h01

include hg hs h in
theorem wp_mkdirLocked_tree (path : Option CString) (mode : Nat) {uid gid : Nat}
    (hu : uid < 4294967296) (hgid : gid < 4294967296) (hm : mtime < 4294967296) :
    (mkdirLocked path mode uid gid mtime).wp may (fun r w => r = 0 → Orderly may sb w) v := by
  simp only [mkdirLocked, wp_bind]
  refine wp_lookupParent_any h.toTxOk hg _ fun r hr => ?_
  obtain ⟨parent, name⟩ := r
  dsimp only
  split
  · simp
  rename_i hpos
  have hdir := h.isDir (hr.2 (by simpa using hpos))
  dsimp only at hdir
  simp only [wp_bind]
  refine wp_dirLookup hs h.toTidy _ hr.1.1 (fun j n he hn => by simp [hn]) fun hnone => ?_
  rw [if_neg (by simp)]
  simp only [ialloc, wp_bind, Tx.wp_load]
  refine wp_iallocFrom_names hg h.toTidy
    ⟨by simp, by simp only; omega, by simp, hu, hgid, hm, by simp, by simp⟩
      (by simp) rfl rfl rfl _ _
    (fun w => by simp) fun ino w hv hfree hw hnames => ?_
  have hino := hg.ino_lt hv
  rw [if_neg (by omega)]
  simp only [wp_bind]
  refine wp_mono _
    (wp_mkdirEntries_tree hg hs hw h.tree hnames hv hfree (namesOf_dir.mp hdir).1 hdir
    hr.1 hnone hm) fun ok w' hw' => ?_
  split
  · rename_i hok
    exact fun _ => hw' hok
  · simp only [wp_bind]
    exact wp_trivial _ _ fun _ _ => wp_trivial _ _ fun _ _ => by simp

include hg hs h in
theorem wp_unlinkLocked_tree (path : Option CString) (hm : mtime < 4294967296) :
    (unlinkLocked path mtime).wp may (fun r w => r = 0 → Orderly may sb w) v := by
  simp only [unlinkLocked, wp_bind]
  refine wp_lookupParent_any h.toTxOk hg _ fun r hr => ?_
  obtain ⟨parent, name⟩ := r
  dsimp only
  split
  · simp
  split
  · simp
  rename_i hres
  simp only [not_or] at hres
  simp only [wp_bind]
  refine wp_dirLookup hs h.toTidy _ hr.1.1 (fun j n he hn => ?_) fun _ => by simp
  rw [if_neg hn]
  simp only [wp_bind]
  refine wp_iget h.toShape n (fun _ => by simp) fun hv => ?_
  simp only [wp_bind]
  refine wp_removable hs h.toTidy hv (by simp) fun hleaf => ?_
  simp only [if_true, unlinkInode, wp_bind]
  refine wp_dirRemove hg hs h.toTidy hr.1 hm (fun w => by simp) fun j' n' w1 he' hw1 hn1 => ?_
  -- names are distinct, so it is the entry found before
  obtain rfl := h.tree.distinct _ j j' name n n' he he'
  have hedge : (namesOf sb v.view).Edge dotName dotDotName parent.toNat j n := ⟨name, he, hres⟩
  have hlive : (inodeAt sb w1.view n).type ≠ 0 := by
    rw [ne_eq, ← namesOf_free hv, hn1]
    exact h.tree.target _ _ _ _ he
  rw [if_neg (by simp)]
  simp only [wp_bind]
  refine wp_truncateLocked hg hw1.toTxOk hm (fun w => by simp) fun _ w2 ht => ?_
  have hw2 := ht.tidy hw1 hlive
  have hempty : (inodeAt sb w2.view n).size = 0 := by
    rw [ht.self]
    rfl
  obtain ⟨hw3, hn3⟩ := hw2.store_empty hg hv KfsInode.zero_bounded rfl (by rw [ht.self]; rfl)
    (by rw [ht.self]; rfl) (fun _ => rfl) (entries_of_size_zero hempty)
  rw [if_neg (by simp)]
  simp only [ifree, wp_bind]
  refine wp_iput hw2.toShape _ hv (fun hf => absurd hf hs) fun _ => ⟨hw3, ?_⟩
  rw [TreeOk, hn3, ht.names, hn1]
  exact h.tree.remove hedge hleaf

structure FileOnly (may : ReadRule Block) (sb : KfsSuperblock) (ino : Nat)
    (v w : TxView Block KfsMem) : Prop where
  ok : TxOk may sb w
  only : OnlyInode sb ino v.view w.view
  type : (inodeAt sb w.view ino).type = 1

theorem FileOnly.orderly (hf : FileOnly may sb ino v w) (h : Orderly may sb v)
    (ht : (inodeAt sb v.view ino).type = 1) : Orderly may sb w := by
  have hnames : namesOf sb w.view = namesOf sb v.view :=
    hf.only.names_file (by rw [hf.type, ht]) (by rw [ht]; decide)
  refine ⟨hf.only.tidy h.toTidy hf.ok ⟨?_, ?_, ?_⟩, by rw [TreeOk, hnames]; exact h.tree⟩
  · intro h0
    simp [hf.type] at h0
  · intro h2
    simp [hf.type] at h2
  · intro h2
    simp [hf.type] at h2

include hg h in
theorem wp_writeLocked_tree (ino off : Nat) (buf : Bytes) (n : Nat) (hm : mtime < 4294967296) :
    (writeLocked ino off buf n mtime).wp may (fun r w => 0 ≤ r → Orderly may sb w) v := by
  refine wp_writeLocked h.toShape (by simp) fun hv htype => ?_
  have hattrs : ∀ {a b : View}, FileOnly may sb ino v a →
      TxOk may sb b → OnlyInode sb ino a.view b.view →
      (inodeAt sb b.view ino).type = (inodeAt sb a.view ino).type → FileOnly may sb ino v b :=
    fun ha hok honly ht => ⟨hok, ha.only.trans honly, ht.trans ha.type⟩
  refine wp_writei hg (I := fun _ w => FileOnly may sb ino v w) ?_ ?_ h.toTxOk ?_ ?_ ?_ ?_
  · exact fun _ w hw => hw.ok
  · exact fun _ w w' hw _ hwr => hattrs hw hwr.ok hwr.only (by rw [hwr.attrs])
  · intro w hneg
    omega
  · exact fun _ _ => h
  · exact fun _ _ _ => ⟨h.toTxOk, ⟨fun _ _ _ => rfl, fun _ _ _ _ => rfl, fun _ _ _ _ => rfl⟩, htype⟩
  · intro _ _ _ done w _ hend _
    have hf : FileOnly may sb ino v w := by
      cases hend with
      | all _ hw => exact hw
      | full _ _ hw => exact hw
      | half _ nb w0 _ hw _ _ _ _ hl =>
        exact hattrs hw hl.ok hl.only (by rw [hl.attrs])
      | unread _ b w0 _ hw _ hmap _ =>
        exact hattrs hw hmap.ok hmap.only (by rw [hmap.attrs])
    have hb := mtime_bounded (inodeAt_bounded sb w.view ino) hm
    obtain ⟨hok, honly, hself, -, -⟩ := hf.ok.store_only hg hv hb rfl rfl
    exact (hattrs hf hok honly (by rw [hself])).orderly h htype

include hg h in
theorem wp_editInode_tree (ino : Nat) {edit : KfsInode → KfsInode} (hedit : AttrsOnly edit) :
    (editInode ino edit).wp may (fun r w => 0 ≤ r → Orderly may sb w) v := by
  simp only [editInode, wp_bind]
  refine wp_iget h.toShape ino (fun _ => by simp) fun hv => ?_
  dsimp only
  split
  · simp
  rename_i hlive
  obtain ⟨h1, h2, h3, h4, h5⟩ := hedit _ (inodeAt_bounded sb v.view ino)
  obtain ⟨hw, hnames⟩ := h.toTidy.store_attrs hg hv h1 (by rw [h2]; exact hlive) h2 h3 h4 h5
  simp only [wp_bind]
  exact wp_iput h.toShape _ hv
    (fun _ => by simp) fun _ => ⟨hw, by rw [TreeOk, hnames]; exact h.tree⟩

include hg hs h in
theorem KfsCall.wp_body_tree (c : KfsCall)
    (htrunc : ∀ ino mtime, c = .truncate ino mtime → inoValid sb ino.toNat →
      (inodeAt sb v.view ino.toNat).type = 1) :
    c.body.wp may (fun r w => c.ok r → Orderly may sb w) v := by
  refine KfsCall.wp_body_of_parts
    { write := fun _ _ buf _ mtime _ => wp_writeLocked_tree hg h _ _ buf _ mtime.toNat_lt
      create := fun path mode _ _ _ => wp_createLocked_tree hg hs h path mode
      mkdir := fun path mode _ _ _ => wp_mkdirLocked_tree hg hs h path mode
      unlink := fun path _ => wp_unlinkLocked_tree hg hs h path
      truncate := fun ino mtime hc => ?_
      edit := fun ino _ hedit => wp_editInode_tree hg h ino hedit }
  refine wp_truncateLocked hg h.toTxOk mtime.toNat_lt (fun w => by simp) fun hv w ht _ => ?_
  have htype := htrunc ino mtime hc hv
  have hfile : FileOnly may sb ino.toNat v w := ⟨ht.ok, ht.only, by rw [ht.self, ← htype]; rfl⟩
  exact hfile.orderly h htype

end

end

section

variable {fs : InstId} {dev : DevId} {s t : Driver}

/-- Free inodes are zero, directories are whole, and the tree is well formed. -/
structure InOrder (sb : KfsSuperblock) (view : Nat → Block) : Prop where
  inode : ∀ ino, inoValid sb ino = true → TidyInode sb view ino
  tree : TreeOk sb view

theorem InOrder.clean {sb : KfsSuperblock} {view : Nat → Block} (h : InOrder sb view) :
    FreeClean sb view := by
  intro ino hv htype slot
  rw [ptrOf, (h.inode ino hv).zero htype]
  cases slot with
  | none => rfl
  | some n => simp [ptr, KfsInode.zero, KfsInode.directAt]

theorem InOrder.outside {sb sb' : KfsSuperblock} {view view' : Nat → Block} {free : Nat}
    (hg : Geometry sb) (hl : SameLayout sb sb') (hacc : Accounted sb view free)
    (h : InOrder sb view) (heq : ∀ b, ¬ InJournal sb b → view' b = view b) : InOrder sb' view' := by
  obtain ⟨-, hsame⟩ := hacc.outside hg heq
  have hzero : inoValid sb 0 = false := by simp [inoValid]
  have hnames : namesOf sb view' = namesOf sb view := by
    refine (hacc.only_outside hg heq 0).names ?_ (fun _ _ => rfl) (fun k => ?_) fun _ _ _ => rfl
    · simp [namesOf, hzero]
    · simp [namesOf, hzero]
  rw [hl]
  refine ⟨fun ino hv => ?_, ?_⟩
  · have ht := (h.inode ino hv).congr (hsame ino hv).1 (hsame ino hv).2
    exact ⟨ht.zero, ht.whole, ht.mapped⟩
  have ht := h.tree
  rw [TreeOk, ← hnames] at ht
  exact ht

def KfsCall.OnFile (fs : InstId) (c : KfsCall) (s : Driver) : Prop :=
  ∀ ino mtime, c = .truncate ino mtime → inoValid (s.instances fs).sb ino.toNat = true →
    (inodeAt (s.instances fs).sb (home s fs) ino.toNat).type = 1

def CallsOnFiles (fs : InstId) : List KfsCall → Driver → Prop
  | [], _ => True
  | c :: cs, s => c.OnFile fs s ∧ CallsOnFiles fs cs (c.run fs s).2

theorem KfsCall.run_inOrder (h : Serving fs dev s)
    (hs : Sound (s.instances fs).sb (home s fs)) (ho : InOrder (s.instances fs).sb (home s fs))
    (hio : ∀ k lba, s.io k dev lba = .ok) (c : KfsCall) (hc : c.OnFile fs s) :
    InOrder ((c.run fs s).2.instances fs).sb (home (c.run fs s).2 fs) := by
  have hg := h.geometry hs.blocks.hi_cap
  have hstart : Orderly (readOr (s.instances fs).sb False) (s.instances fs).sb (startView fs s) :=
    ⟨⟨(h.start hs.accounted hs.clean).toTxOk, ho.inode⟩, ho.tree⟩
  rcases c.run_cases h (h.allows fun _ _ hb => h.attached.readsOk hio hb) (fun _ hw => hw.toTxOk)
    (c.wp_body_tree hg id hstart hc) False.elim (fun k _ => hio k) with
    hsame | ⟨hu, -⟩ | ⟨v, hdone, hv⟩
  · rw [hsame]
    exact ho
  · rw [hu.instances]
    exact ho.outside hg (.refl _) hs.accounted hu.home
  · rw [hdone.inst]
    exact InOrder.outside hg hdone.layout hv.ledger ⟨hv.inode, hv.tree⟩ hdone.home

/-- From a sound file system in order and without device errors, after any calls that truncate only
regular files: the directory entries form a tree, and free inodes are zero. -/
theorem runAll_tree (h : Serving fs dev s)
    (hblocks : BlocksAccounted (s.instances fs).sb (home s fs) (s.instances fs).sb.freeBlocks)
    (hinodes : ∀ ino, inoValid (s.instances fs).sb ino = true →
      TidyInode (s.instances fs).sb (home s fs) ino)
    (htree : (namesOf (s.instances fs).sb (home s fs)).WellFormed dotName dotDotName
      (s.instances fs).sb.rootIno)
    (hio : ∀ k lba, s.io k dev lba = .ok) (cs : List KfsCall) (hcs : CallsOnFiles fs cs s) :
    (namesOf ((runAll fs cs s).instances fs).sb (home (runAll fs cs s) fs)).WellFormed dotName
        dotDotName ((runAll fs cs s).instances fs).sb.rootIno ∧
      ∀ ino, inoValid ((runAll fs cs s).instances fs).sb ino = true →
        TidyInode ((runAll fs cs s).instances fs).sb (home (runAll fs cs s) fs) ino := by
  have ho : InOrder (s.instances fs).sb (home s fs) := ⟨hinodes, htree⟩
  have hs : Sound (s.instances fs).sb (home s fs) := ⟨hblocks, ho.clean⟩
  clear hblocks hinodes htree
  induction cs generalizing s with
  | nil => exact ⟨ho.tree, ho.inode⟩
  | cons c cs ih =>
    obtain ⟨h', hs', hio'⟩ := c.run_ok h hs hio
    exact ih h' hio' hcs.2 (c.run_inOrder h hs ho hio hcs.1) hs'

end

/-- A root directory in block 36 and the file "f", whose data is in block `p`. -/
def oneFile (p : Nat) : List (Nat × KfsInode) :=
  [(2, ⟨1, 420, 192, 0, 0, 0, fun i => if i = 0 then p else 0, 0⟩),
    (1, ⟨2, 493, 192, 0, 0, 0, fun i => if i = 0 then 36 else 0, 0⟩)]

def oneFileData (b : Nat) : Block :=
  if b = 36 then direntsOf [⟨1, dotName⟩, ⟨1, dotDotName⟩, ⟨2, [102]⟩] else Block.zero

abbrev oneFileImage (p : Nat) : Nat → Block := smallImage 40 38 (oneFile p) oneFileData

section OneFile

variable {p : Nat} (hp : p < 4294967296)

theorem slotOf_oneFile (ino : Nat) :
    slotOf (oneFile p) ino = if ino = 2 then
      ⟨1, 420, 192, 0, 0, 0, fun i => if i = 0 then p else 0, 0⟩
      else if ino = 1 then ⟨2, 493, 192, 0, 0, 0, fun i => if i = 0 then 36 else 0, 0⟩
      else KfsInode.zero := by
  by_cases h2 : ino = 2
  · subst h2
    rfl
  by_cases h1 : ino = 1
  · subst h1
    rfl
  · simp [slotOf, oneFile, h1, h2, Ne.symm h1, Ne.symm h2]

include hp

theorem oneFile_bounded : ∀ q ∈ oneFile p, q.2.Bounded := by
  intro q hq
  simp only [oneFile, List.mem_cons, List.not_mem_nil, or_false] at hq
  rcases hq with rfl | rfl
  · refine ⟨by simp, by simp, by simp, by simp, by simp, by simp, fun i => ?_, by simp⟩
    simp only
    split <;> omega
  · decide

theorem oneFile_inodeAt {ino : Nat} (hv : inoValid (smallSb 40 2) ino) :
    inodeAt (smallSb 40 2) (oneFileImage p) ino =
      slotOf (oneFile p) ino :=
  smallImage_inodeAt (by simp [oneFile]) (oneFile_bounded hp) hv

theorem oneFile_tidy (ino : Nat) (hv : inoValid (smallSb 40 2) ino) :
    TidyInode (smallSb 40 2) (oneFileImage p) ino := by
  have hat := oneFile_inodeAt hp hv
  rw [slotOf_oneFile] at hat
  by_cases h2 : ino = 2
  · rw [if_pos h2] at hat
    exact ⟨by simp [hat], by simp [hat], by simp [hat]⟩
  rw [if_neg h2] at hat
  by_cases h1 : ino = 1
  · rw [if_pos h1] at hat
    refine ⟨by simp [hat], by simp [hat], fun _ n hn => ?_⟩
    have hn0 : n = 0 := by
      rw [hat] at hn
      simp only [blocksFor] at hn
      omega
    simp [ptrOf, hat, ptr, hn0, KfsInode.directAt]
  · rw [if_neg h1] at hat
    exact ⟨fun _ => hat, by simp [hat, KfsInode.zero], by simp [hat, KfsInode.zero]⟩

theorem oneFile_kind (i : Nat) : (namesOf (smallSb 40 2) (oneFileImage p)).kind i =
      if i = 1 then .dir else if i = 2 then .file else .free := by
  by_cases hv : inoValid (smallSb 40 2) i = true
  · simp only [namesOf, hv, if_true, oneFile_inodeAt hp hv, slotOf_oneFile]
    by_cases h2 : i = 2
    · simp [h2, kindOf]
    by_cases h1 : i = 1
    · simp [h1, kindOf]
    · simp [h1, h2, kindOf, KfsInode.zero]
  · simp only [namesOf, if_neg hv]
    rw [inoValid_small] at hv
    rw [if_neg (by omega), if_neg (by omega)]

theorem oneFile_entry (d k : Nat) : (namesOf (smallSb 40 2) (oneFileImage p)).entry d k =
      if d = 1 then
        if k = 0 then some (dotName, 1) else if k = 1 then some (dotDotName, 1)
        else if k = 2 then some ([102], 2) else none
      else none := by
  have hkind := oneFile_kind hp d
  by_cases h1 : d = 1
  · subst h1
    rw [if_pos rfl] at hkind
    obtain ⟨hv, -⟩ := namesOf_dir.mp hkind
    have hat := oneFile_inodeAt hp hv
    rw [slotOf_oneFile, if_neg (by decide), if_pos rfl] at hat
    have hbyte : ∀ i < 192, fileByte (smallSb 40 2) (oneFileImage p) 1 i =
        (oneFileData 36).byte i := by
      intro i hi
      have hptr : ptrOf (smallSb 40 2) (oneFileImage p) 1
          (some (i / 4096)) = 36 := by
        simp [ptrOf, hat, ptr, show i / 4096 = 0 by omega, KfsInode.directAt]
      rw [fileByte, hptr, Nat.mod_eq_of_lt (by omega)]
      rfl
    have hentry : ∀ k < 3, entryAt (smallSb 40 2) (oneFileImage p) 1 k =
        KfsDirent.ofBytes (oneFileData 36).byte (64 * k) := by
      intro k hk
      exact KfsDirent.ofBytes_congr _ _ _ _ fun i hi => hbyte _ (by omega)
    by_cases hk : k < 3
    · simp only [namesOf, hv, hat, hentry k hk, hk]
      revert k
      decide +kernel
    have : ¬ k < 192 / 64 := by omega
    simp only [namesOf, hat, this, false_and, and_false, if_false, if_true]
    rw [if_neg (by omega), if_neg (by omega), if_neg (by omega)]
  · have hne : ¬ (inoValid (smallSb 40 2) d ∧
        (inodeAt (smallSb 40 2) (oneFileImage p) d).type = 2) := by
      rw [← namesOf_dir, hkind, if_neg h1]
      split <;> simp
    simp only [namesOf, if_neg h1]
    rw [if_neg fun hd => hne ⟨hd.1, hd.2.1⟩]

theorem oneFile_tree :
    (namesOf (smallSb 40 2) (oneFileImage p)).WellFormed dotName dotDotName 1 := by
  have hnames : namesOf (smallSb 40 2) (oneFileImage p) =
      (DirTree.alone dotName dotDotName 1 0 1).addFile 1 2 [102] 2 := by
    apply DirTree.ext
    · funext i
      rw [oneFile_kind hp]
      simp only [DirTree.addFile, DirTree.alone, DirTree.setEntry_kind, DirTree.setKind_kind]
      grind
    · funext d k
      rw [oneFile_entry hp]
      simp only [DirTree.addFile, DirTree.alone, DirTree.setEntry_entry, DirTree.setKind_entry]
      grind
  rw [hnames]
  refine (DirTree.alone_wellFormed (by decide) (by decide)).addFile rfl rfl rfl fun j m => ?_
  simp only [DirTree.alone]
  split_ifs <;> simp [dotName, dotDotName]

end OneFile

theorem oneFile_laid : Laid 38 (oneFile 37) := by
  constructor <;> decide

theorem runAll_tree_oneFile :
    let t := runAll 0 [.mkdir (some ⟨[47, 100], by decide⟩) 493 0 0 0, .truncate 2 7,
      .unlink (some ⟨[47, 102], by decide⟩) 9] (smallFs 40 38 (oneFile 37) oneFileData)
    (namesOf (t.instances 0).sb (home t 0)).WellFormed dotName dotDotName
      (t.instances 0).sb.rootIno := by
  have hsound := @smallFs_sound 40 38 (oneFile 37) oneFileData oneFile_laid (by decide) (by decide)
    (by decide) (by decide)
  refine (@runAll_tree 0 0 (smallFs 40 38 (oneFile 37) oneFileData)
    (smallFs_serving (by decide) (by decide) (by decide) (by decide)) hsound.blocks ?_ ?_
    (fun _ _ => rfl) _ ?_).1
  · rw [smallFs_image]
    exact oneFile_tidy (by decide)
  · rw [smallFs_image]
    exact oneFile_tree (by decide)
  refine ⟨fun _ _ h => by simp at h, ?_, fun _ _ h => by simp at h, trivial⟩
  intro ino mtime h _
  cases h
  decide +kernel

/-- Zeros over the first 64 bytes of inode 2. -/
def zeroStart : List KfsCall := [.write 2 0 (some fun _ => 0) 64 0]

/-- The data block of the file is the root directory's own block: the tree is well formed, but a
write to the file overwrites the entry "." of the root. -/
theorem runAll_shared_block :
    let s := smallFs 40 38 (oneFile 36) oneFileData
    let t := runAll 0 zeroStart s
    Serving 0 0 s ∧ (∀ k lba, s.io k 0 lba = .ok) ∧
      (namesOf (s.instances 0).sb (home s 0)).WellFormed dotName dotDotName
        (s.instances 0).sb.rootIno ∧
      (∀ ino, inoValid (s.instances 0).sb ino = true →
        TidyInode (s.instances 0).sb (home s 0) ino) ∧
      CallsOnFiles 0 zeroStart s ∧
      ¬ (namesOf (t.instances 0).sb (home t 0)).WellFormed dotName dotDotName
        (t.instances 0).sb.rootIno := by
  refine ⟨smallFs_serving (by decide) (by decide) (by decide) (by decide), fun _ _ => rfl, ?_, ?_,
    ⟨fun _ _ h => by simp at h, trivial⟩, fun h => ?_⟩
  · rw [smallFs_image]
    exact oneFile_tree (by decide)
  · rw [smallFs_image]
    exact oneFile_tidy (by decide)
  have hsb : ((runAll 0 zeroStart (smallFs 40 38 (oneFile 36) oneFileData)).instances 0).sb =
      smallSb 40 2 := rfl
  have hslots : ∀ k < 3, (namesOf (smallSb 40 2)
      (home (runAll 0 zeroStart (smallFs 40 38 (oneFile 36) oneFileData)) 0)).entry 1 k ≠
        some (dotName, 1) := by decide +kernel
  have hsize : (inodeAt (smallSb 40 2)
      (home (runAll 0 zeroStart (smallFs 40 38 (oneFile 36) oneFileData)) 0) 1).size = 192 := by
    decide +kernel
  rw [hsb] at h
  obtain ⟨k, hk⟩ := h.self 1 h.rootDir
  by_cases hlt : k < 3
  · exact hslots k hlt hk
  · have hend : ¬ k < 192 / 64 := by omega
    simp [namesOf, hsize, hend] at hk

end KestrelOS.Kfs
