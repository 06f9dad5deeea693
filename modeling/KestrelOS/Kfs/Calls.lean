import KestrelOS.Kfs.Files

/-!
# Invariants of the calls

A call takes a free inode, gives one back, edits the attributes of one, truncates one, or writes a
chunk of file data. A predicate kept by each of these is kept by every call that is not aborted.
-/

namespace KestrelOS.Kfs

open TxProg (wp_bind wp_pure wp_mono wp_trivial)

variable {may : ReadRule Block} {sb : KfsSuperblock}
  {v : View}

def blocksFor (size : Nat) : Nat := (size + 4095) / 4096

theorem wp_iget_sure (hs : ¬ may.fallible) (h : Shape may sb v) (ino : Nat)
    {Q : Option KfsInode → View → Prop} (hbad : inoValid sb ino = false → Q none v)
    (hgood : inoValid sb ino → Q (some (inodeAt sb v.view ino)) v) : (iget ino).wp may Q v :=
  wp_iget h ino (fun hno => hbad (hno.resolve_right hs)) hgood

theorem wp_writeLocked (h : Shape may sb v) {ino off n mtime : Nat} {buf : Bytes}
    {Q : Int → View → Prop} (hbad : Q (-1) v)
    (hgood : inoValid sb ino → (inodeAt sb v.view ino).type = 1 →
      (writei ino off buf n mtime).wp may Q v) : (writeLocked ino off buf n mtime).wp may Q v := by
  simp only [writeLocked, wp_bind]
  refine wp_iget h ino (fun _ => hbad) fun hv => ?_
  dsimp only
  split
  · rename_i htype
    exact hgood hv htype
  · exact hbad

structure Stable (may : ReadRule Block) (sb : KfsSuperblock)
    (I : TxView Block KfsMem → Prop) : Prop where
  ok : ∀ v, I v → TxOk may sb v
  alloc : ∀ v ino (ip : KfsInode), I v → inoValid sb ino = true → (inodeAt sb v.view ino).type = 0 →
    ip.Bounded → ip.type ≠ 0 → ip.size = 0 → (∀ i, ip.direct i = 0) → ip.indirect = 0 →
    I (store v ino ip)
  release : ∀ v ino, I v → inoValid sb ino = true → (inodeAt sb v.view ino).size = 0 →
    (∀ slot, ptrOf sb v.view ino slot = 0) → I (store v ino KfsInode.zero)
  attrs : ∀ v ino (ip : KfsInode), I v → inoValid sb ino = true → ip.Bounded →
    ip.type = (inodeAt sb v.view ino).type → ip.size = (inodeAt sb v.view ino).size →
    ip.direct = (inodeAt sb v.view ino).direct → ip.indirect = (inodeAt sb v.view ino).indirect →
    I (store v ino ip)
  truncated : ∀ v w ino mtime, I v → inoValid sb ino = true → Truncated may sb v w ino mtime → I w
  wrote : ∀ v w ino pos len data, I v → inoValid sb ino = true →
    (inodeAt sb v.view ino).type ≠ 0 → 0 < len → pos % 4096 + len ≤ 4096 →
    pos / 4096 ≤ blocksFor (inodeAt sb v.view ino).size →
    Wrote may sb ino pos len data v w → I w

/-- An edit that keeps the type, the size and the pointers. -/
def AttrsOnly (edit : KfsInode → KfsInode) : Prop :=
  ∀ ip : KfsInode, ip.Bounded → (edit ip).Bounded ∧ (edit ip).type = ip.type ∧
    (edit ip).size = ip.size ∧ (edit ip).direct = ip.direct ∧ (edit ip).indirect = ip.indirect

structure Parts (may : ReadRule Block) (I : TxView Block KfsMem → Prop)
    (c : KfsCall) (v : TxView Block KfsMem) : Prop where
  write : ∀ ino off buf n mtime, c = .write ino off (some buf) n mtime →
    (writeLocked ino.toNat off.toNat buf n.toNat mtime.toNat).wp may (fun r w => 0 ≤ r → I w) v
  create : ∀ path mode uid gid mtime, uid < 4294967296 → gid < 4294967296 → mtime < 4294967296 →
    (createLocked path mode uid gid mtime).wp may (fun r w => 0 ≤ r → I w) v
  mkdir : ∀ path mode uid gid mtime, uid < 4294967296 → gid < 4294967296 → mtime < 4294967296 →
    (mkdirLocked path mode uid gid mtime).wp may (fun r w => r = 0 → I w) v
  unlink : ∀ path mtime, mtime < 4294967296 →
    (unlinkLocked path mtime).wp may (fun r w => r = 0 → I w) v
  truncate : ∀ ino mtime, c = .truncate ino mtime →
    (truncateLocked ino.toNat mtime.toNat).wp may (fun r w => r = 0 → I w) v
  edit : ∀ ino edit, AttrsOnly edit → (editInode ino edit).wp may (fun r w => 0 ≤ r → I w) v

theorem KfsCall.wp_body_of_parts {I : View → Prop} {c : KfsCall}
    (h : Parts may I c v) : c.body.wp may (fun r w => c.ok r → I w) v := by
  have hlt : ∀ n : UInt32, n.toNat < 4294967296 := fun n => n.toNat_lt
  have hnonneg : ∀ r, nonneg r = true → 0 ≤ r := fun r hr => by simpa [nonneg] using hr
  have hzero : ∀ r, isZero r = true → r = 0 := fun r hr => by simpa [isZero] using hr
  cases c with
  | write ino off buf n mtime =>
    cases buf with
    | none => simp [KfsCall.body, KfsCall.ok, nonneg]
    | some buf =>
      exact wp_mono _ (h.write ino off buf n mtime rfl) fun r w hr hok => hr (hnonneg r hok)
  | create path mode uid gid mtime =>
    exact wp_mono _ (h.create path _ _ _ _ (hlt uid) (hlt gid) (hlt mtime))
      fun r w hr hok => hr (hnonneg r hok)
  | mkdir path mode uid gid mtime =>
    exact wp_mono _ (h.mkdir path _ _ _ _ (hlt uid) (hlt gid) (hlt mtime))
      fun r w hr hok => hr (hzero r hok)
  | unlink path mtime =>
    exact wp_mono _ (h.unlink path _ (hlt mtime)) fun r w hr hok => hr (hzero r hok)
  | truncate ino mtime =>
    exact wp_mono _ (h.truncate ino mtime rfl) fun r w hr hok => hr (hzero r hok)
  | chmod ino mode mtime =>
    refine wp_mono _ (h.edit _ _ fun ip hb => ⟨?_, rfl, rfl, rfl, rfl⟩)
      fun r w hr hok => hr (hzero r hok).ge
    exact ⟨hb.type, by simp only; omega, hb.size, hb.uid, hb.gid, hlt mtime, hb.direct, hb.indirect⟩
  | chown ino uid gid mtime =>
    refine wp_mono _ (h.edit _ _ fun ip hb => ⟨?_, rfl, rfl, rfl, rfl⟩)
      fun r w hr hok => hr (hzero r hok).ge
    exact ⟨hb.type, hb.mode, hb.size, hlt uid, hlt gid, hlt mtime, hb.direct, hb.indirect⟩

section Lookup

variable (h : TxOk may sb v)

theorem wp_scanDir_any (dir : Nat) (hit : KfsDirent → Bool) (n off : Nat)
    {Q : DirScan → View → Prop}
    (hQ : ∀ r, (∀ o de, r = .found o de → o + 64 ≤ off + 64 * n) → Q r v) :
    (scanDir dir hit n off).wp may Q v := by
  induction n generalizing off with
  | zero => exact hQ _ (by simp)
  | succ n ih =>
    simp only [scanDir, wp_bind]
    refine (readDirent_noWrites dir off).wp fun r => ?_
    cases r with
    | none => exact hQ _ (by simp)
    | some de =>
      dsimp only
      split
      · refine hQ _ fun o de' heq => ?_
        simp only [DirScan.found.injEq] at heq
        omega
      refine ih (off + 64) fun r hr => hQ r fun o de' heq => ?_
      have := hr o de' heq
      omega

include h in
theorem wp_dirLookup_any (dir : Nat) (name : List UInt8) {Q : Nat × Nat → View → Prop}
    (hQ : ∀ r, (r.1 ≠ 0 → r.2 + 64 ≤ (inodeAt sb v.view dir).size) → Q r v) :
    (dirLookup dir name).wp may Q v := by
  simp only [dirLookup, wp_bind]
  refine wp_iget h.toShape dir (fun _ => hQ _ (by simp)) fun hv => ?_
  dsimp only
  split
  · exact hQ _ (by simp)
  simp only [wp_bind]
  refine wp_scanDir_any _ _ _ _ fun r hr => ?_
  cases r with
  | found o de =>
    refine hQ _ fun _ => ?_
    have := hr o de rfl
    simp only
    omega
  | failed => exact hQ _ (by simp)
  | ended => exact hQ _ (by simp)

/-- A component of a path: a C string that fits an entry. -/
def NameOk (name : List UInt8) : Prop := name.length ≤ 59 ∧ (0 : UInt8) ∉ name

theorem pathNext_nameOk {p name rest : List UInt8} (hp : (0 : UInt8) ∉ p)
    (h : pathNext p = .comp name rest) : NameOk name ∧ (0 : UInt8) ∉ rest := by
  have hdrop : (0 : UInt8) ∉ p.dropWhile (· == slash) :=
    fun hm => hp ((List.dropWhile_sublist _).mem hm)
  simp only [pathNext] at h
  split at h
  · simp at h
  split at h
  · simp at h
  rename_i hlen
  simp only [PathStep.comp.injEq] at h
  obtain ⟨rfl, rfl⟩ := h
  exact ⟨⟨by omega, fun hm => hdrop ((List.takeWhile_sublist _).mem hm)⟩,
    fun hm => hdrop ((List.dropWhile_sublist _).mem hm)⟩

/-- The root, or an inode that was found to be a directory. -/
def WalkedTo (sb : KfsSuperblock) (view : Nat → Block) (ino : Nat) : Prop :=
  ino = sb.rootIno ∨ inoValid sb ino = true ∧ (inodeAt sb view ino).type = 2

/-- What `lookup_parent` returns: a failure, or a directory, and a name that fits an entry. -/
def ParentFound (sb : KfsSuperblock) (view : Nat → Block) (r : Int × List UInt8) : Prop :=
  NameOk r.2 ∧ (0 ≤ r.1 → WalkedTo sb view r.1.toNat)

theorem parentFound_failed : ParentFound sb v.view (-1, []) :=
  ⟨⟨by simp, by simp⟩, fun h => by simp at h⟩

theorem asInt_toNat {n : Nat} (h : 0 ≤ asInt n) (hn : n < 4294967296) : (asInt n).toNat = n := by
  unfold asInt at h ⊢
  split <;> omega

variable {Q : Int × List UInt8 → View → Prop}

include h in
theorem wp_lookupParentFrom_any (hg : Geometry sb) (n : Nat) {cur : Nat} {comp p : List UInt8}
    (hcur : WalkedTo sb v.view cur) (hc : NameOk comp) (hp : (0 : UInt8) ∉ p)
    (hQ : ∀ r, ParentFound sb v.view r → Q r v) : (lookupParentFrom n cur comp p).wp may Q v := by
  induction n generalizing cur comp p with
  | zero => exact hQ _ parentFound_failed
  | succ n ih =>
    unfold lookupParentFrom
    split
    · refine hQ _ ⟨hc, fun hpos => ?_⟩
      have hlt : cur < 4294967296 := by
        rcases hcur with rfl | ⟨hv, -⟩
        · rw [hg.rootIno]
          decide
        · exact (hg.ino_lt hv).2
      simpa only [asInt_toNat hpos hlt] using hcur
    · simp only [wp_bind]
      refine wp_dirLookup_any h _ _ fun r _ => ?_
      split
      · exact hQ _ parentFound_failed
      simp only [wp_bind]
      refine wp_iget h.toShape _ (fun _ => hQ _ parentFound_failed) fun hv => ?_
      dsimp only
      split
      · exact hQ _ parentFound_failed
      rename_i htype
      split
      · rename_i hnext
        obtain ⟨hc', hp'⟩ := pathNext_nameOk hp hnext
        exact ih (.inr ⟨hv, by simpa using htype⟩) hc' hp'
      · exact hQ _ parentFound_failed

include h in
theorem wp_lookupParent_any (hg : Geometry sb) (path : Option CString)
    (hQ : ∀ r, ParentFound sb v.view r → Q r v) : (lookupParent path).wp may Q v := by
  simp only [lookupParent, wp_bind, Tx.wp_live]
  split
  · rename_i p habs
    have hp : (0 : UInt8) ∉ p := by
      unfold absolute at habs
      split at habs
      · split at habs
        · cases habs
          exact CString.nul _
        · simp at habs
      · simp at habs
    simp only [if_true, wp_bind, Tx.wp_load]
    split
    · rename_i hnext
      obtain ⟨hc, hrest⟩ := pathNext_nameOk hp hnext
      exact wp_lookupParentFrom_any h hg _ (.inl h.layout.fields.2.2.2.2.2.2) hc hrest hQ
    · exact hQ _ parentFound_failed
  · exact hQ _ parentFound_failed

end Lookup

section Steps

variable {I : View → Prop} (hg : Geometry sb) (hI : Stable may sb I)

include hI in
theorem wp_editInode (h : I v) (ino : Nat) {edit : KfsInode → KfsInode} (hedit : AttrsOnly edit) :
    (editInode ino edit).wp may (fun r w => 0 ≤ r → I w) v := by
  simp only [editInode, wp_bind]
  refine wp_iget (hI.ok v h).toShape ino (fun _ => by simp) fun hv => ?_
  dsimp only
  split
  · simp
  obtain ⟨h1, h2, h3, h4, h5⟩ := hedit _ (inodeAt_bounded sb v.view ino)
  simp only [wp_bind]
  exact wp_iput (hI.ok v h).toShape _ hv (fun _ => by simp) fun _ =>
    hI.attrs v ino _ h hv h1 h2 h3 h4 h5

include hI in
theorem wp_iallocFrom (h : I v) {fresh : KfsInode} (hb : fresh.Bounded) (ht : fresh.type ≠ 0)
    (hs : fresh.size = 0) (hd : ∀ i, fresh.direct i = 0) (hi : fresh.indirect = 0) (n i : Nat) :
    (iallocFrom fresh n i).wp may (fun r w => r ≠ 0 → I w) v := by
  induction n generalizing i with
  | zero => simp [iallocFrom]
  | succ n ih =>
    simp only [iallocFrom, wp_bind]
    refine wp_iget (hI.ok v h).toShape i (fun _ => by simp) fun hv => ?_
    dsimp only
    split
    · rename_i htype
      simp only [wp_bind]
      exact wp_iput (hI.ok v h).toShape _ hv (fun _ => by simp) fun _ =>
        hI.alloc v i _ h hv htype hb ht hs hd hi
    · exact ih (i + 1)

variable {gid ino mtime uid : Nat} {w : View}

include hI in
theorem wp_ialloc (h : I v) {type : Nat} (ht : type = 1 ∨ type = 2) (mode : Nat)
    (hu : uid < 4294967296) (hgid : gid < 4294967296) (hm : mtime < 4294967296) :
    (ialloc type mode uid gid mtime).wp may (fun r w => r ≠ 0 → I w) v := by
  simp only [ialloc, wp_bind, Tx.wp_load]
  refine wp_iallocFrom hI h ⟨?_, ?_, by simp, hu, hgid, hm, by simp, by simp⟩ ?_ rfl
    (fun _ => rfl) rfl
    _ _
  · simp only
    omega
  · simp only
    omega
  · simp only
    omega

/-- While a write runs, the chunks done so far have grown the file up to the position. -/
def Writing (I : TxView Block KfsMem → Prop) (sb : KfsSuperblock) (ino off done : Nat)
    (w : TxView Block KfsMem) : Prop :=
  I w ∧ (inodeAt sb w.view ino).type ≠ 0 ∧
    (off + done) / 4096 ≤ blocksFor (inodeAt sb w.view ino).size

theorem Writing.attrs {off done : Nat} (hI : Stable may sb I) (hv : inoValid sb ino)
    (h : Writing I sb ino off done w) (hm : mtime < 4294967296) :
    I (store w ino { inodeAt sb w.view ino with mtime := mtime }) :=
  hI.attrs w ino _ h.1 hv (mtime_bounded (inodeAt_bounded sb w.view ino) hm) rfl rfl rfl rfl

include hI in
theorem Writing.step {ino off n done : Nat} {buf : Bytes} {v w : View}
    (hv : inoValid sb ino) (h : Writing I sb ino off done v) (hlt : done < n)
    (hw : Wrote may sb ino (off + done) (chunkLen (off + done) (n - done))
      (fun i => buf (i - off)) v w) :
    Writing I sb ino off (done + chunkLen (off + done) (n - done)) w := by
  obtain ⟨h1, h2, h3⟩ := h
  have hpos := chunkLen_pos (off + done) (n - done) (by omega)
  have hle := chunkLen_le (off + done) (n - done)
  refine ⟨hI.wrote v w ino _ _ _ h1 hv h2 hpos hle.2 h3 hw, ?_, ?_⟩
  · rw [hw.attrs]
    exact h2
  rw [hw.attrs]
  simp only [blocksFor]
  omega

include hI in
theorem wp_ifree_stable (hv : inoValid sb ino) (h : I w) (ht : Truncated may sb v w ino mtime) :
    (ifree ino).wp may (fun _ w' => I w') w := by
  simp only [ifree, wp_bind]
  refine wp_iput ht.ok.toShape _ hv (fun _ => h) (hI.release w ino h hv ?_ fun slot => ?_)
  · rw [ht.self]
    rfl
  · rw [ptrOf, ht.self, ptr_emptied]

include hg hI

theorem wp_writei_whole (h : I v) {off n : Nat} {buf : Bytes} (hm : mtime < 4294967296) (hn : 0 < n)
    (hoff : off ≤ (inodeAt sb v.view ino).size) :
    (writei ino off buf n mtime).wp may (fun r w => r = n → I w) v := by
  refine wp_writei hg (I := fun done w => inoValid sb ino ∧
    Writing I sb ino off done w) ?_ ?_ (hI.ok v h) ?_ ?_ ?_ ?_
  · exact fun _ w hw => hI.ok w hw.2.1
  · exact fun done w w' hw hlt hwr => ⟨hw.1, Writing.step hI hw.1 hw.2 hlt hwr⟩
  · intro w hneg
    omega
  · intro hz
    omega
  · intro hv htype _
    refine ⟨hv, h, htype, ?_⟩
    simp only [blocksFor]
    omega
  · intro hv _ _ done w _ hend heq
    have hdone : done = n := by omega
    subst hdone
    cases hend with
    | all _ hw => exact hw.2.attrs hI hv hm
    | full _ _ _ hlt => omega
    | half _ _ _ _ _ hlt => omega
    | unread _ _ _ _ _ hlt => omega

theorem wp_dirAdd_stable (h : I v) (dir : Nat) (name : List UInt8) (ino : Nat)
    (hm : mtime < 4294967296) : (dirAdd dir name ino mtime).wp may (fun r w => 0 ≤ r → I w) v := by
  have hwrite : ∀ slot, slot ≤ (inodeAt sb v.view dir).size →
      (writei dir slot (KfsDirent.toBytes ⟨ino, name⟩) 64 mtime).wp may
        (fun r w => 0 ≤ (if r = 64 then 0 else -1 : Int) → I w) v := by
    intro slot hslot
    refine wp_mono _ (wp_writei_whole hg hI h hm (by omega) hslot) fun r w hr hpos => hr ?_
    split at hpos
    · assumption
    · omega
  simp only [dirAdd, wp_bind]
  refine wp_iget (hI.ok v h).toShape dir (fun _ => by simp) fun hv => ?_
  dsimp only
  split
  · simp
  simp only [wp_bind]
  refine wp_scanDir_any _ _ _ _ fun r hr => ?_
  cases r with
  | found o de =>
    have := hr o de rfl
    simp only [wp_bind, wp_pure]
    exact hwrite o (by omega)
  | failed => simp
  | ended =>
    simp only [wp_bind, wp_pure]
    exact hwrite _ (le_refl _)

theorem wp_dirRemove_stable (h : I v) (dir : Nat) (name : List UInt8) (hm : mtime < 4294967296) :
    (dirRemove dir name mtime).wp may (fun r w => 0 ≤ r → I w) v := by
  simp only [dirRemove, wp_bind]
  refine wp_dirLookup_any (hI.ok v h) _ _ fun r hr => ?_
  split
  · simp
  rename_i hfound
  have := hr hfound
  simp only [wp_bind, wp_pure]
  refine wp_mono _ (wp_writei_whole hg hI h hm (by omega) (by omega)) fun r w hw hpos => hw ?_
  split at hpos
  · assumption
  · omega

theorem wp_createLocked_stable (h : I v) (path : Option CString) (mode : Nat)
    (hu : uid < 4294967296) (hgid : gid < 4294967296) (hm : mtime < 4294967296) :
    (createLocked path mode uid gid mtime).wp may (fun r w => 0 ≤ r → I w) v := by
  simp only [createLocked, wp_bind]
  refine wp_lookupParent_any (hI.ok v h) hg _ fun r _ => ?_
  split
  · simp
  simp only [wp_bind]
  refine wp_dirLookup_any (hI.ok v h) _ _ fun r' _ => ?_
  split
  · simp
  simp only [wp_bind]
  refine wp_mono _ (wp_ialloc hI h (.inl rfl) mode hu hgid hm) fun ino w hw => ?_
  split
  · simp
  rename_i hino
  simp only [wp_bind]
  refine wp_mono _ (wp_dirAdd_stable hg hI (hw hino) _ _ _ hm) fun a w' hw' => ?_
  split
  · simp only [wp_bind]
    exact wp_trivial _ _ fun _ _ => by simp
  · rename_i ha
    exact fun _ => hw' (by omega)

theorem wp_mkdirEntries_stable (h : I v) (ino parent : Nat) (name : List UInt8)
    (hm : mtime < 4294967296) :
    (mkdirEntries ino parent name mtime).wp may (fun r w => r → I w) v := by
  simp only [mkdirEntries, wp_bind]
  refine wp_mono _ (wp_dirAdd_stable hg hI h _ _ _ hm) fun a w hw => ?_
  split
  · simp
  rename_i ha
  simp only [wp_bind]
  refine wp_mono _ (wp_dirAdd_stable hg hI (hw (by omega)) _ _ _ hm) fun b w' hw' => ?_
  split
  · simp
  rename_i hb
  simp only [wp_bind]
  refine wp_mono _ (wp_dirAdd_stable hg hI (hw' (by omega)) _ _ _ hm) fun c w'' hw'' => ?_
  split
  · simp
  · rename_i hc
    exact fun _ => hw'' (by omega)

theorem wp_mkdirLocked_stable (h : I v) (path : Option CString) (mode : Nat) (hu : uid < 4294967296)
    (hgid : gid < 4294967296) (hm : mtime < 4294967296) :
    (mkdirLocked path mode uid gid mtime).wp may (fun r w => r = 0 → I w) v := by
  simp only [mkdirLocked, wp_bind]
  refine wp_lookupParent_any (hI.ok v h) hg _ fun r _ => ?_
  split
  · simp
  simp only [wp_bind]
  refine wp_dirLookup_any (hI.ok v h) _ _ fun r' _ => ?_
  split
  · simp
  simp only [wp_bind]
  refine wp_mono _ (wp_ialloc hI h (.inr rfl) mode hu hgid hm) fun ino w hw => ?_
  split
  · simp
  rename_i hino
  simp only [wp_bind]
  refine wp_mono _ (wp_mkdirEntries_stable hg hI (hw hino) _ _ _ hm) fun a w' hw' => ?_
  split
  · rename_i ha
    exact fun _ => hw' ha
  · simp only [wp_bind]
    exact wp_trivial _ _ fun _ _ => wp_trivial _ _ fun _ _ => by simp

theorem wp_unlinkLocked_stable (h : I v) (path : Option CString) (hm : mtime < 4294967296) :
    (unlinkLocked path mtime).wp may (fun r w => r = 0 → I w) v := by
  simp only [unlinkLocked, wp_bind]
  refine wp_lookupParent_any (hI.ok v h) hg _ fun r _ => ?_
  split
  · simp
  split
  · simp
  simp only [wp_bind]
  refine wp_dirLookup_any (hI.ok v h) _ _ fun r' _ => ?_
  split
  · simp
  simp only [wp_bind]
  refine wp_iget (hI.ok v h).toShape _ (fun _ => by simp) fun hv => ?_
  simp only [wp_bind]
  refine (removable_noWrites _ _).wp fun ok => ?_
  split
  · simp only [unlinkInode, wp_bind]
    refine wp_mono _ (wp_dirRemove_stable hg hI h _ _ hm) fun a w hw => ?_
    split
    · simp
    rename_i ha
    have hIw := hw (by omega)
    simp only [wp_bind]
    refine wp_truncateLocked hg (hI.ok w hIw) hm (fun _ => by simp) fun _ w' ht => ?_
    rw [if_neg (by omega)]
    simp only [wp_bind]
    exact wp_mono _ (wp_ifree_stable hI hv (hI.truncated w w' _ _ hIw hv ht) ht)
      fun _ _ hI' _ => hI'
  · simp

end Steps

/-- Every call keeps a stable predicate, if its writes of file data do. -/
theorem KfsCall.wp_body {I : View → Prop} (hg : Geometry sb) (hI : Stable may sb I)
    (c : KfsCall) (h : I v) (hwrite : ∀ ino off buf n mtime, c = .write ino off (some buf) n mtime →
      (writeLocked ino.toNat off.toNat buf n.toNat mtime.toNat).wp may (fun r w => 0 ≤ r → I w) v) :
    c.body.wp may (fun r w => c.ok r → I w) v :=
  KfsCall.wp_body_of_parts
    { write := hwrite
      create := fun path mode _ _ _ => wp_createLocked_stable hg hI h path mode
      mkdir := fun path mode _ _ _ => wp_mkdirLocked_stable hg hI h path mode
      unlink := fun path _ => wp_unlinkLocked_stable hg hI h path
      truncate := fun _ mtime _ => wp_truncateLocked hg (hI.ok v h) mtime.toNat_lt
        (fun _ => by simp) fun hv w ht _ => hI.truncated v w _ _ h hv ht
      edit := fun ino _ hedit => wp_editInode hI h ino hedit }

end KestrelOS.Kfs
