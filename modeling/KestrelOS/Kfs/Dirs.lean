import KestrelOS.Kfs.Calls
import KestrelOS.Kfs.Sound
import KestrelOS.Lib.DirTree

/-!
# Directories

The inodes and directory entries of a file system make up a `DirTree`. Each primitive of the
directory code either looks something up in that tree or changes it in one place. Reads of file
data are assumed not to fail here.
-/

namespace KestrelOS.Kfs

open List

open TxProg (wp_bind wp_pure wp_mono wp_trivial)

variable {may : ReadRule Block} {sb : KfsSuperblock} {view view' : Nat → Block}
  {v w : View}

def entryAt (sb : KfsSuperblock) (view : Nat → Block) (dir k : Nat) : KfsDirent :=
  KfsDirent.ofBytes (fileByte sb view dir) (64 * k)

def kindOf (type : Nat) : NodeKind := if type = 0 then .free else if type = 2 then .dir else .file

/-- The tree that the inodes and the live directory entries make up. -/
def namesOf (sb : KfsSuperblock) (view : Nat → Block) : DirTree Nat Nat (List UInt8) where
  kind i := if inoValid sb i = true then kindOf (inodeAt sb view i).type else .free
  entry d k :=
    if inoValid sb d = true ∧ (inodeAt sb view d).type = 2 ∧ k < (inodeAt sb view d).size / 64 ∧
        (entryAt sb view d k).ino ≠ 0 then
      some ((entryAt sb view d k).name, (entryAt sb view d k).ino)
    else none

variable {d i ino : Nat}

theorem namesOf_dir :
    (namesOf sb view).kind d = .dir ↔ inoValid sb d ∧ (inodeAt sb view d).type = 2 := by
  simp only [namesOf, kindOf]
  split
  · rename_i hv
    split
    · simp_all
    · split <;> simp_all
  · simp_all

theorem namesOf_free (hv : inoValid sb d) :
    (namesOf sb view).kind d = .free ↔ (inodeAt sb view d).type = 0 := by
  simp only [namesOf, kindOf, hv, if_true]
  split
  · simp_all
  · split <;> simp_all

/-- Free inodes are zero; directories hold whole entries and have all their blocks. -/
structure TidyInode (sb : KfsSuperblock) (view : Nat → Block) (ino : Nat) : Prop where
  zero : (inodeAt sb view ino).type = 0 → inodeAt sb view ino = KfsInode.zero
  whole : (inodeAt sb view ino).type = 2 → (inodeAt sb view ino).size % 64 = 0
  mapped : (inodeAt sb view ino).type = 2 → ∀ n < blocksFor (inodeAt sb view ino).size,
    ptrOf sb view ino (some n) ≠ 0

structure Tidy (may : ReadRule Block) (sb : KfsSuperblock)
    (v : TxView Block KfsMem) : Prop extends TxOk may sb v where
  inode : ∀ ino, inoValid sb ino = true → TidyInode sb v.view ino

theorem OnlyInode.trans {view'' : Nat → Block} (h : OnlyInode sb ino view view')
    (h' : OnlyInode sb ino view' view'') : OnlyInode sb ino view view'' where
  inodes := fun i hi hne => (h'.inodes i hi hne).trans (h.inodes i hi hne)
  ptrs := fun i slot hi hne => (h'.ptrs i slot hi hne).trans (h.ptrs i slot hi hne)
  files := fun i k hi hne => (h'.files i k hi hne).trans (h.files i k hi hne)

theorem TidyInode.congr (h : TidyInode sb view ino)
    (hat : inodeAt sb view' ino = inodeAt sb view ino)
    (hptr : ∀ slot, ptrOf sb view' ino slot = ptrOf sb view ino slot) : TidyInode sb view' ino := by
  obtain ⟨h1, h2, h3⟩ := h
  refine ⟨by rwa [hat], by rwa [hat], ?_⟩
  rw [hat]
  intro ht n hn
  rw [hptr]
  exact h3 ht n hn

theorem OnlyInode.tidy (ho : OnlyInode sb ino v.view w.view) (h : Tidy may sb v)
    (hok : TxOk may sb w) (hself : TidyInode sb w.view ino) : Tidy may sb w := by
  refine ⟨hok, fun i hi => ?_⟩
  by_cases hne : i = ino
  · exact hne ▸ hself
  · exact (h.inode i hi).congr (ho.inodes i hi hne) fun slot => ho.ptrs i slot hi hne

theorem entryAt_congr {k : Nat} (h : ∀ i, fileByte sb view' d i = fileByte sb view d i) :
    entryAt sb view' d k = entryAt sb view d k :=
  KfsDirent.ofBytes_congr _ _ _ _ fun _ _ => h _

theorem OnlyInode.kinds (h : OnlyInode sb ino view view') (hne : i ≠ ino) :
    (namesOf sb view').kind i = (namesOf sb view).kind i := by
  simp only [namesOf]
  split
  · rename_i hi
    rw [h.inodes i hi hne]
  · rfl

theorem OnlyInode.entries (h : OnlyInode sb ino view view') (hne : i ≠ ino) (k : Nat) :
    (namesOf sb view').entry i k = (namesOf sb view).entry i k := by
  by_cases hi : inoValid sb i = true
  · have he : entryAt sb view' i k = entryAt sb view i k :=
      entryAt_congr fun j => h.files i j hi hne
    simp only [namesOf, hi, h.inodes i hi hne, he]
  · simp [namesOf, hi]

theorem OnlyInode.names (h : OnlyInode sb ino view view') {t : DirTree Nat Nat (List UInt8)}
    (hkind : t.kind ino = (namesOf sb view').kind ino)
    (hkinds : ∀ i, i ≠ ino → t.kind i = (namesOf sb view).kind i)
    (hentry : ∀ k, t.entry ino k = (namesOf sb view').entry ino k)
    (hentries : ∀ i k, i ≠ ino → t.entry i k = (namesOf sb view).entry i k) :
    namesOf sb view' = t := by
  apply DirTree.ext
  · funext i
    by_cases hne : i = ino
    · rw [hne, hkind]
    · rw [h.kinds hne, hkinds i hne]
  · funext i k
    by_cases hne : i = ino
    · rw [hne, hentry]
    · rw [h.entries hne, hentries i k hne]

theorem Accounted.only_outside {free : Nat} (hg : Geometry sb) (h : Accounted sb view free)
    (heq : ∀ b, ¬ InJournal sb b → view' b = view b) (ino : Nat) : OnlyInode sb ino view view' where
  inodes := fun i hi _ => ((h.outside hg heq).2 i hi).1
  ptrs := fun i slot hi _ => ((h.outside hg heq).2 i hi).2 slot
  files := fun _ k hi _ => h.fileByte_outside hg heq hi k

theorem OnlyInode.names_file (h : OnlyInode sb ino view view')
    (ht : (inodeAt sb view' ino).type = (inodeAt sb view ino).type)
    (hdir : (inodeAt sb view ino).type ≠ 2) : namesOf sb view' = namesOf sb view := by
  refine h.names ?_ (fun _ _ => rfl) (fun k => ?_) fun _ _ _ => rfl
  · simp only [namesOf, ht]
  · simp [namesOf, ht, hdir]

theorem wp_readLoop (h : TxOk may sb v) (hv : inoValid sb ino) {off n : Nat}
    (hmap : may.fallible ∨ ∀ i < n, ptrOf sb v.view ino (some ((off + i) / 4096)) ≠ 0)
    (fuel done : Nat) (buf : Bytes) (hfuel : n ≤ done + fuel) (hle : done ≤ n)
    (hbuf : ∀ i < done, buf i = fileByte sb v.view ino (off + i)) :
    (readLoop ino (inodeAt sb v.view ino) off n fuel done buf).wp may (fun r w => w = v ∧
      (r.1 = n ∨ may.fallible ∧ r.1 ≤ n) ∧ ∀ i < r.1, r.2 i = fileByte sb v.view ino (off + i))
        v := by
  induction fuel generalizing done buf with
  | zero => exact ⟨rfl, .inl (by omega), hbuf⟩
  | succ fuel ih =>
    unfold readLoop
    split
    · exact ⟨rfl, .inl (by omega), hbuf⟩
    rename_i hlt
    have hchunk := chunkLen_le (off + done) (n - done)
    have hpos := chunkLen_pos (off + done) (n - done) (by omega)
    simp only [wp_bind]
    refine wp_bmap_read h hv _ ?_ fun hf => ⟨rfl, .inr ⟨hf, hle⟩, hbuf⟩
    dsimp only
    split
    · rename_i h0
      exact ⟨rfl, .inr ⟨hmap.elim id fun hmap => absurd h0 (hmap done (by omega)), hle⟩, hbuf⟩
    rename_i h0
    simp only [wp_bind, Tx.wp_read]
    intro r hr
    obtain rfl | ⟨rfl, hf⟩ := h.reads_owned hv _ h0 hr
    swap
    · exact ⟨rfl, .inr ⟨hf, hle⟩, hbuf⟩
    refine ih _ _ (by omega) (by omega) fun i hi => ?_
    by_cases hin : done ≤ i
    · obtain ⟨k, rfl⟩ : ∃ k, i = done + k := ⟨i - done, by omega⟩
      rw [splice_inside _ _ _ _ _ (by omega), fileByte,
        show (off + (done + k)) / 4096 = (off + done) / 4096 by omega, if_neg h0,
        show (off + (done + k)) % 4096 = (off + done) % 4096 + k by omega]
    · rw [splice_outside _ _ _ _ _ (by omega)]
      exact hbuf i (by omega)

structure IsDir (sb : KfsSuperblock) (view : Nat → Block) (d : Nat) : Prop extends
    TidyInode sb view d where
  valid : inoValid sb d = true
  type : (inodeAt sb view d).type = 2

theorem Tidy.isDir (h : Tidy may sb v) (hd : (namesOf sb v.view).kind d = .dir) :
    IsDir sb v.view d :=
  ⟨h.inode d (namesOf_dir.mp hd).1, (namesOf_dir.mp hd).1, (namesOf_dir.mp hd).2⟩

theorem IsDir.kind (h : IsDir sb view d) : (namesOf sb view).kind d = .dir :=
  namesOf_dir.mpr ⟨h.valid, h.type⟩

section Lookup

variable (hs : ¬ may.fallible) (h : TxOk may sb v) {dir : Nat} (hd : IsDir sb v.view dir)

variable {k : Nat} {name : List UInt8}

include hs h hd in
theorem wp_readDirent (hk : k < (inodeAt sb v.view dir).size / 64)
    {Q : Option KfsDirent → View → Prop} (hQ : Q (some (entryAt sb v.view dir k)) v) :
    (readDirent dir (64 * k)).wp may Q v := by
  have hsize := hd.whole hd.type
  have hmap := hd.mapped hd.type
  simp only [readDirent, readi, wp_bind]
  refine wp_iget_sure hs h.toShape dir (fun hno => by simp [hd.valid] at hno) fun _ => ?_
  dsimp only
  rw [if_neg (by rw [hd.type]; decide), if_neg (by omega),
    show min 64 ((inodeAt sb v.view dir).size - 64 * k) = 64 by omega]
  simp only [wp_bind]
  refine wp_mono _ (wp_readLoop h hd.valid (.inr fun i hi => hmap _ ?_) 64 0 _ (by omega)
    (by omega) (by simp)) ?_
  · simp only [blocksFor]
    omega
  rintro ⟨done, buf'⟩ w ⟨rfl, hdone, hbuf'⟩
  obtain rfl : done = 64 := by simpa [hs] using hdone
  have hde : KfsDirent.ofBytes buf' 0 = entryAt sb w.view dir k := by
    refine KfsDirent.ofBytes_congr _ _ _ _ fun i hi => ?_
    rw [Nat.zero_add]
    exact hbuf' i hi
  simp only [wp_pure]
  simpa [hde] using hQ

include hs h hd in
theorem wp_scanDir (hit : KfsDirent → Bool) (n k : Nat)
    (hle : k + n ≤ (inodeAt sb v.view dir).size / 64) {Q : DirScan → View → Prop}
    (hfound : ∀ j, k ≤ j → j < k + n → hit (entryAt sb v.view dir j) →
      Q (.found (64 * j) (entryAt sb v.view dir j)) v)
    (hended : (∀ j, k ≤ j → j < k + n → hit (entryAt sb v.view dir j) = false) → Q .ended v) :
    (scanDir dir hit n (64 * k)).wp may Q v := by
  induction n generalizing k with
  | zero => exact hended fun j _ _ => by omega
  | succ n ih =>
    simp only [scanDir, wp_bind]
    refine wp_readDirent hs h hd (by omega) ?_
    dsimp only
    split
    · rename_i hhit
      exact hfound k (by omega) (by omega) hhit
    rename_i hmiss
    refine ih (k + 1) (by omega) (fun j h1 h2 => hfound j (by omega) (by omega)) fun hnone => ?_
    refine hended fun j h1 h2 => ?_
    by_cases hj : j = k
    · subst hj
      simpa using hmiss
    · exact hnone j (by omega) (by omega)

include hd in
theorem entry_some {n : Nat} :
    (namesOf sb v.view).entry dir k = some (name, n) ↔ k < (inodeAt sb v.view dir).size / 64 ∧
      entryAt sb v.view dir k = ⟨n, name⟩ ∧ n ≠ 0 := by
  simp only [namesOf, hd.valid, hd.type, true_and]
  constructor
  · intro he
    split at he
    · rename_i hlive
      simp only [Option.some.injEq, Prod.mk.injEq] at he
      obtain ⟨rfl, rfl⟩ := he
      exact ⟨hlive.1, rfl, hlive.2⟩
    · simp at he
  · rintro ⟨hk, he, hn⟩
    rw [he, if_pos ⟨hk, hn⟩]

theorem nameHit_iff (hlen : name.length ≤ 59) (de : KfsDirent) :
    nameHit name de ↔ de.ino ≠ 0 ∧ de.name = name := by
  rw [nameHit, decide_eq_true_eq, take_of_length_le (by omega)]

end Lookup

section

variable (hs : ¬ may.fallible) (h : Tidy may sb v)

include hs h in
theorem wp_dirLookup (dir : Nat) {name : List UInt8} (hlen : name.length ≤ 59)
    {Q : Nat × Nat → View → Prop}
    (hfound : ∀ j n, (namesOf sb v.view).entry dir j = some (name, n) → n ≠ 0 → Q (n, 64 * j) v)
    (hnone : (∀ j n, (namesOf sb v.view).entry dir j ≠ some (name, n)) → Q (0, 0) v) :
    (dirLookup dir name).wp may Q v := by
  simp only [dirLookup, wp_bind]
  refine wp_iget_sure hs h.toShape dir
    (fun hv => hnone fun j n => by simp [namesOf, hv]) fun hv => ?_
  dsimp only
  split
  · rename_i htype
    exact hnone fun j n => by simp [namesOf, htype]
  rename_i htype
  have hd : IsDir sb v.view dir := ⟨h.inode dir hv, hv, by simpa using htype⟩
  simp only [wp_bind]
  refine wp_scanDir hs h.toTxOk hd _ _ 0 (by omega) (fun j _ hj hhit => ?_) fun hmiss => ?_
  · obtain ⟨hne, hname⟩ := (nameHit_iff hlen _).mp hhit
    exact hfound j _ ((entry_some hd).mpr ⟨by omega, by rw [← hname], hne⟩) hne
  refine hnone fun j n he => ?_
  obtain ⟨hj, hde, hn⟩ := (entry_some hd).mp he
  have := hmiss j (by omega) (by omega)
  rw [hde, ← Bool.not_eq_true, nameHit_iff hlen] at this
  exact this ⟨hn, rfl⟩

theorem take_reserved {name r : List UInt8} (hr : r.length < 59) : name.take 59 = r ↔ name = r := by
  constructor
  · intro ht
    have hlen : name.length ≤ 59 := by
      have := congrArg length ht
      rw [length_take] at this
      omega
    rwa [take_of_length_le hlen] at ht
  · rintro rfl
    exact take_of_length_le (by omega)

include hs h in
theorem wp_removable {ino : Nat} (hv : inoValid sb ino) {Q : Bool → View → Prop} (hno : Q false v)
    (hyes : (∀ j nm m, (namesOf sb v.view).entry ino j = some (nm, m) →
      nm = dotName ∨ nm = dotDotName) → Q true v) :
    (removable ino (inodeAt sb v.view ino)).wp may Q v := by
  unfold removable
  split
  · rename_i htype
    have hd : IsDir sb v.view ino := ⟨h.inode ino hv, hv, htype⟩
    simp only [dirIsEmpty, wp_bind]
    refine wp_iget_sure hs h.toShape ino (fun hbad => by simp [hv] at hbad) fun _ => ?_
    simp only [wp_bind]
    refine wp_scanDir hs h.toTxOk hd _ _ 0 (by omega) (fun _ _ _ _ => hno) fun hmiss => ?_
    refine hyes fun j nm m he => ?_
    obtain ⟨hj, hde, hm⟩ := (entry_some hd).mp he
    have hother := hmiss j (by omega) (by omega)
    rw [hde, otherHit, decide_eq_false_iff_not] at hother
    simp only [ne_eq, take_reserved (show dotName.length < 59 by decide),
      take_reserved (show dotDotName.length < 59 by decide)] at hother
    by_contra hres
    simp only [not_or] at hres
    exact hother ⟨hm, hres.1, hres.2⟩
  · rename_i htype
    exact hyes fun j nm m he => by simp [namesOf, htype] at he

end

def liveEntry (de : KfsDirent) : Option (List UInt8 × Nat) :=
  if de.ino = 0 then none else some (de.name, de.ino)

theorem Wrote.entered {dir j : Nat} {buf : Bytes} {ip : KfsInode} (hg : Geometry sb)
    (h : Tidy may sb v) (hd : IsDir sb v.view dir) (hj : j ≤ (inodeAt sb v.view dir).size / 64)
    (hw : Wrote may sb dir (64 * j) 64 (fun i => buf (i - 64 * j)) v w) (hb : ip.Bounded)
    (hattrs : ip = { inodeAt sb w.view dir with mtime := ip.mtime }) :
    Tidy may sb (store w dir ip) ∧ namesOf sb (store w dir ip).view =
      (namesOf sb v.view).setEntry dir j (liveEntry (KfsDirent.ofBytes buf 0)) := by
  have hsize := hd.whole hd.type
  have hdirect : ip.direct = (inodeAt sb w.view dir).direct := by rw [hattrs]
  have hindirect : ip.indirect = (inodeAt sb w.view dir).indirect := by rw [hattrs]
  obtain ⟨hok, honly, hself, hptr, hfile⟩ := hw.ok.store_only hg hd.valid hb hdirect hindirect
  have htype' : (inodeAt sb (store w dir ip).view dir).type = 2 := by
    rw [hself, hattrs, hw.attrs, ← hd.type]
  have hsize' : (inodeAt sb (store w dir ip).view dir).size =
      max (inodeAt sb v.view dir).size (64 * j + 64) := by
    rw [hself, hattrs, hw.attrs]
  have honly' := hw.only.trans honly
  have hbyte : ∀ i, fileByte sb (store w dir ip).view dir i =
      if 64 * j ≤ i ∧ i < 64 * j + 64 then buf (i - 64 * j) else fileByte sb v.view dir i := by
    intro i
    rw [hfile, hw.files dir i hd.valid]
    simp only [true_and]
  have hentry : ∀ k, entryAt sb (store w dir ip).view dir k =
      if k = j then KfsDirent.ofBytes buf 0 else entryAt sb v.view dir k := by
    intro k
    by_cases hk : k = j
    · subst hk
      rw [if_pos rfl]
      refine KfsDirent.ofBytes_congr _ _ _ _ fun i hi => ?_
      rw [hbyte, if_pos (by omega)]
      congr 1
      omega
    · rw [if_neg hk]
      refine KfsDirent.ofBytes_congr _ _ _ _ fun i hi => ?_
      rw [hbyte, if_neg (by omega)]
  refine ⟨honly'.tidy h hok ⟨fun ht => ?_, fun _ => ?_, fun _ n hn => ?_⟩, honly'.names ?_ ?_ ?_ ?_⟩
  · rw [htype'] at ht
    simp at ht
  · rw [hsize']
    omega
  · rw [hptr]
    by_cases hn' : n = 64 * j / 4096
    · rw [hn']
      exact hw.here
    rw [hw.ptrs dir (some n) hd.valid (by simp [hn']) (by simp)]
    refine hd.mapped hd.type n ?_
    rw [hsize'] at hn
    simp only [blocksFor] at hn ⊢
    omega
  · rw [DirTree.setEntry_kind, hd.kind]
    exact (namesOf_dir.mpr ⟨hd.valid, htype'⟩).symm
  · exact fun _ _ => rfl
  · intro k
    simp only [DirTree.setEntry_entry, true_and, namesOf, hd.valid, htype', hentry, hsize']
    by_cases hk : k = j
    · subst hk
      have hlt : k < max (inodeAt sb v.view dir).size (64 * k + 64) / 64 := by omega
      simp only [if_true, liveEntry, hlt, true_and, ne_eq, ite_not]
    have hlt : k < max (inodeAt sb v.view dir).size (64 * j + 64) / 64 ↔
        k < (inodeAt sb v.view dir).size / 64 := by omega
    simp only [if_neg hk, hlt, hd.type, true_and]
  · intro i k hi
    simp [hi]

section

variable (hg : Geometry sb) (hs : ¬ may.fallible) (h : Tidy may sb v)

variable {mtime : Nat} {Q : Int → View → Prop} {name : List UInt8}

include hg h

theorem wp_writeEntry {dir j : Nat} {buf : Bytes} (hd : IsDir sb v.view dir)
    (hm : mtime < 4294967296) (hj : j ≤ (inodeAt sb v.view dir).size / 64) (hbad : ∀ w, Q (-1) w)
    (hgood : ∀ w, Tidy may sb w → namesOf sb w.view =
      (namesOf sb v.view).setEntry dir j (liveEntry (KfsDirent.ofBytes buf 0)) → Q 64 w) :
    (writei dir (64 * j) buf 64 mtime).wp may Q v := by
  have hchunk : chunkLen (64 * j + 0) (64 - 0) = 64 := by
    unfold chunkLen
    omega
  -- the loop has one iteration: an entry lies within a block
  refine wp_writei hg (I := fun done w => done = 0 ∧ w = v ∨ done = 64 ∧
    Wrote may sb dir (64 * j) 64 (fun i => buf (i - 64 * j)) v w) ?_ ?_ h.toTxOk hbad (by simp)
    (fun _ _ _ => .inl ⟨rfl, rfl⟩) ?_
  · rintro done w (⟨-, rfl⟩ | ⟨-, hw⟩)
    · exact h.toTxOk
    · exact hw.ok
  · rintro done w w' (⟨rfl, rfl⟩ | ⟨rfl, -⟩) hlt hw
    · rw [hchunk] at hw ⊢
      exact .inr ⟨rfl, hw⟩
    · omega
  · intro _ _ _ done w hpos hend
    have hdone : done = 64 ∧ Wrote may sb dir (64 * j) 64 (fun i => buf (i - 64 * j)) v w := by
      cases hend with
      | all _ hI => exact hI.resolve_left (by omega)
      | full _ _ hI hlt => omega
      | half _ _ _ _ hI hlt => omega
      | unread _ _ _ _ hI hlt => omega
    obtain ⟨rfl, hw⟩ := hdone
    obtain ⟨htidy, hnames⟩ := hw.entered hg h hd hj
      (mtime_bounded (inodeAt_bounded sb w.view dir) hm) rfl
    exact hgood _ htidy hnames

include hs

theorem wp_dirAdd {dir ino : Nat} (hname : NameOk name) (h0 : ino ≠ 0) (hino : ino < 4294967296)
    (hm : mtime < 4294967296) (hbad : ∀ w, Q (-1) w)
    (hgood : ∀ j w, (namesOf sb v.view).kind dir = .dir → (namesOf sb v.view).entry dir j = none →
      Tidy may sb w → namesOf sb w.view = (namesOf sb v.view).setEntry dir j (some (name, ino)) →
      Q 0 w) :
    (dirAdd dir name ino mtime).wp may Q v := by
  have hde : liveEntry (KfsDirent.ofBytes (KfsDirent.toBytes ⟨ino, name⟩) 0) =
      some (name, ino) := by
    rw [KfsDirent.ofBytes_toBytes _ hino hname.1 hname.2, liveEntry, if_neg h0]
  simp only [dirAdd, wp_bind]
  refine wp_iget h.toShape dir (fun _ => hbad v) fun hv => ?_
  dsimp only
  split
  · exact hbad v
  rename_i htype
  have hd : IsDir sb v.view dir := ⟨h.inode dir hv, hv, by simpa using htype⟩
  have hwrite : ∀ j, j ≤ (inodeAt sb v.view dir).size / 64 →
      (namesOf sb v.view).entry dir j = none →
      (writei dir (64 * j) (KfsDirent.toBytes ⟨ino, name⟩) 64 mtime).wp may
        (fun r w => Q (if r = 64 then 0 else -1) w) v := by
    intro j hj hfree
    refine wp_writeEntry hg h hd hm hj (fun w => hbad w) fun w hw hnames => ?_
    rw [hde] at hnames
    exact hgood j w hd.kind hfree hw hnames
  simp only [wp_bind]
  refine wp_scanDir hs h.toTxOk hd _ _ 0 (by omega) (fun j _ hj hhit => ?_) fun _ => ?_
  · simp only [wp_bind, wp_pure]
    refine hwrite j (by omega) ?_
    rw [decide_eq_true_eq] at hhit
    simp [namesOf, hhit]
  · simp only [wp_bind, wp_pure]
    have hlast := hwrite ((inodeAt sb v.view dir).size / 64) (le_refl _) (by simp [namesOf])
    have hsize := hd.whole hd.type
    rwa [show 64 * ((inodeAt sb v.view dir).size / 64) = (inodeAt sb v.view dir).size by omega]
      at hlast

theorem wp_dirRemove {dir : Nat} (hname : NameOk name) (hm : mtime < 4294967296)
    (hbad : ∀ w, Q (-1) w)
    (hgood : ∀ j n w, (namesOf sb v.view).entry dir j = some (name, n) → Tidy may sb w →
      namesOf sb w.view = (namesOf sb v.view).setEntry dir j none → Q 0 w) :
    (dirRemove dir name mtime).wp may Q v := by
  simp only [dirRemove, wp_bind]
  refine wp_dirLookup hs h dir hname.1 (fun j n he hn => ?_) fun _ => hbad v
  have hkind : (namesOf sb v.view).kind dir = .dir := by
    rw [namesOf_dir]
    simp only [namesOf] at he
    split at he
    · rename_i hlive
      exact ⟨hlive.1, hlive.2.1⟩
    · simp at he
  have hd := h.isDir hkind
  have hzero : liveEntry (KfsDirent.ofBytes (fun _ => 0) 0) = none := by
    rw [liveEntry, if_pos (KfsDirent.ofBytes_cleared _ _ fun _ _ => rfl)]
  dsimp only
  rw [if_neg hn]
  simp only [wp_bind, wp_pure]
  refine wp_writeEntry hg h hd hm ?_ (fun w => hbad w) fun w hw hnames => ?_
  · have := ((entry_some hd).mp he).1
    omega
  · rw [hzero] at hnames
    exact hgood j n w he hw hnames

end

end KestrelOS.Kfs
