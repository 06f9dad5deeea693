import KestrelOS.Kfs.Sparse
import KestrelOS.Kfs.Dirs

/-!
# What a write does to file contents

A write that reports `r` bytes has replaced bytes `[off, off + r)` of one file and touched nothing
else that `kfs_read` shows. This rests on the inode being written back, which `writei` does not
check.
-/

namespace KestrelOS.Kfs

open Nat

open TxProg (wp_bind wp_pure wp_mono)

def Whole (sb : KfsSuperblock) (view : Nat → Block) (ino : Nat) : Prop :=
  ∀ n < blocksFor (inodeAt sb view ino).size, ptrOf sb view ino (some n) ≠ 0

def NoHoles (sb : KfsSuperblock) (view : Nat → Block) : Prop :=
  ∀ ino, inoValid sb ino = true → (inodeAt sb view ino).type ≠ 0 → Whole sb view ino

private theorem NonSparse.noHoles {sb : KfsSuperblock} {view : Nat → Block}
    (h : NonSparse sb view) :
    NoHoles sb view := fun ino hv ht n hn => ((h ino hv ht).1 n).mpr hn

def SameOwner (ip ip' : KfsInode) : Prop :=
  ip'.type = ip.type ∧ ip'.mode = ip.mode ∧ ip'.uid = ip.uid ∧ ip'.gid = ip.gid

private theorem SameOwner.trans {a b c : KfsInode} (h : SameOwner a b) (h' : SameOwner b c) :
    SameOwner a c :=
  ⟨h'.1.trans h.1, h'.2.1.trans h.2.1, h'.2.2.1.trans h.2.2.1, h'.2.2.2.trans h.2.2.2⟩

/-- Bytes `[off, off + r)` of inode `ino` now come from `buf`, and the file ends after them if it
ended before; the rest is as it was. -/
structure Replaced (sb : KfsSuperblock) (ino off r : Nat) (buf : Bytes) (view view' : Nat → Block) :
    Prop where
  only : OnlyInode sb ino view view'
  size : (inodeAt sb view' ino).size = max (inodeAt sb view ino).size (off + r)
  owner : SameOwner (inodeAt sb view ino) (inodeAt sb view' ino)
  whole : Whole sb view' ino
  bytes : ∀ i, fileByte sb view' ino i =
    if off ≤ i ∧ i < off + r then buf (i - off) else fileByte sb view ino i

section

variable {may : ReadRule Block} {sb : KfsSuperblock} {view view' view'' : Nat → Block}
  {v w w' : View} {ino off r : Nat} {buf : Bytes}

private theorem Replaced.nothing (hoff : off ≤ (inodeAt sb view ino).size)
    (hw : Whole sb view ino) :
    Replaced sb ino off 0 buf view view := by
  refine ⟨⟨fun _ _ _ => rfl, fun _ _ _ _ => rfl, fun _ _ _ _ => rfl⟩, ?_, ⟨rfl, rfl, rfl, rfl⟩, hw,
    ?_⟩
  · rw [max_eq_left (by omega)]
  · intro i
    rw [if_neg (by omega)]

private theorem Replaced.extend (h : Replaced sb ino off r buf view view')
    (ho : OnlyInode sb ino view' view'')
    (hsize : (inodeAt sb view'' ino).size = (inodeAt sb view' ino).size)
    (howner : SameOwner (inodeAt sb view' ino) (inodeAt sb view'' ino))
    (hptr : ∀ n, ptrOf sb view' ino (some n) ≠ 0 → ptrOf sb view'' ino (some n) ≠ 0)
    (hbytes : ∀ i, fileByte sb view'' ino i = fileByte sb view' ino i) :
    Replaced sb ino off r buf view view'' where
  only := h.only.trans ho
  size := hsize.trans h.size
  owner := h.owner.trans howner
  whole := by
    intro n hn
    rw [hsize] at hn
    exact hptr n (h.whole n hn)
  bytes := fun i => (hbytes i).trans (h.bytes i)

private theorem SameAttrs.owner {ip ip' : KfsInode} (h : SameAttrs ip ip') : SameOwner ip ip' := by
  rw [h]
  exact ⟨rfl, rfl, rfl, rfl⟩

section
variable (h : Replaced sb ino off r buf v.view w.view) (hv : inoValid sb ino = true)
include h hv

private theorem Replaced.wrote {len : Nat} (hpos : 0 < len) (hin : (off + r) % 4096 + len ≤ 4096)
    (hw : Wrote may sb ino (off + r) len (fun i => buf (i - off)) w w') :
    Replaced sb ino off (r + len) buf v.view w'.view := by
  have hsize : (inodeAt sb w'.view ino).size =
      max (inodeAt sb w.view ino).size (off + r + len) := by
    rw [hw.attrs]
  have howner : SameOwner (inodeAt sb w.view ino) (inodeAt sb w'.view ino) := by
    rw [hw.attrs]
    exact ⟨rfl, rfl, rfl, rfl⟩
  refine ⟨h.only.trans hw.only, ?_, h.owner.trans howner, ?_, ?_⟩
  · rw [hsize, h.size]
    omega
  · -- the chunk starts inside the file, so its block follows the mapped ones
    intro n hn
    by_cases hhere : n = (off + r) / 4096
    · rw [hhere]
      exact hw.here
    rw [hw.ptrs ino (some n) hv (by simp [hhere]) (by simp)]
    apply h.whole n
    have hin' := h.size
    rw [hsize] at hn
    simp only [blocksFor] at hn ⊢
    omega
  · intro i
    rw [hw.files ino i hv, h.bytes]
    simp only [true_and]
    split
    · rw [if_pos (by omega)]
    split
    · rw [if_pos (by omega)]
    · rw [if_neg (by omega)]

private theorem Replaced.linked {nb : Nat} (hl : Linked may sb w w' ino none nb) :
    Replaced sb ino off r buf v.view w'.view := by
  refine h.extend hl.only (by rw [hl.attrs]) hl.attrs.owner ?_ fun i => hl.files ino i hv
  intro n hn
  rw [hl.ptrs ino (some n) hv (by simp)]
  exact hn

private theorem Replaced.mapped {n b : Nat} (hm : Mapped may sb w w' ino n b) :
    Replaced sb ino off r buf v.view w'.view := by
  refine h.extend hm.only (by rw [hm.attrs]) hm.attrs.owner ?_ fun i => hm.files ino i hv
  intro k hk
  by_cases hkn : k = n
  · rw [hkn, hm.here]
    exact hm.pos
  · rw [hm.ptrs ino (some k) hv (by simp [hkn]) (by simp)]
    exact hk

end

private theorem wp_writeLocked_bytes (hg : Geometry sb) (h : TxOk may sb v)
    {n mtime : Nat} (hm : mtime < 4294967296) (hoff : off ≤ (inodeAt sb v.view ino).size)
    (hwhole : NoHoles sb v.view) :
    (writeLocked ino off buf n mtime).wp may (fun r w => 0 ≤ r → inoValid sb ino ∧
      (inodeAt sb v.view ino).type = 1 ∧ r ≤ n ∧ TxOk may sb w ∧
      Replaced sb ino off r.toNat buf v.view w.view) v := by
  refine wp_writeLocked h.toShape (by simp) fun hv htype => ?_
  have hstart : Replaced sb ino off 0 buf v.view v.view :=
    .nothing hoff (hwhole ino hv (by rw [htype]; decide))
  refine wp_writei hg (I := fun done w => done ≤ n ∧ TxOk may sb w ∧
    Replaced sb ino off done buf v.view w.view) ?_ ?_ h ?_ ?_ ?_ ?_
  · exact fun _ w hw => hw.2.1
  · intro done w w' hw hlt hwr
    have hchunk := chunkLen_le (off + done) (n - done)
    have hpos := chunkLen_pos (off + done) (n - done) (by omega)
    exact ⟨by omega, hwr.ok, hw.2.2.wrote hv hpos hchunk.2 hwr⟩
  · intro w hneg
    omega
  · exact fun _ _ => ⟨hv, htype, by omega, h, hstart⟩
  · exact fun _ _ _ => ⟨zero_le n, h, hstart⟩
  · intro _ _ _ done w _ hend _
    -- however the loop ended, what it has counted is in the file
    have hw : done ≤ n ∧ TxOk may sb w ∧ Replaced sb ino off done buf v.view w.view := by
      cases hend with
      | all _ hw => exact hw
      | full _ _ hw => exact hw
      | half _ nb w0 _ hw _ _ _ _ hl => exact ⟨hw.1, hl.ok, hw.2.2.linked hv hl⟩
      | unread _ b w0 _ hw _ hmap _ => exact ⟨hw.1, hmap.ok, hw.2.2.mapped hv hmap⟩
    obtain ⟨hle, hok, hrep⟩ := hw
    have hb := mtime_bounded (inodeAt_bounded sb w.view ino) hm
    obtain ⟨hok', honly, hself, hptr, hbytes⟩ := hok.store_only hg hv hb rfl rfl
    refine ⟨hv, htype, by omega, hok', hrep.extend honly (by rw [hself]) ?_ ?_ hbytes⟩
    · rw [hself]
      exact ⟨rfl, rfl, rfl, rfl⟩
    · intro k hk
      rwa [hptr]

end

section Reading

variable {may : ReadRule Block} {sb : KfsSuperblock} {v : View} {ino : Nat}

private theorem wp_readi (h : TxOk may sb v) (hv : inoValid sb ino) (hwhole : Whole sb v.view ino)
    (hlive : (inodeAt sb v.view ino).type ≠ 0) (off : Nat) (buf : Bytes) (n : Nat) :
    (readi ino off buf n).wp may (fun r _ => (0 ≤ r.1 →
      r.1 ≤ min n ((inodeAt sb v.view ino).size - off) ∧
        ∀ i : Nat, i < r.1 → r.2 i = fileByte sb v.view ino (off + i)) ∧
      (¬ may.fallible → r.1 = min n ((inodeAt sb v.view ino).size - off))) v := by
  simp only [readi, wp_bind]
  refine wp_iget h.toShape _ (fun hno => ?_) fun _ => ?_
  · have hf : may.fallible := hno.resolve_left (by simp [hv])
    exact ⟨fun h0 => absurd h0 (by simp), absurd hf⟩
  dsimp only
  rw [if_neg hlive]
  split
  · rw [wp_pure]
    refine ⟨fun _ => ⟨?_, fun i hi => ?_⟩, fun _ => ?_⟩
    · simp only
      omega
    · simp only at hi
      omega
    · simp only
      omega
  simp only [wp_bind]
  refine wp_mono _ (wp_readLoop h hv (.inr fun i hi => hwhole _ ?_) _ 0 buf (by omega)
    (by omega) (by simp)) ?_
  · simp only [blocksFor]
    omega
  rintro ⟨done, out⟩ w ⟨-, hdone, hbytes⟩
  have hle : done ≤ min n ((inodeAt sb v.view ino).size - off) := hdone.elim le_of_eq And.right
  rw [wp_pure]
  refine ⟨fun hpos => ?_, fun hs => ?_⟩
  · split at hpos
    · simp at hpos
    · rename_i hne
      rw [if_neg hne]
      exact ⟨by omega, fun i hi => hbytes i (by omega)⟩
  · have hall := hdone.resolve_right fun hd => hs hd.1
    simp only at hall
    rw [if_neg (by omega), hall]

end Reading

section

variable {fs : InstId} {dev : DevId} {s t : Driver}

private theorem viewOf_idle (hidle : s.journalTx.active = false) :
    viewOf fs s = startView fs s := by
  have hpending : ∀ b, journalPending s fs b = none := by
    intro b
    simp [journalPending, hidle]
  have hseen : seen s fs = home s fs := by
    funext b
    simp [seen, hpending]
  simp [viewOf, startView, hseen, hpending]

private theorem exec_wp_noWrites {α : Type} {may : ReadRule Block} {p : TxProg Block KfsMem α}
    (hp : p.NoWrites) {Q : α → View → Prop}
    (hm : (s.instances fs).mounted) (hidle : s.journalTx.active = false)
    (hmay : Allows may fs s) (hwp : p.wp may Q (startView fs s)) :
    Q (exec fs p s).1 (startView fs s) := by
  rw [← viewOf_idle hidle] at hwp ⊢
  clear hidle
  induction p generalizing s with
  | done a => exact hwp
  | read b k ih =>
    have hf := bread_frame fs b s
    have hview := hf.viewOf fs
    rw [← hview]
    apply ih _ (hp _) _ (hmay.running (bread_running fs b s))
    · rw [hview]
      exact hwp _ (bread_allowed hmay b)
    · rw [hf.instances]
      exact hm
  | stage b d k _ => exact hp.elim
  | load k ih => exact ih _ (hp _) hm hmay hwp
  | store m k _ => exact hp.elim
  | live k ih =>
    simp only [exec, hm]
    exact ih _ (hp _) hm hmay hwp
  | ignore k _ => exact hp.elim

def inodeOn (fs : InstId) (s : Driver) (ino : Nat) : KfsInode :=
  inodeAt (s.instances fs).sb (home s fs) ino

def byteOn (fs : InstId) (s : Driver) (ino i : Nat) : UInt8 :=
  fileByte (s.instances fs).sb (home s fs) ino i

/-- `kfs_read` returns bytes of the file, and all it is asked for up to the end of the file when no
device read fails. -/
structure ReadsBack (fs : InstId) (s : Driver) (ino : UInt32) : Prop where
  honest : ∀ (off : UInt32) (buf : Bytes) (n : UInt32),
    0 ≤ (kfsRead fs ino off (some buf) n s).1.1 →
      (kfsRead fs ino off (some buf) n s).1.1 ≤
          min n.toNat ((inodeOn fs s ino.toNat).size - off.toNat) ∧
        ∀ i : Nat, i < (kfsRead fs ino off (some buf) n s).1.1 →
          (kfsRead fs ino off (some buf) n s).1.2 i = byteOn fs s ino.toNat (off.toNat + i)
  whole : (∀ b < (s.instances fs).sb.totalBlocks, ReadsOk s fs b) →
    ∀ (off : UInt32) (buf : Bytes) (n : UInt32), (kfsRead fs ino off (some buf) n s).1.1 =
      min n.toNat ((inodeOn fs s ino.toNat).size - off.toNat)

private theorem Serving.allows_idle (h : Serving fs dev s) {errors : Prop}
    (hreads : ¬ errors → ∀ b < (s.instances fs).sb.totalBlocks, ReadsOk s fs b) :
    Allows (readOr (s.instances fs).sb errors) fs s := by
  intro b r hr hlt hj
  exact (hr (h.cache b hj)).imp id fun hno => ⟨hno.1, by_contra fun he => hno.2 (hreads he b hlt)⟩

private theorem Serving.readsBack (h : Serving fs dev s)
    (hs : Sound (s.instances fs).sb (home s fs))
    {ino : UInt32} (hv : inoValid (s.instances fs).sb ino.toNat)
    (hlive : (inodeOn fs s ino.toNat).type ≠ 0)
    (hwhole : Whole (s.instances fs).sb (home s fs) ino.toNat) : ReadsBack fs s ino := by
  have hread : ∀ off buf n, (kfsRead fs ino off (some buf) n s).1 =
      (exec fs (readi ino.toNat off.toNat buf n.toNat) s).1 := by
    intro off buf n
    simp only [kfsRead, h.mounted, if_true]
  have hwp : ∀ errors off buf n,
      (¬ errors → ∀ b < (s.instances fs).sb.totalBlocks, ReadsOk s fs b) → _ :=
    fun errors off buf n hok => exec_wp_noWrites (readi_noWrites ino.toNat off buf n) h.mounted
      h.idle (@Serving.allows_idle fs dev s h errors hok)
      (wp_readi (h.start hs.accounted hs.clean).toTxOk hv hwhole hlive off buf n)
  refine ⟨fun off buf n => ?_, fun hok off buf n => ?_⟩
  · rw [hread]
    exact (hwp True off.toNat buf n.toNat (absurd trivial)).1
  · rw [hread]
    exact (hwp False off.toNat buf n.toNat fun _ => hok).2 id

private theorem Replaced.outside {sb : KfsSuperblock} {view view' view'' : Nat → Block}
    {ino off r free : Nat}
    {buf : Bytes} (h : Replaced sb ino off r buf view view') (hg : Geometry sb)
    (hacc : Accounted sb view' free) (hv : inoValid sb ino)
    (heq : ∀ b, ¬ InJournal sb b → view'' b = view' b) : Replaced sb ino off r buf view view'' := by
  obtain ⟨-, hsame⟩ := hacc.outside hg heq
  refine h.extend (hacc.only_outside hg heq ino) ?_ ?_ ?_ fun i => hacc.fileByte_outside hg heq hv i
  · rw [(hsame ino hv).1]
  · rw [(hsame ino hv).1]
    exact ⟨rfl, rfl, rfl, rfl⟩
  · intro n hn
    rwa [(hsame ino hv).2]

/-- What `kfs_read` and `kfs_iget` show of `t` is what they show of `s`, but for bytes
`[off, off + r)` of inode `ino`, its size and its time. -/
structure ByteWrite (fs : InstId) (ino off r : Nat) (buf : Bytes) (s t : Driver) : Prop where
  size : (inodeOn fs t ino).size = max (inodeOn fs s ino).size (off + r)
  owner : SameOwner (inodeOn fs s ino) (inodeOn fs t ino)
  bytes : ∀ i, byteOn fs t ino i = if off ≤ i ∧ i < off + r then buf (i - off)
    else byteOn fs s ino i
  inodes : ∀ i, inoValid (s.instances fs).sb i = true → i ≠ ino → inodeOn fs t i = inodeOn fs s i
  files : ∀ i k, inoValid (s.instances fs).sb i = true → i ≠ ino → byteOn fs t i k = byteOn fs s i k
  before : ∀ i : UInt32, inoValid (s.instances fs).sb i.toNat = true →
    (inodeOn fs s i.toNat).type ≠ 0 → ReadsBack fs s i
  after : ∀ i : UInt32, inoValid (s.instances fs).sb i.toNat = true →
    (inodeOn fs t i.toNat).type ≠ 0 → ReadsBack fs t i

private theorem kfsWrite_done (h : Serving fs dev s) (hs : Sound (s.instances fs).sb (home s fs))
    (hwhole : NoHoles (s.instances fs).sb (home s fs)) {ino off n mtime : UInt32} {buf : Bytes}
    (hover : (KfsCall.write ino off (some buf) n mtime).overlooks fs s = false)
    (hoff : off.toNat ≤ (inodeOn fs s ino.toNat).size)
    (hr : 0 ≤ (kfsWrite fs ino off (some buf) n mtime s).1) :
    ∃ v, Done fs s (kfsWrite fs ino off (some buf) n mtime s).2 v ∧
      inoValid (s.instances fs).sb ino.toNat ∧ (inodeOn fs s ino.toNat).type = 1 ∧
      (kfsWrite fs ino off (some buf) n mtime s).1 ≤ n.toNat ∧
      TxOk (readOr (s.instances fs).sb True) (s.instances fs).sb v ∧
      Replaced (s.instances fs).sb ino.toNat off.toNat
        (kfsWrite fs ino off (some buf) n mtime s).1.toNat buf (home s fs) v.view := by
  have hg := h.geometry hs.blocks.hi_cap
  let c : KfsCall := .write ino off (some buf) n mtime
  have hrun : kfsWrite fs ino off (some buf) n mtime s = transact fs c.body c.ok s := by
    simp only [kfsWrite, h.mounted, if_true]
    rfl
  have hnonneg : ∀ r, c.ok r = decide (0 ≤ r) := fun _ => rfl
  have hwp := @wp_writeLocked_bytes (readOr (s.instances fs).sb True) _ _ ino.toNat _ buf hg
    (h.start hs.accounted hs.clean).toTxOk n.toNat _ mtime.toNat_lt hoff hwhole
  have hexec := c.exec_body h (h.allows (absurd trivial))
    (TxProg.wp_mono _ hwp fun r w hw hok => hw (by simpa [hnonneg] using hok)) fun _ => hover
  rw [hrun] at hr ⊢
  rcases transact_outcome c h.mounted h.idle h.attached.spb with
    ⟨-, hbad⟩ | ⟨hok, heq, hfail, hd⟩ | hgone
  · rcases hbad with hbad | hbad
    · rw [hnonneg, decide_eq_false_iff_not] at hbad
      exact absurd hr hbad
    · omega
  · rcases hexec with hfull | hpost
    · rw [hfail] at hfull
      simp at hfull
    · rw [heq]
      exact ⟨_, hd, hpost hok⟩
  · omega

private theorem Replaced.noHoles {sb : KfsSuperblock} {view view' : Nat → Block} {ino off r : Nat}
    {buf : Bytes}
    (h : Replaced sb ino off r buf view view') (hw : NoHoles sb view) : NoHoles sb view' := by
  intro i hi hlive
  by_cases hne : i = ino
  · rw [hne]
    exact h.whole
  rw [h.only.inodes i hi hne] at hlive
  intro n hn
  rw [h.only.inodes i hi hne] at hn
  rw [h.only.ptrs i _ hi hne]
  exact hw i hi hlive n hn

end

section

variable {fs : InstId} {s : Driver}

@[simp] theorem exec_pure {α : Type} (a : α) : exec fs (pure a) s = (a, s) := rfl

@[simp] theorem exec_bind {α β : Type} (p : Tx α) (f : α → Tx β) :
    exec fs (p >>= f) s = exec fs (f (exec fs p s).1) (exec fs p s).2 := by
  induction p generalizing s with
  | done a => rfl
  | read b k ih => exact ih _
  | stage b d k ih => exact ih _
  | load k ih => exact ih _
  | store m k ih => exact ih
  | live k ih => exact ih _
  | ignore k ih => exact ih

@[simp] theorem exec_drop (p : Tx Bool) : exec fs (Tx.drop p) s = ((), (exec fs p s).2) := by
  rw [Tx.drop, exec_bind]
  cases (exec fs p s).1 <;> rfl

@[simp] theorem exec_read (b : Nat) : exec fs (Tx.read b) s = bread fs b s := rfl

@[simp] theorem exec_stage (b : Nat) (d : Block) :
    exec fs (Tx.stage b d) s = journalStage fs b d s := rfl

@[simp] theorem exec_load : exec fs Tx.load s = (⟨(s.instances fs).sb, s.sbBlock⟩, s) := rfl

def breads (fs : InstId) (b : Nat) : Nat → Driver → Driver
  | 0, s => s
  | k + 1, s => breads fs (b + 1) k (bread fs b s).2

private theorem findClear_ones {d : Block} (hd : ∀ i < 4096, d.byte i = 255) (n i : Nat)
    (hi : i + n ≤ 4096) :
    findClear d n i = none := by
  induction n generalizing i with
  | zero => rfl
  | succ n ih =>
    have hbyte : clearBitIn 255 8 0 = none := by decide
    rw [findClear, hd i (by omega), hbyte]
    exact ih (i + 1) (by omega)

private theorem exec_ballocFrom_full (n k bb : Nat)
    (hfull : ∀ b, (s.instances fs).sb.bitmapStart + bb ≤ b →
      b < (s.instances fs).sb.bitmapStart + bb + k →
      CacheOk s fs b ∧ ReadsOk s fs b ∧ ∀ i < 4096, (seen s fs b).byte i = 255) :
    exec fs (ballocFrom (k + n) bb) s =
      exec fs (ballocFrom n (bb + k)) (breads fs ((s.instances fs).sb.bitmapStart + bb) k s) := by
  induction k generalizing bb s with
  | zero => simp [breads]
  | succ k ih =>
    obtain ⟨hc, hr, hones⟩ := hfull _ (le_refl _) (by omega)
    have hf := bread_frame fs ((s.instances fs).sb.bitmapStart + bb) s
    rw [show k + 1 + n = k + n + 1 by omega, ballocFrom]
    simp only [exec_bind, exec_load, exec_read, bread_ok hc hr,
      findClear_ones hones 4096 0 (le_refl _)]
    rw [ih (bb + 1), hf.instances]
    · rw [breads, show bb + 1 + k = bb + (k + 1) by omega]
      rfl
    intro b h1 h2
    rw [hf.instances] at h1 h2
    obtain ⟨hc', hr', hones'⟩ := hfull b (by omega) (by omega)
    refine ⟨bread_cacheOk hc', hf.readsOk hr', ?_⟩
    rw [show seen (bread fs _ s).2 fs b = seen s fs b by
      simp only [seen, hf.pending, hf.home]]
    exact hones'

/-- The first byte of an empty file, step by step. What `iput` returns is not looked at. -/
private theorem exec_writeLocked_first {ino mtime b : Nat} {buf : Bytes} {ip : KfsInode}
    {old : Block}
    {ip0 : KfsInode} {s1 s2 u u1 u2 w : Driver} (h1 : exec fs (iget ino) s = (some ip0, s1))
    (htype0 : ip0.type = 1) (h2 : exec fs (iget ino) s1 = (some ip, s2)) (htype : ip.type = 1)
    (hsize : ip.size = 0) (hz : ip.direct 0 = 0) (h3 : exec fs balloc s2 = (b, u)) (hb : b ≠ 0)
    (h4 : (exec fs (iput ino (ip.setDirect 0 b)) u).2 = u1) (h5 : bread fs b u1 = (some old, u2))
    (h6 : journalStage fs b (Block.ofBytes (splice old.byte 0 1 buf)) u2 = (true, w)) :
    ∃ ip1 ip2, exec fs (writeLocked ino 0 buf 1 mtime) s =
      (1, (exec fs (iput ino ip2) (exec fs (iput ino ip1) w).2).2) := by
  have hbmap : exec fs (bmap ino ip 0 true) s2 = ((b, ip.setDirect 0 b), u1) := by
    have hz' : ip.direct ⟨0, by decide⟩ = 0 := hz
    simp only [bmap, show (0 : Nat) < 10 by decide, dite_true, hz', true_and, if_true, exec_bind,
      h3, if_neg hb, exec_pure, ← h4]
    rfl
  have hloop : ∃ ip1, exec fs (writeLoop ino 0 buf 1 1 ip 0) s2 =
      ((ip1, 1), (exec fs (iput ino ip1) w).2) := by
    refine ⟨{ ip.setDirect 0 b with size := 1 }, ?_⟩
    have hchunk : chunkLen 0 1 = 1 := by decide
    have hgrow : (ip.setDirect 0 b).size < 1 := by
      rw [show (ip.setDirect 0 b).size = ip.size from rfl, hsize]
      decide
    simp only [writeLoop, exec_bind, reduceMod, reduceSub, reduceDiv, reduceLeDiff,
      reduceLT, if_false, if_true, zero_add, hbmap, if_neg hb, hchunk, exec_read, h5, exec_stage,
      h6, hgrow, exec_pure]
  obtain ⟨ip1, hloop⟩ := hloop
  refine ⟨ip1, { ip1 with mtime := mtime }, ?_⟩
  simp only [writeLocked, writei, exec_bind, h1, htype0, htype, if_true, h2, reduceEqDiff, if_false,
    reduceLT, reduceSub, or_false, hloop, exec_drop, exec_pure]
  rfl

private theorem exec_iput_lost {ino : Nat} (b : Nat) (ip : KfsInode)
    (hblk : inodeBlk (s.instances fs).sb ino = b)
    (h : (bread fs b s).1.isNone) : (exec fs (iput ino ip) s).2 = (bread fs b s).2 := by
  rw [Option.isNone_iff_eq_none] at h
  simp only [iput, exec_bind, exec_load, exec_read, hblk, h, exec_pure]

end

def wideInodes : List (Nat × KfsInode) :=
  [(2, ⟨1, 420, 0, 0, 0, 0, fun _ => 0, 0⟩),
    (1, ⟨2, 493, 192, 0, 0, 0, fun i => if i = 0 then 524288 else 0, 0⟩)]

def wideSb : KfsSuperblock :=
  ⟨0x3353464B, 557056, 1, 17, 18, 33, 51, 524237, 64, 524288, 1, 32767, 1⟩

/-- All inode blocks but the first are empty, and the root directory has the first data block. -/
def wideImage (b : Nat) : Block :=
  if b = 0 then sbImage ⟨wideSb, Block.zero⟩
  else if b ≤ 16 then Block.ofBytes fun _ => 255
  else if b = 17 then bitsBelow 1
  else if b = 51 then inodesOf wideInodes
  else if b = 524288 then direntsOf [⟨1, [46]⟩, ⟨1, [46, 46]⟩, ⟨2, [102]⟩]
  else Block.zero

def wideFs : Driver :=
  { smallDriver 557056 0 wideImage with
    instances := fun f => if f = 0 then ⟨some 0, 0, 1, wideSb, true, true, 0⟩
      else ⟨none, 0, 0, wideSb, false, false, 0⟩
    io := fun k _ lba => if lba = 51 ∧ 18 ≤ k ∧ k < 21 then .fail none else .ok }

private theorem wideFs_image : home wideFs 0 = wideImage := by
  funext b
  simp [home, wideFs, smallDriver, KfsFs.lba]

private theorem wideFs_serving : Serving 0 0 wideFs := by
  refine ⟨⟨rfl, one_pos, rfl, by decide⟩, rfl, rfl, ?_, ?_, ?_⟩
  · intro i j f hi
    simp [wideFs, smallDriver] at hi
  · intro b _ i hi
    simp [wideFs, smallDriver] at hi
  rw [wideFs_image]
  refine sbImage_ofBytes _ fun k => ?_
  unfold KfsSuperblock.word wideSb
  split <;> decide

private theorem inoValid_wide {ino : Nat} : inoValid wideSb ino ↔ 1 ≤ ino ∧ ino ≤ 64 := by
  simp only [inoValid, decide_eq_true_eq]
  rfl

private theorem wideFs_bit {b : Nat} (hb : b < 557056) :
    bitAt wideSb wideImage b = decide (b < 524289) := by
  have hones : ∀ j < 8, bitOf 255 j := by decide
  rw [bitAt, show wideSb.bitmapStart + b / 32768 = 1 + b / 32768 from rfl]
  by_cases hlo : b < 524288
  · have hblk : wideImage (1 + b / 32768) = Block.ofBytes fun _ => 255 := by
      rw [wideImage, if_neg (by omega), if_pos (by omega)]
    rw [hblk, Block.byte_ofBytes _ _ (by omega), hones _ (by omega), eq_comm, decide_eq_true_eq]
    omega
  · obtain ⟨k, rfl⟩ : ∃ k, b = 524288 + k := ⟨b - 524288, by omega⟩
    have hblk : wideImage (1 + (524288 + k) / 32768) = bitsBelow 1 := by
      rw [show 1 + (524288 + k) / 32768 = 17 by omega]
      rfl
    rw [hblk, show (524288 + k) / 8 % 4096 = k / 8 % 4096 by omega,
      show (524288 + k) % 8 = k % 8 by omega, bitOf_bitsBelow 1 k (by omega), decide_eq_decide]
    omega

private theorem wideFs_filled : Filled wideSb wideImage 524289 wideInodes := by
  refine ⟨⟨fun ino hv => ?_, by decide⟩, by decide, by decide, by decide, by decide, ?_,
    fun b hb => wideFs_bit hb, by decide, by decide, by decide, by decide⟩
  · rw [inoValid_wide] at hv
    have hblk : inodeBlk wideSb ino = 51 := by
      simp only [inodeBlk, wideSb]
      omega
    rw [inodeAt, hblk]
    exact inodeAt_inodesOf (by decide) (by decide) hv.1 hv.2
  · intro b hb hlo
    have heq : b = 524288 := Nat.le_antisymm (Nat.lt_succ_iff.mp hb) hlo
    exact ⟨_, List.mem_cons_of_mem _ List.mem_cons_self, by decide, 0, heq.symm⟩

private theorem wideFs_sound : Sound (wideFs.instances 0).sb (home wideFs 0) := by
  rw [wideFs_image]
  exact wideFs_filled.sound rfl (by decide)

private theorem wideFs_noHoles : NoHoles (wideFs.instances 0).sb (home wideFs 0) := by
  rw [wideFs_image]
  exact (wideFs_filled.nonSparse (by decide) (by decide)).noHoles

/-- The inode is in the cache, and the first 16 bitmap blocks are about to be read. -/
def wideOpened : Driver := (exec 0 (iget 2) (exec 0 (iget 2) (begun 0 wideFs)).2).2

private theorem wideOpened_frame : SameButCache (begun 0 wideFs) wideOpened :=
  (exec_noWrites (iget_noWrites 2) _).1.trans (exec_noWrites (iget_noWrites 2) _).1

private theorem wideOpened_sb : (wideOpened.instances 0).sb = wideSb := by
  obtain ⟨sequence, hb, -⟩ := @begun_eq 0 wideFs rfl
  rw [wideOpened_frame.instances, hb]
  rfl

private theorem wideOpened_full (b : Nat) (h1 : 1 ≤ b) (h2 : b < 17) :
    CacheOk wideOpened 0 b ∧ ReadsOk wideOpened 0 b ∧
      ∀ i < 4096, (seen wideOpened 0 b).byte i = 255 := by
  obtain ⟨sequence, hb, -⟩ := @begun_eq 0 wideFs rfl
  obtain ⟨-, -, hc1⟩ := @exec_noWrites _ 0 _ (iget_noWrites 2) (begun 0 wideFs)
  obtain ⟨-, -, hc2⟩ := @exec_noWrites _ 0 _ (iget_noWrites 2) (exec 0 (iget 2) (begun 0 wideFs)).2
  have hseen : seen wideOpened 0 b = Block.ofBytes fun _ => 255 := by
    have hview := congrArg (fun v => v.view b) ((wideOpened_frame.viewOf 0).trans (begun_view rfl))
    refine hview.trans ((congrFun wideFs_image b).trans ?_)
    rw [wideImage, if_neg (by omega), if_pos (by omega)]
  refine ⟨hc2 _ _ (hc1 _ _ fun i hi _ => ?_), wideOpened_frame.readsOk ?_, fun i hi => ?_⟩
  · rw [hb] at hi
    simp [wideFs, smallDriver] at hi
  · rw [hb]
    refine ⟨0, rfl, ?_, fun k => if_neg ?_⟩
    · simp [rangeOk, wideFs, smallDriver, KfsFs.lba]
      omega
    · simp [wideFs, KfsFs.lba]
      omega
  · rw [hseen, Block.byte_ofBytes _ _ hi]

def wideBalloc : Nat × Driver := exec 0 (ballocFrom 1 16) (breads 0 1 16 wideOpened)

private theorem wideBalloc_eq : exec 0 balloc wideOpened = wideBalloc := by
  have hscan := @exec_ballocFrom_full 0 wideOpened 1 16 0
  rw [wideOpened_sb] at hscan
  simp only [balloc, exec_bind, exec_load, wideOpened_sb]
  exact hscan fun b h1 h2 => wideOpened_full b h1 h2

def wideTaken : Option Block × Driver := bread 0 524289 (bread 0 51 wideBalloc.2).2

def wideStaged : Bool × Driver :=
  journalStage 0 524289 (Block.ofBytes (splice (wideTaken.1.getD Block.zero).byte 0 1 fun _ => 65))
    wideTaken.2

def wideWritten : Driver := (bread 0 51 (bread 0 51 wideStaged.2).2).2

private theorem pair_of_fst {α β : Type} {p : α × β} {a : α} (h : p.1 = a) : p = (a, p.2) := by
  rw [← h]

private theorem eq_some_getD {α β : Type} {p : Option α × β} (a : α) (h : p.1.isSome) :
    p = (some (p.1.getD a), p.2) := by
  obtain ⟨_ | x, t⟩ := p
  · simp at h
  · rfl

private theorem wideWritten_eq :
    exec 0 (writeLocked 2 0 (fun _ => 65) 1 9) (begun 0 wideFs) = (1, wideWritten) := by
  have h1 := @eq_some_getD _ _ (exec 0 (iget 2) (begun 0 wideFs)) KfsInode.zero (by decide +kernel)
  have h2 := @eq_some_getD _ _ (exec 0 (iget 2) (exec 0 (iget 2) (begun 0 wideFs)).2) KfsInode.zero
    (by decide +kernel)
  have h3 : exec 0 balloc wideOpened = (524289, wideBalloc.2) :=
    wideBalloc_eq.trans (pair_of_fst (by decide +kernel))
  have h5 : wideTaken = (some (wideTaken.1.getD Block.zero), wideTaken.2) :=
    eq_some_getD _ (by decide +kernel)
  have h6 : wideStaged = (true, wideStaged.2) := pair_of_fst (by decide +kernel)
  obtain ⟨ip1, ip2, h⟩ :=
    @exec_writeLocked_first 0 (begun 0 wideFs) 2 9 524289 (fun _ => 65) _ _ _ _ _ _
    _ _ _ h1 (by decide +kernel) h2 (by decide +kernel) (by decide +kernel) (by decide +kernel) h3
    (by decide) (exec_iput_lost 51 _ (by decide +kernel) (by decide +kernel)) h5 h6
  rw [h, exec_iput_lost 51 ip1 (by decide +kernel) (by decide +kernel),
    exec_iput_lost 51 ip2 (by decide +kernel) (by decide +kernel)]
  rfl

end KestrelOS.Kfs
