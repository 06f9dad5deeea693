import KestrelOS.Kfs.Coherence
import KestrelOS.Kfs.Consistency

/-!
# Power failures

Power may fail at any write of a call and then again while the device is being mounted. Every
mount that is not cut short succeeds, finds the call done or not begun, and serves a file system
whose blocks are accounted for.
-/

namespace KestrelOS.Kfs

open Kfsck List

variable {fs : InstId} {dev : DevId} {s t : Driver} {sb : KfsSuperblock} {post d : Nat → Block}
  {sequence : Nat} {entry : List (Nat × Block)}

/-- The device when power is cut after `n` writes of a call. -/
def KfsCall.cutDisk (fs : InstId) (dev : DevId) (c : KfsCall) (n : Nat) (s : Driver) :
    Nat → Block :=
  let e := exec fs c.body (begun fs s)
  if c.ok e.1 then (journalCommit fs (cutPower e.2 (some n))).2.disk dev else s.disk dev

/-- The superblock of the same file system, with a free count in range. -/
def SbFits (sb : KfsSuperblock) (block : Block) : Prop :=
  SameLayout sb (KfsSuperblock.ofBytes block.byte) ∧
    (KfsSuperblock.ofBytes block.byte).freeBlocks ≤ sb.totalBlocks - sb.dataStart

/-- The device holds `post` and a clean journal, or a journal that makes it so. -/
structure RecoversTo (sb : KfsSuperblock) (post d : Nat → Block) : Prop where
  holds : Clean sb post d ∨ ∃ sequence entry pre, SafeTx sb sequence entry ∧
    Redo sb sequence entry pre d ∧ applyWrites entry pre = post
  first : SbFits sb (d 0)
  last : SbFits sb (post 0)

/-- The home writes leave a block as it was or as the transaction has it. -/
theorem writeHomes_block {ok : Bool} (h : writeHomes fs entry s = (ok, t))
    (hspb : 0 < (s.instances fs).spb) (hres : Residueless s) (hnd : (entry.map Prod.fst).Nodup)
    (pre : Nat → Block) (b : Nat) :
    home t fs b = home s fs b ∨ home t fs b = applyWrites entry pre b := by
  obtain ⟨k, hk⟩ := writeHomes_upTo h hspb hres
  rw [hk]
  by_cases hb : b ∈ (entry.take k).map Prod.fst
  · obtain ⟨e, he, rfl⟩ := mem_map.mp hb
    rw [applyWrites_of_mem _ _ e he (hnd.sublist ((take_sublist _ _).map _)),
      applyWrites_of_mem _ _ e (mem_of_mem_take he) hnd]
    exact .inr rfl
  · exact .inl (applyWrites_untouched _ _ _ hb)

theorem journalRawWrite_block {ok : Bool} {blk : Nat} {buf : Block}
    (h : journalRawWrite fs blk buf s = (ok, t)) (hspb : 0 < (s.instances fs).spb)
    (hres : Residueless s) {b : Nat} (hb : b ≠ blk) : home t fs b = home s fs b := by
  cases ok with
  | true => rw [journalRawWrite_true_eq h hspb, Function.update_of_ne hb]
  | false => rw [journalRawWrite_false h hres]

theorem commitWrites_block (hspb : 0 < (s.instances fs).spb) (hres : Residueless s)
    (hsafe : SafeTx (s.instances fs).sb s.journalTx.sequence s.journalTx.entry) {b : Nat}
    (hb : ¬ InJournal (s.instances fs).sb b) : home (commitWrites fs s).2 fs b = home s fs b ∨
      home (commitWrites fs s).2 fs b = applyWrites s.journalTx.entry (home s fs) b := by
  have hlen := hsafe.len
  unfold InJournal at hb
  have hne : b ≠ (s.instances fs).sb.journalStart := by omega
  unfold commitWrites
  dsimp only
  split
  · rename_i s1 h1
    exact .inl (writePayloads_home h1 hspb (by omega))
  rename_i s1 h1
  have hs1 := writePayloads_frame h1
  have hb1 : home s1 fs b = home s fs b := writePayloads_home h1 hspb (by omega)
  have hheader : ∀ {buf ok s2},
      journalRawWrite fs (s.instances fs).sb.journalStart buf s1 = (ok, s2) →
      home s2 fs b = home s fs b :=
    fun h2 => (journalRawWrite_block h2 (hs1.instances ▸ hspb) (hres.of_io hs1.io) hne).trans hb1
  split
  · rename_i s2 h2
    rw [retire_home]
    exact .inl (hheader h2)
  rename_i s2 h2
  have hs2 := hs1.trans (journalRawWrite_frame h2)
  have hhomes : ∀ {ok s3}, writeHomes fs s.journalTx.entry s2 = (ok, s3) →
      home s3 fs b = home s fs b ∨ home s3 fs b = applyWrites s.journalTx.entry (home s fs) b := by
    intro ok s3 h3
    rw [← hheader h2]
    exact writeHomes_block h3 (hs2.instances ▸ hspb) (hres.of_io hs2.io) hsafe.nodup _ b
  split
  · rename_i s3 h3
    rw [retire_home]
    exact hhomes h3
  rename_i s3 h3
  have hs3 := hs2.toSameButIo.trans (writeHomes_frame h3).toSameButIo
  have hclear : ∀ {ok s4}, journalClear fs s3 = (ok, s4) → home s4 fs b = home s3 fs b := by
    intro ok s4 h4
    rw [journalClear, hs3.instances] at h4
    exact journalRawWrite_block h4 (hs3.instances ▸ hspb) (hres.of_io hs3.io) hne
  split
  · rename_i s4 h4
    rw [retire_home, hclear h4]
    exact hhomes h3
  · rename_i s4 h4
    rw [hclear h4]
    exact hhomes h3

theorem journalRecover_block (hspb : 0 < (s.instances fs).spb) (hres : Residueless s)
    (hv : verdict (s.instances fs).sb (home s fs) = .committed entry)
    (hnd : (entry.map Prod.fst).Nodup) (pre : Nat → Block) {b : Nat}
    (hb : b ≠ (s.instances fs).sb.journalStart) : home (journalRecover fs s).2 fs b = home s fs b ∨
      home (journalRecover fs s).2 fs b = applyWrites entry pre b := by
  have hrec := journalRecover_recovers fs s
  rw [hv] at hrec
  generalize journalRecover fs s = r at hrec ⊢
  obtain ⟨code, t⟩ := r
  cases hrec with
  | unread hf => exact .inl (hf.home fs b)
  | cleared hf hv => simp at hv
  | half hf hw =>
    rw [← hf.home fs b]
    exact writeHomes_block hw (hf.instances ▸ hspb) (hres.of_io hf.io) hnd pre b
  | @replayed s2 s3 _ hf hw =>
    have hs3 := hf.toSameButIo.trans (writeHomes_frame hw).toSameButIo
    have hclear : home (journalClear fs s3).2 fs b = home s3 fs b :=
      journalRawWrite_block rfl (hs3.instances ▸ hspb) (hres.of_io hs3.io)
        (by rw [hs3.instances]; exact hb)
    rw [hclear, ← hf.home fs b]
    exact writeHomes_block hw (hf.instances ▸ hspb) (hres.of_io hf.io) hnd pre b

/-- The file system fills its device from the first block, as `kfs_type_mount` first assumes. -/
structure WholeDevice (fs : InstId) (dev : DevId) (s : Driver) : Prop where
  startLba : (s.instances fs).startLba = 0
  size : ¬ ((s.bdev dev).blockSize = 0 ∨ 4096 % (s.bdev dev).blockSize ≠ 0)
  spb : (s.instances fs).spb = 4096 / (s.bdev dev).blockSize

/-- `b` is the machine switched on when the device of `s` holds `disk`. -/
structure PowerOn (dev : DevId) (s : Driver) (disk : Nat → Block) (b : Driver) : Prop
    extends Booted b where
  used : ∀ f, (b.instances f).used = false
  bdev : b.bdev dev = s.bdev dev
  disk : b.disk dev = disk

/-- The machine after a mount of `dev`. -/
def mounted (dev : DevId) (b : Driver) : Driver :=
  ((kfsTypeMount (some dev)).run MountSec.step b).2

/-- What the device may hold by the time power stays on: mounts are cut short after any number of
accesses. A mount that makes no access leaves the device as it is. -/
inductive Dark (dev : DevId) (s : Driver) (disk : Nat → Block) : (Nat → Block) → Prop
  | off : Dark dev s disk disk
  | again (d : Nat → Block) (b : Driver) (n : Nat) (h : Dark dev s disk d)
      (hb : PowerOn dev s d b) :
      Dark dev s disk ((mounted dev (cutPower b (some (n + 1)))).disk dev)

theorem SbFits.geometry {block : Block} (h : SbFits sb block) :
    SameGeometry sb (KfsSuperblock.ofBytes block.byte) :=
  ⟨h.1.fields.2.2.1, h.1.journalStart⟩

/-- Instance `fs'` of `t` is bound to the blocks where `fs` of `s` was mounted. -/
structure SamePlace (fs : InstId) (dev : DevId) (s : Driver) (fs' : InstId) (t : Driver) :
    Prop where
  bdev : t.bdev dev = s.bdev dev
  bd : (t.instances fs').bd = some dev
  startLba : (t.instances fs').startLba = (s.instances fs).startLba
  spb : (t.instances fs').spb = (s.instances fs).spb

section

variable {fs' : InstId} (hs : Attached s fs dev) (hp : SamePlace fs dev s fs' t)
include hp

theorem SamePlace.lba (k : Nat) : (t.instances fs').lba k = (s.instances fs).lba k := by
  rw [KfsFs.lba, hp.startLba, hp.spb, KfsFs.lba]

theorem SamePlace.home (k : Nat) : home t fs' k = t.disk dev ((s.instances fs).lba k) := by
  simp only [Kfs.home, hp.bd, hp.lba]

theorem WholeDevice.of_place (hw : WholeDevice fs dev s) : WholeDevice fs' dev t :=
  ⟨hp.startLba.trans hw.startLba, by rw [hp.bdev]; exact hw.size, by rw [hp.spb, hp.bdev, hw.spb]⟩

theorem SamePlace.of_eq {u : Driver} (hbdev : u.bdev = t.bdev)
    (hinst : (u.instances fs').bd = (t.instances fs').bd ∧
      (u.instances fs').startLba = (t.instances fs').startLba ∧
      (u.instances fs').spb = (t.instances fs').spb) : SamePlace fs dev s fs' u :=
  ⟨hbdev ▸ hp.bdev, hinst.1.trans hp.bd, hinst.2.1.trans hp.startLba, hinst.2.2.trans hp.spb⟩

theorem SamePlace.tryOffset :
    SamePlace fs dev s fs' (tryOffset fs' (t.instances fs').startLba t).2 := by
  obtain ⟨hprobed, hlba, -⟩ := tryOffset_probed fs' (t.instances fs').startLba t
  obtain ⟨_, _, heq⟩ := hprobed.inst
  exact hp.of_eq hprobed.bdev ⟨by rw [heq], hlba, by rw [heq]⟩

include hs

theorem SbFits.attached {block : Block} (h : SbFits (s.instances fs).sb block)
    (hsb : (t.instances fs').sb = KfsSuperblock.ofBytes block.byte) : Attached t fs' dev := by
  have hpass := hs.passed
  have hfree := h.2
  simp only [sbPlausible, decide_eq_true_eq] at hpass
  refine ⟨hp.bd, hp.spb ▸ hs.spb, hp.bdev ▸ hs.writable, ?_⟩
  simp only [sbPlausible, decide_eq_true_eq, hp.bdev, hp.startLba, hp.spb, hsb]
  rw [h.1] at hfree ⊢
  dsimp only at hfree ⊢
  omega

/-- A probe where a superblock of the file system is found. -/
theorem tryOffset_fits (h : SbFits (s.instances fs).sb (home t fs' 0))
    (hio : t.io t.tick dev (t.instances fs').startLba = .ok) :
    let r := tryOffset fs' (t.instances fs').startLba t
    r.1 = true ∧ r.2.io = t.io ∧
      (r.2.instances fs').sb = KfsSuperblock.ofBytes (home t fs' 0).byte ∧
      Attached r.2 fs' dev := by
  have hrange := hs.range (b := 0) (by
    have hpass := hs.passed
    simp only [sbPlausible, decide_eq_true_eq] at hpass
    omega)
  have hzero : home t fs' 0 = t.disk dev (t.instances fs').startLba := by
    rw [hp.home, hp.startLba, KfsFs.lba, Nat.zero_mul, Nat.add_zero]
  rw [KfsFs.lba, Nat.zero_mul, Nat.add_zero, ← hp.startLba, ← hp.spb, ← hp.bdev] at hrange
  let u := setMem { updInst t fs' (fun f => { f with startLba := (t.instances fs').startLba }) with
    tick := t.tick + 1 } fs' ⟨KfsSuperblock.ofBytes (home t fs' 0).byte, home t fs' 0⟩
  have hu : Attached u fs' dev := SbFits.attached hs
    (hp.of_eq rfl (by simp [u, setMem, setSb, updInst])) h (by simp [u, setMem, setSb])
  have htry : tryOffset fs' (t.instances fs').startLba t =
      (sbPlausible (u.bdev dev) (u.instances fs'), u) := by
    simp [tryOffset, updInst, hp.bd, blockdevRead, hrange, hio, u, hzero]
  rw [htry]
  exact ⟨hu.passed, rfl, by simp [u, setMem, setSb], hu⟩

end

theorem journalRecover_recoversTo (hA : Attached t fs dev) (hb : (t.instances fs).sb.Bounded)
    (hres : Residueless t) (hgeo : SameGeometry sb (t.instances fs).sb) (h0 : ¬ InJournal sb 0)
    (hd : RecoversTo sb post (home t fs)) :
    RecoversTo sb post (home (journalRecover fs t).2 fs) ∧ ((∀ k lba, t.io k dev lba = .ok) →
      Clean sb post (home (journalRecover fs t).2 fs) ∧ ((journalRecover fs t).1 = 1 ∨
        (journalRecover fs t).1 = 0 ∧ home t fs 0 = post 0)) := by
  have hback : SameGeometry (t.instances fs).sb sb := ⟨hgeo.total.symm, hgeo.start.symm⟩
  have hne : 0 ≠ (t.instances fs).sb.journalStart := by
    rw [hgeo.start]
    unfold InJournal at h0
    omega
  obtain ⟨hold, hfirst, hlast⟩ := hd
  have hdone : ∀ {d}, Clean sb post d → RecoversTo sb post d :=
    fun h => ⟨.inl h, by rw [h.home 0 h0]; exact hlast, hlast⟩
  rcases hold with hc | ⟨sequence, entry, pre, hsafe, hredo, rfl⟩
  · obtain ⟨hrec, hret⟩ := journalRecover_clean hA (hc.congr hgeo)
    have hrec := Clean.congr hback hrec
    exact ⟨hdone hrec, fun hio => ⟨hrec, .inr ⟨hret hio, hc.home 0 h0⟩⟩⟩
  · rcases journalRecover_redo hA hb hres (hsafe.congr hgeo) (hredo.congr hgeo) with
      ⟨hone, hrec⟩ | ⟨hrec, hbad⟩
    · exact ⟨hdone (Clean.congr hback hrec), fun _ => ⟨Clean.congr hback hrec, .inl hone⟩⟩
    · refine ⟨⟨.inr ⟨_, _, _, hsafe, Redo.congr hback hrec, rfl⟩, ?_, hlast⟩,
        fun hio => absurd hio hbad⟩
      -- cut short: block 0 is as it was, or as the transaction has it
      have hv := verdict_holds (hsafe.congr hgeo) (hb 1) hA.journal.1 (hredo.congr hgeo).holds
      rcases journalRecover_block hA.spb hres hv hsafe.nodup pre hne with heq | heq
      · rw [heq]
        exact hfirst
      · rw [heq]
        exact hlast

/-- Recovery at mount, by the superblock that was found, and the second look at it. -/
theorem mountRecover_recoversTo {fs' : InstId} (hs : Attached s fs dev) (hA : Attached t fs' dev)
    (hp : SamePlace fs dev s fs' t)
    (hsb : (t.instances fs').sb = KfsSuperblock.ofBytes (home t fs' 0).byte) (hres : Residueless t)
    (h0 : ¬ InJournal (s.instances fs).sb 0)
    (hd : RecoversTo (s.instances fs).sb post (home t fs')) :
    let r := mountRecover fs' t
    SamePlace fs dev s fs' r.2 ∧ RecoversTo (s.instances fs).sb post (home r.2 fs') ∧
      ((∀ k lba, t.io k dev lba = .ok) → r.1 = true ∧ r.2.io = t.io ∧ Attached r.2 fs' dev ∧
        Clean (s.instances fs).sb post (home r.2 fs') ∧
        (r.2.instances fs').sb = KfsSuperblock.ofBytes (post 0).byte) := by
  have hf := journalRecover_frame fs' t
  obtain ⟨hrec, hok⟩ := journalRecover_recoversTo hA (hsb ▸ KfsSuperblock.ofBytes_bounded _) hres
    (hsb ▸ hd.first.geometry) h0 hd
  have hp' : SamePlace fs dev s fs' (journalRecover fs' t).2 :=
    hp.of_eq hf.bdev (by simp [hf.instances])
  have hA' := hA.of_sameButIo hf.toSameButIo
  generalize hrt : journalRecover fs' t = rt at *
  intro r
  have hframe : SamePlace fs dev s fs' r.2 ∧ home r.2 fs' = home rt.2 fs' := by
    simp only [r, mountRecover, hrt]
    split
    · exact ⟨hp', rfl⟩
    split
    · exact ⟨hp'.tryOffset, funext (tryOffset_home _)⟩
    · exact ⟨hp', rfl⟩
  rw [hframe.2]
  refine ⟨hframe.1, hrec, fun hio => ?_⟩
  obtain ⟨hclean, hret⟩ := hok hio
  have hpost := hclean.home 0 h0
  simp only [r, mountRecover, hrt]
  rcases hret with hone | ⟨hzero, hsame⟩
  · obtain ⟨h1, h2, h3, h4⟩ :=
      tryOffset_fits hs hp' (hpost ▸ hd.last) (by rw [hf.io]; exact hio _ _)
    rw [hone, if_neg (by decide), if_pos (by decide)]
    exact ⟨h1, h2.trans hf.io, h4, hclean, by rw [h3, hpost]⟩
  · rw [hzero, if_neg (by decide), if_neg (by decide)]
    exact ⟨rfl, hf.io, hA', hclean, by rw [hf.instances, hsb, hsame]⟩

/-- A mount that reads the superblock keeps what the device recovers to, and without device errors
it serves that. -/
theorem mounted_recovers {disk : Nat → Block} {b : Driver} (hs : Attached s fs dev)
    (hw : WholeDevice fs dev s) (h0 : ¬ InJournal (s.instances fs).sb 0)
    (hb : PowerOn dev s disk b) (hres : Residueless b) (hfirst : b.io b.tick dev 0 = .ok)
    (hd : RecoversTo (s.instances fs).sb post fun k => disk ((s.instances fs).lba k)) :
    let m := mounted dev b
    RecoversTo (s.instances fs).sb post (fun k => m.disk dev ((s.instances fs).lba k)) ∧
      ((∀ k lba, b.io k dev lba = .ok) → Serving 0 dev m ∧ WholeDevice 0 dev m ∧ m.io = b.io ∧
        Clean (s.instances fs).sb post (home m 0) ∧
        (m.instances 0).sb = KfsSuperblock.ofBytes (post 0).byte) := by
  -- nothing is mounted after boot, so instance 0 is taken and the first probe is at offset 0
  have hrun : mounted dev b = probeEnd 0 dev b := by
    refine kfsTypeMount_probe (by rw [hb.bdev]; exact hw.size) ?_ ?_
    · simp [alreadyMounted, hb.used]
    · simp [freeInstance, hb.used, finRange_succ]
  have hself : (boundTo 0 dev b).instances 0 = boundFs dev (s.instances fs).spb := by
    simp [boundTo, updInst, hb.bdev, hw.spb]
  have hp0 : SamePlace fs dev s 0 (boundTo 0 dev b) :=
    ⟨hb.bdev, by rw [hself]; rfl, by rw [hself, hw.startLba]; rfl, by rw [hself]; rfl⟩
  have hhome0 : home (boundTo 0 dev b) 0 = fun k => disk ((s.instances fs).lba k) := by
    funext k
    rw [hp0.home, ← hb.disk]
    rfl
  have hlba : ((boundTo 0 dev b).instances 0).startLba = 0 := by rw [hself]; rfl
  obtain ⟨h1, h2, h3, h4⟩ := tryOffset_fits hs hp0 (by rw [hhome0]; exact hd.first)
    (by rw [hlba]; exact hfirst)
  have hp := hp0.tryOffset
  have hhome := funext (@tryOffset_home 0 (boundTo 0 dev b))
  rw [hhome0] at h3 hhome
  rw [hlba] at *
  have hprobe : mountProbe 0 (2048 * 512 / (b.bdev dev).blockSize) (boundTo 0 dev b) =
      let r := mountRecover 0 (tryOffset 0 0 (boundTo 0 dev b)).2
      (r.1, if r.1 then setMounted r.2 0 true else r.2) := by
    simp [mountProbe, probeOffsets, h1]
  generalize (tryOffset 0 0 (boundTo 0 dev b)).2 = t at *
  obtain ⟨hpr, hrec, hok⟩ := mountRecover_recoversTo hs h4 hp (by rw [h3, hhome]) (hres.of_io h2) h0
    (hhome ▸ hd)
  generalize mountRecover 0 t = r at *
  have hend : mounted dev b = if r.1 then setMounted r.2 0 true else mountAbandon 0 r.2 := by
    rw [hrun, probeEnd, hprobe]
    dsimp only
    cases r.1 <;> rfl
  have hdisk : (fun k => (mounted dev b).disk dev ((s.instances fs).lba k)) = home r.2 0 := by
    funext k
    rw [hpr.home, hend]
    split <;> rfl
  intro m
  rw [hdisk]
  refine ⟨hrec, fun hio => ?_⟩
  obtain ⟨hone, hmio, hA, hclean, hsb⟩ := hok (by rw [h2]; exact hio)
  have hm : m = setMounted r.2 0 true := hend.trans (if_pos hone)
  have hself : m.instances 0 = { r.2.instances 0 with mounted := true } := by simp [hm, setMounted]
  have hpm : SamePlace fs dev s 0 m := hpr.of_eq (by rw [hm]; rfl) (by simp [hself])
  have hhomem : home m 0 = home r.2 0 := (funext hpm.home).trans hdisk
  have hco : Coherent True m := kfsTypeMount_coherent (some dev) (hb.coherent True) fun f _ i => by
    simp [hb.bcache]
  have hAm : Attached m 0 dev := SbFits.attached hs hpm hd.last (by rw [hself]; exact hsb)
  refine ⟨⟨hAm, by rw [hself], hco.idle, hco.uniq, fun k _ => hco.cache 0 (by rw [hself]) k
    (.inr trivial), ?_⟩, hw.of_place hpm, by rw [hm]; exact hmio.trans h2,
    by rw [hhomem]; exact hclean, by rw [hself]; exact hsb⟩
  rw [hhomem, hclean.home 0 h0, hself, hsb]

/-- A mounted file system between two calls, on a device without errors: its blocks are accounted
for and its journal is clean. -/
structure Alive (fs : InstId) (dev : DevId) (s : Driver) : Prop
    extends Serving fs dev s, WholeDevice fs dev s where
  sound : Sound (s.instances fs).sb (home s fs)
  io : ∀ k lba, s.io k dev lba = .ok
  header : home s fs (s.instances fs).sb.journalStart = Block.zero

theorem commitWrites_header (h : commitWrites fs s = (true, t)) (hspb : 0 < (s.instances fs).spb) :
    home t fs (s.instances fs).sb.journalStart = Block.zero := by
  unfold commitWrites at h
  dsimp only at h
  split at h
  · simp at h
  rename_i s1 h1
  split at h
  · simp at h
  rename_i s2 h2
  split at h
  · simp at h
  rename_i s3 h3
  split at h
  · simp at h
  rename_i s4 h4
  cases h
  have hinst : s3.instances = s.instances := by
    rw [(writeHomes_frame h3).instances, (journalRawWrite_frame h2).instances,
      (writePayloads_frame h1).instances]
  rw [journalClear, hinst] at h4
  rw [journalRawWrite_true_eq h4 (by rw [hinst]; exact hspb), Function.update_self]

theorem journalCommit_nothing (hactive : s.journalTx.active) (hfs : s.journalTx.fs = some fs) :
    (journalCommit fs s).2.disk = s.disk ∨ s.journalTx.failed = false ∧ s.journalTx.entry ≠ [] := by
  by_cases hfail : s.journalTx.failed = true
  · left
    simp only [journalCommit, commitBody, hfail, or_true, if_true]
    split <;> rfl
  by_cases hnil : s.journalTx.entry = []
  · left
    simp [journalCommit, commitBody, hactive, hfs, hfail, hnil, journalReset]
  exact .inr ⟨by simpa using hfail, hnil⟩

namespace Alive

variable (h : Alive fs dev s) (c : KfsCall)
include h

theorem geometry : Geometry (s.instances fs).sb := h.toServing.geometry h.sound.blocks.hi_cap

theorem place : SamePlace fs dev s fs s := ⟨rfl, h.attached.bd, rfl, rfl⟩

theorem zero_not_inJournal : ¬ InJournal (s.instances fs).sb 0 := by
  have := h.geometry.journalStart
  unfold InJournal
  omega

/-- A call that is about to commit has staged blocks of the file system outside its journal, and
what it has come to see is good. -/
theorem exec_good {e : Int × Driver} (he : exec fs c.body (begun fs s) = e) (hok : c.ok e.1)
    (hfail : e.2.journalTx.failed = false) (hne : e.2.journalTx.entry ≠ []) :
    Good (readOr (s.instances fs).sb False) (s.instances fs).sb (viewOf fs e.2) ∧
      SafeTx (s.instances fs).sb e.2.journalTx.sequence e.2.journalTx.entry ∧
      Attached e.2 fs dev ∧ SamePlace fs dev s fs e.2 := by
  subst he
  have hg := h.geometry
  obtain ⟨-, hbdev, -, -, -, hinst, -, hlayout, -, -⟩ := @exec_begun fs _ c h.idle
  obtain ⟨hr, hin⟩ := exec_running c.body (@begun_inTx fs _ h.idle)
  obtain ⟨_, hb, -⟩ := @begun_eq fs _ h.idle
  have hstart : Good (readOr (s.instances fs).sb False) (s.instances fs).sb (startView fs s) :=
    h.start h.sound.accounted h.sound.clean
  have hwp := c.wp_body_good hg hstart
  rw [← begun_view h.idle] at hwp
  have hgood := (exec_wp c.body (@begun_inTx fs _ h.idle) (by rw [hb]; exact h.mounted)
    (h.allows fun _ _ hb => h.attached.readsOk h.io hb) False.elim hwp).resolve_left
      (by simp [hfail]) hok
  have hseq : (begun fs s).journalTx.sequence < 4294967296 := by
    simp only [begun, journalBegin, h.idle, Bool.false_eq_true, if_false]
    split <;> omega
  have hstaged : ∀ en ∈ (exec fs c.body (begun fs s)).2.journalTx.entry,
      en.1 < (s.instances fs).sb.totalBlocks ∧ ¬ InJournal (s.instances fs).sb en.1 := by
    intro en hen
    refine hgood.staged en.1 ?_
    simp only [viewOf, hin.pending, Option.isSome_map]
    exact List.find?_isSome.mpr ⟨en, hen, by simp⟩
  refine ⟨hgood, ⟨hr.sequence ▸ hseq, hne, hin.len, hin.nodup, fun en hen => (hstaged en hen).1,
    fun en hen => (hstaged en hen).2⟩,
    h.attached.of_layout hbdev hinst hlayout hgood.ledger.free_le, ?_⟩
  exact h.place.of_eq hbdev (by rw [hinst]; simp)

theorem call : Alive fs dev (c.run fs s).2 := by
  obtain ⟨hserving, hsound, hio⟩ := c.run_ok h.toServing h.sound h.io
  have hend : SamePlace fs dev s fs (c.run fs s).2 ∧
      SameLayout (s.instances fs).sb ((c.run fs s).2.instances fs).sb := by
    rcases c.run_outcome h.toServing h.sound (fun _ _ hb => h.attached.readsOk h.io hb) False.elim
      fun k _ => h.io k with
      hsame | ⟨hu, -⟩ | ⟨v, hd, -⟩
    · rw [hsame]
      exact ⟨h.place, .refl _⟩
    · exact ⟨h.place.of_eq hu.bdev (by simp [hu.instances]), by rw [hu.instances]; exact .refl _⟩
    · exact ⟨h.place.of_eq hd.bdev (by simp [hd.inst]), by rw [hd.inst]; exact hd.layout⟩
  obtain ⟨hp, hl⟩ := hend
  refine ⟨hserving, h.toWholeDevice.of_place hp, hsound, hio, ?_⟩
  rw [hl.journalStart]
  have hkept : (c.run fs s).2.disk = s.disk →
      home (c.run fs s).2 fs (s.instances fs).sb.journalStart = Block.zero := fun hd => by
    rw [hp.home, hd, ← h.place.home, h.header]
  rcases c.run_eq s with hrun | hrun
  swap
  · exact hkept (by rw [hrun])
  obtain ⟨hin, -, heio, hdisk, -, hinst, -, hlayout, -, -⟩ := @exec_begun fs _ c h.idle
  obtain ⟨_, -, hbegin⟩ := @begun_eq fs _ h.idle
  have hr : (c.run fs s).2.disk = if c.ok (exec fs c.body (begun fs s)).1 then
      (journalCommit fs (exec fs c.body (begun fs s)).2).2.disk else s.disk := by
    rw [hrun, ← hdisk]
    simp only [transact, h.mounted, if_true, hbegin]
    split
    · rcases journalCommit fs _ with ⟨_ | _, t⟩ <;> rfl
    · simp only [journalAbort, hin.active, hin.fs]
      rfl
  generalize he : exec fs c.body (begun fs s) = e at *
  split at hr
  swap
  · exact hkept hr
  rename_i hok
  rcases journalCommit_nothing hin.active hin.fs with hd | ⟨hfail, hne⟩
  · exact hkept (hr.trans (hd.trans hdisk))
  obtain ⟨-, hsafe, hA, hpe⟩ := h.exec_good c he hok hfail hne
  rcases hw : commitWrites fs e.2 with ⟨ok, t⟩
  obtain rfl := commitWrites_ok hw hA hin.len
    (by rw [hlayout.fields.2.2.1]; exact hsafe.inside) (by rw [heio]; exact fun k _ => h.io k)
  rw [hp.home, hr, ← hpe.lba,
    journalCommit_disk hin.active hin.fs hfail hne hin.len hA.bd hA.spb, hw, ← hlayout.journalStart]
  exact commitWrites_header hw hA.spb

end Alive

theorem PowerOn.cutPower {disk : Nat → Block} {b : Driver} (h : PowerOn dev s disk b)
    (cut : Option Nat) : PowerOn dev s disk (cutPower b cut) :=
  ⟨⟨h.idle, h.mounted, h.bcache⟩, h.used, h.bdev, h.disk⟩

namespace Alive

variable (h : Alive fs dev s) (c : KfsCall)
include h

theorem fits : SbFits (s.instances fs).sb (home s fs 0) := by
  unfold SbFits
  rw [h.sbHome]
  exact ⟨.refl _, h.sound.accounted.free_le⟩

theorem dark {disk : Nat → Block} (hd : Dark dev s disk d)
    (hrec : RecoversTo (s.instances fs).sb post fun k => disk ((s.instances fs).lba k)) :
    RecoversTo (s.instances fs).sb post fun k => d ((s.instances fs).lba k) := by
  induction hd with
  | off => exact hrec
  | again d b n _ hb ih =>
    exact (mounted_recovers h.attached h.toWholeDevice h.zero_not_inJournal (hb.cutPower _)
      (cutPower_residueless _ _) (by simp [cutPower, powerCut]) ih).1

/-- However far the writes of a call came, the device recovers to what the call found or to what
its body left. -/
theorem cut (n : Nat) :
    let held := fun k => c.cutDisk fs dev n s ((s.instances fs).lba k)
    let e := exec fs c.body (begun fs s)
    RecoversTo (s.instances fs).sb (home s fs) held ∨ (c.ok e.1 ∧ e.2.journalTx.failed = false ∧
      e.2.journalTx.entry ≠ []) ∧ RecoversTo (s.instances fs).sb (seen e.2 fs) held := by
  intro held e
  obtain ⟨hin, -, -, hdisk, -, hinst, -, hlayout, -, -⟩ := @exec_begun fs _ c h.idle
  have hhome : home e.2 fs = home s fs := funext (home_of_inst ⟨_, hinst⟩ hdisk)
  have hsame : ∀ {disk : DevId → Nat → Block}, disk = s.disk → RecoversTo (s.instances fs).sb
      (home s fs) fun k => disk dev ((s.instances fs).lba k) := by
    rintro disk rfl
    rw [← funext h.place.home]
    exact ⟨.inl ⟨h.header, fun _ _ => rfl⟩, h.fits, h.fits⟩
  by_cases hok : c.ok e.1 = true
  swap
  · simp only [held, KfsCall.cutDisk, e] at hok ⊢
    rw [if_neg hok]
    exact .inl (hsame rfl)
  rcases journalCommit_nothing (s := cutPower e.2 (some n)) hin.active hin.fs with hd | ⟨hfail, hne⟩
  · simp only [held, KfsCall.cutDisk, e] at hok hd ⊢
    rw [if_pos hok]
    exact .inl (hsame (hd.trans hdisk))
  obtain ⟨hgood, hsafe, hA, hpe⟩ := h.exec_good c rfl hok hfail hne
  have hgeo : SameGeometry (e.2.instances fs).sb (s.instances fs).sb :=
    ⟨hlayout.fields.2.2.1.symm, hlayout.journalStart.symm⟩
  have hsafe' : SafeTx (e.2.instances fs).sb e.2.journalTx.sequence e.2.journalTx.entry :=
    hsafe.congr ⟨hgeo.total.symm, hgeo.start.symm⟩
  have hpost : applyWrites e.2.journalTx.entry (home s fs) = seen e.2 fs := by
    rw [hin.seen, ← hhome]
  have hlast : SbFits (s.instances fs).sb (seen e.2 fs 0) := by
    have hsb : KfsSuperblock.ofBytes (seen e.2 fs 0).byte = (e.2.instances fs).sb := hgood.sbHome
    exact ⟨hsb ▸ hlayout, hsb ▸ hgood.ledger.free_le⟩
  -- the writes of the commit, cut short
  have hcut : Attached (cutPower e.2 (some n)) fs dev := ⟨hA.bd, hA.spb, hA.writable, hA.passed⟩
  have hres := cutPower_residueless e.2 (some n)
  have hheld : held = home (commitWrites fs (cutPower e.2 (some n))).2 fs := by
    funext k
    rw [← journalCommit_disk (s := cutPower e.2 (some n)) hin.active hin.fs hfail hne hin.len hA.bd
      hA.spb k]
    simp only [held, KfsCall.cutDisk, e, ← hpe.lba] at hok ⊢
    rw [if_pos hok]
    rfl
  have hphase := commitWrites_phase hcut hres hsafe' (by
    change home e.2 fs (e.2.instances fs).sb.journalStart = _
    rw [hhome, hlayout.journalStart, h.header])
  have hblock := commitWrites_block hcut.spb hres hsafe' (b := 0)
    fun hj => h.zero_not_inJournal ((inJournal_of_layout hlayout 0).mp hj)
  rw [← hheld] at hphase hblock
  rw [show home (cutPower e.2 (some n)) fs = home s fs from hhome] at hphase hblock
  have hfirst : SbFits (s.instances fs).sb (held 0) := by
    rcases hblock with hb | hb
    · exact hb ▸ h.fits
    · rw [hb]
      exact hpost ▸ hlast
  rcases hphase with ⟨hclean, -⟩ | hredo | hclean
  · exact .inl ⟨.inl (hclean.congr hgeo), hfirst, h.fits⟩
  · exact .inr ⟨⟨hok, hfail, hne⟩, .inr ⟨_, _, _, hsafe, hredo.congr hgeo, hpost⟩, hfirst, hlast⟩
  · exact .inr ⟨⟨hok, hfail, hne⟩, .inl (hpost ▸ hclean.congr hgeo), hfirst, hlast⟩

/-- A mount over a device that recovers to a sound file system. -/
theorem remount {disk : Nat → Block} {b : Driver} (hb : PowerOn dev s disk b)
    (hrec : RecoversTo (s.instances fs).sb post fun k => disk ((s.instances fs).lba k))
    (hacc : Accounted (s.instances fs).sb post (KfsSuperblock.ofBytes (post 0).byte).freeBlocks)
    (hfree : FreeClean (s.instances fs).sb post) : Alive 0 dev (mounted dev (cutPower b none)) ∧
      Clean (s.instances fs).sb post (home (mounted dev (cutPower b none)) 0) := by
  obtain ⟨hserving, hwhole, hio, hclean, hsb⟩ := (mounted_recovers h.attached h.toWholeDevice
    h.zero_not_inJournal (hb.cutPower none) (cutPower_residueless b none) rfl hrec).2 fun _ _ => rfl
  refine ⟨⟨hserving, hwhole, ?_, fun _ _ => by rw [hio]; rfl, ?_⟩, hclean⟩
  · rw [hsb]
    exact Sound.of_accounted h.geometry hrec.last.1 hacc hfree hclean.home
  · rw [hsb, hrec.last.geometry.start]
    exact hclean.header

/-- Power fails during a call and comes back. -/
theorem outage {n : Nat} {b : Driver} (hd : Dark dev s (c.cutDisk fs dev n s) d)
    (hb : PowerOn dev s d b) :
    let e := exec fs c.body (begun fs s)
    let m := mounted dev (cutPower b none)
    Alive 0 dev m ∧ (Clean (s.instances fs).sb (home s fs) (home m 0) ∨
      c.ok e.1 ∧ Clean (s.instances fs).sb (seen e.2 fs) (home m 0)) := by
  intro e m
  rcases h.cut c n with hrec | ⟨⟨hok, hfail, hne⟩, hrec⟩
  · obtain ⟨halive, hclean⟩ := h.remount hb (h.dark hd hrec)
      (by rw [h.sbHome]; exact h.sound.accounted) h.sound.clean
    exact ⟨halive, .inl hclean⟩
  · obtain ⟨hgood, -⟩ := h.exec_good c rfl hok hfail hne
    obtain ⟨halive, hclean⟩ :=
      h.remount hb (h.dark hd hrec) (hgood.sbHome ▸ hgood.ledger) hgood.clean
    exact ⟨halive, .inr ⟨hok, hclean⟩⟩

end Alive

/-- What can become of a file system that was first mounted as `fs0` in `s0`: calls, and power
failures during a call. -/
inductive Lives (dev : DevId) (fs0 : InstId) (s0 : Driver) : InstId → Driver → Prop
  | start : Lives dev fs0 s0 fs0 s0
  | call {fs : InstId} {s : Driver} (c : KfsCall) (h : Lives dev fs0 s0 fs s) :
      Lives dev fs0 s0 fs (c.run fs s).2
  | outage {fs : InstId} {s b : Driver} {d : Nat → Block} (c : KfsCall) (n : Nat)
      (h : Lives dev fs0 s0 fs s) (hd : Dark dev s (c.cutDisk fs dev n s) d)
      (hb : PowerOn dev s d b) : Lives dev fs0 s0 0 (mounted dev (cutPower b none))

/-- Over any calls and any power failures, also during the mounts that follow them, the file system
is served and its blocks are accounted for; and a call that power fails in is done as a whole or not
at all. -/
theorem power_failures_are_survived {fs0 fs : InstId} {dev : DevId} {s0 s : Driver}
    (h0 : Alive fs0 dev s0) (h : Lives dev fs0 s0 fs s) :
    Alive fs dev s ∧ ∀ (c : KfsCall) (n : Nat) (d : Nat → Block) (b : Driver),
      Dark dev s (c.cutDisk fs dev n s) d → PowerOn dev s d b →
      let e := exec fs c.body (begun fs s)
      let m := mounted dev (cutPower b none)
      Alive 0 dev m ∧ (Clean (s.instances fs).sb (home s fs) (home m 0) ∨
        c.ok e.1 ∧ Clean (s.instances fs).sb (seen e.2 fs) (home m 0)) := by
  have halive : Alive fs dev s := by
    induction h with
    | start => exact h0
    | call c _ ih => exact ih.call c
    | outage c n _ hd hb ih => exact (ih.outage c hd hb).1
  exact ⟨halive, fun c n d b hd hb => halive.outage c hd hb⟩

/-- Power is lost after two writes of a call, and the device is mounted again. -/
theorem power_failures_are_survived_smallRoot :
    let s := smallFs 40 37 smallRoot fun _ => Block.zero
    let b : Driver :=
      { s with disk := fun _ => createA.cutDisk 0 0 2 s, instances := fun _ => KfsFs.zero }
    Alive 0 0 (mounted 0 (cutPower b none)) := by
  intro s b
  have h0 : Alive 0 0 s := ⟨smallFs_serving (by decide) (by decide) (by decide) (by decide),
    ⟨rfl, by decide, by decide⟩, smallRoot_sound, fun _ _ => rfl, rfl⟩
  have hb : PowerOn 0 s (createA.cutDisk 0 0 2 s) b :=
    ⟨⟨rfl, fun _ => rfl, fun _ => rfl⟩, fun _ => rfl, rfl, rfl⟩
  exact (power_failures_are_survived h0 (.outage createA 2 .start .off hb)).1

end KestrelOS.Kfs
