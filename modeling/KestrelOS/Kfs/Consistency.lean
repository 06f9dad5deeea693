import KestrelOS.Kfs.Calls
import KestrelOS.Kfs.Crash
import KestrelOS.Kfs.Sound

/-!
# Block accounting over runs of calls

A call either commits a view that is `Good` or leaves every block outside the journal as it was.
Reads may fail, as long as the call does not go on and succeed after a failure it overlooked.
-/

namespace KestrelOS.Kfs

open TxProg (wp_bind wp_pure wp_mono wp_trivial)

section

variable {may : ReadRule Block} {sb : KfsSuperblock} {view view' : Nat → Block}
  {v w : View} {ino : Nat}

/-- References are accounted for, and free inodes have none. -/
structure Good (may : ReadRule Block) (sb : KfsSuperblock)
    (v : TxView Block KfsMem) : Prop extends TxOk may sb v where
  clean : FreeClean sb v.view

theorem FreeClean.change (hc : FreeClean sb view) (ho : OnlyInode sb ino view view')
    (hself : (inodeAt sb view' ino).type = 0 → ∀ slot, ptrOf sb view' ino slot = 0) :
    FreeClean sb view' := by
  intro i hi htype slot
  by_cases hne : i = ino
  · subst hne
    exact hself htype slot
  rw [ho.inodes i hi hne] at htype
  rw [ho.ptrs i slot hi hne]
  exact hc i hi htype slot

theorem Good.store_same (hg : Geometry sb) (h : Good may sb v) {ip : KfsInode}
    (hv : inoValid sb ino) (hb : ip.Bounded) (hd : ip.direct = (inodeAt sb v.view ino).direct)
    (hi : ip.indirect = (inodeAt sb v.view ino).indirect)
    (hself : ip.type = 0 → ∀ slot, ptrOf sb v.view ino slot = 0) :
    Good may sb (store v ino ip) := by
  obtain ⟨hok, ho, hat, hptr, -⟩ := h.toTxOk.store_only hg hv hb hd hi
  refine ⟨hok, h.clean.change ho fun htype slot => ?_⟩
  rw [hat] at htype
  rw [hptr]
  exact hself htype slot

theorem direct_zero_of_ptrs (h : ∀ slot, ptrOf sb view ino slot = 0) :
    (inodeAt sb view ino).direct = (fun _ => 0) ∧ (inodeAt sb view ino).indirect = 0 := by
  constructor
  · funext i
    have := h (some i.val)
    simpa [ptrOf, ptr, KfsInode.directAt] using this
  · exact h none

private theorem Good.change (h : Good may sb v) (hok : TxOk may sb w)
    (ho : OnlyInode sb ino v.view w.view) (htype : (inodeAt sb w.view ino).type ≠ 0) :
    Good may sb w :=
  ⟨hok, h.clean.change ho fun hz => absurd hz htype⟩

theorem Good.wrote (h : Good may sb v) {pos len : Nat} {data : Nat → UInt8}
    (htype : (inodeAt sb v.view ino).type ≠ 0) (hw : Wrote may sb ino pos len data v w) :
    Good may sb w :=
  h.change hw.ok hw.only (by rw [hw.attrs]; exact htype)

section
variable (hg : Geometry sb)
include hg

theorem good_stable : Stable may sb (Good may sb) where
  ok := fun v h => h.toTxOk
  alloc := by
    intro v ino ip h hv htype hb ht _ hd hi
    obtain ⟨h1, h2⟩ := direct_zero_of_ptrs (h.clean ino hv htype)
    exact h.store_same hg hv hb (by rw [h1]; exact funext hd) (by rw [h2, hi])
      fun hz => absurd hz ht
  release := by
    intro v ino h hv _ hptr
    obtain ⟨h1, h2⟩ := direct_zero_of_ptrs hptr
    exact h.store_same hg hv KfsInode.zero_bounded h1.symm h2.symm fun _ => hptr
  attrs := by
    intro v ino ip h hv hb ht _ hd hi
    exact h.store_same hg hv hb hd hi fun hz => h.clean ino hv (ht ▸ hz)
  truncated := by
    intro v w ino mtime h _ ht
    refine ⟨ht.ok, h.clean.change ht.only fun _ slot => ?_⟩
    rw [ptrOf, ht.self, ptr_emptied]
  wrote := fun v w ino _ _ _ h _ htype _ _ _ hw => h.wrote htype hw

private theorem wp_writeLocked_good (h : Good may sb v) (ino off : Nat) (buf : Bytes) (n : Nat)
    {mtime : Nat} (hm : mtime < 4294967296) :
    (writeLocked ino off buf n mtime).wp may (fun r w => 0 ≤ r → Good may sb w) v := by
  refine wp_writeLocked h.toShape (by simp) fun hv _ => ?_
  refine wp_writei hg (I := fun _ w => Good may sb w ∧ (inodeAt sb w.view ino).type ≠ 0)
    ?_ ?_ h.toTxOk ?_ ?_ ?_ ?_
  · exact fun _ w hw => hw.1.toTxOk
  · intro done w w' hw _ hwr
    refine ⟨hw.1.wrote hw.2 hwr, ?_⟩
    rw [hwr.attrs]
    exact hw.2
  · intro w hneg
    omega
  · exact fun _ _ => h
  · exact fun _ htype _ => ⟨h, htype⟩
  · intro _ _ _ done w _ hend _
    have hgood : Good may sb w := by
      cases hend with
      | all _ hw => exact hw.1
      | full _ _ hw => exact hw.1
      | half _ nb w0 _ hw _ _ _ _ hl =>
        exact hw.1.change hl.ok hl.only (by rw [hl.attrs]; exact hw.2)
      | unread _ b w0 _ hw _ hmap =>
        exact hw.1.change hmap.ok hmap.only (by rw [hmap.attrs]; exact hw.2)
    exact (good_stable hg).attrs w ino _ hgood hv
      (mtime_bounded (inodeAt_bounded sb w.view ino) hm) rfl rfl rfl rfl

theorem KfsCall.wp_body_good (h : Good may sb v) (c : KfsCall) :
    c.body.wp may (fun r w => c.ok r → Good may sb w) v :=
  c.wp_body hg (good_stable hg) h fun _ _ _ _ mtime _ =>
    wp_writeLocked_good hg h _ _ _ _ mtime.toNat_lt

end

end

section

variable {fs : InstId} {dev : DevId} {s t : Driver}

/-- What reads may return when the cached copies are right: the contents of the block, or nothing if
`errors`. -/
def readOr (sb : KfsSuperblock) (errors : Prop) : ReadRule Block where
  may b d r := b < sb.totalBlocks → ¬ InJournal sb b → r = some d ∨ r = none ∧ errors
  fallible := errors

variable {errors : Prop} {sb : KfsSuperblock}

private theorem readOr_honest (hg : Geometry sb) : HonestReads (readOr sb errors) sb := by
  have hreg := hg.regions
  refine ⟨fun bb hbb d r h => ?_, fun ino hv d r h => ?_, fun b hlo hhi d r h => ?_⟩
  · exact h (by omega) (by unfold InJournal; omega)
  · have hblk := hg.inodeBlk_range hv
    exact h (by omega) (hg.not_inJournal hblk.1)
  · exact h hhi (hg.not_inJournal (by omega))

theorem Serving.allows (h : Serving fs dev s)
    (hreads : ¬ errors → ∀ b < (s.instances fs).sb.totalBlocks, ReadsOk s fs b) :
    Allows (readOr (s.instances fs).sb errors) fs (begun fs s) := by
  obtain ⟨sequence, hb, -⟩ := @begun_eq fs _ h.idle
  intro b r hr hlt hj
  rw [hb] at hr
  rcases hr (h.cache b hj) with hr | ⟨hr, hno⟩
  · left
    rw [hr, hb]
  · exact .inr ⟨hr, by_contra fun he => hno (hreads he b hlt)⟩

theorem Serving.start (h : Serving fs dev s)
    (hacc : Accounted (s.instances fs).sb (home s fs) (s.instances fs).sb.freeBlocks)
    (hclean : FreeClean (s.instances fs).sb (home s fs)) :
    Good (readOr (s.instances fs).sb errors) (s.instances fs).sb (startView fs s) := by
  have hg := h.geometry hacc.hi_cap
  exact ⟨⟨⟨.refl _, h.sbHome, by simp [startView], readOr_honest hg⟩, hacc⟩, hclean⟩

theorem Attached.of_layout (hA : Attached s fs dev) (hbdev : t.bdev = s.bdev)
    (hinst : t.instances fs = { s.instances fs with sb := sb })
    (hlayout : SameLayout (s.instances fs).sb sb)
    (hfree : sb.freeBlocks ≤ (s.instances fs).sb.totalBlocks - (s.instances fs).sb.dataStart) :
    Attached t fs dev := by
  have hp := hA.passed
  simp only [sbPlausible, decide_eq_true_eq] at hp
  refine ⟨by rw [hinst]; exact hA.bd, by rw [hinst]; exact hA.spb, by rw [hbdev]; exact hA.writable,
    ?_⟩
  rw [hbdev, hinst, hlayout]
  simp only [sbPlausible, decide_eq_true_eq]
  omega

private theorem Serving.undone (h : Serving fs dev s) (hcov : (s.instances fs).sb.totalBlocks ≤
    (s.instances fs).sb.bitmapBlocks * 32768) (hu : Undone fs s t) : Serving fs dev t := by
  have hg := h.geometry hcov
  have h1 := hg.journalStart
  have hA := h.attached
  refine ⟨⟨?_, ?_, ?_, ?_⟩, ?_, hu.active, hu.uniq h.uniq, ?_, ?_⟩
  · rw [hu.instances]; exact hA.bd
  · rw [hu.instances]; exact hA.spb
  · rw [hu.bdev]; exact hA.writable
  · rw [hu.bdev, hu.instances]; exact hA.passed
  · rw [hu.instances]; exact h.mounted
  · intro b hb
    rw [hu.instances] at hb
    exact hu.cache b hb (h.cache b hb)
  · rw [hu.instances, hu.home 0 (by unfold InJournal; omega)]
    exact h.sbHome

variable {may : ReadRule Block}

theorem Serving.done (h : Serving fs dev s) (hg : Geometry (s.instances fs).sb)
    {v : View} (hgood : TxOk may (s.instances fs).sb v) (hd : Done fs s t v) :
    Serving fs dev t := by
  have h1 := hg.journalStart
  have hj : ∀ b, InJournal (t.instances fs).sb b ↔ InJournal (s.instances fs).sb b := by
    intro b
    rw [hd.inst]
    exact inJournal_of_layout hd.layout b
  refine ⟨h.attached.of_layout hd.bdev hd.inst hd.layout hgood.ledger.free_le, ?_, hd.active,
    hd.uniq h.uniq, ?_, ?_⟩
  · rw [hd.inst]; exact h.mounted
  · intro b hb
    rw [hj] at hb
    exact hd.cache h.uniq b hb (h.cache b hb)
  · rw [hd.home 0 (by unfold InJournal; omega), hd.inst]
    exact hgood.sbHome

theorem commitWrites_ok {ok : Bool} (h : commitWrites fs s = (ok, t)) (hA : Attached s fs dev)
    (hlen : s.journalTx.entry.length ≤ 32)
    (hfit : ∀ e ∈ s.journalTx.entry, e.1 < (s.instances fs).sb.totalBlocks)
    (hio : ∀ k, s.tick ≤ k → ∀ lba, s.io k dev lba = .ok) : ok := by
  have hj := hA.journal.2
  unfold commitWrites at h
  dsimp only at h
  split at h
  · cases h
    exact writePayloads_ok ‹_› hA (by omega) fun k _ => hio _ (by omega)
  rename_i s1 h1
  have hs1 := (writePayloads_frame h1).toSameButIo
  have hp := writePayloads_tick h1
  split at h
  · rename_i s2 h2
    cases h
    exact journalRawWrite_ok h2 (hA.of_sameButIo hs1) (by rw [hs1.instances]; omega)
      (by rw [hs1.io]; exact hio _ (by omega) _)
  rename_i s2 h2
  have hs2 := hs1.trans (journalRawWrite_frame h2).toSameButIo
  have hh := journalRawWrite_tick h2
  have hw : ∀ ok s3, writeHomes fs s.journalTx.entry s2 = (ok, s3) → _ := fun ok s3 h3 =>
    writeHomes_ok h3 (hA.of_sameButIo hs2) (by rw [hs2.instances]; exact hfit)
      fun k hk lba => by rw [hs2.io]; exact hio k (by omega) lba
  split at h
  · cases h
    exact (hw _ _ ‹_›).1
  rename_i s3 h3
  have hs3 := hs2.trans (writeHomes_frame h3).toSameButIo
  have ht := (hw _ _ h3).2
  split at h
  · rename_i s4 h4
    cases h
    exact journalRawWrite_ok h4 (hA.of_sameButIo hs3) (by rw [hs3.instances]; omega)
      (by rw [hs3.io]; exact hio _ (by omega) _)
  · cases h
    rfl

def KfsCall.readsUntil (fs : InstId) (c : KfsCall) (s : Driver) : Nat :=
  (exec fs c.body (begun fs s)).2.tick

private theorem transact_mounted (c : KfsCall)
    (h : Serving fs dev s) (hio : ∀ k, c.readsUntil fs s ≤ k → ∀ lba, s.io k dev lba = .ok)
    (hgood : (exec fs c.body (begun fs s)).2.journalTx.failed ∨
      (c.ok (exec fs c.body (begun fs s)).1 →
        TxOk may (s.instances fs).sb (viewOf fs (exec fs c.body (begun fs s)).2))) :
    ((transact fs c.body c.ok s).2.instances fs).mounted := by
  obtain ⟨sequence, -, hbegin⟩ := @begun_eq fs _ h.idle
  obtain ⟨hin, hbdev, heio, -, -, hinst, -, hlayout, -, -⟩ := @exec_begun fs _ c h.idle
  unfold KfsCall.readsUntil at hio
  simp only [transact, h.mounted, if_true, hbegin]
  generalize exec fs c.body (begun fs s) = e at *
  have hmount : (e.2.instances fs).mounted = true := by rw [hinst]; exact h.mounted
  have hset : ∀ sb, ((setSb e.2 fs sb).instances fs).mounted := by
    intro sb
    simp [setSb, hmount]
  split
  · rename_i hok
    suffices hcommit : ((journalCommit fs e.2).2.instances fs).mounted = true by
      revert hcommit
      cases journalCommit fs e.2 with
      | mk r t => cases r <;> exact fun h => h
    unfold journalCommit commitBody
    by_cases hfail : e.2.journalTx.failed = true
    · rw [if_pos (.inr (.inr hfail))]
      simp only [hmount, if_true, journalReset]
      exact hset _
    rw [if_neg (by simp [hin.active, hin.fs, hfail])]
    by_cases hnil : e.2.journalTx.entry = []
    · rw [if_pos hnil]
      exact hmount
    rw [if_neg hnil]
    have hview := (hgood.resolve_left hfail) hok
    have hA : Attached e.2 fs dev := h.attached.of_layout hbdev hinst hlayout hview.ledger.free_le
    have hfit : ∀ en ∈ e.2.journalTx.entry, en.1 < (e.2.instances fs).sb.totalBlocks := by
      intro en hen
      rw [hlayout.fields.2.2.1]
      refine (hview.staged en.1 ?_).1
      simp only [viewOf, hin.pending, Option.isSome_map]
      exact List.find?_isSome.mpr ⟨en, hen, by simp⟩
    rcases hw : commitWrites fs e.2 with ⟨ok, t⟩
    obtain rfl := commitWrites_ok hw hA hin.len hfit (by rw [heio]; exact hio)
    rcases commitWrites_outcome hw hA.spb hin.len with ⟨hno, -⟩ | ⟨-, hsame, -⟩ | ⟨hno, -⟩
    · simp at hno
    · simp only [journalReset]
      rw [hsame.instances]
      exact hmount
    · simp at hno
  · simp only [journalAbort, hin.active, hin.fs]
    exact hset _

/-- The body of the call succeeds, although it went on after a read had failed: `bfree` returns
without having freed, `truncate_locked` skips the entries of a table, or `writei` does not look at
what its last `iput` returned. -/
def KfsCall.overlooks (fs : InstId) (c : KfsCall) (s : Driver) : Bool :=
  c.ok (exec fs c.body (begun fs s)).1 && !(exec fs c.body (begun fs s)).2.journalTx.failed &&
    ignores fs c.body (begun fs s)

/-- What `wp` promises of the body of a call holds when it succeeds, unless the journal
overflowed. -/
theorem KfsCall.exec_body {I : Int → View → Prop} (h : Serving fs dev s)
    (hallow : Allows may fs (begun fs s)) (c : KfsCall)
    (hwp : c.body.wp may (fun r w => c.ok r → I r w) (startView fs s))
    (hover : may.fallible → c.overlooks fs s = false) :
    (exec fs c.body (begun fs s)).2.journalTx.failed ∨ (c.ok (exec fs c.body (begun fs s)).1 →
      I (exec fs c.body (begun fs s)).1 (viewOf fs (exec fs c.body (begun fs s)).2)) := by
  by_contra hno
  obtain ⟨hfail, hno⟩ := not_or.mp hno
  obtain ⟨hc, hI⟩ := Classical.not_imp.mp hno
  have hign : may.fallible → ignores fs c.body (begun fs s) = false := by
    intro hf
    simpa [overlooks, hc, hfail] using hover hf
  have hm : ((begun fs s).instances fs).mounted := by
    obtain ⟨sequence, hb, -⟩ := @begun_eq fs _ h.idle
    rw [hb]
    exact h.mounted
  rcases exec_wp c.body (@begun_inTx fs _ h.idle) hm hallow hign
    (by rw [begun_view h.idle]; exact hwp) with hexec | hexec
  · exact hfail hexec
  · exact hI (hexec hc)

/-- What `wp` promises of the body of a call, if its writes succeed: the call is undone, or it
commits a view with the promised property. -/
theorem KfsCall.run_cases {I : View → Prop} (h : Serving fs dev s)
    (hallow : Allows may fs (begun fs s)) (hok : ∀ w, I w → TxOk may (s.instances fs).sb w)
    (c : KfsCall) (hwp : c.body.wp may (fun r w => c.ok r → I w) (startView fs s))
    (hover : may.fallible → c.overlooks fs s = false)
    (hio : ∀ k, c.readsUntil fs s ≤ k → ∀ lba, s.io k dev lba = .ok) :
    c.run fs s = (-1, s) ∨ Undone fs s (c.run fs s).2 ∧ c.ok (c.run fs s).1 = false ∨
      ∃ v, Done fs s (c.run fs s).2 v ∧ I v := by
  have hexec := c.exec_body h hallow hwp hover
  have hmount := transact_mounted c h hio (hexec.imp id fun h hr => hok _ (h hr))
  rcases c.run_eq s with hrun | hrun
  · rw [hrun]
    refine .inr ?_
    rcases transact_outcome c h.mounted h.idle h.attached.spb with
      ⟨hu, hbad⟩ | ⟨hok, -, hfail, hd⟩ | ⟨-, hgone⟩
    · refine .inl ⟨hu, ?_⟩
      rcases hbad with hbad | hbad
      · exact hbad
      · rw [hbad]
        cases c <;> rfl
    · refine .inr ⟨_, hd, ?_⟩
      rcases hexec with hexec | hexec
      · rw [hexec] at hfail
        simp at hfail
      · exact hexec hok
    · rw [hgone] at hmount
      simp at hmount
  · exact .inl hrun

section

variable (h : Serving fs dev s) (hs : Sound (s.instances fs).sb (home s fs))
  (hreads : ¬ errors → ∀ b < (s.instances fs).sb.totalBlocks, ReadsOk s fs b) (c : KfsCall)
  (hover : errors → c.overlooks fs s = false)
  (hio : ∀ k, c.readsUntil fs s ≤ k → ∀ lba, s.io k dev lba = .ok)

include h hs hreads hover hio

theorem KfsCall.run_outcome :
    c.run fs s = (-1, s) ∨ Undone fs s (c.run fs s).2 ∧ c.ok (c.run fs s).1 = false ∨
      ∃ v, Done fs s (c.run fs s).2 v ∧
        Good (readOr (s.instances fs).sb errors) (s.instances fs).sb v := by
  have hg := h.geometry hs.blocks.hi_cap
  exact c.run_cases h (h.allows hreads) (fun _ hw => hw.toTxOk)
    (c.wp_body_good hg (h.start hs.accounted hs.clean)) hover hio

private theorem KfsCall.run_sound : Serving fs dev (c.run fs s).2 ∧
      Sound ((c.run fs s).2.instances fs).sb (home (c.run fs s).2 fs) ∧
      (c.run fs s).2.io = s.io := by
  have hg := h.geometry hs.blocks.hi_cap
  rcases c.run_outcome h hs hreads hover hio with hsame | ⟨hu, -⟩ | ⟨v, hd, hgood⟩
  · rw [hsame]
    exact ⟨h, hs, rfl⟩
  · refine ⟨h.undone hs.blocks.hi_cap hu, ?_, hu.io⟩
    rw [hu.instances]
    exact Sound.of_accounted hg (.refl _) hs.accounted hs.clean hu.home
  refine ⟨h.done hg hgood.toTxOk hd, ?_, hd.io⟩
  rw [hd.inst]
  exact Sound.of_accounted hg hd.layout hgood.ledger hgood.clean hd.home

end

def runAll (fs : InstId) : List KfsCall → Driver → Driver
  | [], s => s
  | c :: cs, s => runAll fs cs (c.run fs s).2

theorem KfsCall.run_ok (h : Serving fs dev s) (hs : Sound (s.instances fs).sb (home s fs))
    (hio : ∀ k lba, s.io k dev lba = .ok) (c : KfsCall) : Serving fs dev (c.run fs s).2 ∧
      Sound ((c.run fs s).2.instances fs).sb (home (c.run fs s).2 fs) ∧
      ∀ k lba, (c.run fs s).2.io k dev lba = .ok := by
  obtain ⟨h', hs', hio'⟩ := c.run_sound h hs (fun _ _ hb => h.attached.readsOk hio hb) False.elim
    fun k _ => hio k
  exact ⟨h', hs', by rw [hio']; exact hio⟩

/-- Without device errors, every sequence of calls keeps the blocks accounted for. -/
private theorem runAll_sound (h : Serving fs dev s) (hs : Sound (s.instances fs).sb (home s fs))
    (hio : ∀ k lba, s.io k dev lba = .ok) (cs : List KfsCall) : Serving fs dev (runAll fs cs s) ∧
      Sound ((runAll fs cs s).instances fs).sb (home (runAll fs cs s) fs) := by
  induction cs generalizing s with
  | nil => exact ⟨h, hs⟩
  | cons c cs ih =>
    obtain ⟨h', hs', hio'⟩ := c.run_ok h hs hio
    exact ih h' hs' hio'

/-- After any calls, from a sound file system and without device errors: the bitmap marks exactly
the metadata and the blocks of allocated inodes, no block has two owners, and the free count on the
device is the number of unmarked blocks. -/
theorem runAll_accounted (h : Serving fs dev s)
    (hblocks : BlocksAccounted (s.instances fs).sb (home s fs) (s.instances fs).sb.freeBlocks)
    (hclean : FreeClean (s.instances fs).sb (home s fs)) (hio : ∀ k lba, s.io k dev lba = .ok)
    (cs : List KfsCall) :
    BlocksAccounted ((runAll fs cs s).instances fs).sb (home (runAll fs cs s) fs)
        (KfsSuperblock.ofBytes (home (runAll fs cs s) fs 0).byte).freeBlocks ∧
      FreeClean ((runAll fs cs s).instances fs).sb (home (runAll fs cs s) fs) ∧
      ((runAll fs cs s).instances fs).mounted = true := by
  obtain ⟨h', hs'⟩ := runAll_sound h ⟨hblocks, hclean⟩ hio cs
  rw [h'.sbHome]
  exact ⟨hs'.blocks, hs'.clean, h'.mounted⟩

end

def smallRoot : List (Nat × KfsInode) :=
  [(1, ⟨2, 493, 128, 0, 0, 0, fun i => if i = 0 then 36 else 0, 0⟩)]

theorem smallRoot_laid : Laid 37 smallRoot := by
  constructor <;> decide

theorem smallRoot_sound : Sound ((smallFs 40 37 smallRoot fun _ => Block.zero).instances 0).sb
    (home (smallFs 40 37 smallRoot fun _ => Block.zero) 0) :=
  smallFs_sound smallRoot_laid (by decide) (by decide) (by decide) (by decide)

theorem runAll_accounted_smallRoot :
    let t := runAll 0 [.truncate 1 7, .create (some ⟨[47, 97], by decide⟩) 420 0 0 0]
      (smallFs 40 37 smallRoot fun _ => Block.zero)
    BlocksAccounted (t.instances 0).sb (home t 0)
      (KfsSuperblock.ofBytes (home t 0 0).byte).freeBlocks :=
  (@runAll_accounted 0 0 _ (smallFs_serving (by decide) (by decide) (by decide) (by decide))
    smallRoot_sound.blocks smallRoot_sound.clean (fun _ _ => rfl) _).1

/-- A root directory in block 36, and a free inode that still names that block. -/
def staleInode : List (Nat × KfsInode) :=
  (2, ⟨0, 0, 0, 0, 0, 0, fun i => if i = 0 then 36 else 0, 0⟩) :: smallRoot

private theorem staleInode_laid : Laid 37 staleInode := by
  constructor <;> decide

/-- Truncating a free inode that kept its pointers frees a block of another file. -/
theorem runAll_stale_inode :
    Serving 0 0 (smallFs 38 37 staleInode fun _ => Block.zero) ∧
      BlocksAccounted ((smallFs 38 37 staleInode fun _ => Block.zero).instances 0).sb
        (home (smallFs 38 37 staleInode fun _ => Block.zero) 0)
        ((smallFs 38 37 staleInode fun _ => Block.zero).instances 0).sb.freeBlocks ∧
      (∀ k lba, (smallFs 38 37 staleInode fun _ => Block.zero).io k 0 lba = .ok) ∧
      ∀ free, ¬ BlocksAccounted
        ((runAll 0 [.truncate 2 0] (smallFs 38 37 staleInode fun _ => Block.zero)).instances 0).sb
        (home (runAll 0 [.truncate 2 0] (smallFs 38 37 staleInode fun _ => Block.zero)) 0)
          free := by
  refine ⟨smallFs_serving (by decide) (by decide) (by decide) (by decide), ?_, fun _ _ => rfl, ?_⟩
  · rw [smallFs_image]
    exact (staleInode_laid.filled (by decide) (by decide) (by decide)).accounted
  intro free h
  have hused := Ledger.used_of_own h (k := (1, some 0)) (by decide)
  exact absurd hused (by decide)

private theorem Serving.of_io {fs : InstId} {dev : DevId} {s : Driver} (h : Serving fs dev s)
    (io : Nat → DevId → Nat → IoOutcome) : Serving fs dev { s with io := io } :=
  ⟨⟨h.attached.bd, h.attached.spb, h.attached.writable, h.attached.passed⟩, h.mounted, h.idle,
    h.uniq, h.cache, h.sbHome⟩

def unreadableRoot : Driver :=
  { smallFs 40 37 smallRoot fun _ => Block.zero with
    io := fun k _ lba => if k = 1 ∧ lba = 36 then .fail none else .ok }

def slashA : CString := ⟨[47, 97], by decide⟩

def createA : KfsCall := .create (some slashA) 420 0 0 0

def smallFile : List (Nat × KfsInode) :=
  (2, ⟨1, 420, 1, 0, 0, 0, fun i => if i = 0 then 37 else 0, 0⟩) :: smallRoot

theorem smallFile_laid : Laid 38 smallFile := by
  constructor <;> decide

def unreadableBitmap : Driver :=
  { smallFs 40 38 smallFile fun _ => Block.zero with
    io := fun _ _ lba => if lba = 1 then .fail none else .ok }

end KestrelOS.Kfs
