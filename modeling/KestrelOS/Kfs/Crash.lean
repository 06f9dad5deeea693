import KestrelOS.Kfs.Journal

/-!
# Crash atomicity of the journal

A power cut is a script under which the first `n` device accesses succeed and every later one is
lost without a trace. After the cut only the device survives; each mount runs `journalRecover` on
it, and may be cut short again. The journal is clean and nothing has changed, or it holds the whole
transaction, or it is clean and everything has changed.
-/

namespace KestrelOS.Kfsck

open Kfs

/-- The branches of `journal_recover` when every access succeeds. -/
inductive Verdict
  | clean
  | incomplete
  | badTarget (target : Nat)
  | torn
  | committed (entry : List (Nat × Block))

/-- The loop over the targets: the first that is refused, or the transaction. -/
def checkTargets (sb : KfsSuperblock) (v : Nat → Block) (targets : Nat → Nat) :
    Nat → Nat → List (Nat × Block) → Nat ⊕ List (Nat × Block)
  | 0, _, acc => .inr acc
  | n + 1, i, acc =>
    let target := targets i
    if sb.totalBlocks ≤ target ∨
        (sb.journalStart ≤ target ∧ target < sb.journalStart + sb.journalBlocks) then .inl target
    else if acc.any (fun e => e.1 = target) then .inl target
    else checkTargets sb v targets n (i + 1) (acc ++ [(target, v (sb.journalStart + 1 + i))])

def verdict (sb : KfsSuperblock) (v : Nat → Block) : Verdict :=
  let jh := KfsJournalHeader.ofBlock (v sb.journalStart)
  if jh.magic = 0 ∧ jh.state = 0 ∧ jh.count = 0 then .clean
  else if jh.magic ≠ kfsJournalMagic ∨ jh.state ≠ 1 ∨ jh.count = 0 ∨ 32 < jh.count then .incomplete
  else
    match checkTargets sb v jh.targets jh.count 0 [] with
    | .inl target => .badTarget target
    | .inr entry =>
      if journalChecksum jh.sequence jh.count entry ≠ jh.checksum then .torn else .committed entry

def Verdict.code : Verdict → Int
  | .clean | .incomplete | .torn => 0
  | .badTarget _ => -1
  | .committed _ => 1

def Verdict.apply (sb : KfsSuperblock) (v : Nat → Block) : Verdict → Nat → Block
  | .clean | .badTarget _ => v
  | .incomplete | .torn => Function.update v sb.journalStart Block.zero
  | .committed entry => Function.update (applyWrites entry v) sb.journalStart Block.zero

end KestrelOS.Kfsck

namespace KestrelOS.Kfs

open Kfsck List

/-- Power is lost after `n` accesses, or never. -/
def powerCut (cut : Option Nat) : Nat → DevId → Nat → IoOutcome := fun k _ _ =>
  match cut with
  | none => .ok
  | some n => if k < n then .ok else .fail none

/-- A failed access leaves the device as it was. -/
def Residueless (s : Driver) : Prop := ∀ k dev lba junk, s.io k dev lba ≠ .fail (some junk)

theorem powerCut_residueless (cut : Option Nat) (k : Nat) (dev : DevId) (lba : Nat) (junk : Block) :
    powerCut cut k dev lba ≠ .fail (some junk) := by
  unfold powerCut
  split
  · simp
  · split <;> simp

/-- The parts of a superblock that recovery reads. -/
structure SameGeometry (sb sb' : KfsSuperblock) : Prop where
  total : sb'.totalBlocks = sb.totalBlocks
  start : sb'.journalStart = sb.journalStart

/-- `t` is the machine switched on over `disk`, with the file system that was instance `f` bound
again and its superblock read: the cache, the transaction and everything else are arbitrary. -/
structure Boot (fs : InstId) (dev : DevId) (f : KfsFs) (disk : Nat → Block) (t : Driver) :
    Prop where
  attached : Attached t fs dev
  bounded : (t.instances fs).sb.Bounded
  disk : t.disk dev = disk
  startLba : (t.instances fs).startLba = f.startLba
  spb : (t.instances fs).spb = f.spb
  geometry : SameGeometry f.sb (t.instances fs).sb

def cutPower (s : Driver) (cut : Option Nat) : Driver := { s with io := powerCut cut, tick := 0 }

/-- States at the start of a mount-time recovery, after any number of recoveries cut short. -/
inductive AfterCrash (fs : InstId) (dev : DevId) (f : KfsFs) (disk : Nat → Block) : Driver → Prop
  | boot (t : Driver) (h : Boot fs dev f disk t) : AfterCrash fs dev f disk t
  | again (t u : Driver) (n : Nat) (ht : AfterCrash fs dev f disk t)
      (h : Boot fs dev f ((journalRecover fs (cutPower t (some n))).2.disk dev) u) :
      AfterCrash fs dev f disk u

variable {fs : InstId} {dev : DevId} {blk start : Nat} {buf : Block} {es : List (Nat × Block)}
  {s t : Driver} {ok : Bool}

theorem journalRawWrite_ok (h : journalRawWrite fs blk buf s = (ok, t)) (hA : Attached s fs dev)
    (hb : blk < (s.instances fs).sb.totalBlocks)
    (hio : s.io s.tick dev ((s.instances fs).lba blk) = .ok) : ok := by
  simp only [journalRawWrite, hA.bd, blockdevWrite, hA.range hb, hA.writable, hio, Bool.and_self,
    if_true] at h
  cases h
  rfl

theorem journalRawWrite_tick (h : journalRawWrite fs blk buf s = (true, t)) :
    t.tick = s.tick + 1 := by
  unfold journalRawWrite blockdevWrite at h
  split at h
  · simp at h
  split at h
  · split at h <;> cases h
    rfl
  · simp at h

theorem journalRawWrite_false (h : journalRawWrite fs blk buf s = (false, t))
    (hres : Residueless s) : home t fs = home s fs := by
  have hdisk : t.disk = s.disk := by
    unfold journalRawWrite blockdevWrite at h
    split at h
    · cases h
      rfl
    split at h
    · split at h
      · simp at h
      · cases h
        rfl
      · rename_i junk hj
        exact absurd hj (hres _ _ _ junk)
    · cases h
      rfl
  funext b
  simp only [home, (journalRawWrite_frame h).instances, hdisk]

variable {sb sb' : KfsSuperblock} {sequence : Nat} {entry : List (Nat × Block)}
  {d disk post pre : Nat → Block} {f : KfsFs}

theorem Residueless.of_io (h : Residueless s) (hio : t.io = s.io) : Residueless t := by
  unfold Residueless
  rw [hio]
  exact h

theorem Attached.of_sameButIo (h : Attached s fs dev) (hs : SameButIo s t) : Attached t fs dev := by
  constructor
  · rw [hs.instances]; exact h.bd
  · rw [hs.instances]; exact h.spb
  · rw [hs.bdev]; exact h.writable
  · rw [hs.bdev, hs.instances]; exact h.passed

theorem writePayloads_tick (h : writePayloads fs start es s = (true, t)) :
    t.tick = s.tick + es.length := by
  induction es generalizing start s with
  | nil =>
    cases h
    rfl
  | cons e es ih =>
    unfold writePayloads at h
    split at h
    · simp at h
    rename_i s' hs'
    rw [ih h, journalRawWrite_tick hs', length_cons]
    omega

theorem writePayloads_ok (h : writePayloads fs start es s = (ok, t)) (hA : Attached s fs dev)
    (hfit : start + es.length ≤ (s.instances fs).sb.totalBlocks)
    (hio : ∀ k < es.length, ∀ lba, s.io (s.tick + k) dev lba = .ok) : ok := by
  induction es generalizing start s with
  | nil =>
    cases h
    rfl
  | cons e es ih =>
    simp only [length_cons] at hfit hio
    unfold writePayloads at h
    split at h
    · cases h
      exact journalRawWrite_ok ‹_› hA (by omega) (hio 0 (by omega) _)
    rename_i s' hs'
    have hf := journalRawWrite_frame hs'
    apply ih h (hA.of_sameButIo hf.toSameButIo)
    · rw [hf.instances]
      omega
    intro k hk lba
    rw [hf.io, journalRawWrite_tick hs', show s.tick + 1 + k = s.tick + (k + 1) by omega]
    exact hio (k + 1) (by omega) lba

theorem writeHomes_upTo (h : writeHomes fs es s = (ok, t)) (hspb : 0 < (s.instances fs).spb)
    (hres : Residueless s) : ∃ k, home t fs = applyWrites (es.take k) (home s fs) := by
  induction es generalizing s with
  | nil =>
    cases h
    exact ⟨0, rfl⟩
  | cons e es ih =>
    unfold writeHomes at h
    split at h
    · rename_i s' hs'
      cases h
      obtain ⟨u, i, hu, hf, -⟩ := bwrite_cases hs'
      refine ⟨0, ?_⟩
      rw [take_zero, applyWrites_nil, funext (hf.home fs), journalRawWrite_false hu hres]
    · rename_i s' hs'
      have hf := bwrite_frame hs'
      obtain ⟨k, hk⟩ := ih h (hf.instances ▸ hspb) (hres.of_io hf.io)
      refine ⟨k + 1, ?_⟩
      rw [hk, take_succ_cons, applyWrites_cons, bwrite_true_eq hs' hspb]

theorem writeHomes_ok (h : writeHomes fs es s = (ok, t)) (hA : Attached s fs dev)
    (hfit : ∀ e ∈ es, e.1 < (s.instances fs).sb.totalBlocks)
    (hio : ∀ k, s.tick ≤ k → ∀ lba, s.io k dev lba = .ok) : ok ∧ t.tick = s.tick + es.length := by
  induction es generalizing s with
  | nil =>
    cases h
    exact ⟨rfl, rfl⟩
  | cons e es ih =>
    unfold writeHomes at h
    split at h <;> rename_i s' hs' <;> obtain ⟨u, i, hu, -, htick, -⟩ := bwrite_cases hs'
    · simpa using journalRawWrite_ok hu hA (hfit e (by simp)) (hio _ (le_refl _) _)
    have hf := bwrite_frame hs'
    rw [journalRawWrite_tick hu] at htick
    obtain ⟨h1, h2⟩ := ih h (hA.of_sameButIo hf.toSameButIo)
      (fun e' he' => by rw [hf.instances]; exact hfit e' (by simp [he']))
      (fun k hk lba => by rw [hf.io]; exact hio k (by omega) lba)
    refine ⟨h1, ?_⟩
    rw [h2, length_cons]
    omega

/-- What the driver promises of a transaction it commits. -/
structure SafeTx (sb : KfsSuperblock) (sequence : Nat) (entry : List (Nat × Block)) : Prop where
  seq : sequence < 4294967296
  pos : entry ≠ []
  len : entry.length ≤ 32
  nodup : (entry.map Prod.fst).Nodup
  inside : ∀ e ∈ entry, e.1 < sb.totalBlocks
  outside : ∀ e ∈ entry, ¬ InJournal sb e.1

/-- The journal region holds the whole committed transaction. -/
structure HoldsTx (sb : KfsSuperblock) (sequence : Nat) (entry : List (Nat × Block))
    (d : Nat → Block) : Prop where
  header : d sb.journalStart = commitBlock sequence entry
  payload : ∀ i (h : i < entry.length), d (sb.journalStart + 1 + i) = (entry[i]).2

theorem HoldsTx.of_eq {d' : Nat → Block} (h : HoldsTx sb sequence entry d)
    (hlen : entry.length ≤ 32) (heq : ∀ b, InJournal sb b → d' b = d b) :
    HoldsTx sb sequence entry d' := by
  constructor
  · rw [heq _ ⟨le_refl _, by omega⟩]
    exact h.header
  intro i hi
  rw [heq _ ⟨by omega, by omega⟩]
  exact h.payload i hi

theorem journalChecksum_lt (sequence count : Nat) (entry : List (Nat × Block)) :
    journalChecksum sequence count entry < 4294967296 := by
  unfold journalChecksum
  exact UInt32.toNat_lt _

theorem commitBlock_word (sequence : Nat) (entry : List (Nat × Block)) (k : Nat) (hk : k < 1024) :
    le32 (commitBlock sequence entry).byte (4 * k) = commitWord sequence entry k % 4294967296 := by
  rw [commitBlock, Block.le32_ofBytes _ _ (by omega), le32_wordsBytes]

theorem commitBlock_header (h : SafeTx sb sequence entry) (htotal : sb.totalBlocks < 4294967296) :
    let jh := KfsJournalHeader.ofBlock (commitBlock sequence entry)
    jh.magic = kfsJournalMagic ∧ jh.state = 1 ∧ jh.sequence = sequence ∧
      jh.count = entry.length ∧ jh.checksum = journalChecksum sequence entry.length entry ∧
      ∀ i (hi : i < entry.length), jh.targets i = (entry[i]).1 := by
  have hlen := h.len
  have hseq := h.seq
  have hsum := journalChecksum_lt sequence entry.length entry
  have h0 := commitBlock_word sequence entry 0 (by omega)
  have h1 := commitBlock_word sequence entry 1 (by omega)
  have h2 := commitBlock_word sequence entry 2 (by omega)
  have h3 := commitBlock_word sequence entry 3 (by omega)
  have h4 := commitBlock_word sequence entry 4 (by omega)
  simp only [commitWord, kfsJournalMagic, Nat.mul_zero, Nat.reduceMul, Nat.reduceEqDiff, if_true,
    if_false, Nat.reduceMod, Nat.mul_one, Nat.one_ne_zero] at h0 h1 h2 h3 h4
  refine ⟨h0, h1, ?_, ?_, ?_, ?_⟩
  · exact h2.trans (Nat.mod_eq_of_lt hseq)
  · exact h3.trans (Nat.mod_eq_of_lt (by omega))
  · exact h4.trans (Nat.mod_eq_of_lt hsum)
  intro i hi
  have ht := commitBlock_word sequence entry (i + 5) (by omega)
  have hin := h.inside (entry[i]) (getElem_mem hi)
  have hword : commitWord sequence entry (i + 5) = (entry[i]).1 := by
    have hne : ¬ i + 5 = 0 ∧ ¬ i + 5 = 1 ∧ ¬ i + 5 = 2 ∧ ¬ i + 5 = 3 ∧ ¬ i + 5 = 4 := by omega
    simp only [commitWord, hne, if_false, Nat.add_sub_cancel]
    rw [getD_eq_getElem?_getD, getElem?_map, getElem?_eq_getElem hi]
    rfl
  rw [hword, Nat.mod_eq_of_lt (by omega)] at ht
  change le32 (commitBlock sequence entry).byte (20 + 4 * i) = _
  rw [← ht]
  congr 1
  omega

theorem recoverEntries_spec (fs : InstId) (sb : KfsSuperblock) (targets : Nat → Nat) (n i : Nat)
    (acc : List (Nat × Block)) (s : Driver) :
    SameButTick s (recoverEntries fs sb targets n i acc s).2 ∧
      ((recoverEntries fs sb targets n i acc s).1 =
          (checkTargets sb (home s fs) targets n i acc).getRight? ∨
        (recoverEntries fs sb targets n i acc s).1 = none ∧
          ∃ k < n, ¬ ReadsOk s fs (sb.journalStart + 1 + (i + k))) := by
  induction n generalizing i acc s with
  | zero => exact ⟨.refl _, .inl rfl⟩
  | succ n ih =>
    unfold recoverEntries checkTargets
    dsimp only
    split
    · exact ⟨.refl _, .inl rfl⟩
    split
    · exact ⟨.refl _, .inl rfl⟩
    split
    · exact ⟨journalRawRead_frame ‹_›, .inr ⟨rfl, 0, Nat.succ_pos n, journalRawRead_none ‹_›⟩⟩
    rename_i d s' hs'
    have hf := journalRawRead_frame hs'
    obtain ⟨hframe, hfound⟩ := ih (i + 1) (acc ++ [(targets i, d)]) s'
    rw [funext (hf.home fs)] at hfound
    rw [← journalRawRead_some hs']
    refine ⟨hf.trans hframe, hfound.imp id fun ⟨hnone, k, hk, hbad⟩ => ?_⟩
    rw [Nat.add_assoc i, Nat.add_comm 1] at hbad
    exact ⟨hnone, k + 1, Nat.succ_lt_succ hk, fun hr => hbad (hf.readsOk hr)⟩

theorem checkTargets_passed {targets : Nat → Nat} {n i : Nat} {acc : List (Nat × Block)}
    (h : checkTargets sb d targets n i acc = .inr entry)
    (hacc : ∀ e ∈ acc, ¬ (sb.totalBlocks ≤ e.1 ∨
      (sb.journalStart ≤ e.1 ∧ e.1 < sb.journalStart + sb.journalBlocks))) :
    ∀ e ∈ entry, ¬ (sb.totalBlocks ≤ e.1 ∨
      (sb.journalStart ≤ e.1 ∧ e.1 < sb.journalStart + sb.journalBlocks)) := by
  induction n generalizing i acc with
  | zero =>
    cases h
    exact hacc
  | succ n ih =>
    unfold checkTargets at h
    dsimp only at h
    split at h
    · cases h
    rename_i hsafe
    split at h
    · cases h
    apply ih h
    intro e he
    obtain he | he := mem_append.mp he
    · exact hacc e he
    · rw [mem_singleton.mp he]
      exact hsafe

theorem verdict_passed (h : verdict sb d = .committed entry) :
    ∀ e ∈ entry, ¬ (sb.totalBlocks ≤ e.1 ∨
      (sb.journalStart ≤ e.1 ∧ e.1 < sb.journalStart + sb.journalBlocks)) := by
  unfold verdict at h
  dsimp only at h
  split at h
  · cases h
  split at h
  · cases h
  split at h
  · cases h
  split at h
  · cases h
  · cases h
    exact checkTargets_passed ‹_› fun e he => absurd he not_mem_nil

theorem checkTargets_holds {targets : Nat → Nat} {n i : Nat} (hsafe : SafeTx sb sequence entry)
    (hblocks : sb.journalBlocks = 33) (hhold : HoldsTx sb sequence entry d)
    (htargets : ∀ i (hi : i < entry.length), targets i = (entry[i]).1) (hn : i + n = entry.length) :
    checkTargets sb d targets n i (entry.take i) = .inr entry := by
  induction n generalizing i with
  | zero => rw [checkTargets, take_of_length_le (by omega)]
  | succ n ih =>
    have hi : i < entry.length := by omega
    have htgt := htargets i hi
    have hin := hsafe.inside (entry[i]) (getElem_mem hi)
    have hout := hsafe.outside (entry[i]) (getElem_mem hi)
    have hnodup : (entry.take i).any (fun e => decide (e.1 = targets i)) = false := by
      rw [htgt, any_eq_false]
      intro e he
      simp only [decide_eq_true_eq]
      intro heq
      obtain ⟨j, hj, rfl⟩ := mem_iff_getElem.mp he
      simp only [length_take, getElem_take] at hj heq
      have hinj := pairwise_iff_getElem.mp hsafe.nodup j i (by simp; omega) (by simpa using hi)
        (by omega)
      simp [heq] at hinj
    unfold InJournal at hout
    have hsafe' : ¬ (sb.totalBlocks ≤ targets i ∨
        (sb.journalStart ≤ targets i ∧ targets i < sb.journalStart + sb.journalBlocks)) := by
      rw [htgt, hblocks]
      omega
    have hstep : entry.take i ++ [(targets i, d (sb.journalStart + 1 + i))] =
        entry.take (i + 1) := by
      rw [take_add_one, getElem?_eq_getElem hi, htgt, hhold.payload i hi]
      rfl
    simp only [checkTargets, hsafe', if_false, hnodup, Bool.false_eq_true, hstep]
    exact ih (by omega)

theorem verdict_holds (hsafe : SafeTx sb sequence entry) (htotal : sb.totalBlocks < 4294967296)
    (hblocks : sb.journalBlocks = 33) (hhold : HoldsTx sb sequence entry d) :
    verdict sb d = .committed entry := by
  obtain ⟨hmagic, hstate, hseq, hcount, hsum, htargets⟩ := commitBlock_header hsafe htotal
  have hpos : entry.length ≠ 0 := fun h0 => hsafe.pos (length_eq_zero_iff.mp h0)
  have hlen := hsafe.len
  have hnz : ¬ kfsJournalMagic = 0 := by decide
  unfold verdict
  dsimp only
  rw [hhold.header, if_neg (fun hz => hnz (hmagic.symm.trans hz.1)),
    if_neg (by rw [hmagic, hstate, hcount]; omega), hcount,
    show checkTargets sb d _ entry.length 0 [] = .inr entry from
      checkTargets_holds hsafe hblocks hhold htargets (Nat.zero_add _)]
  dsimp only
  rw [hseq, hsum, if_neg (fun hne => hne rfl)]

/-- What `journal_recover` does from `s` where the device holds a journal with this verdict. -/
inductive Recovers (fs : InstId) (s : Driver) : Verdict → Int → Driver → Prop
  | unread {v : Verdict} {t : Driver} (h : SameButTick s t) (k : Nat) (hk : k < 33)
      (hbad : ¬ ReadsOk s fs ((s.instances fs).sb.journalStart + k)) : Recovers fs s v (-1) t
  | clean {t : Driver} (h : SameButTick s t) : Recovers fs s .clean 0 t
  | refused {t : Driver} (h : SameButTick s t) (b : Nat) : Recovers fs s (.badTarget b) (-1) t
  | cleared {v : Verdict} {t : Driver} (h : SameButTick s t) (hv : v = .incomplete ∨ v = .torn) :
      Recovers fs s v (if (journalClear fs t).1 then 0 else -1) (journalClear fs t).2
  | half {t u : Driver} {entry : List (Nat × Block)} (h : SameButTick s t)
      (hw : writeHomes fs entry t = (false, u)) : Recovers fs s (.committed entry) (-1) u
  | replayed {t u : Driver} {entry : List (Nat × Block)} (h : SameButTick s t)
      (hw : writeHomes fs entry t = (true, u)) : Recovers fs s (.committed entry)
        (if (journalClear fs u).1 then 1 else -1) (journalClear fs u).2

theorem journalRecover_recovers (fs : InstId) (s : Driver) :
    Recovers fs s (verdict (s.instances fs).sb (home s fs)) (journalRecover fs s).1
      (journalRecover fs s).2 := by
  unfold journalRecover
  dsimp only
  split
  · exact .unread (journalRawRead_frame ‹_›) 0 (by decide) (journalRawRead_none ‹_›)
  rename_i hdr s1 h1
  have hf := journalRawRead_frame h1
  obtain rfl := journalRawRead_some h1
  unfold verdict
  dsimp only
  generalize KfsJournalHeader.ofBlock (home s fs (s.instances fs).sb.journalStart) = jh
  split
  · exact .clean hf
  split
  · exact .cleared hf (.inl rfl)
  rename_i hcount
  obtain ⟨hframe, hfound⟩ := recoverEntries_spec fs (s.instances fs).sb jh.targets jh.count 0 [] s1
  rw [funext (hf.home fs)] at hfound
  generalize recoverEntries fs (s.instances fs).sb jh.targets jh.count 0 [] s1 =
    r at hframe hfound ⊢
  obtain ⟨found, s2⟩ := r
  have hs2 := hf.trans hframe
  obtain rfl | ⟨rfl, k, hk, hbad⟩ := hfound
  · cases checkTargets (s.instances fs).sb (home s fs) jh.targets jh.count 0 [] with
    | inl target => exact .refused hs2 target
    | inr entry =>
      dsimp only [Sum.getRight?]
      split
      · exact .cleared hs2 (.inr rfl)
      rcases hw : writeHomes fs entry s2 with ⟨ok, s3⟩
      cases ok with
      | false => exact .half hs2 hw
      | true => exact .replayed hs2 hw
  · rw [Nat.zero_add, Nat.add_assoc] at hbad
    exact .unread hs2 (1 + k) (by omega) fun hr => hbad (hf.readsOk hr)

/-- The header is clean and every block outside the journal region is as in `post`. -/
structure Clean (sb : KfsSuperblock) (post d : Nat → Block) : Prop where
  header : d sb.journalStart = Block.zero
  home : ∀ b, ¬ InJournal sb b → d b = post b

/-- The journal holds the transaction and only its targets may differ from `pre`. -/
structure Redo (sb : KfsSuperblock) (sequence : Nat) (entry : List (Nat × Block))
    (pre d : Nat → Block) : Prop where
  holds : HoldsTx sb sequence entry d
  rest : ∀ b, ¬ InJournal sb b → b ∉ entry.map Prod.fst → d b = pre b

theorem SameGeometry.inJournal (h : SameGeometry sb sb') (b : Nat) :
    InJournal sb' b ↔ InJournal sb b := by
  simp only [InJournal, h.start]

theorem SafeTx.congr (h : SafeTx sb sequence entry) (hg : SameGeometry sb sb') :
    SafeTx sb' sequence entry where
  seq := h.seq
  pos := h.pos
  len := h.len
  nodup := h.nodup
  inside := by rw [hg.total]; exact h.inside
  outside := fun e he hj => h.outside e he ((hg.inJournal e.1).mp hj)

theorem Clean.congr (hg : SameGeometry sb sb') (h : Clean sb post d) : Clean sb' post d where
  header := by rw [hg.start]; exact h.header
  home := fun b hb => h.home b fun hj => hb ((hg.inJournal b).mpr hj)

theorem Redo.congr (hg : SameGeometry sb sb') (h : Redo sb sequence entry pre d) :
    Redo sb' sequence entry pre d where
  holds := ⟨by rw [hg.start]; exact h.holds.header, by rw [hg.start]; exact h.holds.payload⟩
  rest := fun b hb => h.rest b fun hj => hb ((hg.inJournal b).mpr hj)

theorem Redo.applyWrites_take (hsafe : SafeTx sb sequence entry) (h : Redo sb sequence entry pre d)
    (k : Nat) : Redo sb sequence entry pre (applyWrites (entry.take k) d) := by
  have hsub : ∀ b ∈ (entry.take k).map Prod.fst, b ∈ entry.map Prod.fst := by
    intro b hb
    rw [map_take] at hb
    exact mem_of_mem_take hb
  constructor
  · apply h.holds.of_eq hsafe.len
    intro b hj
    apply applyWrites_untouched
    intro hb
    obtain ⟨e, he, rfl⟩ := mem_map.mp (hsub b hb)
    exact hsafe.outside e he hj
  · intro b hj hb
    rw [applyWrites_untouched _ _ _ fun hmem => hb (hsub b hmem), h.rest b hj hb]

theorem Redo.finish (h : Redo sb sequence entry pre d) : Clean sb (applyWrites entry pre)
      (Function.update (applyWrites entry d) sb.journalStart Block.zero) := by
  constructor
  · simp
  intro b hb
  have hne : b ≠ sb.journalStart := by
    rintro rfl
    exact hb ⟨le_refl _, by omega⟩
  rw [Function.update_of_ne hne]
  apply applyWrites_congr
  by_cases hmem : b ∈ entry.map Prod.fst
  · exact .inl hmem
  · exact .inr (h.rest b hb hmem)

theorem Attached.readsOk (hA : Attached s fs dev) (hio : ∀ k lba, s.io k dev lba = .ok) {b : Nat}
    (hb : b < (s.instances fs).sb.totalBlocks) : ReadsOk s fs b :=
  ⟨dev, hA.bd, hA.range hb, fun k => hio k _⟩

theorem journalRecover_clean (hA : Attached s fs dev)
    (h : Clean (s.instances fs).sb post (home s fs)) :
    Clean (s.instances fs).sb post (home (journalRecover fs s).2 fs) ∧
      ((∀ k lba, s.io k dev lba = .ok) → (journalRecover fs s).1 = 0) := by
  have hj := hA.journal
  have hrec := journalRecover_recovers fs s
  rw [show verdict (s.instances fs).sb (home s fs) = .clean by
    simp [verdict, h.header, KfsJournalHeader.ofBlock, Block.le32_zero]] at hrec
  generalize journalRecover fs s = r at hrec ⊢
  obtain ⟨code, t⟩ := r
  cases hrec with
  | unread hf k hk hbad =>
    rw [funext (hf.home fs)]
    exact ⟨h, fun hio => absurd (hA.readsOk hio (by omega)) hbad⟩
  | clean hf =>
    rw [funext (hf.home fs)]
    exact ⟨h, fun _ => rfl⟩
  | cleared hf hv => simp at hv

theorem journalClear_frame (fs : InstId) (s : Driver) : RawIo fs s (journalClear fs s).2 :=
  journalRawWrite_frame rfl

theorem journalRecover_frame (fs : InstId) (s : Driver) : OwnIo fs s (journalRecover fs s).2 := by
  have hrec := journalRecover_recovers fs s
  generalize verdict (s.instances fs).sb (home s fs) = v at hrec
  generalize journalRecover fs s = r at hrec ⊢
  obtain ⟨code, t⟩ := r
  cases hrec with
  | unread hf => exact hf.ownIo
  | clean hf => exact hf.ownIo
  | refused hf => exact hf.ownIo
  | cleared hf => exact hf.ownIo.trans (journalClear_frame fs _).toOwnIo
  | half hf hw => exact hf.ownIo.trans (writeHomes_frame hw)
  | replayed hf hw =>
    exact (hf.ownIo.trans (writeHomes_frame hw)).trans (journalClear_frame fs _).toOwnIo

theorem journalRecover_redo (hA : Attached s fs dev) (hb : (s.instances fs).sb.Bounded)
    (hres : Residueless s) (hsafe : SafeTx (s.instances fs).sb sequence entry)
    (h : Redo (s.instances fs).sb sequence entry pre (home s fs)) : (journalRecover fs s).1 = 1 ∧
        Clean (s.instances fs).sb (applyWrites entry pre) (home (journalRecover fs s).2 fs) ∨
      Redo (s.instances fs).sb sequence entry pre (home (journalRecover fs s).2 fs) ∧
        ¬ ∀ k lba, s.io k dev lba = .ok := by
  obtain ⟨hblocks, hfit⟩ := hA.journal
  have hrec := journalRecover_recovers fs s
  rw [verdict_holds hsafe (hb 1) hblocks h.holds] at hrec
  generalize journalRecover fs s = r at hrec ⊢
  obtain ⟨code, t⟩ := r
  cases hrec with
  | unread hf k hk hbad =>
    rw [funext (hf.home fs)]
    exact .inr ⟨h, fun hio => hbad (hA.readsOk hio (by omega))⟩
  | cleared hf hv => simp at hv
  | half hf hw =>
    obtain ⟨k, hk⟩ := writeHomes_upTo hw (hf.instances ▸ hA.spb) (hres.of_io hf.io)
    rw [hk, funext (hf.home fs)]
    refine .inr ⟨h.applyWrites_take hsafe k, fun hio => ?_⟩
    simpa using (writeHomes_ok hw (hA.of_sameButIo hf.toSameButIo)
      (by rw [hf.instances]; exact hsafe.inside) (by rw [hf.io]; exact fun k _ => hio k)).1
  | @replayed s2 s3 _ hf hw =>
    have hs3 := hf.toSameButIo.trans (writeHomes_frame hw).toSameButIo
    have hhome3 : home s3 fs = applyWrites entry (home s fs) := by
      rw [writeHomes_true hw (hf.instances ▸ hA.spb), funext (hf.home fs)]
    rcases h4 : journalClear fs s3 with ⟨ok, s4⟩
    rw [journalClear, hs3.instances] at h4
    cases ok with
    | true =>
      refine .inl ⟨rfl, ?_⟩
      rw [journalRawWrite_true_eq h4 (hs3.instances ▸ hA.spb), hhome3]
      exact h.finish
    | false =>
      refine .inr ⟨?_, fun hio => ?_⟩
      · rw [journalRawWrite_false h4 (hres.of_io hs3.io), hhome3]
        have := h.applyWrites_take hsafe entry.length
        rwa [take_length] at this
      · simpa using journalRawWrite_ok h4 (hA.of_sameButIo hs3) (by rw [hs3.instances]; omega)
          (by rw [hs3.io]; exact hio _ _)

theorem retire_home (fs : InstId) (s : Driver) : home (retire fs s) fs = home s fs := by
  funext b
  simp [home, retire, bcacheInvalidate, setMounted, KfsFs.lba]

/-- A commit cut short before the header leaves nothing behind; from the header on the device
holds the transaction until it is applied. -/
theorem commitWrites_phase (hA : Attached s fs dev) (hres : Residueless s)
    (hsafe : SafeTx (s.instances fs).sb s.journalTx.sequence s.journalTx.entry)
    (hzero : home s fs (s.instances fs).sb.journalStart = Block.zero) :
    Clean (s.instances fs).sb (home s fs) (home (commitWrites fs s).2 fs) ∧
        (¬ ∀ k ≤ s.journalTx.entry.length, ∀ lba, s.io (s.tick + k) dev lba = .ok) ∨
      Redo (s.instances fs).sb s.journalTx.sequence s.journalTx.entry (home s fs)
        (home (commitWrites fs s).2 fs) ∨
      Clean (s.instances fs).sb (applyWrites s.journalTx.entry (home s fs))
        (home (commitWrites fs s).2 fs) := by
  obtain ⟨-, hfit⟩ := hA.journal
  have hlen := hsafe.len
  generalize hsb : (s.instances fs).sb = sb at *
  generalize hentry : s.journalTx.entry = entry at *
  generalize hsequence : s.journalTx.sequence = sequence at *
  unfold commitWrites
  simp only [hsb, hentry, hsequence]
  -- the payloads
  have hclean : ∀ d : Nat → Block,
      (∀ b, b < sb.journalStart + 1 ∨ sb.journalStart + 1 + entry.length ≤ b → d b = home s fs b) →
      Clean sb (home s fs) d := by
    intro d hd
    refine ⟨?_, fun b hb => ?_⟩
    · rw [hd _ (by omega), hzero]
    · unfold InJournal at hb
      exact hd b (by omega)
  split
  · rename_i s1 h1
    refine .inl ⟨hclean _ fun b => writePayloads_home h1 hA.spb, fun hio => ?_⟩
    simpa using writePayloads_ok h1 hA (by rw [hsb]; omega) fun k hk lba => hio k (by omega) lba
  rename_i s1 h1
  have hp := writePayloads_frame h1
  have hph : ∀ b, _ → home s1 fs b = home s fs b := fun b => writePayloads_home h1 hA.spb
  have hA1 := hA.of_sameButIo hp.toSameButIo
  -- the header
  split
  · rename_i s2 h2
    rw [retire_home, journalRawWrite_false h2 (hres.of_io hp.io)]
    refine .inl ⟨hclean _ hph, fun hio => ?_⟩
    simpa using journalRawWrite_ok h2 hA1 (by rw [hp.instances, hsb]; omega)
      (by rw [hp.io, writePayloads_tick h1]; exact hio entry.length (le_refl _) _)
  rename_i s2 h2
  have hs2 := hp.trans (journalRawWrite_frame h2)
  have hspb2 : 0 < (s2.instances fs).spb := hs2.instances ▸ hA.spb
  have hredo : Redo sb sequence entry (home s fs) (home s2 fs) := by
    rw [journalRawWrite_true_eq h2 hA1.spb]
    refine ⟨⟨by simp, fun i hi => ?_⟩, fun b hb _ => ?_⟩
    · rw [Function.update_of_ne (by omega)]
      exact writePayloads_true h1 hA.spb i hi
    · unfold InJournal at hb
      rw [Function.update_of_ne (by omega), hph b (by omega)]
  -- the home blocks
  split
  · rename_i s3 h3
    obtain ⟨k, hk⟩ := writeHomes_upTo h3 hspb2 (hres.of_io hs2.io)
    rw [retire_home, hk]
    exact .inr (.inl (hredo.applyWrites_take hsafe k))
  rename_i s3 h3
  have hs3 := hs2.toSameButIo.trans (writeHomes_frame h3).toSameButIo
  -- the cleared header
  have hclear : journalClear fs s3 = journalRawWrite fs sb.journalStart Block.zero s3 := by
    rw [journalClear, hs3.instances, hsb]
  rw [hclear]
  split
  · rename_i s4 h4
    rw [retire_home, journalRawWrite_false h4 (hres.of_io hs3.io), writeHomes_true h3 hspb2]
    have := hredo.applyWrites_take hsafe entry.length
    rw [take_length] at this
    exact .inr (.inl this)
  · rename_i s4 h4
    rw [journalRawWrite_true_eq h4 (hs3.instances ▸ hA.spb), writeHomes_true h3 hspb2]
    exact .inr (.inr hredo.finish)

theorem journalCommit_disk (hact : s.journalTx.active) (hfs : s.journalTx.fs = some fs)
    (hfail : s.journalTx.failed = false) (hpos : s.journalTx.entry ≠ [])
    (hlen : s.journalTx.entry.length ≤ 32) (hbd : (s.instances fs).bd = some dev)
    (hspb : 0 < (s.instances fs).spb) (b : Nat) :
    (journalCommit fs s).2.disk dev ((s.instances fs).lba b) =
      home (commitWrites fs s).2 fs b := by
  have hbody : commitBody fs s = commitWrites fs s := by
    simp [commitBody, hact, hfs, hfail, hpos]
  have hdisk : (journalCommit fs s).2.disk = (commitWrites fs s).2.disk := by
    unfold journalCommit
    rw [hbody]
    cases hw : commitWrites fs s with
    | mk ok t =>
      cases ok with
      | true => rfl
      | false =>
        dsimp only
        split <;> rfl
  have hinst : ((commitWrites fs s).2.instances fs).bd = some dev ∧
      ((commitWrites fs s).2.instances fs).lba b = (s.instances fs).lba b := by
    rcases hw : commitWrites fs s with ⟨ok, t⟩
    rcases commitWrites_outcome hw hspb hlen with ⟨-, h, -⟩ | ⟨-, h, -⟩ | ⟨-, u, h, rfl⟩
    · rw [h.instances]
      exact ⟨hbd, rfl⟩
    · rw [h.instances]
      exact ⟨hbd, rfl⟩
    · simp [retire, bcacheInvalidate, setMounted, KfsFs.lba, h.instances, hbd]
  rw [hdisk]
  simp only [home, hinst]

theorem Boot.home (h : Boot fs dev f disk t) : Kfs.home t fs = fun b => disk (f.lba b) := by
  funext b
  simp only [Kfs.home, KfsFs.lba, h.attached.bd, h.disk, h.startLba, h.spb]

theorem journalRecover_disk (h : Boot fs dev f disk t) (cut : Option Nat) :
    (fun b => (journalRecover fs (cutPower t cut)).2.disk dev (f.lba b)) =
      home (journalRecover fs (cutPower t cut)).2 fs := by
  have hf : (journalRecover fs (cutPower t cut)).2.instances = t.instances :=
    (journalRecover_frame fs (cutPower t cut)).instances
  funext b
  simp only [Kfs.home, hf, h.attached.bd, KfsFs.lba, h.startLba, h.spb]

theorem AfterCrash.boots (h : AfterCrash fs dev f disk t) : ∃ d, Boot fs dev f d t := by
  cases h with
  | boot _ h => exact ⟨_, h⟩
  | again u _ n hu h => exact ⟨_, h⟩

theorem cutPower_residueless (s : Driver) (cut : Option Nat) : Residueless (cutPower s cut) :=
  powerCut_residueless cut

theorem Boot.cutPower (h : Boot fs dev f disk t) (cut : Option Nat) :
    Boot fs dev f disk (cutPower t cut) :=
  ⟨⟨h.attached.bd, h.attached.spb, h.attached.writable, h.attached.passed⟩, h.bounded, h.disk,
    h.startLba, h.spb, h.geometry⟩

section
variable (h : AfterCrash fs dev f disk t)
include h

theorem AfterCrash.clean (hd : Clean f.sb post fun b => disk (f.lba b)) :
    Clean f.sb post (home t fs) := by
  induction h with
  | boot t h =>
    rw [h.home]
    exact hd
  | again t u n ht h ih =>
    obtain ⟨d, hb⟩ := ht.boots
    have hrec := (journalRecover_clean (hb.cutPower (some n)).attached (ih.congr hb.geometry)).1
    rw [h.home, journalRecover_disk hb]
    exact Clean.congr ⟨hb.geometry.total.symm, hb.geometry.start.symm⟩ hrec

theorem AfterCrash.redo (hsafe : SafeTx f.sb sequence entry)
    (hd : Redo f.sb sequence entry pre fun b => disk (f.lba b)) :
    Redo f.sb sequence entry pre (home t fs) ∨ Clean f.sb (applyWrites entry pre) (home t fs) := by
  induction h with
  | boot t h =>
    rw [h.home]
    exact .inl hd
  | again t u n ht h ih =>
    obtain ⟨d, hb⟩ := ht.boots
    have hback : SameGeometry (t.instances fs).sb f.sb :=
      ⟨hb.geometry.total.symm, hb.geometry.start.symm⟩
    have hcut := hb.cutPower (some n)
    rw [h.home, journalRecover_disk hb]
    rcases ih with ih | ih
    · rcases journalRecover_redo hcut.attached hcut.bounded (cutPower_residueless t _)
        (hsafe.congr hb.geometry) (ih.congr hb.geometry) with ⟨-, hrec⟩ | ⟨hrec, -⟩
      · exact .inr (Clean.congr hback hrec)
      · exact .inl (Redo.congr hback hrec)
    · exact .inr (Clean.congr hback
        (journalRecover_clean hcut.attached (ih.congr hb.geometry)).1)

theorem AfterCrash.finish_clean (hd : Clean f.sb post (home t fs)) :
    0 ≤ (journalRecover fs (cutPower t none)).1 ∧
      Clean f.sb post (home (journalRecover fs (cutPower t none)).2 fs) := by
  obtain ⟨d, hb⟩ := h.boots
  obtain ⟨hrec, hret⟩ :=
    journalRecover_clean (hb.cutPower none).attached (hd.congr hb.geometry)
  exact ⟨(hret fun _ _ => rfl).ge,
    Clean.congr ⟨hb.geometry.total.symm, hb.geometry.start.symm⟩ hrec⟩

theorem AfterCrash.finish_redo (hsafe : SafeTx f.sb sequence entry)
    (hd : Redo f.sb sequence entry pre (home t fs)) : 0 ≤ (journalRecover fs (cutPower t none)).1 ∧
      Clean f.sb (applyWrites entry pre) (home (journalRecover fs (cutPower t none)).2 fs) := by
  obtain ⟨d, hb⟩ := h.boots
  have hcut := hb.cutPower none
  rcases journalRecover_redo hcut.attached hcut.bounded (cutPower_residueless t _)
    (hsafe.congr hb.geometry) (hd.congr hb.geometry) with ⟨hone, hrec⟩ | ⟨-, hbad⟩
  · exact ⟨by omega, Clean.congr ⟨hb.geometry.total.symm, hb.geometry.start.symm⟩ hrec⟩
  · exact absurd (fun _ _ => rfl) hbad

end

/-- Power is cut after `n` device writes of a commit, then after any number of accesses of any
number of recoveries. After one recovery that is not cut short the journal header is zero, and
outside the journal region either nothing of the transaction is there or all of it is; all of it
is there when the header was among the `n` writes. -/
theorem journalCommit_crash_atomic {fs : InstId} {dev : DevId} {s t : Driver}
    (hA : Attached s fs dev) (hact : s.journalTx.active = true)
    (hfs : s.journalTx.fs = some fs) (hfail : s.journalTx.failed = false)
    (hsafe : SafeTx (s.instances fs).sb s.journalTx.sequence s.journalTx.entry)
    (hzero : home s fs (s.instances fs).sb.journalStart = Block.zero) (n : Nat)
    (ht : AfterCrash fs dev (s.instances fs)
      ((journalCommit fs (cutPower s (some n))).2.disk dev) t) :
    let r := journalRecover fs (cutPower t none)
    0 ≤ r.1 ∧ home r.2 fs (s.instances fs).sb.journalStart = Block.zero ∧
      ((∀ b, ¬ InJournal (s.instances fs).sb b →
          home r.2 fs b = applyWrites s.journalTx.entry (home s fs) b) ∨
        n ≤ s.journalTx.entry.length ∧
          ∀ b, ¬ InJournal (s.instances fs).sb b → home r.2 fs b = home s fs b) := by
  intro r
  have hAc : Attached (cutPower s (some n)) fs dev :=
    ⟨hA.bd, hA.spb, hA.writable, hA.passed⟩
  have hphase := commitWrites_phase hAc (cutPower_residueless s _) hsafe hzero
  have hdisk : home (commitWrites fs (cutPower s (some n))).2 fs = fun b =>
      (journalCommit fs (cutPower s (some n))).2.disk dev ((s.instances fs).lba b) :=
    funext fun b => (journalCommit_disk (s := cutPower s (some n)) hact hfs hfail hsafe.pos
      hsafe.len hA.bd hA.spb b).symm
  rw [hdisk] at hphase
  rcases hphase with ⟨hclean, hcut⟩ | hredo | hclean
  · obtain ⟨h0, hres⟩ := ht.finish_clean (ht.clean hclean)
    refine ⟨h0, hres.header, .inr ⟨?_, hres.home⟩⟩
    by_contra hn
    apply hcut
    intro k hk lba
    have hk : k < n := by
      have : k ≤ s.journalTx.entry.length := hk
      omega
    simp [cutPower, powerCut, hk]
  · rcases ht.redo hsafe hredo with h | h
    · obtain ⟨h0, hres⟩ := ht.finish_redo hsafe h
      exact ⟨h0, hres.header, .inl hres.home⟩
    · obtain ⟨h0, hres⟩ := ht.finish_clean h
      exact ⟨h0, hres.header, .inl hres.home⟩
  · obtain ⟨h0, hres⟩ := ht.finish_clean (ht.clean hclean)
    exact ⟨h0, hres.header, .inl hres.home⟩

/-- One staged block, power lost right after the header, and a recovery. -/
theorem journalCommit_crash_atomic_sample :
    let entry := [(36, Block.ofBytes fun _ => 1)]
    let s : Driver := { smallDriver 38 2 fun _ => Block.zero with
      journalTx := ⟨some 0, true, false, 1, smallSb 38 2, entry⟩ }
    let t : Driver := { s with disk := (journalCommit 0 (cutPower s (some 2))).2.disk }
    ∀ b, ¬ InJournal (smallSb 38 2) b →
      home (journalRecover 0 (cutPower t none)).2 0 b = applyWrites entry (home s 0) b := by
  intro entry s t
  have hA : Attached s 0 0 := ⟨rfl, by decide, rfl, by decide⟩
  have hsafe : SafeTx (smallSb 38 2) 1 entry :=
    ⟨by decide, by simp [entry], by simp [entry], by simp [entry], by simp [entry, smallSb],
      by simp [entry, InJournal, smallSb]⟩
  have hboot : Boot 0 0 (s.instances 0) ((journalCommit 0 (cutPower s (some 2))).2.disk 0) t :=
    ⟨⟨rfl, by decide, rfl, by decide⟩, smallSb_bounded 38 2 (by decide) (by decide), rfl, rfl, rfl,
      ⟨rfl, rfl⟩⟩
  rcases (journalCommit_crash_atomic hA rfl rfl rfl hsafe rfl 2 (.boot t hboot)).2.2 with h | ⟨h, -⟩
  · exact h
  · simp [s, entry] at h

end KestrelOS.Kfs
