import KestrelOS.Kfs.BlockIo
import KestrelOS.Lib.WriteLog

/-!
# The redo journal

A transaction stages whole blocks. Its commit writes the payloads, the checksummed header, the home
blocks and at last the cleared header; recovery replays a committed header. KFS_JOURNAL_ENTRIES is
32.
-/

namespace KestrelOS.Kfs

def crc32Bit (crc : UInt32) : UInt32 := (crc >>> 1) ^^^ (0xEDB88320 &&& (0 - (crc &&& 1)))

def crc32Byte (crc : UInt32) (x : UInt8) : UInt32 :=
  crc32Bit (crc32Bit (crc32Bit (crc32Bit (crc32Bit (crc32Bit (crc32Bit (crc32Bit
    (crc ^^^ x.toUInt32))))))))

def crc32Update (crc : UInt32) (data : List UInt8) : UInt32 := data.foldl crc32Byte crc

def u32Bytes (v : Nat) : List UInt8 := (List.range 4).map (leByte v)

def journalChecksum (sequence count : Nat) (entry : List (Nat × Block)) : Nat :=
  let crc := crc32Update 0xFFFFFFFF (u32Bytes sequence)
  let crc := crc32Update crc (u32Bytes count)
  let crc := entry.foldl (fun crc e => crc32Update crc (u32Bytes e.1)) crc
  let crc := entry.foldl (fun crc e => crc32Update crc (List.ofFn e.2)) crc
  (crc ^^^ 0xFFFFFFFF).toNat

/-- KFS_JOURNAL_MAGIC, "JNL1". -/
def kfsJournalMagic : Nat := 0x314C4E4A

structure KfsJournalHeader where
  magic : Nat
  state : Nat
  sequence : Nat
  count : Nat
  checksum : Nat
  targets : Nat → Nat

def KfsJournalHeader.ofBlock (b : Block) : KfsJournalHeader where
  magic := le32 b.byte 0
  state := le32 b.byte 4
  sequence := le32 b.byte 8
  count := le32 b.byte 12
  checksum := le32 b.byte 16
  targets := fun i => le32 b.byte (20 + 4 * i)

def commitWord (sequence : Nat) (entry : List (Nat × Block)) (k : Nat) : Nat :=
  if k = 0 then kfsJournalMagic
  else if k = 1 then 1
  else if k = 2 then sequence
  else if k = 3 then entry.length
  else if k = 4 then journalChecksum sequence entry.length entry
  else (entry.map Prod.fst).getD (k - 5) 0

def commitBlock (sequence : Nat) (entry : List (Nat × Block)) : Block :=
  Block.ofBytes (wordsBytes (commitWord sequence entry))

def setSb (s : Driver) (fs : InstId) (sb : KfsSuperblock) : Driver :=
  { s with instances := fun f => if f = fs then { s.instances f with sb := sb } else s.instances f }

def setMounted (s : Driver) (fs : InstId) (m : Bool) : Driver :=
  { s with instances := fun f =>
      if f = fs then { s.instances f with mounted := m } else s.instances f }

def journalClear (fs : InstId) (s : Driver) : Bool × Driver :=
  journalRawWrite fs (s.instances fs).sb.journalStart Block.zero s

def journalBegin (fs : InstId) (s : Driver) : Bool × Driver :=
  if s.journalTx.active then (false, s)
  else
    let next := (s.journalTx.sequence + 1) % 4294967296
    (true, { s with journalTx :=
      { fs := some fs, active := true, failed := false,
        sequence := if next = 0 then 1 else next,
        savedSb := (s.instances fs).sb, entry := [] } })

def journalReset (s : Driver) : Driver :=
  { s with journalTx :=
    { s.journalTx with active := false, failed := false, entry := [], fs := none } }

def journalAbort (s : Driver) : Driver :=
  match s.journalTx.active, s.journalTx.fs with
  | true, some fs => journalReset (setSb s fs s.journalTx.savedSb)
  | _, _ => journalReset s

def replaceEntry (blk : Nat) (buf : Block) : List (Nat × Block) → List (Nat × Block)
  | [] => []
  | e :: es => if e.1 = blk then (blk, buf) :: es else e :: replaceEntry blk buf es

def journalStage (fs : InstId) (blk : Nat) (buf : Block) (s : Driver) : Bool × Driver :=
  if s.journalTx.active ∧ s.journalTx.fs = some fs then
    if s.journalTx.entry.any (fun e => e.1 = blk) then
      (true, { s with journalTx :=
        { s.journalTx with entry := replaceEntry blk buf s.journalTx.entry } })
    else if 32 ≤ s.journalTx.entry.length then
      (false, { s with journalTx := { s.journalTx with failed := true } })
    else
      (true,
        { s with journalTx := { s.journalTx with entry := s.journalTx.entry ++ [(blk, buf)] } })
  else bwrite fs blk buf s

/-- Payload `i` goes to `journal_start + 1 + i`. -/
def writePayloads (fs : InstId) (start : Nat) : List (Nat × Block) → Driver → Bool × Driver
  | [], s => (true, s)
  | e :: es, s =>
    match journalRawWrite fs start e.2 s with
    | (false, s') => (false, s')
    | (true, s') => writePayloads fs (start + 1) es s'

def writeHomes (fs : InstId) : List (Nat × Block) → Driver → Bool × Driver
  | [], s => (true, s)
  | e :: es, s =>
    match bwrite fs e.1 e.2 s with
    | (false, s') => (false, s')
    | (true, s') => writeHomes fs es s'

/-- The device may hold part of the commit: the instance is retired until the next mount. -/
def retire (fs : InstId) (s : Driver) : Driver := bcacheInvalidate fs (setMounted s fs false)

def commitWrites (fs : InstId) (s : Driver) : Bool × Driver :=
  let sb := (s.instances fs).sb
  match writePayloads fs (sb.journalStart + 1) s.journalTx.entry s with
  | (false, s') => (false, s')
  | (true, s') =>
    match journalRawWrite fs sb.journalStart
        (commitBlock s.journalTx.sequence s.journalTx.entry) s' with
    | (false, s') => (false, retire fs s')
    | (true, s') =>
      match writeHomes fs s.journalTx.entry s' with
      | (false, s') => (false, retire fs s')
      | (true, s') =>
        match journalClear fs s' with
        | (false, s') => (false, retire fs s')
        | (true, s') => (true, s')

def commitBody (fs : InstId) (s : Driver) : Bool × Driver :=
  if ¬ s.journalTx.active ∨ s.journalTx.fs ≠ some fs ∨ s.journalTx.failed then (false, s)
  else if s.journalTx.entry = [] then (true, s)
  else commitWrites fs s

/-- A commit that fails with the instance still mounted puts the old superblock back. -/
def journalCommit (fs : InstId) (s : Driver) : Bool × Driver :=
  match commitBody fs s with
  | (true, s') => (true, journalReset s')
  | (false, s') =>
    (false, journalReset
      (if (s'.instances fs).mounted then setSb s' fs s'.journalTx.savedSb else s'))

/-- Collect payloads `i .. i + n`, checking each target before its payload is read. -/
def recoverEntries (fs : InstId) (sb : KfsSuperblock) (targets : Nat → Nat) :
    Nat → Nat → List (Nat × Block) → Driver → Option (List (Nat × Block)) × Driver
  | 0, _, acc, s => (some acc, s)
  | n + 1, i, acc, s =>
    let target := targets i
    if sb.totalBlocks ≤ target ∨
        (sb.journalStart ≤ target ∧ target < sb.journalStart + sb.journalBlocks) then (none, s)
    else if acc.any (fun e => e.1 = target) then (none, s)
    else
      match journalRawRead fs (sb.journalStart + 1 + i) s with
      | (none, s') => (none, s')
      | (some d, s') => recoverEntries fs sb targets n (i + 1) (acc ++ [(target, d)]) s'

/-- 1 when a committed transaction was replayed, 0 for a clean or torn journal, -1 otherwise. -/
def journalRecover (fs : InstId) (s : Driver) : Int × Driver :=
  let sb := (s.instances fs).sb
  match journalRawRead fs sb.journalStart s with
  | (none, s) => (-1, s)
  | (some hdr, s) =>
    let jh := KfsJournalHeader.ofBlock hdr
    if jh.magic = 0 ∧ jh.state = 0 ∧ jh.count = 0 then (0, s)
    else if jh.magic ≠ kfsJournalMagic ∨ jh.state ≠ 1 ∨ jh.count = 0 ∨ 32 < jh.count then
      match journalClear fs s with
      | (ok, s) => (if ok then 0 else -1, s)
    else
      match recoverEntries fs sb jh.targets jh.count 0 [] s with
      | (none, s) => (-1, s)
      | (some entry, s) =>
        if journalChecksum jh.sequence jh.count entry ≠ jh.checksum then
          match journalClear fs s with
          | (ok, s) => (if ok then 0 else -1, s)
        else
          match writeHomes fs entry s with
          | (false, s) => (-1, s)
          | (true, s) =>
            match journalClear fs s with
            | (ok, s) => (if ok then 1 else -1, s)

variable {fs : InstId} {start b : Nat} {es : List (Nat × Block)} {s t : Driver} {ok : Bool}

theorem writePayloads_frame (h : writePayloads fs start es s = (ok, t)) : RawIo fs s t := by
  induction es generalizing start s with
  | nil =>
    cases h
    exact .refl fs _
  | cons e es ih =>
    unfold writePayloads at h
    split at h
    · cases h
      exact journalRawWrite_frame ‹_›
    · rename_i s' hs'
      exact (journalRawWrite_frame hs').trans (ih h)

theorem writePayloads_home (h : writePayloads fs start es s = (ok, t))
    (hspb : 0 < (s.instances fs).spb) (hb : b < start ∨ start + es.length ≤ b) :
    home t fs b = home s fs b := by
  induction es generalizing start s with
  | nil =>
    cases h
    rfl
  | cons e es ih =>
    simp only [List.length_cons] at hb
    unfold writePayloads at h
    split at h
    · cases h
      exact journalRawWrite_home ‹_› hspb (by omega)
    rename_i s' hs'
    rw [ih h ((journalRawWrite_frame hs').instances ▸ hspb) (by omega)]
    exact journalRawWrite_home hs' hspb (by omega)

theorem writePayloads_true (h : writePayloads fs start es s = (true, t))
    (hspb : 0 < (s.instances fs).spb) (i : Nat) (hi : i < es.length) :
    home t fs (start + i) = (es[i]).2 := by
  induction es generalizing start s i with
  | nil => simp at hi
  | cons e es ih =>
    unfold writePayloads at h
    split at h
    · simp at h
    rename_i s' hs'
    have hspb' : 0 < (s'.instances fs).spb := (journalRawWrite_frame hs').instances ▸ hspb
    cases i with
    | zero =>
      rw [writePayloads_home h hspb' (by omega)]
      exact journalRawWrite_true hs'
    | succ i =>
      have := ih h hspb' i (by simpa using hi)
      rw [show start + 1 + i = start + (i + 1) by omega] at this
      simpa using this

theorem writeHomes_frame (h : writeHomes fs es s = (ok, t)) : OwnIo fs s t := by
  induction es generalizing s with
  | nil =>
    cases h
    exact (RawIo.refl fs _).toOwnIo
  | cons e es ih =>
    unfold writeHomes at h
    split at h
    · cases h
      exact bwrite_frame ‹_›
    · rename_i s' hs'
      exact (bwrite_frame hs').trans (ih h)

theorem writeHomes_true (h : writeHomes fs es s = (true, t)) (hspb : 0 < (s.instances fs).spb) :
    home t fs = applyWrites es (home s fs) := by
  induction es generalizing s with
  | nil =>
    cases h
    rfl
  | cons e es ih =>
    unfold writeHomes at h
    split at h
    · simp at h
    · rename_i s' hs'
      rw [ih h ((bwrite_frame hs').instances ▸ hspb), applyWrites_cons, bwrite_true_eq hs' hspb]

theorem writeHomes_cache (h : writeHomes fs es s = (ok, t)) (hspb : 0 < (s.instances fs).spb)
    (hu : CacheUniq s) : CacheUniq t ∧ ∀ b, CacheOk s fs b → CacheOk t fs b := by
  induction es generalizing s with
  | nil =>
    cases h
    exact ⟨hu, fun _ h => h⟩
  | cons e es ih =>
    unfold writeHomes at h
    split at h
    · rename_i s' hs'
      cases h
      exact ⟨bwrite_uniq hs' hu, fun b => bwrite_cacheOk hs' hu hspb⟩
    rename_i s' hs'
    obtain ⟨h1, h2⟩ := ih h ((bwrite_frame hs').instances ▸ hspb) (bwrite_uniq hs' hu)
    exact ⟨h1, fun b hb => h2 b (bwrite_cacheOk hs' hu hspb hb)⟩

/-- Block `b` lies in the journal region of KFS_JOURNAL_BLOCKS blocks. -/
def InJournal (sb : KfsSuperblock) (b : Nat) : Prop :=
  sb.journalStart ≤ b ∧ b < sb.journalStart + 33

instance (sb : KfsSuperblock) (b : Nat) : Decidable (InJournal sb b) :=
  inferInstanceAs (Decidable (_ ∧ _))

/-- What every end of a transaction of `fs` leaves alone. -/
structure TxEnd (fs : InstId) (s t : Driver) : Prop where
  bdev : t.bdev = s.bdev
  io : t.io = s.io
  sbBlock : t.sbBlock = s.sbBlock
  others : ∀ f, f ≠ fs → t.instances f = s.instances f
  otherDevs : OtherDevs fs s t
  active : t.journalTx.active = false

structure Committed (fs : InstId) (s t : Driver) : Prop extends TxEnd fs s t where
  inst : t.instances fs = s.instances fs
  home : ∀ b, ¬ InJournal (s.instances fs).sb b →
    Kfs.home t fs b = applyWrites s.journalTx.entry (Kfs.home s fs) b
  uniq : CacheUniq s → CacheUniq t
  cache : CacheUniq s → ∀ b, ¬ InJournal (s.instances fs).sb b → CacheOk s fs b → CacheOk t fs b

structure RolledBack (fs : InstId) (s t : Driver) : Prop extends TxEnd fs s t where
  inst : t.instances fs = { s.instances fs with sb := s.journalTx.savedSb }
  home : ∀ b, ¬ InJournal (s.instances fs).sb b → Kfs.home t fs b = Kfs.home s fs b
  overflow : s.journalTx.failed = true → ∀ b, Kfs.home t fs b = Kfs.home s fs b
  bcache : t.bcache = s.bcache

structure Retired (fs : InstId) (s t : Driver) : Prop extends TxEnd fs s t where
  mounted : (t.instances fs).mounted = false

theorem setSb_home (s : Driver) (fs f : InstId) (sb : KfsSuperblock) (b : Nat) :
    home (setSb s fs sb) f b = home s f b := by
  unfold home setSb KfsFs.lba
  by_cases hf : f = fs <;> simp [hf]

theorem retire_frame (fs : InstId) (s : Driver) :
    (∀ f, f ≠ fs → (retire fs s).instances f = s.instances f) ∧
      ((retire fs s).instances fs).mounted = false := by
  constructor
  · intro f hf
    simp [retire, bcacheInvalidate, setMounted, hf]
  · simp [retire, bcacheInvalidate, setMounted]

/-- The three ways out of the write sequence: nothing but payloads written, everything written,
or the instance retired in between. -/
theorem commitWrites_outcome (hr : commitWrites fs s = (ok, t)) (hspb : 0 < (s.instances fs).spb)
    (hlen : s.journalTx.entry.length ≤ 32) : (ok = false ∧ RawIo fs s t ∧
        ∀ b, ¬ InJournal (s.instances fs).sb b → home t fs b = home s fs b) ∨
     (ok ∧ OwnIo fs s t ∧
        (∀ b, ¬ InJournal (s.instances fs).sb b →
          home t fs b = applyWrites s.journalTx.entry (home s fs) b) ∧
        (CacheUniq s → CacheUniq t) ∧
        (CacheUniq s → ∀ b, ¬ InJournal (s.instances fs).sb b → CacheOk s fs b → CacheOk t fs b)) ∨
     (ok = false ∧ ∃ u, OwnIo fs s u ∧ t = retire fs u) := by
  have hph : ∀ ok s1, writePayloads fs ((s.instances fs).sb.journalStart + 1) s.journalTx.entry s =
      (ok, s1) → ∀ b, ¬ InJournal (s.instances fs).sb b → home s1 fs b = home s fs b := by
    intro ok s1 h1 b hb
    unfold InJournal at hb
    exact writePayloads_home h1 hspb (by omega)
  unfold commitWrites at hr
  dsimp only at hr
  split at hr
  · rename_i s1 h1
    cases hr
    exact .inl ⟨rfl, writePayloads_frame h1, hph _ _ h1⟩
  rename_i s1 h1
  have hp := writePayloads_frame h1
  -- the header
  split at hr
  · rename_i s2 h2
    cases hr
    exact .inr (.inr ⟨rfl, s2, (hp.trans (journalRawWrite_frame h2)).toOwnIo, rfl⟩)
  rename_i s2 h2
  have hs2 := hp.trans (journalRawWrite_frame h2)
  have hspb2 : 0 < (s2.instances fs).spb := hs2.instances ▸ hspb
  -- the home blocks
  split at hr
  · rename_i s3 h3
    cases hr
    exact .inr (.inr ⟨rfl, s3, hs2.toOwnIo.trans (writeHomes_frame h3), rfl⟩)
  rename_i s3 h3
  have hs3 := hs2.toOwnIo.trans (writeHomes_frame h3)
  -- the cleared header
  split at hr
  · rename_i s4 h4
    cases hr
    exact .inr (.inr ⟨rfl, s4, hs3.trans (journalRawWrite_frame h4).toOwnIo, rfl⟩)
  rename_i s4 h4
  cases hr
  have hc := journalRawWrite_frame h4
  have hne : ∀ b, ¬ InJournal (s.instances fs).sb b → b ≠ (s.instances fs).sb.journalStart := by
    intro b hb h
    exact hb ⟨by omega, by omega⟩
  have hhome2 : ∀ b, ¬ InJournal (s.instances fs).sb b → home s2 fs b = home s fs b := by
    intro b hb
    rw [journalRawWrite_home h2 (hp.instances ▸ hspb) (hne b hb), hph _ _ h1 b hb]
  have hclear : ∀ b, ¬ InJournal (s.instances fs).sb b → home t fs b = home s3 fs b := by
    intro b hb
    exact journalRawWrite_home h4 (hs3.instances ▸ hspb) (by rw [hs3.instances]; exact hne b hb)
  refine .inr (.inl ⟨rfl, hs3.trans hc.toOwnIo, fun b hb => ?_, fun hu => ?_,
    fun hu b hb hok => ?_⟩)
  · rw [hclear b hb, writeHomes_true h3 hspb2]
    exact applyWrites_congr _ _ _ _ (.inr (hhome2 b hb))
  · exact (writeHomes_cache h3 hspb2 (hu.of_bcache hs2.bcache)).1.of_bcache hc.bcache
  · have hok2 := hok.congr hs2.bcache (hhome2 b hb)
    exact ((writeHomes_cache h3 hspb2 (hu.of_bcache hs2.bcache)).2 b hok2).congr hc.bcache
      (hclear b hb)

theorem Committed.of_ownIo (h : OwnIo fs s t) (hh : ∀ b, ¬ InJournal (s.instances fs).sb b →
      Kfs.home t fs b = applyWrites s.journalTx.entry (Kfs.home s fs) b)
    (hu : CacheUniq s → CacheUniq t)
    (hc : CacheUniq s → ∀ b, ¬ InJournal (s.instances fs).sb b → CacheOk s fs b → CacheOk t fs b) :
    Committed fs s (journalReset t) where
  bdev := h.bdev
  io := h.io
  sbBlock := h.sbBlock
  others := fun f _ => congrFun h.instances f
  otherDevs := h.otherDevs
  active := rfl
  inst := congrFun h.instances fs
  home := hh
  uniq := hu
  cache := hc

theorem RolledBack.of_rawIo (h : RawIo fs s t)
    (hh : ∀ b, ¬ InJournal (s.instances fs).sb b → Kfs.home t fs b = Kfs.home s fs b)
    (hf : s.journalTx.failed → ∀ b, Kfs.home t fs b = Kfs.home s fs b) :
    RolledBack fs s (journalReset (setSb t fs t.journalTx.savedSb)) where
  bdev := h.bdev
  io := h.io
  sbBlock := h.sbBlock
  others := by
    intro f hf
    simp [journalReset, setSb, hf, h.instances]
  otherDevs := h.otherDevs
  active := rfl
  inst := by simp [journalReset, setSb, h.instances, h.journalTx]
  home := by
    intro b hb
    rw [← hh b hb]
    exact setSb_home t fs fs t.journalTx.savedSb b
  overflow := by
    intro hfail b
    rw [← hf hfail b]
    exact setSb_home t fs fs t.journalTx.savedSb b
  bcache := h.bcache

theorem journalCommit_outcome (hr : journalCommit fs s = (ok, t)) (hact : s.journalTx.active)
    (hfs : s.journalTx.fs = some fs) (hspb : 0 < (s.instances fs).spb)
    (hlen : s.journalTx.entry.length ≤ 32) (hm : (s.instances fs).mounted) :
    (ok ∧ s.journalTx.failed = false ∧ Committed fs s t) ∨
      (ok = false ∧ RolledBack fs s t) ∨ (ok = false ∧ Retired fs s t) := by
  by_cases hfail : s.journalTx.failed = true
  · -- an overflowed transaction is only rolled back
    have hbody : commitBody fs s = (false, s) := by simp [commitBody, hfail]
    simp only [journalCommit, hbody, hm, if_true] at hr
    cases hr
    exact .inr (.inl ⟨rfl, RolledBack.of_rawIo (.refl fs s) (fun _ _ => rfl) fun _ _ => rfl⟩)
  have hfail' : s.journalTx.failed = false := by simpa using hfail
  by_cases hnil : s.journalTx.entry = []
  · have hbody : commitBody fs s = (true, s) := by simp [commitBody, hact, hfs, hfail', hnil]
    simp only [journalCommit, hbody] at hr
    cases hr
    refine .inl ⟨rfl, hfail', Committed.of_ownIo (RawIo.refl fs s).toOwnIo ?_ id fun _ _ _ h => h⟩
    intro b _
    rw [hnil, applyWrites_nil]
  have hbody : commitBody fs s = commitWrites fs s := by
    simp [commitBody, hact, hfs, hfail', hnil]
  obtain ⟨ok', t', hw⟩ : ∃ ok' t', commitWrites fs s = (ok', t') := ⟨_, _, rfl⟩
  simp only [journalCommit, hbody, hw] at hr
  rcases commitWrites_outcome hw hspb hlen with
    ⟨rfl, hraw, hh⟩ | ⟨rfl, hown, hh, hu, hc⟩ | ⟨rfl, u, hown, rfl⟩
  · have hmt : (t'.instances fs).mounted = true := by rw [hraw.instances]; exact hm
    simp only [hmt, if_true] at hr
    cases hr
    exact .inr (.inl ⟨rfl, RolledBack.of_rawIo hraw hh fun h => absurd h hfail⟩)
  · cases hr
    exact .inl ⟨rfl, hfail', Committed.of_ownIo hown hh hu hc⟩
  · obtain ⟨hothers, hgone⟩ := retire_frame fs u
    simp only [hgone, Bool.false_eq_true, if_false] at hr
    cases hr
    exact .inr (.inr ⟨rfl, ⟨⟨hown.bdev, hown.io, hown.sbBlock,
      fun f hf => (hothers f hf).trans (congrFun hown.instances f), hown.otherDevs, rfl⟩, hgone⟩⟩)

end KestrelOS.Kfs
