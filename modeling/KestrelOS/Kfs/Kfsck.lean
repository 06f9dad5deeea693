import KestrelOS.Kfs.Crash
import KestrelOS.Lib.Crc32

/-!
# Journal recovery by kfsck

`journal_info` and `recover_journal` of `tools/kfsck.py`, which work on an image file, against
`journal_recover` of the kernel, which works on the device that holds the image.
-/

namespace KestrelOS.Kfsck

open Kfs Function List Nat

def BLOCK_SIZE : Nat := 4096

/-- The bytes of the file, and the fields that were read when it was opened. -/
structure Img where
  data : List UInt8
  sb : KfsSuperblock

def bytesOf (data : List UInt8) : Bytes := fun i => data.getD i 0

def openImg (data : List UInt8) : Img := ⟨data, KfsSuperblock.ofBytes (bytesOf data)⟩

def Img.block (img : Img) (n : Nat) : List UInt8 :=
  (img.data.drop (n * BLOCK_SIZE)).take BLOCK_SIZE

/-- The length is asserted; `none` is a failed assertion. -/
def Img.writeBlock (img : Img) (n : Nat) (data : List UInt8) : Option Img :=
  if data.length = BLOCK_SIZE then
    some { img with
      data := img.data.take (n * BLOCK_SIZE) ++ data ++ img.data.drop ((n + 1) * BLOCK_SIZE) }
  else none

def unpackI (raw : List UInt8) (off : Nat) : Nat := le32 (bytesOf raw) off

/-- `zlib.crc32`, the IEEE polynomial. -/
def zlibCrc32 (data : List UInt8) (value : UInt32) : UInt32 := Crc32.crc32 0xEDB88320 data value

inductive JournalInfo
  | clean
  | incomplete (sequence : Nat)
  | badTarget (target : Nat)
  | torn (sequence : Nat)
  | committed (sequence count : Nat) (targets : List Nat) (payloads : List (List UInt8))

/-- The first target, after those already seen, that is out of range, in the journal, or listed
before. -/
def findBadTarget (sb : KfsSuperblock) : List Nat → List Nat → Option Nat
  | _, [] => none
  | seen, target :: targets =>
    if sb.totalBlocks ≤ target ∨
        (sb.journalStart ≤ target ∧ target < sb.journalStart + sb.journalBlocks) then some target
    else if target ∈ seen then some target
    else findBadTarget sb (seen ++ [target]) targets

/-- `none` where `struct` finds too few bytes. -/
def journalInfo (img : Img) : Option JournalInfo :=
  let raw := img.block img.sb.journalStart
  if raw.length < 20 then none
  else
    let magic := unpackI raw 0
    let state := unpackI raw 4
    let sequence := unpackI raw 8
    let count := unpackI raw 12
    let checksum := unpackI raw 16
    if magic = 0 ∧ state = 0 ∧ count = 0 then some .clean
    else if magic ≠ 0x314C4E4A ∨ state ≠ 1 ∨ count = 0 ∨ 32 < count then
      some (.incomplete sequence)
    else if raw.length < 20 + 4 * 32 then none
    else
      let targets := ((List.range 32).map fun i => unpackI raw (20 + 4 * i)).take count
      match findBadTarget img.sb [] targets with
      | some target => some (.badTarget target)
      | none =>
        let payloads := (List.range count).map fun i => img.block (img.sb.journalStart + 1 + i)
        let crc := zlibCrc32 (u32Bytes sequence ++ u32Bytes count) 0
        let crc := zlibCrc32 (targets.flatMap u32Bytes) crc
        let crc := payloads.foldl (fun crc payload => zlibCrc32 payload crc) crc
        if crc.toNat ≠ checksum then some (.torn sequence)
        else some (.committed sequence count targets payloads)

def replay : List (Nat × List UInt8) → Img → Option Img
  | [], img => some img
  | (target, payload) :: rest, img => (img.writeBlock target payload).bind (replay rest)

def recoverJournal (img : Img) : Option (Int × Img) :=
  let clear (img : Img) : Option (Int × Img) :=
    (img.writeBlock img.sb.journalStart (List.replicate BLOCK_SIZE 0)).map fun img => (1, img)
  (journalInfo img).bind fun info =>
    match info with
    | .clean => some (0, img)
    | .badTarget _ => some (-1, img)
    | .committed _ _ targets payloads => (replay (targets.zip payloads) img).bind clear
    | .incomplete _ | .torn _ => clear img

/-- The checks of `main` before the journal is looked at. -/
def accepts (img : Img) : Bool :=
  img.sb.magic = 0x3353464B ∧
    img.sb.totalBlocks * BLOCK_SIZE ≤ img.data.length ∧
    img.sb.bitmapStart = 1 ∧
    (img.sb.totalBlocks + BLOCK_SIZE * 8 - 1) / (BLOCK_SIZE * 8) ≤ img.sb.bitmapBlocks ∧
    img.sb.journalStart = img.sb.bitmapStart + img.sb.bitmapBlocks ∧
    img.sb.journalBlocks = 33 ∧
    img.sb.inodeStart = img.sb.journalStart + img.sb.journalBlocks ∧
    img.sb.dataStart = img.sb.inodeStart + img.sb.inodeBlocks ∧
    img.sb.inodeCount ≤ img.sb.inodeBlocks * (BLOCK_SIZE / 64) ∧
    img.sb.rootIno = 1 ∧
    img.sb.features = 1

def NoIoErrors (s : Driver) (dev : DevId) : Prop := ∀ k lba, s.io k dev lba = .ok

section Kernel

variable {fs : InstId} {dev : DevId} {s t : Driver}

theorem NoIoErrors.of_io (h : NoIoErrors s dev) (hio : t.io = s.io) : NoIoErrors t dev := by
  unfold NoIoErrors
  rw [hio]
  exact h

theorem journalClear_eq (hA : Attached s fs dev) (hio : NoIoErrors s dev) :
    (journalClear fs s).1 ∧ home (journalClear fs s).2 fs =
      update (home s fs) (s.instances fs).sb.journalStart Block.zero := by
  have hj := hA.journal
  rcases h : journalClear fs s with ⟨ok, t⟩
  obtain rfl : ok := journalRawWrite_ok h hA (by omega) (hio _ _)
  exact ⟨rfl, journalRawWrite_true_eq h hA.spb⟩

theorem verdict_inside {sb : KfsSuperblock} {v : Nat → Block} {entry : List (Nat × Block)}
    (h : verdict sb v = .committed entry) : ∀ e ∈ entry, e.1 < sb.totalBlocks :=
  fun e he => Nat.lt_of_not_le fun hle => verdict_passed h e he (.inl hle)

theorem journalRecover_eq (hA : Attached s fs dev) (hio : NoIoErrors s dev) :
    (journalRecover fs s).1 = (verdict (s.instances fs).sb (home s fs)).code ∧
      home (journalRecover fs s).2 fs =
        (verdict (s.instances fs).sb (home s fs)).apply (s.instances fs).sb (home s fs) := by
  have hj := hA.journal
  have hclear : ∀ t, SameButIo s t → (journalClear fs t).1 ∧ home (journalClear fs t).2 fs =
      update (home t fs) (s.instances fs).sb.journalStart Block.zero := by
    intro t ht
    have hc := journalClear_eq (hA.of_sameButIo ht) (hio.of_io ht.io)
    rwa [ht.instances] at hc
  have hrec := journalRecover_recovers fs s
  generalize hv : verdict (s.instances fs).sb (home s fs) = v at hrec ⊢
  generalize journalRecover fs s = r at hrec ⊢
  obtain ⟨code, t⟩ := r
  cases hrec with
  | unread hf k hk hbad => exact absurd (hA.readsOk hio (by omega)) hbad
  | clean hf => exact ⟨rfl, funext (hf.home fs)⟩
  | refused hf => exact ⟨rfl, funext (hf.home fs)⟩
  | cleared hf hcase =>
    obtain ⟨hok, hhome⟩ := hclear _ hf.toSameButIo
    rw [hok, hhome, funext (hf.home fs)]
    obtain rfl | rfl := hcase <;> exact ⟨rfl, rfl⟩
  | half hf hw =>
    obtain ⟨hok, -⟩ := writeHomes_ok hw (hA.of_sameButIo hf.toSameButIo)
      (by rw [hf.instances]; exact verdict_inside hv)
      fun k _ lba => hio.of_io hf.io k lba
    cases hok
  | replayed hf hw =>
    obtain ⟨hok, hhome⟩ := hclear _ (hf.toSameButIo.trans (writeHomes_frame hw).toSameButIo)
    rw [hok, hhome, writeHomes_true hw (hf.instances ▸ hA.spb), funext (hf.home fs)]
    exact ⟨rfl, rfl⟩

end Kernel

theorem crc32Bit_eq (c : UInt32) : crc32Bit c = Crc32.shiftBit 0xEDB88320 c := by
  unfold crc32Bit Crc32.shiftBit
  rw [Crc32.and_one]
  cases c.toBitVec.getLsbD 0 <;> simp

theorem crc32Update_eq (c : UInt32) (data : List UInt8) :
    crc32Update c data = data.foldl (Crc32.tableByte 0xEDB88320) c := by
  have hbyte : crc32Byte = Crc32.tableByte 0xEDB88320 := by
    funext c x
    rw [← Crc32.iterate_eq_tableByte]
    unfold crc32Byte
    simp only [crc32Bit_eq]
    rfl
  unfold crc32Update
  rw [hbyte]

theorem crc32Update_append (c : UInt32) (a b : List UInt8) :
    crc32Update c (a ++ b) = crc32Update (crc32Update c a) b := foldl_append

theorem zlibCrc32_eq (c : UInt32) (data : List UInt8) :
    zlibCrc32 data (c ^^^ 0xFFFFFFFF) = crc32Update c data ^^^ 0xFFFFFFFF := by
  unfold zlibCrc32 Crc32.crc32
  rw [Crc32.xor_ones, crc32Update_eq]

theorem foldl_crc32Update {α : Type} (f : α → List UInt8) (xs : List α) (c : UInt32) :
    xs.foldl (fun c x => crc32Update c (f x)) c = crc32Update c (xs.flatMap f) := by
  induction xs generalizing c with
  | nil => rfl
  | cons x xs ih =>
    rw [foldl_cons, ih, flatMap_cons, crc32Update_append]

theorem foldl_zlibCrc32 (xs : List (List UInt8)) (c : UInt32) :
    xs.foldl (fun c x => zlibCrc32 x c) (c ^^^ 0xFFFFFFFF) =
      crc32Update c (xs.flatMap id) ^^^ 0xFFFFFFFF := by
  induction xs generalizing c with
  | nil => rfl
  | cons x xs ih =>
    rw [foldl_cons, zlibCrc32_eq, ih, flatMap_cons, crc32Update_append]
    rfl

theorem chain_eq {β : Type} (head : List UInt8) (payload : β → List UInt8)
    (entry : List (Nat × β)) :
    (entry.map fun e => payload e.2).foldl (fun crc p => zlibCrc32 p crc)
        (zlibCrc32 ((entry.map Prod.fst).flatMap u32Bytes)
          (zlibCrc32 head (0xFFFFFFFF ^^^ 0xFFFFFFFF))) =
      entry.foldl (fun crc e => crc32Update crc (payload e.2))
        (entry.foldl (fun crc e => crc32Update crc (u32Bytes e.1))
          (crc32Update 0xFFFFFFFF head)) ^^^ 0xFFFFFFFF := by
  rw [zlibCrc32_eq, zlibCrc32_eq, foldl_zlibCrc32,
    foldl_crc32Update fun e : Nat × β => u32Bytes e.1,
    foldl_crc32Update fun e : Nat × β => payload e.2, flatMap_map, flatMap_map]
  rfl

theorem checksum_eq (sequence count : Nat) (entry : List (Nat × Block)) :
    ((entry.map fun e => ofFn e.2).foldl (fun crc payload => zlibCrc32 payload crc)
      (zlibCrc32 ((entry.map Prod.fst).flatMap u32Bytes)
        (zlibCrc32 (u32Bytes sequence ++ u32Bytes count) 0))).toNat =
      journalChecksum sequence count entry := by
  have hstart : (0 : UInt32) = 0xFFFFFFFF ^^^ 0xFFFFFFFF := (UInt32.xor_self).symm
  have hchain := chain_eq (u32Bytes sequence ++ u32Bytes count) ofFn entry
  rw [hstart, hchain, crc32Update_append]
  rfl

def blocks (data : List UInt8) (b : Nat) : Block := fun i => data.getD (b * BLOCK_SIZE + i) 0

theorem getD_slice (data : List UInt8) (a n i : Nat) (hi : i < n) :
    ((data.drop a).take n).getD i 0 = data.getD (a + i) 0 := by
  simp only [List.getD_eq_getElem?_getD, List.getElem?_take, hi, if_true, List.getElem?_drop]

variable {b : Nat} {sb : KfsSuperblock} {v v' : Nat → Block}

theorem block_eq (img : Img) (hb : (b + 1) * BLOCK_SIZE ≤ img.data.length) :
    img.block b = ofFn (blocks img.data b) := by
  have hlen : (img.block b).length = BLOCK_SIZE := by
    unfold Img.block
    rw [length_take, length_drop]
    unfold BLOCK_SIZE at hb ⊢
    omega
  apply ext_getElem
  · rw [hlen, length_ofFn]
    rfl
  intro i h1 h2
  rw [hlen] at h1
  rw [List.getElem_ofFn]
  have hget := getD_slice img.data (b * BLOCK_SIZE) BLOCK_SIZE i h1
  rw [getD_eq_getElem?_getD, getElem?_eq_getElem (by rw [← hlen] at h1; exact h1)] at hget
  exact hget

theorem unpackI_block (img : Img) (b : Nat) {off : Nat} (hoff : off + 4 ≤ BLOCK_SIZE) :
    unpackI (img.block b) off = le32 (blocks img.data b).byte off := by
  apply le32_congr
  intro k hk
  have hlt : off + k < BLOCK_SIZE := by omega
  unfold bytesOf Img.block
  rw [getD_slice _ _ _ _ hlt]
  unfold Block.byte
  rw [dif_pos (show off + k < 4096 from hlt)]
  rfl

theorem writeBlock_getElem? (img : Img) (payload : List UInt8) (hlen : payload.length = BLOCK_SIZE)
    (hb : (b + 1) * BLOCK_SIZE ≤ img.data.length) :
    ∃ img', img.writeBlock b payload = some img' ∧ img'.sb = img.sb ∧
      img'.data.length = img.data.length ∧
      (∀ i, (i < b * BLOCK_SIZE ∨ (b + 1) * BLOCK_SIZE ≤ i) → img'.data[i]? = img.data[i]?) ∧
      ∀ i < BLOCK_SIZE, img'.data[b * BLOCK_SIZE + i]? = payload[i]? := by
  have hmul : (b + 1) * BLOCK_SIZE = b * BLOCK_SIZE + BLOCK_SIZE := succ_mul ..
  have htake : (img.data.take (b * BLOCK_SIZE)).length = b * BLOCK_SIZE := by
    rw [length_take]
    omega
  refine ⟨_, if_pos hlen, rfl, ?_, fun i hi => ?_, fun i hi => ?_⟩ <;> dsimp only
  · rw [length_append, length_append, htake, hlen, length_drop]
    omega
  · obtain hlow | hhigh := hi
    · rw [append_assoc, getElem?_append_left (by omega), getElem?_take, if_pos hlow]
    · rw [getElem?_append_right (by rw [length_append, htake, hlen]; omega),
        length_append, htake, hlen, getElem?_drop, hmul, Nat.add_sub_cancel' (by omega)]
  · rw [append_assoc, getElem?_append_right (by omega), htake, Nat.add_sub_cancel_left,
      getElem?_append_left (by omega)]

theorem writeBlock_eq (img : Img) (d : Block) (hb : (b + 1) * BLOCK_SIZE ≤ img.data.length) :
    ∃ img', img.writeBlock b (ofFn d) = some img' ∧ img'.sb = img.sb ∧
      img'.data.length = img.data.length ∧
      (∀ i, (b + 1) * BLOCK_SIZE ≤ i → img'.data[i]? = img.data[i]?) ∧
      blocks img'.data = update (blocks img.data) b d := by
  obtain ⟨img', hwrite, hsb, hlen, hother, hhere⟩ :=
    writeBlock_getElem? img (ofFn d) length_ofFn hb
  refine ⟨img', hwrite, hsb, hlen, fun i hi => hother i (.inr hi), ?_⟩
  funext c i
  have hi : (i : Nat) < BLOCK_SIZE := i.2
  unfold blocks
  rw [getD_eq_getElem?_getD]
  by_cases hc : c = b
  · subst hc
    rw [hhere i hi, update_self, List.getElem?_ofFn, dif_pos i.2]
    rfl
  have hout : c * BLOCK_SIZE + i < b * BLOCK_SIZE ∨ (b + 1) * BLOCK_SIZE ≤ c * BLOCK_SIZE + i := by
    unfold BLOCK_SIZE at hi ⊢
    omega
  rw [hother _ hout, update_of_ne hc, ← getD_eq_getElem?_getD]

theorem checkTargets_eq (sb : KfsSuperblock) (v : Nat → Block) (targets : Nat → Nat) (n i : Nat)
    (acc : List (Nat × Block)) : checkTargets sb v targets n i acc =
      match findBadTarget sb (acc.map Prod.fst) ((range' i n).map targets) with
      | some target => .inl target
      | none => .inr (acc ++
          (range' i n).map fun j => (targets j, v (sb.journalStart + 1 + j))) := by
  induction n generalizing i acc with
  | zero =>
    unfold checkTargets
    simp [findBadTarget]
  | succ n ih =>
    have hseen : (acc.any fun e => e.1 = targets i) ↔ targets i ∈ acc.map Prod.fst := by
      simp [any_eq_true, mem_map]
    rw [range'_succ, map_cons]
    unfold checkTargets findBadTarget
    dsimp only
    by_cases hbad : sb.totalBlocks ≤ targets i ∨
        (sb.journalStart ≤ targets i ∧ targets i < sb.journalStart + sb.journalBlocks)
    · rw [if_pos hbad, if_pos hbad]
    by_cases htwice : targets i ∈ acc.map Prod.fst
    · rw [if_neg hbad, if_neg hbad, if_pos (hseen.mpr htwice), if_pos htwice]
    rw [if_neg hbad, if_neg hbad, if_neg fun h => htwice (hseen.mp h), if_neg htwice, ih,
      map_append]
    simp only [map_cons, map_nil, append_assoc, cons_append, nil_append]

/-- What the checker says of a journal that the kernel gives this verdict. -/
def Verdict.info (sequence count : Nat) : Verdict → JournalInfo
  | .clean => .clean
  | .incomplete => .incomplete sequence
  | .badTarget target => .badTarget target
  | .torn => .torn sequence
  | .committed entry =>
    .committed sequence count (entry.map Prod.fst) (entry.map fun e => List.ofFn e.2)

def headerOf (img : Img) : KfsJournalHeader :=
  KfsJournalHeader.ofBlock (blocks img.data img.sb.journalStart)

theorem fits {m len : Nat} (hb : b < m) (hm : m * BLOCK_SIZE ≤ len) : (b + 1) * BLOCK_SIZE ≤ len :=
  le_trans (mul_le_mul_right _ hb) hm

theorem payloads_eq (img : Img) (hfit : (img.sb.journalStart + 33) * BLOCK_SIZE ≤ img.data.length)
    {count : Nat} (hcount : count ≤ 32) (targets : Nat → Nat) :
    (range count).map (fun i => img.block (img.sb.journalStart + 1 + i)) =
      ((range count).map fun i =>
        (targets i, blocks img.data (img.sb.journalStart + 1 + i))).map fun e => ofFn e.2 := by
  rw [map_map]
  apply map_congr_left
  intro i hi
  have hi := mem_range.mp hi
  have hblock : img.sb.journalStart + 1 + i < img.sb.journalStart + 33 := by omega
  simp only [comp_apply]
  rw [block_eq img (fits hblock hfit)]

theorem journalInfo_eq (img : Img)
    (hfit : (img.sb.journalStart + 33) * BLOCK_SIZE ≤ img.data.length) :
    journalInfo img = some ((verdict img.sb (blocks img.data)).info
      (headerOf img).sequence (headerOf img).count) := by
  have hlen : (img.block img.sb.journalStart).length = 4096 := by
    rw [block_eq img (fits (Nat.lt_add_of_pos_right (by decide)) hfit), length_ofFn]
  have hword : ∀ off, off + 4 ≤ BLOCK_SIZE → unpackI (img.block img.sb.journalStart) off =
      le32 (blocks img.data img.sb.journalStart).byte off := fun off h => unpackI_block img _ h
  have h0 : unpackI (img.block img.sb.journalStart) 0 = (headerOf img).magic := hword 0 (by decide)
  have h4 : unpackI (img.block img.sb.journalStart) 4 = (headerOf img).state := hword 4 (by decide)
  have h8 : unpackI (img.block img.sb.journalStart) 8 = (headerOf img).sequence :=
    hword 8 (by decide)
  have h12 : unpackI (img.block img.sb.journalStart) 12 = (headerOf img).count :=
    hword 12 (by decide)
  have h16 : unpackI (img.block img.sb.journalStart) 16 = (headerOf img).checksum :=
    hword 16 (by decide)
  have htargets : ((range 32).map fun i => unpackI (img.block img.sb.journalStart) (20 + 4 * i)) =
      (range 32).map (headerOf img).targets := by
    apply map_congr_left
    intro i hi
    have hi := mem_range.mp hi
    exact hword (20 + 4 * i) (show 20 + 4 * i + 4 ≤ 4096 by omega)
  have hheader : KfsJournalHeader.ofBlock (blocks img.data img.sb.journalStart) = headerOf img :=
    rfl
  unfold journalInfo verdict
  dsimp only
  rw [h0, h4, h8, h12, h16, htargets, hheader, hlen, if_neg (show ¬ 4096 < 20 by decide)]
  have hmagic : kfsJournalMagic = 0x314C4E4A := rfl
  rw [hmagic]
  generalize headerOf img = jh
  split
  · rfl
  split
  · rfl
  rename_i hbody
  have hcount : jh.count ≤ 32 := by omega
  rw [if_neg (show ¬ 4096 < 20 + 4 * 32 by decide)]
  have htake : ((range 32).map jh.targets).take jh.count =
      (range' 0 jh.count).map jh.targets := by
    rw [← map_take, take_range, min_eq_left hcount, range_eq_range']
  rw [checkTargets_eq, htake, map_nil]
  cases findBadTarget img.sb [] ((range' 0 jh.count).map jh.targets) with
  | some target => rfl
  | none =>
    have hsum := checksum_eq jh.sequence jh.count ((range jh.count).map fun i =>
      (jh.targets i, blocks img.data (img.sb.journalStart + 1 + i)))
    have hfst : ((range jh.count).map fun i =>
        (jh.targets i, blocks img.data (img.sb.journalStart + 1 + i))).map Prod.fst =
          (range jh.count).map jh.targets := by
      rw [map_map]
      rfl
    rw [← payloads_eq img hfit hcount jh.targets, hfst] at hsum
    dsimp only
    rw [nil_append, ← range_eq_range', hsum]
    split
    · rfl
    · simp only [Verdict.info]
      rw [hfst, payloads_eq img hfit hcount jh.targets]

/-- An image that differs from `img` in the blocks of the file system only, and holds `v`. -/
structure Leaves (img : Img) (v : Nat → Block) (img' : Img) : Prop where
  sb : img'.sb = img.sb
  length : img'.data.length = img.data.length
  rest : ∀ i, img.sb.totalBlocks * BLOCK_SIZE ≤ i → img'.data[i]? = img.data[i]?
  blocks : blocks img'.data = v

theorem writeBlock_leaves (img : Img) (d : Block) (hb : b < img.sb.totalBlocks)
    (hfit : img.sb.totalBlocks * BLOCK_SIZE ≤ img.data.length) :
    ∃ img', img.writeBlock b (ofFn d) = some img' ∧
      Leaves img (update (blocks img.data) b d) img' := by
  obtain ⟨img', hwrite, hsb, hlen, hrest, hblocks⟩ := writeBlock_eq img d (fits hb hfit)
  refine ⟨img', hwrite, hsb, hlen, fun i hi => hrest i ?_, hblocks⟩
  exact le_trans (mul_le_mul_right _ hb) hi

theorem replay_leaves (entry : List (Nat × Block)) (img : Img)
    (hin : ∀ e ∈ entry, e.1 < img.sb.totalBlocks)
    (hfit : img.sb.totalBlocks * BLOCK_SIZE ≤ img.data.length) :
    ∃ img', replay (entry.map fun e => (e.1, ofFn e.2)) img = some img' ∧
      Leaves img (applyWrites entry (blocks img.data)) img' := by
  induction entry generalizing img with
  | nil => exact ⟨img, rfl, rfl, rfl, fun _ _ => rfl, rfl⟩
  | cons e entry ih =>
    obtain ⟨img1, hwrite, h1⟩ := writeBlock_leaves img e.2 (hin e mem_cons_self) hfit
    obtain ⟨img2, hreplay, h2⟩ := ih img1
      (fun e' he' => h1.sb ▸ hin e' (mem_cons_of_mem _ he')) (by rw [h1.sb, h1.length]; exact hfit)
    refine ⟨img2, ?_, h2.sb.trans h1.sb, h2.length.trans h1.length, fun i hi => ?_, ?_⟩
    · rw [map_cons]
      unfold replay
      rw [hwrite]
      exact hreplay
    · exact (h2.rest i (by rw [h1.sb]; exact hi)).trans (h1.rest i hi)
    · rw [h2.blocks, h1.blocks, applyWrites_cons]

theorem apply_outside (hj : sb.journalStart < sb.totalBlocks) (hb : sb.totalBlocks ≤ b) :
    (verdict sb v).apply sb v b = v b := by
  have hne : b ≠ sb.journalStart := by omega
  cases hv : verdict sb v with
  | clean => rfl
  | badTarget target => rfl
  | incomplete => exact update_of_ne hne ..
  | torn => exact update_of_ne hne ..
  | committed entry =>
    refine (update_of_ne hne ..).trans (applyWrites_untouched entry v b fun hmem => ?_)
    obtain ⟨e, he, rfl⟩ := mem_map.mp hmem
    exact Nat.not_lt_of_le hb (verdict_inside hv e he)

theorem recoverJournal_leaves (img : Img) (hj : img.sb.journalStart + 33 ≤ img.sb.totalBlocks)
    (hfit : img.sb.totalBlocks * BLOCK_SIZE ≤ img.data.length) :
    ∃ code img', recoverJournal img = some (code, img') ∧
      Leaves img ((verdict img.sb (blocks img.data)).apply img.sb (blocks img.data)) img' ∧
      (∀ target, verdict img.sb (blocks img.data) = .badTarget target → img' = img) := by
  have hinfo := journalInfo_eq img (le_trans (mul_le_mul_right _ hj) hfit)
  have hzero : replicate BLOCK_SIZE 0 = ofFn Block.zero := by
    apply ext_getElem
    · rw [length_replicate, length_ofFn]
      rfl
    intro i h1 h2
    rw [getElem_replicate, List.getElem_ofFn]
    rfl
  have hsame : Leaves img (blocks img.data) img := ⟨rfl, rfl, fun _ _ => rfl, rfl⟩
  obtain ⟨cleared, hclear, hleaves⟩ :=
    writeBlock_leaves img (b := img.sb.journalStart) Block.zero (by omega) hfit
  unfold recoverJournal
  dsimp only
  rw [hinfo, hzero]
  cases hv : verdict img.sb (blocks img.data) with
  | clean => exact ⟨0, img, rfl, hsame, nofun⟩
  | badTarget target => exact ⟨-1, img, rfl, hsame, fun _ _ => rfl⟩
  | incomplete =>
    refine ⟨1, cleared, ?_, hleaves, nofun⟩
    simp only [Option.bind_some, Verdict.info]
    rw [hclear]
    rfl
  | torn =>
    refine ⟨1, cleared, ?_, hleaves, nofun⟩
    simp only [Option.bind_some, Verdict.info]
    rw [hclear]
    rfl
  | committed entry =>
    obtain ⟨img1, hreplay, h1⟩ := replay_leaves entry img (verdict_inside hv) hfit
    obtain ⟨img2, hclear2, h2⟩ := writeBlock_leaves img1 (b := img1.sb.journalStart) Block.zero
      (by rw [h1.sb]; omega) (by rw [h1.sb, h1.length]; exact hfit)
    refine ⟨1, img2, ?_, ⟨h2.sb.trans h1.sb, h2.length.trans h1.length, fun i hi => ?_, ?_⟩, nofun⟩
    · simp only [Option.bind_some, Verdict.info, zip_map']
      rw [hreplay, Option.bind_some, hclear2]
      rfl
    · exact (h2.rest i (by rw [h1.sb]; exact hi)).trans (h1.rest i hi)
    · rw [h2.blocks, h1.blocks, h1.sb]
      rfl

theorem verdict_congr (h : ∀ j < 33, v (sb.journalStart + j) = v' (sb.journalStart + j)) :
    verdict sb v = verdict sb v' := by
  have h0 : v sb.journalStart = v' sb.journalStart := h 0 (by decide)
  unfold verdict
  rw [h0]
  generalize KfsJournalHeader.ofBlock (v' sb.journalStart) = jh
  dsimp only
  split
  · rfl
  split
  · rfl
  rename_i hcount
  have hpayloads : ∀ j ∈ range' 0 jh.count, (jh.targets j, v (sb.journalStart + 1 + j)) =
      (jh.targets j, v' (sb.journalStart + 1 + j)) := by
    intro j hj
    rw [mem_range'_1] at hj
    rw [add_assoc, h (1 + j) (by omega)]
  rw [checkTargets_eq, checkTargets_eq, map_congr_left hpayloads]

def Holds (s : Driver) (fs : InstId) (data : List UInt8) : Prop :=
  ∀ b, (b + 1) * BLOCK_SIZE ≤ data.length → home s fs b = blocks data b

theorem Verdict.apply_congr (h : v b = v' b) (verdict : Verdict) :
    verdict.apply sb v b = verdict.apply sb v' b := by
  have hclear : ∀ w w' : Nat → Block, w b = w' b →
      update w sb.journalStart Block.zero b = update w' sb.journalStart Block.zero b := by
    intro w w' hw
    by_cases hb : b = sb.journalStart
    · rw [hb, update_self, update_self]
    · rw [update_of_ne hb, update_of_ne hb, hw]
  cases verdict with
  | clean => exact h
  | badTarget target => exact h
  | incomplete => exact hclear v v' h
  | torn => exact hclear v v' h
  | committed entry => exact hclear _ _ (applyWrites_congr entry v v' b (.inr h))

/-- Both classify the journal in the same way, replay the same blocks and leave the same image. -/
theorem recoveries_agree {s : Driver} {fs : InstId} {dev : DevId} {data : List UInt8}
    (hA : Attached s fs dev) (hio : NoIoErrors s dev)
    (hsb : (s.instances fs).sb = (openImg data).sb) (hacc : accepts (openImg data))
    (hold : Holds s fs data) :
    journalInfo (openImg data) = some ((verdict (s.instances fs).sb (home s fs)).info
      (headerOf (openImg data)).sequence (headerOf (openImg data)).count) ∧
    (journalRecover fs s).1 = (verdict (s.instances fs).sb (home s fs)).code ∧
    ∃ code img', recoverJournal (openImg data) = some (code, img') ∧
      img'.data.length = data.length ∧ Holds (journalRecover fs s).2 fs img'.data ∧
      (∀ i, (s.instances fs).sb.totalBlocks * BLOCK_SIZE ≤ i → img'.data[i]? = data[i]?) ∧
      (∀ b, (s.instances fs).sb.totalBlocks ≤ b → home (journalRecover fs s).2 fs b = home s fs b) ∧
      ∀ target, verdict (s.instances fs).sb (home s fs) = .badTarget target →
        img'.data = data ∧ home (journalRecover fs s).2 fs = home s fs := by
  have hj := hA.journal
  obtain ⟨hcode, hhome⟩ := journalRecover_eq hA hio
  have hfit : (openImg data).sb.totalBlocks * BLOCK_SIZE ≤ data.length :=
    (of_decide_eq_true hacc).2.1
  rw [hsb] at hj hcode hhome ⊢
  have hjournal : ∀ b, b < (openImg data).sb.totalBlocks → home s fs b = blocks data b :=
    fun b hb => hold b (fits hb hfit)
  have hverdict : verdict (openImg data).sb (home s fs) = verdict (openImg data).sb (blocks data) :=
    verdict_congr fun j hj' => hjournal _ (by omega)
  have hstart : (openImg data).sb.journalStart + 33 ≤ (openImg data).sb.totalBlocks :=
    le_of_lt hj.2
  have hinfo := journalInfo_eq (openImg data)
    (le_trans (mul_le_mul_right _ hstart) hfit)
  obtain ⟨code, img', hrecover, hleaves, hbad⟩ := recoverJournal_leaves (openImg data) hstart hfit
  rw [hverdict] at hcode hhome ⊢
  refine ⟨hinfo, hcode, code, img', hrecover, hleaves.length, fun b hb => ?_, hleaves.rest,
    fun b hb => ?_, fun target htarget => ?_⟩
  · rw [hleaves.length] at hb
    rw [hhome, hleaves.blocks]
    exact Verdict.apply_congr (hold b hb) _
  · rw [hhome, ← hverdict]
    exact apply_outside (by omega) hb
  · rw [hbad target htarget, hhome, htarget]
    exact ⟨rfl, rfl⟩

def imageOf (v : Nat → Block) (n : Nat) : List UInt8 :=
  (List.range n).flatMap fun b => List.ofFn (v b)

theorem imageOf_spec (v : Nat → Block) (n : Nat) :
    (imageOf v n).length = n * BLOCK_SIZE ∧ ∀ b < n, blocks (imageOf v n) b = v b := by
  induction n with
  | zero =>
    refine ⟨?_, fun b hb => absurd hb (not_lt_zero b)⟩
    rw [zero_mul]
    rfl
  | succ n ih =>
    have hsplit : imageOf v (n + 1) = imageOf v n ++ ofFn (v n) := by
      unfold imageOf
      rw [range_succ, flatMap_append, flatMap_singleton]
    have hmul : (n + 1) * BLOCK_SIZE = n * BLOCK_SIZE + BLOCK_SIZE := succ_mul ..
    constructor
    · rw [hsplit, length_append, ih.1, length_ofFn, hmul]
      rfl
    intro b hb
    funext i
    have hi : (i : Nat) < BLOCK_SIZE := i.2
    unfold blocks
    rw [hsplit, getD_eq_getElem?_getD]
    by_cases hbn : b = n
    · subst hbn
      rw [getElem?_append_right (by rw [ih.1]; omega), ih.1, Nat.add_sub_cancel_left,
        List.getElem?_ofFn, dif_pos i.2]
      rfl
    · have hlow : b * BLOCK_SIZE + i < (imageOf v n).length := by
        have hle : (b + 1) * BLOCK_SIZE ≤ n * BLOCK_SIZE := mul_le_mul_right _ (by omega)
        rw [ih.1]
        have hb1 : (b + 1) * BLOCK_SIZE = b * BLOCK_SIZE + BLOCK_SIZE := succ_mul ..
        omega
      rw [getElem?_append_left hlow, ← getD_eq_getElem?_getD]
      exact congrFun (ih.2 b (by omega)) i

def junkHeader (b : Nat) : Block :=
  if b = 0 then Block.ofBytes (smallSb 40 4).toBytes
  else if b = 2 then Block.ofBytes fun _ => 1
  else Block.zero

theorem recoveries_agree_on_junk :
    ∃ code img', recoverJournal (openImg (imageOf junkHeader 40)) = some (code, img') ∧
      Holds (journalRecover 0 (smallDriver 40 4 junkHeader)).2 0 img'.data := by
  obtain ⟨hlen, hblocks⟩ := imageOf_spec junkHeader 40
  generalize imageOf junkHeader 40 = data at hlen hblocks
  have hsb : (openImg data).sb = smallSb 40 4 := by
    rw [← KfsSuperblock.ofBytes_toBytes (smallSb 40 4)
      (smallSb_bounded 40 4 (by decide) (by decide))]
    apply KfsSuperblock.ofBytes_congr
    intro k hk
    have hb := congrFun (hblocks 0 (by decide)) ⟨k, by omega⟩
    unfold blocks at hb
    rw [zero_mul, zero_add] at hb
    exact hb
  have hA : Attached (smallDriver 40 4 junkHeader) 0 0 := ⟨rfl, by decide, rfl, by decide⟩
  have hhold : Holds (smallDriver 40 4 junkHeader) 0 data := by
    intro b hb
    have hlt : b < 40 := by
      rw [hlen] at hb
      exact le_of_mul_le_mul_right hb (by decide)
    rw [hblocks b hlt]
    change junkHeader (0 + b * 1) = junkHeader b
    rw [zero_add, mul_one]
  have hfit : (smallSb 40 4).totalBlocks * BLOCK_SIZE ≤ (openImg data).data.length :=
    le_of_eq hlen.symm
  have hacc : accepts (openImg data) := by
    unfold accepts
    rw [hsb]
    apply decide_eq_true
    refine ⟨rfl, hfit, rfl, ?_, rfl, rfl, rfl, rfl, ?_, rfl, rfl⟩
    · decide +kernel
    · decide +kernel
  obtain ⟨-, -, code, img', hrecover, -, hholds, -⟩ :=
    recoveries_agree hA (fun _ _ => rfl) hsb.symm hacc hhold
  exact ⟨code, img', hrecover, hholds⟩

end KestrelOS.Kfsck
