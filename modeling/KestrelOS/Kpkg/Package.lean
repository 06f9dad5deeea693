import KestrelOS.Lib.Access
import KestrelOS.Lib.Text
import KestrelOS.Libc.Sha256

/-!
# The package container

A package is read into one buffer and used in place: a header of 32-bit offsets and lengths, a
block of `key: value` lines, a table of 192-byte file entries and the payload. The bytes each
function reads are kept with its value.
-/

namespace KestrelOS.Kpkg

open List Nat

def kpkgVersion : Nat := 1
def kpkgHdrSize : Nat := 64
def kpkgEntSize : Nat := 192
def kpkgDigest : Nat := 32
def kpkgTypeFile : Nat := 0
def kpkgTypeDir : Nat := 1
def maxPkgBytes : Nat := 4 * 1024 * 1024

structure KpkgHdr where
  magic : List UInt8
  version : Nat
  headerSize : Nat
  metaOff : Nat
  metaLen : Nat
  ftabOff : Nat
  ftabCount : Nat
  dataOff : Nat
  dataLen : Nat
  totalSize : Nat
  deriving DecidableEq

def kpkgHdr (s : Bytes) : KpkgHdr where
  magic := (List.range 4).map s
  version := le32 s 4
  headerSize := le32 s 8
  metaOff := le32 s 12
  metaLen := le32 s 16
  ftabOff := le32 s 20
  ftabCount := le32 s 24
  dataOff := le32 s 28
  dataLen := le32 s 32
  totalSize := le32 s 36

structure KpkgFile where
  path : List UInt8
  mode : Nat
  uid : Nat
  gid : Nat
  size : Nat
  offset : Nat
  type : Nat
  sha256 : List UInt8
  deriving DecidableEq

/-- The entry in a copied record; the path is cut at byte 127. -/
def kpkgFile (s : Bytes) : KpkgFile where
  path := cstrAt s 0 127
  mode := le32 s 128
  uid := le32 s 132
  gid := le32 s 136
  size := le32 s 140
  offset := le32 s 144
  type := le32 s 148
  sha256 := (List.range kpkgDigest).map fun i => s (152 + i)

/-- The loaded package; `raw` is the memory from the buffer on, of which the file is the first
`size` bytes. -/
structure Pkg where
  raw : Bytes
  size : Nat
  h : KpkgHdr
  count : Nat
  name : List UInt8
  version : List UInt8
  desc : List UInt8
  depends : List UInt8
  arch : List UInt8
  instsize : List UInt8

def pkgEntry (p : Pkg) (i : Nat) : Access KpkgFile := do
  return kpkgFile (← .copy p.raw (p.h.ftabOff + i * kpkgEntSize) kpkgEntSize)

def pkgData (p : Pkg) (e : KpkgFile) : Nat := p.h.dataOff + e.offset

def metaLineEnd (mem : Bytes) (off : Nat) : Nat → Nat → Access Nat
  | i, 0 => pure i
  | i, n + 1 => do
    if (← .byte mem (off + i)) = 0x0a then return i else metaLineEnd mem off (i + 1) n

def metaKeyEq (mem : Bytes) : Nat → List UInt8 → Access Bool
  | _, [] => pure true
  | a, k :: ks => do
    if (← .byte mem a) = k then metaKeyEq mem (a + 1) ks else return false

def metaSkipBlank (mem : Bytes) (off : Nat) : Nat → Nat → Access Nat
  | vs, 0 => pure vs
  | vs, n + 1 => do
    let c ← .byte mem (off + vs)
    if c = 0x20 ∨ c = 0x09 then metaSkipBlank mem off (vs + 1) n else return vs

/-- Trailing blanks and carriage returns are cut from the copied value. -/
def metaTrim (v : List UInt8) : List UInt8 :=
  (v.reverse.dropWhile fun c => c == 0x20 || c == 0x0d).reverse

/-- The value between the colon at `vs - 1` and the end of the line, cut to the output. -/
def metaValue (mem : Bytes) (off vs lineEnd outsz : Nat) : Access (List UInt8) := do
  let vs ← metaSkipBlank mem off vs (lineEnd - vs)
  return untilNul (metaTrim (← .span mem (off + vs) (min (lineEnd - vs) (outsz - 1))))

def metaGetLoop (mem : Bytes) (off len : Nat) (key : List UInt8) (outsz : Nat) :
    Nat → Nat → Access (List UInt8)
  | 0, _ => pure []
  | fuel + 1, i =>
    if i < len then do
      let lineEnd ← metaLineEnd mem off i (len - i)
      let next := if lineEnd < len then lineEnd + 1 else lineEnd
      if lineEnd - i ≤ key.length + 1 then metaGetLoop mem off len key outsz fuel next
      else if ¬ (← metaKeyEq mem (off + i) key) then metaGetLoop mem off len key outsz fuel next
      else if (← .byte mem (off + (i + key.length))) ≠ 0x3a then
        metaGetLoop mem off len key outsz fuel next
      else metaValue mem off (i + key.length + 1) lineEnd outsz
    else pure []

/-- Look a `key: value` line up in the block of `len` bytes at `off`. Every round takes a line,
so `len` rounds are enough. -/
def metaGet (mem : Bytes) (off len : Nat) (key : List UInt8) (outsz : Nat) : Access (List UInt8) :=
  metaGetLoop mem off len key outsz len 0

def pathIsSafe (p : List UInt8) : Bool :=
  !(p.length == 0 || p.length ≥ 128 || p.head? != some 0x2f) &&
    !(p.any fun c => c == 0x20 || c == 0x09 || c == 0x0a || c == 0x0d) &&
    !(strstr p (ascii "/../") || strstr p (ascii "//")) &&
    !(p.length ≥ 3 && p.drop (p.length - 3) == ascii "/..")

/-- The two sums of 32-bit fields are 32-bit sums; the table's is computed in 64 bits. -/
def blockOutside (h : KpkgHdr) (body : Nat) : Bool :=
  h.metaOff < kpkgHdrSize || (h.metaOff + h.metaLen) % 2 ^ 32 > body ||
    h.ftabOff < kpkgHdrSize || h.ftabOff + h.ftabCount * kpkgEntSize > body ||
    h.dataOff < kpkgHdrSize || (h.dataOff + h.dataLen) % 2 ^ 32 > body

def checkEntries (p : Pkg) : Nat → Nat → Access (Except String Unit)
  | _, 0 => return .ok ()
  | i, n + 1 => do
    let e ← pkgEntry p i
    if ¬ pathIsSafe e.path then return .error "unsafe path in package"
    else if e.type = kpkgTypeFile ∧ e.offset + e.size > p.h.dataLen then
      return .error "runs past the payload"
    else checkEntries p (i + 1) n

/-- The file in memory, with whatever lies `behind` its buffer. -/
def bufferOf : List UInt8 → Bytes → Bytes
  | [], behind, i => behind i
  | c :: _, _, 0 => c
  | _ :: file, behind, i + 1 => bufferOf file behind i

def pkgMeta (raw : Bytes) (size : Nat) (h : KpkgHdr) : Access Pkg := do
  let get := metaGet raw h.metaOff h.metaLen
  return {
    raw, size, h
    count := h.ftabCount
    name := ← get (ascii "name") 64
    version := ← get (ascii "version") 32
    desc := ← get (ascii "description") 192
    depends := ← get (ascii "depends") 256
    arch := ← get (ascii "arch") 32
    instsize := ← get (ascii "size") 32 }

def digestOf (data : List UInt8) : List UInt8 :=
  Sha256.sha256Final (Sha256.sha256Update Sha256.sha256Init data)

def hdrCheck (h : KpkgHdr) (size : Nat) : Except String Unit :=
  if h.magic ≠ ascii "KPKG" then .error "not a .kpkg file (bad magic)"
  else if h.version ≠ kpkgVersion ∨ h.headerSize ≠ kpkgHdrSize then
    .error "format version, this kpkg speaks 1"
  else if h.totalSize ≠ size then .error "header says another size than the file has"
  else if blockOutside h (size - kpkgDigest) then .error "corrupt (block outside the file)"
  else .ok ()

/-- What follows the digest: the metadata and the entries. -/
def pkgLoadParts (raw : Bytes) (size : Nat) (h : KpkgHdr) : Access (Except String Pkg) := do
  let p ← pkgMeta raw size h
  if p.name = [] ∨ p.version = [] then return .error "metadata has no name or version"
  match ← checkEntries p 0 p.count with
  | .error e => return .error e
  | .ok () => return .ok p

def pkgLoad (file : List UInt8) (behind : Bytes) : Access (Except String Pkg) := do
  let raw := bufferOf file behind
  let size := file.length
  if size > maxPkgBytes then return .error "larger than 4194304 bytes"
  if size < kpkgHdrSize + kpkgDigest then return .error "too small to be a package"
  let h := kpkgHdr (← .copy raw 0 kpkgHdrSize)
  match hdrCheck h size with
  | .error e => return .error e
  | .ok () =>
    let body := size - kpkgDigest
    let digest := digestOf (← .span raw 0 body)
    if digest ≠ (← .span raw body kpkgDigest) then
      return .error "SHA-256 mismatch, refusing to use it"
    pkgLoadParts raw size h

/-- What one round of the extraction is about to do to the file system. -/
inductive ExtractStep
  | mkdirs (e : KpkgFile)
  | mismatch (e : KpkgFile)
  | write (e : KpkgFile) (data : List UInt8)

/-- The payload is read once for its digest and once to be written. -/
def extractEntry (p : Pkg) (i : Nat) : Access ExtractStep := do
  let e ← pkgEntry p i
  if e.type = kpkgTypeDir then return .mkdirs e
  let digest := digestOf (← .span p.raw (pkgData p e) e.size)
  if digest ≠ e.sha256 then return .mismatch e
  return .write e (← .span p.raw (pkgData p e) e.size)

section
variable (mem : Bytes)
include mem

theorem metaLineEnd_val (off i n : Nat) :
    i ≤ (metaLineEnd mem off i n).val ∧ (metaLineEnd mem off i n).val ≤ i + n := by
  induction n generalizing i with
  | zero => simp [metaLineEnd]
  | succ n ih =>
    rw [metaLineEnd, Access.val_bind]
    split
    · simp
    · have := ih (i + 1)
      omega

theorem metaLineEnd_touches (off i n a : Nat) : (metaLineEnd mem off i n).Touches a ↔
      off + i ≤ a ∧ a < off + i + n ∧ a ≤ off + (metaLineEnd mem off i n).val := by
  induction n generalizing i with
  | zero =>
    simp only [metaLineEnd, Access.touches_pure, Access.val_pure, false_iff]
    omega
  | succ n ih =>
    have hval := metaLineEnd_val mem off (i + 1) n
    rw [metaLineEnd, Access.touches_bind, Access.val_bind, Access.touches_byte]
    split
    · simp only [Access.touches_pure, Access.val_pure, or_false]
      omega
    · rw [ih (i + 1)]
      omega

theorem metaKeyEq_within (a : Nat) (key : List UInt8) :
    (metaKeyEq mem a key).Within a (a + key.length) := by
  induction key generalizing a with
  | nil => exact Access.within_pure _ _ _
  | cons k ks ih =>
    rw [metaKeyEq, Access.within_bind, Access.within_byte, length_cons]
    refine ⟨by omega, ?_⟩
    split
    · exact (ih (a + 1)).mono (by omega) (by omega)
    · exact Access.within_pure _ _ _

theorem metaSkipBlank_val (off vs n : Nat) :
    vs ≤ (metaSkipBlank mem off vs n).val ∧ (metaSkipBlank mem off vs n).val ≤ vs + n := by
  induction n generalizing vs with
  | zero => simp [metaSkipBlank]
  | succ n ih =>
    rw [metaSkipBlank, Access.val_bind]
    split
    · have := ih (vs + 1)
      omega
    · simp

theorem metaSkipBlank_within (off vs n : Nat) :
    (metaSkipBlank mem off vs n).Within (off + vs) (off + vs + n) := by
  induction n generalizing vs with
  | zero => exact Access.within_pure _ _ _
  | succ n ih =>
    rw [metaSkipBlank, Access.within_bind, Access.within_byte]
    refine ⟨by omega, ?_⟩
    split
    · exact (ih (vs + 1)).mono (by omega) (by omega)
    · exact Access.within_pure _ _ _

theorem metaValue_within (off vs lineEnd outsz : Nat) (h : vs ≤ lineEnd) :
    (metaValue mem off vs lineEnd outsz).Within (off + vs) (off + lineEnd) := by
  have hval := metaSkipBlank_val mem off vs (lineEnd - vs)
  rw [metaValue, Access.within_bind, Access.within_bind, Access.within_span]
  refine ⟨(metaSkipBlank_within mem off vs _).mono (by omega) (by omega), ?_,
    Access.within_pure _ _ _⟩
  omega

theorem metaGetLoop_within (off len : Nat) (key : List UInt8) (outsz fuel i : Nat) :
    (metaGetLoop mem off len key outsz fuel i).Within off (off + len) := by
  induction fuel generalizing i with
  | zero => exact Access.within_pure _ _ _
  | succ fuel ih =>
    rw [metaGetLoop]
    split
    case isFalse => exact Access.within_pure _ _ _
    case isTrue hi =>
      have hend := metaLineEnd_val mem off i (len - i)
      rw [Access.within_bind]
      constructor
      · intro a ha
        have := (metaLineEnd_touches mem off i (len - i) a).mp ha
        omega
      dsimp only
      generalize (metaLineEnd mem off i (len - i)).val = lineEnd at hend
      -- a line is compared with the key only when it is longer than key and colon
      split
      · exact ih _
      rw [Access.within_bind]
      refine ⟨(metaKeyEq_within mem _ key).mono (by omega) (by omega), ?_⟩
      split
      · exact ih _
      rw [Access.within_bind, Access.within_byte]
      refine ⟨by omega, ?_⟩
      split
      · exact ih _
      · exact (metaValue_within mem off _ _ _ (by omega)).mono (by omega) (by omega)

theorem metaGet_within (off len : Nat) (key : List UInt8) (outsz : Nat) :
    (metaGet mem off len key outsz).Within off (off + len) :=
  metaGetLoop_within mem off len key outsz len 0

end

variable {behind mem : Bytes} {i outsz size : Nat} {key : List UInt8} {p : Pkg} {h : KpkgHdr}

theorem metaGetLoop_touches {off len : Nat} (hkey : len ≤ key.length) (fuel i a : Nat)
    (hfuel : len ≤ i + fuel) (hia : off + i ≤ a) (ha : a < off + len) :
    (metaGetLoop mem off len key outsz fuel i).Touches a := by
  induction fuel generalizing i with
  | zero => omega
  | succ fuel ih =>
    have hend := metaLineEnd_val mem off i (len - i)
    rw [metaGetLoop, if_pos (by omega), Access.touches_bind, metaLineEnd_touches]
    dsimp only
    generalize (metaLineEnd mem off i (len - i)).val = lineEnd at hend
    rw [if_pos (by omega)]
    by_cases hline : a ≤ off + lineEnd
    · exact .inl (by omega)
    · refine .inr (ih _ ?_ ?_) <;> split <;> omega

theorem metaGet_touches {off len : Nat} (hkey : len ≤ key.length) {a : Nat} (hlo : off ≤ a)
    (hhi : a < off + len) : (metaGet mem off len key outsz).Touches a :=
  metaGetLoop_touches hkey len 0 a (by omega) (by omega) hhi

theorem checkEntries_ok {n : Nat} (h : (checkEntries p i n).val = .ok ()) :
    ∀ j, i ≤ j → j < i + n → pathIsSafe (pkgEntry p j).val.path ∧
      ((pkgEntry p j).val.type = kpkgTypeFile →
        (pkgEntry p j).val.offset + (pkgEntry p j).val.size ≤ p.h.dataLen) := by
  induction n generalizing i with
  | zero => intro j hi hj; omega
  | succ n ih =>
    intro j hi hj
    rw [checkEntries, Access.val_bind] at h
    split at h
    · simp at h
    split at h
    · simp at h
    rename_i hsafe hsize
    rcases Nat.eq_or_lt_of_le hi with rfl | hlt
    · exact ⟨not_not.mp hsafe, fun hfile => by
        by_contra hbig
        exact hsize ⟨hfile, by omega⟩⟩
    · exact ih h j hlt (by omega)

/-- The checks an accepted package has passed, its digest and names apart. -/
structure Checked (p : Pkg) : Prop where
  size_le : p.size ≤ maxPkgBytes
  le_size : kpkgHdrSize + kpkgDigest ≤ p.size
  metaOff_lt : p.h.metaOff < 2 ^ 32
  count_eq : p.count = p.h.ftabCount
  inside : blockOutside p.h (p.size - kpkgDigest) = false
  entry : ∀ i < p.count, pathIsSafe (pkgEntry p i).val.path ∧
    ((pkgEntry p i).val.type = kpkgTypeFile →
      (pkgEntry p i).val.offset + (pkgEntry p i).val.size ≤ p.h.dataLen)

theorem pkgLoadParts_ok {raw : Bytes} (hp : (pkgLoadParts raw size h).val = .ok p) :
    p.raw = raw ∧ p.size = size ∧ p.h = h ∧ p.count = h.ftabCount ∧
      (checkEntries p 0 p.count).val = .ok () := by
  rw [pkgLoadParts, Access.val_bind] at hp
  split at hp
  · simp at hp
  rw [Access.val_bind] at hp
  split at hp
  · simp at hp
  rename_i hchk
  obtain rfl : _ = p := by simpa using hp
  exact ⟨rfl, rfl, rfl, rfl, hchk⟩

theorem hdrCheck_inside (hh : hdrCheck h size = .ok ()) :
    blockOutside h (size - kpkgDigest) = false := by
  unfold hdrCheck at hh
  split_ifs at hh
  exact Bool.eq_false_iff.mpr ‹_›

theorem pkgLoad_eq_ok_iff {file : List UInt8} : (pkgLoad file behind).val = .ok p ↔
      file.length ≤ maxPkgBytes ∧ kpkgHdrSize + kpkgDigest ≤ file.length ∧
      hdrCheck (kpkgHdr (bufferOf file behind)) file.length = .ok () ∧
      digestOf (Access.span (bufferOf file behind) 0 (file.length - kpkgDigest)).val =
        (Access.span (bufferOf file behind) (file.length - kpkgDigest) kpkgDigest).val ∧
      (pkgLoadParts (bufferOf file behind) file.length (kpkgHdr (bufferOf file behind))).val =
        .ok p := by
  dsimp only [pkgLoad]
  split
  case isTrue h =>
    simp only [Access.val_pure, reduceCtorEq, false_iff]
    omega
  split
  case isTrue h =>
    simp only [Access.val_pure, reduceCtorEq, false_iff]
    omega
  rename_i hmax hmin
  rw [and_iff_right (by omega), and_iff_right (by omega), Access.val_bind, Access.val_copy]
  simp only [Nat.zero_add]
  cases hh : hdrCheck (kpkgHdr (bufferOf file behind)) file.length with
  | error e => simp
  | ok u =>
    simp only [Access.val_bind, ne_eq, true_and]
    split
    case isTrue hne => simp [hne]
    case isFalse heq => simp [not_not.mp heq]

theorem pkgLoad_ok {file : List UInt8} (h : (pkgLoad file behind).val = .ok p) :
    p.raw = bufferOf file behind ∧ p.size = file.length ∧ p.h = kpkgHdr (bufferOf file behind) ∧
      p.count = p.h.ftabCount ∧ Checked p := by
  obtain ⟨hmax, hmin, hh, -, hparts⟩ := pkgLoad_eq_ok_iff.mp h
  obtain ⟨hraw, hsize, hhdr, hcount, hchk⟩ := pkgLoadParts_ok hparts
  rw [← hhdr] at hcount hh
  refine ⟨hraw, hsize, hhdr, hcount, by omega, by omega, ?_, hcount, ?_, fun i hi =>
    checkEntries_ok hchk i (by omega) (by omega)⟩
  · rw [hhdr]
    exact le32_lt _ _
  · rw [hsize]
    exact hdrCheck_inside hh

theorem Checked.blocks (h : Checked p) :
    (p.h.metaOff + p.h.metaLen) % 2 ^ 32 + kpkgDigest ≤ p.size ∧
      p.h.ftabOff + p.count * kpkgEntSize + kpkgDigest ≤ p.size ∧
      (p.h.dataOff + p.h.dataLen) % 2 ^ 32 + kpkgDigest ≤ p.size := by
  have hin := h.inside
  have hsize := h.le_size
  simp [blockOutside, kpkgHdrSize, kpkgDigest] at hin hsize
  simp only [h.count_eq, kpkgDigest]
  omega

/-- Every byte read through a lookup of any key, through an entry of the table or by the
extraction of an entry lies in the file. -/
def ReadsInFile (p : Pkg) : Prop :=
  (∀ key outsz, (metaGet p.raw p.h.metaOff p.h.metaLen key outsz).Within 0 p.size) ∧
    ∀ i < p.count, (pkgEntry p i).Within 0 p.size ∧ (extractEntry p i).Within 0 p.size

theorem metaGet_within_iff (p : Pkg) :
    (∀ key outsz, (metaGet p.raw p.h.metaOff p.h.metaLen key outsz).Within 0 p.size) ↔
      p.h.metaLen = 0 ∨ p.h.metaOff + p.h.metaLen ≤ p.size := by
  constructor
  · intro h
    rcases Nat.eq_zero_or_pos p.h.metaLen with hlen | hlen
    · exact .inl hlen
    have hlast := h (replicate p.h.metaLen 0x61) 0 (p.h.metaOff + p.h.metaLen - 1)
      (metaGet_touches (by simp) (by omega) (by omega))
    omega
  · rintro h key outsz a ha
    have := metaGet_within p.raw p.h.metaOff p.h.metaLen key outsz a ha
    omega

theorem pkgEntry_within (h : Checked p) (hi : i < p.count) : (pkgEntry p i).Within 0 p.size := by
  have hblocks := h.blocks
  rw [pkgEntry, Access.within_bind, Access.within_copy]
  simp only [kpkgEntSize] at hblocks ⊢
  exact ⟨.inr (by omega), Access.within_pure _ _ _⟩

theorem extractEntry_within_iff (h : Checked p) (hi : i < p.count) :
    (extractEntry p i).Within 0 p.size ↔
      ((pkgEntry p i).val.type ≠ kpkgTypeDir → (pkgEntry p i).val.size = 0 ∨
        pkgData p (pkgEntry p i).val + (pkgEntry p i).val.size ≤ p.size) := by
  rw [extractEntry, Access.within_bind, and_iff_right (pkgEntry_within h hi)]
  generalize (pkgEntry p i).val = e
  by_cases hdir : e.type = kpkgTypeDir
  · simp [hdir, Access.within_pure]
  rw [if_neg hdir, Access.within_bind, Access.within_span]
  dsimp only
  split
  · simp [hdir, Access.within_pure]
  · simp only [Access.within_bind, Access.within_span, Access.within_pure]
    simp [hdir]

/-- The reads stay in the file exactly when the 32-bit sum of the metadata block did not wrap and
every entry whose bounds were not checked, or were checked against a wrapped payload block, is
empty or lies in the file anyway. -/
theorem pkg_reads_in_file_iff {file : List UInt8} {behind : Bytes} {p : Pkg}
    (h : (pkgLoad file behind).val = .ok p) :
    ReadsInFile p ↔
      p.h.metaOff + p.h.metaLen < 2 ^ 32 ∧
        ∀ i < p.count, (pkgEntry p i).val.type ≠ kpkgTypeDir →
          ((pkgEntry p i).val.type ≠ kpkgTypeFile ∨ 2 ^ 32 ≤ p.h.dataOff + p.h.dataLen) →
          (pkgEntry p i).val.size = 0 ∨
            pkgData p (pkgEntry p i).val + (pkgEntry p i).val.size ≤ file.length := by
  obtain ⟨-, hsize, -, -, hchk⟩ := pkgLoad_ok h
  have hblocks := hchk.blocks
  have hmax := hchk.size_le
  have hoff := hchk.metaOff_lt
  simp only [maxPkgBytes, kpkgDigest] at hblocks hmax
  rw [ReadsInFile, metaGet_within_iff, ← hsize]
  refine and_congr (by omega) (forall₂_congr fun i hi => ?_)
  rw [and_iff_right (pkgEntry_within hchk hi), extractEntry_within_iff hchk hi]
  refine ⟨fun hdata hdir _ => hdata hdir, fun hdata hdir => ?_⟩
  by_cases hskip : (pkgEntry p i).val.type ≠ kpkgTypeFile ∨ 2 ^ 32 ≤ p.h.dataOff + p.h.dataLen
  · exact hdata hdir hskip
  rw [not_or, not_not] at hskip
  have hfile := (hchk.entry i hi).2 hskip.1
  rw [pkgData]
  omega

def leWord (v : Nat) : List UInt8 := (List.range 4).map (leByte v)

def hdrBytes (h : KpkgHdr) : List UInt8 :=
  h.magic ++ [h.version, h.headerSize, h.metaOff, h.metaLen, h.ftabOff, h.ftabCount, h.dataOff,
    h.dataLen, h.totalSize, 0, 0, 0, 0, 0, 0].flatMap leWord

def fileBytes (e : KpkgFile) : List UInt8 :=
  e.path ++ List.replicate (128 - e.path.length) 0 ++
    [e.mode, e.uid, e.gid, e.size, e.offset, e.type].flatMap leWord ++ e.sha256 ++
    List.replicate 8 0

/-- Header, metadata, table and payload. `metaLen` and `dataLen` are what the header claims. -/
def packBody (text : List UInt8) (entries : List KpkgFile) (payload : List UInt8)
    (metaLen dataLen : Nat) : List UInt8 :=
  let ftabOff := kpkgHdrSize + text.length
  let dataOff := ftabOff + entries.length * kpkgEntSize
  hdrBytes {
    magic := ascii "KPKG", version := kpkgVersion, headerSize := kpkgHdrSize
    metaOff := kpkgHdrSize, metaLen, ftabOff, ftabCount := entries.length, dataOff, dataLen
    totalSize := dataOff + payload.length + kpkgDigest } ++
    text ++ entries.flatMap fileBytes ++ payload

/-- Whoever writes a body also writes its digest. -/
def sealBody (body : List UInt8) : List UInt8 := body ++ digestOf body

@[simp] theorem length_digestOf (data : List UInt8) : (digestOf data).length = kpkgDigest := by
  simp [digestOf, Sha256.sha256Final, Sha256.beWord, kpkgDigest]

theorem span_bufferOf_left (l r : List UInt8) (behind : Bytes) :
    (Access.span (bufferOf (l ++ r) behind) 0 l.length).val = l := by
  apply ext_getElem (by simp [Access.span])
  intro i hi hl
  simp only [Access.span, Nat.zero_add, getElem_map, getElem_range]
  induction l generalizing i with
  | nil => simp at hl
  | cons c l ih =>
    cases i with
    | zero => rfl
    | succ i =>
      simp only [cons_append, bufferOf, getElem_cons_succ]
      exact ih i (by simpa [Access.span] using hl) (by simpa using hl)

theorem bufferOf_append_add (l r : List UInt8) (behind : Bytes) (i : Nat) :
    bufferOf (l ++ r) behind (l.length + i) = bufferOf r behind i := by
  induction l with
  | nil => simp
  | cons c l ih => simpa [Nat.add_right_comm, bufferOf] using ih

theorem span_bufferOf_right (l r : List UInt8) (behind : Bytes) :
    (Access.span (bufferOf (l ++ r) behind) l.length r.length).val = r := by
  have hleft := span_bufferOf_left r [] behind
  simp only [Access.span, Nat.zero_add, append_nil] at hleft
  simp only [Access.span, bufferOf_append_add, hleft]

theorem exists_pkgLoad {body : List UInt8} {behind : Bytes}
    (hsize : 64 ≤ body.length ∧ body.length + 32 ≤ maxPkgBytes)
    (hh : hdrCheck (kpkgHdr (bufferOf (sealBody body) behind)) (body.length + 32) = .ok ())
    (hparts : (pkgLoadParts (bufferOf (sealBody body) behind) (body.length + 32)
      (kpkgHdr (bufferOf (sealBody body) behind))).val.isOk) :
    ∃ p, (pkgLoad (sealBody body) behind).val = .ok p := by
  have hlen : (sealBody body).length = body.length + 32 := by simp [sealBody, kpkgDigest]
  have hright := span_bufferOf_right body (digestOf body) behind
  rw [length_digestOf] at hright
  generalize hv : (pkgLoadParts (bufferOf (sealBody body) behind) (body.length + 32)
    (kpkgHdr (bufferOf (sealBody body) behind))).val = v at hparts
  cases v with
  | error e => simp [Except.isOk, Except.toBool] at hparts
  | ok p =>
    refine ⟨p, pkgLoad_eq_ok_iff.mpr ?_⟩
    rw [hlen]
    refine ⟨hsize.2, by simp [kpkgHdrSize, kpkgDigest]; omega, hh, ?_, hv⟩
    rw [show body.length + 32 - kpkgDigest = body.length from by simp [kpkgDigest], sealBody,
      span_bufferOf_left, hright]

theorem val_pkgEntry {file : List UInt8} (h : (pkgLoad file behind).val = .ok p) (i : Nat) :
    (pkgEntry p i).val = kpkgFile fun k => bufferOf file behind
      ((kpkgHdr (bufferOf file behind)).ftabOff + i * kpkgEntSize + k) := by
  obtain ⟨hraw, -, hhdr, -, -⟩ := pkgLoad_ok h
  simp only [pkgEntry, Access.val_bind, Access.val_copy, Access.val_pure, hraw, hhdr]

def plainBody : List UInt8 :=
  packBody (ascii "name: a\nversion: 1\n")
    [{ path := ascii "/a", mode := 0o644, uid := 0, gid := 0, size := 1, offset := 0
       type := kpkgTypeFile, sha256 := digestOf [0x41] }] [0x41] 19 1

/-- The same file of a type the format does not name, and said to be long. -/
def typeTwoBody : List UInt8 :=
  packBody (ascii "name: a\nversion: 1\n")
    [{ path := ascii "/a", mode := 0o644, uid := 0, gid := 0, size := 4096, offset := 0
       type := 2, sha256 := digestOf [0x41] }] [0x41] 19 1

/-- A metadata block that ends past `2 ^ 32`. It has the six keys that the installer looks up; the
lookup of any other key leaves the file. -/
def wrappedBody : List UInt8 :=
  packBody (ascii "name: a\nversion: 1\ndescription: b\ndepends: c\narch: d\nsize: 1\n") []
    [] (2 ^ 32 - kpkgHdrSize) 0

theorem pkg_reads_in_file_plain :
    ∃ p, (pkgLoad (sealBody plainBody) fun _ => 0).val = .ok p ∧ ReadsInFile p := by
  obtain ⟨p, hp⟩ := @exists_pkgLoad plainBody (fun _ => 0) (by decide +kernel)
    (by decide +kernel) (by decide +kernel)
  obtain ⟨-, -, hhdr, hcount, -⟩ := pkgLoad_ok hp
  refine ⟨p, hp, (pkg_reads_in_file_iff hp).mpr ⟨?_, fun i hi hdir hskip => ?_⟩⟩
  · rw [hhdr]
    decide +kernel
  have hone : p.h.ftabCount = 1 := by
    rw [hhdr]
    decide +kernel
  obtain rfl : i = 0 := by omega
  rw [val_pkgEntry hp, hhdr] at hskip
  exact absurd hskip (by decide +kernel)

theorem pkg_reads_outside_file :
    (∃ p, (pkgLoad (sealBody typeTwoBody) fun _ => 0).val = .ok p ∧ ¬ ReadsInFile p) ∧
      ∃ p, (pkgLoad (sealBody wrappedBody) fun _ => 0).val = .ok p ∧ ¬ ReadsInFile p := by
  constructor
  · obtain ⟨p, hp⟩ := @exists_pkgLoad typeTwoBody (fun _ => 0) (by decide +kernel)
      (by decide +kernel) (by decide +kernel)
    obtain ⟨-, hsize, hhdr, hcount, hchk⟩ := pkgLoad_ok hp
    have hone : p.h.ftabCount = 1 := by
      rw [hhdr]
      decide +kernel
    refine ⟨p, hp, fun hin => ?_⟩
    have hfirst := (hin.2 0 (by omega)).2
    rw [extractEntry_within_iff hchk (by omega), val_pkgEntry hp, pkgData, hhdr, hsize] at hfirst
    exact absurd hfirst (by decide +kernel)
  · obtain ⟨p, hp⟩ := @exists_pkgLoad wrappedBody (fun _ => 0) (by decide +kernel)
      (by decide +kernel) (by decide +kernel)
    obtain ⟨-, hsize, hhdr, -, -⟩ := pkgLoad_ok hp
    refine ⟨p, hp, fun hin => ?_⟩
    have hmeta := hin.1
    rw [metaGet_within_iff, hhdr, hsize] at hmeta
    exact absurd hmeta (by decide +kernel)

/-- A path that passes goes down from the root only. -/
theorem pathIsSafe_fields {path : List UInt8} (h : pathIsSafe path) :
    ∃ names, path = 0x2f :: names ∧ path.length < 128 ∧ ascii ".." ∉ fields 0x2f names := by
  simp only [pathIsSafe, Bool.and_eq_true, Bool.not_eq_true', Bool.or_eq_false_iff] at h
  obtain ⟨⟨⟨⟨⟨-, hlen⟩, hhead⟩, -⟩, hmid, -⟩, hend⟩ := h
  cases path with
  | nil => simp at hhead
  | cons c names =>
    obtain rfl : c = 0x2f := by simpa using hhead
    refine ⟨names, rfl, Nat.lt_of_not_ge (of_decide_eq_false hlen), fun hup => ?_⟩
    obtain ⟨before, after, hsplit⟩ := append_of_mem hup
    have hpath := flatMap_fields 0x2f names
    rw [hsplit, flatMap_append, flatMap_cons] at hpath
    cases after with
    | nil =>
      rw [← hpath] at hend
      simp [ascii] at hend
    | cons name after =>
      have hstr := strstr_append (before.flatMap (0x2f :: ·)) (ascii "/../")
        (name ++ after.flatMap (0x2f :: ·))
      rw [← hpath] at hmid
      exact Bool.false_ne_true (hmid.symm.trans hstr)

/-- Round `i` of the extraction makes a directory or a file below the root, or nothing; what it
writes has the digest and the length that the table says. -/
def ExtractsBelowRoot (p : Pkg) (i : Nat) : Prop :=
  ∃ (e : KpkgFile) (names : List UInt8), e.path = 0x2f :: names ∧ e.path.length < 128 ∧
    ascii ".." ∉ fields 0x2f names ∧ ((extractEntry p i).val = .mkdirs e ∨
      (extractEntry p i).val = .mismatch e ∨ ∃ data, (extractEntry p i).val = .write e data ∧
        digestOf data = e.sha256 ∧ data.length = e.size)

theorem extraction_stays_below_root {file : List UInt8} {behind : Bytes} {p : Pkg}
    (h : (pkgLoad file behind).val = .ok p) {i : Nat} (hi : i < p.count) :
    ExtractsBelowRoot p i := by
  obtain ⟨-, -, -, -, hchk⟩ := pkgLoad_ok h
  have hsafe := (hchk.entry i hi).1
  obtain ⟨names, hpath, hlen, hup⟩ := pathIsSafe_fields hsafe
  refine ⟨_, names, hpath, hlen, hup, ?_⟩
  rw [extractEntry, Access.val_bind]
  split
  · exact .inl rfl
  rw [Access.val_bind]
  dsimp only
  split
  · exact .inr (.inl rfl)
  · rename_i hdigest
    exact .inr (.inr ⟨_, rfl, not_not.mp hdigest, by simp [Access.span]⟩)

theorem extraction_stays_below_root_plain :
    ∃ p, (pkgLoad (sealBody plainBody) fun _ => 0).val = .ok p ∧ ExtractsBelowRoot p 0 := by
  obtain ⟨p, hp⟩ := @exists_pkgLoad plainBody (fun _ => 0) (by decide +kernel)
    (by decide +kernel) (by decide +kernel)
  obtain ⟨-, -, hhdr, hcount, -⟩ := pkgLoad_ok hp
  refine ⟨p, hp, extraction_stays_below_root hp ?_⟩
  rw [hcount, hhdr]
  decide +kernel

end KestrelOS.Kpkg
