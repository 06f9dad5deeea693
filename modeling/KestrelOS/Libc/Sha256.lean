import Mathlib.Tactic.Common

/-!
# SHA-256 of the C library

The streaming context of `libc/sha256.c`: a partial block is topped up first, whole blocks are
absorbed from the input, the rest waits in the buffer, and the padding goes through the same
update.
-/

namespace KestrelOS.Sha256

def roundConstants : List UInt32 := [
  0x428a2f98, 0x71374491, 0xb5c0fbcf, 0xe9b5dba5, 0x3956c25b, 0x59f111f1, 0x923f82a4, 0xab1c5ed5,
  0xd807aa98, 0x12835b01, 0x243185be, 0x550c7dc3, 0x72be5d74, 0x80deb1fe, 0x9bdc06a7, 0xc19bf174,
  0xe49b69c1, 0xefbe4786, 0x0fc19dc6, 0x240ca1cc, 0x2de92c6f, 0x4a7484aa, 0x5cb0a9dc, 0x76f988da,
  0x983e5152, 0xa831c66d, 0xb00327c8, 0xbf597fc7, 0xc6e00bf3, 0xd5a79147, 0x06ca6351, 0x14292967,
  0x27b70a85, 0x2e1b2138, 0x4d2c6dfc, 0x53380d13, 0x650a7354, 0x766a0abb, 0x81c2c92e, 0x92722c85,
  0xa2bfe8a1, 0xa81a664b, 0xc24b8b70, 0xc76c51a3, 0xd192e819, 0xd6990624, 0xf40e3585, 0x106aa070,
  0x19a4c116, 0x1e376c08, 0x2748774c, 0x34b0bcb5, 0x391c0cb3, 0x4ed8aa4a, 0x5b9cca4f, 0x682e6ff3,
  0x748f82ee, 0x78a5636f, 0x84c87814, 0x8cc70208, 0x90befffa, 0xa4506ceb, 0xbef9a3f7, 0xc67178f2]

def rotr (x n : UInt32) : UInt32 := (x >>> n) ||| (x <<< (32 - n))

def ch (x y z : UInt32) : UInt32 := (x &&& y) ^^^ (~~~x &&& z)

def maj (x y z : UInt32) : UInt32 := (x &&& y) ^^^ (x &&& z) ^^^ (y &&& z)

def bsig0 (x : UInt32) : UInt32 := rotr x 2 ^^^ rotr x 13 ^^^ rotr x 22

def bsig1 (x : UInt32) : UInt32 := rotr x 6 ^^^ rotr x 11 ^^^ rotr x 25

def ssig0 (x : UInt32) : UInt32 := rotr x 7 ^^^ rotr x 18 ^^^ (x >>> 3)

def ssig1 (x : UInt32) : UInt32 := rotr x 17 ^^^ rotr x 19 ^^^ (x >>> 10)

def blockLen : Nat := 64

/-- The chaining value `h[0] .. h[7]`, and the working variables `a .. h` of a block. -/
structure Words where
  a : UInt32
  b : UInt32
  c : UInt32
  d : UInt32
  e : UInt32
  f : UInt32
  g : UInt32
  h : UInt32
  deriving DecidableEq

def loadWords : List UInt8 → List UInt32 → List UInt32
  | p0 :: p1 :: p2 :: p3 :: p, w =>
    loadWords p (((p0.toUInt32 <<< 24) ||| (p1.toUInt32 <<< 16) ||| (p2.toUInt32 <<< 8) |||
      p3.toUInt32) :: w)
  | _, w => w

def extendWords : Nat → List UInt32 → List UInt32
  | 0, w => w
  | n + 1, w =>
    extendWords n ((ssig1 (w.getD 1 0) + w.getD 6 0 + ssig0 (w.getD 14 0) + w.getD 15 0) :: w)

def round (s : Words) (k w : UInt32) : Words :=
  let t1 := s.h + bsig1 s.e + ch s.e s.f s.g + k + w
  let t2 := bsig0 s.a + maj s.a s.b s.c
  { a := t1 + t2, b := s.a, c := s.b, d := s.c, e := s.d + t1, f := s.e, g := s.f, h := s.g }

def rounds : List UInt32 → List UInt32 → Words → Words
  | k :: ks, w :: ws, s => rounds ks ws (round s k w)
  | _, _, s => s

def sha256Block (h : Words) (p : List UInt8) : Words :=
  let s := rounds roundConstants (extendWords 48 (loadWords p [])).reverse h
  { a := h.a + s.a, b := h.b + s.b, c := h.c + s.c, d := h.d + s.d
    e := h.e + s.e, f := h.f + s.f, g := h.g + s.g, h := h.h + s.h }

/-- `buf` holds the `buflen` bytes of the partial block. -/
structure Sha256Ctx where
  h : Words
  nbits : UInt64
  buf : List UInt8
  deriving DecidableEq

def sha256Init : Sha256Ctx where
  h :=
    ⟨0x6a09e667, 0xbb67ae85, 0x3c6ef372, 0xa54ff53a, 0x510e527f, 0x9b05688c, 0x1f83d9ab, 0x5be0cd19⟩
  nbits := 0
  buf := []

/-- `n` whole blocks of the input; what is left goes to the buffer. -/
def sha256Blocks : Nat → Sha256Ctx → List UInt8 → Sha256Ctx
  | 0, ctx, p => { ctx with buf := p }
  | n + 1, ctx, p =>
    sha256Blocks n { ctx with h := sha256Block ctx.h (p.take blockLen) } (p.drop blockLen)

def sha256Update (ctx : Sha256Ctx) (data : List UInt8) : Sha256Ctx :=
  let ctx := { ctx with nbits := ctx.nbits + UInt64.ofNat data.length * 8 }
  if ctx.buf.length ≠ 0 then
    let need := blockLen - ctx.buf.length
    if data.length < need then { ctx with buf := ctx.buf ++ data }
    else
      let p := data.drop need
      sha256Blocks (p.length / blockLen)
        { ctx with h := sha256Block ctx.h (ctx.buf ++ data.take need), buf := [] } p
  else sha256Blocks (data.length / blockLen) ctx data

def beWord (x : UInt32) : List UInt8 :=
  [(x >>> 24).toUInt8, (x >>> 16).toUInt8, (x >>> 8).toUInt8, x.toUInt8]

def sha256Pad (ctx : Sha256Ctx) : List UInt8 :=
  let rem := ctx.buf.length % blockLen
  let padlen := if rem < 56 then 56 - rem else 120 - rem
  0x80 :: List.replicate (padlen - 1) 0 ++
    (List.range 8).map fun i => (ctx.nbits >>> UInt64.ofNat (56 - 8 * i)).toUInt8

def sha256Final (ctx : Sha256Ctx) : List UInt8 :=
  let h := (sha256Update ctx (sha256Pad ctx)).h
  [h.a, h.b, h.c, h.d, h.e, h.f, h.g, h.h].flatMap beWord

open List

/-- The hash value after the first `n` blocks of `p`. -/
def absorb : Nat → Words → List UInt8 → Words
  | 0, h, _ => h
  | n + 1, h, p => absorb n (sha256Block h (p.take blockLen)) (p.drop blockLen)

/-- What the context holds after the message `m`. -/
def contextOf (m : List UInt8) : Sha256Ctx where
  h := absorb (m.length / blockLen) sha256Init.h m
  nbits := UInt64.ofNat m.length * 8
  buf := m.drop (blockLen * (m.length / blockLen))

/-- FIPS 180-4: a one, zeros up to eight bytes before the end of a block, and the length in bits. -/
def padded (m : List UInt8) : List UInt8 :=
  let zeros : List UInt8 := replicate ((119 - m.length % 64) % 64) 0
  m ++ 0x80 :: zeros ++ (range 8).map fun i =>
    ((UInt64.ofNat m.length * 8) >>> UInt64.ofNat (56 - 8 * i)).toUInt8

theorem sha256Blocks_eq (n : Nat) (ctx : Sha256Ctx) (p : List UInt8) :
    sha256Blocks n ctx p = ⟨absorb n ctx.h p, ctx.nbits, p.drop (blockLen * n)⟩ := by
  induction n generalizing ctx p with
  | zero => rfl
  | succ n ih => rw [sha256Blocks, ih, absorb, drop_drop, Nat.mul_succ, Nat.add_comm]

theorem absorb_add (n m : Nat) (h : Words) {p : List UInt8} (q : List UInt8)
    (hn : blockLen * n ≤ p.length) :
    absorb (n + m) h (p ++ q) = absorb m (absorb n h p) (p.drop (blockLen * n) ++ q) := by
  induction n generalizing h p with
  | zero => rw [Nat.zero_add]; rfl
  | succ n ih =>
    rw [Nat.mul_succ] at hn
    have hdrop : blockLen * n ≤ (p.drop blockLen).length := by
      rw [length_drop]
      omega
    rw [Nat.succ_add, absorb, take_append_of_le_length (by omega),
      drop_append_of_le_length (by omega), ih _ hdrop, drop_drop, absorb, Nat.mul_succ,
      Nat.add_comm blockLen]

/-- The buffer in front of the data, cut into blocks. -/
theorem sha256Update_eq {ctx : Sha256Ctx} (hbuf : ctx.buf.length < blockLen) (data : List UInt8) :
    sha256Update ctx data = sha256Blocks ((ctx.buf ++ data).length / blockLen)
      { ctx with nbits := ctx.nbits + UInt64.ofNat data.length * 8 } (ctx.buf ++ data) := by
  unfold sha256Update
  simp only [sha256Blocks_eq, length_append]
  split
  · split
    · rw [Nat.div_eq_of_lt (by omega)]
      rfl
    · rename_i hne hfull
      have hblocks : (ctx.buf.length + data.length) / blockLen =
          (data.drop (blockLen - ctx.buf.length)).length / blockLen + 1 := by
        rw [length_drop, ← Nat.add_div_right _ (by decide)]
        congr 1
        omega
      have htake : (ctx.buf ++ data).take blockLen =
          ctx.buf ++ data.take (blockLen - ctx.buf.length) := by
        rw [take_append, take_of_length_le (by omega)]
      have hdrop : (ctx.buf ++ data).drop blockLen = data.drop (blockLen - ctx.buf.length) := by
        rw [drop_append, drop_of_length_le (by omega), nil_append]
      rw [hblocks, absorb, htake, hdrop, Nat.mul_succ, Nat.add_comm (_ * _), ← drop_drop, hdrop]
  · rename_i hempty
    rw [show ctx.buf = [] from length_eq_zero_iff.mp (not_not.mp hempty)]
    simp

theorem sha256Update_contextOf (m data : List UInt8) :
    sha256Update (contextOf m) data = contextOf (m ++ data) := by
  have hle : blockLen * (m.length / blockLen) ≤ m.length := Nat.mul_div_le _ _
  have hlen : (m ++ data).length / blockLen = m.length / blockLen +
      ((contextOf m).buf ++ data).length / blockLen := by
    simp only [contextOf, length_append, length_drop, blockLen]
    omega
  have hbuf : (contextOf m).buf.length < blockLen := by
    simp only [contextOf, length_drop, blockLen]
    omega
  rw [sha256Update_eq hbuf, sha256Blocks_eq, contextOf.eq_def (m ++ data), hlen,
    absorb_add _ _ _ _ hle, Nat.mul_add, ← drop_drop, drop_append_of_le_length hle]
  simp only [contextOf, length_append, UInt64.ofNat_add, UInt64.add_mul]

/-- However a message is cut into updates, its digest is that of the padded message. -/
theorem sha256_of_parts (parts : List (List UInt8)) :
    sha256Final (parts.foldl sha256Update sha256Init) =
      (fun h : Words => [h.a, h.b, h.c, h.d, h.e, h.f, h.g, h.h].flatMap beWord)
        (absorb ((padded parts.flatten).length / blockLen) sha256Init.h (padded parts.flatten)) ∧
      (padded parts.flatten).length % blockLen = 0 := by
  have hrun : ∀ m, parts.foldl sha256Update (contextOf m) = contextOf (m ++ parts.flatten) := by
    induction parts with
    | nil => simp
    | cons p ps ih =>
      intro m
      rw [foldl_cons, sha256Update_contextOf, ih, flatten_cons, append_assoc]
  have hinit : sha256Init = contextOf [] := rfl
  generalize parts.flatten = m at *
  have hrest : (contextOf m).buf.length % blockLen = m.length % 64 := by
    simp only [contextOf, length_drop, blockLen]
    omega
  have hpad : m ++ sha256Pad (contextOf m) = padded m := by
    have hzeros : (if m.length % 64 < 56 then 56 - m.length % 64 else 120 - m.length % 64) - 1 =
        (119 - m.length % 64) % 64 := by
      split <;> omega
    rw [sha256Pad, hrest, padded, append_assoc, hzeros]
    rfl
  have hdiv : (padded m).length % blockLen = 0 := by
    simp only [padded, length_append, length_cons, length_replicate, length_map, length_range,
      blockLen]
    omega
  refine ⟨?_, hdiv⟩
  rw [hinit, hrun, nil_append, sha256Final, sha256Update_contextOf, hpad]
  rfl

end KestrelOS.Sha256
