import KestrelOS.Kfs.Kfsck
import KestrelOS.Lib.Words

/-!
# CRC-32 and Adler-32

The checksums of libz beside those of libimg's PNG reader and of the KFS journal. A buffer is `none`
for a null pointer. Adler-32 puts the reductions off for up to 5552 bytes; its sums then still fit
32 bits.
-/

namespace KestrelOS.Libz

open List Nat

def crc32Poly : UInt32 := 0xEDB88320

def crcBuildTable (n : UInt8) : UInt32 :=
  (fun c : UInt32 => if c &&& 1 ≠ 0 then crc32Poly ^^^ (c >>> 1) else c >>> 1)^[8] n.toUInt32

def crcByte (c : UInt32) (x : UInt8) : UInt32 :=
  crcBuildTable (c ^^^ x.toUInt32).toUInt8 ^^^ (c >>> 8)

/-- Eight bytes in a turn, then the rest one by one. -/
def crcLoop (c : UInt32) (p : List UInt8) : UInt32 :=
  if 8 ≤ p.length then crcLoop ((p.take 8).foldl crcByte c) (p.drop 8) else p.foldl crcByte c
termination_by p.length

def crc32Update (crc : UInt32) : Option (List UInt8) → UInt32
  | none => crc
  | some p => crcLoop (crc ^^^ 0xFFFFFFFF) p ^^^ 0xFFFFFFFF

/-- `crc32_of` of libimg; its `crc_init` fills the same table. -/
def crc32Of (p : List UInt8) : UInt32 := p.foldl crcByte 0xFFFFFFFF ^^^ 0xFFFFFFFF

def adlerBase : Nat := 65521

def adlerNmax : Nat := 5552

def addBytes (s1 s2 : Nat) : List UInt8 → Words (Nat × Nat)
  | [] => pure (s1, s2)
  | x :: p => do
    let s1 ← Words.add 32 s1 x.toNat
    let s2 ← Words.add 32 s2 s1
    addBytes s1 s2 p

/-- Sixteen bytes in a turn, then the rest one by one. -/
def addBlock (s1 s2 : Nat) (p : List UInt8) : Words (Nat × Nat) :=
  if 16 ≤ p.length then do
    let (s1, s2) ← addBytes s1 s2 (p.take 16)
    addBlock s1 s2 (p.drop 16)
  else addBytes s1 s2 p
termination_by p.length

def adlerLoop (s1 s2 : Nat) (p : List UInt8) : Words (Nat × Nat) :=
  if 0 < p.length then do
    let k := min p.length adlerNmax
    let (s1, s2) ← addBlock s1 s2 (p.take k)
    adlerLoop (s1 % adlerBase) (s2 % adlerBase) (p.drop k)
  else pure (s1, s2)
termination_by p.length
decreasing_by
  simp only [List.length_drop, adlerNmax]
  omega

def adler32Update (adler : UInt32) : Option (List UInt8) → Words UInt32
  | none => pure 1
  | some p => do
    let s1 := (adler &&& 0xFFFF).toNat
    let s2 := ((adler >>> 16) &&& 0xFFFF).toNat
    let (s1, s2) ← adlerLoop s1 s2 p
    pure (UInt32.ofNat ((s2 <<< 16) ||| s1))

def adlerByte (s : Nat × Nat) (x : UInt8) : Nat × Nat :=
  ((s.1 + x.toNat) % 65521, (s.2 + (s.1 + x.toNat) % 65521) % 65521)

/-- Adler-32 as defined: the sums stand in the two halves, and are reduced after every byte. -/
def adler32 (adler : UInt32) (p : List UInt8) : UInt32 :=
  let s := p.foldl adlerByte (adler.toNat % 65536, adler.toNat / 65536)
  UInt32.ofNat (s.2 * 65536 + s.1)

theorem crcByte_eq (c : UInt32) (x : UInt8) : crcByte c x = Crc32.tableByte crc32Poly c x := by
  have hbit : (fun c : UInt32 => if c &&& 1 ≠ 0 then crc32Poly ^^^ (c >>> 1) else c >>> 1) =
      Crc32.shiftBit crc32Poly := by
    funext c
    rw [Crc32.and_one, Crc32.shiftBit]
    cases c.toBitVec.getLsbD 0 <;> simp [UInt32.xor_comm]
  rw [crcByte, crcBuildTable, hbit, UInt32.toUInt8_xor, UInt8.toUInt8_toUInt32]
  rfl

theorem crcLoop_eq (c : UInt32) (p : List UInt8) :
    crcLoop c p = p.foldl (Crc32.tableByte crc32Poly) c := by
  rw [← funext₂ crcByte_eq]
  fun_induction crcLoop c p with
  | case1 c p hp ih => rw [ih, ← foldl_append, take_append_drop]
  | case2 => rfl

theorem addBytes_append (s1 s2 : Nat) (p q : List UInt8) :
    addBytes s1 s2 (p ++ q) = addBytes s1 s2 p >>= fun s => addBytes s.1 s.2 q := by
  induction p generalizing s1 s2 with
  | nil => simp [addBytes, bind, pure]
  | cons x p ih => simp [addBytes, ih, bind, Bool.and_assoc]

theorem addBlock_eq (s1 s2 : Nat) (p : List UInt8) : addBlock s1 s2 p = addBytes s1 s2 p := by
  fun_induction addBlock s1 s2 p with
  | case1 s1 s2 p hp ih =>
    simp only [ih]
    rw [← addBytes_append, take_append_drop]
  | case2 => rfl

theorem addBytes_meets (p : List UInt8) {s1 s2 : Nat} {s : Nat × Nat}
    (hfit : 2 * s2 + 2 * p.length * s1 + 255 * (p.length * (p.length + 1)) < 2 ^ 33)
    (h1 : s1 % 65521 = s.1 % 65521) (h2 : s2 % 65521 = s.2 % 65521) :
    (addBytes s1 s2 p).Meets fun r => r.1 % 65521 = (p.foldl adlerByte s).1 % 65521 ∧
      r.2 % 65521 = (p.foldl adlerByte s).2 % 65521 := by
  induction p generalizing s1 s2 s with
  | nil => exact (Words.meets_pure _ _).2 ⟨h1, h2⟩
  | cons x p ih =>
    have hx : x.toNat * (p.length + 1) ≤ 255 * (p.length + 1) :=
      Nat.mul_le_mul_right _ (le_of_lt_succ x.toNat_lt)
    rw [length_cons] at hfit
    have hnext : 2 * (s2 + (s1 + x.toNat)) + 2 * p.length * (s1 + x.toNat) +
        255 * (p.length * (p.length + 1)) < 2 ^ 33 := by nlinarith
    simp only [addBytes, Words.meets_bind]
    apply Words.meets_add (by omega)
    apply Words.meets_add (by omega)
    refine ih hnext ?_ ?_ <;> simp only [adlerByte] <;> omega

theorem adlerByte_lt (p : List UInt8) (s : Nat × Nat) (hp : p ≠ []) :
    (p.foldl adlerByte s).1 < 65521 ∧ (p.foldl adlerByte s).2 < 65521 := by
  obtain ⟨q, x, rfl⟩ := eq_nil_or_concat p |>.resolve_left hp
  rw [concat_eq_append, foldl_append]
  exact ⟨mod_lt _ (by decide), mod_lt _ (by decide)⟩

theorem adlerLoop_meets (s1 s2 : Nat) (p : List UInt8) (h1 : s1 < 65536) (h2 : s2 < 65536) :
    (adlerLoop s1 s2 p).Meets fun r => r = p.foldl adlerByte (s1, s2) := by
  fun_induction adlerLoop s1 s2 p with
  | case1 s1 s2 p hp k ih =>
    have hk : 0 < k := by
      simp only [k, adlerNmax]
      omega
    have hlen : (p.take k).length ≤ 5552 := by
      simp only [length_take, k, adlerNmax]
      omega
    have hfit : 2 * s2 + 2 * (p.take k).length * s1 +
        255 * ((p.take k).length * ((p.take k).length + 1)) < 2 ^ 33 := by
      generalize (p.take k).length = n at hlen
      nlinarith
    have hne : p.take k ≠ [] := by
      simp [hk.ne', ne_nil_of_length_pos hp]
    obtain ⟨hlt1, hlt2⟩ := adlerByte_lt (p.take k) (s1, s2) hne
    simp only [Words.meets_bind, addBlock_eq]
    refine (addBytes_meets _ hfit (s := (s1, s2)) rfl rfl).mono ?_
    rintro ⟨r1, r2⟩ ⟨hr1, hr2⟩
    rw [mod_eq_of_lt hlt1] at hr1
    rw [mod_eq_of_lt hlt2] at hr2
    have hrest := ih r1 r2 (hr1 ▸ hlt1.trans (by decide)) (hr2 ▸ hlt2.trans (by decide))
    simp only [adlerBase, hr1, hr2] at hrest ⊢
    rwa [← foldl_append, take_append_drop] at hrest
  | case2 s1 s2 p hp =>
    rw [Nat.not_lt, le_zero, length_eq_zero_iff] at hp
    rw [hp]
    exact (Words.meets_pure _ _).2 rfl

theorem adler32_toNat (v : UInt32) (p : List UInt8) :
    ∃ s : Nat × Nat, p.foldl adlerByte (v.toNat % 65536, v.toNat / 65536) = s ∧
      s.1 < 65536 ∧ s.2 < 65536 ∧ (adler32 v p).toNat = s.2 * 65536 + s.1 := by
  have hlt : (p.foldl adlerByte (v.toNat % 65536, v.toNat / 65536)).1 < 65536 ∧
      (p.foldl adlerByte (v.toNat % 65536, v.toNat / 65536)).2 < 65536 := by
    by_cases hp : p = []
    · have := v.toNat_lt
      simp only [hp, foldl_nil]
      omega
    · have := adlerByte_lt p (v.toNat % 65536, v.toNat / 65536) hp
      omega
  refine ⟨_, rfl, hlt.1, hlt.2, ?_⟩
  rw [adler32, UInt32.toNat_ofNat']
  exact mod_eq_of_lt (by omega)

theorem adler32_append (v : UInt32) (a b : List UInt8) :
    adler32 (adler32 v a) b = adler32 v (a ++ b) := by
  obtain ⟨s, hs, h1, h2, hv⟩ := adler32_toNat v a
  have hlow : (s.2 * 65536 + s.1) % 65536 = s.1 := by omega
  have hhigh : (s.2 * 65536 + s.1) / 65536 = s.2 := by omega
  rw [adler32, hv, hlow, hhigh, adler32, foldl_append, hs]

theorem adler32Update_meets (v : UInt32) (p : List UInt8) :
    (adler32Update v (some p)).Meets fun r => r = adler32 v p := by
  have hlow : (v &&& 0xFFFF).toNat = v.toNat % 65536 := and_two_pow_sub_one_eq_mod _ 16
  have hhigh : ((v >>> 16) &&& 0xFFFF).toNat = v.toNat / 65536 := by
    have := v.toNat_lt
    have hand : ((v >>> 16) &&& 0xFFFF).toNat = (v.toNat >>> 16) % 65536 :=
      and_two_pow_sub_one_eq_mod _ 16
    rw [hand, shiftRight_eq_div_pow]
    omega
  obtain ⟨s, hs, h1, h2, -⟩ := adler32_toNat v p
  have := v.toNat_lt
  simp only [adler32Update, Words.meets_bind, hlow, hhigh]
  refine (adlerLoop_meets _ _ p (by omega) (by omega)).mono ?_
  rintro r hr
  rw [Words.meets_pure, adler32, hr, hs, ← shiftLeft_add_eq_or_of_lt h1, shiftLeft_eq]

open Polynomial in
/-- A checksum may be taken in parts, and all the implementations compute the same one. -/
theorem checksums_incremental_and_agree (v : UInt32) (a b : List UInt8) :
    (crc32Update (crc32Update v (some a)) (some b) = crc32Update v (some (a ++ b)) ∧
      Crc32.toPoly (crc32Update v (some a) ^^^ 0xFFFFFFFF).toBitVec =
        (X ^ (8 * a.length) * Crc32.toPoly (v ^^^ 0xFFFFFFFF).toBitVec +
          X ^ 32 * Crc32.message a) %ₘ
        (X ^ 32 + X ^ 26 + X ^ 23 + X ^ 22 + X ^ 16 + X ^ 12 + X ^ 11 + X ^ 10 + X ^ 8 + X ^ 7 +
          X ^ 5 + X ^ 4 + X ^ 2 + X + 1) ∧
      crc32Of a = crc32Update 0 (some a) ∧
      Kfs.crc32Update (v ^^^ 0xFFFFFFFF) a ^^^ 0xFFFFFFFF = crc32Update v (some a)) ∧
    ((adler32Update (adler32Update v (some a)).val (some b)).val =
        (adler32Update v (some (a ++ b))).val ∧
      (adler32Update v (some a)).val = adler32 v a ∧ (adler32Update v (some a)).exact) := by
  have hgen : Crc32.generator crc32Poly = X ^ 32 + X ^ 26 + X ^ 23 + X ^ 22 + X ^ 16 + X ^ 12 +
      X ^ 11 + X ^ 10 + X ^ 8 + X ^ 7 + X ^ 5 + X ^ 4 + X ^ 2 + X + 1 := by
    rw [Crc32.generator, Crc32.toPoly, ofFn_eq_sum_monomial, Fin.sum_univ_eq_sum_range
      fun i => monomial i (if crc32Poly.toBitVec.getMsbD i then (1 : ZMod 2) else 0)]
    simp [Finset.sum_range_succ, crc32Poly, BitVec.getMsbD, monomial_one_right_eq_X_pow]
    ring
  refine ⟨⟨?_, ?_, ?_, ?_⟩, ?_, (adler32Update_meets v a).2, (adler32Update_meets v a).1⟩
  · simp only [crc32Update, crcLoop_eq, Crc32.xor_ones, foldl_append]
  · simp only [crc32Update, crcLoop_eq, Crc32.xor_ones]
    rw [← hgen, Crc32.toPoly_foldl]
  · simp only [crc32Update, crcLoop_eq, crc32Of, funext₂ crcByte_eq]
    rfl
  · simp only [crc32Update, crcLoop_eq, Kfsck.crc32Update_eq]
    rfl
  · rw [(adler32Update_meets _ b).2, (adler32Update_meets v a).2, (adler32Update_meets v _).2,
      adler32_append]

end KestrelOS.Libz
