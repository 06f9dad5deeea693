import Mathlib.Algebra.Polynomial.OfFn
import Mathlib.Algebra.Field.ZMod
import Mathlib.RingTheory.AdjoinRoot

/-!
# Reflected CRC-32

The bitwise form of a reflected 32-bit CRC with any polynomial, its byte table, and the remainder of
polynomials that both compute. In a reflected word the lowest bit is the coefficient of the highest
power.
-/

namespace KestrelOS.Crc32

open Polynomial List

section

variable (poly : UInt32)

def shiftBit (c : UInt32) : UInt32 := if c.toBitVec.getLsbD 0 then (c >>> 1) ^^^ poly else c >>> 1

def table (x : UInt8) : UInt32 := (shiftBit poly)^[8] x.toUInt32

def tableByte (c : UInt32) (x : UInt8) : UInt32 := table poly (c.toUInt8 ^^^ x) ^^^ (c >>> 8)

/-- The checksum of `data`, going on from the checksum `value` of what came before. -/
def crc32 (data : List UInt8) (value : UInt32) : UInt32 :=
  data.foldl (tableByte poly) (value ^^^ 0xFFFFFFFF) ^^^ 0xFFFFFFFF

theorem and_one (c : UInt32) : c &&& 1 = if c.toBitVec.getLsbD 0 then 1 else 0 := by
  apply UInt32.toBitVec_inj.mp
  rw [UInt32.toBitVec_and]
  change c.toBitVec &&& 1#32 = _
  rw [BitVec.and_one_eq_setWidth_ofBool_getLsbD]
  cases c.toBitVec.getLsbD 0 <;> rfl

theorem xor_ones (c : UInt32) : c ^^^ 0xFFFFFFFF ^^^ 0xFFFFFFFF = c := by
  rw [UInt32.xor_assoc, UInt32.xor_self, UInt32.xor_zero]

end

section

variable {v w : Nat}

/-- The polynomial over the field of two elements that a reflected word stands for. -/
noncomputable def toPoly (c : BitVec w) : (ZMod 2)[X] :=
  ofFn w fun i => if c.getMsbD i then 1 else 0

/-- A message, the lowest bit of its first byte first. -/
noncomputable def message (data : List UInt8) : (ZMod 2)[X] :=
  data.foldl (fun m x => X ^ 8 * m + toPoly x.toBitVec) 0

private theorem coeff_toPoly (c : BitVec w) (d : Nat) :
    (toPoly c).coeff d = if c.getMsbD d then 1 else 0 := by
  rcases Nat.lt_or_ge d w with hd | hd
  · exact ofFn_coeff_eq_val_of_lt _ hd
  · rw [toPoly, ofFn_coeff_eq_zero_of_ge _ hd, BitVec.getMsbD_of_ge c d hd]
    rfl

private theorem toPoly_injective : Function.Injective (toPoly (w := w)) := by
  intro a b h
  apply BitVec.eq_of_getMsbD_eq
  intro i _
  have hi := congrArg (coeff · i) h
  simp only [coeff_toPoly] at hi
  cases ha : a.getMsbD i <;> cases hb : b.getMsbD i <;> simp_all

private theorem toPoly_xor (a b : BitVec w) : toPoly (a ^^^ b) = toPoly a + toPoly b := by
  ext d
  rw [coeff_add, coeff_toPoly, coeff_toPoly, coeff_toPoly, BitVec.getMsbD_xor]
  cases a.getMsbD d <;> cases b.getMsbD d <;> decide

private theorem toPoly_setWidth (h : v ≤ w) (c : BitVec v) :
    toPoly (c.setWidth w) = X ^ (w - v) * toPoly c := by
  ext d
  rw [coeff_X_pow_mul', coeff_toPoly, coeff_toPoly, BitVec.getMsbD_setWidth]
  by_cases hd : w - v ≤ d
  · simp [hd, show d + v - w = d - (w - v) by omega]
  · simp [hd]

private theorem X_pow_mul_toPoly {n : Nat} (h : n ≤ w) (c : BitVec w) :
    X ^ n * toPoly c = X ^ w * toPoly (c.setWidth n) + toPoly (c >>> n) := by
  ext d
  rw [coeff_add, coeff_X_pow_mul', coeff_X_pow_mul', coeff_toPoly, coeff_toPoly, coeff_toPoly,
    BitVec.getMsbD_ushiftRight, BitVec.getMsbD_setWidth]
  by_cases hd : w ≤ d
  · simp [hd, Nat.not_lt.2 hd, h.trans hd, Nat.sub_eq_zero_of_le h]
  by_cases hn : n ≤ d
  · simp [hd, hn, Nat.lt_of_not_le hd, Nat.not_lt.2 hn]
  · simp [hd, hn, Nat.lt_of_not_le hn]

end

variable (poly : UInt32)

noncomputable def generator : (ZMod 2)[X] := X ^ 32 + toPoly poly.toBitVec

noncomputable def residue (c : UInt32) : AdjoinRoot (generator poly) :=
  AdjoinRoot.mk _ (toPoly c.toBitVec)

private theorem toPoly_eq_modByMonic {c : UInt32} {p : (ZMod 2)[X]}
    (h : residue poly c = AdjoinRoot.mk _ p) : toPoly c.toBitVec = p %ₘ generator poly := by
  have hmonic : (generator poly).Monic := monic_X_pow_add (ofFn_degree_lt _)
  have hdegree : (generator poly).degree = 32 := by
    have hlt : (toPoly poly.toBitVec).degree < (X ^ 32 : (ZMod 2)[X]).degree := by
      rw [degree_X_pow]
      exact ofFn_degree_lt _
    rw [generator, degree_add_eq_left_of_degree_lt hlt, degree_X_pow]
    rfl
  rw [← modByMonic_eq_of_dvd_sub hmonic (AdjoinRoot.mk_eq_mk.1 h), eq_comm,
    modByMonic_eq_self_iff hmonic, hdegree]
  exact ofFn_degree_lt _

private theorem residue_injective : Function.Injective (residue poly) := by
  intro a b h
  have heq := (toPoly_eq_modByMonic poly h).trans (toPoly_eq_modByMonic poly (c := b) rfl).symm
  exact UInt32.toBitVec_inj.1 (toPoly_injective heq)

private theorem residue_xor (a b : UInt32) :
    residue poly (a ^^^ b) = residue poly a + residue poly b := by
  rw [residue, UInt32.toBitVec_xor, toPoly_xor, map_add]
  rfl

private theorem residue_byte (x : UInt8) :
    residue poly x.toUInt32 = AdjoinRoot.mk _ (X ^ 24 * toPoly x.toBitVec) :=
  congrArg _ (toPoly_setWidth (by decide) x.toBitVec)

private theorem mk_X_pow : AdjoinRoot.mk (generator poly) (X ^ 32) = residue poly poly := by
  have hgen : X ^ 32 = generator poly + toPoly poly.toBitVec := by
    rw [generator, add_assoc, CharTwo.add_self_eq_zero, add_zero]
  rw [hgen, map_add, AdjoinRoot.mk_self, zero_add]
  rfl

private theorem residue_shiftBit (c : UInt32) :
    residue poly (shiftBit poly c) = AdjoinRoot.mk _ X * residue poly c := by
  have hbit : toPoly (c.toBitVec.setWidth 1) = if c.toBitVec.getLsbD 0 then 1 else 0 := by
    rw [BitVec.setWidth_one]
    cases c.toBitVec.getLsbD 0 <;> simp [toPoly, ofFn_eq_sum_monomial, BitVec.getMsbD]
  have hx := X_pow_mul_toPoly (by decide : 1 ≤ 32) c.toBitVec
  rw [pow_one, hbit] at hx
  have hshift : AdjoinRoot.mk _ (toPoly (c.toBitVec >>> 1)) = residue poly (c >>> 1) := rfl
  rw [residue.eq_def _ c, ← map_mul, hx, shiftBit, map_add, map_mul, mk_X_pow, hshift]
  cases c.toBitVec.getLsbD 0
  · simp
  · simp [residue_xor, add_comm]

private theorem residue_iterate (n : Nat) (c : UInt32) :
    residue poly ((shiftBit poly)^[n] c) = AdjoinRoot.mk _ (X ^ n) * residue poly c := by
  induction n with
  | zero => simp
  | succ n ih =>
    rw [Function.iterate_succ_apply', residue_shiftBit, ih, ← mul_assoc, ← map_mul, ← pow_succ']

private theorem residue_tableByte (c : UInt32) (x : UInt8) : residue poly (tableByte poly c x) =
    AdjoinRoot.mk _ (X ^ 8 * toPoly c.toBitVec + X ^ 32 * toPoly x.toBitVec) := by
  have hring : ∀ p q r : (ZMod 2)[X],
      X ^ 8 * (X ^ 24 * (p + q)) + r = X ^ 32 * p + r + X ^ 32 * q := fun p q r => by ring
  rw [tableByte, table, residue_xor, residue_iterate, residue_byte, UInt8.toBitVec_xor, toPoly_xor,
    ← map_mul, X_pow_mul_toPoly (by decide : 8 ≤ 32), ← hring, map_add]
  rfl

theorem iterate_eq_tableByte (c : UInt32) (x : UInt8) :
    (shiftBit poly)^[8] (c ^^^ x.toUInt32) = tableByte poly c x := by
  apply residue_injective poly
  rw [residue_iterate, residue_xor, residue_byte, residue_tableByte, residue, ← map_add, ← map_mul,
    mul_add, ← mul_assoc, ← pow_add]

theorem toPoly_foldl (data : List UInt8) (c : UInt32) :
    toPoly (data.foldl (tableByte poly) c).toBitVec =
      (X ^ (8 * data.length) * toPoly c.toBitVec + X ^ 32 * message data) %ₘ generator poly := by
  apply toPoly_eq_modByMonic
  induction data using reverseRecOn with
  | nil => simp [message, residue]
  | append_singleton data x ih =>
    have hnext : X ^ (8 * (data ++ [x]).length) * toPoly c.toBitVec +
        X ^ 32 * message (data ++ [x]) =
        X ^ 8 * (X ^ (8 * data.length) * toPoly c.toBitVec + X ^ 32 * message data) +
          X ^ 32 * toPoly x.toBitVec := by
      simp only [message, foldl_append, foldl_cons, foldl_nil, length_append,
        length_singleton]
      ring
    rw [hnext, map_add, map_mul, ← ih, foldl_append, foldl_cons, foldl_nil,
      residue_tableByte, map_add, map_mul]
    rfl

end KestrelOS.Crc32
