import KestrelOS.Lib.ByteNum
import KestrelOS.Lib.Words
import Mathlib.Data.ZMod.Basic
import Mathlib.Tactic.IntervalCases
import Mathlib.Tactic.LinearCombination

/-!
# The field of Curve25519 in five limbs of 51 bits

Every operation leaves limbs below `2 ^ 51`, except for a small excess in limb 1. With such limbs
no addition, multiplication or biased subtraction overflows.
-/

namespace KestrelOS.Tls

open Words Nat

def feMask : Nat := 0x7ffffffffffff

structure Fe where
  h0 : Nat
  h1 : Nat
  h2 : Nat
  h3 : Nat
  h4 : Nat
deriving Repr, DecidableEq

def feZero : Fe := ⟨0, 0, 0, 0, 0⟩

def feOne : Fe := ⟨1, 0, 0, 0, 0⟩

def feCarry (h : Fe) : Words Fe := do
  let h1 ← add 64 h.h1 (h.h0 >>> 51)
  let h2 ← add 64 h.h2 (h1 >>> 51)
  let h3 ← add 64 h.h3 (h2 >>> 51)
  let h4 ← add 64 h.h4 (h3 >>> 51)
  let c ← mul 64 (h4 >>> 51) 19
  let h0 ← add 64 (h.h0 &&& feMask) c
  let h1 ← add 64 (h1 &&& feMask) (h0 >>> 51)
  pure ⟨h0 &&& feMask, h1, h2 &&& feMask, h3 &&& feMask, h4 &&& feMask⟩

def feAdd (f g : Fe) : Words Fe := do
  let h0 ← add 64 f.h0 g.h0
  let h1 ← add 64 f.h1 g.h1
  let h2 ← add 64 f.h2 g.h2
  let h3 ← add 64 f.h3 g.h3
  let h4 ← add 64 f.h4 g.h4
  feCarry ⟨h0, h1, h2, h3, h4⟩

/-- One limb of `fe_sub`: `f` plus a limb of twice the prime, minus `g`. -/
def subLimb (f bias g : Nat) : Words Nat := do
  let s ← add 64 f bias
  sub 64 s g

def feSub (f g : Fe) : Words Fe := do
  let h0 ← subLimb f.h0 0xfffffffffffda g.h0
  let h1 ← subLimb f.h1 0xffffffffffffe g.h1
  let h2 ← subLimb f.h2 0xffffffffffffe g.h2
  let h3 ← subLimb f.h3 0xffffffffffffe g.h3
  let h4 ← subLimb f.h4 0xffffffffffffe g.h4
  feCarry ⟨h0, h1, h2, h3, h4⟩

/-- The carry chain after a product: five 128-bit columns become five limbs. Each carry is cast to
64 bits. -/
def feFold (t0 t1 t2 t3 t4 : Nat) : Words Fe := do
  let c ← fit 64 (t0 >>> 51)
  let t1 ← add 128 t1 c
  let c ← fit 64 (t1 >>> 51)
  let t2 ← add 128 t2 c
  let c ← fit 64 (t2 >>> 51)
  let t3 ← add 128 t3 c
  let c ← fit 64 (t3 >>> 51)
  let t4 ← add 128 t4 c
  let c ← fit 64 (t4 >>> 51)
  let c19 ← mul 64 c 19
  let h0 ← add 64 (t0 &&& feMask) c19
  let h1 ← add 64 (t1 &&& feMask) (h0 >>> 51)
  pure ⟨h0 &&& feMask, h1, t2 &&& feMask, t3 &&& feMask, t4 &&& feMask⟩

/-- A column of `fe_mul`: the first product, then the others added to it. -/
def column (a b : Nat) (rest : List (Nat × Nat)) : Words Nat := do
  let p ← mul 128 a b
  dot 128 p rest

def feMul (f g : Fe) : Words Fe := do
  let g1_19 ← mul 64 19 g.h1
  let g2_19 ← mul 64 19 g.h2
  let g3_19 ← mul 64 19 g.h3
  let g4_19 ← mul 64 19 g.h4
  let t0 ← column f.h0 g.h0 [(f.h1, g4_19), (f.h2, g3_19), (f.h3, g2_19), (f.h4, g1_19)]
  let t1 ← column f.h0 g.h1 [(f.h1, g.h0), (f.h2, g4_19), (f.h3, g3_19), (f.h4, g2_19)]
  let t2 ← column f.h0 g.h2 [(f.h1, g.h1), (f.h2, g.h0), (f.h3, g4_19), (f.h4, g3_19)]
  let t3 ← column f.h0 g.h3 [(f.h1, g.h2), (f.h2, g.h1), (f.h3, g.h0), (f.h4, g4_19)]
  let t4 ← column f.h0 g.h4 [(f.h1, g.h3), (f.h2, g.h2), (f.h3, g.h1), (f.h4, g.h0)]
  feFold t0 t1 t2 t3 t4

def feSq (f : Fe) : Words Fe := feMul f f

def feMul121666 (f : Fe) : Words Fe := do
  let p0 ← mul 128 f.h0 121666
  let p1 ← mul 128 f.h1 121666
  let p2 ← mul 128 f.h2 121666
  let p3 ← mul 128 f.h3 121666
  let p4 ← mul 128 f.h4 121666
  feFold p0 p1 p2 p3 p4

/-- One limb of `fe_cswap`. The mask is zero or all ones. -/
def swapLimb (b f g : Nat) : Nat × Nat :=
  let mask := (2 ^ 64 - b) % 2 ^ 64
  let t := mask &&& (f ^^^ g)
  (f ^^^ t, g ^^^ t)

def feCswap (f g : Fe) (b : Nat) : Fe × Fe :=
  let l0 := swapLimb b f.h0 g.h0
  let l1 := swapLimb b f.h1 g.h1
  let l2 := swapLimb b f.h2 g.h2
  let l3 := swapLimb b f.h3 g.h3
  let l4 := swapLimb b f.h4 g.h4
  (⟨l0.1, l1.1, l2.1, l3.1, l4.1⟩, ⟨l0.2, l1.2, l2.2, l3.2, l4.2⟩)

/-- The loop of `fe_invert` from bit `n - 1` down to bit 0. -/
def invertLoop (z : Fe) : Nat → Fe → Words Fe
  | 0, t => pure t
  | i + 1, t => do
    let t ← feSq t
    let t ← if i ≠ 2 ∧ i ≠ 4 then feMul t z else pure t
    invertLoop z i t

def feInvert (z : Fe) : Words Fe := invertLoop z 254 z

/-- The 64-bit word of the eight bytes at `i`, the last one first. -/
def loadWord (s : Bytes) (i : Nat) : Nat :=
  [7, 6, 5, 4, 3, 2, 1, 0].foldl (fun t j => t <<< 8 % 2 ^ 64 ||| (s (i * 8 + j)).toNat) 0

def feFrombytes (s : Bytes) : Fe :=
  let t0 := loadWord s 0
  let t1 := loadWord s 1
  let t2 := loadWord s 2
  -- bit 255 is ignored
  let t3 := loadWord s 3 &&& 0x7fffffffffffffff
  ⟨t0 &&& feMask,
    (t0 >>> 51 ||| t1 <<< 13 % 2 ^ 64) &&& feMask,
    (t1 >>> 38 ||| t2 <<< 26 % 2 ^ 64) &&& feMask,
    (t2 >>> 25 ||| t3 <<< 39 % 2 ^ 64) &&& feMask,
    t3 >>> 12 &&& feMask⟩

/-- The reduction at the end of `fe_tobytes`, to the value below the prime. -/
def feReduce (f : Fe) : Words Fe := do
  let h ← feCarry f
  let q ← add 64 h.h0 19
  let q ← add 64 h.h1 (q >>> 51)
  let q ← add 64 h.h2 (q >>> 51)
  let q ← add 64 h.h3 (q >>> 51)
  let q ← add 64 h.h4 (q >>> 51)
  let q19 ← mul 64 19 (q >>> 51)
  let h0 ← add 64 h.h0 q19
  let h1 ← add 64 h.h1 (h0 >>> 51)
  let h2 ← add 64 h.h2 (h1 >>> 51)
  let h3 ← add 64 h.h3 (h2 >>> 51)
  let h4 ← add 64 h.h4 (h3 >>> 51)
  pure ⟨h0 &&& feMask, h1 &&& feMask, h2 &&& feMask, h3 &&& feMask, h4 &&& feMask⟩

def packWord (h : Fe) : Nat → Nat
  | 0 => h.h0 ||| h.h1 <<< 51 % 2 ^ 64
  | 1 => h.h1 >>> 13 ||| h.h2 <<< 38 % 2 ^ 64
  | 2 => h.h2 >>> 26 ||| h.h3 <<< 25 % 2 ^ 64
  | _ => h.h3 >>> 39 ||| h.h4 <<< 12 % 2 ^ 64

def feTobytes (f : Fe) : Words Bytes := do
  let h ← feReduce f
  pure fun k => UInt8.ofNat (packWord h (k / 8) >>> (8 * (k % 8)))

def p25519 : Nat := 2 ^ 255 - 19

def Fe.value (h : Fe) : Nat :=
  h.h0 + 2 ^ 51 * h.h1 + 2 ^ 102 * h.h2 + 2 ^ 153 * h.h3 + 2 ^ 204 * h.h4

def Fe.res (h : Fe) : ZMod p25519 := (h.value : ZMod p25519)

structure Fe.Tight (h : Fe) : Prop where
  h0 : h.h0 < 2 ^ 51
  h1 : h.h1 < 2 ^ 51 + 2 ^ 12
  h2 : h.h2 < 2 ^ 51
  h3 : h.h3 < 2 ^ 51
  h4 : h.h4 < 2 ^ 51

theorem two_pow_255 : (2 : ZMod p25519) ^ 255 = 19 := by
  have h : ((2 ^ 255 : Nat) : ZMod p25519) = ((19 : Nat) : ZMod p25519) := by
    rw [ZMod.natCast_eq_natCast_iff]
    decide
  exact_mod_cast h

@[simp] theorem and_feMask (n : Nat) : n &&& feMask = n % 2 ^ 51 :=
  and_two_pow_sub_one_eq_mod n 51

theorem feZero_tight : feZero.Tight := by
  constructor <;> decide

theorem feOne_tight : feOne.Tight := by
  constructor <;> decide

@[simp] theorem feZero_res : feZero.res = 0 := by
  simp [Fe.res, Fe.value, feZero]

@[simp] theorem feOne_res : feOne.res = 1 := by
  simp [Fe.res, Fe.value, feOne]

variable {f g h z : Fe} {Q : Nat → Prop}

theorem res_eq_of_add {n c : Nat} (heq : h.value + c * p25519 = n) : h.res = (n : ZMod p25519) := by
  rw [Fe.res, ← heq]
  push_cast
  rw [ZMod.natCast_self, mul_zero, add_zero]

theorem feCarry_spec (b0 : h.h0 < 2 ^ 54) (b1 : h.h1 < 2 ^ 54) (b2 : h.h2 < 2 ^ 54)
    (b3 : h.h3 < 2 ^ 54) (b4 : h.h4 < 2 ^ 54) : (feCarry h).Meets fun r => r.Tight ∧
      ∃ c, r.value + c * p25519 = h.value ∧ (c = 0 → r.h1 < 2 ^ 51) := by
  simp only [feCarry, meets_bind, shiftRight_eq_div_pow, and_feMask]
  apply meets_add (by omega)
  apply meets_add (by omega)
  apply meets_add (by omega)
  apply meets_add (by omega)
  apply meets_mul (by omega)
  apply meets_add (by omega)
  apply meets_add (by omega)
  rw [meets_pure]
  refine ⟨⟨?_, ?_, ?_, ?_, ?_⟩, (h.h4 + (h.h3 + (h.h2 + (h.h1 + h.h0 / 2 ^ 51) / 2 ^ 51) / 2 ^ 51)
    / 2 ^ 51) / 2 ^ 51, ?_, ?_⟩
  all_goals simp only [Fe.value, p25519]; omega

theorem feAdd_spec (hf : f.Tight) (hg : g.Tight) :
    (feAdd f g).Meets fun r => r.Tight ∧ r.res = f.res + g.res := by
  obtain ⟨f0, f1, f2, f3, f4⟩ := hf
  obtain ⟨g0, g1, g2, g3, g4⟩ := hg
  simp only [feAdd, meets_bind]
  apply meets_add (by omega)
  apply meets_add (by omega)
  apply meets_add (by omega)
  apply meets_add (by omega)
  apply meets_add (by omega)
  apply (feCarry_spec (by simp only; omega) (by simp only; omega) (by simp only; omega)
    (by simp only; omega) (by simp only; omega)).mono
  intro r hr
  obtain ⟨htight, c, hc, -⟩ := hr
  refine ⟨htight, ?_⟩
  rw [res_eq_of_add hc]
  simp only [Fe.res, Fe.value]
  push_cast
  ring

theorem subLimb_spec {f bias g : Nat} (hle : g ≤ f + bias) (hlt : f + bias < 2 ^ 64)
    (hQ : Q (f + bias - g)) : (subLimb f bias g).Meets Q := by
  simp only [subLimb, meets_bind]
  apply meets_add hlt
  exact meets_sub hle hlt hQ

theorem feSub_spec (hf : f.Tight) (hg : g.Tight) :
    (feSub f g).Meets fun r => r.Tight ∧ r.res = f.res - g.res := by
  obtain ⟨f0, f1, f2, f3, f4⟩ := hf
  obtain ⟨g0, g1, g2, g3, g4⟩ := hg
  simp only [feSub, meets_bind]
  apply subLimb_spec (by omega) (by omega)
  apply subLimb_spec (by omega) (by omega)
  apply subLimb_spec (by omega) (by omega)
  apply subLimb_spec (by omega) (by omega)
  apply subLimb_spec (by omega) (by omega)
  apply (feCarry_spec (by simp only; omega) (by simp only; omega) (by simp only; omega)
    (by simp only; omega) (by simp only; omega)).mono
  intro r hr
  obtain ⟨htight, c, hc, -⟩ := hr
  refine ⟨htight, ?_⟩
  -- the limbs of the bias add up to twice the prime
  have hbias : r.value + g.value + c * p25519 = f.value + 2 * p25519 := by
    simp only [Fe.value, p25519] at hc ⊢
    omega
  have hcast := congrArg (Nat.cast : Nat → ZMod p25519) hbias
  push_cast at hcast
  rw [ZMod.natCast_self] at hcast
  simp only [Fe.res]
  linear_combination hcast

theorem feFold_spec {t0 t1 t2 t3 t4 : Nat} (b0 : t0 < 2 ^ 110) (b1 : t1 < 2 ^ 110)
    (b2 : t2 < 2 ^ 110) (b3 : t3 < 2 ^ 110) (b4 : t4 < 2 ^ 106) :
    (feFold t0 t1 t2 t3 t4).Meets fun r => r.Tight ∧ ∃ c, r.value + c * p25519 =
      t0 + 2 ^ 51 * t1 + 2 ^ 102 * t2 + 2 ^ 153 * t3 + 2 ^ 204 * t4 := by
  simp only [feFold, meets_bind, shiftRight_eq_div_pow, and_feMask]
  apply meets_fit (by omega)
  apply meets_add (by omega)
  apply meets_fit (by omega)
  apply meets_add (by omega)
  apply meets_fit (by omega)
  apply meets_add (by omega)
  apply meets_fit (by omega)
  apply meets_add (by omega)
  apply meets_fit (by omega)
  apply meets_mul (by omega)
  apply meets_add (by omega)
  apply meets_add (by omega)
  rw [meets_pure]
  refine ⟨⟨?_, ?_, ?_, ?_, ?_⟩,
    (t4 + (t3 + (t2 + (t1 + t0 / 2 ^ 51) / 2 ^ 51) / 2 ^ 51) / 2 ^ 51) / 2 ^ 51, ?_⟩
  all_goals simp only [Fe.value, p25519]; omega

theorem column_spec {a b : Nat} {rest : List (Nat × Nat)} (h : a * b + dotSum rest < 2 ^ 128)
    (hQ : Q (a * b + dotSum rest)) : (column a b rest).Meets Q := by
  simp only [column, meets_bind]
  apply meets_mul (by omega)
  exact meets_dot rest _ h hQ

theorem Fe.Tight.lt (hf : f.Tight) :
    f.h0 < 2 ^ 51 + 2 ^ 12 ∧ f.h1 < 2 ^ 51 + 2 ^ 12 ∧ f.h2 < 2 ^ 51 + 2 ^ 12 ∧
      f.h3 < 2 ^ 51 + 2 ^ 12 ∧ f.h4 < 2 ^ 51 + 2 ^ 12 := by
  obtain ⟨h0, h1, h2, h3, h4⟩ := hf
  omega

theorem limb_mul_le {x y : Nat} (hx : x < 2 ^ 51 + 2 ^ 12) (hy : y < 2 ^ 51 + 2 ^ 12) :
    x * y ≤ 2 ^ 103 :=
  (Nat.mul_le_mul hx.le hy.le).trans (by decide)

theorem limb_mul19_le {x y : Nat} (hx : x < 2 ^ 51 + 2 ^ 12) (hy : y < 2 ^ 51 + 2 ^ 12) :
    x * (19 * y) ≤ 19 * 2 ^ 103 := by
  rw [mul_left_comm]
  exact mul_le_mul_left 19 (limb_mul_le hx hy)

theorem feMul_spec (hf : f.Tight) (hg : g.Tight) :
    (feMul f g).Meets fun r => r.Tight ∧ r.res = f.res * g.res := by
  obtain ⟨f0, f1, f2, f3, f4⟩ := hf.lt
  obtain ⟨g0, g1, g2, g3, g4⟩ := hg.lt
  have b0 : f.h0 * g.h0 + dotSum [(f.h1, 19 * g.h4), (f.h2, 19 * g.h3), (f.h3, 19 * g.h2),
      (f.h4, 19 * g.h1)] < 2 ^ 110 := by
    have := limb_mul_le f0 g0
    have := limb_mul19_le f1 g4
    have := limb_mul19_le f2 g3
    have := limb_mul19_le f3 g2
    have := limb_mul19_le f4 g1
    simp only [dotSum]
    omega
  have b1 : f.h0 * g.h1 + dotSum [(f.h1, g.h0), (f.h2, 19 * g.h4), (f.h3, 19 * g.h3),
      (f.h4, 19 * g.h2)] < 2 ^ 110 := by
    have := limb_mul_le f0 g1
    have := limb_mul_le f1 g0
    have := limb_mul19_le f2 g4
    have := limb_mul19_le f3 g3
    have := limb_mul19_le f4 g2
    simp only [dotSum]
    omega
  have b2 : f.h0 * g.h2 + dotSum [(f.h1, g.h1), (f.h2, g.h0), (f.h3, 19 * g.h4),
      (f.h4, 19 * g.h3)] < 2 ^ 110 := by
    have := limb_mul_le f0 g2
    have := limb_mul_le f1 g1
    have := limb_mul_le f2 g0
    have := limb_mul19_le f3 g4
    have := limb_mul19_le f4 g3
    simp only [dotSum]
    omega
  have b3 : f.h0 * g.h3 + dotSum [(f.h1, g.h2), (f.h2, g.h1), (f.h3, g.h0),
      (f.h4, 19 * g.h4)] < 2 ^ 110 := by
    have := limb_mul_le f0 g3
    have := limb_mul_le f1 g2
    have := limb_mul_le f2 g1
    have := limb_mul_le f3 g0
    have := limb_mul19_le f4 g4
    simp only [dotSum]
    omega
  have b4 : f.h0 * g.h4 + dotSum [(f.h1, g.h3), (f.h2, g.h2), (f.h3, g.h1),
      (f.h4, g.h0)] < 2 ^ 106 := by
    have := limb_mul_le f0 g4
    have := limb_mul_le f1 g3
    have := limb_mul_le f2 g2
    have := limb_mul_le f3 g1
    have := limb_mul_le f4 g0
    simp only [dotSum]
    omega
  simp only [feMul, meets_bind]
  apply meets_mul (by omega)
  apply meets_mul (by omega)
  apply meets_mul (by omega)
  apply meets_mul (by omega)
  apply column_spec (by omega)
  apply column_spec (by omega)
  apply column_spec (by omega)
  apply column_spec (by omega)
  apply column_spec (by omega)
  apply (feFold_spec b0 b1 b2 b3 b4).mono
  intro r hr
  obtain ⟨htight, c, hc⟩ := hr
  refine ⟨htight, ?_⟩
  rw [res_eq_of_add hc]
  simp only [dotSum, Fe.res, Fe.value]
  push_cast
  -- the columns of the product from `2 ^ 255` on come back multiplied by 19
  linear_combination (-(f.h4 * g.h1 + f.h3 * g.h2 + f.h2 * g.h3 + f.h1 * g.h4) -
    2 ^ 51 * (f.h4 * g.h2 + f.h3 * g.h3 + f.h2 * g.h4) -
    2 ^ 102 * (f.h4 * g.h3 + f.h3 * g.h4) - 2 ^ 153 * (f.h4 * g.h4) : ZMod p25519) * two_pow_255

theorem feMul121666_spec (hf : f.Tight) :
    (feMul121666 f).Meets fun r => r.Tight ∧ r.res = 121666 * f.res := by
  obtain ⟨f0, f1, f2, f3, f4⟩ := hf.lt
  simp only [feMul121666, meets_bind]
  apply meets_mul (by omega)
  apply meets_mul (by omega)
  apply meets_mul (by omega)
  apply meets_mul (by omega)
  apply meets_mul (by omega)
  apply (feFold_spec (by omega) (by omega) (by omega) (by omega) (by omega)).mono
  intro r hr
  obtain ⟨htight, c, hc⟩ := hr
  refine ⟨htight, ?_⟩
  rw [res_eq_of_add hc]
  simp only [Fe.res, Fe.value]
  push_cast
  ring

theorem swapLimb_zero (f g : Nat) : swapLimb 0 f g = (f, g) := by
  simp [swapLimb]

theorem swapLimb_one {f g : Nat} (hf : f < 2 ^ 64) (hg : g < 2 ^ 64) : swapLimb 1 f g = (g, f) := by
  have hmask : (2 ^ 64 - 1) % 2 ^ 64 &&& (f ^^^ g) = f ^^^ g := by
    rw [Nat.and_comm, mod_eq_of_lt (by decide), and_two_pow_sub_one_eq_mod,
      mod_eq_of_lt (xor_lt_two_pow hf hg)]
  simp only [swapLimb, hmask]
  rw [← Nat.xor_assoc, Nat.xor_self, Nat.zero_xor, Nat.xor_comm f g, ← Nat.xor_assoc, Nat.xor_self,
    Nat.zero_xor]

theorem feCswap_zero (f g : Fe) : feCswap f g 0 = (f, g) := by
  simp [feCswap, swapLimb_zero]

theorem feCswap_one (hf : f.Tight) (hg : g.Tight) : feCswap f g 1 = (g, f) := by
  obtain ⟨f0, f1, f2, f3, f4⟩ := hf.lt
  obtain ⟨g0, g1, g2, g3, g4⟩ := hg.lt
  simp only [feCswap]
  rw [swapLimb_one (by omega) (by omega), swapLimb_one (by omega) (by omega),
    swapLimb_one (by omega) (by omega), swapLimb_one (by omega) (by omega),
    swapLimb_one (by omega) (by omega)]

def invertBits : Nat → Nat
  | 0 => 0
  | i + 1 => (if i ≠ 2 ∧ i ≠ 4 then 2 ^ i else 0) + invertBits i

theorem invertLoop_spec (hz : z.Tight) (n e : Nat) {t : Fe} (ht : t.Tight)
    (hres : t.res = z.res ^ e) :
    (invertLoop z n t).Meets fun r => r.Tight ∧ r.res = z.res ^ (2 ^ n * e + invertBits n) := by
  induction n generalizing e t with
  | zero =>
    simp only [invertLoop, meets_pure, invertBits, pow_zero, one_mul, add_zero]
    exact ⟨ht, hres⟩
  | succ i ih =>
    simp only [invertLoop, meets_bind, feSq]
    apply (feMul_spec ht ht).mono
    intro s hs
    obtain ⟨hs, hsq⟩ := hs
    have hsq : s.res = z.res ^ (2 * e) := by
      rw [hsq, hres, ← pow_add, two_mul]
    by_cases hi : i ≠ 2 ∧ i ≠ 4
    · rw [if_pos hi, meets_bind]
      apply (feMul_spec hs hz).mono
      intro u hu
      obtain ⟨hu, hmul⟩ := hu
      apply (ih (2 * e + 1) hu (by rw [hmul, hsq, pow_succ])).mono
      intro r hr
      refine ⟨hr.1, ?_⟩
      rw [hr.2, invertBits, if_pos hi]
      congr 1
      ring
    · rw [if_neg hi, meets_bind, meets_pure]
      apply (ih (2 * e) hs hsq).mono
      intro r hr
      refine ⟨hr.1, ?_⟩
      rw [hr.2, invertBits, if_neg hi]
      congr 1
      ring

theorem feInvert_spec (hz : z.Tight) :
    (feInvert z).Meets fun r => r.Tight ∧ r.res = z.res ^ (p25519 - 2) := by
  have hexp : 2 ^ 254 * 1 + invertBits 254 = p25519 - 2 := by decide +kernel
  rw [← hexp]
  exact invertLoop_spec hz 254 1 hz (pow_one _).symm

theorem loadWord_eq (s : Bytes) (i : Nat) : loadWord s i = leNat (fun k => s (8 * i + k)) 8 := by
  have hb : ∀ j, (s (i * 8 + j)).toNat < 256 := fun j => (s _).toNat_lt
  have h0 := hb 0
  have h1 := hb 1
  have h2 := hb 2
  have h3 := hb 3
  have h4 := hb 4
  have h5 := hb 5
  have h6 := hb 6
  have h7 := hb 7
  simp only [loadWord, List.foldl_cons, List.foldl_nil, leNat, mul_comm 8 i]
  rw [shift_or_byte (by omega) h7, shift_or_byte (by omega) h6, shift_or_byte (by omega) h5,
    shift_or_byte (by omega) h4, shift_or_byte (by omega) h3, shift_or_byte (by omega) h2,
    shift_or_byte (by omega) h1, shift_or_byte (by omega) h0]
  omega

theorem loadWord_lt (s : Bytes) (i : Nat) : loadWord s i < 2 ^ 64 := by
  rw [loadWord_eq]
  exact leNat_lt _ 8

theorem leNat_words (s : Bytes) : leNat s 32 = loadWord s 0 + 2 ^ 64 * loadWord s 1 +
    2 ^ 128 * loadWord s 2 + 2 ^ 192 * loadWord s 3 := by
  rw [show 32 = 8 + (8 + (8 + 8)) from rfl, leNat_add, leNat_add, leNat_add]
  simp only [loadWord_eq, ← add_assoc]
  norm_num
  ring

theorem feFrombytes_eq (s : Bytes) : feFrombytes s = ⟨loadWord s 0 % 2 ^ 51,
      (loadWord s 0 / 2 ^ 51 + 2 ^ 13 * (loadWord s 1 % 2 ^ 51)) % 2 ^ 51,
      (loadWord s 1 / 2 ^ 38 + 2 ^ 26 * (loadWord s 2 % 2 ^ 38)) % 2 ^ 51,
      (loadWord s 2 / 2 ^ 25 + 2 ^ 39 * (loadWord s 3 % 2 ^ 63 % 2 ^ 25)) % 2 ^ 51,
      loadWord s 3 % 2 ^ 63 / 2 ^ 12 % 2 ^ 51⟩ := by
  have h0 := loadWord_lt s 0
  have h1 := loadWord_lt s 1
  have h2 := loadWord_lt s 2
  have htop : loadWord s 3 &&& 0x7fffffffffffffff = loadWord s 3 % 2 ^ 63 :=
    and_two_pow_sub_one_eq_mod _ 63
  simp only [feFrombytes, and_feMask, htop, shiftRight_eq_div_pow]
  rw [or_shiftLeft_mod (by omega) (by norm_num : 13 + 51 = 64),
    or_shiftLeft_mod (by omega) (by norm_num : 26 + 38 = 64),
    or_shiftLeft_mod (by omega) (by norm_num : 39 + 25 = 64)]

theorem feFrombytes_tight (s : Bytes) : (feFrombytes s).Tight := by
  rw [feFrombytes_eq]
  constructor <;> simp only <;> omega

theorem feFrombytes_value (s : Bytes) : (feFrombytes s).value = leNat s 32 % 2 ^ 255 := by
  have h0 := loadWord_lt s 0
  have h1 := loadWord_lt s 1
  have h2 := loadWord_lt s 2
  rw [feFrombytes_eq, leNat_words]
  simp only [Fe.value]
  omega

theorem feCarry_lt (hh : h.Tight) :
    (feCarry h).Meets fun r => r.Tight ∧ r.value < 2 ^ 255 ∧
      ∃ c, r.value + c * p25519 = h.value := by
  obtain ⟨b0, b1, b2, b3, b4⟩ := hh
  apply (feCarry_spec (by omega) (by omega) (by omega) (by omega) (by omega)).mono
  intro r hr
  obtain ⟨htight, c, hc, hc0⟩ := hr
  refine ⟨htight, ?_, c, hc⟩
  obtain ⟨r0, r1, r2, r3, r4⟩ := htight
  have hvalue : h.value < 2 ^ 255 + 2 ^ 64 := by
    simp only [Fe.value]
    omega
  rcases Nat.eq_zero_or_pos c with hzero | hpos
  · have hr1 := hc0 hzero
    simp only [Fe.value]
    omega
  have hle : 1 * p25519 ≤ c * p25519 := Nat.mul_le_mul_right _ hpos
  have hp : p25519 = 2 ^ 255 - 19 := rfl
  omega

theorem feReduce_spec (hf : f.Tight) :
    (feReduce f).Meets fun r => r.h0 < 2 ^ 51 ∧ r.h1 < 2 ^ 51 ∧ r.h2 < 2 ^ 51 ∧ r.h3 < 2 ^ 51 ∧
      r.h4 < 2 ^ 51 ∧ r.value = f.value % p25519 := by
  simp only [feReduce, meets_bind]
  apply (feCarry_lt hf).mono
  intro h hh
  obtain ⟨⟨b0, b1, b2, b3, b4⟩, hlt, c, hc⟩ := hh
  simp only [shiftRight_eq_div_pow, and_feMask]
  apply meets_add (by omega)
  apply meets_add (by omega)
  apply meets_add (by omega)
  apply meets_add (by omega)
  apply meets_add (by omega)
  have hq : (h.h4 + (h.h3 + (h.h2 + (h.h1 + (h.h0 + 19) / 2 ^ 51) / 2 ^ 51) / 2 ^ 51) / 2 ^ 51) /
      2 ^ 51 = (h.value + 19) / 2 ^ 255 := by
    simp only [Fe.value]
    omega
  rw [hq]
  have hq1 : (h.value + 19) / 2 ^ 255 ≤ 1 := by omega
  have hval : h.value = h.h0 + 2 ^ 51 * h.h1 + 2 ^ 102 * h.h2 + 2 ^ 153 * h.h3 + 2 ^ 204 * h.h4 :=
    rfl
  generalize hqe : (h.value + 19) / 2 ^ 255 = q at hq1
  apply meets_mul (by omega)
  apply meets_add (by omega)
  apply meets_add (by omega)
  apply meets_add (by omega)
  apply meets_add (by omega)
  apply meets_add (by omega)
  rw [meets_pure]
  refine ⟨mod_lt _ (by decide), mod_lt _ (by decide), mod_lt _ (by decide),
    mod_lt _ (by decide), mod_lt _ (by decide), ?_⟩
  have hp : p25519 = 2 ^ 255 - 19 := rfl
  calc
    _ = (h.value + 19 * q) % 2 ^ 255 := by
      -- the limbs hold the sum without its carry out of bit 254
      rw [hval]
      simp only [Fe.value]
      omega
    _ = h.value % p25519 := by
      by_cases hsmall : h.value < p25519
      · have hq0 : q = 0 := by omega
        rw [hq0, mod_eq_of_lt hsmall]
        omega
      have hq1 : q = 1 := by omega
      have hmod : h.value % p25519 = h.value - p25519 := by
        rw [mod_eq_sub_mod (by omega), mod_eq_of_lt (by omega)]
      rw [hq1, hmod]
      omega
    _ = f.value % p25519 := by rw [← hc, add_mul_mod_self_right]

theorem packWord_eq (h0 : h.h0 < 2 ^ 51) (h1 : h.h1 < 2 ^ 51) (h2 : h.h2 < 2 ^ 51)
    (h3 : h.h3 < 2 ^ 51) {i : Nat} (hi : i < 4) :
    packWord h i = h.value / 2 ^ (64 * i) % 2 ^ 64 := by
  interval_cases i <;> simp only [packWord, shiftRight_eq_div_pow, Fe.value]
  · rw [or_shiftLeft_mod (by omega) (by norm_num : 51 + 13 = 64)]
    omega
  · rw [or_shiftLeft_mod (by omega) (by norm_num : 38 + 26 = 64)]
    omega
  · rw [or_shiftLeft_mod (by omega) (by norm_num : 25 + 39 = 64)]
    omega
  · rw [or_shiftLeft_mod (by omega) (by norm_num : 12 + 52 = 64)]
    omega

theorem feTobytes_spec (hf : f.Tight) :
    (feTobytes f).Meets fun out => ∀ k < 32, out k = leByte f.res.val k := by
  have hval : f.res.val = f.value % p25519 := by
    rw [Fe.res, ZMod.val_natCast]
  simp only [feTobytes, meets_bind]
  apply (feReduce_spec hf).mono
  intro h hh
  obtain ⟨h0, h1, h2, h3, -, hv⟩ := hh
  rw [meets_pure]
  intro k hk
  dsimp only
  rw [packWord_eq h0 h1 h2 h3 (by omega), digit_byte _ _ (mod_lt _ (by decide)), hv, hval,
    div_add_mod]

end KestrelOS.Tls
