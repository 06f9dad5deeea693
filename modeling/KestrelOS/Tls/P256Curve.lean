import KestrelOS.Lib.Lucas
import KestrelOS.Lib.ShortWeierstrass
import KestrelOS.Tls.M256
import Mathlib.FieldTheory.Finite.Basic
import Mathlib.Tactic.NormNum.Prime

/-!
# The curve P-256

The domain parameters as the source has them, in limbs. The field prime and the group order are
prime, and the curve is not singular, so its points with the point at infinity form a group.
-/

namespace KestrelOS.Tls

open Limbs Lucas WeierstrassCurve

def p256P : List Nat :=
  [0xffffffffffffffff, 0x00000000ffffffff, 0x0000000000000000, 0xffffffff00000001]

def p256N : List Nat :=
  [0xf3b9cac2fc632551, 0xbce6faada7179e84, 0xffffffffffffffff, 0xffffffff00000000]

def p256B : List Nat :=
  [0x3bce3c3e27d2604b, 0x651d06b0cc53b0f6, 0xb3ebbd55769886bc, 0x5ac635d8aa3a93e7]

def p256Gx : List Nat :=
  [0xf4a13945d898c296, 0x77037d812deb33a0, 0xf8bce6e563a440f2, 0x6b17d1f2e12c4247]

def p256Gy : List Nat :=
  [0xcbb6406837bf51f5, 0x2bce33576b315ece, 0x8ee7eb4a7c0f9e16, 0x4fe342e2fe1a7f9b]

def fieldPrime : Nat := 2 ^ 256 - 2 ^ 224 + 2 ^ 192 + 2 ^ 96 - 1

def groupOrder : Nat := 0xffffffff00000000ffffffffffffffffbce6faada7179e84f3b9cac2fc632551

theorem value_p256P : value limbRadix p256P = fieldPrime := by decide

theorem value_p256N : value limbRadix p256N = groupOrder := by decide

theorem p256P_isLimbs : IsLimbs limbRadix 4 p256P := ⟨rfl, by decide⟩

theorem p256N_isLimbs : IsLimbs limbRadix 4 p256N := ⟨rfl, by decide⟩

theorem fieldPrime_odd : fieldPrime % 2 = 1 := by decide

theorem groupOrder_odd : groupOrder % 2 = 1 := by decide

def smallPrimes : List Nat :=
  [2, 3, 5, 7, 11, 17, 19, 23, 29, 41, 43, 53, 71, 107, 127, 131, 173, 197, 229, 257, 311, 313, 373,
    641, 661, 1201, 1297, 1531, 2411, 3023, 3407, 3677, 3769, 16879, 17449, 18169, 38189, 65537,
    78283, 104471, 126241, 155317]

/-- The primes below the two moduli, each after the prime factors of its predecessor. -/
def primeChain : List Entry :=
  [⟨490463, 14, [2, 7, 53, 661]⟩, ⟨6700417, 5, [2, 2, 2, 2, 2, 2, 2, 3, 17449]⟩,
    ⟨204061199, 11, [2, 11, 23, 107, 3769]⟩, ⟨34282281433, 17, [2, 2, 2, 3, 7, 204061199]⟩,
    ⟨66417393611, 6, [2, 5, 53, 173, 197, 3677]⟩, ⟨11290956913871, 13, [2, 5, 17, 66417393611]⟩,
    ⟨704251, 2, [2, 3, 3, 5, 5, 5, 313]⟩, ⟨46076956964474543, 5, [2, 23, 18169, 78283, 704251]⟩,
    ⟨774023187263532362759620327192479577272145303, 3, [2, 3, 3, 2411, 34282281433, 11290956913871,
      46076956964474543]⟩,
    ⟨835945042244614951780389953367877943453916927241, 11, [2, 2, 2, 3, 3, 3, 5,
      774023187263532362759620327192479577272145303]⟩,
    ⟨fieldPrime, 6, [2, 3, 5, 5, 17, 257, 641, 1531, 65537, 490463, 6700417,
      835945042244614951780389953367877943453916927241]⟩,
    ⟨9350987, 2, [2, 17, 229, 1201]⟩, ⟨187019741, 2, [2, 2, 5, 9350987]⟩,
    ⟨311245691, 2, [2, 5, 7, 17, 29, 29, 311]⟩, ⟨622491383, 5, [2, 311245691]⟩,
    ⟨3969899, 2, [2, 19, 104471]⟩, ⟨1002328039319, 19, [2, 126241, 3969899]⟩,
    ⟨191039911, 3, [2, 3, 5, 41, 155317]⟩,
    ⟨208150935158385979, 2, [2, 3, 11, 43, 127, 3023, 191039911]⟩,
    ⟨2624747550333869278416773953, 7, [2, 2, 2, 2, 2, 2, 3, 3, 1297, 16879, 208150935158385979]⟩,
    ⟨groupOrder, 7, [2, 2, 2, 2, 3, 71, 131, 373, 3407, 17449, 38189, 187019741, 622491383,
      1002328039319, 2624747550333869278416773953]⟩]

theorem primeChain_certifies : certifies smallPrimes primeChain := by decide +kernel

theorem prime_of_mem_primeChain : ∀ p ∈ primeChain.map Entry.p, p.Prime :=
  prime_of_certifies primeChain_certifies (by norm_num [smallPrimes])

theorem fieldPrime_prime : fieldPrime.Prime :=
  prime_of_mem_primeChain fieldPrime (by decide +kernel)

theorem groupOrder_prime : groupOrder.Prime :=
  prime_of_mem_primeChain groupOrder (by decide +kernel)

instance : Fact fieldPrime.Prime := ⟨fieldPrime_prime⟩

instance : Fact groupOrder.Prime := ⟨groupOrder_prime⟩

abbrev Fp : Type := ZMod fieldPrime

abbrev Fn : Type := ZMod groupOrder

def curveB : Fp := (value limbRadix p256B : Nat)

abbrev p256Curve : WeierstrassCurve.Affine Fp := shortCurve curveB

theorem cast_eq_of_mod {m n : Nat} (h : m % fieldPrime = n % fieldPrime) : (m : Fp) = (n : Fp) :=
  (ZMod.natCast_eq_natCast_iff' m n fieldPrime).mpr h

theorem cast_ne_of_mod {m n : Nat} (h : m % fieldPrime ≠ n % fieldPrime) : (m : Fp) ≠ (n : Fp) :=
  mt (ZMod.natCast_eq_natCast_iff' m n fieldPrime).mp h

theorem two_ne_zero_Fp : (2 : Fp) ≠ 0 := by
  have h := cast_ne_of_mod (show 2 % fieldPrime ≠ 0 % fieldPrime by decide)
  exact_mod_cast h

theorem discriminant_ne_zero : p256Curve.Δ ≠ 0 := by
  have hb := cast_ne_of_mod (show 432 * (value limbRadix p256B) ^ 2 % fieldPrime ≠
    1728 % fieldPrime by decide +kernel)
  have hΔ : p256Curve.Δ = 1728 - 432 * curveB ^ 2 := by
    simp only [p256Curve, shortCurve, WeierstrassCurve.Δ, WeierstrassCurve.b₂, WeierstrassCurve.b₄,
      WeierstrassCurve.b₆, WeierstrassCurve.b₈]
    ring
  rw [hΔ, sub_ne_zero]
  intro h
  apply hb
  push_cast
  exact h.symm

theorem nonsingular_iff (x y : Fp) :
    p256Curve.Nonsingular x y ↔ y ^ 2 = x ^ 3 - 3 * x + curveB := by
  rw [← Affine.equation_iff_nonsingular_of_Δ_ne_zero discriminant_ne_zero, Affine.equation_iff]
  simp only [p256Curve, shortCurve]
  constructor
  · intro h
    linear_combination h
  · intro h
    linear_combination h

def generatorX : Fp := (value limbRadix p256Gx : Nat)

def generatorY : Fp := (value limbRadix p256Gy : Nat)

theorem generator_nonsingular : p256Curve.Nonsingular generatorX generatorY := by
  have h := cast_eq_of_mod (show ((value limbRadix p256Gy) ^ 2 + 3 * value limbRadix p256Gx) %
    fieldPrime = ((value limbRadix p256Gx) ^ 3 + value limbRadix p256B) % fieldPrime by
      decide +kernel)
  push_cast at h
  rw [nonsingular_iff, generatorX, generatorY, curveB]
  linear_combination h

def generator : p256Curve.Point := .some _ _ generator_nonsingular

end KestrelOS.Tls
