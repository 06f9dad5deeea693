import Mathlib.AlgebraicGeometry.EllipticCurve.Affine.Point

/-!
# Jacobian coordinates on a short Weierstrass curve with `a = -3`

A triple `(x, y, z)` stands for the affine point `(x / z², y / z³)`, and for the point at infinity
when `z` is zero. The doubling and addition formulas follow the group law.
-/

namespace KestrelOS

open WeierstrassCurve

/-- The curve `y² = x³ - 3x + b`. -/
def shortCurve {F : Type*} [CommRing F] (b : F) : WeierstrassCurve.Affine F := ⟨0, 0, 0, -3, b⟩

structure Jac (F : Type*) where
  x : F
  y : F
  z : F

namespace Jac

variable {F : Type*} [Field F] [DecidableEq F]

def inf : Jac F := ⟨0, 0, 0⟩

/-- Doubling, with `alpha = 3 (x - z²) (x + z²)`. -/
def dbl (p : Jac F) : Jac F :=
  if p.z = 0 then inf else
    let delta := p.z ^ 2
    let gamma := p.y ^ 2
    let beta := p.x * gamma
    let alpha := 3 * ((p.x - delta) * (p.x + delta))
    let x3 := alpha ^ 2 - 8 * beta
    ⟨x3, alpha * (4 * beta - x3) - 8 * gamma ^ 2, (p.y + p.z) ^ 2 - gamma - delta⟩

/-- Addition; equal and opposite points are told apart by the two differences. -/
def add (p q : Jac F) : Jac F :=
  if p.z = 0 then q else if q.z = 0 then p else
    let z1z1 := p.z ^ 2
    let z2z2 := q.z ^ 2
    let u1 := p.x * z2z2
    let u2 := q.x * z1z1
    let s1 := p.y * q.z * z2z2
    let s2 := q.y * p.z * z1z1
    let h := u2 - u1
    if h = 0 then if s2 - s1 = 0 then dbl p else inf else
      let r := 2 * (s2 - s1)
      let i := (2 * h) ^ 2
      let j := h * i
      let v := u1 * i
      let x3 := r ^ 2 - j - 2 * v
      ⟨x3, r * (v - x3) - 2 * (s1 * j), ((p.z + q.z) ^ 2 - z1z1 - z2z2) * h⟩

variable {b : F}

/-- The triple stands for the point. -/
def Rep (p : Jac F) (P : (shortCurve b).Point) : Prop :=
  p.z = 0 ∧ P = 0 ∨
    p.z ≠ 0 ∧ ∃ h : (shortCurve b).Nonsingular (p.x / p.z ^ 2) (p.y / p.z ^ 3), P = .some _ _ h

omit [DecidableEq F] in
theorem rep_inf : (inf : Jac F).Rep (0 : (shortCurve b).Point) := Or.inl ⟨rfl, rfl⟩

variable {p q : Jac F} {P Q : (shortCurve b).Point}

omit [DecidableEq F] in
theorem rep_of_eq {x y : F} {h : (shortCurve b).Nonsingular x y} (hz : p.z ≠ 0)
    (hx : p.x / p.z ^ 2 = x) (hy : p.y / p.z ^ 3 = y) : p.Rep (.some x y h) := by
  subst hx hy
  exact .inr ⟨hz, h, rfl⟩

omit [DecidableEq F] in
private theorem negY_shortCurve (x y : F) : (shortCurve b).negY x y = -y := by
  simp [Affine.negY, shortCurve]

theorem rep_dbl (h2 : (2 : F) ≠ 0) (hp : p.Rep P) : p.dbl.Rep (P + P) := by
  rcases hp with ⟨hz, rfl⟩ | ⟨hz, hns, rfl⟩
  · rw [dbl, if_pos hz, add_zero]
    exact rep_inf
  rw [dbl, if_neg hz]
  by_cases hy : p.y = 0
  · rw [Affine.Point.add_self_of_Y_eq (by rw [negY_shortCurve, hy]; simp)]
    refine .inl ⟨?_, rfl⟩
    rw [hy]
    ring
  have hy' : p.y / p.z ^ 3 ≠ (shortCurve b).negY (p.x / p.z ^ 2) (p.y / p.z ^ 3) := by
    rw [negY_shortCurve]
    intro heq
    apply mul_ne_zero h2 (div_ne_zero hy (pow_ne_zero 3 hz))
    linear_combination heq
  have hz3 : (p.y + p.z) ^ 2 - p.y ^ 2 - p.z ^ 2 = 2 * (p.y * p.z) := by ring
  have hne : 2 * (p.y * p.z) ≠ 0 := mul_ne_zero h2 (mul_ne_zero hy hz)
  rw [Affine.Point.add_self_of_Y_ne hy']
  have hslope : (shortCurve b).slope (p.x / p.z ^ 2) (p.x / p.z ^ 2) (p.y / p.z ^ 3)
      (p.y / p.z ^ 3) = 3 * ((p.x - p.z ^ 2) * (p.x + p.z ^ 2)) / (2 * (p.y * p.z)) := by
    rw [Affine.slope_of_Y_ne rfl hy', negY_shortCurve, sub_neg_eq_add, ← two_mul]
    simp only [shortCurve]
    field_simp
    ring
  refine rep_of_eq (by simpa only [hz3] using hne) ?_ ?_
  · rw [hslope]
    simp only [hz3, Affine.addX, shortCurve]
    field_simp
    ring
  · rw [hslope]
    simp only [hz3, Affine.addY, Affine.negAddY, Affine.addX, Affine.negY, shortCurve]
    field_simp
    ring

theorem rep_add (h2 : (2 : F) ≠ 0) (hp : p.Rep P) (hq : q.Rep Q) : (p.add q).Rep (P + Q) := by
  rcases hp with ⟨hz, rfl⟩ | ⟨hz1, hP, rfl⟩
  · rw [add, if_pos hz, zero_add]
    exact hq
  rcases hq with ⟨hz, rfl⟩ | ⟨hz2, hQ, rfl⟩
  · rw [add, if_neg hz1, if_pos hz, add_zero]
    exact .inr ⟨hz1, hP, rfl⟩
  rw [add, if_neg hz1, if_neg hz2]
  -- the differences vanish exactly when the affine coordinates agree
  have hx : q.x * p.z ^ 2 - p.x * q.z ^ 2 = 0 ↔ p.x / p.z ^ 2 = q.x / q.z ^ 2 := by
    rw [div_eq_div_iff (pow_ne_zero 2 hz1) (pow_ne_zero 2 hz2), sub_eq_zero]
    exact eq_comm
  have hy : q.y * p.z * p.z ^ 2 - p.y * q.z * q.z ^ 2 = 0 ↔ p.y / p.z ^ 3 = q.y / q.z ^ 3 := by
    rw [div_eq_div_iff (pow_ne_zero 3 hz1) (pow_ne_zero 3 hz2), sub_eq_zero, mul_assoc, mul_assoc,
      ← pow_succ', ← pow_succ']
    exact eq_comm
  by_cases hh : q.x * p.z ^ 2 - p.x * q.z ^ 2 = 0
  · simp only [hh, if_true]
    have hxeq := hx.mp hh
    by_cases hr : q.y * p.z * p.z ^ 2 - p.y * q.z * q.z ^ 2 = 0
    · rw [if_pos hr]
      have hsame : (Affine.Point.some _ _ hQ : (shortCurve b).Point) = .some _ _ hP := by
        simp [hxeq, hy.mp hr]
      rw [hsame]
      exact rep_dbl h2 (.inr ⟨hz1, hP, rfl⟩)
    · rw [if_neg hr]
      have hneg : p.y / p.z ^ 3 = (shortCurve b).negY (q.x / q.z ^ 2) (q.y / q.z ^ 3) :=
        (Affine.Y_eq_of_X_eq hP.1 hQ.1 hxeq).resolve_left (mt hy.mpr hr)
      rw [Affine.Point.add_of_Y_eq hxeq hneg]
      exact rep_inf
  · simp only [hh, if_false]
    replace hh : q.x * p.z ^ 2 - p.x * q.z ^ 2 ≠ 0 := hh
    have hxne : p.x / p.z ^ 2 ≠ q.x / q.z ^ 2 := mt hx.mpr hh
    have hz3 : (p.z + q.z) ^ 2 - p.z ^ 2 - q.z ^ 2 = 2 * (p.z * q.z) := by ring
    rw [Affine.Point.add_of_X_ne hxne]
    obtain ⟨h, hdef⟩ : ∃ h, q.x * p.z ^ 2 - p.x * q.z ^ 2 = h := ⟨_, rfl⟩
    obtain ⟨r, rdef⟩ : ∃ r, q.y * p.z * p.z ^ 2 - p.y * q.z * q.z ^ 2 = r := ⟨_, rfl⟩
    -- over the common denominators, with the differences as variables
    have hx1 : p.x / p.z ^ 2 = p.x * q.z ^ 2 / (p.z * q.z) ^ 2 := by field_simp
    have hx2 : q.x / q.z ^ 2 = (p.x * q.z ^ 2 + h) / (p.z * q.z) ^ 2 := by
      rw [← hdef]
      field_simp
      ring
    have hy1 : p.y / p.z ^ 3 = p.y * q.z * q.z ^ 2 / (p.z * q.z) ^ 3 := by field_simp
    have hy2 : q.y / q.z ^ 3 = (p.y * q.z * q.z ^ 2 + r) / (p.z * q.z) ^ 3 := by
      rw [← rdef]
      field_simp
      ring
    rw [hdef] at hh
    have hslope : (shortCurve b).slope (p.x / p.z ^ 2) (q.x / q.z ^ 2) (p.y / p.z ^ 3)
        (q.y / q.z ^ 3) = r / (p.z * q.z * h) := by
      rw [Affine.slope_of_X_ne hxne, hx1, hx2, hy1, hy2, ← sub_div, ← sub_div, sub_add_cancel_left,
        sub_add_cancel_left]
      field_simp
    have hZ : 2 * (p.z * q.z) * h ≠ 0 := mul_ne_zero (mul_ne_zero h2 (mul_ne_zero hz1 hz2)) hh
    refine rep_of_eq ?_ ?_ ?_
    · simpa only [hz3, hdef] using hZ
    · rw [hslope]
      simp only [hz3, hdef, rdef, Affine.addX, shortCurve]
      rw [hx1, hx2]
      field_simp
      ring
    · rw [hslope]
      simp only [hz3, hdef, rdef, Affine.addY, Affine.negAddY, Affine.addX, Affine.negY, shortCurve]
      rw [hx1, hx2, hy1]
      field_simp
      ring

def mulLoop (g : Jac F) (v : Nat) : Nat → Jac F → Jac F
  | 0, acc => acc
  | i + 1, acc => mulLoop g v i (if v / 2 ^ i % 2 = 0 then acc.dbl else acc.dbl.add g)

theorem double_add_bit {M : Type*} [AddCommMonoid M] (A P : M) (v n : Nat) :
    2 ^ n • (A + A + (v / 2 ^ n % 2) • P) + (v % 2 ^ n) • P =
      2 ^ (n + 1) • A + (v % 2 ^ (n + 1)) • P := by
  rw [Nat.mod_pow_succ, pow_succ]
  module

theorem rep_mulLoop (h2 : (2 : F) ≠ 0) (hp : p.Rep P) (v n : Nat) (hq : q.Rep Q) :
    (mulLoop p v n q).Rep (2 ^ n • Q + (v % 2 ^ n) • P) := by
  induction n generalizing q Q with
  | zero => simpa [mulLoop, Nat.mod_one] using hq
  | succ n ih =>
    rw [← double_add_bit, mulLoop]
    apply ih
    rcases Nat.mod_two_eq_zero_or_one (v / 2 ^ n) with hbit | hbit
    · rw [if_pos hbit, hbit, zero_nsmul, add_zero]
      exact rep_dbl h2 hq
    · rw [if_neg (by omega), hbit, one_nsmul]
      exact rep_add h2 (rep_dbl h2 hq) hp

end Jac

end KestrelOS
