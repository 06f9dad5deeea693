import KestrelOS.Lib.ByteNum
import KestrelOS.Tls.P256Curve

/-!
# P-256 in Montgomery limbs

The group law in Jacobian coordinates, the two scalar multiplications and the byte conversions of
`ecc.c`, each related to the field formula or the multiple of a point that it computes.
-/

namespace KestrelOS.Tls

open Limbs Nat List

def lSubSmall (a : List Nat) (s : Nat) : List Nat := (subB limbRadix a [s, 0, 0, 0] 0).1

def lShr (a : List Nat) (bits : Nat) : List Nat :=
  let words := bits / 64
  let sh := bits % 64
  (List.range 4).map fun i =>
    let lo := if i + words < 4 then a.getD (i + words) 0 >>> sh else 0
    let hi := if sh ≠ 0 ∧ i + words + 1 < 4 then a.getD (i + words + 1) 0 <<< (64 - sh) % 2 ^ 64
      else 0
    lo ||| hi

def fpCtx : M256 := m256Init p256P

def fnCtx : M256 := m256Init p256N

def fpBMont : List Nat := m256To p256B fpCtx

def fpExpInv : List Nat := lSubSmall p256P 2

def fnExpInv : List Nat := lSubSmall p256N 2

/-- `(p + 1) / 4`: the one is carried through the limbs. -/
def fpExpSqrt : List Nat := lShr (addC limbRadix p256P lZero 1).1 2

structure JacL where
  x : List Nat
  y : List Nat
  z : List Nat

def p256G : JacL := ⟨m256To p256Gx fpCtx, m256To p256Gy fpCtx, fpCtx.one⟩

def beToLimbs (s : Bytes) : List Nat :=
  (List.range 4).map fun i =>
    (List.range 8).foldl (fun v j => v <<< 8 % 2 ^ 64 ||| (s ((3 - i) * 8 + j)).toNat) 0

def limbsToBe (a : List Nat) : Bytes := fun k =>
  UInt8.ofNat (a.getD (3 - k / 8) 0 >>> (56 - 8 * (k % 8)))

def jacSetInf : JacL := ⟨lZero, lZero, lZero⟩

def jacIsInf (p : JacL) : Bool := lIsZero p.z

def jacSelect (a b : JacL) (bit : Nat) : JacL :=
  ⟨lSelect a.x b.x bit, lSelect a.y b.y bit, lSelect a.z b.z bit⟩

def jacDbl (p : JacL) : JacL :=
  if jacIsInf p then jacSetInf else
    let delta := m256Sqr p.z fpCtx
    let gamma := m256Sqr p.y fpCtx
    let beta := m256Mul p.x gamma fpCtx
    let t := m256Sub p.x delta fpCtx
    let u := m256Add p.x delta fpCtx
    let alpha := m256Mul t u fpCtx
    let t := m256Add alpha alpha fpCtx
    let alpha := m256Add t alpha fpCtx
    let x3 := m256Sqr alpha fpCtx
    let t := m256Add beta beta fpCtx
    let t := m256Add t t fpCtx
    let u := m256Add t t fpCtx
    let x3 := m256Sub x3 u fpCtx
    let z3 := m256Add p.y p.z fpCtx
    let z3 := m256Sqr z3 fpCtx
    let z3 := m256Sub z3 gamma fpCtx
    let z3 := m256Sub z3 delta fpCtx
    let y3 := m256Sub t x3 fpCtx
    let y3 := m256Mul alpha y3 fpCtx
    let u := m256Sqr gamma fpCtx
    let u := m256Add u u fpCtx
    let u := m256Add u u fpCtx
    let u := m256Add u u fpCtx
    let y3 := m256Sub y3 u fpCtx
    ⟨x3, y3, z3⟩

def jacAdd (p q : JacL) : JacL :=
  if jacIsInf p then q else if jacIsInf q then p else
    let z1z1 := m256Sqr p.z fpCtx
    let z2z2 := m256Sqr q.z fpCtx
    let u1 := m256Mul p.x z2z2 fpCtx
    let u2 := m256Mul q.x z1z1 fpCtx
    let s1 := m256Mul p.y q.z fpCtx
    let s1 := m256Mul s1 z2z2 fpCtx
    let s2 := m256Mul q.y p.z fpCtx
    let s2 := m256Mul s2 z1z1 fpCtx
    let h := m256Sub u2 u1 fpCtx
    let rr := m256Sub s2 s1 fpCtx
    if lIsZero h then if lIsZero rr then jacDbl p else jacSetInf else
      let rr := m256Add rr rr fpCtx
      let i := m256Add h h fpCtx
      let i := m256Sqr i fpCtx
      let j := m256Mul h i fpCtx
      let v := m256Mul u1 i fpCtx
      let x3 := m256Sqr rr fpCtx
      let x3 := m256Sub x3 j fpCtx
      let t := m256Add v v fpCtx
      let x3 := m256Sub x3 t fpCtx
      let y3 := m256Sub v x3 fpCtx
      let y3 := m256Mul rr y3 fpCtx
      let t := m256Mul s1 j fpCtx
      let t := m256Add t t fpCtx
      let y3 := m256Sub y3 t fpCtx
      let z3 := m256Add p.z q.z fpCtx
      let z3 := m256Sqr z3 fpCtx
      let z3 := m256Sub z3 z1z1 fpCtx
      let z3 := m256Sub z3 z2z2 fpCtx
      let z3 := m256Mul z3 h fpCtx
      ⟨x3, y3, z3⟩

def jacAffine (p : JacL) : Option (List Nat × List Nat) :=
  if jacIsInf p then none else
    let zi := m256Exp p.z fpExpInv fpCtx
    let zi2 := m256Sqr zi fpCtx
    let zi3 := m256Mul zi2 zi fpCtx
    some (m256Mul p.x zi2 fpCtx, m256Mul p.y zi3 fpCtx)

/-- `x³ - 3x + b`, as `on_curve` and the decompression compute it. -/
def curveRhs (x : List Nat) : List Nat :=
  let rhs := m256Sqr x fpCtx
  let rhs := m256Mul rhs x fpCtx
  let t := m256Add x x fpCtx
  let t := m256Add t x fpCtx
  let rhs := m256Sub rhs t fpCtx
  m256Add rhs fpBMont fpCtx

def onCurve (x y : List Nat) : Bool := lEq (m256Sqr y fpCtx) (curveRhs x)

/-- `k + n` or `k + 2 n`, whichever has 257 bits, in five limbs. -/
def fixedLenScalar (k : List Nat) : List Nat :=
  let t := addC limbRadix k p256N 0
  if t.2 = 0 then
    let t := addC limbRadix t.1 p256N 0
    t.1 ++ [t.2]
  else t.1 ++ [t.2]

/-- The loop of `jac_mul_secret` from bit `n - 1` down to bit 0. -/
def mulSecretLoop (t : List Nat) (p : JacL) : Nat → JacL → JacL
  | 0, acc => acc
  | i + 1, acc =>
    let acc := jacDbl acc
    let tmp := jacAdd acc p
    mulSecretLoop t p i (jacSelect acc tmp (limbBit t i))

def jacMulSecret (k : List Nat) (p : JacL) : JacL :=
  mulSecretLoop (fixedLenScalar k) p 257 jacSetInf

def mul2Table (q : JacL) : Nat → JacL
  | 0 => jacSetInf
  | 1 => p256G
  | 2 => q
  | _ => jacAdd p256G q

def mul2Loop (u1 u2 : List Nat) (q : JacL) : Nat → JacL → JacL
  | 0, acc => acc
  | i + 1, acc =>
    let acc := jacDbl acc
    let idx := limbBit u1 i ||| limbBit u2 i <<< 1
    mul2Loop u1 u2 q i (if idx ≠ 0 then jacAdd acc (mul2Table q idx) else acc)

def jacMul2Public (u1 u2 : List Nat) (q : JacL) : JacL := mul2Loop u1 u2 q 256 jacSetInf

theorem fpCtx_ok : fpCtx.Ok fieldPrime :=
  m256Init_ok p256P_isLimbs value_p256P fieldPrime_odd (by decide)

theorem fnCtx_ok : fnCtx.Ok groupOrder :=
  m256Init_ok p256N_isLimbs value_p256N groupOrder_odd (by decide)

/-- Reduced limbs in Montgomery form that stand for `v`. -/
def Stands (a : List Nat) (v : Fp) : Prop := Residue fieldPrime a ∧ mres fieldPrime a = v

namespace Stands

variable {a b : List Nat} {v w : Fp}

theorem congr (h : Stands a v) (hvw : v = w) : Stands a w := hvw ▸ h

theorem zero : Stands lZero 0 := ⟨lZero_residue (by decide), mres_lZero _⟩

theorem one : Stands fpCtx.one 1 := ⟨fpCtx_ok.one, fpCtx_ok.mres_one⟩

theorem add (ha : Stands a v) (hb : Stands b w) : Stands (m256Add a b fpCtx) (v + w) := by
  obtain ⟨hr, hv⟩ := fpCtx_ok.toMod.add ha.1 hb.1
  exact ⟨hr, by rw [hv, ha.2, hb.2]⟩

theorem sub (ha : Stands a v) (hb : Stands b w) : Stands (m256Sub a b fpCtx) (v - w) := by
  obtain ⟨hr, hv⟩ := fpCtx_ok.toMod.sub ha.1 hb.1
  exact ⟨hr, by rw [hv, ha.2, hb.2]⟩

theorem mul (ha : Stands a v) (hb : Stands b w) : Stands (m256Mul a b fpCtx) (v * w) := by
  obtain ⟨hr, hv⟩ := fpCtx_ok.toMod.mul ha.1 hb.1
  exact ⟨hr, by rw [hv, ha.2, hb.2]⟩

theorem sqr (ha : Stands a v) : Stands (m256Sqr a fpCtx) (v ^ 2) :=
  (ha.mul ha).congr (pow_two v).symm

theorem exp (ha : Stands a v) {e : List Nat} (he : IsLimbs limbRadix 4 e) :
    Stands (m256Exp a e fpCtx) (v ^ value limbRadix e) := by
  obtain ⟨hr, hv⟩ := fpCtx_ok.exp ha.1 he
  exact ⟨hr, by rw [hv, ha.2]⟩

theorem enter (ha : Residue fieldPrime a) : Stands (m256To a fpCtx) (value limbRadix a : Nat) :=
  fpCtx_ok.enter ha

theorem leave (ha : Stands a v) :
    Residue fieldPrime (m256From a fpCtx) ∧ value limbRadix (m256From a fpCtx) = v.val := by
  obtain ⟨hr, hv⟩ := fpCtx_ok.toMod.leave ha.1
  exact ⟨hr, by rw [hv, ha.2]⟩

theorem isZero_iff (ha : Stands a v) : lIsZero a ↔ v = 0 := by
  rw [ha.1.isZero_iff fieldPrime_odd, ha.2]

theorem eq_iff (ha : Stands a v) (hb : Stands b w) : lEq a b ↔ v = w := by
  rw [ha.1.eq_iff fieldPrime_odd hb.1, ha.2, hb.2]

end Stands

theorem fpBMont_stands : Stands fpBMont curveB := Stands.enter ⟨⟨rfl, by decide⟩, by decide⟩

theorem fpExpInv_eq : IsLimbs limbRadix 4 fpExpInv ∧ value limbRadix fpExpInv = fieldPrime - 2 :=
  ⟨⟨by decide, by decide⟩, by decide⟩

theorem fpExpSqrt_eq :
    IsLimbs limbRadix 4 fpExpSqrt ∧ value limbRadix fpExpSqrt = (fieldPrime + 1) / 4 :=
  ⟨⟨by decide, by decide⟩, by decide⟩

theorem fnExpInv_eq : IsLimbs limbRadix 4 fnExpInv ∧ value limbRadix fnExpInv = groupOrder - 2 :=
  ⟨⟨by decide, by decide⟩, by decide⟩

structure JacL.Stands (p : JacL) (j : Jac Fp) : Prop where
  x : Tls.Stands p.x j.x
  y : Tls.Stands p.y j.y
  z : Tls.Stands p.z j.z

variable {p q : JacL} {j k : Jac Fp}

theorem jacSetInf_stands : jacSetInf.Stands Jac.inf := ⟨Stands.zero, Stands.zero, Stands.zero⟩

theorem JacL.Stands.isInf_iff (h : p.Stands j) : jacIsInf p ↔ j.z = 0 := h.z.isZero_iff

theorem jacDbl_stands (h : p.Stands j) : (jacDbl p).Stands j.dbl := by
  by_cases hz : j.z = 0
  · rw [jacDbl, if_pos (h.isInf_iff.mpr hz), Jac.dbl, if_pos hz]
    exact jacSetInf_stands
  rw [jacDbl, if_neg (mt h.isInf_iff.mp hz), Jac.dbl, if_neg hz]
  have hdelta := h.z.sqr
  have hgamma := h.y.sqr
  have hbeta := h.x.mul hgamma
  have hprod := (h.x.sub hdelta).mul (h.x.add hdelta)
  have halpha := (hprod.add hprod).add hprod
  have h2beta := hbeta.add hbeta
  have h4beta := h2beta.add h2beta
  have hx3 := halpha.sqr.sub (h4beta.add h4beta)
  have hz3 := ((h.y.add h.z).sqr.sub hgamma).sub hdelta
  have h2g := hgamma.sqr.add hgamma.sqr
  have h4g := h2g.add h2g
  have hy3 := (halpha.mul (h4beta.sub hx3)).sub (h4g.add h4g)
  constructor <;> dsimp only
  · refine hx3.congr ?_
    ring
  · refine hy3.congr ?_
    ring
  · exact hz3

theorem jacAdd_stands (hp : p.Stands j) (hq : q.Stands k) : (jacAdd p q).Stands (j.add k) := by
  by_cases hz1 : j.z = 0
  · rw [jacAdd, if_pos (hp.isInf_iff.mpr hz1), Jac.add, if_pos hz1]
    exact hq
  by_cases hz2 : k.z = 0
  · rw [jacAdd, if_neg (mt hp.isInf_iff.mp hz1), if_pos (hq.isInf_iff.mpr hz2), Jac.add,
      if_neg hz1, if_pos hz2]
    exact hp
  rw [jacAdd, if_neg (mt hp.isInf_iff.mp hz1), if_neg (mt hq.isInf_iff.mp hz2), Jac.add, if_neg hz1,
    if_neg hz2]
  have hz1z1 := hp.z.sqr
  have hz2z2 := hq.z.sqr
  have hu1 := hp.x.mul hz2z2
  have hu2 := hq.x.mul hz1z1
  have hs1 := (hp.y.mul hq.z).mul hz2z2
  have hs2 := (hq.y.mul hp.z).mul hz1z1
  have hh := hu2.sub hu1
  have hr := hs2.sub hs1
  dsimp only
  by_cases hh0 : k.x * j.z ^ 2 - j.x * k.z ^ 2 = 0
  · rw [if_pos (hh.isZero_iff.mpr hh0), if_pos hh0]
    by_cases hr0 : k.y * j.z * j.z ^ 2 - j.y * k.z * k.z ^ 2 = 0
    · rw [if_pos (hr.isZero_iff.mpr hr0), if_pos hr0]
      exact jacDbl_stands hp
    · rw [if_neg (mt hr.isZero_iff.mp hr0), if_neg hr0]
      exact jacSetInf_stands
  · rw [if_neg (mt hh.isZero_iff.mp hh0), if_neg hh0]
    have hrr := hr.add hr
    have hi := (hh.add hh).sqr
    have hj := hh.mul hi
    have hv := hu1.mul hi
    have hx3 := (hrr.sqr.sub hj).sub (hv.add hv)
    have hsj := hs1.mul hj
    have hy3 := (hrr.mul (hv.sub hx3)).sub (hsj.add hsj)
    have hz3 := (((hp.z.add hq.z).sqr.sub hz1z1).sub hz2z2).mul hh
    constructor <;> dsimp only
    · refine hx3.congr ?_
      ring
    · refine hy3.congr ?_
      ring
    · exact hz3

variable {bit : Nat} {t u1 u2 x y : List Nat}

theorem lSelect_eq {n : Nat} {a b : List Nat} (ha : IsLimbs limbRadix n a)
    (hb : IsLimbs limbRadix n b) (hbit : bit < 2) : lSelect a b bit = if bit = 0 then a else b := by
  rw [lSelect]
  split
  · rename_i h
    rw [h, maskSelect_zero ha hb]
  · have h1 : bit = 1 := by omega
    rw [h1, maskSelect_one ha hb]

theorem jacSelect_eq (hp : p.Stands j) (hq : q.Stands k) (hbit : bit < 2) :
    jacSelect p q bit = if bit = 0 then p else q := by
  rw [jacSelect, lSelect_eq hp.x.1.limbs hq.x.1.limbs hbit,
    lSelect_eq hp.y.1.limbs hq.y.1.limbs hbit, lSelect_eq hp.z.1.limbs hq.z.1.limbs hbit]
  split <;> rfl

theorem jacAffine_stands (h : p.Stands j) : (j.z = 0 → jacAffine p = none) ∧
      (j.z ≠ 0 → ∃ ax ay, jacAffine p = some (ax, ay) ∧ Stands ax (j.x / j.z ^ 2) ∧
        Stands ay (j.y / j.z ^ 3)) := by
  constructor
  · intro hz
    rw [jacAffine, if_pos (h.isInf_iff.mpr hz)]
  intro hz
  rw [jacAffine, if_neg (mt h.isInf_iff.mp hz)]
  -- Fermat's little theorem
  have hinv : j.z ^ value limbRadix fpExpInv = j.z⁻¹ := by
    rw [fpExpInv_eq.2]
    apply eq_inv_of_mul_eq_one_left
    rw [← pow_succ, show fieldPrime - 2 + 1 = fieldPrime - 1 by decide]
    exact ZMod.pow_card_sub_one_eq_one hz
  have hzi := (h.z.exp fpExpInv_eq.1).congr hinv
  refine ⟨_, _, rfl, (h.x.mul hzi.sqr).congr ?_, (h.y.mul (hzi.sqr.mul hzi)).congr ?_⟩
  · rw [inv_pow, div_eq_mul_inv]
  · rw [inv_pow, div_eq_mul_inv]
    field_simp

theorem curveRhs_stands {v : Fp} (hx : Stands x v) :
    Stands (curveRhs x) (v ^ 3 - 3 * v + curveB) := by
  have hcube := hx.sqr.mul hx
  have h3x := (hx.add hx).add hx
  exact ((hcube.sub h3x).add fpBMont_stands).congr (by ring)

theorem onCurve_iff {v w : Fp} (hx : Stands x v) (hy : Stands y w) :
    onCurve x y ↔ p256Curve.Nonsingular v w := by
  rw [onCurve, hy.sqr.eq_iff (curveRhs_stands hx), nonsingular_iff]

def JacL.Rep (p : JacL) (P : p256Curve.Point) : Prop := ∃ j, p.Stands j ∧ j.Rep P

variable {P Q A : p256Curve.Point} {acc : JacL}

theorem jacSetInf_rep : jacSetInf.Rep 0 := ⟨Jac.inf, jacSetInf_stands, Jac.rep_inf⟩

theorem jacDbl_rep (hp : p.Rep P) : (jacDbl p).Rep (P + P) := by
  obtain ⟨j, hj, hP⟩ := hp
  exact ⟨_, jacDbl_stands hj, Jac.rep_dbl two_ne_zero_Fp hP⟩

theorem jacAdd_rep (hp : p.Rep P) (hq : q.Rep Q) : (jacAdd p q).Rep (P + Q) := by
  obtain ⟨j, hj, hP⟩ := hp
  obtain ⟨k, hk, hQ⟩ := hq
  exact ⟨_, jacAdd_stands hj hk, Jac.rep_add two_ne_zero_Fp hP hQ⟩

theorem load_rep (hx : Residue fieldPrime x) (hy : Residue fieldPrime y)
    (h : p256Curve.Nonsingular (value limbRadix x : Nat) (value limbRadix y : Nat)) :
    (JacL.mk (m256To x fpCtx) (m256To y fpCtx) fpCtx.one).Rep (.some _ _ h) := by
  have hst : (JacL.mk (m256To x fpCtx) (m256To y fpCtx) fpCtx.one).Stands
      ⟨(value limbRadix x : Nat), (value limbRadix y : Nat), 1⟩ := by
    constructor <;> dsimp only
    · exact Stands.enter hx
    · exact Stands.enter hy
    · exact Stands.one
  exact ⟨_, hst, Jac.rep_of_eq one_ne_zero (by simp) (by simp)⟩

theorem p256G_rep : p256G.Rep generator :=
  load_rep ⟨⟨rfl, by decide⟩, by decide⟩ ⟨⟨rfl, by decide⟩, by decide⟩ generator_nonsingular

theorem limbBit_lt_two {n : Nat} (ht : IsLimbs limbRadix n t) (i : Nat) : limbBit t i < 2 := by
  rw [limbBit_eq ht]
  exact mod_lt _ (by decide)

theorem mulSecretLoop_rep {m : Nat} (ht : IsLimbs limbRadix m t) (hp : p.Rep P) (n : Nat)
    (hacc : acc.Rep A) :
    (mulSecretLoop t p n acc).Rep (2 ^ n • A + (value limbRadix t % 2 ^ n) • P) := by
  induction n generalizing acc A with
  | zero => simpa [mulSecretLoop, mod_one] using hacc
  | succ n ih =>
    have hdbl := jacDbl_rep hacc
    have hadd := jacAdd_rep hdbl hp
    obtain ⟨j, hj, -⟩ := hdbl
    obtain ⟨k, hk, -⟩ := hadd
    rw [← Jac.double_add_bit, mulSecretLoop, jacSelect_eq hj hk (limbBit_lt_two ht n)]
    apply ih
    rw [limbBit_eq ht]
    rcases mod_two_eq_zero_or_one (value limbRadix t / 2 ^ n) with hbit | hbit
    · rw [if_pos hbit, hbit, zero_nsmul, add_zero]
      exact jacDbl_rep hacc
    · rw [if_neg (by omega), hbit, one_nsmul]
      exact jacAdd_rep (jacDbl_rep hacc) hp

theorem fixedLenScalar_spec {k : List Nat} (hk : Residue groupOrder k) :
    ∃ c, IsLimbs limbRadix 5 (fixedLenScalar k) ∧
      value limbRadix (fixedLenScalar k) = value limbRadix k + c * groupOrder ∧
      value limbRadix (fixedLenScalar k) < 2 ^ 257 := by
  have hn : groupOrder < 2 ^ 256 := by decide
  have hlt := hk.lt
  -- both additions end in four limbs and a carry
  have hjoin : ∀ {a : List Nat} {v : Nat}, IsLimbs limbRadix 4 a → value limbRadix a = v →
      v + groupOrder < 2 ^ 257 →
      IsLimbs limbRadix 5 ((addC limbRadix a p256N 0).1 ++ [(addC limbRadix a p256N 0).2]) ∧
      value limbRadix ((addC limbRadix a p256N 0).1 ++ [(addC limbRadix a p256N 0).2]) =
        v + groupOrder := by
    intro a v ha hv hbound
    obtain ⟨hl, hs⟩ := addC_spec limbRadix_pos ha p256N_isLimbs 0
    rw [M256.Mod.radix, hv, value_p256N] at hs
    have hc : (addC limbRadix a p256N 0).2 < limbRadix := by
      rw [limbRadix] at *
      omega
    refine ⟨hl.append (.cons hc .nil), ?_⟩
    rw [value_append, hl.length, M256.Mod.radix, value_cons, value_nil, mul_zero, add_zero,
      hs, add_zero]
  obtain ⟨hl1, hv1⟩ := hjoin hk.limbs rfl (by omega)
  obtain ⟨hl, hs⟩ := addC_spec limbRadix_pos hk.limbs p256N_isLimbs 0
  rw [M256.Mod.radix, value_p256N] at hs
  rw [fixedLenScalar]
  split
  · rename_i hzero
    rw [hzero, mul_zero, add_zero, add_zero] at hs
    have h256 : value limbRadix (addC limbRadix k p256N 0).1 < 2 ^ 256 := hl.value_lt
    obtain ⟨hl2, hv2⟩ := hjoin hl hs (by omega)
    exact ⟨2, hl2, by rw [hv2]; omega, by rw [hv2]; omega⟩
  · exact ⟨1, hl1, by rw [hv1]; omega, by rw [hv1]; omega⟩

theorem jacMulSecret_rep {k : List Nat} (hk : Residue groupOrder k) (hp : p.Rep P)
    (hord : groupOrder • P = 0) : (jacMulSecret k p).Rep (value limbRadix k • P) := by
  obtain ⟨c, hl, hv, hlt⟩ := fixedLenScalar_spec hk
  have hloop := mulSecretLoop_rep hl hp 257 jacSetInf_rep
  rwa [nsmul_zero, zero_add, mod_eq_of_lt hlt, hv, add_nsmul, mul_nsmul', hord, nsmul_zero,
    add_zero] at hloop

theorem mul2Table_rep (hq : q.Rep Q) {b1 b2 : Nat} (h1 : b1 < 2) (h2 : b2 < 2) :
    (mul2Table q (b1 ||| b2 <<< 1)).Rep (b1 • generator + b2 • Q) := by
  have hsum := jacAdd_rep p256G_rep hq
  interval_cases b1 <;> interval_cases b2
  · simpa [mul2Table] using jacSetInf_rep
  · simpa [mul2Table] using hq
  · simpa [mul2Table] using p256G_rep
  · simpa [mul2Table] using hsum

theorem mul2Loop_rep (h1 : IsLimbs limbRadix 4 u1) (h2 : IsLimbs limbRadix 4 u2) (hq : q.Rep Q)
    (n : Nat) (hacc : acc.Rep A) :
    (mul2Loop u1 u2 q n acc).Rep (2 ^ n • A + ((value limbRadix u1 % 2 ^ n) • generator +
      (value limbRadix u2 % 2 ^ n) • Q)) := by
  induction n generalizing acc A with
  | zero => simpa [mul2Loop, mod_one] using hacc
  | succ n ih =>
    have htab := mul2Table_rep hq (limbBit_lt_two h1 n) (limbBit_lt_two h2 n)
    have hstep : (if (limbBit u1 n ||| limbBit u2 n <<< 1) ≠ 0
        then jacAdd (jacDbl acc) (mul2Table q (limbBit u1 n ||| limbBit u2 n <<< 1))
        else jacDbl acc).Rep (A + A + (limbBit u1 n • generator + limbBit u2 n • Q)) := by
      split
      · exact jacAdd_rep (jacDbl_rep hacc) htab
      rename_i hidx
      obtain ⟨hb1, hb2⟩ := or_eq_zero_iff.mp (not_not.mp hidx)
      rw [shiftLeft_eq] at hb2
      rw [hb1, show limbBit u2 n = 0 by omega, zero_nsmul, zero_nsmul, add_zero, add_zero]
      exact jacDbl_rep hacc
    have hrest := ih hstep
    rw [limbBit_eq h1, limbBit_eq h2] at hrest
    rw [mul2Loop]
    rw [limbBit_eq h1, limbBit_eq h2]
    convert hrest using 1
    rw [mod_pow_succ, mod_pow_succ, pow_succ]
    module

theorem jacMul2Public_rep (h1 : IsLimbs limbRadix 4 u1) (h2 : IsLimbs limbRadix 4 u2)
    (hq : q.Rep Q) :
    (jacMul2Public u1 u2 q).Rep (value limbRadix u1 • generator + value limbRadix u2 • Q) := by
  have hloop := mul2Loop_rep h1 h2 hq 256 jacSetInf_rep
  have hlt1 : value limbRadix u1 < 2 ^ 256 := h1.value_lt
  have hlt2 : value limbRadix u2 < 2 ^ 256 := h2.value_lt
  rwa [nsmul_zero, zero_add, mod_eq_of_lt hlt1, mod_eq_of_lt hlt2] at hloop

theorem jacIsInf_rep (hp : p.Rep P) : jacIsInf p ↔ P = 0 := by
  obtain ⟨j, hj, hP⟩ := hp
  rw [hj.isInf_iff]
  rcases hP with ⟨hz, rfl⟩ | ⟨hz, h, rfl⟩
  · simp [hz]
  · simp [hz]

theorem jacAffine_rep {x y : Fp} {h : p256Curve.Nonsingular x y} (hp : p.Rep (.some x y h)) :
    ∃ ax ay, jacAffine p = some (ax, ay) ∧ Stands ax x ∧ Stands ay y := by
  obtain ⟨j, hj, hP⟩ := hp
  rcases hP with ⟨-, h0⟩ | ⟨hz, hns, heq⟩
  · exact absurd h0 (by simp)
  · obtain ⟨rfl, rfl⟩ : x = j.x / j.z ^ 2 ∧ y = j.y / j.z ^ 3 := by simpa using heq
    exact (jacAffine_stands hj).2 hz

theorem generator_order : groupOrder • generator = 0 := by
  have hG : (⟨generatorX, generatorY, 1⟩ : Jac Fp).Rep generator :=
    Jac.rep_of_eq one_ne_zero (by simp) (by simp)
  have hmul := Jac.rep_mulLoop two_ne_zero_Fp hG groupOrder 256 Jac.rep_inf
  have hz : (Jac.mulLoop ⟨generatorX, generatorY, 1⟩ groupOrder 256 Jac.inf).z = 0 := by
    decide +kernel
  rcases hmul with ⟨-, h⟩ | ⟨h, -⟩
  · rwa [nsmul_zero, zero_add, mod_eq_of_lt (by decide)] at h
  · exact absurd hz h

theorem foldl_shift_or_byte (s : Bytes) {n : Nat} (hn : n ≤ 8) :
    (range n).foldl (fun v j => v <<< 8 % 2 ^ 64 ||| (s j).toNat) 0 = beNat s n := by
  induction n with
  | zero => rfl
  | succ n ih =>
    have hlt : beNat s n < 2 ^ 56 := calc
      beNat s n < 256 ^ n := beNat_lt s n
      _ ≤ 256 ^ 7 := Nat.pow_le_pow_right (by decide) (by omega)
    rw [range_succ, foldl_append, ih (by omega), foldl_cons, foldl_nil,
      shift_or_byte hlt (s n).toNat_lt, beNat]

theorem beToLimbs_spec (s : Bytes) :
    IsLimbs limbRadix 4 (beToLimbs s) ∧ value limbRadix (beToLimbs s) = beNat s 32 := by
  have hlimb : ∀ i, (range 8).foldl
      (fun v j => v <<< 8 % 2 ^ 64 ||| (s ((3 - i) * 8 + j)).toNat) 0 =
        beNat (fun j => s ((3 - i) * 8 + j)) 8 := fun i => foldl_shift_or_byte _ le_rfl
  have hlist : beToLimbs s = [beNat (fun j => s (24 + j)) 8, beNat (fun j => s (16 + j)) 8,
      beNat (fun j => s (8 + j)) 8, beNat s 8] := by
    simp only [beToLimbs, hlimb]
    simp [range_succ]
  have hlt : ∀ s', beNat s' 8 < limbRadix := fun s' => beNat_lt s' 8
  rw [hlist]
  refine ⟨⟨rfl, by simp [hlt]⟩, ?_⟩
  rw [show 32 = 24 + 8 from rfl, beNat_add s 24 8, show 24 = 16 + 8 from rfl, beNat_add s 16 8,
    show 16 = 8 + 8 from rfl, beNat_add s 8 8]
  simp only [value_cons, value_nil, limbRadix]
  ring

theorem limbsToBe_eq {a : List Nat} (ha : IsLimbs limbRadix 4 a) {k : Nat} (hk : k < 32) :
    limbsToBe a k = beByte (value limbRadix a) 32 k := by
  have hdig := value_digit (j := 3 - k / 8) ha
  rw [limbRadix, ← pow_mul] at hdig
  rw [limbsToBe, ← hdig, show 56 - 8 * (k % 8) = 8 * (7 - k % 8) by omega,
    digit_byte _ _ (by omega), beByte]
  congr 1
  omega

end KestrelOS.Tls
