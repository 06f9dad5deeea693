import KestrelOS.Tls.P256

/-!
# P-256 points, key agreement and signatures

The functions of `ecc.c` that the TLS stack calls: the SEC 1 decoder, multiplication of the base
point, Diffie-Hellman and ECDSA verification. Each is stated against the group of the curve.
-/

namespace KestrelOS.Tls

open Limbs WeierstrassCurve List Nat Option

structure P256Point where
  x : Bytes
  y : Bytes

/-- The ordinate of a compressed point; `tag` is the first byte of the encoding. -/
def p256Decompress (tag : UInt8) (x : List Nat) : Option (List Nat) :=
  if 0 ≤ lCmp x p256P then none else
    let xm := m256To x fpCtx
    let rhs := curveRhs xm
    let cand := m256Exp rhs fpExpSqrt fpCtx
    let sq := m256Sqr cand fpCtx
    if !lEq sq rhs then none else
      let plain := m256From cand fpCtx
      let neg := m256Sub fpCtx.m plain fpCtx
      some (if plain.headD 0 &&& 1 ≠ tag.toNat &&& 1 then neg else plain)

/-- The checks that end `p256_point_from_bytes`. -/
def p256Accept (x y : List Nat) : Option P256Point :=
  if 0 ≤ lCmp x p256P ∨ 0 ≤ lCmp y p256P then none
  else if lIsZero x && lIsZero y then none
  else if !onCurve (m256To x fpCtx) (m256To y fpCtx) then none
  else some ⟨limbsToBe x, limbsToBe y⟩

def p256PointFromBytes (inp : List UInt8) : Option P256Point :=
  let tag := inp.getD 0 0
  if inp.length = 65 ∧ tag = 0x04 then
    p256Accept (beToLimbs fun k => inp.getD (1 + k) 0) (beToLimbs fun k => inp.getD (33 + k) 0)
  else if inp.length = 33 ∧ (tag = 0x02 ∨ tag = 0x03) then
    let x := beToLimbs fun k => inp.getD (1 + k) 0
    (p256Decompress tag x).bind (p256Accept x)
  else none

def scalarInRange (d : Bytes) : Option (List Nat) :=
  let k := beToLimbs d
  if lIsZero k then none else if 0 ≤ lCmp k p256N then none else some k

def p256BaseMul (d : Bytes) : Option P256Point :=
  (scalarInRange d).bind fun k =>
    (jacAffine (jacMulSecret k p256G)).map fun a =>
      ⟨limbsToBe (m256From a.1 fpCtx), limbsToBe (m256From a.2 fpCtx)⟩

def p256Ecdh (d : Bytes) (peer : P256Point) : Option Bytes :=
  (scalarInRange d).bind fun k =>
    let x := beToLimbs peer.x
    let y := beToLimbs peer.y
    if 0 ≤ lCmp x p256P ∨ 0 ≤ lCmp y p256P then none else
      let p : JacL := ⟨m256To x fpCtx, m256To y fpCtx, fpCtx.one⟩
      if !onCurve p.x p.y then none else
        (jacAffine (jacMulSecret k p)).map fun a => limbsToBe (m256From a.1 fpCtx)

/-- The first `take` bytes of `l` at the end of a zeroed buffer of 32 bytes. -/
def alignRight (l : List UInt8) (take : Nat) : Bytes := fun k =>
  if k < 32 - take then 0 else l.getD (k - (32 - take)) 0

/-- One subtraction of the group order from a number that is not below it. -/
def subOrder (a : List Nat) : List Nat :=
  if 0 ≤ lCmp a p256N then (subB limbRadix a p256N 0).1 else a

def p256EcdsaVerify (pub : P256Point) (digest r s : List UInt8) : Nat :=
  if r.length = 0 ∨ r.length > 32 ∨ s.length = 0 ∨ s.length > 32 then 0
  else if digest.length = 0 then 0 else
    let rl := beToLimbs (alignRight r r.length)
    let sl := beToLimbs (alignRight s s.length)
    if lIsZero rl ∨ 0 ≤ lCmp rl p256N then 0
    else if lIsZero sl ∨ 0 ≤ lCmp sl p256N then 0 else
      let take := if digest.length < 32 then digest.length else 32
      let el := subOrder (beToLimbs (alignRight digest take))
      let qx := beToLimbs pub.x
      let qy := beToLimbs pub.y
      if 0 ≤ lCmp qx p256P ∨ 0 ≤ lCmp qy p256P then 0 else
        let q : JacL := ⟨m256To qx fpCtx, m256To qy fpCtx, fpCtx.one⟩
        if !onCurve q.x q.y then 0 else
          let sm := m256To sl fnCtx
          let w := m256Exp sm fnExpInv fnCtx
          let em := m256To el fnCtx
          let rm := m256To rl fnCtx
          let u1 := m256From (m256Mul em w fnCtx) fnCtx
          let u2 := m256From (m256Mul rm w fnCtx) fnCtx
          let res := jacMul2Public u1 u2 q
          if jacIsInf res then 0 else
            match jacAffine res with
            | none => 0
            | some a =>
              let xr := subOrder (m256From a.1 fpCtx)
              if lEq xr rl then 1 else 0

namespace P256Point

/-- The bytes are the coordinates of a point of the curve. -/
structure Valid (pt : P256Point) : Prop where
  x_lt : beNat pt.x 32 < fieldPrime
  y_lt : beNat pt.y 32 < fieldPrime
  curve : p256Curve.Nonsingular (beNat pt.x 32 : Nat) (beNat pt.y 32 : Nat)

def Valid.toPoint {pt : P256Point} (h : pt.Valid) : p256Curve.Point := .some _ _ h.curve

/-- The bytes are those of the affine coordinates of `P`. -/
def Encodes (pt : P256Point) (P : p256Curve.Point) : Prop :=
  ∃ x y h, P = .some x y h ∧
    ∀ k < 32, pt.x k = beByte x.val 32 k ∧ pt.y k = beByte y.val 32 k

end P256Point

/-- SEC 1, section 2.3.3. -/
def sec1Uncompressed (x y : Fp) : List UInt8 := 0x04 :: (beBytes x.val 32 ++ beBytes y.val 32)

def sec1Compressed (x y : Fp) : List UInt8 :=
  (if y.val % 2 = 0 then 0x02 else 0x03) :: beBytes x.val 32

def IsSec1 (l : List UInt8) (P : p256Curve.Point) : Prop :=
  ∃ x y h, P = .some x y h ∧ (l = sec1Uncompressed x y ∨ l = sec1Compressed x y)

variable {a x y : List Nat} {d : Bytes} {inp l : List UInt8} {pt : P256Point} {c : Fp}
  {P : p256Curve.Point}

theorem lCmp_nonneg_iff {b : List Nat} (ha : IsLimbs limbRadix 4 a) (hb : IsLimbs limbRadix 4 b) :
    0 ≤ lCmp a b ↔ value limbRadix b ≤ value limbRadix a := cmp_nonneg_iff ha hb

theorem val_lt_256 (x : Fp) : x.val < 256 ^ 32 :=
  x.val_lt.trans (by decide)

theorem coordinate_iff (s : Bytes) :
    ¬ 0 ≤ lCmp (beToLimbs s) p256P ↔ Residue fieldPrime (beToLimbs s) := by
  obtain ⟨hl, -⟩ := beToLimbs_spec s
  rw [lCmp_nonneg_iff hl p256P_isLimbs, value_p256P, not_le]
  exact ⟨fun h => ⟨hl, h⟩, fun h => h.lt⟩

theorem scalar_iff (s : Bytes) : (¬ lIsZero (beToLimbs s) ∧ ¬ 0 ≤ lCmp (beToLimbs s) p256N) ↔
      1 ≤ beNat s 32 ∧ beNat s 32 < groupOrder := by
  obtain ⟨hl, hv⟩ := beToLimbs_spec s
  rw [lIsZero_iff, lCmp_nonneg_iff hl p256N_isLimbs, value_p256N, hv]
  omega

theorem scalar_residue {s : Bytes} (h : beNat s 32 < groupOrder) :
    Residue groupOrder (beToLimbs s) :=
  ⟨(beToLimbs_spec s).1, (beToLimbs_spec s).2.symm ▸ h⟩

theorem scalarInRange_eq_some_iff {k : List Nat} : scalarInRange d = some k ↔
      (1 ≤ beNat d 32 ∧ beNat d 32 < groupOrder) ∧ k = beToLimbs d := by
  rw [← scalar_iff, scalarInRange]
  grind

theorem scalarInRange_eq_none (h : ¬ (1 ≤ beNat d 32 ∧ beNat d 32 < groupOrder)) :
    scalarInRange d = none := by
  rw [eq_none_iff_forall_ne_some]
  intro k hk
  exact h (scalarInRange_eq_some_iff.mp hk).1

theorem subOrder_spec (ha : IsLimbs limbRadix 4 a) : Residue groupOrder (subOrder a) ∧
      value limbRadix (subOrder a) = value limbRadix a % groupOrder := by
  have hlt : value limbRadix a < 2 ^ 256 := ha.value_lt
  have hn : 2 ^ 256 < 2 * groupOrder := by decide
  have hge := lCmp_nonneg_iff ha p256N_isLimbs
  rw [subOrder]
  split_ifs with hcmp
  · have hsub := subB_sub limbRadix_pos ha p256N_isLimbs (hge.mp hcmp)
    rw [hge, value_p256N] at hcmp
    rw [value_p256N] at hsub
    rw [hsub, mod_eq_sub_mod hcmp, mod_eq_of_lt (by omega)]
    exact ⟨⟨(subB_spec limbRadix_pos ha p256N_isLimbs 0).1, by omega⟩, rfl⟩
  · rw [hge, value_p256N] at hcmp
    rw [mod_eq_of_lt (by omega)]
    exact ⟨⟨ha, by omega⟩, rfl⟩

theorem beNat_alignRight {n : Nat} (hn : n ≤ 32) (hl : n ≤ l.length) :
    beNat (alignRight l n) 32 = beVal (l.take n) := by
  have hzero : beNat (alignRight l n) (32 - n) = 0 := by
    have hbytes : ∀ k < 32 - n, alignRight l n k = beByte 0 (32 - n) k := by
      intro k hk
      rw [alignRight, if_pos hk, beByte, leByte, Nat.zero_div]
      rfl
    rw [beNat_beByte hbytes, zero_mod]
  have hsplit := beNat_add (alignRight l n) (32 - n) n
  rw [show 32 - n + n = 32 by omega, hzero, mul_zero, zero_add] at hsplit
  rw [hsplit, ← beNat_getD hl]
  apply beNat_congr
  intro k hk
  rw [alignRight, if_neg (by omega), Nat.add_sub_cancel_left]

theorem value_read {pre l post : List UInt8} (hl : l.length = 32) :
    value limbRadix (beToLimbs fun k => (pre ++ (l ++ post)).getD (pre.length + k) 0) =
      beVal l := by
  rw [(beToLimbs_spec _).2, beVal_eq_beNat, hl]
  apply beNat_congr
  intro k hk
  rw [getD_append_right _ _ _ _ (by omega), Nat.add_sub_cancel_left,
    getD_append _ _ _ _ (by omega)]

theorem origin_not_on_curve : ¬ p256Curve.Nonsingular (0 : Fp) 0 := by
  have hb := cast_ne_of_mod (show value limbRadix p256B % fieldPrime ≠ 0 % fieldPrime by decide)
  rw [nonsingular_iff]
  intro h
  apply hb
  rw [cast_zero]
  change curveB = 0
  linear_combination -h

theorem p256Accept_eq_some_iff (hx : IsLimbs limbRadix 4 x) (hy : IsLimbs limbRadix 4 y) :
    p256Accept x y = some pt ↔
      (value limbRadix x < fieldPrime ∧ value limbRadix y < fieldPrime ∧
        p256Curve.Nonsingular (value limbRadix x : Nat) (value limbRadix y : Nat)) ∧
      pt = ⟨limbsToBe x, limbsToBe y⟩ := by
  have hcmp : (0 ≤ lCmp x p256P ∨ 0 ≤ lCmp y p256P) ↔
      fieldPrime ≤ value limbRadix x ∨ fieldPrime ≤ value limbRadix y := by
    rw [lCmp_nonneg_iff hx p256P_isLimbs, lCmp_nonneg_iff hy p256P_isLimbs, value_p256P]
  by_cases hlt : value limbRadix x < fieldPrime ∧ value limbRadix y < fieldPrime
  swap
  · rw [p256Accept, if_pos (by omega)]
    grind
  have hcurve := onCurve_iff (Stands.enter ⟨hx, hlt.1⟩) (Stands.enter ⟨hy, hlt.2⟩)
  have hzero : (lIsZero x && lIsZero y) →
      ¬ p256Curve.Nonsingular ((value limbRadix x : Nat) : Fp) (value limbRadix y : Nat) := by
    rw [Bool.and_eq_true, lIsZero_iff, lIsZero_iff]
    rintro ⟨h1, h2⟩
    rw [h1, h2, cast_zero]
    exact origin_not_on_curve
  rw [p256Accept, if_neg (by omega)]
  grind

theorem sq_pow_sqrt {w : Fp} (h : w ^ 2 = c) : (c ^ ((fieldPrime + 1) / 4)) ^ 2 = c := by
  subst h
  by_cases hw : w = 0
  · rw [hw]
    simp [zero_pow (show (fieldPrime + 1) / 4 ≠ 0 by decide)]
  rw [← pow_mul, ← pow_mul,
    show 2 * ((fieldPrime + 1) / 4 * 2) = fieldPrime - 1 + 2 by decide, pow_add,
    ZMod.pow_card_sub_one_eq_one hw, one_mul]

theorem headD_and_one (ha : IsLimbs limbRadix 4 a) : a.headD 0 &&& 1 = value limbRadix a % 2 := by
  obtain ⟨x, xs, rfl, -, -⟩ := ha.exists_cons
  have h2 : limbRadix % 2 = 0 := by decide
  rw [headD_cons, and_one_is_mod, value_cons, add_mod, mul_mod, h2]
  simp

theorem p256Decompress_cases {tag : UInt8} {x : List Nat} (hx : IsLimbs limbRadix 4 x) {v c : Fp}
    (hv : v = (value limbRadix x : Nat))
    (hc : c = (v ^ 3 - 3 * v + curveB) ^ ((fieldPrime + 1) / 4)) :
    (value limbRadix x < fieldPrime ∧ c ^ 2 = v ^ 3 - 3 * v + curveB ∧
        ∃ y, p256Decompress tag x = some y ∧ IsLimbs limbRadix 4 y ∧ value limbRadix y =
          if c.val % 2 = tag.toNat % 2 then c.val else fieldPrime - c.val) ∨
      ((fieldPrime ≤ value limbRadix x ∨ c ^ 2 ≠ v ^ 3 - 3 * v + curveB) ∧
        p256Decompress tag x = none) := by
  by_cases hlt : value limbRadix x < fieldPrime
  swap
  · refine .inr ⟨.inl (by omega), ?_⟩
    rw [p256Decompress, if_pos]
    rw [lCmp_nonneg_iff hx p256P_isLimbs, value_p256P]
    omega
  have hcmp : ¬ 0 ≤ lCmp x p256P := by
    rw [lCmp_nonneg_iff hx p256P_isLimbs, value_p256P]
    omega
  have hxm : Stands (m256To x fpCtx) v := (Stands.enter ⟨hx, hlt⟩).congr hv.symm
  have hrhs := curveRhs_stands hxm
  have hcand := (hrhs.exp fpExpSqrt_eq.1).congr (show _ = c by rw [fpExpSqrt_eq.2, hc])
  have hsq := hcand.sqr.eq_iff hrhs
  by_cases hroot : c ^ 2 = v ^ 3 - 3 * v + curveB
  · obtain ⟨hplain, hpv⟩ := hcand.leave
    obtain ⟨hneg, hnv⟩ := fpCtx_ok.toMod.sub_value fpCtx_ok.m hplain
    rw [fpCtx_ok.eq, if_neg (by have := hplain.lt; omega), hpv] at hnv
    have hpar := headD_and_one hplain.limbs
    rw [hpv] at hpar
    have hval : p256Decompress tag x = some (if c.val % 2 ≠ tag.toNat % 2 then
        m256Sub fpCtx.m (m256From (m256Exp (curveRhs (m256To x fpCtx)) fpExpSqrt fpCtx) fpCtx) fpCtx
        else m256From (m256Exp (curveRhs (m256To x fpCtx)) fpExpSqrt fpCtx) fpCtx) := by
      rw [p256Decompress, if_neg hcmp, if_neg (by simpa using hsq.mpr hroot)]
      simp only [hpar, and_one_is_mod]
    refine .inl ⟨hlt, hroot, ?_⟩
    by_cases hbit : c.val % 2 = tag.toNat % 2
    · rw [if_neg (not_not.mpr hbit)] at hval
      exact ⟨_, hval, hplain.limbs, by rw [if_pos hbit, hpv]⟩
    · rw [if_pos hbit] at hval
      exact ⟨_, hval, hneg, by rw [if_neg hbit, hnv]⟩
  · refine .inr ⟨.inr hroot, ?_⟩
    rw [p256Decompress, if_neg hcmp, if_pos (by simpa using mt hsq.mp hroot)]

theorem val_neg_parity (hc : c ≠ 0) : (-c).val = fieldPrime - c.val ∧ (-c).val % 2 ≠ c.val % 2 := by
  have : NeZero c := ⟨hc⟩
  have hneg := ZMod.val_neg_of_ne_zero c
  have hlt := c.val_lt
  have hodd := fieldPrime_odd
  refine ⟨hneg, ?_⟩
  rw [hneg]
  omega

theorem encodes_of_limbs (hx : Residue fieldPrime x) (hy : Residue fieldPrime y)
    (h : p256Curve.Nonsingular (value limbRadix x : Nat) (value limbRadix y : Nat)) :
    (P256Point.mk (limbsToBe x) (limbsToBe y)).Encodes (.some _ _ h) := by
  refine ⟨_, _, h, rfl, ?_⟩
  intro k hk
  rw [ZMod.val_natCast_of_lt hx.lt, ZMod.val_natCast_of_lt hy.lt]
  exact ⟨limbsToBe_eq hx.limbs hk, limbsToBe_eq hy.limbs hk⟩

theorem uncompressed_read {l1 l2 : List UInt8} (h1 : l1.length = 32) (h2 : l2.length = 32) :
    ∃ x y, p256PointFromBytes (0x04 :: (l1 ++ l2)) = p256Accept x y ∧
      (IsLimbs limbRadix 4 x ∧ value limbRadix x = beVal l1) ∧
      IsLimbs limbRadix 4 y ∧ value limbRadix y = beVal l2 := by
  have hx := @value_read [0x04] l1 l2 h1
  have hy := @value_read (0x04 :: l1) l2 [] h2
  rw [append_nil, length_cons, h1] at hy
  refine ⟨_, _, ?_, ⟨(beToLimbs_spec _).1, hx⟩, (beToLimbs_spec _).1, hy⟩
  rw [p256PointFromBytes, if_pos ⟨by simp [h1, h2], rfl⟩]
  rfl

theorem compressed_read {tag : UInt8} (hl : l.length = 32) (htag : tag = 0x02 ∨ tag = 0x03) :
    ∃ x, p256PointFromBytes (tag :: l) = (p256Decompress tag x).bind (p256Accept x) ∧
      IsLimbs limbRadix 4 x ∧ value limbRadix x = beVal l := by
  have hx := @value_read [tag] l [] hl
  rw [append_nil] at hx
  refine ⟨_, ?_, (beToLimbs_spec _).1, hx⟩
  rw [p256PointFromBytes, if_neg (by simp [hl]), if_pos ⟨by simp [hl], htag⟩]
  rfl

theorem beBytes_read (hl : l.length = 32) (hlt : beVal l < fieldPrime) :
    beBytes (((beVal l : Nat) : Fp).val) 32 = l := by
  have hb := beVal_lt l
  rw [hl] at hb
  rw [ZMod.val_natCast_of_lt hlt]
  exact ((eq_beBytes_iff hl hb).mpr rfl).symm

theorem p256PointFromBytes_sound (h : p256PointFromBytes inp = some pt) :
    ∃ P, IsSec1 inp P ∧ pt.Encodes P := by
  by_cases hun : inp.length = 65 ∧ inp.getD 0 0 = 0x04
  · obtain ⟨tag, rest, rfl⟩ := exists_cons_of_length_pos (by omega : 0 < inp.length)
    obtain ⟨hlen, rfl⟩ : rest.length = 64 ∧ tag = 0x04 := by simpa using hun
    obtain ⟨l1, l2, rfl, h1⟩ : ∃ l1 l2, rest = l1 ++ l2 ∧ l1.length = 32 :=
      ⟨rest.take 32, rest.drop 32, (take_append_drop 32 rest).symm, by simp [hlen]⟩
    have h2 : l2.length = 32 := by
      rw [length_append] at hlen
      omega
    obtain ⟨x, y, heq, ⟨hx, hxv⟩, hy, hyv⟩ := uncompressed_read h1 h2
    rw [heq, p256Accept_eq_some_iff hx hy] at h
    obtain ⟨⟨hxlt, hylt, hns⟩, rfl⟩ := h
    refine ⟨.some _ _ hns, ⟨_, _, hns, rfl, .inl ?_⟩, encodes_of_limbs ⟨hx, hxlt⟩ ⟨hy, hylt⟩ hns⟩
    rw [hxv] at hxlt
    rw [hyv] at hylt
    rw [sec1Uncompressed, hxv, hyv, beBytes_read h1 hxlt, beBytes_read h2 hylt]
  by_cases hco : inp.length = 33 ∧ (inp.getD 0 0 = 0x02 ∨ inp.getD 0 0 = 0x03)
  swap
  · rw [p256PointFromBytes, if_neg hun, if_neg hco] at h
    cases h
  obtain ⟨tag, l, rfl⟩ := exists_cons_of_length_pos (by omega : 0 < inp.length)
  obtain ⟨hlen, htag⟩ : l.length = 32 ∧ (tag = 0x02 ∨ tag = 0x03) := by simpa using hco
  obtain ⟨x, heq, hx, hxv⟩ := compressed_read hlen htag
  obtain ⟨v, hv⟩ : ∃ v : Fp, v = (value limbRadix x : Nat) := ⟨_, rfl⟩
  obtain ⟨c, hc⟩ : ∃ c : Fp, c = (v ^ 3 - 3 * v + curveB) ^ ((fieldPrime + 1) / 4) := ⟨_, rfl⟩
  rcases @p256Decompress_cases tag x hx v c hv hc with ⟨hxlt, -, y, hdec, hy, hyv⟩ | ⟨-, hnone⟩
  swap
  · rw [heq, hnone] at h
    cases h
  rw [heq, hdec, bind_some, p256Accept_eq_some_iff hx hy] at h
  obtain ⟨⟨-, hylt, hns⟩, rfl⟩ := h
  refine ⟨.some _ _ hns, ⟨_, _, hns, rfl, .inr ?_⟩, encodes_of_limbs ⟨hx, hxlt⟩ ⟨hy, hylt⟩ hns⟩
  -- a root of the wrong parity is only replaced by its opposite when it is not zero
  have hpar : value limbRadix y % 2 = tag.toNat % 2 := by
    split at hyv
    · rename_i hbit
      rw [hyv, hbit]
    rename_i hbit
    rcases eq_or_ne c 0 with hzero | hne
    · rw [hzero, ZMod.val_zero] at hyv
      omega
    obtain ⟨hneg, hdiff⟩ := val_neg_parity hne
    rw [← hneg] at hyv
    rw [hyv]
    omega
  rw [hxv] at hxlt
  rw [sec1Compressed, hxv, beBytes_read hlen hxlt, ZMod.val_natCast_of_lt hylt, hpar]
  rcases htag with rfl | rfl <;> rfl

theorem p256PointFromBytes_complete (h : IsSec1 inp P) :
    ∃ pt, p256PointFromBytes inp = some pt ∧ pt.Encodes P := by
  obtain ⟨x, y, hns, rfl, henc⟩ := h
  -- limbs with the values of the coordinates make the decoder accept
  have haccept : ∀ {xl yl : List Nat}, IsLimbs limbRadix 4 xl → value limbRadix xl = x.val →
      IsLimbs limbRadix 4 yl → value limbRadix yl = y.val →
      ∃ pt, p256Accept xl yl = some pt ∧ pt.Encodes (.some x y hns) := by
    intro xl yl hxl hxv hyl hyv
    have hrx : Residue fieldPrime xl := ⟨hxl, hxv ▸ x.val_lt⟩
    have hry : Residue fieldPrime yl := ⟨hyl, hyv ▸ y.val_lt⟩
    obtain rfl : ((value limbRadix xl : Nat) : Fp) = x := by rw [hxv, ZMod.natCast_zmod_val]
    obtain rfl : ((value limbRadix yl : Nat) : Fp) = y := by rw [hyv, ZMod.natCast_zmod_val]
    exact ⟨_, (p256Accept_eq_some_iff hxl hyl).mpr ⟨⟨hrx.lt, hry.lt, hns⟩, rfl⟩,
      encodes_of_limbs hrx hry hns⟩
  have hval : ∀ v : Fp, beVal (beBytes v.val 32) = v.val := fun v =>
    (eq_beBytes_iff (length_beBytes _ _) (val_lt_256 v)).mp rfl
  rcases henc with rfl | rfl
  · obtain ⟨xl, yl, heq, ⟨hxl, hxv⟩, hyl, hyv⟩ :=
      uncompressed_read (length_beBytes x.val 32) (length_beBytes y.val 32)
    rw [sec1Uncompressed, heq]
    exact haccept hxl (by rw [hxv, hval]) hyl (by rw [hyv, hval])
  have htag : ∃ tag : UInt8, tag = (if y.val % 2 = 0 then 0x02 else 0x03) ∧
      (tag = 0x02 ∨ tag = 0x03) ∧ tag.toNat % 2 = y.val % 2 := by
    rcases mod_two_eq_zero_or_one y.val with hy0 | hy1
    · exact ⟨0x02, by simp [hy0], .inl rfl, by simp [hy0]⟩
    · exact ⟨0x03, by simp [hy1], .inr rfl, by simp [hy1]⟩
  obtain ⟨tag, hdef, htag, hpar⟩ := htag
  obtain ⟨xl, heq, hxl, hxv⟩ := compressed_read (length_beBytes x.val 32) htag
  rw [hval] at hxv
  have hcx : ((value limbRadix xl : Nat) : Fp) = x := by rw [hxv, ZMod.natCast_zmod_val]
  have hroot := (nonsingular_iff x y).mp hns
  have hsqrt := sq_pow_sqrt hroot
  rcases @p256Decompress_cases tag xl hxl x _ hcx.symm rfl with
    ⟨-, -, yl, hdec, hyl, hyv⟩ | ⟨hfail | hfail, -⟩
  · rw [sec1Compressed, ← hdef, heq, hdec, bind_some]
    refine haccept hxl hxv hyl ?_
    rw [hyv, hpar]
    -- the root the code found is the ordinate or its opposite
    rcases sq_eq_sq_iff_eq_or_eq_neg.mp (hsqrt.trans hroot.symm) with hsame | hopp
    · rw [hsame, if_pos rfl]
    rcases eq_or_ne y 0 with hzero | hne
    · rw [hopp, hzero, neg_zero, if_pos rfl]
    obtain ⟨hneg, hdiff⟩ := val_neg_parity hne
    have hlt := y.val_lt
    rw [hopp, if_neg hdiff, hneg]
    omega
  · have hlt := x.val_lt
    omega
  · exact absurd hsqrt hfail

theorem smul_ne_zero_of_lt (hord : groupOrder • P = 0) (hP : P ≠ 0) {d : Nat} (h1 : 1 ≤ d)
    (hd : d < groupOrder) : d • P ≠ 0 := by
  intro h
  have horder := addOrderOf_eq_prime hord hP
  have hdvd := addOrderOf_dvd_of_nsmul_eq_zero h
  rw [horder] at hdvd
  exact absurd (le_of_dvd (by omega) hdvd) (by omega)

theorem secret_affine (h1 : 1 ≤ beNat d 32) (hd : beNat d 32 < groupOrder) {p : JacL} (hp : p.Rep P)
    (hP : P ≠ 0) (hord : groupOrder • P = 0) : ∃ x y h a, beNat d 32 • P = .some x y h ∧
      jacAffine (jacMulSecret (beToLimbs d) p) = some a ∧ Stands a.1 x ∧ Stands a.2 y := by
  have hrep := jacMulSecret_rep (scalar_residue hd) hp hord
  rw [(beToLimbs_spec d).2] at hrep
  have hne := smul_ne_zero_of_lt hord hP h1 hd
  cases hmul : beNat d 32 • P with
  | zero => exact absurd hmul hne
  | some x y h =>
    rw [hmul] at hrep
    obtain ⟨ax, ay, haff, hx, hy⟩ := jacAffine_rep hrep
    exact ⟨x, y, h, (ax, ay), rfl, haff, hx, hy⟩

theorem generator_ne_zero : generator ≠ 0 := by simp [generator]

theorem Stands.bytes {v : Fp} (h : Stands a v) {k : Nat} (hk : k < 32) :
    limbsToBe (m256From a fpCtx) k = beByte v.val 32 k := by
  obtain ⟨hr, hv⟩ := h.leave
  rw [limbsToBe_eq hr.limbs hk, hv]

theorem p256BaseMul_spec (d : Bytes) :
    ((∃ pt, p256BaseMul d = some pt) ↔ 1 ≤ beNat d 32 ∧ beNat d 32 < groupOrder) ∧
      ∀ pt, p256BaseMul d = some pt → pt.Encodes (beNat d 32 • generator) := by
  by_cases hrange : 1 ≤ beNat d 32 ∧ beNat d 32 < groupOrder
  · obtain ⟨x, y, h, a, hmul, haff, hx, hy⟩ :=
      secret_affine hrange.1 hrange.2 p256G_rep generator_ne_zero generator_order
    have hres : p256BaseMul d =
        some ⟨limbsToBe (m256From a.1 fpCtx), limbsToBe (m256From a.2 fpCtx)⟩ := by
      rw [p256BaseMul, scalarInRange_eq_some_iff.mpr ⟨hrange, rfl⟩, bind_some, haff,
        map_some]
    refine ⟨⟨fun _ => hrange, fun _ => ⟨_, hres⟩⟩, ?_⟩
    intro pt hpt
    rw [hres] at hpt
    cases hpt
    exact ⟨x, y, h, hmul, fun k hk => ⟨hx.bytes hk, hy.bytes hk⟩⟩
  · have hnone : p256BaseMul d = none := by
      rw [p256BaseMul, scalarInRange_eq_none hrange, bind_none]
    rw [hnone]
    simp [hrange]

theorem valid_iff (pt : P256Point) :
    (¬ (0 ≤ lCmp (beToLimbs pt.x) p256P ∨ 0 ≤ lCmp (beToLimbs pt.y) p256P) ∧
      onCurve (m256To (beToLimbs pt.x) fpCtx) (m256To (beToLimbs pt.y) fpCtx)) ↔
      pt.Valid := by
  obtain ⟨-, hxv⟩ := beToLimbs_spec pt.x
  obtain ⟨-, hyv⟩ := beToLimbs_spec pt.y
  rw [not_or, coordinate_iff, coordinate_iff]
  constructor
  · rintro ⟨⟨hx, hy⟩, hon⟩
    have hns := (onCurve_iff (Stands.enter hx) (Stands.enter hy)).mp hon
    rw [hxv, hyv] at hns
    exact ⟨hxv ▸ hx.lt, hyv ▸ hy.lt, hns⟩
  · rintro ⟨hx, hy, hns⟩
    have hrx : Residue fieldPrime (beToLimbs pt.x) := ⟨(beToLimbs_spec pt.x).1, hxv.symm ▸ hx⟩
    have hry : Residue fieldPrime (beToLimbs pt.y) := ⟨(beToLimbs_spec pt.y).1, hyv.symm ▸ hy⟩
    refine ⟨⟨hrx, hry⟩, (onCurve_iff (Stands.enter hrx) (Stands.enter hry)).mpr ?_⟩
    rwa [hxv, hyv]

theorem P256Point.Valid.rep (h : pt.Valid) :
    (JacL.mk (m256To (beToLimbs pt.x) fpCtx) (m256To (beToLimbs pt.y) fpCtx) fpCtx.one).Rep
      h.toPoint := by
  obtain ⟨hxl, hxv⟩ := beToLimbs_spec pt.x
  obtain ⟨hyl, hyv⟩ := beToLimbs_spec pt.y
  have hns : p256Curve.Nonsingular (value limbRadix (beToLimbs pt.x) : Nat)
      (value limbRadix (beToLimbs pt.y) : Nat) := by
    rw [hxv, hyv]
    exact h.curve
  have hrep := load_rep ⟨hxl, hxv.symm ▸ h.x_lt⟩ ⟨hyl, hyv.symm ▸ h.y_lt⟩ hns
  simp only [hxv, hyv] at hrep
  exact hrep

theorem P256Point.Valid.toPoint_ne_zero (h : pt.Valid) : h.toPoint ≠ 0 := by
  simp [toPoint]

theorem p256Ecdh_spec (d : Bytes) (peer : P256Point)
    (hord : ∀ h : peer.Valid, groupOrder • h.toPoint = 0) : ((∃ out, p256Ecdh d peer = some out) ↔
        (1 ≤ beNat d 32 ∧ beNat d 32 < groupOrder) ∧ peer.Valid) ∧
      ∀ out, ∀ hv : peer.Valid, p256Ecdh d peer = some out →
        ∃ x y h, beNat d 32 • hv.toPoint = .some x y h ∧
          ∀ k < 32, out k = beByte x.val 32 k := by
  by_cases hrange : 1 ≤ beNat d 32 ∧ beNat d 32 < groupOrder
  swap
  · have hnone : p256Ecdh d peer = none := by
      rw [p256Ecdh, scalarInRange_eq_none hrange, bind_none]
    rw [hnone]
    simp [hrange]
  by_cases hv : peer.Valid
  swap
  · have hnone : p256Ecdh d peer = none := by
      rw [p256Ecdh, scalarInRange_eq_some_iff.mpr ⟨hrange, rfl⟩, bind_some]
      rw [← valid_iff, not_and_or, not_not] at hv
      dsimp only
      split
      · rfl
      · rename_i hcoord
        rw [if_pos (by simpa using hv.resolve_left hcoord)]
    rw [hnone]
    simp [hv]
  obtain ⟨hcoord, hon⟩ := (valid_iff peer).mpr hv
  obtain ⟨x, y, h, a, hmul, haff, hx, -⟩ :=
    secret_affine hrange.1 hrange.2 hv.rep hv.toPoint_ne_zero (hord hv)
  have hres : p256Ecdh d peer = some (limbsToBe (m256From a.1 fpCtx)) := by
    rw [p256Ecdh, scalarInRange_eq_some_iff.mpr ⟨hrange, rfl⟩, bind_some]
    dsimp only
    rw [if_neg hcoord, if_neg (by simpa using hon), haff, map_some]
  refine ⟨⟨fun _ => ⟨hrange, hv⟩, fun _ => ⟨_, hres⟩⟩, ?_⟩
  intro out _ hout
  rw [hres] at hout
  cases hout
  exact ⟨x, y, h, hmul, fun k hk => hx.bytes hk⟩

/-- Key agreement, key generation and decoding together. The only assumption is on the peer's
point: `n` times it is the point at infinity, as for every point of a group of order `n`. -/
theorem p256_keys_exact (d : Bytes) (peer : P256Point)
    (hord : ∀ h : peer.Valid, groupOrder • h.toPoint = 0) :
    (((∃ out, p256Ecdh d peer = some out) ↔
        (1 ≤ beNat d 32 ∧ beNat d 32 < groupOrder) ∧ peer.Valid) ∧
      ∀ out, ∀ hv : peer.Valid, p256Ecdh d peer = some out →
        ∃ x y h, beNat d 32 • hv.toPoint = .some x y h ∧ ∀ k < 32, out k = beByte x.val 32 k) ∧
    (((∃ pt, p256BaseMul d = some pt) ↔ 1 ≤ beNat d 32 ∧ beNat d 32 < groupOrder) ∧
      ∀ pt, p256BaseMul d = some pt → pt.Encodes (beNat d 32 • generator)) ∧
    ∀ inp : List UInt8,
      (∀ pt, p256PointFromBytes inp = some pt → ∃ P, IsSec1 inp P ∧ pt.Encodes P) ∧
      ∀ P, IsSec1 inp P → ∃ pt, p256PointFromBytes inp = some pt ∧ pt.Encodes P :=
  ⟨p256Ecdh_spec d peer hord, p256BaseMul_spec d, fun _ =>
    ⟨fun _ => p256PointFromBytes_sound, fun _ => p256PointFromBytes_complete⟩⟩

def basePoint : P256Point := ⟨limbsToBe p256Gx, limbsToBe p256Gy⟩

theorem basePoint_valid : ∃ h : basePoint.Valid, h.toPoint = generator := by
  have hx : beNat basePoint.x 32 = value limbRadix p256Gx := by decide +kernel
  have hy : beNat basePoint.y 32 = value limbRadix p256Gy := by decide +kernel
  refine ⟨⟨by rw [hx]; decide, by rw [hy]; decide, by rw [hx, hy]; exact generator_nonsingular⟩, ?_⟩
  simp only [P256Point.Valid.toPoint, generator, generatorX, generatorY, hx, hy]

theorem p256_keys_exact_basePoint :
    (∀ h : basePoint.Valid, groupOrder • h.toPoint = 0) ∧
      ((∃ out, p256Ecdh (fun _ => 1) basePoint = some out) ↔
        (1 ≤ beNat (fun _ => 1) 32 ∧ beNat (fun _ => 1) 32 < groupOrder) ∧ basePoint.Valid) := by
  have hord : ∀ h : basePoint.Valid, groupOrder • h.toPoint = 0 := by
    obtain ⟨_, heq⟩ := basePoint_valid
    intro _
    rw [heq, generator_order]
  exact ⟨hord, (p256_keys_exact (fun _ => 1) basePoint hord).1.1⟩

theorem P256Point.Encodes.valid (h : pt.Encodes P) : ∃ hv : pt.Valid, hv.toPoint = P := by
  obtain ⟨x, y, hns, rfl, hbytes⟩ := h
  have hx : beNat pt.x 32 = x.val := by
    rw [beNat_beByte fun k hk => (hbytes k hk).1, Nat.mod_eq_of_lt (val_lt_256 x)]
  have hy : beNat pt.y 32 = y.val := by
    rw [beNat_beByte fun k hk => (hbytes k hk).2, Nat.mod_eq_of_lt (val_lt_256 y)]
  have hcx : ((beNat pt.x 32 : Nat) : Fp) = x := by rw [hx, ZMod.natCast_zmod_val]
  have hcy : ((beNat pt.y 32 : Nat) : Fp) = y := by rw [hy, ZMod.natCast_zmod_val]
  have hv : pt.Valid := ⟨hx ▸ x.val_lt, hy ▸ y.val_lt, by rwa [hcx, hcy]⟩
  refine ⟨hv, ?_⟩
  simp only [P256Point.Valid.toPoint, hcx, hcy]

def p256PointToBytes (pt : P256Point) : List UInt8 :=
  0x04 :: ((range 32).map pt.x ++ (range 32).map pt.y)

theorem P256Point.Encodes.isSec1 (h : pt.Encodes P) : IsSec1 (p256PointToBytes pt) P := by
  obtain ⟨x, y, hns, rfl, hb⟩ := h
  refine ⟨x, y, hns, rfl, Or.inl ?_⟩
  simp only [p256PointToBytes, sec1Uncompressed, beBytes]
  rw [map_congr_left fun k hk => (hb k (mem_range.mp hk)).1,
    map_congr_left fun k hk => (hb k (mem_range.mp hk)).2]

/-- Against the public key of `e` as it is sent, `d` gives the abscissa of `d • e • generator`. -/
theorem p256_shared {e : Bytes} {A : P256Point} (hd : p256BaseMul d = some A)
    (he : p256BaseMul e = some pt) :
    ∃ s, (p256PointFromBytes (p256PointToBytes pt)).bind (p256Ecdh d) = some s ∧
      ∃ x y h, beNat d 32 • beNat e 32 • generator = .some x y h ∧
        ∀ k < 32, s k = beByte x.val 32 k := by
  have hrange := (p256BaseMul_spec d).1.mp ⟨A, hd⟩
  obtain ⟨peer, hpeer, henc⟩ :=
    p256PointFromBytes_complete ((p256BaseMul_spec e).2 pt he).isSec1
  obtain ⟨hv, hpt⟩ := henc.valid
  obtain ⟨hsome, hx⟩ := p256Ecdh_spec d peer fun _ => by
    rw [hpt, smul_comm, generator_order, nsmul_zero]
  obtain ⟨s, hs⟩ := hsome.mpr ⟨hrange, hv⟩
  refine ⟨s, by rw [hpeer, bind_some, hs], ?_⟩
  rw [← hpt]
  exact hx s hv hs

/-- The two ends of a key exchange, each with the public key the other sent, agree. -/
theorem p256_key_agreement (a b : Bytes) {A B : P256Point} (ha : p256BaseMul a = some A)
    (hb : p256BaseMul b = some B) :
    ∃ s s', (p256PointFromBytes (p256PointToBytes B)).bind (p256Ecdh a) = some s ∧
      (p256PointFromBytes (p256PointToBytes A)).bind (p256Ecdh b) = some s' ∧
      ∀ k < 32, s k = s' k := by
  obtain ⟨s, hs, x, y, h, hx, hbytes⟩ := p256_shared ha hb
  obtain ⟨s', hs', x', y', h', hx', hbytes'⟩ := p256_shared hb ha
  rw [smul_comm, hx'] at hx
  cases hx
  exact ⟨s, s', hs, hs', fun k hk => (hbytes k hk).trans (hbytes' k hk).symm⟩

theorem p256_key_agreement_ones : ∃ A B, p256BaseMul (fun _ => 1) = some A ∧
    p256BaseMul (fun _ => 2) = some B ∧ ∃ s s',
      (p256PointFromBytes (p256PointToBytes B)).bind (p256Ecdh fun _ => 1) = some s ∧
      (p256PointFromBytes (p256PointToBytes A)).bind (p256Ecdh fun _ => 2) = some s' ∧
      ∀ k < 32, s k = s' k := by
  obtain ⟨A, hA⟩ := (p256BaseMul_spec fun _ => 1).1.mpr (by decide +kernel)
  obtain ⟨B, hB⟩ := (p256BaseMul_spec fun _ => 2).1.mpr (by decide +kernel)
  exact ⟨A, B, hA, hB, p256_key_agreement _ _ hA hB⟩

theorem quotient_spec {s : List Nat} (ha : Residue groupOrder a) (hs : Residue groupOrder s)
    (hne : value limbRadix s ≠ 0) : IsLimbs limbRadix 4 (m256From (m256Mul (m256To a fnCtx)
        (m256Exp (m256To s fnCtx) fnExpInv fnCtx) fnCtx) fnCtx) ∧
      value limbRadix (m256From (m256Mul (m256To a fnCtx)
        (m256Exp (m256To s fnCtx) fnExpInv fnCtx) fnCtx) fnCtx) =
        ((value limbRadix a : Fn) / (value limbRadix s : Fn)).val := by
  obtain ⟨hsm, hsv⟩ := fnCtx_ok.enter hs
  obtain ⟨hwr, hwv⟩ := fnCtx_ok.exp hsm fnExpInv_eq.1
  obtain ⟨ham, hav⟩ := fnCtx_ok.enter ha
  obtain ⟨hur, huv⟩ := fnCtx_ok.toMod.mul ham hwr
  obtain ⟨hr, hv⟩ := fnCtx_ok.toMod.leave hur
  have hs0 : (value limbRadix s : Fn) ≠ 0 := by
    rw [Ne, ZMod.natCast_eq_zero_iff]
    intro hdvd
    exact absurd (le_of_dvd (by omega) hdvd) (by have := hs.lt; omega)
  have hinv : (value limbRadix s : Fn) ^ (groupOrder - 2) = (value limbRadix s : Fn)⁻¹ := by
    apply eq_inv_of_mul_eq_one_left
    rw [← pow_succ, show groupOrder - 2 + 1 = groupOrder - 1 by decide]
    exact ZMod.pow_card_sub_one_eq_one hs0
  refine ⟨hr.limbs, ?_⟩
  rw [hv, huv, hwv, hav, hsv, fnExpInv_eq.2, hinv, div_eq_mul_inv]

theorem ecdsa_compare {res : JacL} {R : p256Curve.Point} (hres : res.Rep R) {rl : List Nat}
    (hr : Residue groupOrder rl) : (if jacIsInf res then 0 else
      match jacAffine res with
      | none => 0
      | some a => if lEq (subOrder (m256From a.1 fpCtx)) rl then 1 else 0) = 1 ↔
      ∃ x y h, R = .some x y h ∧ x.val ≡ value limbRadix rl [MOD groupOrder] := by
  have hinf := jacIsInf_rep hres
  cases R with
  | zero => simp [hinf.mpr rfl]
  | some x y h =>
    obtain ⟨ax, ay, haff, hx, -⟩ := jacAffine_rep hres
    obtain ⟨hfr, hfv⟩ := hx.leave
    obtain ⟨hsr, hsv⟩ := subOrder_spec hfr.limbs
    have hcmp : lEq (subOrder (m256From ax fpCtx)) rl ↔
        x.val ≡ value limbRadix rl [MOD groupOrder] := by
      rw [lEq_iff hsr.limbs hr.limbs, Nat.ModEq, mod_eq_of_lt hr.lt, ← hfv, ← hsv]
      exact ⟨fun heq => by rw [heq], fun heq => hsr.limbs.eq_of_value (by decide) hr.limbs heq⟩
    rw [if_neg (mt hinf.mp (by simp)), haff]
    simp [hcmp, h]

/-- Section 4.1.4 of SEC 1, for a public key `P`. -/
def EcdsaValid (P : p256Curve.Point) (digest : List UInt8) (r s : Nat) : Prop :=
  (1 ≤ r ∧ r < groupOrder) ∧ (1 ≤ s ∧ s < groupOrder) ∧ ∃ x y h,
    ((beVal (digest.take 32) : Fn) / (s : Fn)).val • generator + ((r : Fn) / (s : Fn)).val • P =
      .some x y h ∧ x.val ≡ r [MOD groupOrder]

theorem p256EcdsaVerify_eq_one_iff (pub : P256Point) (digest r s : List UInt8) (hd : digest ≠ [])
    (hr : 1 ≤ r.length ∧ r.length ≤ 32) (hs : 1 ≤ s.length ∧ s.length ≤ 32) :
    p256EcdsaVerify pub digest r s = 1 ↔
      ∃ hv : pub.Valid, EcdsaValid hv.toPoint digest (beVal r) (beVal s) := by
  have hd' : digest.length ≠ 0 := mt length_eq_zero_iff.mp hd
  have hrn : beNat (alignRight r r.length) 32 = beVal r := by
    rw [beNat_alignRight hr.2 le_rfl, take_length]
  have hsn : beNat (alignRight s s.length) 32 = beVal s := by
    rw [beNat_alignRight hs.2 le_rfl, take_length]
  have hen : ∀ take, take = (if digest.length < 32 then digest.length else 32) →
      beNat (alignRight digest take) 32 = beVal (digest.take 32) := by
    rintro take rfl
    split
    · rw [beNat_alignRight (by omega) le_rfl, take_length, take_of_length_le (by omega)]
    · rw [beNat_alignRight le_rfl (by omega)]
  have hrange := scalar_iff (alignRight r r.length)
  have hsange := scalar_iff (alignRight s s.length)
  rw [← not_or, hrn] at hrange
  rw [← not_or, hsn] at hsange
  rw [p256EcdsaVerify, if_neg (by omega), if_neg hd']
  dsimp only
  by_cases h1 : 1 ≤ beVal r ∧ beVal r < groupOrder
  swap
  · rw [if_pos (not_not.mp (mt hrange.mp h1))]
    simp [EcdsaValid, h1]
  by_cases h2 : 1 ≤ beVal s ∧ beVal s < groupOrder
  swap
  · rw [if_neg (hrange.mpr h1), if_pos (not_not.mp (mt hsange.mp h2))]
    simp [EcdsaValid, h2]
  rw [if_neg (hrange.mpr h1), if_neg (hsange.mpr h2)]
  by_cases hv : pub.Valid
  swap
  · have hbad := hv
    rw [← valid_iff, not_and_or, not_not] at hbad
    refine iff_of_false ?_ fun h => hv h.1
    split
    · simp
    rename_i hcoord
    rw [if_pos (by simpa using hbad.resolve_left hcoord)]
    simp
  have hchecks := (valid_iff pub).mpr hv
  have hrr := scalar_residue (hrn ▸ h1.2 : beNat (alignRight r r.length) 32 < groupOrder)
  have hsr := scalar_residue (hsn ▸ h2.2 : beNat (alignRight s s.length) 32 < groupOrder)
  have hrv := (beToLimbs_spec (alignRight r r.length)).2.trans hrn
  have hsv := (beToLimbs_spec (alignRight s s.length)).2.trans hsn
  have he := subOrder_spec (beToLimbs_spec (alignRight digest
    (if digest.length < 32 then digest.length else 32))).1
  have hev := he.2
  rw [(beToLimbs_spec _).2, hen _ rfl] at hev
  have hu1 := quotient_spec he.1 hsr (by omega)
  have hu2 := quotient_spec hrr hsr (by omega)
  have hrep := jacMul2Public_rep hu1.1 hu2.1 hv.rep
  rw [hu1.2, hu2.2, hev, hsv, hrv, ZMod.natCast_mod] at hrep
  rw [if_neg hchecks.1, if_neg (by simpa using hchecks.2), ecdsa_compare hrep hrr, hrv]
  constructor
  · intro h
    exact ⟨hv, h1, h2, h⟩
  · rintro ⟨_, -, -, h⟩
    exact h

theorem p256_ecdsa_verify_exact (pub : P256Point) (digest r s : List UInt8) (hd : digest ≠ [])
    (hr : 1 ≤ r.length ∧ r.length ≤ 32) (hs : 1 ≤ s.length ∧ s.length ≤ 32) :
    p256EcdsaVerify pub digest r s = 1 ↔
      (1 ≤ beVal r ∧ beVal r < groupOrder) ∧ (1 ≤ beVal s ∧ beVal s < groupOrder) ∧
      ∃ hv : pub.Valid, ∃ x y h,
        ((beVal (digest.take 32) : Fn) / (beVal s : Fn)).val • generator +
          ((beVal r : Fn) / (beVal s : Fn)).val • hv.toPoint = .some x y h ∧
        x.val ≡ beVal r [MOD groupOrder] := by
  rw [p256EcdsaVerify_eq_one_iff pub digest r s hd hr hs]
  exact ⟨fun ⟨hv, h1, h2, h⟩ => ⟨h1, h2, hv, h⟩, fun ⟨h1, h2, hv, h⟩ => ⟨hv, h1, h2, h⟩⟩

/-- The key 1 signs the digest 1 with the nonce 1: `r` is the abscissa of the base point and `s` is
`r + 1`. -/
theorem p256_ecdsa_verify_exact_basePoint :
    p256EcdsaVerify basePoint [1] (beBytes (value limbRadix p256Gx) 32)
      (beBytes (value limbRadix p256Gx + 1) 32) = 1 := by
  have hr : beVal (beBytes (value limbRadix p256Gx) 32) = value limbRadix p256Gx :=
    (eq_beBytes_iff (length_beBytes _ _) (by decide)).mp rfl
  have hs : beVal (beBytes (value limbRadix p256Gx + 1) 32) = value limbRadix p256Gx + 1 :=
    (eq_beBytes_iff (length_beBytes _ _) (by decide)).mp rfl
  have hone : beVal (take 32 [1]) = 1 := by decide
  obtain ⟨hv, hpt⟩ := basePoint_valid
  refine (p256_ecdsa_verify_exact basePoint [1] _ _ (by decide) (by simp) (by simp)).mpr ?_
  rw [hr, hs, hone]
  refine ⟨by decide, by decide, hv, generatorX, generatorY, generator_nonsingular, ?_, ?_⟩
  · -- the two quotients add up to 1 modulo the order of the base point
    have hne : ((value limbRadix p256Gx + 1 : Nat) : Fn) ≠ 0 := by
      rw [Ne, ZMod.natCast_eq_zero_iff]
      decide
    generalize hu : ((1 : Nat) : Fn) / ((value limbRadix p256Gx + 1 : Nat) : Fn) = u
    generalize hw : ((value limbRadix p256Gx : Nat) : Fn) /
      ((value limbRadix p256Gx + 1 : Nat) : Fn) = w
    have hsum : ((u.val + w.val : Nat) : Fn) = ((1 : Nat) : Fn) := by
      rw [cast_add, ZMod.natCast_zmod_val, ZMod.natCast_zmod_val, ← hu, ← hw, ← add_div,
        ← cast_add, add_comm 1, div_self hne, cast_one]
    rw [hpt, ← add_nsmul]
    have hmod : u.val + w.val ≡ 1 [MOD addOrderOf generator] := by
      rw [addOrderOf_eq_prime generator_order generator_ne_zero]
      exact (ZMod.natCast_eq_natCast_iff _ _ _).mp hsum
    rw [nsmul_eq_nsmul_iff_modEq.mpr hmod, one_nsmul]
    rfl
  · rw [generatorX, ZMod.val_natCast_of_lt (by decide)]

end KestrelOS.Tls
