import KestrelOS.Lib.Montgomery
import Mathlib.Data.Nat.Bitwise
import Mathlib.Data.ZMod.Units

/-!
# 256-bit Montgomery arithmetic

Four 64-bit limbs modulo an odd number with its top bit set, in Montgomery form: the limbs hold `x
* 2 ^ 256` modulo `N`, and `mres` is `x`. Every operation returns limbs below the modulus, so the
limb-wise tests for zero and for equality are exact.
-/

namespace KestrelOS.Tls

open Limbs List Nat Function

def limbRadix : Nat := 2 ^ 64

structure M256 where
  m : List Nat
  one : List Nat
  rr : List Nat
  n0 : Nat

def lZero : List Nat := [0, 0, 0, 0]

def lIsZero (a : List Nat) : Bool := a.foldl (· ||| ·) 0 == 0

def lEq (a b : List Nat) : Bool := (List.zipWith (· ^^^ ·) a b).foldl (· ||| ·) 0 == 0

def lCmp (a b : List Nat) : Int := cmp a b

def maskSelect (mask : Nat) (a b : List Nat) : List Nat :=
  List.zipWith (fun x y => x &&& (2 ^ 64 - 1 - mask) ||| y &&& mask) a b

def maskOf (bit : Nat) : Nat := (2 ^ 64 - bit) % 2 ^ 64

def lSelect (a b : List Nat) (bit : Nat) : List Nat := maskSelect (maskOf bit) a b

/-- The masked subtraction that ends `m256_add` and `m256_mul`: `m` is taken off when the number
carried into `top` or is not below `m`. -/
def condSub (t : List Nat) (top : Nat) (m : List Nat) : List Nat :=
  let d := subB limbRadix t m 0
  maskSelect (maskOf (if top ||| (d.2 + 1).toNat ≠ 0 then 1 else 0)) t d.1

def m256Add (a b : List Nat) (mt : M256) : List Nat :=
  let t := addC limbRadix a b 0
  condSub t.1 t.2 mt.m

def m256Sub (a b : List Nat) (mt : M256) : List Nat :=
  let t := subB limbRadix a b 0
  let mask := maskOf (if t.2 ≠ 0 then 1 else 0)
  (addC limbRadix t.1 (mt.m.map (· &&& mask)) 0).1

def m256Mul (a b : List Nat) (mt : M256) : List Nat :=
  let t := cios limbRadix mt.m mt.n0 a b
  condSub t.1 t.2 mt.m

def m256Sqr (a : List Nat) (mt : M256) : List Nat := m256Mul a a mt

def m256To (a : List Nat) (mt : M256) : List Nat := m256Mul a mt.rr mt

def m256From (a : List Nat) (mt : M256) : List Nat := m256Mul a [1, 0, 0, 0] mt

def limbBit (e : List Nat) (i : Nat) : Nat := e.getD (i / 64) 0 >>> (i % 64) &&& 1

/-- The loop of `m256_exp` from bit `n - 1` down to bit 0. -/
def expLoop (a e : List Nat) (mt : M256) : Nat → List Nat → List Nat
  | 0, acc => acc
  | i + 1, acc =>
    let acc := m256Sqr acc mt
    expLoop a e mt i (if limbBit e i ≠ 0 then m256Mul acc a mt else acc)

def m256Exp (a e : List Nat) (mt : M256) : List Nat := expLoop a e mt 256 mt.one

def m256Init (m : List Nat) : M256 :=
  let one := (addC limbRadix (m.map (2 ^ 64 - 1 - ·)) [1, 0, 0, 0] 0).1
  let mt : M256 := ⟨m, one, one, montN0 (m.headD 0)⟩
  { mt with rr := (fun rr => m256Add rr rr mt)^[256] one }

theorem limbRadix_pos : 0 < limbRadix := by decide

theorem limbRadix_pow (k : Nat) : limbRadix ^ k = 2 ^ (64 * k) := (pow_mul 2 64 k).symm

theorem one_lt_limbRadix : 1 < limbRadix := by decide

theorem foldl_or_zero_iff (l : List Nat) (x : Nat) :
    l.foldl (· ||| ·) x = 0 ↔ x = 0 ∧ ∀ y ∈ l, y = 0 := by
  induction l generalizing x with
  | nil => simp
  | cons y l ih => rw [foldl_cons, ih, or_eq_zero_iff, forall_mem_cons, and_assoc]

theorem lIsZero_iff (a : List Nat) : lIsZero a ↔ value limbRadix a = 0 := by
  rw [lIsZero, beq_iff_eq, foldl_or_zero_iff, value_eq_zero_iff limbRadix_pos]
  simp

variable {a b : List Nat} {k : Nat}

theorem lEq_iff (ha : IsLimbs limbRadix k a) (hb : IsLimbs limbRadix k b) : lEq a b ↔ a = b := by
  rw [lEq, beq_iff_eq, foldl_or_zero_iff]
  simp only [true_and]
  induction k generalizing a b with
  | zero => simp [ha.eq_nil, hb.eq_nil]
  | succ k ih =>
    obtain ⟨x, xs, rfl, -, hxs⟩ := ha.exists_cons
    obtain ⟨y, ys, rfl, -, hys⟩ := hb.exists_cons
    rw [zipWith_cons_cons, forall_mem_cons, ih hxs hys, xor_eq_zero_iff,
      cons.injEq]

theorem maskOf_zero : maskOf 0 = 0 := by decide

theorem maskOf_one : maskOf 1 = 2 ^ 64 - 1 := by decide

theorem and_ones {x : Nat} (hx : x < limbRadix) : x &&& (2 ^ 64 - 1) = x := by
  rw [and_two_pow_sub_one_eq_mod]
  exact mod_eq_of_lt hx

theorem maskSelect_zero (ha : IsLimbs limbRadix k a) (hb : IsLimbs limbRadix k b) :
    maskSelect (maskOf 0) a b = a := by
  rw [maskOf_zero]
  induction k generalizing a b with
  | zero => rw [ha.eq_nil, maskSelect, zipWith_nil_left]
  | succ k ih =>
    obtain ⟨x, xs, rfl, hx, hxs⟩ := ha.exists_cons
    obtain ⟨y, ys, rfl, -, hys⟩ := hb.exists_cons
    have hrest := ih hxs hys
    simp only [maskSelect, zipWith_cons_cons, Nat.sub_zero, and_ones hx, and_zero,
      or_zero] at hrest ⊢
    rw [hrest]

theorem maskSelect_one (ha : IsLimbs limbRadix k a) (hb : IsLimbs limbRadix k b) :
    maskSelect (maskOf 1) a b = b := by
  rw [maskOf_one]
  induction k generalizing a b with
  | zero => rw [hb.eq_nil, maskSelect, zipWith_nil_right]
  | succ k ih =>
    obtain ⟨x, xs, rfl, -, hxs⟩ := ha.exists_cons
    obtain ⟨y, ys, rfl, hy, hys⟩ := hb.exists_cons
    have hrest := ih hxs hys
    simp only [maskSelect, zipWith_cons_cons, Nat.sub_self, and_ones hy, and_zero,
      zero_or] at hrest ⊢
    rw [hrest]

theorem map_and_maskOf (ha : IsLimbs limbRadix k a) : a.map (· &&& maskOf 1) = a := by
  rw [maskOf_one]
  conv_rhs => rw [← map_id a]
  apply map_congr_left
  intro x hx
  exact and_ones (ha.lt x hx)

variable {m : List Nat}

theorem condSub_spec {t : List Nat} {top : Nat} (ht : IsLimbs limbRadix 4 t)
    (hm : IsLimbs limbRadix 4 m)
    (hlt : value limbRadix t + limbRadix ^ 4 * top < 2 * value limbRadix m) :
    IsLimbs limbRadix 4 (condSub t top m) ∧
      value limbRadix (condSub t top m) =
        (value limbRadix t + limbRadix ^ 4 * top) % value limbRadix m := by
  have hd := (subB_spec limbRadix_pos ht hm 0).1
  have hbor := subB_borrow limbRadix_pos ht hm
  have hred (hge : top ≠ 0 ∨ _) := subB_reduce limbRadix_pos ht hm hge hlt
  simp only [condSub]
  generalize (subB limbRadix t m 0).1 = d at *
  generalize (subB limbRadix t m 0).2 = w at *
  by_cases hkeep : value limbRadix t < value limbRadix m ∧ top = 0
  · obtain ⟨hsmall, rfl⟩ := hkeep
    rw [if_pos hsmall] at hbor
    rw [hbor, if_neg (by simp), maskSelect_zero ht hd]
    refine ⟨ht, ?_⟩
    rw [mul_zero, add_zero, mod_eq_of_lt hsmall]
  · have hmask : top ||| (w + 1).toNat ≠ 0 := by
      rw [Ne, or_eq_zero_iff]
      rintro ⟨rfl, hw⟩
      rw [hbor] at hw
      split at hw
      · exact hkeep ⟨by assumption, rfl⟩
      · simp at hw
    rw [if_pos hmask, maskSelect_one ht hd]
    refine ⟨hd, ?_⟩
    have hdiff := hred (by rw [not_and_or, not_lt] at hkeep; exact hkeep.symm)
    rw [← hdiff, add_mod_right, mod_eq_of_lt (by omega)]

structure Residue (N : Nat) (a : List Nat) : Prop where
  limbs : IsLimbs limbRadix 4 a
  lt : value limbRadix a < N

/-- What limbs in Montgomery form stand for. -/
def mres (N : Nat) (a : List Nat) : ZMod N :=
  (value limbRadix a : ZMod N) * ((2 ^ 256 : Nat) : ZMod N)⁻¹

structure M256.Mod (mt : M256) (N : Nat) : Prop where
  m : IsLimbs limbRadix 4 mt.m
  eq : value limbRadix mt.m = N
  odd : N % 2 = 1
  n0 : (mt.m.headD 0 * mt.n0 + 1) % limbRadix = 0

/-- What `m256_init` sets up for the modulus `N`. -/
structure M256.Ok (mt : M256) (N : Nat) : Prop extends mt.Mod N where
  one : Residue N mt.one
  rr : Residue N mt.rr
  mres_one : mres N mt.one = 1
  mres_rr : mres N mt.rr = ((2 ^ 256 : Nat) : ZMod N)

variable {N : Nat} {mt : M256} {a b : List Nat}

theorem mul_inv_radix (hN : N % 2 = 1) :
    ((2 ^ 256 : Nat) : ZMod N) * ((2 ^ 256 : Nat) : ZMod N)⁻¹ = 1 := by
  apply ZMod.coe_mul_inv_eq_one
  exact Nat.Coprime.pow_left 256 ((coprime_two_left).mpr (odd_iff.mpr hN))

theorem value_eq_mres (hN : N % 2 = 1) (a : List Nat) :
    (value limbRadix a : ZMod N) = mres N a * ((2 ^ 256 : Nat) : ZMod N) := by
  rw [mres]
  linear_combination -(value limbRadix a : ZMod N) * mul_inv_radix hN

theorem Residue.eq_of_mres (hN : N % 2 = 1) (ha : Residue N a) (hb : Residue N b)
    (h : mres N a = mres N b) : a = b := by
  apply ha.limbs.eq_of_value (by decide) hb.limbs
  have hcast : (value limbRadix a : ZMod N) = (value limbRadix b : ZMod N) := by
    rw [value_eq_mres hN, value_eq_mres hN, h]
  rw [ZMod.natCast_eq_natCast_iff'] at hcast
  rwa [mod_eq_of_lt ha.lt, mod_eq_of_lt hb.lt] at hcast

theorem Residue.eq_iff (hN : N % 2 = 1) (ha : Residue N a) (hb : Residue N b) :
    lEq a b ↔ mres N a = mres N b := by
  rw [lEq_iff ha.limbs hb.limbs]
  exact ⟨fun h => by rw [h], ha.eq_of_mres hN hb⟩

theorem lZero_residue (hN : 0 < N) : Residue N lZero :=
  ⟨.replicate_zero limbRadix_pos 4, by simpa [lZero, value_cons] using hN⟩

@[simp] theorem mres_lZero (N : Nat) : mres N lZero = 0 := by
  simp [mres, lZero, value_cons]

theorem Residue.isZero_iff (hN : N % 2 = 1) (ha : Residue N a) : lIsZero a ↔ mres N a = 0 := by
  have hz := lZero_residue (by have := ha.lt; omega : 0 < N)
  rw [lIsZero_iff, ← mres_lZero N]
  constructor
  · intro h
    rw [ha.limbs.eq_of_value (by decide) hz.limbs (by rw [h]; rfl)]
  intro h
  rw [ha.eq_of_mres hN hz h]
  rfl

namespace M256.Mod

theorem pos (h : mt.Mod N) : 0 < N := by
  have := h.odd
  omega

theorem radix : limbRadix ^ 4 = 2 ^ 256 := by
  decide

theorem add (h : mt.Mod N) (ha : Residue N a) (hb : Residue N b) :
    Residue N (m256Add a b mt) ∧ mres N (m256Add a b mt) = mres N a + mres N b := by
  obtain ⟨hsum, hval⟩ := addC_spec limbRadix_pos ha.limbs hb.limbs 0
  have hlt : value limbRadix (addC limbRadix a b 0).1 +
      limbRadix ^ 4 * (addC limbRadix a b 0).2 < 2 * value limbRadix mt.m := by
    have h1 := ha.lt
    have h2 := hb.lt
    rw [hval, h.eq]
    omega
  obtain ⟨hlimbs, hred⟩ := condSub_spec hsum h.m hlt
  rw [h.eq, hval, add_zero] at hred
  refine ⟨⟨hlimbs, hred ▸ mod_lt _ h.pos⟩, ?_⟩
  rw [mres, m256Add, hred, ZMod.natCast_mod, cast_add, add_mul]
  rfl

theorem sub_value (h : mt.Mod N) (ha : IsLimbs limbRadix 4 a) (hb : Residue N b) :
    IsLimbs limbRadix 4 (m256Sub a b mt) ∧ value limbRadix (m256Sub a b mt) =
      if value limbRadix a < value limbRadix b then value limbRadix a + N - value limbRadix b
      else value limbRadix a - value limbRadix b := by
  obtain ⟨hd, hval⟩ := subB_spec limbRadix_pos ha hb.limbs 0
  have hbor := subB_borrow limbRadix_pos ha hb.limbs
  have hNlt : N < limbRadix ^ 4 := h.eq ▸ h.m.value_lt
  have hblt := hb.lt
  have hzero : IsLimbs limbRadix 4 (mt.m.map (· &&& maskOf 0)) ∧
      value limbRadix (mt.m.map (· &&& maskOf 0)) = 0 := by
    have hrep : mt.m.map (· &&& maskOf 0) = replicate 4 0 := by
      simp [maskOf_zero, ← h.m.length]
    rw [hrep]
    exact ⟨.replicate_zero limbRadix_pos 4, rfl⟩
  simp only [m256Sub]
  generalize (subB limbRadix a b 0).1 = d at *
  generalize (subB limbRadix a b 0).2 = w at *
  split at hbor
  · rename_i hlt
    rw [hbor, if_pos (by decide), map_and_maskOf h.m, if_pos hlt]
    rw [hbor] at hval
    refine ⟨(addC_spec limbRadix_pos hd h.m 0).1, ?_⟩
    -- the carry out of the addition cancels the borrow
    have hsum : value limbRadix d + N =
        value limbRadix a + N - value limbRadix b + limbRadix ^ 4 := by
      zify [(by omega : value limbRadix b ≤ value limbRadix a + N)]
      linarith
    rw [addC_mod limbRadix_pos hd h.m, h.eq, hsum, add_mod_right, mod_eq_of_lt (by omega)]
  · rename_i hge
    rw [hbor, if_neg (by decide), if_neg hge]
    rw [hbor] at hval
    refine ⟨(addC_spec limbRadix_pos hd hzero.1 0).1, ?_⟩
    rw [addC_mod limbRadix_pos hd hzero.1, hzero.2, add_zero, mod_eq_of_lt hd.value_lt]
    omega

section
variable (h : mt.Mod N) (ha : Residue N a)
include h ha

theorem sub (hb : Residue N b) :
    Residue N (m256Sub a b mt) ∧ mres N (m256Sub a b mt) = mres N a - mres N b := by
  obtain ⟨hlimbs, hval⟩ := h.sub_value ha.limbs hb
  have h1 := ha.lt
  have h2 := hb.lt
  refine ⟨⟨hlimbs, ?_⟩, ?_⟩
  · rw [hval]
    split <;> omega
  have hcast : (value limbRadix (m256Sub a b mt) : ZMod N) =
      value limbRadix a - value limbRadix b := by
    rw [hval]
    split
    · rw [cast_sub (by omega), cast_add, ZMod.natCast_self, add_zero]
    · rw [cast_sub (by omega)]
  rw [mres, hcast, sub_mul]
  rfl

theorem mul_value (hb : IsLimbs limbRadix 4 b) : Residue N (m256Mul a b mt) ∧
      (value limbRadix (m256Mul a b mt) : ZMod N) * ((2 ^ 256 : Nat) : ZMod N) =
        value limbRadix a * value limbRadix b := by
  obtain ⟨hlimbs, hacc, mu, hmu⟩ := cios_spec one_lt_limbRadix h.m ha.limbs
    (by rw [h.eq]; exact ha.lt) h.n0 hb
  obtain ⟨hres, hred⟩ := condSub_spec hlimbs h.m hacc
  refine ⟨⟨hres, ?_⟩, ?_⟩
  · rw [m256Mul, hred, h.eq]
    exact mod_lt _ h.pos
  rw [m256Mul, hred, h.eq, ZMod.natCast_mod]
  have hcast := congrArg (Nat.cast : Nat → ZMod N) hmu
  rw [h.eq, radix, accValue] at hcast
  push_cast at hcast ⊢
  rw [ZMod.natCast_self, mul_zero, add_zero] at hcast
  rw [← hcast]
  ring

theorem mul (hb : Residue N b) :
    Residue N (m256Mul a b mt) ∧ mres N (m256Mul a b mt) = mres N a * mres N b := by
  obtain ⟨hres, hval⟩ := h.mul_value ha hb.limbs
  refine ⟨hres, ?_⟩
  have hinv := mul_inv_radix h.odd
  simp only [mres]
  generalize ((2 ^ 256 : Nat) : ZMod N) = R at *
  linear_combination R⁻¹ * R⁻¹ * hval - value limbRadix (m256Mul a b mt) * R⁻¹ * hinv

theorem sqr : Residue N (m256Sqr a mt) ∧ mres N (m256Sqr a mt) = mres N a ^ 2 := by
  rw [pow_two]
  exact h.mul ha ha

theorem leave : Residue N (m256From a mt) ∧ value limbRadix (m256From a mt) = (mres N a).val := by
  have hone : IsLimbs limbRadix 4 [1, 0, 0, 0] := ⟨rfl, by decide⟩
  obtain ⟨hres, hval⟩ := h.mul_value ha hone
  refine ⟨hres, ?_⟩
  have hone' : value limbRadix [1, 0, 0, 0] = 1 := by decide
  have hcast : (value limbRadix (m256From a mt) : ZMod N) = mres N a := by
    rw [hone', cast_one, mul_one] at hval
    rw [mres, ← hval, mul_assoc, mul_inv_radix h.odd, mul_one]
    rfl
  rw [← hcast, ZMod.val_natCast]
  exact (mod_eq_of_lt hres.lt).symm

end

end M256.Mod

namespace M256.Ok

theorem enter (h : mt.Ok N) (ha : Residue N a) :
    Residue N (m256To a mt) ∧ mres N (m256To a mt) = value limbRadix a := by
  obtain ⟨hres, hval⟩ := h.mul ha h.rr
  refine ⟨hres, ?_⟩
  rw [m256To, hval, h.mres_rr, ← value_eq_mres h.odd]

end M256.Ok

theorem value_digit {j : Nat} (ha : IsLimbs limbRadix k a) :
    value limbRadix a / limbRadix ^ j % limbRadix = a.getD j 0 := by
  induction k generalizing a j with
  | zero => simp [ha.eq_nil]
  | succ k ih =>
    obtain ⟨x, xs, rfl, hx, hxs⟩ := ha.exists_cons
    cases j with
    | zero => simp [mod_eq_of_lt hx]
    | succ j =>
      rw [value_cons, pow_succ', ← Nat.div_div_eq_div_mul, add_mul_div_left _ _ limbRadix_pos,
        div_eq_of_lt hx, zero_add, ih hxs]
      rfl

theorem limbBit_eq (ha : IsLimbs limbRadix k a) (i : Nat) :
    limbBit a i = value limbRadix a / 2 ^ i % 2 := by
  have hone : ∀ n, n &&& 1 = n % 2 := fun n => and_two_pow_sub_one_eq_mod n 1
  have hsplit : (2 : Nat) ^ i = limbRadix ^ (i / 64) * 2 ^ (i % 64) := by
    rw [limbRadix, ← Nat.pow_mul, ← Nat.pow_add, div_add_mod]
  have hdigit : limbRadix = 2 ^ (i % 64) * 2 ^ (64 - i % 64) := by
    rw [limbRadix, ← pow_add, show i % 64 + (64 - i % 64) = 64 by omega]
  have hdvd : 2 ∣ 2 ^ (64 - i % 64) := dvd_pow_self 2 (by omega)
  rw [limbBit, hone, shiftRight_eq_div_pow, hsplit, ← Nat.div_div_eq_div_mul, ← value_digit ha]
  generalize value limbRadix a / limbRadix ^ (i / 64) = x
  conv_lhs => rw [hdigit]
  rw [mod_mul_right_div_self, mod_mod_of_dvd _ hdvd]

variable {e : List Nat}

theorem expLoop_spec {acc : List Nat} (h : mt.Mod N) (ha : Residue N a)
    (he : IsLimbs limbRadix k e) (n : Nat) (hacc : Residue N acc) :
    Residue N (expLoop a e mt n acc) ∧ mres N (expLoop a e mt n acc) =
      mres N acc ^ 2 ^ n * mres N a ^ (value limbRadix e % 2 ^ n) := by
  induction n generalizing acc with
  | zero => simpa [expLoop, mod_one] using hacc
  | succ i ih =>
    obtain ⟨hsq, hsqv⟩ := h.sqr hacc
    rw [expLoop, limbBit_eq he, mod_pow_succ]
    split
    · rename_i hbit
      have hbit : value limbRadix e / 2 ^ i % 2 = 1 := by omega
      obtain ⟨hmul, hmulv⟩ := h.mul hsq ha
      obtain ⟨hres, hval⟩ := ih hmul
      refine ⟨hres, ?_⟩
      rw [hval, hmulv, hsqv, hbit]
      ring
    · rename_i hbit
      have hbit : value limbRadix e / 2 ^ i % 2 = 0 := by omega
      obtain ⟨hres, hval⟩ := ih hsq
      refine ⟨hres, ?_⟩
      rw [hval, hsqv, hbit]
      ring

theorem M256.Ok.exp (h : mt.Ok N) (ha : Residue N a) (he : IsLimbs limbRadix 4 e) :
    Residue N (m256Exp a e mt) ∧ mres N (m256Exp a e mt) = mres N a ^ value limbRadix e := by
  obtain ⟨hres, hval⟩ := expLoop_spec h.toMod ha he 256 h.one
  have hlt : value limbRadix e < 2 ^ 256 := he.value_lt
  refine ⟨hres, ?_⟩
  rw [m256Exp, hval, h.mres_one, one_pow, one_mul, mod_eq_of_lt hlt]

theorem value_complement (ha : IsLimbs limbRadix k a) :
    IsLimbs limbRadix k (a.map (2 ^ 64 - 1 - ·)) ∧
      value limbRadix (a.map (2 ^ 64 - 1 - ·)) + value limbRadix a + 1 = limbRadix ^ k := by
  induction k generalizing a with
  | zero => simpa [ha.eq_nil] using IsLimbs.nil
  | succ k ih =>
    obtain ⟨x, xs, rfl, hx, hxs⟩ := ha.exists_cons
    obtain ⟨hlimbs, hval⟩ := ih hxs
    have hx' : 2 ^ 64 - 1 - x + x + 1 = limbRadix := by
      have : limbRadix = 2 ^ 64 := rfl
      omega
    refine ⟨hlimbs.cons (show 2 ^ 64 - 1 - x < limbRadix by omega), ?_⟩
    simp only [map_cons, value_cons, pow_succ]
    rw [← hval]
    linear_combination hx'

theorem m256Init_ok (hm : IsLimbs limbRadix 4 m) (hN : value limbRadix m = N) (hodd : N % 2 = 1)
    (htop : 2 ^ 255 < N) : (m256Init m).Ok N := by
  have hNlt : N < 2 ^ 256 := hN ▸ hm.value_lt
  obtain ⟨hc, hcv⟩ := value_complement hm
  have h1 : IsLimbs limbRadix 4 [1, 0, 0, 0] := ⟨rfl, by decide⟩
  obtain ⟨hone, honev⟩ := addC_spec limbRadix_pos hc h1 0
  have hv1 : value limbRadix [1, 0, 0, 0] = 1 := by decide
  rw [M256.Mod.radix] at hcv honev
  obtain ⟨one, hdef⟩ : ∃ one, one = (addC limbRadix (m.map (2 ^ 64 - 1 - ·)) [1, 0, 0, 0] 0).1 :=
    ⟨_, rfl⟩
  rw [← hdef] at hone honev
  have honelt : value limbRadix one < 2 ^ 256 := hone.value_lt
  have hval : value limbRadix one + N = 2 ^ 256 := by
    have hcarry : (addC limbRadix (m.map (2 ^ 64 - 1 - ·)) [1, 0, 0, 0] 0).2 = 0 := by omega
    rw [hcarry] at honev
    omega
  have hres : Residue N one := ⟨hone, by omega⟩
  have hmres : mres N one = 1 := by
    have hcast := congrArg (Nat.cast : Nat → ZMod N) hval
    rw [cast_add, ZMod.natCast_self, add_zero] at hcast
    rw [mres, hcast, mul_inv_radix hodd]
  have hhead : m.headD 0 % 2 = 1 := by
    obtain ⟨x, xs, rfl, -, -⟩ := hm.exists_cons
    rw [value_cons, limbRadix] at hN
    rw [headD_cons]
    omega
  have hmod : ∀ rr, (⟨m, one, rr, montN0 (m.headD 0)⟩ : M256).Mod N :=
    fun rr => ⟨hm, hN, hodd, montN0_spec hhead⟩
  have hdouble : ∀ i, Residue N ((fun rr => m256Add rr rr ⟨m, one, one, montN0 (m.headD 0)⟩)^[i]
    one) ∧
      mres N ((fun rr => m256Add rr rr ⟨m, one, one, montN0 (m.headD 0)⟩)^[i] one) = 2 ^ i := by
    intro i
    induction i with
    | zero => exact ⟨hres, by rw [iterate_zero_apply, hmres, pow_zero]⟩
    | succ i ih =>
      rw [iterate_succ_apply']
      obtain ⟨hr, hv⟩ := (hmod one).add ih.1 ih.1
      refine ⟨hr, ?_⟩
      rw [hv, ih.2, pow_succ]
      ring
  have hinit : m256Init m =
    ⟨m, one, (fun rr => m256Add rr rr ⟨m, one, one, montN0 (m.headD 0)⟩)^[256]
      one, montN0 (m.headD 0)⟩ := by
    rw [m256Init, hdef]
  obtain ⟨hrr, hrrv⟩ := hdouble 256
  rw [hinit]
  generalize (fun rr => m256Add rr rr ⟨m, one, one, montN0 (m.headD 0)⟩)^[256] one =
    rr at hrr hrrv ⊢
  refine ⟨hmod rr, hres, hrr, hmres, ?_⟩
  rw [hrrv, cast_pow, cast_ofNat]

end KestrelOS.Tls
