import KestrelOS.Lib.Limbs
import Mathlib.Data.List.GetD
import Mathlib.Tactic.Positivity

/-!
# Long division of multi-limb integers

Limbs are words of `w` bits. A quotient limb is estimated from the top limbs of the normalised
operands, corrected against the next limb, and after the multiple of the divisor was subtracted it
is one too large at most.
-/

namespace KestrelOS.Limbs

open List Nat

private theorem shl_word {w s x : Nat} (hs : s ≤ w) :
    x <<< s % 2 ^ w = 2 ^ s * (x % 2 ^ (w - s)) := by
  rw [shiftLeft_eq, ← pow_mul_pow_sub 2 hs, Nat.mul_comm x, mul_mod_mul_left]

/-- Restoring division of `hi : lo` by `d`, one bit a step: quotient and remainder. -/
def restoring (w d : Nat) : Nat → Nat → Nat → Nat → Nat × Nat
  | 0, hi, _, q => (q, hi)
  | i + 1, hi, lo, q =>
    let top := hi >>> (w - 1)
    let hi := hi <<< 1 % 2 ^ w ||| lo >>> (w - 1)
    let lo := lo <<< 1 % 2 ^ w
    let q := q <<< 1 % 2 ^ w
    if top ≠ 0 ∨ d ≤ hi then restoring w d i ((hi + 2 ^ w - d) % 2 ^ w) lo (q ||| 1)
    else restoring w d i hi lo q

theorem or_bit (x : Nat) {b : Nat} (hb : b < 2) : 2 * x ||| b = 2 * x + b :=
  (two_pow_add_eq_or_of_lt (i := 1) hb x).symm

private theorem restoring_step {w d hi lo q : Nat} (hw : 0 < w) (hd : d ≤ 2 ^ w) (hhi : hi < d)
    (hlo : lo < 2 ^ w) (hq : 2 * q < 2 ^ w) (i : Nat) : restoring w d (i + 1) hi lo q =
      if d ≤ 2 * hi + lo / 2 ^ (w - 1)
      then restoring w d i (2 * hi + lo / 2 ^ (w - 1) - d) (2 * (lo % 2 ^ (w - 1))) (2 * q + 1)
      else restoring w d i (2 * hi + lo / 2 ^ (w - 1)) (2 * (lo % 2 ^ (w - 1))) (2 * q) := by
  obtain ⟨m, rfl⟩ : ∃ m, w = m + 1 := ⟨w - 1, by omega⟩
  have hpow : (2 : Nat) ^ (m + 1) = 2 * 2 ^ m := by rw [Nat.pow_succ]; omega
  have hpos : 0 < 2 ^ m := Nat.two_pow_pos m
  have hbit : lo / 2 ^ m < 2 := Nat.div_lt_of_lt_mul (by omega)
  have hlo' : lo <<< 1 % 2 ^ (m + 1) = 2 * (lo % 2 ^ m) := shl_word (Nat.le_add_left 1 m)
  have hq' : q <<< 1 % 2 ^ (m + 1) = 2 * q := by
    rw [shiftLeft_eq, pow_one, Nat.mul_comm, mod_eq_of_lt hq]
  have hhi' : hi <<< 1 % 2 ^ (m + 1) ||| lo >>> m = 2 * (hi % 2 ^ m) + lo / 2 ^ m := by
    rw [shl_word (Nat.le_add_left 1 m), shiftRight_eq_div_pow, ← or_bit _ hbit]
    rfl
  have htop : hi >>> m = hi / 2 ^ m := shiftRight_eq_div_pow hi m
  have hsplit := div_add_mod hi (2 ^ m)
  have htop2 : hi / 2 ^ m < 2 := Nat.div_lt_of_lt_mul (by omega)
  rw [restoring]
  simp only [Nat.add_sub_cancel, hlo', hq', hhi', htop, or_bit q (by omega : 1 < 2)]
  -- the bit that leaves the high word is worth `2 ^ w`
  by_cases ht : hi / 2 ^ m = 0
  · have hsame : hi % 2 ^ m = hi := by
      rw [ht] at hsplit
      omega
    rw [hsame]
    by_cases hge : d ≤ 2 * hi + lo / 2 ^ m
    · rw [if_pos (.inr hge), if_pos hge]
      congr 1
      rw [show 2 * hi + lo / 2 ^ m + 2 ^ (m + 1) - d =
        2 * hi + lo / 2 ^ m - d + 2 ^ (m + 1) by omega, add_mod_right, mod_eq_of_lt (by omega)]
    · rw [if_neg (by omega), if_neg hge]
  · have hone : hi / 2 ^ m = 1 :=
      Nat.le_antisymm (Nat.lt_succ_iff.mp htop2) (Nat.pos_of_ne_zero ht)
    have hval : hi = 2 ^ m + hi % 2 ^ m := by
      rw [hone] at hsplit
      omega
    rw [if_pos (.inl ht), if_pos (by omega)]
    congr 1
    rw [mod_eq_of_lt (by omega)]
    omega

private theorem restoring_spec {w d : Nat} (hd : d ≤ 2 ^ w) {n : Nat} (hn : n ≤ w) {hi lo q : Nat}
    (hhi : hi < d) (hlo : lo < 2 ^ w) (hq : q * 2 ^ n < 2 ^ w) : (restoring w d n hi lo q).2 < d ∧
      (restoring w d n hi lo q).1 * d + (restoring w d n hi lo q).2 =
        (q * d + hi) * 2 ^ n + lo / 2 ^ (w - n) := by
  induction n generalizing hi lo q with
  | zero =>
    rw [restoring, Nat.sub_zero, div_eq_of_lt hlo]
    exact ⟨hhi, by simp⟩
  | succ n ih =>
    have hpow : (2 : Nat) ^ w = 2 * 2 ^ (w - 1) := (mul_pow_sub_one (by omega) 2).symm
    have hq2 : 2 * q * 2 ^ n < 2 ^ w := by
      rw [Nat.pow_succ] at hq
      linarith
    have hqw : 2 * q < 2 ^ w := lt_of_le_of_lt (Nat.le_mul_of_pos_right _ (Nat.two_pow_pos n)) hq2
    have hq3 : (2 * q + 1) * 2 ^ n < 2 ^ w := by
      -- both sides are multiples of `2 ^ n`
      obtain ⟨c, hc⟩ : ∃ c, w = c + n := ⟨w - n, by omega⟩
      obtain ⟨c', rfl⟩ : ∃ c', c = c' + 1 := ⟨c - 1, by omega⟩
      rw [hc, Nat.pow_add] at hq2 ⊢
      have hlt := Nat.lt_of_mul_lt_mul_right hq2
      rw [Nat.pow_succ] at hlt ⊢
      exact Nat.mul_lt_mul_of_pos_right (by omega) (Nat.two_pow_pos n)
    have hdiv : lo / 2 ^ (w - 1) * 2 ^ n + 2 * (lo % 2 ^ (w - 1)) / 2 ^ (w - n) =
        lo / 2 ^ (w - (n + 1)) := by
      have h1 : (2 : Nat) ^ (w - n) = 2 * 2 ^ (w - (n + 1)) := by
        rw [← Nat.pow_succ']
        congr 1
        omega
      have h2 : (2 : Nat) ^ (w - 1) = 2 ^ (w - (n + 1)) * 2 ^ n := by
        rw [← Nat.pow_add]
        congr 1
        omega
      rw [h1, Nat.mul_div_mul_left _ _ (by decide), Nat.add_comm, Nat.mul_comm,
        ← add_mul_div_left _ _ (Nat.two_pow_pos (w - (n + 1))), ← Nat.mul_assoc, ← h2, mod_add_div]
    have hlo2 : 2 * (lo % 2 ^ (w - 1)) < 2 ^ w := by
      have := mod_lt lo (Nat.two_pow_pos (w - 1))
      omega
    have hbit : lo / 2 ^ (w - 1) < 2 := Nat.div_lt_of_lt_mul (by omega)
    rw [restoring_step (by omega) hd hhi hlo hqw, ← hdiv]
    split
    · rename_i hge
      obtain ⟨hlt, heq⟩ := ih (by omega) (by omega : 2 * hi + lo / 2 ^ (w - 1) - d < d) hlo2 hq3
      refine ⟨hlt, ?_⟩
      have hval : (2 * q + 1) * d + (2 * hi + lo / 2 ^ (w - 1) - d) =
          2 * (q * d + hi) + lo / 2 ^ (w - 1) := by
        rw [Nat.add_mul, Nat.one_mul, Nat.mul_assoc]
        omega
      rw [heq, hval, pow_succ]
      ring
    · rename_i hlt
      obtain ⟨hlt', heq⟩ := ih (by omega) (by omega : 2 * hi + lo / 2 ^ (w - 1) < d) hlo2 hq2
      refine ⟨hlt', ?_⟩
      rw [heq, pow_succ]
      ring

private theorem restoring_eq {w d hi lo : Nat} (hd : d ≤ 2 ^ w) (hhi : hi < d) (hlo : lo < 2 ^ w) :
    restoring w d w hi lo 0 = ((hi * 2 ^ w + lo) / d, (hi * 2 ^ w + lo) % d) := by
  obtain ⟨hlt, heq⟩ := restoring_spec hd le_rfl hhi hlo (q := 0) (by simp)
  rw [Nat.zero_mul, Nat.zero_add, Nat.sub_self, pow_zero, Nat.div_one] at heq
  generalize restoring w d w hi lo 0 = r at hlt heq ⊢
  have huniq : (hi * 2 ^ w + lo) / d = r.1 ∧ (hi * 2 ^ w + lo) % d = r.2 := by
    rw [Nat.div_mod_unique (by omega), ← heq]
    exact ⟨by ring, hlt⟩
  rw [huniq.1, huniq.2]

/-- How far a word can be shifted up before its top bit is set. -/
def normShift (w : Nat) : Nat → Nat → Nat
  | 0, _ => 0
  | i + 1, x => if x >>> (w - 1) &&& 1 = 1 then 0 else normShift w i (x <<< 1 % 2 ^ w) + 1

theorem normShift_spec {w x : Nat} (n : Nat) (hx : x < 2 ^ w) (hn : 2 ^ w ≤ x * 2 ^ n * 2)
    (hw : 0 < w) :
    2 ^ (w - 1) ≤ x * 2 ^ normShift w n x ∧ x * 2 ^ normShift w n x < 2 ^ w := by
  have hpow : (2 : Nat) ^ w = 2 * 2 ^ (w - 1) := (mul_pow_sub_one hw.ne' 2).symm
  induction n generalizing x with
  | zero =>
    rw [normShift]
    omega
  | succ n ih =>
    have hbit : x >>> (w - 1) < 2 := by
      rw [shiftRight_eq_div_pow]
      exact Nat.div_lt_of_lt_mul (by omega)
    rw [normShift, and_one_is_mod, mod_eq_of_lt hbit]
    rw [shiftRight_eq_div_pow] at hbit ⊢
    by_cases htop : x / 2 ^ (w - 1) = 1
    · rw [if_pos htop, pow_zero, Nat.mul_one]
      refine ⟨?_, hx⟩
      have := (Nat.div_eq_iff (Nat.two_pow_pos (w - 1))).mp htop
      omega
    · have hlow : x < 2 ^ (w - 1) := by
        by_contra hge
        have :=
          (Nat.le_div_iff_mul_le (Nat.two_pow_pos (w - 1))).mpr (by omega : 1 * 2 ^ (w - 1) ≤ x)
        omega
      have hdbl : x <<< 1 % 2 ^ w = x * 2 := by
        rw [shiftLeft_eq, pow_one, mod_eq_of_lt (by omega)]
      rw [if_neg htop, hdbl, pow_succ, Nat.mul_comm (2 ^ _) 2, ← Nat.mul_assoc]
      apply ih (by omega)
      calc 2 ^ w ≤ x * 2 ^ (n + 1) * 2 := hn
        _ = x * 2 * 2 ^ n * 2 := by rw [pow_succ]; ring

/-- Up by `s < w` bits; `c` comes in at the bottom. -/
def shlC (w s : Nat) : List Nat → Nat → List Nat × Nat
  | [], c => ([], c)
  | x :: l, c =>
    let r := shlC w s l (if s = 0 then 0 else x >>> (w - s))
    ((x <<< s % 2 ^ w ||| c) :: r.1, r.2)

def shrC (w s : Nat) : List Nat → List Nat
  | [] => []
  | [x] => [x >>> s]
  | x :: y :: l => (x >>> s ||| if s = 0 then 0 else y <<< (w - s) % 2 ^ w) :: shrC w s (y :: l)

variable {w s k : Nat}

private theorem shl_out {x : Nat} (hx : x < 2 ^ w) :
    (if s = 0 then 0 else x >>> (w - s)) = x / 2 ^ (w - s) := by
  split
  · rename_i h
    rw [h, Nat.sub_zero, div_eq_of_lt hx]
  · exact shiftRight_eq_div_pow x (w - s)

private theorem join_lt {x c : Nat} (hs : s ≤ w) (hx : x < 2 ^ (w - s)) (hc : c < 2 ^ s) :
    2 ^ s * x + c < 2 ^ w := by
  have := Nat.mul_le_mul_left (2 ^ s) hx
  rw [mul_succ, pow_mul_pow_sub 2 hs] at this
  omega

theorem shlC_spec (hs : s < w) {l : List Nat} (hl : IsLimbs (2 ^ w) k l) {c : Nat}
    (hc : c < 2 ^ s) :
    IsLimbs (2 ^ w) k (shlC w s l c).1 ∧ (shlC w s l c).2 < 2 ^ s ∧
      value (2 ^ w) (shlC w s l c).1 + (2 ^ w) ^ k * (shlC w s l c).2 =
        value (2 ^ w) l * 2 ^ s + c := by
  have hpow : (2 : Nat) ^ w = 2 ^ s * 2 ^ (w - s) := (pow_mul_pow_sub 2 hs.le).symm
  induction k generalizing l c with
  | zero =>
    rw [hl.eq_nil]
    exact ⟨.nil, hc, by simp [shlC]⟩
  | succ k ih =>
    obtain ⟨x, xs, rfl, hx, hxs⟩ := hl.exists_cons
    have hout : x / 2 ^ (w - s) < 2 ^ s :=
      Nat.div_lt_of_lt_mul (by rw [Nat.mul_comm, ← hpow]; exact hx)
    obtain ⟨h1, h2, h3⟩ := ih hxs hout
    have hlow : x <<< s % 2 ^ w ||| c = 2 ^ s * (x % 2 ^ (w - s)) + c := by
      rw [shl_word hs.le, two_pow_add_eq_or_of_lt hc]
    have hlt := join_lt hs.le (mod_lt x (Nat.two_pow_pos (w - s))) hc
    rw [shlC]
    simp only [shl_out hx, hlow]
    refine ⟨h1.cons hlt, h2, ?_⟩
    have hdiv := mod_add_div x (2 ^ (w - s))
    rw [value_cons, value_cons, pow_succ]
    calc 2 ^ s * (x % 2 ^ (w - s)) + c + 2 ^ w * value (2 ^ w) (shlC w s xs (x / 2 ^ (w - s))).1 +
          (2 ^ w) ^ k * 2 ^ w * (shlC w s xs (x / 2 ^ (w - s))).2
        = 2 ^ s * (x % 2 ^ (w - s)) + c + 2 ^ w * (value (2 ^ w) xs * 2 ^ s + x / 2 ^ (w - s)) := by
          rw [← h3]
          ring
      _ = 2 ^ s * (x % 2 ^ (w - s) + 2 ^ (w - s) * (x / 2 ^ (w - s))) +
            2 ^ w * value (2 ^ w) xs * 2 ^ s + c := by
          linear_combination (x / 2 ^ (w - s)) * hpow
      _ = (x + 2 ^ w * value (2 ^ w) xs) * 2 ^ s + c := by
          rw [hdiv]
          ring

theorem shrC_spec (hs : s < w) {l : List Nat} (hl : IsLimbs (2 ^ w) k l) :
    IsLimbs (2 ^ w) k (shrC w s l) ∧ value (2 ^ w) (shrC w s l) = value (2 ^ w) l / 2 ^ s := by
  have hpow : (2 : Nat) ^ w = 2 ^ s * 2 ^ (w - s) := (pow_mul_pow_sub 2 hs.le).symm
  have hpos := Nat.two_pow_pos s
  induction k generalizing l with
  | zero =>
    rw [hl.eq_nil]
    exact ⟨.nil, by simp [shrC]⟩
  | succ k ih =>
    obtain ⟨x, xs, rfl, hx, hxs⟩ := hl.exists_cons
    have hxlt : x / 2 ^ s < 2 ^ (w - s) := Nat.div_lt_of_lt_mul (by rw [← hpow]; exact hx)
    cases xs with
    | nil =>
      have hk : k = 0 := by simpa using hxs.length.symm
      subst hk
      rw [shrC, shiftRight_eq_div_pow]
      exact ⟨IsLimbs.nil.cons (lt_of_le_of_lt (Nat.div_le_self _ _) hx), by simp⟩
    | cons y l =>
      obtain ⟨h1, h2⟩ := ih hxs
      -- the low bits of the next limb come in at the top
      have hin : (if s = 0 then 0 else y <<< (w - s) % 2 ^ w) = 2 ^ (w - s) * (y % 2 ^ s) := by
        split
        · rename_i h0
          rw [h0, pow_zero, mod_one, Nat.mul_zero]
        · rw [shl_word (sub_le w s), Nat.sub_sub_self hs.le]
      have hor : x >>> s ||| 2 ^ (w - s) * (y % 2 ^ s) = 2 ^ (w - s) * (y % 2 ^ s) + x / 2 ^ s := by
        rw [shiftRight_eq_div_pow, Nat.or_comm, two_pow_add_eq_or_of_lt hxlt]
      have hlow : y % 2 ^ s < 2 ^ (w - (w - s)) := by
        rw [Nat.sub_sub_self hs.le]
        exact mod_lt _ hpos
      have hlt := join_lt (sub_le w s) hlow hxlt
      have hmod : value (2 ^ w) (y :: l) % 2 ^ s = y % 2 ^ s := by
        rw [value_cons, hpow, Nat.mul_assoc, add_mul_mod_self_left]
      rw [shrC, hin, hor]
      refine ⟨h1.cons hlt, ?_⟩
      rw [value_cons, h2, value_cons _ x, ← hmod]
      generalize value (2 ^ w) (y :: l) = R
      have hR := mod_add_div R (2 ^ s)
      calc 2 ^ (w - s) * (R % 2 ^ s) + x / 2 ^ s + 2 ^ w * (R / 2 ^ s)
          = x / 2 ^ s + 2 ^ (w - s) * (R % 2 ^ s + 2 ^ s * (R / 2 ^ s)) := by
            rw [hpow]
            ring
        _ = (x + 2 ^ s * (2 ^ (w - s) * R)) / 2 ^ s := by
            rw [hR, add_mul_div_left _ _ hpos]
        _ = (x + 2 ^ w * R) / 2 ^ s := by
            rw [hpow, Nat.mul_assoc]

/-- `u - m * v`, limb by limb, with the carry `c` of the product and the borrow `b` of the
difference. -/
def mulSubC (B m : Nat) : List Nat → List Nat → Nat → Int → List Nat × Nat × Int
  | y :: vs, x :: us, c, b =>
    let p := m * y + c
    let t : Int := (x : Int) - (p % B : Nat) + b
    let r := mulSubC B m vs us (p / B) (t / B)
    ((t % B).toNat :: r.1, r.2)
  | _, _, c, b => ([], c, b)

variable {B : Nat} {u v : List Nat}

private theorem mulSubC_spec (hB : 0 < B) (hv : IsLimbs B k v) (hu : IsLimbs B k u) (m c : Nat)
    (b : Int) :
    IsLimbs B k (mulSubC B m v u c b).1 ∧ (value B (mulSubC B m v u c b).1 : Int) +
        (B : Int) ^ k * ((mulSubC B m v u c b).2.2 - (mulSubC B m v u c b).2.1) =
      (value B u : Int) - m * value B v + b - c := by
  have hpass := pass_spec (f := fun v u c => mulSubC B m v u c.1 c.2) (g := fun c => c.2 - c.1)
    (m := -m) (n := 1) (fun _ => rfl)
      (fun y ys x xs c => ⟨_, ((m * y + c.1) / B, _), rfl, (digit_spec hB _).1, by
      have hp : (((m * y + c.1) % B : Nat) : Int) + B * ((m * y + c.1) / B : Nat) =
      m * y + c.1 := by
        exact_mod_cast mod_add_div (m * y + c.1) B
      linear_combination (digit_spec hB ((x : Int) - ((m * y + c.1) % B : Nat) + c.2)).2 - hp⟩)
    hv hu (c, b)
  exact ⟨hpass.1, by linear_combination hpass.2⟩

/-- The correction of the estimate: `q` goes down while it is too large for the next limb, until the
running remainder `r` no longer fits a word. -/
def adjustQ (B vtop v2 u2 : Nat) : Nat → Nat → Bool → Nat
  | 0, _, _ => 0
  | q + 1, r, big =>
    if big = false ∧ r * B + u2 < (q + 1) * v2
    then adjustQ B vtop v2 u2 q ((r + vtop) % B) (decide ((r + vtop) % B < r)) else q + 1

section Estimate

/-- The operands by their top limbs: `U` and `u2` above `u'`, and `vtop` and `v2` above `v'`, at the
place value `P`. -/
structure TopLimbs (B P vtop v2 U u2 V W : Nat) : Prop where
  lowV : vtop * (B * P) + v2 * P ≤ V
  highV : V < vtop * (B * P) + (v2 + 1) * P
  lowW : U * (B * P) + u2 * P ≤ W
  highW : W < U * (B * P) + (u2 + 1) * P
  v2_lt : v2 < B
  u2_lt : u2 < B
  vtop_lt : vtop < B
  vtop_pos : 0 < vtop

variable {P vtop v2 U u2 V W q R : Nat}

private theorem TopLimbs.too_large (h : TopLimbs B P vtop v2 U u2 V W) (hR : q * vtop + R = U)
    (hgt : R * B + u2 < q * v2) : W < q * V := by
  have h1 : (R * B + u2 + 1) * P ≤ q * v2 * P := Nat.mul_le_mul_right P hgt
  have h2 := Nat.mul_le_mul_left q h.lowV
  have h3 := h.highW
  rw [← hR] at h3
  calc W < (q * vtop + R) * (B * P) + (u2 + 1) * P := h3
    _ = q * vtop * (B * P) + (R * B + u2 + 1) * P := by ring
    _ ≤ q * vtop * (B * P) + q * v2 * P := by omega
    _ = q * (vtop * (B * P) + v2 * P) := by ring
    _ ≤ q * V := h2

private theorem TopLimbs.close (h : TopLimbs B P vtop v2 U u2 V W) (hR : q * vtop + R = U)
    (hq : q < B) (hend : B ≤ R ∨ q * v2 ≤ R * B + u2) : q * V ≤ W + V := by
  have h1 : q * V ≤ q * (vtop * (B * P) + (v2 + 1) * P) := Nat.mul_le_mul_left q h.highV.le
  have h2 := h.lowW
  rw [← hR] at h2
  rcases hend with hbig | hle
  · have hv : q * (v2 + 1) ≤ B * B := Nat.mul_le_mul hq.le h.v2_lt
    have hRB : B * B * P ≤ R * (B * P) := by
      rw [Nat.mul_assoc]
      exact Nat.mul_le_mul_right _ hbig
    have hvP := Nat.mul_le_mul_right P hv
    calc q * V ≤ q * (vtop * (B * P) + (v2 + 1) * P) := h1
      _ = q * vtop * (B * P) + q * (v2 + 1) * P := by ring
      _ ≤ q * vtop * (B * P) + R * (B * P) + u2 * P := by omega
      _ = (q * vtop + R) * (B * P) + u2 * P := by ring
      _ ≤ W + V := by omega
  · have hqP : q * P ≤ B * P := Nat.mul_le_mul_right P hq.le
    have hBV : B * P ≤ V := by
      have := Nat.mul_le_mul_right (B * P) h.vtop_pos
      have := h.lowV
      omega
    have hleP := Nat.mul_le_mul_right P hle
    calc q * V ≤ q * (vtop * (B * P) + (v2 + 1) * P) := h1
      _ = q * vtop * (B * P) + q * v2 * P + q * P := by ring
      _ ≤ q * vtop * (B * P) + (R * B + u2) * P + q * P := by omega
      _ = (q * vtop + R) * (B * P) + u2 * P + q * P := by ring
      _ ≤ W + V := by omega

private theorem wrap_test {x y : Nat} (hx : x < B) (hy : y < B) :
    (decide ((x + y) % B < x) = true → B ≤ x + y) ∧
      (decide ((x + y) % B < x) = false → (x + y) % B = x + y ∧ x + y < B) := by
  rw [decide_eq_true_eq, decide_eq_false_iff_not]
  rcases Nat.lt_or_ge (x + y) B with hs | hs
  · rw [mod_eq_of_lt hs]
    omega
  · rw [mod_eq_sub_mod hs, mod_eq_of_lt (by omega)]
    omega

private theorem adjustQ_spec (h : TopLimbs B P vtop v2 U u2 V W) {r : Nat} {big : Bool}
    (hR : q * vtop + R = U) (hq : q < B) (hW : W < (q + 1) * V)
    (hover : big → B ≤ R) (hr : big = false → r = R ∧ R < B) :
    adjustQ B vtop v2 u2 q r big < B ∧ W < (adjustQ B vtop v2 u2 q r big + 1) * V ∧
      adjustQ B vtop v2 u2 q r big * V ≤ W + V := by
  induction q generalizing r big R with
  | zero => exact ⟨hq, hW, by rw [adjustQ]; omega⟩
  | succ q ih =>
    rw [adjustQ]
    split
    · rename_i hcond
      obtain ⟨rfl, hlt⟩ := hr hcond.1
      have hgt := h.too_large hR hcond.2
      have hR' : q * vtop + (r + vtop) = U := by
        rw [← hR]
        ring
      obtain ⟨hwrap, hfits⟩ := wrap_test hlt h.vtop_lt
      exact ih hR' (by omega) hgt hwrap hfits
    · rename_i hcond
      refine ⟨hq, hW, h.close hR hq ?_⟩
      cases big with
      | true => exact .inl (hover rfl)
      | false =>
        obtain ⟨rfl, -⟩ := hr rfl
        simp only [true_and, Nat.not_lt] at hcond
        exact .inr hcond

/-- The first estimate, its remainder, and whether the remainder is too large for a word. A top limb
that is not below `vtop` gives the largest word. -/
def estimateQ (w vtop u0 u1 : Nat) : Nat × Nat × Bool :=
  if vtop ≤ u0 then
    (2 ^ w - 1, (u1 + vtop) % 2 ^ w, decide ((u1 + vtop) % 2 ^ w < vtop))
  else
    let r := restoring w vtop w u0 u1 0
    (r.1, r.2, false)

private theorem estimateQ_spec {u0 u1 : Nat}
    (h : TopLimbs (2 ^ w) P vtop v2 (u0 * 2 ^ w + u1) u2 V W)
    (hu1 : u1 < 2 ^ w) (hWV : W < 2 ^ w * V) :
    ∃ q r big R, estimateQ w vtop u0 u1 = (q, r, big) ∧ q * vtop + R = u0 * 2 ^ w + u1 ∧
      q < 2 ^ w ∧ W < (q + 1) * V ∧ (big → 2 ^ w ≤ R) ∧
      (big = false → r = R ∧ R < 2 ^ w) := by
  have hpos := Nat.two_pow_pos w
  have htop := h.vtop_lt
  have hlow := h.lowW
  have hV := h.highV
  have hv2 := h.v2_lt
  rw [estimateQ]
  split
  · rename_i hge
    -- the top limbs agree, as the dividend is below `B` times the divisor
    have hle : u0 * 2 ^ w + u1 < 2 ^ w * (vtop + 1) := by
      have hVP : V ≤ (vtop + 1) * (2 ^ w * P) := by
        have hstep : (v2 + 1) * P ≤ 2 ^ w * P := Nat.mul_le_mul_right P hv2
        rw [Nat.add_mul, Nat.one_mul]
        omega
      have hchain : (u0 * 2 ^ w + u1) * (2 ^ w * P) < 2 ^ w * (vtop + 1) * (2 ^ w * P) := calc
        (u0 * 2 ^ w + u1) * (2 ^ w * P) ≤ W := by omega
        _ < 2 ^ w * V := hWV
        _ ≤ 2 ^ w * ((vtop + 1) * (2 ^ w * P)) := Nat.mul_le_mul_left _ hVP
        _ = 2 ^ w * (vtop + 1) * (2 ^ w * P) := by ring
      exact Nat.lt_of_mul_lt_mul_right hchain
    have heq : u0 = vtop := by
      have hlt : 2 ^ w * u0 < 2 ^ w * (vtop + 1) := by
        rw [Nat.mul_comm (2 ^ w) u0]
        omega
      have := Nat.lt_of_mul_lt_mul_left hlt
      omega
    obtain ⟨hwrap, hfits⟩ := wrap_test htop hu1
    rw [Nat.add_comm vtop u1] at hwrap hfits
    refine ⟨_, _, _, u1 + vtop, rfl, ?_, by omega, ?_, hwrap, hfits⟩
    · rw [heq, Nat.sub_mul, Nat.one_mul, Nat.mul_comm vtop]
      have := Nat.le_mul_of_pos_left vtop hpos
      omega
    · rwa [Nat.sub_add_cancel hpos]
  · rename_i hlt
    rw [Nat.not_le] at hlt
    have hdiv := div_add_mod (u0 * 2 ^ w + u1) vtop
    have hmod := mod_lt (u0 * 2 ^ w + u1) h.vtop_pos
    rw [restoring_eq htop.le hlt hu1]
    refine ⟨_, _, _, (u0 * 2 ^ w + u1) % vtop, rfl, ?_, ?_, ?_, by simp, fun _ => ⟨rfl, by omega⟩⟩
    · rw [Nat.mul_comm]
      exact hdiv
    · apply Nat.div_lt_of_lt_mul
      have := Nat.mul_le_mul_right (2 ^ w) hlt
      rw [succ_mul] at this
      omega
    generalize (u0 * 2 ^ w + u1) / vtop = q at hdiv
    generalize (u0 * 2 ^ w + u1) % vtop = R at hdiv hmod
    have hU : u0 * 2 ^ w + u1 + 1 ≤ (q + 1) * vtop := by
      rw [Nat.add_mul, Nat.one_mul, Nat.mul_comm q]
      omega
    have hu2 : (u2 + 1) * P ≤ 2 ^ w * P := Nat.mul_le_mul_right P h.u2_lt
    calc W < (u0 * 2 ^ w + u1) * (2 ^ w * P) + (u2 + 1) * P := h.highW
      _ ≤ (u0 * 2 ^ w + u1) * (2 ^ w * P) + 2 ^ w * P := by omega
      _ = (u0 * 2 ^ w + u1 + 1) * (2 ^ w * P) := by ring
      _ ≤ (q + 1) * vtop * (2 ^ w * P) := Nat.mul_le_mul_right _ hU
      _ = (q + 1) * (vtop * (2 ^ w * P)) := by ring
      _ ≤ (q + 1) * V := Nat.mul_le_mul_left _ (by have := h.lowV; omega)

end Estimate

/-- One quotient limb: estimate, subtract the multiple, and add the divisor back when the estimate
was one too large. `x` has one limb more than `v`. -/
def knuthStep (w : Nat) (v x : List Nat) : Nat × List Nat :=
  let n := v.length
  let vtop := v.getD (n - 1) 0
  let e := estimateQ w vtop (x.getD n 0) (x.getD (n - 1) 0)
  let q := adjustQ (2 ^ w) vtop (v.getD (n - 2) 0) (x.getD (n - 2) 0) e.1 e.2.1 e.2.2
  let d := mulSubC (2 ^ w) q v (x.take n) 0 0
  let t : Int := (x.getD n 0 : Int) - d.2.1 + d.2.2
  let top := (t % (2 ^ w : Nat)).toNat
  if t / (2 ^ w : Nat) ≠ 0 then
    let a := addC (2 ^ w) d.1 v 0
    (q - 1, a.1 ++ [(top + a.2) % 2 ^ w])
  else (q, d.1 ++ [top])

theorem IsLimbs.exists_snoc {l : List Nat} (h : IsLimbs B (k + 1) l) :
    ∃ l' x, l = l' ++ [x] ∧ IsLimbs B k l' ∧ x < B := by
  have hne : l ≠ [] := by
    rintro rfl
    simpa using h.length
  have hlen := h.length
  refine ⟨l.dropLast, l.getLast hne, (dropLast_append_getLast hne).symm,
    ⟨by rw [length_dropLast]; omega, fun x hx => h.lt x (mem_of_mem_dropLast hx)⟩,
    h.lt _ (getLast_mem hne)⟩

theorem IsLimbs.value_snoc {l : List Nat} (h : IsLimbs B k l) (x : Nat) :
    value B (l ++ [x]) = value B l + B ^ k * x := by
  rw [value_append, h.length, value_cons, value_nil, Nat.mul_zero, Nat.add_zero]

private theorem subtract_spec (hB : 1 < B) (hv : IsLimbs B k v) (hu : IsLimbs B k u)
    (hV : 0 < value B v) {u0 q : Nat} (hlow : value B u + B ^ k * u0 < (q + 1) * value B v)
    (hhigh : q * value B v ≤ value B u + B ^ k * u0 + value B v) :
    ∃ r, IsLimbs B k r ∧ value B r = (value B u + B ^ k * u0) % value B v ∧
      (let d := mulSubC B q v u 0 0
       let t : Int := (u0 : Int) - d.2.1 + d.2.2
       if t / (B : Nat) ≠ 0 then
         (q - 1, (addC B d.1 v 0).1 ++ [((t % (B : Nat)).toNat + (addC B d.1 v 0).2) % B])
       else (q, d.1 ++ [(t % (B : Nat)).toNat])) =
        ((value B u + B ^ k * u0) / value B v, r ++ [0]) := by
  have hpos : 0 < B := by omega
  obtain ⟨hd, hdv⟩ := mulSubC_spec hpos hv hu q 0 0
  obtain ⟨hsl, hsv⟩ := addC_spec hpos hd hv 0
  have hvlt := hv.value_lt
  have hdlt := hd.value_lt
  have hslt := hsl.value_lt
  dsimp only
  generalize mulSubC B q v u 0 0 = d at *
  generalize addC B d.1 v 0 = a at *
  obtain ⟨t, ht⟩ : ∃ t : Int, t = (u0 : Int) - d.2.1 + d.2.2 := ⟨_, rfl⟩
  obtain ⟨htop, hdm⟩ := digit_spec hpos t
  rw [← ht]
  generalize (t % B).toNat = top at *
  have hkey : ((value B u + B ^ k * u0 : Nat) : Int) - (q * value B v : Nat) =
      (value B d.1 + B ^ k * top : Nat) + (B ^ k * B : Nat) * (t / B) := by
    push_cast
    linear_combination -hdv - (B : Int) ^ k * hdm - (B : Int) ^ k * ht
  generalize value B u + B ^ k * u0 = W at *
  generalize t / (B : Int) = b at *
  generalize B ^ k = P at *
  have hY : value B d.1 + P * top < P * B := by
    have := Nat.mul_le_mul_left P htop
    rw [mul_succ] at this
    omega
  have hquot : ∀ {q' r : Nat}, W = q' * value B v + r → r < value B v →
      W / value B v = q' ∧ W % value B v = r := by
    intro q' r heq hr
    rw [Nat.div_mod_unique hV]
    exact ⟨by rw [heq]; ring, hr⟩
  rw [succ_mul] at hlow
  have hPB : P ≤ P * B := Nat.le_mul_of_pos_right P hpos
  rcases borrow_cases (P := (P * B : Nat)) (w := b) (Int.natCast_nonneg (value B d.1 + P * top))
    (by exact_mod_cast hY) (by rw [← hkey]; omega) (by rw [← hkey]; omega) with hb | hb
  · -- the difference is below `P`, so its top limb is zero
    rw [hb, mul_zero] at hkey
    have hW : W = q * value B v + (value B d.1 + P * top) := by omega
    have htz : top = 0 := by
      by_contra h
      have := Nat.le_mul_of_pos_right P (Nat.pos_of_ne_zero h)
      omega
    rw [htz, Nat.mul_zero, Nat.add_zero] at hW
    obtain ⟨hdiv, hmod⟩ := hquot hW (by omega)
    exact ⟨d.1, hd, hmod.symm, by rw [hb, hdiv, htz]; rfl⟩
  · rw [hb] at hkey
    obtain ⟨q', rfl⟩ := exists_eq_succ_of_ne_zero (by rintro rfl; omega : q ≠ 0)
    rw [succ_mul] at hkey hhigh
    obtain ⟨z, hz⟩ : ∃ z, W = q' * value B v + z := ⟨W - q' * value B v, by omega⟩
    -- adding the divisor back carries out of the top limb
    have hsum : value B a.1 + P * (top + a.2) = z + P * B := by
      rw [Nat.mul_add]
      omega
    have hzV : z < value B v := by omega
    have haz : value B a.1 = z := by
      have := congrArg (· % P) hsum
      simpa [mod_eq_of_lt hslt, mod_eq_of_lt (hzV.trans hvlt)] using this
    have htz : top + a.2 = B := Nat.eq_of_mul_eq_mul_left (by omega : 0 < P) (by omega)
    obtain ⟨hdiv, hmod⟩ := hquot hz hzV
    exact ⟨a.1, hsl, by rw [haz, hmod], by rw [hb, hdiv, htz, mod_self]; rfl⟩

theorem getD_snoc {l : List Nat} (hl : l.length = k) (x : Nat) (l' : List Nat) :
    (l ++ x :: l').getD k 0 = x := by
  rw [getD_append_right _ _ _ _ hl.le, hl, Nat.sub_self]
  rfl

private theorem knuthStep_spec (hw : 0 < w) {x : List Nat} (hv : IsLimbs (2 ^ w) (k + 2) v)
    (hx : IsLimbs (2 ^ w) (k + 3) x) (htop : 0 < v.getD (k + 1) 0)
    (hlt : value (2 ^ w) x < 2 ^ w * value (2 ^ w) v) :
    ∃ r, IsLimbs (2 ^ w) (k + 2) r ∧ value (2 ^ w) r = value (2 ^ w) x % value (2 ^ w) v ∧
      knuthStep w v x = (value (2 ^ w) x / value (2 ^ w) v, r ++ [0]) := by
  have hB : 1 < 2 ^ w := Nat.one_lt_two_pow hw.ne'
  -- the three top limbs of the dividend and the two of the divisor
  obtain ⟨x', u0, rfl, hx', hu0⟩ := hx.exists_snoc
  obtain ⟨x1, u1, rfl, hx1, hu1⟩ := hx'.exists_snoc
  obtain ⟨x2, u2, rfl, hx2, hu2⟩ := hx1.exists_snoc
  obtain ⟨v1, vtop, rfl, hv1, hvtop⟩ := hv.exists_snoc
  obtain ⟨v2l, v2, rfl, hv2l, hv2⟩ := hv1.exists_snoc
  have hx2lt := hx2.value_lt
  have hv2lt := hv2l.value_lt
  have hW : value (2 ^ w) (x2 ++ [u2] ++ [u1] ++ [u0]) = value (2 ^ w) x2 + (2 ^ w) ^ k * u2 +
      (2 ^ w) ^ (k + 1) * u1 + (2 ^ w) ^ (k + 2) * u0 := by
    rw [hx'.value_snoc, hx1.value_snoc, hx2.value_snoc]
  have hV : value (2 ^ w) (v2l ++ [v2] ++ [vtop]) = value (2 ^ w) v2l + (2 ^ w) ^ k * v2 +
      (2 ^ w) ^ (k + 1) * vtop := by
    rw [hv1.value_snoc, hv2l.value_snoc]
  have hgv1 : (v2l ++ [v2] ++ [vtop]).getD (k + 1) 0 = vtop := getD_snoc hv1.length vtop []
  have hgv2 : (v2l ++ [v2] ++ [vtop]).getD k 0 = v2 := by
    rw [append_assoc]
    exact getD_snoc hv2l.length v2 [vtop]
  have hgx0 : (x2 ++ [u2] ++ [u1] ++ [u0]).getD (k + 2) 0 = u0 := getD_snoc hx'.length u0 []
  have hgx1 : (x2 ++ [u2] ++ [u1] ++ [u0]).getD (k + 1) 0 = u1 := by
    rw [append_assoc]
    exact getD_snoc hx1.length u1 [u0]
  have hgx2 : (x2 ++ [u2] ++ [u1] ++ [u0]).getD k 0 = u2 := by
    rw [append_assoc, append_assoc]
    exact getD_snoc hx2.length u2 _
  have htake : (x2 ++ [u2] ++ [u1] ++ [u0]).take (k + 2) = x2 ++ [u2] ++ [u1] := by
    rw [← hx'.length, take_left']
    rfl
  rw [hgv1] at htop
  have htl : TopLimbs (2 ^ w) ((2 ^ w) ^ k) vtop v2 (u0 * 2 ^ w + u1) u2
      (value (2 ^ w) (v2l ++ [v2] ++ [vtop])) (value (2 ^ w) (x2 ++ [u2] ++ [u1] ++ [u0])) := by
    rw [hW, hV]
    generalize (2 : Nat) ^ w = B at *
    have hvt : vtop * (B * B ^ k) = B ^ (k + 1) * vtop := by ring
    have hut : (u0 * B + u1) * (B * B ^ k) = B ^ (k + 1) * u1 + B ^ (k + 2) * u0 := by ring
    rw [Nat.mul_comm (B ^ k), Nat.mul_comm (B ^ k)]
    refine ⟨?_, ?_, ?_, ?_, hv2, hu2, hvtop, htop⟩ <;> simp only [hvt, hut, succ_mul] <;> omega
  obtain ⟨q, r, big, R, hest, hR, hq, hqW, hover, hr⟩ := estimateQ_spec htl hu1 hlt
  obtain ⟨-, hlow, hhigh⟩ := adjustQ_spec htl hR hq hqW hover hr
  have hVpos : 0 < value (2 ^ w) (v2l ++ [v2] ++ [vtop]) := by
    have := Nat.mul_pos (Nat.pow_pos (n := k + 1) (by omega : 0 < 2 ^ w)) htop
    omega
  rw [hx'.value_snoc u0] at hlow hhigh ⊢
  obtain ⟨rem, hrl, hrv, hstep⟩ := subtract_spec hB hv hx' hVpos hlow hhigh
  refine ⟨rem, hrl, hrv, ?_⟩
  rw [← hstep, knuthStep]
  simp only [hv.length, Nat.add_sub_cancel, show k + 2 - 1 = k + 1 from rfl, hgv1, hgv2, hgx0, hgx1,
    hgx2, htake, hest]

/-- Limbs of the dividend are brought down from the top one; each gives a quotient limb and a new
remainder. -/
def digitLoop {S : Type*} (step : S → Nat → Nat × S) : List Nat → S → List Nat → List Nat × S
  | [], r, qs => (qs, r)
  | x :: l, r, qs => digitLoop step l (step r x).2 ((step r x).1 :: qs)

theorem digitLoop_spec {S : Type*} {g : S → Nat → Nat × S} {f : S → Nat} {I : S → Prop} {V : Nat}
    (hstep : ∀ r x, I r → x < B →
      I (g r x).2 ∧ (g r x).1 < B ∧ (g r x).1 * V + f (g r x).2 = f r * B + x)
    {l : List Nat} (hl : ∀ x ∈ l, x < B) {r : S} (hr : I r) (qs : List Nat) :
    I (digitLoop g l r qs).2 ∧ ∃ digits, IsLimbs B l.length digits ∧
      (digitLoop g l r qs).1 = digits ++ qs ∧
      value B digits * V + f (digitLoop g l r qs).2 = value B l.reverse + B ^ l.length * f r := by
  induction l generalizing r qs with
  | nil => exact ⟨hr, [], .nil, rfl, by simp [digitLoop]⟩
  | cons x l ih =>
    obtain ⟨hinv, hq, hval⟩ := hstep r x hr (hl x (by simp))
    obtain ⟨hend, digits, hd, heq, hrest⟩ :=
      ih (fun y hy => hl y (by simp [hy])) hinv ((g r x).1 :: qs)
    refine ⟨hend, digits ++ [(g r x).1], hd.append (IsLimbs.nil.cons hq), ?_, ?_⟩
    · rw [digitLoop, heq, append_assoc, singleton_append]
    rw [digitLoop, hd.value_snoc, reverse_cons, value_append, length_reverse, value_cons,
      value_nil, length_cons, pow_succ]
    linear_combination hrest + B ^ l.length * hval

/-- The step of the long division keeps the remainder in as many limbs as the divisor. -/
def longStep (w : Nat) (v r : List Nat) (x : Nat) : Nat × List Nat :=
  let s := knuthStep w v (x :: r)
  (s.1, s.2.take v.length)

theorem longStep_spec (hw : 0 < w) (hv : IsLimbs (2 ^ w) (k + 2) v) (htop : 0 < v.getD (k + 1) 0)
    {r : List Nat} (hr : IsLimbs (2 ^ w) (k + 2) r) (hlt : value (2 ^ w) r < value (2 ^ w) v)
    {x : Nat} (hx : x < 2 ^ w) : (IsLimbs (2 ^ w) (k + 2) (longStep w v r x).2 ∧
      value (2 ^ w) (longStep w v r x).2 < value (2 ^ w) v) ∧
      (longStep w v r x).1 < 2 ^ w ∧
      (longStep w v r x).1 * value (2 ^ w) v + value (2 ^ w) (longStep w v r x).2 =
        value (2 ^ w) r * 2 ^ w + x := by
  have hbound : value (2 ^ w) (x :: r) < 2 ^ w * value (2 ^ w) v := by
    have := Nat.mul_le_mul_left (2 ^ w) hlt
    rw [mul_succ] at this
    rw [value_cons]
    omega
  obtain ⟨r', hr', hval, hstep⟩ := knuthStep_spec hw hv (hr.cons hx) htop hbound
  have hpos : 0 < value (2 ^ w) v := by omega
  have htake : (r' ++ [0]).take v.length = r' := by
    rw [hv.length, ← hr'.length, take_left']
    rfl
  rw [longStep, hstep]
  simp only [htake]
  refine ⟨⟨hr', hval ▸ mod_lt _ hpos⟩, Nat.div_lt_of_lt_mul (by rw [Nat.mul_comm]; exact hbound),
    ?_⟩
  rw [hval, Nat.mul_comm, div_add_mod, value_cons]
  ring

/-- The step of the short division by `d`, on operands shifted up by `s`. -/
def shortStep (w s dn r x : Nat) : Nat × Nat :=
  let hi := if s = 0 then r else r <<< s % 2 ^ w ||| x >>> (w - s)
  let lo := x <<< s % 2 ^ w
  let q := restoring w dn w hi lo 0
  (q.1, q.2 >>> s)

theorem shortStep_spec {d r x : Nat} (hs : s < w) (hd : d * 2 ^ s < 2 ^ w) (hr : r < d)
    (hx : x < 2 ^ w) :
    (shortStep w s (d * 2 ^ s) r x).2 < d ∧ (shortStep w s (d * 2 ^ s) r x).1 < 2 ^ w ∧
      (shortStep w s (d * 2 ^ s) r x).1 * d + (shortStep w s (d * 2 ^ s) r x).2 =
        r * 2 ^ w + x := by
  have hpow : (2 : Nat) ^ w = 2 ^ s * 2 ^ (w - s) := (pow_mul_pow_sub 2 hs.le).symm
  have hpos := Nat.two_pow_pos s
  have hrs : r * 2 ^ s < 2 ^ w := lt_of_le_of_lt (Nat.mul_le_mul_right _ hr.le) hd
  have hout : x / 2 ^ (w - s) < 2 ^ s :=
    Nat.div_lt_of_lt_mul (by rw [Nat.mul_comm, ← hpow]; exact hx)
  have hhi : (if s = 0 then r else r <<< s % 2 ^ w ||| x >>> (w - s)) =
      r * 2 ^ s + x / 2 ^ (w - s) := by
    split
    · rename_i h0
      rw [h0, pow_zero, Nat.mul_one, Nat.sub_zero, div_eq_of_lt hx, Nat.add_zero]
    · rw [shiftLeft_eq, mod_eq_of_lt hrs, shiftRight_eq_div_pow, Nat.mul_comm r,
        two_pow_add_eq_or_of_lt hout]
  have hhilt : r * 2 ^ s + x / 2 ^ (w - s) < d * 2 ^ s := by
    have := Nat.mul_le_mul_right (2 ^ s) hr
    rw [succ_mul] at this
    omega
  -- the pair of words is the dividend shifted up
  have hpair : (r * 2 ^ s + x / 2 ^ (w - s)) * 2 ^ w + 2 ^ s * (x % 2 ^ (w - s)) =
      (r * 2 ^ w + x) * 2 ^ s := by
    have hdm := mod_add_div x (2 ^ (w - s))
    linear_combination 2 ^ s * hdm + (x / 2 ^ (w - s)) * hpow
  have hlo : 2 ^ s * (x % 2 ^ (w - s)) < 2 ^ w := by
    rw [hpow]
    exact Nat.mul_lt_mul_of_pos_left (mod_lt _ (Nat.two_pow_pos _)) hpos
  have hdpos : 0 < d := by omega
  have hstep : shortStep w s (d * 2 ^ s) r x = ((r * 2 ^ w + x) / d, (r * 2 ^ w + x) % d) := by
    rw [shortStep, hhi, shl_word hs.le, restoring_eq hd.le hhilt hlo, hpair, shiftRight_eq_div_pow,
      mul_mod_mul_right, Nat.mul_div_mul_right _ _ hpos, Nat.mul_div_cancel _ hpos]
  rw [hstep]
  refine ⟨mod_lt _ hdpos, Nat.div_lt_of_lt_mul ?_, ?_⟩
  · have := Nat.mul_le_mul_right (2 ^ w) hr
    rw [succ_mul] at this
    omega
  · rw [Nat.mul_comm]
    exact div_add_mod _ _

end KestrelOS.Limbs
