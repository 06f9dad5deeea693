import KestrelOS.Lib.Limbs
import Mathlib.Data.ZMod.Basic

/-!
# Montgomery multiplication

The coarsely integrated scan over the limbs of one factor: each round adds a multiple of the other
factor and then the multiple of the modulus that clears the low limb, which is dropped. The
multiplier comes from a Newton iteration that doubles the number of correct bits.
-/

namespace KestrelOS.Limbs

open Nat List

/-- One round. The accumulator has `k` limbs and a top limb. -/
def ciosRound (B : Nat) (n : List Nat) (n0 : Nat) (a : List Nat) (s : List Nat × Nat) (b : Nat) :
    List Nat × Nat :=
  let x := mulAddC B b a s.1 0
  let p := s.2 + x.2
  let mu := x.1.headD 0 * n0 % B
  let y := mulAddC B mu n x.1 0
  let q := p % B + y.2
  (y.1.tail ++ [q % B], (p / B + q / B) % B)

def cios (B : Nat) (n : List Nat) (n0 : Nat) (a b : List Nat) : List Nat × Nat :=
  b.foldl (ciosRound B n n0 a) (List.replicate n.length 0, 0)

section

variable {B k n0 : Nat} {n a : List Nat}

def accValue (B k : Nat) (s : List Nat × Nat) : Nat := value B s.1 + B ^ k * s.2

private theorem mulAddC_head_zero {x m : Nat} {xs ms : List Nat} (hn0 : (m * n0 + 1) % B = 0) :
    (mulAddC B (x * n0 % B) (m :: ms) (x :: xs) 0).1 =
      0 :: (mulAddC B (x * n0 % B) (m :: ms) (x :: xs) 0).1.tail := by
  have hzero : (m * (x * n0 % B) + x) % B = 0 := by
    have hx : m * (x * n0) + x = x * (m * n0 + 1) := by ring
    rw [add_mod, mul_mod, mod_mod, ← mul_mod, ← add_mod, hx,
      mul_mod, hn0, mul_zero, zero_mod]
  simp [mulAddC, hzero]

section
variable {k : Nat} (hB : 1 < B) (hn : IsLimbs B (k + 1) n) (ha : IsLimbs B (k + 1) a)
  (hlt : value B a < value B n) (hn0 : (n.headD 0 * n0 + 1) % B = 0)
include hB hn ha hlt hn0

private theorem ciosRound_spec {s : List Nat × Nat} (hs : IsLimbs B (k + 1) s.1)
    (hacc : accValue B (k + 1) s < 2 * value B n) {b : Nat} (hb : b < B) :
    IsLimbs B (k + 1) (ciosRound B n n0 a s b).1 ∧
      accValue B (k + 1) (ciosRound B n n0 a s b) < 2 * value B n ∧
      ∃ mu, B * accValue B (k + 1) (ciosRound B n n0 a s b) =
        accValue B (k + 1) s + value B a * b + mu * value B n := by
  have hpos : 0 < B := by omega
  obtain ⟨hx, hxval⟩ := mulAddC_spec hpos ha hs b 0
  obtain ⟨x0, xs, hxeq, -, hxs⟩ := hx.exists_cons
  obtain ⟨m, ms, rfl, -, hms⟩ := hn.exists_cons
  let mu := x0 * n0 % B
  obtain ⟨hy, hyval⟩ := mulAddC_spec hpos hn hx mu 0
  have hhead : (mulAddC B mu (m :: ms) (mulAddC B b a s.1 0).1 0).1 =
      0 :: (mulAddC B mu (m :: ms) (mulAddC B b a s.1 0).1 0).1.tail := by
    rw [hxeq]
    exact mulAddC_head_zero (by simpa using hn0)
  have hround : ciosRound B (m :: ms) n0 a s b =
      ((mulAddC B mu (m :: ms) (mulAddC B b a s.1 0).1 0).1.tail ++
        [((s.2 + (mulAddC B b a s.1 0).2) % B +
          (mulAddC B mu (m :: ms) (mulAddC B b a s.1 0).1 0).2) % B],
        ((s.2 + (mulAddC B b a s.1 0).2) / B + ((s.2 + (mulAddC B b a s.1 0).2) % B +
          (mulAddC B mu (m :: ms) (mulAddC B b a s.1 0).1 0).2) / B) % B) := by
    simp only [ciosRound, hxeq, headD_cons, mu]
  have htail : IsLimbs B k (mulAddC B mu (m :: ms) (mulAddC B b a s.1 0).1 0).1.tail := by
    rw [hhead] at hy
    exact (isLimbs_cons.mp hy).2
  rw [hhead, value_cons, zero_add] at hyval
  have hmu : mu < B := mod_lt _ hpos
  have hN := hn.value_lt
  rw [hround]
  generalize (mulAddC B mu (m :: ms) (mulAddC B b a s.1 0).1 0).1.tail = ys at htail hyval ⊢
  generalize (mulAddC B mu (m :: ms) (mulAddC B b a s.1 0).1 0).2 = y2 at hyval ⊢
  generalize (mulAddC B b a s.1 0).2 = x2 at hxval ⊢
  generalize value B (mulAddC B b a s.1 0).1 = X at hxval hyval
  generalize value B (m :: ms) = N at *
  have hp := mod_add_div (s.2 + x2) B
  have hq := mod_add_div ((s.2 + x2) % B + y2) B
  have hql := mod_lt ((s.2 + x2) % B + y2) hpos
  generalize (s.2 + x2) % B = pl at *
  generalize (s.2 + x2) / B = ph at *
  generalize (pl + y2) % B = ql at *
  generalize (pl + y2) / B = qh at *
  -- the sum before the top limb is cut to its width
  have hsum : B * (value B ys + B ^ k * ql + B ^ (k + 1) * (ph + qh)) =
      accValue B (k + 1) s + value B a * b + mu * N := by
    rw [accValue]
    linear_combination hyval + hxval + B ^ (k + 1) * hq + B ^ (k + 1) * hp
  have hbound : value B ys + B ^ k * ql + B ^ (k + 1) * (ph + qh) < 2 * N := by
    have hab : value B a * b ≤ N * (B - 1) := Nat.mul_le_mul hlt.le (by omega)
    have hmn : mu * N ≤ N * (B - 1) := by
      rw [Nat.mul_comm]
      exact mul_le_mul_left N (by omega)
    have hNB : N * (B - 1) + N = N * B := by
      rw [← mul_succ]
      congr 1
      omega
    refine Nat.lt_of_mul_lt_mul_left (a := B) ?_
    rw [hsum, show B * (2 * N) = N * B + N * B by ring]
    omega
  have htop : ph + qh < B := by
    have hle : B ^ (k + 1) * (ph + qh) < B ^ (k + 1) * 2 := by omega
    have := lt_of_mul_lt_mul_left hle
    omega
  have hvalue : accValue B (k + 1) (ys ++ [ql], (ph + qh) % B) =
      value B ys + B ^ k * ql + B ^ (k + 1) * (ph + qh) := by
    rw [accValue, value_append, htail.length, mod_eq_of_lt htop, value_cons, value_nil,
      mul_zero, add_zero]
  rw [hvalue]
  exact ⟨htail.append (IsLimbs.nil.cons hql), hbound, mu, hsum⟩

private theorem foldl_ciosRound (bs : List Nat) (hb : ∀ x ∈ bs, x < B) {s : List Nat × Nat}
    (hs : IsLimbs B (k + 1) s.1) (hacc : accValue B (k + 1) s < 2 * value B n) :
    IsLimbs B (k + 1) (bs.foldl (ciosRound B n n0 a) s).1 ∧
      accValue B (k + 1) (bs.foldl (ciosRound B n n0 a) s) < 2 * value B n ∧
      ∃ mu, B ^ bs.length * accValue B (k + 1) (bs.foldl (ciosRound B n n0 a) s) =
        accValue B (k + 1) s + value B a * value B bs + mu * value B n := by
  induction bs generalizing s with
  | nil => exact ⟨hs, hacc, 0, by simp⟩
  | cons b bs ih =>
    obtain ⟨hs', hacc', mu, hmu⟩ :=
      ciosRound_spec hB hn ha hlt hn0 hs hacc (hb b (by simp))
    obtain ⟨hend, hlast, mu', hmu'⟩ := ih (fun x hx => hb x (by simp [hx])) hs' hacc'
    refine ⟨hend, hlast, mu + B * mu', ?_⟩
    rw [foldl_cons, length_cons, value_cons, pow_succ]
    linear_combination B * hmu' + hmu

theorem cios_spec {b : List Nat} (hb : IsLimbs B (k + 1) b) :
    IsLimbs B (k + 1) (cios B n n0 a b).1 ∧
      accValue B (k + 1) (cios B n n0 a b) < 2 * value B n ∧
      ∃ mu, B ^ (k + 1) * accValue B (k + 1) (cios B n n0 a b) =
        value B a * value B b + mu * value B n := by
  have hstart : accValue B (k + 1) (replicate n.length 0, 0) = 0 := by
    simp [accValue]
  obtain ⟨h1, h2, mu, h3⟩ := foldl_ciosRound hB hn ha hlt hn0 b hb.lt
    (s := (replicate n.length 0, 0)) (hn.length ▸ .replicate_zero (by omega) _)
    (by rw [hstart]; omega)
  rw [hb.length, hstart, zero_add] at h3
  exact ⟨h1, h2, mu, h3⟩

end

end

/-- `x * (2 - m * x)` in words of `w` bits, six times over for 64 bits. -/
def newton (w m : Nat) : Nat → Nat → Nat
  | 0, x => x
  | i + 1, x => newton w m i (x * ((2 + 2 ^ w - m * x % 2 ^ w) % 2 ^ w) % 2 ^ w)

private theorem newton_error (w m i x : Nat) :
    1 - (m : ZMod (2 ^ w)) *
    (newton w m i x : Nat) = (1 - (m : ZMod (2 ^ w)) * (x : Nat)) ^ 2 ^ i := by
  induction i generalizing x with
  | zero => simp [newton]
  | succ i ih =>
    have hle : m * x % 2 ^ w ≤ 2 + 2 ^ w := by
      have := mod_lt (m * x) (Nat.two_pow_pos w)
      omega
    have hstep : ((x * ((2 + 2 ^ w - m * x % 2 ^ w) % 2 ^ w) % 2 ^ w : Nat) : ZMod (2 ^ w)) =
        x * (2 - m * x) := by
      rw [ZMod.natCast_mod, cast_mul, ZMod.natCast_mod, cast_sub hle, ZMod.natCast_mod,
        cast_add, ZMod.natCast_self, add_zero, cast_mul]
      rfl
    rw [newton, ih, hstep, pow_succ', pow_mul]
    congr 1
    ring

private theorem newton_inverse {w m i : Nat} (hm : m % 2 = 1) (hi : w ≤ 2 ^ i) :
    ((m * newton w m i 1 : Nat) : ZMod (2 ^ w)) = 1 := by
  have herr := newton_error w m i 1
  obtain ⟨c, hc⟩ : ∃ c, m = 2 * c + 1 := ⟨m / 2, by omega⟩
  have heven : (1 - (m : ZMod (2 ^ w)) * ((1 : Nat) : ZMod (2 ^ w))) ^ 2 ^ i = 0 := by
    have hpow : (2 : ZMod (2 ^ w)) ^ w = 0 := by
      have := ZMod.natCast_self (2 ^ w)
      exact_mod_cast this
    have h2 : (2 : ZMod (2 ^ w)) ^ 2 ^ i = 0 := by
      rw [← add_sub_of_le hi, pow_add, hpow, zero_mul]
    rw [hc]
    push_cast
    rw [show (1 : ZMod (2 ^ w)) - (2 * c + 1) * 1 = 2 * (-c) by ring, mul_pow, h2, zero_mul]
  rw [heven, sub_eq_zero] at herr
  rw [cast_mul]
  exact herr.symm

/-- Minus the inverse of the low limb, for 64-bit limbs. -/
def montN0 (m : Nat) : Nat := (2 ^ 64 - 1 - newton 64 m 6 1 + 1) % 2 ^ 64

private theorem newton_lt (w m i x : Nat) (hx : x < 2 ^ w) : newton w m i x < 2 ^ w := by
  induction i generalizing x with
  | zero => exact hx
  | succ i ih => exact ih _ (mod_lt _ (Nat.two_pow_pos w))

theorem montN0_spec {m : Nat} (hm : m % 2 = 1) : (m * montN0 m + 1) % 2 ^ 64 = 0 := by
  have hinv := newton_inverse (i := 6) (w := 64) hm (by decide)
  have hlt := newton_lt 64 m 6 1 (by decide)
  apply mod_eq_zero_of_dvd
  rw [← ZMod.natCast_eq_zero_iff]
  have hneg : ((montN0 m : Nat) : ZMod (2 ^ 64)) = -(newton 64 m 6 1 : Nat) := by
    rw [montN0, ZMod.natCast_mod,
      show 2 ^ 64 - 1 - newton 64 m 6 1 + 1 = 2 ^ 64 - newton 64 m 6 1 by
      omega, cast_sub hlt.le, ZMod.natCast_self, zero_sub]
  rw [cast_mul] at hinv
  rw [cast_add, cast_mul, hneg, cast_one]
  linear_combination -hinv

end KestrelOS.Limbs
