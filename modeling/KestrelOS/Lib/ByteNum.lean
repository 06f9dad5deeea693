import KestrelOS.Lib.Bytes
import Mathlib.Data.List.GetD
import Mathlib.Tactic.Ring

/-!
# Numbers as byte strings

The little-endian and the big-endian number of the first bytes of a string, their digits, and the
shifts that join bytes to words and words to each other.
-/

namespace KestrelOS

open List Nat

/-- The number whose little-endian bytes are the first `n` of `s`. -/
def leNat (s : Bytes) : Nat → Nat
  | 0 => 0
  | n + 1 => leNat s n + 256 ^ n * (s n).toNat

theorem leNat_lt (s : Bytes) (n : Nat) : leNat s n < 256 ^ n := by
  induction n with
  | zero => simp [leNat]
  | succ n ih =>
    have hb := (s n).toNat_lt
    have hle : 256 ^ n * (s n).toNat ≤ 256 ^ n * 255 := mul_le_mul_left _ (by omega)
    rw [leNat, pow_succ]
    omega

theorem leNat_add (s : Bytes) (m n : Nat) :
    leNat s (m + n) = leNat s m + 256 ^ m * leNat (fun k => s (m + k)) n := by
  induction n with
  | zero => simp [leNat]
  | succ n ih =>
    rw [← add_assoc, leNat, ih, leNat, mul_add, pow_add]
    ring

theorem shift_or_byte {t b : Nat} (ht : t < 2 ^ 56) (hb : b < 256) :
    t <<< 8 % 2 ^ 64 ||| b = 256 * t + b := by
  have hlt : t <<< 8 < 2 ^ 64 := by
    rw [shiftLeft_eq]
    omega
  rw [mod_eq_of_lt hlt, ← shiftLeft_add_eq_or_of_lt (by omega : b < 2 ^ 8), shiftLeft_eq]
  omega

variable {out s s' : Bytes} {j m v : Nat} {l : List UInt8}

theorem leNat_congr (n : Nat) (h : ∀ i < n, s i = s' i) : leNat s n = leNat s' n := by
  induction n with
  | zero => rfl
  | succ n ih => rw [leNat, leNat, ih fun i hi => h i (by omega), h n (by omega)]

theorem leNat_digit (s : Bytes) {n : Nat} (hj : j < n) :
    leNat s n / 256 ^ j % 256 = (s j).toNat := by
  obtain ⟨d, rfl⟩ : ∃ d, n = j + (1 + d) := ⟨n - j - 1, by omega⟩
  have hpos : 0 < 256 ^ j := Nat.pow_pos (by decide)
  have hb := (s j).toNat_lt
  rw [leNat_add, add_mul_div_left _ _ hpos, div_eq_of_lt (leNat_lt s j), leNat_add]
  simp only [leNat, Nat.add_zero]
  omega

theorem leNat_leByte {n : Nat} (h : ∀ i < n, out i = leByte v i) : leNat out n = v % 256 ^ n := by
  induction n with
  | zero => simp [leNat, mod_one]
  | succ n ih =>
    rw [leNat, ih fun i hi => h i (by omega), h n (by omega), leByte_toNat, mod_pow_succ]

theorem or_shiftLeft_mod {x y b : Nat} (hx : x < 2 ^ b) (hbm : b + m = 64) :
    x ||| y <<< b % 2 ^ 64 = x + 2 ^ b * (y % 2 ^ m) := by
  have hmod : y <<< b % 2 ^ 64 = (y % 2 ^ m) <<< b := by
    rw [shiftLeft_eq, shiftLeft_eq, ← hbm, add_comm b m, pow_add,
      mul_mod_mul_right]
  rw [hmod, Nat.or_comm, ← shiftLeft_add_eq_or_of_lt hx, shiftLeft_eq]
  ring

theorem digit_byte (v i : Nat) (hj : j < 8) :
    UInt8.ofNat ((v / 2 ^ (64 * i) % 2 ^ 64) >>> (8 * j)) = leByte v (8 * i + j) := by
  have hsplit : (2 : Nat) ^ 64 = 2 ^ (8 * j) * 2 ^ (64 - 8 * j) := by
    rw [← Nat.pow_add]
    congr 1
    omega
  have hdvd : 2 ^ 8 ∣ 2 ^ (64 - 8 * j) := pow_dvd_pow 2 (by omega)
  have hpow : (256 : Nat) ^ (8 * i + j) = 2 ^ (64 * i) * 2 ^ (8 * j) := by
    rw [show (256 : Nat) = 2 ^ 8 from rfl, ← pow_mul, ← pow_add]
    congr 1
    ring
  apply UInt8.toNat_inj.mp
  rw [leByte_toNat, UInt8.toNat_ofNat', shiftRight_eq_div_pow, hpow, ← Nat.div_div_eq_div_mul,
    hsplit, mod_mul_right_div_self, mod_mod_of_dvd _ hdvd]
  rfl

/-- The number whose big-endian bytes are the first `n` of `s`. -/
def beNat (s : Bytes) : Nat → Nat
  | 0 => 0
  | n + 1 => 256 * beNat s n + (s n).toNat

theorem beNat_lt (s : Bytes) (n : Nat) : beNat s n < 256 ^ n := by
  induction n with
  | zero => simp [beNat]
  | succ n ih =>
    have hb := (s n).toNat_lt
    rw [beNat, pow_succ]
    omega

theorem beNat_congr (n : Nat) (h : ∀ i < n, s i = s' i) : beNat s n = beNat s' n := by
  induction n with
  | zero => rfl
  | succ n ih => rw [beNat, beNat, ih fun i hi => h i (by omega), h n (by omega)]

theorem beNat_add (s : Bytes) (m n : Nat) :
    beNat s (m + n) = 256 ^ n * beNat s m + beNat (fun k => s (m + k)) n := by
  induction n with
  | zero => simp [beNat]
  | succ n ih =>
    rw [← add_assoc, beNat, ih, beNat, pow_succ]
    ring

def beByte (v n k : Nat) : UInt8 := leByte v (n - 1 - k)

theorem beNat_beByte {n : Nat} (h : ∀ k < n, out k = beByte v n k) : beNat out n = v % 256 ^ n := by
  induction n generalizing v with
  | zero => simp [beNat, mod_one]
  | succ n ih =>
    have hdiv : ∀ k < n, out k = beByte (v / 256) n k := by
      intro k hk
      rw [h k (by omega), beByte, beByte, leByte, leByte, Nat.div_div_eq_div_mul, ← Nat.pow_succ']
      congr 3
      omega
    have hlast : (out n).toNat = v % 256 := by
      rw [h n (by omega), beByte, leByte_toNat]
      simp
    rw [beNat, ih hdiv, hlast, Nat.pow_succ', mod_mul]
    omega

private theorem beByte_beNat (s : Bytes) {n k : Nat} (hk : k < n) :
    beByte (beNat s n) n k = s k := by
  induction n with
  | zero => omega
  | succ n ih =>
    have hb := (s n).toNat_lt
    apply UInt8.toNat_inj.mp
    rcases Nat.lt_succ_iff_lt_or_eq.mp hk with hlt | rfl
    · obtain ⟨d, hd⟩ : ∃ d, n - k = d + 1 := ⟨n - k - 1, by omega⟩
      have hdiv : beNat s (n + 1) / 256 = beNat s n := by
        rw [beNat]
        omega
      have ih := ih hlt
      rw [beByte, show n - 1 - k = d by omega] at ih
      rw [beByte, show n + 1 - 1 - k = d + 1 by omega, leByte_toNat, pow_succ',
        ← Nat.div_div_eq_div_mul, hdiv, ← leByte_toNat, ih]
    · rw [beByte, leByte_toNat, beNat]
      simp only [Nat.add_sub_cancel, Nat.sub_self, Nat.pow_zero, Nat.div_one]
      omega

def beVal (l : List UInt8) : Nat := l.foldl (fun v b => 256 * v + b.toNat) 0

theorem beNat_getD {n : Nat} (hn : n ≤ l.length) :
    beNat (fun k => l.getD k 0) n = beVal (l.take n) := by
  induction n with
  | zero => rfl
  | succ n ih =>
    have hlt : n < l.length := hn
    rw [beNat, ih (by omega), take_succ_eq_append_getElem hlt, beVal, beVal, foldl_append,
      getD_eq_getElem _ _ hlt]
    rfl

theorem beVal_eq_beNat (l : List UInt8) : beVal l = beNat (fun k => l.getD k 0) l.length := by
  rw [beNat_getD le_rfl, take_length]

theorem beVal_lt (l : List UInt8) : beVal l < 256 ^ l.length := by
  rw [beVal_eq_beNat]
  exact beNat_lt _ _

theorem beVal_append (l l' : List UInt8) :
    beVal (l ++ l') = 256 ^ l'.length * beVal l + beVal l' := by
  have hfold : ∀ (l' : List UInt8) (v : Nat), l'.foldl (fun v b => 256 * v + b.toNat) v =
      256 ^ l'.length * v + beVal l' := by
    intro l'
    induction l' with
    | nil => simp [beVal]
    | cons b l' ih =>
      intro v
      have hcons : beVal (b :: l') = 256 ^ l'.length * b.toNat + beVal l' := by
        rw [beVal, foldl_cons, ih, mul_zero, zero_add]
      rw [foldl_cons, ih, hcons, length_cons, pow_succ]
      ring
  rw [beVal, foldl_append, hfold]
  rfl

theorem beVal_cons (b : UInt8) (l : List UInt8) :
    beVal (b :: l) = 256 ^ l.length * b.toNat + beVal l := by
  rw [← singleton_append, beVal_append]
  simp [beVal]

theorem beVal_dropWhile (l : List UInt8) : beVal (l.dropWhile (· == 0)) = beVal l := by
  induction l with
  | nil => rfl
  | cons b l ih =>
    rw [dropWhile_cons]
    split
    · rename_i hb
      have hb : b = 0 := by simpa using hb
      rw [ih, beVal_cons, hb]
      simp
    · rfl

def beBytes (v n : Nat) : List UInt8 := (List.range n).map (beByte v n)

@[simp] theorem length_beBytes (v n : Nat) : (beBytes v n).length = n := by simp [beBytes]

private theorem getD_beBytes {n k : Nat} (hk : k < n) : (beBytes v n).getD k 0 = beByte v n k := by
  rw [getD_eq_getElem _ _ (by simpa using hk)]
  simp [beBytes]

theorem eq_beBytes_iff {n : Nat} (hl : l.length = n) (hv : v < 256 ^ n) :
    l = beBytes v n ↔ beVal l = v := by
  rw [beVal_eq_beNat, hl]
  constructor
  · rintro rfl
    rw [beNat_beByte fun k hk => getD_beBytes hk, mod_eq_of_lt hv]
  rintro rfl
  apply ext_getElem (by simpa using hl)
  intro k h1 h2
  rw [← getD_eq_getElem _ 0 h2, getD_beBytes (by omega), beByte_beNat _ (by omega),
    getD_eq_getElem _ _ h1]

private theorem beVal_zeros (p : Nat) : beVal (replicate p 0) = 0 := by
  rw [← beVal_dropWhile]
  simp [beVal]

theorem beBytes_of_lt (p : Nat) (hv : v < 256 ^ m) :
    beBytes v (p + m) = replicate p 0 ++ beBytes v m := by
  have hlt : v < 256 ^ (p + m) := hv.trans_le (Nat.pow_le_pow_right (by decide) (by omega))
  symm
  rw [eq_beBytes_iff (by simp) hlt, beVal_append, beVal_zeros, mul_zero, zero_add]
  exact (eq_beBytes_iff (length_beBytes v m) hv).mp rfl

theorem lt_of_zeros {p : Nat} (hv : v < 256 ^ (p + m))
    (hz : ((beBytes v (p + m)).take p).all (· == 0)) : v < 256 ^ m := by
  have hzero : (beBytes v (p + m)).take p = replicate p 0 := by
    rw [eq_replicate_iff]
    exact ⟨by simp, fun b hb => by simpa using all_eq_true.mp hz b hb⟩
  have hval : beVal (beBytes v (p + m)) = v := (eq_beBytes_iff (length_beBytes v _) hv).mp rfl
  have hlow : v = beVal ((beBytes v (p + m)).drop p) := by
    conv_lhs => rw [← hval, ← take_append_drop p (beBytes v (p + m)), beVal_append, hzero,
      beVal_zeros, mul_zero, zero_add]
  have hlt := beVal_lt ((beBytes v (p + m)).drop p)
  rwa [← hlow, length_drop, length_beBytes, Nat.add_sub_cancel_left] at hlt

end KestrelOS
