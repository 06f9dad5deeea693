import KestrelOS.Lib.ByteNum
import KestrelOS.Lib.LongDivision
import KestrelOS.Tls.M256
import Mathlib.Data.Nat.Size

/-!
# Big integers

`bignum.c`: integers in a fixed array of 130 words. Every function that writes a number ends by
counting its significant words again, so the count is read off the array.
-/

namespace KestrelOS.Tls

open Limbs Function List Nat

def bnMaxLimbs : Nat := 64

def bnLimbs : Nat := 130

structure Bn where
  v : List Nat
  limbs : IsLimbs limbRadix bnLimbs v

/-- The count that `bn_norm` finds, from the top word down. -/
def sigLimbs : List Nat → Nat
  | [] => 0
  | x :: l =>
    let r := sigLimbs l
    if r = 0 then if x = 0 then 0 else 1 else r + 1

namespace Bn

def n (a : Bn) : Nat := sigLimbs a.v

/-- The array with the words of `l` at the bottom and zeros above. -/
def ofLimbs (l : List Nat) : Bn where
  v := (List.range bnLimbs).map fun i => l.getD i 0 % limbRadix
  limbs := by
    refine ⟨by simp, ?_⟩
    intro x hx
    obtain ⟨i, -, rfl⟩ := List.mem_map.mp hx
    exact Nat.mod_lt _ limbRadix_pos

def val (a : Bn) : Nat := value limbRadix a.v

end Bn

def bnZero : Bn := Bn.ofLimbs []

def bnSetU64 (x : Nat) : Bn := Bn.ofLimbs [x]

def bnIsOdd (a : Bn) : Bool := decide (a.n > 0) && (a.v.headD 0 &&& 1 == 1)

def bitLoop : Nat → Nat → Nat → Nat
  | 0, _, b => b
  | i + 1, t, b => if t = 0 then b else bitLoop i (t >>> 1) (b + 1)

def bnBits (a : Bn) : Nat :=
  if a.n = 0 then 0 else bitLoop 64 (a.v.getD (a.n - 1) 0) ((a.n - 1) * 64)

def bnBytes (a : Bn) : Nat := (bnBits a + 7) / 8

def bnGetBit (a : Bn) (i : Nat) : Nat := if i ≥ bnLimbs * 64 then 0 else limbBit a.v i

def bnCmp (a b : Bn) : Int :=
  if a.n ≠ b.n then if a.n < b.n then -1 else 1 else Limbs.cmp (a.v.take a.n) (b.v.take a.n)

def lowByte (b : List UInt8) : Bytes := fun k => if k < b.length then b.getD (b.length - 1 - k) 0
    else 0

def bnFromBytes (b : List UInt8) : Option Bn :=
  let b := b.dropWhile (· == 0)
  if b.length > bnMaxLimbs * 8 then none else
    some <| Bn.ofLimbs <| (List.range bnMaxLimbs).map fun i =>
      (List.range 8).foldl (fun x j => x ||| (lowByte b (8 * i + j)).toNat <<< (8 * j)) 0

def bnToBytes (a : Bn) (len : Nat) : Option (List UInt8) :=
  if bnBytes a > len then none else
    some <| (List.range len).map fun i =>
      let k := len - 1 - i
      if k / 8 < bnLimbs then UInt8.ofNat (a.v.getD (k / 8) 0 >>> (8 * (k % 8))) else 0

def bnShl (a : Bn) (bits : Nat) : Option Bn :=
  let words := bits / 64
  let sh := bits % 64
  if a.n = 0 then some bnZero
  else if a.n + words + (if sh ≠ 0 then 1 else 0) > bnLimbs then none else
    let t := shlC 64 sh (a.v.take a.n) 0
    some (Bn.ofLimbs (List.replicate words 0 ++ (t.1 ++ [t.2])))

def nlz64 (x : Nat) : Nat := if x = 0 then 64 else normShift 64 64 x

def bnDivmod (a b : Bn) : Option (Bn × Bn) :=
  if b.n = 0 then none
  else if b.n > bnMaxLimbs then none
  else if bnCmp a b < 0 then some (bnZero, a)
  else if b.n = 1 then
    let d := b.v.getD 0 0
    let sh := nlz64 d
    let dn := d <<< sh % 2 ^ 64
    let r := digitLoop (shortStep 64 sh dn) (a.v.take a.n).reverse 0 []
    some (Bn.ofLimbs r.1, bnSetU64 r.2)
  else
    let s := nlz64 (b.v.getD (b.n - 1) 0)
    let v := (shlC 64 s (b.v.take b.n) 0).1
    let t := shlC 64 s (a.v.take a.n) 0
    let u := t.1 ++ [t.2]
    -- the window starts at the top `b.n` words and moves down to word 0
    let low := u.take (a.n + 1 - b.n)
    let r := digitLoop (longStep 64 v) low.reverse (u.drop (a.n + 1 - b.n)) []
    some (Bn.ofLimbs r.1, Bn.ofLimbs (shrC 64 s r.2))

def bnMod (a m : Bn) : Option Bn := (bnDivmod a m).map Prod.snd

def bnStore (p : Option Nat) (x : Bn) (mem : Nat → Bn) : Nat → Bn :=
  p.elim mem (Function.update mem · x)

/-- `bn_divmod` on the objects that its pointers name. The words of `a` and `b` are in local arrays
when the first result is stored; a dividend below the divisor is copied to `r` before `q` is
cleared. -/
def bnDivmodAt (mem : Nat → Bn) (q r : Option Nat) (a b : Nat) : Option (Nat → Bn) :=
  (bnDivmod (mem a) (mem b)).map fun res =>
    if bnCmp (mem a) (mem b) < 0 then bnStore q res.1 (bnStore r res.2 mem)
    else bnStore r res.2 (bnStore q res.1 mem)

def bnModAt (mem : Nat → Bn) (r a m : Nat) : Option (Nat → Bn) := bnDivmodAt mem none (some r) a m

namespace Bn

theorem val_lt (a : Bn) : a.val < limbRadix ^ bnLimbs := a.limbs.value_lt

theorem eq_of_val {a b : Bn} (h : a.val = b.val) : a = b := by
  have hv := a.limbs.eq_of_value (by decide) b.limbs h
  cases a
  cases b
  simpa using hv

variable {l : List Nat} {k : Nat}

theorem ofLimbs_v (hl : IsLimbs limbRadix k l) (hk : k ≤ bnLimbs) :
    (ofLimbs l).v = l ++ replicate (bnLimbs - k) 0 := by
  apply ext_getElem
  · simp [ofLimbs, hl.length]
    omega
  intro i h1 h2
  have hi : i < bnLimbs := by simpa [ofLimbs] using h1
  simp only [ofLimbs, getElem_map, getElem_range]
  rw [← getD_eq_getElem _ 0 h2]
  rcases lt_or_ge i k with hik | hik
  · rw [getD_append _ _ _ _ (by rw [hl.length]; exact hik), getD_eq_getElem _ _
      (by rw [hl.length]; exact hik)]
    exact mod_eq_of_lt (hl.lt _ (getElem_mem _))
  rw [getD_append_right _ _ _ _ (by rw [hl.length]; exact hik),
    getD_eq_default _ _ (by rw [hl.length]; exact hik)]
  rw [zero_mod, hl.length, getD_replicate 0 (by omega)]

theorem val_ofLimbs (hl : IsLimbs limbRadix k l) (hk : k ≤ bnLimbs) :
    (ofLimbs l).val = value limbRadix l := by
  rw [val, ofLimbs_v hl hk, value_append, value_replicate_zero, mul_zero, add_zero]

@[simp] theorem val_zero : bnZero.val = 0 := val_ofLimbs .nil (by decide)

theorem val_setU64 {x : Nat} (hx : x < limbRadix) : (bnSetU64 x).val = x := by
  rw [bnSetU64, val_ofLimbs (IsLimbs.nil.cons hx) (by decide)]
  simp

end Bn

theorem sigLimbs_le_length (l : List Nat) : sigLimbs l ≤ l.length := by
  induction l with
  | nil => simp [sigLimbs]
  | cons x l ih =>
    rw [sigLimbs, length_cons]
    split
    · split <;> omega
    · omega

theorem sigLimbs_spec {B : Nat} (hB : 0 < B) {l : List Nat} :
    value B (l.take (sigLimbs l)) = value B l ∧
      (sigLimbs l = 0 ↔ value B l = 0) ∧
      (0 < sigLimbs l → 0 < l.getD (sigLimbs l - 1) 0) := by
  induction l with
  | nil => simp [sigLimbs]
  | cons x l ih =>
    obtain ⟨hval, hzero, htop⟩ := ih
    rw [sigLimbs]
    by_cases hr : sigLimbs l = 0
    · have hl := hzero.mp hr
      rw [if_pos hr]
      split
      · rename_i hx
        simp [hx, hl]
      rename_i hx
      simp [hl, hx]
      omega
    · rw [if_neg hr, take_succ_cons, value_cons, value_cons, hval]
      have hne : value B l ≠ 0 := mt hzero.mpr hr
      refine ⟨rfl, ?_, ?_⟩
      · constructor
        · omega
        intro h
        have : B * value B l ≠ 0 := mul_ne_zero hB.ne' hne
        omega
      · intro _
        obtain ⟨m, hm⟩ : ∃ m, sigLimbs l = m + 1 := ⟨sigLimbs l - 1, by omega⟩
        rw [hm] at htop ⊢
        simpa using htop

namespace Bn

section
variable (a : Bn)
include a

theorem n_le : a.n ≤ bnLimbs := a.limbs.length ▸ sigLimbs_le_length a.v

theorem split {k : Nat} (hk : k ≤ bnLimbs) : IsLimbs limbRadix k (a.v.take k) ∧
      a.val = value limbRadix (a.v.take k) + limbRadix ^ k * value limbRadix (a.v.drop k) := by
  obtain ⟨hlow, -, hval⟩ := IsLimbs.split ((Nat.add_sub_cancel' hk).symm ▸ a.limbs)
  exact ⟨hlow, hval⟩

theorem sig_isLimbs : IsLimbs limbRadix a.n (a.v.take a.n) := (a.split a.n_le).1

theorem sig_value : value limbRadix (a.v.take a.n) = a.val := (sigLimbs_spec limbRadix_pos).1

theorem n_eq_zero_iff : a.n = 0 ↔ a.val = 0 := (sigLimbs_spec limbRadix_pos).2.1

theorem top_pos (h : 0 < a.n) : 0 < a.v.getD (a.n - 1) 0 :=
  (sigLimbs_spec limbRadix_pos).2.2 h

theorem val_lt_pow_n : a.val < limbRadix ^ a.n := a.sig_value ▸ a.sig_isLimbs.value_lt

theorem top_lt (i : Nat) : a.v.getD i 0 < limbRadix := by
  rcases lt_or_ge i a.v.length with h | h
  · rw [getD_eq_getElem _ _ h]
    exact a.limbs.lt _ (getElem_mem h)
  · rw [getD_eq_default _ _ h]
    exact limbRadix_pos

theorem val_split (h : 0 < a.n) :
    ∃ low, IsLimbs limbRadix (a.n - 1) low ∧ a.v.take a.n = low ++ [a.v.getD (a.n - 1) 0] ∧
      a.val = value limbRadix low + limbRadix ^ (a.n - 1) * a.v.getD (a.n - 1) 0 := by
  obtain ⟨m, hm⟩ : ∃ m, a.n = m + 1 := ⟨a.n - 1, by omega⟩
  have hval := a.sig_value
  have hle := a.n_le
  have hlt : m < a.v.length := by rw [a.limbs.length]; omega
  rw [hm] at hval ⊢
  rw [take_succ_eq_append_getElem hlt, ← getD_eq_getElem a.v 0 hlt] at hval ⊢
  have hlow := (a.split (by omega : m ≤ bnLimbs)).1
  exact ⟨_, hlow, rfl, by rw [← hval, hlow.value_snoc]; rfl⟩

theorem pow_le_val (h : 0 < a.n) : limbRadix ^ (a.n - 1) ≤ a.val := by
  obtain ⟨low, -, -, hval⟩ := a.val_split h
  have := Nat.le_mul_of_pos_right (limbRadix ^ (a.n - 1)) (a.top_pos h)
  omega

theorem n_le_iff (k : Nat) : a.n ≤ k ↔ a.val < limbRadix ^ k := by
  constructor
  · intro h
    exact lt_of_lt_of_le a.val_lt_pow_n (Nat.pow_le_pow_right limbRadix_pos h)
  intro h
  by_contra hgt
  have hle := Nat.pow_le_pow_right limbRadix_pos (by omega : k ≤ a.n - 1)
  have := a.pow_le_val (by omega)
  omega

end

theorem take_value {a : Bn} {k : Nat} (hk : a.n ≤ k) (hk' : k ≤ bnLimbs) :
    IsLimbs limbRadix k (a.v.take k) ∧ value limbRadix (a.v.take k) = a.val := by
  obtain ⟨hl, hval⟩ := a.split hk'
  refine ⟨hl, ?_⟩
  have hlt := (a.n_le_iff k).mp hk
  rcases Nat.eq_zero_or_pos (value limbRadix (a.v.drop k)) with h | h
  · rw [hval, h, Nat.mul_zero, Nat.add_zero]
  · have := Nat.le_mul_of_pos_right (limbRadix ^ k) h
    omega

end Bn

theorem bitLoop_eq {i t : Nat} (h : t < 2 ^ i) (b : Nat) : bitLoop i t b = b + t.size := by
  induction i generalizing t b with
  | zero =>
    have : t = 0 := by simpa using h
    simp [bitLoop, this]
  | succ i ih =>
    rw [bitLoop]
    split
    · rename_i h0
      simp [h0]
    rename_i h0
    have hhalf : t >>> 1 = t / 2 := shiftRight_eq_div_pow t 1
    have hlt : t / 2 < 2 ^ i := Nat.div_lt_of_lt_mul (by rw [← Nat.pow_succ']; exact h)
    have hsize : t.size = (t / 2).size + 1 := by
      rw [← bit_bodd_div2 t, size_bit]
      · simp [div2_val]
      · rwa [bit_bodd_div2]
    rw [hhalf, ih hlt, hsize]
    omega

theorem bnBits_eq (a : Bn) : bnBits a = a.val.size := by
  rw [bnBits]
  split
  · rename_i h
    rw [(a.n_eq_zero_iff).mp h, size_zero]
  rename_i h
  have hpos : 0 < a.n := by omega
  obtain ⟨low, hlow, -, hval⟩ := a.val_split hpos
  have hlt := hlow.value_lt
  have htop := a.top_pos hpos
  have htop2 := a.top_lt (a.n - 1)
  rw [bitLoop_eq htop2, hval]
  generalize a.v.getD (a.n - 1) 0 = t at *
  generalize a.n - 1 = m at *
  have hpow : limbRadix ^ m = 2 ^ (m * 64) := by rw [limbRadix_pow, mul_comm]
  rw [hpow] at hlt ⊢
  apply le_antisymm
  · -- the top bit of `t` is set
    obtain ⟨s, hs⟩ : ∃ s, t.size = s + 1 := ⟨t.size - 1, by
      have := size_pos.mpr htop
      omega⟩
    have hge : 2 ^ s ≤ t := lt_size.mp (by omega)
    rw [hs, ← add_assoc, succ_le_iff, lt_size, pow_add]
    have := mul_le_mul_left (2 ^ (m * 64)) hge
    omega
  · rw [size_le, pow_add]
    have hle : t + 1 ≤ 2 ^ t.size := lt_size_self t
    have := mul_le_mul_left (2 ^ (m * 64)) hle
    rw [mul_succ] at this
    omega

theorem bnGetBit_eq (a : Bn) (i : Nat) : bnGetBit a i = a.val / 2 ^ i % 2 := by
  rw [bnGetBit]
  split
  · rename_i h
    have hlt : a.val < 2 ^ i := calc
      a.val < limbRadix ^ bnLimbs := a.val_lt
      _ = 2 ^ (64 * bnLimbs) := limbRadix_pow _
      _ ≤ 2 ^ i := Nat.pow_le_pow_right (by decide) (by omega)
    rw [div_eq_of_lt hlt]
  · exact limbBit_eq a.limbs i

theorem bnIsOdd_iff (a : Bn) : bnIsOdd a ↔ a.val % 2 = 1 := by
  obtain ⟨x, xs, hv, -, -⟩ := a.limbs.exists_cons
  have h2 : limbRadix % 2 = 0 := by decide
  have hmod : a.val % 2 = x % 2 := by
    rw [Bn.val, hv, value_cons, add_mod, mul_mod, h2]
    simp
  rw [bnIsOdd, Bool.and_eq_true, decide_eq_true_eq, beq_iff_eq, hv, headD_cons,
    and_one_is_mod, hmod]
  constructor
  · exact fun h => h.2
  intro h
  refine ⟨?_, h⟩
  by_contra hn
  have := (a.n_eq_zero_iff).mp (by omega)
  omega

theorem bnCmp_lt_iff (a b : Bn) : bnCmp a b < 0 ↔ a.val < b.val := by
  rw [bnCmp]
  split
  · rename_i hne
    split
    · rename_i hlt
      have h1 := a.val_lt_pow_n
      have h2 := b.pow_le_val (by omega)
      have h3 := Nat.pow_le_pow_right limbRadix_pos (by omega : a.n ≤ b.n - 1)
      simp only [Int.reduceNeg, Int.reduceLT, true_iff]
      omega
    · rename_i hge
      have h1 := b.val_lt_pow_n
      have h2 := a.pow_le_val (by omega)
      have h3 := Nat.pow_le_pow_right limbRadix_pos (by omega : b.n ≤ a.n - 1)
      simp only [Int.reduceLT, false_iff]
      omega
  · rename_i heq
    have heq : a.n = b.n := not_not.mp heq
    have hb := b.sig_isLimbs
    have hbv := b.sig_value
    rw [← heq] at hb hbv
    have h := cmp_nonneg_iff a.sig_isLimbs hb
    rw [a.sig_value, hbv] at h
    omega

theorem limbRadix_pow_bytes (k : Nat) : limbRadix ^ k = 256 ^ (8 * k) := by
  rw [limbRadix, show (2 : Nat) ^ 64 = 256 ^ 8 from rfl, ← pow_mul]

theorem foldl_or_bytes (s : Bytes) (n : Nat) :
    (range n).foldl (fun x j => x ||| (s j).toNat <<< (8 * j)) 0 = leNat s n := by
  induction n with
  | zero => rfl
  | succ n ih =>
    have hlt := leNat_lt s n
    rw [leNat]
    rw [show (256 : Nat) = 2 ^ 8 from rfl, ← pow_mul] at hlt ⊢
    rw [range_succ, foldl_append, ih, foldl_cons, foldl_nil, Nat.or_comm,
      ← shiftLeft_add_eq_or_of_lt hlt, shiftLeft_eq]
    ring

theorem leWords_spec (s : Bytes) (k : Nat) :
    IsLimbs limbRadix k ((range k).map fun i => leNat (fun j => s (8 * i + j)) 8) ∧
      value limbRadix ((range k).map fun i => leNat (fun j => s (8 * i + j)) 8) =
        leNat s (8 * k) := by
  induction k with
  | zero => exact ⟨.nil, rfl⟩
  | succ k ih =>
    have hlt : leNat (fun j => s (8 * k + j)) 8 < limbRadix := leNat_lt _ 8
    rw [range_succ, map_append]
    refine ⟨ih.1.append (IsLimbs.nil.cons hlt), ?_⟩
    rw [map_cons, map_nil, ih.1.value_snoc, ih.2, mul_succ, leNat_add,
      limbRadix_pow_bytes]

theorem leNat_lowByte (b : List UInt8) {n : Nat} (hn : b.length ≤ n) :
    leNat (lowByte b) n = beVal b := by
  have hrev : ∀ m, m ≤ b.length → leNat (lowByte b) m = beVal (b.drop (b.length - m)) := by
    intro m hm
    induction m with
    | zero => simp [leNat, beVal]
    | succ m ih =>
      have hlt : b.length - (m + 1) < b.length := by omega
      have hdrop := drop_eq_getElem_cons hlt
      rw [show b.length - (m + 1) + 1 = b.length - m by omega] at hdrop
      rw [leNat, ih (by omega), hdrop, beVal_cons, length_drop, lowByte, if_pos (by omega),
        show b.length - 1 - m = b.length - (m + 1) by omega, getD_eq_getElem _ _ hlt,
        show b.length - (b.length - m) = m by omega]
      ring
  obtain ⟨d, rfl⟩ : ∃ d, n = b.length + d := ⟨n - b.length, by omega⟩
  have hzero : leNat (fun k => lowByte b (b.length + k)) d = 0 := by
    induction d with
    | zero => rfl
    | succ d ih =>
      rw [leNat, ih (by omega), lowByte, if_neg (by omega)]
      rfl
  rw [leNat_add, hrev _ le_rfl, Nat.sub_self, drop_zero, hzero, Nat.mul_zero, Nat.add_zero]

theorem length_dropWhile_le_iff (b : List UInt8) :
    (b.dropWhile (· == 0)).length ≤ bnMaxLimbs * 8 ↔ beVal b < limbRadix ^ bnMaxLimbs := by
  rw [limbRadix_pow_bytes, Nat.mul_comm 8, ← beVal_dropWhile b]
  have hhead : ∀ h, (b.dropWhile (· == 0)).head h ≠ 0 := by
    intro h
    have := head_dropWhile_not (· == 0) h
    simpa using this
  have hlt := beVal_lt (b.dropWhile (· == 0))
  generalize b.dropWhile (· == 0) = l at *
  constructor
  · intro hle
    exact lt_of_lt_of_le hlt (Nat.pow_le_pow_right (by decide) hle)
  intro hval
  by_contra hlong
  obtain ⟨x, l', rfl⟩ := exists_cons_of_length_pos (by omega : 0 < l.length)
  have hx : 0 < x.toNat := pos_of_ne_zero fun h0 =>
    hhead (by simp) (UInt8.toNat_inj.mp h0)
  rw [beVal_cons] at hval
  rw [length_cons] at hlong
  have h1 := Nat.pow_le_pow_right (by decide : 0 < 256) (by omega : bnMaxLimbs * 8 ≤ l'.length)
  have h2 := Nat.le_mul_of_pos_right (256 ^ l'.length) hx
  omega

variable {b : List UInt8} {a : Bn} {k : Nat} {l : List Nat}

theorem bnFromBytes_of_lt (h : beVal b < limbRadix ^ bnMaxLimbs) :
    ∃ a, bnFromBytes b = some a ∧ a.val = beVal b := by
  have hlen := (length_dropWhile_le_iff b).mpr h
  obtain ⟨hl, hv⟩ := leWords_spec (lowByte (b.dropWhile (· == 0))) bnMaxLimbs
  rw [leNat_lowByte _ (by omega), beVal_dropWhile] at hv
  rw [bnFromBytes, if_neg (by omega)]
  simp only [foldl_or_bytes]
  exact ⟨_, rfl, by rw [Bn.val_ofLimbs hl (by decide), hv]⟩

theorem bnFromBytes_eq_some_iff :
    bnFromBytes b = some a ↔ a.val = beVal b ∧ beVal b < limbRadix ^ bnMaxLimbs := by
  constructor
  · intro h
    have hlt : beVal b < limbRadix ^ bnMaxLimbs := by
      rw [← length_dropWhile_le_iff]
      rw [bnFromBytes] at h
      split at h
      · cases h
      · omega
    obtain ⟨a', ha', hv⟩ := bnFromBytes_of_lt hlt
    rw [h] at ha'
    cases ha'
    exact ⟨hv, hlt⟩
  · rintro ⟨hv, hlt⟩
    obtain ⟨a', ha', hv'⟩ := bnFromBytes_of_lt hlt
    rw [ha', Bn.eq_of_val (hv'.trans hv.symm)]

theorem bnToBytes_eq {len : Nat} (h : a.val < 256 ^ len) :
    bnToBytes a len = some (beBytes a.val len) := by
  have hbytes : bnBytes a ≤ len := by
    rw [show (256 : Nat) = 2 ^ 8 from rfl, ← pow_mul, ← size_le] at h
    rw [bnBytes, bnBits_eq]
    omega
  rw [bnToBytes, if_neg (by omega), beBytes]
  congr 1
  apply map_congr_left
  intro i _
  dsimp only
  split
  · have hdig := value_digit (j := (len - 1 - i) / 8) a.limbs
    rw [limbRadix, ← pow_mul] at hdig
    rw [← hdig, digit_byte _ _ (mod_lt _ (by decide)), beByte, div_add_mod]
    rfl
  · rename_i hk
    -- past the array the number has no bytes
    have hlt : a.val < 256 ^ (len - 1 - i) := calc
      a.val < limbRadix ^ bnLimbs := a.val_lt
      _ = 256 ^ (8 * bnLimbs) := limbRadix_pow_bytes _
      _ ≤ 256 ^ (len - 1 - i) := Nat.pow_le_pow_right (by decide) (by omega)
    rw [beByte, leByte, div_eq_of_lt hlt]
    rfl

theorem shlC_words {s : Nat} (hs : s < 64) (hl : IsLimbs limbRadix k l) :
    IsLimbs limbRadix k (shlC 64 s l 0).1 ∧ (shlC 64 s l 0).2 < 2 ^ s ∧
      value limbRadix (shlC 64 s l 0).1 + limbRadix ^ k * (shlC 64 s l 0).2 =
        value limbRadix l * 2 ^ s :=
  shlC_spec hs hl (Nat.two_pow_pos s)

theorem bnShl_eq {bits : Nat} (h : a.val * 2 ^ bits < limbRadix ^ (bnLimbs - 1)) :
    ∃ r, bnShl a bits = some r ∧ r.val = a.val * 2 ^ bits := by
  rw [bnShl]
  dsimp only
  split
  · rename_i hz
    exact ⟨_, rfl, by rw [(a.n_eq_zero_iff).mp hz]; simp⟩
  rename_i hz
  have hpos : 0 < a.n := by omega
  have hsplit : (2 : Nat) ^ bits = limbRadix ^ (bits / 64) * 2 ^ (bits % 64) := by
    rw [limbRadix_pow, ← pow_add, div_add_mod]
  have hroom : a.n + bits / 64 + (if bits % 64 ≠ 0 then 1 else 0) ≤ bnLimbs ∧
      bits / 64 + (a.n + 1) ≤ bnLimbs := by
    have h1 := a.pow_le_val hpos
    have h2 : limbRadix ^ (a.n - 1 + bits / 64) < limbRadix ^ (bnLimbs - 1) := calc
      limbRadix ^ (a.n - 1 + bits / 64) = limbRadix ^ (a.n - 1) * limbRadix ^ (bits / 64) :=
        pow_add _ _ _
      _ ≤ a.val * limbRadix ^ (bits / 64) := mul_le_mul_right _ h1
      _ ≤ a.val * 2 ^ bits := by
        rw [hsplit]
        exact Nat.mul_le_mul_left _ (Nat.le_mul_of_pos_right _ (Nat.two_pow_pos _))
      _ < limbRadix ^ (bnLimbs - 1) := h
    have h3 := (Nat.pow_lt_pow_iff_right one_lt_limbRadix).mp h2
    have hle : (if bits % 64 ≠ 0 then 1 else 0) ≤ 1 := by split <;> omega
    exact ⟨by omega, by omega⟩
  rw [if_neg (by omega)]
  obtain ⟨hl, hc, hv⟩ := shlC_words (mod_lt bits (by decide : 0 < 64)) a.sig_isLimbs
  have hword : (shlC 64 (bits % 64) (a.v.take a.n) 0).2 < limbRadix :=
    lt_of_lt_of_le hc (Nat.pow_le_pow_right (by decide) (mod_lt _ (by decide)).le)
  have hall := (IsLimbs.replicate_zero limbRadix_pos (bits / 64)).append
    (hl.append (IsLimbs.nil.cons hword))
  refine ⟨_, rfl, ?_⟩
  rw [Bn.val_ofLimbs hall hroom.2, value_append, value_replicate_zero, length_replicate,
    zero_add, hl.value_snoc, hv, hsplit, a.sig_value]
  ring

theorem nlz64_spec {x : Nat} (h0 : 0 < x) (hx : x < limbRadix) :
    nlz64 x < 64 ∧ (x + 1) * 2 ^ nlz64 x ≤ limbRadix := by
  rw [nlz64, if_neg (by omega)]
  obtain ⟨-, hlt⟩ := normShift_spec 64 hx (by omega) (by decide)
  have hs : normShift 64 64 x < 64 := by
    by_contra hge
    have h1 := Nat.pow_le_pow_right (by decide : 0 < 2) (by omega : 64 ≤ normShift 64 64 x)
    have h2 := Nat.le_mul_of_pos_left (2 ^ normShift 64 64 x) h0
    omega
  refine ⟨hs, ?_⟩
  have hpow : limbRadix = 2 ^ (64 - normShift 64 64 x) * 2 ^ normShift 64 64 x := by
    rw [limbRadix, ← pow_add]
    congr 1
    omega
  have hlt' : x * 2 ^ normShift 64 64 x < limbRadix := hlt
  rw [hpow] at hlt' ⊢
  exact Nat.mul_le_mul_right _ (Nat.lt_of_mul_lt_mul_right hlt')

theorem div_of_shifted {A V Q R s : Nat} (h : Q * (V * 2 ^ s) + R = A * 2 ^ s)
    (hR : R < V * 2 ^ s) :
    Q = A / V ∧ R / 2 ^ s = A % V := by
  have hpos := Nat.two_pow_pos s
  have hV : 0 < V * 2 ^ s := by omega
  obtain ⟨hq, hr⟩ : A * 2 ^ s / (V * 2 ^ s) = Q ∧ A * 2 ^ s % (V * 2 ^ s) = R := by
    rw [Nat.div_mod_unique hV, ← h]
    exact ⟨by ring, hR⟩
  rw [Nat.mul_div_mul_right _ _ hpos] at hq
  rw [mul_mod_mul_right] at hr
  exact ⟨hq.symm, by rw [← hr, Nat.mul_div_cancel _ hpos]⟩

theorem divisor_shifted (b : Bn) (hb : 0 < b.n) : nlz64 (b.v.getD (b.n - 1) 0) < 64 ∧
      IsLimbs limbRadix b.n (shlC 64 (nlz64 (b.v.getD (b.n - 1) 0)) (b.v.take b.n) 0).1 ∧
      value limbRadix (shlC 64 (nlz64 (b.v.getD (b.n - 1) 0)) (b.v.take b.n) 0).1 =
        b.val * 2 ^ nlz64 (b.v.getD (b.n - 1) 0) := by
  obtain ⟨hs, hfit⟩ := nlz64_spec (b.top_pos hb) (b.top_lt _)
  obtain ⟨hl, -, hv⟩ := shlC_words hs b.sig_isLimbs
  obtain ⟨low, hlow, -, hval⟩ := b.val_split hb
  have hlowlt := hlow.value_lt
  rw [b.sig_value] at hv
  refine ⟨hs, hl, ?_⟩
  generalize nlz64 (b.v.getD (b.n - 1) 0) = s at *
  -- no bit leaves the top word
  have hlt : b.val * 2 ^ s < limbRadix ^ b.n := calc
    b.val * 2 ^ s < limbRadix ^ (b.n - 1) * (b.v.getD (b.n - 1) 0 + 1) * 2 ^ s := by
      apply Nat.mul_lt_mul_of_pos_right _ (Nat.two_pow_pos s)
      rw [mul_succ]
      omega
    _ = limbRadix ^ (b.n - 1) * ((b.v.getD (b.n - 1) 0 + 1) * 2 ^ s) := by ring
    _ ≤ limbRadix ^ (b.n - 1) * limbRadix := mul_le_mul_left _ hfit
    _ = limbRadix ^ b.n := by rw [← pow_succ, Nat.sub_add_cancel hb]
  rcases Nat.eq_zero_or_pos (shlC 64 s (b.v.take b.n) 0).2 with h0 | hpos
  · rw [h0, Nat.mul_zero, Nat.add_zero] at hv
    exact hv
  · have := Nat.le_mul_of_pos_right (limbRadix ^ b.n) hpos
    omega

theorem getD_top_pos (hl : IsLimbs limbRadix (k + 1) l) (hge : limbRadix ^ k ≤ value limbRadix l) :
    0 < l.getD k 0 := by
  obtain ⟨low, x, rfl, hlow, -⟩ := hl.exists_snoc
  have := hlow.value_lt
  rw [hlow.value_snoc] at hge
  rw [getD_snoc hlow.length]
  by_contra h
  rw [show x = 0 by omega, mul_zero] at hge
  omega

theorem short_division (hl : IsLimbs limbRadix k l) {d : Nat} (h0 : 0 < d) (hd : d < limbRadix) :
    ∃ digits, IsLimbs limbRadix k digits ∧
      digitLoop (shortStep 64 (nlz64 d) (d <<< nlz64 d % 2 ^ 64)) l.reverse 0 [] =
        (digits, value limbRadix l % d) ∧ value limbRadix digits = value limbRadix l / d := by
  obtain ⟨hs, hfit⟩ := nlz64_spec h0 hd
  generalize nlz64 d = s at *
  have hpos := Nat.two_pow_pos s
  have hdn : d * 2 ^ s < 2 ^ 64 := by
    have : (d + 1) * 2 ^ s ≤ 2 ^ 64 := hfit
    rw [succ_mul] at this
    omega
  rw [shiftLeft_eq, mod_eq_of_lt hdn]
  obtain ⟨hrem, digits, hdig, heq, hsum⟩ := digitLoop_spec
    (g := shortStep 64 s (d * 2 ^ s)) (f := id) (I := (· < d)) (V := d) (B := limbRadix)
      (fun r x hr hx => shortStep_spec hs hdn hr hx)
    (fun x hx => hl.lt x (mem_reverse.mp hx)) h0 []
  rw [append_nil] at heq
  rw [length_reverse, hl.length] at hdig
  rw [reverse_reverse, id, id, Nat.mul_zero, Nat.add_zero] at hsum
  obtain ⟨hq, hr⟩ : value limbRadix l / d = value limbRadix digits ∧ value limbRadix l % d =
      (digitLoop (shortStep 64 s (d * 2 ^ s)) l.reverse 0 []).2 := by
    rw [Nat.div_mod_unique h0, ← hsum]
    exact ⟨by ring, hrem⟩
  exact ⟨digits, hdig, Prod.ext heq hr.symm, hq.symm⟩

theorem long_division {u v : List Nat} {j m : Nat} (hv : IsLimbs limbRadix (m + 2) v)
    (htop : 0 < v.getD (m + 1) 0) (hu : IsLimbs limbRadix (j + (m + 2)) u)
    (hlt : value limbRadix (u.drop j) < value limbRadix v) :
    ∃ digits r, IsLimbs limbRadix j digits ∧ IsLimbs limbRadix (m + 2) r ∧
      digitLoop (longStep 64 v) (u.take j).reverse (u.drop j) [] = (digits, r) ∧
      value limbRadix digits * value limbRadix v + value limbRadix r = value limbRadix u ∧
      value limbRadix r < value limbRadix v := by
  obtain ⟨hlow, hhigh, hsplit⟩ := hu.split
  obtain ⟨hrem, digits, hdig, heq, hsum⟩ := digitLoop_spec (f := value limbRadix)
    (I := fun r => IsLimbs limbRadix (m + 2) r ∧ value limbRadix r < value limbRadix v)
    (V := value limbRadix v) (B := limbRadix)
    (fun r x hr hx => longStep_spec (by decide) hv htop hr.1 hr.2 hx)
    (fun x hx => hlow.lt x (mem_reverse.mp hx)) ⟨hhigh, hlt⟩ []
  rw [append_nil] at heq
  rw [length_reverse, hlow.length] at hdig hsum
  rw [reverse_reverse, ← hsplit] at hsum
  exact ⟨digits, _, hdig, hrem.1, Prod.ext heq rfl, hsum, hrem.2⟩

theorem bnDivmod_spec (a b : Bn) (hb : b.val ≠ 0) (hb' : b.n ≤ bnMaxLimbs) :
    ∃ q r, bnDivmod a b = some (q, r) ∧ q.val = a.val / b.val ∧ r.val = a.val % b.val := by
  have hn : b.n ≠ 0 := mt (b.n_eq_zero_iff).mp hb
  rw [bnDivmod, if_neg hn, if_neg (by omega)]
  by_cases hcmp : bnCmp a b < 0
  · rw [if_pos hcmp]
    have hlt := (bnCmp_lt_iff a b).mp hcmp
    exact ⟨_, _, rfl, by rw [Bn.val_zero, div_eq_of_lt hlt], (mod_eq_of_lt hlt).symm⟩
  rw [if_neg hcmp]
  have hge : b.val ≤ a.val := by
    have := mt (bnCmp_lt_iff a b).mpr hcmp
    omega
  by_cases h1 : b.n = 1
  · rw [if_pos h1]
    obtain ⟨low, hlow, -, hval⟩ := b.val_split (by omega)
    rw [h1, Nat.sub_self] at hlow hval
    rw [hlow.eq_nil, value_nil, zero_add, pow_zero, one_mul] at hval
    obtain ⟨digits, hdig, hloop, hq⟩ :=
      short_division a.sig_isLimbs (pos_of_ne_zero (hval ▸ hb)) (b.top_lt 0)
    dsimp only
    rw [hloop, a.sig_value, ← hval]
    rw [a.sig_value, ← hval] at hq
    have hsmall : a.val % b.val < limbRadix :=
      lt_of_lt_of_le (mod_lt _ (pos_of_ne_zero hb)) (hval ▸ (b.top_lt 0).le)
    exact ⟨_, _, rfl, by rw [Bn.val_ofLimbs hdig a.n_le, hq], Bn.val_setU64 hsmall⟩
  rw [if_neg h1]
  dsimp only
  obtain ⟨m, hm⟩ : ∃ m, b.n = m + 2 := ⟨b.n - 2, by omega⟩
  have han : b.n ≤ a.n := by
    by_contra hlt
    have h2 := a.val_lt_pow_n
    have h3 := b.pow_le_val (by omega)
    have h4 := Nat.pow_le_pow_right limbRadix_pos (by omega : a.n ≤ b.n - 1)
    omega
  obtain ⟨hs, hv, hvv⟩ := divisor_shifted b (by omega)
  generalize nlz64 (b.v.getD (b.n - 1) 0) = s at *
  generalize (shlC 64 s (b.v.take b.n) 0).1 = v at *
  obtain ⟨hul, huc, huv⟩ := shlC_words hs a.sig_isLimbs
  rw [a.sig_value] at huv
  have hword : (shlC 64 s (a.v.take a.n) 0).2 < limbRadix :=
    lt_of_lt_of_le huc (Nat.pow_le_pow_right (by decide) hs.le)
  have hu := hul.append (IsLimbs.nil.cons hword)
  have huval := hul.value_snoc (shlC 64 s (a.v.take a.n) 0).2
  rw [huv] at huval
  generalize (shlC 64 s (a.v.take a.n) 0).1 ++ [(shlC 64 s (a.v.take a.n) 0).2] = u at *
  obtain ⟨j, hj⟩ : ∃ j, a.n + 1 - b.n = j := ⟨_, rfl⟩
  have hlen : a.n + (0 + 1) = j + (m + 2) := by omega
  rw [hlen] at hu
  rw [hm] at hv
  have hpos := Nat.two_pow_pos s
  have hble := b.pow_le_val (by omega)
  rw [hm, show m + 2 - 1 = m + 1 by omega] at hble
  have htop : 0 < v.getD (m + 1) 0 := by
    apply getD_top_pos hv
    rw [hvv]
    exact le_trans hble (Nat.le_mul_of_pos_right _ hpos)
  -- the first window is below the divisor
  have hwin : value limbRadix (u.drop j) < value limbRadix v := by
    have hsplit := hu.split.2.2
    rw [huval] at hsplit
    have halt := a.val_lt_pow_n
    rw [hvv]
    apply Nat.lt_of_mul_lt_mul_left (a := limbRadix ^ j)
    calc limbRadix ^ j * value limbRadix (u.drop j) ≤ a.val * 2 ^ s := by omega
      _ < limbRadix ^ a.n * 2 ^ s := mul_lt_mul_of_pos_right halt hpos
      _ = limbRadix ^ j * (limbRadix ^ (m + 1) * 2 ^ s) := by
        rw [← mul_assoc, ← pow_add]
        congr 2
        omega
      _ ≤ limbRadix ^ j * (b.val * 2 ^ s) := mul_le_mul_left _ (mul_le_mul_right _ hble)
  obtain ⟨digits, r, hdig, hr, hloop, hsum, hrlt⟩ := long_division hv htop hu hwin
  rw [hj, hloop]
  rw [hvv] at hrlt hsum
  rw [huval] at hsum
  obtain ⟨hq, hrem⟩ := div_of_shifted hsum hrlt
  obtain ⟨hshr, hshrv⟩ := @shrC_spec 64 s (m + 2) hs r hr
  have hale := a.n_le
  refine ⟨_, _, rfl, by rw [Bn.val_ofLimbs hdig (by omega), hq], ?_⟩
  rw [Bn.val_ofLimbs hshr (by simp only [bnMaxLimbs, bnLimbs] at *; omega), ← hrem]
  exact hshrv

theorem bnMod_spec (a m : Bn) (hm : m.val ≠ 0) (hm' : m.n ≤ bnMaxLimbs) :
    ∃ r, bnMod a m = some r ∧ r.val = a.val % m.val := by
  obtain ⟨q, r, heq, -, hr⟩ := bnDivmod_spec a m hm hm'
  exact ⟨r, by rw [bnMod, heq]; rfl, hr⟩

theorem bnDivmodAt_eq {mem : Nat → Bn} {q r a b : Nat} (hqr : q ≠ r) {x y : Bn}
    (h : bnDivmod (mem a) (mem b) = some (x, y)) :
    bnDivmodAt mem (some q) (some r) a b = some (update (update mem q x) r y) := by
  rw [bnDivmodAt, h, Option.map_some]
  split
  · simp only [bnStore, Option.elim_some]
    rw [update_comm hqr.symm]
  · rfl

theorem bnModAt_eq {mem : Nat → Bn} {a b : Nat} {x y : Bn}
    (h : bnDivmod (mem a) (mem b) = some (x, y))
    (r : Nat) : bnModAt mem r a b = some (update mem r y) := by
  rw [bnModAt, bnDivmodAt, h, Option.map_some]
  exact congrArg some (ite_self _)

/-- `bn_divmod` divides exactly, and `bn_mod` finds the same remainder wherever it stores it. -/
theorem bn_divmod_exact (mem : Nat → Bn) {q r a b : Nat} (hq : q ≠ a ∧ q ≠ b) (hr : r ≠ a ∧ r ≠ b)
    (hqr : q ≠ r) (hb : (mem b).val ≠ 0) (hb' : (mem b).n ≤ bnMaxLimbs) :
    ∃ mem', bnDivmodAt mem (some q) (some r) a b = some mem' ∧ mem' a = mem a ∧ mem' b = mem b ∧
      (mem a).val = (mem' q).val * (mem b).val + (mem' r).val ∧ (mem' r).val < (mem b).val ∧
      ∀ p, ∃ mem'', bnModAt mem p a b = some mem'' ∧ mem'' p = mem' r := by
  obtain ⟨x, y, heq, hx, hy⟩ := bnDivmod_spec (mem a) (mem b) hb hb'
  refine ⟨_, bnDivmodAt_eq hqr heq, ?_, ?_, ?_, ?_, fun p => ⟨_, bnModAt_eq heq p, ?_⟩⟩
  · rw [update_of_ne hr.1.symm, update_of_ne hq.1.symm]
  · rw [update_of_ne hr.2.symm, update_of_ne hq.2.symm]
  · rw [update_self, update_of_ne hqr, update_self, hx, hy, mul_comm]
    exact (div_add_mod _ _).symm
  · rw [update_self, hy]
    exact mod_lt _ (pos_of_ne_zero hb)
  · rw [update_self, update_self]

/-- 30 divided by 7, the remainder also over the dividend. -/
theorem bn_divmod_exact_small : ∃ mem',
    bnDivmodAt (fun i => bnSetU64 (if i = 0 then 30 else 7)) (some 2) (some 3) 0 1 = some mem' ∧
      mem' 0 = bnSetU64 30 ∧ mem' 1 = bnSetU64 7 ∧
      (bnSetU64 30).val = (mem' 2).val * (bnSetU64 7).val + (mem' 3).val ∧
      (mem' 3).val < (bnSetU64 7).val ∧
      ∀ p, ∃ mem'', bnModAt (fun i => bnSetU64 (if i = 0 then 30 else 7)) p 0 1 = some mem'' ∧
        mem'' p = mem' 3 := by
  have h7 : (bnSetU64 7).val = 7 := Bn.val_setU64 (by decide)
  have hn : (bnSetU64 7).n ≤ bnMaxLimbs := by
    rw [Bn.n_le_iff, h7]
    decide
  exact bn_divmod_exact _ (by decide) (by decide) (by decide)
    (by rw [if_neg (by decide), h7]; decide) hn

end KestrelOS.Tls
