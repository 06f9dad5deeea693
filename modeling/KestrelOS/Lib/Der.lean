import KestrelOS.Lib.ByteNum
import Mathlib.Data.Nat.Digits.Lemmas
import Mathlib.Data.Nat.Size

/-!
# Distinguished encoding

Identifiers, definite lengths and integers, each in the fewest octets, and elements with a one-octet
identifier. An encoding is told by its octets.
-/

namespace KestrelOS.Der

open List Nat

def byteLen (n : Nat) : Nat := (n.size + 7) / 8

def lenOctets (n : Nat) : List UInt8 :=
  if n < 0x80 then [UInt8.ofNat n] else UInt8.ofNat (0x80 + byteLen n) :: beBytes n (byteLen n)

/-- The base-128 digits of a number, each with its top bit set. -/
def marked (n : Nat) : List UInt8 :=
  ((Nat.digits 128 n).map fun d => UInt8.ofNat (0x80 + d)).reverse

/-- Class, constructed bit and tag number; a tag number from 31 on has octets of its own. -/
def identOctets (cls : Nat) (constructed : Bool) (tag : Nat) : List UInt8 :=
  UInt8.ofNat (64 * cls + 32 * constructed.toNat + min tag 0x1f) ::
    if tag < 0x1f then [] else marked (tag / 128) ++ [UInt8.ofNat (tag % 128)]

def elem (tag : UInt8) (content : List UInt8) : List UInt8 :=
  tag :: (lenOctets content.length ++ content)

/-- The octets of a number; zero has one. -/
def natBytes (n : Nat) : List UInt8 := if n = 0 then [0] else beBytes n (byteLen n)

/-- The contents of a non-negative INTEGER: a zero octet keeps the sign bit clear. -/
def natContent (n : Nat) : List UInt8 :=
  if (natBytes n).headD 0 &&& 0x80 ≠ 0 then 0 :: natBytes n else natBytes n

@[simp] theorem marked_zero : marked 0 = [] := by simp [marked]

variable {n k : Nat}

theorem marked_eq (hn : n ≠ 0) : marked n = marked (n / 128) ++ [UInt8.ofNat (0x80 + n % 128)] := by
  rw [marked, digits_def' (by decide) (pos_of_ne_zero hn), map_cons, reverse_cons]
  rfl

theorem marked_length_le (h : n < 128 ^ k) : (marked n).length ≤ k := by
  rw [marked, length_reverse, length_map]
  exact (digits_length_le_iff (by decide) n).mpr h

theorem byteLen_le_iff : byteLen n ≤ k ↔ n < 256 ^ k := by
  rw [byteLen, show (256 : Nat) = 2 ^ 8 from rfl, ← pow_mul, ← size_le]
  omega

theorem lt_pow_byteLen (n : Nat) : n < 256 ^ byteLen n := byteLen_le_iff.mp le_rfl

theorem pow_le_of_byteLen (h : byteLen n = k + 1) : 256 ^ k ≤ n := by
  by_contra hlt
  have := byteLen_le_iff.mpr (not_le.mp hlt)
  omega

theorem byteLen_pos (hn : n ≠ 0) : 0 < byteLen n := by
  by_contra h
  have := byteLen_le_iff.mp (not_lt.mp h)
  omega

theorem byteLen_eq (hlt : n < 256 ^ (k + 1)) (hge : 256 ^ k ≤ n) : byteLen n = k + 1 := by
  have h1 := byteLen_le_iff.mpr hlt
  have h2 : ¬ byteLen n ≤ k := fun h => by
    have := byteLen_le_iff.mp h
    omega
  omega

@[simp] theorem beVal_beBytes {v : Nat} (h : v < 256 ^ n) : beVal (beBytes v n) = v :=
  (eq_beBytes_iff (length_beBytes v n) h).mp rfl

theorem natBytes_length_pos (n : Nat) : 0 < (natBytes n).length := by
  rw [natBytes]
  split
  · simp
  rename_i h
  rw [length_beBytes]
  exact byteLen_pos h

theorem beVal_natBytes (n : Nat) : beVal (natBytes n) = n := by
  rw [natBytes]
  split
  · rename_i h
    rw [h]
    rfl
  · exact beVal_beBytes (lt_pow_byteLen n)

theorem natBytes_length_le (hk : 0 < k) : (natBytes n).length ≤ k ↔ n < 256 ^ k := by
  rw [natBytes]
  split
  · rename_i h
    simp only [length_singleton, h, pow_pos (by decide : 0 < 256), iff_true]
    exact hk
  · rw [length_beBytes, byteLen_le_iff]

theorem eq_natBytes {l : List UInt8} (hl : 0 < l.length) (h : l.headD 0 = 0 → l.length = 1) :
    l = natBytes (beVal l) := by
  obtain ⟨b, l, rfl⟩ := exists_cons_of_length_pos hl
  rw [headD_cons, length_cons] at h
  rcases eq_or_ne b 0 with rfl | hb
  · obtain rfl : l = [] := length_eq_zero_iff.mp (by have := h rfl; omega)
    rfl
  have hb' : 0 < b.toNat := pos_of_ne_zero fun h0 => hb (UInt8.toNat_inj.mp h0)
  have hlt := beVal_lt (b :: l)
  have hge : 256 ^ l.length ≤ beVal (b :: l) := by
    rw [beVal_cons]
    have := Nat.le_mul_of_pos_right (256 ^ l.length) hb'
    omega
  have hpos := pow_pos (n := l.length) (by decide : 0 < 256)
  rw [natBytes, if_neg (by omega), byteLen_eq hlt hge]
  exact (eq_beBytes_iff rfl hlt).mpr rfl

theorem natBytes_head (hn : n ≠ 0) : (natBytes n).headD 0 ≠ 0 := by
  rw [natBytes, if_neg hn]
  obtain ⟨k, hk⟩ := exists_eq_succ_of_ne_zero (byteLen_pos hn).ne'
  have hge := pow_le_of_byteLen hk
  have hval := beVal_beBytes (lt_pow_byteLen n)
  have hlen := length_beBytes n (byteLen n)
  intro h0
  obtain ⟨b, l, hbl⟩ :=
    exists_cons_of_length_pos (by rw [hlen, hk]; omega : 0 < (beBytes n (byteLen n)).length)
  rw [hbl] at h0 hval hlen
  rw [headD_cons] at h0
  rw [length_cons, hk] at hlen
  rw [beVal_cons, h0] at hval
  have := beVal_lt l
  rw [show l.length = k by omega] at this
  simp at hval
  omega

end KestrelOS.Der
