import Mathlib.Tactic.Ring

/-!
# Byte strings read at offsets

A struct or a buffer in memory is a window of a byte string addressed by natural offsets.
Little-endian words are read with `le16` and `le32`, and `splice` is the copy of one window over
another.
-/

namespace KestrelOS

open List

abbrev Bytes := Nat → UInt8

def le16 (f : Bytes) (i : Nat) : Nat := (f i).toNat + 256 * (f (i + 1)).toNat

def le32 (f : Bytes) (i : Nat) : Nat :=
  (f i).toNat + 256 * (f (i + 1)).toNat + 65536 * (f (i + 2)).toNat +
    16777216 * (f (i + 3)).toNat

def leByte (v i : Nat) : UInt8 := UInt8.ofNat (v / 256 ^ i)

/-- Copy `n` bytes of `g` over `f` at offset `off`. -/
def splice (f : Bytes) (off n : Nat) (g : Bytes) : Bytes :=
  fun i => if off ≤ i ∧ i < off + n then g (i - off) else f i

def wordsBytes (w : Nat → Nat) : Bytes := fun i => leByte (w (i / 4)) (i % 4)

/-- The NUL-terminated string at `off`, at most `n` bytes of it. -/
def cstrAt (f : Bytes) (off n : Nat) : List UInt8 :=
  ((List.range n).map fun i => f (off + i)).takeWhile (· != 0)

theorem le16_lt (f : Bytes) (i : Nat) : le16 f i < 65536 := by
  have h0 := (f i).toNat_lt
  have h1 := (f (i + 1)).toNat_lt
  unfold le16
  omega

theorem le32_lt (f : Bytes) (i : Nat) : le32 f i < 4294967296 := by
  have h0 := (f i).toNat_lt
  have h1 := (f (i + 1)).toNat_lt
  have h2 := (f (i + 2)).toNat_lt
  have h3 := (f (i + 3)).toNat_lt
  unfold le32
  omega

theorem leByte_toNat (v i : Nat) : (leByte v i).toNat = v / 256 ^ i % 256 := by
  simp [leByte]

private theorem le16_eq_of_leByte (f : Bytes) (i v : Nat) (h : ∀ k < 2, f (i + k) = leByte v k) :
    le16 f i = v % 65536 := by
  have h0 := h 0 (by omega)
  have h1 := h 1 (by omega)
  simp only [Nat.add_zero] at h0
  simp only [le16, h0, h1, leByte_toNat]
  omega

theorem le32_eq_of_leByte (f : Bytes) (i v : Nat) (h : ∀ k < 4, f (i + k) = leByte v k) :
    le32 f i = v % 4294967296 := by
  have h0 := h 0 (by omega)
  have h1 := h 1 (by omega)
  have h2 := h 2 (by omega)
  have h3 := h 3 (by omega)
  simp only [Nat.add_zero] at h0
  simp only [le32, h0, h1, h2, h3, leByte_toNat]
  omega

theorem le16_congr (f g : Bytes) (i j : Nat) (h : ∀ k < 2, f (i + k) = g (j + k)) :
    le16 f i = le16 g j := by
  have h0 := h 0 (by omega)
  simp only [Nat.add_zero] at h0
  simp only [le16, h0, h 1 (by omega)]

theorem le32_congr (f g : Bytes) (i j : Nat) (h : ∀ k < 4, f (i + k) = g (j + k)) :
    le32 f i = le32 g j := by
  have h0 := h 0 (by omega)
  simp only [Nat.add_zero] at h0
  simp only [le32, h0, h 1 (by omega), h 2 (by omega), h 3 (by omega)]

private theorem wordsBytes_add (w : Nat → Nat) (k : Nat) {j : Nat} (hj : j < 4) :
    wordsBytes w (4 * k + j) = leByte (w k) j := by
  rw [wordsBytes, show (4 * k + j) / 4 = k by omega, show (4 * k + j) % 4 = j by omega]

theorem le32_wordsBytes (w : Nat → Nat) (k : Nat) :
    le32 (wordsBytes w) (4 * k) = w k % 4294967296 := by
  apply le32_eq_of_leByte
  exact fun j hj => wordsBytes_add w k hj

theorem le16_wordsBytes_low (w : Nat → Nat) (k : Nat) :
    le16 (wordsBytes w) (4 * k) = w k % 65536 := by
  apply le16_eq_of_leByte
  exact fun j hj => wordsBytes_add w k (by omega)

theorem le16_wordsBytes_high (w : Nat → Nat) (k : Nat) :
    le16 (wordsBytes w) (4 * k + 2) = w k / 65536 % 65536 := by
  apply le16_eq_of_leByte
  intro j hj
  rw [Nat.add_assoc, wordsBytes_add w k (by omega), leByte, leByte, Nat.pow_add,
    ← Nat.div_div_eq_div_mul]

theorem cstrAt_congr (f g : Bytes) (i j n : Nat) (h : ∀ k < n, f (i + k) = g (j + k)) :
    cstrAt f i n = cstrAt g j n := by
  unfold cstrAt
  congr 1
  apply map_congr_left
  intro k hk
  exact h k (mem_range.mp hk)

theorem splice_inside (f g : Bytes) (off n i : Nat) (h : i < n) :
    splice f off n g (off + i) = g i := by
  simp [splice, h]

theorem splice_outside (f g : Bytes) (off n i : Nat) (h : i < off ∨ off + n ≤ i) :
    splice f off n g i = f i := by
  have : ¬ (off ≤ i ∧ i < off + n) := by omega
  simp [splice, this]

theorem le32_splice_inside (f g : Bytes) (off n i : Nat) (h : i + 4 ≤ n) :
    le32 (splice f off n g) (off + i) = le32 g i := by
  apply le32_congr
  intro k hk
  rw [Nat.add_assoc]
  exact splice_inside f g off n (i + k) (by omega)

theorem le32_splice_outside (f g : Bytes) (off n i : Nat) (h : i + 4 ≤ off ∨ off + n ≤ i) :
    le32 (splice f off n g) i = le32 f i := by
  apply le32_congr
  intro k hk
  exact splice_outside f g off n (i + k) (by omega)

theorem cstrAt_of_padded (f : Bytes) (off n : Nat) (name : List UInt8)
    (hlen : name.length < n) (hnul : 0 ∉ name) (h : ∀ k < n, f (off + k) = name.getD k 0) :
    cstrAt f off n = name := by
  have hmap : (range n).map (fun i => f (off + i)) =
      name ++ replicate (n - name.length) 0 := by
    apply ext_getElem
    · simp
      omega
    intro k hk hk'
    simp only [length_map, length_range] at hk
    simp only [getElem_map, getElem_range, h k hk, getElem_append,
      getElem_replicate]
    split
    · simp [getD_eq_getElem?_getD, *]
    · simp [getD_eq_getElem?_getD, *]
  unfold cstrAt
  rw [hmap, takeWhile_append_of_pos]
  · have hpos : n - name.length = (n - name.length - 1) + 1 := by omega
    rw [hpos, replicate_succ]
    simp
  intro a ha
  simp only [bne_iff_ne, ne_eq]
  intro ha0
  exact hnul (ha0 ▸ ha)

end KestrelOS
