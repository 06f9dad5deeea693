import Mathlib.NumberTheory.LucasPrimality

/-!
# Primality from a factored predecessor

Lucas's test with the prime factors of `p - 1` given as a list. The powers are computed by
squaring, so that the kernel can evaluate them.
-/

namespace KestrelOS.Lucas

open List Nat

/-- `acc * b ^ e` modulo `m`, from the low bit of `e` up, for an `e` of at most `n` bits. -/
def powMod (m : Nat) : Nat → Nat → Nat → Nat → Nat
  | 0, _, _, acc => acc
  | n + 1, b, e, acc => powMod m n (b * b % m) (e / 2) (if e % 2 = 0 then acc else acc * b % m)

private theorem powMod_cast (m n b e acc : Nat) (he : e < 2 ^ n) :
    (powMod m n b e acc : ZMod m) = acc * (b : ZMod m) ^ e := by
  induction n generalizing b e acc with
  | zero =>
    have he : e = 0 := by simpa using he
    simp [powMod, he]
  | succ n ih =>
    have hdiv := div_add_mod e 2
    rw [powMod, ih _ _ _ (by rw [pow_succ] at he; omega), ZMod.natCast_mod, cast_mul, ← pow_two,
      ← pow_mul]
    split
    · rename_i h0
      rw [h0, add_zero] at hdiv
      rw [hdiv]
    have h1 : e % 2 = 1 := by omega
    rw [h1] at hdiv
    rw [ZMod.natCast_mod, cast_mul]
    conv_rhs => rw [← hdiv, pow_succ]
    ring

/-- The test: `fs` multiply to `p - 1`, and the powers are as they should be. -/
def passes (p a n : Nat) (fs : List Nat) : Bool :=
  1 < p && p ≤ 2 ^ n && fs.prod == p - 1 && powMod p n a (p - 1) 1 % p == 1 &&
    fs.all fun q => powMod p n a ((p - 1) / q) 1 % p != 1

private theorem pow_eq_one_iff {p a n e : Nat} (hp : 1 < p) (he : e < 2 ^ n) :
    (a : ZMod p) ^ e = 1 ↔ powMod p n a e 1 % p = 1 := by
  have hcast := powMod_cast p n a e 1 he
  rw [cast_one, one_mul] at hcast
  have hiff := ZMod.natCast_eq_natCast_iff' (powMod p n a e 1) 1 p
  rwa [hcast, cast_one, mod_eq_of_lt hp] at hiff

private theorem prime_of_passes {p a n : Nat} {fs : List Nat} (h : passes p a n fs)
    (hfs : ∀ q ∈ fs, q.Prime) : p.Prime := by
  simp only [passes, Bool.and_eq_true, decide_eq_true_eq, beq_iff_eq, all_eq_true,
    bne_iff_ne] at h
  obtain ⟨⟨⟨⟨hp, hn⟩, hprod⟩, hone⟩, hne⟩ := h
  apply lucas_primality p (a : ZMod p)
  · exact (pow_eq_one_iff hp (by omega : p - 1 < 2 ^ n)).mpr hone
  intro q hq hdvd
  -- a prime divisor of the product is one of the factors
  rw [← hprod] at hdvd
  obtain ⟨r, hr, hqr⟩ := (Nat.Prime.prime hq).dvd_prod_iff.mp hdvd
  obtain rfl := (prime_dvd_prime_iff_eq hq (hfs r hr)).mp hqr
  have hlt : (p - 1) / q < 2 ^ n := lt_of_le_of_lt (div_le_self _ _) (by omega)
  rw [Ne, pow_eq_one_iff hp hlt]
  exact hne q hr

/-- A number with its base and the prime factors of its predecessor. -/
structure Entry where
  p : Nat
  a : Nat
  factors : List Nat

/-- A chain of entries: each one's factors are known to be prime before it. -/
def certifies : List Nat → List Entry → Bool
  | _, [] => true
  | known, e :: es =>
    passes e.p e.a (e.p.log2 + 1) e.factors && e.factors.all (known.contains ·) &&
      certifies (e.p :: known) es

theorem prime_of_certifies {known : List Nat} {es : List Entry} (h : certifies known es)
    (hknown : ∀ q ∈ known, q.Prime) : ∀ p ∈ es.map Entry.p, p.Prime := by
  induction es generalizing known with
  | nil => simp
  | cons e es ih =>
    simp only [certifies, Bool.and_eq_true, all_eq_true, contains_iff_mem] at h
    obtain ⟨⟨hpass, hfactors⟩, hrest⟩ := h
    have hp : e.p.Prime := prime_of_passes hpass fun q hq => hknown q (hfactors q hq)
    have hmore := ih hrest (forall_mem_cons.mpr ⟨hp, hknown⟩)
    exact forall_mem_cons.mpr ⟨hp, hmore⟩

end KestrelOS.Lucas
