import KestrelOS.Tls.Bignum

/-!
# Modular exponentiation

Montgomery multiplication of big integers and the sliding-window exponentiation of `bignum.c`. The
loop keeps the accumulator at the power for the exponent bits that were consumed.
-/

namespace KestrelOS.Tls

open Limbs List Nat

structure BnMont where
  k : Nat
  n0 : Nat
  n : List Nat
  rr : List Nat

/-- The first `bnMaxLimbs` words of the array, cut to the significant ones. -/
def montWords (a : Bn) : List Nat :=
  (List.range bnMaxLimbs).map fun i => if i < a.n then a.v.getD i 0 else 0

def bnMontInit (m : Bn) : Option BnMont :=
  if m.n = 0 ∨ m.n > bnMaxLimbs then none
  else if m.v.headD 0 &&& 1 = 0 then none
  else
    let k := m.n
    (bnShl (bnSetU64 1) (128 * k)).bind fun rr =>
      (bnMod rr m).map fun rr => ⟨k, montN0 (m.v.headD 0), montWords m, montWords rr⟩

def bnMontMul (a b : Bn) (mt : BnMont) : Bn :=
  let n := mt.n.take mt.k
  let t := cios limbRadix n mt.n0 (a.v.take mt.k) (b.v.take mt.k)
  -- `t < 2n`; one conditional subtraction finishes it
  Bn.ofLimbs (if t.2 ≠ 0 ∨ 0 ≤ Limbs.cmp t.1 n then (subB limbRadix t.1 n 0).1 else t.1)

def bnToMont (a : Bn) (mt : BnMont) : Bn := bnMontMul a (Bn.ofLimbs (mt.rr.take mt.k)) mt

def bnFromMont (a : Bn) (mt : BnMont) : Bn := bnMontMul a (bnSetU64 1) mt

/-- Entry `i` of the window table: the odd power `2 i + 1`. -/
def winEntry (bm sq : Bn) (mt : BnMont) : Nat → Bn
  | 0 => bm
  | i + 1 => bnMontMul (winEntry bm sq mt i) sq mt

def lowSet (exp : Bn) : Nat → Nat → Nat
  | 0, lo => lo
  | i + 1, lo => if bnGetBit exp lo = 0 then lowSet exp i (lo + 1) else lo

/-- The bits from `lo + n - 1` down to `lo`, below those of `val`. -/
def windowVal (exp : Bn) (lo : Nat) : Nat → Nat → Nat
  | 0, val => val
  | n + 1, val => windowVal exp lo n (val <<< 1 ||| bnGetBit exp (lo + n))

/-- The main loop with `m` bits to go; `w` is the window width. -/
def modexpLoop (exp : Bn) (w : Nat) (win : List Bn) (mt : BnMont) : Nat → Nat → Bn → Bn
  | 0, _, acc => acc
  | fuel + 1, m, acc =>
    if m = 0 then acc
    else
      let i := m - 1
      if bnGetBit exp i = 0 then modexpLoop exp w win mt fuel i (bnMontMul acc acc mt)
      else
        let lo := lowSet exp (i - (i + 1 - w)) (i + 1 - w)
        let len := i - lo + 1
        let val := windowVal exp lo len 0
        let acc := (fun acc => bnMontMul acc acc mt)^[len] acc
        modexpLoop exp w win mt fuel lo (bnMontMul acc (win.getD (val >>> 1) bnZero) mt)

def bnModexp (base exp : Bn) (mt : BnMont) : Option Bn :=
  let m := Bn.ofLimbs (mt.n.take mt.k)
  let ebits := bnBits exp
  if ebits = 0 then bnMod (bnSetU64 1) m
  else
    (bnMod base m).map fun bm =>
      let bm := bnToMont bm mt
      let w := if ebits ≤ 24 then 2 else if ebits ≤ 96 then 3 else 4
      let sq := bnMontMul bm bm mt
      let win := (List.range (1 <<< (w - 1))).map (winEntry bm sq mt)
      bnFromMont (modexpLoop exp w win mt ebits ebits (bnToMont (bnSetU64 1) mt)) mt

structure BnMont.Ok (mt : BnMont) (N : Nat) : Prop where
  pos : 0 < mt.k
  le : mt.k ≤ bnMaxLimbs
  limbs : IsLimbs limbRadix mt.k (mt.n.take mt.k)
  eq : value limbRadix (mt.n.take mt.k) = N
  odd : N % 2 = 1
  n0 : ((mt.n.take mt.k).headD 0 * mt.n0 + 1) % limbRadix = 0
  rr : IsLimbs limbRadix mt.k (mt.rr.take mt.k)
  rr_eq : value limbRadix (mt.rr.take mt.k) = (limbRadix ^ mt.k) ^ 2 % N

/-- `a` stands for `x`. -/
structure InMont (mt : BnMont) (N : Nat) (a : Bn) (x : ZMod N) : Prop where
  lt : a.val < N
  eq : (a.val : ZMod N) = x * ((limbRadix ^ mt.k : Nat) : ZMod N)

variable {mt : BnMont} {N : Nat} {a b : Bn} {x y : ZMod N}

theorem radix_cancel (hN : N % 2 = 1) (k : Nat)
    (h : x * ((limbRadix ^ k : Nat) : ZMod N) = y * ((limbRadix ^ k : Nat) : ZMod N)) : x = y := by
  have hcop : (limbRadix ^ k).Coprime N := by
    apply Nat.Coprime.pow_left
    exact Nat.Coprime.pow_left 64 ((coprime_two_left).mpr (odd_iff.mpr hN))
  exact ((ZMod.isUnit_iff_coprime _ _).mpr hcop).mul_right_cancel h

namespace BnMont.Ok

section
variable (h : mt.Ok N)
include h

theorem pos_modulus : 0 < N := by
  have := h.odd
  omega

theorem lt_radix : N < limbRadix ^ mt.k := h.eq ▸ h.limbs.value_lt

theorem words (ha : a.val < limbRadix ^ mt.k) :
    IsLimbs limbRadix mt.k (a.v.take mt.k) ∧ value limbRadix (a.v.take mt.k) = a.val :=
  Bn.take_value ((a.n_le_iff mt.k).mpr ha) (le_trans h.le (by decide))

theorem mul (ha : a.val < N) (hb : b.val < limbRadix ^ mt.k) : (bnMontMul a b mt).val < N ∧
      ((bnMontMul a b mt).val : ZMod N) * ((limbRadix ^ mt.k : Nat) : ZMod N) = a.val * b.val := by
  obtain ⟨hal, hav⟩ := h.words (lt_trans ha h.lt_radix)
  obtain ⟨hbl, hbv⟩ := h.words hb
  have hn := h.limbs
  obtain ⟨j, hj⟩ : ∃ j, mt.k = j + 1 := ⟨mt.k - 1, by have := h.pos; omega⟩
  have hj' : j + 1 ≤ bnLimbs := hj ▸ le_trans h.le (by decide)
  rw [bnMontMul]
  rw [hj] at hal hbl hav hbv hn ⊢
  have hnv : value limbRadix (mt.n.take (j + 1)) = N := hj ▸ h.eq
  have hn0 : ((mt.n.take (j + 1)).headD 0 * mt.n0 + 1) % limbRadix = 0 := hj ▸ h.n0
  obtain ⟨hl, hlt, mu, hmu⟩ :=
    cios_spec one_lt_limbRadix hn hal (by rw [hav, hnv]; exact ha) hn0 hbl
  generalize cios limbRadix (mt.n.take (j + 1)) mt.n0 (a.v.take (j + 1)) (b.v.take (j + 1)) = t at *
  rw [hnv, hav, hbv] at hmu
  rw [hnv] at hlt
  have hcmp := cmp_nonneg_iff hl hn
  rw [hnv] at hcmp
  -- the result is the accumulator or the accumulator less the modulus
  have hres : ∃ c, ∃ r, IsLimbs limbRadix (j + 1) r ∧
      (if t.2 ≠ 0 ∨ 0 ≤ Limbs.cmp t.1 (mt.n.take (j + 1)) then
        (subB limbRadix t.1 (mt.n.take (j + 1)) 0).1 else t.1) = r ∧
      value limbRadix r < N ∧ value limbRadix r + c * N = accValue limbRadix (j + 1) t := by
    by_cases hge : t.2 ≠ 0 ∨ 0 ≤ Limbs.cmp t.1 (mt.n.take (j + 1))
    · rw [if_pos hge]
      rw [hcmp, ← hnv] at hge
      have hdiff := subB_reduce limbRadix_pos hl hn hge (by rw [hnv]; exact hlt)
      rw [hnv] at hdiff
      refine ⟨1, _, (subB_spec limbRadix_pos hl hn 0).1, rfl, ?_, ?_⟩
      · rw [accValue, ← hdiff] at hlt
        omega
      · rw [accValue, ← hdiff, one_mul]
    · rw [if_neg hge]
      rw [hcmp, not_or, not_not] at hge
      exact ⟨0, _, hl, rfl, by omega, by rw [accValue, hge.1]; omega⟩
  obtain ⟨c, r, hr, heq, hrlt, hrv⟩ := hres
  rw [heq, Bn.val_ofLimbs hr hj']
  refine ⟨hrlt, ?_⟩
  rw [← hrv] at hmu
  have hcast := congrArg (Nat.cast : Nat → ZMod N) hmu
  push_cast at hcast ⊢
  rw [ZMod.natCast_self, mul_zero, mul_zero, add_zero, add_zero] at hcast
  rw [mul_comm]
  exact hcast

theorem mulMont (ha : InMont mt N a x) (hb : InMont mt N b y) :
    InMont mt N (bnMontMul a b mt) (x * y) := by
  obtain ⟨hlt, heq⟩ := h.mul ha.lt (lt_trans hb.lt h.lt_radix)
  refine ⟨hlt, radix_cancel h.odd mt.k ?_⟩
  rw [heq, ha.eq, hb.eq]
  ring

theorem toMont (ha : a.val < N) : InMont mt N (bnToMont a mt) (a.val : ZMod N) := by
  have hrr : (Bn.ofLimbs (mt.rr.take mt.k)).val = (limbRadix ^ mt.k) ^ 2 % N := by
    rw [Bn.val_ofLimbs h.rr (le_trans h.le (by decide)), h.rr_eq]
  have hlt : (limbRadix ^ mt.k) ^ 2 % N < limbRadix ^ mt.k :=
    lt_trans (mod_lt _ h.pos_modulus) h.lt_radix
  obtain ⟨hres, heq⟩ := h.mul ha (b := Bn.ofLimbs (mt.rr.take mt.k)) (by rw [hrr]; exact hlt)
  refine ⟨hres, radix_cancel h.odd mt.k ?_⟩
  rw [bnToMont, heq, hrr, ZMod.natCast_mod, cast_pow _ 2]
  ring

theorem fromMont (ha : InMont mt N a x) : (bnFromMont a mt).val = x.val := by
  have hone : (bnSetU64 1).val = 1 := Bn.val_setU64 one_lt_limbRadix
  have hlt : (bnSetU64 1).val < limbRadix ^ mt.k := by
    rw [hone]
    exact one_lt_pow h.pos.ne' one_lt_limbRadix
  obtain ⟨hres, heq⟩ := h.mul ha.lt hlt
  rw [hone, cast_one, mul_one, ha.eq] at heq
  have hx := radix_cancel h.odd mt.k heq
  rw [bnFromMont, ← hx, ZMod.val_natCast_of_lt hres]

theorem sqrIter (ha : InMont mt N a x) (n : Nat) :
    InMont mt N ((fun acc => bnMontMul acc acc mt)^[n] a) (x ^ 2 ^ n) := by
  induction n with
  | zero => simpa using ha
  | succ n ih =>
    rw [Function.iterate_succ_apply', pow_succ, pow_mul, pow_two]
    exact h.mulMont ih ih

theorem winEntry {bm sq : Bn} (hbm : InMont mt N bm x) (hsq : InMont mt N sq (x * x)) (i : Nat) :
    InMont mt N (winEntry bm sq mt i) (x ^ (2 * i + 1)) := by
  induction i with
  | zero => simpa [Tls.winEntry] using hbm
  | succ i ih =>
    have hmul := h.mulMont ih hsq
    rw [← pow_two, ← pow_add] at hmul
    exact hmul

end

end BnMont.Ok

theorem lowSet_spec (exp : Bn) {i lo : Nat} (h : bnGetBit exp (lo + i) ≠ 0) :
    lo ≤ lowSet exp i lo ∧ lowSet exp i lo ≤ lo + i ∧ bnGetBit exp (lowSet exp i lo) ≠ 0 := by
  induction i generalizing lo with
  | zero => exact ⟨le_rfl, le_rfl, h⟩
  | succ i ih =>
    rw [lowSet]
    split
    · obtain ⟨h1, h2, h3⟩ := ih (by rwa [add_right_comm] : bnGetBit exp (lo + 1 + i) ≠ 0)
      exact ⟨by omega, by omega, h3⟩
    · rename_i hbit
      exact ⟨le_rfl, by omega, hbit⟩

theorem windowVal_eq (exp : Bn) (lo n val : Nat) :
    windowVal exp lo n val = val * 2 ^ n + exp.val / 2 ^ lo % 2 ^ n := by
  induction n generalizing val with
  | zero => simp [windowVal, mod_one]
  | succ n ih =>
    have hbit : bnGetBit exp (lo + n) < 2 := by
      rw [bnGetBit_eq]
      exact mod_lt _ (by decide)
    rw [windowVal, ih, shiftLeft_eq, pow_one, mul_comm val, or_bit val hbit, bnGetBit_eq,
      mod_pow_succ, Nat.div_div_eq_div_mul, ← Nat.pow_add, pow_succ]
    ring

theorem modexpLoop_spec (h : mt.Ok N) {exp : Bn} {w : Nat} (hw : 0 < w) {win : List Bn}
    (hwin : ∀ i < 2 ^ (w - 1), InMont mt N (win.getD i bnZero) (x ^ (2 * i + 1))) {fuel m : Nat}
    (hfuel : m ≤ fuel) {acc : Bn} (hacc : InMont mt N acc (x ^ (exp.val / 2 ^ m))) :
    InMont mt N (modexpLoop exp w win mt fuel m acc) (x ^ exp.val) := by
  induction fuel generalizing m acc with
  | zero =>
    rw [show m = 0 by omega, pow_zero, Nat.div_one] at hacc
    exact hacc
  | succ fuel ih =>
    rw [modexpLoop]
    split
    · rename_i hm
      rwa [hm, pow_zero, Nat.div_one] at hacc
    rename_i hm
    obtain ⟨i, rfl⟩ : ∃ i, m = i + 1 := ⟨m - 1, by omega⟩
    simp only [Nat.add_sub_cancel]
    have hhalf : exp.val / 2 ^ i = 2 * (exp.val / 2 ^ (i + 1)) + bnGetBit exp i := by
      rw [bnGetBit_eq, pow_succ, ← Nat.div_div_eq_div_mul]
      omega
    by_cases hbit : bnGetBit exp i = 0
    · rw [if_pos hbit]
      apply ih (by omega)
      rw [hhalf, hbit, Nat.add_zero, Nat.mul_comm, pow_mul, pow_two]
      exact h.mulMont hacc hacc
    rw [if_neg hbit]
    -- the window reaches down to a set bit
    have htop : bnGetBit exp (i + 1 - w + (i - (i + 1 - w))) ≠ 0 := by
      rwa [show i + 1 - w + (i - (i + 1 - w)) = i by omega]
    obtain ⟨hlow, hhigh, hset⟩ := lowSet_spec exp htop
    generalize lowSet exp (i - (i + 1 - w)) (i + 1 - w) = lo at *
    obtain ⟨len, hlen⟩ : ∃ len, i - lo + 1 = len := ⟨_, rfl⟩
    rw [hlen, windowVal_eq, zero_mul, zero_add]
    have hsplit := div_add_mod (exp.val / 2 ^ lo) (2 ^ len)
    rw [Nat.div_div_eq_div_mul, ← Nat.pow_add, show lo + len = i + 1 by omega] at hsplit
    have hlt := mod_lt (exp.val / 2 ^ lo) (Nat.two_pow_pos len)
    have hodd : exp.val / 2 ^ lo % 2 ^ len % 2 = 1 := by
      rw [mod_mod_of_dvd _ (dvd_pow_self 2 (by omega : len ≠ 0))]
      rw [bnGetBit_eq] at hset
      omega
    generalize exp.val / 2 ^ lo % 2 ^ len = val at *
    have hentry : val >>> 1 < 2 ^ (w - 1) := by
      have h1 := Nat.pow_le_pow_right (by decide : 0 < 2) (by omega : len ≤ w)
      have h2 : (2 : Nat) ^ w = 2 * 2 ^ (w - 1) := by
        rw [← pow_succ']
        congr 1
        omega
      rw [shiftRight_eq_div_pow, pow_one]
      omega
    have hval : 2 * (val >>> 1) + 1 = val := by
      rw [shiftRight_eq_div_pow, pow_one]
      omega
    have hmul := h.mulMont (h.sqrIter hacc len) (hwin _ hentry)
    rw [hval, ← pow_mul, ← pow_add, mul_comm, hsplit] at hmul
    exact ih (by omega) hmul

theorem bnModexp_spec (h : mt.Ok N) (hN : 1 < N) (base exp : Bn) :
    ∃ r, bnModexp base exp mt = some r ∧ r.val = base.val ^ exp.val % N := by
  have hm : (Bn.ofLimbs (mt.n.take mt.k)).val = N := by
    rw [Bn.val_ofLimbs h.limbs (le_trans h.le (by decide)), h.eq]
  have hmn : (Bn.ofLimbs (mt.n.take mt.k)).n ≤ bnMaxLimbs := by
    rw [Bn.n_le_iff, hm]
    exact lt_of_lt_of_le h.lt_radix (Nat.pow_le_pow_right limbRadix_pos h.le)
  have hone : (bnSetU64 1).val = 1 := Bn.val_setU64 one_lt_limbRadix
  rw [bnModexp]
  dsimp only
  split
  · rename_i h0
    rw [bnBits_eq, size_eq_zero] at h0
    obtain ⟨r, hr, hrv⟩ := bnMod_spec (bnSetU64 1) _ (by omega) hmn
    exact ⟨r, hr, by rw [hrv, hone, hm, h0, pow_zero]⟩
  obtain ⟨bm, hbm, hbv⟩ := bnMod_spec base _ (by omega : (Bn.ofLimbs (mt.n.take mt.k)).val ≠ 0) hmn
  rw [hm] at hbv
  have hx := h.toMont (a := bm) (by rw [hbv]; exact mod_lt _ (by omega))
  have hacc := h.toMont (a := bnSetU64 1) (by omega)
  rw [hbv, ZMod.natCast_mod] at hx
  rw [hone, cast_one] at hacc
  obtain ⟨w, hw⟩ : ∃ w, (if bnBits exp ≤ 24 then 2 else if bnBits exp ≤ 96 then 3 else 4) = w :=
    ⟨_, rfl⟩
  have hwpos : 0 < w := by
    rw [← hw]
    split
    · decide
    · split <;> decide
  rw [hbm, Option.map_some, hw]
  have hwin : ∀ i < 2 ^ (w - 1), InMont mt N
      (((range (1 <<< (w - 1))).map (winEntry (bnToMont bm mt)
        (bnMontMul (bnToMont bm mt) (bnToMont bm mt) mt) mt)).getD i bnZero)
      ((base.val : ZMod N) ^ (2 * i + 1)) := by
    intro i hi
    rw [getD_eq_getElem _ _ (by simpa [shiftLeft_eq] using hi), getElem_map,
      getElem_range]
    exact h.winEntry hx (h.mulMont hx hx) i
  have hstart : InMont mt N (bnToMont (bnSetU64 1) mt)
      ((base.val : ZMod N) ^ (exp.val / 2 ^ bnBits exp)) := by
    rw [bnBits_eq, div_eq_of_lt (lt_size_self _), pow_zero]
    exact hacc
  have hloop := modexpLoop_spec h hwpos hwin le_rfl hstart
  refine ⟨_, rfl, ?_⟩
  rw [h.fromMont hloop, ← cast_pow, ZMod.val_natCast]

theorem montWords_take {a : Bn} {k : Nat} (hk : a.n ≤ k) (hk' : k ≤ bnMaxLimbs) :
    (montWords a).take k = a.v.take a.n ++ replicate (k - a.n) 0 := by
  have hsig := a.sig_isLimbs.length
  apply ext_getElem
  · simp only [montWords, length_take, length_map, length_range, length_append,
      length_replicate, hsig] at *
    omega
  intro i h1 h2
  have hi : i < k := by
    rw [length_take] at h1
    omega
  simp only [montWords, getElem_take, getElem_map, getElem_range]
  rw [← getD_eq_getElem _ 0 h2]
  split
  · rename_i hin
    rw [getD_append _ _ _ _ (by rw [hsig]; exact hin), getD_eq_getElem?_getD,
      getD_eq_getElem?_getD, getElem?_take_of_lt hin]
  rename_i hout
  rw [getD_append_right _ _ _ _ (by rw [hsig]; omega), hsig,
    getD_replicate 0 (by omega)]

theorem montWords_spec {a : Bn} {k : Nat} (hk : a.n ≤ k) (hk' : k ≤ bnMaxLimbs) :
    IsLimbs limbRadix k ((montWords a).take k) ∧ value limbRadix ((montWords a).take k) =
      a.val := by
  rw [montWords_take hk hk']
  have happ := a.sig_isLimbs.append (IsLimbs.replicate_zero limbRadix_pos (k - a.n))
  rw [add_sub_of_le hk] at happ
  exact ⟨happ, by rw [value_append, value_replicate_zero, mul_zero, add_zero, a.sig_value]⟩

theorem bnMontInit_spec {m : Bn} (hodd : m.val % 2 = 1) (hm : m.n ≤ bnMaxLimbs) :
    ∃ mt, bnMontInit m = some mt ∧ mt.k = m.n ∧ mt.Ok m.val := by
  have hn : m.n ≠ 0 := by
    rw [Ne, m.n_eq_zero_iff]
    omega
  obtain ⟨hl, hv⟩ := montWords_spec le_rfl hm
  have hhead : ((montWords m).take m.n).headD 0 = m.v.headD 0 := by
    obtain ⟨y, ys, hvs, -, -⟩ := m.limbs.exists_cons
    obtain ⟨j, hj⟩ : ∃ j, m.n = j + 1 := ⟨m.n - 1, by omega⟩
    rw [montWords_take le_rfl hm, hj, hvs]
    simp
  have hheadodd : m.v.headD 0 % 2 = 1 := by
    have h := (bnIsOdd_iff m).mpr hodd
    rw [bnIsOdd, Bool.and_eq_true, beq_iff_eq, and_one_is_mod] at h
    exact h.2
  have hone : (bnSetU64 1).val = 1 := Bn.val_setU64 one_lt_limbRadix
  -- `2 ^ (128 k)` has room in the array
  have hpow : (2 : Nat) ^ (128 * m.n) = (limbRadix ^ m.n) ^ 2 := by
    rw [limbRadix, ← pow_mul, ← pow_mul, show 64 * (m.n * 2) = 128 * m.n by ring]
  have hroom : (bnSetU64 1).val * 2 ^ (128 * m.n) < limbRadix ^ (bnLimbs - 1) := by
    rw [hone, Nat.one_mul, hpow, ← Nat.pow_mul]
    apply Nat.pow_lt_pow_right one_lt_limbRadix
    simp only [bnMaxLimbs, bnLimbs] at *
    omega
  obtain ⟨sh, hsh, hshv⟩ := bnShl_eq hroom
  obtain ⟨rr, hrr, hrrv⟩ := bnMod_spec sh m (by omega) hm
  rw [hshv, hone, one_mul, hpow] at hrrv
  have hrn : rr.n ≤ m.n := by
    rw [Bn.n_le_iff, hrrv]
    exact lt_trans (mod_lt _ (by omega)) m.val_lt_pow_n
  obtain ⟨hrl, hrv⟩ := montWords_spec hrn hm
  refine ⟨⟨m.n, montN0 (m.v.headD 0), montWords m, montWords rr⟩, ?_, rfl, ?_⟩
  · rw [bnMontInit, if_neg (not_or.mpr ⟨hn, not_lt.mpr hm⟩),
      if_neg (by rw [and_one_is_mod]; omega)]
    dsimp only
    rw [hsh, Option.bind_some, hrr, Option.map_some]
  · exact ⟨pos_of_ne_zero hn, hm, hl, hv, hodd, by rw [hhead]; exact montN0_spec hheadodd, hrl,
      by rw [hrv, hrrv]⟩

theorem radix_pow_max : limbRadix ^ bnMaxLimbs = 2 ^ 4096 := by
  have hexp : 64 * bnMaxLimbs = 4096 := rfl
  rw [limbRadix, ← pow_mul, hexp]

/-- Montgomery multiplication divides the product by `R`, and the exponentiation is exact. -/
theorem mont_mul_and_modexp_exact (m : Bn) (hodd : m.val % 2 = 1) (hone : 1 < m.val)
    (hm : m.val < 2 ^ 4096) :
    ∃ mt, bnMontInit m = some mt ∧
      (∀ a b : Bn, a.val < m.val → b.val < m.val → (bnMontMul a b mt).val < m.val ∧
        ((bnMontMul a b mt).val : ZMod m.val) =
          a.val * b.val * ((2 ^ (64 * m.n) : Nat) : ZMod m.val)⁻¹) ∧
      ∀ base exp : Bn, ∃ r, bnModexp base exp mt = some r ∧ r.val = base.val ^ exp.val % m.val := by
  have hn : m.n ≤ bnMaxLimbs := by
    rw [Bn.n_le_iff, radix_pow_max]
    exact hm
  obtain ⟨mt, hmt, hk, hok⟩ := bnMontInit_spec hodd hn
  have hR : limbRadix ^ mt.k = 2 ^ (64 * m.n) := by rw [hk, limbRadix, pow_mul]
  refine ⟨mt, hmt, fun a b ha hb => ?_, bnModexp_spec hok hone⟩
  obtain ⟨hlt, heq⟩ := hok.mul ha (lt_trans hb hok.lt_radix)
  refine ⟨hlt, radix_cancel hok.odd mt.k ?_⟩
  have hcop : (limbRadix ^ mt.k).Coprime m.val := by
    rw [hR]
    exact Nat.Coprime.pow_left _ (coprime_two_left.mpr (odd_iff.mpr hodd))
  rw [heq, ← hR, mul_assoc, mul_comm _⁻¹, ZMod.coe_mul_inv_eq_one _ hcop, mul_one]

theorem mont_mul_and_modexp_exact_five : ∃ m : Bn, m.val = 5 ∧ ∃ mt, bnMontInit m = some mt ∧
    (∀ a b : Bn, a.val < m.val → b.val < m.val → (bnMontMul a b mt).val < m.val ∧
      ((bnMontMul a b mt).val : ZMod m.val) =
        a.val * b.val * ((2 ^ (64 * m.n) : Nat) : ZMod m.val)⁻¹) ∧
    ∀ base exp : Bn, ∃ r, bnModexp base exp mt = some r ∧ r.val = base.val ^ exp.val % m.val := by
  have h5 : (bnSetU64 5).val = 5 := Bn.val_setU64 (by decide)
  have hlt : 5 < 2 ^ 4096 :=
    (by decide : 5 < 2 ^ 3).trans_le (pow_le_pow_right₀ one_le_two (by decide))
  exact ⟨bnSetU64 5, h5, mont_mul_and_modexp_exact _ (by rw [h5]) (by rw [h5]; decide)
    (by rw [h5]; exact hlt)⟩

end KestrelOS.Tls
