import KestrelOS.Lib.Der
import KestrelOS.Tls.Modexp

/-!
# RSA keys and the public operation

The small DER reader of `rsa.c`, the key parser and `rsa_public`. The parser accepts exactly the
canonical encoding of an odd modulus of 1024 to 4096 bits and an odd exponent of 3 to 64 bits.
-/

namespace KestrelOS.Tls

open Limbs Der Nat Option

/-- The length octets at the front of the cursor: the length and what follows. -/
def derLength (c : List UInt8) : Option (Nat × List UInt8) :=
  match c with
  | [] => none
  | b :: p =>
    if b < 0x80 then some (b.toNat, p)
    else
      let nb := (b &&& 0x7f).toNat
      if nb = 0 ∨ nb > 4 ∨ nb + 1 > p.length + 1 then none
      else
        let l := (p.take nb).foldl (fun l b => l <<< 8 % 2 ^ 64 ||| b.toNat) 0
        if l < 0x80 then none
        else if nb > 1 ∧ l < 1 <<< (8 * (nb - 1)) then none
        else some (l, p.drop nb)

/-- The contents of an element with the identifier `want`, and what follows it. -/
def derTag (want : UInt8) (c : List UInt8) : Option (List UInt8 × List UInt8) :=
  match c with
  | [] => none
  | t :: c =>
    if t ≠ want then none
    else
      (derLength c).bind fun r => if r.1 > r.2.length then
        none else some (r.2.take r.1, r.2.drop r.1)

/-- The magnitude of a non-negative, minimally encoded INTEGER, and what follows it. -/
def derUint (c : List UInt8) : Option (List UInt8 × List UInt8) :=
  (derTag 0x02 c).bind fun r =>
    let val := r.1
    if val.length = 0 then none
    else if val.getD 0 0 &&& 0x80 ≠ 0 then none
    else if val.length > 1 ∧ val.getD 0 0 = 0 ∧ val.getD 1 0 &&& 0x80 = 0 then none
    else if val.length > 1 ∧ val.getD 0 0 = 0 then some (val.tail, r.2)
    else some (val, r.2)

structure RsaPubkey where
  n : Bn
  e : Bn
  mont : BnMont
  bits : Nat
  k : Nat

def rsaMinBits : Nat := 1024

def bnMaxBits : Nat := 4096

/-- The checks of `rsa_pubkey_from_der` on the two integers. -/
def rsaKeyOf (nv ev : List UInt8) : Option RsaPubkey :=
  if ev.length = 0 ∨ ev.length > 8 then none
  else
    (bnFromBytes nv).bind fun n =>
      (bnFromBytes ev).bind fun e =>
        let bits := bnBits n
        let k := (bits + 7) / 8
        if bits < rsaMinBits ∨ bits > bnMaxBits then none
        else if !bnIsOdd n then none
        else if !bnIsOdd e then none
        else if bnBits e < 2 then none
        else (bnMontInit n).map fun mont => ⟨n, e, mont, bits, k⟩

def rsaPubkeyFromDer (der : List UInt8) : Option RsaPubkey :=
  (derTag 0x30 der).bind fun top =>
    if top.2 ≠ [] then none
    else
      (derUint top.1).bind fun nv =>
        (derUint nv.2).bind fun ev => if ev.2 ≠ [] then none else rsaKeyOf nv.1 ev.1

def rsaPublic (key : RsaPubkey) (sig : List UInt8) : Option (List UInt8) :=
  if key.k = 0 then none
  else if sig.length ≠ key.k then none
  else
    (bnFromBytes sig).bind fun s =>
      if 0 ≤ bnCmp s key.n then none
      else (bnModexp s key.e key.mont).bind fun m => bnToBytes m key.k

theorem foldl_shift_eq_beVal {l : List UInt8} (h : l.length ≤ 8) :
    l.foldl (fun l b => l <<< 8 % 2 ^ 64 ||| b.toNat) 0 = beVal l := by
  induction l using List.reverseRecOn with
  | nil => rfl
  | append_singleton l b ih =>
    rw [List.length_append, List.length_singleton] at h
    have hlt : beVal l < 2 ^ 56 := calc
      beVal l < 256 ^ l.length := beVal_lt l
      _ ≤ 256 ^ 7 := Nat.pow_le_pow_right (by decide) (by omega)
    rw [List.foldl_append, ih (by omega), List.foldl_cons, List.foldl_nil,
      shift_or_byte hlt b.toNat_lt, beVal_append]
    simp [beVal]

theorem toNat_and_7f (b : UInt8) : (b &&& 0x7f).toNat = b.toNat % 128 :=
  and_two_pow_sub_one_eq_mod b.toNat 7

theorem and_7f {b : UInt8} (h : ¬ b < 0x80) : (b &&& 0x7f).toNat + 0x80 = b.toNat := by
  have hge : ¬ b.toNat < 128 := h
  have hlt := b.toNat_lt
  rw [toNat_and_7f]
  omega

variable {c rest : List UInt8} {n : Nat}

theorem derLength_eq_some_iff :
    derLength c = some (n, rest) ↔ c = lenOctets n ++ rest ∧ n < 2 ^ 32 := by
  constructor
  · intro h
    cases c with
    | nil => cases h
    | cons b p =>
      simp only [derLength, ite_eq_iff, reduceCtorEq, and_false, false_or, Option.some.injEq,
        Prod.mk.injEq] at h
      obtain ⟨hb, rfl, rfl⟩ | ⟨hb, hnb, hsmall, hmin, hval, rfl⟩ := h
      · have hlt : b.toNat < 0x80 := hb
        rw [lenOctets, if_pos hlt, UInt8.ofNat_toNat]
        exact ⟨rfl, by omega⟩
      have hand := and_7f hb
      generalize (b &&& 0x7f).toNat = nb at *
      have hlen : (p.take nb).length = nb := by grind
      rw [foldl_shift_eq_beVal (by omega)] at hsmall hmin hval
      subst hval
      have hlt := beVal_lt (p.take nb)
      rw [hlen] at hlt
      obtain ⟨j, rfl⟩ : ∃ j, nb = j + 1 := ⟨nb - 1, by omega⟩
      -- the first octet is not zero
      have hge : 256 ^ j ≤ beVal (p.take (j + 1)) := by
        rw [Nat.add_sub_cancel, shiftLeft_eq, Nat.one_mul, Nat.pow_mul] at hmin
        rcases Nat.eq_zero_or_pos j with rfl | hj
        · exact Nat.one_le_iff_ne_zero.mpr (by omega)
        · exact not_lt.mp (not_and.mp hmin (by omega))
      rw [lenOctets, if_neg hsmall, byteLen_eq hlt hge,
        ← (eq_beBytes_iff hlen hlt).mpr rfl, add_comm, hand, UInt8.ofNat_toNat,
        List.cons_append, List.take_append_drop]
      refine ⟨rfl, lt_of_lt_of_le hlt ?_⟩
      exact Nat.pow_le_pow_right (by decide) (by omega : j + 1 ≤ 4)
  · rintro ⟨rfl, hn⟩
    rw [lenOctets]
    split_ifs with hs
    · have hlt : UInt8.ofNat n < 0x80 := by
        rw [UInt8.lt_iff_toNat_lt, UInt8.toNat_ofNat', mod_eq_of_lt (by omega)]
        exact hs
      rw [List.singleton_append, derLength, if_pos hlt, UInt8.toNat_ofNat', mod_eq_of_lt (by omega)]
    have hle : byteLen n ≤ 4 := byteLen_le_iff.mpr hn
    obtain ⟨j, hj⟩ := exists_eq_succ_of_ne_zero (byteLen_pos (by omega : n ≠ 0)).ne'
    have hval := beVal_beBytes (lt_pow_byteLen n)
    have hge := pow_le_of_byteLen hj
    rw [hj] at hle hval ⊢
    have hb : ¬ UInt8.ofNat (0x80 + (j + 1)) < 0x80 := by
      rw [UInt8.lt_iff_toNat_lt, UInt8.toNat_ofNat', mod_eq_of_lt (by omega)]
      simp
    have hand := and_7f hb
    rw [UInt8.toNat_ofNat', mod_eq_of_lt (by omega)] at hand
    have hnb : (UInt8.ofNat (0x80 + (j + 1)) &&& 0x7f).toNat = j + 1 := by omega
    rw [List.cons_append, derLength, if_neg hb]
    dsimp only
    rw [hnb, if_neg (by simp; omega), List.take_left' (length_beBytes n (j + 1)),
      List.drop_left' (length_beBytes n (j + 1)), foldl_shift_eq_beVal (by simp; omega), hval,
      if_neg hs, if_neg]
    rintro ⟨-, hlt⟩
    rw [Nat.add_sub_cancel, shiftLeft_eq, Nat.one_mul, Nat.pow_mul] at hlt
    exact absurd hge (not_le.mpr hlt)

theorem derTag_eq_some_iff {want : UInt8} {val : List UInt8} :
    derTag want c = some (val, rest) ↔ c = elem want val ++ rest ∧ val.length < 2 ^ 32 := by
  constructor
  · intro h
    cases c with
    | nil => cases h
    | cons t c =>
      simp only [derTag, ite_eq_iff, reduceCtorEq, and_false, false_or, bind_eq_some_iff] at h
      obtain ⟨ht, ⟨n, p⟩, hlen, hroom, h⟩ := h
      cases h
      obtain ⟨rfl, hn⟩ := derLength_eq_some_iff.mp hlen
      have hl : (p.take n).length = n := List.length_take_of_le (not_lt.mp hroom)
      rw [elem, hl, not_not.mp ht, List.cons_append, List.append_assoc, List.take_append_drop]
      exact ⟨rfl, hn⟩
  · rintro ⟨rfl, hn⟩
    have hlen : derLength (lenOctets val.length ++ (val ++ rest)) =
        some (val.length, val ++ rest) :=
      derLength_eq_some_iff.mpr ⟨rfl, hn⟩
    rw [elem, List.cons_append, derTag, if_neg (by simp), List.append_assoc, hlen, bind_some,
      if_neg (by simp), List.take_left' rfl, List.drop_left' rfl]

theorem derUint_eq_some_iff {m : List UInt8} : derUint c = some (m, rest) ↔
      ∃ n, c = elem 0x02 (natContent n) ++ rest ∧ (natContent n).length < 2 ^ 32 ∧
        m = natBytes n := by
  constructor
  · intro h
    simp only [derUint, ite_eq_iff, reduceCtorEq, and_false, false_or, bind_eq_some_iff,
      Option.some.injEq, Prod.mk.injEq] at h
    obtain ⟨⟨val, rest'⟩, htag, h0, hsign, hpad, h⟩ := h
    obtain ⟨rfl, hlen⟩ := derTag_eq_some_iff.mp htag
    obtain ⟨b, l, rfl⟩ := List.exists_cons_of_length_pos (pos_of_ne_zero h0)
    -- the contents fix the number
    obtain ⟨hval, hm, rfl⟩ : b :: l = natContent (beVal m) ∧ m = natBytes (beVal m) ∧
        rest' = rest := by
      obtain ⟨hlead, rfl, rfl⟩ | ⟨hlead, rfl, rfl⟩ := h
      · obtain rfl : b = 0 := hlead.2
        obtain ⟨b', l', rfl⟩ :=
          List.exists_cons_of_length_pos (by simpa using hlead.1 : 0 < l.length)
        have htop : b' &&& 0x80 ≠ 0 := fun h0 => hpad ⟨hlead.1, rfl, h0⟩
        have hm : b' :: l' = natBytes (beVal (b' :: l')) :=
          eq_natBytes (by simp) (fun (h0 : b' = 0) => absurd (by rw [h0]; rfl) htop)
        exact ⟨by rw [List.tail_cons, natContent, ← hm, List.headD_cons, if_pos htop], hm, rfl⟩
      · have hm : b :: l = natBytes (beVal (b :: l)) := eq_natBytes (by simp) (by grind)
        exact ⟨by rw [natContent, ← hm, List.headD_cons,
          if_neg (show ¬ b &&& 0x80 ≠ 0 from hsign)], hm, rfl⟩
    exact ⟨beVal m, by rw [hval], by rw [← hval]; exact hlen, hm⟩
  · rintro ⟨n, rfl, hlen, rfl⟩
    rw [derUint, derTag_eq_some_iff.mpr ⟨rfl, hlen⟩, bind_some]
    dsimp only
    obtain ⟨b, l, hbl⟩ := List.exists_cons_of_length_pos (natBytes_length_pos n)
    have hzero : n ≠ 0 → b ≠ 0 := fun hn => by simpa [hbl] using natBytes_head hn
    have h0 : n = 0 → l = [] := by grind [natBytes]
    have h80 : (0 : UInt8) &&& 0x80 = 0 := by decide
    rw [natContent, hbl, List.headD_cons]
    by_cases htop : b &&& 0x80 ≠ 0
    · simp [h80, htop]
    · grind

def rsaKeyDer (n e : Nat) : List UInt8 :=
  elem 0x30 (elem 0x02 (natContent n) ++ elem 0x02 (natContent e))

/-- The fields of a key for the modulus `n` and the exponent `e`. -/
structure RsaPubkey.Ok (key : RsaPubkey) (n e : Nat) : Prop where
  n_val : key.n.val = n
  e_val : key.e.val = e
  mont : key.mont.Ok n
  bits : key.bits = n.size
  k : key.k = byteLen n

structure KeyRange (n e : Nat) : Prop where
  low : 2 ^ 1023 ≤ n
  high : n < 2 ^ 4096
  odd : n % 2 = 1
  e_low : 3 ≤ e
  e_high : e < 2 ^ 64
  e_odd : e % 2 = 1

theorem size_range {a b : Nat} : a < n.size ∧ n.size ≤ b ↔ 2 ^ a ≤ n ∧ n < 2 ^ b := by
  rw [lt_size, size_le]

variable {e : Nat}

theorem KeyRange.lt_radix (h : KeyRange n e) : n < limbRadix ^ bnMaxLimbs := by
  rw [radix_pow_max]
  exact h.high

variable {key : RsaPubkey}

theorem rsaKeyOf_eq_some (h : rsaKeyOf (natBytes n) (natBytes e) = some key) :
    KeyRange n e ∧ key.Ok n e := by
  simp only [rsaKeyOf, ite_eq_iff, reduceCtorEq, and_false, false_or, bind_eq_some_iff,
    map_eq_some_iff, bnFromBytes_eq_some_iff, beVal_natBytes, Bool.not_eq_true',
    Bool.not_eq_false, bnIsOdd_iff, bnBits_eq] at h
  obtain ⟨helen, bn, hbn, be, hbe, hbits, hodd, heodd, hebits, mont, hmont, rfl⟩ := h
  rw [hbn.1] at hbits
  rw [hbe.1] at hebits
  have hrange := (size_range (n := n)).mp (by
    simp only [rsaMinBits, bnMaxBits] at hbits
    exact ⟨by omega, by omega⟩ : 1023 < n.size ∧ n.size ≤ 4096)
  have helow : 2 ^ 1 ≤ e := lt_size.mp (by omega)
  have hehigh : e < 256 ^ 8 := (natBytes_length_le (by decide)).mp (by omega)
  have hn : bn.n ≤ bnMaxLimbs := (bn.n_le_iff _).mpr (hbn.1 ▸ hbn.2)
  obtain ⟨mt, hmt, -, hok⟩ := bnMontInit_spec hodd hn
  cases hmt.symm.trans hmont
  rw [hbn.1] at hodd hok
  rw [hbe.1] at heodd
  exact ⟨⟨hrange.1, hrange.2, hodd, by omega, by omega, heodd⟩, hbn.1, hbe.1, hok, by rw [hbn.1],
    by rw [hbn.1, byteLen]⟩

theorem rsaKeyOf_isSome (h : KeyRange n e) :
    ∃ key, rsaKeyOf (natBytes n) (natBytes e) = some key := by
  have hemax : e < limbRadix ^ bnMaxLimbs := by
    rw [radix_pow_max]
    exact h.e_high.trans (pow_lt_pow_right₀ (by decide) (by decide))
  have helen := (natBytes_length_le (n := e) (k := 8) (by decide)).mpr h.e_high
  have hepos := natBytes_length_pos e
  obtain ⟨bn, hbn, hbnv⟩ :=
    bnFromBytes_of_lt (b := natBytes n) (by rw [beVal_natBytes]; exact h.lt_radix)
  obtain ⟨be, hbe, hbev⟩ := bnFromBytes_of_lt (b := natBytes e) (by rwa [beVal_natBytes])
  rw [beVal_natBytes] at hbnv hbev
  have hbits : 1023 < n.size ∧ n.size ≤ 4096 := size_range.mpr ⟨h.low, h.high⟩
  have hebits : 1 < e.size := lt_size.mpr (by have := h.e_low; omega)
  obtain ⟨mt, hmt, -⟩ := bnMontInit_spec (m := bn) (by rw [hbnv]; exact h.odd)
    ((bn.n_le_iff _).mpr (by rw [hbnv]; exact h.lt_radix))
  refine ⟨⟨bn, be, mt, bnBits bn, (bnBits bn + 7) / 8⟩, ?_⟩
  rw [rsaKeyOf, if_neg (by omega), hbn, bind_some, hbe, bind_some]
  dsimp only
  have hodd := (bnIsOdd_iff bn).mpr (by rw [hbnv]; exact h.odd)
  have heodd := (bnIsOdd_iff be).mpr (by rw [hbev]; exact h.e_odd)
  rw [if_neg (by rw [bnBits_eq, hbnv]; simp only [rsaMinBits, bnMaxBits]; omega), hodd, heodd,
    if_neg (by simp), if_neg (by simp), if_neg (by rw [bnBits_eq, hbev]; omega), hmt, map_some]

theorem rsaPubkeyFromDer_sound {der : List UInt8} (h : rsaPubkeyFromDer der = some key) :
    ∃ n e, der = rsaKeyDer n e ∧ KeyRange n e ∧ key.Ok n e := by
  simp only [rsaPubkeyFromDer, ite_eq_iff, reduceCtorEq, and_false, false_or,
    bind_eq_some_iff, not_not] at h
  obtain ⟨⟨body, _⟩, htop, rfl, ⟨nv, s⟩, hn, ⟨ev, _⟩, he, rfl, h⟩ := h
  obtain ⟨e, rfl, -, rfl⟩ := derUint_eq_some_iff.mp he
  obtain ⟨n, rfl, -, rfl⟩ := derUint_eq_some_iff.mp hn
  obtain ⟨rfl, -⟩ := derTag_eq_some_iff.mp htop
  exact ⟨n, e, by rw [rsaKeyDer, List.append_nil, List.append_nil], rsaKeyOf_eq_some h⟩

variable {k : Nat}

theorem natContent_length_le (hk : 0 < k) (h : n < 256 ^ k) : (natContent n).length ≤ k + 1 := by
  have hle := (natBytes_length_le hk).mpr h
  rw [natContent]
  split
  · rw [List.length_cons]
    omega
  · omega

theorem elem_length_le (tag : UInt8) {content : List UInt8} (h : content.length ≤ k)
    (hk : k < 2 ^ 32) : (elem tag content).length ≤ k + 6 := by
  have hlen : (lenOctets content.length).length ≤ 5 := by
    rw [lenOctets]
    split
    · simp
    rw [List.length_cons, length_beBytes]
    have : byteLen content.length ≤ 4 := byteLen_le_iff.mpr (by omega)
    omega
  rw [elem, List.length_cons, List.length_append]
  omega

theorem rsaPubkeyFromDer_complete (h : KeyRange n e) :
    ∃ key, rsaPubkeyFromDer (rsaKeyDer n e) = some key ∧ key.Ok n e := by
  have hn : n < 256 ^ 512 := by
    have hexp : 8 * 512 = 4096 := rfl
    rw [show 256 = 2 ^ 8 from rfl, ← pow_mul, hexp]
    exact h.high
  have hnl := natContent_length_le (by decide) hn
  have hel := natContent_length_le (k := 8) (by decide) h.e_high
  have hne := elem_length_le 0x02 hnl (by decide)
  have hee := elem_length_le 0x02 hel (by decide)
  obtain ⟨key, hkey⟩ := rsaKeyOf_isSome h
  refine ⟨key, ?_, (rsaKeyOf_eq_some hkey).2⟩
  have htop : derTag 0x30 (rsaKeyDer n e) =
      some (elem 0x02 (natContent n) ++ elem 0x02 (natContent e), []) :=
    derTag_eq_some_iff.mpr ⟨by rw [rsaKeyDer, List.append_nil], by rw [List.length_append]; omega⟩
  have hn' : derUint (elem 0x02 (natContent n) ++ elem 0x02 (natContent e)) =
      some (natBytes n, elem 0x02 (natContent e)) :=
    derUint_eq_some_iff.mpr ⟨n, rfl, by omega, rfl⟩
  have he' : derUint (elem 0x02 (natContent e)) = some (natBytes e, []) :=
    derUint_eq_some_iff.mpr ⟨e, by rw [List.append_nil], by omega, rfl⟩
  rw [rsaPubkeyFromDer, htop, bind_some, if_neg (by simp), hn', bind_some, he',
    bind_some, if_neg (by simp), hkey]

theorem KeyRange.one_lt (h : KeyRange n e) : 1 < n :=
  lt_of_lt_of_le (Nat.one_lt_two_pow (by decide)) h.low

theorem KeyRange.byteLen_range (h : KeyRange n e) : 128 ≤ byteLen n ∧ byteLen n ≤ 512 := by
  obtain ⟨h1, h2⟩ := size_range.mpr ⟨h.low, h.high⟩
  rw [byteLen]
  omega

theorem rsaPublic_eq (hk : key.Ok n e) (h : KeyRange n e) (sig : List UInt8) : rsaPublic key sig =
      if sig.length = byteLen n ∧ beVal sig < n then some (beBytes (beVal sig ^ e % n) (byteLen n))
      else none := by
  have hlen := h.byteLen_range
  have hcmp : ∀ s : Bn, s.val = beVal sig → (0 ≤ bnCmp s key.n ↔ ¬ beVal sig < n) := by
    intro s hs
    rw [← Int.not_lt, bnCmp_lt_iff, hs, hk.n_val]
  rw [rsaPublic, if_neg (by rw [hk.k]; omega), hk.k]
  by_cases hs : beVal sig < n
  · obtain ⟨s, hs', hsv⟩ := bnFromBytes_of_lt (lt_trans hs h.lt_radix)
    obtain ⟨m, hm, hmv⟩ := bnModexp_spec hk.mont h.one_lt s key.e
    rw [hsv, hk.e_val] at hmv
    have hfit : m.val < 256 ^ byteLen n := by
      rw [hmv]
      exact lt_trans (mod_lt _ (by omega)) (lt_pow_byteLen n)
    rw [hs', bind_some, if_neg (fun hc => (hcmp s hsv).mp hc hs), hm, bind_some,
      bnToBytes_eq hfit, hmv]
    grind
  · cases hb : bnFromBytes sig with
    | none => grind
    | some s =>
      rw [bind_some, if_pos ((hcmp s (bnFromBytes_eq_some_iff.mp hb).1).mpr hs)]
      grind

end KestrelOS.Tls
