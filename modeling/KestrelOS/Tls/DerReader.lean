import KestrelOS.Tls.RsaKey

/-!
# The DER reader of the certificate parser

A cursor is the bytes from `p` to `end`; a reader returns what it read and the bytes that follow,
or nothing with the cursor left where it was.
-/

namespace KestrelOS.Tls

open Der List Nat

def derMaxDepth : Nat := 24

/-- `struct der_tlv`: `raw` is the whole element, header and contents. -/
structure DerTlv where
  cls : Nat
  constructed : Bool
  tag : Nat
  raw : List UInt8
  val : List UInt8
deriving DecidableEq

/-- The octets of a tag number from 31 on: `i` of them have been read. -/
def derLongTag : Nat → Nat → List UInt8 → Option (Nat × List UInt8)
  | _, _, [] => none
  | i, tag, b :: p =>
    if i = 0 ∧ b &&& 0x7f = 0 then none
    else if tag > 0xffffffff >>> 7 then none
    else
      let tag' := tag <<< 7 ||| (b &&& 0x7f).toNat
      if b &&& 0x80 = 0 then some (tag', p)
      else if i + 1 ≥ 5 then none
      else derLongTag (i + 1) tag' p

def derIdent : List UInt8 → Option ((Nat × Bool × Nat) × List UInt8)
  | [] => none
  | id :: p =>
    let cls := (id >>> 6).toNat
    let constructed := (id >>> 5) &&& 1 == 1
    if id &&& 0x1f ≠ 0x1f then some ((cls, constructed, (id &&& 0x1f).toNat), p)
    else
      (derLongTag 0 0 p).bind fun r =>
        if r.1 < 0x1f then none else some ((cls, constructed, r.1), r.2)

/-- The length octets of an element, read once its identifier is. -/
def derReadLength : List UInt8 → Option (Nat × List UInt8)
  | [] => none
  | b :: p =>
    if b &&& 0x80 = 0 then some (b.toNat, p)
    else
      let nb := (b &&& 0x7f).toNat
      if nb = 0 then none
      else if nb > 4 then none
      else if nb > p.length then none
      else
        let len := (p.take nb).foldl (fun len b => len <<< 8 % 2 ^ 64 ||| b.toNat) 0
        if len < 0x80 then none
        else if nb > 1 ∧ len < 1 <<< (8 * (nb - 1)) then none
        else some (len, p.drop nb)

def derRead (d : List UInt8) : Option (DerTlv × List UInt8) :=
  (derIdent d).bind fun r =>
    (derReadLength r.2).bind fun s =>
      if s.1 > s.2.length then none
      else
        some (⟨r.1.1, r.1.2.1, r.1.2.2, d.take (d.length - s.2.length + s.1), s.2.take s.1⟩,
          s.2.drop s.1)

/-- The call leaves the cursor where it was unless it succeeds. -/
def derReadAt (d : List UInt8) : Option DerTlv × List UInt8 :=
  match derRead d with
  | none => (none, d)
  | some (t, rest) => (some t, rest)

def DerTlv.isUniversal (t : DerTlv) (want : UInt8) : Bool :=
  t.cls == 0 && t.tag == (want &&& 0x1f).toNat && t.constructed == ((want >>> 5) &&& 1 == 1)

def DerTlv.isContext (t : DerTlv) (tag : Nat) (constructed : Bool) : Bool :=
  t.cls == 2 && t.tag == tag && t.constructed == constructed

def derReadExpect (d : List UInt8) (want : UInt8) : Option (DerTlv × List UInt8) :=
  (derRead d).filter fun r => r.1.isUniversal want

def derReadContext (d : List UInt8) (tag : Nat) (constructed : Bool) :
    Option (DerTlv × List UInt8) :=
  (derRead d).filter fun r => r.1.isContext tag constructed

def derReadUint (d : List UInt8) : Option (List UInt8 × List UInt8) :=
  (derReadExpect d 0x02).bind fun r =>
    let val := r.1.val
    if val.length = 0 then none
    else if val.getD 0 0 &&& 0x80 ≠ 0 then none
    else if val.length > 1 ∧ val.getD 0 0 = 0 ∧ val.getD 1 0 &&& 0x80 = 0 then none
    else if val.length > 1 ∧ val.getD 0 0 = 0 then some (val.tail, r.2)
    else some (val, r.2)

def derReadU32 (d : List UInt8) : Option (Nat × List UInt8) :=
  (derReadUint d).bind fun r =>
    if r.1.length > 4 then none
    else some (r.1.foldl (fun acc b => acc <<< 8 % 2 ^ 32 ||| b.toNat) 0, r.2)

def derReadBool (d : List UInt8) : Option (Bool × List UInt8) :=
  (derReadExpect d 0x01).bind fun r =>
    if r.1.val = [0x00] then some (false, r.2)
    else if r.1.val = [0xff] then some (true, r.2)
    else none

/-- `start` says that the next octet begins a subidentifier. -/
def oidScan : Bool → List UInt8 → Bool
  | start, [] => start
  | start, b :: v => if start ∧ b = 0x80 then false else oidScan (b &&& 0x80 == 0) v

def oidWellformed (v : List UInt8) : Bool := v.length ≠ 0 && oidScan true v

def derReadOid (d : List UInt8) : Option (List UInt8 × List UInt8) :=
  (derReadExpect d 0x06).bind fun r => if oidWellformed r.1.val then some (r.1.val, r.2) else none

def derReadBitstring (d : List UInt8) : Option (List UInt8 × List UInt8) :=
  (derReadExpect d 0x03).bind fun r =>
    match r.1.val with
    | [] => none
    | b :: val => if b ≠ 0 then none else some (val, r.2)

/-- The first bit of the string is bit 0 of the result. -/
def bitflags (val : List UInt8) (nbits : Nat) : Nat :=
  (List.range nbits).foldl (fun bits i =>
    if val.getD (i / 8) 0 &&& (0x80 >>> UInt8.ofNat (i % 8)) ≠ 0 then bits ||| 1 <<< i else bits) 0

def derReadBitflags (d : List UInt8) : Option (Nat × List UInt8) :=
  (derReadExpect d 0x03).bind fun r =>
    match r.1.val with
    | [] => none
    | unused :: val =>
      if unused > 7 then none
      else if val = [] ∧ unused ≠ 0 then none
      else if val ≠ [] ∧ (val.getLastD 0).toNat &&& (1 <<< unused.toNat - 1) ≠ 0 then none
      else some (bitflags val (min (val.length * 8 - unused.toNat) 32), r.2)

/-- One turn of the walk of `der_structure_ok`: where it goes on, or its verdict. The bytes run to
the end of the buffer, and the stack holds, for each open element, how many of them lie behind
it. -/
def derStructureStep (s : List UInt8 × List Nat) : (List UInt8 × List Nat) ⊕ Bool :=
  let stack := s.2.dropWhile (· == s.1.length)
  let d := s.1.take (s.1.length - stack.headD 0)
  if d = [] then .inr (stack = [])
  else
    match derRead d with
    | none => .inr false
    | some (t, _) =>
      if t.constructed ∧ t.val.length > 0 then
        if stack.length ≥ derMaxDepth then .inr false
        else .inl (s.1.drop (t.raw.length - t.val.length), (s.1.length - t.raw.length) :: stack)
      else .inl (s.1.drop t.raw.length, stack)

def derStructureLoop : Nat → List UInt8 × List Nat → Bool
  | 0, _ => false
  | fuel + 1, s => (derStructureStep s).elim (derStructureLoop fuel) id

def derStructureOk (buf : List UInt8) : Bool := derStructureLoop (buf.length + 1) (buf, [])

/-- The elements at the front of a byte string, as far as they can be read. -/
def derElemsLoop : Nat → List UInt8 → List DerTlv
  | 0, _ => []
  | fuel + 1, d =>
    match derRead d with
    | none => []
    | some (t, rest) => t :: derElemsLoop fuel rest

def derElems (d : List UInt8) : List DerTlv := derElemsLoop d.length d

variable {tag : Nat} {d rest : List UInt8} {t : DerTlv}

theorem and_80_eq_zero_iff (b : UInt8) : b &&& 0x80 = 0 ↔ b.toNat < 128 := by
  have hall : ∀ i : Fin 256, UInt8.ofNat i &&& 0x80 = 0 ↔ i.val < 128 := by decide +kernel
  have hb := hall ⟨b.toNat, b.toNat_lt⟩
  rwa [UInt8.ofNat_toNat] at hb

/-- The two readers of length octets agree. -/
theorem derReadLength_eq_derLength (c : List UInt8) : derReadLength c = derLength c := by
  cases c with
  | nil => rfl
  | cons b p =>
    have hshort : b &&& 0x80 = 0 ↔ b < 0x80 := and_80_eq_zero_iff b
    rw [derReadLength, derLength]
    simp only [hshort]
    generalize (b &&& 0x7f).toNat = nb
    split_ifs <;> first | rfl | omega

theorem shift_or_septet (tag : Nat) (b : UInt8) :
    tag <<< 7 ||| (b &&& 0x7f).toNat = 128 * tag + b.toNat % 128 := by
  rw [toNat_and_7f, ← shiftLeft_add_eq_or_of_lt (mod_lt _ (by decide)), shiftLeft_eq]
  omega

theorem derLongTag_octets {i n : Nat} (h : derLongTag i tag d = some (n, rest))
    (hi : tag = 0 → i = 0) :
    marked tag ++ d = marked (n / 128) ++ UInt8.ofNat (n % 128) :: rest ∧ n < 2 ^ 32 := by
  induction d generalizing i tag with
  | nil => cases h
  | cons b p ih =>
    have hb := b.toNat_lt
    have hlow : b &&& 0x7f = 0 ↔ b.toNat % 128 = 0 := by
      rw [← UInt8.toNat_inj, toNat_and_7f]
      rfl
    simp only [derLongTag, shift_or_septet, hlow, and_80_eq_zero_iff] at h
    split_ifs at h with hlead hbig hlast hfive
    · cases h
      rw [show (128 * tag + b.toNat % 128) / 128 = tag by omega,
        show (128 * tag + b.toNat % 128) % 128 = b.toNat by omega, UInt8.ofNat_toNat]
      exact ⟨rfl, by omega⟩
    · have hne : 128 * tag + b.toNat % 128 ≠ 0 := fun h0 => hlead ⟨hi (by omega), by omega⟩
      obtain ⟨heq, hlt⟩ := ih h fun h0 => absurd h0 hne
      rw [marked_eq hne, show (128 * tag + b.toNat % 128) / 128 = tag by omega,
        show 0x80 + (128 * tag + b.toNat % 128) % 128 = b.toNat by omega, UInt8.ofNat_toNat,
        append_assoc] at heq
      exact ⟨heq, hlt⟩

theorem derLongTag_cons {m : Nat} {b : UInt8} (hm : m < 2 ^ 25) (hb : m ≠ 0 ∨ b.toNat % 128 ≠ 0)
    (d : List UInt8) : derLongTag (marked m).length m (b :: d) =
      if b.toNat < 128 then some (128 * m + b.toNat % 128, d)
      else if (marked m).length + 1 ≥ 5 then none
      else derLongTag ((marked m).length + 1) (128 * m + b.toNat % 128) d := by
  have hlead : ¬ ((marked m).length = 0 ∧ b &&& 0x7f = 0) := by
    rintro ⟨hnil, hz⟩
    rw [← UInt8.toNat_inj, toNat_and_7f, UInt8.toNat_zero] at hz
    rw [marked_eq (hb.resolve_right (not_not.mpr hz))] at hnil
    simp at hnil
  rw [derLongTag, if_neg hlead, if_neg (by omega)]
  simp only [shift_or_septet, and_80_eq_zero_iff]

theorem derLongTag_marked {m : Nat} (hm : m < 2 ^ 25) (d : List UInt8) :
    derLongTag 0 0 (marked m ++ d) = derLongTag (marked m).length m d := by
  induction m using Nat.strongRecOn generalizing d with
  | ind m ih =>
    by_cases h0 : m = 0
    · rw [h0, marked_zero]
      rfl
    have hlen := marked_length_le (k := 4) (lt_trans hm (by decide) : m < 128 ^ 4)
    have hb : (UInt8.ofNat (0x80 + m % 128)).toNat = 0x80 + m % 128 := by
      rw [UInt8.toNat_ofNat', mod_eq_of_lt (by omega)]
    rw [marked_eq h0, length_append, length_singleton] at hlen ⊢
    rw [append_assoc, singleton_append, ih (m / 128) (by omega) (by omega),
      derLongTag_cons (by omega) (by omega), hb, if_neg (by omega), if_neg (by omega),
      show 128 * (m / 128) + (0x80 + m % 128) % 128 = m by omega]

theorem derLongTag_eq_some_iff {n : Nat} : derLongTag 0 0 d = some (n, rest) ∧ 0x1f ≤ n ↔
    d = marked (n / 128) ++ UInt8.ofNat (n % 128) :: rest ∧ 0x1f ≤ n ∧ n < 2 ^ 32 := by
  constructor
  · rintro ⟨h, hn⟩
    obtain ⟨heq, hlt⟩ := derLongTag_octets h fun _ => rfl
    rw [marked_zero, nil_append] at heq
    exact ⟨heq, hn, hlt⟩
  · rintro ⟨rfl, hn, hlt⟩
    have hb : (UInt8.ofNat (n % 128)).toNat = n % 128 := by
      rw [UInt8.toNat_ofNat', mod_eq_of_lt (by omega)]
    refine ⟨?_, hn⟩
    rw [derLongTag_marked (by omega), derLongTag_cons (by omega) (by omega), hb, if_pos (by omega),
      show 128 * (n / 128) + n % 128 % 128 = n by omega]

theorem lead_eq_iff {b : UInt8} {cls low : Nat} {con : Bool} (hlow : low < 32) :
    ((b >>> 6).toNat = cls ∧ ((b >>> 5) &&& 1 == 1) = con ∧ (b &&& 0x1f).toNat = low) ↔
      b = UInt8.ofNat (64 * cls + 32 * con.toNat + low) ∧ cls < 4 := by
  have hb := b.toNat_lt
  have hcls : (b >>> 6).toNat = b.toNat / 64 := shiftRight_eq_div_pow b.toNat 6
  have hbit : ((b >>> 5) &&& 1).toNat = b.toNat / 32 % 2 := by
    rw [UInt8.toNat_and, show (b >>> 5).toNat = b.toNat / 32 from shiftRight_eq_div_pow b.toNat 5]
    exact and_one_is_mod _
  have hcon : ((b >>> 5) &&& 1 == 1) = con ↔ b.toNat / 32 % 2 = con.toNat := by
    rw [← hbit, Bool.eq_iff_iff, beq_iff_eq, ← UInt8.toNat_inj]
    cases con
    · simp only [Bool.false_eq_true, iff_false, Bool.toNat_false, UInt8.toNat_one]
      omega
    · simp
  have htag : (b &&& 0x1f).toNat = b.toNat % 32 := and_two_pow_sub_one_eq_mod b.toNat 5
  have hle := con.toNat_le
  rw [hcls, hcon, htag, ← UInt8.toNat_inj, UInt8.toNat_ofNat']
  omega

theorem derIdent_eq_some_iff {cls : Nat} {con : Bool} : derIdent d = some ((cls, con, tag), rest) ↔
    d = identOctets cls con tag ++ rest ∧ cls < 4 ∧ tag < 2 ^ 32 := by
  cases d with
  | nil => simp [derIdent, identOctets]
  | cons b p =>
    have hlong : b &&& 0x1f = 0x1f ↔ (b &&& 0x1f).toNat = 0x1f := UInt8.toNat_inj.symm
    have hle : (b &&& 0x1f).toNat < 32 := by
      rw [show (b &&& 0x1f).toNat = b.toNat % 32 from and_two_pow_sub_one_eq_mod b.toNat 5]
      exact mod_lt _ (by decide)
    simp only [derIdent, identOctets, ite_eq_iff, Option.bind_eq_some_iff, Prod.exists,
      reduceCtorEq, and_false, false_or, Option.some.injEq, Prod.mk.injEq, not_not, ne_eq,
      cons_append, cons.injEq]
    by_cases htag : tag < 0x1f
    · rw [if_pos htag, Nat.min_eq_left htag.le, nil_append]
      have hlead := @lead_eq_iff b cls tag con (by omega)
      constructor
      · rintro (⟨-, ⟨h1, h2, h3⟩, rfl⟩ | ⟨-, n, q, -, hn, ⟨-, -, rfl⟩, -⟩)
        · exact ⟨⟨(hlead.mp ⟨h1, h2, h3⟩).1, rfl⟩, (hlead.mp ⟨h1, h2, h3⟩).2, by omega⟩
        · exact absurd htag hn
      rintro ⟨⟨hb, rfl⟩, hcls, -⟩
      obtain ⟨h1, h2, h3⟩ := hlead.mpr ⟨hb, hcls⟩
      exact .inl ⟨fun h => by rw [hlong, h3] at h; omega, ⟨h1, h2, h3⟩, rfl⟩
    · rw [if_neg htag, Nat.min_eq_right (by omega), append_assoc, singleton_append]
      have hlead := @lead_eq_iff b cls 0x1f con (by decide)
      constructor
      · rintro (⟨hb, ⟨-, -, h3⟩, -⟩ | ⟨hb, n, q, hlong', hn, ⟨h1, h2, rfl⟩, rfl⟩)
        · rw [hlong] at hb
          omega
        obtain ⟨heq, -, hlt⟩ := derLongTag_eq_some_iff.mp ⟨hlong', by omega⟩
        obtain ⟨hb, hcls⟩ := hlead.mp ⟨h1, h2, hlong.mp hb⟩
        exact ⟨⟨hb, heq⟩, hcls, hlt⟩
      · rintro ⟨⟨hb, heq⟩, hcls, hlt⟩
        obtain ⟨h1, h2, h3⟩ := hlead.mpr ⟨hb, hcls⟩
        exact .inr
          ⟨hlong.mpr h3, tag, rest, (derLongTag_eq_some_iff.mpr ⟨heq, by omega, hlt⟩).1, htag,
          ⟨h1, h2, rfl⟩, rfl⟩

theorem derRead_eq_some_iff : derRead d = some (t, rest) ↔ d = t.raw ++ rest ∧
    t.raw = identOctets t.cls t.constructed t.tag ++ (lenOctets t.val.length ++ t.val) ∧
    t.cls < 4 ∧ t.tag < 2 ^ 32 ∧ t.val.length < 2 ^ 32 := by
  simp only [derRead, Option.bind_eq_some_iff, Prod.exists, derIdent_eq_some_iff,
    derReadLength_eq_derLength, derLength_eq_some_iff]
  constructor
  · rintro ⟨cls, con, tag, p, ⟨rfl, hcls, htag⟩, n, q, ⟨rfl, hn⟩, h⟩
    split at h
    · cases h
    rename_i hfit
    have hlen : (q.take n).length = n := length_take_of_le (Nat.not_lt.mp hfit)
    cases h
    dsimp only
    have hraw : (identOctets cls con tag ++ (lenOctets n ++ q)).take
        ((identOctets cls con tag ++ (lenOctets n ++ q)).length - q.length + n) =
          identOctets cls con tag ++ (lenOctets n ++ q.take n) := by
      rw [show (identOctets cls con tag ++ (lenOctets n ++ q)).length - q.length + n =
        (identOctets cls con tag ++ lenOctets n).length + n by simp; omega, ← append_assoc,
        take_length_add_append, append_assoc]
    rw [hraw, hlen]
    refine ⟨?_, rfl, hcls, htag, hn⟩
    rw [append_assoc, append_assoc, take_append_drop]
  · rintro ⟨rfl, hraw, hcls, htag, hn⟩
    obtain ⟨cls, con, tag, raw, val⟩ := t
    dsimp only at *
    subst hraw
    refine ⟨cls, con, tag, _, ⟨append_assoc .., hcls, htag⟩, val.length, val ++ rest,
      ⟨append_assoc .., hn⟩, ?_⟩
    rw [if_neg (by simp), take_left' rfl, drop_left' rfl]
    congr 3
    rw [show (identOctets cls con tag ++ (lenOctets val.length ++ val) ++ rest).length -
      (val ++ rest).length + val.length =
        (identOctets cls con tag ++ (lenOctets val.length ++ val)).length by simp; omega, take_left]

theorem derRead_length (h : derRead d = some (t, rest)) :
    t.val.length + rest.length + 2 ≤ d.length := by
  obtain ⟨rfl, hraw, -⟩ := derRead_eq_some_iff.mp h
  have hpos : 0 < (lenOctets t.val.length).length := by
    rw [lenOctets]
    split <;> simp
  rw [hraw, identOctets]
  simp only [length_append, length_cons]
  omega

theorem derElemsLoop_fuel {f g : Nat} (hf : d.length ≤ f) (hg : d.length ≤ g) :
    derElemsLoop f d = derElemsLoop g d := by
  induction f generalizing g d with
  | zero =>
    obtain rfl : d = [] := length_eq_zero_iff.mp (by omega)
    cases g <;> rfl
  | succ f ih =>
    cases g with
    | zero =>
      obtain rfl : d = [] := length_eq_zero_iff.mp (by omega)
      rfl
    | succ g =>
      rw [derElemsLoop, derElemsLoop]
      cases hread : derRead d with
      | none => rfl
      | some r =>
        have hlen := derRead_length hread
        exact congrArg (r.1 :: ·) (ih (by omega) (by omega))

@[simp] theorem derElems_nil : derElems [] = [] := rfl

theorem derElems_of_some (h : derRead d = some (t, rest)) : derElems d = t :: derElems rest := by
  have hlen := derRead_length h
  obtain ⟨n, hn⟩ : ∃ n, d.length = n + 1 := ⟨d.length - 1, by omega⟩
  rw [derElems, hn, derElemsLoop, h]
  dsimp only
  rw [derElemsLoop_fuel (by omega) le_rfl, derElems]

theorem derRead_raw (h : derRead d = some (t, rest)) : derRead t.raw = some (t, []) := by
  obtain ⟨-, h⟩ := derRead_eq_some_iff.mp h
  exact derRead_eq_some_iff.mpr ⟨(append_nil _).symm, h⟩

theorem derReadExpect_iff_derTag {want : UInt8} (hw : want < 0x40) (hlow : want &&& 0x1f ≠ 0x1f)
    {d v rest : List UInt8} :
    (∃ t, derReadExpect d want = some (t, rest) ∧ t.val = v) ↔ derTag want d = some (v, rest) := by
  have hw' : want.toNat < 64 := hw
  have htag : (want &&& 0x1f).toNat = want.toNat % 32 := and_two_pow_sub_one_eq_mod want.toNat 5
  have hlt : (want &&& 0x1f).toNat < 0x1f := by
    have hne : (want &&& 0x1f).toNat ≠ 0x1f := fun h => hlow (UInt8.toNat_inj.mp h)
    omega
  have hcls : (want >>> 6).toNat = 0 := by
    rw [show (want >>> 6).toNat = want.toNat / 64 from shiftRight_eq_div_pow want.toNat 6]
    omega
  -- the identifier octets of such an element are `want`
  have hident : identOctets 0 ((want >>> 5) &&& 1 == 1) (want &&& 0x1f).toNat = [want] := by
    rw [identOctets, if_pos hlt, Nat.min_eq_left hlt.le,
      ← ((lead_eq_iff (by omega)).mp ⟨hcls, rfl, rfl⟩).1]
  rw [derTag_eq_some_iff]
  constructor
  · rintro ⟨t, ht, rfl⟩
    rw [derReadExpect, Option.filter_eq_some_iff] at ht
    obtain ⟨hread, huni⟩ := ht
    obtain ⟨rfl, hraw, -, -, hlen⟩ := derRead_eq_some_iff.mp hread
    simp only [DerTlv.isUniversal, Bool.and_eq_true, beq_iff_eq] at huni
    rw [huni.1.1, huni.1.2, huni.2, hident] at hraw
    exact ⟨congrArg (· ++ rest) hraw, hlen⟩
  · rintro ⟨rfl, hlen⟩
    refine ⟨⟨0, (want >>> 5) &&& 1 == 1, (want &&& 0x1f).toNat, elem want v, v⟩, ?_, rfl⟩
    rw [derReadExpect, Option.filter_eq_some_iff, derRead_eq_some_iff]
    refine ⟨⟨rfl, ?_, succ_pos 3, by dsimp only; omega, hlen⟩, by simp [DerTlv.isUniversal]⟩
    dsimp only
    rw [hident]
    rfl

theorem derReadUint_eq_derUint (d : List UInt8) : derReadUint d = derUint d := by
  have hiff := @derReadExpect_iff_derTag 0x02 (by decide) (by decide) d
  rw [derReadUint, derUint]
  cases hread : derReadExpect d 0x02 with
  | none =>
    cases htag : derTag 0x02 d with
    | none => rfl
    | some r =>
      obtain ⟨t, ht, -⟩ := hiff.mpr htag
      rw [hread] at ht
      cases ht
  | some r =>
    have htag := hiff.mp ⟨r.1, hread, rfl⟩
    rw [htag]
    rfl

/-- Elements one after the other, the contents of constructed ones again such elements; at most `n`
constructed ones that are not empty lie inside one another. -/
inductive DerNested : Nat → List UInt8 → Prop
  | nil {n : Nat} : DerNested n []
  | flat {n : Nat} {d rest : List UInt8} {t : DerTlv} : derRead d = some (t, rest) →
      ¬(t.constructed ∧ t.val.length > 0) → DerNested n rest → DerNested n d
  | nest {n : Nat} {d rest : List UInt8} {t : DerTlv} : derRead d = some (t, rest) →
      DerNested n t.val → DerNested (n + 1) rest → DerNested (n + 1) d

/-- What a position and its stack ask of the bytes that are left. -/
def DerPending : List UInt8 → List Nat → Prop
  | rest, [] => DerNested derMaxDepth rest
  | rest, e :: stack => e ≤ rest.length ∧
    DerNested (derMaxDepth - (stack.length + 1)) (rest.take (rest.length - e)) ∧
      DerPending (rest.drop (rest.length - e)) stack

theorem DerNested.elem_iff {n : Nat} (h : derRead d = some (t, rest)) : DerNested n d ↔
    (t.constructed ∧ t.val.length > 0 → ∃ m, n = m + 1 ∧ DerNested m t.val) ∧ DerNested n rest := by
  constructor
  · intro hd
    cases hd with
    | nil => cases h
    | flat hread hflat hrest =>
      cases h.symm.trans hread
      exact ⟨fun hcon => absurd hcon hflat, hrest⟩
    | nest hread hval hrest =>
      cases h.symm.trans hread
      exact ⟨fun _ => ⟨_, rfl, hval⟩, hrest⟩
  · rintro ⟨hval, hrest⟩
    by_cases hcon : t.constructed ∧ t.val.length > 0
    · obtain ⟨m, rfl, hm⟩ := hval hcon
      exact .nest h hm hrest
    · exact .flat h hcon hrest

theorem DerNested.of_none {n : Nat} (h : DerNested n d) (hread : derRead d = none) : d = [] := by
  obtain _ | ⟨h, _⟩ | ⟨h, _⟩ := h
  · rfl
  all_goals cases hread.symm.trans h

theorem derPending_append {tail : List UInt8} {stack : List Nat} (h : tail.length = stack.headD 0) :
    DerPending (d ++ tail) stack ↔ DerNested (derMaxDepth - stack.length) d ∧
      (stack ≠ [] → DerPending tail stack.tail) := by
  cases stack with
  | nil =>
    obtain rfl := eq_nil_of_length_eq_zero h
    simp [DerPending]
  | cons e stack =>
    obtain rfl : tail.length = e := h
    simp [DerPending]

theorem derPending_dropWhile (stack : List Nat) :
    DerPending rest (stack.dropWhile (· == rest.length)) ↔ DerPending rest stack := by
  induction stack with
  | nil => rfl
  | cons e stack ih =>
    by_cases he : e = rest.length
    · simp [he, DerPending, ih, DerNested.nil]
    · simp [he]

variable {s w : List UInt8 × List Nat}

theorem derStructureStep_spec (s : List UInt8 × List Nat) : match derStructureStep s with
    | .inl s' => (DerPending s.1 s.2 ↔ DerPending s'.1 s'.2) ∧ s'.1.length < s.1.length ∧
        (s.2.length ≤ derMaxDepth → s'.2.length ≤ derMaxDepth)
    | .inr b => DerPending s.1 s.2 ↔ b := by
  obtain ⟨rest, stack⟩ := s
  have hle := (dropWhile_sublist (· == rest.length) (l := stack)).length_le
  have hhead := head?_dropWhile_not (· == rest.length) stack
  dsimp only [derStructureStep]
  rw [← derPending_dropWhile stack]
  generalize stack.dropWhile (· == rest.length) = inner at *
  by_cases hfit : inner.headD 0 ≤ rest.length
  swap
  · cases inner with
    | nil => exact absurd (Nat.zero_le _) hfit
    | cons e _ =>
      rw [if_pos (by simp at hfit ⊢; omega)]
      simpa [DerPending] using fun h => absurd h hfit
  obtain ⟨d, tail, rfl, htail⟩ : ∃ d tail, rest = d ++ tail ∧ tail.length = inner.headD 0 :=
    ⟨_, _, (take_append_drop (rest.length - inner.headD 0) rest).symm, by rw [length_drop]; omega⟩
  rw [← htail, length_append, Nat.add_sub_cancel, take_left, derPending_append htail]
  by_cases hd : d = []
  · rw [if_pos hd]
    subst hd
    cases inner with
    | nil => simp [DerNested.nil]
    | cons e _ => simp_all
  rw [if_neg hd]
  cases hread : derRead d with
  | none => exact ⟨fun h => absurd (h.1.of_none hread) hd, nofun⟩
  | some r =>
    obtain ⟨t, rest⟩ := r
    have hlen := derRead_length hread
    rw [DerNested.elem_iff hread]
    obtain ⟨rfl, hraw, -⟩ := derRead_eq_some_iff.mp hread
    obtain ⟨hdr, hhdr⟩ : ∃ hdr, t.raw = hdr ++ t.val := ⟨_, hraw.trans (append_assoc ..).symm⟩
    have hrest : (t.raw ++ rest ++ tail).drop t.raw.length = rest ++ tail := by simp
    have hnext := derPending_append (d := rest) htail
    dsimp only
    by_cases hcon : t.constructed ∧ t.val.length > 0
    · rw [if_pos hcon]
      by_cases hdeep : inner.length ≥ derMaxDepth
      · rw [if_pos hdeep]
        exact ⟨fun h => by obtain ⟨m, hm, -⟩ := h.1.1 hcon; omega, nofun⟩
      have hval : (t.raw ++ rest ++ tail).drop (t.raw.length - t.val.length) =
          t.val ++ (rest ++ tail) := by simp [hhdr]
      have hend : (t.raw ++ rest).length + tail.length - t.raw.length = (rest ++ tail).length := by
        simp; omega
      rw [if_neg hdeep, hval, hend]
      dsimp only
      rw [derPending_append rfl, List.tail_cons, hnext]
      refine ⟨⟨fun ⟨⟨hin, hr⟩, ht⟩ => ?_, fun ⟨hin, h⟩ => ?_⟩, by simp at hlen ⊢; omega,
        fun _ => by simp; omega⟩
      · obtain ⟨m, hm, hin⟩ := hin hcon
        obtain rfl : m = derMaxDepth - (inner.length + 1) := by omega
        exact ⟨hin, fun _ => ⟨hr, ht⟩⟩
      · obtain ⟨hr, ht⟩ := h (cons_ne_nil _ _)
        exact ⟨⟨fun _ => ⟨_, by simp; omega, hin⟩, hr⟩, ht⟩
    · rw [if_neg hcon, hrest]
      dsimp only
      rw [hnext]
      exact ⟨by simp only [hcon, false_implies, true_and], by simp at hlen ⊢; omega, hle.trans⟩

/-- The walk goes from one position to another. -/
abbrev DerWalk := Relation.ReflTransGen fun s s' => derStructureStep s = .inl s'

theorem derStructureLoop_spec {fuel : Nat} (h : s.1.length < fuel) :
    (derStructureLoop fuel s ↔ DerPending s.1 s.2) ∧
      ∃ w, DerWalk s w ∧ derStructureStep w = .inr (derStructureLoop fuel s) := by
  induction fuel generalizing s with
  | zero => cases h
  | succ fuel ih =>
    have hstep := derStructureStep_spec s
    rw [derStructureLoop]
    cases hs : derStructureStep s with
    | inl s' =>
      rw [hs] at hstep
      obtain ⟨hiff, w, hw, hverdict⟩ := ih (s := s') (by omega)
      exact ⟨hiff.trans hstep.1.symm, w, .head hs hw, hverdict⟩
    | inr b =>
      rw [hs] at hstep
      exact ⟨hstep.symm, s, .refl, hs⟩

theorem DerWalk.depth_le (h : DerWalk s w) (hs : s.2.length ≤ derMaxDepth) :
    w.2.length ≤ derMaxDepth := by
  induction h with
  | refl => exact hs
  | @tail w w' _ hw ih =>
    have hstep := derStructureStep_spec w
    rw [hw] at hstep
    exact hstep.2.2 ih

/-- The walk with its stack accepts what is nested elements; it always comes to a verdict and holds
no more positions than its stack has room for. -/
theorem der_structure_ok_iff_nested (buf : List UInt8) :
    (derStructureOk buf ↔ DerNested derMaxDepth buf) ∧
      (∃ w, DerWalk (buf, []) w ∧ derStructureStep w = .inr (derStructureOk buf)) ∧
        ∀ w, DerWalk (buf, []) w → w.2.length ≤ derMaxDepth := by
  obtain ⟨hiff, hend⟩ := derStructureLoop_spec (s := (buf, [])) (lt_succ_self buf.length)
  exact ⟨hiff, hend, fun w hw => hw.depth_le (Nat.zero_le _)⟩

end KestrelOS.Tls
