import KestrelOS.Tls.Pkcs1

/-!
# PSS signatures

The digest registry, MGF1 and `rsa_verify_pss`, for hash functions about which only the length of
the result is known. A negative salt length accepts the one the encoding carries.
-/

namespace KestrelOS.Tls

open Limbs Der List Nat

/-- `struct crypto_md`: any function whose results have the stated length. -/
structure CryptoMd where
  id : Int
  digestLen : Nat
  hash : List UInt8 → List UInt8
  length_hash : ∀ m, (hash m).length = digestLen

def cryptoMdSlots : Nat := 8

/-- `md_slots`, each with the address of its descriptor. -/
structure MdSlots where
  slots : List (Option (Nat × CryptoMd))
  length_slots : slots.length = cryptoMdSlots
  fits : ∀ md, some md ∈ slots → 0 < md.2.digestLen ∧ md.2.digestLen ≤ cryptoMdMaxLen

def cryptoMdClear : MdSlots where
  slots := List.replicate cryptoMdSlots none
  length_slots := List.length_replicate
  fits := by simp

/-- Adding the descriptor a second time succeeds and changes nothing. -/
def cryptoMdRegister (s : MdSlots) (md : Nat × CryptoMd) : Option MdSlots :=
  if h : md.2.id ≤ 0 ∨ md.2.digestLen = 0 ∨ md.2.digestLen > cryptoMdMaxLen then none
  else
    match (s.slots.filterMap id).find? fun held => held.1 == md.1 || held.2.id == md.2.id with
    | some held => if held.1 = md.1 then some s else none
    | none =>
      (s.slots.findIdx? (·.isNone)).map fun i =>
        { slots := s.slots.set i (some md)
          length_slots := by rw [List.length_set, s.length_slots]
          fits := by
            intro m hm
            obtain hm | hm := List.mem_or_eq_of_mem_set hm
            · exact s.fits m hm
            · cases hm
              omega }

def cryptoMdGet (s : MdSlots) (mdId : Int) : Option CryptoMd :=
  ((s.slots.filterMap id).find? (·.2.id == mdId)).map (·.2)

variable {mdId : Int} {md : CryptoMd} {drop : Nat}

theorem cryptoMdGet_fits {s : MdSlots} (h : cryptoMdGet s mdId = some md) :
    0 < md.digestLen ∧ md.digestLen ≤ cryptoMdMaxLen := by
  obtain ⟨held, hfind, rfl⟩ := Option.map_eq_some_iff.mp h
  have hmem := mem_of_find?_eq_some hfind
  exact s.fits held (by simpa using hmem)

def mgf1Block (md : CryptoMd) (seed : List UInt8) (counter : Nat) : List UInt8 :=
  md.hash (seed ++ [UInt8.ofNat (counter >>> 24), UInt8.ofNat (counter >>> 16),
    UInt8.ofNat (counter >>> 8), UInt8.ofNat counter])

/-- `left` bytes are still to be written. -/
def mgf1Loop (md : CryptoMd) (seed : List UInt8) : Nat → Nat → Nat → Option (List UInt8)
  | 0, _, left => if left = 0 then some [] else none
  | fuel + 1, counter, left =>
    if left = 0 then some []
    else
      let take := min left md.digestLen
      let counter' := (counter + 1) % 2 ^ 32
      if counter' = 0 then none
      else
        (mgf1Loop md seed fuel counter' (left - take)).map
          ((mgf1Block md seed counter).take take ++ ·)

def mgf1 (md : CryptoMd) (seed : List UInt8) (masklen : Nat) : Option (List UInt8) :=
  if seed.length > cryptoMdMaxLen then none else mgf1Loop md seed masklen 0 masklen

/-- The data block: the mask removed, the bits above the modulus cleared. -/
def pssDb (em mask : List UInt8) (dblen drop : Nat) : List UInt8 :=
  match List.zipWith (· ^^^ ·) (em.take dblen) mask with
  | [] => []
  | b :: db => (if drop ≠ 0 then b &&& UInt8.ofNat (0xff >>> drop) else b) :: db

/-- From the separator scan on. -/
def pssSalt (md : CryptoMd) (saltLen : Int) (digest db h : List UInt8) (dblen : Nat) : Nat :=
  let sep := (db.takeWhile (· == 0)).length
  if sep ≥ dblen ∨ db.getD sep 0 ≠ 0x01 then 0
  else
    let slen := dblen - sep - 1
    if saltLen ≥ 0 ∧ (slen : Int) ≠ saltLen then 0
    else if slen > 512 then 0
    else
      let mprime := List.replicate 8 0 ++ digest ++ (db.drop (sep + 1)).take slen
      if (md.hash mprime).take digest.length ≠ h then 0 else 1

/-- From the trailer byte on: `em` has `emlen` bytes. -/
def pssEm (md mgfmd : CryptoMd) (saltLen : Int) (digest em : List UInt8) (embits emlen : Nat) :
    Nat :=
  if em.getD (emlen - 1) 0 ≠ 0xbc then 0
  else
    let dblen := emlen - digest.length - 1
    let h := (em.drop dblen).take digest.length
    let drop := 8 * emlen - embits
    if 8 * emlen < embits ∨ drop > 7 then 0
    else if drop ≠ 0 ∧ (em.getD 0 0).toNat >>> (8 - drop) ≠ 0 then 0
    else
      match mgf1 mgfmd h dblen with
      | none => 0
      | some mask => pssSalt md saltLen digest (pssDb em mask dblen drop) h dblen

def rsaVerifyPss (slots : MdSlots) (key : RsaPubkey) (mdId mgfMdId saltLen : Int)
    (digest sig : List UInt8) : Nat :=
  match cryptoMdGet slots mdId, cryptoMdGet slots mgfMdId with
  | some md, some mgfmd =>
    if digest.length ≠ md.digestLen then 0
    else if key.k = 0 ∨ key.k > 512 then 0
    else if sig.length ≠ key.k then 0
    else
      let embits := key.bits - 1
      let emlen := (embits + 7) / 8
      if emlen < digest.length + 2 then 0
      else
        match rsaPublic key sig with
        | none => 0
        | some em =>
          let pad := key.k - emlen
          if !(em.take pad).all (· == 0) then 0
          else pssEm md mgfmd saltLen digest (em.drop pad) embits emlen
  | _, _ => 0

/-- Appendix B.2.1. -/
def MGF1 (hash : List UInt8 → List UInt8) (hLen : Nat) (seed : List UInt8) (maskLen : Nat) :
    List UInt8 :=
  ((List.range ((maskLen + hLen - 1) / hLen)).flatMap fun counter =>
    hash (seed ++ beBytes counter 4)).take maskLen

/-- Steps 7 to 9 of section 9.1.2. -/
def pssDB (maskedDB dbMask : List UInt8) (drop : Nat) : List UInt8 :=
  (List.zipWith (· ^^^ ·) maskedDB dbMask).modify 0 fun b => UInt8.ofNat (b.toNat % 2 ^ (8 - drop))

/-- EMSA-PSS-VERIFY, section 9.1.2, from the message digest on. -/
structure EmsaPssVerify (hash : List UInt8 → List UInt8) (hLen : Nat)
    (mgf : List UInt8 → Nat → List UInt8) (sLen : Nat) (mHash em : List UInt8) (emBits emLen : Nat)
    (maskedDB H DB : List UInt8) : Prop where
  mHash_length : mHash.length = hLen
  room : hLen + sLen + 2 ≤ emLen
  trailer : em = maskedDB ++ H ++ [0xbc]
  maskedDB_length : maskedDB.length = emLen - hLen - 1
  H_length : H.length = hLen
  top : (maskedDB.headD 0).toNat < 2 ^ (8 - (8 * emLen - emBits))
  unmask : DB = pssDB maskedDB (mgf H (emLen - hLen - 1)) (8 * emLen - emBits)
  zeros : DB.take (emLen - hLen - sLen - 2) = List.replicate (emLen - hLen - sLen - 2) 0
  one : DB[emLen - hLen - sLen - 2]? = some 0x01
  hash_eq : hash (List.replicate 8 0 ++ mHash ++ DB.drop (emLen - hLen - sLen - 1)) = H

/-- RSASSA-PSS-VERIFY, section 8.1.2, with salts of `sLen` bytes. -/
def RsassaPssVerify (hash : List UInt8 → List UInt8) (hLen : Nat)
    (mgf : List UInt8 → Nat → List UInt8) (n e sLen : Nat) (mHash sig : List UInt8) : Prop :=
  let emBits := n.size - 1
  let emLen := (emBits + 7) / 8
  sig.length = byteLen n ∧ beVal sig < n ∧ beVal sig ^ e % n < 256 ^ emLen ∧
    ∃ maskedDB H DB, EmsaPssVerify hash hLen mgf sLen mHash (beBytes (beVal sig ^ e % n) emLen)
      emBits emLen maskedDB H DB

theorem mgf1Block_eq (md : CryptoMd) (seed : List UInt8) (counter : Nat) :
    mgf1Block md seed counter = md.hash (seed ++ beBytes counter 4) := by
  simp [mgf1Block, beBytes, range_succ, beByte, leByte, shiftRight_eq_div_pow]

theorem mgf1Loop_eq (hmd : 0 < md.digestLen) (seed : List UInt8) {fuel : Nat} :
    ∀ {counter left m : Nat}, left ≤ fuel → counter + left < 2 ^ 32 → left ≤ m * md.digestLen →
      mgf1Loop md seed fuel counter left =
        some (((range' counter m).flatMap fun c => md.hash (seed ++ beBytes c 4)).take left) := by
  induction fuel with
  | zero =>
    intro counter left m hf hc hm
    obtain rfl : left = 0 := by omega
    simp [mgf1Loop]
  | succ fuel ih =>
    intro counter left m hf hc hm
    rw [mgf1Loop]
    split
    · rename_i h0
      simp [h0]
    rename_i hpos
    obtain ⟨m, rfl⟩ : ∃ m', m = m' + 1 := by
      cases m with
      | zero => omega
      | succ m => exact ⟨m, rfl⟩
    rw [succ_mul] at hm
    have hstep : (counter + 1) % 2 ^ 32 = counter + 1 := mod_eq_of_lt (by omega)
    have hrec := @ih (counter + 1) (left - min left md.digestLen) m (by omega) (by omega) (by omega)
    dsimp only
    rw [hstep, if_neg (by omega), hrec, Option.map_some, mgf1Block_eq, range'_succ,
      flatMap_cons, take_append, md.length_hash]
    congr 2
    · rw [← take_take, take_of_length_le (l := md.hash _) (md.length_hash _).le]
    · congr 1
      omega

theorem mgf1_eq (hmd : 0 < md.digestLen) {seed : List UInt8} (hseed : seed.length ≤ cryptoMdMaxLen)
    {masklen : Nat} (hm : masklen < 2 ^ 32) :
    mgf1 md seed masklen = some (MGF1 md.hash md.digestLen seed masklen) := by
  have hcover : masklen ≤ (masklen + md.digestLen - 1) / md.digestLen * md.digestLen := by
    have := lt_div_mul_add (a := masklen + md.digestLen - 1) hmd
    omega
  rw [mgf1, if_neg (by omega), mgf1Loop_eq hmd seed le_rfl (by omega) hcover, MGF1,
    range_eq_range']

theorem length_MGF1 (hmd : 0 < md.digestLen) (seed : List UInt8) (masklen : Nat) :
    (MGF1 md.hash md.digestLen seed masklen).length = masklen := by
  have hcover : masklen ≤ (masklen + md.digestLen - 1) / md.digestLen * md.digestLen := by
    have := lt_div_mul_add (a := masklen + md.digestLen - 1) hmd
    omega
  rw [MGF1, length_take, length_flatMap]
  simp only [md.length_hash, map_const', sum_replicate, length_range, smul_eq_mul]
  omega

theorem and_low_bits (b : UInt8) (hd : drop < 8) :
    b &&& UInt8.ofNat (0xff >>> drop) = UInt8.ofNat (b.toNat % 2 ^ (8 - drop)) := by
  have hmask : 0xff >>> drop = 2 ^ (8 - drop) - 1 := by
    interval_cases drop <;> rfl
  have hpow : 2 ^ (8 - drop) ≤ 2 ^ 8 := Nat.pow_le_pow_right (by decide) (by omega)
  have hmod : b.toNat % 2 ^ (8 - drop) < 2 ^ (8 - drop) := mod_lt _ (by positivity)
  apply UInt8.toNat_inj.mp
  rw [UInt8.toNat_and, UInt8.toNat_ofNat', UInt8.toNat_ofNat', hmask, mod_eq_of_lt (by omega),
    and_two_pow_sub_one_eq_mod, mod_eq_of_lt (hmod.trans_le hpow)]

theorem pssDb_eq (em mask : List UInt8) (dblen : Nat) (hd : drop < 8) :
    pssDb em mask dblen drop = pssDB (em.take dblen) mask drop := by
  rw [pssDb, pssDB]
  cases zipWith (· ^^^ ·) (em.take dblen) mask with
  | nil => rfl
  | cons b db =>
    by_cases h0 : drop = 0
    · subst h0
      simp
    · simp [h0, and_low_bits b hd]

theorem length_pssDB (maskedDB dbMask : List UInt8) (drop : Nat) :
    (pssDB maskedDB dbMask drop).length = min maskedDB.length dbMask.length := by
  rw [pssDB, length_modify, length_zipWith]

theorem sep_eq_iff {db : List UInt8} {p : Nat} :
    (db.takeWhile (· == 0)).length = p ∧ db[p]? = some 0x01 ↔
      db.take p = replicate p 0 ∧ db[p]? = some 0x01 := by
  refine and_congr_left fun h1 => ?_
  obtain ⟨hp, hone⟩ := List.getElem?_eq_some_iff.mp h1
  constructor
  · rintro rfl
    rw [eq_replicate_iff, ← List.prefix_iff_eq_take.mp ( takeWhile_prefix _)]
    exact ⟨rfl, fun b hb => by simpa using all_eq_true.mp (all_takeWhile) b hb⟩
  intro hz
  rw [← take_append_drop p db, hz, drop_eq_getElem_cons hp, hone,
    takeWhile_append_of_pos (by simp [mem_replicate])]
  simp

theorem pssSalt_eq_one_iff {md : CryptoMd} {saltLen : Int} {digest db h : List UInt8} {dblen : Nat}
    (hdig : digest.length = md.digestLen) (hdb : db.length = dblen) (hmax : dblen ≤ 512) :
    pssSalt md saltLen digest db h dblen = 1 ↔
      ∃ sLen : Nat, (0 ≤ saltLen → (sLen : Int) = saltLen) ∧ sLen + 1 ≤ dblen ∧
        db.take (dblen - sLen - 1) = replicate (dblen - sLen - 1) 0 ∧
        db[dblen - sLen - 1]? = some 0x01 ∧
        md.hash (replicate 8 0 ++ digest ++ db.drop (dblen - sLen)) = h := by
  have htake : ∀ m, (md.hash m).take digest.length = md.hash m := by
    intro m
    rw [hdig, ← md.length_hash m, take_length]
  have hsalt : ∀ sep, (db.drop (sep + 1)).take (dblen - sep - 1) = db.drop (sep + 1) := by
    intro sep
    rw [take_of_length_le]
    simp
    omega
  rw [pssSalt]
  simp only [htake, hsalt]
  constructor
  · intro hret
    generalize hsep : (db.takeWhile (· == 0)).length = sep at hret
    by_cases hfound : sep ≥ dblen ∨ db.getD sep 0 ≠ 0x01
    · rw [if_pos hfound] at hret
      cases hret
    rw [if_neg hfound] at hret
    split_ifs at hret with hlen hbig hne
    push Not at hfound hlen hne
    have hone : db[sep]? = some 0x01 := by
      rw [getElem?_eq_getElem (by omega), ← getD_eq_getElem db 0 (by omega), hfound.2]
    have hz := (sep_eq_iff.mp ⟨hsep, hone⟩).1
    refine ⟨dblen - sep - 1, hlen, by omega, ?_⟩
    rw [show dblen - (dblen - sep - 1) - 1 = sep by omega,
      show dblen - (dblen - sep - 1) = sep + 1 by omega]
    exact ⟨hz, hone, hne⟩
  · rintro ⟨sLen, hlen, hfit, hz, hone, hhash⟩
    have hsep := (sep_eq_iff.mpr ⟨hz, hone⟩).1
    have hgetD : db.getD (dblen - sLen - 1) 0 = 0x01 := by
      rw [getD_eq_getElem?_getD, hone, Option.getD_some]
    rw [hsep, hgetD, if_neg (not_or.mpr ⟨by omega, not_not.mpr rfl⟩),
      show dblen - (dblen - sLen - 1) - 1 = sLen by omega, show dblen - sLen - 1 + 1 =
      dblen - sLen by omega, hhash, if_neg (by tauto), if_neg (by omega), if_neg (by simp)]

theorem exists_cut {em : List UInt8} {dblen hLen : Nat} (hem : em.length = dblen + hLen + 1) :
    ∃ maskedDB H last, em = maskedDB ++ H ++
    [last] ∧ maskedDB.length = dblen ∧ H.length = hLen := by
  obtain ⟨front, last, rfl⟩ := (eq_nil_or_concat' em).resolve_left (by grind)
  exact ⟨front.take dblen, front.drop dblen, last, by rw [take_append_drop], by grind, by grind⟩

theorem pssEm_eq_one_iff {md mgfmd : CryptoMd} {saltLen : Int} {digest em : List UInt8}
    {embits emlen : Nat} (hem : em.length = emlen) (hbits : emlen = (embits + 7) / 8)
    (hdig : digest.length = md.digestLen) (hd64 : md.digestLen ≤ cryptoMdMaxLen)
    (hmgf : 0 < mgfmd.digestLen) (hroom : digest.length + 2 ≤ emlen) (hmax : emlen ≤ 512) :
    pssEm md mgfmd saltLen digest em embits emlen = 1 ↔
      ∃ sLen : Nat, (0 ≤ saltLen → (sLen : Int) = saltLen) ∧ ∃ maskedDB H DB,
        EmsaPssVerify md.hash md.digestLen (MGF1 mgfmd.hash mgfmd.digestLen) sLen digest em embits
          emlen maskedDB H DB := by
  obtain ⟨dblen, hdblen⟩ : ∃ dblen, emlen = dblen + digest.length + 1 :=
    ⟨emlen - digest.length - 1, by omega⟩
  obtain ⟨maskedDB, H, last, rfl, hml, hHl⟩ := exists_cut (hem.trans hdblen)
  have hdb : emlen - digest.length - 1 = dblen := by omega
  have htrailer : (maskedDB ++ H ++ [last]).getD (emlen - 1) 0 = last := by grind
  have hH : ((maskedDB ++ H ++ [last]).drop dblen).take digest.length = H := by
    rw [append_assoc, drop_left' hml, take_left' hHl]
  have hmasked : (maskedDB ++ H ++ [last]).take dblen = maskedDB := by
    rw [append_assoc, take_left' hml]
  have hfirst : (maskedDB ++ H ++ [last]).getD 0 0 = maskedDB.headD 0 := by
    cases maskedDB <;> grind
  have hdrop : 8 * emlen - embits < 8 := by omega
  have htop : (8 * emlen - embits ≠ 0 ∧
      (maskedDB.headD 0).toNat >>> (8 - (8 * emlen - embits)) ≠ 0) ↔
        ¬ (maskedDB.headD 0).toNat < 2 ^ (8 - (8 * emlen - embits)) := by
    rw [shiftRight_eq_div_pow, Ne, Ne, div_eq_zero_iff_lt (by positivity)]
    refine and_iff_right_of_imp fun hbig h0 => hbig ?_
    rw [h0]
    exact UInt8.toNat_lt _
  have hsalt := @pssSalt_eq_one_iff md saltLen digest
    (pssDB maskedDB (MGF1 mgfmd.hash mgfmd.digestLen H dblen) (8 * emlen - embits)) H dblen hdig
    (by rw [length_pssDB, length_MGF1 hmgf, hml, min_self]) (by omega)
  have hzeros : ∀ sLen, emlen - digest.length - sLen - 2 = dblen - sLen - 1 := by omega
  have hsep : ∀ sLen, emlen - digest.length - sLen - 1 = dblen - sLen := by omega
  rw [pssEm, hdb]
  dsimp only
  rw [htrailer, hH, hfirst, mgf1_eq hmgf (by omega) (by omega)]
  dsimp only
  rw [pssDb_eq _ _ _ hdrop, hmasked, ← hdig, if_neg (by omega : ¬ (_ ∨ _))]
  constructor
  · intro hret
    by_cases hbc : last ≠ 0xbc
    · rw [if_pos hbc] at hret
      cases hret
    rw [if_neg hbc] at hret
    split_ifs at hret with hbits0
    rw [htop, not_not] at hbits0
    obtain ⟨sLen, hs, hfit, hz, hone, hhash⟩ := hsalt.mp hret
    refine ⟨sLen, hs, maskedDB, H,
      pssDB maskedDB (MGF1 mgfmd.hash mgfmd.digestLen H dblen) (8 * emlen - embits), ?_⟩
    exact {
      mHash_length := rfl
      room := by omega
      trailer := by rw [not_not.mp hbc]
      maskedDB_length := hml.trans hdb.symm
      H_length := hHl
      top := hbits0
      unmask := by rw [hdb]
      zeros := by rwa [hzeros]
      one := by rwa [hzeros]
      hash_eq := by rwa [hsep] }
  · rintro ⟨sLen, hs, maskedDB', H', DB, hv⟩
    have hroom' := hv.room
    have hml' := hv.maskedDB_length
    obtain ⟨hfront, hbc⟩ := append_inj' hv.trailer rfl
    obtain ⟨rfl, rfl⟩ := append_inj hfront (by omega)
    cases hbc
    have hz := hv.zeros
    have hone := hv.one
    have hhash := hv.hash_eq
    rw [hv.unmask, hdb] at hz hone hhash
    rw [hzeros] at hz hone
    rw [hsep] at hhash
    rw [if_neg (not_not.mpr rfl), if_neg (htop.not.mpr (not_not.mpr hv.top))]
    exact hsalt.mpr ⟨sLen, hs, by omega, hz, hone, hhash⟩

theorem rsaVerifyPss_eq_one_iff {key : RsaPubkey} {n e : Nat} (hk : key.Ok n e) (h : KeyRange n e)
    {slots : MdSlots} {mgfMdId : Int} {mgfmd : CryptoMd} (hmd : cryptoMdGet slots mdId = some md)
    (hmgf : cryptoMdGet slots mgfMdId = some mgfmd) (saltLen : Int) (digest sig : List UInt8) :
    rsaVerifyPss slots key mdId mgfMdId saltLen digest sig = 1 ↔
      ∃ sLen : Nat, (0 ≤ saltLen → (sLen : Int) = saltLen) ∧
        RsassaPssVerify md.hash md.digestLen (MGF1 mgfmd.hash mgfmd.digestLen) n e sLen digest
          sig := by
  have hlen := h.byteLen_range
  obtain ⟨emlen, hemlen⟩ : ∃ emlen, emlen = (n.size - 1 + 7) / 8 := ⟨_, rfl⟩
  have hpad : byteLen n = byteLen n - emlen + emlen := by
    rw [byteLen] at hlen ⊢
    omega
  rw [rsaVerifyPss, hmd, hmgf]
  dsimp only
  rw [hk.k, hk.bits, rsaPublic_eq hk h]
  simp only [RsassaPssVerify, ← hemlen]
  -- what the specification demands and the code checks first
  by_cases hpre : digest.length = md.digestLen ∧ digest.length + 2 ≤ emlen ∧
    sig.length = byteLen n ∧ beVal sig < n
  swap
  · have hno : ∀ sLen em maskedDB H DB, ¬ (sig.length = byteLen n ∧ beVal sig < n ∧
        EmsaPssVerify md.hash md.digestLen (MGF1 mgfmd.hash mgfmd.digestLen) sLen digest em
          (n.size - 1) emlen maskedDB H DB) := by
      rintro sLen em maskedDB H DB ⟨h1, h2, hv⟩
      have := hv.room
      have := hv.mHash_length
      exact hpre ⟨by omega, by omega, h1, h2⟩
    refine iff_of_false ?_ (by grind)
    grind
  obtain ⟨hdig, hroom, hsl, hs⟩ := hpre
  rw [if_neg (not_not.mpr hdig), if_neg (by omega), if_neg (not_not.mpr hsl),
    if_neg (Nat.not_lt.mpr hroom), if_pos ⟨hsl, hs⟩]
  obtain ⟨m, hm⟩ : ∃ m, m = beVal sig ^ e % n := ⟨_, rfl⟩
  have hmn : m < 256 ^ (byteLen n - emlen + emlen) := by
    rw [← hpad, hm]
    exact (mod_lt _ (by omega)).trans (lt_pow_byteLen n)
  dsimp only
  rw [← hm]
  have hem := @pssEm_eq_one_iff md mgfmd saltLen digest (beBytes m emlen) (n.size - 1) emlen
    (length_beBytes m emlen) hemlen hdig (cryptoMdGet_fits hmd).2 (cryptoMdGet_fits hmgf).1
    hroom (by omega)
  -- the leading byte is zero exactly when the integer fits
  by_cases hfit : m < 256 ^ emlen
  · have hbytes : beBytes m (byteLen n) = replicate (byteLen n - emlen) 0 ++ beBytes m emlen := by
      rw [hpad, Nat.add_sub_cancel]
      exact beBytes_of_lt _ hfit
    rw [hbytes, take_left' (by simp), drop_left' (by simp), if_neg (by simp), hem]
    simp only [hsl, hs, hfit, true_and]
  · have hnz : ¬ ((beBytes m (byteLen n)).take (byteLen n - emlen)).all (· == 0) := by
      intro hz
      rw [hpad, Nat.add_sub_cancel] at hz
      exact hfit (lt_of_zeros hmn hz)
    rw [if_pos (by simpa using hnz)]
    simp [hfit]

/-- For every accepted key, pair of registered digests, salt length, digest and signature. -/
theorem rsa_verify_pss_exact {der : List UInt8} {key : RsaPubkey}
    (hkey : rsaPubkeyFromDer der = some key) :
    ∃ n e, der = rsaKeyDer n e ∧ ∀ (slots : MdSlots) (mdId mgfMdId : Int) (md mgfmd : CryptoMd),
      cryptoMdGet slots mdId = some md → cryptoMdGet slots mgfMdId = some mgfmd →
        ∀ (saltLen : Int) (digest sig : List UInt8),
          rsaVerifyPss slots key mdId mgfMdId saltLen digest sig = 1 ↔
            ∃ sLen : Nat, (0 ≤ saltLen → (sLen : Int) = saltLen) ∧
              RsassaPssVerify md.hash md.digestLen (MGF1 mgfmd.hash mgfmd.digestLen) n e sLen digest
                sig := by
  obtain ⟨n, e, hder, hrange, hok⟩ := rsaPubkeyFromDer_sound hkey
  refine ⟨n, e, hder, ?_⟩
  intro slots mdId mgfMdId md mgfmd hmd hmgf saltLen digest sig
  exact rsaVerifyPss_eq_one_iff hok hrange hmd hmgf saltLen digest sig

/-- A registered function that hashes everything to zeros. -/
def zeroMd : CryptoMd := ⟨3, 32, fun _ => List.replicate 32 0, fun _ => List.length_replicate⟩

theorem rsa_verify_pss_exact_zeroMd :
    ∃ key slots, rsaPubkeyFromDer (rsaKeyDer longModulus 3) = some key ∧
      cryptoMdRegister cryptoMdClear (1, zeroMd) = some slots ∧ cryptoMdGet slots 3 = some zeroMd ∧
      ∃ n e, rsaKeyDer longModulus 3 = rsaKeyDer n e ∧ ∀ (saltLen : Int) (digest sig : List UInt8),
        rsaVerifyPss slots key 3 3 saltLen digest sig = 1 ↔
          ∃ sLen : Nat, (0 ≤ saltLen → (sLen : Int) = saltLen) ∧
            RsassaPssVerify zeroMd.hash 32 (MGF1 zeroMd.hash 32) n e sLen digest sig := by
  obtain ⟨key, hkey, -⟩ := rsaPubkeyFromDer_complete longModulus_range
  obtain ⟨n, e, hder, hexact⟩ := rsa_verify_pss_exact hkey
  exact ⟨key, _, hkey, rfl, rfl, n, e, hder, hexact _ 3 3 zeroMd zeroMd rfl rfl⟩

end KestrelOS.Tls
