import KestrelOS.Tls.RsaKey

/-!
# PKCS #1 v1.5 signatures

`rsa_verify_pkcs1_v15` compares the recovered block with the one it expects, once with a NULL
parameter and once without. It accepts a digest of 1 to 64 bytes exactly as RFC 8017 does.
-/

namespace KestrelOS.Tls

open Limbs Der

def cryptoMdMaxLen : Nat := 64

def oidSha1 : List UInt8 := [0x2b, 0x0e, 0x03, 0x02, 0x1a]

def oidSha224 : List UInt8 := [0x60, 0x86, 0x48, 0x01, 0x65, 0x03, 0x04, 0x02, 0x04]

def oidSha256 : List UInt8 := [0x60, 0x86, 0x48, 0x01, 0x65, 0x03, 0x04, 0x02, 0x01]

def oidSha384 : List UInt8 := [0x60, 0x86, 0x48, 0x01, 0x65, 0x03, 0x04, 0x02, 0x02]

def oidSha512 : List UInt8 := [0x60, 0x86, 0x48, 0x01, 0x65, 0x03, 0x04, 0x02, 0x03]

def mdOids : List (Int × List UInt8) :=
  [(1, oidSha1), (2, oidSha224), (3, oidSha256), (4, oidSha384), (5, oidSha512)]

def cryptoMdOid (id : Int) : Option (List UInt8) := (mdOids.find? (·.1 == id)).map (·.2)

def buildDigestinfo (cap : Nat) (mdId : Int) (digest : List UInt8) (withNull : Bool) :
    Option (List UInt8) :=
  (cryptoMdOid mdId).bind fun oid =>
    let algContent := 2 + oid.length + (if withNull then 2 else 0)
    let diContent := (2 + algContent) + (2 + digest.length)
    let total := 2 + diContent
    if total > cap ∨ diContent > 0x7f ∨ digest.length > 0x7f then none
    else
      some ([0x30, UInt8.ofNat diContent, 0x30, UInt8.ofNat algContent, 0x06,
        UInt8.ofNat oid.length] ++
        oid ++ (if withNull then [0x05, 0x00] else []) ++ [0x04, UInt8.ofNat digest.length] ++
        digest)

def pkcs1Matches (key : RsaPubkey) (em : List UInt8) (mdId : Int) (digest : List UInt8)
    (withNull : Bool) : Bool :=
  match buildDigestinfo 128 mdId digest withNull with
  | none => false
  | some di =>
    if key.k < di.length + 11 then false
    else
      let pslen := key.k - di.length - 3
      let want := [0x00, 0x01] ++ List.replicate pslen 0xff ++ [0x00] ++ di
      want == em

def rsaVerifyPkcs1V15 (key : RsaPubkey) (mdId : Int) (digest sig : List UInt8) : Nat :=
  if digest.length = 0 ∨ digest.length > cryptoMdMaxLen then 0
  else if key.k = 0 ∨ key.k > 512 then 0
  else if sig.length ≠ key.k then 0
  else
    match rsaPublic key sig with
    | none => 0
    | some em =>
      if pkcs1Matches key em mdId digest true then 1
      else if pkcs1Matches key em mdId digest false then 1
      else 0

/-- DigestInfo in canonical encoding, with a NULL parameter or with none. -/
def digestInfo (oid digest : List UInt8) (withNull : Bool) : List UInt8 :=
  elem 0x30 (elem 0x30 (elem 0x06 oid ++ if withNull then elem 0x05 [] else []) ++ elem 0x04 digest)

/-- The signature is valid for the digest under the key `(n, e)`. -/
def Pkcs1Valid (n e : Nat) (mdId : Int) (digest sig : List UInt8) : Prop :=
  sig.length = byteLen n ∧ beVal sig < n ∧
    ∃ oid withNull ps, cryptoMdOid mdId = some oid ∧ 8 ≤ ps ∧
      beBytes (beVal sig ^ e % n) (byteLen n) =
        [0x00, 0x01] ++ List.replicate ps 0xff ++ [0x00] ++ digestInfo oid digest withNull

theorem elem_short {tag : UInt8} {content : List UInt8} (h : content.length < 0x80) :
    elem tag content = tag :: UInt8.ofNat content.length :: content := by
  rw [elem, lenOctets, if_pos h, List.singleton_append]

variable {id : Int} {digest oid : List UInt8} {key : RsaPubkey}

theorem oid_length (h : cryptoMdOid id = some oid) : oid.length ≤ 9 := by
  obtain ⟨⟨id', oid'⟩, hfind, rfl⟩ := Option.map_eq_some_iff.mp h
  have hmem := List.mem_of_find?_eq_some hfind
  have hall : ∀ p ∈ mdOids, p.2.length ≤ 9 := by decide
  exact hall _ hmem

theorem buildDigestinfo_eq (hoid : cryptoMdOid id = some oid) (hd : digest.length ≤ cryptoMdMaxLen)
    (withNull : Bool) :
    buildDigestinfo 128 id digest withNull = some (digestInfo oid digest withNull) := by
  have hol := oid_length hoid
  have hd : digest.length ≤ 64 := hd
  obtain ⟨par, hpar⟩ : ∃ par : List UInt8, (if withNull then [0x05, 0x00] else []) = par := ⟨_, rfl⟩
  have hnull : (if withNull then elem 0x05 [] else []) = par := by
    rw [← hpar]
    cases withNull <;> rfl
  have hplen : (if withNull then 2 else 0) = par.length := by
    rw [← hpar]
    cases withNull <;> rfl
  have hple : par.length ≤ 2 := by
    rw [← hplen]
    split <;> omega
  -- every length fits one octet
  have hoide : elem 0x06 oid = 0x06 :: UInt8.ofNat oid.length :: oid := elem_short (by omega)
  have hdige : elem 0x04 digest = 0x04 :: UInt8.ofNat digest.length :: digest :=
    elem_short (by omega)
  have halg : elem 0x30 (elem 0x06 oid ++ par) =
      0x30 :: UInt8.ofNat (2 + oid.length + par.length) :: 0x06 :: UInt8.ofNat oid.length ::
        (oid ++ par) := by
    have hlen : (elem 0x06 oid ++ par).length = 2 + oid.length + par.length := by
      rw [hoide]
      simp
      omega
    rw [elem_short (by rw [hlen]; omega), hlen, hoide]
    rfl
  have hlen : (elem 0x30 (elem 0x06 oid ++ par) ++ elem 0x04 digest).length =
      2 + (2 + oid.length + par.length) + (2 + digest.length) := by
    rw [halg, hdige]
    simp
    omega
  rw [buildDigestinfo, hoid, Option.bind_some, hplen, hpar]
  dsimp only
  rw [if_neg (by omega), digestInfo, hnull, elem_short (by rw [hlen]; omega), hlen, halg, hdige]
  simp

theorem pkcs1Matches_iff {n e : Nat} (hk : key.Ok n e) {em : List UInt8}
    (hem : em.length = byteLen n) (mdId : Int) (hd : digest.length ≤ cryptoMdMaxLen)
    (withNull : Bool) : pkcs1Matches key em mdId digest withNull ↔
      ∃ oid ps, cryptoMdOid mdId = some oid ∧ 8 ≤ ps ∧
        em = [0x00, 0x01] ++ List.replicate ps 0xff ++
        [0x00] ++ digestInfo oid digest withNull := by
  cases hoid : cryptoMdOid mdId with
  | none =>
    have hnone : buildDigestinfo 128 mdId digest withNull = none := by
      rw [buildDigestinfo, hoid, Option.bind_none]
    simp [pkcs1Matches, hnone]
  | some oid =>
    rw [pkcs1Matches, buildDigestinfo_eq hoid hd]
    dsimp only
    rw [hk.k]
    split
    · rename_i hshort
      constructor
      · intro h
        cases h
      rintro ⟨oid', ps, hoid', hps, rfl⟩
      cases hoid'
      simp at hem
      omega
    · rename_i hroom
      rw [beq_iff_eq]
      constructor
      · rintro rfl
        exact ⟨oid, _, rfl, by omega, rfl⟩
      rintro ⟨oid', ps, hoid', hps, rfl⟩
      cases hoid'
      simp at hem
      rw [show byteLen n - (digestInfo oid digest withNull).length - 3 = ps by omega]

theorem rsaVerifyPkcs1V15_eq_one_iff {n e : Nat} (hk : key.Ok n e) (h : KeyRange n e) (mdId : Int)
    (h1 : 1 ≤ digest.length) (h64 : digest.length ≤ cryptoMdMaxLen) (sig : List UInt8) :
    rsaVerifyPkcs1V15 key mdId digest sig = 1 ↔ Pkcs1Valid n e mdId digest sig := by
  have hlen := h.byteLen_range
  rw [rsaVerifyPkcs1V15, if_neg (by omega), if_neg (by rw [hk.k]; omega), hk.k, Pkcs1Valid,
    rsaPublic_eq hk h]
  by_cases hsl : sig.length = byteLen n
  swap
  · simp [hsl]
  by_cases hs : beVal sig < n
  swap
  · simp [hsl, hs]
  rw [if_neg (not_not.mpr hsl), if_pos ⟨hsl, hs⟩]
  have hm := pkcs1Matches_iff hk (length_beBytes (beVal sig ^ e % n) (byteLen n)) mdId h64
  have hnull := hm true
  have hbare := hm false
  dsimp only
  -- either variant may match
  constructor
  · intro hret
    refine ⟨hsl, hs, ?_⟩
    split_ifs at hret with ht hf
    · obtain ⟨oid, ps, ho, hps, heq⟩ := hnull.mp ht
      exact ⟨oid, true, ps, ho, hps, heq⟩
    · obtain ⟨oid, ps, ho, hps, heq⟩ := hbare.mp hf
      exact ⟨oid, false, ps, ho, hps, heq⟩
  · rintro ⟨-, -, oid, withNull, ps, ho, hps, heq⟩
    cases withNull with
    | true => rw [if_pos (hnull.mpr ⟨oid, ps, ho, hps, heq⟩)]
    | false => rw [if_pos (hbare.mpr ⟨oid, ps, ho, hps, heq⟩), ite_self]

/-- Verification is exact for every accepted key, digest of 1 to 64 bytes and signature. -/
theorem rsa_verify_pkcs1_v15_exact {der : List UInt8} {key : RsaPubkey}
    (hkey : rsaPubkeyFromDer der = some key) :
    ∃ n e, der = rsaKeyDer n e ∧ ∀ (mdId : Int) (digest sig : List UInt8), 1 ≤ digest.length →
      digest.length ≤ 64 →
        (rsaVerifyPkcs1V15 key mdId digest sig = 1 ↔ Pkcs1Valid n e mdId digest sig) := by
  obtain ⟨n, e, hder, hrange, hok⟩ := rsaPubkeyFromDer_sound hkey
  refine ⟨n, e, hder, ?_⟩
  intro mdId digest sig h1 h64
  exact rsaVerifyPkcs1V15_eq_one_iff hok hrange mdId h1 h64 sig

/-- The block for a SHA-256 identifier and 65 zero bytes, in 128 bytes. -/
def longBlock : List UInt8 :=
  [0x00, 0x01] ++ List.replicate 41 0xff ++ [0x00] ++
    digestInfo oidSha256 (List.replicate 65 0) true

def longRoot : Nat := 2 ^ 341 + 2 ^ 339 + 1

/-- A modulus under which the cube of `longRoot` is the block. -/
def longModulus : Nat := longRoot ^ 3 - beVal longBlock

theorem longModulus_range : KeyRange longModulus 3 := by
  constructor <;> decide +kernel

/-- The signature over 65 bytes is valid, and is refused. -/
theorem rsa_verify_pkcs1_v15_long_digest :
    ∃ key, rsaPubkeyFromDer (rsaKeyDer longModulus 3) = some key ∧
      Pkcs1Valid longModulus 3 3 (List.replicate 65 0) (beBytes longRoot 128) ∧
      rsaVerifyPkcs1V15 key 3 (List.replicate 65 0) (beBytes longRoot 128) = 0 := by
  obtain ⟨key, hkey, -⟩ := rsaPubkeyFromDer_complete longModulus_range
  have hk : byteLen longModulus = 128 := by decide +kernel
  have hs : beVal (beBytes longRoot 128) = longRoot := by decide +kernel
  have hcube : longRoot ^ 3 % longModulus = beVal longBlock := by decide +kernel
  refine ⟨key, hkey, ⟨?_, ?_, oidSha256, true, 41, rfl, by omega, ?_⟩, rfl⟩
  · rw [length_beBytes, hk]
  · rw [hs]
    decide +kernel
  have hlen : longBlock.length = 128 := by decide +kernel
  rw [hs, hcube, hk, ← (eq_beBytes_iff hlen (hlen ▸ beVal_lt longBlock)).mpr rfl]
  rfl

theorem rsa_verify_pkcs1_v15_exact_longModulus :
    ∃ key, rsaPubkeyFromDer (rsaKeyDer longModulus 3) = some key ∧
      ∃ n e, rsaKeyDer longModulus 3 = rsaKeyDer n e ∧
        ∀ (mdId : Int) (digest sig : List UInt8), 1 ≤ digest.length → digest.length ≤ 64 →
          (rsaVerifyPkcs1V15 key mdId digest sig = 1 ↔ Pkcs1Valid n e mdId digest sig) := by
  obtain ⟨key, hkey, -⟩ := rsaPubkeyFromDer_complete longModulus_range
  exact ⟨key, hkey, rsa_verify_pkcs1_v15_exact hkey⟩

end KestrelOS.Tls
