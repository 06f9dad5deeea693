import KestrelOS.Tls.Ecc
import KestrelOS.Tls.Hostname

/-!
# Certificate chains

`x509_verify_chain` accepts only chains in which every certificate, link and constraint is in
order, with one gap: the path length of the trusted root is not looked at.
-/

namespace KestrelOS.Tls

open Limbs Der WeierstrassCurve

def x509MinRsaBits : Nat := 2048

def readEcdsaSig (sig : List UInt8) : Option (List UInt8 × List UInt8) :=
  (derReadExpect sig 0x30).bind fun t =>
    if t.2 ≠ [] then none
    else
      (derReadUint t.1.val).bind fun r =>
        (derReadUint r.2).bind fun s => if s.2 ≠ [] then none else some (r.1, s.1)

def x509VerifySignature (slots : MdSlots) (cert issuer : X509Cert) : Bool :=
  match cryptoMdGet slots cert.sigMd with
  | none => false
  | some md =>
    let digest := md.hash cert.tbs
    match cert.sigAlg with
    | .ecdsa =>
      if issuer.pkAlg ≠ .p256 then false
      else
        match p256PointFromBytes issuer.pkBits, readEcdsaSig cert.sig with
        | some pub, some (r, s) => p256EcdsaVerify pub digest r s = 1
        | _, _ => false
    | alg =>
      if issuer.pkAlg ≠ .rsa then false
      else
        match rsaPubkeyFromDer issuer.pkBits with
        | none => false
        | some key =>
          if key.bits < x509MinRsaBits then false
          else if alg = .rsaPkcs1 then rsaVerifyPkcs1V15 key cert.sigMd digest cert.sig = 1
          else
            rsaVerifyPss slots key cert.sigMd cert.sigMgfMd cert.sigSaltLen digest cert.sig = 1

def x509MaxChain : Nat := 10

def namesEqual (a b : X509Cert) : Bool := a.issuerRaw == b.subjectRaw

def certInForce (now : Nat) (c : X509Cert) : Bool :=
  !c.unknownCritical && !(now < c.notBefore) && !(now > c.notAfter)

def leafUsable (c : X509Cert) : Bool :=
  !(c.hasEku && c.eku &&& 0x0041 == 0) && !(c.hasKeyUsage && c.keyUsage &&& 0x0015 == 0)

/-- The checks on `chain[i]` as the issuer of the certificate before it. -/
def issuerOk (slots : MdSlots) (i : Nat) (prev ca : X509Cert) : Bool :=
  if !ca.hasBasicConstraints || !ca.isCa then false
  else if ca.hasKeyUsage && ca.keyUsage &&& 0x0020 == 0 then false
  else if ca.pathLen ≥ 0 ∧ (i - 1 : Int) > ca.pathLen then false
  else if !namesEqual prev ca then false
  else x509VerifySignature slots prev ca

def linkLoop (slots : MdSlots) : Nat → X509Cert → List X509Cert → Bool
  | _, _, [] => true
  | i, prev, ca :: rest => issuerOk slots i prev ca && linkLoop slots (i + 1) ca rest

def chainChecks (slots : MdSlots) (leaf : X509Cert) (rest : List X509Cert)
    (hostname : Option (List UInt8)) (now : Nat) : Bool :=
  (leaf :: rest).all (certInForce now) &&
    (match hostname with
      | none => true
      | some host => x509CheckHostname leaf host) &&
    leafUsable leaf && linkLoop slots 1 leaf rest

def anchors (slots : MdSlots) (now : Nat) (last root : X509Cert) : Bool :=
  namesEqual last root && !(root.hasBasicConstraints && !root.isCa) &&
    !(now < root.notBefore || now > root.notAfter) &&
    !(root.hasKeyUsage && root.keyUsage &&& 0x0020 == 0) && x509VerifySignature slots last root

def x509VerifyChain (slots : MdSlots) (chain roots : List X509Cert)
    (hostname : Option (List UInt8)) (now : Nat) : Bool :=
  match chain with
  | [] => false
  | leaf :: rest =>
    if (leaf :: rest).length > x509MaxChain then false
    else if roots = [] then false
    else if !chainChecks slots leaf rest hostname now then false
    else roots.any (anchors slots now (rest.getLastD leaf))

def ecdsaSigDer (r s : Nat) : List UInt8 :=
  elem 0x30 (elem 0x02 (natContent r) ++ elem 0x02 (natContent s))

def IsRsaKey (issuer : X509Cert) (n e : Nat) : Prop :=
  issuer.pkAlg = .rsa ∧ issuer.pkBits = rsaKeyDer n e ∧ KeyRange n e ∧ x509MinRsaBits ≤ n.size

/-- The signature of the certificate is valid under the issuer's key. -/
def SignatureValid (slots : MdSlots) (cert issuer : X509Cert) : Prop :=
  ∃ md, cryptoMdGet slots cert.sigMd = some md ∧
    match cert.sigAlg with
    | .rsaPkcs1 => ∃ n e, IsRsaKey issuer n e ∧
        Pkcs1Valid n e cert.sigMd (md.hash cert.tbs) cert.sig
    | .rsaPss => ∃ n e mgfmd, ∃ sLen : Nat, IsRsaKey issuer n e ∧
        cryptoMdGet slots cert.sigMgfMd = some mgfmd ∧
        (0 ≤ cert.sigSaltLen → (sLen : Int) = cert.sigSaltLen) ∧
        RsassaPssVerify md.hash md.digestLen (MGF1 mgfmd.hash mgfmd.digestLen) n e sLen
          (md.hash cert.tbs) cert.sig
    | .ecdsa => issuer.pkAlg = .p256 ∧ ∃ P r s, IsSec1 issuer.pkBits P ∧
        cert.sig = ecdsaSigDer r s ∧ EcdsaValid P (md.hash cert.tbs) r s

private theorem readEcdsaSig_sound {sig r s : List UInt8} (h : readEcdsaSig sig = some (r, s)) :
    ∃ rn sn, sig = ecdsaSigDer rn sn ∧ r = natBytes rn ∧ s = natBytes sn := by
  simp only [readEcdsaSig, derReadUint_eq_derUint, Option.bind_eq_some_iff, ite_eq_iff] at h
  obtain ⟨⟨t, rest⟩, hseq, ⟨-, h⟩ | ⟨hrest, ⟨r', d⟩, hr, ⟨s', d'⟩, hs, ⟨-, h⟩ | ⟨hend, h⟩⟩⟩ := h <;>
    cases h
  have htag := (derReadExpect_iff_derTag (by decide) (by decide)).mp ⟨t, hseq, rfl⟩
  obtain ⟨rfl, -⟩ := derTag_eq_some_iff.mp htag
  obtain ⟨rn, hrn, -, rfl⟩ := derUint_eq_some_iff.mp hr
  obtain ⟨sn, rfl, -, rfl⟩ := derUint_eq_some_iff.mp hs
  exact ⟨rn, sn, by grind [ecdsaSigDer], rfl, rfl⟩

private theorem readEcdsaSig_complete {r s : Nat} (hr : r < 256 ^ 32) (hs : s < 256 ^ 32) :
    readEcdsaSig (ecdsaSigDer r s) = some (natBytes r, natBytes s) := by
  have hrl := natContent_length_le (by decide) hr
  have hsl := natContent_length_le (by decide) hs
  have hre := elem_length_le 0x02 hrl (by decide)
  have hse := elem_length_le 0x02 hsl (by decide)
  have htag := derTag_eq_some_iff.mpr (⟨(List.append_nil _).symm, by
    rw [List.length_append]
    omega⟩ : ecdsaSigDer r s =
    elem 0x30 (elem 0x02 (natContent r) ++ elem 0x02 (natContent s)) ++ [] ∧
      (elem 0x02 (natContent r) ++ elem 0x02 (natContent s)).length < 2 ^ 32)
  obtain ⟨t, ht, hval⟩ := (derReadExpect_iff_derTag (by decide) (by decide)).mpr htag
  have hru : derUint (elem 0x02 (natContent r) ++ elem 0x02 (natContent s)) =
      some (natBytes r, elem 0x02 (natContent s)) :=
    derUint_eq_some_iff.mpr ⟨r, rfl, by omega, rfl⟩
  have hsu : derUint (elem 0x02 (natContent s)) = some (natBytes s, []) :=
    derUint_eq_some_iff.mpr ⟨s, (List.append_nil _).symm, by omega, rfl⟩
  rw [readEcdsaSig, ht, Option.bind_some, if_neg (by simp), hval, derReadUint_eq_derUint, hru,
    Option.bind_some, derReadUint_eq_derUint, hsu, Option.bind_some, if_neg (by simp)]

variable {P : p256Curve.Point} {now : Nat} {c leaf : X509Cert} {rest : List X509Cert}
  {hostname : Option (List UInt8)} {issuer subject : List UInt8} {ca : Bool} {pathLen : Int}

private theorem ecdsa_iff {pub : P256Point} (henc : pub.Encodes P) {digest : List UInt8}
    (hd : digest ≠ []) (r s : Nat) :
    p256EcdsaVerify pub digest (natBytes r) (natBytes s) = 1 ↔ EcdsaValid P digest r s := by
  obtain ⟨hv, hP⟩ := henc.valid
  by_cases hlen : (natBytes r).length ≤ 32 ∧ (natBytes s).length ≤ 32
  · rw [p256EcdsaVerify_eq_one_iff pub digest _ _ hd ⟨natBytes_length_pos r, hlen.1⟩
      ⟨natBytes_length_pos s, hlen.2⟩, beVal_natBytes, beVal_natBytes]
    exact ⟨fun ⟨_, h⟩ => hP ▸ h, fun h => ⟨hv, hP ▸ h⟩⟩
  · rw [p256EcdsaVerify, if_pos (by omega)]
    have hbig : groupOrder < 256 ^ 32 := by decide
    simp only [zero_ne_one, EcdsaValid, false_iff]
    rintro ⟨⟨-, hr⟩, ⟨-, hs⟩, -⟩
    exact hlen ⟨(natBytes_length_le (by decide)).mpr (hr.trans hbig),
      (natBytes_length_le (by decide)).mpr (hs.trans hbig)⟩

private theorem rsaKey_iff {issuer : X509Cert} {p : RsaPubkey → Bool} {valid : Nat → Nat → Prop}
    (hp : ∀ key n e, key.Ok n e → KeyRange n e → (p key = true ↔ valid n e)) :
    (if issuer.pkAlg ≠ .rsa then false
      else
        match rsaPubkeyFromDer issuer.pkBits with
        | none => false
        | some key => if key.bits < x509MinRsaBits then false else p key) = true ↔
    ∃ n e, IsRsaKey issuer n e ∧ valid n e := by
  by_cases hpk : issuer.pkAlg = .rsa
  swap
  · simp [hpk, IsRsaKey]
  rw [if_neg (not_not.mpr hpk)]
  constructor
  · intro h
    cases hkey : rsaPubkeyFromDer issuer.pkBits with
    | none => grind
    | some key =>
      obtain ⟨n, e, hder, hrange, hok⟩ := rsaPubkeyFromDer_sound hkey
      exact ⟨n, e, by grind [IsRsaKey, hok.bits]⟩
  · rintro ⟨n, e, ⟨-, hder, hrange, hsize⟩, hvalid⟩
    obtain ⟨key, hkey, hok⟩ := rsaPubkeyFromDer_complete hrange
    grind [hok.bits]

private theorem x509VerifySignature_iff {slots : MdSlots} {cert issuer : X509Cert} :
    x509VerifySignature slots cert issuer = true ↔ SignatureValid slots cert issuer := by
  rw [x509VerifySignature, SignatureValid]
  cases hmd : cryptoMdGet slots cert.sigMd with
  | none => simp
  | some md =>
    have hfits := cryptoMdGet_fits hmd
    have hlen := md.length_hash cert.tbs
    simp only [Option.some.injEq, exists_eq_left']
    cases halg : cert.sigAlg with
    | rsaPkcs1 =>
      dsimp only
      have hkey := @rsaKey_iff issuer
        (fun key => rsaVerifyPkcs1V15 key cert.sigMd (md.hash cert.tbs) cert.sig = 1)
        (fun n e => Pkcs1Valid n e cert.sigMd (md.hash cert.tbs) cert.sig)
        (fun key n e hok hrange => by
          rw [decide_eq_true_iff]
          exact rsaVerifyPkcs1V15_eq_one_iff hok hrange cert.sigMd (by omega) (by omega) cert.sig)
      exact hkey
    | rsaPss =>
      dsimp only
      have hkey := @rsaKey_iff issuer
        (fun key => rsaVerifyPss slots key cert.sigMd cert.sigMgfMd cert.sigSaltLen
          (md.hash cert.tbs) cert.sig = 1)
        (fun n e => ∃ mgfmd, ∃ sLen : Nat, cryptoMdGet slots cert.sigMgfMd = some mgfmd ∧
          (0 ≤ cert.sigSaltLen → (sLen : Int) = cert.sigSaltLen) ∧
          RsassaPssVerify md.hash md.digestLen (MGF1 mgfmd.hash mgfmd.digestLen) n e sLen
            (md.hash cert.tbs) cert.sig)
        (fun key n e hok hrange => by
          rw [decide_eq_true_iff]
          cases hmgf : cryptoMdGet slots cert.sigMgfMd with
          | none => simp [rsaVerifyPss, hmd, hmgf]
          | some mgfmd =>
            rw [rsaVerifyPss_eq_one_iff hok hrange hmd hmgf]
            simp only [Option.some.injEq, exists_and_left, exists_eq_left'])
      refine hkey.trans ⟨?_, ?_⟩
      · rintro ⟨n, e, hk, mgfmd, sLen, h⟩
        exact ⟨n, e, mgfmd, sLen, hk, h⟩
      · rintro ⟨n, e, mgfmd, sLen, hk, h⟩
        exact ⟨n, e, hk, mgfmd, sLen, h⟩
    | ecdsa =>
      dsimp only
      by_cases hpk : issuer.pkAlg = .p256
      swap
      · simp [hpk]
      rw [if_neg (not_not.mpr hpk)]
      have hne : md.hash cert.tbs ≠ [] := by
        intro hnil
        rw [hnil, List.length_nil] at hlen
        omega
      constructor
      · intro h
        cases hpub : p256PointFromBytes issuer.pkBits with
        | none =>
          rw [hpub] at h
          cases h
        | some pub =>
          cases hsig : readEcdsaSig cert.sig with
          | none =>
            rw [hpub, hsig] at h
            cases h
          | some rs =>
            obtain ⟨r, s⟩ := rs
            rw [hpub, hsig] at h
            obtain ⟨P, hsec, henc⟩ := p256PointFromBytes_sound hpub
            obtain ⟨rn, sn, hder, rfl, rfl⟩ := readEcdsaSig_sound hsig
            exact ⟨hpk, P, rn, sn, hsec, hder, (ecdsa_iff henc hne rn sn).mp (by simpa using h)⟩
      · rintro ⟨-, P, r, s, hsec, hder, hvalid⟩
        have hbig : groupOrder < 256 ^ 32 := by decide
        obtain ⟨pub, hpub, henc⟩ := p256PointFromBytes_complete hsec
        rw [hpub, hder, readEcdsaSig_complete (hvalid.1.2.trans hbig) (hvalid.2.1.2.trans hbig)]
        simpa using (ecdsa_iff henc hne r s).mpr hvalid

def Current (now : Nat) (c : X509Cert) : Prop := c.notBefore ≤ now ∧ now ≤ c.notAfter

def PermitsServerAuth (c : X509Cert) : Prop :=
  (c.hasEku = true → c.eku &&& 0x0001 ≠ 0 ∨ c.eku &&& 0x0040 ≠ 0) ∧
    (c.hasKeyUsage = true → c.keyUsage &&& 0x0015 ≠ 0)

def SigningCa (c : X509Cert) : Prop :=
  c.hasBasicConstraints = true ∧ c.isCa = true ∧ (c.hasKeyUsage = true → c.keyUsage &&& 0x0020 ≠ 0)

/-- A pathLenConstraint, when there is one, allows `n` certificates below. -/
def AllowsPath (c : X509Cert) (n : Nat) : Prop := 0 ≤ c.pathLen → (n : Int) ≤ c.pathLen

def IssuedBy (slots : MdSlots) (cert issuer : X509Cert) : Prop :=
  cert.issuerRaw = issuer.subjectRaw ∧ SignatureValid slots cert issuer

/-- What is asked of the certificates that the peer sent. -/
structure ChainInOrder (slots : MdSlots) (chain : List X509Cert) (now : Nat) : Prop where
  length : 1 ≤ chain.length ∧ chain.length ≤ 10
  current : ∀ c ∈ chain, Current now c
  known : ∀ c ∈ chain, c.unknownCritical = false
  leaf : ∀ leaf ∈ chain.head?, PermitsServerAuth leaf
  ca : ∀ i c, 1 ≤ i → chain[i]? = some c → SigningCa c
  link : ∀ i a b, chain[i]? = some a → chain[i + 1]? = some b → IssuedBy slots a b
  path : ∀ i c, 1 ≤ i → chain[i]? = some c → AllowsPath c (i - 1)

/-- The chain, whose first certificate is `der`, may be trusted through the root `r`. -/
structure TrustedChain (slots : MdSlots) (der : List UInt8) (chain : List X509Cert)
    (hostname : Option (List UInt8)) (now : Nat) (r : X509Cert) : Prop
    extends ChainInOrder slots chain now where
  host : ∀ name ∈ hostname, CertNames der name
  root_current : Current now r
  root : ∀ last ∈ chain.getLast?, IssuedBy slots last r
  root_path : AllowsPath r (chain.length - 1)

/-- A store certificate that is current, issued the last certificate and is not marked as one that
may not sign certificates. -/
structure MayAnchor (slots : MdSlots) (now : Nat) (last r : X509Cert) : Prop where
  current : Current now r
  issued : IssuedBy slots last r
  ca : r.hasBasicConstraints = true → r.isCa = true
  usage : r.hasKeyUsage = true → r.keyUsage &&& 0x0020 ≠ 0

private theorem issuerOk_iff {slots : MdSlots} {i : Nat} (hi : 1 ≤ i) {prev ca : X509Cert} :
    issuerOk slots i prev ca = true ↔
      SigningCa ca ∧ AllowsPath ca (i - 1) ∧ IssuedBy slots prev ca := by
  have hname : namesEqual prev ca = true ↔ prev.issuerRaw = ca.subjectRaw := by simp [namesEqual]
  rw [issuerOk, SigningCa, AllowsPath, IssuedBy, ← x509VerifySignature_iff]
  grind

private theorem linkLoop_iff {slots : MdSlots} {i : Nat} (hi : 1 ≤ i) {prev : X509Cert}
    {rest : List X509Cert} : linkLoop slots i prev rest = true ↔
      ∀ (k : Nat) (a b : X509Cert), (prev :: rest)[k]? = some a → rest[k]? = some b →
        SigningCa b ∧ AllowsPath b (i + k - 1) ∧ IssuedBy slots a b := by
  induction rest generalizing i prev with
  | nil => simp [linkLoop]
  | cons ca rest ih =>
    rw [linkLoop, Bool.and_eq_true, issuerOk_iff hi, ih (by omega)]
    have hk : ∀ k, i + (k + 1) - 1 = i + 1 + k - 1 := fun k => by omega
    constructor
    · rintro ⟨hfirst, hrest⟩ k a b ha hb
      cases k with
      | zero => grind
      | succ k => exact hk k ▸ hrest k a b ha hb
    · exact fun h => ⟨h 0 prev ca rfl rfl, fun k a b ha hb => hk k ▸ h (k + 1) a b ha hb⟩

private theorem certInForce_iff : certInForce now c = true ↔ Current now c ∧
    c.unknownCritical = false := by
  simp [certInForce, Current, and_comm, and_left_comm]

private theorem leafUsable_iff : leafUsable c = true ↔ PermitsServerAuth c := by
  have hor : c.eku &&& 0x0041 = 0 ↔ c.eku &&& 0x0001 = 0 ∧ c.eku &&& 0x0040 = 0 := by
    rw [show (0x0041 : Nat) = 0x0001 ||| 0x0040 from rfl, Nat.and_or_distrib_left,
      Nat.or_eq_zero_iff]
  simp only [leafUsable, PermitsServerAuth, Bool.and_eq_true, Bool.not_eq_true',
    Bool.and_eq_false_imp, beq_eq_false_iff_ne, ne_eq, hor, not_and_or]

private theorem chainChecks_iff {slots : MdSlots} :
    chainChecks slots leaf rest hostname now = true ↔
    (∀ c ∈ leaf :: rest, Current now c ∧ c.unknownCritical = false) ∧
      (∀ name ∈ hostname, x509CheckHostname leaf name = true) ∧ PermitsServerAuth leaf ∧
      ∀ (k : Nat) (a b : X509Cert), (leaf :: rest)[k]? = some a → rest[k]? = some b →
        SigningCa b ∧ AllowsPath b k ∧ IssuedBy slots a b := by
  have hhost : (match hostname with
      | none => true
      | some host => x509CheckHostname leaf host) = true ↔
        ∀ name ∈ hostname, x509CheckHostname leaf name = true := by
    cases hostname <;> simp
  have hlink := @linkLoop_iff slots 1 le_rfl leaf rest
  simp only [Nat.add_sub_cancel_left] at hlink
  simp only [chainChecks, Bool.and_eq_true, List.all_eq_true, certInForce_iff, hhost,
    leafUsable_iff, hlink, and_assoc]

private theorem x509VerifyChain_cons {slots : MdSlots} {roots : List X509Cert} :
    x509VerifyChain slots (leaf :: rest) roots hostname now = true ↔
      (leaf :: rest).length ≤ x509MaxChain ∧ chainChecks slots leaf rest hostname now = true ∧
        ∃ r ∈ roots, anchors slots now (rest.getLastD leaf) r = true := by
  rw [x509VerifyChain, ← List.any_eq_true]
  grind

private theorem anchors_iff {slots : MdSlots} {last r : X509Cert} :
    anchors slots now last r = true ↔ MayAnchor slots now last r := by
  have hname : namesEqual last r = true ↔ last.issuerRaw = r.subjectRaw := by simp [namesEqual]
  have hcur : (!(decide (now < r.notBefore) || decide (now > r.notAfter))) = true ↔
      Current now r := by
    simp [Current]
  have hca : (!(r.hasBasicConstraints && !r.isCa)) = true ↔
      (r.hasBasicConstraints = true → r.isCa = true) := by
    cases r.hasBasicConstraints <;> simp
  have husage : (!(r.hasKeyUsage && r.keyUsage &&& 0x0020 == 0)) = true ↔
      (r.hasKeyUsage = true → r.keyUsage &&& 0x0020 ≠ 0) := by
    cases r.hasKeyUsage <;> simp
  rw [anchors, Bool.and_eq_true, Bool.and_eq_true, Bool.and_eq_true, Bool.and_eq_true, hname, hcur,
    hca, husage, x509VerifySignature_iff]
  exact ⟨fun ⟨⟨⟨⟨h1, h2⟩, h3⟩, h4⟩, h5⟩ => ⟨h3, ⟨h1, h5⟩, h2, h4⟩,
    fun ⟨h3, ⟨h1, h5⟩, h2, h4⟩ => ⟨⟨⟨⟨h1, h2⟩, h3⟩, h4⟩, h5⟩⟩

private theorem chainInOrder_iff {slots : MdSlots} : ChainInOrder slots (leaf :: rest) now ↔
    (leaf :: rest).length ≤ x509MaxChain ∧
      (∀ c ∈ leaf :: rest, Current now c ∧ c.unknownCritical = false) ∧ PermitsServerAuth leaf ∧
      ∀ (k : Nat) (a b : X509Cert), (leaf :: rest)[k]? = some a → rest[k]? = some b →
        SigningCa b ∧ AllowsPath b k ∧ IssuedBy slots a b := by
  constructor
  · intro h
    refine ⟨h.length.2, fun c hc => ⟨h.current c hc, h.known c hc⟩, h.leaf leaf rfl, ?_⟩
    intro k a b ha hb
    exact ⟨h.ca (k + 1) b (by omega) hb, h.path (k + 1) b (by omega) hb, h.link k a b ha hb⟩
  · rintro ⟨hlen, hforce, hleaf, hlink⟩
    -- a certificate after the leaf has a predecessor
    have hca : ∀ i c, 1 ≤ i → (leaf :: rest)[i]? = some c → SigningCa c ∧ AllowsPath c (i - 1) := by
      intro i c hi hc
      obtain ⟨k, rfl⟩ : ∃ k, i = k + 1 := ⟨i - 1, by omega⟩
      have hk := (List.getElem?_eq_some_iff.mp hc).1
      have hc' := hlink k _ c (List.getElem?_eq_getElem (by omega)) hc
      exact ⟨hc'.1, hc'.2.1⟩
    exact {
      length := ⟨by simp, hlen⟩
      current := fun c hc => (hforce c hc).1
      known := fun c hc => (hforce c hc).2
      leaf := by grind
      ca := fun i c hi hc => (hca i c hi hc).1
      link := fun i a b ha hb => (hlink i a b ha hb).2.2
      path := fun i c hi hc => (hca i c hi hc).2 }

/-- What the function answers, in terms of what is asked of the certificates. -/
private theorem x509VerifyChain_iff {slots : MdSlots} {roots : List X509Cert} :
    x509VerifyChain slots (leaf :: rest) roots hostname now = true ↔
      ChainInOrder slots (leaf :: rest) now ∧
        (∀ name ∈ hostname, x509CheckHostname leaf name = true) ∧
        ∃ r ∈ roots, MayAnchor slots now (rest.getLastD leaf) r := by
  rw [x509VerifyChain_cons, chainChecks_iff, chainInOrder_iff]
  simp only [anchors_iff]
  tauto

def zeroBlock : List UInt8 :=
  [0x00, 0x01] ++ List.replicate 202 0xff ++ [0x00] ++
    digestInfo oidSha256 (List.replicate 32 0) true

def zeroRoot : Nat := 2 ^ 682 + 2 ^ 681 + 1

/-- A modulus under which the cube of `zeroRoot` is the block. -/
def zeroModulus : Nat := zeroRoot ^ 3 - beVal zeroBlock

private theorem zeroModulus_range : KeyRange zeroModulus 3 := by
  constructor <;> decide +kernel

private theorem zeroModulus_valid :
    Pkcs1Valid zeroModulus 3 3 (List.replicate 32 0) (beBytes zeroRoot 256) := by
  have hk : byteLen zeroModulus = 256 := by decide +kernel
  have hs : beVal (beBytes zeroRoot 256) = zeroRoot := by decide +kernel
  have hcube : zeroRoot ^ 3 % zeroModulus = beVal zeroBlock := by decide +kernel
  refine ⟨by rw [length_beBytes, hk], ?_, oidSha256, true, 202, rfl, by omega, ?_⟩
  · rw [hs]
    decide +kernel
  have hlen : zeroBlock.length = 256 := by decide +kernel
  have hlt := beVal_lt zeroBlock
  rw [hlen] at hlt
  rw [hs, hcube, hk, ← (eq_beBytes_iff hlen hlt).mpr rfl]
  rfl

/-- A version 3 certificate for the key above with the given basicConstraints. -/
def caCert (issuer subject bc : List UInt8) : List UInt8 :=
  sampleCert (elem 0xa0 (elem 0x02 [0x02])) (cnName issuer) (cnName subject)
    (rsaKeyDer zeroModulus 3)
    (elem 0xa3 (elem 0x30 (elem 0x30 (elem 0x06 oidExtBc ++ elem 0x04 (elem 0x30 bc)))))
    (beBytes zeroRoot 256)

@[mk_iff] structure CaFields (issuer subject : List UInt8) (ca : Bool) (pathLen : Int)
    (c : X509Cert) : Prop where
  issuer : c.issuerRaw = cnName issuer
  subject : c.subjectRaw = cnName subject
  bc : c.hasBasicConstraints = true
  ca : c.isCa = ca
  pathLen : c.pathLen = pathLen
  ku : c.hasKeyUsage = false
  eku : c.hasEku = false
  known : c.unknownCritical = false
  notBefore : c.notBefore = 1735689600
  notAfter : c.notAfter = 1735689600
  sigAlg : c.sigAlg = .rsaPkcs1
  sigMd : c.sigMd = 3
  sig : c.sig = beBytes zeroRoot 256
  pkAlg : c.pkAlg = .rsa
  pkBits : c.pkBits = rsaKeyDer zeroModulus 3

instance : Decidable (CaFields issuer subject ca pathLen c) := decidable_of_iff' _ (caFields_iff ..)

private theorem leaf_parses :
    parsesAs (caCert [0x49] [0x4c] []) (CaFields [0x49] [0x4c] false (-1)) = true := by
  decide +kernel

private theorem intermediate_parses :
    parsesAs (caCert [0x52] [0x49] [0x01, 0x01, 0xff]) (CaFields [0x52] [0x49] true (-1)) =
      true := by
  decide +kernel

private theorem root_parses : parsesAs (caCert [0x52] [0x52] [0x01, 0x01, 0xff, 0x02, 0x01, 0x00])
      (CaFields [0x52] [0x52] true 0) = true := by
  decide +kernel

private theorem free_root_parses : parsesAs (caCert [0x52] [0x52] [0x01, 0x01, 0xff])
      (CaFields [0x52] [0x52] true (-1)) = true := by
  decide +kernel

def zeroSlots : MdSlots := (cryptoMdRegister cryptoMdClear (1, zeroMd)).getD cryptoMdClear

private theorem CaFields.signed {issuer' subject' : List UInt8} {ca' : Bool} {pathLen' : Int}
    {c' : X509Cert} (h : CaFields issuer subject ca pathLen c)
    (h' : CaFields issuer' subject' ca' pathLen' c') : SignatureValid zeroSlots c c' := by
  refine ⟨zeroMd, by rw [h.sigMd]; rfl, ?_⟩
  rw [h.sigAlg]
  refine ⟨zeroModulus, 3, ⟨h'.pkAlg, h'.pkBits, zeroModulus_range, by decide +kernel⟩, ?_⟩
  rw [h.sigMd, h.sig]
  exact zeroModulus_valid

private theorem CaFields.current (h : CaFields issuer subject ca pathLen c) :
    Current 1735689600 c :=
  ⟨h.notBefore.le, h.notAfter.ge⟩

section Accepted

variable {leaf inter root : X509Cert} (hl : CaFields [0x49] [0x4c] false (-1) leaf)
  (hi : CaFields [0x52] [0x49] true (-1) inter) (hr : CaFields [0x52] [0x52] true pathLen root)

include hl hi hr

private theorem zeroChain_accepted :
    x509VerifyChain zeroSlots [leaf, inter] [root] none 1735689600 = true := by
  have hissued : IssuedBy zeroSlots leaf inter := ⟨hl.issuer.trans hi.subject.symm, hl.signed hi⟩
  refine x509VerifyChain_iff.mpr ⟨chainInOrder_iff.mpr ⟨?_, ?_, ?_, ?_⟩, nofun, root, ?_⟩
  · exact (by decide : 2 ≤ x509MaxChain)
  · intro c hc
    obtain rfl | hc := List.mem_cons.mp hc
    · exact ⟨hl.current, hl.known⟩
    · obtain rfl := List.mem_singleton.mp hc
      exact ⟨hi.current, hi.known⟩
  · exact ⟨by simp [hl.eku], by simp [hl.ku]⟩
  · intro k a b ha hb
    cases k with
    | zero =>
      cases ha
      cases hb
      exact ⟨⟨hi.bc, hi.ca, by simp [hi.ku]⟩, by simp [AllowsPath, hi.pathLen], hissued⟩
    | succ k => cases hb
  · exact ⟨List.mem_singleton.mpr rfl, hr.current, ⟨hi.issuer.trans hr.subject.symm, hi.signed hr⟩,
      fun _ => hr.ca, by simp [hr.ku]⟩

end Accepted

end KestrelOS.Tls
