import KestrelOS.Tls.DerReader
import KestrelOS.Tls.Pss

/-!
# Certificates

`x509_parse` and what it calls. A parsed certificate holds the bytes that the pointers of the source
select; the two common names are 128-byte buffers, as in the source.
-/

namespace KestrelOS.Tls

open Option

def oidCn : List UInt8 := [0x55, 0x04, 0x03]

def oidRsaEnc : List UInt8 := [0x2a, 0x86, 0x48, 0x86, 0xf7, 0x0d, 0x01, 0x01, 0x01]

def oidRsaPss : List UInt8 := [0x2a, 0x86, 0x48, 0x86, 0xf7, 0x0d, 0x01, 0x01, 0x0a]

def oidMgf1 : List UInt8 := [0x2a, 0x86, 0x48, 0x86, 0xf7, 0x0d, 0x01, 0x01, 0x08]

def oidSha1Rsa : List UInt8 := [0x2a, 0x86, 0x48, 0x86, 0xf7, 0x0d, 0x01, 0x01, 0x05]

def oidSha224Rsa : List UInt8 := [0x2a, 0x86, 0x48, 0x86, 0xf7, 0x0d, 0x01, 0x01, 0x0e]

def oidSha256Rsa : List UInt8 := [0x2a, 0x86, 0x48, 0x86, 0xf7, 0x0d, 0x01, 0x01, 0x0b]

def oidSha384Rsa : List UInt8 := [0x2a, 0x86, 0x48, 0x86, 0xf7, 0x0d, 0x01, 0x01, 0x0c]

def oidSha512Rsa : List UInt8 := [0x2a, 0x86, 0x48, 0x86, 0xf7, 0x0d, 0x01, 0x01, 0x0d]

def oidEcPubkey : List UInt8 := [0x2a, 0x86, 0x48, 0xce, 0x3d, 0x02, 0x01]

def oidEcdsaSha1 : List UInt8 := [0x2a, 0x86, 0x48, 0xce, 0x3d, 0x04, 0x01]

def oidEcdsaSha224 : List UInt8 := [0x2a, 0x86, 0x48, 0xce, 0x3d, 0x04, 0x03, 0x01]

def oidEcdsaSha256 : List UInt8 := [0x2a, 0x86, 0x48, 0xce, 0x3d, 0x04, 0x03, 0x02]

def oidEcdsaSha384 : List UInt8 := [0x2a, 0x86, 0x48, 0xce, 0x3d, 0x04, 0x03, 0x03]

def oidEcdsaSha512 : List UInt8 := [0x2a, 0x86, 0x48, 0xce, 0x3d, 0x04, 0x03, 0x04]

def oidP256 : List UInt8 := [0x2a, 0x86, 0x48, 0xce, 0x3d, 0x03, 0x01, 0x07]

def oidP384 : List UInt8 := [0x2b, 0x81, 0x04, 0x00, 0x22]

def oidP521 : List UInt8 := [0x2b, 0x81, 0x04, 0x00, 0x23]

def oidExtSan : List UInt8 := [0x55, 0x1d, 0x11]

def oidExtBc : List UInt8 := [0x55, 0x1d, 0x13]

def oidExtKu : List UInt8 := [0x55, 0x1d, 0x0f]

def oidExtEku : List UInt8 := [0x55, 0x1d, 0x25]

def oidExtSkid : List UInt8 := [0x55, 0x1d, 0x0e]

def oidExtAkid : List UInt8 := [0x55, 0x1d, 0x23]

def oidExtCp : List UInt8 := [0x55, 0x1d, 0x20]

def oidEkuAny : List UInt8 := [0x55, 0x1d, 0x25, 0x00]

/-- The key purposes under `1.3.6.1.5.5.7.3`. -/
def oidEku (k : UInt8) : List UInt8 := [0x2b, 0x06, 0x01, 0x05, 0x05, 0x07, 0x03, k]

def mdays : List Int := [31, 28, 31, 30, 31, 30, 31, 31, 30, 31, 30, 31]

def isLeap (y : Int) : Bool := y % 4 = 0 ∧ y % 100 ≠ 0 ∨ y % 400 = 0

def cumDays : List Int := [0, 31, 59, 90, 120, 151, 181, 212, 243, 273, 304, 334]

def civilToUnix (y mo d h mi s : Int) : Int :=
  let leaps := ((y - 1) / 4 - (y - 1) / 100 + (y - 1) / 400) - (1969 / 4 - 1969 / 100 + 1969 / 400)
  let days := (y - 1970) * 365 + leaps + cumDays.getD (mo - 1).toNat 0 + (d - 1)
  let days := if mo > 2 ∧ isLeap y then days + 1 else days
  days * 86400 + h * 3600 + mi * 60 + s

def dig2 (v : List UInt8) (i : Nat) : Option Int :=
  let a := v.getD i 0
  let b := v.getD (i + 1) 0
  if a < 0x30 ∨ a > 0x39 ∨ b < 0x30 ∨ b > 0x39 then none
  else some ((a.toNat - 0x30 : Int) * 10 + (b.toNat - 0x30))

def timeYear (t : DerTlv) : Option (Int × Nat) :=
  if t.tag = 0x17 then
    if t.val.length ≠ 13 ∨ t.val.getD 12 0 ≠ 0x5a then none
    else (dig2 t.val 0).map fun yy => (if yy < 50 then 2000 + yy else 1900 + yy, 2)
  else if t.tag = 0x18 then
    if t.val.length ≠ 15 ∨ t.val.getD 14 0 ≠ 0x5a then none
    else (dig2 t.val 0).bind fun c => (dig2 t.val 2).map fun yy => (c * 100 + yy, 4)
  else none

def derReadTime (d : List UInt8) : Option (Nat × List UInt8) :=
  (derRead d).bind fun r =>
    if r.1.cls ≠ 0 ∨ r.1.constructed then none
    else
      (timeYear r.1).bind fun y =>
        (dig2 r.1.val y.2).bind fun mo => (dig2 r.1.val (y.2 + 2)).bind fun dd =>
          (dig2 r.1.val (y.2 + 4)).bind fun h => (dig2 r.1.val (y.2 + 6)).bind fun mi =>
            (dig2 r.1.val (y.2 + 8)).bind fun s =>
              if mo < 1 ∨ mo > 12 ∨ h > 23 ∨ mi > 59 ∨ s > 60 then none
              else
                let dm := mdays.getD (mo - 1).toNat 0 + if mo = 2 ∧ isLeap y.1 then 1 else 0
                if dd < 1 ∨ dd > dm then none
                else
                  let s := if s = 60 then 59 else s
                  if y.1 < 1970 then none
                  else
                    let u := civilToUnix y.1 mo dd h mi s
                    if u < 0 then none
                    else some ((if u > 0xffffffff then 0xffffffff else u).toNat, r.2)

def x509MaxCn : Nat := 128

/-- The loop of `copy_dirstring`: a zero ends it with the buffer as it is. -/
def copyChars (conv : Nat → UInt8) : List Nat → Nat → List UInt8 → List UInt8
  | [], n, out => out.set n 0
  | ch :: chs, n, out =>
    if ch = 0 then out
    else if n + 1 ≥ x509MaxCn then out.set n 0
    else copyChars conv chs (n + 1) (out.set n (conv ch))

def bmpChars : List UInt8 → List Nat
  | a :: b :: v => (a.toNat <<< 8 ||| b.toNat) :: bmpChars v
  | _ => []

def copiedString (t : DerTlv) : Bool :=
  if t.tag = 0x1e then t.val.length % 2 == 0
  else t.tag == 0x0c || t.tag == 0x13 || t.tag == 0x16 || t.tag == 0x14

def copyDirstring (t : DerTlv) (out : List UInt8) : List UInt8 :=
  if !copiedString t then out
  else if t.tag = 0x1e then
    copyChars (fun ch => if ch < 0x80 then UInt8.ofNat ch else 0x3f) (bmpChars t.val) 0 out
  else copyChars UInt8.ofNat (t.val.map (·.toNat)) 0 out

/-- The walk of `name_get_cn` does `f` for each commonName value. -/
def nameAttr {σ : Type} (f : DerTlv → σ → σ) (pair : DerTlv) (out : σ) : σ :=
  match derReadOid pair.val with
  | none => out
  | some (oid, atv) =>
    match derRead atv with
    | none => out
    | some (val, _) => if val.cls = 0 ∧ oid = oidCn then f val out else out

def rdnLoop {σ : Type} (f : DerTlv → σ → σ) : Nat → List UInt8 → σ → σ × Bool
  | 0, _, out => (out, true)
  | fuel + 1, rdn, out =>
    if rdn = [] then (out, true)
    else
      match derReadExpect rdn 0x30 with
      | none => (out, false)
      | some (pair, rdn) => rdnLoop f fuel rdn (nameAttr f pair out)

def nameLoop {σ : Type} (f : DerTlv → σ → σ) : Nat → List UInt8 → σ → σ
  | 0, _, out => out
  | fuel + 1, seq, out =>
    if seq = [] then out
    else
      match derReadExpect seq 0x31 with
      | none => out
      | some (set, seq) =>
        match rdnLoop f set.val.length set.val out with
        | (out, false) => out
        | (out, true) => nameLoop f fuel seq out

def nameWalk {σ : Type} (f : DerTlv → σ → σ) (name : List UInt8) (out : σ) : σ :=
  match derReadExpect name 0x30 with
  | none => out
  | some (t, _) => nameLoop f t.val.length t.val out

def nameGetCn (name : List UInt8) (out : List UInt8) : List UInt8 :=
  nameWalk copyDirstring name (out.set 0 0)

/-- `CRYPTO_MD_*` of the OID, or 0. -/
def cryptoMdFromOid (oid : List UInt8) : Int := ((mdOids.find? (·.2 == oid)).map (·.1)).getD 0

inductive SigAlg where
  | rsaPkcs1
  | rsaPss
  | ecdsa
deriving DecidableEq

structure AlgInfo where
  sigAlg : SigAlg
  md : Int
  mgfMd : Int
  saltLen : Int

/-- The hash named by an AlgorithmIdentifier inside a context element. -/
def pssHash (seq : List UInt8) : Option Int :=
  (derReadExpect seq 0x30).bind fun a =>
    (derReadOid a.1.val).bind fun oid =>
      if cryptoMdFromOid oid.1 = 0 then none else some (cryptoMdFromOid oid.1)

/-- The mask generation function of `[1]`; `none` inside when it names no hash. -/
def pssMgf (seq : List UInt8) : Option (Option Int) :=
  (derReadExpect seq 0x30).bind fun a =>
    (derReadOid a.1.val).bind fun oid =>
      if oid.1 ≠ oidMgf1 then none
      else if oid.2 = [] then some none
      else (pssHash oid.2).map some

/-- An optional field: absent, or read by `f`, with what follows. -/
def derOptional {α : Type} (d : List UInt8) (tag : Nat) (dflt : α) (f : List UInt8 → Option α) :
    Option (α × List UInt8) :=
  match derReadContext d tag true with
  | none => some (dflt, d)
  | some (t, d) => (f t.val).map (·, d)

def parsePssParams (params : Option DerTlv) : Option AlgInfo :=
  match params with
  | none => some ⟨.rsaPss, 1, 1, 20⟩
  | some p =>
    if p.cls ≠ 0 ∨ p.tag ≠ 0x10 then none
    else
      (derOptional p.val 0 1 pssHash).bind fun md =>
        (derOptional md.2 1 none pssMgf).bind fun mgf =>
          (derOptional mgf.2 2 20 fun v =>
            (derReadU32 v).bind fun sl => if sl.1 > 512 then none else some sl.1).bind fun sl =>
              (derOptional sl.2 3 1 fun v =>
                (derReadU32 v).bind fun tf => if tf.1 ≠ 1 then none else some tf.1).bind fun tf =>
                  if tf.2 ≠ [] then none else some ⟨.rsaPss, md.1, mgf.1.getD 1, sl.1⟩

def sigAlgs : List (List UInt8 × SigAlg × Int) :=
  [(oidSha256Rsa, .rsaPkcs1, 3), (oidSha384Rsa, .rsaPkcs1, 4), (oidSha512Rsa, .rsaPkcs1, 5),
    (oidSha224Rsa, .rsaPkcs1, 2), (oidSha1Rsa, .rsaPkcs1, 1), (oidEcdsaSha256, .ecdsa, 3),
    (oidEcdsaSha384, .ecdsa, 4), (oidEcdsaSha512, .ecdsa, 5), (oidEcdsaSha224, .ecdsa, 2),
    (oidEcdsaSha1, .ecdsa, 1)]

/-- The parameters of an RSA signature are NULL or absent, those of ECDSA absent. -/
def sigParamsOk (alg : SigAlg) (params : Option DerTlv) : Bool :=
  match params with
  | none => true
  | some p => alg == .rsaPkcs1 && (p.cls == 0 && p.tag == 0x05 && p.val.length == 0)

def parseSigAlg (seq : DerTlv) : Option AlgInfo :=
  if seq.cls ≠ 0 ∨ seq.tag ≠ 0x10 then none
  else
    (derReadOid seq.val).bind fun oid =>
      let params : Option (Option DerTlv × List UInt8) :=
        if oid.2 = [] then some (none, []) else (derRead oid.2).map fun r => (some r.1, r.2)
      params.bind fun ps =>
        if ps.2 ≠ [] then none
        else
          match sigAlgs.find? (·.1 == oid.1) with
          | some (_, alg, md) => if sigParamsOk alg ps.1 then some ⟨alg, md, 0, -1⟩ else none
          | none => if oid.1 = oidRsaPss then parsePssParams ps.1 else none

def x509MaxSan : Nat := 16

structure X509San where
  p : List UInt8
  isIp : Bool
deriving DecidableEq

structure X509Exts where
  hasBasicConstraints : Bool := false
  isCa : Bool := false
  pathLen : Int := -1
  hasKeyUsage : Bool := false
  keyUsage : Nat := 0
  hasEku : Bool := false
  eku : Nat := 0
  san : List X509San := []
  unknownCritical : Bool := false
deriving DecidableEq

def X509Exts.addSan (c : X509Exts) (s : X509San) : X509Exts :=
  if c.san.length < x509MaxSan then { c with san := c.san ++ [s] } else c

/-- One GeneralName; an embedded NUL fails. -/
def sanName (c : X509Exts) (gn : DerTlv) : Option X509Exts :=
  if gn.cls ≠ 2 then some c
  else if gn.tag = 2 ∧ ¬ gn.constructed then
    if gn.val.any (· == 0) then none
    else if gn.val.length = 0 ∨ gn.val.length > 255 then some c
    else some (c.addSan ⟨gn.val, false⟩)
  else if gn.tag = 7 ∧ ¬ gn.constructed then
    if gn.val.length ≠ 4 ∧ gn.val.length ≠ 16 then some c else some (c.addSan ⟨gn.val, true⟩)
  else some c

def sanLoop : Nat → X509Exts → List UInt8 → Option X509Exts
  | 0, c, seq => if seq = [] then some c else none
  | fuel + 1, c, seq =>
    if seq = [] then some c
    else (derRead seq).bind fun r => (sanName c r.1).bind fun c => sanLoop fuel c r.2

def parseSan (c : X509Exts) (v : List UInt8) : Option X509Exts :=
  (derReadExpect v 0x30).bind fun r =>
    if r.2 ≠ [] then none else sanLoop r.1.val.length c r.1.val

def parseBasicConstraints (c : X509Exts) (v : List UInt8) : Option X509Exts :=
  (derReadExpect v 0x30).bind fun r =>
    if r.2 ≠ [] then none
    else
      let c := { c with hasBasicConstraints := true, pathLen := -1 }
      let (c, seq) := match derReadBool r.1.val with
        | some (ca, seq) => ({ c with isCa := ca }, seq)
        | none => (c, r.1.val)
      if seq = [] then some c
      else
        (derReadU32 seq).bind fun pl =>
          let c := { c with pathLen := if pl.1 > 64 then 64 else pl.1 }
          if pl.2 = [] then some c else none

def ekuBit (oid : List UInt8) : Nat :=
  if oid = oidEku 0x01 then 0x0001
  else if oid = oidEku 0x02 then 0x0002
  else if oid = oidEku 0x03 then 0x0004
  else if oid = oidEku 0x04 then 0x0008
  else if oid = oidEku 0x08 then 0x0010
  else if oid = oidEku 0x09 then 0x0020
  else if oid = oidEkuAny then 0x0040
  else 0x8000

def ekuLoop : Nat → X509Exts → List UInt8 → Option X509Exts
  | 0, c, seq => if seq = [] then some c else none
  | fuel + 1, c, seq =>
    if seq = [] then some c
    else (derReadOid seq).bind fun r => ekuLoop fuel { c with eku := c.eku ||| ekuBit r.1 } r.2

def parseEku (c : X509Exts) (v : List UInt8) : Option X509Exts :=
  (derReadExpect v 0x30).bind fun r =>
    if r.2 ≠ [] then none else ekuLoop r.1.val.length { c with hasEku := true } r.1.val

def parseKeyUsage (c : X509Exts) (v : List UInt8) : Option X509Exts :=
  (derReadBitflags v).bind fun r =>
    if r.2 ≠ [] then none else some { c with hasKeyUsage := true, keyUsage := r.1 }

def extAction (c : X509Exts) (oid : List UInt8) (critical : Bool) (val : List UInt8) :
    Option X509Exts :=
  if oid = oidExtSan then parseSan c val
  else if oid = oidExtBc then parseBasicConstraints c val
  else if oid = oidExtKu then parseKeyUsage c val
  else if oid = oidExtEku then parseEku c val
  else if oid = oidExtSkid ∨ oid = oidExtAkid ∨ oid = oidExtCp then some c
  else if critical then some { c with unknownCritical := true }
  else some c

def readExtension (e : DerTlv) : Option (List UInt8 × Bool × List UInt8) :=
  (derReadOid e.val).bind fun oid =>
    let (critical, ext) := (derReadBool oid.2).getD (false, oid.2)
    (derReadExpect ext 0x04).bind fun val =>
      if val.2 ≠ [] then none else some (oid.1, critical, val.1.val)

def extensionLoop : Nat → X509Exts → List UInt8 → Option X509Exts
  | 0, c, list => if list = [] then some c else none
  | fuel + 1, c, list =>
    if list = [] then some c
    else
      (derReadExpect list 0x30).bind fun e =>
        (readExtension e.1).bind fun x =>
          (extAction c x.1 x.2.1 x.2.2).bind fun c => extensionLoop fuel c e.2

def parseExtensions (c : X509Exts) (exts : DerTlv) : Option X509Exts :=
  (derReadExpect exts.val 0x30).bind fun r =>
    if r.2 ≠ [] then none else extensionLoop r.1.val.length c r.1.val

inductive PkAlg where
  | rsa
  | p256
  | p384
  | p521
deriving DecidableEq

/-- `struct x509_cert`; `pkAlg` joins `pk_alg` and `pk_curve`. -/
structure X509Cert extends X509Exts where
  der : List UInt8
  tbs : List UInt8
  version : Nat
  serial : List UInt8
  issuerRaw : List UInt8
  subjectRaw : List UInt8
  subjectCn : List UInt8
  issuerCn : List UInt8
  notBefore : Nat
  notAfter : Nat
  sigAlg : SigAlg
  sigMd : Int
  sigMgfMd : Int
  sigSaltLen : Int
  sig : List UInt8
  pkAlg : PkAlg
  pkBits : List UInt8
  selfSigned : Bool
deriving DecidableEq

def need {α : Type} (x : Option α) (msg : String) : Except String α :=
  match x with
  | some a => .ok a
  | none => .error msg

def require (p : Bool) (msg : String) : Except String Unit := if p then .ok () else .error msg

def parseVersion (tbs : List UInt8) : Except String (Nat × List UInt8) :=
  match derReadContext tbs 0 true with
  | none => .ok (1, tbs)
  | some (t, tbs) =>
    (need ((derReadU32 t.val).filter fun v => v.2 = []) "malformed version").bind fun ver =>
      (require (ver.1 ≤ 2) "unknown certificate version").bind fun _ =>
        (require (ver.1 ≠ 0) "version 1 must not be encoded explicitly").bind fun _ =>
          .ok (ver.1 + 1, tbs)

/-- A negative serial number is taken as its raw octets. -/
def parseSerial (tbs : List UInt8) : Except String (List UInt8 × List UInt8) :=
  let raw := (derReadExpect tbs 0x02).filter fun s => s.1.val.length ≠ 0
  (need ((derReadUint tbs).or (raw.map fun s => (s.1.val, s.2))) "malformed serial number").bind
    fun r => (require (r.1.length ≤ 24) "serial number is longer than 20 octets").bind fun _ => .ok
      r

def parseValidity (v : List UInt8) : Except String (Nat × Nat) :=
  (need (derReadTime v) "malformed notBefore time").bind fun nb =>
    (need (derReadTime nb.2) "malformed notAfter time").bind fun na =>
      (require (na.2 = []) "trailing bytes in validity").bind fun _ =>
        (require (nb.1 ≤ na.1) "validity period ends before it starts").bind fun _ => .ok
          (nb.1, na.1)

def parsePkAlg (a : List UInt8) : Except String PkAlg :=
  (need (derReadOid a) "malformed public key algorithm OID").bind fun oid =>
    if oid.1 = oidRsaEnc ∨ oid.1 = oidRsaPss then .ok .rsa
    else if oid.1 = oidEcPubkey then
      (need (derReadOid oid.2) "EC public key has no named curve").bind fun curve =>
        if curve.1 = oidP256 then .ok .p256
        else if curve.1 = oidP384 then .ok .p384
        else if curve.1 = oidP521 then .ok .p521
        else .error "unsupported elliptic curve"
    else .error "unsupported public key algorithm"

def parseSpki (s : List UInt8) : Except String (PkAlg × List UInt8) :=
  (need (derReadExpect s 0x30) "public key algorithm is not a SEQUENCE").bind fun alg =>
    (parsePkAlg alg.1.val).bind fun pk =>
      (need (derReadBitstring alg.2) "subjectPublicKey is not a whole-octet BIT STRING").bind
        fun b =>
        (require (b.2 = []) "trailing bytes in subjectPublicKeyInfo").bind fun _ =>
          (require (b.1.length ≠ 0 ∧ b.1.length ≤ 2048) "public key has an implausible length").bind
            fun _ => .ok (pk, b.1)

/-- The obsolete unique identifiers are skipped. -/
def skipContext (tbs : List UInt8) (tag : Nat) : List UInt8 :=
  match derReadContext tbs tag false with
  | none => tbs
  | some (_, tbs) => tbs

def parseTail (version : Nat) (tbs : List UInt8) : Except String X509Exts :=
  let tbs := skipContext (skipContext tbs 1) 2
  match derReadContext tbs 3 true with
  | none => (require (tbs = []) "trailing bytes in tbsCertificate").bind fun _ => .ok {}
  | some (t, tbs) =>
    (require (version = 3) "extensions present in a non-v3 certificate").bind fun _ =>
      (need (parseExtensions {} t) "malformed certificate extension").bind fun exts =>
        (require (tbs = []) "trailing bytes in tbsCertificate").bind fun _ => .ok exts

/-- The three parts of a certificate: the body, the outer algorithm and the signature. -/
def parseOuter (der : List UInt8) : Except String (DerTlv × DerTlv × List UInt8) :=
  (require (8 ≤ der.length) "certificate is too short to be DER").bind fun _ =>
  (require (derStructureOk der) "certificate is not well-formed DER").bind fun _ =>
  (need (derReadExpect der 0x30) "certificate is not a SEQUENCE").bind fun t =>
  (require (t.2 = []) "trailing bytes after the certificate").bind fun _ =>
  (need (derReadExpect t.1.val 0x30) "tbsCertificate is not a SEQUENCE").bind fun tbs =>
  (need (derReadExpect tbs.2 0x30) "signatureAlgorithm is not a SEQUENCE").bind fun alg =>
  (need (derReadBitstring alg.2) "signatureValue is not a whole-octet BIT STRING").bind fun sig =>
  (require (sig.2 = []) "trailing bytes inside the certificate").bind fun _ =>
  (require
    (sig.1.length ≠ 0 ∧ sig.1.length ≤ 2048) "signature value has an implausible length").bind
    fun _ => .ok (tbs.1, alg.1, sig.1)

def zeroCn : List UInt8 := List.replicate x509MaxCn 0

def x509Parse (der : List UInt8) : Except String X509Cert :=
  (parseOuter der).bind fun (tbs, algOuter, sig) =>
  (parseVersion tbs.val).bind fun (version, d) =>
  (parseSerial d).bind fun (serial, d) =>
  (need (derReadExpect d 0x30) "tbsCertificate signature field is not a SEQUENCE").bind
    fun (algInner, d) =>
  (need (parseSigAlg algOuter) "unsupported or malformed signature algorithm").bind fun outer =>
  (need (parseSigAlg algInner) "unsupported or malformed inner signature algorithm").bind fun _ =>
  (require (algOuter.raw = algInner.raw)
    "signature algorithm differs between tbsCertificate and the outer signature").bind fun _ =>
  (need (derReadExpect d 0x30) "issuer is not a Name").bind fun (issuer, d) =>
  (need (derReadExpect d 0x30) "validity is not a SEQUENCE").bind fun (validity, d) =>
  (parseValidity validity.val).bind fun (notBefore, notAfter) =>
  (need (derReadExpect d 0x30) "subject is not a Name").bind fun (subject, d) =>
  (need (derReadExpect d 0x30) "subjectPublicKeyInfo is not a SEQUENCE").bind fun (spki, d) =>
  (parseSpki spki.val).bind fun (pkAlg, pkBits) =>
  (parseTail version d).bind fun exts =>
    .ok {
      toX509Exts := exts
      der := der
      tbs := tbs.raw
      version := version
      serial := serial
      issuerRaw := issuer.raw
      subjectRaw := subject.raw
      subjectCn := nameGetCn subject.raw zeroCn
      issuerCn := nameGetCn issuer.raw zeroCn
      notBefore := notBefore
      notAfter := notAfter
      sigAlg := outer.sigAlg
      sigMd := outer.md
      sigMgfMd := outer.mgfMd
      sigSaltLen := outer.saltLen
      sig := sig
      pkAlg := pkAlg
      pkBits := pkBits
      selfSigned := issuer.raw = subject.raw }

theorem bind_eq_ok {ε α β : Type} {x : Except ε α} {f : α → Except ε β} {r : β} :
    x.bind f = .ok r ↔ ∃ a, x = .ok a ∧ f a = .ok r := by
  cases x with
  | error e => exact ⟨(by cases ·), fun ⟨_, ha, _⟩ => by cases ha⟩
  | ok a => exact ⟨fun h => ⟨a, rfl, h⟩, fun ⟨_, ha, h⟩ => by cases ha; exact h⟩

variable {msg : String} {d der rest : List UInt8} {want : UInt8} {t : DerTlv} {tag : Nat}
  {con : Bool}

theorem need_eq_ok {α : Type} {x : Option α} {a : α} : need x msg = .ok a ↔ x = some a := by
  cases x <;> simp [need]

theorem require_eq_ok {p : Bool} {u : Unit} : require p msg = .ok u ↔ p := by
  cases p <;> simp [require]

theorem derReadExpect_eq_some (h : derReadExpect d want = some (t, rest)) :
    derRead d = some (t, rest) ∧ t.isUniversal want := by
  rw [derReadExpect, filter_eq_some_iff] at h
  exact h

theorem derReadContext_eq_some (h : derReadContext d tag con = some (t, rest)) :
    derRead d = some (t, rest) ∧ t.isContext tag con := by
  rw [derReadContext, filter_eq_some_iff] at h
  exact h

theorem derElems_expect (h : derReadExpect d want = some (t, rest)) :
    derElems d = t :: derElems rest :=
  derElems_of_some (derReadExpect_eq_some h).1

theorem derElems_context (h : derReadContext d tag con = some (t, rest)) :
    derElems d = t :: derElems rest :=
  derElems_of_some (derReadContext_eq_some h).1

theorem derReadUint_elems {v : List UInt8} (h : derReadUint d = some (v, rest)) :
    ∃ t, derReadExpect d 0x02 = some (t, rest) := by
  rw [derReadUint, bind_eq_some_iff] at h
  obtain ⟨⟨t, rest'⟩, hread, h⟩ := h
  dsimp only at h
  split_ifs at h <;> cases h <;> exact ⟨t, hread⟩

theorem parseSerial_elems {v : List UInt8} (h : parseSerial d = .ok (v, rest)) :
    ∃ t, derReadExpect d 0x02 = some (t, rest) := by
  simp only [parseSerial, bind_eq_ok, need_eq_ok, or_eq_some_iff] at h
  obtain ⟨r, hr | ⟨-, hr⟩, -, -, h⟩ := h <;> cases h
  · exact derReadUint_elems hr
  obtain ⟨⟨t, rest'⟩, hread, hpair⟩ := Option.map_eq_some_iff.mp hr
  cases hpair
  exact ⟨t, (Option.filter_eq_some_iff.mp hread).1⟩

/-- What a successful parse says about the octets: the body after an optional version has six
fields and then the bytes `d`; the fifth is the subject. -/
structure ParsedBody (der : List UInt8) (c : X509Cert) (body : List DerTlv) (d : List UInt8) :
    Prop where
  outer : ∃ cert tbs rest, derElems der = [cert] ∧ derElems cert.val = tbs :: rest ∧
    (derElems tbs.val = body ++ derElems d ∨
      ∃ v, v.isContext 0 true ∧ derElems tbs.val = v :: (body ++ derElems d))
  first : ∀ t ∈ body.head?, t.isUniversal 0x02
  length : body.length = 6
  subject : ∃ s, body[4]? = some s ∧ s.isUniversal 0x30 ∧ derRead s.raw = some (s, []) ∧
    c.subjectCn = nameGetCn s.raw zeroCn
  tail : parseTail c.version d = .ok c.toX509Exts

theorem parseOuter_elems {sig : List UInt8} {tbs alg : DerTlv}
    (h : parseOuter der = .ok (tbs, alg, sig)) :
    ∃ cert rest, derElems der = [cert] ∧ derElems cert.val = tbs :: rest := by
  simp only [parseOuter, bind_eq_ok, need_eq_ok, require_eq_ok, decide_eq_true_eq] at h
  obtain ⟨_, -, _, -, ⟨cert, rest⟩, hcert, _, rfl, ⟨tbs', rest'⟩, htbs, _, -, _, -, _, -, _, -,
    h⟩ := h
  cases h
  exact ⟨cert, derElems rest', derElems_expect hcert, derElems_expect htbs⟩

theorem parseVersion_elems {version : Nat} (h : parseVersion d = .ok (version, rest)) :
    derElems d = derElems rest ∨ ∃ v, v.isContext 0 true ∧ derElems d = v :: derElems rest := by
  rw [parseVersion] at h
  cases hread : derReadContext d 0 true with
  | none =>
    rw [hread] at h
    cases h
    exact .inl rfl
  | some r =>
    simp only [hread, bind_eq_ok] at h
    obtain ⟨_, -, _, -, _, -, h⟩ := h
    cases h
    exact .inr ⟨r.1, (derReadContext_eq_some hread).2, derElems_context hread⟩

theorem x509Parse_body {c : X509Cert} (h : x509Parse der = .ok c) :
    ∃ body d, ParsedBody der c body d := by
  simp only [x509Parse, bind_eq_ok, need_eq_ok] at h
  obtain ⟨⟨tbs, algOuter, sig⟩, houter, ⟨version, d0⟩, hver, ⟨serial, d1⟩, hser, ⟨algInner, d2⟩,
    halg, outer, -, inner, -, -, -, ⟨issuer, d3⟩, hiss, ⟨validity, d4⟩, hval, ⟨notBefore, notAfter⟩,
    -, ⟨subject, d5⟩, hsub, ⟨spki, d6⟩, hspki, ⟨pkAlg, pkBits⟩, -, exts, htail, h⟩ := h
  cases h
  obtain ⟨ser, hser⟩ := parseSerial_elems hser
  have hbody : derElems d0 = [ser, algInner, issuer, validity, subject, spki] ++ derElems d6 := by
    rw [derElems_expect hser, derElems_expect halg, derElems_expect hiss, derElems_expect hval,
      derElems_expect hsub, derElems_expect hspki]
    rfl
  refine ⟨[ser, algInner, issuer, validity, subject, spki], d6, ?_⟩
  exact {
    outer := by
      obtain ⟨cert, rest, hcert, htbs⟩ := parseOuter_elems houter
      have hver := parseVersion_elems hver
      rw [hbody] at hver
      exact ⟨cert, tbs, rest, hcert, htbs, hver⟩
    first := by
      intro t ht
      cases ht
      exact (derReadExpect_eq_some hser).2
    length := rfl
    subject := ⟨subject, rfl, (derReadExpect_eq_some hsub).2,
      derRead_raw (derReadExpect_eq_some hsub).1, rfl⟩
    tail := htail }

theorem derRead_inside (h : derRead d = some (t, rest)) :
    t.raw <:+: d ∧ t.val <:+: d ∧ rest <:+: d := by
  obtain ⟨rfl, hraw, -⟩ := derRead_eq_some_iff.mp h
  have hval : t.val <:+: t.raw := by
    rw [hraw, ← List.append_assoc]
    exact (List.suffix_append _ _).isInfix
  exact ⟨(List.prefix_append _ _).isInfix, hval.trans (List.prefix_append _ _).isInfix,
    (List.suffix_append _ _).isInfix⟩

theorem derReadExpect_inside (h : derReadExpect d want = some (t, rest)) (hd : d <:+: der) :
    t.raw <:+: der ∧ t.val <:+: der ∧ rest <:+: der := by
  obtain ⟨h1, h2, h3⟩ := derRead_inside (derReadExpect_eq_some h).1
  exact ⟨h1.trans hd, h2.trans hd, h3.trans hd⟩

theorem derReadContext_inside (h : derReadContext d tag con = some (t, rest)) (hd : d <:+: der) :
    t.val <:+: der ∧ rest <:+: der := by
  obtain ⟨-, h2, h3⟩ := derRead_inside (derReadContext_eq_some h).1
  exact ⟨h2.trans hd, h3.trans hd⟩

variable {v : List UInt8}

theorem derReadBitstring_inside (h : derReadBitstring d = some (v, rest)) (hd : d <:+: der) :
    v <:+: der := by
  rw [derReadBitstring, bind_eq_some_iff] at h
  obtain ⟨⟨t, rest'⟩, hread, h⟩ := h
  have hval := (derReadExpect_inside hread hd).2.1
  dsimp only at h
  split at h
  · cases h
  rename_i b val hcons
  split at h <;> cases h
  rw [hcons] at hval
  exact (List.suffix_cons b v).isInfix.trans hval

theorem parseSerial_inside (h : parseSerial d = .ok (v, rest)) (hd : d <:+: der) : v <:+: der := by
  simp only [parseSerial, bind_eq_ok, need_eq_ok, or_eq_some_iff] at h
  obtain ⟨r, hr | ⟨-, hr⟩, -, -, h⟩ := h <;> cases h
  · rw [derReadUint, bind_eq_some_iff] at hr
    obtain ⟨⟨t, rest'⟩, hread, hr⟩ := hr
    have hval := (derReadExpect_inside hread hd).2.1
    dsimp only at hr
    split_ifs at hr <;> cases hr
    · exact (List.tail_suffix _).isInfix.trans hval
    · exact hval
  · obtain ⟨⟨t, rest'⟩, hread, hpair⟩ := Option.map_eq_some_iff.mp hr
    cases hpair
    exact (derReadExpect_inside (Option.filter_eq_some_iff.mp hread).1 hd).2.1

theorem parseSpki_inside {pk : PkAlg} (h : parseSpki d = .ok (pk, v)) (hd : d <:+: der) :
    v <:+: der := by
  simp only [parseSpki, bind_eq_ok, need_eq_ok] at h
  obtain ⟨_, halg, _, -, _, hbits, _, -, _, -, h⟩ := h
  cases h
  exact derReadBitstring_inside hbits (derReadExpect_inside halg hd).2.2

/-- What the pointers of a certificate select lies inside the buffer; for the alternative names see
`x509Parse_san_within`. -/
structure X509Cert.Within (c : X509Cert) (der : List UInt8) : Prop where
  whole : c.der = der
  tbs : c.tbs <:+: der
  serial : c.serial <:+: der
  names : c.issuerRaw <:+: der ∧ c.subjectRaw <:+: der
  sig : c.sig <:+: der
  pkBits : c.pkBits <:+: der

theorem x509Parse_within {c : X509Cert} (h : x509Parse der = .ok c) : c.Within der := by
  simp only [x509Parse, parseOuter, bind_eq_ok, need_eq_ok] at h
  obtain ⟨⟨tbs, algOuter, sig⟩,
    ⟨_, -, _, -, ⟨cert, _⟩, hcert, _, -, ⟨tbs', d0⟩, htbs, ⟨_, d0'⟩, halg', ⟨sig', _⟩,
    hsig, _, -, _, -, hparts⟩, ⟨version, d1⟩, hver, ⟨serial, d2⟩, hser, ⟨algInner, d3⟩, halg, outer,
    -, inner, -, -, -, ⟨issuer, d4⟩, hiss, ⟨validity, d5⟩, hval, ⟨notBefore, notAfter⟩, -,
    ⟨subject, d6⟩, hsub, ⟨spki, d7⟩, hspki, ⟨pkAlg, pkBits⟩, hpk, exts, htail, h⟩ := h
  cases hparts
  cases h
  obtain ⟨-, hin, -⟩ := derReadExpect_inside hcert List.infix_rfl
  obtain ⟨htbs', hbody, h0⟩ := derReadExpect_inside htbs hin
  have h1 : d1 <:+: der := by
    rw [parseVersion] at hver
    split at hver
    · cases hver
      exact hbody
    rename_i t rest hread
    simp only [bind_eq_ok] at hver
    obtain ⟨_, -, _, -, _, -, hver⟩ := hver
    cases hver
    exact (derReadContext_inside hread hbody).2
  obtain ⟨s, hs⟩ := parseSerial_elems hser
  have h2 := (derReadExpect_inside hs h1).2.2
  have h3 := (derReadExpect_inside halg h2).2.2
  obtain ⟨hissuer, -, h4⟩ := derReadExpect_inside hiss h3
  have h5 := (derReadExpect_inside hval h4).2.2
  obtain ⟨hsubject, -, h6⟩ := derReadExpect_inside hsub h5
  have hkey := (derReadExpect_inside hspki h6).2.1
  exact {
    whole := rfl
    tbs := htbs'
    serial := parseSerial_inside hser h1
    names := ⟨hissuer, hsubject⟩
    sig := derReadBitstring_inside hsig (derReadExpect_inside halg' h0).2.2
    pkBits := parseSpki_inside hpk hkey }

end KestrelOS.Tls
