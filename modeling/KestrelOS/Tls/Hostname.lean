import KestrelOS.Lib.Text
import KestrelOS.Tls.X509
import Mathlib.Data.List.TakeWhile

/-!
# Host names

`x509_check_hostname` against what the octets of the certificate say. The fallback to the common
name is not sound: it is taken when no alternative name was kept, and the stored copy may not be
the name in the certificate.
-/

namespace KestrelOS.Tls

open List

def lower (c : UInt8) : UInt8 := if 0x41 ≤ c ∧ c ≤ 0x5a then c + 32 else c

def ciEq (a b : List UInt8) : Bool :=
  a.length == b.length && (List.zipWith (fun x y => lower x == lower y) a b).all id

/-- The digits of one part: its value, their number and what follows. -/
def ipDigits : List UInt8 → Nat → Nat → Option (Nat × Nat × List UInt8)
  | [], v, digits => some (v, digits, [])
  | c :: s, v, digits =>
    if 0x30 ≤ c ∧ c ≤ 0x39 then
      let v := v * 10 + (c.toNat - 0x30)
      if v > 255 ∨ digits + 1 > 3 then none else ipDigits s v (digits + 1)
    else some (v, digits, c :: s)

def ipParts : Nat → List UInt8 → Option (List UInt8)
  | 0, s => if s = [] then some [] else none
  | n + 1, s =>
    (ipDigits s 0 0).bind fun (v, digits, s) =>
      if digits = 0 then none
      else if n = 0 then (ipParts 0 s).map (UInt8.ofNat v :: ·)
      else
        match s with
        | [] => none
        | c :: s => if c ≠ 0x2e then none else (ipParts n s).map (UInt8.ofNat v :: ·)

def parseIpv4 (s : List UInt8) : Option (List UInt8) := ipParts 4 s

def wildcardMatch (pat host : List UInt8) : Bool :=
  if pat.length < 3 ∨ pat.getD 0 0 ≠ 0x2a ∨ pat.getD 1 0 ≠ 0x2e then false
  else
    let prest := pat.drop 2
    if prest.any (· == 0x2a) then false
    else if (prest.filter (· == 0x2e)).length < 1 then false
    else
      let i := (host.takeWhile (· != 0x2e)).length
      if i = host.length ∨ i = 0 then false else ciEq prest (host.drop (i + 1))

def nameMatches (name host : List UInt8) : Bool :=
  if name.length > 2 ∧ name.getD 0 0 = 0x2a then wildcardMatch name host else ciEq name host

def cStr (buf : List UInt8) : List UInt8 := buf.takeWhile (· != 0)

def absoluteName (host : List UInt8) : List UInt8 :=
  if host.getLast? = some 0x2e then host.dropLast else host

/-- Not in a name that is looked up; a star there would match a pattern of the same shape. -/
def badHostChar (ch : UInt8) : Bool := ch ≤ 0x20 || ch ≥ 0x7f || ch == 0x2a

/-- One alternative name; an IP literal is compared with addresses only. -/
def sanMatches (ip : Option (List UInt8)) (host : List UInt8) (s : X509San) : Bool :=
  match ip with
  | some ip => s.isIp && s.p.length == 4 && s.p == ip
  | none => !s.isIp && nameMatches s.p host

def x509CheckHostname (cert : X509Cert) (host : List UInt8) : Bool :=
  if host.length = 0 ∨ host.length > 255 then false
  else
    let host := absoluteName host
    if host.length = 0 then false
    else if host.any badHostChar then false
    else
      let ip := parseIpv4 host
      if cert.san.any (sanMatches ip host) then true
      else if cert.san.length = 0 ∧ cert.subjectCn.getD 0 0 ≠ 0 then
        if ip.isSome then false else nameMatches (cStr cert.subjectCn) host
      else false

/-- The fields of tbsCertificate from the serial number on. -/
def certBody (der : List UInt8) : List DerTlv :=
  match derElems der with
  | [cert] =>
    match derElems cert.val with
    | tbs :: _ =>
      match derElems tbs.val with
      | t :: body => if t.isContext 0 true then body else t :: body
      | [] => []
    | [] => []
  | _ => []

def certSubject (der : List UInt8) : Option DerTlv := (certBody der)[4]?

def certExtensions (der : List UInt8) : List DerTlv :=
  ((certBody der).drop 6).flatMap fun t =>
    if t.isContext 3 true then (derElems t.val).flatMap fun seq => derElems seq.val else []

def extOid (e : DerTlv) : Option (List UInt8) := (derElems e.val).head?.map (·.val)

def extValue (e : DerTlv) : Option (List UInt8) := (derElems e.val).getLast?.map (·.val)

def certHasSan (der : List UInt8) : Bool := (certExtensions der).any (extOid · == some oidExtSan)

def extNames (e : DerTlv) : List DerTlv :=
  if extOid e = some oidExtSan then
    (derElems ((extValue e).getD [])).flatMap fun seq => derElems seq.val
  else []

def sanNames (der : List UInt8) : List DerTlv := (certExtensions der).flatMap extNames

def dnsNames (der : List UInt8) : List (List UInt8) :=
  ((sanNames der).filter (·.isContext 2 false)).map (·.val)

def ipAddresses (der : List UInt8) : List (List UInt8) :=
  ((sanNames der).filter (·.isContext 7 false)).map (·.val)

def cnValue (pair : DerTlv) : Option DerTlv :=
  match derElems pair.val with
  | oid :: val :: _ => if oid.isUniversal 0x06 ∧ oid.val = oidCn then some val else none
  | _ => none

def commonNames (name : DerTlv) : List DerTlv :=
  ((derElems name.val).filter (·.isUniversal 0x31)).flatMap fun set =>
    ((derElems set.val).filter (·.isUniversal 0x30)).filterMap cnValue

/-- The text of a string value: its characters if it is a BMPString, otherwise its octets. -/
def cnText (t : DerTlv) : List Nat :=
  if t.tag = 0x1e ∧ t.val.length % 2 = 0 then bmpChars t.val else t.val.map (·.toNat)

def lowerNat (c : Nat) : Nat := if 0x41 ≤ c ∧ c ≤ 0x5a then c + 32 else c

def SameName (a b : List Nat) : Prop := a.map lowerNat = b.map lowerNat

/-- The host is one more label in front of what the wildcard leaves. -/
def WildcardName (name host : List Nat) : Prop :=
  ∃ rest label, name = 0x2a :: 0x2e :: rest ∧ 0x2e ∈ rest ∧ 0x2a ∉ rest ∧ label ≠ [] ∧
    0x2e ∉ label ∧ SameName host (label ++ 0x2e :: rest)

def NameFits (name host : List Nat) : Prop := SameName name host ∨ WildcardName name host

def IsDecimal (digits : List UInt8) (v : Nat) : Prop :=
  1 ≤ digits.length ∧ digits.length ≤ 3 ∧ (∀ c ∈ digits, 0x30 ≤ c ∧ c ≤ 0x39) ∧ v ≤ 255 ∧
    digits.foldl (fun v c => v * 10 + (c.toNat - 0x30)) 0 = v

def DottedQuad (host ip : List UInt8) : Prop :=
  ∃ a b c d x y z w, host = a ++ 0x2e :: (b ++ 0x2e :: (c ++ 0x2e :: d)) ∧ IsDecimal a x ∧
    IsDecimal b y ∧ IsDecimal c z ∧ IsDecimal d w ∧
    ip = [UInt8.ofNat x, UInt8.ofNat y, UInt8.ofNat z, UInt8.ofNat w]

def octets (l : List UInt8) : List Nat := l.map (·.toNat)

def CertNames (der host : List UInt8) : Prop :=
  (∃ ip ∈ ipAddresses der, DottedQuad (absoluteName host) ip) ∨
  (∃ name ∈ dnsNames der, NameFits (octets name) (octets (absoluteName host))) ∨
  (certHasSan der = false ∧ ∃ subject t, certSubject der = some subject ∧
    (commonNames subject).getLast? = some t ∧ NameFits (cnText t) (octets (absoluteName host)))

def keptName (gn : DerTlv) : Option X509San :=
  if gn.isContext 2 false then
    if gn.val.length = 0 ∨ gn.val.length > 255 then none else some ⟨gn.val, false⟩
  else if gn.isContext 7 false then
    if gn.val.length ≠ 4 ∧ gn.val.length ≠ 16 then none else some ⟨gn.val, true⟩
  else none

variable {t : DerTlv} {fuel tag : Nat} {con critical : Bool} {c' : X509Exts}
  {a b d der host ip label oid rest s seq v : List UInt8} {c : X509Cert}

private theorem isContext_iff :
    t.isContext tag con ↔ t.cls = 2 ∧ t.tag = tag ∧ t.constructed = con := by
  simp [DerTlv.isContext, and_assoc]

private theorem addSan_san (c : X509Exts) (s : X509San) (hc : c.san.length ≤ x509MaxSan) :
    (c.addSan s).san = (c.san ++ [s]).take x509MaxSan := by
  rw [X509Exts.addSan]
  split
  · rw [take_of_length_le (by simp; omega)]
  · rw [take_append_of_le_length (by omega), take_of_length_le hc]

private theorem sanName_san {c : X509Exts} {gn : DerTlv} (hc : c.san.length ≤ x509MaxSan)
    (h : sanName c gn = some c') : c'.san = (c.san ++ (keptName gn).toList).take x509MaxSan := by
  have hsame : c.san = (c.san ++ []).take x509MaxSan := by
    rw [append_nil, take_of_length_le hc]
  have hadd := fun s => addSan_san c s hc
  have hctx : ∀ tag, gn.isContext tag false ↔
      gn.cls = 2 ∧ gn.tag = tag ∧ gn.constructed = false := fun _ => isContext_iff
  unfold sanName at h
  unfold keptName
  grind [Option.toList]

private theorem take_take_append {α : Type} (n : Nat) (a b : List α) :
    (a.take n ++ b).take n = (a ++ b).take n := by
  rw [take_append, take_append, take_take, Nat.min_self, length_take]
  congr 2
  omega

private theorem sanLoop_san {c : X509Exts} (hc : c.san.length ≤ x509MaxSan)
    (h : sanLoop fuel c seq = some c') :
    c'.san = (c.san ++ (derElems seq).filterMap keptName).take x509MaxSan := by
  induction fuel generalizing c seq with
  | zero => grind [sanLoop, derElems_nil, take_of_length_le]
  | succ fuel ih =>
    simp only [sanLoop, ite_eq_iff, Option.bind_eq_some_iff] at h
    obtain ⟨hnil, h⟩ | ⟨-, ⟨gn, rest⟩, hread, c1, hname, h⟩ := h
    · grind [derElems_nil, take_of_length_le]
    have h1 := sanName_san hc hname
    rw [ih (by grind) h, h1, take_take_append, derElems_of_some hread, append_assoc]
    cases hk : keptName gn <;> simp [hk]

private theorem readExtension_spec {e : DerTlv} (h : readExtension e = some (oid, critical, v)) :
    extOid e = some oid ∧ extValue e = some v := by
  unfold readExtension derReadOid at h
  simp only [Option.bind_eq_some_iff] at h
  obtain ⟨⟨o, d⟩, ⟨⟨t, d'⟩, ht, hoid⟩, ⟨val, rest⟩, hval, h⟩ := h
  have helems := derElems_expect ht
  have hv := derElems_expect hval
  unfold derReadBool at hval hv
  cases hb : derReadExpect d 0x01 with
  | none => grind [extOid, extValue, derElems_nil]
  | some tb =>
    have hbool := derElems_expect hb
    grind [extOid, extValue, derElems_nil]

private theorem parseSan_san {c : X509Exts} (hc : c.san.length ≤ x509MaxSan)
    (h : parseSan c v = some c') :
    c'.san = (c.san ++ ((derElems v).flatMap fun seq => derElems seq.val).filterMap keptName).take
      x509MaxSan := by
  rw [parseSan, Option.bind_eq_some_iff] at h
  obtain ⟨⟨seq, rest⟩, hseq, h⟩ := h
  dsimp only at h
  split at h
  · cases h
  rename_i hnil
  rw [derElems_expect hseq, not_not.mp hnil, derElems_nil, flatMap_singleton]
  exact sanLoop_san hc h

private theorem ekuLoop_san {c : X509Exts} (h : ekuLoop fuel c seq = some c') : c'.san = c.san := by
  induction fuel generalizing c seq with
  | zero => grind [ekuLoop]
  | succ fuel ih =>
    simp only [ekuLoop, ite_eq_iff, Option.bind_eq_some_iff] at h
    grind

private theorem extAction_san {c : X509Exts} (h : extAction c oid critical v = some c')
    (hoid : oid ≠ oidExtSan) : c'.san = c.san := by
  simp only [extAction, hoid, if_false, parseKeyUsage, parseEku, ite_eq_iff,
    Option.bind_eq_some_iff] at h
  obtain ⟨-, h⟩ | ⟨-, ⟨-, r, -, h⟩ | ⟨-, ⟨-, r, -, ⟨-, h⟩ | ⟨-, h⟩⟩ | h⟩⟩ := h
  · rw [parseBasicConstraints, Option.bind_eq_some_iff] at h
    obtain ⟨r, -, h⟩ := h
    cases hb : derReadBool r.1.val <;> simp only [hb, ite_eq_iff, Option.bind_eq_some_iff] at h <;>
      grind
  · grind
  · cases h
  · rw [ekuLoop_san h]
  · grind

private theorem extensionLoop_san {c : X509Exts} {list : List UInt8}
    (hc : c.san.length ≤ x509MaxSan) (h : extensionLoop fuel c list = some c') :
    c'.san = (c.san ++ ((derElems list).flatMap extNames).filterMap keptName).take x509MaxSan := by
  induction fuel generalizing c list with
  | zero => grind [extensionLoop, derElems_nil, take_of_length_le]
  | succ fuel ih =>
    simp only [extensionLoop, ite_eq_iff, Option.bind_eq_some_iff] at h
    obtain ⟨hnil, h⟩ | ⟨-, ⟨e, rest⟩, hread, ⟨oid, critical, v⟩, hext, c1, hact, h⟩ := h
    · grind [derElems_nil, take_of_length_le]
    obtain ⟨hoid, hval⟩ := readExtension_spec hext
    have h1 : c1.san = (c.san ++ (extNames e).filterMap keptName).take x509MaxSan := by
      by_cases hsan : oid = oidExtSan
      · rw [extAction, if_pos hsan] at hact
        rw [extNames, hoid, if_pos (by rw [hsan]), hval, Option.getD_some]
        exact parseSan_san hc hact
      · grind [extAction_san hact hsan, extNames, take_of_length_le]
    rw [ih (by grind) h, h1, take_take_append, derElems_expect hread, flatMap_cons,
      filterMap_append, append_assoc]

private theorem not_isContext_of_universal {want : UInt8} (h : t.isUniversal want) :
    t.isContext tag con = false := by
  grind [DerTlv.isUniversal, DerTlv.isContext]

private theorem certBody_eq {body : List DerTlv} (h : ParsedBody der c body d) :
    certBody der = body ++ derElems d := by
  obtain ⟨cert, tbs, rest, hcert, htbs, hver⟩ := h.outer
  rw [certBody, hcert]
  dsimp only
  rw [htbs]
  dsimp only
  obtain hver | ⟨v, hv, hver⟩ := hver
  · rw [hver]
    have hlen := h.length
    cases body with
    | nil => cases hlen
    | cons t body =>
      have hfirst := h.first t rfl
      rw [cons_append]
      dsimp only
      rw [not_isContext_of_universal hfirst]
      rfl
  · rw [hver]
    dsimp only
    rw [if_pos hv]

def tailExtensions (ts : List DerTlv) : List DerTlv :=
  ts.flatMap fun t =>
    if t.isContext 3 true then (derElems t.val).flatMap fun seq => derElems seq.val else []

private theorem tailExtensions_skip (htag : tag ≠ 3) :
    tailExtensions (derElems d) = tailExtensions (derElems (skipContext d tag)) := by
  rw [skipContext]
  cases h : derReadContext d tag false with
  | none => rfl
  | some r =>
    obtain ⟨t, d'⟩ := r
    have hctx := isContext_iff.mp (derReadContext_eq_some h).2
    have hnot : ¬ t.isContext 3 true := by
      rw [isContext_iff]
      rintro ⟨-, ht, -⟩
      exact htag (hctx.2.1.symm.trans ht)
    rw [derElems_context h, tailExtensions, flatMap_cons, if_neg hnot]
    rfl

private theorem parseTail_san {version : Nat} {exts : X509Exts}
    (h : parseTail version d = .ok exts) :
    exts.san = (((tailExtensions (derElems d)).flatMap extNames).filterMap keptName).take
      x509MaxSan := by
  rw [tailExtensions_skip (by decide : (1 : Nat) ≠ 3),
    tailExtensions_skip (by decide : (2 : Nat) ≠ 3)]
  rw [parseTail] at h
  generalize skipContext (skipContext d 1) 2 = d' at *
  cases hread : derReadContext d' 3 true with
  | none =>
    simp only [hread, bind_eq_ok, require_eq_ok, decide_eq_true_eq] at h
    obtain ⟨-, rfl, h⟩ := h
    cases h
    rfl
  | some r =>
    simp only [hread, bind_eq_ok, require_eq_ok, decide_eq_true_eq, need_eq_ok, parseExtensions,
      Option.bind_eq_some_iff, ite_eq_iff] at h
    obtain ⟨-, -, exts', ⟨seq, hseq, ⟨-, hno⟩ | ⟨hrest, hexts⟩⟩, -, hnil, h⟩ := h
    · cases hno
    cases h
    have hlist := derElems_expect hseq
    rw [not_not.mp hrest, derElems_nil] at hlist
    rw [extensionLoop_san (by simp) hexts, derElems_context hread, hnil, derElems_nil,
      tailExtensions, flatMap_singleton, if_pos (derReadContext_eq_some hread).2, hlist,
      flatMap_singleton]
    rfl

private theorem certExtensions_eq {body : List DerTlv} (h : ParsedBody der c body d) :
    certExtensions der = tailExtensions (derElems d) := by
  rw [certExtensions, certBody_eq h, drop_left' h.length]
  rfl

private theorem x509Parse_san (h : x509Parse der = .ok c) :
    c.san = ((sanNames der).filterMap keptName).take x509MaxSan := by
  obtain ⟨body, d, hb⟩ := x509Parse_body h
  rw [sanNames, certExtensions_eq hb]
  exact parseTail_san hb.tail

private theorem inside_of_mem_derElems (h : t ∈ derElems d) : t.val <:+: d := by
  rw [derElems] at h
  generalize d.length = fuel at h
  induction fuel generalizing d with
  | zero => cases h
  | succ fuel ih =>
    rw [derElemsLoop] at h
    split at h
    · cases h
    rename_i u rest hread
    obtain ⟨-, hval, hrest⟩ := derRead_inside hread
    obtain rfl | h := mem_cons.mp h
    · exact hval
    · exact (ih h).trans hrest

private theorem inside_of_mem_certBody (h : t ∈ certBody der) : t.val <:+: der := by
  unfold certBody at h
  split at h
  · rename_i cert hcert
    have hin := inside_of_mem_derElems (hcert ▸ mem_cons_self : cert ∈ derElems der)
    split at h
    · rename_i tbs rest htbs
      have htbs' := inside_of_mem_derElems (htbs ▸ mem_cons_self : tbs ∈ derElems cert.val)
      have hmem : t ∈ derElems tbs.val := by grind
      exact ((inside_of_mem_derElems hmem).trans htbs').trans hin
    · cases h
  · cases h

private theorem x509Parse_san_within (h : x509Parse der = .ok c) {s : X509San} (hs : s ∈ c.san) :
    s.p <:+: der := by
  rw [x509Parse_san h] at hs
  obtain ⟨gn, hgn, hkept⟩ := mem_filterMap.mp (mem_of_mem_take hs)
  have hval : gn.val = s.p := by grind [keptName]
  rw [← hval]
  obtain ⟨e, he, hgn⟩ := mem_flatMap.mp hgn
  obtain ⟨x, hx, he⟩ := mem_flatMap.mp he
  have hx := inside_of_mem_certBody (mem_of_mem_drop hx)
  have hin : e.val <:+: der := by
    split at he
    · obtain ⟨seq, hseq, he⟩ := mem_flatMap.mp he
      exact ((inside_of_mem_derElems he).trans (inside_of_mem_derElems hseq)).trans hx
    · cases he
  have hext : (extValue e).getD [] <:+: der := by
    cases hlast : (derElems e.val).getLast? with
    | none => simp [extValue, hlast]
    | some v =>
      have hv := inside_of_mem_derElems (mem_of_getLast? hlast)
      simpa [extValue, hlast] using hv.trans hin
  rw [extNames] at hgn
  split at hgn
  · obtain ⟨seq, hseq, hgn⟩ := mem_flatMap.mp hgn
    exact ((inside_of_mem_derElems hgn).trans (inside_of_mem_derElems hseq)).trans hext
  · cases hgn

/-- `der_read` accepts the elements with a minimal identifier and a minimal length of at most four
octets whose contents are there, and moves its cursor over them only; the reader of `rsa.c` reads
the same; and a parsed certificate points into the buffer. -/
theorem der_reading_is_canonical :
    (∀ d t rest, derReadAt d = (some t, rest) ↔ d = t.raw ++ rest ∧
      t.raw = Der.identOctets t.cls t.constructed t.tag ++ (Der.lenOctets t.val.length ++ t.val) ∧
      t.cls < 4 ∧ t.tag < 2 ^ 32 ∧ t.val.length < 2 ^ 32) ∧
    (∀ d rest, derReadAt d = (none, rest) → rest = d) ∧
    (∀ want d v rest, want = 0x30 ∨ want = 0x02 →
      ((∃ t, derReadExpect d want = some (t, rest) ∧ t.val = v) ↔ derTag want d = some (v, rest))) ∧
    (∀ d, derReadUint d = derUint d) ∧ ∀ der c, x509Parse der = .ok c → c.Within der ∧
      ∀ s ∈ c.san, s.p <:+: der := by
  refine ⟨fun d t rest => ?_, fun d rest h => ?_, ?_, derReadUint_eq_derUint,
    fun _ _ h => ⟨x509Parse_within h, fun _ => x509Parse_san_within h⟩⟩
  · rw [← derRead_eq_some_iff, derReadAt]
    cases derRead d <;> simp [Prod.ext_iff]
  · rw [derReadAt] at h
    split at h <;> cases h
    rfl
  rintro want d v rest (rfl | rfl)
  · exact derReadExpect_iff_derTag (by decide) (by decide)
  · exact derReadExpect_iff_derTag (by decide) (by decide)

private theorem x509Parse_subject (h : x509Parse der = .ok c) :
    ∃ s, certSubject der = some s ∧ s.isUniversal 0x30 ∧ derRead s.raw = some (s, []) ∧
      c.subjectCn = nameGetCn s.raw zeroCn := by
  obtain ⟨body, d, hb⟩ := x509Parse_body h
  obtain ⟨s, hs, hrest⟩ := hb.subject
  refine ⟨s, ?_, hrest⟩
  rw [certSubject, certBody_eq hb, getElem?_append_left (by rw [hb.length]; decide), hs]

private theorem toNat_lower (c : UInt8) : (lower c).toNat = lowerNat c.toNat := by
  grind [lower, lowerNat, UInt8.le_iff_toNat_le, UInt8.toNat_add]

private theorem lowerNat_eq_iff {c k : Nat} (hk : k < 0x41) : lowerNat c = k ↔ c = k := by
  rw [lowerNat]
  split <;> omega

private theorem octets_eq_octets : octets a = octets b ↔ a = b := by
  refine ⟨fun h => ?_, fun h => h ▸ rfl⟩
  exact (map_injective_iff.mpr fun _ _ hxy => UInt8.toNat_inj.mp hxy) h

private theorem mem_octets {c : UInt8} {a : List UInt8} : c.toNat ∈ octets a ↔ c ∈ a := by
  rw [octets, mem_map]
  constructor
  · rintro ⟨x, hx, heq⟩
    rwa [← UInt8.toNat_inj.mp heq]
  · intro h
    exact ⟨c, h, rfl⟩

private theorem sameName_octets : SameName (octets a) (octets b) ↔ a.map lower = b.map lower := by
  have hmap : ∀ l : List UInt8, (octets l).map lowerNat = octets (l.map lower) := by
    intro l
    simp [octets, toNat_lower]
  rw [SameName, hmap, hmap, octets_eq_octets]

private theorem ciEq_iff : ciEq a b ↔ SameName (octets a) (octets b) := by
  rw [sameName_octets]
  induction a generalizing b with
  | nil =>
    cases b <;> simp [ciEq]
  | cons x a ih =>
    cases b with
    | nil => simp [ciEq]
    | cons y b =>
      have := @ih b
      simp only [ciEq, map_cons, cons.injEq, length_cons, zipWith_cons_cons,
        all_cons, Bool.and_eq_true, beq_iff_eq, id_eq, Nat.add_right_cancel_iff] at this ⊢
      rw [← this]
      tauto

private theorem takeWhile_bne {α : Type} [BEq α] [LawfulBEq α] {c : α} {l r : List α} (h : c ∉ l) :
    (l ++ c :: r).takeWhile (· != c) = l := by
  rw [takeWhile_append_of_pos]
  · simp
  intro x hx
  rw [bne_iff_ne]
  rintro rfl
  exact h hx

private theorem cut_dot (host : List UInt8) : (host.takeWhile (· != 0x2e)).length = host.length ∨
    ∃ label rest, host = label ++ 0x2e :: rest ∧ (0x2e : UInt8) ∉ label := by
  induction host with
  | nil => exact .inl rfl
  | cons c host ih =>
    by_cases hc : c = 0x2e
    · exact .inr ⟨[], host, by rw [hc]; rfl, not_mem_nil⟩
    obtain h | ⟨label, rest, rfl, hdot⟩ := ih
    · grind [takeWhile_cons]
    · exact .inr ⟨c :: label, rest, rfl, by grind⟩

private theorem wildcardMatch_cut {prest tail : List UInt8} (hdot : (0x2e : UInt8) ∉ label) :
    wildcardMatch (0x2a :: 0x2e :: prest) (label ++ 0x2e :: tail) ↔
      (0x2e : UInt8) ∈ prest ∧ (0x2a : UInt8) ∉ prest ∧ label ≠ [] ∧ ciEq prest tail := by
  have hany : prest.any (· == 0x2a) = true ↔ (0x2a : UInt8) ∈ prest := by simp
  have hfilter : (prest.filter (· == 0x2e)).length < 1 ↔ (0x2e : UInt8) ∉ prest := by
    rw [Nat.lt_one_iff, length_eq_zero_iff, filter_eq_nil_iff]
    grind
  have hpos : (0x2e : UInt8) ∈ prest → ¬ (0x2a :: 0x2e :: prest : List UInt8).length < 3 := by
    grind
  rw [wildcardMatch]
  dsimp only [drop]
  rw [takeWhile_bne hdot, show label ++ 0x2e :: tail = (label ++ [0x2e]) ++ tail by simp,
    drop_left' (by simp)]
  by_cases hd : (0x2e : UInt8) ∈ prest
  · rw [if_neg (by simpa using hpos hd)]
    grind
  · grind

private theorem wildcardMatch_iff {pat : List UInt8} :
    wildcardMatch pat host ↔ WildcardName (octets pat) (octets host) := by
  constructor
  · intro h
    obtain ⟨prest, rfl⟩ : ∃ prest, pat = 0x2a :: 0x2e :: prest := by
      match pat, h with
      | a :: b :: prest, h => grind [wildcardMatch]
    obtain hall | ⟨label, tail, rfl, hdot⟩ := cut_dot host
    · grind [wildcardMatch]
    obtain ⟨hd, hstar, hne, hsame⟩ := (wildcardMatch_cut hdot).mp h
    rw [ciEq_iff] at hsame
    refine ⟨octets prest, octets label, rfl, mem_octets.mpr hd, (@mem_octets 0x2a _).not.mpr hstar,
      by simpa [octets] using hne, mem_octets.not.mpr hdot, ?_⟩
    simp only [SameName, octets, map_append, map_cons] at hsame ⊢
    rw [hsame]
    rfl
  · rintro ⟨rest, label, hpat, hrest, hnstar, hne, hlabel, hsame⟩
    obtain ⟨a, pat', rfl, ha, hpat⟩ := map_eq_cons_iff.mp hpat
    obtain ⟨b, prest, rfl, hb, rfl⟩ := map_eq_cons_iff.mp hpat
    obtain rfl : a = 0x2a := UInt8.toNat_inj.mp ha
    obtain rfl : b = 0x2e := UInt8.toNat_inj.mp hb
    rw [SameName, map_append, map_cons, octets, map_map] at hsame
    obtain ⟨l1, l2, rfl, hl1, hl2⟩ := map_eq_append_iff.mp hsame
    obtain ⟨x, l2, rfl, hx, htail⟩ := map_eq_cons_iff.mp hl2
    obtain rfl : x = 0x2e := UInt8.toNat_inj.mp ((@lowerNat_eq_iff x.toNat 0x2e (by decide)).mp hx)
    have hl1dot : (0x2e : UInt8) ∉ l1 := by
      intro hc
      have hmem : lowerNat 0x2e ∈ label.map lowerNat := hl1 ▸ mem_map.mpr ⟨0x2e, hc, rfl⟩
      grind [lowerNat]
    refine (wildcardMatch_cut hl1dot).mpr
      ⟨mem_octets.mp hrest, (@mem_octets 0x2a _).not.mp hnstar, ?_, ?_⟩
    · rintro rfl
      exact hne (map_eq_nil_iff.mp hl1.symm)
    · rw [ciEq_iff, SameName, octets, octets, ← htail, map_map]

private theorem nameMatches_iff {name : List UInt8} (hstar : (0x2a : UInt8) ∉ host) :
    nameMatches name host ↔ NameFits (octets name) (octets host) := by
  have hfirst : name.getD 0 0 = 0x2a → ¬ SameName (octets name) (octets host) := by
    intro h0 hsame
    rw [sameName_octets] at hsame
    cases name <;> cases host <;> grind [lower]
  have hwild : WildcardName (octets name) (octets host) → name.length > 2 ∧
      name.getD 0 0 = 0x2a := by
    rintro ⟨rest, label, hname, hdot, -⟩
    obtain ⟨a, name', rfl, ha, hname⟩ := map_eq_cons_iff.mp hname
    obtain ⟨b, rest', rfl, hb, rfl⟩ := map_eq_cons_iff.mp hname
    have hlen := length_pos_of_mem hdot
    exact ⟨by grind, UInt8.toNat_inj.mp ha⟩
  rw [nameMatches, NameFits]
  split
  · grind [wildcardMatch_iff]
  · grind [ciEq_iff]

private theorem ipDigits_spec {v k v' k' : Nat} (h : ipDigits s v k = some (v', k', rest))
    (hk : k ≤ 3) (hv : v ≤ 255) : ∃ ds, s = ds ++ rest ∧ k' = k + ds.length ∧ k' ≤ 3 ∧ v' ≤ 255 ∧
      (∀ c ∈ ds, 0x30 ≤ c ∧ c ≤ 0x39) ∧
      ds.foldl (fun v c => v * 10 + (c.toNat - 0x30)) v = v' := by
  induction s generalizing v k with
  | nil =>
    cases h
    exact ⟨[], rfl, rfl, hk, hv, by simp, rfl⟩
  | cons c s ih =>
    rw [ipDigits] at h
    split at h
    · dsimp only at h
      split at h
      · cases h
      · obtain ⟨ds, rfl, hk', hk3, hv', hds, hval⟩ := ih h (by omega) (by omega)
        exact ⟨c :: ds, by grind⟩
    · cases h
      exact ⟨[], rfl, rfl, hk, hv, by simp, rfl⟩

private theorem ipParts_succ {n : Nat} (h : ipParts (n + 2) s = some ip) :
    ∃ a x rest ip', s = a ++ 0x2e :: rest ∧ IsDecimal a x ∧ ip = UInt8.ofNat x :: ip' ∧
      ipParts (n + 1) rest = some ip' := by
  rw [ipParts, Option.bind_eq_some_iff] at h
  obtain ⟨⟨v, k, rest⟩, hd, h⟩ := h
  obtain ⟨ds, rfl, rfl, hk3, hv, hds, hval⟩ := ipDigits_spec hd (by omega) (by omega)
  dsimp only at h
  split at h
  · cases h
  rename_i hk0
  rw [if_neg (by omega)] at h
  cases rest with
  | nil => cases h
  | cons c rest =>
    dsimp only at h
    split at h
    · cases h
    rename_i hc
    obtain rfl : c = 0x2e := not_not.mp hc
    obtain ⟨ip', hip, rfl⟩ := Option.map_eq_some_iff.mp h
    exact ⟨ds, v, rest, ip', rfl, ⟨by omega, by omega, hds, hv, hval⟩, rfl, hip⟩

private theorem ipParts_one (h : ipParts 1 s = some ip) :
    ∃ x, IsDecimal s x ∧ ip = [UInt8.ofNat x] := by
  rw [ipParts, Option.bind_eq_some_iff] at h
  obtain ⟨⟨v, k, rest⟩, hd, h⟩ := h
  obtain ⟨ds, rfl, rfl, hk3, hv, hds, hval⟩ := ipDigits_spec hd (by omega) (by omega)
  dsimp only at h
  split at h
  · cases h
  rename_i hk0
  rw [if_pos rfl, ipParts] at h
  split at h
  · rename_i hnil
    cases h
    rw [hnil, append_nil]
    exact ⟨v, ⟨by omega, by omega, hds, hv, hval⟩, rfl⟩
  · cases h

private theorem parseIpv4_sound (h : parseIpv4 s = some ip) : DottedQuad s ip := by
  obtain ⟨a, x, s1, ip1, rfl, ha, rfl, h1⟩ := ipParts_succ h
  obtain ⟨b, y, s2, ip2, rfl, hb, rfl, h2⟩ := ipParts_succ h1
  obtain ⟨c, z, s3, ip3, rfl, hc, rfl, h3⟩ := ipParts_succ h2
  obtain ⟨w, hd, rfl⟩ := ipParts_one h3
  exact ⟨a, b, c, s3, x, y, z, w, rfl, ha, hb, hc, hd, rfl⟩

def walkedCns (name : List UInt8) : List DerTlv := nameWalk (fun t acc => acc ++ [t]) name []

section Walk

variable {σ τ : Type} {f : DerTlv → σ → σ} {g : DerTlv → τ → τ} {m : τ → σ}
  (hm : ∀ t acc, m (g t acc) = f t (m acc))

include hm

private theorem nameAttr_map (pair : DerTlv) (acc : τ) :
    nameAttr f pair (m acc) = m (nameAttr g pair acc) := by
  grind [nameAttr]

private theorem rdnLoop_map (fuel : Nat) (rdn : List UInt8) (acc : τ) :
    rdnLoop f fuel rdn (m acc) = (m (rdnLoop g fuel rdn acc).1, (rdnLoop g fuel rdn acc).2) := by
  induction fuel generalizing rdn acc with
  | zero => rfl
  | succ fuel ih => grind [rdnLoop, nameAttr_map hm]

private theorem nameLoop_map (fuel : Nat) (seq : List UInt8) (acc : τ) :
    nameLoop f fuel seq (m acc) = m (nameLoop g fuel seq acc) := by
  induction fuel generalizing seq acc with
  | zero => rfl
  | succ fuel ih => grind [nameLoop, rdnLoop_map hm]

private theorem nameWalk_map (name : List UInt8) (acc : τ) :
    nameWalk f name (m acc) = m (nameWalk g name acc) := by
  rw [nameWalk, nameWalk]
  cases derReadExpect name 0x30 with
  | none => rfl
  | some r => exact nameLoop_map hm _ _ _

end Walk

private theorem nameGetCn_eq (name out : List UInt8) :
    nameGetCn name out =
      (walkedCns name).foldl (fun out t => copyDirstring t out) (out.set 0 0) := by
  have hm := nameWalk_map (f := copyDirstring) (g := fun t acc => acc ++ [t])
    (m := fun acc => acc.foldl (fun out t => copyDirstring t out) (out.set 0 0))
    (fun t acc => by rw [foldl_append]; rfl) name []
  exact hm

@[simp] theorem length_copyChars (conv : Nat → UInt8) (chs : List Nat) (n : Nat)
    (out : List UInt8) :
    (copyChars conv chs n out).length = out.length := by
  induction chs generalizing n out with
  | nil => simp [copyChars]
  | cons ch chs ih =>
    rw [copyChars]
    split_ifs <;> simp [ih]

@[simp] theorem length_copyDirstring (t : DerTlv) (out : List UInt8) :
    (copyDirstring t out).length = out.length := by
  rw [copyDirstring]
  split_ifs <;> simp

variable {der host out : List UInt8} {t : DerTlv} {s : X509San}

private theorem cStr_set {n : Nat} (hn : n < out.length) (h0 : (0 : UInt8) ∉ out.take n) :
    cStr (out.set n 0) = out.take n := by
  rw [set_eq_take_append_cons_drop, if_pos hn, cStr, takeWhile_bne h0]

/-- A zero among the characters leaves a cleared buffer as it is from there on. -/
private theorem cStr_copyChars {conv : Nat → UInt8} {chs : List Nat} {n : Nat}
    (hconv : ∀ ch ∈ (chs.takeWhile (· != 0)).take (x509MaxCn - 1 - n), conv ch ≠ 0)
    (hout : out.length = x509MaxCn) (hn : n < x509MaxCn) (hpre : (0 : UInt8) ∉ out.take n)
    (hzero : 0 ∈ chs → ∀ m, n ≤ m → out.getD m 0 = 0) : cStr (copyChars conv chs n out) =
      out.take n ++ ((chs.takeWhile (· != 0)).take (x509MaxCn - 1 - n)).map conv := by
  induction chs generalizing n out with
  | nil =>
    rw [copyChars, cStr_set (by omega) hpre]
    simp
  | cons ch chs ih =>
    rw [copyChars]
    by_cases hch : ch = 0
    · have hnone : (ch :: chs).takeWhile (· != 0) = [] := by simp [hch]
      have hlast := hzero (hch ▸ mem_cons_self) n le_rfl
      rw [getD_eq_getElem _ _ (by omega)] at hlast
      have hsame := cStr_set (by omega) hpre
      rw [← hlast, set_getElem_self] at hsame
      rw [if_pos hch, hsame, hnone, take_nil, map_nil, append_nil]
    have htw : (ch :: chs).takeWhile (· != 0) = ch :: chs.takeWhile (· != 0) := by simp [hch]
    rw [if_neg hch, htw]
    split
    · rename_i hfull
      rw [cStr_set (by omega) hpre, show x509MaxCn - 1 - n = 0 by omega]
      simp
    rename_i hroom
    rw [htw, show x509MaxCn - 1 - n = (x509MaxCn - 1 - (n + 1)) + 1 by omega, take_succ_cons,
      forall_mem_cons] at hconv
    have htake : (out.set n (conv ch)).take (n + 1) = out.take n ++ [conv ch] := by
      rw [take_add_one, take_set_of_le le_rfl, getElem?_set_self (by omega)]
      rfl
    have hzero' : 0 ∈ chs → ∀ m, n + 1 ≤ m → (out.set n (conv ch)).getD m 0 = 0 := by
      intro h0 m hm
      have := hzero (mem_cons_of_mem _ h0) m (by omega)
      rw [getD_eq_getElem?_getD] at this ⊢
      rwa [getElem?_set_ne (by omega)]
    rw [ih hconv.2 (by simpa using hout) (by omega)
      (by rw [htake]; simp [hpre, hconv.1.symm]) hzero', htake, show x509MaxCn - 1 - n =
      (x509MaxCn - 1 - (n + 1)) + 1 by omega, take_succ_cons, map_cons, append_assoc]
    rfl

private theorem NameFits.chars {name host : List Nat} (h : NameFits name host)
    (hhost : ∀ c ∈ host, 0 < c ∧ c < 0x80) : ∀ c ∈ name, 0 < c ∧ c < 0x80 := by
  have hsame : ∀ l, SameName l host → ∀ c ∈ l, 0 < c ∧ c < 0x80 := by
    intro l hl c hc
    have hmem : lowerNat c ∈ host.map lowerNat := hl ▸ mem_map_of_mem hc
    grind [lowerNat]
  obtain h | ⟨rest, label, rfl, -, -, -, -, h⟩ := h
  · exact hsame name h
  · have hall := hsame _ h.symm
    grind

private theorem label_length_eq {host l l' r r' : List Nat} (h : SameName host (l ++ 0x2e :: r))
    (h' : SameName host (l' ++ 0x2e :: r')) (hl : 0x2e ∉ l) (hl' : 0x2e ∉ l') :
    l.length = l'.length := by
  have hcut : ∀ l r : List Nat, 0x2e ∉ l →
      ((l ++ 0x2e :: r).map lowerNat).takeWhile (· != 0x2e) = l.map lowerNat := by
    intro l r hl
    rw [map_append, map_cons]
    exact takeWhile_bne fun hmem => by grind [lowerNat]
  have hmap : l.map lowerNat = l'.map lowerNat := by
    rw [← hcut l r hl, ← hcut l' r' hl', ← h, ← h']
  simpa using congrArg length hmap

private theorem star_of_same {a host : List Nat} (h : SameName (0x2a :: a) host) : 0x2a ∈ host := by
  cases host <;> grind [SameName, lowerNat]

private theorem nameFits_prefix {a b host : List Nat} (ha : a ≠ []) (hstar : 0x2a ∉ host)
    (h : NameFits a host) (h' : NameFits (a ++ b) host) : b = [] := by
  have hlen : ∀ {x y : List Nat}, SameName x y → x.length = y.length := by
    intro x y hxy
    simpa using congrArg length hxy
  obtain ⟨x, a, rfl⟩ := exists_cons_of_ne_nil ha
  obtain h | ⟨rest, label, hx, -, -, -, hdot, h⟩ := h
  · obtain h' | ⟨rest', label', hx', -⟩ := h'
    · grind [hlen h, hlen h', length_eq_zero_iff]
    · grind [star_of_same]
  cases hx
  obtain h' | ⟨rest', label', hx', -, -, -, hdot', h'⟩ := h'
  · exact absurd (star_of_same h') hstar
  · grind [hlen h, hlen h', label_length_eq h h' hdot hdot', length_eq_zero_iff]

/-- What is left of a text up to its first zero, in a buffer of 128 bytes. -/
def shownText (t : DerTlv) : List Nat := ((cnText t).takeWhile (· != 0)).take (x509MaxCn - 1)

private theorem cStr_copyDirstring {prev : List UInt8} (ht : copiedString t)
    (hprev : prev.length = x509MaxCn) (hzero : 0 ∈ cnText t → ∀ m, prev.getD m 0 = 0)
    (hascii : t.tag = 0x1e → ∀ c ∈ shownText t, c < 0x80) :
    octets (cStr (copyDirstring t prev)) = shownText t := by
  have hcopy : ∃ conv : Nat → UInt8, (∀ c ∈ shownText t, conv c = UInt8.ofNat c ∧ c < 256) ∧
      copyDirstring t prev = copyChars conv (cnText t) 0 prev := by
    rw [copyDirstring, ht]
    by_cases hbmp : t.tag = 0x1e
    · have heven : t.val.length % 2 = 0 := by simpa [copiedString, hbmp] using ht
      refine ⟨_, fun c hc => ?_,
        by rw [cnText, if_neg (by simp), if_pos hbmp, if_pos ⟨hbmp, heven⟩]⟩
      have := hascii hbmp c hc
      exact ⟨if_pos this, by omega⟩
    · have htext : cnText t = t.val.map (·.toNat) := if_neg fun h => hbmp h.1
      refine ⟨_, fun c hc => ⟨rfl, ?_⟩, by rw [htext, if_neg (by simp), if_neg hbmp]⟩
      have hmem := ( takeWhile_prefix _).subset (mem_of_mem_take hc)
      rw [htext] at hmem
      obtain ⟨b, -, rfl⟩ := mem_map.mp hmem
      exact b.toNat_lt
  obtain ⟨conv, hconv, hcopy⟩ := hcopy
  have hnat : ∀ c ∈ shownText t, (conv c).toNat = c := by
    intro c hc
    rw [(hconv c hc).1, UInt8.toNat_ofNat', Nat.mod_eq_of_lt (hconv c hc).2]
  have hnz : ∀ c ∈ shownText t, conv c ≠ 0 := by
    intro c hc h
    have hpos := all_eq_true.mp all_takeWhile c (mem_of_mem_take hc)
    rw [← hnat c hc, h] at hpos
    cases hpos
  rw [hcopy, cStr_copyChars (n := 0) hnz hprev (by decide) (by simp) fun h0 m _ => hzero h0 m,
    take_zero, nil_append, octets, map_map]
  change (shownText t).map _ = _
  conv_rhs => rw [← map_id (shownText t)]
  exact map_congr_left hnat

private theorem length_foldl_copy (ts : List DerTlv) (out : List UInt8) :
    (ts.foldl (fun out t => copyDirstring t out) out).length = out.length := by
  induction ts generalizing out with
  | nil => rfl
  | cons t ts ih => rw [foldl_cons, ih, length_copyDirstring]

/-- The bytes are elements without a remainder. -/
def Whole (v : List UInt8) : Prop := (derElems v).flatMap DerTlv.raw = v

/-- A Name with nothing in it but sets of attributes. -/
def WholeName (name : DerTlv) : Prop :=
  Whole name.val ∧ ∀ set ∈ derElems name.val, set.isUniversal 0x31 ∧ Whole set.val ∧
    ∀ pair ∈ derElems set.val, pair.isUniversal 0x30

instance (name : DerTlv) : Decidable (WholeName name) := by
  unfold WholeName Whole
  infer_instance

private theorem derElems_of_none {v : List UInt8} (h : derRead v = none) : derElems v = [] := by
  rw [derElems]
  cases v with
  | nil => rfl
  | cons b v => rw [length_cons, derElemsLoop, h]

private theorem Whole.cases {v : List UInt8} (h : Whole v) : v = [] ∨ ∃ t rest,
    derRead v = some (t, rest) ∧ derElems v = t :: derElems rest ∧ Whole rest := by
  cases hread : derRead v with
  | none =>
    rw [Whole, derElems_of_none hread] at h
    exact .inl h.symm
  | some r =>
    obtain ⟨t, rest⟩ := r
    have helems := derElems_of_some hread
    refine .inr ⟨t, rest, rfl, helems, ?_⟩
    rw [Whole, helems, flatMap_cons] at h
    exact append_cancel_left (h.trans (derRead_eq_some_iff.mp hread).1)

section Collect

variable {acc : List DerTlv} {fuel : Nat} {v : List UInt8}

private theorem derReadExpect_of_read {want : UInt8} (h : derRead v = some (t, rest))
    (hu : t.isUniversal want) : derReadExpect v want = some (t, rest) := by
  rw [derReadExpect, h, Option.filter_some, if_pos hu]

/-- The walk takes the values of the universal class. -/
private theorem nameAttr_collect (pair : DerTlv) : nameAttr (fun t acc => acc ++ [t]) pair acc =
    acc ++ ((cnValue pair).toList.filter (·.cls == 0)) := by
  have hwf : oidWellformed oidCn = true := by decide
  unfold nameAttr cnValue derReadOid derReadExpect
  cases hoid : derRead pair.val with
  | none => simp [derElems_of_none hoid]
  | some r =>
    rw [derElems_of_some hoid, Option.filter_some]
    by_cases hu : r.1.isUniversal 0x06
    swap
    · cases derElems r.2 <;> simp [hu]
    cases hval : derRead r.2 with
    | none => by_cases ho : oidWellformed r.1.val <;> simp [hu, ho, hval, derElems_of_none hval]
    | some r' =>
      rw [derElems_of_some hval]
      by_cases hcn : r.1.val = oidCn
      · by_cases hc : r'.1.cls = 0 <;> simp [hu, hcn, hwf, hval, hc]
      · by_cases ho : oidWellformed r.1.val <;> simp [hu, hcn, ho, hval]

private theorem rdnLoop_collect (hfuel : v.length ≤ fuel) (hw : Whole v)
    (hp : ∀ pair ∈ derElems v, pair.isUniversal 0x30) :
    rdnLoop (fun t acc => acc ++ [t]) fuel v acc =
      (acc ++ ((derElems v).filterMap cnValue).filter (·.cls == 0), true) := by
  induction fuel generalizing v acc with
  | zero =>
    obtain rfl : v = [] := length_eq_zero_iff.mp (by omega)
    simp [rdnLoop]
  | succ fuel ih =>
    obtain rfl | ⟨t, rest, hread, helems, hrest⟩ := hw.cases
    · simp [rdnLoop]
    have hlen := derRead_length hread
    have hne : v ≠ [] := by
      rintro rfl
      simp at hlen
    rw [helems, forall_mem_cons] at hp
    rw [rdnLoop, if_neg hne, derReadExpect_of_read hread hp.1, helems]
    dsimp only
    rw [ih (by omega) hrest hp.2, nameAttr_collect, append_assoc, ← filter_append]
    cases hcn : cnValue t <;> simp [hcn]

private theorem nameLoop_collect (hfuel : v.length ≤ fuel) (hw : Whole v)
    (hs : ∀ set ∈ derElems v, set.isUniversal 0x31 ∧ Whole set.val ∧
      ∀ pair ∈ derElems set.val, pair.isUniversal 0x30) :
    nameLoop (fun t acc => acc ++ [t]) fuel v acc = acc ++ ((derElems v).flatMap fun set =>
      ((derElems set.val).filterMap cnValue).filter (·.cls == 0)) := by
  induction fuel generalizing v acc with
  | zero =>
    obtain rfl : v = [] := length_eq_zero_iff.mp (by omega)
    simp [nameLoop]
  | succ fuel ih =>
    obtain rfl | ⟨t, rest, hread, helems, hrest⟩ := hw.cases
    · simp [nameLoop]
    have hlen := derRead_length hread
    have hne : v ≠ [] := by
      rintro rfl
      simp at hlen
    rw [helems, forall_mem_cons] at hs
    obtain ⟨⟨hset, hwhole, hpairs⟩, hs⟩ := hs
    rw [nameLoop, if_neg hne, derReadExpect_of_read hread hset, helems]
    dsimp only
    rw [rdnLoop_collect le_rfl hwhole hpairs]
    dsimp only
    rw [ih (by omega) hrest hs, flatMap_cons, append_assoc]

/-- In a Name that is whole the walk meets every commonName. -/
private theorem walkedCns_eq {name : DerTlv} (hu : name.isUniversal 0x30)
    (hraw : derRead name.raw = some (name, [])) (hw : WholeName name) :
    walkedCns name.raw = (commonNames name).filter (·.cls == 0) := by
  have hset : (derElems name.val).filter (·.isUniversal 0x31) = derElems name.val :=
    filter_eq_self.mpr fun set hmem => (hw.2 set hmem).1
  rw [walkedCns, nameWalk, derReadExpect_of_read hraw hu, commonNames, hset]
  dsimp only
  rw [nameLoop_collect le_rfl hw.1 hw.2, nil_append, filter_flatMap]
  refine flatMap_congr fun set hmem => ?_
  rw [filter_eq_self.mpr (hw.2 set hmem).2.2]

end Collect

/-- A string that is copied whole: of a type that is copied, with at most 127 characters, none of
them zero and none that the copy makes a question mark. -/
@[mk_iff] structure Copyable (t : DerTlv) : Prop where
  universal : t.cls = 0
  copied : copiedString t
  short : (cnText t).length < x509MaxCn
  nonzero : 0 ∉ cnText t
  ascii : t.tag = 0x1e → ∀ c ∈ cnText t, c < 0x80

instance (t : DerTlv) : Decidable (Copyable t) := decidable_of_iff' _ (copyable_iff t)

/-- An alternative name is kept; or there is no subjectAltName, and the last commonName of a Name
that is whole can be copied whole. -/
def NamesIntact (der : List UInt8) : Prop :=
  (∃ gn ∈ sanNames der, (keptName gn).isSome) ∨ (certHasSan der = false ∧
    ∀ subject ∈ certSubject der, WholeName subject ∧
    ∀ t ∈ (commonNames subject).getLast?, Copyable t)

instance (der : List UInt8) : Decidable (NamesIntact der) := by
  unfold NamesIntact
  infer_instance

private theorem shownText_eq_take (h : 0 ∉ cnText t) :
    shownText t = (cnText t).take (x509MaxCn - 1) := by
  rw [shownText, takeWhile_eq_self_iff.mpr]
  intro c hc
  rw [bne_iff_ne]
  exact fun h0 => h (h0 ▸ hc)

private theorem Copyable.shownText_eq (h : Copyable t) : shownText t = cnText t := by
  rw [shownText_eq_take h.nonzero, take_of_length_le]
  have := h.short
  unfold x509MaxCn at this ⊢
  omega

/-- The stored copy of a Name that is whole: nothing, or the text of its last commonName. -/
private theorem stored_complete {name : DerTlv} (hu : name.isUniversal 0x30)
    (hraw : derRead name.raw = some (name, [])) (hw : WholeName name)
    (hlast : ∀ t ∈ (commonNames name).getLast?, Copyable t) :
    cStr (nameGetCn name.raw zeroCn) = [] ∨ ∃ t, (commonNames name).getLast? = some t ∧
      octets (cStr (nameGetCn name.raw zeroCn)) = cnText t := by
  rw [nameGetCn_eq, walkedCns_eq hu hraw hw]
  cases hget : (commonNames name).getLast? with
  | none =>
    rw [getLast?_eq_none_iff.mp hget]
    exact .inl rfl
  | some t =>
    have ht := hlast t hget
    obtain ⟨ts, hts⟩ := getLast?_eq_some_iff.mp hget
    have htu : (t.cls == 0) = true := by rw [ht.universal]; rfl
    refine .inr ⟨t, rfl, ?_⟩
    rw [hts, filter_append, filter_singleton, htu, cond_true, foldl_append, foldl_cons, foldl_nil,
      ← ht.shownText_eq]
    refine cStr_copyDirstring ht.copied ?_ (fun h0 => absurd h0 ht.nonzero) fun hbmp c hc => ?_
    · rw [length_foldl_copy]
      rfl
    · rw [ht.shownText_eq] at hc
      exact ht.ascii hbmp c hc

def hostOk (host : List UInt8) : Bool :=
  host.length != 0 && host.length ≤ 255 && (absoluteName host).length != 0 &&
    !(absoluteName host).any badHostChar

private theorem hostOk_iff : hostOk host ↔
    host.length ≠ 0 ∧ host.length ≤ 255 ∧ (absoluteName host).length ≠ 0 ∧
      (absoluteName host).any badHostChar = false := by
  simp only [hostOk, Bool.and_eq_true, bne_iff_ne, ne_eq, decide_eq_true_eq, Bool.not_eq_true',
    and_assoc]

private theorem sanMatches_iff : sanMatches (parseIpv4 host) host s ↔
      (s.isIp ∧ parseIpv4 host = some s.p) ∨
        (s.isIp = false ∧ parseIpv4 host = none ∧ nameMatches s.p host) := by
  cases hip : parseIpv4 host with
  | none => simp [sanMatches]
  | some ip =>
    have hlen : ip.length = 4 := by
      obtain ⟨a, b, c, d, x, y, z, w, -, -, -, -, -, rfl⟩ := parseIpv4_sound hip
      rfl
    simp only [sanMatches, Bool.and_eq_true, beq_iff_eq, Option.some.injEq, reduceCtorEq, false_and,
      and_false, or_false, and_assoc]
    constructor
    · rintro ⟨h1, -, h3⟩
      exact ⟨h1, h3.symm⟩
    · rintro ⟨h1, rfl⟩
      exact ⟨h1, hlen, rfl⟩

private theorem x509CheckHostname_iff {c : X509Cert} : x509CheckHostname c host ↔ hostOk host ∧
      ((∃ s ∈ c.san, sanMatches (parseIpv4 (absoluteName host)) (absoluteName host) s) ∨
        (c.san = [] ∧ parseIpv4 (absoluteName host) = none ∧
          nameMatches (cStr c.subjectCn) (absoluteName host))) := by
  have hempty : (absoluteName host).length ≠ 0 → c.subjectCn.getD 0 0 = 0 →
      nameMatches (cStr c.subjectCn) (absoluteName host) = false := by
    intro habs h0
    have hnil : cStr c.subjectCn = [] := by
      cases hcn : c.subjectCn <;> simp_all [cStr]
    obtain ⟨x, l, hxl⟩ := exists_cons_of_length_pos (Nat.pos_of_ne_zero habs)
    rw [hnil, hxl]
    rfl
  have hsan := @length_eq_zero_iff _ c.san
  have hip := @Option.isSome_iff_ne_none _ (parseIpv4 (absoluteName host))
  rw [hostOk_iff, x509CheckHostname, ← any_eq_true]
  dsimp only
  split_ifs <;> grind

private theorem mem_sanNames_of_kept (h : s ∈ (sanNames der).filterMap keptName) :
    if s.isIp then s.p ∈ ipAddresses der else s.p ∈ dnsNames der := by
  grind [keptName, ipAddresses, dnsNames]

private theorem no_kept_no_fit (hok : hostOk host)
    (hkept : (sanNames der).filterMap keptName = []) :
    (¬ ∃ ip ∈ ipAddresses der, DottedQuad (absoluteName host) ip) ∧
      ¬ ∃ name ∈ dnsNames der, NameFits (octets name) (octets (absoluteName host)) := by
  rw [filterMap_eq_nil_iff] at hkept
  obtain ⟨-, h255, hne, -⟩ := hostOk_iff.mp hok
  have habs : (absoluteName host).length ≤ 255 := by grind [absoluteName]
  constructor
  · rintro ⟨ip, hip, a, b, c, d, x, y, z, w, -, -, -, -, -, rfl⟩
    obtain ⟨gn, hgn, hval⟩ := mem_map.mp hip
    have hlen : gn.val.length = 4 := by rw [hval]; rfl
    grind [keptName, isContext_iff]
  rintro ⟨name, hname, hfit⟩
  obtain ⟨gn, hgn, rfl⟩ := mem_map.mp hname
  have hlen : gn.val.length = 0 ∨ 255 < gn.val.length := by grind [keptName]
  obtain hsame | ⟨rest, label, heq, -, -, hlabel, -, hsame⟩ := hfit
  · have hl := congrArg length hsame
    simp only [octets, length_map] at hl
    omega
  have hl := congrArg length hsame
  have hl' := congrArg length heq
  have hpos := length_pos_of_ne_nil hlabel
  simp only [octets, length_map, length_append, length_cons] at hl hl'
  omega

private theorem badHostChar_eq_false {c : UInt8} (h : badHostChar c = false) :
    (0 < c.toNat ∧ c.toNat < 0x80) ∧ c ≠ 0x2a := by
  grind [badHostChar, UInt8.le_iff_toNat_le]

/-- The subject has one commonName, of a type that is copied, and what is shown of it is a host. -/
structure Presented (der : List UInt8) (t : DerTlv) (host : List UInt8) : Prop where
  name : ∃ subject, certSubject der = some subject ∧ WholeName subject ∧ commonNames subject = [t]
  universal : t.cls = 0
  copied : copiedString t
  shown : octets host = shownText t
  ok : hostOk host
  relative : absoluteName host = host
  address : ∀ ip, ¬ DottedQuad host ip

private theorem host_chars (hok : hostOk host) :
    (∀ x ∈ octets (absoluteName host), 0 < x ∧ x < 0x80) ∧
    (0x2a : UInt8) ∉ absoluteName host := by
  obtain ⟨-, -, -, hany⟩ := hostOk_iff.mp hok
  have hall := any_eq_false.mp hany
  constructor
  · intro x hx
    obtain ⟨y, hy, rfl⟩ := mem_map.mp hx
    exact (badHostChar_eq_false (by simpa using hall y hy)).1
  · intro hmem
    exact (badHostChar_eq_false (by simpa using hall _ hmem)).2 rfl

private theorem nameMatches_self (hstar : (0x2a : UInt8) ∉ host) : nameMatches host host :=
  (nameMatches_iff hstar).mpr (.inl rfl)

private theorem Presented.stored {name : DerTlv} (h : Presented der t host)
    (hs : certSubject der = some name)
    (hu : name.isUniversal 0x30) (hraw : derRead name.raw = some (name, [])) :
    cStr (nameGetCn name.raw zeroCn) = host := by
  obtain ⟨subject, hsub, hw, hcn⟩ := h.name
  obtain rfl : name = subject := Option.some.inj (hs.symm.trans hsub)
  have htu : (t.cls == 0) = true := by rw [h.universal]; rfl
  have hbytes := (host_chars h.ok).1
  rw [h.relative, h.shown] at hbytes
  rw [nameGetCn_eq, walkedCns_eq hu hraw hw, hcn, filter_singleton, htu, cond_true, foldl_cons,
    foldl_nil, ← octets_eq_octets, h.shown]
  refine cStr_copyDirstring h.copied rfl (fun _ m => ?_) fun hbmp c hc => ?_
  · rw [getD_eq_getElem?_getD, zeroCn]
    grind
  · exact (hbytes c hc).2

private theorem not_kept_iff : (¬ ∃ gn ∈ sanNames der, (keptName gn).isSome) ↔
    (sanNames der).filterMap keptName = [] := by
  simp [filterMap_eq_nil_iff]

theorem x509CheckHostname_sound {c : X509Cert} (hparse : x509Parse der = .ok c)
    (hintact : NamesIntact der) (hcheck : x509CheckHostname c host = true) :
    CertNames der host := by
  have hsan := x509Parse_san hparse
  obtain ⟨s, hs, hu, hraw, hcn⟩ := x509Parse_subject hparse
  obtain ⟨hok, ⟨e, he, hmatch⟩ | ⟨hnil, hip, hname⟩⟩ := x509CheckHostname_iff.mp hcheck
  · have hmem := mem_sanNames_of_kept (mem_of_mem_take (hsan ▸ he))
    obtain ⟨hisIp, hip⟩ | ⟨hisIp, -, hname⟩ := sanMatches_iff.mp hmatch
    · rw [if_pos hisIp] at hmem
      exact .inl ⟨e.p, hmem, parseIpv4_sound hip⟩
    · rw [if_neg (by simp [hisIp])] at hmem
      exact .inr (.inl ⟨e.p, hmem, (nameMatches_iff (host_chars hok).2).mp hname⟩)
  have hnone : ¬ ∃ gn ∈ sanNames der, (keptName gn).isSome := by
    rw [hsan, take_eq_nil_iff] at hnil
    exact not_kept_iff.mpr (hnil.resolve_left (by decide))
  obtain ⟨hhas, hsub⟩ := hintact.resolve_left hnone
  have hfit := (nameMatches_iff (host_chars hok).2).mp hname
  rw [hcn] at hfit
  obtain hempty | ⟨t, hlast, heq⟩ := stored_complete hu hraw (hsub s hs).1 (hsub s hs).2
  · rw [hempty] at hfit
    obtain hsame | ⟨rest, label, hcon, -⟩ := hfit
    · have hlen := congrArg length hsame
      simp only [octets, length_map, length_nil] at hlen
      exact absurd hlen.symm (hostOk_iff.mp hok).2.2.1
    · cases hcon
  · exact .inr (.inr ⟨hhas, s, t, hs, hlast, heq ▸ hfit⟩)

def cnName (cn : List UInt8) : List UInt8 :=
  Der.elem 0x30 (Der.elem 0x31 (Der.elem 0x30 (Der.elem 0x06 oidCn ++ Der.elem 0x0c cn)))

/-- A certificate that is valid for one second, without its version and extensions. -/
def sampleCert (version issuer subject key exts sig : List UInt8) : List UInt8 :=
  let alg := Der.elem 0x30 (Der.elem 0x06 oidSha256Rsa ++ [0x05, 0x00])
  let time := Der.elem 0x17 (ascii "250101000000Z")
  let spki := Der.elem 0x30 (Der.elem 0x30 (Der.elem 0x06 oidRsaEnc ++ [0x05, 0x00]) ++
    Der.elem 0x03 (0x00 :: key))
  Der.elem 0x30 (Der.elem 0x30 (version ++ Der.elem 0x02 [0x01] ++ alg ++ issuer ++
    Der.elem 0x30 (time ++ time) ++ subject ++ spki ++ exts) ++ alg ++
      Der.elem 0x03 (0x00 :: sig))

/-- A version 1 certificate with one commonName and a public key that nothing looks at. -/
def cnCert (cn : List UInt8) : List UInt8 :=
  sampleCert [] (Der.elem 0x30 []) (cnName cn) [0x01] [] [0x01]

def nulName : List UInt8 := ascii "bank.io" ++ 0x00 :: ascii ".evil.com"

def bankHost : List UInt8 := ascii "bank.io"

def parsesAs (der : List UInt8) (p : X509Cert → Prop) [DecidablePred p] : Bool :=
  match x509Parse der with
  | .ok c => p c
  | .error _ => false

theorem parsesAs_elim {p : X509Cert → Prop} [DecidablePred p] (h : parsesAs der p = true) :
    ∃ c, x509Parse der = .ok c ∧ p c := by
  rw [parsesAs] at h
  split at h
  · rename_i c hparse
    exact ⟨c, hparse, of_decide_eq_true h⟩
  · cases h

end KestrelOS.Tls
