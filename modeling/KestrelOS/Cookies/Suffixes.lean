import KestrelOS.Cookies.Sends

/-!
# Cookies for public suffixes

Which cookies go to all hosts below a name. The check counts labels before it looks into its table,
so it knows the names of the table that have two labels, written without dots around them.
-/

namespace KestrelOS.Cookies

open List

open Http (hLower hDigit ciEq)

/-- A name without the dots in front of it and behind it. -/
def bareDomain (d : List UInt8) : List UInt8 :=
  ((d.dropWhile (· = 0x2e)).reverse.dropWhile (· = 0x2e)).reverse

def ipAddress (h : List UInt8) : Bool := hostIsIp h ∨ 0x3a ∈ h

/-- A single label, an address, or a name of the suffix table. -/
def PublicName (d : List UInt8) : Prop :=
  0x2e ∉ bareDomain d ∨ ipAddress (bareDomain d) ∨ ∃ name ∈ psl2, ciEq (bareDomain d) name

instance (d : List UInt8) : Decidable (PublicName d) := inferInstanceAs (Decidable (_ ∨ _ ∨ _))

/-- A name as the check expects it: no dot at either end, no colon, and if the table has it then
with two labels. -/
structure PlainName (d : List UInt8) : Prop where
  front : d.head? ≠ some 0x2e
  back : d.getLast? ≠ some 0x2e
  colon : 0x3a ∉ d
  labels : ∀ name ∈ psl2, ciEq d name → name.count 0x2e = 1

def PlainDomain : Call → Prop
  | .set text .. => ∀ d ∈ lastOf domainAttr .domain (attributes text), PlainName d
  | _ => True

instance (d : List UInt8) : Decidable (PlainName d) :=
  decidable_of_iff (d.head? ≠ some 0x2e ∧ d.getLast? ≠ some 0x2e ∧ 0x3a ∉ d ∧
    ∀ name ∈ psl2, ciEq d name → name.count 0x2e = 1)
    ⟨fun h => ⟨h.1, h.2.1, h.2.2.1, h.2.2.2⟩, fun h => ⟨h.1, h.2, h.3, h.4⟩⟩

instance (call : Call) : Decidable (PlainDomain call) :=
  match call with
  | .set text .. =>
    inferInstanceAs (Decidable (∀ d ∈ lastOf domainAttr .domain (attributes text), PlainName d))
  | .expire _ => inferInstanceAs (Decidable True)
  | .header _ => inferInstanceAs (Decidable True)

theorem bareDomain_of_plain {d : List UInt8} (h : PlainName d) : bareDomain d = d := by
  have hdrop : ∀ s : List UInt8, s.head? ≠ some 0x2e → s.dropWhile (· = 0x2e) = s := by
    intro s hs
    cases s with
    | nil => rfl
    | cons c s =>
      apply dropWhile_cons_of_neg
      simpa using hs
  unfold bareDomain
  rw [hdrop d h.front, hdrop d.reverse, reverse_reverse]
  rw [head?_reverse]
  exact h.back

theorem count_dot_of_ciEq {a b : List UInt8} (h : ciEq a b) : a.count 0x2e = b.count 0x2e := by
  have hlower : ∀ s : List UInt8, (lowerStr s).count 0x2e = s.count 0x2e := by
    intro s
    unfold lowerStr
    simp only [count_eq_countP, countP_map]
    refine countP_congr fun c _ => ?_
    simp only [Function.comp_apply, beq_iff_eq]
    exact hLower_dot c
  rw [← hlower a, ← hlower b, ciEq_iff.mp h]

theorem not_publicName {d : List UInt8} (hp : PlainName d) (h : ¬ cookiePublicSuffix d) :
    ¬ PublicName d := by
  unfold PublicName
  rw [bareDomain_of_plain hp]
  unfold cookiePublicSuffix at h
  dsimp only at h
  split at h
  · exact absurd rfl h
  split at h
  · exact absurd rfl h
  rename_i hip
  split at h
  · exact absurd rfl h
  rename_i hlabels
  have hdot : 0x2e ∈ d := count_pos_iff.mp (by omega)
  intro hpub
  obtain hone | haddr | ⟨name, hname, hci⟩ := hpub
  · exact hone hdot
  · unfold ipAddress at haddr
    obtain h4 | h6 := of_decide_eq_true haddr
    · exact hip h4
    · exact hp.colon h6
  · have htwo : d.count 0x2e = 1 := (count_dot_of_ciEq hci).trans (hp.labels name hname hci)
    rw [if_neg (by omega), if_pos (any_eq_true.mpr ⟨name, hname, hci⟩)] at h
    exact h rfl

/-- In every run whose `Domain` attributes are plain names, no cookie that goes to subdomains is for
a public name. -/
theorem public_suffixes_are_refused (calls : List Call) (h : ∀ call ∈ calls, PlainDomain call) :
    ∀ c ∈ jarAfter calls, c.hostOnly = false → ¬ PublicName c.domain := by
  intro c hc hhost
  obtain ⟨before, text, host, path, setAt, after, hcalls, ⟨c0, hread, -, heq⟩, -⟩ :=
    (jarAfter_kept calls).stems c hc
  have hdomain : c.domain = c0.domain := by rw [heq]
  have hflag : c.hostOnly = c0.hostOnly := by rw [heq]
  obtain ⟨hreads, -⟩ := readSetCookie_reads hread
  obtain ⟨honly, -⟩ | ⟨-, hlast, -, hsuffix⟩ := hreads.domain
  · rw [← hflag, hhost] at honly
    exact absurd honly Bool.false_ne_true
  have hplain : PlainName c0.domain :=
    h (.set text host path setAt) (by rw [hcalls]; simp) c0.domain hlast
  rw [hdomain]
  exact not_publicName hplain hsuffix

def siteCookie : List Call :=
  [.set (ascii "a=b; Domain=.Example.co.uk") (ascii "www.example.co.uk") (ascii "/") 5]

theorem public_suffixes_are_refused_for_a_site :
    jarAfter siteCookie ≠ [] ∧
      ∀ c ∈ jarAfter siteCookie, c.hostOnly = false → ¬ PublicName c.domain :=
  ⟨by decide +kernel, public_suffixes_are_refused siteCookie (by decide +kernel)⟩

/-- A cookie for all of `s3.amazonaws.com`, and one for all of `co.uk` with a dot behind it. -/
theorem public_suffix_is_accepted :
    (∃ c ∈ jarAfter [.set (ascii "a=b; Domain=s3.amazonaws.com") (ascii "evil.s3.amazonaws.com")
        (ascii "/") 5], c.hostOnly = false ∧ PublicName c.domain) ∧
      ∃ c ∈ jarAfter [.set (ascii "a=b; Domain=co.uk.") (ascii "evil.co.uk.") (ascii "/") 5],
        c.hostOnly = false ∧ PublicName c.domain := by
  decide +kernel

end KestrelOS.Cookies
