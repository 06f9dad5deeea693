import KestrelOS.Http.Url
import Mathlib.Data.List.TakeWhile

/-!
# Origins

`url_same_origin` compares components and `url_origin` builds a text. On parsed addresses they
agree: the text determines the components, since a parsed scheme and a parsed host do not contain
what ends them.
-/

namespace KestrelOS.Http

open List

def urlSameOrigin (a b : Url) : Bool :=
  ciEq a.scheme b.scheme && a.host == b.host && urlEffectivePort a == urlEffectivePort b

def Gives {ε α : Type} (P : α → Prop) (x : Except ε α) : Prop := ∀ a, x = .ok a → P a

section Gives

variable {ε α β : Type} {P : α → Prop} {Q : β → Prop} {x : Except ε α}

theorem Gives.ok {a : α} (h : P a) : Gives P (.ok a : Except ε α) := by
  rintro _ ⟨⟩
  exact h

theorem Gives.error {e : ε} : Gives P (.error e) := nofun

theorem Gives.bind {f : α → Except ε β} (h : Gives (fun a => Gives Q (f a)) x) :
    Gives Q (x >>= f) := by
  cases x with
  | error e => exact .error
  | ok a => exact h a rfl

theorem Gives.map {f : α → β} (h : Gives (fun a => Q (f a)) x) : Gives Q (x.map f) := by
  cases x with
  | error e => exact .error
  | ok a => exact .ok (h a rfl)

theorem Gives.imp {R : α → Prop} (h : Gives P x) (hR : ∀ a, P a → R a) : Gives R x :=
  fun a ha => hR a (h a ha)

end Gives

structure OriginParts (scheme host : List UInt8) (isIpv6 : Bool) (port : Int) : Prop where
  scheme : ∀ c ∈ scheme, c ≠ 0x3a ∧ hLower c = c
  literal : isIpv6 = true → 0x3a ∈ host ∧ 0x5d ∉ host
  name : isIpv6 = false → 0x3a ∉ host ∧ 0x5b ∉ host
  port : port ≤ 65535

abbrev Url.Proper (u : Url) : Prop := OriginParts u.scheme u.host u.isIpv6 u.port

theorem hexval_lt {c : UInt8} {d : Nat} (h : hexval c = some d) : d < 16 := by
  grind [hexval, UInt8.le_iff_toNat_le]

theorem mem_pctText {comp : UrlComp} (hcomp : comp ≠ .form) (keep : Bool) {s : List UInt8}
    {c : UInt8} (h : c ∈ pctText comp keep s) : c = 0x25 ∨ compAllows c comp := by
  have hhex : ∀ d < 16, compAllows (hexUpper d) comp := by
    intro d hd
    have hun : ∀ d < 16, isUnreserved (hexUpper d) := by decide
    rw [compAllows.eq_def, hun d hd, Bool.true_or]
  have hbyte : ∀ b, c ∈ pctByte b comp → c = 0x25 ∨ compAllows c comp := by
    intro b hc
    have hlt := b.toNat_lt
    unfold pctByte pctBytes at hc
    grind
  induction s using pctText.induct keep with
  | case1 => cases h
  | case2 hi lo s dh dl hlo hhi hkeep ih =>
    rw [hkeep, pctText.eq_2 comp hi lo s dh dl hhi hlo] at h
    obtain h | h := mem_append.mp h
    · grind [hexval_lt]
    · exact ih (hkeep ▸ h)
  | case3 hi lo s hno ih =>
    rw [pctText.eq_3 comp hi lo s keep hno] at h
    exact (mem_append.mp h).elim (hbyte 0x25) ih
  | case4 b s hno ih =>
    rw [pctText.eq_4 comp keep b s hno] at h
    exact (mem_append.mp h).elim (hbyte b) ih

theorem mem_of_mem_map_hLower {c : UInt8} (hc : c.toNat < 97) {s : List UInt8}
    (h : c ∈ s.map hLower) :
    c ∈ s := by
  obtain ⟨b, hb, rfl⟩ := mem_map.mp h
  obtain heq | ⟨hge, -, hadd⟩ := hLower_cases b
  · rwa [heq]
  · omega

theorem copyN_eq_ok {s r : List UInt8} {n : Nat} (h : copyN s n = .ok r) : r = s := by
  grind [copyN]

variable {u : Url}

theorem parseScheme_proper (s : List UInt8) (h : u.Proper) :
    Gives (fun r => r.1.Proper ∧ r.1.isIpv6 = u.isIpv6) (parseScheme s u) := by
  unfold parseScheme
  split
  · split
    · refine .map fun scheme hcopy => ⟨⟨fun c hc => ?_, h.literal, h.name, h.port⟩, rfl⟩
      obtain ⟨b, hb, rfl⟩ := mem_map.mp hc
      refine ⟨fun hcolon => ?_, hLower_hLower b⟩
      rw [(hLower_eq_iff (by decide)).mp hcolon, copyN_eq_ok hcopy] at hb
      exact absurd (mem_takeWhile_imp hb) (by decide)
    · exact .ok ⟨h, rfl⟩
  · exact .ok ⟨h, rfl⟩

theorem parseHost_proper (s : List UInt8) (h : u.Proper) (hip : u.isIpv6 = false) :
    Gives (fun r => r.1.Proper) (parseHost s u) := by
  unfold parseHost
  split
  · dsimp only
    split
    · exact .error
    split
    · exact .error
    split
    · exact .error
    rename_i hcolon
    refine .bind fun lit hcopy => ?_
    split
    · exact .error
    rw [copyN_eq_ok hcopy]
    refine .ok ⟨h.scheme, fun _ => ⟨?_, fun hmem => ?_⟩, nofun, h.port⟩
    · exact mem_map.mpr ⟨0x3a, by simpa using hcolon, rfl⟩
    · have := mem_takeWhile_imp (mem_of_mem_map_hLower (by decide) hmem)
      exact absurd this (by decide)
  · dsimp only
    split
    · exact .error
    refine .bind fun host hcopy => .ok ⟨h.scheme, fun hno => ?_, fun _ => ?_, h.port⟩
    · cases hip.symm.trans hno
    have hmem : ∀ c, c.toNat < 97 → c ∈ host.map hLower → c = 0x25 ∨ compAllows c .host := by
      intro c hc hmem
      unfold pctCopy at hcopy
      dsimp only at hcopy
      split at hcopy <;> cases hcopy
      exact mem_pctText (by decide) true (mem_of_mem_map_hLower hc hmem)
    exact ⟨fun hc => absurd (hmem _ (by decide) hc) (by decide),
      fun hc => absurd (hmem _ (by decide) hc) (by decide)⟩

theorem portLoop_le (s : List UInt8) {v : Nat} (hv : v ≤ 65535) :
    Gives (· ≤ 65535) (portLoop s v) := by
  induction s generalizing v with
  | nil => exact .ok hv
  | cons c s ih =>
    unfold portLoop
    dsimp only
    split
    · exact .error
    split
    · exact .error
    · exact ih (by omega)

theorem parsePort_le (s : List UInt8) : Gives (· ≤ (65535 : Int)) (parsePort s) := by
  unfold parsePort
  split
  · exact .ok (by decide)
  · refine .map (.bind ((portLoop_le s (Nat.zero_le _)).imp fun v hv => ?_))
    exact .ok (Int.ofNat_le.mpr hv)

theorem parseAuthority_proper (a : List UInt8) (h : u.Proper) (hip : u.isIpv6 = false) :
    Gives Url.Proper (parseAuthority a u) := by
  have hport : ∀ v : Url, v.Proper → ∀ port,
      Gives Url.Proper ((parsePort port).map fun port => { v with port }) :=
    fun v hv _ => .map ((parsePort_le _).imp fun p hp => ⟨hv.scheme, hv.literal, hv.name, hp⟩)
  unfold parseAuthority
  split
  · refine .bind fun _ _ => .bind (.ok (.bind ((parseHost_proper _ ?_ ?_).imp ?_)))
    · exact h
    · exact hip
    · rintro ⟨v, _ | ⟨_, port⟩⟩ hv
      exacts [.ok hv, hport v hv port]
  · refine .bind (.ok (.bind ((parseHost_proper _ h hip).imp ?_)))
    rintro ⟨v, _ | ⟨_, port⟩⟩ hv
    exacts [.ok hv, hport v hv port]

theorem urlParse_proper (s : List UInt8) : Gives Url.Proper (urlParse s) := by
  have hquery : ∀ s {u : Url}, u.Proper → Gives (fun r => r.1.Proper) (parseQuery s u) := by
    intro s u hu
    unfold parseQuery
    split
    · exact .bind fun _ _ => .ok hu
    · exact .ok hu
  have hfragment : ∀ r : Url × List UInt8, r.1.Proper →
      Gives Url.Proper (parseFragment r.2 r.1) := by
    intro r hr
    unfold parseFragment
    split
    · exact .bind fun _ _ => .ok hr
    · exact .ok hr
  have hzero : Url.zero.Proper := ⟨nofun, nofun, fun _ => ⟨nofun, nofun⟩, by decide⟩
  unfold urlParse
  dsimp only
  split
  · exact .error
  refine .bind ((parseScheme_proper _ hzero).imp fun r hr => ?_)
  split
  · refine .bind ((parseAuthority_proper _ hr.1 hr.2).imp fun v hv => ?_)
    refine .bind (.ok (.bind fun _ _ => .bind ((hquery _ ?_).imp hfragment)))
    exact hv
  · refine .bind (.ok (.bind fun _ _ => .bind ((hquery _ ?_).imp hfragment)))
    exact hr.1

theorem portLoop_decDigits {fuel v : Nat} (h : v < 10 ^ fuel) (hv : v ≤ 65535) (s : List UInt8) :
    portLoop (decDigits fuel v s) 0 = portLoop s v := by
  induction fuel generalizing v s with
  | zero =>
    obtain rfl : v = 0 := by omega
    rfl
  | succ fuel ih =>
    have hdigit : (UInt8.ofNat (0x30 + v % 10)).toNat = 0x30 + v % 10 :=
      UInt8.toNat_ofNat_of_lt' (show _ < 256 by omega)
    have hread : ∀ w, w * 10 + v % 10 = v →
        portLoop (UInt8.ofNat (0x30 + v % 10) :: s) w = portLoop s v := by
      intro w hw
      have hd : hDigit (UInt8.ofNat (0x30 + v % 10)) := by
        simp only [hDigit, Bool.and_eq_true, decide_eq_true_eq, UInt8.le_iff_toNat_le, hdigit]
        exact ⟨Nat.le_add_right _ _, by simp; omega⟩
      rw [portLoop, hd, hdigit, Nat.add_sub_cancel_left, hw]
      simp [Nat.not_lt.mpr hv]
    unfold decDigits
    dsimp only
    split
    · exact hread 0 (by omega)
    · rw [ih (by rw [Nat.pow_succ] at h; omega) (by omega)]
      exact hread (v / 10) (by omega)

theorem portText_inj {p q : Int} (hp : 0 ≤ p) (hp' : p ≤ 65535) (hq : 0 ≤ q) (hq' : q ≤ 65535)
    (h : portText p = portText q) : p = q := by
  have hread : ∀ r : Int, 0 ≤ r → r ≤ 65535 → portLoop (uintText r.toNat) 0 = .ok r.toNat :=
    fun r _ _ => portLoop_decDigits (by omega) (by omega) []
  have hok := hread p hp hp'
  rw [show uintText p.toNat = uintText q.toNat from tail_eq_of_cons_eq h, hread q hq hq'] at hok
  injection hok
  omega

theorem cut_host {host s : List UInt8} (h : 0x3a ∉ host) (hs : s = [] ∨ s.head? = some 0x3a) :
    (cut 0x3a (host ++ s ++ [0x3a])).1 = host := by
  cases s with
  | nil => rw [append_nil, cut_eq_of_not_mem h]
  | cons c s =>
    obtain rfl : c = 0x3a := by simpa using hs
    rw [append_assoc, cons_append, cut_eq_of_not_mem h]

theorem head_hostText (h : u.Proper) {s : List UInt8} (hs : s = [] ∨ s.head? = some 0x3a) :
    (hostText u ++ s).head? = some 0x5b ↔ u.isIpv6 := by
  cases hip : u.isIpv6 with
  | true => simp [hostText, hip]
  | false =>
    have hname := (h.name hip).2
    simp only [hostText, hip, Bool.false_eq_true, if_false, iff_false]
    cases hhost : u.host with
    | nil =>
      obtain rfl | hs := hs
      · simp
      · simp [hs]
    | cons c cs =>
      rw [hhost] at hname
      simpa using fun hc : c = 0x5b => hname (hc ▸ mem_cons_self)

theorem hostText_append_inj {a b : Url} (ha : a.Proper) (hb : b.Proper) {s t : List UInt8}
    (hs : s = [] ∨ s.head? = some 0x3a) (ht : t = [] ∨ t.head? = some 0x3a)
    (h : hostText a ++ s = hostText b ++ t) : a.host = b.host ∧ s = t := by
  have hip : a.isIpv6 = b.isIpv6 := by
    rw [Bool.eq_iff_iff, ← head_hostText ha hs, ← head_hostText hb ht, h]
  cases hia : a.isIpv6 <;> rw [hia] at hip
  · simp only [hostText, hia, ← hip, Bool.false_eq_true, if_false] at h
    have hcut := congrArg (fun x => (cut 0x3a (x ++ [0x3a])).1) h
    rw [cut_host (ha.name hia).1 hs, cut_host (hb.name hip.symm).1 ht] at hcut
    rw [hcut] at h
    exact ⟨hcut, append_cancel_left h⟩
  · simp only [hostText, hia, ← hip, if_true, append_assoc, singleton_append] at h
    have hcut := congrArg (fun x => cut 0x5d x.tail) h
    simp only [cons_append, tail_cons] at hcut
    rw [cut_eq_of_not_mem (ha.literal hia).2, cut_eq_of_not_mem (hb.literal hip.symm).2] at hcut
    simpa using hcut

theorem urlDefaultPort_le (scheme : List UInt8) : urlDefaultPort scheme ≤ 65535 := by
  unfold urlDefaultPort
  grind

theorem urlEffectivePort_le {u : Url} (h : u.Proper) : urlEffectivePort u ≤ 65535 := by
  unfold urlEffectivePort
  split
  · exact h.port
  · exact urlDefaultPort_le u.scheme

/-- Two parsed addresses are of one origin exactly if their origins are one text. -/
theorem url_same_origin_iff {s t : List UInt8} {a b : Url} (ha : urlParse s = .ok a)
    (hb : urlParse t = .ok b) {outsz outsz' : Nat} {sa sb : List UInt8}
    (hsa : urlOrigin a outsz = .ok sa) (hsb : urlOrigin b outsz' = .ok sb) :
    urlSameOrigin a b = true ↔ sa = sb := by
  have hpa := urlParse_proper s a ha
  have hpb := urlParse_proper t b hb
  have hfit : ∀ {text : List UInt8} {outsz r}, fitText text outsz = .ok r → r = text := by
    grind [fitText]
  rw [hfit hsa, hfit hsb]
  simp only [urlSameOrigin, Bool.and_eq_true, beq_iff_eq, ciEq_iff_map, append_assoc]
  constructor
  · rintro ⟨⟨hscheme, hhost⟩, hport⟩
    have hlower : ∀ {u : Url}, u.Proper → u.scheme.map hLower = u.scheme :=
      fun hu => (map_congr_left fun c hc => (hu.scheme c hc).2).trans (map_id' _)
    rw [hlower hpa, hlower hpb] at hscheme
    -- only a literal has a colon
    have hip : a.isIpv6 = b.isIpv6 := by
      have hcolon : ∀ {u : Url}, u.Proper → (u.isIpv6 ↔ 0x3a ∈ u.host) := fun hu =>
        ⟨fun h => (hu.literal h).1, fun hc => by_contra fun h => (hu.name (by simpa using h)).1 hc⟩
      rw [Bool.eq_iff_iff, hcolon hpa, hcolon hpb, hhost]
    rw [hostText, hostText, hscheme, hhost, hport, hip]
  · intro htext
    have hcut := congrArg (cut 0x3a) htext
    have hno : ∀ {u : Url}, u.Proper → 0x3a ∉ u.scheme := fun hu hc => (hu.scheme _ hc).1 rfl
    have hascii : ∀ x, ascii "://" ++ x = 0x3a :: 0x2f :: 0x2f :: x := fun _ => rfl
    rw [hascii, hascii, cut_eq_of_not_mem (hno hpa), cut_eq_of_not_mem (hno hpb)] at hcut
    simp only [Prod.mk.injEq, Option.some.injEq, cons.injEq, true_and] at hcut
    obtain ⟨hscheme, hrest⟩ := hcut
    have hshape : ∀ (c : Prop) [Decidable c] (p : Int),
        (if c then portText p else []) = [] ∨ (if c then portText p else []).head? = some 0x3a := by
      intro c _ p
      split
      · exact .inr rfl
      · exact .inl rfl
    obtain ⟨hhost, hport⟩ := hostText_append_inj hpa hpb (hshape _ _) (hshape _ _) hrest
    refine ⟨⟨by rw [hscheme], hhost⟩, ?_⟩
    have hla := urlEffectivePort_le hpa
    have hlb := urlEffectivePort_le hpb
    -- a port that is not shown is the default one
    have hdefault : ∀ u : Url, urlEffectivePort u < 0 →
        urlEffectivePort u = urlDefaultPort u.scheme := by
      grind [urlEffectivePort]
    split at hport <;> split at hport
    · exact portText_inj (by omega) hla (by omega) hlb hport
    · cases hport
    · cases hport
    · grind

theorem url_same_origin_iff_default : urlSameOrigin
    { Url.zero with
      scheme := ascii "http", hasScheme := true, host := ascii "a", hasAuthority := true }
    { Url.zero with
      scheme := ascii "http", hasScheme := true, host := ascii "a", hasAuthority := true
      port := 80, path := ascii "/b" } = true ↔ ascii "http://a" = ascii "http://a" :=
  @url_same_origin_iff (ascii "http://a") (ascii "HTTP://A:80/b") _ _ (by decide +kernel)
    (by decide +kernel) 64 64 _ _ (by decide +kernel) (by decide +kernel)

end KestrelOS.Http
