import KestrelOS.Cookies.Jar
import Mathlib.Data.List.Induction
import Mathlib.Data.List.Nodup

/-!
# Where cookies go

What a `Set-Cookie` text asks for, read off its attributes as a whole, and that the jar sends each
cookie only as the last accepted text for its name, domain and path asks.
-/

namespace KestrelOS.Cookies

open List Function
open Http (hLower hSpace hDigit ciEq trimBlanks number hLower_hLower hLower_eq_iff hDigit_hLower)

/-- What `read` makes of the last attribute of a kind that it accepts. -/
def lastOf {β : Type} (read : List UInt8 → Option β) (kind : AttrKind)
    (attrs : List (List UInt8 × List UInt8)) : Option β :=
  (attrs.filterMap fun a => if attrKind a.1 = kind then read a.2 else none).getLast?

def carries (kind : AttrKind) (text : List UInt8) : Bool :=
  (attributes text).any fun a => attrKind a.1 = kind

def ageOf (av : List UInt8) : Option Int :=
  if av.head? = some 0x2d then
    if av.tail.head?.any hDigit then some (-number (av.tail.takeWhile hDigit)) else none
  else if av.head?.any hDigit then some (number (av.takeWhile hDigit))
  else none

/-- The cookie's life has ended: `Max-Age` counts before `Expires`, and without either there is no
end. -/
def Expired (text : List UInt8) (setAt now : Int) : Prop :=
  match lastOf ageOf .maxAge (attributes text) with
  | some age => age ≤ 0 ∨ setAt + age ≤ now
  | none => match lastOf parseDate .expires (attributes text) with
    | some date => date ≤ now
    | none => False

def pathOf (text path : List UInt8) : Option (List UInt8) :=
  (lastOf pathAttr .path (attributes text)).or (cookieDefaultPath path COOKIE_ATTR_MAX)

def sameSiteOf (text : List UInt8) : SameSite :=
  (lastOf (fun av => some (samesiteAttr av)) .sameSite (attributes text)).getD .lax

structure Grants (text host path : List UInt8) (setAt : Int) (q : Query) (c : Cookie) : Prop where
  pair : nameValue text = some (c.name, c.value)
  host : ciEq host q.host ∨ ∃ d, lastOf domainAttr .domain (attributes text) = some d ∧
    cookieDomainMatch host d ∧ cookieDomainMatch q.host d ∧ ¬ cookiePublicSuffix d
  path : ∃ p, pathOf text path = some p ∧ cookiePathMatch q.path p
  alive : ¬ Expired text setAt q.now
  secure : carries .secure text → q.secureChannel
  httpOnly : carries .httpOnly text → q.httpApi
  samesite : sendAllowed (sameSiteOf text) q.ctx

theorem lastOf_cons {β : Type} (read : List UInt8 → Option β) (kind : AttrKind)
    (a : List UInt8 × List UInt8) (attrs : List (List UInt8 × List UInt8)) :
    lastOf read kind (a :: attrs) =
      (lastOf read kind attrs).or (if attrKind a.1 = kind then read a.2 else none) := by
  unfold lastOf
  rw [filterMap_cons]
  cases (if attrKind a.1 = kind then read a.2 else none) with
  | none => exact (Option.or_none).symm
  | some v =>
    change (v :: _).getLast? = _
    rw [getLast?_cons]
    cases (attrs.filterMap fun a => if attrKind a.1 = kind then read a.2 else none).getLast? <;> rfl

theorem foldl_readAttr {β : Type} (field : Attrs → Option β) (read : List UInt8 → Option β)
    (kind : AttrKind) (hstep : ∀ a attr, field (readAttr a attr) =
      (if attrKind attr.1 = kind then read attr.2 else none).or (field a))
    (attrs : List (List UInt8 × List UInt8)) (a : Attrs) :
    field (attrs.foldl readAttr a) = (lastOf read kind attrs).or (field a) := by
  induction attrs generalizing a with
  | nil => rfl
  | cons attr attrs ih =>
    rw [foldl_cons, ih, hstep, lastOf_cons]
    cases lastOf read kind attrs <;> rfl

theorem isSome_lastOf_flag (kind : AttrKind) (attrs : List (List UInt8 × List UInt8)) :
    (lastOf (fun _ => some ()) kind attrs).isSome = attrs.any fun a => attrKind a.1 = kind := by
  induction attrs with
  | nil => rfl
  | cons a attrs ih =>
    rw [lastOf_cons, any_cons, ← ih]
    by_cases hk : attrKind a.1 = kind
    · simp [hk]
    · simp [hk]

theorem readAttrs_eq (text : List UInt8) : (attributes text).foldl readAttr {} =
      { expires := lastOf expiresAttr .expires (attributes text)
        maxage := lastOf maxAgeAttr .maxAge (attributes text)
        domain := lastOf domainAttr .domain (attributes text)
        path := lastOf pathAttr .path (attributes text)
        secure := carries .secure text
        httpOnly := carries .httpOnly text
        samesite := sameSiteOf text } := by
  have hflag : ∀ (field : Attrs → Bool) (kind : AttrKind), field {} = false →
      (∀ a attr, field (readAttr a attr) = (decide (attrKind attr.1 = kind) || field a)) →
      field ((attributes text).foldl readAttr {}) = carries kind text := by
    intro field kind hzero hstep
    have h := foldl_readAttr (fun a => if field a then some () else none) (fun _ => some ()) kind
      (fun a attr => by
        rw [hstep]
        by_cases hk : attrKind attr.1 = kind
        · simp [hk]
        · simp [hk]) (attributes text) {}
    have hsome := congrArg Option.isSome h
    rw [hzero] at hsome
    unfold carries
    rw [← isSome_lastOf_flag]
    cases hf : field ((attributes text).foldl readAttr {}) <;> simpa [hf] using hsome
  ext1
  · rw [foldl_readAttr Attrs.expires expiresAttr .expires, Option.or_none]
    intro a attr
    unfold readAttr
    cases attrKind attr.1 <;> rfl
  · rw [foldl_readAttr Attrs.maxage maxAgeAttr .maxAge, Option.or_none]
    intro a attr
    unfold readAttr
    cases attrKind attr.1 <;> rfl
  · rw [foldl_readAttr Attrs.domain domainAttr .domain, Option.or_none]
    intro a attr
    unfold readAttr
    cases attrKind attr.1 <;> rfl
  · rw [foldl_readAttr Attrs.path pathAttr .path, Option.or_none]
    intro a attr
    unfold readAttr
    cases attrKind attr.1 <;> rfl
  · apply hflag Attrs.secure .secure rfl
    intro a attr
    unfold readAttr
    cases attrKind attr.1 <;> rfl
  · apply hflag Attrs.httpOnly .httpOnly rfl
    intro a attr
    unfold readAttr
    cases attrKind attr.1 <;> rfl
  · have h := foldl_readAttr (fun a => some a.samesite) (fun av => some (samesiteAttr av)) .sameSite
      (fun a attr => by
        unfold readAttr
        cases attrKind attr.1 <;> rfl) (attributes text) {}
    change _ = (lastOf _ _ _).getD SameSite.lax
    cases hl : lastOf (fun av => some (samesiteAttr av)) .sameSite (attributes text) with
    | none =>
      rw [hl] at h
      exact Option.some.inj h
    | some v =>
      rw [hl] at h
      exact Option.some.inj h

/-- What of an age counts: nothing below one second, no more than the cap. -/
def effectiveAge (age : Int) : Int := if age ≤ 0 then 0 else min age COOKIE_AGE_CAP

theorem ageLoop_capped (s : List UInt8) (v : Int) (w : Nat)
    (h : min v (COOKIE_AGE_CAP + 1) = min (w : Int) (COOKIE_AGE_CAP + 1)) :
    min (ageLoop s v) (COOKIE_AGE_CAP + 1) =
      min (((s.takeWhile hDigit).foldl (fun v c => v * 10 + (c.toNat - 0x30)) w : Nat) : Int)
        (COOKIE_AGE_CAP + 1) := by
  induction s generalizing v w with
  | nil => exact h
  | cons c s ih =>
    unfold ageLoop
    by_cases hc : hDigit c
    · rw [if_pos hc, takeWhile_cons_of_pos hc, foldl_cons]
      apply ih
      have hcap : COOKIE_AGE_CAP = 34560000 := by decide
      have hd : 48 ≤ c.toNat := by
        have hle := (Bool.and_eq_true_iff.mp hc).1
        exact UInt8.le_iff_toNat_le.mp (of_decide_eq_true hle)
      rw [hcap] at h ⊢
      split <;> omega
    · rw [if_neg hc, takeWhile_cons_of_neg hc]
      exact h

theorem effectiveAge_maxAgeAttr (av : List UInt8) :
    (maxAgeAttr av).map effectiveAge = (ageOf av).map effectiveAge := by
  have hcap : COOKIE_AGE_CAP = 34560000 := by decide
  have heq : ∀ s, min (ageLoop s 0) (COOKIE_AGE_CAP + 1) =
      min ((number (s.takeWhile hDigit) : Nat) : Int) (COOKIE_AGE_CAP + 1) :=
    fun s => ageLoop_capped s 0 0 rfl
  unfold maxAgeAttr ageOf
  split
  · split
    · have h := heq av.tail
      rw [hcap] at h
      simp only [Option.map_some, effectiveAge]
      rw [if_pos (by omega), if_pos (by omega)]
    · rfl
  · split
    · have h := heq av
      rw [hcap] at h
      simp only [Option.map_some, effectiveAge, hcap]
      congr 1
      split <;> split <;> omega
    · rfl

theorem lastOf_map {β γ : Type} (f : β → γ) (read : List UInt8 → Option β) (kind : AttrKind)
    (attrs : List (List UInt8 × List UInt8)) :
    (lastOf read kind attrs).map f = lastOf (fun av => (read av).map f) kind attrs := by
  induction attrs with
  | nil => rfl
  | cons a attrs ih =>
    rw [lastOf_cons, lastOf_cons, ← ih]
    cases lastOf read kind attrs with
    | some v => rfl
    | none =>
      by_cases hk : attrKind a.1 = kind
      · simp only [if_pos hk, Option.map_none, Option.none_or]
      · simp only [if_neg hk, Option.map_none, Option.none_or]

theorem lastOf_expiresAttr {attrs : List (List UInt8 × List UInt8)}
    (h : ∀ t ∈ lastOf parseDate .expires attrs, 0 ≤ t) :
    lastOf expiresAttr .expires attrs = lastOf parseDate .expires attrs := by
  induction attrs with
  | nil => rfl
  | cons a attrs ih =>
    rw [lastOf_cons] at h
    rw [lastOf_cons, lastOf_cons]
    cases hl : lastOf parseDate .expires attrs with
    | some t =>
      rw [hl] at h
      rw [ih (by rw [hl]; exact h), hl]
      rfl
    | none =>
      rw [hl] at h
      rw [ih (by rw [hl]; simp), hl]
      by_cases hk : attrKind a.1 = .expires
      · rw [if_pos hk] at h
        simp only [if_pos hk, Option.none_or]
        unfold expiresAttr cookieParseDate
        cases hd : parseDate a.2 with
        | none => rfl
        | some t =>
          rw [hd] at h
          exact if_pos (h t rfl)
      · simp only [if_neg hk]

/-- The text names no date before 1970 where a date decides, and no age of zero before it is
1970. -/
def Dated (text : List UInt8) (setAt : Int) : Prop :=
  match lastOf ageOf .maxAge (attributes text) with
  | some age => age ≤ 0 → 0 ≤ setAt
  | none => ∀ t ∈ lastOf parseDate .expires (attributes text), 0 ≤ t

variable {host out path text : List UInt8} {setAt : Int} {c : Cookie} {calls : List Call} {j : Jar}
  {q : Query}

theorem not_expired_of_expiryOf {r : Bool × Int} {now : Int} (hd : Dated text setAt)
    (hr : r = expiryOf ((attributes text).foldl readAttr {}) setAt) (hset : ¬ (r.1 ∧ r.2 ≤ setAt))
    (hnow : ¬ (r.1 ∧ r.2 ≤ now)) : ¬ Expired text setAt now := by
  have hcap : COOKIE_AGE_CAP = 34560000 := by decide
  rw [hr, readAttrs_eq] at hset hnow
  have hage : (lastOf maxAgeAttr .maxAge (attributes text)).map effectiveAge =
      (lastOf ageOf .maxAge (attributes text)).map effectiveAge := by
    rw [lastOf_map, lastOf_map]
    simp only [effectiveAge_maxAgeAttr]
  unfold Expired
  unfold Dated at hd
  unfold expiryOf at hset hnow
  cases ha : lastOf ageOf .maxAge (attributes text) with
  | some age =>
    rw [ha] at hage hd
    cases hm : lastOf maxAgeAttr .maxAge (attributes text) with
    | none =>
      rw [hm] at hage
      cases hage
    | some m =>
      rw [hm] at hage
      have heq : effectiveAge m = effectiveAge age := Option.some.inj hage
      simp only [hm, hcap, true_and] at hset hnow
      simp only [effectiveAge, hcap] at heq
      change ¬ (age ≤ 0 ∨ setAt + age ≤ now)
      change age ≤ 0 → 0 ≤ setAt at hd
      by_cases hm0 : m ≤ 0
      · rw [if_pos hm0] at heq hset
        have hage0 : age ≤ 0 := by
          by_contra hpos
          rw [if_neg hpos] at heq
          omega
        exact absurd (hd hage0) hset
      · rw [if_neg hm0] at heq hnow
        have hage0 : ¬ age ≤ 0 := by
          intro hle
          rw [if_pos hle] at heq
          omega
        rw [if_neg hage0] at heq
        have hlife : (if m > 34560000 then (34560000 : Int) else m) = min m 34560000 := by
          split <;> omega
        rw [hlife, heq] at hnow
        omega
  | none =>
    rw [ha] at hage hd
    have hm : lastOf maxAgeAttr .maxAge (attributes text) = none :=
      Option.map_eq_none_iff.mp (hage.trans rfl)
    simp only [hm, lastOf_expiresAttr hd] at hset hnow
    cases ht : lastOf parseDate .expires (attributes text) with
    | none => exact id
    | some t =>
      simp only [ht] at hnow
      change ¬ t ≤ now
      intro hle
      apply hnow
      refine ⟨trivial, ?_⟩
      split <;> omega

theorem ciEq_iff {a b : List UInt8} : ciEq a b ↔ lowerStr a = lowerStr b := by
  unfold ciEq lowerStr
  exact beq_iff_eq

theorem lowerStr_lowerStr (s : List UInt8) : lowerStr (lowerStr s) = lowerStr s := by
  unfold lowerStr
  rw [map_map]
  exact map_congr_left fun c _ => hLower_hLower c

theorem hLower_dot (c : UInt8) : hLower c = 0x2e ↔ c = 0x2e := hLower_eq_iff (by decide)

theorem hostIsIp_lowerStr (h : List UInt8) : hostIsIp (lowerStr h) = hostIsIp h := by
  unfold hostIsIp lowerStr
  have hcount : (h.map hLower).count 0x2e = h.count 0x2e := by
    simp only [count_eq_countP, countP_map]
    refine countP_congr fun c _ => ?_
    simp only [comp_apply, beq_iff_eq]
    exact hLower_dot c
  simp only [hcount, ne_eq, map_eq_nil_iff, all_map]
  have hall : (fun c => decide (c = 0x2e ∨ hDigit c = true)) ∘ hLower =
      fun c => decide (c = 0x2e ∨ hDigit c = true) := by
    funext c
    simp only [comp_apply, hLower_dot, hDigit_hLower]
  rw [hall]

theorem cookieDomainMatch_lowerStr (host d : List UInt8) :
    cookieDomainMatch (lowerStr host) d = cookieDomainMatch host d := by
  have hnil : lowerStr host = [] ↔ host = [] := map_eq_nil_iff
  have hci : ∀ s, ciEq (lowerStr s) d = ciEq s d := fun s => by
    rw [Bool.eq_iff_iff, ciEq_iff, ciEq_iff, lowerStr_lowerStr]
  have hlen : (lowerStr host).length = host.length := length_map _
  have hdrop : ∀ n, (lowerStr host).drop n = lowerStr (host.drop n) := fun n => map_drop.symm
  have hdot : ∀ n : Nat, (lowerStr host)[n]? = some 0x2e ↔ host[n]? = some 0x2e := by
    intro n
    rw [lowerStr, getElem?_map]
    cases host[n]? with
    | none => exact ⟨nofun, nofun⟩
    | some c => simp only [Option.map_some, Option.some.injEq, hLower_dot]
  unfold cookieDomainMatch
  simp only [hnil, hci, hlen, hdrop, ne_eq, hdot, hostIsIp_lowerStr]

def Cookie.key (c : Cookie) : List UInt8 × List UInt8 × List UInt8 :=
  (c.name, lowerStr c.domain, c.path)

theorem is_iff (c c' : Cookie) : c.is c'.name c'.domain c'.path ↔ c.key = c'.key := by
  simp only [Cookie.is, Cookie.key, decide_eq_true_eq, Prod.mk.injEq, ciEq_iff]

structure Reads (text host path : List UInt8) (setAt : Int) (c : Cookie) : Prop where
  pair : nameValue text = some (c.name, c.value)
  domain : (c.hostOnly ∧ c.domain = lowerStr host) ∨
    (¬ c.hostOnly ∧ lastOf domainAttr .domain (attributes text) = some c.domain ∧
      cookieDomainMatch host c.domain ∧ ¬ cookiePublicSuffix c.domain)
  path : pathOf text path = some c.path
  secure : c.secure = carries .secure text
  httpOnly : c.httpOnly = carries .httpOnly text
  samesite : c.samesite = sameSiteOf text
  expiry : (c.persistent, c.expires) = expiryOf ((attributes text).foldl readAttr {}) setAt

theorem cookieDomain_cases {a : Attrs} {domain : List UInt8} {hostOnly : Bool}
    (h : cookieDomain a (lowerStr host) = some (domain, hostOnly)) :
    (hostOnly ∧ domain = lowerStr host) ∨ (¬ hostOnly ∧ a.domain = some domain ∧
      cookieDomainMatch host domain ∧ ¬ cookiePublicSuffix domain) := by
  unfold cookieDomain at h
  cases hd : a.domain with
  | none =>
    simp only [hd] at h
    split at h
    · cases h
      exact .inl ⟨rfl, rfl⟩
    · cases h
  | some d =>
    simp only [hd] at h
    split at h
    · split at h
      · cases h
        exact .inl ⟨rfl, rfl⟩
      · cases h
    · rename_i hsuffix
      split at h
      · rename_i hmatch
        cases h
        rw [cookieDomainMatch_lowerStr] at hmatch
        exact .inr ⟨Bool.false_ne_true, rfl, hmatch, hsuffix⟩
      · cases h

theorem readSetCookie_reads (h : readSetCookie text host path setAt = some c) :
    Reads text host path setAt c ∧ c.created = setAt := by
  unfold readSetCookie at h
  split at h
  · cases h
  obtain ⟨pair, hpair, h⟩ := Option.bind_eq_some_iff.mp h
  split at h
  · cases h
  obtain ⟨domain, hdomain, h⟩ := Option.bind_eq_some_iff.mp h
  obtain ⟨cpath, hpath, h⟩ := Option.bind_eq_some_iff.mp h
  cases h
  have hd := cookieDomain_cases hdomain
  rw [readAttrs_eq] at hd hpath
  refine ⟨⟨hpair, hd, hpath, ?_, ?_, ?_, rfl⟩, rfl⟩
  all_goals rw [readAttrs_eq]

def Call.cookie : Call → Option Cookie
  | .set text host path now => readSetCookie text host path now
  | _ => none

/-- An accepted `Set-Cookie` for the name, domain and path of `c`. -/
def Call.Sets (call : Call) (c : Cookie) : Prop := ∃ c0, call.cookie = some c0 ∧ c0.key = c.key

/-- `c` was stored by the last accepted `Set-Cookie` for its name, domain and path. -/
def Stems (calls : List Call) (c : Cookie) : Prop :=
  ∃ before text host path setAt after, calls = before ++ .set text host path setAt :: after ∧
    (∃ c0, readSetCookie text host path setAt = some c0 ∧ ¬ c0.expiredAt setAt ∧
      c = { c0 with created := c.created, accessed := c.accessed }) ∧
    ∀ call ∈ after, ¬ call.Sets c

theorem Stems.append (h : Stems calls c) {call : Call} (hcall : ¬ call.Sets c) :
    Stems (calls ++ [call]) c := by
  obtain ⟨before, text, host, path, setAt, after, rfl, hset, hlast⟩ := h
  refine ⟨before, text, host, path, setAt, after ++ [call], by simp, hset, fun k hk => ?_⟩
  obtain hk | hk := mem_append.mp hk
  · exact hlast k hk
  · rw [mem_singleton.mp hk]
    exact hcall

def Call.time : Call → Int
  | .set _ _ _ now => now
  | .expire now => now
  | .header q => q.now

/-- The creation time of `c` is that of an accepted `Set-Cookie` for its name, domain and path. -/
def Born (calls : List Call) (c : Cookie) : Prop :=
  ∃ call ∈ calls, call.Sets c ∧ call.time = c.created

structure Kept (calls : List Call) (j : Jar) : Prop where
  unique : (j.map Cookie.key).Nodup
  stems : ∀ c ∈ j, Stems calls c
  born : ∀ c ∈ j, Born calls c

theorem Kept.sublist {j' : Jar} (h : Kept calls j) (hs : j'.Sublist j) : Kept calls j' :=
  ⟨h.unique.sublist (hs.map _), fun c hc => h.stems c (hs.subset hc),
    fun c hc => h.born c (hs.subset hc)⟩

theorem Kept.append (h : Kept calls j) {call : Call} (hcall : ∀ c ∈ j, ¬ call.Sets c) :
    Kept (calls ++ [call]) j := by
  refine ⟨h.unique, fun c hc => (h.stems c hc).append (hcall c hc), fun c hc => ?_⟩
  obtain ⟨k, hk, hborn⟩ := h.born c hc
  exact ⟨k, mem_append_left _ hk, hborn⟩

theorem jarEvictOne_sublist (j : Jar) (domain : Option (List UInt8)) :
    (jarEvictOne j domain).Sublist j := by
  unfold jarEvictOne
  split
  · exact List.Sublist.refl j
  · exact erase_sublist

theorem evictWhile_sublist (full : Jar → Bool) (domain : Option (List UInt8)) (n : Nat) (j : Jar) :
    (evictWhile full domain n j).Sublist j := by
  induction n generalizing j with
  | zero => exact List.Sublist.refl j
  | succ n ih =>
    unfold evictWhile
    split
    · exact (ih _).trans (jarEvictOne_sublist j domain)
    · exact List.Sublist.refl j

theorem jarFind_spec {c0 : Cookie} (h : jarFind j c.name c.domain c.path = some c0) :
    c0 ∈ j ∧ c0.key = c.key := by
  have hp : c0.is c.name c.domain c.path :=
    find?_some (p := fun c1 : Cookie => c1.is c.name c.domain c.path) h
  exact ⟨mem_of_find?_eq_some h, (is_iff c0 c).mp hp⟩

theorem jarRemove_spec (h : (j.map Cookie.key).Nodup) (c : Cookie) :
    (jarRemove j c.name c.domain c.path).Sublist j ∧
      ∀ c' ∈ jarRemove j c.name c.domain c.path, c'.key ≠ c.key := by
  unfold jarRemove
  cases hf : jarFind j c.name c.domain c.path with
  | none =>
    refine ⟨List.Sublist.refl j, fun c' hc' hkey => ?_⟩
    exact find?_eq_none.mp hf c' hc' ((is_iff c' c).mpr hkey)
  | some c0 =>
    refine ⟨erase_sublist, fun c' hc' hkey => ?_⟩
    have hnodup : j.Nodup := List.Nodup.of_map _ h
    obtain ⟨hne, hmem⟩ := (List.Nodup.mem_erase_iff hnodup).mp hc'
    obtain ⟨hmem0, hkey0⟩ := jarFind_spec hf
    exact hne (inj_on_of_nodup_map h hmem hmem0 (hkey.trans hkey0.symm))

theorem jarStore_spec (h : (j.map Cookie.key).Nodup) (c : Cookie) :
    ∃ rest created, rest.Sublist j ∧ (∀ c' ∈ rest, c'.key ≠ c.key) ∧
      (created = c.created ∨ ∃ old ∈ j, old.key = c.key ∧ old.created = created) ∧
      ((jarStore j c).2 = rest ∨ (jarStore j c).2 = { c with created := created } :: rest) := by
  obtain ⟨hsub, hkey⟩ := jarRemove_spec h c
  unfold jarStore
  simp only
  generalize jarRemove j c.name c.domain c.path = j1 at hsub hkey ⊢
  have hsub2 := evictWhile_sublist
    (fun j => COOKIE_PER_DOMAIN_MAX ≤ jarDomainCount j c.domain) (some c.domain) j1.length j1
  generalize evictWhile (fun j => COOKIE_PER_DOMAIN_MAX ≤ jarDomainCount j c.domain)
    (some c.domain) j1.length j1 = j2 at hsub2 ⊢
  have hsub3 := (evictWhile_sublist (Jar.full c) none j2.length j2).trans hsub2
  generalize evictWhile (Jar.full c) none j2.length j2 = j3 at hsub3 ⊢
  refine ⟨j3, ((jarFind j c.name c.domain c.path).map Cookie.created).getD c.created,
    hsub3.trans hsub, fun c' hc' => hkey c' (hsub3.subset hc'), ?_, ?_⟩
  · cases hf : jarFind j c.name c.domain c.path with
    | none => exact .inl rfl
    | some old =>
      obtain ⟨hmem, hk⟩ := jarFind_spec hf
      exact .inr ⟨old, hmem, hk, rfl⟩
  · split
    · exact .inl rfl
    · exact .inr rfl

theorem cookieSet_kept (h : Kept calls j) (text host path : List UInt8) (now : Int) :
    Kept (calls ++ [.set text host path now]) (cookieSet j text host path now).2 := by
  unfold cookieSet
  cases hr : readSetCookie text host path now with
  | none =>
    refine h.append fun c _ hset => ?_
    obtain ⟨c0, hc0, -⟩ := hset
    rw [Call.cookie, hr] at hc0
    cases hc0
  | some c0 =>
    -- The other cookies have other keys, so this call does not set them.
    have hothers : ∀ {rest : Jar}, rest.Sublist j → (∀ c ∈ rest, c.key ≠ c0.key) →
        Kept (calls ++ [.set text host path now]) rest := by
      intro rest hsub hkey
      refine (h.sublist hsub).append fun c hc hset => ?_
      obtain ⟨c1, hc1, hk⟩ := hset
      rw [Call.cookie, hr] at hc1
      cases hc1
      exact hkey c hc hk.symm
    simp only
    split
    · obtain ⟨hsub, hkey⟩ := jarRemove_spec h.unique c0
      exact hothers hsub hkey
    rename_i halive
    obtain ⟨rest, created, hsub, hkey, hcreated, hstore⟩ := jarStore_spec h.unique c0
    have hrest := hothers hsub hkey
    obtain heq | heq := hstore
    · rw [heq]
      exact hrest
    rw [heq]
    refine ⟨?_, fun c hc => ?_, fun c hc => ?_⟩
    · refine nodup_cons.mpr ⟨fun hmem => ?_, hrest.unique⟩
      obtain ⟨c, hc, hk⟩ := mem_map.mp hmem
      exact hkey c hc hk
    · obtain rfl | hc := mem_cons.mp hc
      · exact ⟨calls, text, host, path, now, [], rfl, ⟨c0, hr, halive, rfl⟩, by simp⟩
      · exact hrest.stems c hc
    obtain rfl | hc := mem_cons.mp hc
    · have hself : (Call.set text host path now).Sets { c0 with created := created } :=
        ⟨c0, hr, rfl⟩
      obtain hnow | ⟨old, hold, hk, ht⟩ := hcreated
      · refine ⟨_, mem_append_right _ (mem_singleton.mpr rfl), hself, ?_⟩
        exact ((readSetCookie_reads hr).2.symm).trans hnow.symm
      · obtain ⟨call, hcall, ⟨c1, hc1, hk1⟩, htime⟩ := h.born old hold
        exact ⟨call, mem_append_left _ hcall, ⟨c1, hc1, hk1.trans hk⟩, htime.trans ht⟩
    · exact hrest.born c hc

theorem Kept.used (h : Kept calls j) (sent : List Cookie) (now : Int) :
    Kept calls (j.map fun c => if c ∈ sent then { c with accessed := now } else c) := by
  have hkey : ∀ c : Cookie, (if c ∈ sent then { c with accessed := now } else c).key = c.key := by
    intro c
    split <;> rfl
  refine ⟨?_, fun c hc => ?_, fun c hc => ?_⟩
  · rw [map_map]
    have hcomp : Cookie.key ∘ (fun c => if c ∈ sent then { c with accessed := now } else c) =
        Cookie.key := funext hkey
    rw [hcomp]
    exact h.unique
  · obtain ⟨c1, hc1, rfl⟩ := mem_map.mp hc
    obtain ⟨before, text, host, path, setAt, after, hcalls, ⟨c0, hr, halive, heq⟩, hlast⟩ :=
      h.stems c1 hc1
    refine ⟨before, text, host, path, setAt, after, hcalls, ⟨c0, hr, halive, ?_⟩, ?_⟩
    · split <;> rw [heq]
    intro call hcall hset
    obtain ⟨c2, hc2, hk⟩ := hset
    exact hlast call hcall ⟨c2, hc2, hk.trans (hkey c1)⟩
  · obtain ⟨c1, hc1, rfl⟩ := mem_map.mp hc
    obtain ⟨call, hcall, ⟨c2, hc2, hk⟩, htime⟩ := h.born c1 hc1
    refine ⟨call, hcall, ⟨c2, hc2, hk.trans (hkey c1).symm⟩, htime.trans ?_⟩
    split <;> rfl

theorem cookieHeader_kept (h : Kept calls j) (q : Query) : Kept calls (cookieHeader j q).2 := by
  unfold cookieHeader
  cases headerOf j q with
  | none => exact h
  | some r => exact h.used r.2 q.now

theorem step_kept (h : Kept calls j) (call : Call) : Kept (calls ++ [call]) (step j call) := by
  have hnone : call.cookie = none → ∀ c, ¬ call.Sets c := by
    intro hc c hset
    obtain ⟨c0, hc0, -⟩ := hset
    rw [hc] at hc0
    cases hc0
  cases call with
  | set text host path now => exact cookieSet_kept h text host path now
  | expire now => exact (h.sublist filter_sublist).append fun c _ => hnone rfl c
  | header q => exact (cookieHeader_kept h q).append fun c _ => hnone rfl c

theorem jarAfter_kept (calls : List Call) : Kept calls (jarAfter calls) := by
  induction calls using reverseRecOn with
  | nil => exact ⟨nodup_nil, nofun, nofun⟩
  | append_singleton calls call ih =>
    rw [jarAfter, Machine.run_append]
    exact step_kept ih call

def headerText : List Cookie → List UInt8
  | [] => []
  | c :: cs => c.pair ++ cs.flatMap fun c => [0x3b, 0x20] ++ c.pair

theorem pair_ne_nil (c : Cookie) : c.pair ≠ [] := by simp [Cookie.pair]

theorem emitLoop_more (outsz : Nat) (cs : List Cookie) (hout : out ≠ []) :
    (emitLoop outsz cs out).2 <+: cs ∧ (emitLoop outsz cs out).1 =
      out ++ (emitLoop outsz cs out).2.flatMap fun c => [0x3b, 0x20] ++ c.pair := by
  induction cs generalizing out with
  | nil => exact ⟨prefix_refl _, (append_nil out).symm⟩
  | cons c cs ih =>
    unfold emitLoop
    simp only [if_neg hout]
    split
    · exact ⟨ nil_prefix, (append_nil out).symm⟩
    obtain ⟨hpre, htext⟩ := @ih (out ++ ([0x3b, 0x20] ++ c.pair)) (by simp)
    refine ⟨prefix_cons_inj c |>.mpr hpre, htext.trans ?_⟩
    rw [flatMap_cons, append_assoc]

theorem emitLoop_text (outsz : Nat) (cs : List Cookie) : (emitLoop outsz cs []).2 <+: cs ∧
      (emitLoop outsz cs []).1 = headerText (emitLoop outsz cs []).2 := by
  cases cs with
  | nil => exact ⟨prefix_refl _, rfl⟩
  | cons c cs =>
    unfold emitLoop
    simp only [if_true, nil_append]
    split
    · exact ⟨ nil_prefix, rfl⟩
    · obtain ⟨hpre, htext⟩ := emitLoop_more outsz cs (pair_ne_nil c)
      exact ⟨prefix_cons_inj c |>.mpr hpre, htext⟩

theorem sendsBefore_iff (c best : Cookie) : sendsBefore c best ↔ best.path.length < c.path.length ∨
    (c.path.length = best.path.length ∧ c.created < best.created) := by
  simp only [sendsBefore, decide_eq_true_eq]

theorem headerOf_spec {sent : List Cookie} (h : headerOf j q = some (out, sent)) :
    out = headerText sent ∧ (sent.Pairwise fun c c' => ¬ sendsBefore c' c) ∧
      ∀ c ∈ sent, c ∈ j ∧ picks q c := by
  unfold headerOf at h
  split at h
  · cases h
  split at h
  · cases h
    exact ⟨rfl, List.Pairwise.nil, nofun⟩
  have hr := Option.some.inj h
  obtain ⟨hpre, htext⟩ := emitLoop_text q.outsz (selectionSort sendsBefore
    ((j.filter (picks q)).take SEND_MAX).length ((j.filter (picks q)).take SEND_MAX))
  rw [hr] at hpre htext
  refine ⟨htext, ?_, fun c hc => ?_⟩
  · refine List.Pairwise.sublist hpre.sublist (selectionSort_pairwise ?_ ?_ _ _ (Nat.le_refl _))
    · intro a b c hab hbc
      rw [sendsBefore_iff] at hab hbc ⊢
      omega
    intro a ha
    rw [sendsBefore_iff] at ha
    omega
  · have hmem := (selectionSort_perm sendsBefore _ _).mem_iff.mp (hpre.subset hc)
    exact mem_filter.mp (mem_of_mem_take hmem)

/-- `c` may be sent: the last accepted `Set-Cookie` for its name, domain and path lets it. -/
def Entitled (calls : List Call) (q : Query) (c : Cookie) : Prop :=
  ∃ before text host path setAt after, calls = before ++ .set text host path setAt :: after ∧
    (Call.set text host path setAt).Sets c ∧ (∀ call ∈ after, ¬ call.Sets c) ∧
    Grants text host path setAt q c

theorem mem_of_mem_trimmed {b : UInt8} {s : List UInt8} (h : b ∈ stripCtl (trimBlanks s)) :
    b ∈ s := by
  have h1 := mem_of_mem_filter h
  have h2 := (dropWhile_sublist _).subset (mem_reverse.mp h1)
  exact (dropWhile_sublist _).subset (mem_reverse.mp h2)

theorem semicolon_not_mem_pair (h : nameValue text = some (c.name, c.value)) : 0x3b ∉ c.pair := by
  have hhead : 0x3b ∉ (fields 0x3b text).headD [] := by
    cases hf : fields 0x3b text with
    | nil => exact not_mem_nil
    | cons f fs => exact not_mem_of_mem_fields (hf ▸ mem_cons_self)
  have hcut := cut_append 0x3d ((fields 0x3b text).headD [])
  unfold nameValue at h
  obtain ⟨v, hv, heq⟩ := Option.map_eq_some_iff.mp h
  obtain ⟨hname, hvalue⟩ := Prod.mk.inj heq
  rw [hv] at hcut
  rw [← hcut] at hhead
  intro hmem
  rw [Cookie.pair, ← hname, ← hvalue] at hmem
  obtain hmem | hmem := mem_append.mp hmem
  · obtain hmem | hmem := mem_append.mp hmem
    · exact hhead (mem_append_left _ (mem_of_mem_trimmed hmem))
    · exact absurd (mem_singleton.mp hmem) (by decide)
  · refine hhead (mem_append_right _ ?_)
    exact mem_cons_of_mem _ (mem_of_mem_trimmed hmem)

theorem Reads.grants (h : Reads text host path setAt c) (hd : Dated text setAt)
    (hset : ¬ c.expiredAt setAt) (hpick : picks q c) : Grants text host path setAt q c := by
  simp only [picks, decide_eq_true_eq] at hpick
  obtain ⟨halive, hhost, hpath, hsecure, hhttp, hsame⟩ := hpick
  refine ⟨h.pair, ?_, ⟨c.path, h.path, hpath⟩, ?_, ?_, ?_, ?_⟩
  · obtain ⟨honly, hdom⟩ | ⟨honly, hlast, hmatch, hsuffix⟩ := h.domain
    · rw [if_pos honly, hdom, ciEq_iff, lowerStr_lowerStr, lowerStr_lowerStr] at hhost
      exact .inl (ciEq_iff.mpr hhost.symm)
    · rw [if_neg honly, cookieDomainMatch_lowerStr] at hhost
      exact .inr ⟨c.domain, hlast, hmatch, hhost, hsuffix⟩
  · simp only [Cookie.expiredAt, decide_eq_true_eq] at hset halive
    exact not_expired_of_expiryOf hd h.expiry hset halive
  · exact fun hs => hsecure (h.secure ▸ hs)
  · exact fun hs => hhttp (h.httpOnly ▸ hs)
  · rw [← h.samesite]
    exact hsame

theorem Stems.entitled (h : Stems calls c)
    (hdated : ∀ text host path setAt, Call.set text host path setAt ∈ calls → Dated text setAt)
    (hpick : picks q c) : Entitled calls q c := by
  obtain ⟨before, text, host, path, setAt, after, hcalls, ⟨c0, hr, halive, heq⟩, hlast⟩ := h
  generalize c.created = created, c.accessed = accessed at heq
  subst heq
  refine ⟨before, text, host, path, setAt, after, hcalls, ⟨c0, hr, rfl⟩, hlast, ?_⟩
  have hd : Dated text setAt := hdated text host path setAt (by rw [hcalls]; simp)
  obtain ⟨hreads, -⟩ := readSetCookie_reads hr
  have hg : Grants text host path setAt q c0 := hreads.grants hd halive hpick
  exact ⟨hg.pair, hg.host, hg.path, hg.alive, hg.secure, hg.httpOnly, hg.samesite⟩

/-- A header holds the pairs of cookies of the jar that may be sent, longer paths first and earlier
creation first among equal lengths; without semicolons of their own, the pairs can be told apart. -/
def SendsOnly (calls : List Call) (q : Query) : Prop :=
  ∀ out, (cookieHeader (jarAfter calls) q).1 = some out → ∃ sent, out = headerText sent ∧
    (∀ c ∈ sent, c ∈ jarAfter calls ∧ Entitled calls q c ∧ Born calls c ∧ 0x3b ∉ c.pair) ∧
    sent.Pairwise fun c c' => c'.path.length ≤ c.path.length ∧
      (c'.path.length = c.path.length → c.created ≤ c'.created)

theorem cookies_go_where_they_may (calls : List Call) (q : Query)
    (hdated : ∀ text host path setAt, Call.set text host path setAt ∈ calls → Dated text setAt) :
    SendsOnly calls q := by
  intro out hout
  have hkept := jarAfter_kept calls
  unfold cookieHeader at hout
  cases hh : headerOf (jarAfter calls) q with
  | none =>
    rw [hh] at hout
    cases hout
  | some r =>
    rw [hh] at hout
    obtain rfl : r.1 = out := Option.some.inj hout
    obtain ⟨htext, hsorted, hpicked⟩ := headerOf_spec hh
    refine ⟨r.2, htext, fun c hc => ?_, hsorted.imp fun {c c'} hn => ?_⟩
    · obtain ⟨hmem, hpick⟩ := hpicked c hc
      have hent := (hkept.stems c hmem).entitled hdated hpick
      refine ⟨hmem, hent, hkept.born c hmem, ?_⟩
      obtain ⟨_, text, host, path, setAt, _, _, _, _, hg⟩ := hent
      exact semicolon_not_mem_pair hg.pair
    · rw [sendsBefore_iff] at hn
      omega

def exampleQuery (now : Int) : Query :=
  ⟨ascii "Example.com", ascii "/a/b", true, true, .sameSite, now, 1024⟩

theorem cookies_go_where_they_may_for_a_minute :
    SendsOnly [.set (ascii "sid=abc; Path=/a; Max-Age=60") (ascii "example.com") (ascii "/") 1000]
      (exampleQuery 1059) := by
  apply cookies_go_where_they_may
  intro text host path setAt hmem
  cases mem_singleton.mp hmem
  have hage : lastOf ageOf .maxAge (attributes (ascii "sid=abc; Path=/a; Max-Age=60")) =
      some 60 := by
    decide +kernel
  rw [Dated, hage]
  exact fun _ => by decide

/-- A date before 1970 is read as no date, and the cookie that it should end never ends. -/
theorem expired_cookie_is_sent :
    ¬ SendsOnly [.set (ascii "sid=1; Expires=Wed, 31 Dec 1969 23:59:59 GMT") (ascii "example.com")
      (ascii "/") 1000000000] (exampleQuery 1000000001) := by
  intro h
  obtain ⟨sent, htext, hall, -⟩ := h (ascii "sid=1") (by decide +kernel)
  cases sent with
  | nil => cases htext
  | cons c cs =>
    obtain ⟨before, text, host, path, setAt, after, hcalls, -, -, hg⟩ :=
      (hall c mem_cons_self).2.1
    have hmem : Call.set text host path setAt ∈ before ++ Call.set text host path setAt :: after :=
      mem_append_right _ mem_cons_self
    rw [← hcalls] at hmem
    cases mem_singleton.mp hmem
    apply hg.alive
    have hage : lastOf ageOf .maxAge (attributes
        (ascii "sid=1; Expires=Wed, 31 Dec 1969 23:59:59 GMT")) = none := by decide +kernel
    have hdate : lastOf parseDate .expires (attributes
        (ascii "sid=1; Expires=Wed, 31 Dec 1969 23:59:59 GMT")) = some (-1) := by decide +kernel
    rw [Expired, hage, hdate]
    decide

end KestrelOS.Cookies
