import KestrelOS.Http.Exchange

/-!
# Fetching a URL

`http_fetch`: the cache in front, a loop of exchanges that follows redirects, and what is done
with the last response. Each round of the loop is one step from one hop to the next or to the end.
-/

namespace KestrelOS.Http

variable {σ J K : Type} (net : Net σ) (stores : Stores J K)

def httpRedirectMax : Nat := 10
def httpCacheEntryMax : Nat := 1024 * 1024

def fnv1a (s : List UInt8) : Nat :=
  s.foldl (fun h c => (h ^^^ c.toNat) * 1099511628211 % 2 ^ 64) 1469598103934665603

def methodCacheable (m : List UInt8) : Bool := ciEq m (ascii "GET") || ciEq m (ascii "HEAD")

/-- The method after a redirect, and whether the body is dropped. -/
def rewriteMethod (status : Nat) (method : List UInt8) : List UInt8 × Bool :=
  if status = 307 ∨ status = 308 then (method, false)
  else if ciEq method (ascii "HEAD") then (ascii "HEAD", false)
  else if status = 303 then (ascii "GET", true)
  else if ciEq method (ascii "GET") then (ascii "GET", false)
  else (ascii "GET", true)

def absorbCookies (h : Hop) : StProg (Ex σ J K) Unit := fun s =>
  match s.jar with
  | some jar =>
    if h.req.flags.noCookies then ((), s)
    else
      let now := net.nowSec s.wire.env
      let jar := (headerValues s.res.headers (ascii "Set-Cookie")).foldl
        (fun jar v => stores.cookieSet jar v h.u.host h.u.path (isSecure h.u) now.1) jar
      ((), { s with jar := some jar, wire := { s.wire with env := now.2 } })
  | none => ((), s)

structure Hops where
  hop : Hop
  hops : Nat
  seen : List Nat
  hadCacheEntry : Bool

/-- What stays the same for all hops: the cache key, whether the cache may be used, and the time
of the request. -/
structure Plan where
  key : List UInt8
  cacheable : Bool
  now : Int

inductive Next
  | follow (hops : Hops)
  | done (cached : Bool)
  | fail (e : HttpErr)

def normalFlags : UrlFlags := { port := true, dots := true, pct := false, emptyPath := true }

def redirectTarget (cur : Url) (loc : List UInt8) : Except HttpErr Url :=
  match urlParse loc with
  | .error _ => .error .redir
  | .ok ref =>
    match urlResolve cur ref true with
    | .error _ => .error .redir
    | .ok next =>
      let next := urlNormalize next normalFlags
      if !next.hasScheme || !next.hasAuthority || next.host.isEmpty then .error .redir else .ok next

/-- The output as it is before the next hop. The sink keeps what it was given. -/
def BodyOut.restart (o : BodyOut) : BodyOut :=
  { o with teeOn := false, total := 0, mem := { o.mem with data := [] }
           tee := hbInit httpCacheEntryMax }

def follow (left : Nat) (hs : Hops) (loc : List UInt8) : StProg (Ex σ J K) Next := fun s =>
  if left = 0 then (.fail .redir, s)
  else
    match redirectTarget hs.hop.u loc with
    | .error e => (.fail e, s)
    | .ok next =>
      let (method, drop) := rewriteMethod s.res.status hs.hop.method
      let req := if drop then { hs.hop.req with body := [], contentType := none } else hs.hop.req
      (.follow {
          hop := { method, u := next, req, condEtag := none, condLm := none }
          hops := hs.hops + 1, seen := hs.seen, hadCacheEntry := false },
        { s with out := s.out.restart, res := { HttpResponse.zero with redirects := hs.hops + 1 } })

/-- Hand a stored body to the sink, whose answer is not asked for. -/
def sinkStored (sink : Option Nat) (body : Option (List UInt8)) : StProg (Wire σ) Unit := fun w =>
  match sink, body with
  | some user, some (c :: d) =>
    ((), w.record (net.sink user (c :: d) w.env).2 (.sunk (c :: d)))
  | _, _ => ((), w)

def reuseEntry (plan : Plan) (k : K) : StProg (Ex σ J K) Next := fun s =>
  let k := stores.cacheRefresh k plan.key (untilNul s.raw.data) plan.now
  let redirects := s.res.redirects
  match stores.cacheFill k plan.key with
  | .error e => (.fail e, { s with cache := some k, res := HttpResponse.zero })
  | .ok res =>
    (.done true, { s with
      cache := some k, res := { res with redirects, fromCache := true }
      wire := (sinkStored net s.out.sink res.body s.wire).2 })

def keepEntry (plan : Plan) (hs : Hops) (url : List UInt8) : StProg (Ex σ J K) Unit :=
  StProg.modify fun s =>
    match s.cache with
    | none => s
    | some k =>
      if plan.cacheable && s.out.teeOn && s.res.status != 304 then
        { s with cache := some (stores.cacheStore k plan.key s.res.status (untilNul s.raw.data)
            s.out.tee.data plan.now hs.hop.method) }
      else if !methodCacheable hs.hop.method then
        { s with
          cache := some (stores.cacheInvalidate k ((ascii "GET " ++ url).take (urlMax + 15))) }
      else s

def afterExchange (plan : Plan) (left : Nat) (hs : Hops) (url : List UInt8) :
    StProg (Ex σ J K) Next := do
  absorbCookies net stores hs.hop
  let s ← StProg.get
  let loc := headerGet s.res.headers (ascii "Location")
  if isRedirect s.res.status && !hs.hop.req.flags.noRedirect then
    match loc with
    | some (c :: loc) => follow left hs (c :: loc)
    | _ => return .done false
  else if s.res.status = 304 ∧ hs.hadCacheEntry then
    match s.cache with
    | some k => reuseEntry net stores plan k
    | none => return .fail .inval
  else do
    keepEntry stores plan hs url
    return .done false

def Hops.visit (hs : Hops) (h : Nat) : Hops :=
  { hs with seen := if hs.seen.length < httpRedirectMax + 2 then hs.seen ++ [h] else hs.seen }

/-- One round: at most `left` redirects may still be followed. -/
def hopStep (plan : Plan) (left : Nat) (hs : Hops) : StProg (Ex σ J K) Next := do
  match urlSerialize hs.hop.u urlMax with
  | .error _ => return .fail .url
  | .ok url =>
    if hs.seen.contains (fnv1a url) then return .fail .loop
    StProg.modify fun s => { s with raw := hbInit httpHeadersMax }
    match ← exchange net stores hs.hop with
    | .error e => return .fail e
    | .ok () => afterExchange net stores plan left (hs.visit (fnv1a url)) url

def afterRound (plan : Plan) (left : Nat) (hs : Hops) (url : List UInt8) :
    Except HttpErr Unit → Ex σ J K → Next × Ex σ J K
  | .error e, s => (.fail e, s)
  | .ok (), s => afterExchange net stores plan left (hs.visit (fnv1a url)) url s

inductive Rounded (plan : Plan) (left : Nat) (hs : Hops) (s : Ex σ J K) : Next × Ex σ J K → Prop
  | unsent (e : HttpErr) (hno : ∀ url, urlSerialize hs.hop.u urlMax = .ok url →
      hs.seen.contains (fnv1a url) ≠ false) : Rounded plan left hs s (.fail e, s)
  | sent (url : List UInt8) (r : Except HttpErr Unit) (s' : Ex σ J K)
      (hurl : urlSerialize hs.hop.u urlMax = .ok url) (hseen : hs.seen.contains (fnv1a url) = false)
      (hex : exchange net stores hs.hop { s with raw := hbInit httpHeadersMax } = (r, s')) :
      Rounded plan left hs s (afterRound net stores plan left hs url r s')

theorem hopStep_rounded (plan : Plan) (left : Nat) (hs : Hops) (s : Ex σ J K) :
    Rounded net stores plan left hs s (hopStep net stores plan left hs s) := by
  unfold hopStep
  cases hurl : urlSerialize hs.hop.u urlMax with
  | error e => exact .unsent _ fun url h => by cases hurl.symm.trans h
  | ok url =>
    simp only [StProg.cond_apply, StProg.pure_apply, StProg.bind_apply]
    split
    · rename_i hseen
      refine .unsent _ fun url' h => ?_
      cases hurl.symm.trans h
      exact ne_false_of_eq_true hseen
    · rename_i hseen
      obtain ⟨⟨r, s'⟩, hex⟩ :
          ∃ r, exchange net stores hs.hop { s with raw := hbInit httpHeadersMax } = r := ⟨_, rfl⟩
      have hsent : Rounded net stores plan left hs s _ :=
        .sent url r s' hurl (Bool.not_eq_true _ ▸ hseen) hex
      rw [hex]
      cases r <;> exact hsent

def complete (hs : Hops) (cached : Bool) : StProg (Ex σ J K) (Except HttpErr Unit) := fun s =>
  let body := if cached then s.res.body
    else if s.out.sink.isNone then some s.out.mem.data else s.res.body
  match urlSerialize hs.hop.u urlMax with
  | .error _ => (.error .url, { s with res := HttpResponse.zero })
  | .ok url =>
    (.ok (), { s with res := { s.res with body, redirects := hs.hops, finalUrl := url } })

def fetchLoop (plan : Plan) : Nat → Hops → StProg (Ex σ J K) (Except HttpErr Unit)
  | left, hs => do
    match ← hopStep net stores plan left hs with
    | .fail e =>
      StProg.modify fun s => { s with res := HttpResponse.zero }
      return .error e
    | .done cached => complete hs cached
    | .follow hs =>
      match left with
      | 0 => return .error .redir
      | left + 1 => fetchLoop plan left hs

def startOut (req : HttpRequest) (teeOn : Bool) : BodyOut :=
  let max := if req.maxBody = 0 then httpBodyMax else req.maxBody
  { sink := req.sink, mem := hbInit max, tee := hbInit httpCacheEntryMax, teeOn, total := 0, max }

def HttpRequest.effectiveMethod (req : HttpRequest) : List UInt8 := req.method.getD (ascii "GET")

def maxHops (req : HttpRequest) : Nat :=
  min (if req.maxRedirects > 0 then req.maxRedirects else httpRedirectMax) httpRedirectMax

inductive Prepared
  | answered (rc : Except HttpErr Unit)
  | go (plan : Plan) (hops : Hops)

def firstHop (req : HttpRequest) (u : Url) (plan : Plan) (entry : Option (Option (List UInt8) ×
    Option (List UInt8))) : StProg (Ex σ J K) Prepared := fun s =>
  let etag := entry.bind fun e => e.1.map (List.take 255)
  let lm := entry.bind fun e => e.2.map (List.take 127)
  let hop : Hop := { method := req.effectiveMethod, u, req, condEtag := etag, condLm := lm }
  (.go plan { hop, hops := 0, seen := [], hadCacheEntry := entry.isSome },
    { s with out := startOut req plan.cacheable, res := HttpResponse.zero })

def askCache (req : HttpRequest) (u : Url) (plan : Plan) (url : List UInt8) (k : K) :
    StProg (Ex σ J K) Prepared := fun s =>
  let (found, k) := stores.cacheLookup k plan.key plan.now
  let s := { s with cache := some k }
  match found with
  | .miss => firstHop req u plan none s
  | .stale etag lm => firstHop req u plan (some (etag, lm)) s
  | .fresh etag lm =>
    if req.flags.refresh then firstHop req u plan (some (etag, lm)) s
    else
      match stores.cacheFill k plan.key with
      | .error _ => firstHop req u plan none s
      | .ok res => (.answered (.ok ()), { s with
          res := { res with fromCache := true, finalUrl := url }
          wire := (sinkStored net req.sink res.body s.wire).2 })

def prepare (req : HttpRequest) : StProg (Ex σ J K) Prepared := fun s =>
  match urlParse req.url with
  | .error _ => (.answered (.error .url), { s with res := HttpResponse.zero })
  | .ok u =>
    if !u.hasScheme || !u.hasAuthority || u.host.isEmpty then
      (.answered (.error .url), { s with res := HttpResponse.zero })
    else
      let u := urlNormalize u normalFlags
      let now := net.nowSec s.wire.env
      let s := { s with wire := { s.wire with env := now.2 } }
      match urlSerialize u urlMax with
      | .error _ => (.answered (.error .url), { s with res := HttpResponse.zero })
      | .ok url =>
        let key := (req.effectiveMethod ++ ascii " " ++ url).take (urlMax + 15)
        let cacheable := s.cache.isSome && methodCacheable req.effectiveMethod && !req.flags.noCache
        let plan : Plan := { key, cacheable, now := now.1 }
        match s.cache with
        | some k =>
          if cacheable then askCache net stores req u plan url k s else firstHop req u plan none s
        | none => firstHop req u plan none s

def httpFetch (req : HttpRequest) : StProg (Ex σ J K) (Except HttpErr Unit) := do
  match ← prepare net stores req with
  | .answered rc => return rc
  | .go plan hops => fetchLoop net stores plan (maxHops req) hops

def Ex.new (jar : Option J) (cache : Option K) (agent : List UInt8) (env : σ) : Ex σ J K where
  pool := fun _ => HConn.zero
  jar := jar
  cache := cache
  agent := agent
  wire := { env, log := [] }
  raw := hbInit httpHeadersMax
  res := HttpResponse.zero
  out := { sink := none, mem := hbInit 0, tee := hbInit 0, teeOn := false, total := 0, max := 0 }

def bareStores : Stores Unit Unit where
  inflate := none
  cookieHeader _ _ _ _ _ := []
  cookieSet _ _ _ _ _ _ := ()
  cacheLookup _ _ _ := (.miss, ())
  cacheFill _ _ := .error .inval
  cacheStore _ _ _ _ _ _ _ := ()
  cacheRefresh _ _ _ _ := ()
  cacheInvalidate _ _ := ()

def plainGet (url : String) : HttpRequest where
  method := some (ascii "GET")
  url := ascii url
  body := []
  contentType := none
  extraHeaders := []
  accept := none
  flags := {
    noCookies := false, noCache := false, noRedirect := false, noDecode := false
    noKeepalive := false, refresh := false }
  maxRedirects := 0
  connectTimeoutMs := 0
  headerTimeoutMs := 0
  bodyTimeoutMs := 0
  maxBody := 0
  sink := none
  onHeaders := none

end KestrelOS.Http
