import KestrelOS.Http.Cache
import Mathlib.Algebra.BigOperators.Group.List.Lemmas
import Mathlib.Data.List.Nodup

/-!
# The counters of the cache

`struct http_cache` counts its entries and their bytes as it goes. The counters are right whatever
is called; the bytes keep to the maximum as long as no revalidation lets an entry grow over it.
-/

namespace KestrelOS.Cache

open Function List Nat
open Http (ciEq)

variable {c : HttpCache} {e : Entry} {key : List UInt8}

private theorem key_of_cacheFind (h : cacheFind c key = some e) : e ∈ c.entries ∧ e.key = key := by
  have hkey := find?_some (p := fun e : Entry => decide (e.key = key)) h
  exact ⟨mem_of_find?_eq_some h, of_decide_eq_true hkey⟩

private theorem key_ne_of_invalidate (hkeys : (c.entries.map Entry.key).Nodup)
    (he : e ∈ (httpCacheInvalidate c key).entries) : e.key ≠ key := by
  unfold httpCacheInvalidate at he
  cases hf : cacheFind c key with
  | none =>
    rw [hf] at he
    have := find?_eq_none.mp hf e he
    simpa using this
  | some victim =>
    rw [hf] at he
    obtain ⟨hv, hkey⟩ := key_of_cacheFind hf
    have hne : e ≠ victim ∧ e ∈ c.entries := (hkeys.of_map.mem_erase_iff).mp he
    intro heq
    exact hne.1 (inj_on_of_nodup_map hkeys hne.2 hv (heq.trans hkey.symm))

private theorem map_key_update (c : HttpCache) (e : Entry) :
    (c.update e).entries.map Entry.key = c.entries.map Entry.key := by
  unfold HttpCache.update
  rw [map_map]
  refine map_congr_left fun e' _ => ?_
  dsimp only [comp_apply]
  split
  · rename_i heq
    exact heq.symm
  · rfl

private theorem key_of_entryOf {status : Nat} {raw body : List UInt8} {now : Int}
    (h : entryOf key status raw body now = some e) : e.key = key := by
  unfold entryOf at h
  dsimp only at h
  repeat' split at h
  all_goals cases h
  rfl

structure Counted where
  cache : HttpCache
  bytes : Nat
  count : Nat

namespace Counted

def new (maxBytes : Nat) : Counted := ⟨httpCacheNew maxBytes, 0, 0⟩

def unlink (s : Counted) : Option Entry → Counted
  | none => s
  | some e => ⟨cacheUnlink s.cache e, s.bytes - e.bytes, s.count - 1⟩

def invalidate (s : Counted) (key : List UInt8) : Counted := s.unlink (cacheFind s.cache key)

def evictWhile (need : Nat) : Nat → Counted → Counted
  | 0, s => s
  | n + 1, s =>
    if s.cache.max < s.bytes + need ∧ s.cache.entries ≠ [] then
      evictWhile need n (s.unlink (leastRecent s.cache.entries))
    else s

def insert (s : Counted) (e : Entry) : Counted :=
  if s.cache.max < s.bytes + e.bytes then s
  else ⟨{ s.cache with
    entries := { e with seq := s.cache.tick + 1 } :: s.cache.entries
    tick := s.cache.tick + 1 }, s.bytes + e.bytes, s.count + 1⟩

def store (s : Counted) (key : List UInt8) (status : Nat) (raw body : List UInt8) (now : Int)
    (method : Option (List UInt8)) : Counted :=
  if method.any (fun m => ¬ (ciEq m (ascii "GET") ∨ ciEq m (ascii "HEAD"))) ∨
      ¬ statusCacheable status ∨
      HTTP_CACHE_ENTRY_MAX < body.length ∨ s.cache.max < body.length ∨
      (rawGet (fields 0x0a raw) (ascii "Vary")).any (fun v => ¬ ciEq v (ascii "Accept-Encoding"))
  then s
  else
    let s := s.invalidate key
    match entryOf key status raw body now with
    | none => s
    | some e => (evictWhile e.bytes s.cache.entries.length s).insert e

def merged (e : Entry) (raw : List UInt8) : Entry :=
  { e with headers := (mergeHeaders e.headers raw).getD e.headers }

def step (s : Counted) : Call → Counted
  | .store key status raw body now method => s.store key status raw body now method
  | .lookup key now =>
    match cacheFind s.cache key with
    | none => s
    | some e =>
      let touched : Counted := { s with cache := touch s.cache e }
      if (httpCacheLookup s.cache key now).1 = .miss then touched.invalidate key else touched
  | .fill key => { s with cache := httpCacheFill s.cache key }
  | .refresh key raw now =>
    match cacheFind s.cache key with
    | none => s
    | some e => { s with
      cache := (httpCacheRefresh s.cache key raw now).2
      bytes := s.bytes - e.bytes + (merged e raw).bytes }
  | .invalidate key => s.invalidate key
  | .clear => ⟨httpCacheClear s.cache, 0, 0⟩

/-- The counters of a cache made with `maxBytes` are right and the keys differ. -/
structure Right (maxBytes : Nat) (s : Counted) : Prop where
  bytes : s.bytes = (s.cache.entries.map Entry.bytes).sum
  count : s.count = s.cache.entries.length
  keys : (s.cache.entries.map Entry.key).Nodup
  max : s.cache.max = (httpCacheNew maxBytes).max

def Within (maxBytes : Nat) (s : Counted) : Prop := s.bytes ≤ (httpCacheNew maxBytes).max

/-- There is room for all of a 304 that is for an entry; `merge_headers` adds two bytes. -/
def RefreshFits (s : Counted) : Call → Prop
  | .refresh key raw _ => cacheFind s.cache key ≠ none → s.bytes + raw.length + 2 ≤ s.cache.max
  | _ => True

instance (s : Counted) : (c : Call) → Decidable (s.RefreshFits c) := by
  rintro ⟨⟩ <;> delta RefreshFits <;> infer_instance

variable {s : Counted} {maxBytes : Nat} {e w : Entry} {key : List UInt8}

structure Shrunk (maxBytes : Nat) (s s' : Counted) : Prop where
  right : Right maxBytes s'
  less : s'.bytes ≤ s.bytes
  entries : s'.cache.entries.Sublist s.cache.entries

/-- The counters stay right, and the bytes within the maximum. -/
def Stays (maxBytes : Nat) (s s' : Counted) : Prop :=
  Right maxBytes s' ∧ (s.Within maxBytes → s'.Within maxBytes)

private theorem Shrunk.stays {s' : Counted} (h : Shrunk maxBytes s s') : Stays maxBytes s s' :=
  ⟨h.right, h.less.trans⟩

private theorem Shrunk.refl (h : Right maxBytes s) : Shrunk maxBytes s s := ⟨h, le_refl _, .refl _⟩

private theorem Right.unlink (h : Right maxBytes s) {victim : Option Entry}
    (hv : ∀ e ∈ victim, e ∈ s.cache.entries) : Shrunk maxBytes s (s.unlink victim) := by
  cases victim with
  | none => exact .refl h
  | some e =>
    have hsum := sum_map_erase Entry.bytes (hv e rfl)
    refine ⟨⟨?_, ?_, h.keys.sublist (erase_sublist.map _), h.max⟩, sub_le _ _, erase_sublist⟩
    · change s.bytes - e.bytes = _
      rw [h.bytes, ← hsum, Nat.add_sub_cancel_left]
      rfl
    change s.count - 1 = _
    rw [h.count]
    exact (length_erase_of_mem (hv e rfl)).symm

private theorem Right.invalidate (h : Right maxBytes s) (key : List UInt8) :
    Shrunk maxBytes s (s.invalidate key) :=
  h.unlink fun _ he => (key_of_cacheFind he).1

private theorem leastRecent_mem {entries : List Entry} (h : leastRecent entries = some e) :
    e ∈ entries := by
  suffices ∀ (v : Option Entry), entries.foldl (fun victim e => match victim with
      | none => some e
      | some v => if e.seq < v.seq then some e else victim) v = some e → v = some e ∨
      e ∈ entries from
    (this none h).resolve_left nofun
  clear h
  induction entries with
  | nil => exact fun v h => .inl h
  | cons x entries ih =>
    intro v h
    obtain hx | hx := ih _ h
    · grind
    · exact .inr (mem_cons_of_mem _ hx)

private theorem Right.evictWhile (h : Right maxBytes s) (need n : Nat) :
    Shrunk maxBytes s (evictWhile need n s) := by
  induction n generalizing s with
  | zero => exact .refl h
  | succ n ih =>
    unfold Counted.evictWhile
    split
    · have hone := h.unlink fun _ he => leastRecent_mem he
      have hrest := ih hone.right
      exact ⟨hrest.right, hrest.less.trans hone.less, hrest.entries.trans hone.entries⟩
    · exact .refl h

private theorem Right.insert (h : Right maxBytes s)
    (hkey : ∀ e' ∈ s.cache.entries, e'.key ≠ e.key) :
    Stays maxBytes s (s.insert e) := by
  unfold Counted.insert
  split
  · exact ⟨h, id⟩
  rename_i hfit
  refine ⟨⟨?_, congrArg (· + 1) h.count, nodup_cons.mpr ⟨fun hm => ?_, h.keys⟩, h.max⟩, fun _ => ?_⟩
  · change s.bytes + e.bytes = (_ :: _).sum
    rw [sum_cons, h.bytes, add_comm]
    rfl
  · obtain ⟨e', he', heq⟩ := mem_map.mp hm
    exact hkey e' he' heq
  · rw [Within, ← h.max]
    exact not_lt.mp hfit

private theorem Right.store (h : Right maxBytes s) {status : Nat} {raw body : List UInt8}
    {now : Int}
    {method : Option (List UInt8)} : Stays maxBytes s (s.store key status raw body now method) := by
  unfold Counted.store
  split
  · exact ⟨h, id⟩
  dsimp only
  have hinv := h.invalidate key
  split
  · exact hinv.stays
  rename_i e he
  have hev := hinv.right.evictWhile e.bytes (s.invalidate key).cache.entries.length
  have hcache : (s.invalidate key).cache = httpCacheInvalidate s.cache key := by
    unfold Counted.invalidate httpCacheInvalidate
    cases cacheFind s.cache key <;> rfl
  obtain ⟨hright, hwithin⟩ := hev.right.insert (e := e) fun e' he' => by
    rw [key_of_entryOf he]
    exact key_ne_of_invalidate h.keys (hcache ▸ hev.entries.subset he')
  exact ⟨hright, fun hw => hwithin (hev.less.trans (hinv.less.trans hw))⟩

private theorem sum_update {c : HttpCache} (hkeys : (c.entries.map Entry.key).Nodup)
    (he : e ∈ c.entries)
    (hkey : w.key = e.key) : ((c.update w).entries.map Entry.bytes).sum + e.bytes =
      (c.entries.map Entry.bytes).sum + w.bytes := by
  obtain ⟨l, r, hl⟩ := append_of_mem he
  have hne : ∀ x ∈ l ++ r, x.key ≠ w.key := by
    rw [hl, map_append, map_cons, nodup_middle, ← map_append] at hkeys
    intro x hx heq
    exact (nodup_cons.mp hkeys).1 (mem_map.mpr ⟨x, hx, heq.trans hkey⟩)
  have hmap : ∀ l' : List Entry, (∀ x ∈ l', x ∈ l ++ r) →
      l'.map (fun x => if x.key = w.key then w else x) = l' := fun l' hsub =>
    (map_congr_left fun x hx => if_neg (hne x (hsub x hx))).trans (map_id' l')
  rw [HttpCache.update, hl, map_append, map_cons, if_pos hkey.symm,
    hmap l fun _ => mem_append_left r, hmap r fun _ => mem_append_right l]
  simp only [map_append, map_cons, List.sum_append, sum_cons]
  omega

private theorem Right.touch (h : Right maxBytes s) (hf : cacheFind s.cache key = some e)
    (hkey : w.key = e.key) {bytes : Nat} (hb : bytes + e.bytes = s.bytes + w.bytes) :
    Right maxBytes ⟨touch s.cache w, bytes, s.count⟩ := by
  have hsum :=
    sum_update (w := { w with seq := s.cache.tick + 1 }) h.keys (key_of_cacheFind hf).1 hkey
  refine ⟨?_, h.count.trans (length_map _).symm, ?_, h.max⟩
  · rw [← h.bytes] at hsum
    exact add_right_cancel (hb.trans hsum.symm)
  · exact (map_key_update s.cache _).symm ▸ h.keys

private theorem textLen_append (ls ls' : Lines) :
    textLen (ls ++ ls') = textLen ls + textLen ls' := by
  simp [textLen]

/-- Both loops add a line only where the block keeps to its size. -/
private theorem textLen_mergeHeaders {base out : Lines} {raw : List UInt8}
    (h : mergeHeaders base raw = some out) : textLen out ≤ textLen base + raw.length + 2 := by
  unfold mergeHeaders at h
  dsimp only at h
  split at h
  · cases h
  cases h
  generalize textLen base + raw.length + 2 = cap
  have hone (l : List UInt8) : textLen [l] = l.length + 1 := by simp [textLen]
  refine foldlRecOn (motive := fun out => textLen out ≤ cap) _ _ ?_ fun out hout line _ => ?_
  · refine foldlRecOn (motive := fun out => textLen out ≤ cap) _ _
      (zero_le _) fun out hout line _ => ?_
    unfold mergeLine
    repeat' split
    all_goals first | exact hout | (rw [textLen_append, hone]; simp [ascii] at *; omega)
  · unfold addLine
    repeat' split
    all_goals first | exact hout | (rw [textLen_append, hone]; omega)

private theorem merged_bytes_le (e : Entry) (raw : List UInt8) :
    (merged e raw).bytes ≤ e.bytes + raw.length + 2 := by
  unfold merged Entry.bytes
  cases h : mergeHeaders e.headers raw with
  | none =>
    dsimp only [Option.getD_none]
    omega
  | some out =>
    have := textLen_mergeHeaders h
    dsimp only [Option.getD_some]
    omega

private theorem Right.step (h : Right maxBytes s) (c : Call) : Right maxBytes (s.step c) ∧
    (s.RefreshFits c → s.Within maxBytes → (s.step c).Within maxBytes) := by
  cases c with
  | store => exact h.store.imp_right fun hw _ => hw
  | lookup key now =>
    unfold Counted.step
    dsimp only
    split
    · exact ⟨h, fun _ => id⟩
    rename_i e hf
    have ht := h.touch hf rfl rfl
    split
    · exact (ht.invalidate key).stays.imp_right fun hw _ => hw
    · exact ⟨ht, fun _ => id⟩
  | fill key =>
    unfold Counted.step httpCacheFill
    dsimp only
    split
    · exact ⟨h, fun _ => id⟩
    · exact ⟨h.touch ‹_› rfl rfl, fun _ => id⟩
  | refresh key raw now =>
    unfold Counted.step httpCacheRefresh
    dsimp only
    cases hf : cacheFind s.cache key with
    | none => exact ⟨h, fun _ => id⟩
    | some e =>
      have hsum := sum_map_erase Entry.bytes (key_of_cacheFind hf).1
      rw [← h.bytes] at hsum
      have hb : s.bytes - e.bytes + (merged e raw).bytes + e.bytes =
          s.bytes + (merged e raw).bytes := by
        omega
      refine ⟨h.touch (w := { merged e raw with
        stored := now, fresh := _, etag := _, lastMod := _ }) hf rfl hb, fun hfits _ => ?_⟩
      have hgrown := merged_bytes_le e raw
      have hroom := hfits (by simp [hf])
      rw [Within, ← h.max]
      dsimp only
      omega
  | invalidate key => exact (h.invalidate key).stays.imp_right fun hw _ => hw
  | clear => exact ⟨⟨rfl, rfl, nodup_nil, h.max⟩, fun _ _ => zero_le _⟩

/-- The counters are right in every run, and in every run that has room for its revalidations the
bytes keep to the maximum. -/
theorem cache_counters_are_right (maxBytes : Nat) (calls : List Call) :
    Machine.Always step (Right maxBytes) calls (new maxBytes) ∧
      (Machine.Meets step RefreshFits calls (new maxBytes) →
        Machine.Always step (Within maxBytes) calls (new maxBytes)) := by
  have hnew : Right maxBytes (new maxBytes) := ⟨rfl, rfl, nodup_nil, rfl⟩
  refine ⟨Machine.always_of_invariant (fun s c h => (h.step c).1) (fun _ h => h) calls hnew,
    fun hm => ?_⟩
  exact Machine.always_of_keeps (I := fun s => Right maxBytes s ∧ s.Within maxBytes)
    (fun s c hfits h => ⟨(h.1.step c).1, (h.1.step c).2 hfits h.2⟩) (fun _ h => h.2) hm
    ⟨hnew, zero_le _⟩

def revalidated : List Call :=
  [.store (ascii "k") 200 (ascii "ETag: a\n") [] 0 none, .refresh (ascii "k") (ascii "X: y\n") 1,
    .lookup (ascii "k") 2]

theorem cache_counters_are_right_revalidated :
    Machine.Meets step RefreshFits revalidated (new 200) ∧
      Machine.Always step (Within 200) revalidated (new 200) := by
  have hmeets : Machine.Meets step RefreshFits revalidated (new 200) := by decide +kernel
  exact ⟨hmeets, (cache_counters_are_right 200 revalidated).2 hmeets⟩

def grown : List Call :=
  [.store (ascii "k") 200 (ascii "ETag: a\n") [] 0 none,
    .refresh (ascii "k") (ascii "X: 123456789\n") 1]

/-- The cache has room for the entry, and not for the field that the 304 adds. -/
theorem refreshed_entry_exceeds_maximum : ¬ Machine.Always step (Within 130) grown (new 130) := by
  intro h
  have hlast : 130 < (Machine.run step grown (new 130)).bytes := by decide +kernel
  exact not_le.mpr hlast h.2.2

end Counted

end KestrelOS.Cache
