import KestrelOS.Http.Body

/-!
# Body framing is exact

What a connection has buffered and what its transport still holds is one byte string, `Link.avail`;
each reader is described by what it takes from the front of that string, so the cuts of the
transport play no part above `hcFill`.
-/

namespace KestrelOS.Http

open StProg List Nat

variable {σ τ : Type} {net : Net σ}

/-- In the states that are reached, the transport of connection `ctx` returns the pieces one by one
and then ends. -/
structure Delivers (net : Net σ) (ctx : Nat) (reached : σ → Prop) (pieces : σ → List (List UInt8)) :
    Prop where
  data : ∀ s bs rest, reached s → pieces s = bs :: rest →
    (net.read ctx s).1 = .data bs ∧ pieces (net.read ctx s).2 = rest
  eof : ∀ s, reached s → pieces s = [] → (net.read ctx s).1 = .eof ∧ pieces (net.read ctx s).2 = []
  nowMs : ∀ s, reached s → pieces (net.nowMs s).2 = pieces s
  setTimeout : ∀ c ms s, reached s → pieces (net.setTimeout c ms s) = pieces s
  read_reached : ∀ s, reached s → reached (net.read ctx s).2
  nowMs_reached : ∀ s, reached s → reached (net.nowMs s).2
  setTimeout_reached : ∀ c ms s, reached s → reached (net.setTimeout c ms s)

def InTime (net : Net σ) (reached : σ → Prop) (deadline : Nat) : Prop :=
  ∀ s, reached s → (net.nowMs s).1 < deadline

def Link.avail (pieces : σ → List (List UInt8)) (l : Link σ) : List UInt8 :=
  l.conn.buf ++ (pieces l.wire.env).flatten

structure Link.Ready (ctx : Nat) (reached : σ → Prop) (pieces : σ → List (List UInt8))
    (l : Link σ) :
    Prop where
  ctx_eq : l.conn.ctx = ctx
  sound : l.conn.broken = false
  ended : l.conn.eof = true → pieces l.wire.env = []
  live : reached l.wire.env

variable {ctx : Nat} {reached : σ → Prop} {pieces : σ → List (List UInt8)} {deadline : Nat}
  {l : Link σ}

theorem Delivers.flatten_le_left (hd : Delivers net ctx reached pieces) {s : σ} (hs : reached s) :
    (pieces s).flatten.length ≤ net.left s := by
  generalize hp : pieces s = p
  induction p generalizing s with
  | nil => simp
  | cons bs rest ih =>
    obtain ⟨hread, hrest⟩ := hd.data s bs rest hs hp
    have hleft := (net.read_data ctx s bs hread).2.2
    have := ih (hd.read_reached s hs) hrest
    simp only [flatten_cons, length_append]
    omega

theorem Link.Ready.takeBuf (hl : l.Ready ctx reached pieces) (n : Nat) :
    (takeBuf n l).2.Ready ctx reached pieces := ⟨hl.ctx_eq, hl.sound, hl.ended, hl.live⟩

theorem avail_takeBuf (l : Link σ) (n : Nat) :
    l.avail pieces = (takeBuf n l).1 ++ (takeBuf n l).2.avail pieces := by
  simp [takeBuf, Link.avail, ← append_assoc]

/-- A sink that records what it is handed, up to `limit` bytes, and leaves the transport alone. -/
structure Takes (reached : σ → Prop) (pieces : σ → List (List UInt8)) (fn : WireSink τ σ)
    (record : τ → List UInt8) (limit : Nat) : Prop where
  ok : ∀ d t w, (record t).length + d.length ≤ limit → (fn d (t, w)).1 = .ok ()
  record : ∀ d t w, (record t).length + d.length ≤ limit →
    record (fn d (t, w)).2.1 = record t ++ d
  pieces : ∀ d t w, reached w.env →
    reached (fn d (t, w)).2.2.env ∧ pieces (fn d (t, w)).2.2.env = pieces w.env

variable {fn : WireSink τ σ} {record : τ → List UInt8} {limit size : Nat} {r : Rx τ σ}
  {line rest digits ext : List UInt8}

theorem callSink_spec (hs : Takes reached pieces fn record limit) {r : Rx τ σ} {d : List UInt8}
    (hl : r.link.Ready ctx reached pieces) (hlim : (record r.out).length + d.length ≤ limit) :
    (callSink fn d r).1 = .ok () ∧ (callSink fn d r).2.link.Ready ctx reached pieces ∧
      (callSink fn d r).2.link.avail pieces = r.link.avail pieces ∧
      record (callSink fn d r).2.out = record r.out ++ d := by
  obtain ⟨hlive, hp⟩ := hs.pieces d r.out r.link.wire hl.live
  refine ⟨hs.ok _ _ _ hlim, ⟨hl.ctx_eq, hl.sound, fun h => ?_, hlive⟩, ?_, hs.record _ _ _ hlim⟩
  · exact hp.trans (hl.ended h)
  · exact congrArg (fun p => r.link.conn.buf ++ p.flatten) hp

theorem Link.Ready.avail_lt_rounds (hl : r.link.Ready ctx reached pieces)
    (hd : Delivers net ctx reached pieces) : (r.link.avail pieces).length < r.rounds net := by
  have := hd.flatten_le_left hl.live
  simp only [Link.avail, length_append, Rx.rounds]
  omega

/-- A chunk as a server writes it: the digits of its size, an extension, and its data. -/
structure Chunk where
  digits : List UInt8
  ext : List UInt8
  data : List UInt8

def hexValue (digits : List UInt8) : Nat :=
  digits.foldl (fun v c => 16 * v + (hexDigit c).getD 0) 0

def crlf : List UInt8 := [0x0d, 0x0a]

/-- A size line: hexadecimal digits and an extension that does not go on with a digit. -/
structure SizeLine (digits ext : List UInt8) (size : Nat) : Prop where
  nonempty : digits ≠ []
  hex : ∀ c ∈ digits, (hexDigit c).isSome
  value : hexValue digits = size
  ext_head : ∀ c ∈ ext.head?, hexDigit c = none
  no_newline : 0x0a ∉ ext
  fits : digits.length + ext.length + 2 ≤ httpLineMax

def Chunk.bytes (c : Chunk) : List UInt8 := c.digits ++ c.ext ++ crlf ++ c.data ++ crlf

structure Chunk.Ok (c : Chunk) : Prop where
  line : SizeLine c.digits c.ext c.data.length
  data_ne : c.data ≠ []
  data_lt : c.data.length ≤ ulMax

theorem shift_or_hexDigit {v d : Nat} {c : UInt8} (h : hexDigit c = some d) :
    v <<< 4 ||| d = 16 * v + d := by
  have hd : d < 2 ^ 4 := by
    simp only [hexDigit] at h
    split_ifs at h with h1 h2
    · have := UInt8.le_iff_toNat_le.mp h1.2
      simp at h this
      omega
    have := UInt8.le_iff_toNat_le.mp h2.2
    simp at h this
    omega
  rw [← shiftLeft_add_eq_or_of_lt hd, shiftLeft_eq]
  omega

theorem le_foldl_digits {b : Nat} (hb : 0 < b) (f : UInt8 → Nat) (v : Nat) :
    v ≤ digits.foldl (fun v c => b * v + f c) v := by
  induction digits generalizing v with
  | nil => exact Nat.le_refl v
  | cons c digits ih =>
    exact Nat.le_trans (Nat.le_add_right_of_le (Nat.le_mul_of_pos_left v hb)) (ih _)

theorem hexLoop_spec (hhex : ∀ c ∈ digits, (hexDigit c).isSome)
    (hext : ∀ c ∈ ext.head?, hexDigit c = none) (v : Nat)
    (hmax : digits.foldl (fun v c => 16 * v + (hexDigit c).getD 0) v ≤ ulMax) :
    hexLoop (digits ++ ext) v =
      some (digits.foldl (fun v c => 16 * v + (hexDigit c).getD 0) v) := by
  induction digits generalizing v with
  | nil =>
    cases ext with
    | nil => rfl
    | cons c ext => simp [hexLoop, hext c (by simp)]
  | cons c digits ih =>
    obtain ⟨d, hd⟩ := Option.isSome_iff_exists.mp (hhex c (by simp))
    simp only [foldl_cons, hd, Option.getD_some] at hmax ⊢
    have hmono := @le_foldl_digits digits 16 (by decide) (fun c => (hexDigit c).getD 0) (16 * v + d)
    have hfit : ¬ v > ulMax >>> 4 := by
      simp only [ulMax, shiftRight_eq_div_pow] at hmax ⊢
      omega
    simp only [cons_append, hexLoop, hd, if_neg hfit, shift_or_hexDigit hd]
    exact ih (fun e he => hhex e (by simp [he])) _ hmax

theorem untilNul_append_of_hex (hhex : ∀ c ∈ digits, (hexDigit c).isSome) (ext : List UInt8) :
    untilNul (digits ++ ext) = digits ++ untilNul ext := by
  induction digits with
  | nil => rfl
  | cons c digits ih =>
    have hc : c ≠ 0 := by
      rintro rfl
      exact absurd (hhex 0 (by simp)) (by decide)
    simp only [cons_append, untilNul, takeWhile_cons] at ih ⊢
    simp [hc, ih fun e he => hhex e (by simp [he])]

theorem SizeLine.parse (h : SizeLine digits ext size) (hmax : size ≤ ulMax) :
    parseHex (untilNul (digits ++ ext)) = some size := by
  rw [untilNul_append_of_hex h.hex, parseHex]
  have hhead : ∀ c ∈ (untilNul ext).head?, hexDigit c = none := by
    intro c hc
    refine h.ext_head c ?_
    cases ext with
    | nil => simp [untilNul] at hc
    | cons e es =>
      by_cases he : e = 0 <;> simp_all [untilNul]
  have hdig := hexLoop_spec h.hex hhead 0 (by rw [← h.value] at hmax; exact hmax)
  rw [hdig]
  obtain ⟨c, cs, hcs⟩ := exists_cons_of_ne_nil h.nonempty
  have hc := h.hex c (by simp [hcs])
  simp only [hcs, cons_append, head?_cons, Option.bind_some, hc, if_true]
  rw [← hcs, ← h.value]
  rfl

theorem SizeLine.no_newline_line (h : SizeLine digits ext size) : 0x0a ∉ digits ++ ext := by
  rw [mem_append, not_or]
  refine ⟨fun hmem => ?_, h.no_newline⟩
  exact absurd (h.hex _ hmem) (by decide)

structure TrailerLine (line : List UInt8) : Prop where
  nonempty : line ≠ []
  no_newline : 0x0a ∉ line
  fits : line.length + 2 ≤ httpLineMax

def trailerBytes (lines : List (List UInt8)) : List UInt8 := lines.flatMap (· ++ crlf) ++ crlf

/-- The chunks, the size line that ends them, and the trailer section. -/
structure ChunkedBody where
  chunks : List Chunk
  lastDigits : List UInt8
  lastExt : List UInt8
  trailers : List (List UInt8)

structure ChunkedBody.Ok (b : ChunkedBody) : Prop where
  chunks : ∀ c ∈ b.chunks, c.Ok
  count : b.chunks.length < maxChunks
  last : SizeLine b.lastDigits b.lastExt 0
  trailers : ∀ line ∈ b.trailers, TrailerLine line

def endBytes (b : ChunkedBody) : List UInt8 :=
  b.lastDigits ++ b.lastExt ++ crlf ++ trailerBytes b.trailers

def ChunkedBody.bytes (b : ChunkedBody) : List UInt8 := b.chunks.flatMap Chunk.bytes ++ endBytes b

def ChunkedBody.data (b : ChunkedBody) : List UInt8 := b.chunks.flatMap Chunk.data

/-- What a reader does in state `r`: a stream that starts with `enc` is read to the end of `enc`,
with the sink given `data`; a stream that ends inside `enc` is an error. -/
structure ReadsAt {α : Type} (ctx : Nat) (reached : σ → Prop) (pieces : σ → List (List UInt8))
    (record : τ → List UInt8) (p : StProg (Rx τ σ) (Except HttpErr α)) (enc : List UInt8) (v : α)
    (data : List UInt8) (r : Rx τ σ) : Prop where
  whole : ∀ rest, r.link.avail pieces = enc ++ rest →
    (p r).1 = .ok v ∧ (p r).2.link.Ready ctx reached pieces ∧ (p r).2.link.avail pieces = rest ∧
      record (p r).2.out = record r.out ++ data
  cut : ∀ cut, cut ≠ [] → r.link.avail pieces ++ cut = enc → ∃ e, (p r).1 = .error e

namespace ReadsAt

variable {α β : Type} {p : StProg (Rx τ σ) (Except HttpErr α)}
  {g : Except HttpErr α → StProg (Rx τ σ) (Except HttpErr β)} {enc enc' data data' : List UInt8}
  {v : α} {v' : β}

theorem congr {q : StProg (Rx τ σ) (Except HttpErr α)} {r' : Rx τ σ}
    (h : ReadsAt ctx reached pieces record q enc v data r') (heq : p r = q r')
    (hlink : r'.link = r.link)
    (hout : r'.out = r.out) : ReadsAt ctx reached pieces record p enc v data r := by
  obtain ⟨hwhole, hcut⟩ := h
  rw [hlink] at hwhole hcut
  rw [hout] at hwhole
  exact ⟨heq ▸ hwhole, heq ▸ hcut⟩

theorem bind (hp : ReadsAt ctx reached pieces record p enc v data r)
    (herr : ∀ e r, ∃ e', (g (.error e) r).1 = .error e')
    (hg : ∀ r', r'.link.Ready ctx reached pieces →
      r.link.avail pieces = enc ++ r'.link.avail pieces → record r'.out = record r.out ++ data →
        ReadsAt ctx reached pieces record (g (.ok v)) enc' v' data' r') :
    ReadsAt ctx reached pieces record (p >>= g) (enc ++ enc') v' (data ++ data') r := by
  refine ⟨fun rest ha => ?_, fun cut hcut ha => ?_⟩
  · rw [append_assoc] at ha
    obtain ⟨hok, hready, havail, hrec⟩ := hp.whole _ ha
    have hnext := (hg _ hready (by rw [havail, ha]) hrec).whole rest havail
    rw [bind_apply, hok, ← append_assoc, ← hrec]
    exact hnext
  -- the stream ends inside the first part, or behind it
  · have hsplit : (∃ m, m ≠ [] ∧ r.link.avail pieces ++ m = enc) ∨
        ∃ pre, r.link.avail pieces = enc ++ pre ∧ pre ++ cut = enc' := by
      rcases append_eq_append_iff.mp ha with ⟨m, henc, hm⟩ | ⟨m, henc, hm⟩
      · by_cases hnil : m = []
        · exact .inr ⟨[], by simp [henc, hnil], by simp [hm, hnil]⟩
        · exact .inl ⟨m, hnil, henc.symm⟩
      · exact .inr ⟨m, henc, hm.symm⟩
    rcases hsplit with ⟨m, hm, henc⟩ | ⟨pre, hpre, henc'⟩
    · obtain ⟨e, he⟩ := hp.cut m hm henc
      rw [bind_apply, he]
      exact herr e _
    obtain ⟨hok, hready, havail, hrec⟩ := hp.whole _ hpre
    rw [bind_apply, hok]
    exact (hg _ hready (by rw [havail, hpre]) hrec).cut cut hcut (by rw [havail, henc'])

theorem nothing (hl : r.link.Ready ctx reached pieces) (v : α) :
    ReadsAt ctx reached pieces record (pure (.ok v)) [] v [] r :=
  ⟨fun _ ha => ⟨rfl, hl, ha, (append_nil _).symm⟩,
    fun _ hcut ha => absurd (append_eq_nil_iff.mp ha).2 hcut⟩

theorem last (hp : ReadsAt ctx reached pieces record p enc v data r)
    (herr : ∀ e r, ∃ e', (g (.error e) r).1 = .error e') (hg : g (.ok v) = pure (.ok v')) :
    ReadsAt ctx reached pieces record (p >>= g) enc v' data r := by
  refine ⟨fun rest ha => ?_, fun cut hcut ha => ?_⟩
  · obtain ⟨hok, hrest⟩ := hp.whole rest ha
    rw [bind_apply, hok, hg]
    exact ⟨rfl, hrest⟩
  obtain ⟨e, he⟩ := hp.cut cut hcut ha
  rw [bind_apply, he]
  exact herr e _

end ReadsAt

section
variable {b : ChunkedBody} (hd : Delivers net ctx reached pieces) (ht : InTime net reached deadline)
include hd ht

theorem hcArm_ready (hl : l.Ready ctx reached pieces) :
    (hcArm net deadline l).1 = .ok () ∧ (hcArm net deadline l).2.conn = l.conn ∧
      reached (hcArm net deadline l).2.wire.env ∧
      pieces (hcArm net deadline l).2.wire.env = pieces l.wire.env := by
  have hnow := ht l.wire.env hl.live
  have hlive := hd.nowMs_reached _ hl.live
  rw [hcArm, if_neg (by omega)]
  dsimp only
  rw [if_neg (by omega)]
  exact ⟨rfl, rfl, hd.setTimeout_reached _ _ _ hlive,
    (hd.setTimeout _ _ _ hlive).trans (hd.nowMs _ hl.live)⟩

theorem hcFill_spec (hl : l.Ready ctx reached pieces) :
    (hcFill net deadline l).2.Ready ctx reached pieces ∧
      (hcFill net deadline l).2.avail pieces = l.avail pieces ∧
      ((hcFill net deadline l).1 = .data ∧ (hcFill net deadline l).2.conn.buf ≠ [] ∨
        (hcFill net deadline l).1 = .eof ∧ l.avail pieces = []) := by
  rw [hcFill_apply]
  by_cases hbuf : l.conn.buf ≠ []
  · rw [if_pos hbuf]
    exact ⟨hl, rfl, .inl ⟨rfl, hbuf⟩⟩
  have hnil : l.conn.buf = [] := not_not.mp hbuf
  by_cases heof : l.conn.eof
  · rw [if_neg hbuf, if_pos heof]
    exact ⟨hl, rfl, .inr ⟨rfl, by simp [Link.avail, hnil, hl.ended heof]⟩⟩
  obtain ⟨hok, hconn, hlive, hpieces⟩ := hcArm_ready hd ht hl
  rw [if_neg hbuf, if_neg heof, if_neg (by simp [hl.sound]), hok]
  dsimp only
  generalize (hcArm net deadline l).2 = l' at hconn hlive hpieces
  have hctx : l'.conn.ctx = ctx := hconn ▸ hl.ctx_eq
  have hread' := hd.read_reached _ hlive
  rw [hcRefill, hctx]
  cases hp : pieces l'.wire.env with
  | nil =>
    obtain ⟨hread, hrest⟩ := hd.eof _ hlive hp
    rw [hread]
    refine ⟨⟨hctx, by simp [hconn, hl.sound], fun _ => hrest, hread'⟩, ?_, .inr ⟨rfl, ?_⟩⟩
    · simp [Link.avail, hrest, hconn, ← hpieces, hp]
    · simp [Link.avail, hnil, ← hpieces, hp]
  | cons bs rest =>
    obtain ⟨hread, hrest⟩ := hd.data _ bs rest hlive hp
    have hpos := (net.read_data ctx _ bs hread).1
    rw [hread]
    refine ⟨⟨hctx, by simp [hconn, hl.sound], fun h => ?_, hread'⟩, ?_, .inl ⟨rfl, ?_⟩⟩
    · simp only [hconn] at h
      exact absurd h heof
    · simp [Link.avail, Wire.record, hrest, hnil, ← hpieces, hp]
    · exact ne_nil_of_length_pos hpos

theorem hcFill_next (hl : l.Ready ctx reached pieces) {ch : UInt8}
    (ha : l.avail pieces = ch :: rest) :
    (hcFill net deadline l).1 = .data ∧
      (takeBuf 1 (hcFill net deadline l).2).1 = [ch] ∧
      (takeBuf 1 (hcFill net deadline l).2).2.Ready ctx reached pieces ∧
      (takeBuf 1 (hcFill net deadline l).2).2.avail pieces = rest := by
  obtain ⟨hready, havail, ⟨hdata, hbuf⟩ | ⟨-, hnil⟩⟩ := hcFill_spec hd ht hl
  · have hsplit := @avail_takeBuf σ pieces (hcFill net deadline l).2 1
    have hone : ∃ c, (takeBuf 1 (hcFill net deadline l).2).1 = [c] := by
      obtain ⟨c, cs, hcs⟩ := exists_cons_of_ne_nil hbuf
      exact ⟨c, by simp [takeBuf, hcs]⟩
    obtain ⟨c, hc⟩ := hone
    rw [havail, ha, hc, singleton_append, cons.injEq] at hsplit
    obtain ⟨rfl, hrest⟩ := hsplit
    exact ⟨hdata, hc, hready.takeBuf 1, hrest.symm⟩
  · rw [ha] at hnil
    cases hnil

theorem hcFill_end (hl : l.Ready ctx reached pieces) (ha : l.avail pieces = []) :
    (hcFill net deadline l).1 = .eof := by
  obtain ⟨-, havail, ⟨-, hbuf⟩ | ⟨heof, -⟩⟩ := hcFill_spec hd ht hl
  · rw [ha, Link.avail, append_eq_nil_iff] at havail
    exact absurd havail.1 hbuf
  · exact heof

theorem hcLineLoop_spec
    (line : List UInt8) (hline : 0x0a ∉ line) (room : Nat) (hroom : line.length ≤ room)
    (out : List UInt8) (hl : l.Ready ctx reached pieces)
    (ha : l.avail pieces = line ++ 0x0a :: rest) :
    (hcLineLoop net deadline room out l).1 = .ok (dropCr (out ++ line)) ∧
      (hcLineLoop net deadline room out l).2.Ready ctx reached pieces ∧
      (hcLineLoop net deadline room out l).2.avail pieces = rest := by
  induction line generalizing room out l with
  | nil =>
    obtain ⟨hdata, htake, hready, havail⟩ := hcFill_next hd ht hl ha
    rw [hcLineLoop]
    simp only [bind_apply, hdata, htake]
    simp [hready, havail]
  | cons c line ih =>
    obtain ⟨hdata, htake, hready, havail⟩ := hcFill_next hd ht hl ha
    rw [mem_cons, not_or] at hline
    obtain ⟨room, rfl⟩ : ∃ k, room = k + 1 := ⟨room - 1, by simp at hroom; omega⟩
    rw [hcLineLoop]
    simp only [bind_apply, hdata, htake, if_neg (Ne.symm hline.1)]
    have hrec := ih hline.2 room (by simpa using hroom) (out ++ [c]) hready havail
    simpa using hrec

theorem hcLineLoop_error (room : Nat)
    (out : List UInt8) (hl : l.Ready ctx reached pieces) (ha : 0x0a ∉ l.avail pieces) :
    ∃ e, (hcLineLoop net deadline room out l).1 = .error e := by
  induction room generalizing out l with
  | zero =>
    rw [hcLineLoop]
    cases hs : l.avail pieces with
    | nil => simp [hcFill_end hd ht hl hs]
    | cons c rest =>
      obtain ⟨hdata, htake, -, -⟩ := hcFill_next hd ht hl hs
      rw [hs, mem_cons, not_or] at ha
      simp [hdata, htake, Ne.symm ha.1]
  | succ room ih =>
    rw [hcLineLoop]
    cases hs : l.avail pieces with
    | nil => simp [hcFill_end hd ht hl hs]
    | cons c rest =>
      obtain ⟨hdata, htake, hready, havail⟩ := hcFill_next hd ht hl hs
      rw [hs, mem_cons, not_or] at ha
      simp only [bind_apply, hdata, htake, if_neg (Ne.symm ha.1)]
      exact ih _ hready (havail ▸ ha.2)

theorem hcRead_spec {max : Nat} (hmax : 0 < max) (hl : l.Ready ctx reached pieces) :
    ∃ d, (hcRead net max deadline l).1 = .ok d ∧ d.length ≤ max ∧
      (d = [] ↔ l.avail pieces = []) ∧ (hcRead net max deadline l).2.Ready ctx reached pieces ∧
      l.avail pieces = d ++ (hcRead net max deadline l).2.avail pieces := by
  obtain ⟨hready, havail, ⟨hdata, hbuf⟩ | ⟨heof, hnil⟩⟩ := hcFill_spec hd ht hl
  · have hread : hcRead net max deadline l = (.ok (takeBuf max (hcFill net deadline l).2).1,
        (takeBuf max (hcFill net deadline l).2).2) := by
      simp [hcRead, hdata, Nat.pos_iff_ne_zero.mp hmax]
    have hsplit := @avail_takeBuf σ pieces (hcFill net deadline l).2 max
    rw [hread]
    refine ⟨_, rfl, length_take_le _ _, ?_, hready.takeBuf max, havail ▸ hsplit⟩
    have htake : (takeBuf max (hcFill net deadline l).2).1 ≠ [] := by
      simp [takeBuf, hbuf, Nat.pos_iff_ne_zero.mp hmax]
    refine ⟨fun h => absurd h htake, fun h => ?_⟩
    rw [havail, h] at hsplit
    exact (append_eq_nil_iff.mp hsplit.symm).1
  · have hread : hcRead net max deadline l = (.ok [], (hcFill net deadline l).2) := by
      simp [hcRead, heof, Nat.pos_iff_ne_zero.mp hmax]
    rw [hread]
    exact ⟨[], rfl, by simp, by simp [hnil], hready, by simp [havail]⟩

theorem handPiece_spec (hs : Takes reached pieces fn record limit) {max : Nat} (hmax : 0 < max)
    (hl : r.link.Ready ctx reached pieces)
    (hlim : (record r.out).length + min max (r.link.avail pieces).length ≤ limit) :
    ∃ d, (handPiece net fn max deadline r).1 = .ok d ∧ d.length ≤ max ∧
      (d = [] ↔ r.link.avail pieces = []) ∧
      (handPiece net fn max deadline r).2.link.Ready ctx reached pieces ∧
      r.link.avail pieces = d ++ (handPiece net fn max deadline r).2.link.avail pieces ∧
      record (handPiece net fn max deadline r).2.out = record r.out ++ d := by
  obtain ⟨d, hread, hlen, hnil, hready, havail⟩ := hcRead_spec hd ht hmax hl
  refine ⟨d, ?_⟩
  cases d with
  | nil =>
    have heq : handPiece net fn max deadline r =
        (.ok [], { r with link := (hcRead net max deadline r.link).2 }) := by
      simp only [handPiece, bind_apply, onLink, zoom_apply, hread]
      rfl
    rw [heq]
    exact ⟨rfl, hlen, hnil, hready, havail, (append_nil _).symm⟩
  | cons c d =>
    let r1 : Rx τ σ := { r with link := (hcRead net max deadline r.link).2 }
    have hroom : (record r1.out).length + (c :: d).length ≤ limit := by
      rw [havail, length_append] at hlim
      change (record r.out).length + _ ≤ _
      omega
    obtain ⟨hok, hready', havail', hrec⟩ := callSink_spec hs (r := r1) hready hroom
    have heq : handPiece net fn max deadline r = (.ok (c :: d), (callSink fn (c :: d) r1).2) := by
      simp only [handPiece, bind_apply, onLink, zoom_apply, hread]
      rw [show (callSink fn (c :: d) { r with link := _ }).1 = .ok () from hok]
      rfl
    rw [heq]
    exact ⟨rfl, hlen, hnil, hready', by rw [havail', havail], hrec⟩

theorem readExactly_reads (hs : Takes reached pieces fn record limit) {d : List UInt8} {fuel : Nat}
    (hfuel : d.length ≤ fuel) (hl : r.link.Ready ctx reached pieces)
    (hlim : (record r.out).length + d.length ≤ limit) :
    ReadsAt ctx reached pieces record (readExactly net fn deadline fuel d.length) d () d r := by
  induction fuel generalizing d r with
  | zero =>
    obtain rfl : d = [] := eq_nil_of_length_eq_zero (by omega)
    exact .nothing hl ()
  | succ fuel ih =>
    by_cases hne : d = []
    · rw [hne, length_nil, readExactly, if_pos rfl]
      exact .nothing hl ()
    have hpos := length_pos_of_ne_nil hne
    have hmin : 0 < min d.length httpRxbuf := Nat.lt_min.mpr ⟨hpos, by decide⟩
    obtain ⟨e, hok, hlen, hnil, hready, havail, hrec⟩ := handPiece_spec hd ht hs hmin hl (by omega)
    have hround := readExactly_succ net fn deadline fuel (Nat.ne_of_gt hpos)
    have hstep (he : e ≠ []) : readExactly net fn deadline (fuel + 1) d.length r =
        readExactly net fn deadline fuel (d.length - e.length)
          (handPiece net fn (min d.length httpRxbuf) deadline r).2 := by
      obtain ⟨c, e, rfl⟩ := exists_cons_of_ne_nil he
      rw [hround, bind_apply, hok]
    -- the bytes of this round are the first ones, and the others are read from there
    have hrest {d' : List UInt8} (hsplit : d = e ++ d') (he : e ≠ []) :
        ReadsAt ctx reached pieces record
          (readExactly net fn deadline fuel (d.length - e.length)) d' () d'
          (handPiece net fn (min d.length httpRxbuf) deadline r).2 := by
      have hpos := length_pos_of_ne_nil he
      rw [hsplit, length_append] at hfuel hlim
      have hlen : d.length - e.length = d'.length := by simp [hsplit]
      rw [hlen]
      exact ih (by omega) hready (by rw [hrec, length_append]; omega)
    refine ⟨fun rest ha => ?_, fun cut hcut ha => ?_⟩
    · have he : e ≠ [] := mt hnil.mp (by simp [ha, hne])
      obtain ⟨d', hsplit⟩ := prefix_of_prefix_length_le ⟨_, havail.symm⟩ ⟨_, ha.symm⟩ (by omega)
      have ha' : r.link.avail pieces = e ++ (d' ++ rest) := by rw [ha, ← hsplit, append_assoc]
      have hwhole := (hrest hsplit.symm he).whole rest (append_cancel_left (havail.symm.trans ha'))
      rw [hrec, append_assoc, hsplit] at hwhole
      rw [hstep he]
      exact hwhole
    · by_cases he : e = []
      · rw [hround, bind_apply, hok, he]
        exact ⟨_, rfl⟩
      rw [hstep he]
      have hsplit := ha.symm.trans ((congrArg (· ++ cut) havail).trans (append_assoc _ _ _))
      exact (hrest hsplit he).cut cut hcut rfl

theorem readCloseLoop_spec
    (hs : Takes reached pieces fn record limit) (fuel : Nat) (hl : r.link.Ready ctx reached pieces)
    (hfuel : (r.link.avail pieces).length < fuel)
    (hlim : (record r.out).length + (r.link.avail pieces).length ≤ limit) :
    (readCloseLoop net fn deadline fuel r).1 = .ok () ∧
      record (readCloseLoop net fn deadline fuel r).2.out =
        record r.out ++ r.link.avail pieces := by
  induction fuel generalizing r with
  | zero => omega
  | succ fuel ih =>
    obtain ⟨d, hok, -, hnil, hready, havail, hrec⟩ :=
      handPiece_spec hd ht hs (by decide : 0 < httpRxbuf) hl (by omega)
    rw [readCloseLoop_succ, bind_apply, hok]
    cases d with
    | nil =>
      rw [hnil.mp rfl]
      exact ⟨rfl, hrec⟩
    | cons c d =>
      rw [havail, length_append, length_cons] at hfuel hlim
      obtain ⟨hdone, hall⟩ := ih hready (by omega) (by rw [hrec, length_append]; simp; omega)
      refine ⟨hdone, ?_⟩
      rw [hall, hrec, append_assoc, ← havail]

theorem hcLine_reads (hline : 0x0a ∉ line)
    (hfit : line.length + 2 ≤ httpLineMax) (hl : r.link.Ready ctx reached pieces) :
    ReadsAt ctx reached pieces record (onLink (hcLine net httpLineMax deadline))
      (line ++ crlf) line [] r := by
  refine ⟨fun rest ha => ?_, fun cut hcut ha => ?_⟩
  · have hspec := hcLineLoop_spec hd ht (line ++ [0x0d]) (by simp [hline]) (httpLineMax - 1)
      (by simp; omega) [] hl (by simpa [crlf] using ha)
    obtain ⟨hok, hready, havail⟩ := hspec
    exact ⟨by simpa [onLink, hcLine, dropCr] using hok, hready, havail, by simp [onLink]⟩
  · -- what is missing has the newline
    refine hcLineLoop_error hd ht _ _ hl fun hmem => ?_
    obtain ⟨cut, c, rfl⟩ := (eq_nil_or_concat' cut).resolve_left hcut
    have hpre : r.link.avail pieces ++ cut = line ++ [0x0d] := by
      have : (r.link.avail pieces ++ cut) ++ [c] = (line ++ [0x0d]) ++ [0x0a] := by
        simpa [crlf] using ha
      exact (append_inj' this rfl).1
    have : (0x0a : UInt8) ∈ line ++ [0x0d] := hpre ▸ mem_append_left _ hmem
    simp [hline] at this

theorem hcLine_crlf_reads (hl : r.link.Ready ctx reached pieces) :
    ReadsAt ctx reached pieces record (onLink (hcLine net httpLineMax deadline)) crlf [] [] r :=
  hcLine_reads hd ht not_mem_nil (by decide) hl

theorem readChunkSize_reads (h : SizeLine digits ext size)
    (hmax : size ≤ ulMax) (hl : r.link.Ready ctx reached pieces) :
    ReadsAt ctx reached pieces record (readChunkSize net deadline)
      (digits ++ ext ++ crlf) size [] r := by
  have hfit : (digits ++ ext).length + 2 ≤ httpLineMax := by
    rw [length_append]
    exact h.fits
  rw [readChunkSize]
  exact (hcLine_reads hd ht h.no_newline_line hfit hl).last (fun e _ => ⟨e, rfl⟩)
    (by simp only [h.parse hmax])

theorem readTrailers_reads (lines : List (List UInt8))
    (hlines : ∀ line ∈ lines, TrailerLine line) {fuel : Nat}
    (hfuel : (r.link.avail pieces).length < fuel) (hl : r.link.Ready ctx reached pieces) :
    ReadsAt ctx reached pieces record (readTrailers net deadline fuel) (trailerBytes lines)
      () [] r := by
  induction lines generalizing fuel r with
  | nil =>
    obtain ⟨fuel, rfl⟩ : ∃ k, fuel = k + 1 := ⟨fuel - 1, by omega⟩
    rw [readTrailers]
    exact (hcLine_crlf_reads hd ht hl).last
      (fun e _ => ⟨e, rfl⟩) rfl
  | cons line lines ih =>
    obtain ⟨fuel, rfl⟩ : ∃ k, fuel = k + 1 := ⟨fuel - 1, by omega⟩
    have hline := hlines line (by simp)
    obtain ⟨c, cs, hcs⟩ := exists_cons_of_ne_nil hline.nonempty
    have hbytes : trailerBytes (line :: lines) = line ++ crlf ++ trailerBytes lines := by
      simp [trailerBytes]
    rw [readTrailers, hbytes]
    refine (hcLine_reads hd ht hline.no_newline hline.fits hl).bind (fun e _ => ⟨e, rfl⟩)
      fun r' hready havail _ => ?_
    have hkeep : (addTrailer line r').2.link = r'.link ∧ (addTrailer line r').2.out = r'.out := by
      simp only [addTrailer, modify_apply]
      split <;> exact ⟨rfl, rfl⟩
    have hlt : ((addTrailer line r').2.link.avail pieces).length < fuel := by
      rw [hkeep.1]
      simp only [havail, crlf, length_append, length_cons] at hfuel
      omega
    have hrest := ih (fun l hl => hlines l (by simp [hl])) hlt (hkeep.1 ▸ hready)
    subst hcs
    exact hrest.congr rfl hkeep.1 hkeep.2

theorem readChunks_reads (hs : Takes reached pieces fn record limit) (hb : b.Ok)
    (chunks : List Chunk) (hchunks : ∀ c ∈ chunks, c.Ok) (budget : Nat)
    (hbudget : chunks.length ≤ budget) (hl : r.link.Ready ctx reached pieces)
    (hlim : (record r.out).length + (chunks.flatMap Chunk.data).length ≤ limit) :
    ReadsAt ctx reached pieces record (readChunks net fn deadline (budget + 1))
      (chunks.flatMap Chunk.bytes ++ endBytes b) () (chunks.flatMap Chunk.data) r := by
  induction chunks generalizing budget r with
  | nil =>
    rw [readChunks, flatMap_nil, nil_append, endBytes]
    refine (readChunkSize_reads hd ht hb.last (by decide) hl).bind (fun e _ => ⟨e, rfl⟩)
      fun r' hready _ _ => ?_
    exact (readTrailers_reads hd ht b.trailers hb.trailers
      (hready.avail_lt_rounds hd) hready).congr rfl rfl rfl
  | cons c chunks ih =>
    have hc := hchunks c (by simp)
    obtain ⟨n, hn⟩ : ∃ n, c.data.length = n + 1 :=
      ⟨c.data.length - 1, by have := length_pos_of_ne_nil hc.data_ne; omega⟩
    simp only [flatMap_cons, length_append, length_cons] at hlim hbudget
    have hbytes : (c :: chunks).flatMap Chunk.bytes ++ endBytes b = c.digits ++ c.ext ++ crlf ++
        (c.data ++ (crlf ++ (chunks.flatMap Chunk.bytes ++ endBytes b))) := by
      simp [Chunk.bytes]
    rw [readChunks, hbytes, flatMap_cons, ← nil_append (c.data ++ _)]
    refine (readChunkSize_reads hd ht hc.line hc.data_lt hl).bind (fun e _ => ⟨e, rfl⟩)
      fun r1 hready1 _ hrec1 => ?_
    have hexact :=
      readExactly_reads hd ht hs (d := c.data) (Nat.le_refl _) hready1 (by rw [hrec1]; simp; omega)
    rw [hn] at hexact ⊢
    refine hexact.bind (fun e _ => ⟨e, rfl⟩) fun r2 hready2 _ hrec2 => ?_
    rw [← nil_append (chunks.flatMap Chunk.data)]
    refine (hcLine_crlf_reads hd ht hready2).bind
      (fun e _ => ⟨e, rfl⟩) fun r3 hready3 _ hrec3 => ?_
    obtain ⟨budget, rfl⟩ : ∃ k, budget = k + 1 := ⟨budget - 1, by omega⟩
    exact ih (fun d hd => hchunks d (by simp [hd])) budget (by omega) hready3
      (by simp only [hrec3, hrec2, hrec1, length_append, length_nil]; omega)

end

inductive BodyFraming
  | length (body : List UInt8)
  | chunked (b : ChunkedBody)
  | close (body : List UInt8)

namespace BodyFraming

def body : BodyFraming → List UInt8
  | .length body => body
  | .chunked b => b.data
  | .close body => body

def bytes : BodyFraming → List UInt8
  | .length body => body
  | .chunked b => b.bytes
  | .close body => body

def decValue (digits : List UInt8) : Nat :=
  digits.foldl (fun v c => 10 * v + (c.toNat - 0x30)) 0

/-- A decimal numeral of `n`, leading zeros allowed. -/
def Numeral (digits : List UInt8) (n : Nat) : Prop :=
  digits ≠ [] ∧ (∀ c ∈ digits, hDigit c) ∧ decValue digits = n

/-- The headers say how the body is delimited: one or more equal lengths without a transfer coding;
a transfer coding that ends in `chunked`; or neither of the two headers. -/
def Announced (res : HttpResponse) : BodyFraming → Prop
  | .length body =>
    headerValues res.headers (ascii "Transfer-Encoding") = [] ∧
      headerValues res.headers (ascii "Content-Length") ≠ [] ∧
      ∀ v ∈ headerValues res.headers (ascii "Content-Length"), Numeral v body.length
  | .chunked _ => ∃ te, headerGet res.headers (ascii "Transfer-Encoding") = some te ∧
      ciEq (lastCoding te) (ascii "chunked")
  | .close _ =>
    headerValues res.headers (ascii "Transfer-Encoding") = [] ∧
      headerValues res.headers (ascii "Content-Length") = []

/-- The limits of the number reader, of a line and of the number of chunks. -/
def Fits : BodyFraming → Prop
  | .length body => body.length / 10 ≤ (ulMax - 9) / 10
  | .chunked b => b.Ok
  | .close _ => True

end BodyFraming

def MayHaveBody (res : HttpResponse) : Prop :=
  res.status ≠ 204 ∧ res.status ≠ 304 ∧ ¬ (100 ≤ res.status ∧ res.status < 200)

theorem digitsLoop_spec {digits : List UInt8} (hdig : ∀ c ∈ digits, hDigit c) (v : Nat)
    (hmax : digits.foldl (fun v c => 10 * v + (c.toNat - 0x30)) v / 10 ≤ (ulMax - 9) / 10) :
    digitsLoop digits v = some (digits.foldl (fun v c => 10 * v + (c.toNat - 0x30)) v) := by
  induction digits generalizing v with
  | nil => rfl
  | cons c digits ih =>
    have hc := hdig c (by simp)
    simp only [foldl_cons] at hmax ⊢
    have hmono := @le_foldl_digits digits 10 (by decide) (fun c => c.toNat - 0x30)
      (10 * v + (c.toNat - 0x30))
    have hfit : ¬ v > (ulMax - 9) / 10 := by omega
    rw [digitsLoop, if_pos hc, if_neg hfit, Nat.mul_comm v 10]
    exact ih (fun e he => hdig e (by simp [he])) _ hmax

theorem BodyFraming.Numeral.parse {digits : List UInt8} {n : Nat}
    (h : BodyFraming.Numeral digits n) (hmax : n / 10 ≤ (ulMax - 9) / 10) :
    parseUl digits = some n := by
  obtain ⟨hne, hdig, hval⟩ := h
  have hloop := digitsLoop_spec hdig 0 (by rw [← hval] at hmax; exact hmax)
  obtain ⟨c, cs, rfl⟩ := exists_cons_of_ne_nil hne
  have hc := hdig c (by simp)
  have hspace : hSpace c = false := by
    simp only [hDigit, Bool.and_eq_true, decide_eq_true_eq] at hc
    simp only [hSpace, Bool.or_eq_false_iff, beq_eq_false_iff_ne]
    constructor <;> rintro rfl <;> exact absurd hc.1 (by decide)
  rw [parseUl, dropWhile_cons_of_neg (by simp [hspace])]
  simp only [head?_cons, Option.any_some, hc, if_true]
  rw [hloop, ← hval]
  rfl

theorem contentLength_same {n : Nat} (hmax : n / 10 ≤ (ulMax - 9) / 10) (vs : List (List UInt8))
    (hvs : ∀ v ∈ vs, BodyFraming.Numeral v n) (seen : Option Nat) (hseen : ∀ k ∈ seen, k = n) :
    contentLength vs seen = .ok (if vs = [] then seen else some n) := by
  induction vs generalizing seen with
  | nil => rfl
  | cons v vs ih =>
    have hany : seen.any (· != n) = false := by
      cases seen with
      | none => rfl
      | some k => simp [hseen k rfl]
    simp only [contentLength, (hvs v (by simp)).parse hmax, hany, Bool.false_eq_true, if_false,
      cons_ne_nil]
    rw [ih (fun w hw => hvs w (by simp [hw])) (some n) (by simp)]
    split <;> rfl

def BodyFraming.framing : BodyFraming → Framing
  | .length body => {
      chunked := false, haveLen := true, len := body.length, toClose := false, determinate := true }
  | .chunked _ => {
      chunked := true, haveLen := false, len := 0, toClose := false, determinate := true }
  | .close _ => {
      chunked := false, haveLen := false, len := 0, toClose := true, determinate := false }

theorem decideFraming_announced {m : BodyFraming} (hm : m.Fits) {res : HttpResponse}
    (hres : MayHaveBody res) (ha : m.Announced res) : decideFraming res true = .ok m.framing := by
  have hbody : noBody res true = false := by
    obtain ⟨h204, h304, h1xx⟩ := hres
    simpa [noBody, h204, h304] using h1xx
  cases m with
  | length body =>
    obtain ⟨hte, hne, hlen⟩ := ha
    have hget : headerGet res.headers (ascii "Transfer-Encoding") = none := by
      simp [headerGet, headerNth, hte]
    have hcl := contentLength_same hm _ hlen none (by simp)
    rw [if_neg hne] at hcl
    simp [decideFraming, hget, hcl, hbody, BodyFraming.framing]
  | chunked b =>
    obtain ⟨te, hget, hcoding⟩ := ha
    have hpfx : ciPrefix (lastCoding te) (ascii "chunked") := by
      rw [ciEq, beq_iff_eq] at hcoding
      rw [ciPrefix, hcoding]
      exact List.isPrefixOf_iff_prefix.mpr prefix_rfl
    simp [decideFraming, hget, hpfx, hbody, BodyFraming.framing]
  | close body =>
    obtain ⟨hte, hcl⟩ := ha
    have hget : headerGet res.headers (ascii "Transfer-Encoding") = none := by
      simp [headerGet, headerNth, hte]
    simp [decideFraming, hget, hcl, contentLength, hbody, BodyFraming.framing]

def BodyFraming.isClose : BodyFraming → Bool
  | .close _ => true
  | _ => false

/-- The reader that `decideFraming` selects hands the sink exactly the body and leaves the stream
behind the response; a stream that ends inside the body is an error. -/
theorem body_framing_exact (hd : Delivers net ctx reached pieces) (ht : InTime net reached deadline)
    (hs : Takes reached pieces fn record limit) {m : BodyFraming} (hm : m.Fits) {res : HttpResponse}
    (hres : MayHaveBody res) (ha : m.Announced res) {r : Rx τ σ}
    (hl : r.link.Ready ctx reached pieces) (hlim : (record r.out).length + m.body.length ≤ limit) :
    ∃ f, decideFraming res true = .ok f ∧
      (∀ rest, r.link.avail pieces = m.bytes ++ rest → (m.isClose → rest = []) →
        (readBody net f fn deadline r).1 = .ok () ∧
          record (readBody net f fn deadline r).2.out = record r.out ++ m.body ∧
          (m.isClose = false → (readBody net f fn deadline r).2.link.avail pieces = rest)) ∧
      ∀ cut, cut ≠ [] → r.link.avail pieces ++ cut = m.bytes → m.isClose = false →
        ∃ e, (readBody net f fn deadline r).1 = .error e := by
  refine ⟨m.framing, decideFraming_announced hm hres ha, ?_⟩
  cases m with
  | length body =>
    have hread : readBody net (BodyFraming.length body).framing fn deadline r =
        readExactly net fn deadline body.length body.length r := by
      simp [readBody, BodyFraming.framing, readBodyLength]
    obtain ⟨hwhole, hcut⟩ := readExactly_reads hd ht hs (Nat.le_refl _) hl hlim
    rw [hread]
    refine ⟨fun rest hstream _ => ?_, fun cut hne hstream _ => hcut cut hne hstream⟩
    obtain ⟨hok, -, havail, hrec⟩ := hwhole rest hstream
    exact ⟨hok, hrec, fun _ => havail⟩
  | chunked b =>
    have hread : readBody net (BodyFraming.chunked b).framing fn deadline r =
        readChunks net fn deadline (maxChunks - 1 + 1) r := by
      simp [readBody, BodyFraming.framing, readBodyChunked, maxChunks]
    have hcount : b.chunks.length ≤ maxChunks - 1 := by
      have := hm.count
      omega
    obtain ⟨hwhole, hcut⟩ := readChunks_reads hd ht hs hm b.chunks hm.chunks _ hcount hl hlim
    rw [hread]
    refine ⟨fun rest hstream _ => ?_, fun cut hne hstream _ => hcut cut hne hstream⟩
    obtain ⟨hok, -, havail, hrec⟩ := hwhole rest hstream
    exact ⟨hok, hrec, fun _ => havail⟩
  | close body =>
    have hread : readBody net (BodyFraming.close body).framing fn deadline r =
        readCloseLoop net fn deadline (r.rounds net) r := by
      simp [readBody, BodyFraming.framing, readBodyClose]
    rw [hread]
    refine ⟨fun rest hstream hrest => ?_, fun cut _ _ hclose => by cases hclose⟩
    obtain rfl := hrest rfl
    rw [BodyFraming.bytes, append_nil] at hstream
    obtain ⟨hok, hrec⟩ := readCloseLoop_spec hd ht hs (r.rounds net) hl
      (hl.avail_lt_rounds hd) (by rw [hstream]; exact hlim)
    exact ⟨hok, by rw [hrec, hstream]; rfl, nofun⟩

theorem Script.delivers (ctx : Nat) : Delivers Script.world ctx (fun _ => True) fun s =>
      (s.peers.getD ctx []).takeWhile fun bs => decide (0 < bs.length ∧ bs.length ≤ httpRxbuf) where
  data s bs rest _ h := by
    cases hp : s.peers[ctx]? with
    | none => simp [getD, hp] at h
    | some p =>
      obtain ⟨hlt, -⟩ := List.getElem?_eq_some_iff.mp hp
      cases p with
      | nil => simp [getD, hp] at h
      | cons b p =>
        simp only [getD, hp, Option.getD_some, takeWhile_cons] at h
        split at h
        case isFalse hb => cases h
        case isTrue hb =>
          cases h
          have hpiece : s.piece ctx = some bs := by
            simp only [Script.piece, hp]
            exact if_pos (of_decide_eq_true hb)
          have htail : (s.peers.getD ctx []).tail = p := by simp [getD, hp]
          have hrest : (s.taken ctx).peers.getD ctx [] = p := by
            rw [Script.taken, htail]
            simp [getD, hlt]
          simp only [Script.world, hpiece, hrest]
          exact ⟨trivial, trivial⟩
  eof s _ h := by
    have hpiece : s.piece ctx = none := by
      unfold Script.piece
      split
      · rename_i b p hp
        rw [if_neg]
        intro hb
        simp [getD, hp, hb] at h
      · rfl
    simp only [Script.world, hpiece]
    exact ⟨trivial, h⟩
  nowMs _ _ := rfl
  setTimeout _ _ _ _ := rfl
  read_reached _ h := h
  nowMs_reached _ h := h
  setTimeout_reached _ _ _ h := h

def chunkedHello : ChunkedBody where
  chunks := [⟨ascii "03", ascii ";a=b", ascii "hel"⟩, ⟨ascii "2", [], ascii "lo"⟩]
  lastDigits := ascii "0"
  lastExt := []
  trailers := [ascii "X: y"]

theorem chunkedHello_ok : chunkedHello.Ok where
  chunks := by
    intro c hc
    simp only [chunkedHello, mem_cons, not_mem_nil, or_false] at hc
    rcases hc with rfl | rfl
    · exact ⟨⟨by decide, by decide +kernel, by decide, by decide +kernel, by decide, by decide⟩,
        by decide, by decide⟩
    · exact ⟨⟨by decide, by decide +kernel, by decide, by decide +kernel, by decide, by decide⟩,
        by decide, by decide⟩
  count := by decide
  last := ⟨by decide, by decide +kernel, by decide, by decide +kernel, by decide, by decide⟩
  trailers := by
    intro line hline
    simp only [chunkedHello, mem_singleton] at hline
    subst hline
    exact ⟨by decide, by decide, by decide⟩

def listSink : WireSink (List UInt8) Script := fun d p => (.ok (), (p.1 ++ d, p.2))

def helloRx : Rx (List UInt8) Script where
  link := {
    conn := HConn.zero
    wire := {
      env := {
        peers := [[ascii "03;a=b\r", ascii "\nhel\r\n2\r\nl", ascii "o\r\n0\r\nX: y\r\n\r\nHTTP"]]
        next := 1 }
      log := [] } }
  raw := hbInit 100
  out := []

def chunkedResponse : HttpResponse :=
  { HttpResponse.zero with
    status := 200, headers := [(ascii "transfer-encoding", ascii "gzip, Chunked")] }

theorem body_framing_exact_hello :
    ∃ f, decideFraming chunkedResponse true = .ok f ∧
      (readBody Script.world f listSink 1 helloRx).1 = .ok () ∧
      (readBody Script.world f listSink 1 helloRx).2.out = ascii "hello" := by
  have hs : Takes (fun _ => True) (fun s : Script => (s.peers.getD 0 []).takeWhile fun bs =>
      decide (0 < bs.length ∧ bs.length ≤ httpRxbuf)) listSink id 100 :=
    ⟨fun _ _ _ _ => rfl, fun _ _ _ _ => rfl, fun _ _ _ h => ⟨h, rfl⟩⟩
  have ht : InTime Script.world (fun _ => True) 1 := fun _ _ => Nat.one_pos
  have hready : helloRx.link.Ready 0
    (fun _ => True) fun s : Script => (s.peers.getD 0 []).takeWhile fun bs =>
      decide (0 < bs.length ∧ bs.length ≤ httpRxbuf) :=
    ⟨rfl, rfl, nofun, trivial⟩
  have hann : (BodyFraming.chunked chunkedHello).Announced chunkedResponse :=
    ⟨ascii "gzip, Chunked", by decide, by decide⟩
  have hfits : (BodyFraming.chunked chunkedHello).Fits := chunkedHello_ok
  obtain ⟨f, hf, hread, -⟩ := body_framing_exact (Script.delivers 0) ht hs hfits
    ⟨by decide, by decide, by decide⟩ hann hready (by decide)
  obtain ⟨hok, hout, -⟩ := hread (ascii "HTTP") (by decide) (by decide)
  exact ⟨f, hf, hok, hout⟩

end KestrelOS.Http
