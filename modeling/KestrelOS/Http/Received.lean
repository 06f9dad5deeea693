import KestrelOS.Http.Framing
import KestrelOS.Http.Reuse

/-!
# The body that a caller receives

The bytes that a successful exchange took from its connection are the head of the response and,
behind it, a body that is delimited as the headers say. What a caller receives is compared with the
content of these bodies.
-/

namespace KestrelOS.Http

open StProg List

variable {σ τ J K : Type} (net : Net σ) (stores : Stores J K)

/-- A number in base `b`, continued from `v`: its digits, and no digit behind them. -/
def Leads (digit : UInt8 → Option Nat) (b v : Nat) (text : List UInt8) (n : Nat) : Prop :=
  ∃ digits rest, text = digits ++ rest ∧ (∀ c ∈ digits, (digit c).isSome) ∧
    (∀ c ∈ rest.head?, digit c = none) ∧
    digits.foldl (fun v c => b * v + (digit c).getD 0) v = n

def decDigit (c : UInt8) : Option Nat := if hDigit c then some (c.toNat - 0x30) else none

section Numbers

variable {digit : UInt8 → Option Nat} {b v n : Nat} {text : List UInt8}

private theorem leads_of_loop {loop : List UInt8 → Nat → Option Nat}
    (hnil : ∀ v, loop [] v = some v) (hend : ∀ c s v, digit c = none → loop (c :: s) v = some v)
    (hnext : ∀ c s v d, digit c = some d → loop (c :: s) v = some n → loop s (b * v + d) = some n)
    (h : loop text v = some n) : Leads digit b v text n := by
  induction text generalizing v with
  | nil =>
    rw [hnil, Option.some.injEq] at h
    exact ⟨[], [], rfl, nofun, nofun, h⟩
  | cons c text ih =>
    cases hd : digit c with
    | none =>
      rw [hend c text v hd, Option.some.injEq] at h
      exact ⟨[], c :: text, rfl, nofun, by simp [hd], h⟩
    | some d =>
      obtain ⟨digits, rest, rfl, hdig, hrest, hval⟩ := ih (hnext c text v d hd h)
      refine ⟨c :: digits, rest, rfl, ?_, hrest, by simpa [hd] using hval⟩
      simpa [hd] using hdig

private theorem Leads.of_untilNul (h0 : digit 0 = none) (h : Leads digit b v (untilNul text) n) :
    Leads digit b v text n := by
  obtain ⟨digits, rest, htext, hdig, hrest, hval⟩ := h
  refine ⟨digits, rest ++ text.dropWhile (· != 0), ?_, hdig, ?_, hval⟩
  · rw [← append_assoc, ← htext]
    exact takeWhile_append_dropWhile.symm
  intro c hc
  cases rest with
  | cons e rest => exact hrest c hc
  | nil =>
    rw [nil_append] at hc
    have hstop := head?_dropWhile_not (· != (0 : UInt8)) text
    rw [Option.mem_def.mp hc] at hstop
    have hc0 : c = 0 := by simpa using hstop
    rw [hc0, h0]

private theorem parseHex_leads (h : parseHex (untilNul text) = some n) :
    ((untilNul text).head?.bind hexDigit).isSome ∧ Leads hexDigit 16 0 text n := by
  unfold parseHex at h
  split_ifs at h with hhead
  refine ⟨hhead, Leads.of_untilNul (by decide) (leads_of_loop (fun _ => rfl) ?_ ?_ h)⟩
  · intro c s v hc
    rw [hexLoop, hc]
  · intro c s v d hc hloop
    rw [hexLoop, hc] at hloop
    dsimp only at hloop
    split_ifs at hloop
    rwa [shift_or_hexDigit hc] at hloop

private theorem parseUl_leads (h : parseUl text = some n) :
    (text.dropWhile hSpace).head?.any hDigit ∧ Leads decDigit 10 0 (text.dropWhile hSpace) n := by
  unfold parseUl at h
  dsimp only at h
  split_ifs at h with hhead
  refine ⟨hhead, leads_of_loop (fun _ => rfl) ?_ ?_ h⟩
  · intro c s v hc
    have hno : hDigit c = false := by
      unfold decDigit at hc
      split_ifs at hc with hd
      exact eq_false_of_ne_true hd
    rw [digitsLoop, hno]
    rfl
  · intro c s v d hc hloop
    unfold decDigit at hc
    split_ifs at hc with hd
    cases hc
    rw [digitsLoop, if_pos hd] at hloop
    split_ifs at hloop
    rwa [Nat.mul_comm v 10] at hloop

end Numbers

/-- A line as it stands on the wire, without its newline. -/
def LineOf (text line : List UInt8) : Prop := 0x0a ∉ text ∧ dropCr text = line

/-- A text that starts with the hexadecimal digits of `n`. -/
def SizeText (text : List UInt8) (n : Nat) : Prop :=
  ∃ line, LineOf text line ∧ (line.head?.bind hexDigit).isSome ∧ Leads hexDigit 16 0 line n

/-- Chunks, each behind its size, up to one of size zero and the trailers. -/
inductive Chunked : List UInt8 → List UInt8 → Prop
  | last {size last : List UInt8} {texts : List (List UInt8)} (hsize : SizeText size 0)
      (htexts : ∀ t ∈ texts, ∃ line, LineOf t line ∧ line ≠ []) (hlast : LineOf last []) :
      Chunked (wireLines (size :: (texts ++ [last]))) []
  | chunk {size data blank enc coded : List UInt8} (hsize : SizeText size data.length)
      (hdata : data ≠ []) (hblank : LineOf blank []) (h : Chunked enc coded) :
      Chunked (wireLines [size] ++ (data ++ (wireLines [blank] ++ enc))) (data ++ coded)

def EndsChunked (res : HttpResponse) : Prop :=
  ∃ te, headerGet res.headers (ascii "Transfer-Encoding") = some te ∧
    ciPrefix (lastCoding te) (ascii "chunked")

/-- The bytes `enc` are a body delimited as the headers say, with the content `coded`. -/
inductive Framed (res : HttpResponse) (wantBody : Bool) (ended : Prop) :
    List UInt8 → List UInt8 → Prop
  | none (h : noBody res wantBody) : Framed res wantBody ended [] []
  | chunked {enc coded : List UInt8} (hbody : ¬ noBody res wantBody) (hte : EndsChunked res)
      (h : Chunked enc coded) : Framed res wantBody ended enc coded
  | length {coded : List UInt8} (hbody : ¬ noBody res wantBody) (hte : ¬ EndsChunked res)
      (hsome : headerValues res.headers (ascii "Content-Length") ≠ [])
      (h : ∀ v ∈ headerValues res.headers (ascii "Content-Length"),
        Leads decDigit 10 0 (v.dropWhile hSpace) coded.length) :
      Framed res wantBody ended coded coded
  | close {coded : List UInt8} (hbody : ¬ noBody res wantBody) (hte : ¬ EndsChunked res)
      (hnone : headerValues res.headers (ascii "Content-Length") = []) (hended : ended) :
      Framed res wantBody ended coded coded

private theorem contentLength_leads {vs : List (List UInt8)} {seen len : Option Nat}
    (h : contentLength vs seen = .ok len) :
    (vs = [] → len = seen) ∧ (vs ≠ [] ∨ seen ≠ none → ∃ n, len = some n ∧ (∀ k ∈ seen, k = n) ∧
      ∀ v ∈ vs, Leads decDigit 10 0 (v.dropWhile hSpace) n) := by
  induction vs generalizing seen with
  | nil =>
    cases h
    refine ⟨fun _ => rfl, fun hne => ?_⟩
    obtain ⟨n, hn⟩ := Option.ne_none_iff_exists'.mp (hne.resolve_left fun h => h rfl)
    exact ⟨n, hn, fun k hk => by rw [hn] at hk; cases hk; rfl, forall_mem_nil _⟩
  | cons v vs ih =>
    rw [contentLength] at h
    cases hv : parseUl v with
    | none => simp [hv] at h
    | some k =>
      rw [hv] at h
      dsimp only at h
      split_ifs at h with hany
      obtain ⟨n, hlen, hk, hvs⟩ := (ih h).2 (.inr (Option.some_ne_none k))
      obtain rfl : k = n := hk k rfl
      refine ⟨fun h => absurd h (cons_ne_nil v vs), fun _ => ⟨k, hlen, fun j hj => ?_, ?_⟩⟩
      · rw [Option.mem_def.mp hj] at hany
        simpa using hany
      · rw [forall_mem_cons]
        exact ⟨(parseUl_leads hv).2, hvs⟩

/-- The connection has ended and nothing of it is unread. -/
def HConn.Ended (c : HConn) : Prop := c.eof = true ∧ c.buf = []

section Fill

variable (deadline : Nat)

private theorem hcFill_result (l : Link σ) : match (hcFill net deadline l).1 with
    | .data => (hcFill net deadline l).2.conn.buf ≠ []
    | .eof => (hcFill net deadline l).2.conn.Ended
    | .err _ => True := by
  have hconn := hcArm_buf net deadline l
  rw [hcFill_apply]
  split_ifs with hbuf heof
  · exact hbuf
  · exact ⟨heof, not_not.mp hbuf⟩
  · trivial
  generalize hcArm net deadline l = r at hconn ⊢
  obtain ⟨_ | _, l1⟩ := r
  · trivial
  dsimp only at hconn ⊢
  unfold hcRefill
  dsimp only
  cases hread : (net.read l1.conn.ctx l1.wire.env).1 with
  | data bs => exact ne_nil_of_length_pos (net.read_data _ _ bs hread).1
  | eof => exact ⟨rfl, by rw [hconn]; exact not_not.mp hbuf⟩
  | timeout => trivial
  | fail => trivial

private theorem hcRead_ok {max : Nat} (hmax : max ≠ 0) {l : Link σ} {d : List UInt8}
    (h : (hcRead net max deadline l).1 = .ok d) :
    d.length ≤ max ∧ (d = [] → (hcRead net max deadline l).2.conn.Ended) := by
  have hfill := hcFill_result net deadline l
  simp only [hcRead, cond_apply, if_neg hmax, bind_apply] at h ⊢
  generalize hcFill net deadline l = r at hfill h ⊢
  obtain ⟨_ | _ | e, l1⟩ := r
  · cases h
    refine ⟨length_take_le _ _, fun hnil => ?_⟩
    exact absurd ((take_eq_nil_iff.mp hnil).resolve_left hmax) hfill
  · cases h
    exact ⟨Nat.zero_le _, fun _ => hfill⟩
  · cases h

end Fill

/-- The bytes `enc` were taken and `data` was handed on. -/
structure Rx.Yields (enc data : List UInt8) (r r' : Rx (τ × List UInt8) σ) : Prop where
  draws : Link.Draws enc r.link r'.link
  out : r'.out.2 = r.out.2 ++ data

namespace Rx.Yields

variable {r r' r'' : Rx (τ × List UInt8) σ} {enc enc' data data' : List UInt8}

private theorem refl (r : Rx (τ × List UInt8) σ) : r.Yields [] [] r :=
  ⟨.refl _, (append_nil _).symm⟩

private theorem trans (h : r.Yields enc data r') (h' : r'.Yields enc' data' r'') :
    r.Yields (enc ++ enc') (data ++ data') r'' :=
  ⟨h.draws.trans h'.draws, by rw [h'.out, h.out, append_assoc]⟩

private theorem skip (h : r.Yields enc [] r') (h' : r'.Yields enc' data r'') :
    r.Yields (enc ++ enc') data r'' := h.trans h'

end Rx.Yields

section Readers

variable {fn : WireSink τ σ} (deadline : Nat)
  (hfn : ∀ d, Steps (fun p p' => p.2.Grows WireEvent.Sunk p'.2) (fn d))
  {r : Rx (τ × List UInt8) σ}

private theorem hcLine_yields {line : List UInt8}
    (h : (onLink (hcLine net httpLineMax deadline) r).1 = .ok line) :
    ∃ text, r.Yields (wireLines [text]) [] (onLink (hcLine net httpLineMax deadline) r).2 ∧
      LineOf text line := by
  obtain ⟨bs, hd, hline⟩ := hcLine_draws net deadline httpLineMax r.link
  obtain ⟨text, rfl, hno, rfl⟩ := hline line h
  refine ⟨text, ⟨?_, (append_nil _).symm⟩, hno, rfl⟩
  rw [wireLines, flatMap_singleton]
  exact hd

private theorem readChunkSize_yields {n : Nat} (h : (readChunkSize net deadline r).1 = .ok n) :
    ∃ text, r.Yields (wireLines [text]) [] (readChunkSize net deadline r).2 ∧ SizeText text n := by
  have hline := @hcLine_yields σ τ net deadline r
  simp only [readChunkSize, bind_apply] at h ⊢
  generalize onLink (hcLine net httpLineMax deadline) r = q at h hline ⊢
  obtain ⟨e | line, r1⟩ := q
  · cases h
  obtain ⟨text, hy, hof⟩ := hline rfl
  dsimp only at h ⊢
  cases hp : parseHex (untilNul line) with
  | none => simp [hp] at h
  | some size =>
    rw [hp] at h
    cases h
    obtain ⟨hhead, hleads⟩ := parseHex_leads hp
    refine ⟨text, hy, line, hof, ?_, hleads⟩
    cases line with
    | nil => simp [untilNul] at hhead
    | cons c line =>
      by_cases hc : c = 0
      · simp [untilNul, hc] at hhead
      · simpa [untilNul, hc] using hhead

private theorem readTrailers_yields {fuel : Nat}
    (h : (readTrailers net deadline fuel r).1 = .ok ()) :
    ∃ texts last, r.Yields (wireLines (texts ++ [last])) [] (readTrailers net deadline fuel r).2 ∧
      (∀ t ∈ texts, ∃ line, LineOf t line ∧ line ≠ []) ∧ LineOf last [] := by
  induction fuel generalizing r with
  | zero => cases h
  | succ fuel ih =>
    have hline := @hcLine_yields σ τ net deadline r
    simp only [readTrailers, bind_apply] at h ⊢
    generalize onLink (hcLine net httpLineMax deadline) r = q at h hline ⊢
    obtain ⟨e | _ | ⟨c, line⟩, r1⟩ := q
    · cases h
    · obtain ⟨text, hy, hof⟩ := hline rfl
      exact ⟨[], text, hy, forall_mem_nil _, hof⟩
    obtain ⟨text, hy, hof⟩ := hline rfl
    simp only [bind_apply] at h ⊢
    obtain ⟨texts, last, hrest, htexts, hlast⟩ := ih h
    have hadd : r1.Yields [] [] (addTrailer (c :: line) r1).2 := by
      simp only [addTrailer, modify_apply]
      split_ifs
      · exact ⟨.still rfl rfl rfl, (append_nil _).symm⟩
      · exact .refl r1
    refine ⟨text :: texts, last, ?_, ?_, hlast⟩
    · simpa [wireLines] using (hy.skip hadd).skip hrest
    · rw [forall_mem_cons]
      exact ⟨⟨_, hof, cons_ne_nil _ _⟩, htexts⟩

include hfn

private theorem handPiece_yields {max : Nat} (hmax : max ≠ 0) {d : List UInt8}
    (h : (handPiece net (collecting fn) max deadline r).1 = .ok d) :
    r.Yields d d (handPiece net (collecting fn) max deadline r).2 ∧ d.length ≤ max ∧
      (d = [] → (handPiece net (collecting fn) max deadline r).2.link.conn.Ended) := by
  obtain ⟨bs, e, hdraws, hout, -, hconn, hok⟩ := handPiece_gives net deadline hfn max r
  obtain ⟨rfl, rfl, hread⟩ := hok d h
  obtain ⟨hlen, hended⟩ := hcRead_ok net deadline hmax hread
  exact ⟨⟨hdraws, hout⟩, hlen, fun hnil => hconn ▸ hended hnil⟩

private theorem readExactly_yields {fuel want : Nat} (hfuel : want ≤ fuel)
    (h : (readExactly net (collecting fn) deadline fuel want r).1 = .ok ()) :
    ∃ d, d.length = want ∧
      r.Yields d d (readExactly net (collecting fn) deadline fuel want r).2 := by
  induction fuel generalizing want r with
  | zero => exact ⟨[], (Nat.le_zero.mp hfuel).symm, .refl r⟩
  | succ fuel ih =>
    by_cases hwant : want = 0
    · rw [readExactly, if_pos hwant]
      exact ⟨[], hwant.symm, .refl r⟩
    have hpiece := @handPiece_yields σ τ net fn deadline hfn r (min want httpRxbuf)
      (by simp [hwant, httpRxbuf])
    rw [readExactly_succ net (collecting fn) deadline fuel hwant, bind_apply] at h ⊢
    generalize handPiece net (collecting fn) (min want httpRxbuf) deadline r = q at h hpiece ⊢
    obtain ⟨e | _ | ⟨c, d⟩, r1⟩ := q
    · cases h
    · cases h
    obtain ⟨hy, hlen, -⟩ := hpiece rfl
    have hpos : 0 < (c :: d).length := Nat.succ_pos _
    obtain ⟨d', hlen', hrest⟩ := ih (by omega) h
    exact ⟨c :: d ++ d', by rw [length_append, hlen']; omega, hy.trans hrest⟩

private theorem readCloseLoop_yields {fuel : Nat}
    (h : (readCloseLoop net (collecting fn) deadline fuel r).1 = .ok ()) :
    ∃ d, r.Yields d d (readCloseLoop net (collecting fn) deadline fuel r).2 ∧
      (readCloseLoop net (collecting fn) deadline fuel r).2.link.conn.Ended := by
  induction fuel generalizing r with
  | zero => cases h
  | succ fuel ih =>
    have hpiece := @handPiece_yields σ τ net fn deadline hfn r httpRxbuf (by decide)
    rw [readCloseLoop_succ, bind_apply] at h ⊢
    generalize handPiece net (collecting fn) httpRxbuf deadline r = q at h hpiece ⊢
    obtain ⟨e | _ | ⟨c, d⟩, r1⟩ := q
    · cases h
    · exact ⟨[], (hpiece rfl).1, (hpiece rfl).2.2 rfl⟩
    · obtain ⟨d', hrest, hended⟩ := ih h
      exact ⟨c :: d ++ d', (hpiece rfl).1.trans hrest, hended⟩

private theorem readChunks_yields {budget : Nat}
    (h : (readChunks net (collecting fn) deadline budget r).1 = .ok ()) :
    ∃ enc coded, r.Yields enc coded (readChunks net (collecting fn) deadline budget r).2 ∧
      Chunked enc coded := by
  induction budget generalizing r with
  | zero =>
    simp only [readChunks, bind_apply] at h
    generalize readChunkSize net deadline r = q at h
    obtain ⟨e | n, r1⟩ := q <;> cases h
  | succ budget ih =>
    have hsize := @readChunkSize_yields σ τ net deadline r
    simp only [readChunks, bind_apply] at h ⊢
    generalize readChunkSize net deadline r = q at h hsize ⊢
    obtain ⟨e | _ | n, r1⟩ := q
    · cases h
    · obtain ⟨size, hy, htext⟩ := hsize rfl
      obtain ⟨texts, last, hrest, htexts, hlast⟩ := readTrailers_yields net deadline h
      refine ⟨_, _, ?_, .last htext htexts hlast⟩
      simpa [wireLines] using hy.skip hrest
    obtain ⟨size, hy, htext⟩ := hsize rfl
    have hexact := @readExactly_yields σ τ net fn deadline hfn r1 (n + 1) (n + 1) (Nat.le_refl _)
    simp only [bind_apply] at h ⊢
    generalize readExactly net (collecting fn) deadline (n + 1) (n + 1) r1 = q at h hexact ⊢
    obtain ⟨e | _, r2⟩ := q
    · cases h
    obtain ⟨data, hlen, hdata⟩ := hexact rfl
    have hline := @hcLine_yields σ τ net deadline r2
    simp only [bind_apply] at h ⊢
    generalize onLink (hcLine net httpLineMax deadline) r2 = q at h hline ⊢
    obtain ⟨e | _ | ⟨c, line⟩, r3⟩ := q
    · cases h
    · obtain ⟨blank, hblank, hof⟩ := hline rfl
      obtain ⟨enc, coded, hrest, hchunked⟩ := ih h
      refine ⟨_, _, hy.skip (hdata.trans (hblank.skip hrest)),
        .chunk (hlen ▸ htext) ?_ hof hchunked⟩
      exact ne_nil_of_length_pos (by omega)
    · cases h

private theorem readBody_framed {res : HttpResponse} {wantBody : Bool} {f : Framing}
    (hf : decideFraming res wantBody = .ok f)
    (h : (readBody net f (collecting fn) deadline r).1 = .ok ()) :
    ∃ enc coded, r.Yields enc coded (readBody net f (collecting fn) deadline r).2 ∧
      Framed res wantBody
        (readBody net f (collecting fn) deadline r).2.link.conn.Ended enc coded := by
  have hte : (headerGet res.headers (ascii "Transfer-Encoding")).any (fun te =>
      ciPrefix (lastCoding te) (ascii "chunked")) = true ↔ EndsChunked res := by
    rw [Option.any_eq_true]
    exact Iff.rfl
  unfold decideFraming at hf
  dsimp only at hf
  generalize (headerGet res.headers (ascii "Transfer-Encoding")).any _ = chunked at hf hte
  generalize hlen : (if chunked = true then Except.ok none
    else contentLength (headerValues res.headers (ascii "Content-Length")) none) = len at hf
  rcases len with e | len
  · cases hf
  dsimp only at hf
  split_ifs at hf with hno hclose
  · cases hf
    obtain ⟨d, hd, hy⟩ := readExactly_yields net deadline hfn (Nat.zero_le 0) h
    obtain rfl : d = [] := eq_nil_of_length_eq_zero hd
    exact ⟨[], [], hy, .none hno⟩
  · cases hf
    obtain ⟨hchunked, hnone⟩ : chunked = false ∧ len = none := by simpa using hclose
    obtain ⟨d, hy, hended⟩ := readCloseLoop_yields net deadline hfn h
    rw [hchunked, if_neg Bool.false_ne_true] at hlen
    refine ⟨d, d, hy, .close hno (fun hends => ?_) ?_ hended⟩
    · exact Bool.false_ne_true (hchunked.symm.trans (hte.mpr hends))
    · by_contra hsome
      obtain ⟨n, hn, -⟩ := (contentLength_leads hlen).2 (.inl hsome)
      cases hnone.symm.trans hn
  cases hf
  cases chunked with
  | true =>
    obtain ⟨enc, coded, hy, hchunked⟩ := readChunks_yields net deadline hfn h
    exact ⟨enc, coded, hy, .chunked hno (hte.mp rfl) hchunked⟩
  | false =>
    have hlen' : contentLength (headerValues res.headers (ascii "Content-Length")) none = .ok len :=
      hlen
    obtain ⟨n, rfl⟩ : ∃ n, len = some n := by
      cases len with
      | none => exact absurd rfl hclose
      | some n => exact ⟨n, rfl⟩
    obtain ⟨d, hd, hy⟩ := readExactly_yields net deadline hfn (Nat.le_refl n) h
    have hsome : headerValues res.headers (ascii "Content-Length") ≠ [] := fun hnil => by
      cases (contentLength_leads hlen').1 hnil
    obtain ⟨m, hm, -, hvs⟩ := (contentLength_leads hlen').2 (.inl hsome)
    cases hm
    refine ⟨d, d, hy, .length hno (fun hends => ?_) hsome (hd ▸ hvs)⟩
    exact Bool.false_ne_true (hte.mpr hends)

private theorem bodyFrom_framed {i : Fin httpPoolMax} {f : Framing} {t : τ} {s : Ex σ J K}
    {res : HttpResponse} {wantBody : Bool} (hf : decideFraming res wantBody = .ok f)
    (h : (bodyFrom net i f fn deadline t s).1.1 = .ok ()) :
    ∃ enc, Ex.Draws i enc s (bodyFrom net i f fn deadline t s).2 ∧
      Framed res wantBody ((bodyFrom net i f fn deadline t s).2.pool i).Ended enc
        (handed net i f fn deadline t s) := by
  let r : Rx (τ × List UInt8) σ := ⟨⟨s.pool i, s.wire⟩, s.raw, (t, [])⟩
  have hforget : readBody net f fn deadline r.forget =
      ((readBody net f (collecting fn) deadline r).1,
        (readBody net f (collecting fn) deadline r).2.forget) := readBody_forget net deadline f r
  have hok : (readBody net f (collecting fn) deadline r).1 = .ok () := by
    have hread : (readBody net f fn deadline r.forget).1 = .ok () := h
    rwa [hforget] at hread
  obtain ⟨enc, coded, hy, hframed⟩ := readBody_framed net deadline hfn hf hok
  have hcoded : handed net i f fn deadline t s = coded := hy.out
  have hlink : (readBody net f fn deadline r.forget).2.link =
      (readBody net f (collecting fn) deadline r).2.link := by
    rw [hforget]
    rfl
  unfold Ex.Draws bodyFrom
  dsimp only
  rw [Function.update_self, hcoded]
  change ∃ enc, Link.Draws enc r.link (readBody net f fn deadline r.forget).2.link ∧
    Framed res wantBody (readBody net f fn deadline r.forget).2.link.conn.Ended enc coded
  rw [hlink]
  exact ⟨enc, hy.draws, hframed⟩

end Readers

section Exchange

variable {i : Fin httpPoolMax} {s : Ex σ J K} {h : Hop}

private theorem receiveBody_framed {f : Framing} {codings : List HttpInflate} {deadline : Nat}
    {res : HttpResponse} {wantBody : Bool} (hf : decideFraming res wantBody = .ok f)
    (h : (receiveBody net stores i f codings deadline s).1 = .ok ()) :
    ∃ enc coded, Ex.Draws i enc s (receiveBody net stores i f codings deadline s).2 ∧
      Framed res wantBody
        ((receiveBody net stores i f codings deadline s).2.pool i).Ended enc coded ∧
      decodedBody net stores i f codings deadline s =
        if codings = [] then coded else uncoded stores s.out.max codings coded := by
  unfold receiveBody decodedBody at *
  split_ifs at h ⊢ with hc
  · obtain ⟨enc, hd, hframed⟩ := bodyFrom_framed net deadline (outWrite_keeps net) hf h
    exact ⟨enc, _, hd, hframed, rfl⟩
  have hbody := @bodyFrom_framed σ HBuf J K net sinkToBuf deadline (sinkToBuf_keeps _) i f
    (hbInit codedMax) s res wantBody hf
  simp only [receiveCoded, bind_apply] at h ⊢
  generalize bodyFrom net i f sinkToBuf deadline (hbInit codedMax) s = r at h hbody ⊢
  obtain ⟨⟨_ | _, coded⟩, s1⟩ := r
  · cases h
  obtain ⟨enc, hd, hframed⟩ := hbody rfl
  refine ⟨enc, _, hd.then_nothing ?_, hframed, rfl⟩
  exact .sunk rfl rfl (decodeBody_keeps net stores coded.data codings (s1.out, s1.wire))

private theorem Ex.Moves.logs {s' : Ex σ J K} (h : Ex.Moves s s') : Ex.Logs s s' :=
  h.grows.mono fun _ _ => trivial

private theorem attempts_sent {origin head : List UInt8} {n : Nat}
    (hok : (attempts net h origin head n s).1 = .ok i) :
    ∃ s0, Ex.Logs s s0 ∧
      sendAndRead net h head i s0 = (.ok (), (attempts net h origin head n s).2) := by
  induction n generalizing s with
  | zero => cases hok
  | succ n ih =>
    have hmoves := (acquire_moves net h origin s).logs
    simp only [attempts, bind_apply] at hok ⊢
    generalize acquire net h origin s = r at hok hmoves ⊢
    obtain ⟨e | ⟨j, reused⟩, s1⟩ := r
    · cases hok
    have hworks : Ex.Logs s1 (sendAndRead net h head j s1).2 :=
      (sendAndRead_works net h head s1 : Ex.Works _ j s1 _).grows.mono fun _ _ => trivial
    simp only [bind_apply] at hok ⊢
    generalize hsent : sendAndRead net h head j s1 = r at hok hworks ⊢
    obtain ⟨e | _, s2⟩ := r
    · have hclosed := (shutdown_moves net j s2).logs
      simp only [bind_apply, cond_apply] at hok ⊢
      split_ifs at hok ⊢
      · obtain ⟨s0, hlogs, hs0⟩ := ih hok
        exact ⟨s0, ((hmoves.trans hworks).trans hclosed).trans hlogs, hs0⟩
    · cases hok
      exact ⟨s1, hmoves, hsent⟩

private theorem answer_sent (hok : (answer net stores h s).1 = .ok i) :
    ∃ head s0, Ex.Logs s s0 ∧
      sendAndRead net h head i s0 = (.ok (), (answer net stores h s).2) := by
  unfold answer at hok ⊢
  generalize urlOrigin h.u (urlHostMax + 32) = o at hok ⊢
  cases o with
  | error e => cases hok
  | ok origin =>
    obtain ⟨env, hb⟩ := buildRequest_env net stores h s
    simp only [bind_apply] at hok ⊢
    generalize buildRequest net stores h s = r at hok hb ⊢
    obtain ⟨e | head, s1⟩ := r
    · cases hok
    obtain ⟨s0, hlogs, hsent⟩ := attempts_sent net hok
    dsimp only at hb
    subst hb
    exact ⟨head, s0, hlogs, hsent⟩

/-- If the exchange succeeds, one of its connections gave the head of a response and behind it the
bytes of a body framed as this head says; the body of the exchange is its content, decoded. -/
def Answered (h : Hop) (s : Ex σ J K) : Prop :=
  (exchange net stores h s).1 = .ok () → ∃ i s0 s1 taken res raw enc coded codings,
    Ex.Logs s s0 ∧ Ex.Logs s1 (exchange net stores h s).2 ∧ Ex.Draws i (taken ++ enc) s0 s1 ∧
    HeadOf taken res raw ∧ res.status = (exchange net stores h s).2.res.status ∧
    Framed res h.wantBody (s1.pool i).Ended enc coded ∧ codingsOf stores h res = .ok codings ∧
    exchangeBody net stores h s =
      if codings = [] then coded else uncoded stores s.out.max codings coded

end Exchange

private theorem exchange_answered (h : Hop) (s : Ex σ J K) : Answered net stores h s := by
  intro hok
  have hans := @answer_sent σ J K net stores
  have hquiet := answer_quiet net stores h s
  simp only [exchange, bind_apply, exchangeBody] at hok ⊢
  generalize hanswer : answer net stores h s = r at hok hquiet ⊢
  obtain ⟨e | i, s1⟩ := r
  · cases hok
  obtain ⟨head, s0, hlogs, hsent⟩ := hans (by rw [hanswer])
  rw [hanswer] at hsent
  obtain ⟨taken, hhead, hlines⟩ := sendAndRead_draws net (i := i) h head s0
  rw [hsent] at hhead hlines
  have hstatus := beforeBody_status net stores h s1
  simp only [finish, bind_apply] at hok ⊢
  generalize hbefore : beforeBody net stores h s1 = r at hok hstatus ⊢
  obtain ⟨e | ⟨f, codings⟩, s2⟩ := r
  · cases hok
  obtain ⟨hframing, hcodings⟩ := beforeBody_framing net stores (congrArg Prod.fst hbefore)
  have hout : s2.out = s.out := by
    have := (beforeBody_works net stores h s1 : Ex.Works (fun _ => False) i s1 _).out
    rw [hbefore] at this
    exact this.trans hquiet.out
  obtain ⟨enc, coded, hd, hframed, hbody⟩ :=
    receiveBody_framed net stores (s := (bodyStart net h s2).2) hframing hok
  have hafter := (afterBody_moves net h i f true (receiveBody net stores i f codings
    (bodyStart net h s2).1 (bodyStart net h s2).2).2).logs
  have hrc : (receiveBody net stores i f codings (bodyStart net h s2).1
    (bodyStart net h s2).2).1.isOk = true := by
    have : (receiveBody net stores i f codings (bodyStart net h s2).1 (bodyStart net h s2).2).1 =
      .ok () := hok
    rw [this]
    rfl
  refine ⟨i, s0, _, taken, s1.res, s1.raw, enc, coded, codings, hlogs, ?_, ?_, hlines rfl, ?_,
    hframed, hcodings, ?_⟩
  · rw [← hrc] at hafter
    exact hafter
  · exact (hhead.then_nothing (beforeBody_draws net stores hbefore)).trans hd
  · exact (hstatus.symm.trans (finishBody_status net stores h i f codings s2).symm)
  · rw [← hout]
    exact hbody

section Each

variable {P : Hop → Ex σ J K → Prop} (hP : ∀ h s, P h s)

include hP

private theorem hopEach_of_forall (hs : Hops) (s : Ex σ J K) : HopEach P hs s := by
  unfold HopEach
  split
  · trivial
  · exact fun _ => hP _ _

private theorem loopEach_of_forall (plan : Plan) (left : Nat) (hs : Hops) (s : Ex σ J K) :
    LoopEach net stores P plan left hs s := by
  induction left generalizing hs s with
  | zero => exact hopEach_of_forall hP hs s
  | succ left ih =>
    refine ⟨hopEach_of_forall hP hs s, ?_⟩
    split
    · exact ih _ _
    · trivial

private theorem fetchEach_of_forall (req : HttpRequest) (s : Ex σ J K) :
    FetchEach net stores P req s := by
  unfold FetchEach
  split
  · exact loopEach_of_forall net stores hP _ _ _ _
  · trivial

end Each

def sinkingGet (url : String) : HttpRequest := { plainGet url with sink := some 0 }

/-- A redirect without a body, and the response that it leads to. -/
def emptyRedirect : Ex Script Unit Unit := scriptedClient [
  "HTTP/1.1 302 Found\r\nLocation: /b\r\nConnection: close\r\nContent-Length: 0\r\n\r\n",
  "HTTP/1.1 200 OK\r\nContent-Length: 3\r\n\r\nnew"]

end KestrelOS.Http
