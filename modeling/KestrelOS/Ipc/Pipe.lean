import KestrelOS.Lib.Bytes
import KestrelOS.Lib.Machine
import Mathlib.Data.List.GetD

/-!
# Anonymous pipes

The ring of `pipe.c` and the locked sections of its three calls. Any number of tasks read, write
and close; a large write is cut into several sections, between which others run.
-/

namespace KestrelOS.Ipc

open Function Machine List Nat

def pipeBufSize : Nat := 4096

structure Pipe where
  buf : Bytes
  head : Nat
  tail : Nat
  count : Nat
  readers : Nat
  writers : Nat

/-- The loop of `ring_take` with `n` bytes to go; every turn takes a run up to the wrap point. -/
def ringTakeLoop : Nat → Pipe → Nat → List UInt8 × Pipe
  | 0, p, _ => ([], p)
  | fuel + 1, p, n =>
    if 0 < n ∧ 0 < p.count then
      let run := min (min (pipeBufSize - p.head) p.count) n
      let r := ringTakeLoop fuel
        { p with head := (p.head + run) % pipeBufSize, count := p.count - run } (n - run)
      ((List.range run).map (fun i => p.buf (p.head + i)) ++ r.1, r.2)
    else ([], p)

def ringTake (p : Pipe) (n : Nat) : List UInt8 × Pipe := ringTakeLoop n p n

def ringPutLoop : Nat → Pipe → List UInt8 → Nat × Pipe
  | 0, p, _ => (0, p)
  | fuel + 1, p, src =>
    if src ≠ [] ∧ p.count < pipeBufSize then
      let run := min (min (pipeBufSize - p.tail) (pipeBufSize - p.count)) src.length
      let r := ringPutLoop fuel
        { p with
          buf := splice p.buf p.tail run (src.getD · 0)
          tail := (p.tail + run) % pipeBufSize
          count := p.count + run } (src.drop run)
      (run + r.1, r.2)
    else (0, p)

def ringPut (p : Pipe) (src : List UInt8) : Nat × Pipe := ringPutLoop src.length p src

/-- A turn of the loop of `pipe_read` for `n > 0`: what it returns, if it does. -/
def pipeRead (p : Pipe) (n : Nat) : Option (List UInt8) × Pipe :=
  if 0 < p.count then
    let r := ringTake p n
    (some r.1, r.2)
  else if p.writers = 0 then (some [], p)
  else (none, p)

structure WriteCall where
  data : List UInt8
  done : Nat
  ret : Option Int

def pipeWrite (p : Pipe) (c : WriteCall) : WriteCall × Pipe :=
  if p.readers = 0 then ({ c with ret := some (if c.done = 0 then -1 else c.done) }, p)
  else if p.count < pipeBufSize then
    let r := ringPut p (c.data.drop c.done)
    let done := c.done + r.1
    ({ c with done := done, ret := if done < c.data.length then none else some done }, r.2)
  else (c, p)

def pipeClose (p : Pipe) (writable : Bool) : Pipe :=
  if writable then { p with writers := p.writers - 1 } else { p with readers := p.readers - 1 }

/-- The pipe, the write calls by number, and what was accepted, from which call, and delivered so
far. -/
structure Sys where
  pipe : Pipe
  freed : Bool
  calls : Nat → Option WriteCall
  accepted : List (Nat × UInt8)
  delivered : List UInt8

inductive Event
  | begin (id : Nat) (data : List UInt8)
  | write (id : Nat)
  | read (n : Nat)
  | close (writable : Bool)

/-- One locked section, or the start of a write. Nothing reaches a pipe that was freed. -/
def step (s : Sys) (e : Event) : Sys :=
  if s.freed then s
  else
    match e with
    | .begin id data =>
      if (s.calls id).isSome then s
      else
        let call : WriteCall := ⟨data, 0, if data = [] then some 0 else none⟩
        { s with calls := update s.calls id (some call) }
    | .write id =>
      match s.calls id with
      | some ⟨data, done, none⟩ =>
        let r := pipeWrite s.pipe ⟨data, done, none⟩
        { s with
          pipe := r.2
          calls := update s.calls id (some r.1)
          accepted := s.accepted ++ ((data.drop done).take (r.1.done - done)).map (id, ·) }
      | _ => s
    | .read n =>
      if n = 0 then s
      else
        let r := pipeRead s.pipe n
        { s with pipe := r.2, delivered := s.delivered ++ r.1.getD [] }
    | .close writable =>
      let p := pipeClose s.pipe writable
      { s with pipe := p, freed := p.readers = 0 ∧ p.writers = 0 }

def Sys.create (buf : Bytes) (readers writers : Nat) : Sys :=
  ⟨⟨buf, 0, 0, 0, readers, writers⟩, false, fun _ => none, [], []⟩

def Sys.acceptedOf (s : Sys) (id : Nat) : List UInt8 :=
  (s.accepted.filter (·.1 = id)).map Prod.snd

structure Orderly (s : Sys) : Prop where
  in_order : s.delivered <+: s.accepted.map Prod.snd
  count_le : s.pipe.count ≤ pipeBufSize
  count_eq : s.pipe.count = s.accepted.length - s.delivered.length
  tail_eq : s.pipe.tail = (s.pipe.head + s.pipe.count) % pipeBufSize
  read_ends : ∀ n, 0 < n → (pipeRead s.pipe n).1 = some [] →
    s.delivered = s.accepted.map Prod.snd ∧ s.pipe.writers = 0
  write_counts : ∀ id c, s.calls id = some c → ∀ r, c.ret = some r →
    r = (s.acceptedOf id).length ∨ (r = -1 ∧ s.acceptedOf id = [])

def Pipe.contents (p : Pipe) : List UInt8 :=
  (List.range p.count).map fun i => p.buf ((p.head + i) % pipeBufSize)

structure Pipe.Ok (p : Pipe) : Prop where
  head_lt : p.head < pipeBufSize
  count_le : p.count ≤ pipeBufSize
  tail_eq : p.tail = (p.head + p.count) % pipeBufSize

variable {p : Pipe} {s : Sys} {n : Nat}

theorem contents_split (hp : p.Ok) {run : Nat} (hrun : run ≤ p.count)
    (hwrap : run ≤ pipeBufSize - p.head) :
    p.contents = (range run).map (fun i => p.buf (p.head + i)) ++
      Pipe.contents { p with head := (p.head + run) % pipeBufSize, count := p.count - run } := by
  have hhead := hp.head_lt
  rw [Pipe.contents, Pipe.contents, show p.count = run + (p.count - run) by omega, range_add,
    map_append, map_map]
  congr 1
  · refine map_congr_left fun i hi => ?_
    rw [Nat.mod_eq_of_lt (by have := mem_range.mp hi; omega)]
  · simp [Nat.add_assoc]

theorem ringTakeLoop_spec {fuel : Nat} : ∀ {p : Pipe} {n : Nat}, p.Ok → n ≤ fuel →
    let r := ringTakeLoop fuel p n
    r.1 = p.contents.take n ∧ r.2.contents = p.contents.drop n ∧ r.2.Ok ∧
      r.2.writers = p.writers ∧ r.2.readers = p.readers := by
  induction fuel with
  | zero =>
    intro p n hp hn
    obtain rfl : n = 0 := by omega
    simp [ringTakeLoop, hp]
  | succ fuel ih =>
    intro p n hp hn
    obtain ⟨hhead, hcount, htail⟩ := hp
    rw [ringTakeLoop]
    split_ifs with hgo
    · have hsplit := contents_split ⟨hhead, hcount, htail⟩
        (show min (min (pipeBufSize - p.head) p.count) n ≤ p.count by omega) (by omega)
      generalize hrun : min (min (pipeBufSize - p.head) p.count) n = run at *
      have hnext : Pipe.Ok
          { p with head := (p.head + run) % pipeBufSize, count := p.count - run } := by
        refine ⟨mod_lt _ (by decide), by simp only; omega, ?_⟩
        simp only [pipeBufSize] at *
        omega
      obtain ⟨h1, h2, h3, h4⟩ := @ih _ (n - run) hnext (by simp only [pipeBufSize] at *; omega)
      dsimp only
      rw [h1, h2, hsplit]
      have hlen : ((range run).map fun i => p.buf (p.head + i)).length = run := by simp
      have hle : ((range run).map fun i => p.buf (p.head + i)).length ≤ n := by omega
      refine ⟨?_, ?_, h3, h4⟩
      · rw [take_append, take_of_length_le hle, hlen]
      · rw [drop_append, drop_eq_nil_of_le hle, hlen, nil_append]
    · have hnil : p.contents.take n = [] ∧ p.contents.drop n = p.contents := by
        rcases Nat.eq_zero_or_pos n with rfl | hpos
        · simp
        · have h0 : p.count = 0 := by omega
          simp [Pipe.contents, h0]
      exact ⟨hnil.1.symm, hnil.2.symm, ⟨hhead, hcount, htail⟩, rfl, rfl⟩

theorem contents_splice (hp : p.Ok) {src : List UInt8} {run : Nat} (hrun : run ≤ src.length)
    (hspace : run ≤ pipeBufSize - p.count) (hwrap : run ≤ pipeBufSize - p.tail) :
    Pipe.contents { p with
      buf := splice p.buf p.tail run (src.getD · 0)
      tail := (p.tail + run) % pipeBufSize
      count := p.count + run } = p.contents ++ src.take run := by
  obtain ⟨hhead, hcount, htail⟩ := hp
  rw [Pipe.contents, Pipe.contents, range_add, map_append, map_map]
  simp only [pipeBufSize] at *
  congr 1
  · refine map_congr_left fun i hi => ?_
    have hi := mem_range.mp hi
    rw [splice, if_neg (by omega)]
  refine ext_getElem (by simp; omega) fun i hi _ => ?_
  have hi : i < run := by simpa using hi
  have hpos : (p.head + (p.count + i)) % 4096 = p.tail + i := by omega
  simp only [getElem_map, getElem_range, comp_apply, hpos, getElem_take]
  rw [splice, if_pos (by omega), Nat.add_sub_cancel_left, getD_eq_getElem]

theorem ringPutLoop_spec {fuel : Nat} : ∀ {p : Pipe} {src : List UInt8}, p.Ok → src.length ≤ fuel →
    let r := ringPutLoop fuel p src
    r.1 = min src.length (pipeBufSize - p.count) ∧ r.2.contents = p.contents ++ src.take r.1 ∧
      r.2.Ok ∧ r.2.writers = p.writers ∧ r.2.readers = p.readers := by
  induction fuel with
  | zero =>
    intro p src hp hn
    obtain rfl : src = [] := length_eq_zero_iff.mp (by omega)
    simp [ringPutLoop, hp]
  | succ fuel ih =>
    intro p src hp hn
    have ⟨hhead, hcount, htail⟩ := hp
    rw [ringPutLoop]
    split_ifs with hgo
    · obtain ⟨hne, hroom⟩ := hgo
      have hpos := length_pos_iff.mpr hne
      generalize hrun : min (min (pipeBufSize - p.tail) (pipeBufSize - p.count)) src.length = run
      have hcopy := contents_splice hp (show run ≤ src.length by omega) (by omega) (by omega)
      have hnext : Pipe.Ok { p with
          buf := splice p.buf p.tail run (src.getD · 0)
          tail := (p.tail + run) % pipeBufSize
          count := p.count + run } := by
        refine ⟨hhead, by simp only; omega, ?_⟩
        simp only [pipeBufSize] at *
        omega
      obtain ⟨h1, h2, h3, h4⟩ := ih hnext
        (by rw [length_drop]; simp only [pipeBufSize] at *; omega : (src.drop run).length ≤ fuel)
      dsimp only
      rw [h2, hcopy, append_assoc, take_add]
      refine ⟨?_, rfl, h3, h4⟩
      rw [h1, length_drop]
      simp only [pipeBufSize] at *
      omega
    · have h0 : min src.length (pipeBufSize - p.count) = 0 := by
        rw [not_and_or, not_not] at hgo
        rcases hgo with rfl | hfull
        · simp
        · omega
      simp [h0, hp]

/-- The invariant of the system: the ring holds what is accepted and not delivered. -/
structure Sys.Ok (s : Sys) : Prop where
  pipe : s.pipe.Ok
  queue : s.accepted.map Prod.snd = s.delivered ++ s.pipe.contents
  done : ∀ id c, s.calls id = some c → (s.acceptedOf id).length = c.done ∧ c.done ≤ c.data.length
  ret : ∀ id c, s.calls id = some c → ∀ r, c.ret = some r → r = c.done ∨ (r = -1 ∧ c.done = 0)
  fresh : ∀ id, s.calls id = none → s.acceptedOf id = []

theorem Sys.Ok.orderly (h : s.Ok) : Orderly s := by
  obtain ⟨hp, hq, hdone, hret, -⟩ := h
  have hlen : s.accepted.length = s.delivered.length + s.pipe.count := by
    simpa [Pipe.contents] using congrArg length hq
  refine ⟨⟨_, hq.symm⟩, hp.count_le, by omega, hp.tail_eq, ?_, ?_⟩
  · intro n hn hend
    rw [pipeRead] at hend
    split_ifs at hend with hcount hw
    · have htake := (@ringTakeLoop_spec n _ _ hp (Nat.le_refl _)).1
      rw [ringTake, Option.some.injEq] at hend
      rw [hend] at htake
      have := congrArg length htake
      simp [Pipe.contents] at this
      omega
    · have h0 : s.pipe.contents = [] := by simp [Pipe.contents, show s.pipe.count = 0 by omega]
      rw [hq, h0, append_nil]
      exact ⟨rfl, hw⟩
  · intro id c hc r hr
    obtain ⟨hacc, -⟩ := hdone id c hc
    rcases hret id c hc r hr with h | ⟨h1, h2⟩
    · exact .inl (by rw [hacc, h])
    · exact .inr ⟨h1, length_eq_zero_iff.mp (by omega)⟩

theorem acceptedOf_append (s : Sys) (id id' : Nat) (data : List UInt8) :
    ((s.accepted ++ data.map (id, ·)).filter (·.1 = id')).map Prod.snd =
      s.acceptedOf id' ++ if id' = id then data else [] := by
  rw [filter_append, map_append, filter_map]
  split_ifs with h
  · simp [Sys.acceptedOf, h, comp_def]
  · simp [Sys.acceptedOf, Ne.symm h, comp_def]

theorem pipeWrite_spec (hp : p.Ok) (c : WriteCall) (hle : c.done ≤ c.data.length)
    (hrun : c.ret = none) :
    let r := pipeWrite p c
    r.1.data = c.data ∧ c.done ≤ r.1.done ∧ r.1.done ≤ c.data.length ∧
      r.2.contents = p.contents ++ (c.data.drop c.done).take (r.1.done - c.done) ∧ r.2.Ok ∧
      ∀ v, r.1.ret = some v → v = r.1.done ∨ (v = -1 ∧ r.1.done = 0) := by
  obtain ⟨hput, hcont, hok, -⟩ := ringPutLoop_spec hp (Nat.le_refl (c.data.drop c.done).length)
  rw [pipeWrite]
  by_cases hreaders : p.readers = 0
  · rw [if_pos hreaders]
    refine ⟨rfl, Nat.le_refl _, hle, by simp, hp, ?_⟩
    intro v hv
    by_cases h0 : c.done = 0 <;> simp_all
  by_cases hroom : p.count < pipeBufSize
  · rw [if_neg hreaders, if_pos hroom]
    rw [length_drop] at hput
    refine ⟨rfl, Nat.le_add_right _ _, by dsimp only [ringPut]; rw [length_drop]; omega, ?_, hok,
      ?_⟩
    · dsimp only [ringPut]
      rw [hcont, Nat.add_sub_cancel_left]
    intro v hv
    dsimp only at hv ⊢
    split_ifs at hv
    exact .inl (by simpa using hv.symm)
  · rw [if_neg hreaders, if_neg hroom]
    exact ⟨rfl, Nat.le_refl _, hle, by simp, hp, by simp [hrun]⟩

theorem step_ok (e : Event) (h : s.Ok) : (step s e).Ok := by
  obtain ⟨hp, hq, hdone, hret, hfresh⟩ := h
  unfold step
  split_ifs
  · exact ⟨hp, hq, hdone, hret, hfresh⟩
  cases e with
  | begin id data =>
    dsimp only
    by_cases hused : (s.calls id).isSome = true
    · rw [if_pos hused]
      exact ⟨hp, hq, hdone, hret, hfresh⟩
    have h0 := hfresh id (by simpa using hused)
    rw [if_neg hused]
    refine ⟨hp, hq, ?_, ?_, ?_⟩
    · grind [Sys.acceptedOf]
    · grind
    · grind [Sys.acceptedOf]
  | write id =>
    dsimp only
    split
    · rename_i data done hc
      obtain ⟨hacc, hle⟩ := hdone id _ hc
      obtain ⟨hdata, hge, hmax, hcont, hok, hr⟩ := pipeWrite_spec hp ⟨data, done, none⟩ hle rfl
      dsimp only at hacc hdata hge hmax hcont
      have happ := acceptedOf_append s id
      generalize pipeWrite s.pipe ⟨data, done, none⟩ = r at *
      refine ⟨hok, ?_, ?_, ?_, ?_⟩
      · simp [hq, hcont, comp_def]
      · intro id' c' hc'
        rw [Sys.acceptedOf, happ]
        by_cases hid : id' = id
        · subst hid
          obtain rfl : r.1 = c' := by simpa using hc'
          simp only [if_pos, length_append, hacc, length_take, length_drop, hdata]
          omega
        · simpa [hid] using hdone id' c' (by simpa [hid] using hc')
      · intro id' c' hc'
        by_cases hid : id' = id
        · subst hid
          obtain rfl : r.1 = c' := by simpa using hc'
          exact hr
        · exact hret id' c' (by simpa [hid] using hc')
      · intro id' hc'
        have hid : id' ≠ id := by
          rintro rfl
          simp at hc'
        rw [Sys.acceptedOf, happ, if_neg hid, append_nil]
        exact hfresh id' (by simpa [hid] using hc')
    · exact ⟨hp, hq, hdone, hret, hfresh⟩
  | read n =>
    dsimp only
    split_ifs
    · exact ⟨hp, hq, hdone, hret, hfresh⟩
    obtain ⟨h1, h2, h3, -⟩ := @ringTakeLoop_spec n _ _ hp (Nat.le_refl _)
    rw [pipeRead]
    split_ifs
    · exact ⟨h3, by simp [ringTake, h1, h2, hq], hdone, hret, hfresh⟩
    · exact ⟨hp, by simpa using hq, hdone, hret, hfresh⟩
    · exact ⟨hp, by simpa using hq, hdone, hret, hfresh⟩
  | close writable =>
    dsimp only
    rw [pipeClose]
    split_ifs
    · exact ⟨⟨hp.1, hp.2, hp.3⟩, hq, hdone, hret, hfresh⟩
    · exact ⟨⟨hp.1, hp.2, hp.3⟩, hq, hdone, hret, hfresh⟩

/-- In every interleaving of the sections. -/
theorem pipe_bytes_are_delivered_in_order (buf : Bytes) (readers writers : Nat) (es : List Event) :
    Always step Orderly es (Sys.create buf readers writers) := by
  refine always_of_invariant (I := Sys.Ok) (fun s e => step_ok e) (fun s => Sys.Ok.orderly) es ?_
  refine ⟨⟨?_, ?_, ?_⟩, ?_, ?_, ?_, ?_⟩ <;>
    simp [Sys.create, Sys.acceptedOf, Pipe.contents, pipeBufSize]

/-- A write to a pipe without readers returns -1 and not a number of bytes. -/
theorem broken_pipe_is_not_counted :
    let s := run step [.begin 0 [1], .close false, .write 0] (Sys.create (fun _ => 0) 1 1)
    (s.calls 0).bind (·.ret) = some (-1) ∧ ¬ (-1 : Int) = (s.acceptedOf 0).length := by
  decide

end KestrelOS.Ipc
