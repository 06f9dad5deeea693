import KestrelOS.Lib.Ledger
import KestrelOS.Lib.Machine

/-!
# The physical page allocator

One bit for each 4 KiB page below 4 GiB. Pages stand for their addresses. A panic ends the run. The
pages that callers were handed, at some time or still, are recorded beside the allocator's state.
-/

namespace KestrelOS.Mem

open List Nat Function
open Machine (Meets Always)

def MAX_PHYS : Nat := 4 * 1024 * 1024 * 1024

def MAX_PAGES : Nat := MAX_PHYS / 4096

def E820_USABLE : Nat := 1

structure E820Entry where
  base : UInt64
  len : UInt64
  type : Nat

structure Pmm where
  used : Nat → Bool
  freeCount : Nat
  maxPhys : Nat
  searchFrom : Nat

namespace Pmm

def mark (v : Bool) (s : Pmm) (p : Nat) : Pmm := { s with
  used := Function.update s.used p v
  freeCount := if v then s.freeCount - 1 else s.freeCount + 1 }

def markNew (v : Bool) (s : Pmm) (p : Nat) : Pmm := if s.used p = v then s else s.mark v p

def allUsed : Pmm := ⟨fun _ => true, 0, 0, 0⟩

def limit (s : Pmm) : Nat := s.maxPhys / 4096

end Pmm

def pageDown (a : Nat) : Nat := a / 4096 * 4096

def pageUp (a : Nat) : Nat := pageDown ((a + 4095) % 2 ^ 64)

def E820Entry.stop (e : E820Entry) : Nat :=
  min (pageDown ((e.base.toNat + e.len.toNat) % 2 ^ 64)) MAX_PHYS

def addEntry (s : Pmm) (e : E820Entry) : Pmm :=
  if e.type ≠ E820_USABLE then s
  else
    let start := pageUp e.base.toNat
    let s := (List.range' (start / 4096) (e.stop / 4096 - start / 4096)).foldl (Pmm.markNew false) s
    { s with maxPhys := max s.maxPhys e.stop }

/-- The kernel is linked into the top 2 GiB, so its physical end is below 2 GiB. -/
def pmmInit (map : List E820Entry) (kernelEnd : Fin (2 ^ 31)) : Pmm :=
  let s := map.foldl addEntry .allUsed
  let pages := pageUp kernelEnd / 4096
  { (List.range pages).foldl (Pmm.markNew true) s with searchFrom := pages }

def pmmAlloc (s : Pmm) : Option (Nat × Pmm) :=
  ((List.range' s.searchFrom (s.limit - s.searchFrom)).find? fun p => !s.used p).map fun p =>
    (p, { s.mark true p with searchFrom := p + 1 })

/-- The scan behind a used page at `p + i` goes on at `p + i + 1`. -/
def contigFrom (s : Pmm) (npages p : Nat) : Option Nat :=
  if p + npages ≤ s.limit then
    match (List.range npages).find? fun i => s.used (p + i) with
    | none => some p
    | some i => contigFrom s npages (p + i + 1)
  else none
termination_by s.limit + 1 - p

def pmmAllocContig (s : Pmm) (npages : Nat) : Option (Nat × Pmm) :=
  (contigFrom s npages 256).map fun p => (p, (List.range' p npages).foldl (Pmm.mark true) s)

def pmmFree (s : Pmm) (p : Nat) : Option Pmm :=
  if s.used p then
    some { s.mark false p with searchFrom := if p < s.searchFrom then p else s.searchFrom }
  else none

inductive Op
  | alloc
  | allocContig (npages : Nat)
  | free (p : Nat)
  | freeContig (p npages : Nat)

structure Alloc where
  pmm : Pmm
  /-- Handed out at some time. -/
  ever : Finset Nat
  /-- Handed out and not freed since. -/
  held : Finset Nat

def Alloc.hand (a : Alloc) (ps : Finset Nat) (s : Pmm) : Alloc := ⟨s, a.ever ∪ ps, a.held ∪ ps⟩

def Alloc.free (a : Alloc) (p : Nat) : Option Alloc :=
  (pmmFree a.pmm p).map fun s => ⟨s, a.ever, a.held.erase p⟩

def step (a : Option Alloc) (op : Op) : Option Alloc :=
  a.bind fun a => match op with
    | .alloc => (pmmAlloc a.pmm).map fun r => a.hand {r.1} r.2
    | .allocContig n => (pmmAllocContig a.pmm n).map fun r => a.hand (Finset.Ico r.1 (r.1 + n)) r.2
    | .free p => a.free p
    | .freeContig p n => (List.range' p n).foldlM Alloc.free a

def boot (map : List E820Entry) (kernelEnd : Fin (2 ^ 31)) : Option Alloc :=
  some ⟨pmmInit map kernelEnd, ∅, ∅⟩

def Allowed (a : Option Alloc) : Op → Prop
  | .alloc => True
  | .allocContig n => 1 ≤ n
  | .free p => ∀ x ∈ a, p ∈ x.ever
  | .freeContig p n => ∀ x ∈ a, ∀ q ∈ List.range' p n, q ∈ x.ever

variable (map : List E820Entry) (kernelEnd : Fin (2 ^ 31))

/-- The page lies within a usable entry. As in the source, an entry of another type that covers it
too does not take it away. -/
def UsableRam (p : Nat) : Prop :=
  ∃ e ∈ map, e.type = E820_USABLE ∧ e.base.toNat ≤ p * 4096 ∧
    (p + 1) * 4096 ≤ e.base.toNat + e.len.toNat

def Fit (x : Alloc) (p : Nat) : Prop :=
  p ∉ x.held ∧ UsableRam map p ∧ kernelEnd ≤ p * 4096

/-- An allocation hands out fit pages, or there are none. -/
def Serves (a : Option Alloc) : Op → Prop
  | .alloc => ∀ x ∈ a, match pmmAlloc x.pmm with
    | none => ∀ p < MAX_PAGES, x.pmm.used p = true
    | some r => Fit map kernelEnd x r.1
  | .allocContig n => ∀ x ∈ a, match pmmAllocContig x.pmm n with
    | none => ∀ p, 256 ≤ p → p + n ≤ x.pmm.limit → ∃ i < n, x.pmm.used (p + i) = true
    | some r => ∀ i < n, Fit map kernelEnd x (r.1 + i)
  | _ => True

def Pmm.Counted (s : Pmm) : Prop := s.freeCount = (unusedCells MAX_PAGES s.used).card

def Accounted (a : Option Alloc) : Prop :=
  ∀ x ∈ a, x.pmm.Counted ∧ ∀ p < x.pmm.searchFrom, x.pmm.used p = true

/-- No usable region starts in the last page of the address space. -/
def NoneWraps : Prop :=
  ∀ e ∈ map, e.type = E820_USABLE → e.base.toNat ≤ 2 ^ 64 - 4096

variable {s : Pmm} {p : Nat} {ps : List Nat}

namespace Pmm

@[grind =] theorem mark_used (v : Bool) (s : Pmm) (p q : Nat) :
    (s.mark v p).used q = if q = p then v else s.used q := update_apply ..

private theorem Counted.mark (h : s.Counted) (hp : p < MAX_PAGES) (v : Bool) (hu : s.used p = !v) :
    (s.mark v p).Counted := by
  unfold Counted Pmm.mark
  cases v with
  | true => simp only [card_unusedCells_take hp hu, ← h.symm, if_true]
  | false => simp [card_unusedCells_give hp hu, ← h.symm]

private theorem foldl_markNew (v : Bool) (ps : List Nat) (h : s.Counted)
    (hps : ∀ p ∈ ps, p < MAX_PAGES) :
    (ps.foldl (markNew v) s).Counted ∧ (ps.foldl (markNew v) s).maxPhys = s.maxPhys ∧
      (ps.foldl (markNew v) s).searchFrom = s.searchFrom ∧
      ∀ q, (ps.foldl (markNew v) s).used q = if q ∈ ps then v else s.used q := by
  induction ps generalizing s with
  | nil => exact ⟨h, rfl, rfl, by simp⟩
  | cons p ps ih =>
    have hps' : ∀ q ∈ ps, q < MAX_PAGES := fun q hq => hps q (by simp [hq])
    rw [foldl_cons, markNew]
    split
    · obtain ⟨hc, hm, hs, hused⟩ := ih h hps'
      exact ⟨hc, hm, hs, fun q => by grind⟩
    rename_i hu
    obtain ⟨hc, hm, hs, hused⟩ := ih (h.mark (hps p (by simp)) v (Bool.eq_not.mpr hu)) hps'
    exact ⟨hc, hm, hs, fun q => by grind⟩

private theorem foldl_mark {v : Bool} (hnd : ps.Nodup) (h : ∀ p ∈ ps, s.used p = !v) :
    ps.foldl (mark v) s = ps.foldl (markNew v) s := by
  induction ps generalizing s with
  | nil => rfl
  | cons p ps ih =>
    obtain ⟨hp, hnd⟩ := nodup_cons.mp hnd
    rw [foldl_cons, foldl_cons, markNew, if_neg (by simp [h p (by simp)])]
    exact ih hnd fun q hq => by grind

end Pmm

private theorem contigFrom_some {npages q : Nat} (h : contigFrom s npages p = some q) (i : Nat)
    (hi : i < npages) : s.used (q + i) = false := by
  fun_induction contigFrom s npages p with
  | case1 p hfit hnone =>
    cases h
    simpa using find?_eq_none.mp hnone i (mem_range.mpr hi)
  | case2 p hfit j hj ih => exact ih h
  | case3 p hfit => cases h

private theorem contigFrom_none {npages q : Nat} (h : contigFrom s npages p = none) (hq : p ≤ q)
    (hlim : q + npages ≤ s.limit) : ∃ i < npages, s.used (q + i) := by
  fun_induction contigFrom s npages p with
  | case1 p hfit hnone => cases h
  | case2 p hfit j hj ih =>
    obtain ⟨hu, hmem, -⟩ := find?_range_eq_some.mp hj
    rw [mem_range] at hmem
    by_cases hqj : p + j + 1 ≤ q
    · exact ih h hqj
    · -- the used page is one of the run at `q`
      exact ⟨p + j - q, by omega, by rwa [show q + (p + j - q) = p + j by omega]⟩
  | case3 p hfit => omega

variable {map kernelEnd} {a : Alloc} {n : Nat}

/-- A page that the allocator owns: it is below the limit, usable and above the kernel. -/
def Owned (map : List E820Entry) (kernelEnd : Nat) (s : Pmm) (p : Nat) : Prop :=
  p < s.limit ∧ UsableRam map p ∧ kernelEnd ≤ p * 4096

structure Found (map : List E820Entry) (kernelEnd : Nat) (s : Pmm) : Prop where
  counted : s.Counted
  top : s.maxPhys ≤ MAX_PHYS
  clear : ∀ p, s.used p = false → Owned map kernelEnd s p

private theorem Found.lt (h : Found map n s) (hp : Owned map n s p) : p < MAX_PAGES :=
  Nat.lt_of_lt_of_le hp.1 (Nat.div_le_div_right h.top)

private theorem addEntry_spec {e : E820Entry} (h : s.Counted) (htype : e.type = E820_USABLE) :
    (addEntry s e).Counted ∧ (addEntry s e).maxPhys = max s.maxPhys e.stop ∧
      ∀ q, (addEntry s e).used q = false ↔
        s.used q = false ∨ pageUp e.base.toNat / 4096 ≤ q ∧ q < e.stop / 4096 := by
  have hstop : e.stop / 4096 ≤ MAX_PAGES := Nat.div_le_div_right (Nat.min_le_right _ _)
  obtain ⟨hc, hm, -, hused⟩ := Pmm.foldl_markNew false (range' (pageUp e.base.toNat / 4096)
    (e.stop / 4096 - pageUp e.base.toNat / 4096)) h (fun p hp => by
      rw [mem_range'_1] at hp
      omega)
  rw [addEntry, if_neg (not_not.mpr htype)]
  refine ⟨hc, congrArg (max · e.stop) hm, fun q => ?_⟩
  simp only [hused, mem_range'_1]
  grind

private theorem addEntry_found {e : E820Entry} (h : Found map 0 s) (he : e ∈ map)
    (hw : e.type = E820_USABLE → e.base.toNat ≤ 2 ^ 64 - 4096) : Found map 0 (addEntry s e) := by
  by_cases htype : e.type = E820_USABLE
  · have hbase := hw htype
    obtain ⟨hc, hm, hiff⟩ := addEntry_spec h.counted htype
    refine ⟨hc, hm ▸ Nat.max_le.mpr ⟨h.top, Nat.min_le_right _ _⟩, fun p hp => ?_⟩
    rw [Owned, Pmm.limit, hm]
    rcases (hiff p).mp hp with hp | ⟨hstart, hstop⟩
    · obtain ⟨hlt, hram⟩ := h.clear p hp
      exact ⟨Nat.lt_of_lt_of_le hlt (Nat.div_le_div_right (Nat.le_max_left _ _)), hram⟩
    refine ⟨Nat.lt_of_lt_of_le hstop (Nat.div_le_div_right (Nat.le_max_right _ _)),
      ⟨e, he, htype, ?_⟩, zero_le _⟩
    simp only [E820Entry.stop, pageUp, pageDown] at hstart hstop
    omega
  · rwa [addEntry, if_pos htype]

private theorem foldl_addEntry_found {es : List E820Entry} (hsub : ∀ e ∈ es, e ∈ map)
    (hw : NoneWraps map) (h : Found map 0 s) : Found map 0 (es.foldl addEntry s) := by
  induction es generalizing s with
  | nil => exact h
  | cons e es ih =>
    have he := hsub e (by simp)
    exact ih (fun e' he' => hsub e' (by simp [he'])) (addEntry_found h he (hw e he))

structure Kept (map : List E820Entry) (kernelEnd : Nat) (a : Alloc) : Prop
    extends Found map kernelEnd a.pmm where
  hint : ∀ p < a.pmm.searchFrom, a.pmm.used p = true
  ever : ∀ p ∈ a.ever, Owned map kernelEnd a.pmm p
  held : ∀ p ∈ a.held, a.pmm.used p = true

private theorem Pmm.counted_allUsed : allUsed.Counted := by
  simp [Counted, unusedCells, allUsed]

private theorem pmmInit_spec (hc : (map.foldl addEntry .allUsed).Counted) :
    (pmmInit map kernelEnd).Counted ∧
      (pmmInit map kernelEnd).maxPhys = (map.foldl addEntry .allUsed).maxPhys ∧
      ∀ q, (pmmInit map kernelEnd).used q = false ↔
        (map.foldl addEntry .allUsed).used q = false ∧ pageUp kernelEnd / 4096 ≤ q := by
  have hpages : pageUp kernelEnd / 4096 ≤ MAX_PAGES := by
    have := kernelEnd.isLt
    unfold pageUp pageDown MAX_PAGES MAX_PHYS
    omega
  obtain ⟨hc, hm, -, hused⟩ := Pmm.foldl_markNew true (range (pageUp kernelEnd / 4096)) hc
    fun p hp => lt_of_lt_of_le (mem_range.mp hp) hpages
  refine ⟨hc, hm, fun q => ?_⟩
  simp only [pmmInit, hused, mem_range]
  grind

private theorem boot_kept (hw : NoneWraps map) :
    ∀ a ∈ boot map kernelEnd, Kept map kernelEnd a := by
  rintro a ⟨⟩
  have h := foldl_addEntry_found (fun e he => he) hw
    ⟨Pmm.counted_allUsed, zero_le _, by simp [Pmm.allUsed]⟩
  obtain ⟨hc, hm, hiff⟩ := @pmmInit_spec map kernelEnd h.counted
  have hend : kernelEnd ≤ pageUp kernelEnd / 4096 * 4096 := by
    have := kernelEnd.isLt
    unfold pageUp pageDown
    omega
  refine ⟨⟨hc, hm ▸ h.top, fun p hp => ?_⟩, fun p hp => ?_, by simp, by simp⟩
  · obtain ⟨hu, hp⟩ := (hiff p).mp hp
    refine ⟨?_, (h.clear p hu).2.1, le_trans hend (mul_le_mul_right 4096 hp)⟩
    exact (congrArg (p < · / 4096) hm).mpr (h.clear p hu).1
  by_contra hu
  rw [Bool.not_eq_true] at hu
  exact not_lt.mpr ((hiff p).mp hu).2 hp

namespace Kept

section
variable (h : Kept map kernelEnd a)
include h

private theorem hand {ps : Finset Nat} {s' : Pmm} (hps : ∀ p ∈ ps, a.pmm.used p = false)
    (hc : s'.Counted) (hm : s'.maxPhys = a.pmm.maxPhys) (hhint : ∀ q < s'.searchFrom, s'.used q)
    (hiff : ∀ q, s'.used q = false ↔ a.pmm.used q = false ∧ q ∉ ps) :
    (∀ p ∈ ps, Fit map kernelEnd a p) ∧ Kept map kernelEnd (a.hand ps s') := by
  have howned : ∀ q, Owned map kernelEnd a.pmm q → Owned map kernelEnd s' q := fun q hq =>
    ⟨(congrArg (q < · / 4096) hm).mpr hq.1, hq.2⟩
  refine ⟨fun p hp => ⟨fun hheld => ?_, (h.clear p (hps p hp)).2⟩, ⟨hc, hm ▸ h.top, ?_⟩, hhint, ?_,
    ?_⟩
  · exact absurd (h.held p hheld) (by simp [hps p hp])
  · exact fun q hq => howned q (h.clear q ((hiff q).mp hq).1)
  · intro q hq
    rcases Finset.mem_union.mp hq with hq | hq
    · exact howned q (h.ever q hq)
    · exact howned q (h.clear q (hps q hq))
  · intro q hq
    have hheld := h.held q
    by_contra hu
    rw [Bool.not_eq_true] at hu
    obtain ⟨hu, hnot⟩ := (hiff q).mp hu
    rcases Finset.mem_union.mp hq with hq | hq
    · simp [hheld hq] at hu
    · exact hnot hq

private theorem alloc {r : Nat × Pmm} (hr : pmmAlloc a.pmm = some r) :
    Fit map kernelEnd a r.1 ∧ Kept map kernelEnd (a.hand {r.1} r.2) := by
  obtain ⟨p, hfind, rfl⟩ := Option.map_eq_some_iff.mp hr
  obtain ⟨hp, -, hbefore⟩ := find?_range'_eq_some.mp hfind
  have hu : a.pmm.used p = false := by simpa using hp
  have hhand := @hand map kernelEnd a h {p} { a.pmm.mark true p with searchFrom := p + 1 }
    (by simpa using hu) (h.counted.mark (h.lt (h.clear p hu)) true hu) rfl
      (fun q hq => ?_) fun q => ?_
  · exact ⟨hhand.1 p (Finset.mem_singleton_self p), hhand.2⟩
  · have := h.hint q
    have := hbefore q
    change (a.pmm.mark true p).used q
    grind
  · change (a.pmm.mark true p).used q = false ↔ _
    grind

private theorem alloc_none (hr : pmmAlloc a.pmm = none) (p : Nat) : a.pmm.used p := by
  by_contra hu
  rw [Bool.not_eq_true] at hu
  have hlt : p < a.pmm.limit := (h.clear p hu).1
  have hge : a.pmm.searchFrom ≤ p := by
    by_contra hlow
    simp [h.hint p (by omega)] at hu
  have hall := find?_eq_none.mp (Option.map_eq_none_iff.mp hr) p
    (mem_range'_1.mpr (by omega))
  simp [hu] at hall

private theorem allocContig {r : Nat × Pmm} (hr : pmmAllocContig a.pmm n = some r) :
    (∀ p ∈ Finset.Ico r.1 (r.1 + n), Fit map kernelEnd a p) ∧
      Kept map kernelEnd (a.hand (Finset.Ico r.1 (r.1 + n)) r.2) := by
  obtain ⟨p, hfrom, rfl⟩ := Option.map_eq_some_iff.mp hr
  have hclear : ∀ q ∈ range' p n, a.pmm.used q = false := by
    intro q hq
    rw [mem_range'_1] at hq
    have := contigFrom_some hfrom (q - p) (by omega)
    rwa [Nat.add_sub_cancel' hq.1] at this
  obtain ⟨hc, hm, hs, hused⟩ := Pmm.foldl_markNew true (range' p n) h.counted fun q hq =>
    h.lt (h.clear q (hclear q hq))
  rw [← Pmm.foldl_mark nodup_range' hclear] at hc hm hs hused
  refine h.hand ?_ hc hm (fun q hq => ?_) fun q => ?_
  · simpa [mem_range'_1] using hclear
  · rw [hused, h.hint q (hs ▸ hq), ite_self]
  · simp only [hused, mem_range'_1, Finset.mem_Ico]
    grind

private theorem free {a' : Alloc} (hp : p ∈ a.ever) (hr : a.free p = some a') :
    Kept map kernelEnd a' ∧ a'.ever = a.ever := by
  obtain ⟨s', hs', rfl⟩ := Option.map_eq_some_iff.mp hr
  simp only [pmmFree, Option.ite_none_right_eq_some, Option.some.injEq] at hs'
  obtain ⟨hu, rfl⟩ := hs'
  have howned := h.ever p hp
  refine ⟨⟨⟨h.counted.mark (h.lt howned) false hu, h.top, fun q hq => ?_⟩, fun q hq => ?_, h.ever,
    fun q hq => ?_⟩, rfl⟩
  · by_cases hqp : q = p
    · exact hqp ▸ howned
    refine h.clear q ?_
    rw [← hq]
    exact (update_of_ne hqp _ _).symm
  · have := h.hint q
    change (a.pmm.mark false p).used q
    dsimp only at hq
    grind
  · obtain ⟨hne, hq⟩ := Finset.mem_erase.mp hq
    have := h.held q hq
    change (a.pmm.mark false p).used q
    grind

private theorem freeContig {ps : List Nat} (hps : ∀ p ∈ ps, p ∈ a.ever) {a' : Alloc}
    (hr : ps.foldlM Alloc.free a = some a') : Kept map kernelEnd a' := by
  induction ps generalizing a with
  | nil =>
    cases hr
    exact h
  | cons p ps ih =>
    obtain ⟨a1, h1, hr⟩ := Option.bind_eq_some_iff.mp hr
    obtain ⟨hk, hever⟩ := h.free (hps p (by simp)) h1
    exact ih hk (fun q hq => hever ▸ hps q (by simp [hq])) hr

end

end Kept

private theorem step_kept {a : Option Alloc} {op : Op} (hop : Allowed a op)
    (h : ∀ x ∈ a, Kept map kernelEnd x) : ∀ x ∈ step a op, Kept map kernelEnd x := by
  intro x' hx'
  obtain ⟨x, hx, hstep⟩ := Option.bind_eq_some_iff.mp hx'
  have hk := h x hx
  cases op with
  | alloc =>
    obtain ⟨r, hr, rfl⟩ := Option.map_eq_some_iff.mp hstep
    exact (hk.alloc hr).2
  | allocContig n =>
    obtain ⟨r, hr, rfl⟩ := Option.map_eq_some_iff.mp hstep
    exact (hk.allocContig hr).2
  | free p => exact (hk.free (hop x hx) hstep).1
  | freeContig p n => exact hk.freeContig (hop x hx) hstep

private theorem serves_of_kept {a : Option Alloc} (op : Op) (h : ∀ x ∈ a, Kept map kernelEnd x) :
    Serves map kernelEnd a op := by
  cases op with
  | alloc =>
    intro x hx
    cases hr : pmmAlloc x.pmm with
    | none => exact fun p _ => (h x hx).alloc_none hr p
    | some r => exact ((h x hx).alloc hr).1
  | allocContig n =>
    intro x hx
    cases hr : pmmAllocContig x.pmm n with
    | none => exact fun p hp hlim => contigFrom_none (Option.map_eq_none_iff.mp hr) hp hlim
    | some r =>
      exact fun i hi => ((h x hx).allocContig hr).1 _ (Finset.mem_Ico.mpr (by omega))
  | free p => trivial
  | freeContig p n => trivial

/-- From any map and in any order of calls, as long as no usable region starts in the last page of
the address space. -/
theorem pages_are_handed_out_once (map : List E820Entry) (kernelEnd : Fin (2 ^ 31))
    (hw : NoneWraps map) (ops : List Op) (hops : Meets step Allowed ops (boot map kernelEnd)) :
    Always step Accounted ops (boot map kernelEnd) ∧
      Meets step (Serves map kernelEnd) ops (boot map kernelEnd) := by
  have hkeep : ∀ a op, Allowed a op → (∀ x ∈ a, Kept map kernelEnd x) →
      ∀ x ∈ step a op, Kept map kernelEnd x := fun _ _ hop h => step_kept hop h
  constructor
  · refine Machine.always_of_keeps hkeep (fun a h x hx => ?_) hops (boot_kept hw)
    exact ⟨(h x hx).counted, (h x hx).hint⟩
  · exact Machine.meets_of_keeps hkeep (fun _ op _ h => serves_of_kept op h) hops (boot_kept hw)

theorem pages_are_handed_out_once_two_regions :
    Meets step (Serves [⟨0, 0x9FC00, 1⟩, ⟨0x100000, 0x40000, 1⟩] 0x108000)
      [.alloc, .allocContig 3] (boot [⟨0, 0x9FC00, 1⟩, ⟨0x100000, 0x40000, 1⟩] 0x108000) :=
  (pages_are_handed_out_once [⟨0, 0x9FC00, 1⟩, ⟨0x100000, 0x40000, 1⟩] 0x108000
    (by simp [NoneWraps]) [.alloc, .allocContig 3] ⟨trivial, le_add_left 1 2, trivial⟩).2

private theorem Serves.usable {x : Alloc} (h : Serves map kernelEnd (some x) .alloc)
    (hu : x.pmm.used p = false) (hp : p < MAX_PAGES) : ∃ q, UsableRam map q := by
  have hx := h x rfl
  cases hr : pmmAlloc x.pmm with
  | none =>
    rw [hr] at hx
    simp [hx p hp] at hu
  | some r =>
    rw [hr] at hx
    exact ⟨r.1, hx.2.1⟩

/-- A usable region of one byte in the last page: rounding its base up wraps to zero. -/
def lastByte : E820Entry := ⟨0xFFFFFFFFFFFFF001, 1, E820_USABLE⟩

theorem last_byte_frees_everything :
    ¬ Meets step (Serves [lastByte] 0x200000) [.alloc] (boot [lastByte] 0x200000) := by
  have hnone : ∀ p, ¬ UsableRam [lastByte] p := by
    rintro p ⟨e, he, -, hlow, hhigh⟩
    obtain rfl := mem_singleton.mp he
    have hbase : lastByte.base.toNat = 2 ^ 64 - 4095 ∧ lastByte.len.toNat = 1 := by decide
    omega
  have hfree : (pmmInit [lastByte] 0x200000).used 512 = false := by
    obtain ⟨hc, -, hiff⟩ := @addEntry_spec .allUsed lastByte Pmm.counted_allUsed rfl
    have hpages : pageUp lastByte.base.toNat / 4096 = 0 ∧ lastByte.stop / 4096 = 1048576 := by
      decide
    rw [hpages.1, hpages.2] at hiff
    obtain ⟨-, -, hiff'⟩ := @pmmInit_spec [lastByte] 0x200000 hc
    exact (hiff' 512).mpr ⟨(hiff 512).mpr (.inr (by omega)), by decide⟩
  rintro ⟨h, -⟩
  obtain ⟨q, hq⟩ := Serves.usable h hfree (by decide)
  exact hnone q hq

end KestrelOS.Mem
