import KestrelOS.Kfs.Effects

/-!
# Block accounting

The references of a file system are the pointers of its inodes. `TxOk` says that they and the
bitmap form a `Ledger`. One lemma for each helper of the driver says what it does to a view that
satisfies `TxOk`; the calls are built from these.
-/

namespace KestrelOS.Kfs

open Function

open TxProg (wp_bind wp_pure wp_mono wp_trivial)

/-- The block a reference of the file system names; numbers that are no inode own nothing. -/
def ownOf (sb : KfsSuperblock) (view : Nat → Block) (k : Nat × Option Nat) : Nat :=
  if inoValid sb k.1 then ptrOf sb view k.1 k.2 else 0

/-- References and bitmap agree, and `free` counts the clear bits. -/
def Accounted (sb : KfsSuperblock) (view : Nat → Block) (free : Nat) : Prop :=
  Ledger sb.dataStart sb.totalBlocks (sb.bitmapBlocks * 32768) (ownOf sb view) (bitAt sb view) free

structure TxOk (may : ReadRule Block) (sb : KfsSuperblock)
    (v : TxView Block KfsMem) : Prop extends Shape may sb v where
  ledger : Accounted sb v.view v.mem.sb.freeBlocks

variable {may : ReadRule Block} {sb : KfsSuperblock}
  {v : View}

variable {sb' : KfsSuperblock} {Q : Nat → View → Prop}

theorem SameLayout.fields (h : SameLayout sb sb') :
    sb'.bitmapStart = sb.bitmapStart ∧ sb'.bitmapBlocks = sb.bitmapBlocks ∧
      sb'.totalBlocks = sb.totalBlocks ∧ sb'.dataStart = sb.dataStart ∧
      sb'.inodeStart = sb.inodeStart ∧ sb'.inodeCount = sb.inodeCount ∧
      sb'.rootIno = sb.rootIno := by
  rw [h]
  exact ⟨rfl, rfl, rfl, rfl, rfl, rfl, rfl⟩

section
variable (hg : Geometry sb) (h : Shape may sb v) {own : Nat × Option Nat → Nat}
  (hl : Ledger sb.dataStart sb.totalBlocks (sb.bitmapBlocks * 32768) own (bitAt sb v.view)
    v.mem.sb.freeBlocks)
  (hfull : v.mem.sb.freeBlocks = 0 ∨ may.fallible → Q 0 v)
  (hgot : ∀ b, sb.dataStart ≤ b → b < sb.totalBlocks → bitAt sb v.view b = false → Q b (take v b))
include hg h hl hfull hgot

private theorem wp_ballocFrom (n bb : Nat) (hn : n + bb = sb.bitmapBlocks)
    (hset : ∀ c < bb * 32768, bitAt sb v.view c) : (ballocFrom n bb).wp may Q v := by
  have hcov := hg.covers
  have htot := hg.total_lt
  have hdata := hg.dataLt
  obtain ⟨f1, f2, f3, -⟩ := h.layout.fields
  induction n generalizing bb with
  | zero =>
    refine hfull (.inl (Ledger.free_eq_zero hl ?_))
    intro b hb
    exact hset b (by omega)
  | succ n ih =>
    unfold ballocFrom
    simp only [wp_bind, Tx.wp_load, Tx.wp_read, f3]
    intro r hr
    rw [f1] at hr
    obtain rfl | ⟨rfl, hfails⟩ := TxView.reads_of_honest (h.honest.bitmap bb (by omega)) hr
    swap
    · exact hfull (.inr hfails)
    dsimp only
    have hbit : ∀ k < 32768, bitAt sb v.view (bb * 32768 + k) =
        blockBit (v.view (sb.bitmapStart + bb)) k := by
      intro k hk
      rw [bitAt_eq, show (bb * 32768 + k) / 32768 = bb by omega,
        show (bb * 32768 + k) % 32768 = k by omega]
    split
    · rename_i hnone
      apply ih (bb + 1) (by omega)
      intro c hc
      by_cases hlow : c < bb * 32768
      · exact hset c hlow
      obtain ⟨k, rfl⟩ : ∃ k, c = bb * 32768 + k := ⟨c - bb * 32768, by omega⟩
      rw [hbit k (by omega)]
      exact findClear_none hnone k (by omega) (by omega)
    rename_i k hsome
    obtain ⟨hk, hclear, hlow⟩ := findClear_some hsome
    have hall : ∀ c < bb * 32768 + k, bitAt sb v.view c := by
      intro c hc
      by_cases hc' : c < bb * 32768
      · exact hset c hc'
      obtain ⟨j, rfl⟩ : ∃ j, c = bb * 32768 + j := ⟨c - bb * 32768, by omega⟩
      rw [hbit j (by omega)]
      exact hlow j (by omega) (by omega)
    -- the bit of block `total_blocks` is clear, so the scan has not passed 2^32
    have hwrap : bb * 32768 + k < 4294967296 := by
      by_contra hbig
      have hclear' := Ledger.unused_of_le hl (b := sb.totalBlocks) (by omega) (by omega)
        (le_refl _)
      simp [hall sb.totalBlocks (by omega)] at hclear'
    rw [Nat.mod_eq_of_lt hwrap]
    split
    · refine hfull (.inl (Ledger.free_eq_zero hl ?_))
      intro b hb
      exact hall b (by omega)
    · rename_i hlt
      have hb0 : bitAt sb v.view (bb * 32768 + k) = false := by
        rw [hbit k (by omega)]
        exact hclear
      have hge := Ledger.lo_le_of_unused hl (b := bb * 32768 + k) (by omega) hb0
      have hgot' := hgot _ hge (by omega) hb0
      rw [take, mark, show (bb * 32768 + k) / 32768 = bb by omega,
        show (bb * 32768 + k) % 32768 = k by omega] at hgot'
      rw [← f1]
      exact hgot'

private theorem wp_balloc : balloc.wp may Q v := by
  obtain ⟨-, f2, -⟩ := h.layout.fields
  simp only [balloc, wp_bind, Tx.wp_load, f2]
  exact wp_ballocFrom hg h hl hfull hgot _ _ (by omega) fun c hc => by omega

end

theorem wp_bfree (hg : Geometry sb) (h : Shape may sb v) {b : Nat}
    {Q : Unit → View → Prop} (hlo : sb.dataStart ≤ b) (hhi : b < sb.totalBlocks)
    (hbit : bitAt sb v.view b) (hQ : Q () (mark v b false)) : (bfree b).wp may Q v := by
  have hcov := hg.covers
  obtain ⟨f1, -, f3, f4, -⟩ := h.layout.fields
  simp only [bfree, wp_bind, Tx.wp_load, f3, f4]
  rw [if_neg (by omega)]
  simp only [wp_bind, Tx.wp_read]
  intro r hr
  rw [f1] at hr
  obtain rfl | ⟨rfl, hfails⟩ := TxView.reads_of_honest (h.honest.bitmap (b / 32768) (by omega)) hr
  swap
  · exact .inl hfails
  dsimp only
  unfold bitAt at hbit
  rw [if_pos hbit, ← f1]
  exact hQ

private theorem inodeBlk_layout (h : SameLayout sb sb') (ino : Nat) :
    inodeBlk sb' ino = inodeBlk sb ino := by
  unfold inodeBlk
  rw [h]

private theorem inoValid_layout (h : SameLayout sb sb') (ino : Nat) :
    inoValid sb' ino = inoValid sb ino := by
  unfold inoValid
  rw [h]

theorem inodeAt_bounded (sb : KfsSuperblock) (view : Nat → Block) (ino : Nat) :
    (inodeAt sb view ino).Bounded := KfsInode.ofBytes_bounded _ _

theorem wp_iget (h : Shape may sb v) (ino : Nat) {Q : Option KfsInode → View → Prop}
    (hbad : inoValid sb ino = false ∨ may.fallible → Q none v)
    (hgood : inoValid sb ino → Q (some (inodeAt sb v.view ino)) v) : (iget ino).wp may Q v := by
  simp only [iget, wp_bind, Tx.wp_live, Tx.wp_load, Bool.true_and, inoValid_layout h.layout,
    inodeBlk_layout h.layout]
  split
  · rename_i hvalid
    simp only [wp_bind, Tx.wp_read]
    intro r hr
    obtain rfl | ⟨rfl, hfails⟩ := TxView.reads_of_honest (h.honest.inodes ino hvalid) hr
    · exact hgood hvalid
    · exact hbad (.inr hfails)
  · rename_i hvalid
    exact hbad (.inl (by simpa using hvalid))

theorem wp_iput (h : Shape may sb v) {ino : Nat} (ip : KfsInode) (hv : inoValid sb ino)
    {Q : Bool → View → Prop} (hlost : may.fallible → Q false v)
    (hQ : Q true (store v ino ip)) : (iput ino ip).wp may Q v := by
  simp only [iput, wp_bind, Tx.wp_load, Tx.wp_read]
  intro r hr
  rw [inodeBlk_layout h.layout] at hr
  obtain rfl | ⟨rfl, hfails⟩ := TxView.reads_of_honest (h.honest.inodes ino hv) hr
  · rw [← inodeBlk_layout h.layout]
    exact hQ
  · exact hlost hfails

theorem wp_drop_iput (h : Shape may sb v) {ino : Nat} (ip : KfsInode) (hv : inoValid sb ino)
    {Q : Unit → View → Prop} (hQ : Q () (store v ino ip)) : (Tx.drop (iput ino ip)).wp may Q v := by
  rw [Tx.drop, wp_bind]
  exact wp_iput h ip hv .inl hQ

variable {view view' : Nat → Block} {free : Nat}

private theorem ptr_congr {ip : KfsInode} {tab tab' : Nat → Nat → Nat}
    (h : ip.indirect ≠ 0 → tab' ip.indirect = tab ip.indirect) (slot : Option Nat) :
    ptr ip tab' slot = ptr ip tab slot := by
  cases slot with
  | none => rfl
  | some n =>
    simp only [ptr]
    split
    · rfl
    split
    · rfl
    · rename_i hn
      rw [h fun h0 => hn (.inl h0)]

theorem ptrOf_congr {ino : Nat} (hi : inodeAt sb view' ino = inodeAt sb view ino)
    (ht : (inodeAt sb view ino).indirect ≠ 0 →
      view' (inodeAt sb view ino).indirect = view (inodeAt sb view ino).indirect)
    (slot : Option Nat) : ptrOf sb view' ino slot = ptrOf sb view ino slot := by
  unfold ptrOf
  rw [hi]
  exact ptr_congr (fun h0 => tabAt_congr (ht h0)) slot

theorem fileByte_congr {ino i : Nat}
    (hp : ptrOf sb view' ino (some (i / 4096)) = ptrOf sb view ino (some (i / 4096)))
    (hv : ptrOf sb view ino (some (i / 4096)) ≠ 0 →
      view' (ptrOf sb view ino (some (i / 4096))) = view (ptrOf sb view ino (some (i / 4096)))) :
    fileByte sb view' ino i = fileByte sb view ino i := by
  unfold fileByte
  rw [hp]
  split
  · rfl
  · rename_i h0
    rw [hv h0]

namespace Accounted

private theorem congr_ptrs (hl : Accounted sb view free)
    (hptr : ∀ ino, inoValid sb ino → ∀ slot, ptrOf sb view' ino slot = ptrOf sb view ino slot)
    (hbit : ∀ c < sb.bitmapBlocks * 32768, bitAt sb view' c = bitAt sb view c) :
    Accounted sb view' free := by
  refine Ledger.congr hl (fun k => ?_) hbit
  unfold ownOf
  split
  · exact hptr _ ‹_› _
  · rfl

section
variable (hl : Accounted sb view free) {ino : Nat} (hv : inoValid sb ino) {slot : Option Nat}
include hl hv

theorem own_range (h0 : ptrOf sb view ino slot ≠ 0) :
    sb.dataStart ≤ ptrOf sb view ino slot ∧ ptrOf sb view ino slot < sb.totalBlocks := by
  have := Ledger.range hl (ino, slot)
  simp only [ownOf, hv, if_true] at this
  exact this h0

private theorem own_used (h0 : ptrOf sb view ino slot ≠ 0) :
    bitAt sb view (ptrOf sb view ino slot) := by
  have := Ledger.used_of_own hl (k := (ino, slot))
  simp only [ownOf, hv, if_true] at this
  exact this h0

private theorem own_inj {ino' : Nat} (hv' : inoValid sb ino') {slot' : Option Nat}
    (h0 : ptrOf sb view ino slot ≠ 0)
    (h : ptrOf sb view ino slot = ptrOf sb view ino' slot') : ino = ino' ∧ slot = slot' := by
  have := Ledger.inj hl (ino, slot) (ino', slot')
  simp only [ownOf, hv, hv', if_true, Prod.mk.injEq] at this
  exact this h0 h

private theorem own_ne_unused {b : Nat} (h0 : ptrOf sb view ino slot ≠ 0)
    (hb : bitAt sb view b = false) :
    ptrOf sb view ino slot ≠ b := by
  rintro rfl
  simp [hl.own_used hv h0] at hb

theorem table_range (h0 : (inodeAt sb view ino).indirect ≠ 0) :
    sb.dataStart ≤ (inodeAt sb view ino).indirect ∧
      (inodeAt sb view ino).indirect < sb.totalBlocks :=
  hl.own_range hv (show ptrOf sb view ino none ≠ 0 from h0)

end

end Accounted

theorem TxOk.reads_owned (h : TxOk may sb v) {ino : Nat} (hv : inoValid sb ino) (slot : Option Nat)
    (h0 : ptrOf sb v.view ino slot ≠ 0) {r : Option Block}
    (hr : v.Reads may (ptrOf sb v.view ino slot) r) :
    r = some (v.view (ptrOf sb v.view ino slot)) ∨ r = none ∧ may.fallible :=
  have hrange := h.ledger.own_range hv h0
  TxView.reads_of_honest (h.honest.data _ hrange.1 hrange.2) hr

private theorem ptrOf_frame (hg : Geometry sb) {c : Nat}
    (hagree : ∀ b, sb.inodeStart ≤ b → b ≠ c → view' b = view b) (hc : sb.dataStart ≤ c)
    (htab : ∀ ino, inoValid sb ino → (inodeAt sb view ino).indirect ≠ 0 →
      sb.dataStart ≤ (inodeAt sb view ino).indirect ∧ (inodeAt sb view ino).indirect ≠ c)
    {ino : Nat} (hv : inoValid sb ino) :
    inodeAt sb view' ino = inodeAt sb view ino ∧
      ∀ slot, ptrOf sb view' ino slot = ptrOf sb view ino slot := by
  have hblk := hg.inodeBlk_range hv
  have hi : inodeAt sb view' ino = inodeAt sb view ino :=
    inodeAt_congr (hagree _ hblk.1 (by omega))
  refine ⟨hi, fun slot => ptrOf_congr hi (fun h0 => ?_) slot⟩
  obtain ⟨h1, h2⟩ := htab ino hv h0
  have := hg.dataStart
  exact hagree _ (by omega) h2

section Take

variable (hg : Geometry sb) (h : Shape may sb v) (hl : Accounted sb v.view v.mem.sb.freeBlocks)
  {b : Nat} (hlo : sb.dataStart ≤ b) (hhi : b < sb.totalBlocks)
  (hbit : bitAt sb v.view b = false)

include hg h hhi in
private theorem take_view_other {c : Nat} (hc : sb.inodeStart ≤ c) (hne : c ≠ b) :
    (take v b).view c = v.view c := by
  rw [take, TxView.write_other _ _ _ _ hne]
  exact mark_view_above hg h.layout true hhi hc

private theorem take_view_self (v : View) (b : Nat) : (take v b).view b = Block.zero := by
  rw [take, TxView.write_same]

include hg h hlo hhi in
private theorem take_shape : Shape may sb (take v b) := by
  have hreg := hg.regions
  exact (h.mark hg true hhi).write _ (by omega) hhi (hg.not_inJournal (by omega))

include hg h hlo in
private theorem take_bit (c : Nat) (hc : c < sb.bitmapBlocks * 32768) :
    bitAt sb (take v b).view c = update (bitAt sb v.view) b true c := by
  have hreg := hg.regions
  have hm : bitAt sb (take v b).view c = bitAt sb (mark v b true).view c := by
    apply bitAt_congr
    rw [take, TxView.write_other _ _ _ _ (by omega)]
  rw [hm, mark_bit hg h.layout, update_apply]

include hg hl hhi hbit in
private theorem take_free :
    (take v b).mem.sb.freeBlocks = v.mem.sb.freeBlocks - 1 ∧ 0 < v.mem.sb.freeBlocks := by
  have hpos := Ledger.free_pos hl hhi hbit
  have hle := Ledger.free_le hl
  have htot := hg.total_lt
  have hmem : (take v b).mem.sb.freeBlocks = (v.mem.sb.freeBlocks + 4294967295) % 4294967296 := rfl
  rw [hmem]
  omega

include hl hbit in
private theorem table_ne_unused {ino : Nat} (hv : inoValid sb ino)
    (h0 : (inodeAt sb v.view ino).indirect ≠ 0) :
    sb.dataStart ≤ (inodeAt sb v.view ino).indirect ∧ (inodeAt sb v.view ino).indirect ≠ b :=
  ⟨(hl.table_range hv h0).1, hl.own_ne_unused hv (show ptrOf sb _ _ none ≠ 0 from h0) hbit⟩

include hg h hl hlo hhi hbit in
private theorem take_refs {ino : Nat} (hv : inoValid sb ino) :
    inodeAt sb (take v b).view ino = inodeAt sb v.view ino ∧
      ∀ slot, ptrOf sb (take v b).view ino slot = ptrOf sb v.view ino slot :=
  ptrOf_frame hg (fun _ hc hne => take_view_other hg h hhi hc hne) hlo
    (fun _ hv h0 => table_ne_unused hl hbit hv h0) hv

end Take

section Store

variable (hg : Geometry sb) (h : Shape may sb v) {ino : Nat} (hv : inoValid sb ino = true)
  {ip : KfsInode} (hb : ip.Bounded)

variable {c ino' : Nat}

include h in
private theorem store_view_other (hc : c ≠ inodeBlk sb ino) :
    (store v ino ip).view c = v.view c := by
  rw [store, inodeBlk_layout h.layout]
  exact TxView.write_other _ _ _ _ hc

include hg h hv in
theorem store_view_data (hc : sb.dataStart ≤ c) : (store v ino ip).view c = v.view c :=
  store_view_other h (by have := hg.inodeBlk_range hv; omega)

include hg h hv in
theorem store_shape : Shape may sb (store v ino ip) := by
  have h0 := hg.inodeBlk_range hv
  have hreg := hg.regions
  rw [store, inodeBlk_layout h.layout]
  exact h.write _ (by omega) (by omega) (hg.not_inJournal h0.1)

theorem store_mem (v : View) (ino : Nat) (ip : KfsInode) : (store v ino ip).mem = v.mem := rfl

include hg h hv in
theorem store_bit (c : Nat) (hc : c < sb.bitmapBlocks * 32768) :
    bitAt sb (store v ino ip).view c = bitAt sb v.view c := by
  have h0 := hg.inodeBlk_range hv
  have hreg := hg.regions
  exact bitAt_congr (store_view_other h (by omega))

include h hv hb in
theorem store_inodeAt (hv' : inoValid sb ino') :
    inodeAt sb (store v ino ip).view ino' = if ino' = ino then ip else inodeAt sb v.view ino' := by
  simp only [inoValid, decide_eq_true_eq] at hv hv'
  rw [store, inodeBlk_layout h.layout]
  exact inodeAt_putInode hb hv.1 hv'.1

include hg h hv hb in
private theorem store_ptrOf_self (htab : ip.indirect ≠ 0 → sb.dataStart ≤ ip.indirect)
    (slot : Option Nat) : ptrOf sb (store v ino ip).view ino slot = ptr ip (tabAt v.view) slot := by
  rw [ptrOf, store_inodeAt h hv hb hv, if_pos rfl]
  exact ptr_congr (fun h0 => tabAt_congr (store_view_data hg h hv (htab h0))) slot

include hg h hv hb in
theorem store_ptrOf_other (hv' : inoValid sb ino') (hne : ino' ≠ ino)
    (htab : (inodeAt sb v.view ino').indirect ≠ 0 →
      sb.dataStart ≤ (inodeAt sb v.view ino').indirect) (slot : Option Nat) :
    ptrOf sb (store v ino ip).view ino' slot = ptrOf sb v.view ino' slot := by
  have hi := store_inodeAt h hv hb hv'
  rw [if_neg hne] at hi
  exact ptrOf_congr hi (fun h0 => store_view_data hg h hv (htab h0)) slot

end Store

theorem TxOk.store_same (hg : Geometry sb) (h : TxOk may sb v) {ino : Nat}
    (hv : inoValid sb ino) {ip : KfsInode} (hb : ip.Bounded)
    (hd : ip.direct = (inodeAt sb v.view ino).direct)
    (hi : ip.indirect = (inodeAt sb v.view ino).indirect) : TxOk may sb (store v ino ip) ∧
      ∀ ino', inoValid sb ino' → ∀ slot,
        ptrOf sb (store v ino ip).view ino' slot = ptrOf sb v.view ino' slot := by
  have hptr : ∀ ino', inoValid sb ino' → ∀ slot,
      ptrOf sb (store v ino ip).view ino' slot = ptrOf sb v.view ino' slot := by
    intro ino' hv' slot
    by_cases hne : ino' = ino
    · subst hne
      rw [store_ptrOf_self hg h.toShape hv hb
        (fun h0 => by rw [hi] at h0 ⊢; exact (h.ledger.table_range hv h0).1)]
      unfold ptrOf ptr KfsInode.directAt
      rw [hd, hi]
    · exact store_ptrOf_other hg h.toShape hv hb hv' hne
        (fun h0 => (h.ledger.table_range hv' h0).1) slot
  exact ⟨⟨store_shape hg h.toShape hv,
    h.ledger.congr_ptrs hptr fun c hc => store_bit hg h.toShape hv c hc⟩, hptr⟩

section Data

variable (hg : Geometry sb) (h : TxOk may sb v) {ino : Nat} (hv : inoValid sb ino = true) {n : Nat}
  (h0 : ptrOf sb v.view ino (some n) ≠ 0)

include hg h hv h0

theorem data_refs (d : Block) {ino' : Nat} (hv' : inoValid sb ino') :
    inodeAt sb (v.write (ptrOf sb v.view ino (some n)) d).view ino' = inodeAt sb v.view ino' ∧
      ∀ slot, ptrOf sb (v.write (ptrOf sb v.view ino (some n)) d).view ino' slot =
        ptrOf sb v.view ino' slot := by
  apply ptrOf_frame hg (c := ptrOf sb v.view ino (some n)) _ (h.ledger.own_range hv h0).1 _ hv'
  · exact fun b _ hne => TxView.write_other _ _ _ _ hne
  intro i hi hne
  refine ⟨(h.ledger.table_range hi hne).1, fun heq => ?_⟩
  have := (@Accounted.own_inj _ _ _ h.ledger _ hi none _ hv (some n) hne heq).2
  simp at this

theorem TxOk.writeData (d : Block) : TxOk may sb (v.write (ptrOf sb v.view ino (some n)) d) := by
  have hr := h.ledger.own_range hv h0
  have hreg := hg.regions
  exact ⟨h.toShape.write d (by omega) hr.2 (hg.not_inJournal (by omega)),
    h.ledger.congr_ptrs (fun _ hv' => (data_refs hg h hv h0 d hv').2)
      fun c hc => bitAt_congr (TxView.write_other _ _ _ _ (by omega))⟩

theorem fileByte_writeData (d : Block) {ino' : Nat} (hv' : inoValid sb ino') (i : Nat) :
    fileByte sb (v.write (ptrOf sb v.view ino (some n)) d).view ino' i =
      if ino' = ino ∧ i / 4096 = n then d.byte (i % 4096) else fileByte sb v.view ino' i := by
  have hp := (data_refs hg h hv h0 d hv').2 (some (i / 4096))
  by_cases hhere : ino' = ino ∧ i / 4096 = n
  · rw [if_pos hhere]
    obtain ⟨rfl, rfl⟩ := hhere
    rw [fileByte, hp, if_neg h0, TxView.write_same]
  rw [if_neg hhere]
  apply fileByte_congr hp
  intro hne
  apply TxView.write_other
  intro heq
  obtain ⟨e1, e2⟩ := h.ledger.own_inj hv' hv hne heq
  exact hhere ⟨e1, by simpa using e2⟩

end Data

theorem ptrOf_entry {ino j : Nat} (hj : j < 1024) (ht : (inodeAt sb view ino).indirect ≠ 0) :
    ptrOf sb view ino (some (10 + j)) = tabAt view (inodeAt sb view ino).indirect j := by
  simp only [ptrOf, ptr, ht, false_or]
  rw [if_neg (by omega), if_neg (by omega), show 10 + j - 10 = j by omega]

section Link

variable (hg : Geometry sb) (h : TxOk may sb v) {ino : Nat} (hv : inoValid sb ino = true)
  {b : Nat} (hlo : sb.dataStart ≤ b) (hhi : b < sb.totalBlocks)
  (hbit : bitAt sb v.view b = false)

def SameAttrs (ip ip' : KfsInode) : Prop :=
  ip' = { ip with direct := ip'.direct, indirect := ip'.indirect }

private theorem SameAttrs.refl (ip : KfsInode) : SameAttrs ip ip := rfl

private theorem SameAttrs.trans {a b c : KfsInode} (h : SameAttrs a b) (h' : SameAttrs b c) :
    SameAttrs a c := by
  unfold SameAttrs at *
  rw [h', h]

structure Linked (may : ReadRule Block) (sb : KfsSuperblock)
    (v w : TxView Block KfsMem) (ino : Nat) (slot : Option Nat) (b : Nat) : Prop where
  ok : TxOk may sb w
  free : v.mem.sb.freeBlocks = w.mem.sb.freeBlocks + 1
  others : ∀ ino', inoValid sb ino' = true → ino' ≠ ino →
    inodeAt sb w.view ino' = inodeAt sb v.view ino'
  attrs : SameAttrs (inodeAt sb v.view ino) (inodeAt sb w.view ino)
  here : ptrOf sb w.view ino slot = b
  ptrs : ∀ ino' slot', inoValid sb ino' = true → (ino', slot') ≠ (ino, slot) →
    ptrOf sb w.view ino' slot' = ptrOf sb v.view ino' slot'
  files : ∀ ino' i, inoValid sb ino' = true → fileByte sb w.view ino' i = fileByte sb v.view ino' i
  zero : w.view b = Block.zero

include hg h hlo hhi hbit in
/-- Shared part of the three kinds of link: `w` agrees with `take v b` on bits, on `b` and on every
block that was in use as data, and its references are those of `v` with one more. -/
private theorem linked_of (w : View) (slot : Option Nat)
    (hold : ptrOf sb v.view ino slot = 0) (hshape : Shape may sb w) (hmem : w.mem = (take v b).mem)
    (hbits : ∀ c < sb.bitmapBlocks * 32768, bitAt sb w.view c = bitAt sb (take v b).view c)
    (hothers : ∀ ino', inoValid sb ino' → ino' ≠ ino →
      inodeAt sb w.view ino' = inodeAt sb v.view ino')
    (hattrs : SameAttrs (inodeAt sb v.view ino) (inodeAt sb w.view ino))
    (hself : ∀ s, ptrOf sb w.view ino s = if s = slot then b else ptrOf sb v.view ino s)
    (hother : ∀ ino', inoValid sb ino' → ino' ≠ ino →
      ∀ s, ptrOf sb w.view ino' s = ptrOf sb v.view ino' s)
    (hdata : ∀ ino' n, inoValid sb ino' → ptrOf sb v.view ino' (some n) ≠ 0 →
      w.view (ptrOf sb v.view ino' (some n)) = v.view (ptrOf sb v.view ino' (some n)))
    (hzero : w.view b = Block.zero) (hv : inoValid sb ino) :
    Linked may sb v w ino slot b := by
  have hfree := take_free hg h.ledger hhi hbit
  have hb0 := hg.ne_zero hlo
  have hhere : ptrOf sb w.view ino slot = b := by rw [hself, if_pos rfl]
  have hptrs : ∀ ino' s, inoValid sb ino' → (ino', s) ≠ (ino, slot) →
      ptrOf sb w.view ino' s = ptrOf sb v.view ino' s := by
    intro i s hi hne
    by_cases hiino : i = ino
    · subst hiino
      rw [hself, if_neg (by rintro rfl; exact hne rfl)]
    · exact hother i hi hiino s
  refine ⟨⟨hshape, ?_⟩, by rw [hmem]; omega, hothers, hattrs, hhere, hptrs, ?_, hzero⟩
  · rw [Accounted, hmem, hfree.1]
    refine Ledger.congr (Ledger.acquire h.ledger (k := (ino, slot)) (b := b) ?_ hhi hbit) ?_ ?_
    · simp [ownOf, hold]
    · rintro ⟨ino', slot'⟩
      by_cases hk : (ino', slot') = (ino, slot)
      · rw [hk, update_self]
        simp [ownOf, hv, hhere]
      rw [update_of_ne hk]
      simp only [ownOf]
      split
      · rename_i hv'
        exact hptrs ino' slot' hv' hk
      · rfl
    · intro c hc
      rw [hbits c hc, take_bit hg h.toShape hlo c hc]
  · intro ino' i hv'
    by_cases hk : (ino', some (i / 4096)) = (ino, slot)
    · -- the block was not mapped before and is zero now
      simp only [Prod.mk.injEq] at hk
      obtain ⟨rfl, rfl⟩ := hk
      rw [fileByte, fileByte, hhere, hold, if_neg hb0, if_pos rfl, hzero, Block.byte_zero]
    · exact fileByte_congr (hptrs ino' _ hv' hk) (hdata ino' _ hv')

private theorem setDirect_bounded {ip : KfsInode} (hb : ip.Bounded) (n : Fin 10) {c : Nat}
    (hc : c < 4294967296) : (ip.setDirect n c).Bounded := by
  refine ⟨hb.type, hb.mode, hb.size, hb.uid, hb.gid, hb.mtime, ?_, hb.indirect⟩
  intro i
  simp only [KfsInode.setDirect]
  split
  · exact hc
  · exact hb.direct i

private theorem ptr_setDirect (ip : KfsInode) (tab : Nat → Nat → Nat) (n : Fin 10) (c : Nat)
    (slot : Option Nat) :
    ptr (ip.setDirect n c) tab slot = if slot = some n.val then c else ptr ip tab slot := by
  cases slot with
  | none => simp [ptr, KfsInode.setDirect]
  | some k =>
    simp only [ptr, KfsInode.setDirect, KfsInode.directAt, Option.some.injEq]
    by_cases hk : k < 10
    · simp only [hk, if_true, dite_true, Fin.ext_iff]
    have hne : k ≠ n := by omega
    simp only [hk, hne, if_false]
    rfl

include hg h hv hlo hhi hbit

private theorem linkInode {ip : KfsInode} {slot : Option Nat} (hb : ip.Bounded)
    (hattrs : SameAttrs (inodeAt sb v.view ino) ip) (hold : ptrOf sb v.view ino slot = 0)
    (htable : ip.indirect = (inodeAt sb v.view ino).indirect ∨ ip.indirect = b)
    (hptr : ∀ s, ptr ip (tabAt (take v b).view) s = if s = slot then b else ptrOf sb v.view ino s) :
    Linked may sb v (store (take v b) ino ip) ino slot b ∧
      inodeAt sb (store (take v b) ino ip).view ino = ip := by
  have hs := take_shape hg h.toShape hlo hhi
  have hrefs := fun i (hi : inoValid sb i) =>
    take_refs hg h.toShape h.ledger hlo hhi hbit hi
  have htab := fun i (hi : inoValid sb i) => table_ne_unused h.ledger hbit hi
  have hat := fun i (hi : inoValid sb i) => store_inodeAt hs hv hb hi
  refine ⟨linked_of hg h hlo hhi hbit _ _ hold (store_shape hg hs hv) (store_mem _ _ _)
    (fun c hc => store_bit hg hs hv c hc) ?_ ?_ ?_ ?_ ?_ ?_ hv, ?_⟩
  · intro i hi hne
    rw [hat i hi, if_neg hne, (hrefs i hi).1]
  · rw [hat ino hv, if_pos rfl]
    exact hattrs
  · intro s
    rw [store_ptrOf_self hg hs hv hb fun h0 => ?_, hptr]
    rcases htable with heq | heq
    · rw [heq] at h0 ⊢
      exact (htab ino hv h0).1
    · rw [heq]
      exact hlo
  · intro i hi hne s
    rw [store_ptrOf_other hg hs hv hb hi hne
      (by rw [(hrefs i hi).1]; exact fun h0 => (htab i hi h0).1), (hrefs i hi).2]
  · intro i k hi h0
    have hr := h.ledger.own_range hi h0
    rw [store_view_data hg hs hv hr.1, take_view_other hg h.toShape hhi
      (by have := hg.dataStart; omega) (h.ledger.own_ne_unused hi h0 hbit)]
  · rw [store_view_data hg hs hv hlo, take_view_self]
  · rw [hat ino hv, if_pos rfl]

private theorem linkDirect {n : Fin 10} (hold : (inodeAt sb v.view ino).direct n = 0) :
    Linked may sb v (store (take v b) ino ((inodeAt sb v.view ino).setDirect n b)) ino (some n) b ∧
      inodeAt sb (store (take v b) ino ((inodeAt sb v.view ino).setDirect n b)).view ino =
        (inodeAt sb v.view ino).setDirect n b := by
  have hbound := setDirect_bounded (inodeAt_bounded sb v.view ino) n
    (show b < 4294967296 by have := hg.total_lt; omega)
  refine linkInode hg h hv hlo hhi hbit hbound rfl ?_ (.inl rfl) fun slot => ?_
  · simp [ptrOf, ptr, KfsInode.directAt, hold]
  · obtain ⟨hat, hptr⟩ := take_refs hg h.toShape h.ledger hlo hhi hbit hv
    rw [ptr_setDirect, ← hptr, ptrOf, hat]

private theorem linkIndirect (hold : (inodeAt sb v.view ino).indirect = 0) :
    Linked may sb v (store (take v b) ino { inodeAt sb v.view ino with indirect := b }) ino none b ∧
      inodeAt sb (store (take v b) ino { inodeAt sb v.view ino with indirect := b }).view ino =
        { inodeAt sb v.view ino with indirect := b } := by
  have hb := inodeAt_bounded sb v.view ino
  have hbound : KfsInode.Bounded { inodeAt sb v.view ino with indirect := b } :=
    ⟨hb.type, hb.mode, hb.size, hb.uid, hb.gid, hb.mtime, hb.direct,
      show b < 4294967296 by have := hg.total_lt; omega⟩
  have hb0 := hg.ne_zero hlo
  refine linkInode hg h hv hlo hhi hbit hbound rfl hold (.inr rfl) fun slot => ?_
  cases slot with
  | none => rfl
  | some k =>
    -- the new table is all zeros
    have htz : ∀ j, tabAt (take v b).view b j = 0 := by
      intro j
      rw [tabAt, take_view_self, Block.le32_zero]
    simp only [ptrOf, ptr, KfsInode.directAt, htz, hb0, hold, false_or, true_or, if_true,
      reduceCtorEq, if_false, ite_self]

private theorem linkEntry {j : Nat} (hj : j < 1024) (ht : (inodeAt sb v.view ino).indirect ≠ 0)
    (hold : tabAt v.view (inodeAt sb v.view ino).indirect j = 0) :
    Linked may sb v ((take v b).write (inodeAt sb v.view ino).indirect
        (putWord (v.view (inodeAt sb v.view ino).indirect) j b)) ino (some (10 + j)) b ∧
      inodeAt sb ((take v b).write (inodeAt sb v.view ino).indirect
        (putWord (v.view (inodeAt sb v.view ino).indirect) j b)).view ino =
        inodeAt sb v.view ino := by
  generalize htdef : (inodeAt sb v.view ino).indirect = t at *
  have hs := take_shape hg h.toShape hlo hhi
  have htr : sb.dataStart ≤ t ∧ t < sb.totalBlocks := by
    rw [← htdef]
    exact h.ledger.table_range hv (by rw [htdef]; exact ht)
  have htb : t ≠ b := by
    rw [← htdef]
    exact (table_ne_unused h.ledger hbit hv (by rw [htdef]; exact ht)).2
  have hreg := hg.regions
  have hview : ∀ c, sb.inodeStart ≤ c → c ≠ b → c ≠ t →
      ((take v b).write t (putWord (v.view t) j b)).view c = v.view c := by
    intro c hc hcb hct
    rw [TxView.write_other _ _ _ _ hct, take_view_other hg h.toShape hhi hc hcb]
  have hat : ∀ i, inoValid sb i →
      inodeAt sb ((take v b).write t (putWord (v.view t) j b)).view i = inodeAt sb v.view i := by
    intro i hi
    have hblk := hg.inodeBlk_range hi
    exact inodeAt_congr (hview _ hblk.1 (by omega) (by omega))
  refine ⟨linked_of hg h hlo hhi hbit _ _ ?_ (hs.write _ (by omega) htr.2
    (hg.not_inJournal (by omega))) rfl ?_ ?_ ?_ ?_ ?_ ?_ ?_ hv, hat ino hv⟩
  · rw [ptrOf_entry hj (by rw [htdef]; exact ht), htdef]
    exact hold
  · exact fun c hc => bitAt_congr (TxView.write_other _ _ _ _ (by omega))
  · exact fun i hi _ => hat i hi
  · rw [hat ino hv]
    exact .refl _
  · intro slot
    unfold ptrOf
    rw [hat ino hv]
    cases slot with
    | none => rfl
    | some n =>
      simp only [ptr, htdef, ht, false_or, Option.some.injEq]
      by_cases hn : n < 10
      · simp [hn, show n ≠ 10 + j by omega]
      by_cases hn' : 1034 ≤ n
      · simp [hn, hn', show n ≠ 10 + j by omega]
      simp only [hn, hn', if_false]
      rw [tabAt, TxView.write_same, tabAt_putWord _ _ _ _ (by have := hg.total_lt; omega)
        (by omega)]
      have hiff : n - 10 = j ↔ n = 10 + j := by omega
      simp only [hiff]
      rfl
  · intro i hi hne slot
    refine ptrOf_congr (hat i hi) (fun h0 => ?_) slot
    have htn := table_ne_unused h.ledger hbit hi h0
    refine hview _ (by omega) htn.2 fun heq => hne ?_
    exact (@Accounted.own_inj _ _ _ h.ledger _ hi none _ hv none h0
      (heq.trans htdef.symm)).1
  · intro i k hi h0
    have hr := h.ledger.own_range hi h0
    refine hview _ (by omega) (h.ledger.own_ne_unused hi h0 hbit) fun heq => ?_
    have := (@Accounted.own_inj _ _ _ h.ledger _ hi _ _ hv none h0 (heq.trans htdef.symm)).2
    simp at this
  · rw [TxView.write_other _ _ _ _ (Ne.symm htb), take_view_self]

end Link

/-- File block `n` of `ino` is mapped to `b` in `w`; blocks were taken for it where needed. -/
structure Mapped (may : ReadRule Block) (sb : KfsSuperblock)
    (v w : TxView Block KfsMem) (ino n b : Nat) : Prop where
  ok : TxOk may sb w
  others : ∀ ino', inoValid sb ino' = true → ino' ≠ ino →
    inodeAt sb w.view ino' = inodeAt sb v.view ino'
  attrs : SameAttrs (inodeAt sb v.view ino) (inodeAt sb w.view ino)
  pos : b ≠ 0
  here : ptrOf sb w.view ino (some n) = b
  kept : ptrOf sb v.view ino (some n) ≠ 0 → b = ptrOf sb v.view ino (some n)
  table : (inodeAt sb w.view ino).indirect ≠ 0 ↔ (inodeAt sb v.view ino).indirect ≠ 0 ∨ 10 ≤ n
  ptrs : ∀ ino' slot, inoValid sb ino' = true → (ino', slot) ≠ (ino, some n) →
    (ino', slot) ≠ (ino, none) → ptrOf sb w.view ino' slot = ptrOf sb v.view ino' slot
  files : ∀ ino' i, inoValid sb ino' = true → fileByte sb w.view ino' i = fileByte sb v.view ino' i
  free : v.mem.sb.freeBlocks = w.mem.sb.freeBlocks +
    (if ptrOf sb v.view ino (some n) = 0 then 1 else 0) +
    (if 10 ≤ n ∧ (inodeAt sb v.view ino).indirect = 0 then 1 else 0)

private theorem Mapped.refl (h : TxOk may sb v) {ino n : Nat}
    (h0 : ptrOf sb v.view ino (some n) ≠ 0) :
    Mapped may sb v v ino n (ptrOf sb v.view ino (some n)) := by
  have htab : 10 ≤ n → (inodeAt sb v.view ino).indirect ≠ 0 := by
    intro hn hz
    apply h0
    simp [ptrOf, ptr, hz, show ¬ n < 10 by omega]
  refine ⟨h, fun _ _ _ => rfl, .refl _, h0, rfl, fun _ => rfl, ?_, fun _ _ _ _ _ => rfl,
    fun _ _ _ => rfl, ?_⟩
  · exact ⟨.inl, fun hor => hor.elim id htab⟩
  · rw [if_neg h0, if_neg fun hc => htab hc.1 hc.2, Nat.add_zero]

/-! ## Inodes that are written back late

While a file is written, the caller's copy of its inode is ahead of the table when an `iput` failed.
The rules of `bmap` are about what the transaction would see had none failed. -/

section Late

variable {x : View} {ino : Nat}

private theorem putInode_putInode (d : Block) (ino : Nat) (ip ip' : KfsInode) :
    putInode (putInode d ino ip) ino ip' = putInode d ino ip' := by
  unfold putInode
  congr 1
  funext i
  simp only [splice]
  split
  · rfl
  rename_i hout
  by_cases hi : i < 4096
  · rw [Block.byte_ofBytes _ _ hi, splice, if_neg hout]
  · simp [Block.byte, hi]

/-- `x` is `v` with another copy of inode `ino`, one that `iput` may have failed to write back. -/
structure Late (sb : KfsSuperblock) (ino : Nat) (v x : TxView Block KfsMem) : Prop where
  mem : x.mem = v.mem
  view : ∀ c, c ≠ inodeBlk sb ino → x.view c = v.view c
  block :
    ∀ ip, putInode (x.view (inodeBlk sb ino)) ino ip = putInode (v.view (inodeBlk sb ino)) ino ip
  staged : ∀ c, c ≠ inodeBlk sb ino → x.staged c = v.staged c
  kept : v.staged (inodeBlk sb ino) = true → x.staged (inodeBlk sb ino) = true

namespace Late

theorem refl (v : View) : Late sb ino v v :=
  ⟨rfl, fun _ _ => rfl, fun _ => rfl, fun _ _ => rfl, id⟩

variable (hL : Late sb ino v x)
include hL

theorem write (hb : b ≠ inodeBlk sb ino) (d : Block) : Late sb ino (v.write b d) (x.write b d) where
  mem := hL.mem
  view c hc := by simp only [TxView.write, hL.view c hc]
  block ip := by
    rw [TxView.write_other _ _ _ _ hb.symm, TxView.write_other _ _ _ _ hb.symm]
    exact hL.block ip
  staged c hc := by simp only [TxView.write, hL.staged c hc]
  kept := by
    simp only [TxView.write_staged]
    exact Or.imp_right hL.kept

theorem shape (h : Shape may sb x) (h0 : inodeBlk sb ino ≠ 0) : Shape may sb v where
  layout := hL.mem ▸ h.layout
  sbHome := by
    rw [← hL.view 0 h0.symm, ← hL.mem]
    exact h.sbHome
  staged c hc := by
    refine h.staged c ?_
    by_cases hcb : c = inodeBlk sb ino
    · rw [hcb] at hc ⊢
      exact hL.kept hc
    · rw [hL.staged c hcb]
      exact hc
  honest := h.honest

theorem reads (hb : b ≠ inodeBlk sb ino) {r : Option Block} (hr : v.Reads may b r) :
    x.Reads may b r := by
  unfold TxView.Reads at hr ⊢
  rwa [hL.staged b hb, hL.view b hb]

private theorem setMem (m : KfsMem) : Late sb ino { v with mem := m } { x with mem := m } :=
  ⟨rfl, hL.view, hL.block, hL.staged, hL.kept⟩

private theorem take (hb : b ≠ inodeBlk sb ino) (h0 : inodeBlk sb ino ≠ 0)
    (hbit : v.mem.sb.bitmapStart + b / 32768 ≠ inodeBlk sb ino) :
    Late sb ino (take v b) (take x b) := by
  unfold Kfs.take mark
  rw [hL.mem]
  dsimp only
  rw [hL.view _ hbit]
  exact (((hL.write hbit _).setMem _).write h0.symm _).write hb _

theorem store_eq (hl : SameLayout sb v.mem.sb) (ip : KfsInode) :
    store v ino ip = store x ino ip := by
  have hview : (store v ino ip).view = (store x ino ip).view := by
    funext c
    simp only [store, TxView.write, hL.mem, inodeBlk_layout hl, hL.block]
    split
    · rfl
    · rename_i hc
      exact (hL.view c hc).symm
  have hstaged : (store v ino ip).staged = (store x ino ip).staged := by
    funext c
    simp only [store, TxView.write, hL.mem, inodeBlk_layout hl]
    by_cases hc : c = inodeBlk sb ino
    · simp [hc]
    · rw [hL.staged c hc]
  exact TxView.mk.injEq .. |>.mpr ⟨hview, hstaged, hL.mem.symm⟩

private theorem lost (hl : SameLayout sb v.mem.sb) (ip : KfsInode) :
    Late sb ino v (store x ino ip) := by
  have hblk : inodeBlk x.mem.sb ino = inodeBlk sb ino := by rw [hL.mem, inodeBlk_layout hl]
  refine ⟨hL.mem, fun c hc => ?_, fun ip' => ?_, fun c hc => ?_, fun _ => ?_⟩
  · rw [store, hblk, TxView.write_other _ _ _ _ hc, hL.view c hc]
  · rw [store, hblk, TxView.write_same, putInode_putInode, hL.block]
  · rw [← hL.staged c hc]
    simp [store, TxView.write, hblk, hc]
  · simp [store, TxView.write, hblk]

end Late

variable (hg : Geometry sb) (h : TxOk may sb x) (hL : Late sb ino v x) (hv : inoValid sb ino)

include hg hL hv in
theorem wp_iput_late (h : Shape may sb x) (ip : KfsInode) {Q : Bool → View → Prop}
    (hQ : ∀ ok w, Late sb ino w (store x ino ip) → Q ok w) : (iput ino ip).wp may Q v := by
  have hblk := hg.inodeBlk_range hv
  have hreg := hg.regions
  have hs := hL.shape h (by omega)
  refine wp_iput hs ip hv (fun _ => hQ _ _ (hL.lost hs.layout ip)) ?_
  rw [hL.store_eq hs.layout]
  exact hQ _ _ (.refl _)

include hg h hL hv

private theorem wp_balloc_late {Q : Nat → View → Prop}
    (hfull : x.mem.sb.freeBlocks = 0 ∨ may.fallible → Q 0 v)
    (hgot : ∀ b, sb.dataStart ≤ b → b < sb.totalBlocks → bitAt sb x.view b = false →
      Late sb ino (take v b) (take x b) → Q b (take v b)) : balloc.wp may Q v := by
  have hblk := hg.inodeBlk_range hv
  have hreg := hg.regions
  have hs := hL.shape h.toShape (by omega)
  have hbits : ∀ c < sb.bitmapBlocks * 32768, bitAt sb v.view c = bitAt sb x.view c :=
    fun c hc => bitAt_congr (hL.view _ (by omega)).symm
  have hledger := Ledger.congr h.ledger (fun _ => rfl) hbits
  rw [hL.mem] at hledger hfull
  refine wp_balloc hg hs hledger hfull fun b hlo hhi hbit => ?_
  rw [hbits b (by omega)] at hbit
  refine hgot b hlo hhi hbit (hL.take (by omega) (by omega) ?_)
  rw [hs.layout.bitmapStart]
  omega

private theorem wp_bmapIndirect {j : Nat} (hj : j < 1024)
    (ht : (inodeAt sb x.view ino).indirect ≠ 0) {Q : Nat → View → Prop}
    (hold : ptrOf sb x.view ino (some (10 + j)) ≠ 0 → Q (ptrOf sb x.view ino (some (10 + j))) v)
    (hfull : x.mem.sb.freeBlocks = 0 ∨ may.fallible → Q 0 v)
    (hlink : ptrOf sb x.view ino (some (10 + j)) = 0 → ∀ b w y, b ≠ 0 → Late sb ino w y →
      Linked may sb x y ino (some (10 + j)) b →
      inodeAt sb y.view ino = inodeAt sb x.view ino → Q b w) :
    (bmapIndirect (inodeAt sb x.view ino) j true).wp may Q v := by
  rw [ptrOf_entry hj ht] at hold hlink
  have htab := h.ledger.table_range hv ht
  have hne : (inodeAt sb x.view ino).indirect ≠ inodeBlk sb ino := by
    have := hg.inodeBlk_range hv
    omega
  simp only [bmapIndirect, wp_bind, Tx.wp_read, and_true]
  intro r hr
  obtain rfl | ⟨rfl, hfails⟩ := h.reads_owned hv none ht (hL.reads hne hr)
  swap
  · exact hfull (.inr hfails)
  dsimp only
  split
  · rename_i hz
    simp only [wp_bind]
    refine wp_balloc_late hg h hL hv (fun hf => ?_) fun b hlo hhi hbit hL' => ?_
    · rw [if_pos rfl]
      exact hfull hf
    have hb0 := hg.ne_zero hlo
    obtain ⟨hl, hat⟩ := linkEntry hg h hv hlo hhi hbit hj ht hz
    rw [if_neg hb0]
    exact hlink hz b _ _ hb0 (hL'.write hne _) hl hat
  · rename_i hz
    exact hold hz

theorem wp_bmap {n : Nat} (hn : n < 1034) {Q : Nat × KfsInode → View → Prop}
    (hmap : ∀ b w y, Late sb ino w y → Mapped may sb x y ino n b → Q (b, inodeAt sb y.view ino) w)
    (hfull : x.mem.sb.freeBlocks = 0 ∨ may.fallible → Q (0, inodeAt sb x.view ino) v)
    (hhalf : ∀ nb w y, Late sb ino w y → 10 ≤ n → (inodeAt sb x.view ino).indirect = 0 →
      x.mem.sb.freeBlocks = 1 ∨ may.fallible → Linked may sb x y ino none nb →
      Q (0, inodeAt sb y.view ino) w) :
    (bmap ino (inodeAt sb x.view ino) n true).wp may Q v := by
  unfold bmap
  split
  · -- a direct pointer
    rename_i hn10
    have hptr : ptrOf sb x.view ino (some n) = (inodeAt sb x.view ino).direct ⟨n, hn10⟩ := by
      simp [ptrOf, ptr, KfsInode.directAt, hn10]
    simp only [and_true]
    split
    · rename_i hz
      simp only [wp_bind]
      refine wp_balloc_late hg h hL hv (fun hf => ?_) fun b hlo hhi hbit hL' => ?_
      · rw [if_pos rfl]
        exact hfull hf
      obtain ⟨hl, hat⟩ := linkDirect hg h hv hlo hhi hbit hz
      rw [if_neg (hg.ne_zero hlo)]
      simp only [wp_bind]
      refine wp_iput_late hg hL' hv (take_shape hg h.toShape hlo hhi) _ fun _ w hw => ?_
      generalize store (take x b) ino ((inodeAt sb x.view ino).setDirect ⟨n, hn10⟩ b) = y
        at hl hat hw
      rw [wp_pure, ← hat]
      apply hmap _ _ _ hw
      refine ⟨hl.ok, hl.others, hl.attrs, hg.ne_zero hlo, hl.here,
        fun hne => absurd (hptr.trans hz) hne, ?_, fun i s hi h1 _ => hl.ptrs i s hi h1,
        hl.files, ?_⟩
      · rw [hat]
        exact ⟨.inl, fun hor => hor.resolve_right (by omega)⟩
      · rw [hptr, if_pos hz, if_neg (by omega)]
        exact hl.free
    · rename_i hz
      rw [wp_pure, ← hptr]
      exact hmap _ v x hL (.refl h (by rw [hptr]; exact hz))
  rename_i hn10
  rw [if_neg (by omega)]
  obtain ⟨j, rfl⟩ : ∃ j, n = 10 + j := ⟨n - 10, by omega⟩
  rw [show 10 + j - 10 = j by omega]
  split
  · -- no table yet
    rename_i hz
    have hold : ptrOf sb x.view ino (some (10 + j)) = 0 := by simp [ptrOf, ptr, hz]
    simp only [if_true, wp_bind]
    refine wp_balloc_late hg h hL hv (fun hf => ?_) fun nb hlo hhi hbit hL' => ?_
    · rw [if_pos rfl]
      exact hfull hf
    obtain ⟨hl, hat⟩ := linkIndirect hg h hv hlo hhi hbit hz
    rw [if_neg (hg.ne_zero hlo)]
    simp only [wp_bind]
    refine wp_iput_late hg hL' hv (take_shape hg h.toShape hlo hhi) _ fun _ v1 hL1 => ?_
    generalize store (take x nb) ino { inodeAt sb x.view ino with indirect := nb } =
      x1 at hl hat hL1
    rw [← hat]
    have ht1 : (inodeAt sb x1.view ino).indirect = nb := by rw [hat]
    have hne1 : (inodeAt sb x1.view ino).indirect ≠ 0 := by rw [ht1]; exact hg.ne_zero hlo
    have hold1 : ptrOf sb x1.view ino (some (10 + j)) = 0 := by
      rw [hl.ptrs ino _ hv (by simp), hold]
    refine wp_bmapIndirect hg hl.ok hL1 hv (by omega) hne1 ?_ ?_ ?_
    · exact fun hne => absurd hold1 hne
    · intro hf
      rw [wp_pure]
      exact hhalf nb v1 x1 hL1 (by omega) hz (hf.imp_left fun h0 => by rw [hl.free, h0]) hl
    intro _ b w y hb0 hL2 hl2 hat2
    rw [wp_pure, ← hat2]
    apply hmap _ _ _ hL2
    refine ⟨hl2.ok, fun i hi hne => (hl2.others i hi hne).trans (hl.others i hi hne),
      hl.attrs.trans hl2.attrs, hb0, hl2.here, fun hne => absurd hold hne, ?_, ?_, ?_, ?_⟩
    · rw [hat2]
      exact ⟨fun _ => .inr (by omega), fun _ => hne1⟩
    · intro i s hi h1 h2
      rw [hl2.ptrs i s hi h1, hl.ptrs i s hi h2]
    · intro i k hi
      rw [hl2.files i k hi, hl.files i k hi]
    · rw [hold, if_pos rfl, if_pos ⟨by omega, hz⟩, hl.free, hl2.free]
  · rename_i hz
    simp only [wp_bind]
    refine wp_bmapIndirect hg h hL hv (by omega) hz ?_ ?_ ?_
    · intro hne
      rw [wp_pure]
      exact hmap _ v x hL (.refl h hne)
    · intro hf
      rw [wp_pure]
      exact hfull hf
    intro hold b w y hb0 hL' hl hat
    rw [wp_pure, ← hat]
    apply hmap _ _ _ hL'
    refine ⟨hl.ok, hl.others, hl.attrs, hb0, hl.here, fun hne => absurd hold hne, ?_,
      fun i s hi h1 _ => hl.ptrs i s hi h1, hl.files, ?_⟩
    · rw [hat]
      exact ⟨.inl, fun _ => hz⟩
    · rw [if_pos hold, if_neg fun hc => hz hc.2]
      exact hl.free

end Late

end KestrelOS.Kfs
