import KestrelOS.Kfs.Accounting

/-!
# File data

`wp_writeLoop` is the invariant rule of the copy loop of `writei`: an invariant is kept by every
`Wrote`, which is what one iteration does. `truncate_locked` gives up references one by one.
-/

namespace KestrelOS.Kfs

open Function
open TxProg (wp_bind wp_pure wp_mono wp_trivial)

variable {may : ReadRule Block} {sb : KfsSuperblock}
  {v : View}

variable {ino : Nat}

theorem wp_bmap_read (h : TxOk may sb v) (hv : inoValid sb ino) (n : Nat)
    {Q : Nat × KfsInode → View → Prop}
    (hQ : Q (ptrOf sb v.view ino (some n), inodeAt sb v.view ino) v)
    (hnone : may.fallible → Q (0, inodeAt sb v.view ino) v) :
    (bmap ino (inodeAt sb v.view ino) n false).wp may Q v := by
  unfold bmap
  split
  · rename_i hn
    simp only [Bool.false_eq_true, and_false, if_false, wp_pure]
    simpa [ptrOf, ptr, KfsInode.directAt, hn] using hQ
  rename_i hn
  split
  · rename_i hbig
    simpa [ptrOf, ptr, hn, hbig] using hQ
  rename_i hbig
  split
  · rename_i hz
    simpa [ptrOf, ptr, hn, hz] using hQ
  rename_i hz
  simp only [bmapIndirect, wp_bind, Tx.wp_read, Bool.false_eq_true, and_false, if_false]
  intro r hr
  obtain rfl | ⟨rfl, hf⟩ := h.reads_owned hv none hz hr
  · simpa [ptrOf, ptr, hn, hz, hbig, tabAt] using hQ
  · exact hnone hf

/-- One iteration that wrote bytes `[pos, pos + len)` of inode `ino`. -/
structure Wrote (may : ReadRule Block) (sb : KfsSuperblock) (ino : Nat)
    (pos len : Nat) (data : Nat → UInt8) (v w : TxView Block KfsMem) : Prop where
  ok : TxOk may sb w
  others : ∀ ino', inoValid sb ino' = true → ino' ≠ ino →
    inodeAt sb w.view ino' = inodeAt sb v.view ino'
  attrs : SameAttrs { inodeAt sb v.view ino with
    size := max (inodeAt sb v.view ino).size (pos + len) } (inodeAt sb w.view ino)
  here : ptrOf sb w.view ino (some (pos / 4096)) ≠ 0
  kept : ptrOf sb v.view ino (some (pos / 4096)) ≠ 0 →
    ptrOf sb w.view ino (some (pos / 4096)) = ptrOf sb v.view ino (some (pos / 4096))
  table : (inodeAt sb w.view ino).indirect ≠ 0 ↔
    (inodeAt sb v.view ino).indirect ≠ 0 ∨ 10 ≤ pos / 4096
  ptrs : ∀ ino' slot, inoValid sb ino' = true → (ino', slot) ≠ (ino, some (pos / 4096)) →
    (ino', slot) ≠ (ino, none) → ptrOf sb w.view ino' slot = ptrOf sb v.view ino' slot
  files : ∀ ino' i, inoValid sb ino' = true → fileByte sb w.view ino' i =
    if ino' = ino ∧ pos ≤ i ∧ i < pos + len then data i else fileByte sb v.view ino' i
  free : v.mem.sb.freeBlocks = w.mem.sb.freeBlocks +
    (if ptrOf sb v.view ino (some (pos / 4096)) = 0 then 1 else 0) +
    (if 10 ≤ pos / 4096 ∧ (inodeAt sb v.view ino).indirect = 0 then 1 else 0)

theorem chunkLen_le (pos rest : Nat) :
    chunkLen pos rest ≤ rest ∧ pos % 4096 + chunkLen pos rest ≤ 4096 := by
  unfold chunkLen
  omega

theorem chunkLen_pos (pos rest : Nat) (h : 0 < rest) : 0 < chunkLen pos rest := by
  unfold chunkLen
  omega

private theorem spliced_byte {old : Block} {pos len i : Nat} (data : Nat → UInt8)
    (hi : i / 4096 = pos / 4096) :
    (Block.ofBytes (splice old.byte (pos % 4096) len fun k => data (pos + k))).byte (i % 4096) =
      if pos ≤ i ∧ i < pos + len then data i else old.byte (i % 4096) := by
  rw [Block.byte_ofBytes _ _ (by omega)]
  by_cases hin : pos ≤ i ∧ i < pos + len
  · rw [if_pos hin]
    obtain ⟨k, rfl⟩ : ∃ k, i = pos + k := ⟨i - pos, by omega⟩
    rw [show (pos + k) % 4096 = pos % 4096 + k by omega, splice_inside _ _ _ _ _ (by omega)]
  · rw [if_neg hin, splice_outside _ _ _ _ _ (by omega)]

section Iteration

variable (hg : Geometry sb) {w : View} {ino pos len b : Nat}
  (hv : inoValid sb ino = true) (hm : Mapped may sb v w ino (pos / 4096) b)
  {old : Block} (data : Nat → UInt8) (hlen : pos % 4096 + len ≤ 4096)
  (hold : len < 4096 → old = w.view b)

include hg hv hm hlen hold in
private theorem data_iteration :
    let w' := w.write b (Block.ofBytes (splice old.byte (pos % 4096) len fun k => data (pos + k)))
    TxOk may sb w' ∧
      (∀ ino', inoValid sb ino' → inodeAt sb w'.view ino' = inodeAt sb w.view ino') ∧
      (∀ ino' slot, inoValid sb ino' →
        ptrOf sb w'.view ino' slot = ptrOf sb w.view ino' slot) ∧
      ∀ ino' i, inoValid sb ino' → fileByte sb w'.view ino' i =
        if ino' = ino ∧ pos ≤ i ∧ i < pos + len then data i else fileByte sb v.view ino' i := by
  intro w'
  have h0 : ptrOf sb w.view ino (some (pos / 4096)) ≠ 0 := by rw [hm.here]; exact hm.pos
  have hw' : w' = w.write (ptrOf sb w.view ino (some (pos / 4096)))
      (Block.ofBytes (splice old.byte (pos % 4096) len fun k => data (pos + k))) := by rw [hm.here]
  rw [hw']
  refine ⟨hm.ok.writeData hg hv h0 _, fun i hi => (data_refs hg hm.ok hv h0 _ hi).1,
    fun i slot hi => (data_refs hg hm.ok hv h0 _ hi).2 slot, ?_⟩
  intro ino' i hi
  rw [fileByte_writeData hg hm.ok hv h0 _ hi, hm.files ino' i hi]
  by_cases hhere : ino' = ino ∧ i / 4096 = pos / 4096
  · rw [if_pos hhere, spliced_byte data hhere.2]
    obtain ⟨rfl, hblk⟩ := hhere
    simp only [true_and]
    split
    · rfl
    -- a byte of the block that is not overwritten
    have hshort : len < 4096 := by omega
    rw [hold hshort, ← hm.files ino' i hi, fileByte, hblk, if_neg h0, hm.here]
  · rw [if_neg hhere, if_neg]
    rintro ⟨rfl, h1, h2⟩
    exact hhere ⟨rfl, by omega⟩

def afterChunk (w : TxView Block KfsMem) (ino pos len b : Nat) (old : Block) (data : Nat → UInt8)
    (ip : KfsInode) : TxView Block KfsMem :=
  let w' := w.write b (Block.ofBytes (splice old.byte (pos % 4096) len fun k => data (pos + k)))
  if ip.size < pos + len then store w' ino { ip with size := pos + len } else w'

include hg hv hm hlen hold in
private theorem wrote_afterChunk (hmax : pos + len ≤ 4235264) :
    Wrote may sb ino pos len data v (afterChunk w ino pos len b old data (inodeAt sb w.view ino)) ∧
      inodeAt sb (afterChunk w ino pos len b old data (inodeAt sb w.view ino)).view ino =
        { inodeAt sb w.view ino with size := max (inodeAt sb w.view ino).size (pos + len) } := by
  obtain ⟨hok, hinodes, hptrs, hfiles⟩ := data_iteration hg hv hm data hlen hold
  -- the inode is stored or not: either way only its size can differ
  have hleft : ∀ w', w' = afterChunk w ino pos len b old data (inodeAt sb w.view ino) →
      TxOk may sb w' ∧ w'.mem = w.mem ∧
      inodeAt sb w'.view ino =
        { inodeAt sb w.view ino with size := max (inodeAt sb w.view ino).size (pos + len) } ∧
      (∀ i, inoValid sb i → i ≠ ino → inodeAt sb w'.view i = inodeAt sb w.view i) ∧
      (∀ i slot, inoValid sb i → ptrOf sb w'.view i slot = ptrOf sb w.view i slot) ∧
      ∀ i k, inoValid sb i → fileByte sb w'.view i k =
        if i = ino ∧ pos ≤ k ∧ k < pos + len then data k else fileByte sb v.view i k := by
    intro w' hw'
    unfold afterChunk at hw'
    dsimp only at hw'
    split at hw'
    · rename_i hgrow
      subst hw'
      have hb := inodeAt_bounded sb w.view ino
      have hbound : KfsInode.Bounded { inodeAt sb w.view ino with size := pos + len } :=
        ⟨hb.type, hb.mode, show pos + len < 4294967296 by omega, hb.uid, hb.gid, hb.mtime,
          hb.direct, hb.indirect⟩
      obtain ⟨hok2, hptr2⟩ := hok.store_same hg hv hbound (by rw [hinodes ino hv])
        (by rw [hinodes ino hv])
      have hat := fun i (hi : inoValid sb i) => store_inodeAt hok.toShape hv hbound hi
      refine ⟨hok2, store_mem .., ?_, fun i hi hne => ?_, fun i slot hi => ?_, fun i k hi => ?_⟩
      · rw [hat ino hv, if_pos rfl, Nat.max_eq_right (by omega)]
      · rw [hat i hi, if_neg hne, hinodes i hi]
      · rw [hptr2 i hi, hptrs i slot hi]
      rw [← hfiles i k hi]
      refine fileByte_congr (hptr2 i hi _) fun h0 => ?_
      exact store_view_data hg hok.toShape hv (hok.ledger.own_range hi h0).1
    · subst hw'
      refine ⟨hok, rfl, ?_, fun i hi _ => hinodes i hi, hptrs, hfiles⟩
      rw [hinodes ino hv, Nat.max_eq_left (by omega)]
  obtain ⟨hok', hmem, hself, hothers, hptrs', hfiles'⟩ := hleft _ rfl
  refine ⟨⟨hok', fun i hi hne => ?_, ?_, ?_, fun hne => ?_, ?_, fun i slot hi h1 h2 => ?_, hfiles',
    ?_⟩,
    hself⟩
  · rw [hothers i hi hne, hm.others i hi hne]
  · rw [hself, hm.attrs]
    rfl
  · rw [hptrs' ino _ hv, hm.here]
    exact hm.pos
  · rw [hptrs' ino _ hv, hm.here, hm.kept hne]
  · rw [hself]
    exact hm.table
  · rw [hptrs' i slot hi, hm.ptrs i slot hi h1 h2]
  · rw [hmem]
    exact hm.free

end Iteration

/-- How the copy loop can end: with all bytes written, when no block is free, when the last free
block went to the indirect table, or at a read that failed. -/
inductive WriteEnd (may : ReadRule Block) (sb : KfsSuperblock)
    (ino off n : Nat) (I : Nat → TxView Block KfsMem → Prop) : Nat → TxView Block KfsMem → Prop
  | all (w : TxView Block KfsMem) (hI : I n w) : WriteEnd may sb ino off n I n w
  | full (done : Nat) (w : TxView Block KfsMem) (hI : I done w) (hlt : done < n)
      (hfree : w.mem.sb.freeBlocks = 0 ∨ may.fallible) : WriteEnd may sb ino off n I done w
  | half (done nb : Nat) (w w' : TxView Block KfsMem) (hI : I done w) (hlt : done < n)
      (hn : 10 ≤ (off + done) / 4096) (hz : (inodeAt sb w.view ino).indirect = 0)
      (hfree : w.mem.sb.freeBlocks = 1 ∨ may.fallible) (hl : Linked may sb w w' ino none nb) :
      WriteEnd may sb ino off n I done w'
  | unread (done b : Nat) (w w' : TxView Block KfsMem) (hI : I done w) (hlt : done < n)
      (hm : Mapped may sb w w' ino ((off + done) / 4096) b) (hr : w'.Reads may b none) :
      WriteEnd may sb ino off n I done w'

variable {mtime off : Nat} {buf : Bytes} {I : Nat → View → Prop}
  {Q : Unit → View → Prop} {own : Nat × Option Nat → Nat}

variable {w : View}

theorem Mapped.reads {n b : Nat} (hv : inoValid sb ino) (hm : Mapped may sb v w ino n b)
    {r : Option Block} (hr : w.Reads may b r) : r = some (w.view b) ∨ r = none ∧ may.fallible := by
  have hread := @TxOk.reads_owned _ _ _ hm.ok _ hv (some n)
  rw [hm.here] at hread
  exact hread hm.pos hr

private theorem WriteEnd.ok {n done : Nat} (h : WriteEnd may sb ino off n I done w)
    (hok : ∀ done w, I done w → TxOk may sb w) : TxOk may sb w := by
  cases h with
  | all _ hI => exact hok _ _ hI
  | full _ _ hI => exact hok _ _ hI
  | half _ _ _ _ hI hlt hn hz hfree hl => exact hl.ok
  | unread _ _ _ _ hI hlt hm hr => exact hm.ok

theorem mtime_bounded {ip : KfsInode} (hb : ip.Bounded) (hm : mtime < 4294967296) :
    KfsInode.Bounded { ip with mtime := mtime } :=
  ⟨hb.type, hb.mode, hb.size, hb.uid, hb.gid, hm, hb.direct, hb.indirect⟩

section Writing

variable {n : Nat} (hg : Geometry sb) (hok : ∀ done w, I done w → TxOk may sb w)
  (hstep : ∀ done w w', I done w → done < n →
    Wrote may sb ino (off + done) (chunkLen (off + done) (n - done)) (fun i => buf (i - off)) w w' →
    I (done + chunkLen (off + done) (n - done)) w')

include hg hok hstep

/-- Invariant rule of the copy loop of `writei`: the invariant is kept by what the transaction would
see if every `iput` had worked. -/
private theorem wp_writeLoop (hv : inoValid sb ino) (hmax : off + n ≤ 4235264)
    {Q : KfsInode × Nat → View → Prop} (hend : ∀ done w y, Late sb ino w y →
      WriteEnd may sb ino off n I done y → Q (inodeAt sb y.view ino, done) w)
    {x : View} (fuel done : Nat) (hfuel : n ≤ done + fuel) (hle : done ≤ n) (hL : Late sb ino v x)
    (hI : I done x) : (writeLoop ino off buf n fuel (inodeAt sb x.view ino) done).wp may Q v := by
  induction fuel generalizing done v x with
  | zero =>
    obtain rfl : done = n := by omega
    exact hend done v x hL (.all x hI)
  | succ fuel ih =>
    unfold writeLoop
    split
    · obtain rfl : done = n := by omega
      exact hend done v x hL (.all x hI)
    rename_i hlt
    have hchunk := chunkLen_le (off + done) (n - done)
    have hpos := chunkLen_pos (off + done) (n - done) (by omega)
    simp only [wp_bind]
    refine wp_bmap hg (hok _ _ hI) hL hv (by omega) (fun b w y hw hm => ?_) (fun hf => ?_)
      fun nb w y hw h10 hz hf hl => ?_
    · dsimp only
      rw [if_neg hm.pos]
      simp only [wp_bind]
      have hne : b ≠ inodeBlk sb ino := by
        have hblk := hg.inodeBlk_range hv
        have hown := hm.ok.ledger.own_range hv (by rw [hm.here]; exact hm.pos)
        rw [hm.here] at hown
        omega
      -- after the old contents are at hand, the iteration is complete
      have hgo : ∀ old, (chunkLen (off + done) (n - done) < 4096 → old = y.view b) →
          (let d := Block.ofBytes (splice old.byte ((off + done) % 4096)
              (chunkLen (off + done) (n - done)) fun i => buf (done + i))
           if (inodeAt sb y.view ino).size < off + done + chunkLen (off + done) (n - done) then
             (do
              let _ ← iput ino { inodeAt sb y.view ino with
                size := off + done + chunkLen (off + done) (n - done) }
              writeLoop ino off buf n fuel { inodeAt sb y.view ino with
                size := off + done + chunkLen (off + done) (n - done) }
                (done + chunkLen (off + done) (n - done)) : Tx (KfsInode × Nat))
           else writeLoop ino off buf n fuel (inodeAt sb y.view ino)
             (done + chunkLen (off + done) (n - done))).wp may Q (w.write b
               (Block.ofBytes (splice old.byte ((off + done) % 4096)
                 (chunkLen (off + done) (n - done)) fun i => buf (done + i)))) := by
        intro old hold
        obtain ⟨hwrote, hself⟩ := wrote_afterChunk hg hv hm (fun i => buf (i - off)) hchunk.2 hold
          (by omega)
        have hdata : (fun k => (fun i => buf (i - off)) (off + done + k)) =
            fun i => buf (done + i) := by
          funext k
          simp only
          congr 1
          omega
        have hI' := hstep done x _ hI (by omega) hwrote
        have hnext := fun w' hw' => @ih w' _ (done + chunkLen (off + done) (n - done)) (by omega)
          (by omega) hw' hI'
        obtain ⟨hokd, -⟩ := data_iteration hg hv hm (fun i => buf (i - off)) hchunk.2 hold
        rw [hself] at hnext
        unfold afterChunk at hnext
        rw [hdata] at hnext hokd
        dsimp only at hnext ⊢
        have hw' := hw.write hne (Block.ofBytes (splice old.byte ((off + done) % 4096)
          (chunkLen (off + done) (n - done)) fun i => buf (done + i)))
        split
        · rename_i hgrow
          rw [if_pos hgrow, Nat.max_eq_right (by omega)] at hnext
          simp only [wp_bind]
          exact wp_iput_late hg hw' hv hokd.toShape _ fun _ w' => hnext w'
        · rename_i hgrow
          rw [if_neg hgrow, Nat.max_eq_left (by omega)] at hnext
          exact hnext _ hw'
      split
      · simp only [Tx.wp_read]
        intro r hr
        have hr' := hw.reads hne hr
        obtain rfl | ⟨rfl, -⟩ := hm.reads hv hr'
        · exact hgo _ fun _ => rfl
        · exact hend done w y hw (.unread done b x y hI (by omega) hm hr')
      · rename_i hbig
        exact hgo _ fun hsmall => absurd hsmall hbig
    · exact hend done v x hL (.full done x hI (by omega) hf)
    · exact hend done w y hw (.half done nb x y hI (by omega) h10 hz hf hl)

/-- Rule of `writei`. A result of -1 makes every caller abort, so nothing is asked for it. -/
theorem wp_writei (h : TxOk may sb v)
    {Q : Int → View → Prop} (hfail : ∀ w, Q (-1) w) (hzero : n = 0 → Q 0 v)
    (hstart : inoValid sb ino → (inodeAt sb v.view ino).type ≠ 0 → off + n ≤ 4235264 → I 0 v)
    (hend : inoValid sb ino → (inodeAt sb v.view ino).type ≠ 0 → off + n ≤ 4235264 →
      ∀ done w, 0 < done → WriteEnd may sb ino off n I done w →
        Q done (store w ino { inodeAt sb w.view ino with mtime := mtime })) :
    (writei ino off buf n mtime).wp may Q v := by
  simp only [writei, wp_bind]
  refine wp_iget h.toShape ino (fun _ => hfail v) fun hv => ?_
  dsimp only
  split
  · exact hfail v
  rename_i htype
  split
  · rename_i hn
    exact hzero hn
  split
  · exact hfail v
  rename_i hmax
  have hmax' : off + n ≤ 4235264 := by omega
  simp only [wp_bind]
  refine wp_writeLoop hg hok hstep hv hmax' (fun done w y hL hy => ?_) n 0 (by omega) (by omega)
    (.refl v) (hstart hv htype hmax')
  dsimp only
  split
  · exact hfail w
  rename_i hpos
  simp only [wp_bind]
  have hblk := hg.inodeBlk_range hv
  have hreg := hg.regions
  have hs := hL.shape (hy.ok hok).toShape (by omega)
  refine wp_drop_iput hs _ hv ?_
  rw [hL.store_eq hs.layout]
  exact hend hv htype hmax' done y (by omega) hy

end Writing

structure Freed (may : ReadRule Block) (sb : KfsSuperblock)
    (v w : TxView Block KfsMem) (own : Nat × Option Nat → Nat) : Prop where
  shape : Shape may sb w
  above : ∀ c, sb.inodeStart ≤ c → w.view c = v.view c
  ledger : Ledger sb.dataStart sb.totalBlocks (sb.bitmapBlocks * 32768) own (bitAt sb w.view)
    w.mem.sb.freeBlocks

private theorem Freed.refl (h : TxOk may sb v) : Freed may sb v v (ownOf sb v.view) :=
  ⟨h.toShape, fun _ _ => rfl, h.ledger⟩

private theorem wp_bfree_owned (hg : Geometry sb) (hf : Freed may sb v w own) {k : Nat × Option Nat}
    (hk : own k ≠ 0) (hQ : ∀ w', Freed may sb v w' (update own k 0) → Q () w') :
    (bfree (own k)).wp may Q w := by
  have hr := hf.ledger.range k hk
  have htot := hg.total_lt
  have hrel := hf.ledger.release hk
  have hle := hrel.free_le
  refine wp_bfree hg hf.shape hr.1 hr.2 (hf.ledger.used_of_own hk) (hQ _ ?_)
  refine ⟨hf.shape.mark hg false hr.2, ?_, ?_⟩
  · intro c hc
    rw [mark_view_above hg hf.shape.layout false hr.2 hc, hf.above c hc]
  have hmem : (mark w (own k) false).mem.sb.freeBlocks = w.mem.sb.freeBlocks + 1 := by
    rw [mark_mem]
    simp only [Bool.false_eq_true, if_false]
    omega
  rw [hmem]
  refine hrel.congr (fun _ => rfl) fun c _ => ?_
  rw [mark_bit hg hf.shape.layout, update_apply]

private theorem wp_freeAll (hg : Geometry sb) (hf : Freed may sb v w own)
    (tab : Nat → Nat) (slotOf : Nat → Nat × Option Nat) (hinj : ∀ i j, slotOf i = slotOf j → i = j)
    (n i : Nat) (hown : ∀ j, i ≤ j → j < i + n → own (slotOf j) = tab j)
    (hQ : ∀ w' own', Freed may sb v w' own' →
      (∀ j, i ≤ j → j < i + n → own' (slotOf j) = 0) →
      (∀ k, (∀ j, i ≤ j → j < i + n → k ≠ slotOf j) → own' k = own k) → Q () w') :
    (freeAll tab n i).wp may Q w := by
  induction n generalizing i w own with
  | zero => exact hQ w own hf (fun j _ _ => by omega) fun k _ => rfl
  | succ n ih =>
    have hi := hown i (by omega) (by omega)
    -- the entry is given back, or it was not in use
    have hnext : ∀ w1 own1, Freed may sb v w1 own1 → own1 (slotOf i) = 0 →
        (∀ k, k ≠ slotOf i → own1 k = own k) → (freeAll tab n (i + 1)).wp may Q w1 := by
      intro w1 own1 hf1 hz1 hk1
      refine ih hf1 (i + 1) (fun j hj hj' => ?_) fun w' own' hf' h1 h2 => ?_
      · rw [hk1 _ fun heq => by have := hinj _ _ heq; omega]
        exact hown j (by omega) (by omega)
      refine hQ w' own' hf' (fun j hj hj' => ?_) fun k hk => ?_
      · by_cases hji : j = i
        · rw [hji, h2 _ fun j' hj1 _ heq => by have := hinj _ _ heq; omega, hz1]
        · exact h1 j (by omega) (by omega)
      · rw [h2 k fun j hj hj' => hk j (by omega) (by omega), hk1 k (hk i (by omega) (by omega))]
    unfold freeAll
    split
    · rename_i hz
      exact hnext w own hf (hi.trans hz) fun _ _ => rfl
    rename_i hz
    simp only [wp_bind]
    rw [← hi]
    refine wp_bfree_owned hg hf (by rw [hi]; exact hz) fun w1 hf1 => ?_
    exact hnext w1 _ hf1 (update_self ..) fun k hk => update_of_ne hk ..

/-- The inode is empty and has its new time; nothing else changed but freed blocks. -/
structure Truncated (may : ReadRule Block) (sb : KfsSuperblock)
    (v w : TxView Block KfsMem) (ino mtime : Nat) : Prop where
  ok : TxOk may sb w
  self : inodeAt sb w.view ino = (inodeAt sb v.view ino).emptied mtime
  others : ∀ ino', inoValid sb ino' = true → ino' ≠ ino →
    inodeAt sb w.view ino' = inodeAt sb v.view ino'
  ptrs : ∀ ino' slot, inoValid sb ino' = true → ino' ≠ ino →
    ptrOf sb w.view ino' slot = ptrOf sb v.view ino' slot
  files : ∀ ino' i, inoValid sb ino' = true → ino' ≠ ino →
    fileByte sb w.view ino' i = fileByte sb v.view ino' i

theorem ptr_emptied (ip : KfsInode) (mtime : Nat) (tab : Nat → Nat → Nat) (slot : Option Nat) :
    ptr (ip.emptied mtime) tab slot = 0 := by
  cases slot with
  | none => rfl
  | some n => simp [ptr, KfsInode.emptied, KfsInode.directAt]

private theorem Freed.truncated (hg : Geometry sb) (h : TxOk may sb v) (hf : Freed may sb v w own)
    (hv : inoValid sb ino) (hm : mtime < 4294967296) (hnone : ∀ slot, own (ino, slot) = 0)
    (hrest : ∀ k, k.1 ≠ ino → own k = ownOf sb v.view k) :
    Truncated may sb v (store w ino ((inodeAt sb v.view ino).emptied mtime)) ino mtime := by
  have hb := inodeAt_bounded sb v.view ino
  have hbound : ((inodeAt sb v.view ino).emptied mtime).Bounded :=
    ⟨hb.type, hb.mode, by simp [KfsInode.emptied], hb.uid, hb.gid, hm, by simp [KfsInode.emptied],
      by simp [KfsInode.emptied]⟩
  have hdata := hg.dataStart
  have hinode : ∀ i, inoValid sb i → inodeAt sb w.view i = inodeAt sb v.view i :=
    fun i hi => inodeAt_congr (hf.above _ (hg.inodeBlk_range hi).1)
  have hat := fun i (hi : inoValid sb i) => store_inodeAt hf.shape hv hbound hi
  have hptr0 : ∀ i slot, inoValid sb i → ptrOf sb w.view i slot = ptrOf sb v.view i slot :=
    fun i slot hi => ptrOf_congr (hinode i hi)
      (fun h0 => hf.above _ (by have := h.ledger.table_range hi h0; omega)) slot
  have hself : ∀ slot,
      ptrOf sb (store w ino ((inodeAt sb v.view ino).emptied mtime)).view ino slot = 0 := by
    intro slot
    rw [ptrOf, hat ino hv, if_pos rfl, ptr_emptied]
  have hptrs : ∀ i slot, inoValid sb i → i ≠ ino →
      ptrOf sb (store w ino ((inodeAt sb v.view ino).emptied mtime)).view i slot =
        ptrOf sb v.view i slot := by
    intro i slot hi hne
    rw [store_ptrOf_other hg hf.shape hv hbound hi hne
      (by rw [hinode i hi]; exact fun h0 => (h.ledger.table_range hi h0).1), hptr0 i slot hi]
  refine ⟨⟨store_shape hg hf.shape hv, ?_⟩, ?_, ?_, hptrs, ?_⟩
  · refine Ledger.congr hf.ledger ?_ fun c hc => store_bit hg hf.shape hv c hc
    rintro ⟨i, slot⟩
    by_cases hi : i = ino
    · subst hi
      rw [hnone slot, ownOf, if_pos hv]
      exact hself slot
    rw [hrest (i, slot) hi]
    simp only [ownOf]
    split
    · rename_i hvi
      exact hptrs i slot hvi hi
    · rfl
  · rw [hat ino hv, if_pos rfl]
  · intro i hi hne
    rw [hat i hi, if_neg hne, hinode i hi]
  · intro i k hi hne
    refine fileByte_congr (hptrs i _ hi hne) fun h0 => ?_
    have hr := h.ledger.own_range hi h0
    rw [store_view_data hg hf.shape hv hr.1, hf.above _ (by omega)]

theorem wp_truncateLocked (hg : Geometry sb) (h : TxOk may sb v) (hm : mtime < 4294967296)
    {Q : Int → View → Prop} (hbad : ∀ w, Q (-1) w)
    (hgood : inoValid sb ino → ∀ w, Truncated may sb v w ino mtime → Q 0 w) :
    (truncateLocked ino mtime).wp may Q v := by
  simp only [truncateLocked, wp_bind, Tx.wp_live, if_true]
  refine wp_iget h.toShape ino (fun _ => hbad v) fun hv => ?_
  simp only [wp_bind]
  have hdirect : ∀ j, 0 ≤ j → j < 0 + 10 →
      ownOf sb v.view (ino, some j) = (inodeAt sb v.view ino).directAt j := by
    intro j _ hj
    have : j < 10 := by omega
    simp [ownOf, hv, ptrOf, ptr, this]
  -- what is left to do once no reference of the inode owns a block
  have hlast : ∀ w own, Freed may sb v w own → (∀ slot, own (ino, slot) = 0) →
      (∀ k, k.1 ≠ ino → own k = ownOf sb v.view k) →
      (iput ino ((inodeAt sb v.view ino).emptied mtime)).wp may
        (fun ok w => Q (if ok = true then 0 else -1) w) w := by
    intro w own hf hnone hrest
    exact wp_iput hf.shape _ hv (fun _ => hbad w) (hgood hv _ (hf.truncated hg h hv hm hnone hrest))
  refine wp_freeAll hg (.refl h) _ (fun j => (ino, some j)) (by simp) 10 0 hdirect
    fun w1 own1 hf1 hz1 hk1 => ?_
  have hrest1 : ∀ k, k.1 ≠ ino → own1 k = ownOf sb v.view k := by
    intro k hk
    exact hk1 k fun j _ _ heq => hk (by rw [heq])
  have htable1 : own1 (ino, none) = (inodeAt sb v.view ino).indirect := by
    rw [hk1 (ino, none) (by simp)]
    simp [ownOf, hv, ptrOf, ptr]
  unfold freeIndirect
  split
  · -- no table: the remaining slots own nothing
    rename_i hz
    refine hlast w1 own1 hf1 (fun slot => ?_) hrest1
    cases slot with
    | none => rw [htable1, hz]
    | some n =>
      by_cases hn : n < 10
      · exact hz1 n (by omega) (by omega)
      · rw [hk1 (ino, some n) (by simp; omega)]
        simp [ownOf, hv, ptrOf, ptr, hn, hz]
  rename_i hz
  have htab := h.ledger.table_range hv hz
  have hview1 : w1.view (inodeAt sb v.view ino).indirect =
      v.view (inodeAt sb v.view ino).indirect :=
    hf1.above _ (by have := hg.dataStart; omega)
  simp only [wp_bind, Tx.wp_read]
  intro r hr
  obtain rfl | ⟨rfl, hfails⟩ := TxView.reads_of_honest (h.honest.data _ htab.1 htab.2) hr
  swap
  · exact .inl hfails
  simp only [wp_bind]
  have hentry : ∀ j, 0 ≤ j → j < 0 + 1024 → own1 (ino, some (10 + j)) =
      le32 (w1.view (inodeAt sb v.view ino).indirect).byte (4 * j) := by
    intro j _ hj
    rw [hk1 (ino, some (10 + j)) (by simp; omega), hview1]
    simp only [ownOf, hv, if_true]
    exact ptrOf_entry (by omega) hz
  refine wp_freeAll hg hf1 _ (fun j => (ino, some (10 + j))) (by simp) 1024 0 hentry
    fun w2 own2 hf2 hz2 hk2 => ?_
  have htable2 : own2 (ino, none) = (inodeAt sb v.view ino).indirect := by
    rw [hk2 (ino, none) (by simp), htable1]
  rw [← htable2]
  refine wp_bfree_owned hg hf2 (by rw [htable2]; exact hz) fun w3 hf3 => ?_
  refine hlast w3 _ hf3 (fun slot => ?_) fun k hk => ?_
  · cases slot with
    | none => rw [update_self]
    | some n =>
      rw [update_of_ne (by simp)]
      by_cases hn : n < 10
      · rw [hk2 (ino, some n) (by simp; omega)]
        exact hz1 n (by omega) (by omega)
      by_cases hn' : n < 1034
      · have := hz2 (n - 10) (by omega) (by omega)
        rwa [show 10 + (n - 10) = n by omega] at this
      · rw [hk2 (ino, some n) (by simp; omega), hk1 (ino, some n) (by simp; omega)]
        simp [ownOf, hv, ptrOf, ptr, hn, show 1034 ≤ n by omega]
  · rw [update_of_ne (by rintro rfl; exact hk rfl),
      hk2 k fun j _ _ heq => hk (by rw [heq]), hrest1 k hk]

structure OnlyInode (sb : KfsSuperblock) (ino : Nat) (view view' : Nat → Block) : Prop where
  inodes : ∀ i, inoValid sb i = true → i ≠ ino → inodeAt sb view' i = inodeAt sb view i
  ptrs : ∀ i slot, inoValid sb i = true → i ≠ ino → ptrOf sb view' i slot = ptrOf sb view i slot
  files : ∀ i k, inoValid sb i = true → i ≠ ino → fileByte sb view' i k = fileByte sb view i k

theorem TxOk.store_only (hg : Geometry sb) (h : TxOk may sb v) (hv : inoValid sb ino)
    {ip : KfsInode} (hb : ip.Bounded) (hd : ip.direct = (inodeAt sb v.view ino).direct)
    (hi : ip.indirect = (inodeAt sb v.view ino).indirect) :
    TxOk may sb (store v ino ip) ∧ OnlyInode sb ino v.view (store v ino ip).view ∧
      inodeAt sb (store v ino ip).view ino = ip ∧
      (∀ slot, ptrOf sb (store v ino ip).view ino slot = ptrOf sb v.view ino slot) ∧
      ∀ k, fileByte sb (store v ino ip).view ino k = fileByte sb v.view ino k := by
  obtain ⟨hok, hptr⟩ := h.store_same hg hv hb hd hi
  have hfile : ∀ i k, inoValid sb i →
      fileByte sb (store v ino ip).view i k = fileByte sb v.view i k := by
    intro i k hvi
    refine fileByte_congr (hptr i hvi _) fun h0 => ?_
    exact store_view_data hg h.toShape hv (h.ledger.own_range hvi h0).1
  refine ⟨hok, ⟨?_, fun i slot hvi _ => hptr i hvi slot, fun i k hvi _ => hfile i k hvi⟩, ?_,
    hptr ino hv, fun k => hfile ino k hv⟩
  · intro i hvi hne
    rw [store_inodeAt h.toShape hv hb hvi, if_neg hne]
  · rw [store_inodeAt h.toShape hv hb hv, if_pos rfl]

theorem Wrote.only {pos len : Nat} {data : Nat → UInt8} (h : Wrote may sb ino pos len data v w) :
    OnlyInode sb ino v.view w.view where
  inodes := h.others
  ptrs := fun i slot hi hne => h.ptrs i slot hi (by simp [hne]) (by simp [hne])
  files := fun i k hi hne => by rw [h.files i k hi, if_neg (by simp [hne])]

theorem Linked.only {b : Nat} (h : Linked may sb v w ino none b) : OnlyInode sb ino v.view w.view :=
  ⟨h.others, fun i slot hi hne => h.ptrs i slot hi (by simp [hne]), fun i k hi _ => h.files i k hi⟩

theorem Mapped.only {n b : Nat} (h : Mapped may sb v w ino n b) : OnlyInode sb ino v.view w.view :=
  ⟨h.others, fun i slot hi hne => h.ptrs i slot hi (by simp [hne]) (by simp [hne]),
    fun i k hi _ => h.files i k hi⟩

theorem Truncated.only {mtime : Nat} (h : Truncated may sb v w ino mtime) :
    OnlyInode sb ino v.view w.view := ⟨h.others, h.ptrs, h.files⟩

end KestrelOS.Kfs
