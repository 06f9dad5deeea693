import Mathlib.Order.Interval.Finset.Nat

/-!
# Ledgers of owned cells

References of any kind `K` each own at most one cell, 0 standing for none. No cell is owned twice,
a map of used cells marks exactly the reserved cells below `lo` and the owned ones in `[lo, hi)`,
and a counter holds the number of unused cells.
-/

namespace KestrelOS

open Function

variable {K : Type} {lo hi cap : Nat} {own : K → Nat} {used : Nat → Bool} {free : Nat}

def unusedCells (hi : Nat) (used : Nat → Bool) : Finset Nat :=
  (Finset.range hi).filter fun b => used b = false

theorem card_unusedCells_take {b : Nat} (hb : b < hi) (hu : used b = false) :
    (unusedCells hi (update used b true)).card = (unusedCells hi used).card - 1 := by
  have hset : unusedCells hi (update used b true) = (unusedCells hi used).erase b := by
    ext c
    grind [unusedCells, update_apply]
  have hmem : b ∈ unusedCells hi used := by simp [unusedCells, hb, hu]
  rw [hset, Finset.card_erase_of_mem hmem]

theorem card_unusedCells_give {b : Nat} (hb : b < hi) (hu : used b) :
    (unusedCells hi (update used b false)).card = (unusedCells hi used).card + 1 := by
  have hset : unusedCells hi (update used b false) = insert b (unusedCells hi used) := by
    ext c
    grind [unusedCells, update_apply]
  have hnot : b ∉ unusedCells hi used := by simp [unusedCells, hu]
  rw [hset, Finset.card_insert_of_notMem hnot]

structure Ledger (lo hi cap : Nat) (own : K → Nat) (used : Nat → Bool) (free : Nat) : Prop where
  inj : ∀ k k', own k ≠ 0 → own k = own k' → k = k'
  range : ∀ k, own k ≠ 0 → lo ≤ own k ∧ own k < hi
  bits : ∀ b < cap, used b = true ↔ b < lo ∨ ∃ k, own k ≠ 0 ∧ own k = b
  free : free = (unusedCells hi used).card
  lo_pos : 0 < lo
  hi_cap : hi ≤ cap

namespace Ledger

section
variable (h : Ledger lo hi cap own used free)
include h

theorem used_of_own {k : K} (hk : own k ≠ 0) : used (own k) := by
  have hr := h.range k hk
  exact (h.bits _ (by have := h.hi_cap; omega)).mpr (.inr ⟨k, hk, rfl⟩)

theorem lo_le_of_unused {b : Nat} (hb : b < cap) (hu : used b = false) : lo ≤ b := by
  by_contra hlt
  have := (h.bits b hb).mpr (.inl (by omega))
  simp [hu] at this

private theorem not_owned_of_unused {b : Nat} (hu : used b = false) (k : K) (hk : own k ≠ 0) :
    own k ≠ b := by
  rintro rfl
  simp [h.used_of_own hk] at hu

theorem unused_of_le {b : Nat} (hb : b < cap) (hlo : lo ≤ b) (hhi : hi ≤ b) : used b = false := by
  by_contra hu
  rcases (h.bits b hb).mp (by simpa using hu) with hlt | ⟨k, hk, rfl⟩
  · omega
  · have := h.range k hk
    omega

theorem free_pos {b : Nat} (hb : b < hi) (hu : used b = false) : 0 < free := by
  rw [h.free, Finset.card_pos]
  exact ⟨b, by simp [unusedCells, hb, hu]⟩

theorem free_eq_zero (hall : ∀ b < hi, used b) : free = 0 := by
  rw [h.free, Finset.card_eq_zero, unusedCells, Finset.filter_eq_empty_iff]
  intro b hb
  simp [hall b (Finset.mem_range.mp hb)]

theorem free_le : free ≤ hi - lo := by
  have hsub : unusedCells hi used ⊆ Finset.Ico lo hi := by
    intro b hb
    simp only [unusedCells, Finset.mem_filter, Finset.mem_range] at hb
    exact Finset.mem_Ico.mpr ⟨h.lo_le_of_unused (by have := h.hi_cap; omega) hb.2, hb.1⟩
  rw [h.free]
  calc (unusedCells hi used).card ≤ (Finset.Ico lo hi).card := Finset.card_le_card hsub
    _ = hi - lo := Nat.card_Ico lo hi

theorem congr {own' : K → Nat} {used' : Nat → Bool}
    (ho : ∀ k, own' k = own k) (hu : ∀ b < cap, used' b = used b) :
    Ledger lo hi cap own' used' free where
  inj := by
    intro k k'
    rw [ho, ho]
    exact h.inj k k'
  range := by
    intro k
    rw [ho]
    exact h.range k
  bits := by
    intro b hb
    rw [hu b hb, h.bits b hb]
    simp only [ho]
  free := by
    rw [h.free]
    congr 1
    apply Finset.filter_congr
    intro b hb
    rw [hu b (by have := h.hi_cap; have := Finset.mem_range.mp hb; omega)]
  lo_pos := h.lo_pos
  hi_cap := h.hi_cap

end

variable [DecidableEq K]

theorem acquire (h : Ledger lo hi cap own used free) {k : K} {b : Nat} (hk : own k = 0)
    (hb : b < hi) (hu : used b = false) :
    Ledger lo hi cap (update own k b) (update used b true) (free - 1) := by
  have hlo := h.lo_le_of_unused (by have := h.hi_cap; omega) hu
  have hfree := h.not_owned_of_unused hu
  obtain ⟨hinj, hrange, hbits, hcount, hlo0, hcap⟩ := h
  refine ⟨?_, ?_, ?_, ?_, hlo0, hcap⟩
  · grind [update_apply]
  · grind [update_apply]
  · intro c hc
    by_cases hcb : c = b
    · simp only [hcb, update_self, true_iff]
      exact .inr ⟨k, by simp only [update_self]; omega, update_self k b own⟩
    · rw [update_of_ne hcb, hbits c hc]
      exact or_congr Iff.rfl (exists_congr fun i => by grind [update_apply])
  · rw [card_unusedCells_take hb hu, hcount]

theorem release (h : Ledger lo hi cap own used free) {k : K} (hk : own k ≠ 0) :
    Ledger lo hi cap (update own k 0) (update used (own k) false)
      (free + 1) := by
  have hr := h.range k hk
  have hused := h.used_of_own hk
  obtain ⟨hinj, hrange, hbits, hcount, hlo0, hcap⟩ := h
  refine ⟨?_, ?_, ?_, ?_, hlo0, hcap⟩
  · grind [update_apply]
  · grind [update_apply]
  · intro c hc
    by_cases hck : c = own k
    · grind [update_apply]
    · rw [update_of_ne hck, hbits c hc]
      exact or_congr Iff.rfl (exists_congr fun i => by grind [update_apply])
  · rw [card_unusedCells_give hr.2 hused, hcount]

end Ledger
end KestrelOS
