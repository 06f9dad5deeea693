import Mathlib.Data.List.Basic

/-!
# Logs of block writes

A log is a list of address/value pairs applied in order to a store. What matters for recovery is
that replaying a whole log absorbs any part of it that was applied before.
-/

namespace KestrelOS

open List Function

variable {β : Type}

def applyWrites (ws : List (Nat × β)) (d : Nat → β) : Nat → β :=
  ws.foldl (fun d w => Function.update d w.1 w.2) d

@[simp] theorem applyWrites_nil (d : Nat → β) : applyWrites [] d = d := rfl

@[simp] theorem applyWrites_cons (w : Nat × β) (ws : List (Nat × β)) (d : Nat → β) :
    applyWrites (w :: ws) d = applyWrites ws (update d w.1 w.2) := rfl

theorem applyWrites_untouched (ws : List (Nat × β)) (d : Nat → β) (x : Nat)
    (h : x ∉ ws.map Prod.fst) : applyWrites ws d x = d x := by
  induction ws generalizing d with
  | nil => rfl
  | cons w ws ih =>
    simp only [map_cons, mem_cons, not_or] at h
    rw [applyWrites_cons, ih _ h.2, update_of_ne h.1]

theorem applyWrites_congr (ws : List (Nat × β)) (d e : Nat → β) (x : Nat)
    (h : x ∈ ws.map Prod.fst ∨ d x = e x) : applyWrites ws d x = applyWrites ws e x := by
  induction ws generalizing d e with
  | nil =>
    rcases h with h | h
    · simp at h
    · exact h
  | cons w ws ih =>
    rw [applyWrites_cons, applyWrites_cons]
    apply ih
    by_cases hx : x = w.1
    · subst hx
      right
      simp
    rcases h with h | h
    · simp only [map_cons, mem_cons, hx, false_or] at h
      exact .inl h
    · right
      rw [update_of_ne hx, update_of_ne hx, h]

theorem applyWrites_of_mem (ws : List (Nat × β)) (d : Nat → β) (w : Nat × β) (h : w ∈ ws)
    (hnd : (ws.map Prod.fst).Nodup) : applyWrites ws d w.1 = w.2 := by
  induction ws generalizing d with
  | nil => simp at h
  | cons v ws ih =>
    simp only [map_cons, nodup_cons] at hnd
    rw [applyWrites_cons]
    rcases mem_cons.mp h with rfl | h
    · rw [applyWrites_untouched _ _ _ hnd.1, update_self]
    · exact ih _ h hnd.2

theorem applyWrites_eq_find (ws : List (Nat × β)) (d : Nat → β) (x : Nat)
    (hnd : (ws.map Prod.fst).Nodup) :
    applyWrites ws d x = ((ws.find? fun w => decide (w.1 = x)).map Prod.snd).getD (d x) := by
  cases hf : ws.find? fun w => decide (w.1 = x) with
  | none =>
    apply applyWrites_untouched
    intro hmem
    obtain ⟨w, hw, rfl⟩ := mem_map.mp hmem
    simpa using find?_eq_none.mp hf w hw
  | some w =>
    have hx : w.1 = x := by simpa using find?_some hf
    subst hx
    exact applyWrites_of_mem ws d w (mem_of_find?_eq_some hf) hnd

end KestrelOS
