import Mathlib.Data.List.Perm.Basic
import Mathlib.Tactic.Common

/-!
# Selection sort

The sort of an array in place: each round looks for the best of what is left and exchanges it with
the element in front. `better` is any strict order.
-/

namespace KestrelOS

open List Nat

variable {α : Type} (better : α → α → Bool)

/-- The inner loop: the best element so far and where it stands. -/
def findBest (best : α × Nat) (k : Nat) : List α → α × Nat
  | [] => best
  | c :: cs => findBest (if better c best.1 then (c, k) else best) (k + 1) cs

def selectionSort : Nat → List α → List α
  | 0, pick => pick
  | _ + 1, [] => []
  | n + 1, c :: cs =>
    let best := findBest better (c, 0) 1 cs
    best.1 :: selectionSort n ((c :: cs).set best.2 c).tail

private theorem findBest_mem (seen : List α) (best : α × Nat) (cs : List α)
    (h : seen[best.2]? = some best.1) : (seen ++ cs)[(findBest better best seen.length cs).2]? =
      some (findBest better best seen.length cs).1 := by
  induction cs generalizing seen best with
  | nil =>
    rw [append_nil]
    exact h
  | cons c cs ih =>
    have hnext : (seen ++ [c])[(if better c best.1 then (c, seen.length) else best).2]? =
        some (if better c best.1 then (c, seen.length) else best).1 := by
      split
      · simp
      · rw [List.getElem?_append_left (List.getElem?_eq_some_iff.mp h).1]
        exact h
    have hlen : (seen ++ [c]).length = seen.length + 1 := by simp
    have := ih (seen ++ [c]) _ hnext
    rw [hlen, append_assoc] at this
    exact this

private theorem perm_exchange {c b : α} {cs : List α} {k : Nat} (h : (c :: cs)[k]? = some b) :
    (b :: ((c :: cs).set k c).tail).Perm (c :: cs) := by
  cases k with
  | zero =>
    obtain rfl : c = b := Option.some.inj h
    exact List.Perm.refl _
  | succ k =>
    obtain ⟨hk, rfl⟩ := List.getElem?_eq_some_iff.mp (show cs[k]? = some b from h)
    have hset := (set_perm_cons_eraseIdx hk c).cons cs[k]
    exact (hset.trans (List.Perm.swap _ _ _)).trans ((getElem_cons_eraseIdx_perm hk).cons c)

theorem selectionSort_perm (n : Nat) (pick : List α) : (selectionSort better n pick).Perm pick := by
  induction n generalizing pick with
  | zero => exact List.Perm.refl _
  | succ n ih =>
    cases pick with
    | nil => exact List.Perm.refl _
    | cons c cs =>
      have hb := findBest_mem better [c] (c, 0) cs rfl
      exact ((ih _).cons _).trans (perm_exchange hb)

section Sorted

variable {better} (htrans : ∀ a b c, better a b → better b c → better a c)
  (hirrefl : ∀ a, ¬ better a a)

include htrans hirrefl

private theorem findBest_best (best : α × Nat) (k : Nat) (cs : List α) :
    ((findBest better best k cs).1 = best.1 ∨ better (findBest better best k cs).1 best.1) ∧
      ∀ c ∈ cs, ¬ better c (findBest better best k cs).1 := by
  induction cs generalizing best k with
  | nil => exact ⟨.inl rfl, fun c hc => by cases hc⟩
  | cons c cs ih =>
    obtain ⟨hbest, hrest⟩ := ih (if better c best.1 then (c, k) else best) (k + 1)
    rw [findBest]
    generalize findBest better (if better c best.1 then (c, k) else best) (k + 1) cs = last
      at hbest hrest ⊢
    -- Either way nothing that was beaten on the way can beat the last one.
    have hc : ¬ better c last.1 ∧ (last.1 = best.1 ∨ better last.1 best.1) := by
      by_cases hcb : better c best.1
      · rw [if_pos hcb] at hbest
        obtain heq | hlt := hbest
        · rw [heq]
          exact ⟨hirrefl c, .inr hcb⟩
        · exact ⟨fun h => hirrefl c (htrans _ _ _ h hlt), .inr (htrans _ _ _ hlt hcb)⟩
      · rw [if_neg hcb] at hbest
        obtain heq | hlt := hbest
        · rw [heq]
          exact ⟨hcb, .inl rfl⟩
        · exact ⟨fun h => hcb (htrans _ _ _ h hlt), .inr hlt⟩
    refine ⟨hc.2, fun d hd => ?_⟩
    obtain rfl | hd := mem_cons.mp hd
    · exact hc.1
    · exact hrest d hd

theorem selectionSort_pairwise (n : Nat) (pick : List α) (hn : pick.length ≤ n) :
    (selectionSort better n pick).Pairwise fun a b => ¬ better b a := by
  induction n generalizing pick with
  | zero =>
    rw [length_eq_zero_iff.mp (le_zero.mp hn)]
    exact List.Pairwise.nil
  | succ n ih =>
    cases pick with
    | nil => exact List.Pairwise.nil
    | cons c cs =>
      have hperm := perm_exchange (findBest_mem better [c] (c, 0) cs rfl)
      obtain ⟨hfirst, hrest⟩ := findBest_best htrans hirrefl (c, 0) 1 cs
      have hall : ∀ d ∈ c :: cs, ¬ better d (findBest better (c, 0) 1 cs).1 := by
        intro d hd
        obtain rfl | hd := mem_cons.mp hd
        · obtain heq | hlt := hfirst
          · rw [heq]
            exact hirrefl d
          · exact fun h => hirrefl d (htrans _ _ _ h hlt)
        · exact hrest d hd
      refine List.Pairwise.cons (fun d hd => ?_) (ih _ ?_)
      · have hmem := (selectionSort_perm better n _).mem_iff.mp hd
        exact hall d (hperm.mem_iff.mp (mem_cons_of_mem _ hmem))
      have hlen := hperm.length_eq
      simp only [length_cons] at hlen hn
      exact Nat.le_trans (Nat.le_of_eq (Nat.succ.inj hlen)) (Nat.le_of_succ_le_succ hn)

end Sorted

end KestrelOS
