import Mathlib.Data.List.Infix
import Mathlib.Tactic.Ring

/-!
# Byte strings as text

C strings are lists of bytes without their terminator.
-/

namespace KestrelOS

open List

def ascii (s : String) : List UInt8 := s.toList.map fun c => UInt8.ofNat c.toNat

def untilNul (s : List UInt8) : List UInt8 := s.takeWhile (· != 0)

def strstr (hay needle : List UInt8) : Bool := hay.tails.any fun t => needle.isPrefixOf t

/-- What stands before the first `c`, and what behind it if there is one. -/
def cut (c : UInt8) : List UInt8 → List UInt8 × Option (List UInt8)
  | [] => ([], none)
  | b :: s => if b = c then ([], some s) else (b :: (cut c s).1, (cut c s).2)

/-- The pieces between the separators `c`, empty ones included. -/
def fields (c : UInt8) : List UInt8 → List (List UInt8)
  | [] => [[]]
  | b :: s =>
    if b = c then [] :: fields c s
    else match fields c s with
      | [] => [[b]]
      | f :: fs => (b :: f) :: fs

theorem not_mem_of_mem_fields {c : UInt8} {s f : List UInt8} (h : f ∈ fields c s) : c ∉ f := by
  induction s generalizing f with
  | nil =>
    rw [mem_singleton.mp h]
    exact not_mem_nil
  | cons b s ih =>
    unfold fields at h
    split at h
    · obtain rfl | h := mem_cons.mp h
      · exact not_mem_nil
      · exact ih h
    rename_i hb
    cases hf : fields c s with
    | nil =>
      rw [hf] at h
      rw [mem_singleton.mp h]
      exact fun hc => hb (mem_singleton.mp hc).symm
    | cons g gs =>
      rw [hf] at h ih
      obtain rfl | h := mem_cons.mp h
      · intro hc
        obtain hc | hc := mem_cons.mp hc
        · exact hb hc.symm
        · exact ih mem_cons_self hc
      · exact ih (mem_cons_of_mem _ h)

theorem cut_append (c : UInt8) (s : List UInt8) :
    (cut c s).1 ++ ((cut c s).2.map (c :: ·)).getD [] = s := by
  induction s with
  | nil => rfl
  | cons b s ih =>
    unfold cut
    split
    · rename_i hb
      rw [hb]
      rfl
    · exact congrArg (b :: ·) ih

theorem cut_eq_of_not_mem {c : UInt8} {a : List UInt8} (h : c ∉ a) (s : List UInt8) :
    cut c (a ++ c :: s) = (a, some s) := by
  induction a with
  | nil => simp [cut]
  | cons b a ih =>
    have hb : b ≠ c := fun hb => h (hb ▸ mem_cons_self)
    rw [cons_append, cut, if_neg hb, ih fun hc => h (mem_cons_of_mem _ hc)]

theorem flatMap_fields (c : UInt8) (s : List UInt8) : (fields c s).flatMap (c :: ·) = c :: s := by
  induction s with
  | nil => rfl
  | cons b s ih =>
    unfold fields
    split
    · rename_i hb
      rw [flatMap_cons, ih, hb]
      rfl
    · cases hf : fields c s with
      | nil => simp [hf] at ih
      | cons f fs => simpa [hf] using ih

theorem strstr_append (a needle b : List UInt8) : strstr (a ++ (needle ++ b)) needle := by
  rw [strstr, any_eq_true]
  exact ⟨needle ++ b, (mem_tails _ _).mpr (suffix_append _ _),
    isPrefixOf_iff_prefix.mpr (prefix_append _ _)⟩

/-- Split on separators, dropping empty pieces; `word` is the piece being read, backwards. -/
def splitOn (sep : UInt8 → Bool) (word : List UInt8) : List UInt8 → List (List UInt8)
  | [] => if word = [] then [] else [word.reverse]
  | c :: cs =>
    if sep c then (if word = [] then [] else [word.reverse]) ++ splitOn sep [] cs
    else splitOn sep (c :: word) cs

end KestrelOS
