import Mathlib.Data.Nat.Digits.Lemmas
import Mathlib.Tactic.LinearCombination

/-!
# Multi-limb integers

A number is a list of limbs, the least significant one first, each below the radix `B`; its value
is `value B`. Each pass over limbs has one lemma that says what its limbs and its last carry are
worth together.
-/

namespace KestrelOS.Limbs

open List Nat

def value (B : Nat) (l : List Nat) : Nat := Nat.ofDigits B l

@[simp] theorem value_nil (B : Nat) : value B [] = 0 := rfl

@[simp] theorem value_cons (B x : Nat) (l : List Nat) : value B (x :: l) = x + B * value B l :=
  ofDigits_cons

theorem value_append (B : Nat) (l l' : List Nat) :
    value B (l ++ l') = value B l + B ^ l.length * value B l' :=
  ofDigits_append

@[simp] theorem value_replicate_zero (B k : Nat) : value B (replicate k 0) = 0 :=
  ofDigits_replicate_zero

structure IsLimbs (B k : Nat) (l : List Nat) : Prop where
  length : l.length = k
  lt : ∀ x ∈ l, x < B

variable {B k : Nat}

theorem IsLimbs.nil : IsLimbs B 0 [] := ⟨rfl, by simp⟩

variable {x : Nat} {l l' : List Nat}

theorem IsLimbs.cons (hx : x < B) (h : IsLimbs B k l) : IsLimbs B (k + 1) (x :: l) :=
  ⟨by simp [h.length], by simpa using ⟨hx, h.lt⟩⟩

theorem isLimbs_cons : IsLimbs B (k + 1) (x :: l) ↔ x < B ∧ IsLimbs B k l := by
  constructor
  · intro h
    exact ⟨h.lt x (by simp), by simpa using h.length, fun y hy => h.lt y (by simp [hy])⟩
  · rintro ⟨hx, hl⟩
    exact hl.cons hx

theorem IsLimbs.eq_nil (h : IsLimbs B 0 l) : l = [] :=
  length_eq_zero_iff.mp h.length

theorem IsLimbs.exists_cons (h : IsLimbs B (k + 1) l) :
    ∃ x xs, l = x :: xs ∧ x < B ∧ IsLimbs B k xs := by
  cases l with
  | nil => simpa using h.length
  | cons x xs => exact ⟨x, xs, rfl, isLimbs_cons.mp h⟩

theorem IsLimbs.append {m : Nat} (h : IsLimbs B k l) (h' : IsLimbs B m l') :
    IsLimbs B (k + m) (l ++ l') := by
  refine ⟨by simp [h.length, h'.length], ?_⟩
  intro x hx
  rcases mem_append.mp hx with hx | hx
  · exact h.lt x hx
  · exact h'.lt x hx

theorem IsLimbs.split {m : Nat} (h : IsLimbs B (m + k) l) :
    IsLimbs B m (l.take m) ∧ IsLimbs B k (l.drop m) ∧
      value B l = value B (l.take m) + B ^ m * value B (l.drop m) := by
  have hlen : (l.take m).length = m := by rw [length_take, h.length]; omega
  have hval := value_append B (l.take m) (l.drop m)
  rw [take_append_drop, hlen] at hval
  exact ⟨⟨hlen, fun x hx => h.lt x (mem_of_mem_take hx)⟩,
    ⟨by rw [length_drop, h.length]; omega, fun x hx => h.lt x (mem_of_mem_drop hx)⟩, hval⟩

theorem IsLimbs.replicate_zero (hB : 0 < B) (k : Nat) : IsLimbs B k (replicate k 0) := by
  refine ⟨by simp, ?_⟩
  intro x hx
  rw [eq_of_mem_replicate hx]
  exact hB

theorem IsLimbs.value_lt (h : IsLimbs B k l) : value B l < B ^ k := by
  induction k generalizing l with
  | zero => simp [h.eq_nil]
  | succ k ih =>
    obtain ⟨x, xs, rfl, hx, hxs⟩ := h.exists_cons
    have hlt := ih hxs
    have hle : B * (value B xs + 1) ≤ B * B ^ k := mul_le_mul_left B hlt
    rw [value_cons, pow_succ']
    rw [mul_add] at hle
    omega

theorem IsLimbs.eq_of_value (hB : 1 < B) (h : IsLimbs B k l) (h' : IsLimbs B k l')
    (heq : value B l = value B l') : l = l' :=
  ofDigits_inj_of_len_eq hB (h.length.trans h'.length.symm) h.lt h'.lt heq

theorem value_eq_zero_iff (hB : 0 < B) (l : List Nat) : value B l = 0 ↔ ∀ x ∈ l, x = 0 := by
  induction l with
  | nil => simp
  | cons x xs ih =>
    rw [value_cons, forall_mem_cons, ← ih]
    constructor
    · intro h
      exact ⟨by omega, (Nat.mul_eq_zero.mp (by omega : B * _ = 0)).resolve_left (by omega)⟩
    · rintro ⟨rfl, h⟩
      rw [h, Nat.mul_zero]

def addC (B : Nat) : List Nat → List Nat → Nat → List Nat × Nat
  | a :: as, b :: bs, c =>
    let s := a + b + c
    let r := addC B as bs (s / B)
    (s % B :: r.1, r.2)
  | _, _, c => ([], c)

/-- `a - b + w` with a borrow `w` that is 0 or -1. -/
def subB (B : Nat) : List Nat → List Nat → Int → List Nat × Int
  | a :: as, b :: bs, w =>
    let x := (a : Int) - b + w
    let r := subB B as bs (x / B)
    ((x % B).toNat :: r.1, r.2)
  | _, _, w => ([], w)

def mulAddC (B m : Nat) : List Nat → List Nat → Nat → List Nat × Nat
  | a :: as, t :: ts, c =>
    let p := a * m + t + c
    let r := mulAddC B m as ts (p / B)
    (p % B :: r.1, r.2)
  | _, _, c => ([], c)

/-- Comparison from the top limb down: -1, 0 or 1. The lists are least significant first, so the
recursion compares the rest first. -/
def cmp : List Nat → List Nat → Int
  | a :: as, b :: bs =>
    let r := cmp as bs
    if r = 0 then if a = b then 0 else if a < b then -1 else 1 else r
  | _, _ => 0

variable {a b t : List Nat}

/-- A pass over two numbers that leaves a digit at each limb and carries the rest on: its limbs and
its last carry are together worth what goes in. -/
theorem pass_spec {C : Type} {f : List Nat → List Nat → C → List Nat × C} {g : C → Int} {m n : Int}
    (hnil : ∀ c, f [] [] c = ([], c)) (hcons : ∀ x xs y ys c, ∃ d c', f (x :: xs) (y :: ys) c =
      (d :: (f xs ys c').1, (f xs ys c').2) ∧ d < B ∧ (d : Int) + B * g c' = m * x + n * y + g c)
    (ha : IsLimbs B k a) (hb : IsLimbs B k b) (c : C) :
    IsLimbs B k (f a b c).1 ∧ (value B (f a b c).1 : Int) + (B : Int) ^ k * g (f a b c).2 =
      m * value B a + n * value B b + g c := by
  induction k generalizing a b c with
  | zero => simp [ha.eq_nil, hb.eq_nil, hnil, IsLimbs.nil]
  | succ k ih =>
    obtain ⟨x, xs, rfl, -, hxs⟩ := ha.exists_cons
    obtain ⟨y, ys, rfl, -, hys⟩ := hb.exists_cons
    obtain ⟨d, c', heq, hd, hval⟩ := hcons x xs y ys c
    obtain ⟨hl, hrest⟩ := ih hxs hys c'
    rw [heq]
    refine ⟨hl.cons hd, ?_⟩
    simp only [value_cons, pow_succ, cast_add, cast_mul]
    linear_combination (B : Int) * hrest + hval

theorem mulAddC_spec (hB : 0 < B) (ha : IsLimbs B k a) (ht : IsLimbs B k t) (m c : Nat) :
    IsLimbs B k (mulAddC B m a t c).1 ∧
      value B (mulAddC B m a t c).1 + B ^ k * (mulAddC B m a t c).2 =
        value B a * m + value B t + c := by
  have hpass := pass_spec (f := mulAddC B m) (g := Nat.cast) (m := m) (n := 1) (fun _ => rfl)
    (fun x xs y ys c => ⟨_, _, rfl, mod_lt _ hB, by
      rw [one_mul, mul_comm (m : Int)]
      exact_mod_cast mod_add_div (x * m + y + c) B⟩) ha ht c
  rw [one_mul, mul_comm (m : Int)] at hpass
  exact_mod_cast hpass

theorem addC_spec (hB : 0 < B) (ha : IsLimbs B k a) (hb : IsLimbs B k b) (c : Nat) :
    IsLimbs B k (addC B a b c).1 ∧
      value B (addC B a b c).1 + B ^ k * (addC B a b c).2 = value B a + value B b + c := by
  have hpass := pass_spec (f := addC B) (g := Nat.cast) (m := 1) (n := 1) (fun _ => rfl)
    (fun x xs y ys c => ⟨_, _, rfl, mod_lt _ hB, by
      rw [one_mul, one_mul]
      exact_mod_cast mod_add_div (x + y + c) B⟩) ha hb c
  rw [one_mul, one_mul] at hpass
  exact_mod_cast hpass

theorem addC_mod (hB : 0 < B) (ha : IsLimbs B k a) (hb : IsLimbs B k b) :
    value B (addC B a b 0).1 = (value B a + value B b) % B ^ k := by
  obtain ⟨hl, hval⟩ := addC_spec hB ha hb 0
  rw [← add_zero (value B a + value B b), ← hval, add_mul_mod_self_left,
    mod_eq_of_lt hl.value_lt]

theorem digit_spec (hB : 0 < B) (t : Int) :
    (t % B).toNat < B ∧ ((t % B).toNat : Int) + B * (t / B) = t := by
  have hpos : (0 : Int) < B := by exact_mod_cast hB
  have h0 := Int.emod_nonneg t hpos.ne'
  have h1 := Int.emod_lt_of_pos t hpos
  rw [Int.toNat_of_nonneg h0]
  exact ⟨by omega, Int.emod_add_mul_ediv t B⟩

theorem subB_spec (hB : 0 < B) (ha : IsLimbs B k a) (hb : IsLimbs B k b) (w : Int) :
    IsLimbs B k (subB B a b w).1 ∧
      (value B (subB B a b w).1 : Int) + (B : Int) ^ k * (subB B a b w).2 =
        (value B a : Int) - value B b + w := by
  have hpass := pass_spec (f := subB B) (g := id) (m := 1) (n := -1) (fun _ => rfl)
    (fun x xs y ys w => ⟨_, _, rfl, (digit_spec hB _).1, by
      rw [id, (digit_spec hB _).2, id]
      ring⟩) ha hb w
  rwa [one_mul, neg_one_mul, ← sub_eq_add_neg] at hpass

theorem borrow_cases {P w x : Int} (hx0 : 0 ≤ x) (hx : x < P) (hlow : -P < x + P * w)
    (hhigh : x + P * w < P) : w = 0 ∨ w = -1 := by
  have hP : 0 < P := by omega
  have h1 : w < 1 := by
    by_contra hno
    have := mul_le_mul_of_nonneg_left (by omega : 1 ≤ w) hP.le
    omega
  have h2 : -2 < w := by
    by_contra hno
    have := mul_le_mul_of_nonneg_left (by omega : w ≤ -2) hP.le
    omega
  omega

theorem subB_borrow (hB : 0 < B) (ha : IsLimbs B k a) (hb : IsLimbs B k b) :
    (subB B a b 0).2 = if value B a < value B b then -1 else 0 := by
  obtain ⟨hl, hval⟩ := subB_spec hB ha hb 0
  have hr := hl.value_lt
  have ha' := ha.value_lt
  have hb' := hb.value_lt
  zify at hr ha' hb'
  rcases borrow_cases (w := (subB B a b 0).2) (by omega) hr (by omega) (by omega) with hw | hw
  · rw [hw, if_neg]
    rw [hw] at hval
    omega
  rw [hw, if_pos]
  rw [hw] at hval
  omega

private theorem cmp_value (ha : IsLimbs B k a) (hb : IsLimbs B k b) :
    cmp a b = if value B a = value B b then 0
      else if value B a < value B b then -1 else 1 := by
  induction k generalizing a b with
  | zero => simp [ha.eq_nil, hb.eq_nil, cmp]
  | succ k ih =>
    obtain ⟨x, xs, rfl, hx, hxs⟩ := ha.exists_cons
    obtain ⟨y, ys, rfl, hy, hys⟩ := hb.exists_cons
    have hrest := ih hxs hys
    rw [value_cons, value_cons]
    rcases lt_trichotomy (value B xs) (value B ys) with huv | huv | huv
    · rw [if_neg huv.ne, if_pos huv] at hrest
      have hle : B * (value B xs + 1) ≤ B * value B ys := mul_le_mul_left B huv
      rw [mul_add] at hle
      rw [if_neg (by omega), if_pos (by omega)]
      simp [cmp, hrest]
    · rw [if_pos huv] at hrest
      simp [cmp, hrest, huv]
    · rw [if_neg huv.ne', if_neg huv.not_gt] at hrest
      have hle : B * (value B ys + 1) ≤ B * value B xs := mul_le_mul_left B huv
      rw [mul_add] at hle
      rw [if_neg (by omega), if_neg (by omega)]
      simp [cmp, hrest]

theorem cmp_nonneg_iff (ha : IsLimbs B k a) (hb : IsLimbs B k b) :
    0 ≤ cmp a b ↔ value B b ≤ value B a := by
  rw [cmp_value ha hb]
  split
  · omega
  · split <;> omega

theorem subB_sub (hB : 0 < B) (ha : IsLimbs B k a) (hb : IsLimbs B k b)
    (hle : value B b ≤ value B a) : value B (subB B a b 0).1 = value B a - value B b := by
  have hval := (subB_spec hB ha hb 0).2
  rw [subB_borrow hB ha hb, if_neg (by omega)] at hval
  omega

theorem subB_reduce (hB : 0 < B) (ha : IsLimbs B k a) (hb : IsLimbs B k b) {top : Nat}
    (hge : top ≠ 0 ∨ value B b ≤ value B a) (hlt : value B a + B ^ k * top < 2 * value B b) :
    value B (subB B a b 0).1 + value B b = value B a + B ^ k * top := by
  obtain ⟨hl, hval⟩ := subB_spec hB ha hb 0
  have hr := hl.value_lt
  have hb' := hb.value_lt
  have hle : value B b ≤ value B a + B ^ k * top := by
    rcases hge with h | h
    · have := Nat.le_mul_of_pos_right (B ^ k) (Nat.pos_of_ne_zero h)
      omega
    · omega
  zify at hr hb' hle hlt ⊢
  have hsum : (value B (subB B a b 0).1 : Int) + (B : Int) ^ k * ((subB B a b 0).2 + top) =
      value B a + (B : Int) ^ k * top - value B b := by
    linear_combination hval
  rcases borrow_cases (by omega) hr (by rw [hsum]; omega) (by rw [hsum]; omega) with hw | hw <;>
    rw [hw] at hsum <;> omega

end KestrelOS.Limbs
