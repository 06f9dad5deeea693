import Mathlib.Tactic.Ring

/-!
# Machine words with a record of lost bits

Unsigned arithmetic wraps around. A `Words` computation is carried out that way, and remembers
whether some result on the way did not fit its width. `Meets Q` says that none was lost and that
the value satisfies `Q`.
-/

namespace KestrelOS

/-- A value computed with machine words, and whether every result fitted. -/
structure Words (α : Type) where
  val : α
  exact : Bool

namespace Words

variable {α β : Type}

instance : Monad Words where
  pure a := ⟨a, true⟩
  bind m f := ⟨(f m.val).val, m.exact && (f m.val).exact⟩

def fit (w n : Nat) : Words Nat := ⟨n % 2 ^ w, decide (n < 2 ^ w)⟩

def add (w a b : Nat) : Words Nat := fit w (a + b)

def mul (w a b : Nat) : Words Nat := fit w (a * b)

def sub (w a b : Nat) : Words Nat := ⟨(a + 2 ^ w - b) % 2 ^ w, decide (b ≤ a)⟩

def Meets (m : Words α) (Q : α → Prop) : Prop := m.exact = true ∧ Q m.val

@[simp] theorem meets_pure (a : α) (Q : α → Prop) : (pure a : Words α).Meets Q ↔ Q a := by
  simp [Meets, pure]

@[simp] theorem meets_bind (m : Words α) (f : α → Words β) (Q : β → Prop) :
    (m >>= f).Meets Q ↔ m.Meets fun a => (f a).Meets Q := by
  simp only [Meets, bind, Bool.and_eq_true, and_assoc]

theorem Meets.mono {m : Words α} {P Q : α → Prop} (h : m.Meets P) (hPQ : ∀ a, P a → Q a) :
    m.Meets Q :=
  ⟨h.1, hPQ _ h.2⟩

variable {Q : Nat → Prop} {a b w : Nat}

theorem meets_fit {n : Nat} (hn : n < 2 ^ w) (hQ : Q n) : (fit w n).Meets Q := by
  simp only [Meets, fit, Nat.mod_eq_of_lt hn]
  exact ⟨decide_eq_true hn, hQ⟩

theorem meets_add (h : a + b < 2 ^ w) (hQ : Q (a + b)) : (add w a b).Meets Q :=
  meets_fit h hQ

theorem meets_mul (h : a * b < 2 ^ w) (hQ : Q (a * b)) : (mul w a b).Meets Q :=
  meets_fit h hQ

theorem meets_sub (hle : b ≤ a) (h : a < 2 ^ w) (hQ : Q (a - b)) : (sub w a b).Meets Q := by
  have hval : (a + 2 ^ w - b) % 2 ^ w = a - b := by
    rw [show a + 2 ^ w - b = a - b + 2 ^ w by omega, Nat.add_mod_right]
    exact Nat.mod_eq_of_lt (by omega)
  simp only [Meets, sub, hval]
  exact ⟨decide_eq_true hle, hQ⟩

/-- `acc` plus the products of the pairs, added one after the other in `w` bits. -/
def dot (w acc : Nat) : List (Nat × Nat) → Words Nat
  | [] => pure acc
  | x :: xs => do
    let p ← mul w x.1 x.2
    let s ← add w acc p
    dot w s xs

def dotSum : List (Nat × Nat) → Nat
  | [] => 0
  | x :: xs => x.1 * x.2 + dotSum xs

theorem meets_dot (xs : List (Nat × Nat)) (acc : Nat) (h : acc + dotSum xs < 2 ^ w)
    (hQ : Q (acc + dotSum xs)) : (dot w acc xs).Meets Q := by
  induction xs generalizing acc with
  | nil => simpa [dot, dotSum] using hQ
  | cons x xs ih =>
    rw [dotSum, ← Nat.add_assoc] at h hQ
    simp only [dot, meets_bind]
    apply meets_mul (by omega)
    apply meets_add (by omega)
    exact ih _ h hQ

end Words

end KestrelOS
