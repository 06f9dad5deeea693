import KestrelOS.Lib.Bytes

/-!
# Computations that read memory

A computation over a byte string keeps the stretches it reads next to its value: `touches_bind`
splits a sequence, `Within` bounds what is touched.
-/

namespace KestrelOS

/-- A value and the stretches `(address, length)` read to compute it. -/
structure Access (α : Type) where
  val : α
  reads : List (Nat × Nat)

namespace Access

variable {α β : Type}

instance : Monad Access where
  pure a := ⟨a, []⟩
  bind x f := ⟨(f x.val).val, x.reads ++ (f x.val).reads⟩

@[simp] theorem val_pure (a : α) : (pure a : Access α).val = a := rfl

@[simp] theorem val_bind (x : Access α) (f : α → Access β) : (x >>= f).val = (f x.val).val := rfl

@[simp] theorem reads_pure (a : α) : (pure a : Access α).reads = [] := rfl

@[simp] theorem reads_bind (x : Access α) (f : α → Access β) :
    (x >>= f).reads = x.reads ++ (f x.val).reads := rfl

def byte (mem : Bytes) (a : Nat) : Access UInt8 := ⟨mem a, [(a, 1)]⟩

def copy (mem : Bytes) (a n : Nat) : Access Bytes := ⟨fun i => mem (a + i), [(a, n)]⟩

def span (mem : Bytes) (a n : Nat) : Access (List UInt8) :=
  ⟨(List.range n).map fun i => mem (a + i), [(a, n)]⟩

@[simp] theorem val_copy (mem : Bytes) (a n : Nat) : (copy mem a n).val = fun i => mem (a + i) :=
  rfl

def Touches (x : Access α) (a : Nat) : Prop := ∃ r ∈ x.reads, r.1 ≤ a ∧ a < r.1 + r.2

@[simp] theorem touches_pure (c : α) (a : Nat) : ¬ (pure c : Access α).Touches a := by
  simp [Touches]

@[simp] theorem touches_bind (x : Access α) (f : α → Access β) (a : Nat) :
    (x >>= f).Touches a ↔ x.Touches a ∨ (f x.val).Touches a := by
  simp only [Touches, reads_bind, List.mem_append, or_and_right, exists_or]

@[simp] theorem touches_byte (mem : Bytes) (b a : Nat) : (byte mem b).Touches a ↔ a = b := by
  simp only [Touches, byte, List.mem_singleton, exists_eq_left]
  omega

@[simp] theorem touches_copy (mem : Bytes) (b n a : Nat) :
    (copy mem b n).Touches a ↔ b ≤ a ∧ a < b + n := by
  simp [Touches, copy]

@[simp] theorem touches_span (mem : Bytes) (b n a : Nat) :
    (span mem b n).Touches a ↔ b ≤ a ∧ a < b + n := by
  simp [Touches, span]

def Within (x : Access α) (lo hi : Nat) : Prop := ∀ a, x.Touches a → lo ≤ a ∧ a < hi

theorem within_pure (c : α) (lo hi : Nat) : (pure c : Access α).Within lo hi :=
  fun a h => (touches_pure c a h).elim

variable {mem : Bytes} {b n hi lo : Nat} {x : Access α}

theorem within_bind {f : α → Access β} :
    (x >>= f).Within lo hi ↔ x.Within lo hi ∧ (f x.val).Within lo hi := by
  simp only [Within, touches_bind]
  exact ⟨fun h => ⟨fun a ha => h a (.inl ha), fun a ha => h a (.inr ha)⟩,
    fun h a ha => ha.elim (h.1 a) (h.2 a)⟩

theorem within_byte : (byte mem b).Within lo hi ↔ lo ≤ b ∧ b < hi := by
  simp [Within]

theorem within_copy : (copy mem b n).Within lo hi ↔ n = 0 ∨ lo ≤ b ∧ b + n ≤ hi := by
  simp only [Within, touches_copy]
  refine ⟨fun h => ?_, fun h a ha => by omega⟩
  rcases Nat.eq_zero_or_pos n with hn | hn
  · exact .inl hn
  have hfirst := h b (by omega)
  have hlast := h (b + n - 1) (by omega)
  omega

theorem within_span : (span mem b n).Within lo hi ↔ n = 0 ∨ lo ≤ b ∧ b + n ≤ hi := by
  rw [← @within_copy mem]
  simp only [Within, touches_span, touches_copy]

theorem Within.mono {lo' hi' : Nat} (h : x.Within lo hi) (hlo : lo' ≤ lo) (hhi : hi ≤ hi') :
    x.Within lo' hi' := fun a ha => by
  have := h a ha
  omega

end Access
end KestrelOS
