import Mathlib.Tactic.Common

/-!
# Programs over a state

A stateful function is a map from a state to a result and the next state, and `zoom` runs a program
of a part of the state. `Triple` is a pre- and postcondition; `Steps` relates the states before and
after, which is how a program's frame is stated.
-/

namespace KestrelOS

def StProg (S α : Type) : Type := S → α × S

namespace StProg

variable {S T α β : Type}

instance : Monad (StProg S) where
  pure a := fun s => (a, s)
  bind x f := fun s => f (x s).1 (x s).2

@[simp] theorem pure_apply (a : α) (s : S) : (pure a : StProg S α) s = (a, s) := rfl

@[simp] theorem bind_apply (x : StProg S α) (f : α → StProg S β) (s : S) :
    (x >>= f) s = f (x s).1 (x s).2 := rfl

@[simp] theorem cond_apply (c : Prop) [Decidable c] (x y : StProg S α) (s : S) :
    (if c then x else y) s = if c then x s else y s := by
  split <;> rfl

@[reducible] def get : StProg S S := fun s => (s, s)

@[reducible] def modify (f : S → S) : StProg S Unit := fun s => ((), f s)

@[simp] theorem get_apply (s : S) : (get : StProg S S) s = (s, s) := rfl

@[simp] theorem modify_apply (f : S → S) (s : S) : modify f s = ((), f s) := rfl

/-- A program of the part `g` of a state, put back with `p`. -/
def zoom (g : S → T) (p : S → T → S) (x : StProg T α) : StProg S α :=
  fun s => ((x (g s)).1, p s (x (g s)).2)

@[simp] theorem zoom_apply (g : S → T) (p : S → T → S) (x : StProg T α) (s : S) :
    zoom g p x s = ((x (g s)).1, p s (x (g s)).2) := rfl

/-- Started where `P` holds, the program ends with `Q` of its result and its last state. -/
def Triple (P : S → Prop) (x : StProg S α) (Q : α → S → Prop) : Prop :=
  ∀ s, P s → Q (x s).1 (x s).2

theorem triple_bind {P : S → Prop} {x : StProg S α} {f : α → StProg S β} {R : α → S → Prop}
    {Q : β → S → Prop} (hx : Triple P x R) (hf : ∀ a, Triple (R a) (f a) Q) :
    Triple P (x >>= f) Q := fun s hs => hf _ _ (hx s hs)

def Steps (R : S → S → Prop) (x : StProg S α) : Prop := ∀ s, R s (x s).2

section
variable {R : S → S → Prop}

@[grind ←] theorem steps_pure [Std.Refl R] (a : α) : Steps R (pure a) := fun s => Std.Refl.refl s

@[grind ←] theorem steps_bind [IsTrans S R] {x : StProg S α} {f : α → StProg S β} (hx : Steps R x)
    (hf : ∀ a, Steps R (f a)) : Steps R (x >>= f) :=
  fun s => IsTrans.trans _ _ _ (hx s) (hf _ _)

theorem steps_zoom {Q : T → T → Prop} {g : S → T} {p : S → T → S} {x : StProg T α}
    (hx : Steps Q x) (h : ∀ s t, Q (g s) t → R s (p s t)) : Steps R (zoom g p x) :=
  fun s => h s _ (hx (g s))

def Keeps (P : S → Prop) (s s' : S) : Prop := P s → P s'

instance (P : S → Prop) : Std.Refl (Keeps P) where
  refl _ := id

instance (P : S → Prop) : IsTrans S (Keeps P) where
  trans _ _ _ h h' := h' ∘ h

end

/-- A fallible program `x` of a richer state does what `y` does on its image under `g`; as long as
it succeeds it also keeps an invariant of the richer state. -/
def Shadows {ε : Type} (I : S → Prop) (g : S → T) (x : StProg S (Except ε α))
    (y : StProg T (Except ε α)) : Prop :=
  ∀ s, I s → y (g s) = ((x s).1, g (x s).2) ∧ ∀ a, (x s).1 = .ok a → I (x s).2

section
variable {ε : Type} {I : S → Prop} {g : S → T}

theorem shadows_pure (r : Except ε α) : Shadows I g (pure r) (pure r) :=
  fun _ h => ⟨rfl, fun _ _ => h⟩

theorem shadows_bind {x : StProg S (Except ε α)} {y : StProg T (Except ε α)}
    {k : Except ε α → StProg S (Except ε β)} {k' : Except ε α → StProg T (Except ε β)}
    (hx : Shadows I g x y) (hok : ∀ a, Shadows I g (k (.ok a)) (k' (.ok a)))
    (hk : ∀ e, k (.error e) = pure (.error e) := by intro; rfl)
    (hk' : ∀ e, k' (.error e) = pure (.error e) := by intro; rfl) :
    Shadows I g (x >>= k) (y >>= k') := by
  intro s hs
  obtain ⟨hsame, hinv⟩ := hx s hs
  rw [bind_apply, bind_apply, hsame]
  generalize x s = r at hinv ⊢
  obtain ⟨e | a, s'⟩ := r
  · exact ⟨by rw [hk, hk']; rfl, fun a ha => by rw [hk] at ha; cases ha⟩
  · exact hok a s' (hinv a rfl)

end

end StProg
end KestrelOS
