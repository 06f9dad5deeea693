import Mathlib.Tactic.Common

/-!
# Machines driven by events

A machine takes one event at a time. A run is a list of events; conditions and properties are
stated of each event in the state that it finds, or of every state that the run goes through.
-/

namespace KestrelOS.Machine

variable {S E : Type} (step : S → E → S)

def run : List E → S → S
  | [], s => s
  | e :: es, s => run es (step s e)

/-- Every event of the run satisfies `ok` in the state that it finds. -/
def Meets (ok : S → E → Prop) : List E → S → Prop
  | [], _ => True
  | e :: es, s => ok s e ∧ Meets ok es (step s e)

/-- Every state of the run, the first and the last included, satisfies `P`. -/
def Always (P : S → Prop) : List E → S → Prop
  | [], s => P s
  | e :: es, s => P s ∧ Always P es (step s e)

instance Meets.decidable (ok : S → E → Prop) [∀ s e, Decidable (ok s e)] :
    (es : List E) → (s : S) → Decidable (Meets step ok es s)
  | [], _ => isTrue trivial
  | e :: es, s =>
    have := Meets.decidable ok es (step s e)
    inferInstanceAs (Decidable (ok s e ∧ Meets step ok es (step s e)))

variable {step} {ok : S → E → Prop} {I : S → Prop}

theorem run_append (as bs : List E) (s : S) :
    run step (as ++ bs) s = run step bs (run step as s) := by
  induction as generalizing s with
  | nil => rfl
  | cons a as ih => exact ih _

theorem always_of_keeps (hkeep : ∀ s e, ok s e → I s → I (step s e)) {P : S → Prop}
    (hP : ∀ s, I s → P s) {es : List E} {s : S} (hm : Meets step ok es s) (hs : I s) :
    Always step P es s := by
  induction es generalizing s with
  | nil => exact hP s hs
  | cons e es ih => exact ⟨hP s hs, ih hm.2 (hkeep s e hm.1 hs)⟩

theorem always_of_invariant (hkeep : ∀ s e, I s → I (step s e)) {P : S → Prop}
    (hP : ∀ s, I s → P s) (es : List E) {s : S} (hs : I s) : Always step P es s := by
  induction es generalizing s with
  | nil => exact hP s hs
  | cons e es ih => exact ⟨hP s hs, ih (hkeep s e hs)⟩

theorem meets_of_keeps (hkeep : ∀ s e, ok s e → I s → I (step s e)) {Q : S → E → Prop}
    (hQ : ∀ s e, ok s e → I s → Q s e) {es : List E} {s : S} (hm : Meets step ok es s) (hs : I s) :
    Meets step Q es s := by
  induction es generalizing s with
  | nil => trivial
  | cons e es ih => exact ⟨hQ s e hm.1 hs, ih hm.2 (hkeep s e hm.1 hs)⟩

end KestrelOS.Machine
