import Mathlib.Tactic.Common

/-!
# Programs of atomic sections

A program under a lock protocol is a tree of atomic sections on a shared state: each section `c`
returns a result of type `Res c`, on which the rest depends. In a pool of tasks a schedule names
the task whose next section runs.
-/

namespace KestrelOS

open List Function

inductive SecProg (Sec : Type) (Res : Sec → Type) (α : Type) where
  | done (a : α)
  | call (c : Sec) (k : Res c → SecProg Sec Res α)

namespace SecProg

variable {Sec : Type} {Res : Sec → Type} {α β S : Type}

def bind : SecProg Sec Res α → (α → SecProg Sec Res β) → SecProg Sec Res β
  | .done a, f => f a
  | .call c k, f => .call c fun r => (k r).bind f

instance : Monad (SecProg Sec Res) where
  pure := .done
  bind := SecProg.bind

def atomic (c : Sec) : SecProg Sec Res (Res c) := .call c .done

def run (step : (c : Sec) → S → Res c × S) : SecProg Sec Res α → S → α × S
  | .done a, s => (a, s)
  | .call c k, s => run step (k (step c s).1) (step c s).2

@[simp] theorem run_atomic (step : (c : Sec) → S → Res c × S) (c : Sec) (s : S) :
    (atomic c : SecProg Sec Res (Res c)).run step s = step c s := rfl

@[simp] theorem run_bind (step : (c : Sec) → S → Res c × S) (p : SecProg Sec Res α)
    (f : α → SecProg Sec Res β) (s : S) :
    (p >>= f).run step s = (f (p.run step s).1).run step (p.run step s).2 := by
  change (p.bind f).run step s = _
  induction p generalizing s with
  | done a => rfl
  | call c k ih => exact ih _ _

/-- Every section that the run executes satisfies `ok` where it starts. -/
def Meets (step : (c : Sec) → S → Res c × S) (ok : Sec → S → Prop) : SecProg Sec Res α → S → Prop
  | .done _, _ => True
  | .call c k, s => ok c s ∧ Meets step ok (k (step c s).1) (step c s).2

instance Meets.decidable (step : (c : Sec) → S → Res c × S) (ok : Sec → S → Prop)
    [∀ c s, Decidable (ok c s)] : (p : SecProg Sec Res α) → (s : S) → Decidable (p.Meets step ok s)
  | .done _, _ => isTrue trivial
  | .call c k, s =>
    have := Meets.decidable step ok (k (step c s).1) (step c s).2
    inferInstanceAs (Decidable (ok c s ∧ Meets step ok (k (step c s).1) (step c s).2))

/-- Every section of the program satisfies `good`, as long as the results before it satisfy
`val`. -/
def Only (good : Sec → Prop) (val : (c : Sec) → Res c → Prop) : SecProg Sec Res α → Prop
  | .done _ => True
  | .call c k => good c ∧ ∀ r, val c r → (k r).Only good val

variable {step : (c : Sec) → S → Res c × S} {ok : Sec → S → Prop} {good : Sec → Prop}
  {val : (c : Sec) → Res c → Prop}

variable {s t : S} {p : SecProg Sec Res α} {f : α → SecProg Sec Res β} {b : β}

theorem run_keeps {I : S → Prop}
    (h : ∀ c s, good c → ok c s → I s → val c (step c s).1 ∧ I (step c s).2) (p : SecProg Sec Res α)
    (hp : p.Only good val) (hm : p.Meets step ok s) (hs : I s) : I (p.run step s).2 := by
  induction p generalizing s with
  | done a => exact hs
  | call c k ih =>
    obtain ⟨hval, hI⟩ := h c s hp.1 hm.1 hs
    exact ih _ (hp.2 _ hval) hm.2 hI

@[grind ←] theorem Only.pure (a : α) : (Pure.pure a : SecProg Sec Res α).Only good val := trivial

@[grind ←] theorem Only.bind (hp : p.Only good val) (hf : ∀ a, (f a).Only good val) :
    (p >>= f).Only good val := by
  change (p.bind f).Only good val
  induction p with
  | done a => exact hf a
  | call c k ih => exact ⟨hp.1, fun r hr => ih r (hp.2 r hr)⟩

variable {c : Sec}

theorem Only.atomic_bind {f : Res c → SecProg Sec Res β} (hc : good c)
    (hf : ∀ r, val c r → (f r).Only good val) : (SecProg.atomic c >>= f).Only good val := ⟨hc, hf⟩

theorem Only.atomic (hc : good c) : (SecProg.atomic c).Only good val :=
  ⟨hc, fun _ _ => trivial⟩

/-- The program with its sections starting in the given states, whoever brought them about: what it
returns and the state its last section leaves, or leaves `s` if it has none. -/
def along (step : (c : Sec) → S → Res c × S) : SecProg Sec Res α → List S → S → Option (α × S)
  | .done a, [], s => some (a, s)
  | .done _, _ :: _, _ => none
  | .call _ _, [], _ => none
  | .call c k, s' :: seen, _ => along step (k (step c s').1) seen (step c s').2

variable {seen : List S}

theorem along_pure {a b : α} :
    (Pure.pure a : SecProg Sec Res α).along step seen s = some (b, t) ↔ seen = [] ∧ b = a ∧
      t = s := by
  change (SecProg.done a).along step seen s = _ ↔ _
  cases seen with
  | nil => simp [along, eq_comm]
  | cons s' seen => simp [along]

private theorem along_call {k : Res c → SecProg Sec Res α} {b : α} :
    (SecProg.call c k).along step seen s = some (b, t) ↔
      ∃ s' rest, seen = s' :: rest ∧ (k (step c s').1).along step rest (step c s').2 =
        some (b, t) := by
  cases seen with
  | nil => simp [along]
  | cons s' seen => simp [along]

theorem along_bind : (p >>= f).along step seen s = some (b, t) ↔
      ∃ seen1 seen2 a s', seen = seen1 ++ seen2 ∧ p.along step seen1 s = some (a, s') ∧
        (f a).along step seen2 s' = some (b, t) := by
  change (p.bind f).along step seen s = _ ↔ _
  induction p generalizing seen s with
  | done a =>
    constructor
    · exact fun h => ⟨[], seen, a, s, rfl, rfl, h⟩
    rintro ⟨seen1, seen2, a', s', rfl, ha, h⟩
    obtain ⟨rfl, rfl, rfl⟩ := along_pure.mp ha
    exact h
  | call c k ih =>
    rw [SecProg.bind, along_call]
    constructor
    · rintro ⟨s', rest, rfl, h⟩
      obtain ⟨seen1, seen2, a, s'', rfl, ha, hb⟩ := (ih _).mp h
      exact ⟨s' :: seen1, seen2, a, s'', rfl, ha, hb⟩
    rintro ⟨seen1, seen2, a, s'', rfl, ha, hb⟩
    obtain ⟨s', rest, rfl, ha⟩ := along_call.mp ha
    exact ⟨s', rest ++ seen2, rfl, (ih _).mpr ⟨rest, seen2, a, s'', rfl, ha, hb⟩⟩

theorem along_atomic_bind {f : Res c → SecProg Sec Res β} :
    (SecProg.atomic c >>= f).along step seen s = some (b, t) ↔
      ∃ s' rest, seen = s' :: rest ∧ (f (step c s').1).along step rest (step c s').2 =
        some (b, t) :=
  along_call

theorem along_atomic {r : Res c} :
    (atomic c : SecProg Sec Res (Res c)).along step seen s = some (r, t) ↔
      ∃ s', seen = [s'] ∧ step c s' = (r, t) := by
  rw [atomic, along_call]
  constructor
  · rintro ⟨s', rest, rfl, h⟩
    obtain ⟨rfl, hr, ht⟩ := along_pure.mp h
    exact ⟨s', rfl, Prod.ext hr.symm ht.symm⟩
  · rintro ⟨s', rfl, h⟩
    exact ⟨s', [], rfl, along_pure.mpr ⟨rfl, by rw [h], by rw [h]⟩⟩

end SecProg

/-- Tasks, each with the rest of its program, and the state they share. -/
structure Pool (Sec : Type) (Res : Sec → Type) (S : Type) where
  state : S
  prog : Nat → SecProg Sec Res Unit

namespace Pool

variable {Sec : Type} {Res : Sec → Type} {S : Type}

def step (sem : Nat → (c : Sec) → S → Res c × S) (i : Nat) (p : Pool Sec Res S) : Pool Sec Res S :=
  match p.prog i with
  | .done _ => p
  | .call c k => ⟨(sem i c p.state).2, Function.update p.prog i (k (sem i c p.state).1)⟩

def run (sem : Nat → (c : Sec) → S → Res c × S) : List Nat → Pool Sec Res S → Pool Sec Res S
  | [], p => p
  | i :: sched, p => run sem sched (p.step sem i)

/-- Every section that the run executes satisfies `ok`, given its task, where it starts. -/
def Meets (sem : Nat → (c : Sec) → S → Res c × S) (ok : Nat → Sec → Pool Sec Res S → Prop) :
    List Nat → Pool Sec Res S → Prop
  | [], _ => True
  | i :: sched, p => (∀ c k, p.prog i = .call c k → ok i c p) ∧ Meets sem ok sched (p.step sem i)

variable {sem : Nat → (c : Sec) → S → Res c × S} {ok : Nat → Sec → Pool Sec Res S → Prop}

theorem run_append (as bs : List Nat) (p : Pool Sec Res S) :
    p.run sem (as ++ bs) = (p.run sem as).run sem bs := by
  induction as generalizing p with
  | nil => rfl
  | cons a as ih => exact ih _

variable {p : Pool Sec Res S} {I : S → Prop}

theorem run_keeps {I : Pool Sec Res S → Prop}
    (h : ∀ p i c k, p.prog i = .call c k → ok i c p → I p →
      I ⟨(sem i c p.state).2, update p.prog i (k (sem i c p.state).1)⟩) (sched : List Nat)
    (hm : p.Meets sem ok sched) (hp : I p) :
    I (p.run sem sched) := by
  induction sched generalizing p with
  | nil => exact hp
  | cons i sched ih =>
    apply ih hm.2
    unfold step
    split
    · exact hp
    · rename_i c k hc
      exact h p i c k hc (hm.1 c k hc) hp

theorem state_keeps (h : ∀ i c s, I s → I (sem i c s).2) (sched : List Nat) (hp : I p.state) :
    I (p.run sem sched).state := by
  induction sched generalizing p with
  | nil => exact hp
  | cons i sched ih =>
    apply ih
    unfold step
    split
    · exact hp
    · exact h i _ _ hp

def turns (sem : Nat → (c : Sec) → S → Res c × S) (i : Nat) : List Nat → Pool Sec Res S → List S
  | [], _ => []
  | j :: sched, p =>
    match p.prog i with
    | .done _ => turns sem i sched (p.step sem j)
    | .call _ _ =>
      if j = i then p.state :: turns sem i sched (p.step sem j)
        else turns sem i sched (p.step sem j)

def states (sem : Nat → (c : Sec) → S → Res c × S) : List Nat → Pool Sec Res S → List S
  | [], p => [p.state]
  | i :: sched, p => p.state :: states sem sched (p.step sem i)

theorem turns_subset_states (i : Nat) (sched : List Nat) (p : Pool Sec Res S) :
    p.turns sem i sched ⊆ p.states sem sched := by
  induction sched generalizing p with
  | nil => exact nil_subset _
  | cons j sched ih =>
    unfold turns states
    split
    · exact subset_cons_of_subset _ (ih _)
    split
    · exact cons_subset_cons _ (ih _)
    · exact subset_cons_of_subset _ (ih _)

theorem turns_keeps (h : ∀ i c s, I s → I (sem i c s).2) (i : Nat) (sched : List Nat)
    (hp : I p.state) : ∀ s ∈ p.turns sem i sched, I s := by
  induction sched generalizing p with
  | nil => exact fun s hs => absurd hs not_mem_nil
  | cons j sched ih =>
    have hnext := ih (state_keeps h [j] hp)
    unfold turns
    split
    · exact hnext
    split
    · exact forall_mem_cons.mpr ⟨hp, hnext⟩
    · exact hnext

theorem along_turns {α : Type} {i : Nat} {q : SecProg Sec Res α} {k : α → SecProg Sec Res Unit}
    {a : α} {t : S} (sched : List Nat) {p : Pool Sec Res S} (hprog : p.prog i = q >>= k)
    (h : q.along (sem i) (p.turns sem i sched) p.state = some (a, t)) :
    ∃ pre post, sched = pre ++ post ∧ (p.run sem pre).state = t ∧ (p.run sem pre).prog i = k a := by
  induction sched generalizing p q with
  | nil =>
    cases q with
    | done b =>
      obtain ⟨-, rfl, rfl⟩ := SecProg.along_pure.mp h
      exact ⟨[], [], rfl, rfl, hprog⟩
    | call c f => cases h
  | cons j sched ih =>
    cases q with
    | done b =>
      cases hturns : p.turns sem i (j :: sched) with
      | nil =>
        rw [hturns] at h
        cases h
        exact ⟨[], j :: sched, rfl, rfl, hprog⟩
      | cons s seen =>
        rw [hturns] at h
        cases h
    | call c f =>
      have hcall : p.prog i = .call c fun r => f r >>= k := hprog
      rw [turns, hcall] at h
      dsimp only at h
      by_cases hj : j = i
      · subst hj
        rw [if_pos rfl] at h
        have hstep : p.step sem j =
            ⟨(sem j c p.state).2, update p.prog j (f (sem j c p.state).1 >>= k)⟩ := by
          rw [step, hcall]
        have hnext : (p.step sem j).prog j = f (sem j c p.state).1 >>= k := by
          rw [hstep]
          exact update_self j _ p.prog
        have hrest : (f (sem j c p.state).1).along (sem j) ((p.step sem j).turns sem j sched)
            (p.step sem j).state = some (a, t) := by
          rw [show (p.step sem j).state = (sem j c p.state).2 by rw [hstep]]
          exact h
        obtain ⟨pre, post, rfl, hst, hpr⟩ := ih hnext hrest
        exact ⟨j :: pre, post, rfl, hst, hpr⟩
      · rw [if_neg hj] at h
        have hother : (p.step sem j).prog i = p.prog i := by
          unfold step
          split
          · rfl
          · exact update_of_ne (Ne.symm hj) _ _
        have hsame : (SecProg.call c f).along (sem i) ((p.step sem j).turns sem i sched)
            (p.step sem j).state = some (a, t) := SecProg.along_call.mpr (SecProg.along_call.mp h)
        obtain ⟨pre, post, rfl, hst, hpr⟩ := ih (hother.trans hprog) hsame
        exact ⟨j :: pre, post, rfl, hst, hpr⟩

end Pool
end KestrelOS
