import KestrelOS.Supervisor.Units
import Mathlib.Data.Finset.Card

/-!
# The order of the services

`order_services` places a service once everything it waits for is placed, and fails what is left
over. What the walks over the lists of a service do to it, and what may be changed at all.
-/

namespace KestrelOS.Supervisor

open StProg List Function

@[simp] theorem setUnit_unit_self (i : Nat) (f : SvcUnit → SvcUnit) (s : Init) :
    (setUnit i f s).2.unit i = f (s.unit i) := update_self ..

theorem setUnit_unit_of_ne {i v : Nat} (f : SvcUnit → SvcUnit) (s : Init) (h : v ≠ i) :
    (setUnit i f s).2.unit v = s.unit v := update_of_ne h ..

theorem findUnit_lt {s : Init} {name : List UInt8} {i : Nat} (h : findUnit s name = some i) :
    i < s.nunits := mem_range.mp (mem_of_find?_eq_some h)

/-- What `order_services` may do: set orders, and mark services as failed. -/
structure Ordered (s s' : Init) : Prop where
  world : s' = { s with unit := s'.unit }
  unit : ∀ v, s'.unit v = { s.unit v with state := (s'.unit v).state, order := (s'.unit v).order }
  state : ∀ v, (s'.unit v).state = (s.unit v).state ∨
    ((s.unit v).kind = .service ∧ (s'.unit v).state = .failed)

namespace Ordered

variable {s s' s'' : Init}

theorem refl (s : Init) : Ordered s s := ⟨rfl, fun _ => rfl, fun _ => .inl rfl⟩

theorem kind (h : Ordered s s') (v : Nat) : (s'.unit v).kind = (s.unit v).kind := by rw [h.unit v]

theorem config (h : Ordered s s') (v : Nat) : (s'.unit v).config = (s.unit v).config := by
  rw [h.unit v]

theorem nunits (h : Ordered s s') : s'.nunits = s.nunits := by rw [h.world]

theorem trans (h : Ordered s s') (h' : Ordered s' s'') : Ordered s s'' := by
  refine ⟨?_, fun v => ?_, fun v => ?_⟩
  · rw [h'.world, h.world]
  · rw [h'.unit v, h.unit v]
  obtain heq | ⟨hk, hf⟩ := h'.state v
  · exact (h.state v).imp heq.trans fun hf => ⟨hf.1, heq.trans hf.2⟩
  · exact .inr ⟨(h.kind v).symm.trans hk, hf⟩

theorem findUnit (h : Ordered s s') (name : List UInt8) :
    Supervisor.findUnit s' name = Supervisor.findUnit s name := by
  have hname : ∀ v, (s'.unit v).name = (s.unit v).name := fun v => by rw [h.unit v]
  unfold Supervisor.findUnit
  rw [h.nunits]
  simp only [hname]

end Ordered

theorem ordered_setUnit (s : Init) (i : Nat) {f : SvcUnit → SvcUnit}
    (hf : ∀ u, f u = { u with state := (f u).state, order := (f u).order })
    (hs : (f (s.unit i)).state = (s.unit i).state ∨
      ((s.unit i).kind = .service ∧ (f (s.unit i)).state = .failed)) :
    Ordered s (setUnit i f s).2 := by
  refine ⟨rfl, fun v => ?_, fun v => ?_⟩ <;> by_cases hv : v = i
  · subst hv
    rw [setUnit_unit_self]
    exact hf _
  · rw [setUnit_unit_of_ne _ _ hv]
  · subst hv
    rw [setUnit_unit_self]
    exact hs
  · rw [setUnit_unit_of_ne _ _ hv]
    exact .inl rfl

def unplaced (s : Init) : Finset Nat :=
  (Finset.range s.nunits).filter fun v => (s.unit v).kind = .service ∧ (s.unit v).order = none

variable {i v : Nat}

theorem mem_unplaced {s : Init} :
    v ∈ unplaced s ↔ v < s.nunits ∧ (s.unit v).kind = .service ∧ (s.unit v).order = none := by
  rw [unplaced, Finset.mem_filter, Finset.mem_range]

/-- The requirements of `i` among `deps` are other services. -/
def Resolved (s : Init) (i : Nat) (deps : List (List UInt8)) : Prop :=
  ∀ dep ∈ deps, ∃ d, findUnit s dep = some d ∧ d ≠ i ∧ (s.unit d).kind = .service

/-- The services other than `i` among `deps` have been placed. -/
def Placed (s : Init) (i : Nat) (deps : List (List UInt8)) : Prop :=
  ∀ dep ∈ deps, ∀ d, findUnit s dep = some d → d ≠ i → (s.unit d).kind = .service →
    (s.unit d).order ≠ none

theorem depsPlaced_cons (i : Nat) (required : Bool) (dep : List UInt8) (deps : List (List UInt8))
    (s : Init) : ((∀ d, findUnit s dep = some d → d = i ∨ (s.unit d).kind ≠ .service) ∧
      depsPlaced i required (dep :: deps) s = depsPlaced i required deps
        (if required then (setUnit i (·.become .failed) s).2 else s)) ∨
    ∃ d, findUnit s dep = some d ∧ (d ≠ i ∧ (s.unit d).kind = .service) ∧
      depsPlaced i required (dep :: deps) s =
        if (s.unit d).order = none then (false, s) else depsPlaced i required deps s := by
  -- An unusable name fails the unit when it is required, and the walk goes on either way.
  have hskip : (if required then do
      setUnit i (·.become .failed)
      depsPlaced i required deps
    else depsPlaced i required deps : StProg Init Bool) s = depsPlaced i required deps
      (if required then (setUnit i (·.become .failed) s).2 else s) := by
    cases required <;> rfl
  cases hd : findUnit s dep with
  | none =>
    refine .inl ⟨by simp, ?_⟩
    rw [← hskip, depsPlaced, bind_apply, get_apply]
    simp only [hd]
  | some d =>
    have heq : depsPlaced i required (dep :: deps) s =
        (if d = i ∨ (s.unit d).kind ≠ .service then (if required then do
            setUnit i (·.become .failed)
            depsPlaced i required deps
          else depsPlaced i required deps)
        else if (s.unit d).order = none then pure false
        else depsPlaced i required deps : StProg Init Bool) s := by
      rw [depsPlaced, bind_apply, get_apply]
      simp only [hd]
    by_cases hbad : d = i ∨ (s.unit d).kind ≠ .service
    · refine .inl ⟨fun _ h => Option.some.inj h ▸ hbad, ?_⟩
      rw [heq, if_pos hbad, hskip]
    refine .inr ⟨d, rfl, ⟨fun h => hbad (.inl h), Decidable.not_not.mp fun h => hbad (.inr h)⟩, ?_⟩
    rw [heq, if_neg hbad, cond_apply]
    rfl

structure Failing (i : Nat) (s s' : Init) : Prop where
  ordered : Ordered s s'
  others : ∀ v, v ≠ i → s'.unit v = s.unit v
  order : (s'.unit i).order = (s.unit i).order

theorem Failing.refl (i : Nat) (s : Init) : Failing i s s := ⟨.refl s, fun _ _ => rfl, rfl⟩

theorem Failing.trans {s s' s'' : Init} (h : Failing i s s') (h' : Failing i s' s'') :
    Failing i s s'' :=
  ⟨h.ordered.trans h'.ordered, fun v hv => (h'.others v hv).trans (h.others v hv),
    h'.order.trans h.order⟩

theorem Failing.orders {s s' : Init} (h : Failing i s s') (v : Nat) :
    (s'.unit v).order = (s.unit v).order := by
  by_cases hv : v = i
  · rw [hv]
    exact h.order
  · rw [h.others v hv]

theorem become_failing {s : Init} (hi : (s.unit i).kind = .service) (required : Bool) :
    Failing i s (if required then (setUnit i (·.become .failed) s).2 else s) := by
  cases required with
  | false => exact .refl i s
  | true =>
    refine ⟨ordered_setUnit s i (f := (·.become .failed)) (fun _ => rfl) (.inr ⟨hi, rfl⟩), ?_, ?_⟩
    · exact fun v hv => setUnit_unit_of_ne _ s hv
    change ((setUnit i (·.become .failed) s).2.unit i).order = _
    rw [setUnit_unit_self]
    rfl

theorem depsPlaced_failing (i : Nat) (required : Bool) (deps : List (List UInt8)) (s : Init)
    (hi : (s.unit i).kind = .service) : Failing i s (depsPlaced i required deps s).2 := by
  induction deps generalizing s with
  | nil => exact .refl i s
  | cons dep deps ih =>
    obtain ⟨-, heq⟩ | ⟨d, -, -, heq⟩ := depsPlaced_cons i required dep deps s
    · have hf := become_failing hi required
      rw [heq]
      exact hf.trans (ih _ ((hf.ordered.kind i).trans hi))
    rw [heq]
    split
    · exact .refl i s
    · exact ih s hi

theorem depsPlaced_of_resolved {required : Bool} {deps : List (List UInt8)} {s : Init}
    (h : required → Resolved s i deps) : (depsPlaced i required deps s).2 = s := by
  induction deps with
  | nil => rfl
  | cons dep deps ih =>
    have hs := ih fun hr dep hdep => h hr dep (mem_cons_of_mem _ hdep)
    obtain ⟨hbad, heq⟩ | ⟨d, hd, -, heq⟩ := depsPlaced_cons i required dep deps s
    · have hsoft : required = false := by
        by_contra hr
        obtain ⟨d, hd, hne, hkind⟩ := h (Bool.eq_true_of_not_eq_false hr) dep mem_cons_self
        exact (hbad d hd).elim hne fun hk => hk hkind
      rw [heq, if_neg (by simp [hsoft])]
      exact hs
    · rw [heq]
      split
      · rfl
      · exact hs

/-- `order_services` can place unit `v`: what it requires are other services that can be placed,
and so can be the services it is to come after. -/
inductive Orderable (s : Init) : Nat → Prop
  | intro (v : Nat) (resolved : Resolved s v (splitDeps (s.unit v).config.requires))
      (deps : ∀ dep ∈ splitDeps (s.unit v).config.after ++ splitDeps (s.unit v).config.requires,
        ∀ d, findUnit s dep = some d → d ≠ v → (s.unit d).kind = .service → Orderable s d) :
      Orderable s v

theorem Orderable.resolved {s : Init} (hv : Orderable s v) :
    Resolved s v (splitDeps (s.unit v).config.requires) := by
  cases hv with
  | intro _ resolved _ => exact resolved

theorem failUnplaced_ordered (is : List Nat) (placed : Nat) (s : Init) :
    Ordered s (failUnplaced is placed s).2 := by
  induction is generalizing placed s with
  | nil => exact .refl s
  | cons i is ih =>
    unfold failUnplaced
    simp only [bind_apply, cond_apply]
    split
    · rename_i hi
      exact (ordered_setUnit s i (fun _ => rfl) (.inr ⟨hi.1, rfl⟩)).trans (ih _ _)
    · exact ih placed s

theorem unordered_eq (u : SvcUnit) :
    u.unordered = { u with state := u.unordered.state, order := u.unordered.order } ∧
      u.unordered.state = u.state := by
  unfold SvcUnit.unordered
  split <;> exact ⟨rfl, rfl⟩

theorem unordered_ordered (is : List Nat) (s : Init) :
    Ordered s (each (fun i => setUnit i .unordered) is s).2 ∧
      ∀ v, ((each (fun i => setUnit i .unordered) is s).2.unit v).state = (s.unit v).state := by
  induction is generalizing s with
  | nil => exact ⟨.refl s, fun _ => rfl⟩
  | cons i is ih =>
    have hi : Ordered s (setUnit i .unordered s).2 :=
      ordered_setUnit s i (fun u => (unordered_eq u).1) (.inl (unordered_eq _).2)
    obtain ⟨ho, hv⟩ := ih (setUnit i .unordered s).2
    refine ⟨hi.trans ho, fun v => (hv v).trans ?_⟩
    by_cases hvi : v = i
    · subst hvi
      rw [setUnit_unit_self]
      exact (unordered_eq _).2
    · rw [setUnit_unit_of_ne _ _ hvi]

end KestrelOS.Supervisor
