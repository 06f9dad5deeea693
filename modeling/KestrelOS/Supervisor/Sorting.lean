import KestrelOS.Supervisor.Order
import Mathlib.Data.Fintype.Pigeonhole
import Mathlib.Data.Set.Finite.Lattice

/-!
# The order is a topological sort

The numbers that `order_services` gives, and the services that it fails: those whose requirements
are no services, and those that depend on a cycle.
-/

namespace KestrelOS.Supervisor

open StProg List Nat Function
open Relation (ReflTransGen TransGen)

def Service (s : Init) (v : Nat) : Prop := v < s.nunits ∧ (s.unit v).kind = .service

/-- Of the names in the lists of `v` that are read, one is that of another service `d`. -/
def DependsOn (s : Init) (v d : Nat) : Prop :=
  d ≠ v ∧ (s.unit d).kind = .service ∧
    ∃ dep ∈ splitDeps (s.unit v).config.after ++ splitDeps (s.unit v).config.requires,
      findUnit s dep = some d

variable {s s' : Init} {i v : Nat} {deps : List (List UInt8)}

variable {d : Nat}

theorem DependsOn.service (h : DependsOn s v d) : Service s d := by
  obtain ⟨-, hkind, dep, -, hfind⟩ := h
  exact ⟨findUnit_lt hfind, hkind⟩

theorem placed_iff :
    Placed s v (splitDeps (s.unit v).config.after ++ splitDeps (s.unit v).config.requires) ↔
      ∀ d, DependsOn s v d → (s.unit d).order ≠ none := by
  constructor
  · intro h d hd
    obtain ⟨hne, hkind, dep, hdep, hfind⟩ := hd
    exact h dep hdep d hfind hne hkind
  · intro h dep hdep d hfind hne hkind
    exact h d ⟨hne, hkind, dep, hdep, hfind⟩

theorem Ordered.service (h : Ordered s s') : Service s' v ↔ Service s v := by
  unfold Service
  rw [h.nunits, h.kind v]

theorem Ordered.dependsOn (h : Ordered s s') : DependsOn s' v d ↔ DependsOn s v d := by
  unfold DependsOn
  rw [h.kind d, h.config v]
  simp only [h.findUnit]

theorem Ordered.resolved (h : Ordered s s') : Resolved s' v deps ↔ Resolved s v deps := by
  unfold Resolved
  simp only [h.findUnit, h.kind]

theorem Failing.placed (h : Failing i s s') : Placed s' i deps ↔ Placed s i deps := by
  unfold Placed
  simp only [h.ordered.findUnit, h.ordered.kind, h.orders]

theorem depsPlaced_iff (i : Nat) (required : Bool) (deps : List (List UInt8)) (s : Init)
    (hi : (s.unit i).kind = .service) : (depsPlaced i required deps s).1 ↔ Placed s i deps := by
  induction deps generalizing s with
  | nil =>
    refine ⟨fun _ dep hdep => ?_, fun _ => rfl⟩
    cases hdep
  | cons dep deps ih =>
    have hcons : Placed s i (dep :: deps) ↔ (∀ d, findUnit s dep = some d → d ≠ i →
        (s.unit d).kind = .service → (s.unit d).order ≠ none) ∧ Placed s i deps :=
      forall_mem_cons
    rw [hcons]
    obtain ⟨hbad, heq⟩ | ⟨d, hfind, ⟨hne, hkind⟩, heq⟩ := depsPlaced_cons i required dep deps s
    · have hf := become_failing hi required
      rw [heq, ih _ ((hf.ordered.kind i).trans hi), hf.placed]
      refine ⟨fun h => ⟨fun d hd hne hk => ?_, h⟩, And.right⟩
      exact absurd hk ((hbad d hd).resolve_left hne)
    · rw [heq]
      split
      · rename_i hnone
        refine ⟨fun h => absurd h Bool.false_ne_true, fun h => ?_⟩
        exact absurd hnone (h.1 d hfind hne hkind)
      rename_i hsome
      rw [ih s hi]
      refine ⟨fun h => ⟨fun d' hd' _ _ => ?_, h⟩, And.right⟩
      rw [hfind] at hd'
      rwa [← Option.some.inj hd']

theorem placeUnit_cases (i placed : Nat) (s : Init) :
    (((s.unit i).kind ≠ .service ∨ (s.unit i).order ≠ none) ∧ placeUnit i placed s = (placed, s)) ∨
    (((s.unit i).kind = .service ∧ (s.unit i).order = none) ∧ ∃ s2, Failing i s s2 ∧
      (Resolved s i (splitDeps (s.unit i).config.requires) → s2 = s) ∧
      (((∀ d, DependsOn s i d → (s.unit d).order ≠ none) ∧ placeUnit i placed s =
          (placed + 1, (setUnit i (fun u => { u with order := some placed }) s2).2)) ∨
        (∃ d, DependsOn s i d ∧ (s.unit d).order = none) ∧
        placeUnit i placed s = (placed, s2))) := by
  have hsoft : (depsPlaced i false (splitDeps (s.unit i).config.after) s).2 = s :=
    depsPlaced_of_resolved nofun
  have happend : Placed s i
      (splitDeps (s.unit i).config.after ++ splitDeps (s.unit i).config.requires) ↔
        Placed s i (splitDeps (s.unit i).config.after) ∧
          Placed s i (splitDeps (s.unit i).config.requires) := forall_mem_append
  have hwaits : ¬ (Placed s i (splitDeps (s.unit i).config.after) ∧
      Placed s i (splitDeps (s.unit i).config.requires)) →
        ∃ d, DependsOn s i d ∧ (s.unit d).order = none := by
    intro hnot
    by_contra hall
    refine hnot (happend.mp (placed_iff.mpr fun d hd hnone => hall ⟨d, hd, hnone⟩))
  by_cases hskip : (s.unit i).kind ≠ .service ∨ (s.unit i).order ≠ none
  · refine .inl ⟨hskip, ?_⟩
    unfold placeUnit
    simp only [bind_apply, cond_apply]
    rw [if_pos hskip]
    rfl
  have hkind : (s.unit i).kind = .service := Decidable.not_not.mp fun h => hskip (.inl h)
  have hnone : (s.unit i).order = none := Decidable.not_not.mp fun h => hskip (.inr h)
  have hafter := depsPlaced_iff i false (splitDeps (s.unit i).config.after) s hkind
  have hreq := depsPlaced_iff i true (splitDeps (s.unit i).config.requires) s hkind
  have hfail := depsPlaced_failing i true (splitDeps (s.unit i).config.requires) s hkind
  have hkeep : Resolved s i (splitDeps (s.unit i).config.requires) →
      (depsPlaced i true (splitDeps (s.unit i).config.requires) s).2 = s :=
    fun h => depsPlaced_of_resolved fun _ => h
  refine .inr ⟨⟨hkind, hnone⟩, ?_⟩
  unfold placeUnit
  simp only [bind_apply, cond_apply]
  rw [if_neg hskip, hsoft]
  split
  · rename_i hyes
    generalize depsPlaced i true (splitDeps (s.unit i).config.requires) s = r at hreq hfail hkeep
    obtain ⟨ok, s2⟩ := r
    refine ⟨s2, hfail, hkeep, ?_⟩
    cases ok with
    | true => exact .inl ⟨placed_iff.mp (happend.mpr ⟨hafter.mp hyes, hreq.mp rfl⟩), rfl⟩
    | false => exact .inr ⟨hwaits fun h => Bool.false_ne_true (hreq.mpr h.2), rfl⟩
  · rename_i hno
    exact ⟨s, .refl i s, fun _ => rfl, .inr ⟨hwaits fun h => hno (hafter.mpr h.1), rfl⟩⟩

/-- The numbers given so far are below `placed`, all different, and larger than those of the
services waited for. -/
structure Numbered (placed : Nat) (s : Init) : Prop where
  below : ∀ v n, Service s v → (s.unit v).order = some n → n < placed
  apart : ∀ v w n, Service s v → Service s w →
    (s.unit v).order = some n → (s.unit w).order = some n → v = w

/-- A placed service has a larger number than what it depends on. -/
def Sorted (s : Init) : Prop :=
  ∀ v a, Service s v → (s.unit v).order = some a →
    ∀ d, DependsOn s v d → ∃ b < a, (s.unit d).order = some b

theorem Ordered.unplaced_subset (h : Ordered s s')
    (hnone : ∀ v, (s'.unit v).order = none → (s.unit v).order = none) :
    unplaced s' ⊆ unplaced s := by
  intro v hv
  obtain ⟨hlt, hkind, hv⟩ := mem_unplaced.mp hv
  exact mem_unplaced.mpr ⟨h.nunits ▸ hlt, (h.kind v).symm.trans hkind, hnone v hv⟩

/-- Services keep their numbers, and are failed for their requirements only. -/
structure Excused (s s' : Init) : Prop where
  ordered : Ordered s s'
  fewer : unplaced s' ⊆ unplaced s
  failed : ∀ v, (s'.unit v).state = .failed → (s.unit v).state = .failed ∨
    ¬ Resolved s v (splitDeps (s.unit v).config.requires)

theorem Excused.trans {s'' : Init} (h : Excused s s') (h' : Excused s' s'') : Excused s s'' := by
  refine ⟨h.ordered.trans h'.ordered, h'.fewer.trans h.fewer, fun v hv => ?_⟩
  obtain hstate | hbad := h'.failed v hv
  · exact h.failed v hstate
  · rw [h.ordered.resolved, h.ordered.config v] at hbad
    exact .inr hbad

theorem Failing.excused (h : Failing i s s')
    (hkeep : Resolved s i (splitDeps (s.unit i).config.requires) → s' = s) : Excused s s' := by
  refine ⟨h.ordered, h.ordered.unplaced_subset fun v hv => (h.orders v).symm.trans hv,
    fun v hv => ?_⟩
  by_cases hvi : v = i
  · subst hvi
    by_cases hres : Resolved s v (splitDeps (s.unit v).config.requires)
    · rw [hkeep hres] at hv
      exact .inl hv
    · exact .inr hres
  · rw [h.others v hvi] at hv
    exact .inl hv

theorem setOrder_excused (i placed : Nat) (s : Init) :
    Excused s (setUnit i (fun u => { u with order := some placed }) s).2 := by
  have ho :=
    ordered_setUnit s i (f := fun u => { u with order := some placed }) (fun _ => rfl) (.inl rfl)
  refine ⟨ho, ho.unplaced_subset fun v hv => ?_, fun v hv => .inl ?_⟩ <;> by_cases hvi : v = i
  · subst hvi
    rw [setUnit_unit_self] at hv
    cases hv
  · rwa [setUnit_unit_of_ne _ _ hvi] at hv
  · subst hvi
    rw [setUnit_unit_self] at hv
    exact hv
  · rwa [setUnit_unit_of_ne _ _ hvi] at hv

variable {placed : Nat}

theorem Numbered.of_orders (h : Numbered placed s) (ho : Ordered s s')
    (hv : ∀ v, (s'.unit v).order = (s.unit v).order) : Numbered placed s' where
  below := by simpa only [ho.service, hv] using h.below
  apart := by simpa only [ho.service, hv] using h.apart

theorem Sorted.of_orders (h : Sorted s) (ho : Ordered s s')
    (hv : ∀ v, (s'.unit v).order = (s.unit v).order) : Sorted s' := by
  simpa only [Sorted, ho.service, ho.dependsOn, hv] using h

theorem Numbered.place (h : Numbered placed s) (f : SvcUnit → SvcUnit)
    (ho : Ordered s (setUnit i f s).2) (hf : (f (s.unit i)).order = some placed) :
    Numbered (placed + 1) (setUnit i f s).2 := by
  have hself : ((setUnit i f s).2.unit i).order = some placed := by
    rw [setUnit_unit_self]
    exact hf
  have hother : ∀ v n, v ≠ i → Service (setUnit i f s).2 v →
      ((setUnit i f s).2.unit v).order = some n → (s.unit v).order = some n ∧ n < placed := by
    intro v n hvi hs hn
    rw [setUnit_unit_of_ne _ _ hvi] at hn
    exact ⟨hn, h.below v n (ho.service.mp hs) hn⟩
  constructor
  · intro v n hs hn
    by_cases hvi : v = i
    · rw [hvi, hself] at hn
      have := Option.some.inj hn
      omega
    · have := (hother v n hvi hs hn).2
      omega
  · intro v w n hs hs' hn hn'
    by_cases hvi : v = i <;> by_cases hwi : w = i
    · exact hvi.trans hwi.symm
    · rw [hvi, hself] at hn
      have heq := Option.some.inj hn
      have := (hother w n hwi hs' hn').2
      omega
    · rw [hwi, hself] at hn'
      have heq := Option.some.inj hn'
      have := (hother v n hvi hs hn).2
      omega
    · exact h.apart v w n (ho.service.mp hs) (ho.service.mp hs') (hother v n hvi hs hn).1
        (hother w n hwi hs' hn').1

theorem Sorted.place (h : Sorted s) (hn : Numbered placed s)
    (hi : (s.unit i).order = none) (hall : ∀ d, DependsOn s i d → (s.unit d).order ≠ none) :
    Sorted (setUnit i (fun u => { u with order := some placed }) s).2 := by
  have ho := (setOrder_excused i placed s).ordered
  intro v a hs ha d hd
  have hd0 := ho.dependsOn.mp hd
  -- What is waited for has a number already, so it is not `i`.
  have hdep : ∀ b, (s.unit d).order = some b →
      ((setUnit i (fun u => { u with order := some placed }) s).2.unit d).order = some b := by
    intro b hb
    have hdi : d ≠ i := by
      rintro rfl
      rw [hi] at hb
      cases hb
    rw [setUnit_unit_of_ne _ _ hdi]
    exact hb
  by_cases hvi : v = i
  · subst hvi
    rw [setUnit_unit_self] at ha
    obtain ⟨b, hb⟩ := Option.ne_none_iff_exists'.mp (hall d hd0)
    have hlt := hn.below d b hd0.service hb
    have heq : placed = a := Option.some.inj ha
    exact ⟨b, heq ▸ hlt, hdep b hb⟩
  · rw [setUnit_unit_of_ne _ _ hvi] at ha
    obtain ⟨b, hlt, hb⟩ := h v a (ho.service.mp hs) ha d hd0
    exact ⟨b, hlt, hdep b hb⟩

/-- A service without a number that waits for another one. -/
def Waits (s : Init) (v : Nat) : Prop :=
  Service s v → (s.unit v).order = none → ∃ d, DependsOn s v d ∧ (s.unit d).order = none

theorem Ordered.waits_iff (ho : Ordered s s') (hv : ∀ v, (s'.unit v).order = (s.unit v).order) :
    Waits s' v ↔ Waits s v := by
  simp only [Waits, ho.service, ho.dependsOn, hv]

variable {n : Nat} {s s' : Init}

theorem placeUnit_sorts {i : Nat} (h : placeUnit i placed s = (n, s')) (hlt : i < s.nunits)
    (hn : Numbered placed s) (hs : Sorted s) :
    Excused s s' ∧ Numbered n s' ∧ Sorted s' ∧ (n = placed + 1 ∧ unplaced s' ⊂ unplaced s ∨
      n = placed ∧ (∀ v, (s'.unit v).order = (s.unit v).order) ∧ Waits s i) := by
  obtain ⟨hskip, heq⟩ | ⟨⟨hkind, hnone⟩, s2, hfail, hkeep, ⟨hall, heq⟩ | ⟨hwait, heq⟩⟩ :=
    placeUnit_cases i placed s <;> rw [heq] at h <;> cases h
  · refine ⟨⟨.refl s, subset_rfl, fun _ h => .inl h⟩, hn, hs, .inr ⟨rfl, fun _ => rfl, ?_⟩⟩
    exact fun hi hnone => absurd hnone (hskip.resolve_left fun hk => hk hi.2)
  · have hn2 := hn.of_orders hfail.ordered hfail.orders
    have hs2 := hs.of_orders hfail.ordered hfail.orders
    have hplace := setOrder_excused i placed s2
    have hex := (hfail.excused hkeep).trans hplace
    refine ⟨hex, hn2.place _ hplace.ordered rfl, ?_, .inl ⟨rfl, ?_⟩⟩
    · refine hs2.place hn2 (hfail.order.trans hnone) fun d hd => ?_
      rw [hfail.orders d]
      exact hall d (hfail.ordered.dependsOn.mp hd)
    refine (Finset.ssubset_iff_of_subset hex.fewer).mpr
      ⟨i, mem_unplaced.mpr ⟨hlt, hkind, hnone⟩, fun hi => ?_⟩
    have hnone' := (mem_unplaced.mp hi).2.2
    rw [setUnit_unit_self] at hnone'
    cases hnone'
  · exact ⟨hfail.excused hkeep, hn.of_orders hfail.ordered hfail.orders,
      hs.of_orders hfail.ordered hfail.orders, .inr ⟨rfl, hfail.orders, fun _ _ => hwait⟩⟩

theorem placePass_sorts {is : List Nat} (h : placePass is placed s = (n, s'))
    (his : ∀ i ∈ is, i < s.nunits) (hn : Numbered placed s) (hs : Sorted s) :
    Excused s s' ∧ Numbered n s' ∧ Sorted s' ∧ placed ≤ n ∧
      (n ≠ placed → unplaced s' ⊂ unplaced s) ∧
      (n = placed → (∀ v, (s'.unit v).order = (s.unit v).order) ∧ ∀ i ∈ is, Waits s i) := by
  induction is generalizing placed s with
  | nil =>
    cases h
    refine ⟨⟨.refl _, subset_rfl, fun _ h => .inl h⟩, hn, hs, le_refl _, fun h => absurd rfl h,
      fun _ => ⟨fun _ => rfl, fun i hi => ?_⟩⟩
    cases hi
  | cons i is ih =>
    rcases h1 : placeUnit i placed s with ⟨n1, s1⟩
    have hcons : placePass (i :: is) placed s =
        placePass is (placeUnit i placed s).1 (placeUnit i placed s).2 := rfl
    rw [hcons, h1] at h
    obtain ⟨hex, hn1, hs1, hstep⟩ := placeUnit_sorts h1 (his i mem_cons_self) hn hs
    obtain ⟨hex', hn2, hs2, hle, hmore, hdone⟩ := ih h
      (fun j hj => hex.ordered.nunits ▸ his j (mem_cons_of_mem _ hj)) hn1 hs1
    refine ⟨hex.trans hex', hn2, hs2, ?_⟩
    obtain ⟨rfl, hsub⟩ | ⟨rfl, horders, hwait⟩ := hstep
    · exact ⟨by omega, fun _ => Finset.ssubset_of_subset_of_ssubset hex'.fewer hsub,
        fun heq => by omega⟩
    refine ⟨hle, fun hne => Finset.ssubset_of_ssubset_of_subset (hmore hne) hex.fewer,
      fun heq => ?_⟩
    obtain ⟨horders', hwaits⟩ := hdone heq
    refine ⟨fun v => (horders' v).trans (horders v), forall_mem_cons.mpr ⟨hwait, ?_⟩⟩
    intro j hj
    exact (hex.ordered.waits_iff horders).mp (hwaits j hj)

theorem placeLoop_sorts {fuel : Nat} (h : placeLoop fuel placed s = (n, s'))
    (hfuel : (unplaced s).card < fuel) (hn : Numbered placed s) (hs : Sorted s) :
    Excused s s' ∧ Numbered n s' ∧ Sorted s' ∧ ∀ v, Waits s' v := by
  induction fuel generalizing placed s with
  | zero => exact absurd hfuel (not_lt_zero _)
  | succ fuel ih =>
    rcases h1 : placePass (range s.nunits) placed s with ⟨n1, s1⟩
    obtain ⟨hex, hn1, hs1, -, hmore, hdone⟩ :=
      placePass_sorts h1 (fun i hi => mem_range.mp hi) hn hs
    unfold placeLoop at h
    simp only [bind_apply, cond_apply, h1] at h
    split at h
    · rename_i heq
      cases h
      obtain ⟨horders, hwaits⟩ := hdone heq
      refine ⟨hex, hn1, hs1, fun v => ?_⟩
      exact (hex.ordered.waits_iff horders).mpr fun hv => hwaits v (mem_range.mpr hv.1) hv
    · rename_i hne
      have hcard := Finset.card_lt_card (hmore hne)
      obtain ⟨hex', hn2, hs2, hwaits⟩ := ih h (by omega) hn1 hs1
      exact ⟨hex.trans hex', hn2, hs2, hwaits⟩

theorem reaches_cycle {α : Type*} {r : α → α → Prop} {p : α → Prop} [Finite { a // p a }]
    (h : ∀ a, p a → ∃ b, r a b ∧ p b) {a : α} (ha : p a) :
    ∃ c, ReflTransGen r a c ∧ TransGen r c c := by
  have hnext : ∀ x : { a // p a }, ∃ y : { a // p a }, r x y := by
    intro x
    obtain ⟨b, hr, hb⟩ := h x x.2
    exact ⟨⟨b, hb⟩, hr⟩
  choose next hnext using hnext
  have hstep : ∀ n x, r (next^[n] x) (next^[n + 1] x) := by
    intro n x
    rw [iterate_succ_apply']
    exact hnext _
  have hpath : ∀ n (x : { a // p a }), ReflTransGen r (x : α) (next^[n] x) := by
    intro n x
    induction n with
    | zero => exact .refl
    | succ n ih => exact ih.tail (hstep n x)
  have hcycle : ∀ i j, i < j → next^[i] ⟨a, ha⟩ = next^[j] ⟨a, ha⟩ →
      ∃ c, ReflTransGen r a c ∧ TransGen r c c := by
    intro i j hij heq
    obtain ⟨k, rfl⟩ := Nat.exists_eq_add_of_lt hij
    have hsplit : next^[i + k + 1] ⟨a, ha⟩ = next^[k + 1] (next^[i] ⟨a, ha⟩) := by
      rw [← iterate_add_apply, Nat.add_comm i k, Nat.add_right_comm]
    refine ⟨next^[i] ⟨a, ha⟩, hpath i ⟨a, ha⟩, ?_⟩
    have htail := TransGen.tail' (hpath k (next^[i] ⟨a, ha⟩)) (hstep k _)
    rwa [← hsplit, ← heq] at htail
  obtain ⟨i, j, hne, heq⟩ := Finite.exists_ne_map_eq_of_infinite fun n => next^[n] ⟨a, ha⟩
  obtain hij | hji := lt_or_gt_of_ne hne
  · exact hcycle i j hij heq
  · exact hcycle j i hji heq.symm

theorem failUnplaced_sorts (is : List Nat) (placed : Nat) (s : Init) (hn : Numbered placed s) :
    (∃ placed', Numbered placed' (failUnplaced is placed s).2) ∧
      (∀ v n, (s.unit v).order = some n → ((failUnplaced is placed s).2.unit v).order = some n) ∧
      (∀ v, ((failUnplaced is placed s).2.unit v).state = .failed → (s.unit v).state = .failed ∨
        v ∈ is ∧ (s.unit v).kind = .service ∧ (s.unit v).order = none) ∧
      ∀ v ∈ is, (s.unit v).kind = .service → (s.unit v).order = none →
        ((failUnplaced is placed s).2.unit v).state = .failed ∧
          ((failUnplaced is placed s).2.unit v).order ≠ none := by
  induction is generalizing placed s with
  | nil =>
    refine ⟨⟨placed, hn⟩, fun _ _ h => h, fun _ h => .inl h, fun v hv => ?_⟩
    cases hv
  | cons i is ih =>
    unfold failUnplaced
    simp only [bind_apply, cond_apply]
    split
    · rename_i hi
      have ho : Ordered s (setUnit i (fun u =>
          { u with state := .failed, order := some placed }) s).2 :=
        ordered_setUnit s i (fun _ => rfl) (.inr ⟨hi.1, rfl⟩)
      have hn1 := hn.place (fun u => { u with state := .failed, order := some placed }) ho rfl
      have hself : ((setUnit i
        (fun u => { u with state := .failed, order := some placed }) s).2.unit i)
          = { s.unit i with state := .failed, order := some placed } := setUnit_unit_self ..
      have hother : ∀ v, v ≠ i → (setUnit i (fun u =>
          { u with state := .failed, order := some placed }) s).2.unit v = s.unit v :=
        fun v hv => setUnit_unit_of_ne _ _ hv
      generalize (setUnit i _ s).2 = s1 at hn1 hself hother ⊢
      obtain ⟨hnum, hkeep, hstate, hfail⟩ := ih (placed + 1) _ hn1
      have hlast := failUnplaced_ordered is (placed + 1) s1
      refine ⟨hnum, fun v n hv => ?_, fun v hv => ?_, fun v hv hkind hnone => ?_⟩
      · have hvi : v ≠ i := by
          rintro rfl
          rw [hi.2] at hv
          cases hv
        apply hkeep v n
        rw [hother v hvi]
        exact hv
      · by_cases hvi : v = i
        · rw [hvi]
          exact .inr ⟨mem_cons_self, hi⟩
        have := hstate v hv
        rw [hother v hvi] at this
        exact this.imp_right fun h => ⟨mem_cons_of_mem _ h.1, h.2⟩
      · by_cases hvi : v = i
        · subst hvi
          constructor
          · obtain hsame | hbad := hlast.state v
            · exact hsame.trans (by rw [hself])
            · exact hbad.2
          · rw [hkeep v placed (by rw [hself])]
            exact Option.some_ne_none _
        · apply hfail v (mem_of_ne_of_mem hvi hv)
          · rw [hother v hvi]
            exact hkind
          · rw [hother v hvi]
            exact hnone
    · rename_i hi
      obtain ⟨hnum, hkeep, hstate, hfail⟩ := ih placed s hn
      refine ⟨hnum, hkeep,
        fun v hv => (hstate v hv).imp_right fun h => ⟨mem_cons_of_mem _ h.1, h.2⟩,
        forall_mem_cons.mpr ⟨fun hkind hnone => ?_, hfail⟩⟩
      exact absurd ⟨hkind, hnone⟩ hi

theorem unordered_none (is : List Nat) (s : Init) (v : Nat) (hkind : (s.unit v).kind = .service)
    (hv : v ∈ is ∨ (s.unit v).order = none) :
    ((each (fun i => setUnit i .unordered) is s).2.unit v).order = none := by
  induction is generalizing s with
  | nil => exact hv.resolve_left not_mem_nil
  | cons i is ih =>
    have hcons : each (fun i => setUnit i .unordered) (i :: is) s =
        each (fun i => setUnit i .unordered) is (setUnit i .unordered s).2 := rfl
    rw [hcons]
    by_cases hvi : v = i
    · subst hvi
      have hun : (s.unit v).unordered = { s.unit v with order := none } := if_pos hkind
      apply ih
      · rw [setUnit_unit_self, hun]
        exact hkind
      · rw [setUnit_unit_self, hun]
        exact .inr rfl
    · apply ih
      · rw [setUnit_unit_of_ne _ _ hvi]
        exact hkind
      · rw [setUnit_unit_of_ne _ _ hvi]
        exact hv.imp_left fun h => mem_of_ne_of_mem hvi h

/-- One of the names that `v` requires is not that of another service. -/
def BadRequirement (s : Init) (v : Nat) : Prop :=
  ∃ dep ∈ splitDeps (s.unit v).config.requires,
    ∀ d, findUnit s dep = some d → d = v ∨ (s.unit d).kind ≠ .service

theorem badRequirement_of_not_resolved (h : ¬ Resolved s v (splitDeps (s.unit v).config.requires)) :
    BadRequirement s v := by
  by_contra hbad
  refine h fun dep hdep => ?_
  by_contra hnone
  refine hbad ⟨dep, hdep, fun d hd => ?_⟩
  by_contra hother
  obtain ⟨hne, hkind⟩ := not_or.mp hother
  exact hnone ⟨d, hd, hne, Decidable.not_not.mp hkind⟩

structure InOrder (s s' : Init) : Prop where
  numbered : ∀ v, Service s v → (s'.unit v).order ≠ none
  distinct : ∀ v w, Service s v → Service s w → (s'.unit v).order = (s'.unit w).order → v = w
  sorted : ∀ v, Service s v → (s'.unit v).state ≠ .failed → ∀ d, DependsOn s v d →
    ∃ a b, (s'.unit v).order = some a ∧ (s'.unit d).order = some b ∧ b < a
  failed : ∀ v, Service s v → (s'.unit v).state = .failed → (s.unit v).state = .failed ∨
    BadRequirement s v ∨ ∃ c, ReflTransGen (DependsOn s) v c ∧ TransGen (DependsOn s) c c

def Fault (s : Init) (v : Nat) : Prop :=
  (s.unit v).state = .failed ∨ BadRequirement s v ∨
    ∃ c, ReflTransGen (DependsOn s) v c ∧ TransGen (DependsOn s) c c

theorem orderServices_inOrder (s : Init) : Ordered s (orderServices s).2 ∧
    InOrder s (orderServices s).2 ∧ ∀ v, ((orderServices s).2.unit v).state = .failed →
      Fault s v := by
  unfold orderServices
  simp only [bind_apply]
  obtain ⟨hclear, hstate⟩ := unordered_ordered (range s.nunits) s
  have hnone : ∀ v, Service s v →
      ((each (fun i => setUnit i .unordered) (range s.nunits) s).2.unit v).order = none :=
    fun v hv => unordered_none _ s v hv.2 (.inl (mem_range.mpr hv.1))
  generalize (each (fun i => setUnit i .unordered) (range s.nunits) s).2 = s1
    at hclear hstate hnone ⊢
  have hcard : (unplaced s1).card < s.nunits + 1 := by
    refine lt_succ_of_le ((Finset.card_filter_le _ _).trans ?_)
    rw [Finset.card_range, hclear.nunits]
  have hnone1 : ∀ v n, Service s1 v → (s1.unit v).order ≠ some n := by
    intro v n hv hn
    rw [hnone v (hclear.service.mp hv)] at hn
    cases hn
  rcases hr : placeLoop (s.nunits + 1) 0 s1 with ⟨n, s2⟩
  obtain ⟨hex, hnum, hsort, hwaits⟩ := placeLoop_sorts hr hcard
    ⟨fun v n hv hn => absurd hn (hnone1 v n hv), fun v _ n hv _ hn => absurd hn (hnone1 v n hv)⟩
    fun v n hv hn => absurd hn (hnone1 v n hv)
  have ho := hclear.trans hex.ordered
  obtain ⟨⟨placed, hnum'⟩, hkeep, hfailed, hleft⟩ :=
    failUnplaced_sorts (range s.nunits) n s2 hnum
  have ho' := ho.trans (failUnplaced_ordered (range s.nunits) n s2)
  dsimp only
  generalize (failUnplaced (range s.nunits) n s2).2 = s' at hnum' hkeep hfailed hleft ho' ⊢
  have hall : ∀ v, Service s v → (s2.unit v).order = none →
      (s'.unit v).state = .failed ∧ (s'.unit v).order ≠ none := fun v hv hnone =>
    hleft v (mem_range.mpr hv.1) (ho.service.mpr hv).2 hnone
  have hnumbered : ∀ v, Service s v → (s'.unit v).order ≠ none := by
    intro v hv
    cases horder : (s2.unit v).order with
    | none => exact (hall v hv horder).2
    | some n => exact hkeep v n horder ▸ Option.some_ne_none n
  have hfault : ∀ v, (s'.unit v).state = .failed → Fault s v := by
    intro v hbad
    obtain hloop | ⟨hmem, hkind, hnoplace⟩ := hfailed v hbad
    · obtain hbefore | hreq := hex.failed v hloop
      · exact .inl ((hstate v).symm.trans hbefore)
      · rw [hclear.resolved, hclear.config v] at hreq
        exact .inr (.inl (badRequirement_of_not_resolved hreq))
    · -- Every service left over waits for another one that is left over.
      have hv : Service s v := ⟨mem_range.mp hmem, (ho.kind v).symm.trans hkind⟩
      have hfin : Finite { v // Service s v ∧ (s2.unit v).order = none } :=
        ((Set.finite_lt_nat s.nunits).subset fun v hv => hv.1.1).to_subtype
      refine .inr (.inr (reaches_cycle (p := fun v => Service s v ∧ (s2.unit v).order = none)
        (fun w hw => ?_) ⟨hv, hnoplace⟩))
      obtain ⟨d, hd, hnone⟩ := hwaits w (ho.service.mpr hw.1) hw.2
      have hd0 := ho.dependsOn.mp hd
      exact ⟨d, hd0, hd0.service, hnone⟩
  refine ⟨ho', ⟨hnumbered, fun v w hv hw heq => ?_, fun v hv hok d hd => ?_, fun v _ => hfault v⟩,
    hfault⟩
  · obtain ⟨n, hn⟩ := Option.ne_none_iff_exists'.mp (hnumbered v hv)
    exact hnum'.apart v w n (ho'.service.mpr hv) (ho'.service.mpr hw) hn (heq.symm.trans hn)
  cases horder : (s2.unit v).order with
  | none => exact absurd (hall v hv horder).1 hok
  | some a =>
    obtain ⟨b, hlt, hb⟩ := hsort v a (ho.service.mpr hv) horder d (ho.dependsOn.mpr hd)
    exact ⟨a, b, hkeep v a horder, hkeep d b hb, hlt⟩

theorem services_are_sorted (s : Init) : InOrder s (orderServices s).2 :=
  (orderServices_inOrder s).2.1

theorem Orderable.dep (hv : Orderable s v) (hd : DependsOn s v d) : Orderable s d := by
  obtain ⟨hne, hkind, dep, hdep, hfind⟩ := hd
  cases hv with
  | intro _ _ deps => exact deps dep hdep d hfind hne hkind

theorem Orderable.not_cyclic (hv : Orderable s v) : ¬ TransGen (DependsOn s) v v := by
  induction hv with
  | intro v _ _ ih =>
    intro hloop
    obtain ⟨d, hd, hback⟩ := Relation.TransGen.head'_iff.mp hloop
    obtain ⟨hne, hkind, dep, hdep, hfind⟩ := id hd
    exact ih dep hdep d hfind hne hkind (.tail' hback hd)

theorem orderServices_keeps (hv : Orderable s v) :
    ((orderServices s).2.unit v).state = (s.unit v).state := by
  obtain ⟨ho, -, hfault⟩ := orderServices_inOrder s
  obtain heq | ⟨-, hf⟩ := ho.state v
  · exact heq
  obtain hbefore | ⟨dep, hdep, hbad⟩ | ⟨c, hvc, hcc⟩ := hfault v hf
  · exact hf.trans hbefore.symm
  · obtain ⟨d, hd, hne, hkind⟩ := hv.resolved dep hdep
    exact (hbad d hd).elim (absurd · hne) (absurd hkind)
  have hc : Orderable s c := by
    clear hcc
    induction hvc with
    | refl => exact hv
    | tail _ hstep ih => exact ih.dep hstep
  exact absurd hcc hc.not_cyclic

def depNames (spec : List UInt8) : List (List UInt8) :=
  splitOn (fun c => c = 32 ∨ c = 9 ∨ c = 44) [] spec

/-- Service `d` is named by service `v`, anywhere in its lists. -/
def Names (s : Init) (v d : Nat) : Prop :=
  Service s v ∧ Service s d ∧
    ∃ dep ∈ depNames (s.unit v).config.after ++ depNames (s.unit v).config.requires,
      findUnit s dep = some d

theorem not_on_cycle (h : ∀ w < s.nunits,
    ∀ dep ∈ depNames (s.unit w).config.after ++ depNames (s.unit w).config.requires,
      findUnit s dep ≠ some v) : ¬ TransGen (Names s) v v := by
  intro hloop
  obtain ⟨w, -, hw, -, dep, hdep, hfind⟩ := Relation.TransGen.tail'_iff.mp hloop
  exact h w hw.1 dep hdep hfind

/-- An order in which all names count, and nothing fails for the faults of others. -/
structure InStrictOrder (s s' : Init) : Prop where
  sorted : ∀ v, Service s v → (s'.unit v).state ≠ .failed → ∀ d, Names s v d →
    ∃ a b, (s'.unit v).order = some a ∧ (s'.unit d).order = some b ∧ b < a
  distinct : ∀ v w, Service s v → Service s w → (s'.unit v).order = (s'.unit w).order → v = w
  failed : ∀ v, Service s v → (s'.unit v).state = .failed → (s.unit v).state = .failed ∨
    (∃ dep ∈ depNames (s.unit v).config.requires,
      findUnit s dep = none ∨ findUnit s dep = some v) ∨ TransGen (Names s) v v

def serviceSetup (name after requires : String) : Setup :=
  ⟨ascii name, .service, ⟨ascii "/bin/d", ascii after, ascii requires, [], .always, 0⟩, true, true⟩

def afterItself : Init := configured [serviceSetup "a" "a" ""]

def afterNine : Init :=
  configured [serviceSetup "a" "" "", serviceSetup "b" "" "", serviceSetup "c" "" "",
    serviceSetup "d" "" "", serviceSetup "e" "" "", serviceSetup "f" "" "", serviceSetup "g" "" "",
    serviceSetup "h" "" "", serviceSetup "z" "a b c d e f g h i" "", serviceSetup "i" "" ""]

def requiresOnce : Init :=
  configured [serviceSetup "a" "" "tool",
    ⟨ascii "tool", .once, ⟨ascii "/bin/tool", [], [], [], .never, 0⟩, true, true⟩]

/-- A service after one of two that are after each other. -/
def afterCycle : Init :=
  configured [serviceSetup "a" "b" "", serviceSetup "b" "c" "", serviceSetup "c" "b" ""]

theorem strict_order_is_not_kept :
    ¬ InStrictOrder afterItself (orderServices afterItself).2 ∧
      ¬ InStrictOrder afterNine (orderServices afterNine).2 ∧
      ¬ InStrictOrder requiresOnce (orderServices requiresOnce).2 ∧
      ¬ InStrictOrder afterCycle (orderServices afterCycle).2 := by
  refine ⟨fun h => ?_, fun h => ?_, fun h => ?_, fun h => ?_⟩
  · have ha : Service afterItself 0 := ⟨by decide, rfl⟩
    obtain ⟨a, b, ha, hb, hlt⟩ := h.sorted 0 ha (by decide +kernel) 0
      ⟨ha, ha, ascii "a", by decide +kernel, by decide +kernel⟩
    rw [ha] at hb
    exact absurd (Option.some.inj hb) (ne_of_gt hlt)
  · have hz : Service afterNine 8 := ⟨by decide, rfl⟩
    obtain ⟨a, b, ha, hb, hlt⟩ := h.sorted 8 hz (by decide +kernel) 9
      ⟨hz, ⟨by decide, rfl⟩, ascii "i", by decide +kernel, by decide +kernel⟩
    have ha0 : ((orderServices afterNine).2.unit 8).order = some 8 := by decide +kernel
    have hb0 : ((orderServices afterNine).2.unit 9).order = some 9 := by decide +kernel
    have ha := Option.some.inj (ha.symm.trans ha0)
    have hb := Option.some.inj (hb.symm.trans hb0)
    omega
  · have hnames : ∀ dep ∈ depNames (requiresOnce.unit 0).config.requires,
        ¬ (findUnit requiresOnce dep = none ∨ findUnit requiresOnce dep = some 0) := by
      decide +kernel
    obtain hbefore | ⟨dep, hdep, hfind⟩ | hloop :=
      h.failed 0 ⟨by decide, rfl⟩ (by decide +kernel)
    · exact absurd hbefore (by decide +kernel)
    · exact hnames dep hdep hfind
    · exact not_on_cycle (by decide +kernel) hloop
  · have hnames : depNames (afterCycle.unit 0).config.requires = [] := by decide +kernel
    obtain hbefore | ⟨dep, hdep, -⟩ | hloop := h.failed 0 ⟨by decide, rfl⟩ (by decide +kernel)
    · exact absurd hbefore (by decide +kernel)
    · rw [hnames] at hdep
      cases hdep
    · exact not_on_cycle (by decide +kernel) hloop

end KestrelOS.Supervisor
