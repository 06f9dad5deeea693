import Mathlib.Tactic.Common

/-!
# Programs of a block transaction

A mutator of a journaled block store reads blocks, stages new contents for them, and edits a small
in-memory record. `TxProg` is the tree of such a program and `TxProg.wp` its weakest precondition.
A read of a staged block returns what was staged; what any other read may return is given by a
relation `may`. A stage that overflows the journal has no continuation in `wp`: the transaction can
no longer commit. `ignore` does nothing; it marks where a program goes on after a failure, and where
reads may fail, `wp` promises nothing from there on either.
-/

namespace KestrelOS

inductive TxProg (Blk Mem : Type) (α : Type) : Type
  | done (a : α) : TxProg Blk Mem α
  | read (b : Nat) (k : Option Blk → TxProg Blk Mem α) : TxProg Blk Mem α
  | stage (b : Nat) (d : Blk) (k : Bool → TxProg Blk Mem α) : TxProg Blk Mem α
  | load (k : Mem → TxProg Blk Mem α) : TxProg Blk Mem α
  | store (m : Mem) (k : TxProg Blk Mem α) : TxProg Blk Mem α
  | live (k : Bool → TxProg Blk Mem α) : TxProg Blk Mem α
  | ignore (k : TxProg Blk Mem α) : TxProg Blk Mem α

/-- What a read of a block with given contents may return, and whether reads fail at all. -/
structure ReadRule (Blk : Type) where
  may : Nat → Blk → Option Blk → Prop
  fallible : Prop

instance {Blk : Type} : CoeFun (ReadRule Blk) fun _ => Nat → Blk → Option Blk → Prop :=
  ⟨ReadRule.may⟩

/-- A read of block `b` returns its contents, or fails where reads do. -/
def ReadRule.Honest {Blk : Type} (may : ReadRule Blk) (b : Nat) : Prop :=
  ∀ d r, may b d r → r = some d ∨ r = none ∧ may.fallible

/-- What a running transaction sees: every block with its staged contents, which blocks are
staged, and the record. -/
structure TxView (Blk Mem : Type) where
  view : Nat → Blk
  staged : Nat → Bool
  mem : Mem

namespace TxView

variable {Blk Mem : Type}

def write (v : TxView Blk Mem) (b : Nat) (d : Blk) : TxView Blk Mem :=
  { v with
    view := fun c => if c = b then d else v.view c
    staged := fun c => decide (c = b) || v.staged c }

/-- What a read of block `b` may return. -/
def Reads (may : ReadRule Blk) (v : TxView Blk Mem) (b : Nat)
    (r : Option Blk) : Prop :=
  if v.staged b then r = some (v.view b) else may b (v.view b) r

variable {may : ReadRule Blk}

@[simp] theorem write_same (v : TxView Blk Mem) (b : Nat) (d : Blk) :
    (v.write b d).view b = d := by simp [write]

theorem write_other (v : TxView Blk Mem) (b c : Nat) (d : Blk) (h : c ≠ b) :
    (v.write b d).view c = v.view c := by simp [write, h]

theorem write_staged (v : TxView Blk Mem) (b c : Nat) (d : Blk) :
    (v.write b d).staged c = true ↔ c = b ∨ v.staged c = true := by simp [write]

variable {v : TxView Blk Mem} {b : Nat} {r : Option Blk}

theorem reads_of_honest (h : may.Honest b) (hr : v.Reads may b r) :
    r = some (v.view b) ∨ r = none ∧ may.fallible := by
  unfold Reads at hr
  split at hr
  · exact .inl hr
  · exact h _ r hr

end TxView

namespace TxProg

variable {Blk Mem α β : Type}

def bind : TxProg Blk Mem α → (α → TxProg Blk Mem β) → TxProg Blk Mem β
  | .done a, f => f a
  | .read b k, f => .read b fun r => (k r).bind f
  | .stage b d k, f => .stage b d fun r => (k r).bind f
  | .load k, f => .load fun m => (k m).bind f
  | .store m k, f => .store m (k.bind f)
  | .live k, f => .live fun l => (k l).bind f
  | .ignore k, f => .ignore (k.bind f)

instance : Monad (TxProg Blk Mem) where
  pure := .done
  bind := TxProg.bind

def wp (may : ReadRule Blk) :
    TxProg Blk Mem α → (α → TxView Blk Mem → Prop) → TxView Blk Mem → Prop
  | .done a, Q, v => Q a v
  | .read b k, Q, v => ∀ r, v.Reads may b r → wp may (k r) Q v
  | .stage b d k, Q, v => wp may (k true) Q (v.write b d)
  | .load k, Q, v => wp may (k v.mem) Q v
  | .store m k, Q, v => wp may k Q { v with mem := m }
  | .live k, Q, v => wp may (k true) Q v
  | .ignore k, Q, v => may.fallible ∨ wp may k Q v

variable {may : ReadRule Blk}

@[simp] theorem wp_pure (a : α) (Q : α → TxView Blk Mem → Prop) (v : TxView Blk Mem) :
    wp may (pure a) Q v ↔ Q a v := Iff.rfl

section
variable (p : TxProg Blk Mem α) (f : α → TxProg Blk Mem β) (Q : β → TxView Blk Mem → Prop)
  (v : TxView Blk Mem)
include p f Q v

private theorem wp_bind' : wp may (p.bind f) Q v ↔ wp may p (fun a w => wp may (f a) Q w) v := by
  induction p generalizing v with
  | done a => rfl
  | read b k ih => simp only [TxProg.bind, wp, ih]
  | stage b d k ih => simp only [TxProg.bind, wp, ih]
  | load k ih => simp only [TxProg.bind, wp, ih]
  | store m k ih => simp only [TxProg.bind, wp, ih]
  | live k ih => simp only [TxProg.bind, wp, ih]
  | ignore k ih => simp only [TxProg.bind, wp, ih]

@[simp] theorem wp_bind : wp may (p >>= f) Q v ↔ wp may p (fun a w => wp may (f a) Q w) v :=
  wp_bind' p f Q v

end

theorem wp_mono (p : TxProg Blk Mem α) {Q R : α → TxView Blk Mem → Prop} {v : TxView Blk Mem}
    (h : wp may p Q v) (hQR : ∀ a w, Q a w → R a w) : wp may p R v := by
  induction p generalizing v with
  | done a => exact hQR a v h
  | read b k ih => exact fun r hr => ih r (h r hr)
  | stage b d k ih => exact ih true h
  | load k ih => exact ih _ h
  | store m k ih => exact ih h
  | live k ih => exact ih true h
  | ignore k ih => exact h.imp id ih

theorem wp_trivial (p : TxProg Blk Mem α) {Q : α → TxView Blk Mem → Prop} (v : TxView Blk Mem)
    (hQ : ∀ a w, Q a w) : wp may p Q v := by
  induction p generalizing v with
  | done a => exact hQ a v
  | read b k ih => exact fun r _ => ih r v
  | stage b d k ih => exact ih true _
  | load k ih => exact ih _ v
  | store m k ih => exact ih _
  | live k ih => exact ih true v
  | ignore k ih => exact .inr (ih v)

/-- Every record the program stores satisfies `I`, if those it loads do. -/
def Keeps (I : Mem → Prop) : TxProg Blk Mem α → Prop
  | .done _ => True
  | .read _ k => ∀ r, (k r).Keeps I
  | .stage _ _ k => ∀ r, (k r).Keeps I
  | .load k => ∀ m, I m → (k m).Keeps I
  | .store m k => I m ∧ k.Keeps I
  | .live k => ∀ l, (k l).Keeps I
  | .ignore k => k.Keeps I

variable {I : Mem → Prop}

@[grind ←] theorem Keeps.pure (a : α) : (Pure.pure a : TxProg Blk Mem α).Keeps I := trivial

variable {p : TxProg Blk Mem α} {f : α → TxProg Blk Mem β}

private theorem Keeps.bind' (hp : p.Keeps I) (hf : ∀ a, (f a).Keeps I) :
    (TxProg.bind p f).Keeps I := by
  induction p with
  | done a => exact hf a
  | read b k ih => exact fun r => ih r (hp r)
  | stage b d k ih => exact fun r => ih r (hp r)
  | load k ih => exact fun m hm => ih m (hp m hm)
  | store m k ih => exact ⟨hp.1, ih hp.2⟩
  | live k ih => exact fun l => ih l (hp l)
  | ignore k ih => exact ih hp

@[grind ←] theorem Keeps.bind (hp : p.Keeps I) (hf : ∀ a, (f a).Keeps I) :
    (p >>= f).Keeps I := Keeps.bind' hp hf

def NoWrites : TxProg Blk Mem α → Prop
  | .done _ => True
  | .read _ k => ∀ r, (k r).NoWrites
  | .stage .. => False
  | .load k => ∀ m, (k m).NoWrites
  | .store .. => False
  | .live k => ∀ l, (k l).NoWrites
  | .ignore _ => False

@[grind ←] theorem NoWrites.pure (a : α) : (Pure.pure a : TxProg Blk Mem α).NoWrites := trivial

@[grind ←] theorem NoWrites.bind (hp : p.NoWrites) (hf : ∀ a, (f a).NoWrites) :
    (p >>= f).NoWrites := by
  change (TxProg.bind p f).NoWrites
  induction p with
  | done a => exact hf a
  | read b k ih => exact fun r => ih r (hp r)
  | stage b d k _ => exact hp.elim
  | load k ih => exact fun m => ih m (hp m)
  | store m k _ => exact hp.elim
  | live k ih => exact fun l => ih l (hp l)
  | ignore k _ => exact hp.elim

theorem NoWrites.keeps (hp : p.NoWrites) : p.Keeps I := by
  induction p with
  | done a => trivial
  | read b k ih => exact fun r => ih r (hp r)
  | stage b d k _ => exact hp.elim
  | load k ih => exact fun m _ => ih m (hp m)
  | store m k _ => exact hp.elim
  | live k ih => exact fun l => ih l (hp l)
  | ignore k _ => exact hp.elim

theorem NoWrites.wp (hp : p.NoWrites) {Q : α → TxView Blk Mem → Prop} {v : TxView Blk Mem}
    (hQ : ∀ a, Q a v) : p.wp may Q v := by
  induction p with
  | done a => exact hQ a
  | read b k ih => exact fun r _ => ih r (hp r)
  | stage b d k _ => exact hp.elim
  | load k ih => exact ih _ (hp _)
  | store m k _ => exact hp.elim
  | live k ih => exact ih true (hp true)
  | ignore k _ => exact hp.elim

/-- Whatever its reads return, the program reads blocks in `R` only and stages what `W` allows, and
it ends with `Q` of its result and the record. -/
def within (R : Nat → Prop) (W : Nat → Blk → Prop) :
    TxProg Blk Mem α → (α → Mem → Prop) → Mem → Prop
  | .done a, Q, m => Q a m
  | .read b k, Q, m => R b ∧ ∀ r, within R W (k r) Q m
  | .stage b d k, Q, m => W b d ∧ ∀ r, within R W (k r) Q m
  | .load k, Q, m => within R W (k m) Q m
  | .store m k, Q, _ => within R W k Q m
  | .live k, Q, m => ∀ l, within R W (k l) Q m
  | .ignore k, Q, m => within R W k Q m

section Within

variable {R : Nat → Prop} {W : Nat → Blk → Prop}

@[simp] theorem within_pure (a : α) (Q : α → Mem → Prop) (m : Mem) :
    within R W (Pure.pure a : TxProg Blk Mem α) Q m ↔ Q a m := Iff.rfl

@[simp] theorem within_bind (p : TxProg Blk Mem α) (f : α → TxProg Blk Mem β) (Q : β → Mem → Prop)
    (m : Mem) : within R W (p >>= f) Q m ↔ within R W p (fun a => within R W (f a) Q) m := by
  change within R W (TxProg.bind p f) Q m ↔ _
  induction p generalizing m with
  | done a => exact Iff.rfl
  | read b k ih => exact and_congr_right fun _ => forall_congr' fun r => ih r m
  | stage b d k ih => exact and_congr_right fun _ => forall_congr' fun r => ih r m
  | load k ih => exact ih m m
  | store m' k ih => exact ih m'
  | live k ih => exact forall_congr' fun l => ih l m
  | ignore k ih => exact ih m

end Within

end TxProg
end KestrelOS
