import Mathlib.Logic.Relation
import Mathlib.Tactic.Common

/-!
# Directory trees

Directories hold entries in numbered slots, two of them with reserved names. The other entries are
the edges of a tree that reaches every node from the root. New nodes are added as leaves, and only
leaves are removed.
-/

namespace KestrelOS

section Tree

variable {N S : Type}

/-- `edge d k n`: slot `k` of node `d` leads to node `n`. -/
structure RootedTree (live : N → Prop) (root : N) (edge : N → S → N → Prop) : Prop where
  root_live : live root
  source : ∀ d k n, edge d k n → live d
  target : ∀ d k n, edge d k n → live n
  not_root : ∀ d k, ¬ edge d k root
  single : ∀ d k d' k' n, edge d k n → edge d' k' n → d = d' ∧ k = k'
  reach : ∀ n, live n → Relation.ReflTransGen (fun a b => ∃ k, edge a k b) root n

variable {live live' : N → Prop} {root : N} {edge edge' : N → S → N → Prop}

private theorem RootedTree.congr (h : RootedTree live root edge) (hl : ∀ m, live' m ↔ live m)
    (he : ∀ a j b, edge' a j b ↔ edge a j b) : RootedTree live' root edge' := by
  obtain rfl : live' = live := funext fun m => propext (hl m)
  obtain rfl : edge' = edge := funext fun a => funext fun j => funext fun b => propext (he a j b)
  exact h

private theorem RootedTree.insert (h : RootedTree live root edge) {d n : N} {k : S} (hd : live d)
    (hn : ¬ live n) :
    RootedTree (fun m => live m ∨ m = n) root
      (fun a j b => edge a j b ∨ a = d ∧ j = k ∧ b = n) where
  root_live := Or.inl h.root_live
  source := by
    rintro a j b (he | ⟨rfl, -, -⟩)
    · exact .inl (h.source a j b he)
    · exact .inl hd
  target := by
    rintro a j b (he | ⟨-, -, rfl⟩)
    · exact .inl (h.target a j b he)
    · exact .inr rfl
  not_root := by
    rintro a j (he | ⟨-, -, rfl⟩)
    · exact h.not_root a j he
    · exact hn h.root_live
  single := by
    rintro a j a' j' b (he | ⟨rfl, rfl, rfl⟩) (he' | ⟨rfl, rfl, hb⟩)
    · exact h.single a j a' j' b he he'
    · exact absurd (h.target a j b he) (hb ▸ hn)
    · exact absurd (h.target a' j' b he') hn
    · exact ⟨rfl, rfl⟩
  reach := by
    have hold : ∀ m, live m → Relation.ReflTransGen
        (fun a b => ∃ j, edge a j b ∨ a = d ∧ j = k ∧ b = n) root m := fun m hm =>
      (h.reach m hm).lift id fun a b ⟨j, he⟩ => ⟨j, .inl he⟩
    rintro m (hm | rfl)
    · exact hold m hm
    · exact (hold d hd).tail ⟨k, .inr ⟨rfl, rfl, rfl⟩⟩

private theorem RootedTree.erase (h : RootedTree live root edge) {d n : N} {k : S}
    (hdn : edge d k n) (hleaf : ∀ j m, ¬ edge n j m) :
    RootedTree (fun m => live m ∧ m ≠ n) root (fun a j b => edge a j b ∧ b ≠ n) where
  root_live := ⟨h.root_live, fun he => h.not_root d k (he ▸ hdn)⟩
  source := fun a j b he => ⟨h.source a j b he.1, fun ha => hleaf j b (ha ▸ he.1)⟩
  target := fun a j b he => ⟨h.target a j b he.1, he.2⟩
  not_root := fun a j he => h.not_root a j he.1
  single := fun a j a' j' b he he' => h.single a j a' j' b he.1 he'.1
  reach := by
    -- a path to another node does not pass through `n`, which has no edges
    have hpath : ∀ m, Relation.ReflTransGen (fun a b => ∃ j, edge a j b) root m → m ≠ n →
        Relation.ReflTransGen (fun a b => ∃ j, edge a j b ∧ b ≠ n) root m := by
      intro m hm
      induction hm with
      | refl => exact fun _ => .refl
      | tail _ hstep ih =>
        obtain ⟨j, he⟩ := hstep
        intro hne
        exact (ih fun ha => hleaf j _ (ha ▸ he)).tail ⟨j, he, hne⟩
    exact fun m hm => hpath m (h.reach m hm.1) hm.2

end Tree

inductive NodeKind
  | free
  | file
  | dir
  deriving DecidableEq

@[ext] structure DirTree (I S Name : Type) where
  kind : I → NodeKind
  entry : I → S → Option (Name × I)

namespace DirTree

variable {I S Name : Type} {dot dotDot : Name} {root : I} {t : DirTree I S Name}

def Edge (dot dotDot : Name) (t : DirTree I S Name) (d : I) (k : S) (n : I) : Prop :=
  ∃ name, t.entry d k = some (name, n) ∧ name ≠ dot ∧ name ≠ dotDot

/-- Every allocated node has exactly one edge, from a node that the root reaches, and the root has
none. Names are distinct in each directory; every directory has an entry `dot` for itself and an
entry `dotDot` for its parent; no entry leads to a free node. -/
structure WellFormed (dot dotDot : Name) (root : I) (t : DirTree I S Name) : Prop where
  rootDir : t.kind root = .dir
  tree : RootedTree (fun n => t.kind n ≠ .free) root (t.Edge dot dotDot)
  within : ∀ d k e, t.entry d k = some e → t.kind d = .dir
  target : ∀ d k name n, t.entry d k = some (name, n) → t.kind n ≠ .free
  distinct : ∀ d k k' name n n', t.entry d k = some (name, n) → t.entry d k' = some (name, n') →
    k = k'
  self : ∀ d, t.kind d = .dir → ∃ k, t.entry d k = some (dot, d)
  parent : ∀ d, t.kind d = .dir → ∃ k p, t.entry d k = some (dotDot, p) ∧
    (d = root ∧ p = root ∨ ∃ k', t.Edge dot dotDot p k' d)

variable {d : I} {name : Name} {t' : DirTree I S Name} {k : S}

private theorem WellFormed.not_reserved (h : WellFormed dot dotDot root t) (hd : t.kind d = .dir)
    (hname : ∀ j m, t.entry d j ≠ some (name, m)) : name ≠ dot ∧ name ≠ dotDot := by
  obtain ⟨k, hk⟩ := h.self d hd
  obtain ⟨k', p, hk', -⟩ := h.parent d hd
  exact ⟨fun he => hname k d (he ▸ hk), fun he => hname k' p (he ▸ hk')⟩

private theorem WellFormed.entry_of_free (h : WellFormed dot dotDot root t) (hd : t.kind d = .free)
    (j : S) :
    t.entry d j = none := by
  by_contra hne
  obtain ⟨e, he⟩ := Option.ne_none_iff_exists'.mp hne
  simp [h.within d j e he] at hd

def alone [DecidableEq I] [DecidableEq S] (dot dotDot : Name) (root : I) (k k' : S) :
    DirTree I S Name where
  kind n := if n = root then .dir else .free
  entry d j :=
    if d = root then if j = k then some (dot, root) else if j = k' then some (dotDot, root)
      else none
    else none

theorem alone_wellFormed [DecidableEq I] [DecidableEq S] (hres : dot ≠ dotDot) {k' : S}
    (hk : k ≠ k') :
    WellFormed dot dotDot root (alone dot dotDot root k k') := by
  have hedge : ∀ d j n, ¬ (alone dot dotDot root k k').Edge dot dotDot d j n := by
    rintro d j n ⟨name, he, hname⟩
    grind [alone]
  refine ⟨if_pos rfl, ⟨by simp [alone], ?_, ?_, fun d j => hedge d j root, ?_, fun n hn => ?_⟩, ?_,
    ?_, ?_, fun d hd => ⟨k, ?_⟩, fun d hd => ⟨k', root, ?_, .inl ⟨?_, rfl⟩⟩⟩
  · exact fun d j n he => absurd he (hedge d j n)
  · exact fun d j n he => absurd he (hedge d j n)
  · exact fun d j _ _ n he => absurd he (hedge d j n)
  · obtain rfl : n = root := by simpa [alone] using hn
    exact .refl
  all_goals grind [alone]

/-- `t'` has a new node `n` under `name` in slot `k` of directory `d`, with no other entries than
the reserved ones. -/
structure Grown (dot dotDot : Name) (t t' : DirTree I S Name) (d : I) (k : S) (name : Name)
    (n : I) :
    Prop where
  live : t'.kind n ≠ .free
  kinds : ∀ m, m ≠ n → t'.kind m = t.kind m
  new : t'.entry d k = some (name, n)
  others : ∀ a j, a ≠ n → ¬ (a = d ∧ j = k) → t'.entry a j = t.entry a j
  own : ∀ j e, t'.entry n j = some e → t'.kind n = .dir ∧ (e = (dot, n) ∨ e = (dotDot, d))
  self : t'.kind n = .dir → ∃ j, t'.entry n j = some (dot, n)
  parent : t'.kind n = .dir → ∃ j, t'.entry n j = some (dotDot, d)
  distinct : ∀ j j' nm m m', t'.entry n j = some (nm, m) → t'.entry n j' = some (nm, m') → j = j'

private theorem WellFormed.grow (h : WellFormed dot dotDot root t) {n : I} (hd : t.kind d = .dir)
    (hn : t.kind n = .free) (hk : t.entry d k = none) (hname : ∀ j m, t.entry d j ≠ some (name, m))
    (hg : Grown dot dotDot t t' d k name n) : WellFormed dot dotDot root t' := by
  obtain ⟨hdot, hdotDot⟩ := h.not_reserved hd hname
  obtain ⟨hlive, hkinds, hnew, hothers, hown, hself, hparent, hdistinct⟩ := hg
  have hwithin := h.within
  have hold : ∀ a j e, t.entry a j = some e → t'.entry a j = some e := by
    intro a j e he
    by_cases ha : a = n <;> by_cases hat : a = d ∧ j = k <;> grind
  have hcases : ∀ a j e, t'.entry a j = some e →
      t.entry a j = some e ∨ (a = d ∧ j = k ∧ e = (name, n)) ∨ a = n := by
    intro a j e he
    by_cases ha : a = n <;> by_cases hat : a = d ∧ j = k <;> grind
  have hedge : ∀ a j b, t'.Edge dot dotDot a j b ↔
      t.Edge dot dotDot a j b ∨ a = d ∧ j = k ∧ b = n := by
    intro a j b
    constructor
    · rintro ⟨nm, he, hnm⟩
      rcases hcases a j _ he with hold' | ⟨ha, hj, heq⟩ | rfl
      · exact .inl ⟨nm, hold', hnm⟩
      · exact .inr ⟨ha, hj, congrArg Prod.snd heq⟩
      · -- the entries of the new node are reserved
        grind
    · rintro (⟨nm, he, hnm⟩ | ⟨rfl, rfl, rfl⟩)
      · exact ⟨nm, hold a j _ he, hnm⟩
      · exact ⟨name, hnew, hdot, hdotDot⟩
  refine ⟨by grind [h.rootDir], ?_, by grind, ?_, ?_, ?_, ?_⟩
  · refine (h.tree.insert (by simp [hd]) (by simp [hn])).congr (fun m => ?_) hedge
    grind
  · have htarget := h.target
    grind
  · have hdistinct' := h.distinct
    grind
  · intro a ha
    by_cases hne : a = n
    · exact hne ▸ hself (hne ▸ ha)
    · obtain ⟨j, he⟩ := h.self a (hkinds a hne ▸ ha)
      exact ⟨j, hold a j _ he⟩
  · intro a ha
    by_cases hne : a = n
    · obtain ⟨j, he⟩ := hparent (hne ▸ ha)
      exact ⟨j, d, hne ▸ he, .inr ⟨k, (hedge d k a).mpr (.inr ⟨rfl, rfl, hne⟩)⟩⟩
    · obtain ⟨j, p, he, hp⟩ := h.parent a (hkinds a hne ▸ ha)
      exact ⟨j, p, hold a j _ he, hp.imp id fun ⟨k', hk'⟩ => ⟨k', (hedge p k' a).mpr (.inl hk')⟩⟩

/-- `t'` has lost node `n` and its entry in slot `k` of directory `d`. -/
structure Pruned (t t' : DirTree I S Name) (d : I) (k : S) (n : I) : Prop where
  gone : t'.kind n = .free
  kinds : ∀ m, m ≠ n → t'.kind m = t.kind m
  empty : ∀ j, t'.entry n j = none
  removed : t'.entry d k = none
  others : ∀ a j, a ≠ n → ¬ (a = d ∧ j = k) → t'.entry a j = t.entry a j

private theorem WellFormed.prune (h : WellFormed dot dotDot root t) {n : I}
    (hdn : t.Edge dot dotDot d k n)
    (hleaf : ∀ j nm m, t.entry n j = some (nm, m) → nm = dot ∨ nm = dotDot)
    (hp : Pruned t t' d k n) :
    WellFormed dot dotDot root t' := by
  obtain ⟨hgone, hkinds, hempty, hremoved, hothers⟩ := hp
  have hwithin := h.within
  have hdistinct := h.distinct
  have hsingle := h.tree.single
  have hroot : root ≠ n := fun he => h.tree.not_root d k (he ▸ hdn)
  have hnoEdge : ∀ j m, ¬ t.Edge dot dotDot n j m := by grind [Edge]
  have hcases : ∀ a j e, t'.entry a j = some e →
      a ≠ n ∧ ¬ (a = d ∧ j = k) ∧ t.entry a j = some e := by
    intro a j e he
    by_cases ha : a = n <;> by_cases hat : a = d ∧ j = k <;> grind
  have hkept : ∀ a j nm m, a ≠ n → m ≠ n → t.entry a j = some (nm, m) →
      t'.entry a j = some (nm, m) := by
    obtain ⟨name, hent, -⟩ := hdn
    grind
  have hedge : ∀ a j b, t'.Edge dot dotDot a j b ↔ t.Edge dot dotDot a j b ∧ b ≠ n := by
    intro a j b
    constructor
    · rintro ⟨nm, he, hnm⟩
      obtain ⟨-, hat, hold⟩ := hcases a j _ he
      refine ⟨⟨nm, hold, hnm⟩, ?_⟩
      rintro rfl
      exact hat (hsingle a j d k b ⟨nm, hold, hnm⟩ hdn)
    · rintro ⟨⟨nm, he, hnm⟩, hb⟩
      exact ⟨nm, hkept a j nm b (fun ha => hnoEdge j b (ha ▸ ⟨nm, he, hnm⟩)) hb he, hnm⟩
  have hparent : ∀ a, a ≠ n → t.kind a = .dir → ∃ k p, p ≠ n ∧ t.entry a k = some (dotDot, p) ∧
      (a = root ∧ p = root ∨ ∃ k', t.Edge dot dotDot p k' a) := by
    intro a _ ha
    obtain ⟨j, p, he, hup⟩ := h.parent a ha
    exact ⟨j, p, by grind, he, hup⟩
  refine ⟨by grind [h.rootDir], ?_, by grind, fun a j nm m he => ?_, by grind, ?_, ?_⟩
  · refine (h.tree.erase hdn hnoEdge).congr (fun m => ?_) hedge
    grind
  · obtain ⟨ha, hat, hold⟩ := hcases a j _ he
    have hm : m ≠ n := by
      -- only the removed entry and the node's own entries lead to it
      rintro rfl
      obtain ⟨j0, hdot⟩ := h.self a (hwithin a j _ hold)
      obtain ⟨j1, p, hp, hdotDot, -⟩ := hparent a ha (hwithin a j _ hold)
      by_cases hnm : nm ≠ dot ∧ nm ≠ dotDot
      · exact hat (hsingle a j d k m ⟨nm, hold, hnm⟩ hdn)
      · grind
    rw [hkinds m hm]
    exact h.target a j nm m hold
  · intro a ha
    have hne : a ≠ n := by grind
    obtain ⟨j, he⟩ := h.self a (hkinds a hne ▸ ha)
    exact ⟨j, hkept a j _ a hne hne he⟩
  · intro a ha
    have hne : a ≠ n := by grind
    obtain ⟨j, p, hpn, he, hp⟩ := hparent a hne (hkinds a hne ▸ ha)
    exact ⟨j, p, hkept a j _ p hne hpn he,
      hp.imp id fun ⟨k', hk'⟩ => ⟨k', (hedge p k' a).mpr ⟨hk', hne⟩⟩⟩

section Update

variable [DecidableEq I] [DecidableEq S]

@[simps] def setKind (t : DirTree I S Name) (n : I) (kind : NodeKind) : DirTree I S Name :=
  { t with kind := fun m => if m = n then kind else t.kind m }

@[simps] def setEntry (t : DirTree I S Name) (d : I) (k : S) (e : Option (Name × I)) :
    DirTree I S Name :=
  { t with entry := fun a j => if a = d ∧ j = k then e else t.entry a j }

@[simps] def clear (t : DirTree I S Name) (n : I) : DirTree I S Name :=
  { t with entry := fun a j => if a = n then none else t.entry a j }

def addFile (t : DirTree I S Name) (d : I) (k : S) (name : Name) (n : I) : DirTree I S Name :=
  (t.setKind n .file).setEntry d k (some (name, n))

def addDir (dot dotDot : Name) (t : DirTree I S Name) (d : I) (k : S) (name : Name) (n : I)
    (k0 k1 : S) : DirTree I S Name :=
  (((t.setKind n .dir).setEntry n k0 (some (dot, n))).setEntry n k1 (some (dotDot, d))).setEntry d k
    (some (name, n))

def remove (t : DirTree I S Name) (d : I) (k : S) (n : I) : DirTree I S Name :=
  ((t.setEntry d k none).clear n).setKind n .free

variable {d : I} {k : S} {name : Name}

theorem WellFormed.addFile (h : WellFormed dot dotDot root t) {n : I} (hd : t.kind d = .dir)
    (hn : t.kind n = .free) (hk : t.entry d k = none)
    (hname : ∀ j m, t.entry d j ≠ some (name, m)) :
    WellFormed dot dotDot root (t.addFile d k name n) := by
  have hdn : n ≠ d := by
    rintro rfl
    simp [hd] at hn
  have hnone := h.entry_of_free hn
  refine h.grow hd hn hk hname ⟨?_, ?_, ?_, ?_, ?_, ?_, ?_, ?_⟩ <;>
    simp +contextual [DirTree.addFile, hdn, hnone]

theorem WellFormed.addDir (h : WellFormed dot dotDot root t) (hres : dot ≠ dotDot) {n : I}
    {k0 k1 : S} (hd : t.kind d = .dir) (hn : t.kind n = .free) (hk : t.entry d k = none)
    (hname : ∀ j m, t.entry d j ≠ some (name, m)) (hk01 : k0 ≠ k1) :
    WellFormed dot dotDot root (t.addDir dot dotDot d k name n k0 k1) := by
  have hdn : n ≠ d := by
    rintro rfl
    simp [hd] at hn
  have hnone := h.entry_of_free hn
  have hown : ∀ j, (t.addDir dot dotDot d k name n k0 k1).entry n j =
      if j = k1 then some (dotDot, d) else if j = k0 then some (dot, n) else none := by
    intro j
    simp [DirTree.addDir, hdn, hnone]
  refine h.grow hd hn hk hname ⟨?_, ?_, ?_, ?_, ?_, ?_, ?_, ?_⟩
  · simp [DirTree.addDir]
  · intro m hm
    simp [DirTree.addDir, hm]
  · simp [DirTree.addDir]
  · intro a j ha hat
    simp [DirTree.addDir, ha, hat]
  · intro j e he
    refine ⟨by simp [DirTree.addDir], ?_⟩
    rw [hown] at he
    split at he
    · exact .inr (Option.some.inj he).symm
    split at he
    · exact .inl (Option.some.inj he).symm
    · simp at he
  · exact fun _ => ⟨k0, by rw [hown, if_neg hk01, if_pos rfl]⟩
  · exact fun _ => ⟨k1, by rw [hown, if_pos rfl]⟩
  · intro j j' nm m m' he he'
    rw [hown] at he he'
    split at he <;> split at he' <;> grind

theorem WellFormed.remove (h : WellFormed dot dotDot root t) {n : I} (hdn : t.Edge dot dotDot d k n)
    (hleaf : ∀ j nm m, t.entry n j = some (nm, m) → nm = dot ∨ nm = dotDot) :
    WellFormed dot dotDot root (t.remove d k n) := by
  refine h.prune hdn hleaf ⟨?_, ?_, ?_, ?_, ?_⟩ <;> simp +contextual [DirTree.remove]

end Update

end DirTree
end KestrelOS
