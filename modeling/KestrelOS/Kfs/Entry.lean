import KestrelOS.Kfs.Journal
import KestrelOS.Kfs.Namei

/-!
# Entry points

`exec` runs a program of the layer below on the driver state. A mutating entry point wraps one
program in a transaction, and `exec_wp` transfers what `TxProg.wp` says of the program.
-/

namespace KestrelOS.Kfs

open List

variable {α : Type}

def setMem (s : Driver) (fs : InstId) (m : KfsMem) : Driver :=
  { setSb s fs m.sb with sbBlock := m.sbBlock }

def exec (fs : InstId) : TxProg Block KfsMem α → Driver → α × Driver
  | .done a, s => (a, s)
  | .read b k, s => exec fs (k (bread fs b s).1) (bread fs b s).2
  | .stage b d k, s => exec fs (k (journalStage fs b d s).1) (journalStage fs b d s).2
  | .load k, s => exec fs (k ⟨(s.instances fs).sb, s.sbBlock⟩) s
  | .store m k, s => exec fs k (setMem s fs m)
  | .live k, s => exec fs (k (s.instances fs).mounted) s
  | .ignore k, s => exec fs k s

/-- The run goes on after a failure that it does not look at. -/
def ignores (fs : InstId) : TxProg Block KfsMem α → Driver → Bool
  | .done _, _ => false
  | .read b k, s => ignores fs (k (bread fs b s).1) (bread fs b s).2
  | .stage b d k, s => ignores fs (k (journalStage fs b d s).1) (journalStage fs b d s).2
  | .load k, s => ignores fs (k ⟨(s.instances fs).sb, s.sbBlock⟩) s
  | .store m k, s => ignores fs k (setMem s fs m)
  | .live k, s => ignores fs (k (s.instances fs).mounted) s
  | .ignore _, _ => true

/-- A transaction around `body`: it commits when `ok` accepts the result and aborts otherwise. -/
def transact (fs : InstId) (body : Tx Int) (ok : Int → Bool) (s : Driver) : Int × Driver :=
  let r :=
    if (s.instances fs).mounted then
      match journalBegin fs s with
      | (true, s) => exec fs body s
      | (false, s) => (-1, s)
    else (-1, s)
  if ok r.1 then
    match journalCommit fs r.2 with
    | (true, s) => (r.1, s)
    | (false, s) => (-1, s)
  else (r.1, journalAbort r.2)

def nonneg (r : Int) : Bool := decide (0 ≤ r)

def isZero (r : Int) : Bool := decide (r = 0)

/-- `none` stands for a NULL buffer. -/
def kfsWrite (fs : InstId) (ino off : UInt32) (buf : Option Bytes) (n mtime : UInt32)
    (s : Driver) : Int × Driver :=
  match buf with
  | none => (-1, s)
  | some buf =>
    if (s.instances fs).mounted then
      transact fs (writeLocked ino.toNat off.toNat buf n.toNat mtime.toNat) nonneg s
    else (-1, s)

def kfsCreate (fs : InstId) (path : Option CString) (mode : UInt16) (uid gid mtime : UInt32)
    (s : Driver) : Int × Driver :=
  transact fs (createLocked path mode.toNat uid.toNat gid.toNat mtime.toNat) nonneg s

def kfsMkdir (fs : InstId) (path : Option CString) (mode : UInt16) (uid gid mtime : UInt32)
    (s : Driver) : Int × Driver :=
  transact fs (mkdirLocked path mode.toNat uid.toNat gid.toNat mtime.toNat) isZero s

def kfsUnlink (fs : InstId) (path : Option CString) (mtime : UInt32) (s : Driver) : Int × Driver :=
  transact fs (unlinkLocked path mtime.toNat) isZero s

def kfsTruncate (fs : InstId) (ino mtime : UInt32) (s : Driver) : Int × Driver :=
  transact fs (truncateLocked ino.toNat mtime.toNat) isZero s

def kfsChmod (fs : InstId) (ino : UInt32) (mode : UInt16) (mtime : UInt32) (s : Driver) :
    Int × Driver :=
  transact fs (chmodLocked ino.toNat mode.toNat mtime.toNat) isZero s

def kfsChown (fs : InstId) (ino uid gid mtime : UInt32) (s : Driver) : Int × Driver :=
  transact fs (chownLocked ino.toNat uid.toNat gid.toNat mtime.toNat) isZero s

inductive KfsCall
  | write (ino off : UInt32) (buf : Option Bytes) (n mtime : UInt32)
  | create (path : Option CString) (mode : UInt16) (uid gid mtime : UInt32)
  | mkdir (path : Option CString) (mode : UInt16) (uid gid mtime : UInt32)
  | unlink (path : Option CString) (mtime : UInt32)
  | truncate (ino mtime : UInt32)
  | chmod (ino : UInt32) (mode : UInt16) (mtime : UInt32)
  | chown (ino uid gid mtime : UInt32)

namespace KfsCall

def run (fs : InstId) : KfsCall → Driver → Int × Driver
  | .write ino off buf n mtime => kfsWrite fs ino off buf n mtime
  | .create path mode uid gid mtime => kfsCreate fs path mode uid gid mtime
  | .mkdir path mode uid gid mtime => kfsMkdir fs path mode uid gid mtime
  | .unlink path mtime => kfsUnlink fs path mtime
  | .truncate ino mtime => kfsTruncate fs ino mtime
  | .chmod ino mode mtime => kfsChmod fs ino mode mtime
  | .chown ino uid gid mtime => kfsChown fs ino uid gid mtime

/-- The program inside the transaction; a write without a buffer never reaches one. -/
def body : KfsCall → Tx Int
  | .write ino off (some buf) n mtime => writeLocked ino.toNat off.toNat buf n.toNat mtime.toNat
  | .write _ _ none _ _ => pure (-1)
  | .create path mode uid gid mtime =>
      createLocked path mode.toNat uid.toNat gid.toNat mtime.toNat
  | .mkdir path mode uid gid mtime =>
      mkdirLocked path mode.toNat uid.toNat gid.toNat mtime.toNat
  | .unlink path mtime => unlinkLocked path mtime.toNat
  | .truncate ino mtime => truncateLocked ino.toNat mtime.toNat
  | .chmod ino mode mtime => chmodLocked ino.toNat mode.toNat mtime.toNat
  | .chown ino uid gid mtime => chownLocked ino.toNat uid.toNat gid.toNat mtime.toNat

def ok : KfsCall → Int → Bool
  | .write .. => nonneg
  | .create .. => nonneg
  | .mkdir .. => isZero
  | .unlink .. => isZero
  | .truncate .. => isZero
  | .chmod .. => isZero
  | .chown .. => isZero

theorem run_eq {fs : InstId} (c : KfsCall) (s : Driver) :
    c.run fs s = transact fs c.body c.ok s ∨ c.run fs s = (-1, s) := by
  cases c with
  | write ino off buf n mtime =>
    cases buf with
    | none => exact .inr rfl
    | some buf =>
      simp only [run, kfsWrite, body, ok]
      split
      · exact .inl rfl
      · exact .inr rfl
  | _ => exact .inl rfl

end KfsCall

def kfsIget (fs : InstId) (ino : UInt32) (s : Driver) : Option KfsInode × Driver :=
  exec fs (iget ino.toNat) s

def kfsRead (fs : InstId) (ino off : UInt32) (buf : Option Bytes) (n : UInt32) (s : Driver) :
    (Int × Bytes) × Driver :=
  match buf with
  | none => ((-1, fun _ => 0), s)
  | some buf =>
    if (s.instances fs).mounted then exec fs (readi ino.toNat off.toNat buf n.toNat) s
    else ((-1, buf), s)

def kfsLookupIn (fs : InstId) (dir : UInt32) (name : Option CString) (s : Driver) : Int × Driver :=
  match name with
  | none => (-1, s)
  | some name =>
    if (s.instances fs).mounted then
      let r := exec fs (dirLookup dir.toNat name.chars) s
      (if r.1.1 = 0 then -1 else asInt r.1.1, r.2)
    else (-1, s)

def kfsLookup (fs : InstId) (path : Option CString) (s : Driver) : Int × Driver :=
  exec fs (lookupPath path) s

def kfsReaddir (fs : InstId) (ino : UInt32) (index : Int) (s : Driver) :
    Option KfsDirent × Driver :=
  if (s.instances fs).mounted ∧ 0 ≤ index then exec fs (readdirLocked ino.toNat index.toNat) s
  else (none, s)

/-- A transaction of `fs` is running; each block is staged at most once. -/
structure InTx (fs : InstId) (s : Driver) : Prop where
  active : s.journalTx.active = true
  fs : s.journalTx.fs = some fs
  len : s.journalTx.entry.length ≤ 32
  nodup : (s.journalTx.entry.map Prod.fst).Nodup

/-- What the body of a transaction of `fs` leaves alone. -/
structure Running (fs : InstId) (s t : Driver) : Prop where
  bdev : t.bdev = s.bdev
  io : t.io = s.io
  disk : t.disk = s.disk
  others : ∀ f, f ≠ fs → t.instances f = s.instances f
  inst : t.instances fs = { s.instances fs with sb := (t.instances fs).sb }
  savedSb : t.journalTx.savedSb = s.journalTx.savedSb
  sequence : t.journalTx.sequence = s.journalTx.sequence
  failed : s.journalTx.failed = true → t.journalTx.failed = true
  uniq : CacheUniq s → CacheUniq t
  cache : ∀ f b, CacheOk s f b → CacheOk t f b

theorem Running.refl (fs : InstId) (s : Driver) : Running fs s s :=
  ⟨rfl, rfl, rfl, fun _ _ => rfl, rfl, rfl, rfl, id, id, fun _ _ => id⟩

variable {fs : InstId} {s t : Driver} {may : ReadRule Block}

theorem Running.trans {u : Driver} (h : Running fs s t) (h' : Running fs t u) : Running fs s u where
  bdev := h'.bdev.trans h.bdev
  io := h'.io.trans h.io
  disk := h'.disk.trans h.disk
  others := fun f hf => (h'.others f hf).trans (h.others f hf)
  inst := by rw [h'.inst, h.inst]
  savedSb := h'.savedSb.trans h.savedSb
  sequence := h'.sequence.trans h.sequence
  failed := fun hf => h'.failed (h.failed hf)
  uniq := fun hu => h'.uniq (h.uniq hu)
  cache := fun f b hc => h'.cache f b (h.cache f b hc)

theorem Running.home (h : Running fs s t) (f : InstId) (b : Nat) :
    Kfs.home t f b = Kfs.home s f b := by
  unfold Kfs.home KfsFs.lba
  by_cases hf : f = fs
  · subst hf
    rw [h.inst, h.disk]
  · rw [h.others f hf, h.disk]

theorem Running.readsOk (h : Running fs s t) {b : Nat} (hr : ReadsOk s fs b) : ReadsOk t fs b := by
  obtain ⟨dev, hbd, hrange, hio⟩ := hr
  refine ⟨dev, ?_, ?_, ?_⟩
  · rw [h.inst]
    exact hbd
  · rw [h.bdev, h.inst]
    exact hrange
  · rw [h.io, h.inst]
    exact hio

theorem SameButCache.running (h : SameButCache s t) (hu : CacheUniq s → CacheUniq t)
    (hc : ∀ f b, CacheOk s f b → CacheOk t f b) : Running fs s t where
  bdev := h.bdev
  io := h.io
  disk := h.disk
  others := fun f _ => congrFun h.instances f
  inst := by rw [h.instances]
  savedSb := by rw [h.journalTx]
  sequence := by rw [h.journalTx]
  failed := by
    rw [h.journalTx]
    exact id
  uniq := hu
  cache := hc

theorem bread_running (fs : InstId) (b : Nat) (s : Driver) : Running fs s (bread fs b s).2 :=
  (bread_frame fs b s).running (fun hu => bread_uniq hu fs b) fun _ _ hc => bread_cacheOk hc

def viewOf (fs : InstId) (s : Driver) : TxView Block KfsMem where
  view := seen s fs
  staged := fun b => (journalPending s fs b).isSome
  mem := ⟨(s.instances fs).sb, s.sbBlock⟩

theorem SameButCache.viewOf (h : SameButCache s t) (fs : InstId) :
    Kfs.viewOf fs t = Kfs.viewOf fs s := by
  simp only [Kfs.viewOf, TxView.mk.injEq]
  refine ⟨funext (h.seen fs), ?_, ?_⟩
  · funext b
    rw [h.pending]
  · rw [h.instances, h.sbBlock]

theorem InTx.of_tx (h : InTx fs s) (ht : t.journalTx = s.journalTx) : InTx fs t :=
  ⟨ht ▸ h.active, ht ▸ h.fs, ht ▸ h.len, ht ▸ h.nodup⟩

theorem InTx.pending (h : InTx fs s) (b : Nat) :
    journalPending s fs b = (s.journalTx.entry.find? fun e => decide (e.1 = b)).map Prod.snd := by
  simp [journalPending, h.active, h.fs]

theorem InTx.seen (h : InTx fs s) : Kfs.seen s fs = applyWrites s.journalTx.entry (home s fs) := by
  funext b
  rw [applyWrites_eq_find _ _ _ h.nodup, Kfs.seen, h.pending]

theorem replaceEntry_map (b : Nat) (d : Block) (es : List (Nat × Block)) :
    (replaceEntry b d es).map Prod.fst = es.map Prod.fst := by
  induction es with
  | nil => rfl
  | cons e es ih =>
    unfold replaceEntry
    split
    · rename_i he
      simp [he]
    · simp [ih]

theorem replaceEntry_find (b c : Nat) (d : Block) (es : List (Nat × Block))
    (h : b ∈ es.map Prod.fst) : (replaceEntry b d es).find? (fun e => decide (e.1 = c)) =
      if c = b then some (b, d) else es.find? fun e => decide (e.1 = c) := by
  induction es with
  | nil => simp at h
  | cons e es ih =>
    unfold replaceEntry
    by_cases he : e.1 = b
    · by_cases hc : c = b
      · simp [he, hc]
      · have : ¬ b = c := fun h => hc h.symm
        simp [he, hc, this]
    · simp only [map_cons, mem_cons] at h
      have hmem : b ∈ es.map Prod.fst := h.resolve_left fun h => he h.symm
      rw [if_neg he, find?_cons, find?_cons, ih hmem]
      by_cases hec : e.1 = c
      · have hcb : ¬ c = b := fun h => he (hec.trans h)
        simp [hec, hcb]
      · simp [hec]

theorem journalStage_inTx (h : InTx fs s) (b : Nat) (d : Block) :
    Running fs s (journalStage fs b d s).2 ∧ InTx fs (journalStage fs b d s).2 ∧
      ((journalStage fs b d s).1 ∧
          viewOf fs (journalStage fs b d s).2 = (viewOf fs s).write b d ∨
        (journalStage fs b d s).1 = false ∧ (journalStage fs b d s).2.journalTx.failed) := by
  have hcond : s.journalTx.active ∧ s.journalTx.fs = some fs := ⟨h.active, h.fs⟩
  -- any change to the entries only is a step of the body
  have hrun : ∀ tx : JournalTx, tx.savedSb = s.journalTx.savedSb →
      tx.sequence = s.journalTx.sequence → (s.journalTx.failed → tx.failed) →
      Running fs s { s with journalTx := tx } := fun tx h1 h2 h3 =>
    ⟨rfl, rfl, rfl, fun _ _ => rfl, rfl, h1, h2, h3, fun hu => hu, fun _ _ hc => hc⟩
  have hview : ∀ es : List (Nat × Block),
      (∀ c, es.find? (fun e => decide (e.1 = c)) = if c = b then some (b, d)
        else s.journalTx.entry.find? fun e => decide (e.1 = c)) →
      viewOf fs { s with journalTx := { s.journalTx with entry := es } } =
        (viewOf fs s).write b d := by
    intro es hes
    have hp : ∀ c, journalPending { s with journalTx := { s.journalTx with entry := es } } fs c =
        if c = b then some d else journalPending s fs c := by
      intro c
      simp only [journalPending, h.active, h.fs, and_self, if_true, hes]
      split <;> rfl
    have hhome : ∀ c, home { s with journalTx := { s.journalTx with entry := es } } fs c =
        home s fs c := fun _ => rfl
    simp only [viewOf, TxView.write, TxView.mk.injEq, and_true]
    constructor
    · funext c
      simp only [seen, hp, hhome]
      split <;> rfl
    funext c
    rw [hp]
    by_cases hc : c = b <;> simp [hc]
  unfold journalStage
  rw [if_pos hcond]
  split
  · rename_i hany
    have hmem : b ∈ s.journalTx.entry.map Prod.fst := by
      obtain ⟨e, he, heq⟩ := any_eq_true.mp hany
      exact mem_map.mpr ⟨e, he, by simpa using heq⟩
    refine ⟨hrun _ rfl rfl id, ⟨h.active, h.fs, ?_, ?_⟩, .inl ⟨rfl, hview _ ?_⟩⟩
    · have := congrArg length (replaceEntry_map b d s.journalTx.entry)
      simp only [length_map] at this
      simpa [this] using h.len
    · simpa [replaceEntry_map] using h.nodup
    · exact fun c => replaceEntry_find b c d _ hmem
  · rename_i hany
    have hnew : b ∉ s.journalTx.entry.map Prod.fst := by
      intro hmem
      obtain ⟨e, he, heq⟩ := mem_map.mp hmem
      exact hany (any_eq_true.mpr ⟨e, he, by simpa using heq⟩)
    split
    · exact ⟨hrun _ rfl rfl fun _ => rfl, ⟨h.active, h.fs, h.len, h.nodup⟩, .inr ⟨rfl, rfl⟩⟩
    rename_i hlen
    refine ⟨hrun _ rfl rfl id, ⟨h.active, h.fs, ?_, ?_⟩, .inl ⟨rfl, hview _ ?_⟩⟩
    · simp
      omega
    · rw [map_append, nodup_append]
      refine ⟨h.nodup, by simp, ?_⟩
      intro x hx y hy
      simp only [map_cons, map_nil, mem_singleton] at hy
      rintro rfl
      exact hnew (hy ▸ hx)
    · intro c
      rw [find?_append]
      by_cases hc : c = b
      · subst hc
        have hnone : s.journalTx.entry.find? (fun e => decide (e.1 = c)) = none := by
          rw [find?_eq_none]
          intro e he heq
          exact hnew (mem_map.mpr ⟨e, he, by simpa using heq⟩)
        simp [hnone]
      · have hbc : ¬ b = c := fun h => hc h.symm
        simp [hc, hbc]

theorem setMem_inTx (h : InTx fs s) (m : KfsMem) :
    Running fs s (setMem s fs m) ∧ InTx fs (setMem s fs m) ∧
      viewOf fs (setMem s fs m) = { viewOf fs s with mem := m } := by
  have hhome : ∀ f b, home (setMem s fs m) f b = home s f b := fun f b => setSb_home s fs f m.sb b
  refine ⟨⟨rfl, rfl, rfl, ?_, ?_, rfl, rfl, id, fun hu => hu, ?_⟩, ⟨h.active, h.fs, h.len, h.nodup⟩,
    ?_⟩
  · intro f hf
    simp [setMem, setSb, hf]
  · simp [setMem, setSb]
  · exact fun f b hc => hc.congr rfl (hhome f b)
  simp only [viewOf, TxView.mk.injEq]
  refine ⟨?_, rfl, ?_⟩
  · funext b
    simp only [seen, hhome]
    rfl
  · simp [setMem, setSb]

theorem exec_running (p : TxProg Block KfsMem α) (h : InTx fs s) :
    Running fs s (exec fs p s).2 ∧ InTx fs (exec fs p s).2 := by
  induction p generalizing s with
  | done a => exact ⟨.refl fs s, h⟩
  | read b k ih =>
    obtain ⟨h1, h2⟩ := ih (bread fs b s).1 (h.of_tx (bread_frame fs b s).journalTx)
    exact ⟨(bread_running fs b s).trans h1, h2⟩
  | stage b d k ih =>
    obtain ⟨hr, hin, -⟩ := journalStage_inTx h b d
    obtain ⟨h1, h2⟩ := ih (journalStage fs b d s).1 hin
    exact ⟨hr.trans h1, h2⟩
  | load k ih => exact ih _ h
  | store m k ih =>
    obtain ⟨hr, hin, -⟩ := setMem_inTx h m
    obtain ⟨h1, h2⟩ := ih hin
    exact ⟨hr.trans h1, h2⟩
  | live k ih => exact ih _ h
  | ignore k ih => exact ih h

/-- Whatever the cache and the device do, `may` allows it. -/
def Allows (may : ReadRule Block) (fs : InstId) (s : Driver) : Prop :=
  ∀ b r, (CacheOk s fs b → r = some (home s fs b) ∨ r = none ∧ ¬ ReadsOk s fs b) →
    may b (home s fs b) r

theorem Allows.running (h : Allows may fs s) (hr : Running fs s t) : Allows may fs t := by
  intro b r hbr
  rw [hr.home]
  apply h b r
  intro hc
  rcases hbr (hr.cache fs b hc) with h1 | ⟨h1, h2⟩
  · left
    rw [h1, hr.home]
  · exact .inr ⟨h1, fun hok => h2 (hr.readsOk hok)⟩

theorem bread_allowed (h : Allows may fs s) (b : Nat) :
    (viewOf fs s).Reads may b (bread fs b s).1 := by
  unfold TxView.Reads
  split
  · rename_i hst
    obtain ⟨d, hd⟩ := Option.isSome_iff_exists.mp hst
    simp [viewOf, seen, bread, hd]
  rename_i hst
  have hnone : journalPending s fs b = none := by simpa [viewOf] using hst
  have hseen : (viewOf fs s).view b = home s fs b := by simp [viewOf, seen, hnone]
  rw [hseen]
  apply h
  intro hc
  cases hr : (bread fs b s).1 with
  | some d =>
    left
    rw [bread_some hc hr]
    exact congrArg some hseen
  | none =>
    refine .inr ⟨rfl, fun hok => ?_⟩
    rw [bread_ok hc hok] at hr
    simp at hr

/-- What `wp` promises of the body holds at its end, unless the journal overflowed. -/
theorem exec_wp (p : TxProg Block KfsMem α) {Q : α → View → Prop} (hin : InTx fs s)
    (hm : (s.instances fs).mounted) (hmay : Allows may fs s)
    (hign : may.fallible → ignores fs p s = false) (hwp : p.wp may Q (viewOf fs s)) :
    (exec fs p s).2.journalTx.failed ∨ Q (exec fs p s).1 (viewOf fs (exec fs p s).2) := by
  induction p generalizing s with
  | done a => exact .inr hwp
  | read b k ih =>
    have hf := bread_frame fs b s
    have hr := bread_running fs b s
    apply ih _ (hin.of_tx hf.journalTx) _ (hmay.running hr) hign
    · rw [hf.viewOf]
      exact hwp _ (bread_allowed hmay b)
    · rw [hr.inst]
      exact hm
  | stage b d k ih =>
    obtain ⟨hr, hin', hcase⟩ := journalStage_inTx hin b d
    rcases hcase with ⟨hok, hview⟩ | ⟨-, hfail⟩
    · apply ih _ hin' _ (hmay.running hr) hign
      · rw [hok, hview]
        exact hwp
      · rw [hr.inst]
        exact hm
    · exact .inl ((exec_running (k _) hin').1.failed hfail)
  | load k ih => exact ih _ hin hm hmay hign hwp
  | store m k ih =>
    obtain ⟨hr, hin', hview⟩ := setMem_inTx hin m
    apply ih hin' _ (hmay.running hr) hign
    · rw [hview]
      exact hwp
    · rw [hr.inst]
      exact hm
  | live k ih =>
    apply ih _ hin hm hmay hign
    rw [hm]
    exact hwp
  | ignore k ih =>
    have hno : ¬ may.fallible := fun hf => by simpa [ignores] using hign hf
    exact ih hin hm hmay (fun hf => absurd hf hno) (hwp.resolve_left hno)

end KestrelOS.Kfs
