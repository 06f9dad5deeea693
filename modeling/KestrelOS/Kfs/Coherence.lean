import KestrelOS.Kfs.Instances
import KestrelOS.Kfs.Rollback

/-!
# Cache coherence

Cache slots are tagged with a slot of the instance pool, which is recycled between mounts of
different devices. The cached copies of a mounted instance agree with its own device in every run
in which no mount takes over a pool slot that some cache slot is still tagged with. The journal
region is written around the cache.
-/

namespace KestrelOS.Kfs

open List

/-- The step works for `fs`: it writes to the device of `fs` only, and a slot of the cache that it
leaves tagged was there before or holds a block of `fs` in `T`. -/
structure Touches (fs : InstId) (T : Nat → Prop) (s t : Driver) : Prop where
  others : ∀ g, g ≠ fs → t.instances g = s.instances g
  bd : (t.instances fs).bd = (s.instances fs).bd
  disk : OtherDevs fs s t
  uniq : CacheUniq s → CacheUniq t
  slots : ∀ i g, (t.bcache i).fs = some g → g = fs ∧ T (t.bcache i).blk ∨
    ∃ j, (s.bcache j).fs = some g ∧ (s.bcache j).blk = (t.bcache i).blk ∧
      (s.bcache j).data = (t.bcache i).data

section Touches

variable {fs : InstId} {T : Nat → Prop} {s t u : Driver}

namespace Touches

theorem of_bcache (ho : ∀ g, g ≠ fs → t.instances g = s.instances g)
    (hb : (t.instances fs).bd = (s.instances fs).bd) (hd : OtherDevs fs s t)
    (hc : t.bcache = s.bcache) : Touches fs T s t :=
  ⟨ho, hb, hd, fun hu => hu.of_bcache hc, fun i g hi => .inr ⟨i, by rw [← hc]; exact hi,
    by rw [hc], by rw [hc]⟩⟩

theorem refl (fs : InstId) (T : Nat → Prop) (s : Driver) : Touches fs T s s :=
  of_bcache (fun _ _ => rfl) rfl (fun _ _ => rfl) rfl

theorem trans (h : Touches fs T s t) (h' : Touches fs T t u) : Touches fs T s u where
  others := fun g hg => (h'.others g hg).trans (h.others g hg)
  bd := h'.bd.trans h.bd
  disk := h.disk.trans h.bd h'.disk
  uniq := fun hu => h'.uniq (h.uniq hu)
  slots := by
    intro i g hi
    rcases h'.slots i g hi with hT | ⟨j, hj, hjb, hjd⟩
    · exact .inl hT
    rcases h.slots j g hj with ⟨hg, hT⟩ | ⟨k, hk, hkb, hkd⟩
    · exact .inl ⟨hg, hjb ▸ hT⟩
    · exact .inr ⟨k, hk, hkb.trans hjb, hkd.trans hjd⟩

theorem home (h : Touches fs T s t) {g : InstId} (hg : g ≠ fs)
    (hbd : (s.instances g).bd ≠ (s.instances fs).bd) (b : Nat) :
    Kfs.home t g b = Kfs.home s g b := by
  unfold Kfs.home
  rw [h.others g hg]
  cases hdev : (s.instances g).bd with
  | none => rfl
  | some dev =>
    have hdisk : t.disk dev = s.disk dev := h.disk dev fun hfs => hbd (hdev.trans hfs.symm)
    simp only [hdisk]

theorem cacheOk (h : Touches fs T s t) {g : InstId} (hg : g ≠ fs) {b : Nat}
    (hhome : Kfs.home t g b = Kfs.home s g b) (hc : CacheOk s g b) : CacheOk t g b := by
  intro i hi hb
  rw [hhome]
  rcases h.slots i g hi with ⟨hfs, -⟩ | ⟨j, hj, hjb, hjd⟩
  · exact absurd hfs hg
  · rw [← hjd]
    exact hc j hj (hjb.trans hb)

end Touches

def Uncached (s : Driver) (fs : InstId) (J : Nat → Prop) : Prop :=
  ∀ i, (s.bcache i).fs = some fs → ¬ J (s.bcache i).blk

variable {J : Nat → Prop} {b : Nat}

theorem Uncached.cacheOk (h : Uncached s fs J) (hb : J b) :
    CacheOk s fs b := fun i hi hib => absurd (hib ▸ hb) (h i hi)

theorem Touches.uncached (h : Touches fs (fun b => ¬ J b) s t) (hu : Uncached s fs J) :
    Uncached t fs J := by
  intro i hi
  rcases h.slots i fs hi with ⟨-, hT⟩ | ⟨j, hj, hjb, -⟩
  · exact hT
  · rw [← hjb]
    exact hu j hj

theorem RawIo.touches (h : RawIo fs s t) : Touches fs T s t :=
  .of_bcache (fun g _ => congrFun h.instances g) (by rw [h.instances]) h.otherDevs h.bcache

theorem OwnIo.touches {i : Fin 16} {d : Block} (h : OwnIo fs s t) (hre : Recached i fs b d s t)
    (hT : T b) : Touches fs T s t := by
  refine ⟨fun g _ => congrFun h.instances g, by rw [h.instances], h.otherDevs, hre.uniq, ?_⟩
  intro j g hj
  rcases hre j g hj with ⟨-, hg, hb, -⟩ | ⟨he, -⟩
  · exact .inl ⟨hg, hb ▸ hT⟩
  · exact .inr ⟨j, he ▸ hj, by rw [he], by rw [he]⟩

theorem bread_touches (hT : T b) (s : Driver) : Touches fs T s (bread fs b s).2 := by
  rcases bread_cases fs b s with
    ⟨d, -, h⟩ | ⟨-, t, hf, ⟨h, hsame, -⟩ | ⟨i, d, h, hre, -⟩⟩ <;> rw [h]
  · exact .refl fs T s
  · exact RawIo.touches ⟨hf.ownIo, hsame⟩
  · exact hf.ownIo.touches hre hT

theorem bwrite_touches {buf : Block} {ok : Bool} (h : bwrite fs b buf s = (ok, t)) (hT : T b) :
    Touches fs T s t := by
  obtain ⟨u, i, -, -, -, hre⟩ := bwrite_cases h
  exact (bwrite_frame h).touches hre hT

theorem writeHomes_touches {es : List (Nat × Block)} {ok : Bool} (h : writeHomes fs es s = (ok, t))
    (hT : ∀ e ∈ es, T e.1) : Touches fs T s t := by
  induction es generalizing s with
  | nil =>
    cases h
    exact .refl fs T _
  | cons e es ih =>
    unfold writeHomes at h
    split at h
    · cases h
      exact bwrite_touches ‹_› (hT e (by simp))
    · rename_i s' hs'
      exact (bwrite_touches hs' (hT e (by simp))).trans (ih h fun x hx => hT x (by simp [hx]))

theorem setMem_touches (fs : InstId) (T : Nat → Prop) (s : Driver) (m : KfsMem) :
    Touches fs T s (setMem s fs m) :=
  .of_bcache (fun g hg => by simp [setMem, setSb, hg]) (by simp [setMem, setSb])
    (fun _ _ => rfl) rfl

theorem setSb_touches (fs : InstId) (T : Nat → Prop) (s : Driver) (sb : KfsSuperblock) :
    Touches fs T s (setSb s fs sb) :=
  .of_bcache (fun g hg => by simp [setSb, hg]) (by simp [setSb]) (fun _ _ => rfl) rfl

theorem bcacheInvalidate_uniq (hu : CacheUniq s) (fs : InstId) :
    CacheUniq (bcacheInvalidate fs s) := by
  have htag : ∀ i g, ((bcacheInvalidate fs s).bcache i).fs = some g →
      (s.bcache i).fs = some g ∧ (bcacheInvalidate fs s).bcache i = s.bcache i := by
    intro i g hi
    by_cases hfs : (s.bcache i).fs = some fs
    · simp [bcacheInvalidate, hfs] at hi
    have heq : (bcacheInvalidate fs s).bcache i = s.bcache i := by
      simp only [bcacheInvalidate, hfs, if_false]
    exact ⟨heq ▸ hi, heq⟩
  intro i j g hi hj hij
  obtain ⟨hi', hie⟩ := htag i g hi
  obtain ⟨hj', hje⟩ := htag j g hj
  rw [hie, hje] at hij
  exact hu i j g hi' hj' hij

theorem retire_touches (fs : InstId) (T : Nat → Prop) (s : Driver) :
    Touches fs T s (retire fs s) := by
  refine ⟨fun g hg => by simp [retire, bcacheInvalidate, setMounted, hg],
    by simp [retire, bcacheInvalidate, setMounted], fun _ _ => rfl, fun hu => ?_, ?_⟩
  · exact bcacheInvalidate_uniq (hu.of_bcache rfl) fs
  intro i g hi
  by_cases hfs : (s.bcache i).fs = some fs
  · simp [retire, bcacheInvalidate, setMounted, hfs] at hi
  · simp only [retire, bcacheInvalidate, setMounted, hfs, if_false] at hi ⊢
    exact .inr ⟨i, hi, rfl, rfl⟩

theorem journalStage_touches (hT : T b) (d : Block) (s : Driver) :
    Touches fs T s (journalStage fs b d s).2 := by
  unfold journalStage
  split
  · split
    · exact .of_bcache (fun _ _ => rfl) rfl (fun _ _ => rfl) rfl
    · split <;> exact .of_bcache (fun _ _ => rfl) rfl (fun _ _ => rfl) rfl
  · exact bwrite_touches (rfl : bwrite fs b d s = (_, (bwrite fs b d s).2)) hT

/-- The blocks that a run of the program reads or stages are in `T`. -/
def ExecWithin {α : Type} (T : Nat → Prop) (fs : InstId) : TxProg Block KfsMem α → Driver → Prop
  | .done _, _ => True
  | .read b k, s => T b ∧ ExecWithin T fs (k (bread fs b s).1) (bread fs b s).2
  | .stage b d k, s =>
    T b ∧ ExecWithin T fs (k (journalStage fs b d s).1) (journalStage fs b d s).2
  | .load k, s => ExecWithin T fs (k ⟨(s.instances fs).sb, s.sbBlock⟩) s
  | .store m k, s => ExecWithin T fs k (setMem s fs m)
  | .live k, s => ExecWithin T fs (k (s.instances fs).mounted) s
  | .ignore k, s => ExecWithin T fs k s

theorem execWithin_of_forall {α : Type} (hT : ∀ b, T b) (p : TxProg Block KfsMem α) (s : Driver) :
    ExecWithin T fs p s := by
  induction p generalizing s with
  | done a => trivial
  | read b k ih => exact ⟨hT b, ih _ _⟩
  | stage b d k ih => exact ⟨hT b, ih _ _⟩
  | load k ih => exact ih _ _
  | store m k ih => exact ih _
  | live k ih => exact ih _ _
  | ignore k ih => exact ih _

theorem journalStage_entries (hT : T b) (d : Block) (he : ∀ e ∈ s.journalTx.entry, T e.1) :
    ∀ e ∈ (journalStage fs b d s).2.journalTx.entry, T e.1 := by
  unfold journalStage
  split
  · split
    · intro e hmem
      have hfst : e.1 ∈ s.journalTx.entry.map Prod.fst := by
        rw [← replaceEntry_map b d]
        exact mem_map_of_mem hmem
      obtain ⟨e', he', heq⟩ := mem_map.mp hfst
      rw [← heq]
      exact he e' he'
    · split
      · exact he
      intro e hmem
      rcases mem_append.mp hmem with hmem | hmem
      · exact he e hmem
      · rw [mem_singleton.mp hmem]
        exact hT
  · rcases hw : bwrite fs b d s with ⟨ok, t⟩
    rw [(bwrite_frame hw).journalTx]
    exact he

theorem exec_touches {α : Type} (p : TxProg Block KfsMem α) (hp : ExecWithin T fs p s)
    (he : ∀ e ∈ s.journalTx.entry, T e.1) :
    Touches fs T s (exec fs p s).2 ∧ ∀ e ∈ (exec fs p s).2.journalTx.entry, T e.1 := by
  induction p generalizing s with
  | done a => exact ⟨.refl fs T s, he⟩
  | read b k ih =>
    obtain ⟨h, he'⟩ := ih _ hp.2 (by rw [(bread_frame fs b s).journalTx]; exact he)
    exact ⟨(bread_touches hp.1 s).trans h, he'⟩
  | stage b d k ih =>
    obtain ⟨h, he'⟩ := ih _ hp.2 (journalStage_entries hp.1 d he)
    exact ⟨(journalStage_touches hp.1 d s).trans h, he'⟩
  | load k ih => exact ih _ hp he
  | store m k ih =>
    obtain ⟨h, he'⟩ := ih hp he
    exact ⟨(setMem_touches fs T s m).trans h, he'⟩
  | live k ih => exact ih _ hp he
  | ignore k ih => exact ih hp he

theorem commitWrites_touches (he : ∀ e ∈ s.journalTx.entry, T e.1) :
    Touches fs T s (commitWrites fs s).2 := by
  unfold commitWrites
  dsimp only
  split
  · exact (writePayloads_frame ‹_›).touches
  rename_i s1 h1
  split
  · rename_i s2 h2
    exact ((writePayloads_frame h1).trans (journalRawWrite_frame h2)).touches.trans
      (retire_touches fs T s2)
  rename_i s2 h2
  have hraw : Touches fs T s s2 :=
    ((writePayloads_frame h1).trans (journalRawWrite_frame h2)).touches
  split
  · rename_i s3 h3
    exact (hraw.trans (writeHomes_touches h3 he)).trans (retire_touches fs T s3)
  rename_i s3 h3
  have hw := hraw.trans (writeHomes_touches h3 he)
  split
  · rename_i s4 h4
    exact (hw.trans (journalRawWrite_frame h4).touches).trans (retire_touches fs T s4)
  · rename_i s4 h4
    exact hw.trans (journalRawWrite_frame h4).touches

theorem journalReset_touches (fs : InstId) (T : Nat → Prop) (s : Driver) :
    Touches fs T s (journalReset s) := .of_bcache (fun _ _ => rfl) rfl (fun _ _ => rfl) rfl

theorem journalCommit_touches (he : s.journalTx.active → ∀ e ∈ s.journalTx.entry, T e.1) :
    Touches fs T s (journalCommit fs s).2 := by
  have hbody : Touches fs T s (commitBody fs s).2 := by
    unfold commitBody
    split
    · exact .refl fs T s
    rename_i hgo
    split
    · exact .refl fs T s
    · exact commitWrites_touches (he (by simp only [not_or, not_not] at hgo; exact hgo.1))
  unfold journalCommit
  split
  · rename_i s' hs'
    rw [hs'] at hbody
    exact hbody.trans (journalReset_touches fs T s')
  rename_i s' hs'
  rw [hs'] at hbody
  split
  · exact (hbody.trans (setSb_touches fs T s' _)).trans (journalReset_touches fs T _)
  · exact hbody.trans (journalReset_touches fs T s')

theorem journalAbort_touches (hfs : s.journalTx.active → s.journalTx.fs = some fs) :
    Touches fs T s (journalAbort s) := by
  unfold journalAbort
  split
  · rename_i f hact hf
    have hffs : f = fs := by simpa [hf] using hfs hact
    rw [hffs]
    exact (setSb_touches fs T s _).trans (journalReset_touches fs T _)
  · exact journalReset_touches fs T s

theorem journalCommit_idle (fs : InstId) (s : Driver) :
    (journalCommit fs s).2.journalTx.active = false := by
  unfold journalCommit
  split <;> rfl

theorem journalAbort_idle (s : Driver) : (journalAbort s).journalTx.active = false := by
  unfold journalAbort
  split <;> rfl

theorem transact_end (fs : InstId) (body : Tx Int) (ok : Int → Bool)
    (hidle : s.journalTx.active = false) : ∃ r, (r = s ∨ r = (exec fs body (begun fs s)).2) ∧
      ((transact fs body ok s).2 = (journalCommit fs r).2 ∨
        (transact fs body ok s).2 = journalAbort r) := by
  obtain ⟨sequence, -, hbegin⟩ := @begun_eq fs s hidle
  cases hm : (s.instances fs).mounted with
  | false =>
    refine ⟨s, .inl rfl, ?_⟩
    simp only [transact, hm, Bool.false_eq_true, if_false]
    split
    · left
      split <;> rename_i heq <;> rw [heq]
    · exact .inr rfl
  | true =>
    refine ⟨_, .inr rfl, ?_⟩
    simp only [transact, hm, hbegin, if_true]
    split
    · left
      split <;> rename_i heq <;> rw [heq]
    · exact .inr rfl

theorem transact_idle (fs : InstId) (body : Tx Int) (ok : Int → Bool)
    (hidle : s.journalTx.active = false) : (transact fs body ok s).2.journalTx.active = false := by
  obtain ⟨r, -, h | h⟩ := transact_end fs body ok hidle
  · rw [h]
    exact journalCommit_idle fs r
  · rw [h]
    exact journalAbort_idle r

theorem transact_touches {body : Tx Int} (ok : Int → Bool) (hidle : s.journalTx.active = false)
    (hp : ExecWithin T fs body (begun fs s)) : Touches fs T s (transact fs body ok s).2 := by
  obtain ⟨sequence, hb, -⟩ := @begun_eq fs s hidle
  have hstart : Touches fs T s (begun fs s) := by
    rw [hb]
    exact .of_bcache (fun _ _ => rfl) rfl (fun _ _ => rfl) rfl
  obtain ⟨hexec, hentries⟩ := exec_touches body hp (by rw [hb]; simp)
  have hin := (exec_running body (@begun_inTx fs s hidle)).2
  obtain ⟨r, hr, hend⟩ := transact_end fs body ok hidle
  have hbody : Touches fs T s r ∧ (r.journalTx.active →
      (∀ e ∈ r.journalTx.entry, T e.1) ∧ r.journalTx.fs = some fs) := by
    rcases hr with rfl | rfl
    · exact ⟨.refl fs T r, fun hact => by simp [hidle] at hact⟩
    · exact ⟨hstart.trans hexec, fun _ => ⟨hentries, hin.fs⟩⟩
  rcases hend with h | h
  · rw [h]
    exact hbody.1.trans (journalCommit_touches fun hact => (hbody.2 hact).1)
  · rw [h]
    exact hbody.1.trans (journalAbort_touches fun hact => (hbody.2 hact).2)

theorem journalClear_cacheOk {ok : Bool} (h : journalClear fs s = (ok, t))
    (hspb : 0 < (s.instances fs).spb) (hun : Uncached s fs (InJournal (s.instances fs).sb))
    (hc : CacheOk s fs b) : CacheOk t fs b := by
  have hframe := (journalRawWrite_frame h).bcache
  intro i hi hib
  rw [hframe] at hi hib ⊢
  have hne : b ≠ (s.instances fs).sb.journalStart := by
    intro hb
    apply hun i hi
    rw [hib, hb]
    exact ⟨le_refl _, by omega⟩
  rw [journalRawWrite_home h hspb hne]
  exact hc i hi hib

theorem journalRecover_fresh (hj : (s.instances fs).sb.journalBlocks = 33)
    (hspb : 0 < (s.instances fs).spb) (hu : CacheUniq s) (hfree : ∀ i, (s.bcache i).fs ≠ some fs) :
    Touches fs (fun b => ¬ InJournal (s.instances fs).sb b) s (journalRecover fs s).2 ∧
      ∀ b, CacheOk (journalRecover fs s).2 fs b := by
  have hread : ∀ t, SameButTick s t →
      Touches fs (fun b => ¬ InJournal (s.instances fs).sb b) s t ∧ ∀ b, CacheOk t fs b :=
    fun t ht => ⟨ht.rawIo.touches, fun b i hi => absurd (ht.bcache ▸ hi) (hfree i)⟩
  -- a clear on top of anything the recovery can have done so far
  have hclear : ∀ t, SameButIo s t →
      (Touches fs (fun b => ¬ InJournal (s.instances fs).sb b) s t ∧ ∀ b, CacheOk t fs b) →
      Touches fs (fun b => ¬ InJournal (s.instances fs).sb b) s (journalClear fs t).2 ∧
        ∀ b, CacheOk (journalClear fs t).2 fs b := by
    intro t hst ht
    have hun : Uncached t fs (InJournal (s.instances fs).sb) :=
      ht.1.uncached fun i hi => absurd hi (hfree i)
    rw [← hst.instances] at hun
    exact ⟨ht.1.trans (journalClear_frame fs t).touches, fun b =>
      journalClear_cacheOk rfl (hst.instances ▸ hspb) hun (ht.2 b)⟩
  have hrec := journalRecover_recovers fs s
  generalize hv : Kfsck.verdict (s.instances fs).sb (home s fs) = v at hrec
  generalize journalRecover fs s = r at hrec ⊢
  obtain ⟨code, t⟩ := r
  have hwrite : ∀ {entry ok s2 s3}, v = .committed entry → SameButTick s s2 →
      writeHomes fs entry s2 = (ok, s3) →
      Touches fs (fun b => ¬ InJournal (s.instances fs).sb b) s s3 ∧ ∀ b, CacheOk s3 fs b := by
    intro entry ok s2 s3 hentry hs2 h3
    have hcache := (writeHomes_cache h3 (hs2.instances ▸ hspb) (hu.of_bcache hs2.bcache)).2
    have hout : ∀ e ∈ entry, ¬ InJournal (s.instances fs).sb e.1 := fun e he hin =>
      verdict_passed (hv.trans hentry) e he (.inr ⟨hin.1, by rw [hj]; exact hin.2⟩)
    exact ⟨(hread s2 hs2).1.trans (writeHomes_touches h3 hout),
      fun b => hcache b ((hread s2 hs2).2 b)⟩
  cases hrec with
  | unread hf => exact hread t hf
  | clean hf => exact hread t hf
  | refused hf => exact hread t hf
  | cleared hf => exact hclear _ hf.toSameButIo (hread _ hf)
  | half hf hw => exact hwrite rfl hf hw
  | replayed hf hw =>
    exact hclear _ (hf.toSameButIo.trans (writeHomes_frame hw).toSameButIo) (hwrite rfl hf hw)

end Touches

/-- Between two steps no transaction is open, every mounted instance has a slot and a device of its
own, and its cached blocks are those of its device; `all` extends this to the journal region. -/
structure Coherent (all : Prop) (s : Driver) : Prop where
  idle : s.journalTx.active = false
  uniq : CacheUniq s
  used : ∀ f, (s.instances f).mounted = true → (s.instances f).used = true
  spb : ∀ f, (s.instances f).mounted = true → 0 < (s.instances f).spb
  apart : ∀ f g, (s.instances f).mounted = true → (s.instances g).mounted = true →
    (s.instances f).bd = (s.instances g).bd → f = g
  cache : ∀ f, (s.instances f).mounted = true → ∀ b,
    ¬ InJournal (s.instances f).sb b ∨ all → CacheOk s f b

namespace Coherent

variable {all : Prop} {s t : Driver}

theorem idles (h : Coherent all s) (hi : ∀ f, Idles f s t) : Coherent all t := by
  have hinst : ∀ f, ∃ used handles, t.instances f =
      { s.instances f with used := used, handles := handles } := fun f => (hi f).inst
  have hmounted : ∀ f, (t.instances f).mounted = (s.instances f).mounted := by
    intro f
    obtain ⟨used, handles, heq⟩ := hinst f
    rw [heq]
  refine ⟨?_, (hi 0).uniq h.uniq, ?_, ?_, ?_, ?_⟩
  · rw [(hi 0).journalTx]
    exact h.idle
  · intro f hm
    rw [hmounted] at hm
    rw [(hi f).used hm]
    exact h.used f hm
  · intro f hm
    rw [hmounted] at hm
    obtain ⟨used, handles, heq⟩ := hinst f
    rw [heq]
    exact h.spb f hm
  · intro f g hf hg hbd
    rw [hmounted] at hf hg
    obtain ⟨used, handles, heq⟩ := hinst f
    obtain ⟨used', handles', heq'⟩ := hinst g
    rw [heq, heq'] at hbd
    exact h.apart f g hf hg hbd
  · intro f hm b hb
    rw [hmounted] at hm
    obtain ⟨used, handles, heq⟩ := hinst f
    rw [heq] at hb
    exact (hi f).cache b (h.cache f hm b hb)

theorem step (h : Coherent all s) {fs : InstId}
    (hothers : ∀ g, g ≠ fs → t.instances g = s.instances g)
    (hidle : t.journalTx.active = false) (huniq : CacheUniq t)
    (hcache : ∀ g, g ≠ fs → (s.instances g).mounted → ∀ b, CacheOk s g b → CacheOk t g b)
    (hown : (t.instances fs).mounted → (t.instances fs).used ∧
      0 < (t.instances fs).spb ∧
      (∀ g, g ≠ fs → (s.instances g).mounted → (s.instances g).bd ≠ (t.instances fs).bd) ∧
      ∀ b, ¬ InJournal (t.instances fs).sb b ∨ all → CacheOk t fs b) :
    Coherent all t := by
  refine ⟨hidle, huniq, ?_, ?_, ?_, ?_⟩
  · intro f hm
    by_cases hf : f = fs
    · subst hf
      exact (hown hm).1
    · rw [hothers f hf] at hm ⊢
      exact h.used f hm
  · intro f hm
    by_cases hf : f = fs
    · subst hf
      exact (hown hm).2.1
    · rw [hothers f hf] at hm ⊢
      exact h.spb f hm
  · intro f g hf hg hbd
    by_cases hff : f = fs <;> by_cases hgf : g = fs
    · rw [hff, hgf]
    · subst hff
      rw [hothers g hgf] at hg hbd
      exact absurd hbd.symm ((hown hf).2.2.1 g hgf hg)
    · subst hgf
      rw [hothers f hff] at hf hbd
      exact absurd hbd ((hown hg).2.2.1 f hff hf)
    rw [hothers f hff] at hf hbd
    rw [hothers g hgf] at hg hbd
    exact h.apart f g hf hg hbd
  · intro f hm b hb
    by_cases hf : f = fs
    · subst hf
      exact (hown hm).2.2.2 b hb
    · rw [hothers f hf] at hm hb
      exact hcache f hf hm b (h.cache f hm b hb)

end Coherent

section Calls

variable {all : Prop} {fs : InstId} {s : Driver}

theorem transact_unmounted (body : Tx Int) (ok : Int → Bool)
    (hm : (s.instances fs).mounted = false) (hidle : s.journalTx.active = false) :
    (transact fs body ok s).2 = journalReset s := by
  have hcommit : journalCommit fs s = (false, journalReset s) := by
    simp [journalCommit, commitBody, hidle, hm]
  have habort : journalAbort s = journalReset s := by simp [journalAbort, hidle]
  simp only [transact, hm, Bool.false_eq_true, if_false, hcommit, habort]
  split <;> rfl

def Outside (s : Driver) (fs : InstId) (b : Nat) : Prop := ¬ InJournal (s.instances fs).sb b

/-- The call meets no block of the journal region, in the cache or on its way. -/
def KfsCall.StaysOut (fs : InstId) (c : KfsCall) (s : Driver) : Prop :=
  Uncached s fs (InJournal (s.instances fs).sb) ∧
    ExecWithin (Outside s fs) fs c.body (begun fs s)

theorem transact_coherent (c : KfsCall) (h : Coherent all s)
    (hm : (s.instances fs).mounted) (hout : all → c.StaysOut fs s) :
    Coherent all (transact fs c.body c.ok s).2 := by
  have ht : Touches fs (fun _ => True) s (transact fs c.body c.ok s).2 :=
    transact_touches c.ok h.idle (execWithin_of_forall (fun _ => trivial) _ _)
  have hne : ∀ g, g ≠ fs → (s.instances g).mounted →
      (s.instances g).bd ≠ (s.instances fs).bd := fun g hg hgm hbd => hg (h.apart g fs hgm hm hbd)
  refine h.step ht.others (transact_idle fs _ _ h.idle) (ht.uniq h.uniq) ?_ ?_
  · intro g hg hgm b hc
    exact ht.cacheOk hg (ht.home hg (hne g hg hgm) b) hc
  intro hm'
  -- the journal region: nothing of it is in the cache afterwards
  have hjournal : all → ∀ b, InJournal (s.instances fs).sb b →
      CacheOk (transact fs c.body c.ok s).2 fs b := by
    intro hall b hb
    obtain ⟨hun, hwithin⟩ := hout hall
    exact ((transact_touches c.ok h.idle hwithin).uncached hun).cacheOk hb
  have hcache : ∀ sb, SameLayout (s.instances fs).sb sb →
      (∀ b, ¬ InJournal (s.instances fs).sb b → CacheOk s fs b →
        CacheOk (transact fs c.body c.ok s).2 fs b) →
      ∀ b, ¬ InJournal sb b ∨ all → CacheOk (transact fs c.body c.ok s).2 fs b := by
    intro sb hsb hkeep b hb
    rw [inJournal_of_layout hsb] at hb
    by_cases hj : InJournal (s.instances fs).sb b
    · exact hjournal (hb.resolve_left (not_not.mpr hj)) b hj
    · exact hkeep b hj (h.cache fs hm b (.inl hj))
  rcases transact_outcome c hm h.idle (h.spb fs hm) with ⟨hu, -⟩ | ⟨-, -, -, hd⟩ | ⟨-, hgone⟩
  · rw [hu.instances]
    exact ⟨h.used fs hm, h.spb fs hm, hne, hcache _ (.refl _) hu.cache⟩
  · rw [hd.inst]
    exact ⟨h.used fs hm, h.spb fs hm, hne, hcache _ hd.layout (hd.cache h.uniq)⟩
  · rw [hgone] at hm'
    simp at hm'

theorem KfsCall.run_coherent (c : KfsCall) (h : Coherent all s) (hout : all → c.StaysOut fs s) :
    Coherent all (c.run fs s).2 := by
  rcases c.run_eq s with hrun | hrun
  · rw [hrun]
    cases hm : (s.instances fs).mounted with
    | true => exact transact_coherent c h hm hout
    | false =>
      rw [transact_unmounted _ _ hm h.idle]
      exact ⟨rfl, h.uniq, h.used, h.spb, h.apart, h.cache⟩
  · rw [hrun]
    exact h

end Calls

section Mounts

variable {all : Prop} {fs : InstId} {s t : Driver}

theorem Touches.mono {T T' : Nat → Prop} (h : Touches fs T s t) (hT : ∀ b, T b → T' b) :
    Touches fs T' s t :=
  ⟨h.others, h.bd, h.disk, h.uniq, fun i g hi => (h.slots i g hi).imp_left fun hl =>
    ⟨hl.1, hT _ hl.2⟩⟩

theorem Probed.touches (h : Probed fs s t) (T : Nat → Prop) : Touches fs T s t := by
  obtain ⟨lba, sb, heq⟩ := h.inst
  exact .of_bcache h.others (by rw [heq]) (fun e _ => congrFun h.disk e) h.bcache

theorem tryOffset_home (s : Driver) (b : Nat) :
    home (tryOffset fs (s.instances fs).startLba s).2 fs b = home s fs b := by
  obtain ⟨hp, hlba, -⟩ := tryOffset_probed fs (s.instances fs).startLba s
  obtain ⟨lba, sb, heq⟩ := hp.inst
  rw [heq] at hlba
  simp only at hlba
  simp only [home, heq, hp.disk, KfsFs.lba, hlba]

theorem mountRecover_fresh (hj : (s.instances fs).sb.journalBlocks = 33)
    (hspb : 0 < (s.instances fs).spb) (hu : CacheUniq s) (hfree : ∀ i, (s.bcache i).fs ≠ some fs) :
    Touches fs (fun _ => True) s (mountRecover fs s).2 ∧
      (mountRecover fs s).2.journalTx = s.journalTx ∧ ∀ b, CacheOk (mountRecover fs s).2 fs b := by
  obtain ⟨ht, hc⟩ := journalRecover_fresh hj hspb hu hfree
  have hf := journalRecover_frame fs s
  have hrec : Touches fs (fun _ => True) s (journalRecover fs s).2 := ht.mono fun _ _ => trivial
  unfold mountRecover
  dsimp only
  split
  · exact ⟨hrec, hf.journalTx, hc⟩
  split
  · obtain ⟨hp, -, -⟩ := tryOffset_probed fs
      ((journalRecover fs s).2.instances fs).startLba (journalRecover fs s).2
    exact ⟨hrec.trans (hp.touches _), hp.journalTx.trans hf.journalTx,
      fun b => (hc b).congr hp.bcache (tryOffset_home _ b)⟩
  · exact ⟨hrec, hf.journalTx, hc⟩

theorem mountProbe_fresh (partLba : Nat) (hspb : 0 < (s.instances fs).spb) (hu : CacheUniq s)
    (hfree : ∀ i, (s.bcache i).fs ≠ some fs) :
    Touches fs (fun _ => True) s (mountProbe fs partLba s).2 ∧
      (mountProbe fs partLba s).2.journalTx = s.journalTx ∧
      ((mountProbe fs partLba s).1 → ∀ b, CacheOk (mountProbe fs partLba s).2 fs b) := by
  obtain ⟨hp, hj⟩ := probeOffsets_probed fs partLba s
  obtain ⟨lba, sb, heq⟩ := hp.inst
  unfold mountProbe
  dsimp only
  cases hok : (probeOffsets fs partLba s).1 with
  | false =>
    simp only [Bool.false_eq_true, if_false, hok, false_implies, and_true]
    exact ⟨hp.touches _, hp.journalTx⟩
  | true =>
    obtain ⟨ht, hjt, hc⟩ := mountRecover_fresh (hj hok)
      (by rw [heq]; exact hspb) (hu.of_bcache hp.bcache) (by rw [hp.bcache]; exact hfree)
    have htouch := (hp.touches _).trans ht
    simp only [if_true]
    cases hrec : (mountRecover fs (probeOffsets fs partLba s).2).1 with
    | false =>
      simp only [Bool.false_eq_true, if_false, false_implies, and_true]
      exact ⟨htouch, hjt.trans hp.journalTx⟩
    | true =>
      simp only [if_true, forall_const]
      refine ⟨htouch.trans (.of_bcache (fun g hg => by simp [setMounted, hg])
        (by simp [setMounted]) (fun _ _ => rfl) rfl), hjt.trans hp.journalTx,
        fun b => (hc b).congr rfl ?_⟩
      simp [home, setMounted, KfsFs.lba]

def boundFs (bd : DevId) (spb : Nat) : KfsFs :=
  { KfsFs.zero with used := true, bd := some bd, spb := spb }

def boundTo (fs : InstId) (bd : DevId) (s : Driver) : Driver :=
  updInst s fs fun _ => boundFs bd (4096 / (s.bdev bd).blockSize)

def probeEnd (fs : InstId) (bd : DevId) (s : Driver) : Driver :=
  let r := mountProbe fs (2048 * 512 / (s.bdev bd).blockSize) (boundTo fs bd s)
  if r.1 then r.2 else mountAbandon fs r.2

theorem mountInto_run (fs : InstId) (bd : DevId) (s : Driver) :
    ((mountInto fs bd (s.bdev bd)).run MountSec.step
      (updInst s fs fun _ => { KfsFs.zero with used := true })).2 = probeEnd fs bd s := by
  have hbind : mountBind fs bd (4096 / (s.bdev bd).blockSize)
      (updInst s fs fun _ => { KfsFs.zero with used := true }) = boundTo fs bd s := by
    simp only [mountBind, updInst, boundTo, boundFs, Driver.mk.injEq, true_and, and_true]
    funext g
    split <;> rfl
  have hafter : ∀ r : Bool × Driver, (SecProg.run MountSec.step (if r.1 then pure (some fs) else do
      Mount.abandon fs
      pure none : MountProg (Option InstId)) r.2).2 = if r.1 then r.2 else mountAbandon fs r.2 := by
    intro r
    cases r.1 <;> rfl
  rw [probeEnd, ← hafter, ← hbind]
  rfl

theorem kfsTypeMount_probe {bd : DevId} {s : Driver} {fs : InstId}
    (hsize : ¬ ((s.bdev bd).blockSize = 0 ∨ 4096 % (s.bdev bd).blockSize ≠ 0))
    (hdup : alreadyMounted s bd = false) (hfree : freeInstance s = some fs) :
    ((kfsTypeMount (some bd)).run MountSec.step s).2 = probeEnd fs bd s := by
  have hrun : (kfsTypeMount (some bd)).run MountSec.step s =
      (mountDevice bd (s.bdev bd)).run MountSec.step s := rfl
  rw [hrun, mountDevice, if_neg hsize]
  simp only [SecProg.run_bind, Mount.reserve, SecProg.run_atomic, MountSec.step, mountReserve, hdup,
    hfree, Bool.false_eq_true, if_false]
  exact mountInto_run fs bd s

theorem kfsTypeMount_run (bd : DevId) (s : Driver) :
    ((kfsTypeMount (some bd)).run MountSec.step s).2 = s ∨
      ∃ fs, freeInstance s = some fs ∧ alreadyMounted s bd = false ∧
        0 < 4096 / (s.bdev bd).blockSize ∧
        ((kfsTypeMount (some bd)).run MountSec.step s).2 = probeEnd fs bd s := by
  have hrun : (kfsTypeMount (some bd)).run MountSec.step s =
      (mountDevice bd (s.bdev bd)).run MountSec.step s := rfl
  by_cases hsize : (s.bdev bd).blockSize = 0 ∨ 4096 % (s.bdev bd).blockSize ≠ 0
  · rw [hrun, mountDevice, if_pos hsize]
    exact .inl rfl
  cases hdup : alreadyMounted s bd with
  | true =>
    rw [hrun, mountDevice, if_neg hsize]
    simp only [SecProg.run_bind, Mount.reserve, SecProg.run_atomic, MountSec.step, mountReserve,
      hdup]
    exact .inl rfl
  | false =>
    cases hfree : freeInstance s with
    | none =>
      rw [hrun, mountDevice, if_neg hsize]
      simp only [SecProg.run_bind, Mount.reserve, SecProg.run_atomic, MountSec.step, mountReserve,
        hdup, hfree]
      exact .inl rfl
    | some fs =>
      refine .inr ⟨fs, rfl, rfl, ?_, kfsTypeMount_probe hsize hdup hfree⟩
      simp only [not_or, not_not] at hsize
      have hdvd : (s.bdev bd).blockSize ∣ 4096 := Nat.dvd_of_mod_eq_zero hsize.2
      exact Nat.div_pos (Nat.le_of_dvd (by omega) hdvd) (Nat.pos_of_ne_zero hsize.1)

/-- Nothing in the cache is tagged with the slot that a mount would take. -/
def MountClean (s : Driver) : Prop :=
  ∀ fs, freeInstance s = some fs → ∀ i, (s.bcache i).fs ≠ some fs

theorem kfsTypeMount_coherent (bd : Option DevId) (h : Coherent all s) (hclean : MountClean s) :
    Coherent all ((kfsTypeMount bd).run MountSec.step s).2 := by
  cases bd with
  | none => exact h
  | some bd =>
    rcases kfsTypeMount_run bd s with hrun | ⟨fs, hfree, hdup, hspb, hrun⟩
    · rw [hrun]
      exact h
    have hother : ∀ g, g ≠ fs → (boundTo fs bd s).instances g = s.instances g := by
      intro g hg
      simp [boundTo, updInst, hg]
    have hself : (boundTo fs bd s).instances fs = boundFs bd (4096 / (s.bdev bd).blockSize) := by
      simp [boundTo, updInst]
    obtain ⟨ht, hjt, hc⟩ := @mountProbe_fresh fs (boundTo fs bd s)
      (2048 * 512 / (s.bdev bd).blockSize) (by rw [hself]; exact hspb) (h.uniq.of_bcache rfl)
      (hclean fs hfree)
    obtain ⟨-, lba, sb, heq⟩ :=
      mountProbe_inst fs (2048 * 512 / (s.bdev bd).blockSize) (boundTo fs bd s)
    rw [hrun, probeEnd]
    generalize mountProbe fs (2048 * 512 / (s.bdev bd).blockSize) (boundTo fs bd s) = r
      at ht hjt heq hc
    -- mounted instances are on other devices
    have hapart : ∀ g, (s.instances g).mounted → (s.instances g).bd ≠ some bd :=
      fun g hgm => alreadyMounted_false hdup g (h.used g hgm) hgm
    have hcache : ∀ g, g ≠ fs → (s.instances g).mounted → ∀ b, CacheOk s g b →
        CacheOk r.2 g b := by
      intro g hg hgm b hgc
      have hhome : home (boundTo fs bd s) g b = home s g b := by
        unfold home
        rw [hother g hg]
        rfl
      refine ht.cacheOk hg (ht.home hg ?_ b) (hgc.congr rfl hhome)
      rw [hother g hg, hself]
      exact hapart g hgm
    have hothers : ∀ g, g ≠ fs → r.2.instances g = s.instances g :=
      fun g hg => (ht.others g hg).trans (hother g hg)
    have hidle : r.2.journalTx.active = false := by
      rw [hjt]
      exact h.idle
    have huniq : CacheUniq r.2 := ht.uniq (h.uniq.of_bcache rfl)
    cases hok : r.1 with
    | true =>
      simp only [if_true]
      refine h.step hothers hidle huniq hcache fun _ => ?_
      rw [heq, hself]
      exact ⟨rfl, hspb, fun g _ hgm => hapart g hgm, fun b _ => hc hok b⟩
    | false =>
      simp only [Bool.false_eq_true, if_false]
      have hgone : ((mountAbandon fs r.2).instances fs).mounted = false := by
        simp only [mountAbandon, updInst, if_true, heq, hok, hself]
        rfl
      refine @Coherent.step all s (mountAbandon fs r.2) h fs ?_ hidle (huniq.of_bcache rfl) ?_ ?_
      · intro g hg
        simp only [mountAbandon, updInst, hg, if_false]
        exact hothers g hg
      · intro g hg hgm b hgc
        refine (hcache g hg hgm b hgc).congr rfl ?_
        simp only [home, mountAbandon, updInst, hg, if_false]
      intro hm
      rw [hgone] at hm
      simp at hm

theorem instanceRelease_idles (fs g : InstId) (s : Driver) : Idles g s (instanceRelease fs s) :=
  FsSec.step_idles (c := .release fs) (by simp) g (freshVfs s)

theorem kfsTypeUnmount_coherent (fs : Option InstId) (h : Coherent all s) :
    Coherent all ((kfsTypeUnmount fs).run MountSec.step s).2 := by
  cases fs with
  | none => exact h
  | some fs =>
    have hrun : ((kfsTypeUnmount (some fs)).run MountSec.step s).2 =
        instanceRelease fs (retire fs s) := rfl
    rw [hrun]
    obtain ⟨hothers, hgone⟩ := retire_frame fs s
    have ht := retire_touches fs (fun _ => True) s
    have hret : Coherent all (retire fs s) := by
      refine h.step hothers h.idle (ht.uniq h.uniq) ?_ ?_
      · intro g hg _ b hc
        refine ht.cacheOk hg ?_ hc
        simp only [home, hothers g hg]
        rfl
      · intro hm
        rw [hgone] at hm
        simp at hm
    exact hret.idles fun g => instanceRelease_idles fs g (retire fs s)

end Mounts

/-- What can happen to the driver: mounts and unmounts, and the locked sections of everything
else. -/
inductive KfsOp
  | mount (bd : Option DevId)
  | unmount (fs : Option InstId)
  | lookup (fs : InstId) (path : Option CString)
  | readdir (fs : InstId) (ino : UInt32) (index : Int)
  | sec (c : FsSec)

def KfsOp.step : KfsOp → Vfs → Vfs
  | .mount bd, v => { v with drv := ((kfsTypeMount bd).run MountSec.step v.drv).2 }
  | .unmount fs, v => { v with drv := ((kfsTypeUnmount fs).run MountSec.step v.drv).2 }
  | .lookup fs path, v => { v with drv := (kfsLookup fs path v.drv).2 }
  | .readdir fs ino index, v => { v with drv := (kfsReaddir fs ino index v.drv).2 }
  | .sec c, v => (c.step v).2

def runKfs : List KfsOp → Vfs → Vfs
  | [], v => v
  | op :: ops, v => runKfs ops (op.step v)

def Along (ok : KfsOp → Vfs → Prop) : List KfsOp → Vfs → Prop
  | [], _ => True
  | op :: ops, v => ok op v ∧ Along ok ops (op.step v)

/-- A mount takes over a pool slot that the cache no longer knows. -/
def KfsOp.Clean : KfsOp → Vfs → Prop
  | .mount _, v => MountClean v.drv
  | _, _ => True

def KfsOp.StaysOut : KfsOp → Vfs → Prop
  | .sec (.call fs c), v => c.StaysOut fs v.drv
  | _, _ => True

theorem KfsOp.step_coherent {all : Prop} {op : KfsOp} {v : Vfs} (h : Coherent all v.drv)
    (hclean : op.Clean v) (hout : all → op.StaysOut v) : Coherent all (op.step v).drv := by
  cases op with
  | mount bd => exact kfsTypeMount_coherent bd h hclean
  | unmount fs => exact kfsTypeUnmount_coherent fs h
  | lookup fs path => exact h.idles fun f => exec_idles (lookupPath_noWrites path) v.drv
  | readdir fs ino index =>
    simp only [KfsOp.step, kfsReaddir]
    split
    · exact h.idles fun f => exec_idles (readdirLocked_noWrites _ _) v.drv
    · exact h
  | sec c =>
    by_cases hc : ∃ g k, c = .call g k
    · obtain ⟨g, k, rfl⟩ := hc
      exact KfsCall.run_coherent k h hout
    · exact h.idles fun f => FsSec.step_idles (fun g k hgk => hc ⟨g, k, hgk⟩) f v

theorem runKfs_keeps {all : Prop} (ops : List KfsOp) {v : Vfs} (h : Coherent all v.drv)
    (hclean : Along KfsOp.Clean ops v) (hout : all → Along KfsOp.StaysOut ops v) :
    Coherent all (runKfs ops v).drv := by
  induction ops generalizing v with
  | nil => exact h
  | cons op ops ih =>
    exact ih (op.step_coherent h hclean.1 fun ha => (hout ha).1) hclean.2 fun ha => (hout ha).2

/-- The driver at boot: no instance, nothing in the cache, no transaction. -/
structure Booted (s : Driver) : Prop where
  idle : s.journalTx.active = false
  mounted : ∀ f, (s.instances f).mounted = false
  bcache : ∀ i, (s.bcache i).fs = none

theorem Booted.coherent {s : Driver} (h : Booted s) (all : Prop) : Coherent all s where
  idle := h.idle
  uniq := fun i j f hi => by simp [h.bcache] at hi
  used := fun f hm => by simp [h.mounted] at hm
  spb := fun f hm => by simp [h.mounted] at hm
  apart := fun f g hm => by simp [h.mounted] at hm
  cache := fun f hm => by simp [h.mounted] at hm

/-- From boot, over any mounts, unmounts, reads and calls with any device failures: where every
mount took over a slot that the cache no longer knew, the cached copies of a mounted instance are
what its device holds and `bread` returns that. For blocks of its journal region the calls have to
stay out of it. -/
theorem runKfs_coherent {v : Vfs} (hboot : Booted v.drv) (ops : List KfsOp)
    (hclean : Along KfsOp.Clean ops v) {f : InstId}
    (hm : ((runKfs ops v).drv.instances f).mounted = true) {b : Nat}
    (hb : ¬ InJournal ((runKfs ops v).drv.instances f).sb b ∨ Along KfsOp.StaysOut ops v) :
    CacheOk (runKfs ops v).drv f b ∧
      ∀ d, journalPending (runKfs ops v).drv f b = none →
        (bread f b (runKfs ops v).drv).1 = some d → d = home (runKfs ops v).drv f b := by
  have hcoh := runKfs_keeps ops (hboot.coherent _) hclean id
  have hc := hcoh.cache f hm b hb
  refine ⟨hc, fun d hpending hd => ?_⟩
  rw [bread_some hc hd, seen, hpending, Option.getD_none]

def bootDriver (disk : DevId → Nat → Block) : Driver :=
  { smallDriver 40 4 (fun _ => Block.zero) with
    instances := fun _ => KfsFs.zero
    disk := fun dev b => if b = 0 then Block.ofBytes (smallSb 40 4).toBytes else disk dev b }

theorem bootDriver_booted (disk : DevId → Nat → Block) : Booted (bootDriver disk) :=
  ⟨rfl, fun _ => rfl, fun _ => rfl⟩

/-- The first block of the file in inode 2 is block 3, in the journal region. -/
def strayPointer : Driver :=
  bootDriver fun _ b => if b = 35 then
    putInode Block.zero 2 ⟨1, 420, 1, 0, 0, 1, fun i => if i = 0 then 3 else 0, 0⟩ else Block.zero

/-- A mount and a read. -/
theorem runKfs_coherent_read :
    CacheOk (runKfs [.mount (some 0), .sec (.iget 0 2)] (freshVfs strayPointer)).drv 0 35 :=
  (runKfs_coherent (v := freshVfs strayPointer) (bootDriver_booted _)
    [.mount (some 0), .sec (.iget 0 2)]
    ⟨fun _ _ _ => by simp [freshVfs, strayPointer, bootDriver, smallDriver], trivial, trivial⟩
    (f := 0) (by decide +kernel) (b := 35) (.inl (by decide +kernel))).1

def ones : Block := Block.ofBytes fun _ => 1

/-- Device 0 holds a committed transaction on blocks 36 and 37, and block 37 cannot be written. -/
def tornReplay : Driver :=
  { bootDriver (fun dev b =>
      if dev = 0 ∧ b = 2 then commitBlock 1 [(36, ones), (37, ones)]
      else if dev = 0 ∧ (b = 3 ∨ b = 4) then ones
      else Block.zero) with
    io := fun _ _ lba => if lba = 37 then .fail none else .ok }

def tornProbed : Driver := (probeOffsets 0 256 (updInst tornReplay 0 fun _ => boundFs 0 1)).2

theorem tornProbed_sb : (tornProbed.instances 0).sb = smallSb 40 4 := by decide +kernel

def tornWritten : Bool × Driver :=
  writeHomes 0 [(36, ones), (37, ones)] { tornProbed with tick := 4 }

theorem tornProbed_recover : journalRecover 0 tornProbed = (-1, tornWritten.2) := by
  have hsafe : SafeTx (smallSb 40 4) 1 [(36, ones), (37, ones)] :=
    ⟨by decide, by simp, by simp, by simp, by simp [smallSb], by simp [InJournal, smallSb]⟩
  obtain ⟨hmagic, hstate, hseq, hcount, hsum, htargets⟩ := commitBlock_header hsafe (by decide)
  have ht0 := htargets 0 (by simp)
  have ht1 := htargets 1 (by simp)
  simp only [getElem_cons_zero, getElem_cons_succ] at ht0 ht1
  have hread : journalRawRead 0 2 tornProbed =
      (some (commitBlock 1 [(36, ones), (37, ones)]), { tornProbed with tick := 2 }) := rfl
  have hread0 : journalRawRead 0 3 { tornProbed with tick := 2 } =
      (some ones, { tornProbed with tick := 3 }) := rfl
  have hread1 : journalRawRead 0 4 { tornProbed with tick := 3 } =
      (some ones, { tornProbed with tick := 4 }) := rfl
  have hentries : recoverEntries 0 (smallSb 40 4)
      (KfsJournalHeader.ofBlock (commitBlock 1 [(36, ones), (37, ones)])).targets 2 0 []
      { tornProbed with tick := 2 } =
      (some [(36, ones), (37, ones)], { tornProbed with tick := 4 }) := by
    simp only [recoverEntries, ht0, ht1, smallSb]
    simp [hread0, hread1]
  have hfail : tornWritten.1 = false := rfl
  have hstart : (smallSb 40 4).journalStart = 2 := rfl
  unfold journalRecover
  simp only [tornProbed_sb, hstart, hread, hmagic, hstate, hseq, hcount, hsum]
  simp only [length_cons, length_nil, Nat.reduceAdd, hentries]
  rw [if_neg (by decide), if_neg (by decide), if_neg (by simp)]
  unfold tornWritten at hfail ⊢
  generalize writeHomes 0 _ _ = r at hfail ⊢
  obtain ⟨ok, t⟩ := r
  simp only at hfail
  subst hfail
  rfl

def tornFailed : Driver :=
  mountAbandon 0 tornWritten.2

theorem tornReplay_mount :
    ((kfsTypeMount (some 0)).run MountSec.step tornReplay).2 = tornFailed := by
  have hok : probeOffsets 0 256 (updInst tornReplay 0 fun _ => boundFs 0 1) = (true, tornProbed) :=
    Prod.ext (by decide +kernel) rfl
  have hrec : mountRecover 0 tornProbed = (false, tornWritten.2) := by
    rw [mountRecover, tornProbed_recover]
    rfl
  have hprobe : mountProbe 0 256 (updInst tornReplay 0 fun _ => boundFs 0 1) =
      (false, tornWritten.2) := by
    simp only [mountProbe, hok, if_true, hrec, Bool.false_eq_true, if_false]
  have hrun :=
    @kfsTypeMount_probe 0 tornReplay 0 (by decide) (by decide +kernel) (by decide +kernel)
  rw [probeEnd, boundTo, show 2048 * 512 / (tornReplay.bdev 0).blockSize = 256 by decide,
    show 4096 / (tornReplay.bdev 0).blockSize = 1 by decide] at hrun
  simp only [hprobe, Bool.false_eq_true, if_false] at hrun
  exact hrun

theorem bread_cached {fs : InstId} {b : Nat} {s : Driver} {i : Fin 16}
    (hp : (journalPending s fs b).isNone) (hf : bcacheFind s fs b = some i) :
    (bread fs b s).1 = some (s.bcache i).data := by
  rw [bread, Option.isNone_iff_eq_none.mp hp, hf]

def strayRun : List KfsOp :=
  [.mount (some 0), .sec (.read 0 2 0 (some fun _ => 0) 1), .sec (.call 0 (.chmod 2 0 0))]

/-- Two ways in which a mounted instance serves a block that its device does not hold: its slot of
the pool was taken over from a mount that failed during the replay, or the block is one of the
journal region that a corrupt inode names. -/
theorem runKfs_stale :
    (Booted tornReplay ∧
      ((runKfs [.mount (some 0), .mount (some 1)] (freshVfs tornReplay)).drv.instances 0).mounted =
        true ∧
      ∃ d, (bread 0 36 (runKfs [.mount (some 0), .mount (some 1)] (freshVfs tornReplay)).drv).1 =
          some d ∧
        d ≠ home (runKfs [.mount (some 0), .mount (some 1)] (freshVfs tornReplay)).drv 0 36) ∧
    Booted strayPointer ∧
      ((runKfs strayRun (freshVfs strayPointer)).drv.instances 0).mounted = true ∧
      ∃ d, (bread 0 3 (runKfs strayRun (freshVfs strayPointer)).drv).1 = some d ∧
        d ≠ home (runKfs strayRun (freshVfs strayPointer)).drv 0 3 := by
  have hrun : (runKfs [.mount (some 0), .mount (some 1)] (freshVfs tornReplay)).drv =
      ((kfsTypeMount (some 1)).run MountSec.step tornFailed).2 := by
    simp only [runKfs, KfsOp.step, freshVfs, tornReplay_mount]
  rw [hrun]
  refine ⟨⟨⟨rfl, fun _ => rfl, fun _ => rfl⟩, by decide +kernel,
    _, @bread_cached 0 36 _ 0 (by decide +kernel) (by decide +kernel), ?_⟩,
    bootDriver_booted _, by decide +kernel,
    _, @bread_cached 0 3 _ 1 (by decide +kernel) (by decide +kernel), ?_⟩
  · intro h
    exact absurd (congrFun h 0) (by decide +kernel)
  · intro h
    exact absurd (congrFun h 64) (by decide +kernel)

end KestrelOS.Kfs
