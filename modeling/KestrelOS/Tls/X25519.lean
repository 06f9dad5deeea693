import KestrelOS.Tls.Fe25519

/-!
# X25519

The Montgomery ladder of `x25519_scalarmult` over limbs follows the ladder of RFC 7748 section 5
over the integers modulo `2 ^ 255 - 19`, for every scalar and every u-coordinate.
-/

namespace KestrelOS.Tls

open Words List Nat

/-- The scalar with its low three bits and bit 255 cleared and bit 254 set. -/
def clamp (scalar : Bytes) : Bytes := fun i =>
  if i = 0 then scalar 0 &&& 248 else if i = 31 then scalar 31 &&& 127 ||| 64 else scalar i

structure Ladder where
  x2 : Fe
  z2 : Fe
  x3 : Fe
  z3 : Fe
  swap : Nat

/-- The conditional swaps at the head of a step and after the loop. -/
def Ladder.cswap (s : Ladder) : Ladder :=
  let x := feCswap s.x2 s.x3 s.swap
  let z := feCswap s.z2 s.z3 s.swap
  { s with x2 := x.1, x3 := x.2, z2 := z.1, z3 := z.2 }

def scalarBit (k : Bytes) (i : Nat) : Nat := (k (i / 8)).toNat >>> (i &&& 7) &&& 1

def ladderStep (x1 : Fe) (kt : Nat) (s : Ladder) : Words Ladder := do
  let s := { s with swap := s.swap ^^^ kt }.cswap
  let a ← feAdd s.x2 s.z2
  let aa ← feSq a
  let b ← feSub s.x2 s.z2
  let bb ← feSq b
  let e ← feSub aa bb
  let c ← feAdd s.x3 s.z3
  let d ← feSub s.x3 s.z3
  let da ← feMul d a
  let cb ← feMul c b
  let t ← feAdd da cb
  let x3 ← feSq t
  let t ← feSub da cb
  let t ← feSq t
  let z3 ← feMul x1 t
  let x2 ← feMul aa bb
  let t ← feMul121666 e
  let t ← feAdd t bb
  let z2 ← feMul e t
  pure ⟨x2, z2, x3, z3, kt⟩

def ladderLoop (k : Bytes) (x1 : Fe) : Nat → Ladder → Words Ladder
  | 0, s => pure s
  | i + 1, s => do
    let s ← ladderStep x1 (scalarBit k i) s
    ladderLoop k x1 i s

def x25519Scalarmult (scalar point : Bytes) : Words Bytes := do
  let x1 := feFrombytes point
  let s ← ladderLoop (clamp scalar) x1 255 ⟨feOne, feZero, x1, feOne, 0⟩
  let s := s.cswap
  let z2 ← feInvert s.z2
  let x2 ← feMul s.x2 z2
  feTobytes x2

def x25519 (scalar point : Bytes) : Words (Bytes × Int) := do
  let out ← x25519Scalarmult scalar point
  let acc := (List.range 32).foldl (fun acc i => acc ||| out i) 0
  pure (out, if acc ≠ 0 then 0 else -1)

namespace Rfc7748

/-- The ladder of section 5, over any ring. -/
structure State (R : Type) where
  x2 : R
  z2 : R
  x3 : R
  z3 : R
  swap : Nat

variable {R : Type} [CommRing R]

def State.cswap (s : State R) : State R :=
  if s.swap = 1 then { s with x2 := s.x3, x3 := s.x2, z2 := s.z3, z3 := s.z2 } else s

def step (a24 x1 : R) (kt : Nat) (s : State R) : State R :=
  let s := { s with swap := s.swap ^^^ kt }.cswap
  let a := s.x2 + s.z2
  let aa := a ^ 2
  let b := s.x2 - s.z2
  let bb := b ^ 2
  let e := aa - bb
  let c := s.x3 + s.z3
  let d := s.x3 - s.z3
  let da := d * a
  let cb := c * b
  ⟨aa * bb, e * (aa + a24 * e), (da + cb) ^ 2, x1 * (da - cb) ^ 2, kt⟩

def loop (a24 x1 : R) (k : Nat) : Nat → State R → State R
  | 0, s => s
  | t + 1, s => loop a24 x1 k t (step a24 x1 (k / 2 ^ t % 2) s)

/-- The result of the ladder for the scalar `k` and the u-coordinate `u`, modulo `p`. -/
def ladder (p k u : Nat) : ZMod p :=
  let s := (loop 121665 (u : ZMod p) k 255 ⟨1, 0, (u : ZMod p), 1, 0⟩).cswap
  s.x2 * s.z2 ^ (p - 2)

def decodeScalar25519 (k : Bytes) : Nat :=
  leNat (fun i => if i = 0 then k 0 &&& 248 else if i = 31 then k 31 &&& 127 ||| 64 else k i) 32

/-- The most significant bit of the last byte is ignored. -/
def decodeUCoordinate (u : Bytes) : Nat :=
  leNat (fun i => if i = 31 then u 31 &&& 127 else u i) 32

end Rfc7748

theorem scalarBit_eq (k : Bytes) {i : Nat} (hi : i < 256) :
    scalarBit k i = leNat k 32 / 2 ^ i % 2 := by
  have hseven : i &&& 7 = i % 8 := Nat.and_two_pow_sub_one_eq_mod i 3
  have hone : ∀ n, n &&& 1 = n % 2 := fun n => and_two_pow_sub_one_eq_mod n 1
  have hsplit : (2 : Nat) ^ i = 256 ^ (i / 8) * 2 ^ (i % 8) := by
    rw [show (256 : Nat) = 2 ^ 8 from rfl, ← pow_mul, ← pow_add, div_add_mod]
  have hdigit : (256 : Nat) = 2 ^ (i % 8) * 2 ^ (8 - i % 8) := by
    rw [← Nat.pow_add, show i % 8 + (8 - i % 8) = 8 by omega]
  have hdvd : 2 ∣ 2 ^ (8 - i % 8) := dvd_pow_self 2 (by omega)
  rw [scalarBit, hseven, hone, Nat.shiftRight_eq_div_pow, hsplit, ← Nat.div_div_eq_div_mul,
    ← leNat_digit k (by omega : i / 8 < 32)]
  generalize leNat k 32 / 256 ^ (i / 8) = x
  rw [hdigit, mod_mul_right_div_self, mod_mod_of_dvd _ hdvd]

/-- Tight limbs that stand for the numbers of the RFC's state. -/
structure Sim (s : Ladder) (r : Rfc7748.State (ZMod p25519)) : Prop where
  tx2 : s.x2.Tight
  tz2 : s.z2.Tight
  tx3 : s.x3.Tight
  tz3 : s.z3.Tight
  x2 : s.x2.res = r.x2
  z2 : s.z2.res = r.z2
  x3 : s.x3.res = r.x3
  z3 : s.z3.res = r.z3
  swap : s.swap = r.swap
  bit : s.swap < 2

variable {s : Ladder} {r : Rfc7748.State (ZMod p25519)}

theorem Sim.cswap (h : Sim s r) : Sim s.cswap r.cswap := by
  obtain ⟨t1, t2, t3, t4, e1, e2, e3, e4, hs, hb⟩ := h
  rcases (by omega : s.swap = 0 ∨ s.swap = 1) with h0 | h1
  · have hr : r.swap ≠ 1 := by omega
    rw [Ladder.cswap, h0, feCswap_zero, feCswap_zero, Rfc7748.State.cswap, if_neg hr]
    exact ⟨t1, t2, t3, t4, e1, e2, e3, e4, hs ▸ h0.symm, zero_lt_two⟩
  have hr : r.swap = 1 := by omega
  rw [Ladder.cswap, h1, feCswap_one t1 t3, feCswap_one t2 t4, Rfc7748.State.cswap, if_pos hr]
  exact ⟨t3, t4, t1, t2, e3, e4, e1, e2, hs ▸ h1.symm, one_lt_two⟩

theorem ladderStep_sim {x1 : Fe} {u : ZMod p25519} (hx1 : x1.Tight) (hu : x1.res = u) {kt : Nat}
    (hkt : kt < 2) (h : Sim s r) :
    (ladderStep x1 kt s).Meets fun s' => Sim s' (Rfc7748.step 121665 u kt r) := by
  have hswap : Sim { s with swap := s.swap ^^^ kt } { r with swap := r.swap ^^^ kt } :=
    ⟨h.tx2, h.tz2, h.tx3, h.tz3, h.x2, h.z2, h.x3, h.z3, by simp only [h.swap],
      by simpa using xor_lt_two_pow (by simpa using h.bit : s.swap < 2 ^ 1) hkt⟩
  replace h := hswap.cswap
  simp only [ladderStep, feSq, meets_bind, meets_pure, Rfc7748.step]
  generalize Ladder.cswap _ = s at h ⊢
  generalize Rfc7748.State.cswap _ = r at h ⊢
  refine (feAdd_spec h.tx2 h.tz2).mono fun a ha => ?_
  obtain ⟨ta, ra⟩ := ha
  refine (feMul_spec ta ta).mono fun aa haa => ?_
  obtain ⟨taa, raa⟩ := haa
  refine (feSub_spec h.tx2 h.tz2).mono fun b hb => ?_
  obtain ⟨tb, rb⟩ := hb
  refine (feMul_spec tb tb).mono fun bb hbb => ?_
  obtain ⟨tbb, rbb⟩ := hbb
  refine (feSub_spec taa tbb).mono fun e he => ?_
  obtain ⟨te, re⟩ := he
  refine (feAdd_spec h.tx3 h.tz3).mono fun c hc => ?_
  obtain ⟨tc, rc⟩ := hc
  refine (feSub_spec h.tx3 h.tz3).mono fun d hd => ?_
  obtain ⟨td, rd⟩ := hd
  refine (feMul_spec td ta).mono fun da hda => ?_
  obtain ⟨tda, rda⟩ := hda
  refine (feMul_spec tc tb).mono fun cb hcb => ?_
  obtain ⟨tcb, rcb⟩ := hcb
  refine (feAdd_spec tda tcb).mono fun u hu => ?_
  obtain ⟨tu, ru⟩ := hu
  refine (feMul_spec tu tu).mono fun x3 hx3 => ?_
  obtain ⟨tx3, rx3⟩ := hx3
  refine (feSub_spec tda tcb).mono fun v hv => ?_
  obtain ⟨tv, rv⟩ := hv
  refine (feMul_spec tv tv).mono fun vv hvv => ?_
  obtain ⟨tvv, rvv⟩ := hvv
  refine (feMul_spec hx1 tvv).mono fun z3 hz3 => ?_
  obtain ⟨tz3, rz3⟩ := hz3
  refine (feMul_spec taa tbb).mono fun x2 hx2 => ?_
  obtain ⟨tx2, rx2⟩ := hx2
  refine (feMul121666_spec te).mono fun w hw => ?_
  obtain ⟨tw, rw⟩ := hw
  refine (feAdd_spec tw tbb).mono fun y hy => ?_
  obtain ⟨ty, ry⟩ := hy
  refine (feMul_spec te ty).mono fun z2 hz2 => ?_
  obtain ⟨tz2, rz2⟩ := hz2
  refine ⟨tx2, tz2, tx3, tz3, ?_, ?_, ?_, ?_, rfl, hkt⟩
  · rw [rx2, raa, rbb, ra, rb, h.x2, h.z2]
    ring
  · -- `121666 * e + bb` is `aa + 121665 * e`
    rw [rz2, ry, rw, re, raa, rbb, ra, rb, h.x2, h.z2]
    ring
  · rw [rx3, ru, rda, rcb, rc, rd, ra, rb, h.x2, h.z2, h.x3, h.z3]
    ring
  · rw [rz3, rvv, rv, rda, rcb, rc, rd, ra, rb, h.x2, h.z2, h.x3, h.z3, hu]
    ring

theorem ladderLoop_sim {x1 : Fe} {u : ZMod p25519} (hx1 : x1.Tight) (hu : x1.res = u) (k : Bytes)
    {n : Nat} (hn : n ≤ 256) (h : Sim s r) :
    (ladderLoop k x1 n s).Meets fun s' => Sim s' (Rfc7748.loop 121665 u (leNat k 32) n r) := by
  induction n generalizing s r with
  | zero =>
    rw [ladderLoop, meets_pure]
    exact h
  | succ i ih =>
    rw [ladderLoop, meets_bind, scalarBit_eq k (by omega)]
    apply (ladderStep_sim hx1 hu (mod_lt _ (by decide)) h).mono
    intro s' hs'
    exact ih (by omega) hs'

theorem decodeUCoordinate_eq (u : Bytes) : Rfc7748.decodeUCoordinate u = leNat u 32 % 2 ^ 255 := by
  have hlow : leNat (fun i => if i = 31 then u 31 &&& 127 else u i) 31 = leNat u 31 := by
    apply leNat_congr
    intro i hi
    rw [if_neg (by omega)]
  have hlt := leNat_lt u 31
  have hand : (u 31 &&& 127).toNat = (u 31).toNat % 128 := by
    rw [UInt8.toNat_and]
    exact and_two_pow_sub_one_eq_mod _ 7
  have hfull : leNat u 32 = leNat u 31 + 256 ^ 31 * (u 31).toNat := rfl
  rw [Rfc7748.decodeUCoordinate, leNat, hlow, if_pos rfl, hand, hfull]
  omega

theorem x25519Scalarmult_spec (scalar point : Bytes) :
    (x25519Scalarmult scalar point).Meets fun out => ∀ i < 32, out i = leByte
      (Rfc7748.ladder p25519 (Rfc7748.decodeScalar25519 scalar)
        (Rfc7748.decodeUCoordinate point)).val i := by
  have hx1 := feFrombytes_tight point
  have hu : (feFrombytes point).res = (Rfc7748.decodeUCoordinate point : ZMod p25519) := by
    rw [Fe.res, feFrombytes_value, decodeUCoordinate_eq]
  have hstart : Sim ⟨feOne, feZero, feFrombytes point, feOne, 0⟩
      ⟨1, 0, (Rfc7748.decodeUCoordinate point : ZMod p25519), 1, 0⟩ :=
    ⟨feOne_tight, feZero_tight, hx1, feOne_tight, feOne_res, feZero_res, hu, feOne_res, rfl,
      zero_lt_two⟩
  simp only [x25519Scalarmult, meets_bind]
  apply (ladderLoop_sim hx1 hu (clamp scalar) (by decide) hstart).mono
  intro s hs
  have hs := hs.cswap
  refine (feInvert_spec hs.tz2).mono fun z2 hz2 => ?_
  refine (feMul_spec hs.tx2 hz2.1).mono fun x2 hx2 => ?_
  refine (feTobytes_spec hx2.1).mono fun out hout i hi => ?_
  rw [hout i hi, hx2.2, hz2.2, hs.x2, hs.z2]
  rfl

theorem foldl_or_eq_zero (f : Nat → UInt8) (l : List Nat) (a : UInt8) :
    l.foldl (fun acc i => acc ||| f i) a = 0 ↔ a = 0 ∧ ∀ i ∈ l, f i = 0 := by
  induction l generalizing a with
  | nil => simp
  | cons x xs ih =>
    rw [foldl_cons, ih, UInt8.or_eq_zero_iff, forall_mem_cons, and_assoc]

/-- For every scalar and u-coordinate nothing overflows, the bytes written are the canonical
encoding of the value RFC 7748 gives, and the call fails exactly when that value is zero. -/
theorem x25519_rfc7748 (scalar point : Bytes) :
    let run := x25519 scalar point
    let value := Rfc7748.ladder p25519 (Rfc7748.decodeScalar25519 scalar)
      (Rfc7748.decodeUCoordinate point)
    run.exact = true ∧ (∀ i < 32, run.val.1 i = leByte value.val i) ∧
      leNat run.val.1 32 = value.val ∧ value.val < 2 ^ 255 - 19 ∧
      (run.val.2 = -1 ↔ value = 0) ∧ (run.val.2 = 0 ↔ value ≠ 0) := by
  intro run value
  have hp : p25519 < 256 ^ 32 := by decide
  have : NeZero p25519 := ⟨by decide⟩
  have hlt : value.val < p25519 := ZMod.val_lt value
  have hmeets : run.Meets fun res => (∀ i < 32, res.1 i = leByte value.val i) ∧
      res.2 = if (range 32).foldl (fun acc i => acc ||| res.1 i) 0 ≠ 0 then 0 else -1 := by
    simp only [run, x25519, meets_bind]
    apply (x25519Scalarmult_spec scalar point).mono
    intro out hout
    rw [meets_pure]
    exact ⟨hout, rfl⟩
  obtain ⟨hexact, hbytes, hret⟩ := hmeets
  have hval : leNat run.val.1 32 = value.val := by
    rw [leNat_leByte hbytes, mod_eq_of_lt (by omega)]
  have hzero : (range 32).foldl (fun acc i => acc ||| run.val.1 i) 0 = 0 ↔ value = 0 := by
    rw [foldl_or_eq_zero, ← ZMod.val_eq_zero]
    constructor
    · intro h
      rw [← hval, leNat_congr 32 fun i hi => h.2 i (mem_range.mpr hi)]
      decide
    intro h
    refine ⟨rfl, fun i hi => ?_⟩
    rw [hbytes i (mem_range.mp hi), h]
    simp [leByte]
  refine ⟨hexact, hbytes, hval, hlt, ?_⟩
  by_cases hv : value = 0
  · rw [hret, if_neg (not_not.mpr (hzero.mpr hv))]
    simp [hv]
  · rw [hret, if_pos (mt hzero.mp hv)]
    simp [hv]

end KestrelOS.Tls
