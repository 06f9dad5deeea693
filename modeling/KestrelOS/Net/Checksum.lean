import KestrelOS.Lib.Words

/-!
# The Internet checksum

`net_transport_checksum` over the pseudo-header and a segment. A segment with the returned value in
its checksum field checks to zero, also where UDP sends all ones for a computed zero.
-/

namespace KestrelOS.Net

open Nat

/-- `sum` plus the bytes as big-endian words, a last odd byte as the high half of one. -/
def addBytes (sum : Nat) : List UInt8 → Words Nat
  | [] => pure sum
  | [b] => Words.add 32 sum (b.toNat <<< 8)
  | b :: b' :: rest => do
    let sum ← Words.add 32 sum (b.toNat <<< 8 ||| b'.toNat)
    addBytes sum rest

/-- The loop of `finish_sum`; a sum of 32 bits takes two turns. -/
def foldCarries : Nat → Nat → Words Nat
  | 0, sum => pure sum
  | fuel + 1, sum =>
    if sum >>> 16 ≠ 0 then do
      let sum ← Words.add 32 (sum &&& 0xFFFF) (sum >>> 16)
      foldCarries fuel sum
    else pure sum

def htons (v : Nat) : Nat := v % 256 * 256 + v / 256

def finishSum (sum : Nat) : Words Nat := do
  let sum ← foldCarries 2 sum
  pure (htons (0xFFFF - sum % 65536))

def addressBytes (a : UInt32) : List UInt8 :=
  [UInt8.ofNat a.toNat, UInt8.ofNat (a.toNat >>> 8), UInt8.ofNat (a.toNat >>> 16),
    UInt8.ofNat (a.toNat >>> 24)]

def netTransportChecksum (src dst : UInt32) (protocol : UInt8) (segment : List UInt8) :
    Words Nat := do
  let sum ← addBytes 0 (addressBytes src)
  let sum ← addBytes sum (addressBytes dst)
  let sum ← Words.add 32 sum protocol.toNat
  let sum ← Words.add 32 sum (segment.length % 65536)
  let sum ← addBytes sum segment
  finishSum sum

/-- The bytes at `k` and `k + 1` replaced; after the last byte nothing is. -/
def setWord (l : List UInt8) (k : Nat) (b b' : UInt8) : List UInt8 := (l.set k b).set (k + 1) b'

/-- A 16-bit field of the segment is assigned, low byte first. -/
def store (segment : List UInt8) (off v : Nat) : List UInt8 :=
  setWord segment off (UInt8.ofNat v) (UInt8.ofNat (v >>> 8))

def udpCsum (v : Nat) : Nat := if v = 0 then 0xFFFF else v

/-- The word at an offset, filled up with zero after the last byte. -/
def word (l : List UInt8) (k : Nat) : Nat := (l.getD k 0).toNat * 256 + (l.getD (k + 1) 0).toNat

def wordSum : List UInt8 → Nat
  | [] => 0
  | [b] => b.toNat * 256
  | b :: b' :: rest => b.toNat * 256 + b'.toNat + wordSum rest

theorem wordSum_le (l : List UInt8) : wordSum l ≤ 65535 * ((l.length + 1) / 2) := by
  fun_induction wordSum l with
  | case1 => simp
  | case2 b =>
    have := b.toNat_lt
    simp
    omega
  | case3 b b' rest ih =>
    have := b.toNat_lt
    have := b'.toNat_lt
    simp only [List.length_cons]
    omega

theorem addBytes_meets {Q : Nat → Prop} (l : List UInt8) {sum : Nat} (h : sum + wordSum l < 2 ^ 32)
    (hQ : Q (sum + wordSum l)) : (addBytes sum l).Meets Q := by
  fun_induction wordSum l generalizing sum with
  | case1 => simpa [addBytes] using hQ
  | case2 b =>
    rw [addBytes, shiftLeft_eq]
    exact Words.meets_add h hQ
  | case3 b b' rest ih =>
    have hor : b.toNat <<< 8 ||| b'.toNat = b.toNat * 256 + b'.toNat := by
      rw [← shiftLeft_add_eq_or_of_lt b'.toNat_lt, shiftLeft_eq]
    rw [addBytes, hor]
    simp only [Words.meets_bind]
    rw [← Nat.add_assoc] at h hQ
    exact Words.meets_add (Nat.lt_of_le_of_lt (Nat.le_add_right _ _) h) (ih h hQ)

theorem foldCarries_meets {sum : Nat} (h : sum < 2 ^ 32) : (foldCarries 2 sum).Meets fun r =>
      r < 65536 ∧ r % 65535 = sum % 65535 ∧ (r = 0 ↔ sum = 0) := by
  have hand : ∀ n, n &&& 0xFFFF = n % 65536 := fun n => and_two_pow_sub_one_eq_mod n 16
  simp only [foldCarries, hand, shiftRight_eq_div_pow]
  split_ifs with h1
  · simp only [Words.meets_bind]
    apply Words.meets_add (by omega)
    split_ifs with h2
    · simp only [Words.meets_bind]
      apply Words.meets_add (by omega)
      rw [Words.meets_pure]
      omega
    · rw [Words.meets_pure]
      omega
  · rw [Words.meets_pure]
    omega

def total (src dst : UInt32) (protocol : UInt8) (segment : List UInt8) : Nat :=
  wordSum (addressBytes src) + wordSum (addressBytes dst) + protocol.toNat + segment.length +
    wordSum segment

variable (src dst : UInt32) (protocol : UInt8) {segment l : List UInt8} {k : Nat}

theorem netTransportChecksum_meets (hlen : segment.length ≤ 65535) :
    (netTransportChecksum src dst protocol segment).Meets fun c => ∃ r, r < 65536 ∧
      r % 65535 = total src dst protocol segment % 65535 ∧
      (r = 0 ↔ total src dst protocol segment = 0) ∧ c = htons (0xFFFF - r) := by
  have h1 := wordSum_le (addressBytes src)
  have h2 := wordSum_le (addressBytes dst)
  have h3 := wordSum_le segment
  have h4 := protocol.toNat_lt
  have hl : ∀ a, (addressBytes a).length = 4 := fun _ => rfl
  rw [hl] at h1 h2
  simp only [netTransportChecksum, Words.meets_bind]
  apply addBytes_meets _ (by omega)
  apply addBytes_meets _ (by omega)
  apply Words.meets_add (by omega)
  apply Words.meets_add (by omega)
  rw [mod_eq_of_lt (by omega : segment.length < 65536)]
  apply addBytes_meets _ (by omega)
  simp only [finishSum, Words.meets_bind, Nat.zero_add]
  refine (foldCarries_meets (by omega)).mono ?_
  rintro r ⟨hr, hmod, hzero⟩
  rw [Words.meets_pure, Nat.mod_eq_of_lt hr]
  exact ⟨r, hr, hmod, hzero, rfl⟩

theorem check_eq_zero_iff (hlen : segment.length ≤ 65535) (hpos : 0 < segment.length) :
    (netTransportChecksum src dst protocol segment).val = 0 ↔
      total src dst protocol segment % 65535 = 0 := by
  obtain ⟨-, r, hr, hmod, hzero, hc⟩ := netTransportChecksum_meets src dst protocol hlen
  have htotal : total src dst protocol segment ≠ 0 := by
    unfold total
    omega
  rw [hc, htons]
  omega

def weight (i : Nat) : Nat := if i % 2 = 0 then 256 else 1

theorem wordSum_set (l : List UInt8) (i : Nat) (b : UInt8) (hi : i < l.length) :
    wordSum (l.set i b) + weight i * (l.getD i 0).toNat = wordSum l + weight i * b.toNat := by
  fun_induction wordSum l generalizing i with
  | case1 => simp at hi
  | case2 c =>
    obtain rfl : i = 0 := by simpa using hi
    simp [wordSum, weight]
    omega
  | case3 c c' rest ih =>
    match i with
    | 0 | 1 =>
      simp [wordSum, weight]
      omega
    | i + 2 =>
      have := ih i (by simpa using hi)
      simp only [List.set_cons_succ, wordSum, weight, List.getD_cons_succ, add_mod_right] at *
      omega

theorem wordSum_setWord (hk : k < l.length) (b b' : UInt8) :
    wordSum (setWord l k b b') + weight k * (l.getD k 0).toNat +
        weight (k + 1) * (l.getD (k + 1) 0).toNat =
      wordSum l + weight k * ((setWord l k b b').getD k 0).toNat +
        weight (k + 1) * ((setWord l k b b').getD (k + 1) 0).toNat := by
  have h1 := wordSum_set l k b hk
  have hb : ((l.set k b).set (k + 1) b').getD k 0 = b := by
    simp [hk]
  have hn : (l.set k b).getD (k + 1) 0 = l.getD (k + 1) 0 := by
    simp
  rw [setWord, hb]
  rcases Nat.lt_or_ge (k + 1) l.length with hk' | hk'
  · have h2 := wordSum_set (l.set k b) (k + 1) b' (by simpa using hk')
    have hb' : ((l.set k b).set (k + 1) b').getD (k + 1) 0 = b' := by
      simp [hk']
    rw [hn] at h2
    rw [hb']
    omega
  · rw [List.set_eq_of_length_le (by simpa using hk'), hn]
    omega

theorem total_setWord (hk : k < l.length) (b b' : UInt8) :
    (total src dst protocol (setWord l k b b') + weight (k + 1) * word l k) % 65535 =
      (total src dst protocol l + weight (k + 1) * word (setWord l k b b') k) % 65535 := by
  have h := wordSum_setWord hk b b'
  have hlen : (setWord l k b b').length = l.length := by simp [setWord]
  simp only [total, hlen, word]
  unfold weight at h ⊢
  split_ifs at h ⊢ <;> omega

theorem total_store {off v : Nat} (heven : off % 2 = 0) (hoff : off + 2 ≤ segment.length)
    (hzero : word segment off = 0) (hv : v < 65536) :
    total src dst protocol (store segment off v) % 65535 =
      (total src dst protocol segment + htons v) % 65535 := by
  have h := total_setWord src dst protocol (by omega : off < segment.length) (UInt8.ofNat v)
    (UInt8.ofNat (v >>> 8))
  have hword : word (store segment off v) off = htons v := by
    simp [word, store, setWord, htons, show off < segment.length by omega,
      show off + 1 < segment.length by omega, shiftRight_eq_div_pow]
    omega
  rw [← store, hword, hzero] at h
  simpa [weight, show (off + 1) % 2 ≠ 0 by omega] using h

theorem transport_checksum_round_trip (src dst : UInt32) (protocol : UInt8) (segment : List UInt8)
    (off : Nat) (hlen : segment.length ≤ 65535) (heven : off % 2 = 0)
    (hoff : off + 2 ≤ segment.length) (hzero : word segment off = 0) :
    let csum := (netTransportChecksum src dst protocol segment).val
    (∀ l : List UInt8, l.length ≤ 65535 → (netTransportChecksum src dst protocol l).exact) ∧
      ∀ v, v = csum ∨ v = udpCsum csum →
        (netTransportChecksum src dst protocol (store segment off v)).val = 0 ∧
        ∀ k b b', k < segment.length →
          word (setWord (store segment off v) k b b') k % 65535 ≠
            word (store segment off v) k % 65535 →
          (netTransportChecksum src dst protocol (setWord (store segment off v) k b b')).val ≠
            0 := by
  refine ⟨fun l hl => (netTransportChecksum_meets src dst protocol hl).1, fun v hv => ?_⟩
  obtain ⟨-, r, hr, hmod, -, hc⟩ := netTransportChecksum_meets src dst protocol hlen
  have hslen : (store segment off v).length = segment.length := by simp [store, setWord]
  -- all ones and zero are the same modulo 65535
  have hv' : v < 65536 ∧ (htons v + r) % 65535 = 0 := by
    rw [hc, udpCsum] at hv
    unfold htons at *
    split_ifs at hv <;> omega
  have hstored : total src dst protocol (store segment off v) % 65535 = 0 := by
    rw [total_store src dst protocol heven hoff hzero hv'.1]
    omega
  refine ⟨(check_eq_zero_iff src dst protocol (by omega) (by omega)).2 hstored,
    fun k b b' hk hne hcheck => hne ?_⟩
  have hclen : (setWord (store segment off v) k b b').length = segment.length := by
    simp [setWord, hslen]
  have hchanged := (check_eq_zero_iff src dst protocol (by omega) (by omega)).1 hcheck
  have h := total_setWord src dst protocol (hslen ▸ hk) b b'
  unfold weight at h
  split_ifs at h <;> omega

/-- Source 10.0.0.1, destination 10.0.0.2, protocol 17, a segment of five bytes. -/
theorem transport_checksum_round_trip_odd_length :
    (netTransportChecksum 0x0100000A 0x0200000A 17
      (store [1, 2, 0, 0, 5] 2 (netTransportChecksum 0x0100000A 0x0200000A 17
        [1, 2, 0, 0, 5]).val)).val = 0 :=
  ((transport_checksum_round_trip 0x0100000A 0x0200000A 17 [1, 2, 0, 0, 5] 2 (by decide)
    (by decide) (by decide) (by decide)).2 _ (.inl rfl)).1

end KestrelOS.Net
