import KestrelOS.Http.Date
import KestrelOS.Http.Url
import KestrelOS.Tls.X509

/-!
# Calendars

The kernel clock, the certificate parser, the HTTP client and the script engine each count days
since 1970 in their own way.
-/

namespace KestrelOS.Calendar

open List Tls

/-- Leap years before `y`; the callers have `y ≥ 1970`. -/
def leapsBefore (y : Nat) : Nat :=
  let p := y - 1
  p / 4 - p / 100 + p / 400

def monthStart : List Nat := [0, 31, 59, 90, 120, 151, 181, 212, 243, 273, 304, 334]

def daysFromEpoch (y mon day : Nat) : Nat :=
  if y < 1970 ∨ mon < 1 ∨ mon > 12 ∨ day < 1 then 0
  else ((y - 1970) * 365 + (leapsBefore y - leapsBefore 1970) + monthStart.getD (mon - 1) 0 +
    (if mon > 2 ∧ isLeap y then 1 else 0) + (day - 1)) % 2 ^ 32

def yearLoop : Nat → Int → Int → Int × Int
  | 0, y, days => (y, days)
  | fuel + 1, y, days =>
    let n := if isLeap y then 366 else 365
    if days ≥ n then yearLoop fuel (y + 1) (days - n) else (y, days)

def monthLoop (leap : Bool) : List Int → Nat → Int → Nat × Int
  | [], mo, days => (mo, days)
  | m :: ms, mo, days =>
    let dm := m + if mo = 1 ∧ leap then 1 else 0
    if days < dm then (mo, days) else monthLoop leap ms (mo + 1) (days - dm)

def dateText (y m d : Nat) : List UInt8 :=
  (Http.uintText y).leftpad 4 0x30 ++ [0x2d] ++ (Http.uintText m).leftpad 2 0x30 ++ [0x2d] ++
    (Http.uintText d).leftpad 2 0x30

def x509FormatDate (t : UInt32) (cap : Nat) : List UInt8 :=
  let days := t.toNat / 86400
  let (y, days) := yearLoop days 1970 days
  let (mo, days) := monthLoop (isLeap y) mdays 0 days
  (dateText y.toNat (min mo 11 + 1) (days + 1).toNat).take (cap - 1)

/-- A `long` has 64 bits. No sum or product of this function leaves it for a year below `2 ^ 54`,
and none of the next for a day number below `2 ^ 62`, so they are not cut; beyond that C has
overflow. -/
def daysFromCivil (y m d : Int) : Int :=
  let y := y - if m ≤ 2 then 1 else 0
  let era := (if 0 ≤ y then y else y - 399).tdiv 400
  let yoe := y - era * 400
  let doy := (153 * (m + if m > 2 then -3 else 9) + 2).tdiv 5 + d - 1
  let doe := yoe * 365 + yoe.tdiv 4 - yoe.tdiv 100 + doy
  era * 146097 + doe - 719468

def civilFromDays (z : Int) : Int × Int × Int :=
  let z := z + 719468
  let era := (if 0 ≤ z then z else z - 146096).tdiv 146097
  let doe := z - era * 146097
  let yoe := (doe - doe.tdiv 1460 + doe.tdiv 36524 - doe.tdiv 146096).tdiv 365
  let yy := yoe + era * 400
  let doy := doe - (365 * yoe + yoe.tdiv 4 - yoe.tdiv 100)
  let mp := (5 * doy + 2).tdiv 153
  let dd := doy - (153 * mp + 2).tdiv 5 + 1
  let mm := mp + if mp < 10 then 3 else -9
  (yy + if mm ≤ 2 then 1 else 0, mm, dd)

def yearStart (y : Int) : Int :=
  (y - 1970) * 365 + ((y - 1) / 4 - (y - 1) / 100 + (y - 1) / 400 - 477)

theorem daysFromCivil_eq {y m d : Int} (hm : 1 ≤ m) : daysFromCivil y m d =
    yearStart (y - (if m ≤ 2 then 1 else 0) + 1) +
      (153 * (m + if m > 2 then -3 else 9) + 2) / 5 + d - 307 := by
  have hera : ∀ y : Int, (if 0 ≤ y then y else y - 399).tdiv 400 = y / 400 := by grind
  dsimp only [daysFromCivil, yearStart]
  rw [hera, Int.tdiv_eq_ediv_of_nonneg (by omega), Int.tdiv_eq_ediv_of_nonneg (by omega),
    Int.tdiv_eq_ediv_of_nonneg (by split <;> omega), add_sub_cancel_right]
  omega

theorem http_daysFromCivil (y m d : Nat) : Http.daysFromCivil y m d = daysFromCivil y m d := by
  have hle : ((m : Int) ≤ 2) = (m ≤ 2) := by simp
  have hlt : ((m : Int) > 2) = (2 < m) := by simp
  rw [Http.daysFromCivil, daysFromCivil]
  simp only [hle, hlt]

theorem yearOfEra_bounds {doe yoe : Int} (h : 0 ≤ doe ∧ doe < 146097)
    (hy : yoe = (doe - doe / 1460 + doe / 36524 - doe / 146096) / 365) :
    (0 ≤ yoe ∧ yoe < 400) ∧ 0 ≤ doe - (365 * yoe + yoe / 4 - yoe / 100) ∧
      doe - (365 * yoe + yoe / 4 - yoe / 100) ≤ 365 := by
  obtain hlast | rfl : doe / 146096 = 0 ∨ doe = 146096 := by omega
  · rw [hlast] at hy
    generalize hq : doe / 36524 = q at hy
    have hq' : q = 0 ∨ q = 1 ∨ q = 2 ∨ q = 3 := by omega
    have hcentury : yoe / 100 = q := by
      rcases hq' with rfl | rfl | rfl | rfl <;> omega
    rw [hcentury]
    omega
  · omega

theorem daysFromCivil_civilFromDays (z : Int) :
    daysFromCivil (civilFromDays z).1 (civilFromDays z).2.1 (civilFromDays z).2.2 = z := by
  have hfloor : ∀ z : Int, (if 0 ≤ z then z else z - 146096).tdiv 146097 = z / 146097 := by
    intro z
    split
    · exact Int.tdiv_eq_ediv_of_nonneg ‹_›
    · rw [← neg_sub, Int.neg_tdiv, Int.tdiv_eq_ediv_of_nonneg (by omega)]
      omega
  dsimp only [civilFromDays]
  rw [hfloor]
  generalize hera : (z + 719468) / 146097 = era
  generalize hdoe : z + 719468 - era * 146097 = doe
  have hb : 0 ≤ doe ∧ doe < 146097 := by omega
  simp only [Int.tdiv_eq_ediv_of_nonneg hb.1]
  rw [Int.tdiv_eq_ediv_of_nonneg (b := 365) (by omega)]
  generalize hyoe : (doe - doe / 1460 + doe / 36524 - doe / 146096) / 365 = yoe
  obtain ⟨hy, hd⟩ := yearOfEra_bounds hb hyoe.symm
  clear hyoe
  simp only [Int.tdiv_eq_ediv_of_nonneg hy.1]
  generalize hdoy : doe - (365 * yoe + yoe / 4 - yoe / 100) = doy at hd ⊢
  rw [Int.tdiv_eq_ediv_of_nonneg (a := 5 * doy + 2) (by omega)]
  generalize hmp : (5 * doy + 2) / 153 = mp
  generalize hmm : (mp + if mp < 10 then 3 else -9) = mm
  have h4 : (yoe + era * 400) / 4 = yoe / 4 + era * 100 := by omega
  have h100 : (yoe + era * 400) / 100 = yoe / 100 + era * 4 := by omega
  have h400 : (yoe + era * 400) / 400 = era := by omega
  have hmarch : mm + (if mm > 2 then -3 else 9) = mp := by omega
  rw [daysFromCivil_eq (by omega), hmarch, Int.tdiv_eq_ediv_of_nonneg (by omega),
    add_sub_cancel_right, yearStart, add_sub_cancel_right, h4, h100, h400]
  omega

theorem yearStart_succ (y : Int) :
    yearStart (y + 1) = yearStart y + if isLeap y then 366 else 365 := by
  simp only [yearStart, isLeap, decide_eq_true_eq]
  omega

theorem yearStart_mono {y0 y : Int} (h : y0 ≤ y) : yearStart y0 ≤ yearStart y := by
  unfold yearStart
  omega

theorem yearLoop_eq {fuel : Nat} {y y0 r : Int} (hfuel : y - y0 ≤ fuel) (hy : y0 ≤ y) (hr : 0 ≤ r)
    (hlt : r < if isLeap y then 366 else 365) :
    yearLoop fuel y0 (yearStart y - yearStart y0 + r) = (y, r) := by
  induction fuel generalizing y0 with
  | zero =>
    obtain rfl : y0 = y := by omega
    rw [yearLoop, sub_self, zero_add]
  | succ fuel ih =>
    have hsucc := yearStart_succ y0
    rw [yearLoop]
    obtain rfl | hne := eq_or_ne y0 y
    · rw [sub_self, zero_add, if_neg (by omega)]
    have hnext : y0 + 1 ≤ y := by omega
    have hmono := yearStart_mono hnext
    rw [if_pos (by omega), ← ih (by omega) hnext, hsucc]
    congr 1
    omega

def ValidDate (y m d : Nat) : Prop := 1970 ≤ y ∧ y ≤ 2105 ∧ 1 ≤ m ∧ m ≤ 12 ∧ 1 ≤ d ∧
  (d : Int) ≤ mdays.getD (m - 1) 0 + if m = 2 ∧ isLeap y then 1 else 0

theorem months_fit : ∀ i < 12, cumDays.getD i 0 = monthStart.getD i 0 ∧ mdays.getD i 0 ≤ 31 ∧
    monthStart.getD i 0 + mdays.getD i 0 ≤ 365 := by
  decide

variable {y m d : Nat}

def dayOfYear (leap : Bool) (m d : Nat) : Nat :=
  monthStart.getD (m - 1) 0 + (if m > 2 ∧ leap then 1 else 0) + (d - 1)

theorem monthLoop_eq : ∀ leap : Bool, ∀ m < 12, ∀ d < (32 : Nat),
    (d : Int) < mdays.getD m 0 + (if m = 1 ∧ leap then 1 else 0) →
      monthLoop leap mdays 0 (dayOfYear leap (m + 1) (d + 1)) = (m, (d : Int)) := by
  decide +kernel

theorem ValidDate.dayOfYear_lt (h : ValidDate y m d) :
    (dayOfYear (isLeap y) m d : Int) < if isLeap y then 366 else 365 := by
  obtain ⟨-, -, hm, hm', hd, hd'⟩ := h
  obtain ⟨-, -, hfit⟩ := months_fit (m - 1) (by omega)
  unfold dayOfYear
  generalize isLeap y = leap at hd' ⊢
  cases leap <;> simp at hd' hfit ⊢ <;> omega

theorem daysFromEpoch_eq (h : ValidDate y m d) :
    (daysFromEpoch y m d : Int) = yearStart y + dayOfYear (isLeap y) m d := by
  have hlt := h.dayOfYear_lt
  obtain ⟨hy, hy', hm, hm', hd, -⟩ := h
  rw [daysFromEpoch, if_neg (by omega), add_assoc, add_assoc, ← add_assoc (monthStart.getD _ _),
    ← dayOfYear]
  generalize dayOfYear (isLeap y) m d = r at hlt ⊢
  obtain ⟨p, rfl⟩ : ∃ p, y = p + 1 := ⟨y - 1, by omega⟩
  rw [yearStart, Nat.cast_add, Nat.cast_one, add_sub_cancel_right]
  simp only [leapsBefore, Nat.add_sub_cancel]
  split at hlt <;> omega

theorem daysFromCivil_eq_yearStart (hm : 1 ≤ m) (hm' : m ≤ 12) (hd : 1 ≤ d) (y : Int) :
    daysFromCivil y m d = yearStart y + dayOfYear (isLeap y) m d := by
  rw [daysFromCivil_eq (by omega), dayOfYear]
  obtain hm2 | hm2 := Nat.lt_or_ge 2 m
  · rw [if_neg (by omega), if_pos (by omega), sub_zero, yearStart_succ]
    generalize isLeap y = leap
    interval_cases m <;> cases leap <;> simp [monthStart] <;> omega
  · rw [if_pos (by omega), if_neg (by omega), sub_add_cancel]
    interval_cases m <;> simp [monthStart] <;> omega

/-- The counts of the days since 1970 agree, and the way back from a count is its inverse. -/
theorem calendars_agree (h : ValidDate y m d) :
    civilToUnix y m d 0 0 0 = daysFromEpoch y m d * 86400 ∧
    Http.daysFromCivil y m d = daysFromEpoch y m d ∧ daysFromCivil y m d = daysFromEpoch y m d ∧
    (∀ cap, x509FormatDate (.ofNat (daysFromEpoch y m d * 86400)) cap =
      (dateText y m d).take (cap - 1)) ∧
    ∀ z, daysFromCivil (civilFromDays z).1 (civilFromDays z).2.1 (civilFromDays z).2.2 = z := by
  have hdays := daysFromEpoch_eq h
  have hlt := h.dayOfYear_lt
  obtain ⟨hy, hy', hm, hm', hd, hd'⟩ := h
  have hcivil := daysFromCivil_eq_yearStart hm hm' hd y
  rw [← hdays] at hcivil
  refine ⟨?_, (http_daysFromCivil y m d).trans hcivil, hcivil, fun cap => ?_,
    daysFromCivil_civilFromDays⟩
  · have hgt : ((m : Int) > 2) = (m > 2) := by simp
    rw [hdays, civilToUnix, yearStart, dayOfYear, show ((m : Int) - 1).toNat = m - 1 by omega,
      (months_fit (m - 1) (by omega)).1]
    simp only [hgt]
    split <;> omega
  · have hbound : (y : Int) - 1970 ≤ daysFromEpoch y m d ∧ daysFromEpoch y m d < 49710 := by
      unfold yearStart at hdays
      split at hlt <;> omega
    have hyear := yearLoop_eq hbound.1 (by omega) (Int.natCast_nonneg _) hlt
    rw [show yearStart 1970 = 0 from rfl, sub_zero, ← hdays] at hyear
    rw [x509FormatDate, UInt32.toNat_ofNat_of_lt' (show _ < 2 ^ 32 by omega),
      Nat.mul_div_cancel _ (by decide), hyear]
    obtain ⟨m, rfl⟩ : ∃ k, m = k + 1 := ⟨m - 1, by omega⟩
    obtain ⟨d, rfl⟩ : ∃ k, d = k + 1 := ⟨d - 1, by omega⟩
    have hmonth := (months_fit m (by omega)).2.1
    rw [Nat.add_sub_cancel] at hd'
    dsimp only
    rw [monthLoop_eq _ m (by omega) d (by split at hd' <;> omega) (by simp at hd' ⊢; omega)]
    dsimp only
    rw [min_eq_left (by omega)]
    rfl

theorem calendars_agree_leap_day : ValidDate 2000 2 29 ∧
    daysFromCivil 2000 2 29 = daysFromEpoch 2000 2 29 := by
  have h : ValidDate 2000 2 29 := by
    unfold ValidDate
    decide
  exact ⟨h, (calendars_agree h).2.2.1⟩

end KestrelOS.Calendar
