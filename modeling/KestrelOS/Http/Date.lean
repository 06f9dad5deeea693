import KestrelOS.Http.Text

/-!
# HTTP dates

The calendar arithmetic that the client and the cookie jar share, and `http_parse_date`. Its clock
is in `int`s and its year and result are `long`s, which wrap around as the compiled code does.
-/

namespace KestrelOS.Http

def daysFromCivil (y : Int) (m d : Nat) : Int :=
  let y := y - (if m ≤ 2 then 1 else 0)
  let era := (if 0 ≤ y then y else y - 399).tdiv 400
  let yoe := y - era * 400
  let doy : Int := ((153 * ((m : Int) + (if 2 < m then -3 else 9)) + 2).tdiv 5) + d - 1
  let doe := yoe * 365 + yoe.tdiv 4 - yoe.tdiv 100 + doy
  era * 146097 + doe - 719468

def monthNames : List (List UInt8) :=
  [ascii "jan", ascii "feb", ascii "mar", ascii "apr", ascii "may", ascii "jun",
    ascii "jul", ascii "aug", ascii "sep", ascii "oct", ascii "nov", ascii "dec"]

def monthId (s : List UInt8) : Option Nat :=
  (monthNames.findIdx? (· = (s.take 3).map hLower)).map (· + 1)

def number (digits : List UInt8) : Nat := digits.foldl (fun v c => v * 10 + (c.toNat - 0x30)) 0

def fullYear (year : Nat) : Nat :=
  if 70 ≤ year ∧ year ≤ 99 then year + 1900 else if year ≤ 69 then year + 2000 else year

structure DateParts where
  time : Option (Nat × Nat × Nat) := none
  day : Option Nat := none
  mon : Option Nat := none
  year : Option Nat := none
  deriving DecidableEq

def isLetter (c : UInt8) : Bool := 0x61 ≤ hLower c ∧ hLower c ≤ 0x7a

def clockRest (s : List UInt8) : (Nat × Nat) × List UInt8 :=
  let mm := s.takeWhile hDigit
  let q := s.drop mm.length
  if q.head? = some 0x3a then
    let ss := q.tail.takeWhile hDigit
    ((number mm, number ss), q.tail.drop ss.length)
  else ((number mm, 0), q)

/-- The loop of `http_parse_date`; every turn reads a token. -/
def dateLoop : Nat → List UInt8 → DateParts → DateParts
  | 0, _, d => d
  | fuel + 1, s, d =>
    let p := s.dropWhile fun c => ¬ (hDigit c ∨ isLetter c)
    match p with
    | [] => d
    | c :: _ =>
      if hDigit c then
        let digits := p.takeWhile hDigit
        let q := p.drop digits.length
        if q.head? = some 0x3a ∧ d.time = none then
          let (clock, q) := clockRest q.tail
          dateLoop fuel q { d with time := some (number digits, clock) }
        else if digits.length ≤ 2 ∧ d.day = none then
          dateLoop fuel q { d with day := some (number digits) }
        else if d.year = none then dateLoop fuel q { d with year := some (number digits) }
        else dateLoop fuel q d
      else
        let word := p.takeWhile isLetter
        let q := p.drop word.length
        if d.mon = none ∧ 3 ≤ word.length then dateLoop fuel q { d with mon := monthId p }
        else dateLoop fuel q d

/-- The value of a `long` or an `int` that sums of products are stored in. -/
def toLong (v : Int) : Int := v.bmod (2 ^ 64)

@[inherit_doc toLong] def toInt (v : Int) : Int := v.bmod (2 ^ 32)

def httpParseDate (s : List UInt8) : Int :=
  if 64 < s.length then -1
  else match dateLoop s.length s {} with
    | ⟨some (hh, mm, ss), some day, some mon, some year⟩ =>
      let year := toLong year
      -- a year that wrapped below zero is not completed
      if day < 1 ∨ 31 < day ∨ year < 0 ∨ fullYear year.toNat < 1601 then -1
      else toLong (daysFromCivil (fullYear year.toNat) mon day * 86400 + toInt hh * 3600 +
        toInt mm * 60 + toInt ss)
    | _ => -1

example : httpParseDate (ascii "Sun, 06 Nov 1994 08:49:37 GMT") = 784111777 := by decide +kernel

example : httpParseDate (ascii "Thu, 01 Jan 1970 4294967296:00:00 GMT") = 0 := by decide +kernel

end KestrelOS.Http
