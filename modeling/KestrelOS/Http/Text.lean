import KestrelOS.Lib.Text

/-!
# Text of an HTTP message

The ASCII helpers of the client, its number readers, and the header block: unfolded
`Name: value` lines split into an array of names and values.
-/

namespace KestrelOS.Http

def hLower (c : UInt8) : UInt8 := if 0x41 ≤ c ∧ c ≤ 0x5a then c + 32 else c

def hSpace (c : UInt8) : Bool := c == 0x20 || c == 0x09

def hDigit (c : UInt8) : Bool := 0x30 ≤ c && c ≤ 0x39

def ciEq (a b : List UInt8) : Bool := a.map hLower == b.map hLower

theorem hLower_cases (c : UInt8) :
    hLower c = c ∨ (65 ≤ c.toNat ∧ c.toNat ≤ 90 ∧ (hLower c).toNat = c.toNat + 32) := by
  unfold hLower
  split
  · rename_i hc
    have hge : 65 ≤ c.toNat := UInt8.le_iff_toNat_le.mp hc.1
    have hle : c.toNat ≤ 90 := UInt8.le_iff_toNat_le.mp hc.2
    have hadd : (c + 32).toNat = (c.toNat + 32) % 256 := UInt8.toNat_add c 32
    exact .inr ⟨hge, hle, by omega⟩
  · exact .inl rfl

theorem hLower_hLower (c : UInt8) : hLower (hLower c) = hLower c := by
  obtain heq | ⟨hge, hle, hadd⟩ := hLower_cases c
  · rw [heq]
    exact heq
  obtain heq | ⟨-, hle', -⟩ := hLower_cases (hLower c)
  · exact heq
  · omega

theorem hLower_eq_iff {c d : UInt8} (hd : d.toNat < 65) : hLower c = d ↔ c = d := by
  obtain heq | ⟨hge, -, hadd⟩ := hLower_cases c
  · rw [heq]
  constructor
  · intro h
    rw [h] at hadd
    omega
  intro h
  rw [h] at hge
  omega

theorem hDigit_hLower (c : UInt8) : hDigit (hLower c) = hDigit c := by
  have hiff : ∀ d : UInt8, hDigit d ↔ 48 ≤ d.toNat ∧ d.toNat ≤ 57 := by
    intro d
    simp only [hDigit, Bool.and_eq_true, decide_eq_true_eq, UInt8.le_iff_toNat_le]
    rfl
  obtain heq | ⟨hge, -, hadd⟩ := hLower_cases c
  · rw [heq]
  · rw [Bool.eq_iff_iff, hiff, hiff]
    omega

theorem ciEq_iff_map {a b : List UInt8} : ciEq a b ↔ a.map hLower = b.map hLower := beq_iff_eq

def ciPrefix (s pfx : List UInt8) : Bool := (pfx.map hLower).isPrefixOf (s.map hLower)

def ciStr (hay needle : List UInt8) : Bool :=
  needle.length == 0 || hay.tails.any fun t => ciPrefix t needle

def ulMax : Nat := 2 ^ 64 - 1

/-- The digits from here on; `none` when the number would not fit. -/
def digitsLoop : List UInt8 → Nat → Option Nat
  | [], v => some v
  | c :: s, v =>
    if hDigit c then
      if v > (ulMax - 9) / 10 then none else digitsLoop s (v * 10 + (c.toNat - 0x30))
    else some v

/-- A decimal number behind blanks; `none` where the source clears `ok`. -/
def parseUl (s : List UInt8) : Option Nat :=
  let s := s.dropWhile hSpace
  if s.head?.any hDigit then digitsLoop s 0 else none

def hexDigit (c : UInt8) : Option Nat :=
  let c := hLower c
  if 0x30 ≤ c ∧ c ≤ 0x39 then some (c.toNat - 0x30)
  else if 0x61 ≤ c ∧ c ≤ 0x66 then some (c.toNat - 0x61 + 10)
  else none

def hexLoop : List UInt8 → Nat → Option Nat
  | [], v => some v
  | c :: s, v =>
    match hexDigit c with
    | none => some v
    | some d => if v > ulMax >>> 4 then none else hexLoop s (v <<< 4 ||| d)

def parseHex (s : List UInt8) : Option Nat :=
  if (s.head?.bind hexDigit).isSome then hexLoop s 0 else none

def httpHeaderCount : Nat := 128

abbrev Header := List UInt8 × List UInt8

def trimBlanks (v : List UInt8) : List UInt8 :=
  ((v.dropWhile hSpace).reverse.dropWhile hSpace).reverse

def splitColon : List UInt8 → Option Header
  | [] => none
  | c :: s =>
    if c = 0x3a then some ([], s) else (splitColon s).map fun h => (c :: h.1, h.2)

def headerOf (line : List UInt8) : Option Header :=
  (splitColon line).map fun h => (h.1, trimBlanks h.2)

/-- The lines of a block; the one at hand is collected in reverse. -/
def blockLines : List UInt8 → List UInt8 → List (List UInt8)
  | [], line => if line.isEmpty then [] else [line.reverse]
  | c :: s, line => if c = 0x0a then line.reverse :: blockLines s [] else blockLines s (c :: line)

/-- The block ends at its first NUL, and the array has room for one header a newline. -/
def headersBuild (raw : List UInt8) : List Header :=
  let block := untilNul raw
  let n := min (max (block.count 0x0a) 1) httpHeaderCount
  ((blockLines block []).filterMap headerOf).take n

/-- All values of a header, in order; `http_header_nth` returns the one at its index. -/
def headerValues (headers : List Header) (name : List UInt8) : List (List UInt8) :=
  (headers.filter fun h => ciEq h.1 name).map Prod.snd

def headerNth (headers : List Header) (name : List UInt8) (n : Nat) : Option (List UInt8) :=
  (headerValues headers name)[n]?

def headerGet (headers : List Header) (name : List UInt8) : Option (List UInt8) :=
  headerNth headers name 0

structure HttpResponse where
  status : Nat
  httpMinor : Nat
  headers : List Header
  body : Option (List UInt8)
  finalUrl : List UInt8
  redirects : Nat
  fromCache : Bool
  deriving DecidableEq, Repr

def HttpResponse.zero : HttpResponse where
  status := 0
  httpMinor := 0
  headers := []
  body := none
  finalUrl := []
  redirects := 0
  fromCache := false

end KestrelOS.Http
