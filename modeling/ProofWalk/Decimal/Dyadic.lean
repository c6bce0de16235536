/-!
# Decimal.Dyadic — the exact value of a floating-point number

A finite double is `m · 2^q` with its sign apart.  Decimals are chosen from this exact value, never by arithmetic on
rounded ones.  A decimal is `digits · 10^exponent`, with natural numbers for digits, and trailing zeros can be taken
off.
-/
namespace ProofWalk.Decimal

/-- **The magnitude of a finite number**, `m · 2^q`. -/
structure Dyadic where
  m : Nat
  q : Int
  /-- Whether the gap to the next number below is half the gap to the next one above. -/
  narrowBelow : Bool
deriving DecidableEq, Repr

def Dyadic.ofFloat (x : Float) : Dyadic :=
  let bits := x.toBits
  let exponent := ((bits >>> 52) &&& 0x7FF).toNat
  let fraction := (bits &&& 0xFFFFFFFFFFFFF).toNat
  if exponent = 0 then ⟨fraction, -1074, false⟩
  else ⟨Nat.pow 2 52 + fraction, (exponent : Int) - 1075, fraction == 0 && decide (1 < exponent)⟩

def isNegative (x : Float) : Bool := (x.toBits >>> 63) == 1

def Dyadic.fraction (d : Dyadic) : Nat × Nat := (d.m * Nat.pow 2 d.q.toNat, Nat.pow 2 (-d.q).toNat)

/-- **A decimal**, `digits · 10^exponent`. -/
structure Decadic where
  /-- The digits, read as one number. -/
  digits : Nat
  exponent : Int
deriving DecidableEq, Repr

def digitCount (n : Nat) : Nat := (Nat.toDigits 10 n).length

/-- **The least `k` with `num / den < 10^k`**, for a positive fraction. -/
def magnitude (num den : Nat) : Int :=
  if den ≤ num then digitCount (num / den) else 1 - (digitCount ((den - 1) / num) : Int)

def scaled (num den : Nat) (e : Int) : Nat × Nat := (num * Nat.pow 10 (-e).toNat, den * Nat.pow 10 e.toNat)

def stripZeros : Nat → Nat → Nat × Nat
  | 0, n => (n, 0)
  | fuel + 1, n =>
    if n ≠ 0 ∧ n % 10 = 0 then
      let (m, k) := stripZeros fuel (n / 10)
      (m, k + 1)
    else (n, 0)

def Decadic.strip (d : Decadic) : Decadic :=
  let (n, k) := stripZeros (digitCount d.digits) d.digits
  ⟨n, d.exponent + k⟩

end ProofWalk.Decimal
