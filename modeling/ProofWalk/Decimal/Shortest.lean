import ProofWalk.Decimal.Dyadic
/-!
# Decimal.Shortest — the fewest digits that read back

Reading a decimal gives the double nearest to it, so each double stands for an interval of numbers.  The shortest
decimal in that interval is sought on coarser grids first; of two equally short ones the nearer to the exact value
is taken, and of two equally near ones the one that a tie rule names.  The ends of the interval belong to it when
the significand of the double is even.
-/
namespace ProofWalk.Decimal

inductive Tie
  /-- The one with the even last digit. -/
  | toEven
  /-- The greater one. -/
  | up
deriving DecidableEq, Repr

def compareScaled (a : Nat) (i : Int) (n : Nat) (j : Int) : Ordering :=
  compare (a * Nat.pow 10 i.toNat * Nat.pow 2 (-j).toNat) (n * Nat.pow 2 j.toNat * Nat.pow 10 (-i).toNat)

/-- **Whether a decimal lies among the numbers that round to `x`**; the ends of the interval belong to it when the
significand of `x` is even. -/
def Dyadic.readsBack (x : Dyadic) (d : Decadic) : Bool :=
  let low := if x.narrowBelow then 4 * x.m - 1 else 4 * x.m - 2
  let high := 4 * x.m + 2
  let closed := x.m % 2 == 0
  let atLow := compareScaled d.digits d.exponent low (x.q - 2)
  let atHigh := compareScaled d.digits d.exponent high (x.q - 2)
  (atLow == .gt || (closed && atLow == .eq)) && (atHigh == .lt || (closed && atHigh == .eq))

def Dyadic.nearer (x : Dyadic) (tie : Tie) (n : Nat) (e : Int) : Nat :=
  match compareScaled (2 * n + 1) e (2 * x.m) x.q, tie with
  | .gt, _ => n
  | .lt, _ => n + 1
  | .eq, .up => n + 1
  | .eq, .toEven => if n % 2 = 0 then n else n + 1

def Dyadic.onGrid (x : Dyadic) (tie : Tie) (e : Int) : Option Decadic :=
  let (num, den) := x.fraction
  let (num, den) := scaled num den e
  let n := num / den
  match x.readsBack ⟨n, e⟩, x.readsBack ⟨n + 1, e⟩ with
  | true, true => some ⟨x.nearer tie n e, e⟩
  | true, false => some ⟨n, e⟩
  | false, true => some ⟨n + 1, e⟩
  | false, false => none

def Dyadic.exact (x : Dyadic) : Decadic :=
  ⟨x.m * Nat.pow 2 x.q.toNat * Nat.pow 5 (-x.q).toNat, -((-x.q).toNat : Int)⟩

/-- **The shortest decimal that reads back.** -/
def Dyadic.shortest (tie : Tie) (x : Dyadic) : Decadic :=
  if x.m = 0 then ⟨0, 0⟩
  else
    let (num, den) := x.fraction
    let k := magnitude num den
    (((List.range 17).findSome? fun n => x.onGrid tie (k - (n + 1 : Nat))).getD x.exact).strip

end ProofWalk.Decimal
