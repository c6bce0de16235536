import ProofWalk.Scalar
import ProofWalk.Text.Keyword
/-!
# Weight.Squash — squashing functions

A squashing function turns the sum of an edge's weighted features into the weight of the edge.  Each has a name, by
which it is configured, and a parameter that it gives to features without one, chosen so that such a feature makes
an edge neither likelier nor less likely than usual.
-/
namespace ProofWalk

inductive Squash
  | linear
  | exp
  /-- The exponential of the sum, which is first clipped to the range from -100 to 100. -/
  | clippedExp
  /-- The logistic function of the sum. -/
  | sigmoid
  /-- The sum, or zero where it is negative. -/
  | relu
  /-- One more than the hyperbolic tangent of the sum. -/
  | tanh1
deriving DecidableEq, Inhabited, Repr

namespace Squash

def all : List Squash := [linear, exp, clippedExp, sigmoid, relu, tanh1]

def name : Squash → String
  | linear => "linear"
  | exp => "exp"
  | clippedExp => "clipped-exp"
  | sigmoid => "sigmoid"
  | relu => "relu"
  | tanh1 => "tanh1"

def ofName? (name : String) : Option Squash := all.find? fun s => s.name == Text.keyword name

variable {K : Type} [Scalar K]

def clip (low high x : K) : K := if x < low then low else if high < x then high else x

def apply [Exponential K] : Squash → K → K
  | linear, x => x
  | exp, x => Exponential.exp x
  | clippedExp, x => Exponential.exp (clip (-Scalar.ofNat 100) (Scalar.ofNat 100) x)
  | sigmoid, x => 1 / (1 + Exponential.exp (-x))
  | relu, x => if 0 < x then x else 0
  | tanh1, x => Exponential.tanh x + 1

def defaultParameter : Squash → K
  | linear => 1
  | relu => 1
  | _ => 0

end Squash

end ProofWalk
