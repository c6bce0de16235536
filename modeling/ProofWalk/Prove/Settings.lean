import ProofWalk.Config.Options
/-!
# Prove.Settings — what provers take from a configuration

A prover reads the options that all provers have in common, the share of residual mass that a push keeps where it
is, and how deep calls may be nested in states that it settles.  A configuration gives all of them; a walk that
never stays and one that stays half of the time are given by the common options alone.  Pushes need a chance of
restarting that is no smaller than their threshold, and `checkMinAlpha` is that check.
-/
namespace ProofWalk

structure ProverSettings (K : Type) where
  apr : AprOptions K
  /-- The share of residual mass that a push keeps in place. -/
  stay : K
  /-- How deep calls may be nested in states that pushes settle. -/
  maxTreeDepth : Option Nat
deriving DecidableEq

namespace ProverSettings

variable {K : Type} [Scalar K]

def ofOptions (apr : AprOptions K) : ProverSettings K := ⟨apr, 0, none⟩

def ofConfig (c : ProverConfig K) : ProverSettings K := ⟨c.apr, c.stayProbability, c.maxTreeDepth⟩

def lazy (s : ProverSettings K) : ProverSettings K := { s with stay := 1 / Scalar.ofNat 2 }

def move (s : ProverSettings K) : K := 1 - s.stay

/-- **Pushes need a chance of restarting that is no smaller than their threshold.** -/
def checkMinAlpha (s : ProverSettings K) : Except (ProverError K) Unit :=
  if s.apr.alpha < s.apr.epsilon then .error (.minAlpha s.apr.alpha s.apr.epsilon) else .ok ()

end ProverSettings

end ProofWalk
