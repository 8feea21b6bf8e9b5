import MethodCapture.Session.Run

/-!
The script of a rehearsal: what the host will answer, written down in advance. Descriptions are told
apart by the method name alone.
-/

namespace MethodCapture.Rehearsal

/-- The answers of a capture surface to the offers that reach it, over and over; every offer is
accepted when there are none. -/
structure Acceptance where
  answers : List Bool
  deriving DecidableEq

/-- The answer to the offer with the given number, counted from zero. -/
def Acceptance.accepts (a : Acceptance) (n : Nat) : Bool :=
  a.answers[n % a.answers.length]?.getD true

/-- How one kind of call to the probes goes: the n-th call has the n-th result and succeeds beyond
the list. A gated call waits for a permit first. -/
structure CallScript where
  results : List (Option Failure)
  gated : Bool
  deriving DecidableEq

def CallScript.result (c : CallScript) (n : Nat) : Option Failure :=
  c.results[n]?.join

structure Script where
  denied : List String
  methods : List (String × Except Failure (List Method))
  start : CallScript
  stop : CallScript
  acceptance : Acceptance
  logsOffers : Bool

namespace Script

def policy (s : Script) : Policy := fun _ d => !s.denied.contains d.method

/-- A name that is not listed names no method. -/
def resolver (s : Script) : Resolver := fun _ d => (s.methods.lookup d.method).getD (.ok [])

end Script

end MethodCapture.Rehearsal
