import MethodCapture.Request.Stop

/-!
Capture limits. A guard stands before a capture surface and counts the offers the surface accepts.
The acceptance that reaches the limit trips the guard and resolves the stop signal of the request;
from then on no offer passes.
-/

namespace MethodCapture

structure LimitGuard where
  limit : Nat
  captured : Nat
  tripped : Bool
  deriving DecidableEq

namespace LimitGuard

def ofLimit (limit : Nat) : LimitGuard := ⟨limit, 0, false⟩

/-- Counts one acceptance. -/
def count (g : LimitGuard) : LimitGuard :=
  { g with captured := g.captured + 1, tripped := g.tripped || g.captured + 1 == g.limit }

end LimitGuard

/-- A guard together with the stop signal it resolves. -/
structure Watch where
  guard : LimitGuard
  signal : StopSignal
  deriving DecidableEq

namespace Watch

/-- Whether the next offer passes on to the surface. -/
def passes (w : Watch) : Bool := !w.guard.tripped

/-- An offer that the surface, if it is asked, accepts or declines. -/
def offer (w : Watch) (accepts : Bool) : Watch :=
  if w.passes && accepts then
    let guard := w.guard.count
    ⟨guard, if guard.tripped then w.signal.resolve .limitReached else w.signal⟩
  else w

/-- Whether the offer is taken. -/
def takes (w : Watch) (accepts : Bool) : Bool := w.passes && accepts

def resolve (w : Watch) (reason : StopReason) : Watch :=
  { w with signal := w.signal.resolve reason }

/-- Puts a new guard in the place of the old one; the signal stays. -/
def replace (w : Watch) (limit : Nat) : Watch :=
  { w with guard := .ofLimit limit }

@[simp] theorem offer_of_tripped {w : Watch} (h : w.guard.tripped = true) (accepts : Bool) :
    w.offer accepts = w := by
  simp [offer, passes, h]

@[simp] theorem offer_false (w : Watch) : w.offer false = w := by
  simp [offer]

inductive Action where
  | offer (accepts : Bool)
  | resolve (reason : StopReason)
  | replace (limit : Nat)
  deriving DecidableEq

def step (w : Watch) : Action → Watch
  | .offer accepts => w.offer accepts
  | .resolve reason => w.resolve reason
  | .replace limit => w.replace limit

def run (w : Watch) (actions : List Action) : Watch := actions.foldl step w

@[simp] theorem run_nil (w : Watch) : w.run [] = w := rfl

@[simp] theorem run_cons (w : Watch) (a : Action) (as : List Action) :
    w.run (a :: as) = (w.step a).run as := rfl

end Watch

end MethodCapture
