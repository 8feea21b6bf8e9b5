import MethodCapture.Rehearsal.Script

/-!
A limit guard before a scripted surface. Offers, other reasons to stop, and fresh guards come in any
order; the surface counts the offers that reach it across guards.
-/

namespace MethodCapture.Rehearsal

structure Guarded where
  acceptance : Acceptance
  watch : Watch
  /-- The offers that have reached the surface. -/
  offers : Nat
  deriving DecidableEq

namespace Guarded

def ofLimit (acceptance : Acceptance) (limit : Nat) : Guarded :=
  ⟨acceptance, ⟨.ofLimit limit, .unresolved⟩, 0⟩

inductive Command where
  | capture (offer : Offer) (times : Nat)
  | resolve (reason : StopReason)
  | replace (limit : Nat)
  deriving DecidableEq

inductive Reply where
  /-- Whether each offer was taken. -/
  | taken (offers : List Bool)
  /-- Whether the reason took effect. -/
  | resolved (won : Bool)
  | done
  deriving DecidableEq

/-- The offers that reached the surface, with its answers, and the state of the guard. -/
structure Report where
  reply : Reply
  reached : List (Offer × Bool)
  watch : Watch
  deriving DecidableEq

/-- Makes the same offer several times. -/
def capture (g : Guarded) (offer : Offer) : Nat → Guarded × List Bool × List (Offer × Bool)
  | 0 => (g, [], [])
  | n + 1 =>
    let accepts := g.acceptance.accepts g.offers
    let passes := g.watch.passes
    let next := { g with
      watch := g.watch.offer accepts
      offers := if passes then g.offers + 1 else g.offers }
    let (last, taken, reached) := next.capture offer n
    (last, g.watch.takes accepts :: taken, if passes then (offer, accepts) :: reached else reached)

def perform (g : Guarded) : Command → Guarded × Report
  | .capture offer times =>
    let (next, taken, reached) := g.capture offer times
    (next, ⟨.taken taken, reached, next.watch⟩)
  | .resolve reason =>
    let next := { g with watch := g.watch.resolve reason }
    (next, ⟨.resolved g.watch.signal.wins, [], next.watch⟩)
  | .replace limit =>
    let next := { g with watch := g.watch.replace limit }
    (next, ⟨.done, [], next.watch⟩)

def play (g : Guarded) : List Command → List Report
  | [] => []
  | c :: cs =>
    let (next, report) := g.perform c
    report :: next.play cs

end Guarded

end MethodCapture.Rehearsal
