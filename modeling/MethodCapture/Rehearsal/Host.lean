import MethodCapture.Rehearsal.Script
import MethodCapture.Session.Work

/-!
A session with a scripted host. The worker runs until it waits for something that only a command can
bring: an event of a client, time, or a permit for a gated call. Of several reasons to stop an
active request the signal comes first, then time, then cancellation.
-/

namespace MethodCapture.Rehearsal

/-- The calls of one kind that have ended, and the permits at hand. -/
structure Calls where
  ended : Nat
  permits : Nat
  deriving DecidableEq

namespace Calls

def none : Calls := ⟨0, 0⟩

def mayEnd (c : Calls) (script : CallScript) : Bool := !script.gated || 0 < c.permits

/-- One call ends; a gated call takes its permit along. -/
def next (c : Calls) (script : CallScript) : Calls :=
  ⟨c.ended + 1, if script.gated then c.permits - 1 else c.permits⟩

def release (c : Calls) : Calls := { c with permits := c.permits + 1 }

end Calls

structure Host where
  script : Script
  session : Session
  starts : Calls
  stops : Calls
  /-- The offers that have reached the host. -/
  offers : Nat

namespace Host

def ofScript (script : Script) (settings : Settings) : Host where
  script := script
  session := .ofSettings settings
  starts := .none
  stops := .none
  offers := 0

/-- What the worker can wake for. -/
def ready? (h : Host) : Option Wake :=
  match h.session.phase with
  | .idle => some (.poll h.script.resolver)
  | .starting _ =>
    if h.starts.mayEnd h.script.start then some (.started (h.script.start.result h.starts.ended))
    else none
  | .cleaning .. | .stopping _ =>
    if h.stops.mayEnd h.script.stop then some (.stopped (h.script.stop.result h.stops.ended))
    else none
  | .active t deadline =>
    if h.session.isSignalled t then some .signalled
    else if deadline ≤ h.session.clock then some .timedOut
    else if h.session.cancelled then some .cancelled
    else none
  | .exited => none

/-- Counts the call that ends with a wake. -/
def count (h : Host) : Wake → Host
  | .started _ => { h with starts := h.starts.next h.script.start }
  | .stopped _ => { h with stops := h.stops.next h.script.stop }
  | _ => h

def advance? (h : Host) : Option Host :=
  match h.ready? with
  | none => none
  | some w =>
    match h.session.wake w with
    | none => none
    | some s => some { h.count w with session := s }

theorem work_advance?_lt {h h' : Host} (e : h.advance? = some h') :
    h'.session.work < h.session.work := by
  unfold advance? at e
  split at e
  · cases e
  · split at e
    · cases e
    · next hs =>
      cases e
      exact Session.work_wake_lt hs

/-- Lets the worker run until it comes to rest. -/
def settle (h : Host) : Host :=
  match e : h.advance? with
  | none => h
  | some h' =>
    have := work_advance?_lt e
    h'.settle
termination_by h.session.work

theorem advance?_settle (h : Host) : h.settle.advance? = none := by
  rw [settle]
  split
  · assumption
  · next h' e =>
    have := work_advance?_lt e
    exact h'.advance?_settle
termination_by h.session.work

end Host

end MethodCapture.Rehearsal
