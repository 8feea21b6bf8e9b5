import MethodCapture.Method.Resolution
import MethodCapture.Session.Basic
import MethodCapture.Session.Timer

/-!
The worker. It takes a waiting request up, resolves and plans its methods, has probes installed,
waits until the request stops, has the probes removed, and ends the request. Each wake is one step
of the worker between two points where it waits; what the host answers comes with the wake. On
cancellation the request at hand is drained, and one that still waits ends without becoming active.
-/

namespace MethodCapture

inductive Wake where
  /-- The worker looks for a request. -/
  | poll (resolver : Resolver)
  /-- Installing probes has ended, with a failure or without. -/
  | started (failure : Option Failure)
  /-- Removing probes has ended, with a failure or without. -/
  | stopped (failure : Option Failure)
  /-- The stop signal of the active request is resolved. -/
  | signalled
  /-- The time of the active request is over. -/
  | timedOut
  /-- The active request is cut short by cancellation. -/
  | cancelled

namespace Session

/-- Ends the worker; a request that waits is stopped first. -/
def exit (s : Session) : Session :=
  match s.waiting with
  | none => s.enter .exited
  | some t =>
    let s := ((s.update t (·.resolve .shutdown)).conclude t).untrack t
    { s with waiting := none }.enter .exited

/-- Leaves a request that has ended. -/
def retire (s : Session) (t : Ticket) : Session :=
  let s := s.untrack t
  if s.cancelled then s.exit else s.enter .idle

/-- Equips a request and has its probes installed. -/
def launch (s : Session) (t : Ticket) (methods : List Method) : Session :=
  let plans := methods.map (Plan.ofMethod s.settings.nestingLimit)
  ((s.update t (·.equip plans)).enter (.starting t)).notify t (.startedProbes plans s.cancelled)

/-- Takes a request up. One that was stopped while it waited ends at once. -/
def take (s : Session) (resolver : Resolver) (t : Ticket) : Session :=
  match s.request? t with
  | none => s.retire t
  | some r =>
    if r.signal.isResolved then (s.conclude t).retire t
    else
      let answers := Resolution.answers resolver r.methods
      let s := (s.update t (·.enter .resolving)).notifyAll t
        ((Resolution.asked answers).map .askedResolver)
      match Resolution.outcome answers with
      | .error e => (s.fail t e).retire t
      | .ok methods => s.launch t methods

/-- The next request, or the end of the worker; nothing while a request may still come. -/
def poll (s : Session) (resolver : Resolver) : Option Session :=
  if s.cancelled then some s.exit
  else match s.waiting with
    | some t => some ({ s with waiting := none }.take resolver t)
    | none => if s.connected then none else some s.exit

/-- Probes are installed: capturing begins and the time of the request runs. -/
def activate (s : Session) (t : Ticket) : Session :=
  match s.request? t with
  | none => s.retire t
  | some r =>
    ((s.update t (·.enter .active)).enter (.active t (Timer.deadline s.clock r.duration))).notify t
      (.captureStarted .active (r.plans.getD []))

/-- Some probes may be in place although their installation failed. -/
def cleanUp (s : Session) (t : Ticket) (cause : Failure) : Session :=
  (s.enter (.cleaning t cause)).notify t (.stoppedProbes s.cancelled)

/-- A failed start is reported, unless it was interrupted by cancellation. -/
def abandon (s : Session) (t : Ticket) (cause : Failure) : Session :=
  if s.cancelled then ((s.update t (·.resolve .shutdown)).conclude t).retire t
  else (s.fail t cause).retire t

/-- Has the probes of the active request removed. -/
def wind (s : Session) (t : Ticket) : Session :=
  ((s.update t (·.enter .stopping)).enter (.stopping t)).notify t (.stoppedProbes s.cancelled)

/-- A failure to remove probes is reported, unless the session is cancelled. -/
def finish (s : Session) (t : Ticket) (failure : Option Failure) : Session :=
  match failure with
  | none => (s.conclude t).retire t
  | some e => if s.cancelled then (s.conclude t).retire t else (s.fail t e).retire t

/-- Whether the stop signal of a request is resolved. -/
def isSignalled (s : Session) (t : Ticket) : Bool :=
  (s.request? t).any (·.signal.isResolved)

/-- One wake of the worker, if it waits for that. -/
def wake (s : Session) : Wake → Option Session
  | .poll resolver => if s.phase = .idle then s.poll resolver else none
  | .started failure =>
    match s.phase, failure with
    | .starting t, none => some (s.activate t)
    | .starting t, some e => some (s.cleanUp t e)
    | _, _ => none
  | .stopped failure =>
    match s.phase with
    | .cleaning t cause => some (s.abandon t cause)
    | .stopping t => some (s.finish t failure)
    | _ => none
  | .signalled =>
    match s.phase with
    | .active t _ => if s.isSignalled t then some (s.wind t) else none
    | _ => none
  | .timedOut =>
    match s.phase with
    | .active t deadline =>
      if deadline ≤ s.clock then some ((s.update t (·.resolve .durationElapsed)).wind t) else none
    | _ => none
  | .cancelled =>
    match s.phase with
    | .active t _ =>
      if s.cancelled then some ((s.update t (·.resolve .shutdown)).wind t) else none
    | _ => none

end Session

end MethodCapture
