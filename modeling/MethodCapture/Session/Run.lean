import MethodCapture.Session.Admission
import MethodCapture.Session.Worker

/-!
Runs of a session: events of clients, probes, time and the worker in any order. An event carries
what the host answers to it, so that a run leaves nothing open.
-/

namespace MethodCapture

inductive Event where
  | submit (policy : Policy) (submission : Submission)
  | stop (id : RequestId)
  | fault (method : MethodId)
  | capture (ticket : Ticket) (offer : Offer) (accepts : Bool)
  | elapse (duration : Duration)
  | cancel
  | disconnect
  | wake (wake : Wake)

namespace Session

/-- Whether an offer through the surface of a request would reach the host. -/
def reachesHost (s : Session) (t : Ticket) : Bool :=
  (s.request? t).any (·.passes)

/-- An offer through the surface of a request, and whether it is taken. -/
def capture (s : Session) (t : Ticket) (offer : Offer) (accepts : Bool) : Session × Bool :=
  if s.reachesHost t then
    ((s.notify t (.offered offer accepts)).update t (·.offer accepts), accepts)
  else (s, false)

def elapse (s : Session) (d : Duration) : Session :=
  { s with clock := s.clock + d.nanoseconds }

def cancel (s : Session) : Session := { s with cancelled := true }

def disconnect (s : Session) : Session := { s with connected := false }

/-- Clients can only call while they are connected, offers come only through a surface that was
handed out, and the worker wakes only for what it waits for. -/
def step (s : Session) : Event → Option Session
  | .submit policy p => if s.connected then some (s.submit policy p).1 else none
  | .stop id => if s.connected then some (s.stop id).1 else none
  | .fault m => if s.connected then some (s.reportFault m) else none
  | .capture t offer accepts =>
    if (s.request? t).any (·.surface.isSome) then some (s.capture t offer accepts).1 else none
  | .elapse d => some (s.elapse d)
  | .cancel => some s.cancel
  | .disconnect => some s.disconnect
  | .wake w => s.wake w

def run (s : Session) : List Event → Option Session
  | [] => some s
  | e :: es => (s.step e).bind (·.run es)

@[simp] theorem run_nil (s : Session) : s.run [] = some s := rfl

@[simp] theorem run_cons (s : Session) (e : Event) (es : List Event) :
    s.run (e :: es) = (s.step e).bind (·.run es) := rfl

end Session

end MethodCapture
