import MethodCapture.Failure
import MethodCapture.Request.Basic
import MethodCapture.Request.Registry
import MethodCapture.Session.Settings
import MethodCapture.Surface.Offer

/-!
The state of a capturing session. Clients submit requests; a worker takes them up one at a time, and
one more may wait in the queue. Every request ever made has a ticket, its position in `requests`;
the registry holds the tickets of those that are tracked. What the host sees is kept in the history.
-/

namespace MethodCapture

abbrev Ticket := Nat

/-- What the host is asked or told about a request. -/
inductive Message where
  | askedPolicy (method : Description)
  | askedResolver (method : Description)
  | startedProbes (plans : List Plan) (cancelled : Bool)
  | stoppedProbes (cancelled : Bool)
  | captureStarted (stage : Stage) (plans : List Plan)
  | captureStopped
  | captureFailed (reason : FailureReason) (failure : Failure)
  | probeFault (method : Method)
  | offered (offer : Offer) (accepted : Bool)
  deriving DecidableEq

structure Notice where
  ticket : Ticket
  id : RequestId
  message : Message
  deriving DecidableEq

/-- What the worker is at. It waits for a request, for probes to be installed, for them to be
removed after a failed installation, for an active request to stop, or for its probes to be
removed. -/
inductive Phase where
  | idle
  | starting (ticket : Ticket)
  | cleaning (ticket : Ticket) (cause : Failure)
  | active (ticket : Ticket) (deadline : Nat)
  | stopping (ticket : Ticket)
  | exited
  deriving DecidableEq

/-- The request the worker has taken up. -/
def Phase.current? : Phase → Option Ticket
  | idle | exited => none
  | starting t | cleaning t _ | active t _ | stopping t => some t

structure Session where
  settings : Settings
  requests : List Request
  /-- The requests whose submission succeeded, in that order. -/
  admitted : List Ticket
  registry : Registry Ticket
  waiting : Option Ticket
  phase : Phase
  /-- Whether clients can still reach the session. -/
  connected : Bool
  cancelled : Bool
  /-- Nanoseconds since the session began. -/
  clock : Nat
  /-- What the host has seen, the latest first. -/
  history : List Notice
  deriving DecidableEq

namespace Session

def ofSettings (settings : Settings) : Session where
  settings := settings
  requests := []
  admitted := []
  registry := .empty
  waiting := none
  phase := .idle
  connected := true
  cancelled := false
  clock := 0
  history := []

def hasExited (s : Session) : Bool := s.phase == .exited

def request? (s : Session) (t : Ticket) : Option Request := s.requests[t]?

def tracked (s : Session) : Nat := s.registry.size

/-- What the host has seen, in the order in which it saw it. -/
def log (s : Session) : List Notice := s.history.reverse

def update (s : Session) (t : Ticket) (f : Request → Request) : Session :=
  { s with requests := s.requests.modify t f }

def enter (s : Session) (phase : Phase) : Session :=
  { s with phase := phase }

def notifyAll (s : Session) (t : Ticket) (messages : List Message) : Session :=
  match s.request? t with
  | none => s
  | some r => { s with history := (messages.map (⟨t, r.id, ·⟩)).reverse ++ s.history }

def notify (s : Session) (t : Ticket) (message : Message) : Session := s.notifyAll t [message]

@[simp] theorem request?_update (s : Session) (t u : Ticket) (f : Request → Request) :
    (s.update t f).request? u = if t = u then (s.request? u).map f else s.request? u := by
  simp only [update, request?, List.getElem?_modify]
  split <;> cases s.requests[u]? <;> rfl

@[simp] theorem request?_notifyAll (s : Session) (t u : Ticket) (messages : List Message) :
    (s.notifyAll t messages).request? u = s.request? u := by
  unfold notifyAll
  split <;> rfl

@[simp] theorem log_update (s : Session) (t : Ticket) (f : Request → Request) :
    (s.update t f).log = s.log := rfl

@[simp] theorem log_enter (s : Session) (phase : Phase) : (s.enter phase).log = s.log := rfl

theorem log_notifyAll {s : Session} {t : Ticket} {r : Request} (h : s.request? t = some r)
    (messages : List Message) :
    (s.notifyAll t messages).log = s.log ++ messages.map (⟨t, r.id, ·⟩) := by
  simp [notifyAll, h, log]

/-- Ends a request without a failure. -/
def conclude (s : Session) (t : Ticket) : Session :=
  (s.update t (·.enter .completed)).notify t .captureStopped

/-- Ends a request that was taken up and failed. -/
def fail (s : Session) (t : Ticket) (e : Failure) : Session :=
  (s.update t fun r => (r.resolve .cancelled).enter .faulted).notify t
    (.captureFailed e.processingReason e)

/-- Ends a request that is not admitted. -/
def deny (s : Session) (t : Ticket) : Session :=
  s.update t fun r => (r.resolve .cancelled).enter .denied

def untrack (s : Session) (t : Ticket) : Session :=
  match s.request? t with
  | none => s
  | some r => { s with registry := s.registry.erase r.id }

end Session

end MethodCapture
