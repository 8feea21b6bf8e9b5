import MethodCapture.Rehearsal.Host

/-!
Commands to a rehearsal and the reports on them. A turn carries out some commands back to back, then
lets the worker run, then reports what the host has seen and how the requests stand.
-/

namespace MethodCapture.Rehearsal

inductive Command where
  | submit (submission : Submission)
  | stop (id : RequestId)
  | fault (method : MethodId)
  | query (id : RequestId)
  /-- Makes the same offer through the surface handed out last. -/
  | capture (offer : Offer) (times : Nat)
  | elapse (duration : Duration)
  | cancel
  | disconnect
  | permitStart
  | permitStop

inductive Reply where
  | done
  | outcome (result : Except Failure Unit)
  | request (found : Option Request)
  /-- Whether each offer was taken; nothing if no surface was handed out yet. -/
  | taken (offers : Option (List Bool))
  /-- Clients are not connected any more. -/
  | disconnected

def isStart : Message → Bool
  | .startedProbes .. => true
  | _ => false

def isOffer : Message → Bool
  | .offered .. => true
  | _ => false

namespace Host

/-- The request whose surface was handed out last. -/
def surfaceOwner? (h : Host) : Option Ticket :=
  (h.session.history.find? (isStart ·.message)).map (·.ticket)

def offer (h : Host) (t : Ticket) (offer : Offer) : Host × Bool :=
  let result := h.session.capture t offer (h.script.acceptance.accepts h.offers)
  let offers := if h.session.reachesHost t then h.offers + 1 else h.offers
  ({ h with session := result.1, offers := offers }, result.2)

def offerTimes (h : Host) (t : Ticket) (o : Offer) : Nat → Host × List Bool
  | 0 => (h, [])
  | n + 1 =>
    let first := h.offer t o
    let others := first.1.offerTimes t o n
    (others.1, first.2 :: others.2)

/-- Carries out a call of a client, if clients are connected. -/
def call (h : Host) (f : Session → Session × Reply) : Host × Reply :=
  if h.session.connected then
    let result := f h.session
    ({ h with session := result.1 }, result.2)
  else (h, .disconnected)

def perform (h : Host) : Command → Host × Reply
  | .submit p => h.call fun s =>
    let result := s.submit h.script.policy p
    (result.1, .outcome result.2)
  | .stop id => h.call fun s =>
    let result := s.stop id
    (result.1, .outcome result.2)
  | .fault m => h.call fun s => (s.reportFault m, .done)
  | .query id => h.call fun s => (s, .request (s.query? id))
  | .capture o times =>
    match h.surfaceOwner? with
    | none => (h, .taken none)
    | some t =>
      let result := h.offerTimes t o times
      (result.1, .taken (some result.2))
  | .elapse d => ({ h with session := h.session.elapse d }, .done)
  | .cancel => ({ h with session := h.session.cancel }, .done)
  | .disconnect => ({ h with session := h.session.disconnect }, .done)
  | .permitStart => ({ h with starts := h.starts.release }, .done)
  | .permitStop => ({ h with stops := h.stops.release }, .done)

def performAll (h : Host) : List Command → Host × List Reply
  | [] => (h, [])
  | c :: cs =>
    let first := h.perform c
    let others := first.1.performAll cs
    (others.1, first.2 :: others.2)

end Host

structure Report where
  replies : List Reply
  notices : List Notice
  /-- Clients cannot ask once they are disconnected. -/
  tracked : Option Nat
  admitted : List Request
  exited : Bool

namespace Host

/-- What the host has seen since it had seen `before` notices. -/
def noticesSince (h : Host) (before : Nat) : List Notice :=
  (h.session.log.drop before).filter fun n => h.script.logsOffers || !isOffer n.message

def turn (h : Host) (commands : List Command) : Host × Report :=
  let result := h.performAll commands
  let settled := result.1.settle
  (settled,
    { replies := result.2
      notices := settled.noticesSince h.session.history.length
      tracked := if settled.session.connected then some settled.session.tracked else none
      admitted := settled.session.admitted.filterMap settled.session.request?
      exited := settled.session.hasExited })

def play (h : Host) : List (List Command) → List Report
  | [] => []
  | commands :: turns =>
    let result := h.turn commands
    result.2 :: result.1.play turns

end Host

end MethodCapture.Rehearsal
