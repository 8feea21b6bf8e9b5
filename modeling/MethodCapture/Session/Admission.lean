import MethodCapture.Session.Basic

/-!
What clients can do. A submission is admitted only if every check passes, and then it is both
tracked and queued. It is tracked first, and no longer if the queue does not take it, so that a
rejection leaves the tracked requests and the queue as they were. The other calls act on tracked
requests alone.
-/

namespace MethodCapture

/-- What the policy says about the n-th description of a submission. -/
abbrev Policy := Nat → Description → Bool

def Policy.refused (policy : Policy) (ds : List Description) : List Description :=
  (ds.zipIdx.filter fun x => !policy x.2 x.1).map (·.1)

/-- The request a submission asks for, with the limit of the settings if it has none of its own. -/
def Submission.toRequest (p : Submission) (settings : Settings) : Except Failure Request :=
  let limit := p.limit.or settings.defaultLimit
  if p.methods.isEmpty then .error .emptyRequest
  else if limit = some 0 then .error .invalidLimit
  else if p.duration.nanoseconds = 0 ∨
      settings.maxDuration.nanoseconds < p.duration.nanoseconds then
    .error (.invalidDuration p.duration)
  else .ok (.ofSubmission { p with limit := limit })

namespace Session

/-- Denies a request and reports it. -/
def refuse (s : Session) (t : Ticket) (reason : FailureReason) (e : Failure) : Session :=
  (s.deny t).notify t (.captureFailed reason e)

/-- Adds a request; it stands for validation, and the policy has been asked about its methods. -/
def register (s : Session) (r : Request) : Session :=
  let t := s.requests.length
  { s with requests := s.requests ++ [r.enter .validating] }.notifyAll t
    (r.methods.map .askedPolicy)

/-- Sends a tracked request to the worker, which must not have exited and must have no request
waiting. A request that cannot be sent is tracked no longer. -/
def send (s : Session) (t : Ticket) (id : RequestId) : Session × Except Failure Unit :=
  let untracked := { s with registry := s.registry.erase id }
  if s.hasExited then (untracked.deny t, .error .shuttingDown)
  else if s.waiting.isSome then
    (untracked.refuse t .tooManyRequests .tooManyRequests, .error .tooManyRequests)
  else ({ s with waiting := some t, admitted := s.admitted ++ [t] }, .ok ())

/-- Decides about a registered request that the policy allows: its id must be free, and then it is
tracked and sent to the worker. -/
def enqueue (s : Session) (t : Ticket) (id : RequestId) : Session × Except Failure Unit :=
  match s.registry.insert id t with
  | .error e => (s, .error e)
  | .ok registry => { s with registry := registry }.send t id

/-- What is not sent has been tracked for nothing: the registry is the one from before. -/
theorem enqueue_eq (s : Session) (t : Ticket) (id : RequestId) : s.enqueue t id =
    if s.registry.contains id then (s, .error (.duplicateRequest id))
    else if s.hasExited then (s.deny t, .error .shuttingDown)
    else if s.waiting.isSome then
      (s.refuse t .tooManyRequests .tooManyRequests, .error .tooManyRequests)
    else ({ s with
      registry := ⟨s.registry.entries ++ [(id, t)]⟩
      waiting := some t
      admitted := s.admitted ++ [t] }, .ok ()) := by
  by_cases hid : s.registry.contains id = true
  · rw [if_pos hid, enqueue, Registry.insert, if_pos hid]
  have hinsert : s.registry.insert id t = .ok ⟨s.registry.entries ++ [(id, t)]⟩ := if_neg hid
  rw [if_neg hid, enqueue, hinsert]
  dsimp only
  rw [send, Registry.erase_of_insert hinsert]
  rfl

def submit (s : Session) (policy : Policy) (p : Submission) : Session × Except Failure Unit :=
  match p.toRequest s.settings with
  | .error e => (s, .error e)
  | .ok r =>
    let t := s.requests.length
    let s := s.register r
    let refused := policy.refused r.methods
    if refused.isEmpty then s.enqueue t r.id
    else (s.refuse t .deniedMethods (.deniedMethods refused), .error (.deniedMethods refused))

/-- Asks a tracked request to stop; asking again changes nothing. -/
def stop (s : Session) (id : RequestId) : Session × Except Failure Unit :=
  match s.registry.get? id with
  | none => (s, .error (.unknownRequest id))
  | some t => (s.update t (·.resolve .explicit), .ok ())

def query? (s : Session) (id : RequestId) : Option Request :=
  (s.registry.get? id).bind s.request?

/-- The tracked request whose probes are installed. -/
def probed? (s : Session) : Option Ticket :=
  s.registry.find? fun t => (s.request? t).any (·.stage.isProbed)

/-- The instrumented method of that request with the given id. -/
def faulty? (s : Session) (m : MethodId) : Option (Ticket × Method) := do
  let t ← s.probed?
  let r ← s.request? t
  let plans ← r.plans
  let plan ← plans.find? (·.method.id == m)
  return (t, plan.method)

/-- Passes a probe fault on; a fault that belongs to no request is dropped. -/
def reportFault (s : Session) (m : MethodId) : Session :=
  match s.faulty? m with
  | none => s
  | some (t, method) => s.notify t (.probeFault method)

end Session

end MethodCapture
