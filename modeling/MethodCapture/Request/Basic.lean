import MethodCapture.Duration
import MethodCapture.Method.Description
import MethodCapture.Request.Id
import MethodCapture.Request.Stage
import MethodCapture.Slot.Plan
import MethodCapture.Surface.Limit

/-!
Capturing requests. A submission is what a client sends; a request is a submission on its way
through the stages, with its stop signal and what it was given to work with.
-/

namespace MethodCapture

structure Submission where
  id : RequestId
  methods : List Description
  duration : Duration
  limit : Option Nat
  deriving DecidableEq

/-- Where the probes of a request deliver: the host itself, or the host behind a limit guard. -/
inductive Surface where
  | host
  | limited (guard : LimitGuard)
  deriving DecidableEq

def Surface.ofLimit : Option Nat → Surface
  | none => .host
  | some limit => .limited (.ofLimit limit)

/-- The stages passed before the present one are in `past`, the earliest first. The plans and the
surface are set when the request is resolved. -/
structure Request where
  id : RequestId
  methods : List Description
  duration : Duration
  limit : Option Nat
  stage : Stage
  past : List Stage
  signal : StopSignal
  plans : Option (List Plan)
  surface : Option Surface
  deriving DecidableEq

namespace Request

def ofSubmission (p : Submission) : Request where
  id := p.id
  methods := p.methods
  duration := p.duration
  limit := p.limit
  stage := .pending
  past := []
  signal := .unresolved
  plans := none
  surface := none

/-- Every stage the request has been in, the present one last. -/
def path (r : Request) : List Stage := r.past ++ [r.stage]

def enter (r : Request) (stage : Stage) : Request :=
  { r with stage := stage, past := r.path }

def resolve (r : Request) (reason : StopReason) : Request :=
  { r with signal := r.signal.resolve reason }

/-- Gives the request its plans and a surface for its limit. -/
def equip (r : Request) (plans : List Plan) : Request :=
  { r with plans := some plans, surface := some (.ofLimit r.limit) }

@[simp] theorem path_enter (r : Request) (stage : Stage) :
    (r.enter stage).path = r.path ++ [stage] := rfl

@[simp] theorem path_resolve (r : Request) (reason : StopReason) :
    (r.resolve reason).path = r.path := rfl

@[simp] theorem path_equip (r : Request) (plans : List Plan) : (r.equip plans).path = r.path := rfl

/-- Whether the next offer through the surface of the request reaches the host. -/
def passes (r : Request) : Bool :=
  match r.surface with
  | none => false
  | some .host => true
  | some (.limited g) => Watch.passes ⟨g, r.signal⟩

/-- The request after an offer through its surface. -/
def offer (r : Request) (accepts : Bool) : Request :=
  match r.surface with
  | some (.limited g) =>
    let w := Watch.offer ⟨g, r.signal⟩ accepts
    { r with surface := some (.limited w.guard), signal := w.signal }
  | _ => r

/-- Whether an offer through the surface of the request is taken. -/
def takes (r : Request) (accepts : Bool) : Bool := r.passes && accepts

def details (r : Request) : String :=
  let limit := match r.limit with
    | none => "None"
    | some n => "Some(" ++ toString n ++ ")"
  let stop := match r.signal.reason with
    | none => "None"
    | some reason => "Some(" ++ reason.name ++ ")"
  "CapturingRequest \x7b id: " ++ r.id.details ++ ", methods: " ++ toString r.methods.length
    ++ ", duration: " ++ r.duration.text ++ ", capture_limit: " ++ limit ++ ", state: "
    ++ r.stage.name ++ ", stop: " ++ stop ++ " \x7d"

end Request

end MethodCapture
