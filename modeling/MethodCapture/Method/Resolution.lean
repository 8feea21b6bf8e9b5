import MethodCapture.Failure
import MethodCapture.Method.Basic

/-!
Finding the methods that descriptions name. The resolver is asked about one description after the
other and not after its first failure. All descriptions must name a method; a method that several of
them name is taken once, where it comes up first.
-/

namespace MethodCapture

/-- What the host says about the n-th description of a request. -/
abbrev Resolver := Nat → Description → Except Failure (List Method)

/-- A description and the answer to it. -/
abbrev ResolverAnswer := Description × Except Failure (List Method)

namespace Resolution

def answers (resolver : Resolver) (ds : List Description) : List ResolverAnswer :=
  ds.mapIdx fun n d => (d, resolver n d)

/-- The descriptions the resolver is asked about. -/
def asked : List ResolverAnswer → List Description
  | [] => []
  | (d, .ok _) :: rest => d :: asked rest
  | (d, .error _) :: _ => [d]

/-- The first failure, or every description with its methods. -/
def found : List ResolverAnswer → Except Failure (List (Description × List Method))
  | [] => .ok []
  | (d, .ok ms) :: rest => (found rest).map ((d, ms) :: ·)
  | (_, .error e) :: _ => .error e

/-- Keeps the first method with each id, unless the id is in `seen`. -/
def distinctFrom (seen : List MethodId) : List Method → List Method
  | [] => []
  | m :: ms =>
    if m.id ∈ seen then distinctFrom seen ms else m :: distinctFrom (m.id :: seen) ms

def distinct (ms : List Method) : List Method := distinctFrom [] ms

def nameless (fs : List (Description × List Method)) : List Description :=
  (fs.filter (·.2.isEmpty)).map (·.1)

def outcome (as : List ResolverAnswer) : Except Failure (List Method) :=
  match found as with
  | .error e => .error e
  | .ok fs =>
    if (nameless fs).isEmpty then .ok (distinct (fs.flatMap (·.2)))
    else .error (.unresolvedMethods (nameless fs))

end Resolution

end MethodCapture
