import Workflow.Store.Basic

/-!
# The save worker

The worker takes requests from a queue and saves them one at a time.  Requests are sent
by any number of senders as long as there is room in the queue.  A cancellation is seen
only when no request waits, and so is the end of the last sender.
-/

namespace Workflow

structure SaveRequest where
  id : String
  definition : Definition

inductive SaveEvent where
  | saved (id : String) (blocks : Nat)
  | failed (id error : String)
  deriving DecidableEq, Repr

namespace SaveEvent

def id : SaveEvent -> String
  | saved id _ => id
  | failed id _ => id

end SaveEvent

structure Worker where
  capacity : Nat
  store : Store
  /-- The requests that wait, the next one first. -/
  queue : List SaveRequest := []
  senders : Nat := 0
  cancelled : Bool := false
  stopped : Bool := false
  /-- The requests that were taken from the queue, and what became of them. -/
  persisted : List SaveRequest := []
  events : List SaveEvent := []

namespace Worker

/-- A worker with room for one request at least. -/
def new (store : Store) (bufferSize : Nat) (senders : Nat) : Worker :=
  { capacity := max bufferSize 1, store, senders }

def persist (w : Worker) (r : SaveRequest) (fault : Option Fault) : Worker :=
  let (result, store) := w.store.save r.id r.definition fault
  let event :=
    match result with
    | .ok () => .saved r.id r.definition.blocks.length
    | .error e => .failed r.id e.message
  { w with
    store
    persisted := w.persisted ++ [r]
    events := w.events ++ [event] }

/-!
# Steps
-/

/-- A step of the worker or of those around it. -/
inductive Action where
  | send (r : SaveRequest)
  | addSender
  | dropSender
  | cancel
  | turn (fault : Option Fault)

def hasRoom (w : Worker) : Bool :=
  w.queue.length < w.capacity

/-- The worker takes the next request or, when none waits, stops if it is cancelled or
has no senders left. -/
def turn (w : Worker) (fault : Option Fault) : Worker :=
  match w.queue with
  | r :: rest => { w with queue := rest }.persist r fault
  | [] => if w.cancelled || w.senders == 0 then { w with stopped := true } else w

def step (w : Worker) : Action -> Option Worker
  | .send r =>
      if 0 < w.senders && w.hasRoom && !w.stopped then some { w with queue := w.queue ++ [r] }
      else none
  | .addSender => if 0 < w.senders then some { w with senders := w.senders + 1 } else none
  | .dropSender => if 0 < w.senders then some { w with senders := w.senders - 1 } else none
  | .cancel => some { w with cancelled := true }
  | .turn fault => if w.stopped then none else some (w.turn fault)

/-- The worker after a list of actions, if each of them can be taken. -/
def run (w : Worker) (actions : List Action) : Option Worker :=
  actions.foldlM step w

/-!
# Schedules
-/

/-- Lets the worker take turns until it stops or waits for a request. -/
def drain (w : Worker) : Worker :=
  (List.range (w.queue.length + 1)).foldl (fun w _ => if w.stopped then w else w.turn none) w

/-- Sends a request, after a turn of the worker when there is no room. -/
def submit (w : Worker) (r : SaveRequest) : Worker :=
  let w := if w.hasRoom then w else w.turn none
  (w.step (.send r)).getD w

def submitAll (w : Worker) (requests : List SaveRequest) : Worker :=
  requests.foldl submit w

end Worker
end Workflow
