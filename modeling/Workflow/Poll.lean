/-!
# Polling

A resource is asked for again and again until it is there, the attempts are used up, or
the poller is cancelled.  Between two attempts the poller waits once.
-/

namespace Workflow
namespace Poll

/-!
# Moments
-/

/-- The stages of an attempt: it is called for, it is in flight, it yields its answer, and
the poller waits after it. -/
inductive Stage where
  | start
  | flight
  | answer
  | wait
  deriving DecidableEq, Repr

def Stage.rank : Stage -> Nat
  | start => 0
  | flight => 1
  | answer => 2
  | wait => 3

/-- A moment is a stage of an attempt; attempts are counted from one. -/
structure Moment where
  attempt : Nat
  stage : Stage
  deriving DecidableEq, Repr

/-- Whether a cancellation, if there is one, has come by a moment. -/
def cancelledBy (cancel : Option Moment) (m : Moment) : Bool :=
  cancel.any fun c =>
    c.attempt < m.attempt || (c.attempt == m.attempt && c.stage.rank <= m.stage.rank)

/-!
# Outcomes
-/

inductive Outcome (α : Type) where
  | value (a : α)
  | cancelled
  | exhausted (attempts : Nat)
  deriving DecidableEq, Repr

def Outcome.message : Outcome α -> String
  | value _ => ""
  | cancelled => "polling cancelled"
  | exhausted attempts => s!"resource not available after {attempts} attempts"

/-- How polling ended, and the moments it came to, in order. -/
structure Result (α : Type) where
  outcome : Outcome α
  log : List Moment
  deriving DecidableEq, Repr

namespace Result

/-- How many attempts came to a stage. -/
def count (r : Result α) (s : Stage) : Nat :=
  r.log.countP fun m => m.stage == s

/-- The attempts that were in flight. -/
def attempts (r : Result α) : Nat :=
  r.count .flight

def after (log : List Moment) (r : Result α) : Result α :=
  { r with log := log ++ r.log }

end Result

/-!
# The poller
-/

/-- Goes on after some attempts with `left` attempts to make.  An answer that comes
together with the cancellation still counts; a cancellation before it, or before or
during a wait, ends the polling. -/
def goOn (fetch : Nat -> Option α) (cancel : Option Moment) (maxAttempts : Nat) :
    Nat -> Result α
  | 0 => ⟨.exhausted maxAttempts, []⟩
  | left + 1 =>
      let n := maxAttempts - left
      if cancelledBy cancel ⟨n, .start⟩ then ⟨.cancelled, [⟨n, .start⟩]⟩
      else if cancelledBy cancel ⟨n, .flight⟩ then
        ⟨.cancelled, [⟨n, .start⟩, ⟨n, .flight⟩]⟩
      else
        match fetch n with
        | some a => ⟨.value a, [⟨n, .start⟩, ⟨n, .flight⟩, ⟨n, .answer⟩]⟩
        | none =>
            if left = 0 then
              (goOn fetch cancel maxAttempts left).after
                [⟨n, .start⟩, ⟨n, .flight⟩, ⟨n, .answer⟩]
            else if cancelledBy cancel ⟨n, .wait⟩ then
              ⟨.cancelled, [⟨n, .start⟩, ⟨n, .flight⟩, ⟨n, .answer⟩, ⟨n, .wait⟩]⟩
            else
              (goOn fetch cancel maxAttempts left).after
                [⟨n, .start⟩, ⟨n, .flight⟩, ⟨n, .answer⟩, ⟨n, .wait⟩]

/-- Polls for a resource; `fetch n` is the answer of the `n`-th attempt. -/
def run (fetch : Nat -> Option α) (cancel : Option Moment) (maxAttempts : Nat) : Result α :=
  goOn fetch cancel maxAttempts maxAttempts

end Poll
end Workflow
