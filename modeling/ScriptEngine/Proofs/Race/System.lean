import ScriptEngine.Proofs.Machine.Steady
import ScriptEngine.Script.Artifact
/-!
A cancellable run as four parties that take steps in any order: the caller, who waits for the run or
for the token, whichever is ready; the thread that runs the machine; any number of cancellers, among
them host functions; and the clock. To cancel takes two steps, the cause first and the wakening of
the caller after it.
-/
namespace ScriptEngine.Race

/-- What is fixed during a cancellable run. -/
structure Terms where
  setting : Setting
  /-- By which number host functions know the token. -/
  number : Nat
  deadline : Option Nat
  /-- The machine before the run. -/
  idle : Machine

/-- Why the caller looks at the token: to begin with, because it was cancelled, or because the timer
went off. -/
inductive Wake where
  | entry | trigger | timer
  deriving DecidableEq, Repr

/-- Where the caller is. -/
inductive Caller where
  | outside
  /-- It is about to see whether the token has a cause. -/
  | looking (w : Wake)
  /-- There was no cause; it is about to compare the clock with the deadline. -/
  | timing (w : Wake)
  | starting
  | selecting
  /-- It gives up the run and is about to raise the abort flag. -/
  | aborting (cause : CancelCause)
  /-- It waits for a report that it will not use. -/
  | awaiting (cause : CancelCause)
  /-- It waits for the thread to finish. -/
  | joining (result : Except ScriptError Unit)
  | returned (result : Except ScriptError Unit)

/-- Where the thread of the machine is. -/
inductive Thread where
  | absent
  /-- It is about to read the abort flag. -/
  | checking
  /-- It is about to carry out an instruction. -/
  | working
  /-- In the course of an instruction a host function is to cancel the token for these reasons. -/
  | asking (todo : List CancelCause) (outcome : Advance)
  /-- It has set the cause and is about to wake the caller. -/
  | waking (todo : List CancelCause) (outcome : Advance)
  | ended (o : Outcome)
  | reported
  | finished

structure State where
  time : Nat
  /-- The cause in the token; once there it stays. -/
  given : Option CancelCause
  /-- Whether the caller is woken. -/
  triggered : Bool
  /-- How many cancellers have offered a cause and are about to wake the caller. -/
  halfway : Nat
  /-- The abort flag. -/
  aborted : Bool
  /-- The report on its way from the thread to the caller. -/
  mail : Option Outcome
  caller : Caller
  thread : Thread
  machine : Machine

inductive Event where
  | tick (n : Nat)
  /-- A cancellation offers its cause. -/
  | request (cause : CancelCause)
  /-- A cancellation wakes the caller. -/
  | wake
  | call
  /-- The caller sees whether the token has a cause. -/
  | look
  /-- The machine begins an instruction. -/
  | instruction
  | internal

namespace State

/-- Before the call, with a token that nobody has cancelled. -/
def initial (k : Terms) (time : Nat) : State where
  time
  given := none
  triggered := false
  halfway := 0
  aborted := false
  mail := none
  caller := .outside
  thread := .absent
  machine := k.idle

/-- The token as it is now. -/
def token (k : Terms) (s : State) : CancelToken := ⟨s.given, k.deadline⟩

/-- The deadline has passed. -/
def Late (k : Terms) (s : State) : Prop := ∃ d, k.deadline = some d ∧ d ≤ s.time

/-- A cancellation's cause counts if it is the first. -/
def offer (s : State) (cause : CancelCause) : State := { s with given := some (s.given.getD cause) }

end State

/-- What the caller does on finding that the token has fired. -/
def Wake.fired (cause : CancelCause) : Wake → Caller
  | entry => .returned (.error (.cancelled cause))
  | trigger | timer => .aborting cause

/-- What the caller does on finding no sign that the token has fired. -/
def Wake.quiet : Wake → Caller
  | entry => .starting
  | trigger => .aborting .canceled
  | timer => .aborting .deadlineExceeded

/-- Where the thread goes after an instruction. -/
def Thread.after (x : Setting) : Advance → Thread
  | .next _ => .checking
  | .finished m => .ended (Ending.finished.outcome x m)
  | .halted h m => .ended ((Ending.halted h).outcome x m)

/-- For which reasons an instruction cancels the token. -/
def reasons (k : Terms) (m : Machine) (a : Advance) : List CancelCause :=
  (a.state.signals.toList.drop m.signals.size).filterMap fun s =>
    if s.token = k.number then some (.ofReason s.reason) else none

/-- Where the thread is once it has begun an instruction. -/
def Thread.within (k : Terms) (m : Machine) : Thread :=
  .asking (reasons k m (m.advance k.setting)) (m.advance k.setting)

/-- The steps of the parties. -/
inductive Step (k : Terms) (s : State) : Event → State → Prop where
  /-- Time passes. -/
  | tick (n : Nat) : Step k s (.tick n) { s with time := s.time + n }
  | request (cause : CancelCause) :
    Step k s (.request cause) { s.offer cause with halfway := s.halfway + 1 }
  | wake (h : 0 < s.halfway) :
    Step k s .wake { s with triggered := true, halfway := s.halfway - 1 }
  | call (h : s.caller = .outside) : Step k s .call { s with caller := .looking .entry }
  | see {w : Wake} {cause : CancelCause} (h : s.caller = .looking w) (hg : s.given = some cause) :
    Step k s .look { s with caller := w.fired cause }
  | miss {w : Wake} (h : s.caller = .looking w) (hg : s.given = none) :
    Step k s .look { s with caller := .timing w }
  | late {w : Wake} (h : s.caller = .timing w) (ht : s.Late k) :
    Step k s .internal { s with caller := w.fired .deadlineExceeded }
  | early {w : Wake} (h : s.caller = .timing w) (ht : ¬ s.Late k) :
    Step k s .internal { s with caller := w.quiet }
  | start (h : s.caller = .starting) :
    Step k s .internal
      { s with caller := .selecting, thread := .checking, machine := s.machine.start k.setting }
  | receive {o : Outcome} (h : s.caller = .selecting) (hm : s.mail = some o) :
    Step k s .internal { s with mail := none, caller := .joining (Artifact.result .fault o) }
  /-- There is no report and never will be. -/
  | lose (h : s.caller = .selecting) (hm : s.mail = none) (ht : s.thread = .finished) :
    Step k s .internal { s with caller := .joining (.error (.fault .unknown)) }
  | triggered (h : s.caller = .selecting) (ht : s.triggered = true) :
    Step k s .internal { s with caller := .looking .trigger }
  | expired (h : s.caller = .selecting) (ht : s.Late k) :
    Step k s .internal { s with caller := .looking .timer }
  | abort {cause : CancelCause} (h : s.caller = .aborting cause) :
    Step k s .internal { s with aborted := true, caller := .awaiting cause }
  | discard {cause : CancelCause} {o : Outcome} (h : s.caller = .awaiting cause)
    (hm : s.mail = some o) :
    Step k s .internal { s with mail := none, caller := .joining (.error (.cancelled cause)) }
  | discardNothing {cause : CancelCause} (h : s.caller = .awaiting cause) (hm : s.mail = none)
    (ht : s.thread = .finished) :
    Step k s .internal { s with caller := .joining (.error (.cancelled cause)) }
  | join {r : Except ScriptError Unit} (h : s.caller = .joining r) (ht : s.thread = .finished) :
    Step k s .internal { s with caller := .returned r }
  | stop (h : s.thread = .checking) (ha : s.aborted = true) :
    Step k s .internal { s with thread := .ended (Ending.stopped.outcome k.setting s.machine) }
  | proceed (h : s.thread = .checking) (ha : s.aborted = false) :
    Step k s .internal { s with thread := .working }
  | instruction (h : s.thread = .working) :
    Step k s .instruction { s with thread := .within k s.machine }
  | ask {cause : CancelCause} {todo : List CancelCause} {a : Advance}
    (h : s.thread = .asking (cause :: todo) a) :
    Step k s (.request cause) { s.offer cause with thread := .waking todo a }
  | rouse {todo : List CancelCause} {a : Advance} (h : s.thread = .waking todo a) :
    Step k s .wake { s with triggered := true, thread := .asking todo a }
  | complete {a : Advance} (h : s.thread = .asking [] a) :
    Step k s .internal { s with thread := .after k.setting a, machine := a.state }
  | report {o : Outcome} (h : s.thread = .ended o) :
    Step k s .internal { s with mail := some o, thread := .reported }
  | finish (h : s.thread = .reported) : Step k s .internal { s with thread := .finished }

/-- Some steps one after the other, with their events. -/
inductive Trace (k : Terms) (s : State) : List Event → State → Prop where
  | nil : Trace k s [] s
  | snoc {es : List Event} {s' s'' : State} {e : Event} (h : Trace k s es s')
    (hs : Step k s' e s'') : Trace k s (es ++ [e]) s''

/-- The cause that the first cancellation offers. -/
def firstCause (es : List Event) : Option CancelCause :=
  es.findSome? fun
    | .request cause => some cause
    | _ => none

end ScriptEngine.Race

namespace ScriptEngine

/-- What is fixed during a cancellable run of an artifact. -/
def Artifact.terms (a : Artifact) (c : Conditions) (number : Nat) (token : CancelToken) :
    Race.Terms where
  setting := a.setting c
  number
  deadline := token.deadline
  idle := a.machine c

end ScriptEngine
