import ScriptEngine.Machine.Host
/-! Tokens by which a host stops a run. -/
namespace ScriptEngine

inductive CancelCause where
  | canceled
  | deadlineExceeded
  /-- The reason that the host gave. -/
  | reason (text : String)
  deriving DecidableEq, Repr

namespace CancelCause

def message : CancelCause → String
  | canceled => "context canceled"
  | deadlineExceeded => "context deadline exceeded"
  | reason text => text

def ofReason : Option String → CancelCause
  | none => canceled
  | some text => reason text

end CancelCause

/-- A token fires when it is cancelled or when the clock reaches its deadline. -/
structure CancelToken where
  /-- Why it was cancelled. -/
  given : Option CancelCause
  deadline : Option Nat
  deriving DecidableEq, Repr

namespace CancelToken

/-- A token that fires only when it is cancelled. -/
def new : CancelToken := ⟨none, none⟩

def withDeadline (time : Nat) : CancelToken := ⟨none, some time⟩

/-- Of several cancellations the first counts. -/
def cancel (t : CancelToken) (cause : CancelCause) : CancelToken :=
  match t.given with
  | some _ => t
  | none => { t with given := some cause }

/-- Why the token has fired, if it has. A cancellation counts for more than a deadline that has
passed. -/
def cause? (t : CancelToken) (now : Nat) : Option CancelCause :=
  match t.given with
  | some cause => some cause
  | none =>
    match t.deadline with
    | some time => if time ≤ now then some .deadlineExceeded else none
    | none => none

/-- The token of the given number after the requests of a run. -/
def receive (t : CancelToken) (number : Nat) (signals : Array Signal) : CancelToken :=
  signals.foldl
    (fun t s => if s.token = number then t.cancel (.ofReason s.reason) else t) t

end CancelToken

end ScriptEngine
