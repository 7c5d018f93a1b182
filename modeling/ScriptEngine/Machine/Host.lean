import ScriptEngine.Value.Call
/-! The functions that the host lends to scripts. -/
namespace ScriptEngine

/-- What a host function that crashes throws. -/
inductive Panic where
  | message (text : String)
  /-- An error of the host with a text of its own. -/
  | structured (text : String)
  | unknown
  deriving DecidableEq, Repr

/-- A request to cancel a token, with the reason if one is given. -/
structure Signal where
  token : Nat
  reason : Option String
  deriving DecidableEq, Repr

inductive Reply where
  | value (v : Value)
  | refused (e : CallError)
  | panic (p : Panic)
  /-- Yields undefined. -/
  | signal (s : Signal)

/-- How the functions of the host answer, each of them an object with a name. Many hosts go by the
name alone, so the object is an implicit argument. -/
structure Host where
  reply : {_ : FunctionId} → String → List Value → Reply

/-- What the host function with an object and a name answers. -/
def Host.call (host : Host) (id : FunctionId) (name : String) (args : List Value) : Reply :=
  @host.reply id name args

end ScriptEngine
