import ScriptEngine.Files.Tree
import ScriptEngine.Program.SyntaxError
import ScriptEngine.Text.Quoted
/-! Why a program cannot be compiled. -/
namespace ScriptEngine

/-- What has to fit an operand. -/
inductive Measured where
  | functionSize | arrayLength | mapSize | argumentCount | parameterCount | capturedVariables
  deriving DecidableEq, Repr

def Measured.describe : Measured → String
  | functionSize => "function size"
  | arrayLength => "array length"
  | mapSize => "map size"
  | argumentCount => "argument count"
  | parameterCount => "parameter count"
  | capturedVariables => "captured variables"

inductive CompileCause where
  | unresolved (name : String)
  | redeclared (name : String)
  | breakOutsideLoop
  | continueOutsideLoop
  | returnOutsideFunction
  | exportOutsideModule
  | assignBuiltin (name : String)
  | assignCaptured (name : String)
  /-- The root of an assigned element is no name. -/
  | assignExpression
  | moduleNotFound (name : String)
  | fileImportDisabled (name : String)
  /-- What would be put behind a file name leads to another directory. -/
  | extensionIsPath (extension : String)
  | moduleRead (name : String) (fault : ReadFault)
  | moduleSyntax (key : String) (error : SyntaxError)
  | cyclicImport (key : String)
  /-- Modules import one another more deeply than there are modules. -/
  | importDepth (name : String)
  | tooManyConstants
  | tooManyLocals
  | tooManyGlobals
  | overflow (what : Measured)
  deriving Repr

def CompileCause.message : CompileCause → String
  | unresolved name => "unresolved reference '" ++ name ++ "'"
  | redeclared name => "'" ++ name ++ "' redeclared in this block"
  | breakOutsideLoop => "break not allowed outside loop"
  | continueOutsideLoop => "continue not allowed outside loop"
  | returnOutsideFunction => "return not allowed outside function"
  | exportOutsideModule => "export not allowed outside module top level"
  | assignBuiltin name => "cannot assign to builtin '" ++ name ++ "'"
  | assignCaptured name => "cannot assign to captured variable '" ++ name ++ "'"
  | assignExpression => "cannot assign to this expression"
  | moduleNotFound name => "module '" ++ name ++ "' not found"
  | fileImportDisabled name => "file import disabled: '" ++ name ++ "'"
  | extensionIsPath extension =>
    "extension cannot contain path separators: " ++ Text.quotePath extension
  | moduleRead name _ => "failed to read module '" ++ name ++ "'"
  | moduleSyntax key error => "module '" ++ key ++ "': " ++ error.message
  | cyclicImport key => "cyclic module import '" ++ key ++ "'"
  | importDepth name => "imports nested too deeply at '" ++ name ++ "'"
  | tooManyConstants => "too many constants"
  | tooManyLocals => "too many local variables"
  | tooManyGlobals => "too many global variables"
  | overflow what => what.describe ++ " exceeds the operand limit"

/-- The first fault of a program that is well written. -/
structure CompileError where
  file : String
  pos : Pos
  cause : CompileCause
  deriving Repr

def CompileError.message (e : CompileError) : String :=
  e.file ++ ":" ++ e.pos.text ++ ": " ++ e.cause.message

end ScriptEngine
