import StackScript.Dispatch.SiteShape
import StackScript.Value.Basic

/-!
# Errors at run time

A thrown value can be caught by the program; every other error ends it.

## Main definitions

* `Fault`: what goes wrong only in ill-formed code
* `Failure`: what a running routine stumbles over
* `DispatchError`, `DispatchError.message`: all errors, and their texts
-/

namespace StackScript

/-- What goes wrong only in ill-formed code. -/
inductive Fault where
  | stackUnderflow
  | dupOnEmptyStack
  /-- Control left the code of a routine without a return. -/
  | ranPastEnd (routine : String)
  /-- No completion waits for the end of a `finally` handler. -/
  | strayEndFinally
  | noSuchLocal (slot : Nat)
  | notAnEnumerator
  /-- A planned argument was not supplied. -/
  | noSuchArgument (index : Nat)

namespace Fault

def message : Fault → String
  | .stackUnderflow => "stack underflow"
  | .dupOnEmptyStack => "dup on an empty stack"
  | .ranPastEnd routine => routine ++ " ran past its last instruction"
  | .strayEndFinally => "endfinally outside a finally handler"
  | .noSuchLocal slot => "no local slot " ++ toString slot
  | .notAnEnumerator => "expected an enumerator"
  | .noSuchArgument index => "no argument " ++ toString index

end Fault

/-- What a running routine stumbles over. -/
inductive Failure where
  /-- A routine of the host fails with a message of its own. -/
  | native (text : String)
  | notUnpackable (found : Kind)
  /-- There is no body with that key. -/
  | noBody (key : String)
  | typeNotLoaded (type : String)
  | noReceiver
  | noCurrentEntry
  | fieldRead (field : String) (found : Kind)
  | fieldWrite (field : String) (found : Kind)
  | notIterable (found : Kind)
  /-- The receiver of a debug build was not created with a context. -/
  | nullAsserted
  | fault (broken : Fault)

namespace Failure

def message : Failure → String
  | .native text => text
  | .notUnpackable found => "only arrays can be unpacked, " ++ found.word ++ " given"
  | .noBody key => "no body for " ++ key
  | .typeNotLoaded type => "type " ++ type ++ " is not loaded"
  | .noReceiver => "no receiver in a static body"
  | .noCurrentEntry => "enumerator is not positioned on an entry"
  | .fieldRead field found => "read of ->" ++ field ++ " on " ++ found.word
  | .fieldWrite field found => "write of ->" ++ field ++ " on " ++ found.word
  | .notIterable found => "foreach over " ++ found.word
  | .nullAsserted => "debug assertion: value is null"
  | .fault broken => broken.message

end Failure

/-- An error at run time. -/
inductive DispatchError where
  | nullReceiver (site : SiteId) (method : String)
  | undefinedMethod (type method : String)
  /-- An argument has no conversion; its position is counted among all formal parameters. -/
  | badArgument (method : String) (position : Nat) (expected : Representation) (found : Kind)
  | tooFewArguments (method : String) (supplied required : Nat)
  | badMethodName (found : Kind)
  | undefinedFunction (name : String)
  | functionRedeclared (name : String)
  /-- A value that the program threw, and may catch. -/
  | thrown (value : Value)
  | failed (failure : Failure)

namespace DispatchError

def message : DispatchError → String
  | .nullReceiver site method =>
    "call to method '" ++ method ++ "' on null (call site " ++ showSite site ++ ")"
  | .undefinedMethod type method => "call to undefined method " ++ type ++ "::" ++ method ++ "()"
  | .badArgument method position expected found =>
    "argument " ++ toString position ++ " of " ++ method ++ "() expects " ++ expected.word ++ ", " ++
      found.word ++ " given"
  | .tooFewArguments method supplied required =>
    "too few arguments to " ++ method ++ "(): " ++ toString supplied ++ " passed, " ++
      toString required ++ " required"
  | .badMethodName found => "method name must be a string, " ++ found.word ++ " given"
  | .undefinedFunction name => "call to undefined function " ++ name ++ "()"
  | .functionRedeclared name => "cannot redeclare function " ++ name ++ "()"
  | .thrown value => "uncaught exception of type " ++ value.typeName
  | .failed failure => "invocation failed: " ++ failure.message

/-- The fault of ill-formed code. -/
def ofFault (fault : Fault) : DispatchError := .failed (.fault fault)

end DispatchError

end StackScript
