import Ferrite.Failure
import Ferrite.Scope.Replay
import Ferrite.Tree.Operator
import Ferrite.Ty

/-! Why a program has no WebAssembly module. -/

namespace Ferrite.Lower

inductive Fault
  | diverged (d : Scope.Divergence)
  | untyped (id : NodeId)
  | notCollected (function : String)
  | noBody (function : String)
  | unresolved (callee : String)
  | noIndex (callee : String)
  | param (type : Ty) (function : String)
  | value (type : Ty)
  | unary (op : UnaryOp) (type : Ty)
  | binary (op : BinaryOp) (type : Ty)
  | functionValue (name : String)
  | notPlace
  | unknownLocal (name : String)
  | stringLiteral
  deriving DecidableEq, Repr

namespace Fault

def message : Fault → String
  | diverged d => d.message
  | untyped id => s!"node NodeId({id}) has no checked type"
  | notCollected function => s!"function `{function}` was not collected"
  | noBody function => s!"no body was generated for `{function}`"
  | unresolved callee => s!"unresolved callee `{callee}`"
  | noIndex callee => s!"callee `{callee}` has no function index"
  | param t function =>
      s!"parameter of type `{t.display}` in `{function}` has no wasm representation"
  | value t => s!"values of type `{t.display}` are not supported by the wasm backend"
  | unary op t => s!"operator `{op.symbol}` on `{t.display}` is not supported"
  | binary op t =>
      s!"operator `{op.symbol}` on `{t.display}` is not supported by the wasm backend"
  | functionValue name =>
      s!"function `{name}` used as a value is not supported by the wasm backend"
  | notPlace => "assignment target is not a local"
  | unknownLocal name => s!"assignment to unknown local `{name}`"
  | stringLiteral => "string literals are not supported by the wasm backend"

def failure : Fault → Failure
  | diverged d => .scopeMismatch d.message
  | f => .lowering f.message

end Fault
end Ferrite.Lower
