import ClassLang.Source
import ClassLang.Text.Quoted

/-! Problems in the program being compiled. They are collected, in the order found, and never stop
a run. -/
namespace ClassLang

inductive Problem where
  | variableRedeclared (name : String)
  | duplicateClass (name : String)
  | duplicateMethod (name : String)
  | duplicateParam (name : String)
  | undeclared (name : String)
  | notAType (name : String)
  | badAssignment (expected received : String)
  | badOperands (op left right : String)
  | notBoolean (received : String)
  | badCall (method reason : String)
  | badModifiers (declared reason : String)
  | unsupported (feature : String)
  deriving DecidableEq

namespace Problem

inductive Kind where
  | variableRedeclared
  | duplicateClass
  | duplicateMethod
  | duplicateParam
  | undeclared
  | notAType
  | badAssignment
  | badOperands
  | notBoolean
  | badCall
  | badModifiers
  | unsupported
  deriving DecidableEq, Repr

def kind : Problem → Kind
  | .variableRedeclared _ => .variableRedeclared
  | .duplicateClass _ => .duplicateClass
  | .duplicateMethod _ => .duplicateMethod
  | .duplicateParam _ => .duplicateParam
  | .undeclared _ => .undeclared
  | .notAType _ => .notAType
  | .badAssignment .. => .badAssignment
  | .badOperands .. => .badOperands
  | .notBoolean _ => .notBoolean
  | .badCall .. => .badCall
  | .badModifiers .. => .badModifiers
  | .unsupported _ => .unsupported

def Kind.text : Kind → String
  | .variableRedeclared => "VariableAlreadyDeclared"
  | .duplicateClass => "DuplicateClassDecl"
  | .duplicateMethod => "DuplicateFunctionDecl"
  | .duplicateParam => "DuplicateParamName"
  | .undeclared => "UndeclaredIdentifier"
  | .notAType => "IdentifierNotTypeName"
  | .badAssignment => "IncompatibleAssignment"
  | .badOperands => "IncompatibleOperands"
  | .notBoolean => "BooleanExpected"
  | .badCall => "InvalidFuncArg"
  | .badModifiers => "InconsistentModifiers"
  | .unsupported => "FeatureNotImplemented"

open Text (quoted)

def text : Problem → String
  | .variableRedeclared name => s!"variable {quoted name} already declared"
  | .duplicateClass name => s!"class {quoted name} already declared"
  | .duplicateMethod name => s!"function {quoted name} already declared with this signature"
  | .duplicateParam name => s!"parameter {quoted name} declared twice"
  | .undeclared name => s!"identifier {quoted name} not declared"
  | .notAType name => s!"identifier {quoted name} is not a type name"
  | .badAssignment expected received => s!"cannot assign {received} to {expected}"
  | .badOperands op left right => s!"incompatible operands for {quoted op}: {left} and {right}"
  | .notBoolean received => s!"expected boolean, received {received}"
  | .badCall method reason => s!"invalid arguments for {quoted method}: {reason}"
  | .badModifiers declared reason => s!"inconsistent modifiers on {quoted declared}: {reason}"
  | .unsupported feature => s!"{feature} is not implemented"

def context : Problem → Option String
  | .variableRedeclared name | .duplicateClass name | .duplicateMethod name | .duplicateParam name
  | .undeclared name | .notAType name => some name
  | .badOperands op _ _ => some op
  | .badCall method _ => some method
  | .badModifiers declared _ => some declared
  | .unsupported feature => some feature
  | .badAssignment .. | .notBoolean _ => none

def tip : Problem → Option String
  | .variableRedeclared name => some s!"Variable `{name}` is already declared in this method"
  | .duplicateClass name => some s!"Class `{name}` already declared"
  | .duplicateMethod name =>
    some s!"Function `{name}` with the same parameter types already declared"
  | .duplicateParam name => some s!"Parameter `{name}` appears more than once"
  | .undeclared name => some s!"`{name}` is not declared"
  | .notAType name => some s!"`{name}` does not name a class"
  | .badAssignment expected received => some s!"Expected type `{expected}`, received `{received}`"
  | .badOperands op left right => some s!"Operator `{op}` cannot combine `{left}` and `{right}`"
  | .notBoolean received => some s!"Conditions must be `boolean`, received `{received}`"
  | .badCall method reason => some s!"Cannot call `{method}`: {reason}"
  | .badModifiers declared reason => some s!"`{declared}`: {reason}"
  | .unsupported _ => none

end Problem

structure Diagnostic where
  problem : Problem
  position : Position
  deriving DecidableEq

def Diagnostic.text (d : Diagnostic) : String := s!"{d.problem.kind.text}: {d.problem.text}"

def Diagnostic.allAt (position : Position) (problems : List Problem) : List Diagnostic :=
  problems.map fun p => ⟨p, position⟩

end ClassLang
