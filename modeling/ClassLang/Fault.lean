import ClassLang.Syntax.Expr

/-! Faults: a malformed tree, rather than a mistake in the program it stands for. A fault stops the
run, and what was done before it stays done. -/
namespace ClassLang

inductive MissingPart where
  | topClass
  | methodBody
  | identifier
  | calleeName
  deriving DecidableEq, Repr

inductive Intruder where
  | expr (shape : Expr.Shape)
  | returnStmt
  | notAClass
  | notALocal
  | notAMethod
  | declarationName
  | instanceField
  | instanceCall
  | arithmetic
  deriving DecidableEq, Repr

inductive Place where
  | classMember
  | classDecl
  | classToken
  | localDecl
  | target
  | callee
  | stringOp
  | staticMethod
  | code
  | codeTarget
  | codeCallee
  deriving DecidableEq, Repr

inductive Mark where
  | cls
  | method
  | param
  | var
  | field
  | symbol
  | type
  | scope
  | signature
  deriving DecidableEq, Repr

inductive Stage where
  | typing
  | lowering
  deriving DecidableEq, Repr

inductive Fault where
  | missing (part : MissingPart)
  | misplaced (found : Intruder) (place : Place)
  | annotatedTwice (what : Mark) (name : String)
  | unresolved (stage : Stage) (what : Mark) (name : String)
  | noAssemblyType (type : String)
  deriving DecidableEq

def MissingPart.owner : MissingPart → String
  | .topClass => "compilation unit"
  | .methodBody => "function declaration"
  | .identifier => "qualified name"
  | .calleeName => "method call"

def MissingPart.text : MissingPart → String
  | .topClass => "class declaration"
  | .methodBody => "body"
  | .identifier => "identifier"
  | .calleeName => "callee name"

def Intruder.text : Intruder → String
  | .expr shape => shape.text
  | .returnStmt => "return statement"
  | .notAClass => "non-class symbol"
  | .notALocal => "non-local symbol"
  | .notAMethod => "non-function symbol"
  | .declarationName => "declaration name"
  | .instanceField => "instance field"
  | .instanceCall => "instance method call"
  | .arithmetic => "arithmetic operator"

def Place.text : Place → String
  | .classMember => "a class member"
  | .classDecl => "a class declaration"
  | .classToken => "a class reference"
  | .localDecl => "a local declaration"
  | .target => "an assignment target"
  | .callee => "a callee"
  | .stringOp => "a string operation"
  | .staticMethod => "a static method"
  | .code => "generated code"
  | .codeTarget => "an assignment target in generated code"
  | .codeCallee => "a callee in generated code"

def Mark.text : Mark → String
  | .cls => "class"
  | .method => "function"
  | .param => "parameter"
  | .var => "variable"
  | .field => "field"
  | .symbol => "symbol"
  | .type => "type"
  | .scope => "scope"
  | .signature => "signature"

def Stage.text : Stage → String
  | .typing => "type checking"
  | .lowering => "code generation"

def Fault.text : Fault → String
  | .missing part => s!"{part.owner} is missing its {part.text}"
  | .misplaced found place => s!"{found.text} cannot appear as {place.text}"
  | .annotatedTwice what name => s!"{what.text} of `{name}` was annotated twice"
  | .unresolved stage what name => s!"`{name}` reached {stage.text} without a resolved {what.text}"
  | .noAssemblyType type => s!"type `{type}` has no assembly representation"

end ClassLang
