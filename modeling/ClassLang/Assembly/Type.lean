import ClassLang.Assembly.Name
import ClassLang.Fault

/-! Types as the assembler knows them. The types of `null`, of errors and of declarations have no
counterpart. -/
namespace ClassLang

namespace Assembly

inductive AsmType where
  | int32
  | string
  | object
  | bool
  | void
  | cls (path : List String)
  deriving DecidableEq

def AsmType.text : AsmType → String
  | .int32 => "int32"
  | .string => "string"
  | .object => "object"
  | .bool => "bool"
  | .void => "void"
  | .cls path => "class " ++ classToken path

end Assembly

def Symbol.classPath (s : Symbol) : Except Fault (List String) :=
  match s.details with
  | .cls path _ _ => .ok path
  | _ => .error (.misplaced .notAClass .classToken)

def Ty.toAsm : Ty → Except Fault Assembly.AsmType
  | .int => .ok .int32
  | .string => .ok .string
  | .object => .ok .object
  | .boolean => .ok .bool
  | .void => .ok .void
  | .this => .ok .object
  | .cls symbol => symbol.classPath.map .cls
  | type => .error (.noAssemblyType type.text)

end ClassLang
