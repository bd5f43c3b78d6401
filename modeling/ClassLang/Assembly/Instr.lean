import ClassLang.Assembly.Type

/-! Instructions of the stack machine, and their spelling. -/
namespace ClassLang.Assembly

structure Label where
  stem : String
  number : Nat
  deriving DecidableEq

def Label.text (l : Label) : String := s!"{l.stem}_{l.number}"

structure FieldRef where
  type : AsmType
  owner : List String
  name : String
  deriving DecidableEq

def FieldRef.text (f : FieldRef) : String :=
  s!"{f.type.text} {classToken f.owner}::{nameToken f.name}"

def typesText (types : List AsmType) : String := ", ".intercalate (types.map AsmType.text)

structure MethodRef where
  isStatic : Bool
  returns : AsmType
  owner : List String
  name : String
  params : List AsmType
  deriving DecidableEq

def MethodRef.text (m : MethodRef) : String :=
  (if m.isStatic then "" else "instance ") ++
    s!"{m.returns.text} {classToken m.owner}::{nameToken m.name}({typesText m.params})"

inductive StringRoutine where
  | concat
  | equal
  | notEqual
  | compare
  deriving DecidableEq, Repr

inductive Instr where
  | ldcI4 (value : Int32)
  | ldcZero
  | ldcOne
  | ldstr (value : String)
  | ldnull
  | ldthis
  | ldarg (index : Nat)
  | starg (index : Nat)
  | ldloc (slot : UInt16)
  | stloc (slot : UInt16)
  | ldfld (field : FieldRef)
  | stfld (field : FieldRef)
  | ldsfld (field : FieldRef)
  | stsfld (field : FieldRef)
  | dup
  | pop
  | neg
  | add
  | sub
  | mul
  | div
  | rem
  | and
  | or
  | ceq
  | clt
  | cgt
  | br (target : Label)
  | brfalse (target : Label)
  | ret
  | newobj (path : List String)
  | call (method : MethodRef)
  | callConsole (routine : Routine) (params : List AsmType) (returns : AsmType)
  | callString (routine : StringRoutine)
  | callObject
  deriving DecidableEq

def libraryType (library type : String) : String := s!"[{nameToken library}]{type}"

def StringRoutine.text (library : String) (r : StringRoutine) : String :=
  let owner := libraryType library "System.String"
  match r with
  | .concat => s!"string {owner}::Concat(string, string)"
  | .equal => s!"bool {owner}::op_Equality(string, string)"
  | .notEqual => s!"bool {owner}::op_Inequality(string, string)"
  | .compare => s!"int32 {owner}::CompareOrdinal(string, string)"

def Instr.text (library : String) : Instr → String
  | .ldcI4 value => s!"ldc.i4 {value.toInt}"
  | .ldcZero => "ldc.i4.0"
  | .ldcOne => "ldc.i4.1"
  | .ldstr value => "ldstr " ++ stringToken value
  | .ldnull => "ldnull"
  | .ldthis => "ldarg.0"
  | .ldarg index => s!"ldarg {index}"
  | .starg index => s!"starg {index}"
  | .ldloc slot => s!"ldloc {slot.toNat}"
  | .stloc slot => s!"stloc {slot.toNat}"
  | .ldfld field => "ldfld " ++ field.text
  | .stfld field => "stfld " ++ field.text
  | .ldsfld field => "ldsfld " ++ field.text
  | .stsfld field => "stsfld " ++ field.text
  | .dup => "dup"
  | .pop => "pop"
  | .neg => "neg"
  | .add => "add"
  | .sub => "sub"
  | .mul => "mul"
  | .div => "div"
  | .rem => "rem"
  | .and => "and"
  | .or => "or"
  | .ceq => "ceq"
  | .clt => "clt"
  | .cgt => "cgt"
  | .br target => "br " ++ target.text
  | .brfalse target => "brfalse " ++ target.text
  | .ret => "ret"
  | .newobj path => s!"newobj instance void {classToken path}::.ctor()"
  | .call method => "call " ++ method.text
  | .callConsole routine params returns =>
    let owner := libraryType library "System.Console"
    s!"call {returns.text} {owner}::{routine.text}({typesText params})"
  | .callString routine => "call " ++ routine.text library
  | .callObject =>
    let owner := libraryType library "System.Object"
    s!"call instance void {owner}::.ctor()"

end ClassLang.Assembly
