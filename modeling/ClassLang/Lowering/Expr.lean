import ClassLang.Lowering.Emission
import ClassLang.Options
import ClassLang.Typing.State

/-! Code of expressions: operands from left to right, then the operation. -/
namespace ClassLang

def Resolutions.typeOf (r : Resolutions) (s : Symbol) : Except Fault Ty :=
  match r.type? s with
  | some type => .ok type
  | none => .error (.unresolved .lowering .type s.name)

namespace Lowering

open Assembly

structure Frame where
  resolutions : Resolutions
  entry : Option Nat
  /-- Whether argument 0 is `this`. -/
  hasThis : Bool

def exprType (e : Expr) : Except Fault Ty :=
  match e.type with
  | some type => .ok type
  | none => .error (.unresolved .lowering .type e.shape.text)

def symbolOf (n : DottedName) : Except Fault Symbol :=
  match n.symbol with
  | some symbol => .ok symbol
  | none => .error (.unresolved .lowering .symbol n.text)

/-- Whether the code of an expression leaves a value on the stack. -/
def leavesValue (e : Expr) : Except Fault Bool := (exprType e).map Ty.isValue

def symbolType (r : Resolutions) (s : Symbol) : Except Fault AsmType := do (← r.typeOf s).toAsm

namespace Frame

def pushThis (f : Frame) (found : Intruder) : Emission :=
  if f.hasThis then .of [.ldthis] else .fail (.misplaced found .staticMethod)

/-- Parameters come after `this`. -/
def argument (f : Frame) (index : UInt16) : Nat := index.toNat + if f.hasThis then 1 else 0

def fieldRef (f : Frame) (s : Symbol) (owner : List String) : Except Fault FieldRef := do
  return ⟨← symbolType f.resolutions s, owner, s.name⟩

/-- Classes and methods named on their own push nothing. -/
def load (f : Frame) (s : Symbol) : Emission :=
  match s.details with
  | .var _ (.slot index) => .of [.ldloc index]
  | .var _ (.param index) => .of [.ldarg (f.argument index)]
  | .var _ (.field true owner) => .need (f.fieldRef s owner) fun field => .of [.ldsfld field]
  | .var _ (.field false owner) =>
    f.pushThis .instanceField ++ .need (f.fieldRef s owner) fun field => .of [.ldfld field]
  | _ => .of []

/-- Stores what `value` leaves on the stack, and keeps a copy there if asked to. An instance field
is read back for the copy. -/
def store (f : Frame) (s : Symbol) (value : Emission) (keep : Bool) : Emission :=
  let copied := value ++ .of (if keep then [.dup] else [])
  match s.details with
  | .var _ (.slot index) => copied ++ .of [.stloc index]
  | .var _ (.param index) => copied ++ .of [.starg (f.argument index)]
  | .var _ (.field true owner) =>
    copied ++ .need (f.fieldRef s owner) fun field => .of [.stsfld field]
  | .var _ (.field false owner) =>
    .need (f.fieldRef s owner) fun field =>
      f.pushThis .instanceField ++ value ++
        .of (.stfld field :: if keep then [.ldthis, .ldfld field] else [])
  | _ => .fail (.misplaced .declarationName .target)

def assign (f : Frame) (target : Expr) (value : Emission) (keep : Bool) : Emission :=
  match target with
  | .name n _ => .need (symbolOf n) fun s => f.store s value keep
  | _ => .fail (.misplaced (.expr target.shape) .codeTarget)

end Frame

def literalCode : Literal → Instr
  | .int value => .ldcI4 value
  | .string value => .ldstr value
  | .boolean true => .ldcOne
  | .boolean false => .ldcZero
  | .null => .ldnull

def negation : List Instr := [.ldcZero, .ceq]

def unaryCode : UnaryOp → List Instr
  | .negate => [.neg]
  | .not => negation

/-- On numbers and truth values. There are no instructions for `!=`, `<=` and `>=`. -/
def wordCode : BinaryOp → List Instr
  | .add => [.add]
  | .sub => [.sub]
  | .mul => [.mul]
  | .div => [.div]
  | .rem => [.rem]
  | .and => [.and]
  | .or => [.or]
  | .eq => [.ceq]
  | .lt => [.clt]
  | .gt => [.cgt]
  | .ne => .ceq :: negation
  | .le => .cgt :: negation
  | .ge => .clt :: negation

/-- On strings, order is the order of their ordinal difference and zero. -/
def stringCode : BinaryOp → Emission
  | .add => .of [.callString .concat]
  | .eq => .of [.callString .equal]
  | .ne => .of [.callString .notEqual]
  | .lt => .of (.callString .compare :: .ldcZero :: wordCode .lt)
  | .le => .of (.callString .compare :: .ldcZero :: wordCode .le)
  | .gt => .of (.callString .compare :: .ldcZero :: wordCode .gt)
  | .ge => .of (.callString .compare :: .ldcZero :: wordCode .ge)
  | .sub | .mul | .div | .rem | .and | .or => .fail (.misplaced .arithmetic .stringOp)

def binaryCode (op : BinaryOp) (operand : Ty) : Emission :=
  if operand.same .string then stringCode op else .of (wordCode op)

def asmTypes : List Ty → Except Fault (List AsmType)
  | [] => .ok []
  | type :: rest => do return (← type.toAsm) :: (← asmTypes rest)

namespace Frame

def paramTypes (f : Frame) (m : Symbol) : Except Fault (List AsmType) :=
  match f.resolutions.params? m with
  | some types => asmTypes types
  | none => .error (.unresolved .lowering .signature m.name)

def invoke (f : Frame) (m : Symbol) (args : Emission) : Emission :=
  match m.details with
  | .method _ _ _ owner routine =>
    .need (f.paramTypes m) fun params =>
      .need (symbolType f.resolutions m) fun returns =>
        match routine with
        | some routine => args ++ .of [.callConsole routine params returns]
        | none =>
          let isStatic := runsStatic f.entry m
          (if isStatic then .of [] else f.pushThis .instanceCall) ++ args ++
            .of [.call ⟨isStatic, returns, owner, m.name, params⟩]
  | _ => .fail (.misplaced .notAMethod .callee)

end Frame

mutual

def lowerExpr (f : Frame) : Expr → Emission
  | .literal value _ => .of [literalCode value]
  | .this _ => f.pushThis (.expr .this)
  | .name n _ => .need (symbolOf n) f.load
  | .unary op operand _ => lowerExpr f operand ++ .of (unaryCode op)
  | .binary op left right _ =>
    lowerExpr f left ++ lowerExpr f right ++ .need (exprType left) (binaryCode op)
  | .assign target value _ => f.assign target (lowerExpr f value) true
  | .call (.name n _) args _ => .need (symbolOf n) fun m => f.invoke m (lowerArgs f args)
  | .call callee _ _ => .fail (.misplaced (.expr callee.shape) .codeCallee)
  | .create n _ _ =>
    .need (symbolOf n) fun s => .need s.classPath fun path => .of [.newobj path]
  | .field .. => .fail (.misplaced (.expr .field) .code)
  | .index .. => .fail (.misplaced (.expr .index) .code)

def lowerArgs (f : Frame) : List Expr → Emission
  | [] => .of []
  | e :: rest => lowerExpr f e ++ lowerArgs f rest

end

end Lowering

end ClassLang
