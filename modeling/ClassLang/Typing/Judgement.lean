import ClassLang.Options
import ClassLang.Typing.State

/-! Typing rules that look at types and symbols only. A judgement is a type and the problem to
report with it; an operand of type `error` gives `error` again and nothing to report. -/
namespace ClassLang.Typing

structure Judgement where
  type : Ty
  problem : Option Problem

namespace Judgement

def found (type : Ty) : Judgement := ⟨type, none⟩

def silent : Judgement := ⟨.error, none⟩

def bad (problem : Problem) : Judgement := ⟨.error, some problem⟩

end Judgement

structure Context where
  table : Table
  scope : ScopeId
  method : Option Symbol
  entry : Option Nat

namespace Context

def isStatic (ctx : Context) : Bool :=
  match ctx.method with
  | some m => runsStatic ctx.entry m
  | none => true

def owner? (ctx : Context) : Option (List String) := ctx.method.bind Symbol.methodOwner?

end Context

def literalType : Literal → Ty
  | .int _ => .int
  | .string _ => .string
  | .boolean _ => .boolean
  | .null => .null

def thisJudgement (ctx : Context) : Judgement :=
  if ctx.isStatic then .bad (.badModifiers "this" "used inside a static method") else .found .this

def operandType : UnaryOp → Ty
  | .negate => .int
  | .not => .boolean

def unaryJudgement (op : UnaryOp) (operand : Ty) : Judgement :=
  if operand.isError then .silent
  else if operand.same (operandType op) then .found (operandType op)
  else .bad (.badOperands op.text operand.text "no second operand")

def applies : BinaryOp → Ty → Bool
  | .add, t | .lt, t | .le, t | .gt, t | .ge, t => t.same .int || t.same .string
  | .sub, t | .mul, t | .div, t | .rem, t => t.same .int
  | .and, t | .or, t => t.same .boolean
  | .eq, t | .ne, t => t.isValue

def binaryJudgement (op : BinaryOp) (left right : Ty) : Judgement :=
  if left.isError || right.isError then .silent
  else if left.same right && applies op left then
    .found (if op.isComparison then .boolean else left)
  else .bad (.badOperands op.text left.text right.text)

def assignJudgement (target value : Ty) : Judgement :=
  if target.isError || value.isError then .silent
  else if value.convertsTo target && target.isValue then .found target
  else .bad (.badAssignment target.text value.text)

/-- Instance fields are reached by their bare name only, from an instance method of their class. -/
def fieldProblem? (ctx : Context) (n : DottedName) (owner : List String) : Option Problem :=
  if ctx.isStatic then some (.badModifiers n.text "instance field used inside a static method")
  else if n.segments.length ≠ 1 then
    some (.badModifiers n.text "instance field accessed through a qualified name")
  else if ctx.owner? = some owner then none
  else some (.badModifiers n.text "instance field of another class")

def nameProblem? (ctx : Context) (n : DottedName) (symbol : Symbol) : Option Problem :=
  match symbol.details with
  | .var _ (.field false owner) => fieldProblem? ctx n owner
  | _ => none

/-- `new` takes a class of the program that is not static, and no arguments. -/
def createJudgement (n : DottedName) (args : List Expr) (symbol : Symbol) : Judgement :=
  match symbol.details with
  | .cls _ modifiers builtin =>
    if builtin || Modifier.isStatic modifiers then
      .bad (.badModifiers n.text "static classes cannot be instantiated")
    else if args.isEmpty then .found (.cls symbol)
    else .bad (.unsupported "constructor arguments")
  | _ => .bad (.notAType n.text)

structure Offer where
  method : Symbol
  params : List Ty
  returns : Ty

/-- The symbols that a call may mean: what is visible for a bare name, the members of the class
before the last segment otherwise. -/
def candidates (ctx : Context) (qualifier : List Name) (last : Name) (position : Position) :
    Except Diagnostic (List Symbol) :=
  match resolvePath ctx.table ctx.scope position qualifier with
  | none => .ok (ctx.table.visibleFrom ctx.scope last.text)
  | some (.error d) => .error d
  | some (.ok owner) =>
    match owner.memberScope? with
    | some scope => .ok (ctx.table.members scope last.text)
    | none => .error ⟨.unsupported s!"method calls on `{owner.name}`", position⟩

/-- Instance methods are called by their bare name only, from an instance method of their class. -/
def mayCall (ctx : Context) (n : DottedName) (method : Symbol) : Bool :=
  runsStatic ctx.entry method ||
    (n.segments.length == 1 && !ctx.isStatic && ctx.owner?.isSome &&
      ctx.owner? == method.methodOwner?)

def chooseOffer (ctx : Context) (n : DottedName) (args : List Ty) (offers : List Offer) :
    Except Problem Offer :=
  match offers, offers.filter fun o => Ty.sameList o.params args with
  | [], _ => .error (.undeclared n.text)
  | _, [] => .error (.badCall n.text "no applicable overload")
  | _, [offer] =>
    if mayCall ctx n offer.method then .ok offer
    else .error (.badModifiers n.text "instance method called from a static context")
  | _, _ => .error (.badCall n.text "ambiguous call")

end ClassLang.Typing
