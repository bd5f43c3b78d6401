import ClassLang.Syntax.Stmt
import ClassLang.Typing.Expr

/-! Typing of statements. A local that registration rejected has no symbol and is held against its
own written type. -/
namespace ClassLang.Typing

def State.expect (s : State) (expected received : Ty) (position : Position) : State :=
  if expected.isError || received.isError || received.convertsTo expected then s
  else s.report (.badAssignment expected.text received.text) position

def declaredType (ctx : Context) (type : TypeExpr) (v : Declarator) (s : State) : Ty × State :=
  match v.symbol with
  | some symbol => s.varType ctx.table symbol
  | none => s.resolve ctx.table ctx.scope type

def annotateLocal (ctx : Context) (type : TypeExpr) (v : Declarator) :
    Visit State Declarator Unit := fun s =>
  let (declared, s) := declaredType ctx type v s
  match v.init with
  | none => ⟨v, .ok (), s⟩
  | some init =>
    (annotateExpr ctx init).part (fun init => { v with init := some init })
      (fun init received s =>
        ⟨{ v with init := some init }, .ok (), s.expect declared received init.span.start⟩) s

def annotateCondition (ctx : Context) (cond : Expr) : Visit State Expr Unit :=
  (annotateExpr ctx cond).part id fun cond type s =>
    ⟨cond, .ok (), if type.isError || type.same .boolean then s
      else s.report (.notBoolean type.text) cond.span.start⟩

/-- The result type of the method around is found before the value is looked at. -/
def annotateReturn (ctx : Context) (value : Option Expr) (span : Span) :
    Visit State Stmt Unit := fun s =>
  match ctx.method with
  | none => ⟨.ret value span, .error (.misplaced .returnStmt .classMember), s⟩
  | some method =>
    let (_, expected, s) := s.signature ctx.table method
    (Visit.optional (annotateExpr ctx) value).part (.ret · span)
      (fun value received s =>
        ⟨.ret value span, .ok (), s.expect expected (received.getD .void) span.start⟩) s

mutual

def annotateStmt (ctx : Context) : Stmt → Visit State Stmt Unit
  | .block body span => (annotateStmts ctx body).within (.block · span)
  | .expr value span type =>
    (annotateExpr ctx value).part (.expr · span type) fun value found =>
      Visit.done (.expr value span (type.or (some found))) ()
  | .locals d =>
    (Visit.each (annotateLocal ctx d.type) d.vars).within fun vars => .locals { d with vars }
  | .ifThen cond thenBody span =>
    (annotateCondition ctx cond).part (.ifThen · thenBody span) fun cond _ =>
      (annotateStmt ctx thenBody).within (.ifThen cond · span)
  | .ifElse cond thenBody elseBody span =>
    (annotateCondition ctx cond).part (.ifElse · thenBody elseBody span) fun cond _ =>
      (annotateStmt ctx thenBody).part (.ifElse cond · elseBody span) fun thenBody _ =>
        (annotateStmt ctx elseBody).within (.ifElse cond thenBody · span)
  | .loop cond body span =>
    (annotateCondition ctx cond).part (.loop · body span) fun cond _ =>
      (annotateStmt ctx body).within (.loop cond · span)
  | .ret value span => annotateReturn ctx value span
  | .empty span => Visit.done (.empty span) ()

def annotateStmts (ctx : Context) : List Stmt → Visit State (List Stmt) Unit
  | [] => Visit.done [] ()
  | stmt :: rest =>
    (annotateStmt ctx stmt).part (· :: rest) fun stmt _ =>
      (annotateStmts ctx rest).within (stmt :: ·)

end

end ClassLang.Typing
