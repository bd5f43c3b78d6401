import ClassLang.Lowering.Expr
import ClassLang.Syntax.Unit

/-! Code of statements. Labels are numbered through the whole program. -/
namespace ClassLang.Lowering

open Assembly

def registered (symbol : Option Symbol) (what : Mark) (name : String) : Except Fault Symbol :=
  match symbol with
  | some s => .ok s
  | none => .error (.unresolved .lowering what name)

/-- A value that is left on the stack is dropped; an assignment leaves none. -/
def lowerValue (f : Frame) (e : Expr) : Emission :=
  match e with
  | .assign target value _ => f.assign target (lowerExpr f value) false
  | e => lowerExpr f e ++ .need (leavesValue e) fun b => .of (if b then [.pop] else [])

def lowerLocal (f : Frame) (v : Declarator) : Emission :=
  match v.init with
  | none => .of []
  | some init =>
    .need (registered v.symbol .var v.name.text) fun s =>
      match s.details with
      | .var _ (.slot index) => lowerExpr f init ++ .of [.stloc index]
      | _ => .fail (.misplaced .notALocal .localDecl)

def lowerLocals (f : Frame) : List Declarator → Emission
  | [] => .of []
  | v :: rest => lowerLocal f v ++ lowerLocals f rest

mutual

def lowerStmt (f : Frame) : Stmt → Code
  | .block body _ => lowerStmts f body
  | .expr value _ _ => .of (lowerValue f value)
  | .locals d => .of (lowerLocals f d.vars)
  | .ifThen cond thenBody _ =>
    .fresh "END_IF" fun done =>
      .of (lowerExpr f cond) ++ .instrs [.brfalse done] ++ lowerStmt f thenBody ++ .mark done
  | .ifElse cond thenBody elseBody _ =>
    .fresh "END_IF" fun done =>
      .of (lowerExpr f cond) ++ .fresh "ELSE" fun other =>
        .instrs [.brfalse other] ++ lowerStmt f thenBody ++ .instrs [.br done] ++
          .mark other ++ lowerStmt f elseBody ++ .mark done
  | .loop cond body _ =>
    .fresh "LOOP" fun again => .fresh "END_LOOP" fun done =>
      .mark again ++ .of (lowerExpr f cond) ++ .instrs [.brfalse done] ++ lowerStmt f body ++
        .instrs [.br again] ++ .mark done
  | .ret value _ => .of ((value.elim (.of []) (lowerExpr f)) ++ .of [.ret])
  | .empty _ => .skip

def lowerStmts (f : Frame) : List Stmt → Code
  | [] => .skip
  | s :: rest => lowerStmt f s ++ lowerStmts f rest

end

end ClassLang.Lowering
