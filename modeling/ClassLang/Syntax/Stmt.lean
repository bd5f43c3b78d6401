import ClassLang.Syntax.Expr

/-! Statements. Blocks open no scope: every local belongs to its method. -/
namespace ClassLang

structure Declarator where
  name : Name
  init : Option Expr
  symbol : Option Symbol

structure VarDecl where
  modifiers : List Modifier
  type : TypeExpr
  vars : List Declarator
  span : Span

def VarDecl.names (d : VarDecl) : String := ", ".intercalate (d.vars.map fun v => v.name.text)

inductive Stmt where
  | block (body : List Stmt) (span : Span)
  | expr (value : Expr) (span : Span) (type : Option Ty)
  | locals (decl : VarDecl)
  | ifThen (cond : Expr) (thenBody : Stmt) (span : Span)
  | ifElse (cond : Expr) (thenBody elseBody : Stmt) (span : Span)
  | loop (cond : Expr) (body : Stmt) (span : Span)
  | ret (value : Option Expr) (span : Span)
  | empty (span : Span)

def Stmt.span : Stmt → Span
  | .block _ s | .expr _ s _ | .ifThen _ _ s | .ifElse _ _ _ s | .loop _ _ s | .ret _ s
  | .empty s => s
  | .locals d => d.span

end ClassLang
