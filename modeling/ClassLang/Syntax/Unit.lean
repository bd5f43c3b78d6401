import ClassLang.Syntax.Stmt

/-! Declarations. A declaration whose symbol is still missing after registration was rejected. -/
namespace ClassLang

structure Param where
  name : Name
  type : TypeExpr
  symbol : Option Symbol

/-- The body is absent only in malformed trees. -/
structure Method where
  name : Name
  modifiers : List Modifier
  returns : TypeExpr
  params : List Param
  body : Option (List Stmt)
  symbol : Option Symbol

structure ClassHead where
  name : Name
  modifiers : List Modifier
  base : Option TypeExpr
  typeParams : List String
  symbol : Option Symbol

inductive Member where
  | method (decl : Method)
  | field (decl : VarDecl)
  | nested (head : ClassHead) (members : List Member)

structure ClassDecl where
  head : ClassHead
  members : List Member

structure CompilationUnit where
  top : Option ClassDecl

end ClassLang
