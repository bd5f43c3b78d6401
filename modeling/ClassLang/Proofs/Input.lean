import ClassLang.Syntax.Unit
import ClassLang.Typing.Expr

/-! Units as they come in. A unit is fresh if nothing is recorded on it yet, and well formed if no
node misses a part that it cannot do without. Both can be computed. -/
namespace ClassLang

def Note.isFresh (n : Note) : Bool := n.type.isNone

def DottedName.isFresh (n : DottedName) : Bool := n.symbol.isNone

def DottedName.isWellFormed (n : DottedName) : Bool := !n.segments.isEmpty

namespace Expr

mutual

def isFresh : Expr → Bool
  | .literal _ note | .this note => note.isFresh
  | .name n note => n.isFresh && note.isFresh
  | .unary _ operand note => operand.isFresh && note.isFresh
  | .binary _ left right note => left.isFresh && right.isFresh && note.isFresh
  | .assign target value note => target.isFresh && value.isFresh && note.isFresh
  | .call callee args note => callee.isFresh && allFresh args && note.isFresh
  | .create n args note => n.isFresh && allFresh args && note.isFresh
  | .field target _ note => target.isFresh && note.isFresh
  | .index target place note => target.isFresh && place.isFresh && note.isFresh

def allFresh : List Expr → Bool
  | [] => true
  | e :: rest => e.isFresh && allFresh rest

end

mutual

/-- Names have segments, and only what can be a target stands on the left of an assignment. -/
def isWellFormed : Expr → Bool
  | .literal .. | .this _ => true
  | .name n _ => n.isWellFormed
  | .unary _ operand _ => operand.isWellFormed
  | .binary _ left right _ => left.isWellFormed && right.isWellFormed
  | .assign target value _ =>
    Typing.isTarget target && target.isWellFormed && value.isWellFormed
  | .call callee args _ => callee.isWellFormed && allWellFormed args
  | .create n args _ => n.isWellFormed && allWellFormed args
  | .field target _ _ => target.isWellFormed
  | .index target place _ => target.isWellFormed && place.isWellFormed

def allWellFormed : List Expr → Bool
  | [] => true
  | e :: rest => e.isWellFormed && allWellFormed rest

end

theorem type_eq_none_of_isFresh {e : Expr} (h : e.isFresh = true) : e.type = none := by
  cases e <;> simp_all [isFresh, Note.isFresh, type, note]

end Expr

namespace TypeExpr

mutual

def isWellFormed : TypeExpr → Bool
  | .keyword .. => true
  | .named segments _ => !segments.isEmpty
  | .array element _ => element.isWellFormed
  | .generic base args _ => base.isWellFormed && allWellFormed args

def allWellFormed : List TypeExpr → Bool
  | [] => true
  | t :: ts => t.isWellFormed && allWellFormed ts

end

end TypeExpr

namespace Declarator

def isFresh (v : Declarator) : Bool := v.symbol.isNone && v.init.all Expr.isFresh

def isWellFormed (v : Declarator) : Bool := v.init.all Expr.isWellFormed

end Declarator

namespace VarDecl

def isFresh (d : VarDecl) : Bool := d.vars.all Declarator.isFresh

def isWellFormed (d : VarDecl) : Bool :=
  d.type.isWellFormed && d.vars.all Declarator.isWellFormed

end VarDecl

namespace Stmt

mutual

def isFresh : Stmt → Bool
  | .block body _ => allFresh body
  | .expr value _ type => value.isFresh && type.isNone
  | .locals d => d.isFresh
  | .ifThen cond thenBody _ => cond.isFresh && thenBody.isFresh
  | .ifElse cond thenBody elseBody _ => cond.isFresh && thenBody.isFresh && elseBody.isFresh
  | .loop cond body _ => cond.isFresh && body.isFresh
  | .ret value _ => value.all Expr.isFresh
  | .empty _ => true

def allFresh : List Stmt → Bool
  | [] => true
  | s :: rest => s.isFresh && allFresh rest

end

mutual

def isWellFormed : Stmt → Bool
  | .block body _ => allWellFormed body
  | .expr value _ _ => value.isWellFormed
  | .locals d => d.isWellFormed
  | .ifThen cond thenBody _ => cond.isWellFormed && thenBody.isWellFormed
  | .ifElse cond thenBody elseBody _ =>
    cond.isWellFormed && thenBody.isWellFormed && elseBody.isWellFormed
  | .loop cond body _ => cond.isWellFormed && body.isWellFormed
  | .ret value _ => value.all Expr.isWellFormed
  | .empty _ => true

def allWellFormed : List Stmt → Bool
  | [] => true
  | s :: rest => s.isWellFormed && allWellFormed rest

end

mutual

def varCount : Stmt → Nat
  | .block body _ => varCounts body
  | .locals d => d.vars.length
  | .ifThen _ thenBody _ => thenBody.varCount
  | .ifElse _ thenBody elseBody _ => thenBody.varCount + elseBody.varCount
  | .loop _ body _ => body.varCount
  | .expr .. | .ret .. | .empty _ => 0

def varCounts : List Stmt → Nat
  | [] => 0
  | s :: rest => s.varCount + varCounts rest

end

end Stmt

namespace Method

def isFresh (m : Method) : Bool :=
  m.symbol.isNone && m.params.all (fun p => p.symbol.isNone) && m.body.all Stmt.allFresh

/-- A method has a body, whose variables can be numbered by 16-bit words. -/
def isWellFormed (m : Method) : Bool :=
  m.returns.isWellFormed && m.params.all (fun p => p.type.isWellFormed) &&
    m.body.any fun body => Stmt.allWellFormed body && decide (Stmt.varCounts body ≤ 65535)

end Method

def ClassHead.isFresh (h : ClassHead) : Bool := h.symbol.isNone

def ClassHead.isWellFormed (h : ClassHead) : Bool := h.base.all TypeExpr.isWellFormed

namespace Member

mutual

def isFresh : Member → Bool
  | .method m => m.isFresh
  | .field d => d.isFresh
  | .nested head members => head.isFresh && allFresh members

def allFresh : List Member → Bool
  | [] => true
  | m :: rest => m.isFresh && allFresh rest

end

mutual

def isWellFormed : Member → Bool
  | .method m => m.isWellFormed
  | .field d => d.isWellFormed
  | .nested head members => head.isWellFormed && allWellFormed members

def allWellFormed : List Member → Bool
  | [] => true
  | m :: rest => m.isWellFormed && allWellFormed rest

end

end Member

namespace CompilationUnit

/-- Nothing is recorded on the unit yet. -/
def isFresh (u : CompilationUnit) : Bool :=
  u.top.all fun c => c.head.isFresh && Member.allFresh c.members

/-- The unit has its class, and every node of it the parts it needs. -/
def isWellFormed (u : CompilationUnit) : Bool :=
  u.top.any fun c => c.head.isWellFormed && Member.allWellFormed c.members

end CompilationUnit

namespace Sample

def note : Note := ⟨.null, none⟩

def ref (name : String) : Expr := .name (.parse name) note

def num (value : Int32) : Expr := .literal (.int value) note

def str (value : String) : Expr := .literal (.string value) note

def bin (op : BinaryOp) (left right : Expr) : Expr := .binary op left right note

def call (callee : String) (args : List Expr) : Expr := .call (ref callee) args note

def run (value : Expr) : Stmt := .expr value .null none

def set (name : String) (value : Expr) : Stmt := run (.assign (ref name) value note)

def ret (value : Expr) : Stmt := .ret (some value) .null

def word (w : Keyword) : TypeExpr := .keyword w .null

def decl (modifiers : List Modifier) (type : TypeExpr) (vars : List (String × Option Expr)) :
    VarDecl :=
  ⟨modifiers, type, vars.map fun v => ⟨.plain v.1, v.2, none⟩, .null⟩

def method (modifiers : List Modifier) (returns : TypeExpr) (name : String)
    (params : List (TypeExpr × String)) (body : List Stmt) : Member :=
  .method ⟨.plain name, modifiers, returns, params.map fun p => ⟨.plain p.2, p.1, none⟩,
    some body, none⟩

def members : List Member :=
  [.field (decl [.static] (word .int) [("total", none)]),
   .field (decl [] (word .int) [("own", none)]),
   method [.pub, .static] (word .int) "main" [(word .int, "n")]
     [.locals (decl [] (word .int) [("i", some (num 0))]),
      .loop (bin .lt (ref "i") (ref "n"))
        (.block
          [set "total" (bin .add (ref "total") (call "add" [ref "i", num 1])),
           set "i" (bin .add (ref "i") (num 1))] .null) .null,
      .ifElse (bin .gt (ref "total") (num 3))
        (run (call "System.WriteLine" [call "add" [str "b", str "ig"]]))
        (run (call "System.Write" [ref "total"])) .null,
      run (.create (.parse "Cell") [] note),
      ret (ref "total")],
   method [.static] (word .int) "add" [(word .int, "a"), (word .int, "b")]
     [ret (bin .add (ref "a") (ref "b"))],
   method [.static] (word .string) "add" [(word .string, "a"), (word .string, "b")]
     [ret (bin .add (ref "a") (ref "b"))],
   method [] (word .int) "bump" [(word .string, "s")]
     [set "own" (bin .add (ref "own") (num 1)),
      .ifThen (bin .eq (ref "s") (str "x")) (ret (call "bump" [str ""])) .null,
      ret (ref "own")],
   .nested ⟨.plain "Cell", [.pub], none, [], none⟩
     [.field (decl [] (.named [.plain "Cell"] .null) [("next", none)])]]

/-- A loop, both branches, a nested class, an instance method that uses a field, a call with
overloads and calls of the console. -/
def unit : CompilationUnit := ⟨some ⟨⟨.plain "Tally", [], none, [], none⟩, members⟩⟩

end Sample

end ClassLang
