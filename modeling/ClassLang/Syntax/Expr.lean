import ClassLang.Ty

/-! Expressions. Each carries a note with its place and the type found for it, and names carry the
symbol they were bound to; both are empty until the unit is typed. -/
namespace ClassLang

inductive Literal where
  | int (value : Int32)
  | string (value : String)
  | boolean (value : Bool)
  | null
  deriving DecidableEq

inductive UnaryOp where
  | negate
  | not
  deriving DecidableEq, Repr

def UnaryOp.text : UnaryOp → String
  | .negate => "-"
  | .not => "!"

inductive BinaryOp where
  | add
  | sub
  | mul
  | div
  | rem
  | eq
  | ne
  | lt
  | le
  | gt
  | ge
  | and
  | or
  deriving DecidableEq, Repr

namespace BinaryOp

def text : BinaryOp → String
  | .add => "+"
  | .sub => "-"
  | .mul => "*"
  | .div => "/"
  | .rem => "%"
  | .eq => "=="
  | .ne => "!="
  | .lt => "<"
  | .le => "<="
  | .gt => ">"
  | .ge => ">="
  | .and => "&&"
  | .or => "||"

def isComparison : BinaryOp → Bool
  | .eq | .ne | .lt | .le | .gt | .ge => true
  | _ => false

end BinaryOp

structure DottedName where
  segments : List Name
  span : Span
  symbol : Option Symbol

namespace DottedName

def parse (dotted : String) : DottedName := ⟨Text.segments dotted, .null, none⟩

def text (n : DottedName) : String := Text.dotted n.segments

end DottedName

structure Note where
  span : Span
  type : Option Ty

inductive Expr where
  | literal (value : Literal) (note : Note)
  | this (note : Note)
  | name (name : DottedName) (note : Note)
  | unary (op : UnaryOp) (operand : Expr) (note : Note)
  | binary (op : BinaryOp) (left right : Expr) (note : Note)
  | assign (target value : Expr) (note : Note)
  | call (callee : Expr) (args : List Expr) (note : Note)
  | create (cls : DottedName) (args : List Expr) (note : Note)
  | field (target : Expr) (field : Name) (note : Note)
  | index (target index : Expr) (note : Note)

namespace Expr

inductive Shape where
  | literal
  | this
  | name
  | unary
  | binary
  | assign
  | call
  | create
  | field
  | index
  deriving DecidableEq, Repr

def Shape.text : Shape → String
  | .literal => "literal"
  | .this => "`this`"
  | .name => "name"
  | .unary => "unary expression"
  | .binary => "binary expression"
  | .assign => "assignment"
  | .call => "method call"
  | .create => "object creation"
  | .field => "field access"
  | .index => "index expression"

def shape : Expr → Shape
  | .literal .. => .literal
  | .this .. => .this
  | .name .. => .name
  | .unary .. => .unary
  | .binary .. => .binary
  | .assign .. => .assign
  | .call .. => .call
  | .create .. => .create
  | .field .. => .field
  | .index .. => .index

def note : Expr → Note
  | .literal _ n | .this n | .name _ n | .unary _ _ n | .binary _ _ _ n | .assign _ _ n
  | .call _ _ n | .create _ _ n | .field _ _ n | .index _ _ n => n

def span (e : Expr) : Span := e.note.span

def type (e : Expr) : Option Ty := e.note.type

end Expr

end ClassLang
