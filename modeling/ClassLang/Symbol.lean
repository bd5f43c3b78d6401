import ClassLang.Syntax.Modifier
import ClassLang.Syntax.TypeExpr
import Std.Data.TreeMap

/-! Symbols: the record made for every declared name. A symbol never changes. The types found for
it later are kept apart, under its `SymbolId`. -/
namespace ClassLang

/-- Scopes are numbered by creation, the outermost being 0. -/
abbrev ScopeId := Nat

/-- Numbers count within one table, so a symbol is identified by its table and its number. -/
structure SymbolId where
  table : Nat
  number : Nat
  deriving DecidableEq, Repr

namespace SymbolId

instance : Ord SymbolId := ⟨compareLex (compareOn table) (compareOn number)⟩

instance : Std.TransOrd SymbolId :=
  inferInstanceAs (Std.TransCmp (compareLex (compareOn table) (compareOn number)))

instance : Std.LawfulEqOrd SymbolId where
  compare_self := Std.ReflCmp.compare_self
  eq_of_compare {a b} h := by
    obtain ⟨ht, hn⟩ := compareLex_eq_eq.mp h
    have ht : a.table = b.table := Std.LawfulEqOrd.eq_of_compare ht
    have hn : a.number = b.number := Std.LawfulEqOrd.eq_of_compare hn
    cases a
    cases b
    simp_all

end SymbolId

inductive Storage where
  | slot (index : UInt16)
  | param (index : UInt16)
  | field (isStatic : Bool) (owner : List String)
  deriving DecidableEq, Repr

inductive Routine where
  | write
  | writeLine
  deriving DecidableEq, Repr

def Routine.text : Routine → String
  | .write => "Write"
  | .writeLine => "WriteLine"

inductive Details where
  | cls (path : List String) (modifiers : List Modifier) (builtin : Bool)
  | method (params : List TypeExpr) (returns : TypeExpr) (modifiers : List Modifier)
      (owner : List String) (routine : Option Routine)
  | var (type : TypeExpr) (storage : Storage)

inductive SymbolKind where
  | cls
  | method
  | var
  deriving DecidableEq, Repr

def SymbolKind.text : SymbolKind → String
  | .cls => "class"
  | .method => "function"
  | .var => "variable"

structure Symbol where
  id : SymbolId
  name : String
  /-- The scope that was current when the symbol was made. -/
  declaredIn : ScopeId
  /-- The scope that the declaration opens, for classes and methods. -/
  scope : Option ScopeId
  position : Position
  details : Details

namespace Symbol

def kind (s : Symbol) : SymbolKind :=
  match s.details with
  | .cls .. => .cls
  | .method .. => .method
  | .var .. => .var

def isMethod (s : Symbol) : Bool := s.kind == .method

/-- Classes and variables other than fields count as static. -/
def isStatic (s : Symbol) : Bool :=
  match s.details with
  | .method _ _ modifiers _ _ => Modifier.isStatic modifiers
  | .var _ (.field isStatic _) => isStatic
  | _ => true

def memberScope? (s : Symbol) : Option ScopeId :=
  match s.kind with
  | .cls => s.scope
  | _ => none

def methodOwner? (s : Symbol) : Option (List String) :=
  match s.details with
  | .method _ _ _ owner _ => some owner
  | _ => none

end Symbol

end ClassLang
