import ClassLang.Symbol

/-! Resolved types. `error` stands for a type that could not be found and absorbs what it meets;
`declaration` is the type of a name that denotes a class or a method. -/
namespace ClassLang

inductive Ty where
  | int
  | string
  | object
  | boolean
  | void
  | this
  | null
  | error
  | declaration
  | cls (symbol : Symbol)

namespace Ty

inductive Form where
  | int
  | string
  | object
  | boolean
  | void
  | this
  | null
  | error
  | declaration
  | cls
  deriving DecidableEq, Repr

def form : Ty → Form
  | .int => .int
  | .string => .string
  | .object => .object
  | .boolean => .boolean
  | .void => .void
  | .this => .this
  | .null => .null
  | .error => .error
  | .declaration => .declaration
  | .cls _ => .cls

def ofKeyword : Keyword → Ty
  | .int => .int
  | .string => .string
  | .object => .object
  | .boolean => .boolean
  | .void => .void

def text : Ty → String
  | .int => "int"
  | .string => "string"
  | .object => "object"
  | .boolean => "boolean"
  | .void => "void"
  | .this => "this"
  | .null => "null"
  | .error => "<error>"
  | .declaration => "<declaration>"
  | .cls symbol => symbol.name

def isError : Ty → Bool
  | .error => true
  | _ => false

def classNumber? : Ty → Option Nat
  | .cls symbol => some symbol.id.number
  | _ => none

/-- Class types are compared within one table, by the number of their class. -/
def same (a b : Ty) : Bool := a.form == b.form && a.classNumber? == b.classNumber?

theorem same_iff {a b : Ty} :
    a.same b = true ↔ a.form = b.form ∧ a.classNumber? = b.classNumber? := by
  simp [same]

theorem same_refl (t : Ty) : t.same t = true := same_iff.mpr ⟨rfl, rfl⟩

theorem isError_iff {t : Ty} : t.isError = true ↔ t = .error := by
  cases t <;> simp [isError]

/-- There are no implicit conversions. -/
def convertsTo (received expected : Ty) : Bool := received.same expected

def isValue : Ty → Bool
  | .void | .error | .declaration => false
  | _ => true

def sameList : List Ty → List Ty → Bool
  | [], [] => true
  | a :: as, b :: bs => a.same b && sameList as bs
  | _, _ => false

end Ty

end ClassLang
