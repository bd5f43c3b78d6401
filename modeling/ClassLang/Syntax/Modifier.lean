/-! Modifiers of declarations. They are kept in the order written, repeats included. -/
namespace ClassLang

inductive Modifier where
  | pub
  | priv
  | static
  deriving DecidableEq, Repr

def Modifier.text : Modifier → String
  | .pub => "public"
  | .priv => "private"
  | .static => "static"

inductive Access where
  | pub
  | priv
  deriving DecidableEq, Repr

def Access.text : Access → String
  | .pub => "public"
  | .priv => "private"

namespace Modifier

def isStatic (modifiers : List Modifier) : Bool := modifiers.contains .static

/-- Private unless declared public, also when declared both. -/
def access (modifiers : List Modifier) : Access :=
  if modifiers.contains .pub then .pub else .priv

def repeated (seen : List Modifier) : List Modifier → List Modifier
  | [] => []
  | m :: rest => (if seen.contains m then [m] else []) ++ repeated (seen ++ [m]) rest

end Modifier

end ClassLang
