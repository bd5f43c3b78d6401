import ClassLang.Text.Dotted

/-! Types as written in declarations. `same` compares two of them by spelling, whatever their
places; it is what tells overloads apart before any class name can be resolved. -/
namespace ClassLang

inductive Keyword where
  | int
  | string
  | object
  | boolean
  | void
  deriving DecidableEq, Repr

def Keyword.text : Keyword → String
  | .int => "int"
  | .string => "string"
  | .object => "object"
  | .boolean => "boolean"
  | .void => "void"

inductive TypeExpr where
  | keyword (word : Keyword) (span : Span)
  | named (segments : List Name) (span : Span)
  | array (element : TypeExpr) (span : Span)
  | generic (base : TypeExpr) (args : List TypeExpr) (span : Span)

namespace TypeExpr

def span : TypeExpr → Span
  | .keyword _ s | .named _ s | .array _ s | .generic _ _ s => s

mutual

def text : TypeExpr → String
  | .keyword word _ => word.text
  | .named segments _ => Text.dotted segments
  | .array element _ => element.text ++ "[]"
  | .generic base args _ => base.text ++ "<" ++ ", ".intercalate (texts args) ++ ">"

def texts : List TypeExpr → List String
  | [] => []
  | t :: ts => t.text :: texts ts

end

def sameNames : List Name → List Name → Bool
  | [], [] => true
  | a :: as, b :: bs => a.text == b.text && sameNames as bs
  | _, _ => false

mutual

def same : TypeExpr → TypeExpr → Bool
  | .keyword a _, .keyword b _ => a == b
  | .named a _, .named b _ => sameNames a b
  | .array a _, .array b _ => a.same b
  | .generic a as _, .generic b bs _ => a.same b && sameAll as bs
  | _, _ => false

def sameAll : List TypeExpr → List TypeExpr → Bool
  | [], [] => true
  | a :: as, b :: bs => a.same b && sameAll as bs
  | _, _ => false

end

theorem sameNames_refl (a : List Name) : sameNames a a = true := by
  induction a with
  | nil => rfl
  | cons n rest ih => simp [sameNames, ih]

mutual

theorem same_refl : ∀ t : TypeExpr, t.same t = true
  | .keyword _ _ => by simp [same]
  | .named segments _ => by simp [same, sameNames_refl]
  | .array element _ => by simp [same, same_refl element]
  | .generic base args _ => by simp [same, same_refl base, sameAll_refl args]

theorem sameAll_refl : ∀ ts : List TypeExpr, sameAll ts ts = true
  | [] => by simp [sameAll]
  | t :: ts => by simp [sameAll, same_refl t, sameAll_refl ts]

end

end TypeExpr

end ClassLang
