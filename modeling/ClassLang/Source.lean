/-! Places in source text, and the names written there. -/
namespace ClassLang

structure Position where
  offset : Nat
  file : String
  deriving DecidableEq, Repr

def Position.null : Position := ⟨0, "<null>"⟩

structure Span where
  start : Position
  stop : Position
  deriving DecidableEq, Repr

def Span.null : Span := ⟨.null, .null⟩

def Span.within (file : String) (start stop : Nat) : Span := ⟨⟨start, file⟩, ⟨stop, file⟩⟩

structure Name where
  text : String
  span : Span
  deriving DecidableEq, Repr

def Name.plain (text : String) : Name := ⟨text, .null⟩

end ClassLang
