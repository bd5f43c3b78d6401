import ClassLang.Syntax.Unit

/-! What the user of the compiler chooses. -/
namespace ClassLang

inductive EntryChoice where
  | firstStatic
  | named (name : String)
  deriving DecidableEq

def EntryChoice.accepts : EntryChoice → Method → Bool
  | .firstStatic, m => Modifier.isStatic m.modifiers
  | .named name, m => m.name.text == name

def EntryChoice.first? (choice : EntryChoice) : List Member → Option Method
  | [] => none
  | .method m :: rest => if choice.accepts m then some m else choice.first? rest
  | _ :: rest => choice.first? rest

/-- The number of the symbol of the first method accepted, if that method was registered. -/
def EntryChoice.resolve (choice : EntryChoice) (cls : ClassDecl) : Option Nat :=
  (choice.first? cls.members).bind fun m => m.symbol.map fun s => s.id.number

structure Options where
  assemblyName : String
  runtimeLibrary : String
  maxStack : Nat
  entry : EntryChoice

def Options.default : Options := ⟨"program", "mscorlib", 8, .firstStatic⟩

/-- Whether a method runs without `this`. The entry point always does. -/
def runsStatic (entry : Option Nat) (method : Symbol) : Bool :=
  entry == some method.id.number || method.isStatic

end ClassLang
