import ClassLang.Assembly.Instr

/-! Lines of an assembly module. A line stands at a depth, the number of blocks around it; labels
stand one step further left. -/
namespace ClassLang.Assembly

structure LocalEntry where
  slot : UInt16
  type : AsmType
  name : String
  deriving DecidableEq

inductive Line where
  | usesLibrary (name : String)
  | assembly (name : String)
  | program (name : String)
  | blank
  | cls (nested : Bool) (access : Access) (isStatic : Bool) (name : String)
  | field (access : Access) (isStatic : Bool) (type : AsmType) (name : String)
  | method (access : Access) (isStatic : Bool) (returns : AsmType) (name : String)
      (params : List (AsmType × String))
  | ctor
  | openBrace
  | closeBrace
  | entryPoint
  | maxStack (size : Nat)
  | locals (entries : List LocalEntry)
  | instr (i : Instr)
  | label (l : Label)
  | text (line : String)
  | labelText (name : String)
  deriving DecidableEq

/-- The file of a program. A name that needs no quotes takes its ending as it stands. -/
def programFile (name : String) : String :=
  if nameToken name = name then name ++ ".exe" else nameToken (name ++ ".exe")

def paramsText (params : List (AsmType × String)) : String :=
  ", ".intercalate (params.map fun p => s!"{p.1.text} {nameToken p.2}")

def LocalEntry.text (e : LocalEntry) : String :=
  s!"[{e.slot.toNat}] {e.type.text} {nameToken e.name}"

def localsText (entries : List LocalEntry) : String :=
  ", ".intercalate (entries.map LocalEntry.text)

def Line.spell (library : String) : Line → String
  | .usesLibrary name => s!".assembly extern {nameToken name} " ++ "\x7b\x7d"
  | .assembly name => s!".assembly {nameToken name} " ++ "\x7b\x7d"
  | .program name => ".module " ++ programFile name
  | .blank => ""
  | .cls nested access isStatic name =>
    ".class " ++ (if nested then "nested " else "") ++ access.text ++
      (if isStatic then " abstract sealed" else "") ++
      s!" auto ansi beforefieldinit {nameToken name} extends " ++
      libraryType library "System.Object"
  | .field access isStatic type name =>
    s!".field {access.text}" ++ (if isStatic then " static" else "") ++
      s!" {type.text} {nameToken name}"
  | .method access isStatic returns name params =>
    let binding := if isStatic then "static" else "instance"
    s!".method {access.text} hidebysig {binding} {returns.text} {nameToken name}" ++
      s!"({paramsText params}) cil managed"
  | .ctor =>
    ".method public hidebysig specialname rtspecialname instance void .ctor() cil managed"
  | .openBrace => "\x7b"
  | .closeBrace => "\x7d"
  | .entryPoint => ".entrypoint"
  | .maxStack size => s!".maxstack {size}"
  | .locals entries => s!".locals init ({localsText entries})"
  | .instr i => i.text library
  | .label l => l.text ++ ":"
  | .text line => line
  | .labelText name => name ++ ":"

structure Placed where
  depth : Nat
  line : Line
  deriving DecidableEq

def Placed.render (library : String) (p : Placed) : String :=
  String.join (List.replicate p.depth "    ") ++ p.line.spell library ++ "\n"

structure Listing where
  library : String
  lines : List Placed
  deriving DecidableEq

def Listing.text (l : Listing) : String := String.join (l.lines.map (Placed.render l.library))

end ClassLang.Assembly
