import ClassLang.Text.Join

/-! Names and string literals as the assembler reads them. -/
namespace ClassLang.Assembly

/-- Words of the assembler, which cannot stand as names without quotes. -/
def reserved : List String :=
  ["add", "and", "assembly", "auto", "bool", "br", "call", "cil", "class", "ctor", "div", "dup",
   "entrypoint", "extends", "extern", "field", "instance", "int32", "locals", "managed", "method",
   "module", "neg", "nested", "newobj", "not", "object", "or", "pop", "private", "public", "rem",
   "ret", "static", "string", "sub", "value", "void"]

def isNameStart (c : Char) : Bool := c.isAlpha || c == '_'

def isNameChar (c : Char) : Bool := c.isAlphanum || c == '_'

/-- A nonempty word of ASCII letters, digits and underscores that starts with no digit. -/
def isIdentifier : List Char → Bool
  | [] => false
  | c :: cs => isNameStart c && cs.all isNameChar

def escape (mark : Char) (cs : List Char) : List Char :=
  cs.flatMap fun c => if c = mark then ['\\', c] else [c]

/-- An identifier that is no word of the assembler stands as it is, and anything else in quotes. -/
def nameToken (name : String) : String :=
  if isIdentifier name.toList && !reserved.contains name then name
  else String.ofList ('\'' :: escape '\'' (escape '\\' name.toList) ++ ['\''])

def classToken (path : List String) : String :=
  String.ofList (Text.join '/' (path.map fun name => (nameToken name).toList))

def escapedLiteralChar (c : Char) : List Char :=
  if c = '"' ∨ c = '\\' then ['\\', c]
  else if c = '\n' then ['\\', 'n']
  else if c = '\r' then ['\\', 'r']
  else if c = '\t' then ['\\', 't']
  else [c]

def stringToken (value : String) : String :=
  String.ofList ('"' :: value.toList.flatMap escapedLiteralChar ++ ['"'])

end ClassLang.Assembly
