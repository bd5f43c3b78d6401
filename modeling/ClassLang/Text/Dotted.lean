import ClassLang.Source
import ClassLang.Text.Join

/-! Dotted text such as `System.Write`. The empty text has one segment, which is empty. -/
namespace ClassLang.Text

def segments (text : String) : List Name :=
  (split '.' text.toList).map fun word => .plain (String.ofList word)

def dotted (names : List Name) : String :=
  String.ofList (join '.' (names.map fun n => n.text.toList))

end ClassLang.Text
