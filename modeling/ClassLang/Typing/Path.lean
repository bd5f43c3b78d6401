import ClassLang.Problem
import ClassLang.Table
import ClassLang.Ty

/-! What dotted names and written types mean. The first segment of a name is looked up outward from
a scope, each further one among the members of the class before it, and every segment has to mean
exactly one symbol. The first segment that does not gives the one diagnostic. -/
namespace ClassLang.Typing

/-- Segments that were not read from a file are reported at `fallback`. -/
def undeclared (fallback : Position) (before : List Name) (segment : Name) : Diagnostic :=
  ⟨.undeclared (Text.dotted (before ++ [segment])),
    if segment.span.start = .null then fallback else segment.span.start⟩

def resolveMembers (t : Table) (fallback : Position) (before : List Name) (owner : Symbol) :
    List Name → Except Diagnostic Symbol
  | [] => .ok owner
  | segment :: rest =>
    match owner.memberScope? with
    | none => .error ⟨.unsupported s!"member access on `{owner.name}`", segment.span.start⟩
    | some scope =>
      match t.members scope segment.text with
      | [found] => resolveMembers t fallback (before ++ [segment]) found rest
      | _ => .error (undeclared fallback before segment)

def resolvePath (t : Table) (scope : ScopeId) (fallback : Position) :
    List Name → Option (Except Diagnostic Symbol)
  | [] => none
  | segment :: rest =>
    match t.visibleFrom scope segment.text with
    | [found] => some (resolveMembers t fallback [segment] found rest)
    | _ => some (.error (undeclared fallback [] segment))

/-- The type that a written type means from `scope`, and the diagnostic if it means none. A name
without segments means none either, and is no news. -/
def resolveType (t : Table) (scope : ScopeId) : TypeExpr → Ty × Option Diagnostic
  | .keyword word _ => (.ofKeyword word, none)
  | .named segments span =>
    match resolvePath t scope span.start segments with
    | none => (.error, none)
    | some (.error d) => (.error, some d)
    | some (.ok symbol) =>
      if symbol.kind = .cls then (.cls symbol, none)
      else (.error, some ⟨.notAType (Text.dotted segments), span.start⟩)
  | .array _ span => (.error, some ⟨.unsupported "arrays", span.start⟩)
  | .generic _ _ span => (.error, some ⟨.unsupported "generic types", span.start⟩)

end ClassLang.Typing
