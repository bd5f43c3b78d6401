import ClassLang.Typing.Path

/-! The types found for symbols, and the state of typing. Each written type is resolved when it is
first needed, in the scope its symbol was declared in, and what was found is kept. -/
namespace ClassLang

/-- The type of a variable or the result type of a method, and the parameter types of a method.
What is recorded for a symbol is never replaced. -/
structure Resolutions where
  types : Std.TreeMap SymbolId Ty
  params : Std.TreeMap SymbolId (List Ty)

namespace Resolutions

def empty : Resolutions := ⟨∅, ∅⟩

def type? (r : Resolutions) (s : Symbol) : Option Ty := r.types[s.id]?

def params? (r : Resolutions) (s : Symbol) : Option (List Ty) := r.params[s.id]?

def setType (r : Resolutions) (s : Symbol) (type : Ty) : Bool × Resolutions :=
  match r.type? s with
  | some _ => (false, r)
  | none => (true, { r with types := r.types.insert s.id type })

theorem type?_setType_self (r : Resolutions) (s : Symbol) (type : Ty) :
    (r.setType s type).2.type? s = some ((r.type? s).getD type) := by
  unfold setType
  split
  · next h => simp [h]
  · next h =>
    rw [h, Option.getD_none]
    simp [type?]

theorem type?_setType_of_ne (r : Resolutions) {s u : Symbol} (type : Ty) (h : u.id ≠ s.id) :
    (r.setType s type).2.type? u = r.type? u := by
  unfold setType
  split
  · rfl
  · simp [type?, Std.TreeMap.getElem?_insert, Ne.symm h]

theorem type?_setType_of_some (r : Resolutions) {s u : Symbol} {type found : Ty}
    (h : r.type? u = some found) : (r.setType s type).2.type? u = some found := by
  by_cases hu : u.id = s.id
  · have hs : r.type? s = some found := by simpa [type?, hu] using h
    simpa [setType, hs] using h
  · rw [type?_setType_of_ne r type hu, h]

def setParams (r : Resolutions) (s : Symbol) (types : List Ty) : Bool × Resolutions :=
  match r.params? s with
  | some _ => (false, r)
  | none => (true, { r with params := r.params.insert s.id types })

theorem params?_setParams_self (r : Resolutions) (s : Symbol) (types : List Ty) :
    (r.setParams s types).2.params? s = some ((r.params? s).getD types) := by
  unfold setParams
  split
  · next h => simp [h]
  · next h =>
    rw [h, Option.getD_none]
    simp [params?]

theorem params?_setParams_of_ne (r : Resolutions) {s u : Symbol} (types : List Ty)
    (h : u.id ≠ s.id) :
    (r.setParams s types).2.params? u = r.params? u := by
  unfold setParams
  split
  · rfl
  · simp [params?, Std.TreeMap.getElem?_insert, Ne.symm h]

theorem params?_setParams_of_some (r : Resolutions) {s u : Symbol} {types found : List Ty}
    (h : r.params? u = some found) : (r.setParams s types).2.params? u = some found := by
  by_cases hu : u.id = s.id
  · have hs : r.params? s = some found := by simpa [params?, hu] using h
    simpa [setParams, hs] using h
  · rw [params?_setParams_of_ne r types hu, h]

end Resolutions

namespace Typing

structure State where
  resolutions : Resolutions
  diagnostics : List Diagnostic

namespace State

def push (s : State) (d : Diagnostic) : State := { s with diagnostics := s.diagnostics ++ [d] }

def report (s : State) (problem : Problem) (position : Position) : State :=
  s.push ⟨problem, position⟩

def setType (s : State) (symbol : Symbol) (type : Ty) : State :=
  { s with resolutions := (s.resolutions.setType symbol type).2 }

def setParams (s : State) (symbol : Symbol) (types : List Ty) : State :=
  { s with resolutions := (s.resolutions.setParams symbol types).2 }

def resolve (s : State) (t : Table) (scope : ScopeId) (type : TypeExpr) : Ty × State :=
  match resolveType t scope type with
  | (type, none) => (type, s)
  | (type, some d) => (type, s.push d)

def resolveAll (s : State) (t : Table) (scope : ScopeId) : List TypeExpr → List Ty × State
  | [] => ([], s)
  | type :: rest =>
    let (type, s) := s.resolve t scope type
    let (types, s) := s.resolveAll t scope rest
    (type :: types, s)

def varType (s : State) (t : Table) (v : Symbol) : Ty × State :=
  match s.resolutions.type? v with
  | some type => (type, s)
  | none =>
    let (type, s) := match v.details with
      | .var type _ => s.resolve t v.declaredIn type
      | _ => (.declaration, s)
    (type, s.setType v type)

def paramTypes (s : State) (t : Table) (m : Symbol) (params : List TypeExpr) : List Ty × State :=
  match s.resolutions.params? m with
  | some types => (types, s)
  | none =>
    let (types, s) := s.resolveAll t m.declaredIn params
    (types, s.setParams m types)

def resultType (s : State) (t : Table) (m : Symbol) (returns : TypeExpr) : Ty × State :=
  match s.resolutions.type? m with
  | some type => (type, s)
  | none =>
    let (type, s) := s.resolve t m.declaredIn returns
    (type, s.setType m type)

def signature (s : State) (t : Table) (m : Symbol) : List Ty × Ty × State :=
  match m.details with
  | .method params returns _ _ _ =>
    let (types, s) := s.paramTypes t m params
    let (type, s) := s.resultType t m returns
    (types, type, s)
  | _ => ([], .error, s)

end State

end Typing

end ClassLang
