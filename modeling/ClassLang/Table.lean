import ClassLang.Symbol
import ClassLang.Text.Quoted

/-! The tree of scopes of one unit. Scopes refer to their parent by number. The table has a current
scope, in which symbols are made and bound; opening a scope does not move there. -/
namespace ClassLang

structure Scope where
  name : String
  parent : Option ScopeId
  /-- The symbols of each name, in the order in which they were bound. -/
  bindings : Std.TreeMap String (List Symbol)

namespace Scope

def empty (name : String) (parent : Option ScopeId) : Scope := ⟨name, parent, ∅⟩

def get (s : Scope) (name : String) : List Symbol := s.bindings.getD name []

def add (s : Scope) (symbol : Symbol) : Scope :=
  { s with bindings := s.bindings.insert symbol.name (s.get symbol.name ++ [symbol]) }

@[simp] theorem get_empty (name : String) (parent : Option ScopeId) (wanted : String) :
    (empty name parent).get wanted = [] := by
  simp [get, empty]

theorem get_add (s : Scope) (symbol : Symbol) (name : String) :
    (s.add symbol).get name =
      if name = symbol.name then s.get name ++ [symbol] else s.get name := by
  unfold get add
  rw [Std.TreeMap.getD_insert]
  by_cases h : name = symbol.name
  · subst h
    simp [get]
  · simp [h, Ne.symm h]

end Scope

structure Clash where
  name : String
  kind : SymbolKind
  deriving DecidableEq

def Clash.text (c : Clash) : String :=
  s!"{c.kind.text} {Text.quoted c.name} is already declared in this scope"

structure Table where
  tag : Nat
  scopes : List Scope
  current : ScopeId
  nextSymbol : Nat

namespace Table

def root : ScopeId := 0

def empty (tag : Nat) : Table := ⟨tag, [.empty "<compilation-unit>" none], root, 0⟩

def moveTo (t : Table) (scope : ScopeId) : Table := { t with current := scope }

def openScope (t : Table) (name : String) : ScopeId × Table :=
  (t.scopes.length, { t with scopes := t.scopes ++ [.empty name (some t.current)] })

def newSymbol (t : Table) (name : String) (details : Details) (scope : Option ScopeId)
    (position : Position) : Symbol × Table :=
  (⟨⟨t.tag, t.nextSymbol⟩, name, t.current, scope, position, details⟩,
    { t with nextSymbol := t.nextSymbol + 1 })

def members (t : Table) (scope : ScopeId) (name : String) : List Symbol :=
  match t.scopes[scope]? with
  | some s => s.get name
  | none => []

@[simp] theorem members_moveTo (t : Table) (next scope : ScopeId) (name : String) :
    (t.moveTo next).members scope name = t.members scope name := rfl

@[simp] theorem members_newSymbol (t : Table) (made : String) (details : Details)
    (opened : Option ScopeId) (position : Position) (scope : ScopeId) (name : String) :
    (t.newSymbol made details opened position).2.members scope name = t.members scope name := rfl

/-- A new scope is empty, and the others are as before. -/
@[simp] theorem members_openScope (t : Table) (opened : String) (scope : ScopeId) (name : String) :
    (t.openScope opened).2.members scope name = t.members scope name := by
  unfold members openScope
  rcases Nat.lt_trichotomy scope t.scopes.length with h | h | h
  · rw [List.getElem?_append_left h]
  · subst h
    simp
  · rw [List.getElem?_eq_none (by simp; omega), List.getElem?_eq_none (by omega)]

def localsOf (t : Table) (name : String) (kind : SymbolKind) : List Symbol :=
  (t.members t.current name).filter fun s => s.kind == kind

/-- Methods may share a name with methods; nothing else may share one. -/
def admits (existing : List Symbol) (s : Symbol) : Bool :=
  existing.isEmpty || (s.isMethod && existing.all Symbol.isMethod)

def bind (t : Table) (s : Symbol) : Except Clash Table :=
  if admits (t.members t.current s.name) s then
    .ok { t with scopes := t.scopes.modify t.current fun scope => scope.add s }
  else .error ⟨s.name, s.kind⟩

theorem bind_eq_error_iff {t : Table} {s : Symbol} {c : Clash} :
    t.bind s = .error c ↔ admits (t.members t.current s.name) s = false ∧ c = ⟨s.name, s.kind⟩ := by
  unfold bind
  cases admits (t.members t.current s.name) s <;> simp [eq_comm]

/-- A bound symbol comes last under its name, and nothing else changes. -/
theorem members_of_bind {t u : Table} {s : Symbol} (h : t.bind s = .ok u)
    (hc : t.current < t.scopes.length) (scope : ScopeId) (name : String) :
    u.members scope name =
      if scope = t.current ∧ name = s.name then t.members scope name ++ [s]
      else t.members scope name := by
  unfold bind at h
  split at h
  · cases h
    by_cases hs : scope = t.current
    · subst hs
      have hk : t.scopes[t.current]? = some t.scopes[t.current] := List.getElem?_eq_getElem hc
      by_cases hn : name = s.name
      · simp [members, hk, Scope.get_add, hn]
      · simp [members, hk, Scope.get_add, hn]
    · simp [members, hs, Ne.symm hs]
  · cases h

def searchOutward (t : Table) (name : String) : Nat → ScopeId → List Symbol
  | 0, _ => []
  | fuel + 1, scope =>
    match t.scopes[scope]? with
    | none => []
    | some s =>
      match s.get name, s.parent with
      | [], some parent => t.searchOutward name fuel parent
      | found, _ => found

/-- The symbols bound to `name` in the nearest scope that binds it at all, so that an inner binding
hides every outer one. No chain of parents is longer than the list of scopes. -/
def visibleFrom (t : Table) (scope : ScopeId) (name : String) : List Symbol :=
  t.searchOutward name t.scopes.length scope

def visible (t : Table) (name : String) : List Symbol := t.visibleFrom t.current name

def consoleRoutine (tag number : Nat) (routine : Routine) (param : Keyword) : Symbol :=
  ⟨⟨tag, number⟩, routine.text, 1, none, .null,
    .method [.keyword param .null] (.keyword .void .null) [.pub, .static] ["System"] (some routine)⟩

def systemClass (tag : Nat) : Symbol :=
  ⟨⟨tag, 0⟩, "System", root, some 1, .null, .cls ["System"] [.pub, .static] true⟩

/-- A table that already declares the class `System` and its console routines. -/
def withSystem (tag : Nat) : Table where
  tag := tag
  scopes :=
    [(Scope.empty "<compilation-unit>" none).add (systemClass tag),
     [consoleRoutine tag 1 .write .string, consoleRoutine tag 2 .write .int,
      consoleRoutine tag 3 .writeLine .string, consoleRoutine tag 4 .writeLine .int].foldl
        Scope.add (.empty "System" (some root))]
  current := root
  nextSymbol := 5

end Table

end ClassLang
