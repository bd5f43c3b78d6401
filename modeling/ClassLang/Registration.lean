import ClassLang.Problem
import ClassLang.Syntax.Unit
import ClassLang.Table
import ClassLang.Visit

/-! Registration: every class, method, field, parameter and local gets a symbol in the scope of the
declaration around it. Only names and written types are looked at, never expressions. A declaration
that clashes with an earlier one is reported and passed over with all it contains. -/
namespace ClassLang.Registration

structure State where
  table : Table
  diagnostics : List Diagnostic
  /-- The next free slot of the method being registered, a 16-bit word. -/
  nextSlot : UInt16

namespace State

def start (table : Table) (diagnostics : List Diagnostic) : State := ⟨table, diagnostics, 0⟩

def report (s : State) (problem : Problem) (position : Position) : State :=
  { s with diagnostics := s.diagnostics ++ [⟨problem, position⟩] }

def reportAll (s : State) (problems : List Problem) (position : Position) : State :=
  { s with diagnostics := s.diagnostics ++ Diagnostic.allAt position problems }

def moveTo (s : State) (scope : ScopeId) : State := { s with table := s.table.moveTo scope }

/-- Makes a symbol and binds it in the current scope. The number is used up even if it clashes. -/
def declare (s : State) (name : Name) (details : Details) (scope : Option ScopeId) :
    State × Option Symbol :=
  let (symbol, table) := s.table.newSymbol name.text details scope name.span.start
  match table.bind symbol with
  | .ok table => ({ s with table }, some symbol)
  | .error _ => ({ s with table }, none)

end State

def modifierProblems (declared : String) (modifiers : List Modifier) : List Problem :=
  (if modifiers.contains .pub && modifiers.contains .priv then
    [.badModifiers declared "declared both public and private"] else []) ++
  (Modifier.repeated [] modifiers).map fun m =>
    .badModifiers declared s!"modifier `{m.text}` repeated"

inductive Home where
  | method
  | cls (isStatic : Bool) (path : List String)

def Home.take (s : State) : Home → Storage × State
  | .method => (.slot s.nextSlot, { s with nextSlot := s.nextSlot + 1 })
  | .cls isStatic path => (.field isStatic path, s)

/-- A variable shares its name with nothing in its scope. A rejected one takes no slot. -/
def registerVar (home : Home) (type : TypeExpr) (v : Declarator) :
    Visit State Declarator Unit := fun s =>
  let redeclared (s : State) := s.report (.variableRedeclared v.name.text) v.name.span.start
  if (s.table.members s.table.current v.name.text).isEmpty then
    let (storage, s) := home.take s
    match s.declare v.name (.var type storage) none with
    | (s, none) => ⟨v, .ok (), redeclared s⟩
    | (s, some symbol) =>
      match fillSlot v.symbol symbol .var v.name.text with
      | .ok slot => ⟨{ v with symbol := slot }, .ok (), s⟩
      | .error fault => ⟨v, .error fault, s⟩
  else ⟨v, .ok (), redeclared s⟩

def registerVars (home : Home) (d : VarDecl) : Visit State VarDecl Unit :=
  (Visit.each (registerVar home d.type) d.vars).within fun vars => { d with vars }

def registerField (path : List String) (d : VarDecl) : Visit State VarDecl Unit := fun s =>
  registerVars (.cls (Modifier.isStatic d.modifiers) path) d
    (s.reportAll (modifierProblems d.names d.modifiers) d.span.start)

def registerLocals (d : VarDecl) : Visit State VarDecl Unit := fun s =>
  registerVars .method d
    (if d.modifiers.isEmpty then s
    else s.report (.badModifiers d.names "local variables take no modifiers") d.span.start)

mutual

def registerStmt : Stmt → Visit State Stmt Unit
  | .locals d => (registerLocals d).within .locals
  | .block body span => (registerStmts body).within (.block · span)
  | .ifThen cond thenBody span => (registerStmt thenBody).within (.ifThen cond · span)
  | .ifElse cond thenBody elseBody span =>
    (registerStmt thenBody).part (.ifElse cond · elseBody span) fun thenBody _ =>
      (registerStmt elseBody).within (.ifElse cond thenBody · span)
  | .loop cond body span => (registerStmt body).within (.loop cond · span)
  | s => Visit.done s ()

def registerStmts : List Stmt → Visit State (List Stmt) Unit
  | [] => Visit.done [] ()
  | s :: rest => (registerStmt s).part (· :: rest) fun s _ => (registerStmts rest).within (s :: ·)

end

def registerParam (index : UInt16) (p : Param) : Visit State Param Unit := fun s =>
  let duplicate (s : State) := s.report (.duplicateParam p.name.text) p.name.span.start
  if (s.table.localsOf p.name.text .var).isEmpty then
    match s.declare p.name (.var p.type (.param index)) none with
    | (s, none) => ⟨p, .ok (), duplicate s⟩
    | (s, some symbol) =>
      match fillSlot p.symbol symbol .param p.name.text with
      | .ok slot => ⟨{ p with symbol := slot }, .ok (), s⟩
      | .error fault => ⟨p, .error fault, s⟩
  else ⟨p, .ok (), duplicate s⟩

/-- A rejected parameter keeps its position. -/
def registerParams (index : UInt16) : List Param → Visit State (List Param) Unit
  | [] => Visit.done [] ()
  | p :: rest =>
    (registerParam index p).part (· :: rest) fun p _ =>
      (registerParams (index + 1) rest).within (p :: ·)

def sameParams (params : List TypeExpr) (other : Symbol) : Bool :=
  match other.details with
  | .method ps _ _ _ _ => TypeExpr.sameAll ps params
  | _ => false

def registerMethodBody (m : Method) : Visit State Method Unit :=
  (registerParams 0 m.params).part ({ m with params := · }) fun params _ =>
    let m := { m with params }
    match m.body with
    | none => Visit.fail m (.missing .methodBody)
    | some body => (registerStmts body).within fun body => { m with body := some body }

def registerMethod (path : List String) (m : Method) : Visit State Method Unit := fun s =>
  let name := m.name.text
  let duplicate (s : State) := s.report (.duplicateMethod name) m.name.span.start
  let s := s.reportAll (modifierProblems name m.modifiers) m.name.span.start
  let params := m.params.map Param.type
  if (s.table.localsOf name .method).any (sameParams params) then ⟨m, .ok (), duplicate s⟩
  else
    let outer := s.table.current
    let (scope, table) := s.table.openScope name
    let details := Details.method params m.returns m.modifiers path none
    match { s with table }.declare m.name details (some scope) with
    | (s, none) => ⟨m, .ok (), duplicate s⟩
    | (s, some symbol) =>
      match fillSlot m.symbol symbol .method name with
      | .error fault => ⟨m, .error fault, s⟩
      | .ok slot =>
        (registerMethodBody { m with symbol := slot }).part id
          (fun m _ s => ⟨m, .ok (), s.moveTo outer⟩)
          { s.moveTo scope with nextSlot := 0 }

def unsupportedHead (head : ClassHead) : List Diagnostic :=
  (match head.base with
    | some base => [⟨.unsupported "inheritance", base.span.start⟩]
    | none => []) ++
  (if head.typeParams.isEmpty then [] else [⟨.unsupported "generic classes", head.name.span.start⟩])

/-- Registers a class. `body` registers its members, once the class has its scope and its path. -/
def registerClassWith (path : List String) (head : ClassHead) (members : List Member)
    (body : List String → Visit State (List Member) Unit) : Visit State ClassDecl Unit := fun s =>
  let name := head.name.text
  let duplicate (s : State) := s.report (.duplicateClass name) head.name.span.start
  let s := s.reportAll (modifierProblems name head.modifiers) head.name.span.start
  let s := { s with diagnostics := s.diagnostics ++ unsupportedHead head }
  let outer := s.table.current
  if (s.table.members outer name).isEmpty then
    let path := path ++ [name]
    let (scope, table) := s.table.openScope name
    match { s with table }.declare head.name (.cls path head.modifiers false) (some scope) with
    | (s, none) => ⟨⟨head, members⟩, .ok (), duplicate s⟩
    | (s, some symbol) =>
      match fillSlot head.symbol symbol .cls name with
      | .error fault => ⟨⟨head, members⟩, .error fault, s⟩
      | .ok slot =>
        let head := { head with symbol := slot }
        (body path).part (ClassDecl.mk head)
          (fun members _ s => ⟨⟨head, members⟩, .ok (), s.moveTo outer⟩) (s.moveTo scope)
  else ⟨⟨head, members⟩, .ok (), duplicate s⟩

mutual

def registerMember (path : List String) : Member → Visit State Member Unit
  | .method m => (registerMethod path m).within .method
  | .field d => (registerField path d).within .field
  | .nested head members =>
    (registerClassWith path head members fun path => registerMembers path members).within
      fun c => .nested c.head c.members

def registerMembers (path : List String) : List Member → Visit State (List Member) Unit
  | [] => Visit.done [] ()
  | m :: rest =>
    (registerMember path m).part (· :: rest) fun m _ => (registerMembers path rest).within (m :: ·)

end

def registerClass (path : List String) (c : ClassDecl) : Visit State ClassDecl Unit :=
  registerClassWith path c.head c.members fun path => registerMembers path c.members

def registerUnit (u : CompilationUnit) (table : Table) (diagnostics : List Diagnostic) :
    Visited State CompilationUnit Unit :=
  match u.top with
  | none => ⟨u, .error (.missing .topClass), .start table diagnostics⟩
  | some top =>
    (registerClass [] top).part (fun top => CompilationUnit.mk (some top))
      (fun top _ s => ⟨⟨some top⟩, .ok (), s.moveTo Table.root⟩)
      (.start (table.moveTo Table.root) diagnostics)

end ClassLang.Registration
