import ClassLang.Lowering.Stmt
import ClassLang.Lowering.Writer

/-! The lines of a unit: one block for each class, with its fields, then its methods and nested
classes in source order, then its constructor. -/
namespace ClassLang.Lowering

open Assembly

structure Target where
  options : Options
  resolutions : Resolutions
  entry : Option Nat

def Target.frame (t : Target) (hasThis : Bool) : Frame := ⟨t.resolutions, t.entry, hasThis⟩

def insertLocal (slot : UInt16) (s : Symbol) : List (UInt16 × Symbol) → List (UInt16 × Symbol)
  | [] => [(slot, s)]
  | (other, o) :: rest =>
    if other < slot then (other, o) :: insertLocal slot s rest else (slot, s) :: (other, o) :: rest

def gatherVars : List Declarator → List (UInt16 × Symbol) → Except Fault (List (UInt16 × Symbol))
  | [], found => .ok found
  | v :: rest, found => do
    let s ← registered v.symbol .var v.name.text
    match s.details with
    | .var _ (.slot index) => gatherVars rest (insertLocal index s found)
    | _ => gatherVars rest found

mutual

/-- The locals declared anywhere in a statement, added to those found before, ordered by slot. -/
def gatherLocals : Stmt → List (UInt16 × Symbol) → Except Fault (List (UInt16 × Symbol))
  | .locals d, found => gatherVars d.vars found
  | .block body _, found => gatherAllLocals body found
  | .ifThen _ thenBody _, found => gatherLocals thenBody found
  | .ifElse _ thenBody elseBody _, found => do gatherLocals elseBody (← gatherLocals thenBody found)
  | .loop _ body _, found => gatherLocals body found
  | _, found => .ok found

def gatherAllLocals : List Stmt → List (UInt16 × Symbol) → Except Fault (List (UInt16 × Symbol))
  | [], found => .ok found
  | s :: rest, found => do gatherAllLocals rest (← gatherLocals s found)

end

namespace Target

def localEntries (t : Target) : List (UInt16 × Symbol) → Except Fault (List LocalEntry)
  | [] => .ok []
  | (slot, s) :: rest => do
    let type ← symbolType t.resolutions s
    return ⟨slot, type, s.name⟩ :: (← t.localEntries rest)

def paramEntries (t : Target) : List Param → Except Fault (List (AsmType × String))
  | [] => .ok []
  | p :: rest => do
    let s ← registered p.symbol .param p.name.text
    let type ← symbolType t.resolutions s
    return (type, s.name) :: (← t.paramEntries rest)

def localsLine (entries : List LocalEntry) : Writer :=
  if entries.isEmpty then .skip else .line (.locals entries)

def methodBody (t : Target) (isStatic : Bool) (body : List Stmt) : Writer :=
  .need (gatherAllLocals body []) fun found =>
    .need (t.localEntries found) fun entries =>
      localsLine entries ++
        (Writer.move fun pen => { pen with hasThis := !isStatic }) ++
        .code (lowerStmts (t.frame !isStatic) body) ++ .instrs [.ret] ++
        (Writer.move fun pen => { pen with hasThis := false })

def method (t : Target) (m : Method) : Writer :=
  .need (registered m.symbol .method m.name.text) fun s =>
    .need (symbolType t.resolutions s) fun returns =>
      .need (t.paramEntries m.params) fun params =>
        let isStatic := runsStatic t.entry s
        .line (.method (Modifier.access m.modifiers) isStatic returns s.name params) ++
        .block
          ((if t.entry = some s.id.number then .line .entryPoint else .skip) ++
            .line (.maxStack t.options.maxStack) ++
            match m.body with
            | none => .fail (.missing .methodBody)
            | some body => t.methodBody isStatic body)

def fieldLine (t : Target) (modifiers : List Modifier) (v : Declarator) : Writer :=
  .need (registered v.symbol .field v.name.text) fun s =>
    .need (symbolType t.resolutions s) fun type =>
      let isStatic := match s.details with
        | .var _ (.field isStatic _) => isStatic
        | _ => false
      .line (.field (Modifier.access modifiers) isStatic type s.name)

def fieldVars (t : Target) (modifiers : List Modifier) : List Declarator → Writer
  | [] => .skip
  | v :: rest => t.fieldLine modifiers v ++ t.fieldVars modifiers rest

def fields (t : Target) : List Member → Writer
  | [] => .skip
  | .field d :: rest => t.fieldVars d.modifiers d.vars ++ t.fields rest
  | _ :: rest => t.fields rest

/-- Every class that can be instantiated has a constructor that does nothing. -/
def defaultCtor (t : Target) : Writer :=
  .line .ctor ++
    .block (.line (.maxStack t.options.maxStack) ++ .instrs [.ldthis, .callObject, .ret])

/-- Writes a class. `rest` writes its methods and nested classes, which follow its fields. -/
def clsWith (t : Target) (nested : Bool) (head : ClassHead) (members : List Member)
    (rest : Writer) : Writer :=
  .need (registered head.symbol .cls head.name.text) fun s =>
    match s.details with
    | .cls .. =>
      let isStatic := Modifier.isStatic head.modifiers
      .line (.cls nested (Modifier.access head.modifiers) isStatic head.name.text) ++
        .block (t.fields members ++ rest ++ if isStatic then .skip else t.defaultCtor)
    | _ => .fail (.misplaced .notAClass .classDecl)

mutual

def member (t : Target) : Member → Writer
  | .method m => t.method m
  | .field _ => .skip
  | .nested head members => t.clsWith true head members (t.members members)

def members (t : Target) : List Member → Writer
  | [] => .skip
  | m :: rest => t.member m ++ t.members rest

end

def program (t : Target) (c : ClassDecl) : Writer :=
  .line (.usesLibrary t.options.runtimeLibrary) ++ .line (.assembly t.options.assemblyName) ++
    .line (.program t.options.assemblyName) ++ .line .blank ++
    t.clsWith false c.head c.members (t.members c.members)

end Target

structure Generator where
  options : Options
  entry : Option Nat
  pen : Pen
  lines : List Placed

namespace Generator

def start (options : Options) : Generator := ⟨options, none, .start, []⟩

def write (g : Generator) (w : Writer) : Generator × Option Fault :=
  let written := w g.pen
  ({ g with pen := written.pen, lines := g.lines ++ written.lines }, written.fault)

def takeLabel (g : Generator) (stem : String) : Label × Generator :=
  (⟨stem, g.pen.nextLabel⟩, { g with pen := { g.pen with nextLabel := g.pen.nextLabel + 1 } })

def frame (g : Generator) (resolutions : Resolutions) : Frame :=
  ⟨resolutions, g.entry, g.pen.hasThis⟩

def unit (g : Generator) (resolutions : Resolutions) (u : CompilationUnit) :
    Generator × Option Fault :=
  match u.top with
  | none => (g, some (.missing .topClass))
  | some top =>
    let g := { g with entry := g.options.entry.resolve top }
    g.write (Target.program ⟨g.options, resolutions, g.entry⟩ top)

def listing (g : Generator) : Listing := ⟨g.options.runtimeLibrary, g.lines⟩

end Generator

def assemble (u : CompilationUnit) (resolutions : Resolutions) (options : Options) :
    Except Fault Listing :=
  match (Generator.start options).unit resolutions u with
  | (g, none) => .ok g.listing
  | (_, some fault) => .error fault

end ClassLang.Lowering
