import ClassLang.Syntax.Unit
import ClassLang.Typing.Stmt

/-! Typing of declarations. Classes and methods that registration rejected are passed over. -/
namespace ClassLang.Typing

def typeParams : List Param → List Ty → State → State
  | p :: params, type :: types, s =>
    typeParams params types (match p.symbol with
      | some symbol => s.setType symbol type
      | none => s)
  | _, _, s => s

def annotateMethod (ctx : Context) (m : Method) : Visit State Method Unit := fun s =>
  match m.symbol with
  | none => ⟨m, .ok (), s⟩
  | some symbol =>
    match symbol.scope with
    | none => ⟨m, .error (.unresolved .typing .scope symbol.name), s⟩
    | some scope =>
      let (types, _, s) := s.signature ctx.table symbol
      let s := typeParams m.params types s
      match m.body with
      | none => ⟨m, .error (.missing .methodBody), s⟩
      | some body =>
        (annotateStmts { ctx with scope, method := some symbol } body).within
          (fun body => { m with body := some body }) s

/-- Fields take no initial value; one that is written is checked all the same. -/
def annotateFieldVar (ctx : Context) (type : TypeExpr) (v : Declarator) :
    Visit State Declarator Unit := fun s =>
  let (_, s) := declaredType ctx type v s
  match v.init with
  | none => ⟨v, .ok (), s⟩
  | some init =>
    (annotateExpr ctx init).part (fun init => { v with init := some init })
      (fun init _ => Visit.done { v with init := some init } ())
      (s.report (.unsupported "field initializers") init.span.start)

def annotateField (ctx : Context) (d : VarDecl) : Visit State VarDecl Unit :=
  (Visit.each (annotateFieldVar ctx d.type) d.vars).within fun vars => { d with vars }

def annotateClassWith (ctx : Context) (head : ClassHead) (members : List Member)
    (body : Context → Visit State (List Member) Unit) : Visit State ClassDecl Unit :=
  match head.symbol with
  | none => Visit.done ⟨head, members⟩ ()
  | some symbol =>
    match symbol.scope with
    | none => Visit.fail ⟨head, members⟩ (.unresolved .typing .scope symbol.name)
    | some scope => (body { ctx with scope, method := none }).within (ClassDecl.mk head)

mutual

def annotateMember (ctx : Context) : Member → Visit State Member Unit
  | .method m => (annotateMethod ctx m).within .method
  | .field d => (annotateField ctx d).within .field
  | .nested head members =>
    (annotateClassWith ctx head members fun ctx => annotateMembers ctx members).within
      fun c => .nested c.head c.members

def annotateMembers (ctx : Context) : List Member → Visit State (List Member) Unit
  | [] => Visit.done [] ()
  | m :: rest =>
    (annotateMember ctx m).part (· :: rest) fun m _ => (annotateMembers ctx rest).within (m :: ·)

end

def annotateClass (ctx : Context) (c : ClassDecl) : Visit State ClassDecl Unit :=
  annotateClassWith ctx c.head c.members fun ctx => annotateMembers ctx c.members

/-- Checks a registered unit. The entry point is checked as a static method. -/
def annotateUnit (u : CompilationUnit) (table : Table) (entry : EntryChoice) :
    Visit State CompilationUnit Unit :=
  match u.top with
  | none => Visit.fail u (.missing .topClass)
  | some top =>
    (annotateClass ⟨table, Table.root, none, entry.resolve top⟩ top).within
      fun top => ⟨some top⟩

end ClassLang.Typing
