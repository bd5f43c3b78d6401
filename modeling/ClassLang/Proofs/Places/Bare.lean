import ClassLang.Compile

/-! Trees without places. `bare` takes every span off a tree and every position off the symbols and
types recorded on it, and leaves all else. Two trees that are equal up to places have the same bare
tree. What only reads names, types and symbols gives the same answer on the bare ones. -/
namespace ClassLang

def Name.bare (n : Name) : Name := .plain n.text

@[simp] theorem Name.text_bare (n : Name) : n.bare.text = n.text := rfl

@[simp] theorem Name.bare_bare (n : Name) : n.bare.bare = n.bare := rfl

theorem Name.bare_inj {m n : Name} : m.bare = n.bare ↔ m.text = n.text := by simp [bare, plain]

@[simp] theorem Name.bare_comp_bare : Name.bare ∘ Name.bare = Name.bare := rfl

@[simp] theorem Text.dotted_bare (names : List Name) :
    Text.dotted (names.map Name.bare) = Text.dotted names := by
  simp [Text.dotted, Function.comp_def]

namespace TypeExpr

mutual

def bare : TypeExpr → TypeExpr
  | .keyword word _ => .keyword word .null
  | .named segments _ => .named (segments.map Name.bare) .null
  | .array element _ => .array element.bare .null
  | .generic base args _ => .generic base.bare (bareAll args) .null

def bareAll : List TypeExpr → List TypeExpr
  | [] => []
  | t :: ts => t.bare :: bareAll ts

end

@[simp] theorem bareAll_eq_map (ts : List TypeExpr) : bareAll ts = ts.map bare := by
  induction ts with
  | nil => rfl
  | cons t ts ih => rw [bareAll, ih, List.map_cons]

mutual

@[simp] theorem bare_bare : ∀ t : TypeExpr, t.bare.bare = t.bare
  | .keyword _ _ => by simp [bare]
  | .named _ _ => by simp [bare]
  | .array element _ => by simp [bare, bare_bare element]
  | .generic base args _ => by simpa [bare, bare_bare base] using map_bare_bare args

theorem map_bare_bare : ∀ ts : List TypeExpr, ∀ t ∈ ts, t.bare.bare = t.bare
  | [] => by simp
  | t :: ts => by simpa [bare_bare t] using map_bare_bare ts

end

@[simp] theorem bare_comp_bare : bare ∘ bare = bare := funext bare_bare

theorem sameNames_iff (as : List Name) :
    ∀ bs : List Name, sameNames as bs = true ↔ as.map Name.bare = bs.map Name.bare := by
  induction as with
  | nil =>
    intro bs
    cases bs <;> simp [sameNames]
  | cons a as ih =>
    intro bs
    cases bs <;> simp [sameNames, ih, Name.bare_inj]

mutual

/-- Types are spelled alike if nothing but their places tells them apart. -/
theorem same_iff : ∀ a b : TypeExpr, a.same b = true ↔ a.bare = b.bare
  | .keyword _ _, b => by cases b <;> simp [bare, same]
  | .named as _, b => by cases b <;> simp [bare, same, sameNames_iff as]
  | .array a _, b => by cases b <;> simp [bare, same, same_iff a]
  | .generic a as _, b => by cases b <;> simp [bare, same, same_iff a, sameAll_iff as]

theorem sameAll_iff : ∀ as bs : List TypeExpr, sameAll as bs = true ↔ as.map bare = bs.map bare
  | [], bs => by cases bs <;> simp [sameAll]
  | a :: as, bs => by cases bs <;> simp [sameAll, same_iff a, sameAll_iff as]

end

theorem sameAll_comm (as bs : List TypeExpr) : sameAll as bs = sameAll bs as := by
  rw [Bool.eq_iff_iff, sameAll_iff, sameAll_iff, eq_comm]

@[simp] theorem sameAll_bare (as bs : List TypeExpr) :
    sameAll (as.map bare) (bs.map bare) = sameAll as bs := by
  rw [Bool.eq_iff_iff, sameAll_iff, sameAll_iff, List.map_map, List.map_map, bare_comp_bare]

end TypeExpr

namespace Details

def bare : Details → Details
  | .method params returns modifiers owner routine =>
    .method (params.map TypeExpr.bare) returns.bare modifiers owner routine
  | .var type storage => .var type.bare storage
  | .cls path modifiers builtin => .cls path modifiers builtin

@[simp] theorem bare_bare (d : Details) : d.bare.bare = d.bare := by
  cases d <;> simp [bare]

end Details

namespace Symbol

def bare (s : Symbol) : Symbol := { s with position := .null, details := s.details.bare }

@[simp] theorem bare_bare (s : Symbol) : s.bare.bare = s.bare := by simp [bare]

@[simp] theorem bare_comp_bare : bare ∘ bare = bare := funext bare_bare

@[simp] theorem id_bare (s : Symbol) : s.bare.id = s.id := rfl

@[simp] theorem name_bare (s : Symbol) : s.bare.name = s.name := rfl

@[simp] theorem declaredIn_bare (s : Symbol) : s.bare.declaredIn = s.declaredIn := rfl

@[simp] theorem scope_bare (s : Symbol) : s.bare.scope = s.scope := rfl

@[simp] theorem details_bare (s : Symbol) : s.bare.details = s.details.bare := rfl

@[simp] theorem kind_bare (s : Symbol) : s.bare.kind = s.kind := by
  simp only [kind, details_bare]
  cases s.details <;> rfl

@[simp] theorem isMethod_bare (s : Symbol) : s.bare.isMethod = s.isMethod := by simp [isMethod]

@[simp] theorem isStatic_bare (s : Symbol) : s.bare.isStatic = s.isStatic := by
  simp only [isStatic, details_bare]
  rcases s.details with _ | _ | ⟨_, _ | _ | _⟩ <;> rfl

@[simp] theorem memberScope?_bare (s : Symbol) : s.bare.memberScope? = s.memberScope? := by
  simp [memberScope?]

@[simp] theorem methodOwner?_bare (s : Symbol) : s.bare.methodOwner? = s.methodOwner? := by
  simp only [methodOwner?, details_bare]
  cases s.details <;> rfl

@[simp] theorem classPath_bare (s : Symbol) : s.bare.classPath = s.classPath := by
  simp only [classPath, details_bare]
  cases s.details <;> rfl

@[simp] theorem runsStatic_bare (entry : Option Nat) (s : Symbol) :
    runsStatic entry s.bare = runsStatic entry s := by
  simp [runsStatic]

end Symbol

namespace Ty

def bare : Ty → Ty
  | .cls symbol => .cls symbol.bare
  | type => type

@[simp] theorem bare_bare (t : Ty) : t.bare.bare = t.bare := by cases t <;> simp [bare]

@[simp] theorem bare_comp_bare : bare ∘ bare = bare := funext bare_bare

@[simp] theorem form_bare (t : Ty) : t.bare.form = t.form := by cases t <;> rfl

@[simp] theorem text_bare (t : Ty) : t.bare.text = t.text := by cases t <;> rfl

@[simp] theorem isError_bare (t : Ty) : t.bare.isError = t.isError := by cases t <;> rfl

@[simp] theorem classNumber?_bare (t : Ty) : t.bare.classNumber? = t.classNumber? := by
  cases t <;> rfl

@[simp] theorem isValue_bare (t : Ty) : t.bare.isValue = t.isValue := by cases t <;> rfl

@[simp] theorem toAsm_bare (t : Ty) : t.bare.toAsm = t.toAsm := by
  cases t <;> simp [bare, toAsm]

theorem same_bare_left (a b : Ty) : a.bare.same b = a.same b := by simp [same]

@[simp] theorem same_bare (a b : Ty) : a.bare.same b.bare = a.same b := by simp [same]

@[simp] theorem convertsTo_bare (a b : Ty) : a.bare.convertsTo b.bare = a.convertsTo b :=
  same_bare a b

@[simp] theorem sameList_bare : ∀ as bs : List Ty,
    sameList (as.map bare) (bs.map bare) = sameList as bs
  | [], [] => rfl
  | [], _ :: _ => rfl
  | _ :: _, [] => rfl
  | a :: as, b :: bs => by simp [sameList, sameList_bare as bs]

end Ty

namespace DottedName

def bare (n : DottedName) : DottedName :=
  ⟨n.segments.map Name.bare, .null, n.symbol.map Symbol.bare⟩

@[simp] theorem bare_bare (n : DottedName) : n.bare.bare = n.bare := by simp [bare]

@[simp] theorem text_bare (n : DottedName) : n.bare.text = n.text := by simp [bare, text]

end DottedName

namespace Note

def bare (n : Note) : Note := ⟨.null, n.type.map Ty.bare⟩

@[simp] theorem bare_bare (n : Note) : n.bare.bare = n.bare := by simp [bare]

end Note

namespace Expr

mutual

def bare : Expr → Expr
  | .literal value note => .literal value note.bare
  | .this note => .this note.bare
  | .name n note => .name n.bare note.bare
  | .unary op operand note => .unary op operand.bare note.bare
  | .binary op left right note => .binary op left.bare right.bare note.bare
  | .assign target value note => .assign target.bare value.bare note.bare
  | .call callee args note => .call callee.bare (bareAll args) note.bare
  | .create n args note => .create n.bare (bareAll args) note.bare
  | .field target wanted note => .field target.bare wanted.bare note.bare
  | .index target place note => .index target.bare place.bare note.bare

def bareAll : List Expr → List Expr
  | [] => []
  | e :: es => e.bare :: bareAll es

end

@[simp] theorem bareAll_eq_map (es : List Expr) : bareAll es = es.map bare := by
  induction es with
  | nil => rfl
  | cons e es ih => rw [bareAll, ih, List.map_cons]

mutual

@[simp] theorem bare_bare : ∀ e : Expr, e.bare.bare = e.bare
  | .literal _ _ | .this _ | .name _ _ => by simp [bare]
  | .unary _ operand _ => by simp [bare, bare_bare operand]
  | .binary _ left right _ => by simp [bare, bare_bare left, bare_bare right]
  | .assign target value _ => by simp [bare, bare_bare target, bare_bare value]
  | .call callee args _ => by simpa [bare, bare_bare callee] using mem_bare_bare args
  | .create _ args _ => by simpa [bare] using mem_bare_bare args
  | .field target _ _ => by simp [bare, bare_bare target]
  | .index target place _ => by simp [bare, bare_bare target, bare_bare place]

theorem mem_bare_bare : ∀ es : List Expr, ∀ e ∈ es, e.bare.bare = e.bare
  | [] => by simp
  | e :: es => by simpa [bare_bare e] using mem_bare_bare es

end

@[simp] theorem bare_comp_bare : bare ∘ bare = bare := funext bare_bare

@[simp] theorem shape_bare (e : Expr) : e.bare.shape = e.shape := by
  cases e <;> simp [bare, shape]

@[simp] theorem type_bare (e : Expr) : e.bare.type = e.type.map Ty.bare := by
  cases e <;> simp [bare, type, note, Note.bare]

end Expr

namespace Declarator

def bare (v : Declarator) : Declarator :=
  ⟨v.name.bare, v.init.map Expr.bare, v.symbol.map Symbol.bare⟩

@[simp] theorem bare_bare (v : Declarator) : v.bare.bare = v.bare := by simp [bare]

@[simp] theorem bare_comp_bare : bare ∘ bare = bare := funext bare_bare

end Declarator

namespace VarDecl

def bare (d : VarDecl) : VarDecl :=
  ⟨d.modifiers, d.type.bare, d.vars.map Declarator.bare, .null⟩

@[simp] theorem bare_bare (d : VarDecl) : d.bare.bare = d.bare := by simp [bare]

@[simp] theorem names_bare (d : VarDecl) : d.bare.names = d.names := by
  simp [bare, names, Declarator.bare, Function.comp_def]

end VarDecl

namespace Stmt

mutual

def bare : Stmt → Stmt
  | .block body _ => .block (bareAll body) .null
  | .expr value _ type => .expr value.bare .null (type.map Ty.bare)
  | .locals d => .locals d.bare
  | .ifThen cond thenBody _ => .ifThen cond.bare thenBody.bare .null
  | .ifElse cond thenBody elseBody _ => .ifElse cond.bare thenBody.bare elseBody.bare .null
  | .loop cond body _ => .loop cond.bare body.bare .null
  | .ret value _ => .ret (value.map Expr.bare) .null
  | .empty _ => .empty .null

def bareAll : List Stmt → List Stmt
  | [] => []
  | s :: rest => s.bare :: bareAll rest

end

@[simp] theorem bareAll_eq_map (body : List Stmt) : bareAll body = body.map bare := by
  induction body with
  | nil => rfl
  | cons s rest ih => rw [bareAll, ih, List.map_cons]

mutual

@[simp] theorem bare_bare : ∀ s : Stmt, s.bare.bare = s.bare
  | .block body _ => by simpa [bare] using mem_bare_bare body
  | .expr _ _ _ | .locals _ | .ret _ _ | .empty _ => by simp [bare]
  | .ifThen _ thenBody _ => by simp [bare, bare_bare thenBody]
  | .ifElse _ thenBody elseBody _ => by simp [bare, bare_bare thenBody, bare_bare elseBody]
  | .loop _ body _ => by simp [bare, bare_bare body]

theorem mem_bare_bare : ∀ body : List Stmt, ∀ s ∈ body, s.bare.bare = s.bare
  | [] => by simp
  | s :: rest => by simpa [bare_bare s] using mem_bare_bare rest

end

@[simp] theorem bare_comp_bare : bare ∘ bare = bare := funext bare_bare

end Stmt

namespace Param

def bare (p : Param) : Param := ⟨p.name.bare, p.type.bare, p.symbol.map Symbol.bare⟩

@[simp] theorem bare_bare (p : Param) : p.bare.bare = p.bare := by simp [bare]

@[simp] theorem bare_comp_bare : bare ∘ bare = bare := funext bare_bare

end Param

namespace Method

def bare (m : Method) : Method :=
  ⟨m.name.bare, m.modifiers, m.returns.bare, m.params.map Param.bare,
    m.body.map (List.map Stmt.bare), m.symbol.map Symbol.bare⟩

@[simp] theorem bare_bare (m : Method) : m.bare.bare = m.bare := by
  simp [bare, Function.comp_def]

end Method

namespace ClassHead

def bare (h : ClassHead) : ClassHead :=
  ⟨h.name.bare, h.modifiers, h.base.map TypeExpr.bare, h.typeParams, h.symbol.map Symbol.bare⟩

@[simp] theorem bare_bare (h : ClassHead) : h.bare.bare = h.bare := by simp [bare]

end ClassHead

namespace Member

mutual

def bare : Member → Member
  | .method m => .method m.bare
  | .field d => .field d.bare
  | .nested head members => .nested head.bare (bareAll members)

def bareAll : List Member → List Member
  | [] => []
  | m :: rest => m.bare :: bareAll rest

end

@[simp] theorem bareAll_eq_map (ms : List Member) : bareAll ms = ms.map bare := by
  induction ms with
  | nil => rfl
  | cons m rest ih => rw [bareAll, ih, List.map_cons]

mutual

@[simp] theorem bare_bare : ∀ m : Member, m.bare.bare = m.bare
  | .method _ | .field _ => by simp [bare]
  | .nested _ members => by simpa [bare] using mem_bare_bare members

theorem mem_bare_bare : ∀ ms : List Member, ∀ m ∈ ms, m.bare.bare = m.bare
  | [] => by simp
  | m :: rest => by simpa [bare_bare m] using mem_bare_bare rest

end

@[simp] theorem bare_comp_bare : bare ∘ bare = bare := funext bare_bare

end Member

def ClassDecl.bare (c : ClassDecl) : ClassDecl := ⟨c.head.bare, c.members.map Member.bare⟩

@[simp] theorem ClassDecl.bare_bare (c : ClassDecl) : c.bare.bare = c.bare := by
  simp [ClassDecl.bare]

def CompilationUnit.bare (u : CompilationUnit) : CompilationUnit := ⟨u.top.map ClassDecl.bare⟩

@[simp] theorem CompilationUnit.bare_bare (u : CompilationUnit) : u.bare.bare = u.bare := by
  simp [CompilationUnit.bare, Function.comp_def]

end ClassLang
