import ClassLang.Proofs.Input

/-! What a tree declares, in source order: the variables of a body, the declarations of a class with
the path of the class around them, and the symbols on all of these. `erase` takes the symbols off
again, so that a fresh tree is its own erasure. -/
namespace ClassLang

structure VarSlot where
  name : String
  type : TypeExpr
  symbol : Option Symbol

def VarSlot.symbols (slots : List VarSlot) : List Symbol := slots.filterMap VarSlot.symbol

@[simp] theorem VarSlot.symbols_append (a b : List VarSlot) :
    VarSlot.symbols (a ++ b) = VarSlot.symbols a ++ VarSlot.symbols b := by
  simp [VarSlot.symbols]

def VarDecl.slots (d : VarDecl) : List VarSlot :=
  d.vars.map fun v => ⟨v.name.text, d.type, v.symbol⟩

namespace Stmt

mutual

def slots : Stmt → List VarSlot
  | .block body _ => allSlots body
  | .locals d => d.slots
  | .ifThen _ thenBody _ => thenBody.slots
  | .ifElse _ thenBody elseBody _ => thenBody.slots ++ elseBody.slots
  | .loop _ body _ => body.slots
  | .expr .. | .ret .. | .empty _ => []

def allSlots : List Stmt → List VarSlot
  | [] => []
  | s :: rest => s.slots ++ allSlots rest

end

mutual

def parts : Stmt → List Stmt
  | .block body span => .block body span :: allParts body
  | .ifThen cond thenBody span => .ifThen cond thenBody span :: thenBody.parts
  | .ifElse cond thenBody elseBody span =>
    .ifElse cond thenBody elseBody span :: (thenBody.parts ++ elseBody.parts)
  | .loop cond body span => .loop cond body span :: body.parts
  | s => [s]

def allParts : List Stmt → List Stmt
  | [] => []
  | s :: rest => s.parts ++ allParts rest

end

end Stmt

namespace Method

def paramSymbols (m : Method) : List Symbol := m.params.filterMap Param.symbol

def bodySlots (m : Method) : List VarSlot := Stmt.allSlots (m.body.getD [])

def vars (m : Method) : List Symbol := m.paramSymbols ++ VarSlot.symbols m.bodySlots

end Method

/-- A declaration in its class. The path of a class ends with its own name. -/
inductive Decl where
  | method (path : List String) (decl : Method)
  | field (path : List String) (decl : VarDecl)
  | cls (path : List String) (head : ClassHead)

namespace Decl

def symbols : Decl → List Symbol
  | .method _ m => m.symbol.toList ++ m.vars
  | .field _ d => VarSlot.symbols d.slots
  | .cls _ head => head.symbol.toList

def allSymbols (ds : List Decl) : List Symbol := ds.flatMap symbols

@[simp] theorem allSymbols_nil : allSymbols [] = [] := rfl

@[simp] theorem allSymbols_cons (d : Decl) (ds : List Decl) :
    allSymbols (d :: ds) = d.symbols ++ allSymbols ds := by
  simp [allSymbols]

@[simp] theorem allSymbols_append (a b : List Decl) :
    allSymbols (a ++ b) = allSymbols a ++ allSymbols b := by
  simp [allSymbols]

end Decl

namespace Member

mutual

def decls (path : List String) : Member → List Decl
  | .method m => [.method path m]
  | .field d => [.field path d]
  | .nested head members =>
    .cls (path ++ [head.name.text]) head :: allDecls (path ++ [head.name.text]) members

def allDecls (path : List String) : List Member → List Decl
  | [] => []
  | m :: rest => m.decls path ++ allDecls path rest

end

theorem mem_allDecls {path : List String} {ms : List Member} {m : Member} (hm : m ∈ ms) {d : Decl}
    (hd : d ∈ m.decls path) : d ∈ allDecls path ms := by
  induction ms with
  | nil => cases hm
  | cons n rest ih =>
    rw [allDecls, List.mem_append]
    rcases List.mem_cons.mp hm with rfl | hm
    · exact Or.inl hd
    · exact Or.inr (ih hm)

end Member

def ClassDecl.decls (path : List String) (c : ClassDecl) : List Decl :=
  .cls (path ++ [c.head.name.text]) c.head ::
    Member.allDecls (path ++ [c.head.name.text]) c.members

def CompilationUnit.decls (u : CompilationUnit) : List Decl := u.top.elim [] (ClassDecl.decls [])

def Declarator.erase (v : Declarator) : Declarator := { v with symbol := none }

def VarDecl.erase (d : VarDecl) : VarDecl := { d with vars := d.vars.map Declarator.erase }

namespace Stmt

mutual

def erase : Stmt → Stmt
  | .block body span => .block (eraseAll body) span
  | .locals d => .locals d.erase
  | .ifThen cond thenBody span => .ifThen cond thenBody.erase span
  | .ifElse cond thenBody elseBody span => .ifElse cond thenBody.erase elseBody.erase span
  | .loop cond body span => .loop cond body.erase span
  | s => s

def eraseAll : List Stmt → List Stmt
  | [] => []
  | s :: rest => s.erase :: eraseAll rest

end

end Stmt

def Param.erase (p : Param) : Param := { p with symbol := none }

def Method.erase (m : Method) : Method :=
  { m with symbol := none, params := m.params.map Param.erase, body := m.body.map Stmt.eraseAll }

def ClassHead.erase (h : ClassHead) : ClassHead := { h with symbol := none }

namespace Member

mutual

def erase : Member → Member
  | .method m => .method m.erase
  | .field d => .field d.erase
  | .nested head members => .nested head.erase (eraseAll members)

def eraseAll : List Member → List Member
  | [] => []
  | m :: rest => m.erase :: eraseAll rest

end

end Member

def ClassDecl.erase (c : ClassDecl) : ClassDecl := ⟨c.head.erase, Member.eraseAll c.members⟩

def CompilationUnit.erase (u : CompilationUnit) : CompilationUnit := ⟨u.top.map ClassDecl.erase⟩

theorem Declarator.isFresh_erase {v : Declarator} (h : v.isFresh = true) :
    v.erase.isFresh = true := by
  simp only [isFresh, erase, Bool.and_eq_true] at *
  exact ⟨rfl, h.2⟩

theorem VarDecl.isFresh_erase {d : VarDecl} (h : d.isFresh = true) : d.erase.isFresh = true := by
  simp only [isFresh, erase, List.all_map, List.all_eq_true] at *
  exact fun v hv => Declarator.isFresh_erase (h v hv)

theorem VarDecl.isWellFormed_erase (d : VarDecl) : d.erase.isWellFormed = d.isWellFormed := by
  simp only [isWellFormed, erase, List.all_map]
  rfl

namespace Stmt

mutual

theorem isFresh_erase {s : Stmt} (h : s.isFresh = true) : s.erase.isFresh = true := by
  cases s with
  | block body span =>
    rw [isFresh] at h
    rw [erase, isFresh]
    exact allFresh_eraseAll h
  | locals d =>
    rw [isFresh] at h
    rw [erase, isFresh]
    exact VarDecl.isFresh_erase h
  | ifThen cond thenBody span =>
    rw [isFresh, Bool.and_eq_true] at h
    rw [erase, isFresh, Bool.and_eq_true]
    exact ⟨h.1, isFresh_erase h.2⟩
  | ifElse cond thenBody elseBody span =>
    rw [isFresh, Bool.and_eq_true, Bool.and_eq_true] at h
    rw [erase, isFresh, Bool.and_eq_true, Bool.and_eq_true]
    exact ⟨⟨h.1.1, isFresh_erase h.1.2⟩, isFresh_erase h.2⟩
  | loop cond body span =>
    rw [isFresh, Bool.and_eq_true] at h
    rw [erase, isFresh, Bool.and_eq_true]
    exact ⟨h.1, isFresh_erase h.2⟩
  | expr value span type => simpa [erase] using h
  | ret value span => simpa [erase] using h
  | empty span => simpa [erase] using h

theorem allFresh_eraseAll {body : List Stmt} (h : allFresh body = true) :
    allFresh (eraseAll body) = true := by
  cases body with
  | nil => rfl
  | cons s rest =>
    rw [allFresh, Bool.and_eq_true] at h
    rw [eraseAll, allFresh, Bool.and_eq_true]
    exact ⟨isFresh_erase h.1, allFresh_eraseAll h.2⟩

end

mutual

theorem isWellFormed_erase : ∀ s : Stmt, s.erase.isWellFormed = s.isWellFormed
  | .block body _ => by simp [erase, isWellFormed, allWellFormed_eraseAll body]
  | .locals d => by simp [erase, isWellFormed, VarDecl.isWellFormed_erase d]
  | .ifThen _ thenBody _ => by simp [erase, isWellFormed, isWellFormed_erase thenBody]
  | .ifElse _ thenBody elseBody _ => by
    simp [erase, isWellFormed, isWellFormed_erase thenBody, isWellFormed_erase elseBody]
  | .loop _ body _ => by simp [erase, isWellFormed, isWellFormed_erase body]
  | .expr .. => by simp [erase]
  | .ret .. => by simp [erase]
  | .empty _ => by simp [erase]

theorem allWellFormed_eraseAll : ∀ body : List Stmt,
    allWellFormed (eraseAll body) = allWellFormed body
  | [] => rfl
  | s :: rest => by
    simp [eraseAll, allWellFormed, isWellFormed_erase s, allWellFormed_eraseAll rest]

end

mutual

theorem varCount_erase : ∀ s : Stmt, s.erase.varCount = s.varCount
  | .block body _ => by simp [erase, varCount, varCounts_eraseAll body]
  | .locals d => by simp [erase, varCount, VarDecl.erase]
  | .ifThen _ thenBody _ => by simp [erase, varCount, varCount_erase thenBody]
  | .ifElse _ thenBody elseBody _ => by
    simp [erase, varCount, varCount_erase thenBody, varCount_erase elseBody]
  | .loop _ body _ => by simp [erase, varCount, varCount_erase body]
  | .expr .. => by simp [erase]
  | .ret .. => by simp [erase]
  | .empty _ => by simp [erase]

theorem varCounts_eraseAll : ∀ body : List Stmt, varCounts (eraseAll body) = varCounts body
  | [] => rfl
  | s :: rest => by simp [eraseAll, varCounts, varCount_erase s, varCounts_eraseAll rest]

end

end Stmt

namespace Method

theorem isFresh_erase {m : Method} (h : m.isFresh = true) : m.erase.isFresh = true := by
  simp only [isFresh, erase, Bool.and_eq_true, List.all_map] at *
  refine ⟨⟨rfl, by simp [Param.erase]⟩, ?_⟩
  cases hb : m.body with
  | none => rfl
  | some body =>
    rw [hb] at h
    exact Stmt.allFresh_eraseAll h.2

theorem isWellFormed_erase (m : Method) : m.erase.isWellFormed = m.isWellFormed := by
  simp only [isWellFormed, erase, List.all_map]
  cases m.body with
  | none => rfl
  | some body =>
    simp [Stmt.allWellFormed_eraseAll, Stmt.varCounts_eraseAll, Param.erase, Function.comp_def]

end Method

namespace Member

mutual

theorem isFresh_erase {m : Member} (h : m.isFresh = true) : m.erase.isFresh = true := by
  cases m with
  | method m =>
    rw [isFresh] at h
    rw [erase, isFresh]
    exact Method.isFresh_erase h
  | field d =>
    rw [isFresh] at h
    rw [erase, isFresh]
    exact VarDecl.isFresh_erase h
  | nested head members =>
    rw [isFresh, Bool.and_eq_true] at h
    rw [erase, isFresh, Bool.and_eq_true]
    exact ⟨rfl, allFresh_eraseAll h.2⟩

theorem allFresh_eraseAll {ms : List Member} (h : allFresh ms = true) :
    allFresh (eraseAll ms) = true := by
  cases ms with
  | nil => rfl
  | cons m rest =>
    rw [allFresh, Bool.and_eq_true] at h
    rw [eraseAll, allFresh, Bool.and_eq_true]
    exact ⟨isFresh_erase h.1, allFresh_eraseAll h.2⟩

end

mutual

theorem isWellFormed_erase : ∀ m : Member, m.erase.isWellFormed = m.isWellFormed
  | .method m => by simp [erase, isWellFormed, Method.isWellFormed_erase m]
  | .field d => by simp [erase, isWellFormed, VarDecl.isWellFormed_erase d]
  | .nested head members => by
    simp [erase, isWellFormed, allWellFormed_eraseAll members, ClassHead.erase,
      ClassHead.isWellFormed]

theorem allWellFormed_eraseAll : ∀ ms : List Member,
    allWellFormed (eraseAll ms) = allWellFormed ms
  | [] => rfl
  | m :: rest => by
    simp [eraseAll, allWellFormed, isWellFormed_erase m, allWellFormed_eraseAll rest]

end

end Member

namespace CompilationUnit

theorem isFresh_erase {u : CompilationUnit} (h : u.isFresh = true) : u.erase.isFresh = true := by
  obtain ⟨_ | c⟩ := u
  · rfl
  simp only [isFresh, erase, Option.map_some, Option.all_some, ClassDecl.erase,
    Bool.and_eq_true] at *
  exact ⟨rfl, Member.allFresh_eraseAll h.2⟩

theorem isWellFormed_erase (u : CompilationUnit) : u.erase.isWellFormed = u.isWellFormed := by
  obtain ⟨_ | c⟩ := u
  · rfl
  simp only [isWellFormed, erase, Option.map_some, Option.any_some, ClassDecl.erase,
    Member.allWellFormed_eraseAll]
  rfl

end CompilationUnit

end ClassLang
