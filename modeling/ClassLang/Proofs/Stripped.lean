import ClassLang.Compile
import ClassLang.Proofs.Outline

/-! Passes only annotate. Registration changes nothing but the symbols of declarations, and typing
nothing but types and the symbols of names; so a unit without its annotations is the same before and
after a run. -/
namespace ClassLang

/-- Whatever state it starts from, the visit leaves a node with the property. -/
def Visit.Yields {σ ν α : Type} (v : Visit σ ν α) (P : ν → Prop) : Prop := ∀ s, P (v s).node

namespace Visit.Yields

variable {σ ν μ α β : Type} {P : ν → Prop} {Q : μ → Prop}

theorem done {n : ν} (h : P n) (answer : α) : (Visit.done n answer : Visit σ ν α).Yields P :=
  fun _ => h

theorem fail {n : ν} (h : P n) (fault : Fault) : (Visit.fail n fault : Visit σ ν α).Yields P :=
  fun _ => h

theorem part {v : Visit σ ν α} {put : ν → μ} {rest : ν → α → Visit σ μ β} (hv : v.Yields P)
    (hput : ∀ n, P n → Q (put n)) (hrest : ∀ n a, P n → (rest n a).Yields Q) :
    (v.part put rest).Yields Q := by
  intro s
  have hs := hv s
  unfold Visit.part
  generalize v s = r at hs
  obtain ⟨n, fault | a, s'⟩ := r
  · exact hput n hs
  · exact hrest n a hs s'

theorem part_any {v : Visit σ ν α} {put : ν → μ} {rest : ν → α → Visit σ μ β}
    (hput : ∀ n, Q (put n)) (hrest : ∀ n a, (rest n a).Yields Q) : (v.part put rest).Yields Q :=
  part (P := fun _ => True) (fun _ => trivial) (fun n _ => hput n) fun n a _ => hrest n a

theorem within {v : Visit σ ν α} {put : ν → μ} (hv : v.Yields P) (hput : ∀ n, P n → Q (put n)) :
    (v.within put).Yields Q :=
  hv.part hput fun n a hn => done (hput n hn) a

theorem each {visit : ν → Visit σ ν Unit} {f : ν → μ}
    (h : ∀ n, (visit n).Yields fun n' => f n' = f n) (ns : List ν) :
    (Visit.each visit ns).Yields fun ns' => ns'.map f = ns.map f := by
  induction ns with
  | nil => exact done rfl ()
  | cons n ns ih =>
    refine (h n).part (fun n' hn => by simp [hn]) fun n' _ hn => ?_
    exact ih.within fun ns' hns => by simp [hn, hns]

end Visit.Yields

namespace Registration

theorem registerVar_erase (home : Home) (type : TypeExpr) (v : Declarator) :
    (registerVar home type v).Yields fun v' => v'.erase = v.erase := by
  intro s
  unfold registerVar
  dsimp only
  repeat' split
  all_goals rfl

theorem registerVars_erase (home : Home) (d : VarDecl) :
    (registerVars home d).Yields fun d' => d'.erase = d.erase :=
  (Visit.Yields.each (registerVar_erase home d.type) d.vars).within fun vars h => by
    simp [VarDecl.erase, h]

theorem registerField_erase (path : List String) (d : VarDecl) :
    (registerField path d).Yields fun d' => d'.erase = d.erase :=
  fun _ => registerVars_erase _ d _

theorem registerLocals_erase (d : VarDecl) :
    (registerLocals d).Yields fun d' => d'.erase = d.erase :=
  fun _ => registerVars_erase _ d _

mutual

theorem registerStmt_erase : ∀ stmt : Stmt,
    (registerStmt stmt).Yields fun stmt' => stmt'.erase = stmt.erase
  | .locals d => by
    rw [registerStmt]
    exact (registerLocals_erase d).within fun d' h => by simp [Stmt.erase, h]
  | .block body span => by
    rw [registerStmt]
    exact (registerStmts_erase body).within fun body' h => by simp [Stmt.erase, h]
  | .ifThen cond thenBody span => by
    rw [registerStmt]
    exact (registerStmt_erase thenBody).within fun then' h => by simp [Stmt.erase, h]
  | .ifElse cond thenBody elseBody span => by
    rw [registerStmt]
    refine (registerStmt_erase thenBody).part (fun then' h => by simp [Stmt.erase, h])
      fun then' _ h => ?_
    exact (registerStmt_erase elseBody).within fun else' h' => by simp [Stmt.erase, h, h']
  | .loop cond body span => by
    rw [registerStmt]
    exact (registerStmt_erase body).within fun body' h => by simp [Stmt.erase, h]
  | .expr .. | .ret .. | .empty _ => by
    rw [registerStmt] <;> first | exact .done rfl () | simp

theorem registerStmts_erase : ∀ body : List Stmt,
    (registerStmts body).Yields fun body' => Stmt.eraseAll body' = Stmt.eraseAll body
  | [] => by
    rw [registerStmts]
    exact .done rfl ()
  | stmt :: rest => by
    rw [registerStmts]
    refine (registerStmt_erase stmt).part (fun stmt' h => by simp [Stmt.eraseAll, h])
      fun stmt' _ h => ?_
    exact (registerStmts_erase rest).within fun rest' h' => by simp [Stmt.eraseAll, h, h']

end

theorem registerParam_erase (index : UInt16) (p : Param) :
    (registerParam index p).Yields fun p' => p'.erase = p.erase := by
  intro s
  unfold registerParam
  dsimp only
  repeat' split
  all_goals rfl

theorem registerParams_erase (params : List Param) : ∀ index : UInt16,
    (registerParams index params).Yields fun params' =>
      params'.map Param.erase = params.map Param.erase := by
  induction params with
  | nil => exact fun index => .done rfl ()
  | cons p params ih =>
    intro index
    refine (registerParam_erase index p).part (fun p' h => by simp [h]) fun p' _ h => ?_
    exact (ih (index + 1)).within fun params' h' => by simp [h, h']

theorem registerMethodBody_erase (m : Method) :
    (registerMethodBody m).Yields fun m' => m'.erase = m.erase := by
  refine (registerParams_erase m.params 0).part (fun params h => by simp [Method.erase, h])
    fun params _ h => ?_
  dsimp only
  split
  · exact .fail (by simp [Method.erase, h]) _
  · next body hb =>
    exact (registerStmts_erase body).within fun body' h' => by simp [Method.erase, h, h', hb]

theorem registerMethod_erase (path : List String) (m : Method) :
    (registerMethod path m).Yields fun m' => m'.erase = m.erase := by
  intro s
  unfold registerMethod
  dsimp only
  split
  · rfl
  · split
    · rfl
    · split
      · rfl
      · refine Visit.Yields.part (Q := fun m' : Method => m'.erase = m.erase)
          (registerMethodBody_erase _) (fun m' h => ?_) (fun m' _ h _ => ?_) _
        all_goals exact h

theorem registerClassWith_erase (path : List String) (head : ClassHead) (members : List Member)
    {body : List String → Visit State (List Member) Unit}
    (hbody : ∀ path, (body path).Yields fun members' =>
      Member.eraseAll members' = Member.eraseAll members) :
    (registerClassWith path head members body).Yields fun c =>
      c.erase = (ClassDecl.mk head members).erase := by
  intro s
  unfold registerClassWith
  dsimp only
  split
  · split
    · rfl
    · split
      · rfl
      · exact Visit.Yields.part
          (Q := fun c : ClassDecl => c.erase = (ClassDecl.mk head members).erase) (hbody _)
          (fun members' h => by simp [ClassDecl.erase, ClassHead.erase, h])
          (fun members' _ h _ => by simp [ClassDecl.erase, ClassHead.erase, h]) _
  · rfl

mutual

theorem registerMember_erase : ∀ (m : Member) (path : List String),
    (registerMember path m).Yields fun m' => m'.erase = m.erase
  | .method m, path => by
    rw [registerMember]
    exact (registerMethod_erase path m).within fun m' h => by simp [Member.erase, h]
  | .field d, path => by
    rw [registerMember]
    exact (registerField_erase path d).within fun d' h => by simp [Member.erase, h]
  | .nested head members, path => by
    rw [registerMember]
    refine (registerClassWith_erase path head members
      (registerMembers_erase members)).within fun c h => ?_
    rw [ClassDecl.erase, ClassDecl.erase, ClassDecl.mk.injEq] at h
    simp [Member.erase, h]

theorem registerMembers_erase : ∀ (ms : List Member) (path : List String),
    (registerMembers path ms).Yields fun ms' => Member.eraseAll ms' = Member.eraseAll ms
  | [], path => by
    rw [registerMembers]
    exact .done rfl ()
  | m :: rest, path => by
    rw [registerMembers]
    refine (registerMember_erase m path).part (fun m' h => by simp [Member.eraseAll, h])
      fun m' _ h => ?_
    exact (registerMembers_erase rest path).within fun rest' h' => by simp [Member.eraseAll, h, h']

end

theorem registerUnit_erase (u : CompilationUnit) (t : Table) (reports : List Diagnostic) :
    (registerUnit u t reports).node.erase = u.erase := by
  unfold registerUnit
  split
  · rfl
  · next top htop =>
    have htop' : u = ⟨some top⟩ := by rw [← htop]
    rw [htop']
    exact Visit.Yields.part (P := fun c : ClassDecl => c.erase = top.erase)
      (Q := fun u : CompilationUnit => u.erase = CompilationUnit.erase ⟨some top⟩)
      (registerClassWith_erase [] top.head top.members (registerMembers_erase top.members))
      (fun c h => by simp [CompilationUnit.erase, h])
      (fun c _ h _ => by simp [CompilationUnit.erase, h]) _

end Registration

def DottedName.strip (n : DottedName) : DottedName := { n with symbol := none }

def Note.strip (n : Note) : Note := { n with type := none }

theorem DottedName.strip_of_isFresh {n : DottedName} (h : n.isFresh = true) : n.strip = n := by
  obtain ⟨segments, span, _ | b⟩ := n
  · rfl
  · cases h

theorem Note.strip_of_isFresh {n : Note} (h : n.isFresh = true) : n.strip = n := by
  obtain ⟨span, _ | T⟩ := n
  · rfl
  · cases h

namespace Expr

mutual

def strip : Expr → Expr
  | .literal value note => .literal value note.strip
  | .this note => .this note.strip
  | .name n note => .name n.strip note.strip
  | .unary op operand note => .unary op operand.strip note.strip
  | .binary op left right note => .binary op left.strip right.strip note.strip
  | .assign target value note => .assign target.strip value.strip note.strip
  | .call callee args note => .call callee.strip (stripAll args) note.strip
  | .create n args note => .create n.strip (stripAll args) note.strip
  | .field target member note => .field target.strip member note.strip
  | .index target place note => .index target.strip place.strip note.strip

def stripAll : List Expr → List Expr
  | [] => []
  | e :: rest => e.strip :: stripAll rest

end

@[simp] theorem shape_strip (e : Expr) : e.strip.shape = e.shape := by
  cases e <;> simp only [strip, shape]

mutual

theorem strip_of_isFresh : ∀ {e : Expr}, e.isFresh = true → e.strip = e
  | .literal value note, h => by
    rw [isFresh] at h
    rw [strip, Note.strip_of_isFresh h]
  | .this note, h => by
    rw [isFresh] at h
    rw [strip, Note.strip_of_isFresh h]
  | .name n note, h => by
    rw [isFresh, Bool.and_eq_true] at h
    rw [strip, DottedName.strip_of_isFresh h.1, Note.strip_of_isFresh h.2]
  | .unary op operand note, h => by
    rw [isFresh, Bool.and_eq_true] at h
    rw [strip, strip_of_isFresh h.1, Note.strip_of_isFresh h.2]
  | .binary op left right note, h => by
    rw [isFresh, Bool.and_eq_true, Bool.and_eq_true] at h
    rw [strip, strip_of_isFresh h.1.1, strip_of_isFresh h.1.2, Note.strip_of_isFresh h.2]
  | .assign target value note, h => by
    rw [isFresh, Bool.and_eq_true, Bool.and_eq_true] at h
    rw [strip, strip_of_isFresh h.1.1, strip_of_isFresh h.1.2, Note.strip_of_isFresh h.2]
  | .call callee args note, h => by
    rw [isFresh, Bool.and_eq_true, Bool.and_eq_true] at h
    rw [strip, strip_of_isFresh h.1.1, stripAll_of_allFresh h.1.2, Note.strip_of_isFresh h.2]
  | .create n args note, h => by
    rw [isFresh, Bool.and_eq_true, Bool.and_eq_true] at h
    rw [strip, DottedName.strip_of_isFresh h.1.1, stripAll_of_allFresh h.1.2,
      Note.strip_of_isFresh h.2]
  | .field target member note, h => by
    rw [isFresh, Bool.and_eq_true] at h
    rw [strip, strip_of_isFresh h.1, Note.strip_of_isFresh h.2]
  | .index target place note, h => by
    rw [isFresh, Bool.and_eq_true, Bool.and_eq_true] at h
    rw [strip, strip_of_isFresh h.1.1, strip_of_isFresh h.1.2, Note.strip_of_isFresh h.2]

theorem stripAll_of_allFresh : ∀ {es : List Expr}, allFresh es = true → stripAll es = es
  | [], _ => rfl
  | e :: rest, h => by
    rw [allFresh, Bool.and_eq_true] at h
    rw [stripAll, strip_of_isFresh h.1, stripAll_of_allFresh h.2]

end

end Expr

def Declarator.strip (v : Declarator) : Declarator :=
  { v with init := v.init.map Expr.strip, symbol := none }

def VarDecl.strip (d : VarDecl) : VarDecl := { d with vars := d.vars.map Declarator.strip }

theorem Declarator.strip_of_isFresh {v : Declarator} (h : v.isFresh = true) : v.strip = v := by
  obtain ⟨name, init, symbol⟩ := v
  simp only [isFresh, Bool.and_eq_true, Option.isNone_iff_eq_none] at h
  obtain ⟨rfl, hinit⟩ := h
  cases init with
  | none => rfl
  | some e => simp [strip, Expr.strip_of_isFresh hinit]

theorem VarDecl.strip_of_isFresh {d : VarDecl} (h : d.isFresh = true) : d.strip = d := by
  have hvars : ∀ v ∈ d.vars, v.strip = id v := fun v hv =>
    Declarator.strip_of_isFresh (List.all_eq_true.mp h v hv)
  rw [strip, List.map_congr_left hvars, List.map_id]

theorem VarDecl.strip_erase (d : VarDecl) : d.erase.strip = d.strip := by
  simp [strip, erase, Declarator.strip, Declarator.erase]

namespace Stmt

mutual

def strip : Stmt → Stmt
  | .block body span => .block (stripAll body) span
  | .expr value span _ => .expr value.strip span none
  | .locals d => .locals d.strip
  | .ifThen cond thenBody span => .ifThen cond.strip thenBody.strip span
  | .ifElse cond thenBody elseBody span =>
    .ifElse cond.strip thenBody.strip elseBody.strip span
  | .loop cond body span => .loop cond.strip body.strip span
  | .ret value span => .ret (value.map Expr.strip) span
  | .empty span => .empty span

def stripAll : List Stmt → List Stmt
  | [] => []
  | s :: rest => s.strip :: stripAll rest

end

mutual

theorem strip_of_isFresh : ∀ {s : Stmt}, s.isFresh = true → s.strip = s
  | .block body span, h => by
    rw [isFresh] at h
    rw [strip, stripAll_of_allFresh h]
  | .expr value span type, h => by
    rw [isFresh, Bool.and_eq_true, Option.isNone_iff_eq_none] at h
    rw [strip, Expr.strip_of_isFresh h.1, h.2]
  | .locals d, h => by
    rw [isFresh] at h
    rw [strip, VarDecl.strip_of_isFresh h]
  | .ifThen cond thenBody span, h => by
    rw [isFresh, Bool.and_eq_true] at h
    rw [strip, Expr.strip_of_isFresh h.1, strip_of_isFresh h.2]
  | .ifElse cond thenBody elseBody span, h => by
    rw [isFresh, Bool.and_eq_true, Bool.and_eq_true] at h
    rw [strip, Expr.strip_of_isFresh h.1.1, strip_of_isFresh h.1.2, strip_of_isFresh h.2]
  | .loop cond body span, h => by
    rw [isFresh, Bool.and_eq_true] at h
    rw [strip, Expr.strip_of_isFresh h.1, strip_of_isFresh h.2]
  | .ret none span, _ => by rw [strip, Option.map_none]
  | .ret (some e) span, h => by
    rw [isFresh] at h
    rw [strip, Option.map_some, Expr.strip_of_isFresh h]
  | .empty span, _ => by rw [strip]

theorem stripAll_of_allFresh : ∀ {body : List Stmt}, allFresh body = true → stripAll body = body
  | [], _ => rfl
  | s :: rest, h => by
    rw [allFresh, Bool.and_eq_true] at h
    rw [stripAll, strip_of_isFresh h.1, stripAll_of_allFresh h.2]

end

mutual

theorem strip_erase : ∀ s : Stmt, s.erase.strip = s.strip
  | .block body _ => by rw [erase, strip, strip, stripAll_eraseAll body]
  | .locals d => by rw [erase, strip, strip, VarDecl.strip_erase]
  | .ifThen _ thenBody _ => by rw [erase, strip, strip, strip_erase thenBody]
  | .ifElse _ thenBody elseBody _ => by
    rw [erase, strip, strip, strip_erase thenBody, strip_erase elseBody]
  | .loop _ body _ => by rw [erase, strip, strip, strip_erase body]
  | .expr .. | .ret .. | .empty _ => by simp [erase]

theorem stripAll_eraseAll : ∀ body : List Stmt, stripAll (eraseAll body) = stripAll body
  | [] => rfl
  | s :: rest => by rw [eraseAll, stripAll, stripAll, strip_erase s, stripAll_eraseAll rest]

end

end Stmt

def Method.strip (m : Method) : Method :=
  { m with symbol := none, params := m.params.map Param.erase, body := m.body.map Stmt.stripAll }

theorem Method.strip_of_isFresh {m : Method} (h : m.isFresh = true) : m.strip = m := by
  obtain ⟨name, modifiers, returns, params, body, symbol⟩ := m
  simp only [isFresh, Bool.and_eq_true, Option.isNone_iff_eq_none] at h
  obtain ⟨⟨rfl, hp⟩, hb⟩ := h
  have hparams : ∀ p ∈ params, p.erase = id p := fun p hmem => by
    rw [Param.erase, ← Option.isNone_iff_eq_none.mp (List.all_eq_true.mp hp p hmem)]
    rfl
  rw [strip, List.map_congr_left hparams, List.map_id]
  cases body with
  | none => rfl
  | some stmts => rw [Option.map_some, Stmt.stripAll_of_allFresh hb]

theorem Method.strip_erase (m : Method) : m.erase.strip = m.strip := by
  simp [strip, erase, Param.erase, Option.map_map, Function.comp_def, Stmt.stripAll_eraseAll]

theorem ClassHead.erase_of_isFresh {h : ClassHead} (hf : h.isFresh = true) : h.erase = h := by
  obtain ⟨name, modifiers, base, typeParams, _ | b⟩ := h
  · rfl
  · cases hf

namespace Member

mutual

def strip : Member → Member
  | .method m => .method m.strip
  | .field d => .field d.strip
  | .nested head members => .nested head.erase (stripAll members)

def stripAll : List Member → List Member
  | [] => []
  | m :: rest => m.strip :: stripAll rest

end

mutual

theorem strip_of_isFresh : ∀ {m : Member}, m.isFresh = true → m.strip = m
  | .method m, h => by
    rw [isFresh] at h
    rw [strip, Method.strip_of_isFresh h]
  | .field d, h => by
    rw [isFresh] at h
    rw [strip, VarDecl.strip_of_isFresh h]
  | .nested head members, h => by
    rw [isFresh, Bool.and_eq_true] at h
    rw [strip, ClassHead.erase_of_isFresh h.1, stripAll_of_allFresh h.2]

theorem stripAll_of_allFresh : ∀ {ms : List Member}, allFresh ms = true → stripAll ms = ms
  | [], _ => rfl
  | m :: rest, h => by
    rw [allFresh, Bool.and_eq_true] at h
    rw [stripAll, strip_of_isFresh h.1, stripAll_of_allFresh h.2]

end

mutual

theorem strip_erase : ∀ m : Member, m.erase.strip = m.strip
  | .method m => by rw [erase, strip, strip, m.strip_erase]
  | .field d => by rw [erase, strip, strip, d.strip_erase]
  | .nested head members => by
    rw [erase, strip, strip, stripAll_eraseAll members, ClassHead.erase, ClassHead.erase]

theorem stripAll_eraseAll : ∀ ms : List Member, stripAll (eraseAll ms) = stripAll ms
  | [] => rfl
  | m :: rest => by rw [eraseAll, stripAll, stripAll, strip_erase m, stripAll_eraseAll rest]

end

end Member

def ClassDecl.strip (c : ClassDecl) : ClassDecl := ⟨c.head.erase, Member.stripAll c.members⟩

namespace CompilationUnit

/-- The unit as it was written, with no symbol and no type. -/
def strip (u : CompilationUnit) : CompilationUnit := ⟨u.top.map ClassDecl.strip⟩

theorem strip_of_isFresh {u : CompilationUnit} (h : u.isFresh = true) : u.strip = u := by
  obtain ⟨_ | c⟩ := u
  · rfl
  · simp only [isFresh, Option.all_some, Bool.and_eq_true] at h
    simp only [strip, Option.map_some, ClassDecl.strip, ClassHead.erase_of_isFresh h.1,
      Member.stripAll_of_allFresh h.2]

theorem strip_erase (u : CompilationUnit) : u.erase.strip = u.strip := by
  obtain ⟨_ | c⟩ := u
  · rfl
  · simp [strip, erase, ClassDecl.strip, ClassDecl.erase, ClassHead.erase,
      Member.stripAll_eraseAll]

end CompilationUnit

def Decl.strip : Decl → Decl
  | .method path m => .method path m.strip
  | .field path d => .field path d.strip
  | .cls path head => .cls path head.erase

namespace Member

mutual

theorem decls_strip : ∀ (path : List String) (m : Member),
    m.strip.decls path = (m.decls path).map Decl.strip
  | path, .method m => by simp [strip, decls, Decl.strip]
  | path, .field d => by simp [strip, decls, Decl.strip]
  | path, .nested head members => by
    simp only [strip, decls, List.map_cons, Decl.strip, allDecls_stripAll _ members]
    rfl

theorem allDecls_stripAll : ∀ (path : List String) (ms : List Member),
    allDecls path (stripAll ms) = (allDecls path ms).map Decl.strip
  | path, [] => by simp [stripAll, allDecls]
  | path, m :: rest => by
    simp [stripAll, allDecls, decls_strip path m, allDecls_stripAll path rest]

end

end Member

theorem CompilationUnit.decls_strip (u : CompilationUnit) :
    u.strip.decls = u.decls.map Decl.strip := by
  obtain ⟨_ | c⟩ := u
  · rfl
  · simp only [decls, strip, Option.map_some, Option.elim_some, ClassDecl.decls, ClassDecl.strip,
      Member.allDecls_stripAll, List.map_cons]
    rfl

theorem Registration.registerUnit_strip (u : CompilationUnit) (t : Table)
    (reports : List Diagnostic) : (registerUnit u t reports).node.strip = u.strip := by
  rw [← CompilationUnit.strip_erase, registerUnit_erase, CompilationUnit.strip_erase]

namespace Typing

theorem settle_yields {Q : Expr → Prop} {build : Note → Expr} {note : Note}
    (h : ∀ type, Q (build { note with type })) (j : Judgement) : (settle build note j).Yields Q :=
  fun _ => h _

theorem bindName_strip (ctx : Context) (n : DottedName) :
    (bindName ctx n).Yields fun n' => n'.strip = n.strip := by
  intro s
  unfold bindName
  repeat' split
  all_goals rfl

theorem annotateName_strip (ctx : Context) (n : DottedName) (note : Note) :
    (annotateName ctx n note).Yields fun e => e.strip = (Expr.name n note).strip := by
  refine (bindName_strip ctx n).part (fun n' h => by simp [Expr.strip, h]) fun n' symbol? h s => ?_
  cases symbol? <;> simp [settle, Expr.strip, Note.strip, h]

theorem annotateCallee_strip (ctx : Context) (n : DottedName) (calleeNote : Note) (args : List Expr)
    (types : List Ty) (note : Note) :
    (annotateCallee ctx n calleeNote args types note).Yields fun e =>
      e.strip = (Expr.call (.name n calleeNote) args note).strip := by
  intro s
  unfold annotateCallee
  dsimp only
  repeat' split
  all_goals simp [settle, Expr.strip, Note.strip, DottedName.strip]

mutual

theorem annotateExpr_strip (ctx : Context) : ∀ e : Expr,
    (annotateExpr ctx e).Yields fun e' => e'.strip = e.strip := by
  intro e
  unfold annotateExpr
  split
  · exact fun _ => rfl
  cases e with
  | literal value note => exact settle_yields (fun _ => by simp [Expr.strip, Note.strip]) _
  | this note => exact settle_yields (fun _ => by simp [Expr.strip, Note.strip]) _
  | name n note => exact annotateName_strip ctx n note
  | unary op operand note =>
    refine (annotateExpr_strip ctx operand).part (fun o h => by simp [Expr.strip, h])
      fun o _ h => ?_
    exact settle_yields (fun _ => by simp [Expr.strip, Note.strip, h]) _
  | binary op left right note =>
    refine (annotateExpr_strip ctx left).part (fun l h => by simp [Expr.strip, h]) fun l _ h => ?_
    refine (annotateExpr_strip ctx right).part (fun r h' => by simp [Expr.strip, h, h'])
      fun r _ h' => ?_
    exact settle_yields (fun _ => by simp [Expr.strip, Note.strip, h, h']) _
  | assign target value note =>
    dsimp only
    split
    · refine (annotateExpr_strip ctx target).part (fun t h => by simp [Expr.strip, h])
        fun t _ h => ?_
      refine (annotateExpr_strip ctx value).part (fun v h' => by simp [Expr.strip, h, h'])
        fun v _ h' => ?_
      exact settle_yields (fun _ => by simp [Expr.strip, Note.strip, h, h']) _
    · exact fun _ => rfl
  | call callee args note =>
    cases callee with
    | name n calleeNote =>
      dsimp only
      split
      · exact fun _ => rfl
      · refine (annotateArgs_strip ctx args).part
          (fun args' h => by simp [Expr.strip, Note.strip, h]) fun args' types h s => ?_
        rw [annotateCallee_strip]
        simp [Expr.strip, Note.strip, h]
    | _ =>
      refine (annotateExpr_strip ctx _).part (fun c h => by rw [Expr.strip, Expr.strip, h])
        fun c _ h => ?_
      refine (annotateArgs_strip ctx args).part (fun as h' => by rw [Expr.strip, Expr.strip, h, h'])
        fun as _ h' => ?_
      exact settle_yields (fun _ => by rw [Expr.strip, Expr.strip, h, h', Note.strip, Note.strip]) _
  | create n args note =>
    refine (annotateArgs_strip ctx args).part (fun as h => by simp [Expr.strip, h]) fun as _ h => ?_
    refine (bindName_strip ctx n).part (fun n' h' => by simp [Expr.strip, h, h']) fun n' _ h' => ?_
    exact settle_yields (fun _ => by simp [Expr.strip, Note.strip, h, h']) _
  | field target member note =>
    refine (annotateExpr_strip ctx target).part (fun t h => by simp [Expr.strip, h]) fun t _ h => ?_
    exact settle_yields (fun _ => by simp [Expr.strip, Note.strip, h]) _
  | index target place note =>
    refine (annotateExpr_strip ctx target).part (fun t h => by simp [Expr.strip, h]) fun t _ h => ?_
    refine (annotateExpr_strip ctx place).part (fun p h' => by simp [Expr.strip, h, h'])
      fun p _ h' => ?_
    exact settle_yields (fun _ => by simp [Expr.strip, Note.strip, h, h']) _

theorem annotateArgs_strip (ctx : Context) : ∀ es : List Expr,
    (annotateArgs ctx es).Yields fun es' => Expr.stripAll es' = Expr.stripAll es
  | [] => by
    rw [annotateArgs]
    exact fun _ => rfl
  | e :: rest => by
    rw [annotateArgs]
    refine (annotateExpr_strip ctx e).part (fun e' h => by simp [Expr.stripAll, h]) fun e' _ h => ?_
    refine (annotateArgs_strip ctx rest).part (fun rest' h' => by simp [Expr.stripAll, h, h'])
      fun rest' _ h' => ?_
    exact .done (by simp [Expr.stripAll, h, h']) _

end

theorem annotateInit_strip (ctx : Context) {v : Declarator} {init : Expr} (hi : v.init = some init)
    {rest : Expr → Ty → Visit State Declarator Unit}
    (hrest : ∀ init' type, (rest init' type).Yields fun v' => v' = { v with init := some init' }) :
    ((annotateExpr ctx init).part (fun init => { v with init := some init }) rest).Yields
      fun v' => v'.strip = v.strip := by
  refine (annotateExpr_strip ctx init).part (fun init' h => by simp [Declarator.strip, hi, h])
    fun init' type h s => ?_
  rw [hrest init' type s]
  simp [Declarator.strip, hi, h]

theorem annotateLocal_strip (ctx : Context) (type : TypeExpr) (v : Declarator) :
    (annotateLocal ctx type v).Yields fun v' => v'.strip = v.strip := by
  intro s
  unfold annotateLocal
  dsimp only
  split
  · rfl
  · next init hi => exact annotateInit_strip ctx hi (fun _ _ _ => rfl) _

theorem annotateFieldVar_strip (ctx : Context) (type : TypeExpr) (v : Declarator) :
    (annotateFieldVar ctx type v).Yields fun v' => v'.strip = v.strip := by
  intro s
  unfold annotateFieldVar
  dsimp only
  split
  · rfl
  · next init hi => exact annotateInit_strip ctx hi (fun _ _ _ => rfl) _

theorem annotateField_strip (ctx : Context) (d : VarDecl) :
    (annotateField ctx d).Yields fun d' => d'.strip = d.strip :=
  (Visit.Yields.each (annotateFieldVar_strip ctx d.type) d.vars).within fun vars h => by
    simp [VarDecl.strip, h]

theorem annotateCondition_strip (ctx : Context) (cond : Expr) :
    (annotateCondition ctx cond).Yields fun cond' => cond'.strip = cond.strip :=
  (annotateExpr_strip ctx cond).part (fun _ h => h) fun _ _ h _ => h

theorem annotateReturn_strip (ctx : Context) (value : Option Expr) (span : Span) :
    (annotateReturn ctx value span).Yields fun stmt =>
      stmt.strip = (Stmt.ret value span).strip := by
  have hvalue : (Visit.optional (annotateExpr ctx) value).Yields fun value' =>
      value'.map Expr.strip = value.map Expr.strip := by
    cases value with
    | none => exact fun _ => rfl
    | some e =>
      exact (annotateExpr_strip ctx e).part (fun e' h => by simp [h])
        fun e' _ h => .done (by simp [h]) _
  intro s
  unfold annotateReturn
  split
  · rfl
  · refine Visit.Yields.part (Q := fun stmt : Stmt => stmt.strip = (Stmt.ret value span).strip)
      hvalue (fun value' h => ?_) (fun value' _ h _ => ?_) _
    all_goals simp [Stmt.strip, h]

mutual

theorem annotateStmt_strip (ctx : Context) : ∀ stmt : Stmt,
    (annotateStmt ctx stmt).Yields fun stmt' => stmt'.strip = stmt.strip
  | .block body span => by
    rw [annotateStmt]
    exact (annotateStmts_strip ctx body).within fun body' h => by simp [Stmt.strip, h]
  | .expr value span type => by
    rw [annotateStmt]
    exact (annotateExpr_strip ctx value).part (fun value' h => by simp [Stmt.strip, h])
      fun value' _ h => .done (by simp [Stmt.strip, h]) _
  | .locals d => by
    rw [annotateStmt]
    exact (Visit.Yields.each (annotateLocal_strip ctx d.type) d.vars).within fun vars h => by
      simp [Stmt.strip, VarDecl.strip, h]
  | .ifThen cond thenBody span => by
    rw [annotateStmt]
    refine (annotateCondition_strip ctx cond).part (fun cond' h => by simp [Stmt.strip, h])
      fun cond' _ h => ?_
    exact (annotateStmt_strip ctx thenBody).within fun then' h' => by simp [Stmt.strip, h, h']
  | .ifElse cond thenBody elseBody span => by
    rw [annotateStmt]
    refine (annotateCondition_strip ctx cond).part (fun cond' h => by simp [Stmt.strip, h])
      fun cond' _ h => ?_
    refine (annotateStmt_strip ctx thenBody).part (fun then' h' => by simp [Stmt.strip, h, h'])
      fun then' _ h' => ?_
    exact (annotateStmt_strip ctx elseBody).within fun else' h'' => by
      simp [Stmt.strip, h, h', h'']
  | .loop cond body span => by
    rw [annotateStmt]
    refine (annotateCondition_strip ctx cond).part (fun cond' h => by simp [Stmt.strip, h])
      fun cond' _ h => ?_
    exact (annotateStmt_strip ctx body).within fun body' h' => by simp [Stmt.strip, h, h']
  | .ret value span => by
    rw [annotateStmt]
    exact annotateReturn_strip ctx value span
  | .empty span => by
    rw [annotateStmt]
    exact fun _ => rfl

theorem annotateStmts_strip (ctx : Context) : ∀ body : List Stmt,
    (annotateStmts ctx body).Yields fun body' => Stmt.stripAll body' = Stmt.stripAll body
  | [] => by
    rw [annotateStmts]
    exact fun _ => rfl
  | stmt :: rest => by
    rw [annotateStmts]
    refine (annotateStmt_strip ctx stmt).part (fun stmt' h => by simp [Stmt.stripAll, h])
      fun stmt' _ h => ?_
    exact (annotateStmts_strip ctx rest).within fun rest' h' => by simp [Stmt.stripAll, h, h']

end

theorem annotateMethod_strip (ctx : Context) (m : Method) :
    (annotateMethod ctx m).Yields fun m' => m'.strip = m.strip := by
  intro s
  unfold annotateMethod
  split
  · rfl
  split
  · rfl
  dsimp only
  split
  · rfl
  · next body hb =>
    exact Visit.Yields.within (Q := fun m' : Method => m'.strip = m.strip)
      (annotateStmts_strip _ body) (fun body' h => by simp [Method.strip, hb, h]) _

theorem annotateClassWith_strip (ctx : Context) (head : ClassHead) (members : List Member)
    {body : Context → Visit State (List Member) Unit}
    (hbody : ∀ ctx, (body ctx).Yields fun members' =>
      Member.stripAll members' = Member.stripAll members) :
    (annotateClassWith ctx head members body).Yields fun c =>
      c.strip = (ClassDecl.mk head members).strip := by
  unfold annotateClassWith
  split
  · exact fun _ => rfl
  split
  · exact fun _ => rfl
  · exact (hbody _).within fun members' h => by simp [ClassDecl.strip, h]

mutual

theorem annotateMember_strip : ∀ (m : Member) (ctx : Context),
    (annotateMember ctx m).Yields fun m' => m'.strip = m.strip
  | .method m, ctx => by
    rw [annotateMember]
    exact (annotateMethod_strip ctx m).within fun m' h => by simp [Member.strip, h]
  | .field d, ctx => by
    rw [annotateMember]
    exact (annotateField_strip ctx d).within fun d' h => by simp [Member.strip, h]
  | .nested head members, ctx => by
    rw [annotateMember]
    refine (annotateClassWith_strip ctx head members
      (annotateMembers_strip members)).within fun c h => ?_
    rw [ClassDecl.strip, ClassDecl.strip, ClassDecl.mk.injEq] at h
    simp [Member.strip, h]

theorem annotateMembers_strip : ∀ (ms : List Member) (ctx : Context),
    (annotateMembers ctx ms).Yields fun ms' => Member.stripAll ms' = Member.stripAll ms
  | [], ctx => by
    rw [annotateMembers]
    exact fun _ => rfl
  | m :: rest, ctx => by
    rw [annotateMembers]
    refine (annotateMember_strip m ctx).part (fun m' h => by simp [Member.stripAll, h])
      fun m' _ h => ?_
    exact (annotateMembers_strip rest ctx).within fun rest' h' => by simp [Member.stripAll, h, h']

end

theorem annotateUnit_strip (u : CompilationUnit) (t : Table) (entry : EntryChoice) :
    (annotateUnit u t entry).Yields fun u' => u'.strip = u.strip := by
  obtain ⟨_ | top⟩ := u
  · exact fun _ => rfl
  · exact (annotateClassWith_strip _ top.head top.members
      (annotateMembers_strip top.members)).within fun c h => by
        simp [CompilationUnit.strip, h]

end Typing

/-- A run annotates the unit it is given and changes nothing else. -/
theorem compileFrom_strip (resolutions : Resolutions) (tag : Nat) (u : CompilationUnit)
    (options : Options) : (compileFrom resolutions tag u options).unit.strip = u.strip := by
  have hreg := Registration.registerUnit_strip u (.withSystem tag) []
  have htyp := Typing.annotateUnit_strip
    (Registration.registerUnit u (.withSystem tag) []).node
    (Registration.registerUnit u (.withSystem tag) []).state.table options.entry
    ⟨resolutions, (Registration.registerUnit u (.withSystem tag) []).state.diagnostics⟩
  unfold compileFrom
  dsimp only
  split
  · exact hreg
  split
  · exact htyp.trans hreg
  split
  all_goals exact htyp.trans hreg

theorem compile_strip (u : CompilationUnit) (options : Options) :
    (compile u options).unit.strip = u.strip :=
  compileFrom_strip .empty 0 u options

theorem compile_decls (u : CompilationUnit) (options : Options) :
    (compile u options).unit.decls.map Decl.strip = u.decls.map Decl.strip := by
  rw [← CompilationUnit.decls_strip, compile_strip, CompilationUnit.decls_strip]

end ClassLang
