import ClassLang.Proofs.Input
import ClassLang.Proofs.Places.Typed

/-! Lowering does not look at places: the bare tree has the same code, and so the same assembly.
Together with registration and typing, a whole run gives the same assembly and the same problems
wherever its nodes stand. -/
namespace ClassLang

namespace Lowering

open Assembly

theorem Emission.need_map {α β : Type} (value : Except Fault α) (f : α → β)
    (rest : β → Emission) :
    Emission.need (value.map f) rest = Emission.need value fun a => rest (f a) := by
  cases value <;> rfl

theorem Writer.need_map {α β : Type} (value : Except Fault α) (f : α → β) (rest : β → Writer) :
    Writer.need (value.map f) rest = Writer.need value fun a => rest (f a) := by
  cases value <;> rfl

theorem exprType_bare (e : Expr) : exprType e.bare = (exprType e).map Ty.bare := by
  unfold exprType
  rw [Expr.type_bare, Expr.shape_bare]
  cases e.type <;> rfl

theorem symbolOf_bare (n : DottedName) : symbolOf n.bare = (symbolOf n).map Symbol.bare := by
  have hslot : n.bare.symbol = n.symbol.map Symbol.bare := rfl
  unfold symbolOf
  rw [hslot, DottedName.text_bare]
  cases n.symbol <;> rfl

theorem leavesValue_bare (e : Expr) : leavesValue e.bare = leavesValue e := by
  unfold leavesValue
  rw [exprType_bare]
  cases exprType e with
  | error fault => rfl
  | ok T => exact congrArg Except.ok T.isValue_bare

theorem symbolType_bare {r q : Resolutions} (h : r.Like q) (b : Symbol) :
    symbolType q b.bare = symbolType r b := by
  have hrec := h.type? b
  have hbare : q.type? b.bare = q.type? b := rfl
  unfold symbolType Resolutions.typeOf
  rw [hbare, Symbol.name_bare]
  generalize r.type? b = x at hrec ⊢
  generalize q.type? b = y at hrec ⊢
  obtain _ | T := x <;> obtain _ | U := y
  · rfl
  · cases hrec
  · cases hrec
  · change U.toAsm = T.toAsm
    rw [← U.toAsm_bare, ← Option.some.inj hrec, T.toAsm_bare]

theorem asmTypes_bare (Ts : List Ty) : asmTypes (Ts.map Ty.bare) = asmTypes Ts := by
  induction Ts with
  | nil => rfl
  | cons T rest ih => simp only [List.map_cons, asmTypes, Ty.toAsm_bare, ih]

namespace Frame

structure Like (f g : Frame) : Prop where
  resolutions : f.resolutions.Like g.resolutions
  entry : f.entry = g.entry
  hasThis : f.hasThis = g.hasThis

namespace Like

variable {f g : Frame} (h : f.Like g)
include h

theorem pushThis (found : Intruder) : g.pushThis found = f.pushThis found := by
  unfold Frame.pushThis
  rw [h.hasThis]

theorem argument (index : UInt16) : g.argument index = f.argument index := by
  unfold Frame.argument
  rw [h.hasThis]

theorem fieldRef (b : Symbol) (owner : List String) :
    g.fieldRef b.bare owner = f.fieldRef b owner := by
  unfold Frame.fieldRef
  rw [symbolType_bare h.resolutions, Symbol.name_bare]

theorem load (b : Symbol) : g.load b.bare = f.load b := by
  unfold Frame.load
  rw [Symbol.details_bare]
  rcases hd : b.details with _ | _ | ⟨_, index | index | ⟨_ | _, owner⟩⟩ <;>
    simp [Details.bare, h.argument, h.fieldRef, h.pushThis]

theorem store (b : Symbol) (value : Emission) (keep : Bool) :
    g.store b.bare value keep = f.store b value keep := by
  unfold Frame.store
  rw [Symbol.details_bare]
  rcases hd : b.details with _ | _ | ⟨_, index | index | ⟨_ | _, owner⟩⟩ <;>
    simp [Details.bare, h.argument, h.fieldRef, h.pushThis]

theorem assign (target : Expr) (value : Emission) (keep : Bool) :
    g.assign target.bare value keep = f.assign target value keep := by
  cases target <;>
    simp [Expr.bare, Frame.assign, Expr.shape, symbolOf_bare, Emission.need_map, h.store]

theorem paramTypes (m : Symbol) : g.paramTypes m.bare = f.paramTypes m := by
  have hrec := h.resolutions.params? m
  have hbare : g.resolutions.params? m.bare = g.resolutions.params? m := rfl
  unfold Frame.paramTypes
  rw [hbare, Symbol.name_bare]
  generalize f.resolutions.params? m = x at hrec ⊢
  generalize g.resolutions.params? m = y at hrec ⊢
  obtain _ | Ts := x <;> obtain _ | Us := y
  · rfl
  · cases hrec
  · cases hrec
  · change asmTypes Us = asmTypes Ts
    rw [← asmTypes_bare Us, ← Option.some.inj hrec, asmTypes_bare]

theorem invoke (m : Symbol) (args : Emission) : g.invoke m.bare args = f.invoke m args := by
  unfold Frame.invoke
  rw [h.paramTypes, symbolType_bare h.resolutions, Symbol.details_bare, Symbol.name_bare,
    Symbol.runsStatic_bare, h.entry, h.pushThis]
  rcases hd : m.details with _ | _ | _ <;> rfl

end Like

end Frame

theorem binaryCode_bare (op : BinaryOp) (T : Ty) : binaryCode op T.bare = binaryCode op T := by
  simp [binaryCode, Ty.same_bare_left]

mutual

theorem lowerExpr_bare {f g : Frame} (h : f.Like g) : ∀ e : Expr,
    lowerExpr g e.bare = lowerExpr f e
  | .literal _ _ => by simp [Expr.bare, lowerExpr]
  | .this _ => by simp [Expr.bare, lowerExpr, h.pushThis]
  | .name n _ => by simp [Expr.bare, lowerExpr, symbolOf_bare, Emission.need_map, h.load]
  | .unary _ operand _ => by simp [Expr.bare, lowerExpr, lowerExpr_bare h operand]
  | .binary _ left right _ => by
    simp [Expr.bare, lowerExpr, lowerExpr_bare h left, lowerExpr_bare h right, exprType_bare,
      Emission.need_map, binaryCode_bare]
  | .assign target value _ => by
    simp [Expr.bare, lowerExpr, lowerExpr_bare h value, h.assign]
  | .call callee args _ => by
    cases callee <;> simp [Expr.bare, lowerExpr, symbolOf_bare, Emission.need_map, h.invoke,
      lowerArgs_bare h args, Expr.shape]
  | .create n args _ => by
    simp [Expr.bare, lowerExpr, symbolOf_bare, Emission.need_map]
  | .field _ _ _ => by simp [Expr.bare, lowerExpr]
  | .index _ _ _ => by simp [Expr.bare, lowerExpr]

theorem lowerArgs_bare {f g : Frame} (h : f.Like g) : ∀ es : List Expr,
    lowerArgs g (es.map Expr.bare) = lowerArgs f es
  | [] => by simp [lowerArgs]
  | e :: rest => by simp [lowerArgs, lowerExpr_bare h e, lowerArgs_bare h rest]

end

theorem registered_bare (slot : Option Symbol) (what : Mark) (name : String) :
    registered (slot.map Symbol.bare) what name = (registered slot what name).map Symbol.bare := by
  cases slot <;> rfl

theorem lowerValue_bare {f g : Frame} (h : f.Like g) (e : Expr) :
    lowerValue g e.bare = lowerValue f e := by
  have hother : (lowerExpr g e.bare ++ Emission.need (leavesValue e.bare) fun b =>
        .of (if b then [.pop] else [])) =
      lowerExpr f e ++ Emission.need (leavesValue e) fun b => .of (if b then [.pop] else []) := by
    rw [lowerExpr_bare h, leavesValue_bare]
  cases e with
  | assign target value note => simp [Expr.bare, lowerValue, lowerExpr_bare h, h.assign]
  | _ => exact hother

theorem lowerLocal_bare {f g : Frame} (h : f.Like g) (v : Declarator) :
    lowerLocal g v.bare = lowerLocal f v := by
  have hinit : v.bare.init = v.init.map Expr.bare := rfl
  have hslot : v.bare.symbol = v.symbol.map Symbol.bare := rfl
  have hname : v.bare.name.text = v.name.text := rfl
  unfold lowerLocal
  rw [hinit, hslot, hname, registered_bare]
  cases v.init with
  | none => rfl
  | some init =>
    simp only [Option.map_some, Emission.need_map, lowerExpr_bare h, Symbol.details_bare]
    congr 1
    funext b
    rcases b.details with _ | _ | ⟨_, _ | _ | _⟩ <;> rfl

theorem lowerLocals_bare {f g : Frame} (h : f.Like g) (vars : List Declarator) :
    lowerLocals g (vars.map Declarator.bare) = lowerLocals f vars := by
  induction vars with
  | nil => rfl
  | cons v rest ih => simp only [List.map_cons, lowerLocals, lowerLocal_bare h, ih]

mutual

theorem lowerStmt_bare {f g : Frame} (h : f.Like g) : ∀ stmt : Stmt,
    lowerStmt g stmt.bare = lowerStmt f stmt
  | .block body _ => by simp [Stmt.bare, lowerStmt, lowerStmts_bare h body]
  | .expr value _ _ => by simp [Stmt.bare, lowerStmt, lowerValue_bare h]
  | .locals d => by simp [Stmt.bare, VarDecl.bare, lowerStmt, lowerLocals_bare h]
  | .ifThen cond thenBody _ => by
    simp [Stmt.bare, lowerStmt, lowerExpr_bare h, lowerStmt_bare h thenBody]
  | .ifElse cond thenBody elseBody _ => by
    simp [Stmt.bare, lowerStmt, lowerExpr_bare h, lowerStmt_bare h thenBody,
      lowerStmt_bare h elseBody]
  | .loop cond body _ => by
    simp [Stmt.bare, lowerStmt, lowerExpr_bare h, lowerStmt_bare h body]
  | .ret value _ => by cases value <;> simp [Stmt.bare, lowerStmt, lowerExpr_bare h]
  | .empty _ => by simp [Stmt.bare, lowerStmt]

theorem lowerStmts_bare {f g : Frame} (h : f.Like g) : ∀ body : List Stmt,
    lowerStmts g (body.map Stmt.bare) = lowerStmts f body
  | [] => by simp [lowerStmts]
  | stmt :: rest => by simp [lowerStmts, lowerStmt_bare h stmt, lowerStmts_bare h rest]

end

def bareFound (found : List (UInt16 × Symbol)) : List (UInt16 × Symbol) :=
  found.map fun entry => (entry.1, entry.2.bare)

theorem insertLocal_bare (slot : UInt16) (b : Symbol) (found : List (UInt16 × Symbol)) :
    insertLocal slot b.bare (bareFound found) = bareFound (insertLocal slot b found) := by
  induction found with
  | nil => rfl
  | cons entry rest ih =>
    obtain ⟨other, o⟩ := entry
    have hcons : bareFound ((other, o) :: rest) = (other, o.bare) :: bareFound rest := rfl
    rw [hcons, insertLocal, insertLocal, ih]
    split <;> rfl

theorem gatherVars_bare (vars : List Declarator) : ∀ found : List (UInt16 × Symbol),
    gatherVars (vars.map Declarator.bare) (bareFound found) =
      (gatherVars vars found).map bareFound := by
  induction vars with
  | nil => exact fun found => rfl
  | cons v rest ih =>
    intro found
    have hslot : v.bare.symbol = v.symbol.map Symbol.bare := rfl
    have hname : v.bare.name.text = v.name.text := rfl
    rw [List.map_cons, gatherVars, gatherVars, hslot, hname, registered_bare]
    cases registered v.symbol .var v.name.text with
    | error fault => rfl
    | ok b =>
      rcases hd : b.details with _ | _ | ⟨_, index | _ | _⟩ <;>
        simp [Except.map, bind, Except.bind, hd, Details.bare, ih, insertLocal_bare]

mutual

theorem gatherLocals_bare : ∀ (stmt : Stmt) (found : List (UInt16 × Symbol)),
    gatherLocals stmt.bare (bareFound found) = (gatherLocals stmt found).map bareFound
  | .locals d, found => by simp [Stmt.bare, VarDecl.bare, gatherLocals, gatherVars_bare]
  | .block body _, found => by simp [Stmt.bare, gatherLocals, gatherAllLocals_bare body found]
  | .ifThen _ thenBody _, found => by
    simp [Stmt.bare, gatherLocals, gatherLocals_bare thenBody found]
  | .ifElse _ thenBody elseBody _, found => by
    simp only [Stmt.bare, gatherLocals, gatherLocals_bare thenBody found]
    cases gatherLocals thenBody found with
    | error fault => rfl
    | ok between => exact gatherLocals_bare elseBody between
  | .loop _ body _, found => by simp [Stmt.bare, gatherLocals, gatherLocals_bare body found]
  | .expr _ _ _, found | .ret _ _, found | .empty _, found => by
    simp [Stmt.bare, gatherLocals, Except.map]

theorem gatherAllLocals_bare : ∀ (body : List Stmt) (found : List (UInt16 × Symbol)),
    gatherAllLocals (body.map Stmt.bare) (bareFound found) =
      (gatherAllLocals body found).map bareFound
  | [], found => by simp [gatherAllLocals, Except.map]
  | stmt :: rest, found => by
    simp only [List.map_cons, gatherAllLocals, gatherLocals_bare stmt found]
    cases gatherLocals stmt found with
    | error fault => rfl
    | ok between => exact gatherAllLocals_bare rest between

end

namespace Target

structure Like (t t' : Target) : Prop where
  options : t.options = t'.options
  resolutions : t.resolutions.Like t'.resolutions
  entry : t.entry = t'.entry

namespace Like

variable {t t' : Target} (h : t.Like t')
include h

theorem frame (hasThis : Bool) : (t.frame hasThis).Like (t'.frame hasThis) :=
  ⟨h.resolutions, h.entry, rfl⟩

theorem localEntries (found : List (UInt16 × Symbol)) :
    t'.localEntries (bareFound found) = t.localEntries found := by
  induction found with
  | nil => rfl
  | cons entry rest ih =>
    obtain ⟨slot, b⟩ := entry
    have hcons : bareFound ((slot, b) :: rest) = (slot, b.bare) :: bareFound rest := rfl
    rw [hcons, Target.localEntries, Target.localEntries, symbolType_bare h.resolutions, ih,
      Symbol.name_bare]

theorem paramEntries (params : List Param) :
    t'.paramEntries (params.map Param.bare) = t.paramEntries params := by
  induction params with
  | nil => rfl
  | cons p rest ih =>
    have hslot : p.bare.symbol = p.symbol.map Symbol.bare := rfl
    have hname : p.bare.name.text = p.name.text := rfl
    rw [List.map_cons, Target.paramEntries, Target.paramEntries, hslot, hname, registered_bare, ih]
    cases registered p.symbol .param p.name.text with
    | error fault => rfl
    | ok b => simp [Except.map, bind, Except.bind, symbolType_bare h.resolutions]

theorem methodBody (isStatic : Bool) (body : List Stmt) :
    t'.methodBody isStatic (body.map Stmt.bare) = t.methodBody isStatic body := by
  have hgather := gatherAllLocals_bare body []
  unfold Target.methodBody
  rw [show ([] : List (UInt16 × Symbol)) = bareFound [] from rfl, hgather, Writer.need_map,
    lowerStmts_bare (h.frame _)]
  simp only [h.localEntries]
  rfl

theorem method (m : Method) : t'.method m.bare = t.method m := by
  have hslot : m.bare.symbol = m.symbol.map Symbol.bare := rfl
  have hname : m.bare.name.text = m.name.text := rfl
  have hparams : m.bare.params = m.params.map Param.bare := rfl
  have hmodifiers : m.bare.modifiers = m.modifiers := rfl
  have hbody : m.bare.body = m.body.map (List.map Stmt.bare) := rfl
  unfold Target.method
  rw [hslot, hname, hparams, hmodifiers, hbody, registered_bare, Writer.need_map, h.paramEntries]
  simp only [symbolType_bare h.resolutions, Symbol.runsStatic_bare, Symbol.name_bare,
    Symbol.id_bare, h.entry, h.options]
  cases m.body with
  | none => rfl
  | some body =>
    simp only [Option.map_some, h.methodBody]
    rfl

theorem fieldLine (modifiers : List Modifier) (v : Declarator) :
    t'.fieldLine modifiers v.bare = t.fieldLine modifiers v := by
  have hslot : v.bare.symbol = v.symbol.map Symbol.bare := rfl
  have hname : v.bare.name.text = v.name.text := rfl
  unfold Target.fieldLine
  rw [hslot, hname, registered_bare, Writer.need_map]
  congr 1
  funext b
  rw [symbolType_bare h.resolutions, Symbol.details_bare, Symbol.name_bare]
  rcases b.details with _ | _ | ⟨_, _ | _ | _⟩ <;> rfl

theorem fieldVars (modifiers : List Modifier) (vars : List Declarator) :
    t'.fieldVars modifiers (vars.map Declarator.bare) = t.fieldVars modifiers vars := by
  induction vars with
  | nil => rfl
  | cons v rest ih => simp only [List.map_cons, Target.fieldVars, h.fieldLine, ih]

theorem fields (ms : List Member) : t'.fields (ms.map Member.bare) = t.fields ms := by
  induction ms with
  | nil => rfl
  | cons m rest ih =>
    cases m <;> simp [Member.bare, VarDecl.bare, Target.fields, h.fieldVars, ih]

theorem clsWith (nested : Bool) (head : ClassHead) (ms : List Member) (rest : Writer) :
    t'.clsWith nested head.bare (ms.map Member.bare) rest = t.clsWith nested head ms rest := by
  have hslot : head.bare.symbol = head.symbol.map Symbol.bare := rfl
  have hname : head.bare.name.text = head.name.text := rfl
  have hmodifiers : head.bare.modifiers = head.modifiers := rfl
  unfold Target.clsWith Target.defaultCtor
  rw [hslot, hname, hmodifiers, registered_bare, Writer.need_map, h.fields, h.options]
  congr 1
  funext b
  rw [Symbol.details_bare]
  cases b.details <;> rfl

end Like

mutual

theorem member_bare {t t' : Target} (h : t.Like t') : ∀ m : Member,
    t'.member m.bare = t.member m
  | .method m => by simp [Member.bare, member, h.method]
  | .field d => by simp [Member.bare, member]
  | .nested head ms => by simp [Member.bare, member, h.clsWith, members_bare h ms]

theorem members_bare {t t' : Target} (h : t.Like t') : ∀ ms : List Member,
    t'.members (ms.map Member.bare) = t.members ms
  | [] => by simp [members]
  | m :: rest => by simp [members, member_bare h m, members_bare h rest]

end

theorem program_bare {t t' : Target} (h : t.Like t') (c : ClassDecl) :
    t'.program c.bare = t.program c := by
  simp [program, ClassDecl.bare, h.options, h.clsWith, members_bare h]

end Target

theorem assemble_bare (u : CompilationUnit) {r q : Resolutions} (h : r.Like q) (options : Options) :
    assemble u.bare q options = assemble u r options := by
  unfold assemble Generator.unit
  cases htop : u.top with
  | none =>
    have hnone : u.bare.top = none := by simp [CompilationUnit.bare, htop]
    rw [hnone]
  | some top =>
    have hsome : u.bare.top = some top.bare := by simp [CompilationUnit.bare, htop]
    simp only [hsome, EntryChoice.resolve_bare]
    have hlike : Target.Like
        ⟨options, r, options.entry.resolve top⟩ ⟨options, q, options.entry.resolve top⟩ :=
      ⟨rfl, h, rfl⟩
    have hprogram := Target.program_bare hlike top
    simp only [Generator.start] at *
    rw [hprogram]

theorem assemble_eq_of_bare {u v : CompilationUnit} (huv : u.bare = v.bare) {r q : Resolutions}
    (h : r.Like q) (options : Options) : assemble u r options = assemble v q options := by
  rw [← assemble_bare u h, huv, assemble_bare v (.refl q)]

end Lowering

/-- Runs with the same result, the same problems, and annotations that are equal up to places. -/
structure Compilation.Like (a b : Compilation) : Prop where
  unit : a.unit.bare = b.unit.bare
  resolutions : a.resolutions.Like b.resolutions
  problems : a.diagnostics.map Diagnostic.problem = b.diagnostics.map Diagnostic.problem
  result : a.result = b.result

theorem Typing.annotateUnit_like {u v : CompilationUnit} (huv : u.bare = v.bare) {t t' : Table}
    (ht : t.Like t') (choice : EntryChoice) {s s' : Typing.State} (hs : s.Like s') :
    (annotateUnit u t choice s).Agrees
      (fun r q => r.Like q) CompilationUnit.bare id (annotateUnit v t' choice s') := by
  obtain ⟨hnode, hanswer, hstate⟩ := annotateUnit_agrees u ht choice s s' hs
  obtain ⟨knode, kanswer, kstate⟩ :=
    annotateUnit_agrees v (.refl t') choice s' s' ⟨.refl _, rfl⟩
  rw [huv] at hnode hanswer hstate
  exact ⟨hnode.trans knode.symm, hanswer.trans kanswer.symm,
    hstate.resolutions.trans kstate.resolutions.symm, hstate.problems.trans kstate.problems.symm⟩

theorem compile_bare (u : CompilationUnit) (options : Options) :
    (compile u options).Like (compile u.bare options) := by
  have hreg := Registration.registerUnit_agrees u (.withSystem 0) []
  unfold compile compileFrom
  generalize Registration.registerUnit u (.withSystem 0) [] = x at hreg ⊢
  generalize Registration.registerUnit u.bare (.withSystem 0) [] = y at hreg ⊢
  obtain ⟨hunit, hanswer, hstate⟩ := hreg
  obtain ⟨u₁, _ | _, s⟩ := x <;> obtain ⟨v₁, _ | _, r⟩ := y
  · cases hanswer
    exact ⟨hunit, .refl _, hstate.problems, rfl⟩
  · cases hanswer
  · cases hanswer
  have htyped := Typing.annotateUnit_like hunit hstate.table options.entry
    (⟨.refl .empty, hstate.problems⟩ :
      Typing.State.Like ⟨.empty, s.diagnostics⟩ ⟨.empty, r.diagnostics⟩)
  dsimp only
  generalize Typing.annotateUnit u₁ s.table options.entry _ = x at htyped ⊢
  generalize Typing.annotateUnit v₁ r.table options.entry _ = y at htyped ⊢
  obtain ⟨hunit, hanswer, hstate⟩ := htyped
  obtain ⟨u₂, _ | _, s⟩ := x <;> obtain ⟨v₂, _ | _, r⟩ := y
  · cases hanswer
    exact ⟨hunit, hstate.resolutions, hstate.problems, rfl⟩
  · cases hanswer
  · cases hanswer
  have hquiet : s.diagnostics.isEmpty = r.diagnostics.isEmpty := by
    simpa using congrArg List.isEmpty hstate.problems
  dsimp only
  rw [hquiet, Lowering.assemble_eq_of_bare hunit hstate.resolutions]
  split
  · exact ⟨hunit, hstate.resolutions, hstate.problems, rfl⟩
  · exact ⟨hunit, hstate.resolutions, hstate.problems, rfl⟩

/-- Places have no influence on a run but on the places it reports: two units that are equal up to
places end with the same fault or with the same assembly, report the same problems in the same
order, and are annotated alike. -/
theorem compile_ignores_places {u v : CompilationUnit} (h : u.bare = v.bare) (options : Options) :
    (compile u options).result = (compile v options).result ∧
      (compile u options).diagnostics.map Diagnostic.problem =
        (compile v options).diagnostics.map Diagnostic.problem ∧
      (compile u options).unit.bare = (compile v options).unit.bare ∧
      (compile u options).resolutions.Like (compile v options).resolutions := by
  have hu := compile_bare u options
  have hv := compile_bare v options
  rw [h] at hu
  exact ⟨hu.result.trans hv.result.symm, hu.problems.trans hv.problems.symm,
    hu.unit.trans hv.unit.symm, hu.resolutions.trans hv.resolutions.symm⟩

/-- A call of a method that nothing declares. The segments of names stand at `segment`, all other
nodes at `node`. -/
def Sample.calling (node segment : Span) : CompilationUnit :=
  ⟨some ⟨⟨⟨"Main", node⟩, [], none, [], none⟩,
    [.method ⟨⟨"run", node⟩, [.static], .keyword .void node,
      [⟨⟨"n", node⟩, .keyword .int node, none⟩],
      some [.expr (.call (.name ⟨[⟨"Gone", segment⟩, ⟨"help", segment⟩], node, none⟩ ⟨node, none⟩)
        [.name ⟨[⟨"n", segment⟩], node, none⟩ ⟨node, none⟩] ⟨node, none⟩) node none], none⟩]⟩⟩

theorem compile_ignores_places_calling :
    let u := Sample.calling (.within "a" 1 9) (.within "a" 4 8)
    let v := Sample.calling (.within "b" 70 90) .null
    u.bare = v.bare ∧
      (compile u .default).diagnostics = [⟨.undeclared "Gone", ⟨4, "a"⟩⟩] ∧
      (compile v .default).diagnostics = [⟨.undeclared "Gone", ⟨70, "b"⟩⟩] ∧
      (compile u .default).result = (compile v .default).result ∧
      (compile u .default).diagnostics.map Diagnostic.problem =
        (compile v .default).diagnostics.map Diagnostic.problem ∧
      (compile u .default).unit.bare = (compile v .default).unit.bare ∧
      (compile u .default).resolutions.Like (compile v .default).resolutions := by
  have hbare : (Sample.calling (.within "a" 1 9) (.within "a" 4 8)).bare =
      (Sample.calling (.within "b" 70 90) .null).bare := rfl
  exact ⟨hbare, by decide +kernel, by decide +kernel, compile_ignores_places hbare .default⟩

end ClassLang
