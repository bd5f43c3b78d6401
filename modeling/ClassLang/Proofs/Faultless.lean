import ClassLang.Compile
import ClassLang.Proofs.Lowered

/-! A fresh and well-formed unit meets no fault. The visits of registration and typing succeed from
every state, since what they need is in the tree, and the code of what obeys the typing rules can be
written out whole. -/
namespace ClassLang

namespace Visit

variable {σ ν μ α β : Type}

def Succeeds (visit : Visit σ ν α) : Prop := ∀ s, ∃ node answer t, visit s = ⟨node, .ok answer, t⟩

theorem succeeds_done (node : ν) (answer : α) : (done node answer : Visit σ ν α).Succeeds :=
  fun s => ⟨node, answer, s, rfl⟩

theorem Succeeds.part {visit : Visit σ ν α} {put : ν → μ} {rest : ν → α → Visit σ μ β}
    (h : visit.Succeeds) (k : ∀ node answer, (rest node answer).Succeeds) :
    (visit.part put rest).Succeeds := by
  intro s
  obtain ⟨n, a, t, ht⟩ := h s
  obtain ⟨m, b, u, hu⟩ := k n a t
  exact ⟨m, b, u, part_ok_iff.mpr ⟨n, a, t, ht, hu⟩⟩

theorem Succeeds.within {visit : Visit σ ν α} {put : ν → μ} (h : visit.Succeeds) :
    (visit.within put).Succeeds := h.part fun _ _ => succeeds_done _ _

theorem succeeds_each {visit : ν → Visit σ ν Unit} {nodes : List ν}
    (h : ∀ node ∈ nodes, (visit node).Succeeds) : (each visit nodes).Succeeds := by
  induction nodes with
  | nil => exact succeeds_done _ _
  | cons node rest ih =>
    refine (h node List.mem_cons_self).part fun _ _ => ?_
    exact (ih fun n hn => h n (List.mem_cons_of_mem _ hn)).within

end Visit

namespace Registration

theorem registerVar_succeeds {home : Home} {type : TypeExpr} {v : Declarator}
    (hv : v.symbol = none) : (registerVar home type v).Succeeds := by
  intro s
  unfold registerVar
  dsimp only
  split
  · split
    · exact ⟨_, _, _, rfl⟩
    · rw [hv]
      exact ⟨_, _, _, rfl⟩
  · exact ⟨_, _, _, rfl⟩

theorem registerVars_succeeds {home : Home} {d : VarDecl} (hf : d.isFresh = true) :
    (registerVars home d).Succeeds :=
  (Visit.succeeds_each fun v hv => registerVar_succeeds (symbol_eq_none_of_isFresh hf v hv)).within

mutual

theorem registerStmt_succeeds : ∀ {stmt : Stmt}, stmt.isFresh = true → (registerStmt stmt).Succeeds
  | .locals d, hf => by
    rw [Stmt.isFresh] at hf
    rw [registerStmt]
    exact Visit.Succeeds.within fun s => registerVars_succeeds hf _
  | .block body _, hf => by
    rw [Stmt.isFresh] at hf
    rw [registerStmt]
    exact (registerStmts_succeeds hf).within
  | .ifThen _ thenBody _, hf => by
    rw [Stmt.isFresh, Bool.and_eq_true] at hf
    rw [registerStmt]
    exact (registerStmt_succeeds hf.2).within
  | .ifElse _ thenBody elseBody _, hf => by
    rw [Stmt.isFresh, Bool.and_eq_true, Bool.and_eq_true] at hf
    rw [registerStmt]
    exact (registerStmt_succeeds hf.1.2).part fun _ _ => (registerStmt_succeeds hf.2).within
  | .loop _ body _, hf => by
    rw [Stmt.isFresh, Bool.and_eq_true] at hf
    rw [registerStmt]
    exact (registerStmt_succeeds hf.2).within
  | .expr .., _ => by
    rw [registerStmt]
    · exact Visit.succeeds_done _ _
    all_goals simp
  | .ret .., _ => by
    rw [registerStmt]
    · exact Visit.succeeds_done _ _
    all_goals simp
  | .empty _, _ => by
    rw [registerStmt]
    · exact Visit.succeeds_done _ _
    all_goals simp

theorem registerStmts_succeeds : ∀ {body : List Stmt}, Stmt.allFresh body = true →
    (registerStmts body).Succeeds
  | [], _ => by
    rw [registerStmts]
    exact Visit.succeeds_done _ _
  | _ :: _, hf => by
    rw [Stmt.allFresh, Bool.and_eq_true] at hf
    rw [registerStmts]
    exact (registerStmt_succeeds hf.1).part fun _ _ => (registerStmts_succeeds hf.2).within

end

theorem registerParam_succeeds {index : UInt16} {p : Param} (hp : p.symbol = none) :
    (registerParam index p).Succeeds := by
  intro s
  unfold registerParam
  dsimp only
  split
  · split
    · exact ⟨_, _, _, rfl⟩
    · rw [hp]
      exact ⟨_, _, _, rfl⟩
  · exact ⟨_, _, _, rfl⟩

theorem registerParams_succeeds {params : List Param} : ∀ {index : UInt16},
    (∀ p ∈ params, p.symbol = none) → (registerParams index params).Succeeds := by
  induction params with
  | nil => exact fun _ => Visit.succeeds_done _ _
  | cons p rest ih =>
    intro index hp
    refine (registerParam_succeeds (hp p List.mem_cons_self)).part fun _ _ => ?_
    exact (ih fun q hq => hp q (List.mem_cons_of_mem _ hq)).within

theorem registerMethodBody_succeeds {m : Method} (hp : ∀ p ∈ m.params, p.symbol = none)
    (hf : m.body.all Stmt.allFresh = true) (hb : m.body.isSome = true) :
    (registerMethodBody m).Succeeds := by
  obtain ⟨body, hb⟩ := Option.isSome_iff_exists.mp hb
  rw [hb] at hf
  refine (registerParams_succeeds hp).part fun _ _ => ?_
  simp only [hb]
  exact (registerStmts_succeeds hf).within

theorem registerMethod_succeeds {path : List String} {m : Method} (hf : m.isFresh = true)
    (hb : m.body.isSome = true) : (registerMethod path m).Succeeds := by
  simp only [Method.isFresh, Bool.and_eq_true, Option.isNone_iff_eq_none, List.all_eq_true] at hf
  obtain ⟨⟨hsym, hparams⟩, hbody⟩ := hf
  have hinner : ∀ slot, (registerMethodBody { m with symbol := slot }).Succeeds := fun _ =>
    registerMethodBody_succeeds hparams hbody hb
  intro s
  unfold registerMethod
  dsimp only
  split
  · exact ⟨_, _, _, rfl⟩
  · split
    · exact ⟨_, _, _, rfl⟩
    · rw [hsym]
      exact (hinner _).part (fun _ _ _ => ⟨_, _, _, rfl⟩) _

theorem registerClassWith_succeeds {path : List String} {head : ClassHead} {members : List Member}
    {body : List String → Visit State (List Member) Unit} (hf : head.symbol = none)
    (hb : ∀ path, (body path).Succeeds) : (registerClassWith path head members body).Succeeds := by
  intro s
  unfold registerClassWith
  dsimp only
  split
  · split
    · exact ⟨_, _, _, rfl⟩
    · rw [hf]
      exact (hb _).part (fun _ _ _ => ⟨_, _, _, rfl⟩) _
  · exact ⟨_, _, _, rfl⟩

theorem isSome_body_of_isWellFormed {m : Method} (h : m.isWellFormed = true) :
    m.body.isSome = true := by
  cases hb : m.body with
  | none => simp [Method.isWellFormed, hb] at h
  | some body => rfl

mutual

theorem registerMember_succeeds : ∀ {path : List String} {m : Member}, m.isFresh = true →
    m.isWellFormed = true → (registerMember path m).Succeeds
  | _, .method m, hf, hw => by
    rw [Member.isFresh] at hf
    rw [Member.isWellFormed] at hw
    rw [registerMember]
    exact (registerMethod_succeeds hf (isSome_body_of_isWellFormed hw)).within
  | _, .field d, hf, _ => by
    rw [Member.isFresh] at hf
    rw [registerMember]
    exact Visit.Succeeds.within fun s => registerVars_succeeds hf _
  | _, .nested head members, hf, hw => by
    rw [Member.isFresh, Bool.and_eq_true] at hf
    rw [Member.isWellFormed, Bool.and_eq_true] at hw
    rw [registerMember]
    exact (registerClassWith_succeeds (Option.isNone_iff_eq_none.mp hf.1)
      fun _ => registerMembers_succeeds hf.2 hw.2).within

theorem registerMembers_succeeds : ∀ {path : List String} {ms : List Member},
    Member.allFresh ms = true → Member.allWellFormed ms = true → (registerMembers path ms).Succeeds
  | _, [], _, _ => by
    rw [registerMembers]
    exact Visit.succeeds_done _ _
  | _, _ :: _, hf, hw => by
    rw [Member.allFresh, Bool.and_eq_true] at hf
    rw [Member.allWellFormed, Bool.and_eq_true] at hw
    rw [registerMembers]
    exact (registerMember_succeeds hf.1 hw.1).part
      fun _ _ => (registerMembers_succeeds hf.2 hw.2).within

end

theorem registerUnit_succeeds {u : CompilationUnit} (hf : u.isFresh = true)
    (hw : u.isWellFormed = true) (table : Table) (diagnostics : List Diagnostic) :
    ∃ u' s, registerUnit u table diagnostics = ⟨u', .ok (), s⟩ := by
  obtain ⟨_ | c⟩ := u
  · cases hw
  rw [CompilationUnit.isFresh, Option.all_some, Bool.and_eq_true] at hf
  rw [CompilationUnit.isWellFormed, Option.any_some, Bool.and_eq_true] at hw
  have hc : (registerClass [] c).Succeeds := registerClassWith_succeeds
    (Option.isNone_iff_eq_none.mp hf.1) fun _ => registerMembers_succeeds hf.2 hw.2
  obtain ⟨c', _, s, h⟩ := hc (.start (table.moveTo Table.root) diagnostics)
  exact ⟨⟨some c'⟩, s.moveTo Table.root, Visit.part_ok_iff.mpr ⟨c', (), s, h, rfl⟩⟩

end Registration

namespace Typing

theorem settle_succeeds (build : Note → Expr) (note : Note) (j : Judgement) :
    (settle build note j).Succeeds := fun _ => ⟨_, _, _, rfl⟩

theorem bindName_succeeds {ctx : Context} {n : DottedName} (hf : n.isFresh = true)
    (hw : n.isWellFormed = true) : (bindName ctx n).Succeeds := by
  intro s
  rw [DottedName.isFresh, Option.isNone_iff_eq_none] at hf
  unfold bindName
  split
  · next hnone =>
    unfold resolvePath at hnone
    cases hsegments : n.segments with
    | nil => simp [DottedName.isWellFormed, hsegments] at hw
    | cons segment rest =>
      rw [hsegments] at hnone
      dsimp only at hnone
      split at hnone <;> cases hnone
  · exact ⟨_, _, _, rfl⟩
  · rw [hf]
    exact ⟨_, _, _, rfl⟩

theorem annotateName_succeeds {ctx : Context} {n : DottedName} {note : Note}
    (hf : n.isFresh = true) (hw : n.isWellFormed = true) :
    (annotateName ctx n note).Succeeds := by
  refine (bindName_succeeds hf hw).part fun _ symbol? s => ?_
  cases symbol? with
  | none => exact settle_succeeds _ _ _ s
  | some symbol => exact settle_succeeds _ _ _ _

theorem annotateCallee_succeeds {ctx : Context} {n : DottedName} {nameNote note : Note}
    {args : List Expr} {types : List Ty} (hf : n.isFresh = true) (hw : n.isWellFormed = true) :
    (annotateCallee ctx n nameNote args types note).Succeeds := by
  intro s
  rw [DottedName.isFresh, Option.isNone_iff_eq_none] at hf
  unfold annotateCallee
  dsimp only
  split
  · exact settle_succeeds _ _ _ _
  · split
    · next hnone =>
      rw [List.getLast?_eq_none_iff] at hnone
      simp [DottedName.isWellFormed, hnone] at hw
    · split
      · exact settle_succeeds _ _ _ _
      · split
        · exact settle_succeeds _ _ _ _
        · rw [hf]
          exact settle_succeeds _ _ _ _

mutual

theorem annotateExpr_succeeds {ctx : Context} {e : Expr} (hf : e.isFresh = true)
    (hw : e.isWellFormed = true) : (annotateExpr ctx e).Succeeds := by
  unfold annotateExpr
  simp only [Expr.type_eq_none_of_isFresh hf]
  cases e with
  | literal value note => exact settle_succeeds _ _ _
  | this note => exact settle_succeeds _ _ _
  | name n note =>
    rw [Expr.isFresh, Bool.and_eq_true] at hf
    rw [Expr.isWellFormed] at hw
    exact annotateName_succeeds hf.1 hw
  | unary op operand note =>
    rw [Expr.isFresh, Bool.and_eq_true] at hf
    rw [Expr.isWellFormed] at hw
    exact (annotateExpr_succeeds hf.1 hw).part fun _ _ => settle_succeeds _ _ _
  | binary op left right note =>
    rw [Expr.isFresh, Bool.and_eq_true, Bool.and_eq_true] at hf
    rw [Expr.isWellFormed, Bool.and_eq_true] at hw
    exact (annotateExpr_succeeds hf.1.1 hw.1).part fun _ _ =>
      (annotateExpr_succeeds hf.1.2 hw.2).part fun _ _ => settle_succeeds _ _ _
  | assign target value note =>
    rw [Expr.isFresh, Bool.and_eq_true, Bool.and_eq_true] at hf
    rw [Expr.isWellFormed, Bool.and_eq_true, Bool.and_eq_true] at hw
    simp only [hw.1.1, if_true]
    exact (annotateExpr_succeeds hf.1.1 hw.1.2).part fun _ _ =>
      (annotateExpr_succeeds hf.1.2 hw.2).part fun _ _ => settle_succeeds _ _ _
  | call callee args note =>
    rw [Expr.isFresh, Bool.and_eq_true, Bool.and_eq_true] at hf
    rw [Expr.isWellFormed, Bool.and_eq_true] at hw
    cases callee with
    | name n nameNote =>
      obtain ⟨⟨hfn, hfa⟩, -⟩ := hf
      rw [Expr.isFresh, Bool.and_eq_true] at hfn
      rw [Expr.isWellFormed] at hw
      simp only [Option.isNone_iff_eq_none.mp hfn.2]
      exact (annotateArgs_succeeds hfa hw.2).part fun _ _ =>
        annotateCallee_succeeds hfn.1 hw.1
    | _ =>
      exact (annotateExpr_succeeds hf.1.1 hw.1).part fun _ _ =>
        (annotateArgs_succeeds hf.1.2 hw.2).part fun _ _ => settle_succeeds _ _ _
  | create n args note =>
    rw [Expr.isFresh, Bool.and_eq_true, Bool.and_eq_true] at hf
    rw [Expr.isWellFormed, Bool.and_eq_true] at hw
    exact (annotateArgs_succeeds hf.1.2 hw.2).part fun _ _ =>
      (bindName_succeeds hf.1.1 hw.1).part fun _ _ => settle_succeeds _ _ _
  | field target field note =>
    rw [Expr.isFresh, Bool.and_eq_true] at hf
    rw [Expr.isWellFormed] at hw
    exact (annotateExpr_succeeds hf.1 hw).part fun _ _ => settle_succeeds _ _ _
  | index target place note =>
    rw [Expr.isFresh, Bool.and_eq_true, Bool.and_eq_true] at hf
    rw [Expr.isWellFormed, Bool.and_eq_true] at hw
    exact (annotateExpr_succeeds hf.1.1 hw.1).part fun _ _ =>
      (annotateExpr_succeeds hf.1.2 hw.2).part fun _ _ => settle_succeeds _ _ _

theorem annotateArgs_succeeds {ctx : Context} {es : List Expr} (hf : Expr.allFresh es = true)
    (hw : Expr.allWellFormed es = true) : (annotateArgs ctx es).Succeeds := by
  cases es with
  | nil =>
    rw [annotateArgs]
    exact Visit.succeeds_done _ _
  | cons e rest =>
    rw [annotateArgs]
    rw [Expr.allFresh, Bool.and_eq_true] at hf
    rw [Expr.allWellFormed, Bool.and_eq_true] at hw
    exact (annotateExpr_succeeds hf.1 hw.1).part fun _ _ =>
      (annotateArgs_succeeds hf.2 hw.2).part fun _ _ => Visit.succeeds_done _ _

end

theorem annotateInit_succeeds {ctx : Context} {v : Declarator} (hf : v.erase.isFresh = true)
    (hw : v.isWellFormed = true) {init : Expr} (hi : v.init = some init) :
    (annotateExpr ctx init).Succeeds := by
  simp only [Declarator.isFresh, Declarator.erase, hi, Option.all_some, Bool.and_eq_true] at hf
  simp only [Declarator.isWellFormed, hi, Option.all_some] at hw
  exact annotateExpr_succeeds hf.2 hw

theorem annotateLocal_succeeds {ctx : Context} {type : TypeExpr} {v : Declarator}
    (hf : v.erase.isFresh = true) (hw : v.isWellFormed = true) :
    (annotateLocal ctx type v).Succeeds := by
  intro s
  unfold annotateLocal
  cases hi : v.init with
  | none => exact ⟨_, _, _, rfl⟩
  | some init => exact (annotateInit_succeeds hf hw hi).part (fun _ _ _ => ⟨_, _, _, rfl⟩) _

theorem annotateCondition_succeeds {ctx : Context} {cond : Expr} (hf : cond.isFresh = true)
    (hw : cond.isWellFormed = true) : (annotateCondition ctx cond).Succeeds :=
  (annotateExpr_succeeds hf hw).part fun _ _ _ => ⟨_, _, _, rfl⟩

theorem annotateReturn_succeeds {ctx : Context} {value : Option Expr} {span : Span}
    (hm : ctx.method.isSome = true) (hf : value.all Expr.isFresh = true)
    (hw : value.all Expr.isWellFormed = true) : (annotateReturn ctx value span).Succeeds := by
  intro s
  obtain ⟨m, hm⟩ := Option.isSome_iff_exists.mp hm
  unfold annotateReturn
  rw [hm]
  have hv : (Visit.optional (annotateExpr ctx) value).Succeeds := by
    cases value with
    | none => exact Visit.succeeds_done _ _
    | some e => exact (annotateExpr_succeeds hf hw).part fun _ _ => Visit.succeeds_done _ _
  exact hv.part (fun _ _ _ => ⟨_, _, _, rfl⟩) _

mutual

theorem annotateStmt_succeeds {ctx : Context} (hm : ctx.method.isSome = true) {stmt : Stmt}
    (hf : stmt.erase.isFresh = true) (hw : stmt.isWellFormed = true) :
    (annotateStmt ctx stmt).Succeeds := by
  cases stmt with
  | block body span =>
    rw [Stmt.erase, Stmt.isFresh] at hf
    rw [Stmt.isWellFormed] at hw
    rw [annotateStmt]
    exact (annotateStmts_succeeds hm hf hw).within
  | expr value span type =>
    rw [Stmt.isWellFormed] at hw
    rw [Stmt.erase, Stmt.isFresh, Bool.and_eq_true] at hf
    · rw [annotateStmt]
      exact (annotateExpr_succeeds hf.1 hw).part fun _ _ => Visit.succeeds_done _ _
    all_goals simp
  | locals d =>
    rw [Stmt.erase, Stmt.isFresh] at hf
    rw [Stmt.isWellFormed, VarDecl.isWellFormed, Bool.and_eq_true, List.all_eq_true] at hw
    rw [annotateStmt]
    refine (Visit.succeeds_each fun v hv => ?_).within
    exact annotateLocal_succeeds (isFresh_vars hf v hv) (hw.2 v hv)
  | ifThen cond thenBody span =>
    rw [Stmt.erase, Stmt.isFresh, Bool.and_eq_true] at hf
    rw [Stmt.isWellFormed, Bool.and_eq_true] at hw
    rw [annotateStmt]
    exact (annotateCondition_succeeds hf.1 hw.1).part fun _ _ =>
      (annotateStmt_succeeds hm hf.2 hw.2).within
  | ifElse cond thenBody elseBody span =>
    rw [Stmt.erase, Stmt.isFresh, Bool.and_eq_true, Bool.and_eq_true] at hf
    rw [Stmt.isWellFormed, Bool.and_eq_true, Bool.and_eq_true] at hw
    rw [annotateStmt]
    exact (annotateCondition_succeeds hf.1.1 hw.1.1).part fun _ _ =>
      (annotateStmt_succeeds hm hf.1.2 hw.1.2).part fun _ _ =>
        (annotateStmt_succeeds hm hf.2 hw.2).within
  | loop cond body span =>
    rw [Stmt.erase, Stmt.isFresh, Bool.and_eq_true] at hf
    rw [Stmt.isWellFormed, Bool.and_eq_true] at hw
    rw [annotateStmt]
    exact (annotateCondition_succeeds hf.1 hw.1).part fun _ _ =>
      (annotateStmt_succeeds hm hf.2 hw.2).within
  | ret value span =>
    rw [Stmt.isWellFormed] at hw
    rw [Stmt.erase, Stmt.isFresh] at hf
    · rw [annotateStmt]
      exact annotateReturn_succeeds hm hf hw
    all_goals simp
  | empty span =>
    rw [annotateStmt]
    exact Visit.succeeds_done _ _

theorem annotateStmts_succeeds {ctx : Context} (hm : ctx.method.isSome = true) {body : List Stmt}
    (hf : Stmt.allFresh (Stmt.eraseAll body) = true) (hw : Stmt.allWellFormed body = true) :
    (annotateStmts ctx body).Succeeds := by
  cases body with
  | nil =>
    rw [annotateStmts]
    exact Visit.succeeds_done _ _
  | cons stmt rest =>
    rw [Stmt.eraseAll, Stmt.allFresh, Bool.and_eq_true] at hf
    rw [Stmt.allWellFormed, Bool.and_eq_true] at hw
    rw [annotateStmts]
    exact (annotateStmt_succeeds hm hf.1 hw.1).part fun _ _ =>
      (annotateStmts_succeeds hm hf.2 hw.2).within

end

theorem annotateMethod_succeeds {ctx : Context} {path : List String} {m : Method}
    (hf : m.erase.isFresh = true) (hw : m.isWellFormed = true)
    (hp : (Decl.method path m).Placed) : (annotateMethod ctx m).Succeeds := by
  intro s
  unfold annotateMethod
  split
  · exact ⟨_, _, _, rfl⟩
  · next b hb =>
    simp only [Decl.Placed, hb] at hp
    obtain ⟨-, k, hk, -⟩ := hp
    simp only [hk]
    cases hbody : m.body with
    | none => simp [Method.isWellFormed, hbody] at hw
    | some body =>
      simp only [Method.isFresh, Method.erase, hbody, Option.map_some, Option.all_some,
        Bool.and_eq_true] at hf
      simp only [Method.isWellFormed, hbody, Option.any_some, Bool.and_eq_true] at hw
      exact (annotateStmts_succeeds rfl hf.2 hw.2.1).within _

theorem annotateFieldVar_succeeds {ctx : Context} {type : TypeExpr} {v : Declarator}
    (hf : v.erase.isFresh = true) (hw : v.isWellFormed = true) :
    (annotateFieldVar ctx type v).Succeeds := by
  intro s
  unfold annotateFieldVar
  cases hi : v.init with
  | none => exact ⟨_, _, _, rfl⟩
  | some init =>
    exact (annotateInit_succeeds hf hw hi).part (fun _ _ => Visit.succeeds_done _ _) _

theorem annotateClassWith_succeeds {ctx : Context} {path : List String} {head : ClassHead}
    {members : List Member} {body : Context → Visit State (List Member) Unit}
    (hp : (Decl.cls path head).Placed) (hb : ∀ ctx, (body ctx).Succeeds) :
    (annotateClassWith ctx head members body).Succeeds := by
  unfold annotateClassWith
  cases hs : head.symbol with
  | none => exact Visit.succeeds_done _ _
  | some b =>
    obtain ⟨k, hk⟩ := Option.isSome_iff_exists.mp (hp b hs).2.1
    simp only [hk]
    exact (hb _).within

mutual

theorem annotateMember_succeeds {ctx : Context} {path : List String} {m : Member}
    (hf : m.erase.isFresh = true) (hw : m.isWellFormed = true)
    (hp : ∀ d ∈ m.decls path, d.Placed) : (annotateMember ctx m).Succeeds := by
  cases m with
  | method m =>
    rw [Member.erase, Member.isFresh] at hf
    rw [Member.isWellFormed] at hw
    rw [Member.decls] at hp
    rw [annotateMember]
    exact (annotateMethod_succeeds hf hw (hp _ List.mem_cons_self)).within
  | field d =>
    rw [Member.erase, Member.isFresh] at hf
    rw [Member.isWellFormed, VarDecl.isWellFormed, Bool.and_eq_true, List.all_eq_true] at hw
    rw [annotateMember]
    refine Visit.Succeeds.within (Visit.succeeds_each fun v hv => ?_).within
    exact annotateFieldVar_succeeds (isFresh_vars hf v hv) (hw.2 v hv)
  | nested head members =>
    rw [Member.erase, Member.isFresh, Bool.and_eq_true] at hf
    rw [Member.isWellFormed, Bool.and_eq_true] at hw
    rw [Member.decls] at hp
    rw [annotateMember]
    exact (annotateClassWith_succeeds (hp _ List.mem_cons_self) fun ctx =>
      annotateMembers_succeeds hf.2 hw.2 fun d hd => hp d (List.mem_cons_of_mem _ hd)).within

theorem annotateMembers_succeeds {ctx : Context} {path : List String} {ms : List Member}
    (hf : Member.allFresh (Member.eraseAll ms) = true) (hw : Member.allWellFormed ms = true)
    (hp : ∀ d ∈ Member.allDecls path ms, d.Placed) : (annotateMembers ctx ms).Succeeds := by
  cases ms with
  | nil =>
    rw [annotateMembers]
    exact Visit.succeeds_done _ _
  | cons m rest =>
    rw [Member.eraseAll, Member.allFresh, Bool.and_eq_true] at hf
    rw [Member.allWellFormed, Bool.and_eq_true] at hw
    rw [Member.allDecls] at hp
    rw [annotateMembers]
    exact (annotateMember_succeeds hf.1 hw.1 fun d hd => hp d (List.mem_append_left _ hd)).part
      fun _ _ => (annotateMembers_succeeds hf.2 hw.2
        fun d hd => hp d (List.mem_append_right _ hd)).within

end

theorem annotateUnit_succeeds {u : CompilationUnit} (hf : u.erase.isFresh = true)
    (hw : u.isWellFormed = true) (hp : ∀ d ∈ u.decls, d.Placed) (table : Table)
    (choice : EntryChoice) : (annotateUnit u table choice).Succeeds := by
  obtain ⟨_ | c⟩ := u
  · cases hw
  simp only [CompilationUnit.isFresh, CompilationUnit.erase, Option.map_some, Option.all_some,
    ClassDecl.erase, Bool.and_eq_true] at hf
  rw [CompilationUnit.isWellFormed, Option.any_some, Bool.and_eq_true] at hw
  refine Visit.Succeeds.within (annotateClassWith_succeeds (hp _ List.mem_cons_self) fun _ => ?_)
  exact annotateMembers_succeeds hf.2 hw.2 fun d hd => hp d (List.mem_cons_of_mem _ hd)

end Typing

def Symbol.writtenTypes (b : Symbol) : List TypeExpr :=
  match b.details with
  | .cls .. => []
  | .method params returns _ _ _ => returns :: params
  | .var type _ => [type]

namespace Stmt

mutual

theorem type_of_isWellFormed : ∀ {s : Stmt}, s.isWellFormed = true →
    ∀ v ∈ s.slots, v.type.isWellFormed = true
  | .block body _, h => by
    rw [isWellFormed] at h
    rw [slots]
    exact type_of_allWellFormed h
  | .locals d, h => by
    rw [isWellFormed, VarDecl.isWellFormed, Bool.and_eq_true] at h
    rw [slots]
    intro v hv
    obtain ⟨_, _, rfl⟩ := List.mem_map.mp hv
    exact h.1
  | .ifThen _ thenBody _, h => by
    rw [isWellFormed, Bool.and_eq_true] at h
    rw [slots]
    exact type_of_isWellFormed h.2
  | .ifElse _ thenBody elseBody _, h => by
    rw [isWellFormed, Bool.and_eq_true, Bool.and_eq_true] at h
    rw [slots]
    intro v hv
    rcases List.mem_append.mp hv with hv | hv
    · exact type_of_isWellFormed h.1.2 v hv
    · exact type_of_isWellFormed h.2 v hv
  | .loop _ body _, h => by
    rw [isWellFormed, Bool.and_eq_true] at h
    rw [slots]
    exact type_of_isWellFormed h.2
  | .expr .., _ => by simp [slots]
  | .ret .., _ => by simp [slots]
  | .empty _, _ => by simp [slots]

theorem type_of_allWellFormed : ∀ {body : List Stmt}, allWellFormed body = true →
    ∀ v ∈ allSlots body, v.type.isWellFormed = true
  | [], _ => by simp [allSlots]
  | _ :: _, h => by
    rw [allWellFormed, Bool.and_eq_true] at h
    rw [allSlots]
    intro v hv
    rcases List.mem_append.mp hv with hv | hv
    · exact type_of_isWellFormed h.1 v hv
    · exact type_of_allWellFormed h.2 v hv

end

end Stmt

namespace Decl

def typesWellFormed : Decl → Prop
  | .method _ m => m.returns.isWellFormed = true ∧
      (∀ p ∈ m.params, p.type.isWellFormed = true) ∧
      ∀ v ∈ m.bodySlots, v.type.isWellFormed = true
  | .field _ d => ∀ v ∈ d.slots, v.type.isWellFormed = true
  | .cls _ _ => True

theorem Same.typesWellFormed {d e : Decl} (h : d.Same e) (hd : d.typesWellFormed) :
    e.typesWellFormed := by
  cases h with
  | method hb hs => simpa only [Decl.typesWellFormed, Method.bodySlots, hs] using hd
  | field hs => simpa only [Decl.typesWellFormed, hs] using hd
  | cls => trivial

theorem writtenTypes_of_placed {d : Decl} (hp : d.Placed) (hw : d.typesWellFormed) {b : Symbol}
    (hb : b ∈ d.symbols) : ∀ type ∈ b.writtenTypes, type.isWellFormed = true := by
  cases d with
  | method path m =>
    obtain ⟨s, k, -, -, hdet, hcases⟩ := hp.of_mem_method hb
    rcases hcases with rfl | ⟨-, p, hpm, -, index, hd⟩ | ⟨-, v, hv, -, index, hd⟩
    · simp only [Symbol.writtenTypes, hdet, List.forall_mem_cons, List.forall_mem_map]
      exact ⟨hw.1, hw.2.1⟩
    · simp only [Symbol.writtenTypes, hd, List.forall_mem_singleton]
      exact hw.2.1 p hpm
    · simp only [Symbol.writtenTypes, hd, List.forall_mem_singleton]
      exact hw.2.2 v hv
  | field path d =>
    obtain ⟨v, hv, hsym⟩ := List.mem_filterMap.mp hb
    simp only [Symbol.writtenTypes, (hp v hv b hsym).2, List.forall_mem_singleton]
    exact hw v hv
  | cls path head =>
    rw [symbols, Option.mem_toList] at hb
    simp [Symbol.writtenTypes, (hp b hb).2.2]

end Decl

namespace Member

mutual

theorem typesWellFormed_of_mem : ∀ {path : List String} {m : Member}, m.isWellFormed = true →
    ∀ d ∈ m.decls path, d.typesWellFormed
  | _, .method m, h => by
    rw [isWellFormed, Method.isWellFormed, Bool.and_eq_true, Bool.and_eq_true,
      List.all_eq_true] at h
    rw [decls, List.forall_mem_singleton]
    refine ⟨h.1.1, h.1.2, ?_⟩
    cases hb : m.body with
    | none => simp [Method.bodySlots, hb, Stmt.allSlots]
    | some body =>
      rw [hb, Option.any_some, Bool.and_eq_true] at h
      simpa [Method.bodySlots, hb] using Stmt.type_of_allWellFormed h.2.1
  | _, .field d, h => by
    rw [isWellFormed, VarDecl.isWellFormed, Bool.and_eq_true] at h
    rw [decls, List.forall_mem_singleton]
    intro v hv
    obtain ⟨_, _, rfl⟩ := List.mem_map.mp hv
    exact h.1
  | _, .nested head members, h => by
    rw [isWellFormed, Bool.and_eq_true] at h
    rw [decls, List.forall_mem_cons]
    exact ⟨trivial, typesWellFormed_of_mem_all h.2⟩

theorem typesWellFormed_of_mem_all : ∀ {path : List String} {ms : List Member},
    allWellFormed ms = true → ∀ d ∈ allDecls path ms, d.typesWellFormed
  | _, [], _ => by simp [allDecls]
  | _, _ :: _, h => by
    rw [allWellFormed, Bool.and_eq_true] at h
    rw [allDecls]
    intro d hd
    rcases List.mem_append.mp hd with hd | hd
    · exact typesWellFormed_of_mem h.1 d hd
    · exact typesWellFormed_of_mem_all h.2 d hd

end

end Member

theorem CompilationUnit.typesWellFormed {u : CompilationUnit} (h : u.isWellFormed = true) :
    ∀ d ∈ u.decls, d.typesWellFormed := by
  obtain ⟨_ | c⟩ := u
  · cases h
  rw [isWellFormed, Option.any_some, Bool.and_eq_true] at h
  rw [decls, Option.elim_some, ClassDecl.decls, List.forall_mem_cons]
  exact ⟨trivial, Member.typesWellFormed_of_mem_all h.2⟩

namespace Typing

/-- A well-formed type that means nothing is reported. -/
theorem meaning_ne_error {t : Table} {s : State} {scope : ScopeId} {type : TypeExpr}
    (hw : type.isWellFormed = true) (ht : Told t s scope type) (hd : s.diagnostics = []) :
    meaning t scope type ≠ .error := by
  have hnone : (resolveType t scope type).2 = none := by
    cases h : (resolveType t scope type).2 with
    | none => rfl
    | some d =>
      have hmem := ht d h
      rw [hd] at hmem
      cases hmem
  unfold meaning
  cases type with
  | keyword word span => cases word <;> simp [resolveType, Ty.ofKeyword]
  | array element span => cases hnone
  | generic base args span => cases hnone
  | named segments span =>
    unfold resolveType at *
    dsimp only at *
    split at hnone
    · next hpath =>
      cases segments with
      | nil => simp [TypeExpr.isWellFormed] at hw
      | cons segment rest =>
        unfold resolvePath at hpath
        dsimp only at hpath
        split at hpath <;> cases hpath
    · cases hnone
    · split at hnone
      · next hk => simp [hk]
      · cases hnone

theorem quiet_of_wellFormed {t : Table} {tag : Nat} {ds : List Decl} {s : State}
    (h : Declares t tag ds) (hw : ∀ d ∈ ds, d.typesWellFormed) (hf : Faithful t s)
    (hd : s.diagnostics = []) : Quiet t s := by
  have hwritten : ∀ {b}, t.Bound b → ∀ type ∈ b.writtenTypes, type.isWellFormed = true := by
    intro b hb
    rcases (h.bound b).mp hb with hbi | hbs
    · rcases Table.mem_builtins hbi with rfl | ⟨-, -, _, _, -, hdet⟩
      · simp [Symbol.writtenTypes, Table.systemClass]
      · simp [Symbol.writtenTypes, hdet, TypeExpr.isWellFormed]
    · obtain ⟨d, hmem, hbd⟩ := List.mem_flatMap.mp hbs
      exact Decl.writtenTypes_of_placed (h.placed d hmem) (hw d hmem) hbd
  refine ⟨hd, ?_, ?_⟩
  · intro b T hb hT
    obtain ⟨scope, type, hwr, rfl, htold⟩ := hf.types hb hT
    refine meaning_ne_error (hwritten hb type ?_) htold hd
    unfold Writes at hwr
    rcases hdet : b.details with ⟨_, _, _⟩ | ⟨_, _, _, _, _⟩ | ⟨_, _ | _ | _⟩
    all_goals simp only [hdet] at hwr
    all_goals simp [Symbol.writtenTypes, hdet, hwr.1]
  · intro b Ts hb hTs
    obtain ⟨params, _, _, _, _, hdet, rfl, htold⟩ := hf.params hb hTs
    intro herr
    obtain ⟨type, hmem, he⟩ := List.mem_map.mp herr
    refine meaning_ne_error (hwritten hb type ?_) (htold type hmem) hd he
    simp [Symbol.writtenTypes, hdet, hmem]

end Typing

theorem prepared_of_analysed {t : Table} {tag : Nat} {choice : EntryChoice} {s : Typing.State}
    {u : CompilationUnit} {c : ClassDecl} (h : Typing.Analysed t tag choice s u c)
    (hq : Typing.Quiet t s) : ∀ d ∈ u.decls,
      Lowering.Prepared t (choice.resolve c) s.resolutions d := fun d hd =>
  ⟨fun b hb => (h.declares.bound b).mpr (Or.inr (Decl.mem_allSymbols hd hb)),
    h.declares.placed d hd, h.filled hq.diagnostics d hd, h.checked hq d hd⟩

theorem isWellFormed_of_erase_eq {u u' : CompilationUnit} (h : u'.erase = u.erase)
    (hw : u.isWellFormed = true) : u'.isWellFormed = true := by
  rw [← CompilationUnit.isWellFormed_erase, h, CompilationUnit.isWellFormed_erase]
  exact hw

/-- Where every type that was found means something, everything can be written out. -/
theorem compile_of_typed {u u₁ u₂ : CompilationUnit} {options : Options} {s₁ : Registration.State}
    {s₂ : Typing.State} (hf : u.isFresh = true)
    (hreg : Registration.registerUnit u (.withSystem 0) [] = ⟨u₁, .ok (), s₁⟩)
    (htyp : Typing.annotateUnit u₁ s₁.table options.entry ⟨.empty, s₁.diagnostics⟩ =
      ⟨u₂, .ok (), s₂⟩) (hq : Typing.Quiet s₁.table s₂) :
    ∃ listing, compile u options = ⟨u₂, s₂.resolutions, s₂.diagnostics, .ok (some listing)⟩ := by
  obtain ⟨-, c, ha⟩ := Typing.annotateUnit_analysed hf hreg htyp
  obtain ⟨listing, hl⟩ := Lowering.assemble_ok ha.top (Typing.writable_of_quiet ha.faithful hq)
    (prepared_of_analysed ha hq)
  refine ⟨listing, ?_⟩
  simp only [compile, compileFrom, hreg, htyp]
  rw [if_pos (by rw [hq.diagnostics]; rfl), hl]
  rfl

theorem compile_of_quiet {u u₁ u₂ : CompilationUnit} {options : Options} {s₁ : Registration.State}
    {s₂ : Typing.State} (hf : u.isFresh = true) (hw : u.isWellFormed = true)
    (hreg : Registration.registerUnit u (.withSystem 0) [] = ⟨u₁, .ok (), s₁⟩)
    (htyp : Typing.annotateUnit u₁ s₁.table options.entry ⟨.empty, s₁.diagnostics⟩ =
      ⟨u₂, .ok (), s₂⟩) (hd : s₂.diagnostics = []) :
    ∃ listing, compile u options = ⟨u₂, s₂.resolutions, s₂.diagnostics, .ok (some listing)⟩ := by
  obtain ⟨herase, -⟩ := Registration.registerUnit_registers hf hreg
  obtain ⟨hsame, c, ha⟩ := Typing.annotateUnit_analysed hf hreg htyp
  have htypes := Typing.forall_mem_of_same hsame Decl.Same.typesWellFormed
    (CompilationUnit.typesWellFormed (isWellFormed_of_erase_eq herase hw))
  exact compile_of_typed hf hreg htyp
    (Typing.quiet_of_wellFormed ha.declares htypes ha.faithful hd)

/-- A run on a fresh and well-formed unit ends without a fault, whatever its mistakes, and gives
assembly exactly if nothing was reported. -/
theorem compile_never_faults (u : CompilationUnit) (options : Options) (hf : u.isFresh = true)
    (hw : u.isWellFormed = true) :
    ∃ listing?, (compile u options).result = .ok listing? ∧
      (listing?.isSome = true ↔ (compile u options).diagnostics = []) := by
  obtain ⟨u₁, s₁, hreg⟩ := Registration.registerUnit_succeeds hf hw (.withSystem 0) []
  obtain ⟨herase, hdecl⟩ := Registration.registerUnit_registers hf hreg
  have hf₁ : u₁.erase.isFresh = true := herase ▸ CompilationUnit.isFresh_erase hf
  obtain ⟨u₂, _, s₂, htyp⟩ := Typing.annotateUnit_succeeds hf₁ (isWellFormed_of_erase_eq herase hw)
    hdecl.placed s₁.table options.entry ⟨.empty, s₁.diagnostics⟩
  by_cases hd : s₂.diagnostics = []
  · obtain ⟨listing, hrun⟩ := compile_of_quiet hf hw hreg htyp hd
    rw [hrun]
    exact ⟨some listing, rfl, by simp [hd]⟩
  · have hrun : compile u options = ⟨u₂, s₂.resolutions, s₂.diagnostics, .ok none⟩ := by
      simp only [compile, compileFrom, hreg, htyp]
      rw [if_neg (by simpa using hd)]
    rw [hrun]
    exact ⟨none, rfl, by simp [hd]⟩

theorem compile_never_faults_sample :
    Sample.unit.isFresh = true ∧ Sample.unit.isWellFormed = true ∧
      ∃ listing?, (compile Sample.unit .default).result = .ok listing? ∧
        (listing?.isSome = true ↔ (compile Sample.unit .default).diagnostics = []) :=
  ⟨by decide, by decide, compile_never_faults Sample.unit .default (by decide) (by decide)⟩

end ClassLang
