import ClassLang.Proofs.Cascade
import ClassLang.Proofs.Rechecked
import ClassLang.Proofs.Verified

/-! The methods that a tree mentions: those it declares, and those its calls are bound to as far as
code is made for them. Registration binds no calls, and typing binds them to methods of the table
only. So all methods mentioned in a typed unit are in the table of the unit, also where typing ended
with a fault. -/
namespace ClassLang

def Expr.callees (es : List Expr) : List Symbol := es.filterMap Expr.callee?

def Method.mentioned (m : Method) : List Symbol :=
  m.symbol.toList ++ Expr.callees (Stmt.allEvaluated (m.body.getD []))

namespace Member

mutual

def mentioned : Member → List Symbol
  | .method m => m.mentioned
  | .field _ => []
  | .nested _ members => allMentioned members

def allMentioned : List Member → List Symbol
  | [] => []
  | m :: rest => m.mentioned ++ allMentioned rest

end

end Member

namespace Expr

variable {note : Note}

theorem callees_append (xs ys : List Expr) : callees (xs ++ ys) = callees xs ++ callees ys :=
  List.filterMap_append

theorem callees_unary (op : UnaryOp) (operand : Expr) :
    callees (Expr.unary op operand note).evaluated = callees operand.evaluated := by
  rw [evaluated]
  rfl

theorem callees_binary (op : BinaryOp) (left right : Expr) :
    callees (Expr.binary op left right note).evaluated =
      callees left.evaluated ++ callees right.evaluated := by
  rw [evaluated, ← callees_append]
  rfl

theorem callees_assign (target value : Expr) :
    callees (Expr.assign target value note).evaluated = callees value.evaluated := by
  rw [evaluated]
  rfl

theorem callees_call (callee : Expr) (args : List Expr) :
    callees (Expr.call callee args note).evaluated =
      (Expr.call callee args note).callee?.toList ++ callees (allEvaluated args) := by
  rw [evaluated, callees, List.filterMap_cons]
  cases (Expr.call callee args note).callee? <;> rfl

theorem callee?_call {callee : Expr} (h : callee.shape ≠ .name) (args : List Expr) :
    (Expr.call callee args note).callee? = none := by
  cases callee with
  | name => exact absurd rfl h
  | _ => rfl

/-- The other expressions call nothing, whatever is in them. -/
theorem callees_eq_nil {e : Expr}
    (h : e.shape ∈ [Shape.literal, .this, .name, .create, .field, .index]) :
    callees e.evaluated = [] := by
  cases e with
  | unary | binary | assign | call => simp [shape] at h
  | _ => simp [evaluated, callees, callee?]

mutual

theorem callees_of_isFresh : ∀ {e : Expr}, e.isFresh = true → callees e.evaluated = []
  | .unary op operand note, h => by
    rw [isFresh, Bool.and_eq_true] at h
    rw [callees_unary, callees_of_isFresh h.1]
  | .binary op left right note, h => by
    rw [isFresh, Bool.and_eq_true, Bool.and_eq_true] at h
    rw [callees_binary, callees_of_isFresh h.1.1, callees_of_isFresh h.1.2]
    rfl
  | .assign target value note, h => by
    rw [isFresh, Bool.and_eq_true, Bool.and_eq_true] at h
    rw [callees_assign, callees_of_isFresh h.1.2]
  | .call callee args note, h => by
    rw [isFresh, Bool.and_eq_true, Bool.and_eq_true] at h
    have hcallee : (Expr.call callee args note).callee? = none := by
      cases callee with
      | name n nameNote =>
        have hn := h.1.1
        rw [isFresh, Bool.and_eq_true] at hn
        exact Option.isNone_iff_eq_none.mp hn.1
      | _ => rfl
    rw [callees_call, hcallee, callees_of_allFresh h.1.2]
    rfl
  | .literal .., _ | .this .., _ | .name .., _ | .create .., _ | .field .., _ | .index .., _ =>
    callees_eq_nil (by simp [shape])

theorem callees_of_allFresh : ∀ {es : List Expr}, allFresh es = true →
    callees (allEvaluated es) = []
  | [], _ => by
    rw [allEvaluated]
    rfl
  | e :: rest, h => by
    rw [allFresh, Bool.and_eq_true] at h
    rw [allEvaluated, callees_append, callees_of_isFresh h.1, callees_of_allFresh h.2]
    rfl

end

end Expr

namespace Stmt

open ClassLang.Expr (callees callees_append callees_of_isFresh)

mutual

theorem callees_of_isFresh_erase : ∀ {stmt : Stmt}, stmt.erase.isFresh = true →
    callees stmt.evaluated = []
  | .block body _, h => by
    rw [erase, isFresh] at h
    rw [evaluated, callees_of_allFresh_erase h]
  | .expr value _ _, h => by
    simp only [erase, isFresh, Bool.and_eq_true] at h
    rw [evaluated, callees_of_isFresh h.1]
  | .locals d, h => by
    rw [erase, isFresh] at h
    rw [evaluated, callees, List.filterMap_flatMap, List.flatMap_eq_nil_iff]
    intro v hv
    cases hi : v.init with
    | none => rfl
    | some init =>
      exact callees_of_isFresh (Typing.isFresh_init (Typing.isFresh_vars h v hv) hi)
  | .ifThen cond thenBody _, h => by
    rw [erase, isFresh, Bool.and_eq_true] at h
    rw [evaluated, callees_append, callees_of_isFresh h.1, callees_of_isFresh_erase h.2]
    rfl
  | .ifElse cond thenBody elseBody _, h => by
    rw [erase, isFresh, Bool.and_eq_true, Bool.and_eq_true] at h
    rw [evaluated, callees_append, callees_append, callees_of_isFresh h.1.1,
      callees_of_isFresh_erase h.1.2, callees_of_isFresh_erase h.2]
    rfl
  | .loop cond body _, h => by
    rw [erase, isFresh, Bool.and_eq_true] at h
    rw [evaluated, callees_append, callees_of_isFresh h.1, callees_of_isFresh_erase h.2]
    rfl
  | .ret value _, h => by
    simp only [erase, isFresh] at h
    rw [evaluated]
    cases value with
    | none => rfl
    | some value => exact callees_of_isFresh h
  | .empty _, _ => by
    rw [evaluated]
    rfl

theorem callees_of_allFresh_erase : ∀ {body : List Stmt}, allFresh (eraseAll body) = true →
    callees (allEvaluated body) = []
  | [], _ => by
    rw [allEvaluated]
    rfl
  | stmt :: rest, h => by
    rw [eraseAll, allFresh, Bool.and_eq_true] at h
    rw [allEvaluated, callees_append, callees_of_isFresh_erase h.1, callees_of_allFresh_erase h.2]
    rfl

end

end Stmt

namespace Member

mutual

/-- Where no call is bound yet, the methods mentioned are those declared. -/
theorem declared_of_mentioned (path : List String) : ∀ {m : Member}, m.erase.isFresh = true →
    ∀ b ∈ m.mentioned, ∃ owner x, .method owner x ∈ m.decls path ∧ x.symbol = some b
  | .method m, h => by
    rw [erase, isFresh] at h
    have hbody : Expr.callees (Stmt.allEvaluated (m.body.getD [])) = [] := by
      cases hb : m.body with
      | none => rfl
      | some body => exact Stmt.callees_of_allFresh_erase (Typing.isFresh_body h hb)
    intro b hb
    rw [mentioned, Method.mentioned, hbody, List.append_nil, Option.mem_toList] at hb
    exact ⟨path, m, by simp [decls], hb⟩
  | .field d, _ => by simp [mentioned]
  | .nested head members, h => by
    rw [erase, isFresh, Bool.and_eq_true] at h
    intro b hb
    rw [mentioned] at hb
    obtain ⟨owner, x, hx, hs⟩ := declared_of_allMentioned _ h.2 b hb
    exact ⟨owner, x, by rw [decls]; exact List.mem_cons_of_mem _ hx, hs⟩

theorem declared_of_allMentioned (path : List String) : ∀ {ms : List Member},
    allFresh (eraseAll ms) = true →
    ∀ b ∈ allMentioned ms, ∃ owner x, .method owner x ∈ allDecls path ms ∧ x.symbol = some b
  | [], _ => by simp [allMentioned]
  | m :: rest, h => by
    rw [eraseAll, allFresh, Bool.and_eq_true] at h
    intro b hb
    rw [allMentioned, List.mem_append] at hb
    rw [allDecls]
    rcases hb with hb | hb
    · obtain ⟨owner, x, hx, hs⟩ := declared_of_mentioned path h.1 b hb
      exact ⟨owner, x, List.mem_append_left _ hx, hs⟩
    · obtain ⟨owner, x, hx, hs⟩ := declared_of_allMentioned path h.2 b hb
      exact ⟨owner, x, List.mem_append_right _ hx, hs⟩

end

end Member

section CallsIn

variable {P : Symbol → Prop} {note : Note} {span : Span}

def CallsIn (P : Symbol → Prop) (es : List Expr) : Prop := ∀ b ∈ Expr.callees es, P b

theorem callsIn_append {xs ys : List Expr} :
    CallsIn P (xs ++ ys) ↔ CallsIn P xs ∧ CallsIn P ys := by
  rw [CallsIn, Expr.callees_append]
  exact List.forall_mem_append

theorem callsIn_unary {op : UnaryOp} {e : Expr} :
    CallsIn P (Expr.unary op e note).evaluated ↔ CallsIn P e.evaluated := by
  rw [CallsIn, Expr.callees_unary]
  exact Iff.rfl

theorem callsIn_binary {op : BinaryOp} {l r : Expr} :
    CallsIn P (Expr.binary op l r note).evaluated ↔
      CallsIn P l.evaluated ∧ CallsIn P r.evaluated := by
  rw [CallsIn, Expr.callees_binary]
  exact List.forall_mem_append

theorem callsIn_assign {target value : Expr} :
    CallsIn P (Expr.assign target value note).evaluated ↔ CallsIn P value.evaluated := by
  rw [CallsIn, Expr.callees_assign]
  exact Iff.rfl

theorem callsIn_call {n : DottedName} {nameNote : Note} {args : List Expr} :
    CallsIn P (Expr.call (.name n nameNote) args note).evaluated ↔
      (∀ b ∈ n.symbol.toList, P b) ∧ CallsIn P (Expr.allEvaluated args) := by
  rw [CallsIn, Expr.callees_call]
  exact List.forall_mem_append

theorem callsIn_call_other {callee : Expr} (h : callee.shape ≠ .name) {args : List Expr} :
    CallsIn P (Expr.call callee args note).evaluated ↔ CallsIn P (Expr.allEvaluated args) := by
  rw [CallsIn, Expr.callees_call, Expr.callee?_call h]
  exact Iff.rfl

theorem callsIn_args {e : Expr} {rest : List Expr} :
    CallsIn P (Expr.allEvaluated (e :: rest)) ↔
      CallsIn P e.evaluated ∧ CallsIn P (Expr.allEvaluated rest) := by
  rw [Expr.allEvaluated, callsIn_append]

theorem callsIn_block {body : List Stmt} :
    CallsIn P (Stmt.block body span).evaluated ↔ CallsIn P (Stmt.allEvaluated body) := by
  rw [Stmt.evaluated]

theorem callsIn_expr {value : Expr} {type : Option Ty} :
    CallsIn P (Stmt.expr value span type).evaluated ↔ CallsIn P value.evaluated := by
  rw [Stmt.evaluated]

theorem callsIn_ret {value : Option Expr} :
    CallsIn P (Stmt.ret value span).evaluated ↔ CallsIn P (value.elim [] Expr.evaluated) := by
  rw [Stmt.evaluated]

theorem callsIn_locals {d : VarDecl} :
    CallsIn P (Stmt.locals d).evaluated ↔
      ∀ v ∈ d.vars, CallsIn P (v.init.elim [] Expr.evaluated) := by
  rw [Stmt.evaluated, CallsIn, Expr.callees, List.filterMap_flatMap, List.forall_mem_flatMap]
  exact Iff.rfl

theorem callsIn_ifThen {c : Expr} {t : Stmt} :
    CallsIn P (Stmt.ifThen c t span).evaluated ↔ CallsIn P c.evaluated ∧ CallsIn P t.evaluated := by
  rw [Stmt.evaluated, callsIn_append]

theorem callsIn_ifElse {c : Expr} {t e : Stmt} :
    CallsIn P (Stmt.ifElse c t e span).evaluated ↔
      CallsIn P c.evaluated ∧ CallsIn P t.evaluated ∧ CallsIn P e.evaluated := by
  rw [Stmt.evaluated, callsIn_append, callsIn_append, and_assoc]

theorem callsIn_loop {c : Expr} {t : Stmt} :
    CallsIn P (Stmt.loop c t span).evaluated ↔ CallsIn P c.evaluated ∧ CallsIn P t.evaluated := by
  rw [Stmt.evaluated, callsIn_append]

theorem callsIn_stmts {stmt : Stmt} {rest : List Stmt} :
    CallsIn P (Stmt.allEvaluated (stmt :: rest)) ↔
      CallsIn P stmt.evaluated ∧ CallsIn P (Stmt.allEvaluated rest) := by
  rw [Stmt.allEvaluated, callsIn_append]

theorem forall_mem_allMentioned {m : Member} {rest : List Member} :
    (∀ b ∈ Member.allMentioned (m :: rest), P b) ↔
      (∀ b ∈ m.mentioned, P b) ∧ ∀ b ∈ Member.allMentioned rest, P b := by
  rw [Member.allMentioned, List.forall_mem_append]

end CallsIn

theorem Visit.Yields.each_all {σ ν : Type} {P : ν → Prop} {visit : ν → Visit σ ν Unit}
    {ns : List ν} (h : ∀ n, P n → (visit n).Yields P) (hns : ∀ n ∈ ns, P n) :
    (Visit.each visit ns).Yields fun ns' => ∀ n ∈ ns', P n := by
  induction ns with
  | nil => exact .done hns ()
  | cons n ns ih =>
    rw [List.forall_mem_cons] at hns
    refine (h n hns.1).part (fun n' hn => List.forall_mem_cons.mpr ⟨hn, hns.2⟩) fun n' _ hn => ?_
    exact (ih hns.2).within fun ns' hns' => List.forall_mem_cons.mpr ⟨hn, hns'⟩

namespace Typing

variable {P : Symbol → Prop} {ctx : Context}

/-- An expression keeps its form, annotated before or not. -/
theorem annotateExpr_shape (ctx : Context) (e : Expr) :
    (annotateExpr ctx e).Yields fun e' => e'.shape = e.shape := by
  intro s
  have hshape := congrArg Expr.shape (annotateExpr_strip ctx e s)
  rwa [Expr.shape_strip, Expr.shape_strip] at hshape

theorem annotateCallee_calls (hP : ∀ b, ctx.table.Lists b → P b) {n : DottedName}
    {args : List Expr} (hn : ∀ b ∈ n.symbol.toList, P b)
    (hargs : CallsIn P (Expr.allEvaluated args))
    (calleeNote : Note) (types : List Ty) (note : Note) :
    (annotateCallee ctx n calleeNote args types note).Yields fun e => CallsIn P e.evaluated := by
  have hunbound : ∀ note, CallsIn P (Expr.call (.name n calleeNote) args note).evaluated :=
    fun _ => callsIn_call.mpr ⟨hn, hargs⟩
  intro s
  unfold annotateCallee
  dsimp only
  split
  · exact hunbound _
  split
  · exact hunbound _
  split
  · exact hunbound _
  · next symbols hfound =>
    split
    · exact hunbound _
    · next offer hchoice =>
      have hmem : offer.method ∈ symbols.filter Symbol.isMethod := by
        rw [← map_method_offers ctx.table (symbols.filter Symbol.isMethod) s]
        exact List.mem_map_of_mem (chooseOffer_ok hchoice).1
      have hlisted := lists_of_candidates hfound _ (List.mem_filter.mp hmem).1
      cases hslot : n.symbol with
      | none =>
        refine callsIn_call.mpr ⟨fun b hb => ?_, hargs⟩
        obtain rfl := List.mem_singleton.mp hb
        exact hP _ hlisted
      | some => exact hunbound _

mutual

theorem annotateExpr_calls (hP : ∀ b, ctx.table.Lists b → P b) {e : Expr}
    (he : CallsIn P e.evaluated) :
    (annotateExpr ctx e).Yields fun e' => CallsIn P e'.evaluated := by
  cases e with
  | unary op operand note =>
    unfold annotateExpr
    split
    · exact fun _ => he
    · exact (annotateExpr_calls hP (callsIn_unary.mp he)).part (fun o ho => callsIn_unary.mpr ho)
        fun o _ ho => settle_yields (fun _ => callsIn_unary.mpr ho) _
  | binary op left right note =>
    unfold annotateExpr
    split
    · exact fun _ => he
    · obtain ⟨hleft, hright⟩ := callsIn_binary.mp he
      exact (annotateExpr_calls hP hleft).part (fun l hl => callsIn_binary.mpr ⟨hl, hright⟩)
        fun l _ hl => (annotateExpr_calls hP hright).part
          (fun r hr => callsIn_binary.mpr ⟨hl, hr⟩)
          fun r _ hr => settle_yields (fun _ => callsIn_binary.mpr ⟨hl, hr⟩) _
  | assign target value note =>
    unfold annotateExpr
    split
    · exact fun _ => he
    · dsimp only
      split
      · refine .part_any (fun t => callsIn_assign.mpr (callsIn_assign.mp he)) fun t _ => ?_
        exact (annotateExpr_calls hP (callsIn_assign.mp he)).part
          (fun v hv => callsIn_assign.mpr hv)
          fun v _ hv => settle_yields (fun _ => callsIn_assign.mpr hv) _
      · exact fun _ => he
  | call callee args note =>
    unfold annotateExpr
    split
    · exact fun _ => he
    cases callee with
    | name n nameNote =>
      dsimp only
      split
      · exact fun _ => he
      · obtain ⟨hn, hargs⟩ := callsIn_call.mp he
        exact (annotateArgs_calls hP hargs).part (fun args hargs => callsIn_call.mpr ⟨hn, hargs⟩)
          fun args types hargs => annotateCallee_calls hP hn hargs _ _ _
    | _ =>
      -- The callee keeps its form, so it is no name afterwards either.
      have hcallee : ∀ c, Expr.shape c ≠ .name →
          (annotateExpr ctx c).Yields fun c' => c'.shape ≠ .name := by
        intro c hc s
        rwa [annotateExpr_shape ctx c s]
      have hargs := (callsIn_call_other (by simp [Expr.shape])).mp he
      exact (hcallee _ (by simp [Expr.shape])).part (fun c hc => (callsIn_call_other hc).mpr hargs)
        fun c _ hc => (annotateArgs_calls hP hargs).part
          (fun args hargs => (callsIn_call_other hc).mpr hargs)
          fun args _ hargs => settle_yields (fun _ => (callsIn_call_other hc).mpr hargs) _
  | _ =>
    intro s
    have hshape := fun e => annotateExpr_shape ctx e s
    rw [CallsIn, Expr.callees_eq_nil (by rw [hshape]; simp [Expr.shape])]
    simp

theorem annotateArgs_calls (hP : ∀ b, ctx.table.Lists b → P b) {es : List Expr}
    (he : CallsIn P (Expr.allEvaluated es)) :
    (annotateArgs ctx es).Yields fun es' => CallsIn P (Expr.allEvaluated es') := by
  cases es with
  | nil =>
    unfold annotateArgs
    exact fun _ => he
  | cons e rest =>
    obtain ⟨hfirst, hrest⟩ := callsIn_args.mp he
    unfold annotateArgs
    exact (annotateExpr_calls hP hfirst).part (fun e he => callsIn_args.mpr ⟨he, hrest⟩)
      fun e _ he => (annotateArgs_calls hP hrest).part (fun rest h => callsIn_args.mpr ⟨he, h⟩)
        fun rest _ h _ => callsIn_args.mpr ⟨he, h⟩

end

theorem annotateLocal_calls (hP : ∀ b, ctx.table.Lists b → P b) (type : TypeExpr) {v : Declarator}
    (hv : CallsIn P (v.init.elim [] Expr.evaluated)) :
    (annotateLocal ctx type v).Yields fun v' => CallsIn P (v'.init.elim [] Expr.evaluated) := by
  intro s
  unfold annotateLocal
  cases hi : v.init with
  | none =>
    dsimp only
    rwa [hi] at hv ⊢
  | some init =>
    rw [hi] at hv
    refine Visit.Yields.part
      (Q := fun v' : Declarator => CallsIn P (v'.init.elim [] Expr.evaluated))
      (annotateExpr_calls hP hv) ?_ ?_ _
    · exact fun _ h => h
    · exact fun _ _ h _ => h

theorem annotateCondition_calls (hP : ∀ b, ctx.table.Lists b → P b) {cond : Expr}
    (hc : CallsIn P cond.evaluated) :
    (annotateCondition ctx cond).Yields fun cond' => CallsIn P cond'.evaluated :=
  (annotateExpr_calls hP hc).part (fun _ h => h) fun _ _ h _ => h

theorem annotateReturn_calls (hP : ∀ b, ctx.table.Lists b → P b) {value : Option Expr}
    (hv : CallsIn P (value.elim [] Expr.evaluated)) (span : Span) :
    (annotateReturn ctx value span).Yields fun stmt => CallsIn P stmt.evaluated := by
  have hvalue : (Visit.optional (annotateExpr ctx) value).Yields fun value' =>
      CallsIn P (value'.elim [] Expr.evaluated) := by
    cases value with
    | none => exact fun _ => hv
    | some value => exact (annotateExpr_calls hP hv).part (fun _ h => h) fun _ _ h _ => h
  intro s
  unfold annotateReturn
  split
  · exact callsIn_ret.mpr hv
  · exact Visit.Yields.part (Q := fun stmt : Stmt => CallsIn P stmt.evaluated) hvalue
      (fun _ h => callsIn_ret.mpr h) (fun _ _ h _ => callsIn_ret.mpr h) _

mutual

theorem annotateStmt_calls (hP : ∀ b, ctx.table.Lists b → P b) : ∀ {stmt : Stmt},
    CallsIn P stmt.evaluated →
      (annotateStmt ctx stmt).Yields fun stmt' => CallsIn P stmt'.evaluated
  | .block body span, h => by
    rw [annotateStmt]
    exact (annotateStmts_calls hP (callsIn_block.mp h)).within fun body hbody =>
      callsIn_block.mpr hbody
  | .expr value span type, h => by
    rw [annotateStmt]
    exact (annotateExpr_calls hP (callsIn_expr.mp h)).part
      (fun value hvalue => callsIn_expr.mpr hvalue)
      fun value found hvalue _ => callsIn_expr.mpr hvalue
  | .locals d, h => by
    rw [annotateStmt]
    exact (Visit.Yields.each_all (fun _ => annotateLocal_calls hP d.type)
      (callsIn_locals.mp h)).within fun vars hvars => callsIn_locals.mpr hvars
  | .ifThen cond thenBody span, h => by
    obtain ⟨hcond, hthen⟩ := callsIn_ifThen.mp h
    rw [annotateStmt]
    exact (annotateCondition_calls hP hcond).part (fun c hc => callsIn_ifThen.mpr ⟨hc, hthen⟩)
      fun c _ hc => (annotateStmt_calls hP hthen).within fun t ht => callsIn_ifThen.mpr ⟨hc, ht⟩
  | .ifElse cond thenBody elseBody span, h => by
    obtain ⟨hcond, hthen, helse⟩ := callsIn_ifElse.mp h
    rw [annotateStmt]
    exact (annotateCondition_calls hP hcond).part
      (fun c hc => callsIn_ifElse.mpr ⟨hc, hthen, helse⟩)
      fun c _ hc => (annotateStmt_calls hP hthen).part
        (fun t ht => callsIn_ifElse.mpr ⟨hc, ht, helse⟩)
        fun t _ ht => (annotateStmt_calls hP helse).within fun e he =>
          callsIn_ifElse.mpr ⟨hc, ht, he⟩
  | .loop cond body span, h => by
    obtain ⟨hcond, hbody⟩ := callsIn_loop.mp h
    rw [annotateStmt]
    exact (annotateCondition_calls hP hcond).part (fun c hc => callsIn_loop.mpr ⟨hc, hbody⟩)
      fun c _ hc => (annotateStmt_calls hP hbody).within fun t ht => callsIn_loop.mpr ⟨hc, ht⟩
  | .ret value span, h => by
    rw [annotateStmt]
    exact annotateReturn_calls hP (callsIn_ret.mp h) span
  | .empty span, h => by
    rw [annotateStmt]
    exact fun _ => h

theorem annotateStmts_calls (hP : ∀ b, ctx.table.Lists b → P b) : ∀ {body : List Stmt},
    CallsIn P (Stmt.allEvaluated body) →
      (annotateStmts ctx body).Yields fun body' => CallsIn P (Stmt.allEvaluated body')
  | [], h => by
    rw [annotateStmts]
    exact fun _ => h
  | stmt :: rest, h => by
    obtain ⟨hfirst, hrest⟩ := callsIn_stmts.mp h
    rw [annotateStmts]
    exact (annotateStmt_calls hP hfirst).part (fun s hs => callsIn_stmts.mpr ⟨hs, hrest⟩)
      fun s _ hs => (annotateStmts_calls hP hrest).within fun rest h => callsIn_stmts.mpr ⟨hs, h⟩

end

theorem annotateMethod_mentioned (hP : ∀ b, ctx.table.Lists b → P b) {m : Method}
    (hm : ∀ b ∈ m.mentioned, P b) :
    (annotateMethod ctx m).Yields fun m' => ∀ b ∈ m'.mentioned, P b := by
  intro s
  unfold annotateMethod
  split
  · exact hm
  · next symbol _ =>
    split
    · exact hm
    · next scope _ =>
      cases hb : m.body with
      | none => exact hm
      | some body =>
        rw [Method.mentioned, hb, List.forall_mem_append] at hm
        have hin : ∀ b, (Context.mk ctx.table scope (some symbol) ctx.entry).table.Lists b → P b :=
          hP
        refine Visit.Yields.within (Q := fun m' : Method => ∀ b ∈ m'.mentioned, P b)
          (annotateStmts_calls hin hm.2) ?_ _
        exact fun body hbody => List.forall_mem_append.mpr ⟨hm.1, hbody⟩

theorem annotateClassWith_mentioned {head : ClassHead} {members : List Member}
    {body : Context → Visit State (List Member) Unit}
    (hm : ∀ b ∈ Member.allMentioned members, P b)
    (hbody : ∀ scope, (body { ctx with scope, method := none }).Yields fun members' =>
      ∀ b ∈ Member.allMentioned members', P b) :
    (annotateClassWith ctx head members body).Yields fun c =>
      ∀ b ∈ Member.allMentioned c.members, P b := by
  unfold annotateClassWith
  split
  · exact .done hm _
  · split
    · exact .fail hm _
    · exact (hbody _).within fun members h => h

mutual

theorem annotateMember_mentioned (ctx : Context) (hP : ∀ b, ctx.table.Lists b → P b) :
    ∀ {m : Member}, (∀ b ∈ m.mentioned, P b) →
      (annotateMember ctx m).Yields fun m' => ∀ b ∈ m'.mentioned, P b
  | .method m, h => by
    rw [Member.mentioned] at h
    rw [annotateMember]
    exact (annotateMethod_mentioned hP h).within fun m hm => by rwa [Member.mentioned]
  | .field d, _ => by
    rw [annotateMember]
    exact Visit.Yields.part_any (by simp [Member.mentioned]) fun _ _ =>
      .done (by simp [Member.mentioned]) _
  | .nested head members, h => by
    rw [Member.mentioned] at h
    rw [annotateMember]
    exact (annotateClassWith_mentioned h fun scope =>
      annotateMembers_mentioned { ctx with scope, method := none } hP h).within
        fun c hc => by rwa [Member.mentioned]

theorem annotateMembers_mentioned (ctx : Context) (hP : ∀ b, ctx.table.Lists b → P b) :
    ∀ {ms : List Member}, (∀ b ∈ Member.allMentioned ms, P b) →
      (annotateMembers ctx ms).Yields fun ms' => ∀ b ∈ Member.allMentioned ms', P b
  | [], h => by
    rw [annotateMembers]
    exact .done h _
  | m :: rest, h => by
    obtain ⟨hfirst, hrest⟩ := forall_mem_allMentioned.mp h
    rw [annotateMembers]
    exact (annotateMember_mentioned ctx hP hfirst).part
      (fun m hm => forall_mem_allMentioned.mpr ⟨hm, hrest⟩)
      fun m _ hm => (annotateMembers_mentioned ctx hP hrest).within fun rest h =>
        forall_mem_allMentioned.mpr ⟨hm, h⟩

end

/-- Only methods of the table are mentioned in a typed unit, if that was so before. -/
theorem annotateUnit_mentioned {u : CompilationUnit} {t : Table} (choice : EntryChoice)
    (hP : ∀ b, t.Lists b → P b)
    (hu : ∀ c, u.top = some c → ∀ b ∈ Member.allMentioned c.members, P b) :
    (annotateUnit u t choice).Yields fun u' =>
      ∀ c, u'.top = some c → ∀ b ∈ Member.allMentioned c.members, P b := by
  unfold annotateUnit
  cases htop : u.top with
  | none => exact .fail hu _
  | some c =>
    have hmembers := hu c htop
    refine (annotateClassWith_mentioned hmembers fun scope =>
      annotateMembers_mentioned ⟨t, scope, none, choice.resolve c⟩ hP hmembers).within ?_
    rintro c' hc' _ ⟨⟩
    exact hc'

end Typing

theorem lists_of_mentioned {u registered : CompilationUnit} {tag : Nat}
    {reports : List Diagnostic} {s : Registration.State} (hf : u.isFresh = true)
    (hr : Registration.registerUnit u (.withSystem tag) reports = ⟨registered, .ok (), s⟩) :
    ∀ c, registered.top = some c → ∀ b ∈ Member.allMentioned c.members, s.table.Lists b := by
  obtain ⟨herase, hregisters⟩ := Registration.registerUnit_registers hf hr
  have hfresh := CompilationUnit.isFresh_erase hf
  rw [← herase] at hfresh
  have hdecl := hregisters.declares
  obtain ⟨_ | c⟩ := registered
  · simp
  rintro _ ⟨⟩ b hb
  simp only [CompilationUnit.isFresh, CompilationUnit.erase, Option.map_some, Option.all_some,
    ClassDecl.erase, Bool.and_eq_true] at hfresh
  obtain ⟨owner, x, hx, hs⟩ :=
    Member.declared_of_allMentioned [c.head.name.text] hfresh.2 b hb
  obtain ⟨hbound, -⟩ := Typing.method_declared hdecl (List.mem_cons_of_mem _ hx) hs
  exact ⟨_, _, hbound⟩

end ClassLang
