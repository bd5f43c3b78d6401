import ClassLang.Proofs.Operands
import ClassLang.Proofs.Outline
import ClassLang.Typing.Unit

/-! Typing of a statement, taken apart. What stands in the statement itself is typed first, and then
the statements below it, one by one. What is proved of every statement that typing went through is
proved by induction over these steps. The variables of a field are typed much like locals, and a
class is passed over or its members are visited in its scope. -/
namespace ClassLang

namespace Stmt

def bodies : Stmt → List Stmt
  | .block body _ => body
  | .ifThen _ thenBody _ => [thenBody]
  | .ifElse _ thenBody elseBody _ => [thenBody, elseBody]
  | .loop _ body _ => [body]
  | .expr .. | .locals _ | .ret .. | .empty _ => []

def ownSlots : Stmt → List VarSlot
  | .locals d => d.slots
  | .block .. | .expr .. | .ifThen .. | .ifElse .. | .loop .. | .ret .. | .empty _ => []

theorem slots_eq (stmt : Stmt) : stmt.slots = stmt.ownSlots ++ allSlots stmt.bodies := by
  cases stmt <;> simp [slots, ownSlots, bodies, allSlots]

theorem parts_eq (stmt : Stmt) : stmt.parts = stmt :: allParts stmt.bodies := by
  cases stmt <;> simp [parts, bodies, allParts]

theorem allSlots_eq (body : List Stmt) : allSlots body = body.flatMap slots := by
  induction body with
  | nil => simp [allSlots]
  | cons stmt rest ih => simp [allSlots, ih]

theorem allParts_eq (body : List Stmt) : allParts body = body.flatMap parts := by
  induction body with
  | nil => simp [allParts]
  | cons stmt rest ih => simp [allParts, ih]

theorem bodies_erase (stmt : Stmt) : stmt.erase.bodies = eraseAll stmt.bodies := by
  cases stmt <;> simp [erase, bodies, eraseAll]

theorem sizeOf_bodies {stmt x : Stmt} (h : x ∈ stmt.bodies) : sizeOf x < sizeOf stmt := by
  cases stmt with
  | block body span =>
    have hx : sizeOf x < sizeOf body := List.sizeOf_lt_of_mem h
    simp only [block.sizeOf_spec]
    omega
  | ifThen | loop =>
    cases List.mem_singleton.mp h
    simp
    omega
  | ifElse =>
    rcases List.mem_cons.mp h with rfl | h
    · simp
      omega
    · cases List.mem_singleton.mp h
      simp
      omega
  | expr | locals | ret | empty => cases h

end Stmt

namespace Typing

theorem isFresh_init {v : Declarator} {init : Expr} (h : v.erase.isFresh = true)
    (hi : v.init = some init) : init.isFresh = true := by
  simp only [Declarator.isFresh, Declarator.erase, hi, Option.all_some, Bool.and_eq_true] at h
  exact h.2

theorem isFresh_vars {d : VarDecl} (h : d.erase.isFresh = true) :
    ∀ v ∈ d.vars, v.erase.isFresh = true := fun _ hv =>
  List.all_eq_true.mp h _ (List.mem_map_of_mem hv)

/-- Nodes that are visited one after the other, where `P` says what became of each. -/
inductive OneByOne {ν : Type} (P : ν → State → ν → State → Prop) :
    List ν → State → List ν → State → Prop
  | nil {s : State} : OneByOne P [] s [] s
  | cons {n n' : ν} {ns ns' : List ν} {s s₁ s' : State} (head : P n s n' s₁)
    (tail : OneByOne P ns s₁ ns' s') : OneByOne P (n :: ns) s (n' :: ns') s'

inductive LocalStep (ctx : Context) (type : TypeExpr) :
    Declarator → State → Declarator → State → Prop
  | bare {v : Declarator} {D : Ty} {s s' : State} (hi : v.init = none)
    (hd : declaredType ctx type v s = (D, s')) : LocalStep ctx type v s v s'
  | init {v : Declarator} {init init' : Expr} {D R : Ty} {s s₁ s₂ : State}
    (hi : v.init = some init) (hd : declaredType ctx type v s = (D, s₁))
    (hv : Annotates ctx init s₁ init' R s₂) :
    LocalStep ctx type v s { v with init := some init' } (s₂.expect D R init'.span.start)

/-- The variable of a field is typed. An initial value is refused, and typed all the same. -/
inductive FieldStep (ctx : Context) (type : TypeExpr) :
    Declarator → State → Declarator → State → Prop
  | bare {v : Declarator} {D : Ty} {s s' : State} (hi : v.init = none)
    (hd : declaredType ctx type v s = (D, s')) : FieldStep ctx type v s v s'
  | refused {v : Declarator} {init init' : Expr} {D R : Ty} {s s₁ s' : State}
    (hi : v.init = some init) (hd : declaredType ctx type v s = (D, s₁))
    (hv : Annotates ctx init (s₁.report (.unsupported "field initializers") init.span.start)
      init' R s') : FieldStep ctx type v s { v with init := some init' } s'

inductive CondStep (ctx : Context) : Expr → State → Expr → State → Prop
  | fits {cond cond' : Expr} {T : Ty} {s s' : State} (hv : Annotates ctx cond s cond' T s')
    (hT : (T.isError || T.same .boolean) = true) : CondStep ctx cond s cond' s'
  | refused {cond cond' : Expr} {T : Ty} {s s' : State} (hv : Annotates ctx cond s cond' T s')
    (hT : ¬ (T.isError || T.same .boolean) = true) :
    CondStep ctx cond s cond' (s'.report (.notBoolean T.text) cond'.span.start)

inductive ReturnStep (ctx : Context) (span : Span) :
    Option Expr → State → Option Expr → State → Prop
  | bare {m : Symbol} {Ts : List Ty} {D : Ty} {s s₁ : State} (hm : ctx.method = some m)
    (hd : s.signature ctx.table m = (Ts, D, s₁)) :
    ReturnStep ctx span none s none (s₁.expect D .void span.start)
  | value {m : Symbol} {Ts : List Ty} {D T : Ty} {value value' : Expr} {s s₁ s₂ : State}
    (hm : ctx.method = some m) (hd : s.signature ctx.table m = (Ts, D, s₁))
    (hv : Annotates ctx value s₁ value' T s₂) :
    ReturnStep ctx span (some value) s (some value') (s₂.expect D T span.start)

/-- What stands in a statement itself is typed, and then it is built from what the statements below
it become. -/
inductive StmtStep (ctx : Context) : Stmt → State → State → List Stmt → Stmt → Prop
  | block {body body' : List Stmt} {span : Span} {s : State} :
    StmtStep ctx (.block body span) s s body' (.block body' span)
  | expr {value value' : Expr} {span : Span} {T : Ty} {s s' : State}
    (hv : Annotates ctx value s value' T s') :
    StmtStep ctx (.expr value span none) s s' [] (.expr value' span (some T))
  | locals {d : VarDecl} {vars : List Declarator} {s s' : State}
    (hv : OneByOne (LocalStep ctx d.type) d.vars s vars s') :
    StmtStep ctx (.locals d) s s' [] (.locals { d with vars })
  | ifThen {cond cond' : Expr} {thenBody then' : Stmt} {span : Span} {s s' : State}
    (hc : CondStep ctx cond s cond' s') :
    StmtStep ctx (.ifThen cond thenBody span) s s' [then'] (.ifThen cond' then' span)
  | ifElse {cond cond' : Expr} {thenBody then' elseBody else' : Stmt} {span : Span} {s s' : State}
    (hc : CondStep ctx cond s cond' s') :
    StmtStep ctx (.ifElse cond thenBody elseBody span) s s' [then', else']
      (.ifElse cond' then' else' span)
  | loop {cond cond' : Expr} {body body' : Stmt} {span : Span} {s s' : State}
    (hc : CondStep ctx cond s cond' s') :
    StmtStep ctx (.loop cond body span) s s' [body'] (.loop cond' body' span)
  | ret {value value' : Option Expr} {span : Span} {s s' : State}
    (hv : ReturnStep ctx span value s value' s') :
    StmtStep ctx (.ret value span) s s' [] (.ret value' span)
  | empty {span : Span} {s : State} : StmtStep ctx (.empty span) s s [] (.empty span)

inductive ClassStep (ctx : Context) (head : ClassHead) (members : List Member)
    (body : Context → Visit State (List Member) Unit) : State → ClassDecl → State → Prop
  | passed {s : State} (hb : head.symbol = none) :
    ClassStep ctx head members body s ⟨head, members⟩ s
  | entered {b : Symbol} {k : ScopeId} {members' : List Member} {s s' : State}
    (hb : head.symbol = some b) (hk : b.scope = some k)
    (hm : body { ctx with scope := k, method := none } s = ⟨members', .ok (), s'⟩) :
    ClassStep ctx head members body s ⟨head, members'⟩ s'

structure Passes (ctx : Context) (stmt : Stmt) (s : State) (stmt' : Stmt) (s' : State) :
    Prop where
  fresh : stmt.erase.isFresh = true
  run : annotateStmt ctx stmt s = ⟨stmt', .ok (), s'⟩

section

variable {ν : Type} {P Q : ν → State → ν → State → Prop} {ns ns' : List ν} {ctx : Context}
  {s s₁ s' : State}

theorem OneByOne.imp (h : OneByOne P ns s ns' s')
    (hPQ : ∀ n ∈ ns, ∀ {s n' s'}, P n s n' s' → Q n s n' s') : OneByOne Q ns s ns' s' := by
  induction h with
  | nil => exact .nil
  | cons head _ ih =>
    obtain ⟨hhead, htail⟩ := List.forall_mem_cons.mp hPQ
    exact .cons (hhead head) (ih htail)

theorem oneByOne_of_each {visit : ν → Visit State ν Unit} {ns : List ν} : ∀ {ns' : List ν}
    {s s' : State}, Visit.each visit ns s = ⟨ns', .ok (), s'⟩ →
      OneByOne (fun n s n' s' => visit n s = ⟨n', .ok (), s'⟩) ns s ns' s' := by
  induction ns with
  | nil =>
    intro ns' s s' h
    cases h
    exact .nil
  | cons n ns ih =>
    intro ns' s s' h
    obtain ⟨n', _, s₁, h₁, h⟩ := Visit.part_ok_iff.mp h
    obtain ⟨rest, h₂, rfl⟩ := Visit.within_ok_iff.mp h
    exact .cons h₁ (ih h₂)

theorem localStep_of_annotateLocal {type : TypeExpr} {v v' : Declarator}
    (hf : v.erase.isFresh = true) (h : annotateLocal ctx type v s = ⟨v', .ok (), s'⟩) :
    LocalStep ctx type v s v' s' := by
  unfold annotateLocal at h
  rcases hd : declaredType ctx type v s with ⟨D, s₁⟩
  simp only [hd] at h
  cases hi : v.init with
  | none =>
    rw [hi] at h
    cases h
    exact .bare hi hd
  | some init =>
    rw [hi] at h
    obtain ⟨init', R, s₂, h₁, h₂⟩ := Visit.part_ok_iff.mp h
    cases h₂
    exact .init hi hd ⟨isFresh_init hf hi, h₁⟩

theorem fieldStep_of_annotateFieldVar {type : TypeExpr} {v v' : Declarator}
    (hf : v.erase.isFresh = true) (h : annotateFieldVar ctx type v s = ⟨v', .ok (), s'⟩) :
    FieldStep ctx type v s v' s' := by
  unfold annotateFieldVar at h
  rcases hd : declaredType ctx type v s with ⟨D, s₁⟩
  simp only [hd] at h
  cases hi : v.init with
  | none =>
    rw [hi] at h
    cases h
    exact .bare hi hd
  | some init =>
    rw [hi] at h
    obtain ⟨init', R, s₂, h₁, h₂⟩ := Visit.part_ok_iff.mp h
    cases h₂
    exact .refused hi hd ⟨isFresh_init hf hi, h₁⟩

theorem oneByOne_of_annotateField {d d' : VarDecl} (hf : d.erase.isFresh = true)
    (h : annotateField ctx d s = ⟨d', .ok (), s'⟩) :
    ∃ vars, d' = { d with vars } ∧ OneByOne (FieldStep ctx d.type) d.vars s vars s' := by
  obtain ⟨vars, hvars, rfl⟩ := Visit.within_ok_iff.mp h
  refine ⟨vars, rfl, (oneByOne_of_each hvars).imp fun v hv {_ _ _} hrun => ?_⟩
  exact fieldStep_of_annotateFieldVar (isFresh_vars hf v hv) hrun

theorem classStep_of_annotateClassWith {head : ClassHead} {members : List Member}
    {body : Context → Visit State (List Member) Unit} {c : ClassDecl}
    (h : annotateClassWith ctx head members body s = ⟨c, .ok (), s'⟩) :
    ClassStep ctx head members body s c s' := by
  unfold annotateClassWith at h
  cases hb : head.symbol with
  | none =>
    simp only [hb] at h
    cases h
    exact .passed hb
  | some b =>
    cases hk : b.scope with
    | none =>
      simp only [hb, hk] at h
      cases h
    | some k =>
      simp only [hb, hk] at h
      obtain ⟨members', hm, rfl⟩ := Visit.within_ok_iff.mp h
      exact .entered hb hk hm

theorem condStep_of_annotateCondition {cond cond' : Expr} (hf : cond.isFresh = true)
    (h : annotateCondition ctx cond s = ⟨cond', .ok (), s'⟩) : CondStep ctx cond s cond' s' := by
  obtain ⟨c, T, s₁, h₁, h₂⟩ := Visit.part_ok_iff.mp h
  by_cases hT : (T.isError || T.same .boolean) = true
  · rw [if_pos hT] at h₂
    cases h₂
    exact .fits ⟨hf, h₁⟩ hT
  · rw [if_neg hT] at h₂
    cases h₂
    exact .refused ⟨hf, h₁⟩ hT

theorem returnStep_of_annotateReturn {value : Option Expr} {span : Span} {stmt : Stmt}
    (hf : value.all Expr.isFresh = true)
    (h : annotateReturn ctx value span s = ⟨stmt, .ok (), s'⟩) :
    ∃ value', stmt = .ret value' span ∧ ReturnStep ctx span value s value' s' := by
  unfold annotateReturn at h
  split at h
  · cases h
  · next m hm =>
    rcases hd : s.signature ctx.table m with ⟨Ts, D, s₁⟩
    simp only [hd] at h
    obtain ⟨value', R, s₂, h₁, h₂⟩ := Visit.part_ok_iff.mp h
    cases h₂
    refine ⟨value', rfl, ?_⟩
    cases value with
    | none =>
      cases h₁
      exact .bare hm hd
    | some e =>
      obtain ⟨e', T, s₃, h₃, h₄⟩ := Visit.part_ok_iff.mp h₁
      cases h₄
      exact .value hm hd ⟨hf, h₃⟩

theorem oneByOne_of_annotateStmts {body : List Stmt} : ∀ {body' : List Stmt} {s s' : State},
    Stmt.allFresh (Stmt.eraseAll body) = true →
      annotateStmts ctx body s = ⟨body', .ok (), s'⟩ → OneByOne (Passes ctx) body s body' s' := by
  induction body with
  | nil =>
    intro body' s s' _ h
    rw [annotateStmts] at h
    cases h
    exact .nil
  | cons stmt rest ih =>
    intro body' s s' hf h
    rw [annotateStmts] at h
    rw [Stmt.eraseAll, Stmt.allFresh, Bool.and_eq_true] at hf
    obtain ⟨stmt', _, s₁, h₁, h⟩ := Visit.part_ok_iff.mp h
    obtain ⟨rest', h₂, rfl⟩ := Visit.within_ok_iff.mp h
    exact .cons ⟨hf.1, h₁⟩ (ih hf.2 h₂)

/-- What typing does with a statement: what stands in it, and then the statements below. -/
theorem Passes.steps {stmt stmt' : Stmt} (h : Passes ctx stmt s stmt' s') :
    ∃ s₁ bodies, StmtStep ctx stmt s s₁ bodies stmt' ∧
      OneByOne (Passes ctx) stmt.bodies s₁ bodies s' := by
  obtain ⟨hf, h⟩ := h
  cases stmt with
  | block body span =>
    rw [annotateStmt] at h
    rw [Stmt.erase, Stmt.isFresh] at hf
    obtain ⟨body', h₁, rfl⟩ := Visit.within_ok_iff.mp h
    exact ⟨_, _, .block, oneByOne_of_annotateStmts hf h₁⟩
  | expr value span type =>
    rw [annotateStmt] at h
    rw [Stmt.erase, Stmt.isFresh, Bool.and_eq_true, Option.isNone_iff_eq_none] at hf
    · obtain ⟨value', T, s₁, h₁, h₂⟩ := Visit.part_ok_iff.mp h
      obtain ⟨hf, rfl⟩ := hf
      cases h₂
      exact ⟨_, _, .expr ⟨hf, h₁⟩, .nil⟩
    all_goals simp
  | locals d =>
    rw [annotateStmt] at h
    rw [Stmt.erase, Stmt.isFresh] at hf
    obtain ⟨vars, h₁, rfl⟩ := Visit.within_ok_iff.mp h
    refine ⟨_, _, .locals ((oneByOne_of_each h₁).imp fun v hv {_ _ _} hrun => ?_), .nil⟩
    exact localStep_of_annotateLocal (isFresh_vars hf v hv) hrun
  | ifThen cond thenBody span =>
    rw [annotateStmt] at h
    rw [Stmt.erase, Stmt.isFresh, Bool.and_eq_true] at hf
    obtain ⟨cond', _, s₁, h₁, h⟩ := Visit.part_ok_iff.mp h
    obtain ⟨then', h₂, rfl⟩ := Visit.within_ok_iff.mp h
    exact ⟨_, _, .ifThen (condStep_of_annotateCondition hf.1 h₁), .cons ⟨hf.2, h₂⟩ .nil⟩
  | ifElse cond thenBody elseBody span =>
    rw [annotateStmt] at h
    rw [Stmt.erase, Stmt.isFresh, Bool.and_eq_true, Bool.and_eq_true] at hf
    obtain ⟨cond', _, s₁, h₁, h⟩ := Visit.part_ok_iff.mp h
    obtain ⟨then', _, s₂, h₂, h⟩ := Visit.part_ok_iff.mp h
    obtain ⟨else', h₃, rfl⟩ := Visit.within_ok_iff.mp h
    exact ⟨_, _, .ifElse (condStep_of_annotateCondition hf.1.1 h₁),
      .cons ⟨hf.1.2, h₂⟩ (.cons ⟨hf.2, h₃⟩ .nil)⟩
  | loop cond body span =>
    rw [annotateStmt] at h
    rw [Stmt.erase, Stmt.isFresh, Bool.and_eq_true] at hf
    obtain ⟨cond', _, s₁, h₁, h⟩ := Visit.part_ok_iff.mp h
    obtain ⟨body', h₂, rfl⟩ := Visit.within_ok_iff.mp h
    exact ⟨_, _, .loop (condStep_of_annotateCondition hf.1 h₁), .cons ⟨hf.2, h₂⟩ .nil⟩
  | ret value span =>
    rw [annotateStmt] at h
    rw [Stmt.erase, Stmt.isFresh] at hf
    · obtain ⟨value', rfl, hstep⟩ := returnStep_of_annotateReturn hf h
      exact ⟨_, _, .ret hstep, .nil⟩
    all_goals simp
  | empty span =>
    rw [annotateStmt] at h
    cases h
    exact ⟨_, _, .empty, .nil⟩

end

/-- Induction over the statements that typing goes through: what holds of the statements below holds
of the statement around them. -/
theorem Passes.induct {ctx : Context} {P : Stmt → State → Stmt → State → Prop}
    (node : ∀ {stmt stmt' : Stmt} {bodies : List Stmt} {s s₁ s' : State},
      Passes ctx stmt s stmt' s' → StmtStep ctx stmt s s₁ bodies stmt' →
        OneByOne (fun x s x' s' => Passes ctx x s x' s' ∧ P x s x' s') stmt.bodies s₁ bodies s' →
          P stmt s stmt' s')
    {stmt stmt' : Stmt} {s s' : State} (h : Passes ctx stmt s stmt' s') : P stmt s stmt' s' := by
  obtain ⟨s₁, bodies, hstep, hbodies⟩ := h.steps
  exact node h hstep (hbodies.imp fun x hx {_ _ _} hrun => ⟨hrun, hrun.induct node⟩)
termination_by sizeOf stmt
decreasing_by exact Stmt.sizeOf_bodies hx

theorem StmtStep.bodies_eq {ctx : Context} {stmt stmt' : Stmt} {bodies : List Stmt} {s s' : State}
    (h : StmtStep ctx stmt s s' bodies stmt') : stmt'.bodies = bodies := by
  cases h <;> rfl

theorem LocalStep.slot_eq {ctx : Context} {type : TypeExpr} {v v' : Declarator} {s s' : State}
    (h : LocalStep ctx type v s v' s') : v'.name = v.name ∧ v'.symbol = v.symbol := by
  cases h <;> exact ⟨rfl, rfl⟩

theorem FieldStep.slot_eq {ctx : Context} {type : TypeExpr} {v v' : Declarator} {s s' : State}
    (h : FieldStep ctx type v s v' s') : v'.name = v.name ∧ v'.symbol = v.symbol := by
  cases h <;> exact ⟨rfl, rfl⟩

theorem OneByOne.slots_eq {vars vars' : List Declarator} {s s' : State}
    (h : OneByOne (fun v _ v' _ => v'.name = v.name ∧ v'.symbol = v.symbol) vars s vars' s')
    (type : TypeExpr) : (vars'.map fun v => VarSlot.mk v.name.text type v.symbol) =
      vars.map fun v => ⟨v.name.text, type, v.symbol⟩ := by
  induction h with
  | nil => rfl
  | cons head _ ih => rw [List.map_cons, List.map_cons, ih, head.1, head.2]

theorem StmtStep.ownSlots_eq {ctx : Context} {stmt stmt' : Stmt} {bodies : List Stmt} {s s' : State}
    (h : StmtStep ctx stmt s s' bodies stmt') : stmt'.ownSlots = stmt.ownSlots := by
  cases h with
  | locals hv => exact (hv.imp fun _ _ {_ _ _} hx => hx.slot_eq).slots_eq _
  | _ => rfl

theorem expect_extends (s : State) (expected received : Ty) (position : Position) :
    Extends s (s.expect expected received position) := by
  unfold State.expect
  split
  · exact .refl s
  · exact .also s [_]

theorem declaredType_found {ctx : Context} {type : TypeExpr} {v : Declarator} {D : Ty}
    {s s' : State} (h : declaredType ctx type v s = (D, s')) :
    Extends s s' ∧ ∀ b, v.symbol = some b → s'.resolutions.type? b = some D := by
  unfold declaredType at h
  split at h
  · next b hb =>
    obtain ⟨he, hD⟩ := varType_found h
    refine ⟨he, fun b' hb' => ?_⟩
    obtain rfl : b = b' := Option.some.inj (hb.symm.trans hb')
    exact hD
  · next hb =>
    rw [resolve_eq] at h
    cases h
    exact ⟨.also s _, by simp [hb]⟩

theorem LocalStep.extends_ {ctx : Context} {type : TypeExpr} {v v' : Declarator} {s s' : State}
    (h : LocalStep ctx type v s v' s') : Extends s s' := by
  cases h with
  | bare _ hd => exact (declaredType_found hd).1
  | init _ hd hv =>
    exact ((declaredType_found hd).1.trans hv.extends_).trans (expect_extends _ _ _ _)

theorem FieldStep.extends_ {ctx : Context} {type : TypeExpr} {v v' : Declarator} {s s' : State}
    (h : FieldStep ctx type v s v' s') : Extends s s' := by
  cases h with
  | bare _ hd => exact (declaredType_found hd).1
  | refused _ hd hv => exact ((declaredType_found hd).1.trans (.also _ [_])).trans hv.extends_

theorem CondStep.extends_ {ctx : Context} {cond cond' : Expr} {s s' : State}
    (h : CondStep ctx cond s cond' s') : Extends s s' := by
  cases h with
  | fits hv => exact hv.extends_
  | refused hv => exact hv.extends_.trans (.also _ [_])

theorem ReturnStep.extends_ {ctx : Context} {span : Span} {value value' : Option Expr}
    {s s' : State} (h : ReturnStep ctx span value s value' s') : Extends s s' := by
  cases h with
  | bare _ hd => exact (signature_found hd).1.trans (expect_extends _ _ _ _)
  | value _ hd hv =>
    exact ((signature_found hd).1.trans hv.extends_).trans (expect_extends _ _ _ _)

theorem OneByOne.extends_ {ν : Type} {ns ns' : List ν} {s s' : State}
    (h : OneByOne (fun _ s _ s' => Extends s s') ns s ns' s') : Extends s s' := by
  induction h with
  | nil => exact .refl _
  | cons head _ ih => exact head.trans ih

theorem StmtStep.extends_ {ctx : Context} {stmt stmt' : Stmt} {bodies : List Stmt} {s s' : State}
    (h : StmtStep ctx stmt s s' bodies stmt') : Extends s s' := by
  cases h with
  | block | empty => exact .refl s
  | expr hv => exact hv.extends_
  | locals hv => exact (hv.imp fun _ _ {_ _ _} hx => hx.extends_).extends_
  | ifThen hc | ifElse hc | loop hc => exact hc.extends_
  | ret hv => exact hv.extends_

theorem Passes.extends_ {ctx : Context} {stmt stmt' : Stmt} {s s' : State}
    (h : Passes ctx stmt s stmt' s') : Extends s s' := by
  refine Passes.induct (P := fun _ s _ s' => Extends s s') ?_ h
  intro stmt stmt' bodies s s₁ s' _ hstep hbodies
  exact hstep.extends_.trans (hbodies.imp fun _ _ {_ _ _} hx => hx.2).extends_

theorem FieldStep.quiet {ctx : Context} {type : TypeExpr} {v v' : Declarator} {s s' : State}
    (h : FieldStep ctx type v s v' s') (hq : s'.diagnostics = []) : v' = v ∧ v.init = none := by
  cases h with
  | bare hi => exact ⟨rfl, hi⟩
  | refused _ _ hv => exact absurd (hv.extends_.quiet hq) (by simp [State.report, State.push])

theorem OneByOne.fieldsQuiet {ctx : Context} {type : TypeExpr} {vars vars' : List Declarator}
    {s s' : State} (h : OneByOne (FieldStep ctx type) vars s vars' s') (hq : s'.diagnostics = []) :
    vars' = vars ∧ ∀ v ∈ vars, v.init = none := by
  induction h with
  | nil => simp
  | cons head tail ih =>
    have hext := (tail.imp fun _ _ {_ _ _} hx => hx.extends_).extends_
    obtain ⟨rfl, hinit⟩ := head.quiet (hext.quiet hq)
    obtain ⟨rfl, hinits⟩ := ih hq
    exact ⟨rfl, List.forall_mem_cons.mpr ⟨hinit, hinits⟩⟩

end Typing

end ClassLang
