import ClassLang.Proofs.Order.Typed

/-! Typing statements and declarations in twin tables. What passes in one passes in the other, so a
unit is typed without a report if the declarations of a twin unit are. -/
namespace ClassLang

open Table

namespace Typing

def Slotted (ctx : Context) (slots : List VarSlot) : Prop :=
  ∀ v ∈ slots, ∃ b, v.symbol = some b ∧ ctx.table.Bound b ∧ b.declaredIn = ctx.scope ∧
    b.name = v.name ∧ ∃ index, b.details = .var v.type (.slot index)

theorem Slotted.localsPlaced {ctx : Context} {slots : List VarSlot} (h : Slotted ctx slots)
    (s : State) : LocalsPlaced ctx s slots := by
  constructor
  · intro v hv b hb
    obtain ⟨c, hc, hbound, hin, -, hd⟩ := h v hv
    obtain rfl := Option.some.inj (hb.symm.trans hc)
    exact ⟨hbound, hin, hd⟩
  · intro _ v hv hnone
    obtain ⟨c, hc, -⟩ := h v hv
    rw [hnone] at hc
    cases hc

theorem slotted_append {ctx : Context} {a b : List VarSlot} :
    Slotted ctx (a ++ b) ↔ Slotted ctx a ∧ Slotted ctx b := List.forall_mem_append

/-- Variables of one name in twin bodies have twin symbols. -/
theorem Slotted.twin {ctx ctx' : Context} (h : ctx.Mirrors ctx') {slots slots' : List VarSlot}
    (hl : Slotted ctx slots) (hl' : Slotted ctx' slots') {v v' : VarSlot} (hv : v ∈ slots)
    (hv' : v' ∈ slots') (hname : v'.name = v.name) :
    ∃ a b, v.symbol = some a ∧ v'.symbol = some b ∧ a.kind = .var ∧ ¬ IsParam a ∧
      ctx'.table.Reached ctx'.scope b ∧ Twins ctx.table ctx'.table a b := by
  obtain ⟨a, ha, hbound, hin, hn, index, hd⟩ := hl v hv
  obtain ⟨b, hb, hbound', hin', hn', index', hd'⟩ := hl' v' hv'
  obtain ⟨_, _, _, hm⟩ := h.tables
  have hmem : a ∈ ctx.table.members ctx.scope v.name := by
    rw [← hin, ← hn]
    exact hbound
  obtain ⟨c, hc, hac⟩ := (hm.members h.scopes v.name).left a hmem
  obtain ⟨hcn, hck⟩ := h.right_sound.home _ _ c hc
  have hbc : b = c := by
    refine h.right_sound.alone b c hbound' hac.right (hin'.trans hck.symm) ?_
      (by simp [Symbol.isMethod, Symbol.kind, hd'])
    rw [hn', hname, hcn]
  subst hbc
  exact ⟨a, b, ha, hb, by simp [Symbol.kind, hd], by simp [IsParam, hd],
    ⟨hbound', Or.inl hin'⟩, hac⟩

theorem expect_eq {s : State} {expected received : Ty} {position : Position}
    (h : received.same expected = true) : s.expect expected received position = s := by
  simp [State.expect, Ty.convertsTo, h]

theorem Yields.expect {ν : Type} {ctx : Context} {node : ν} {expected received : Ty}
    {position : Position} (h : received.same expected = true) :
    Yields ctx (fun s => ⟨node, .ok (), s.expect expected received position⟩) fun _ => True := by
  intro r hr
  refine ⟨node, (), r, ?_, trivial, hr⟩
  dsimp only
  rw [expect_eq h]

theorem signature_yields {ctx ctx' : Context} (h : ctx.Mirrors ctx') {a b : Symbol}
    (hab : Twins ctx.table ctx'.table a b) (hk : a.isMethod = true) {s : State}
    (hs : Faithful ctx.table s) {T : Ty} (hT : s.resolutions.type? a = some T) {r : State}
    (hr : Good ctx' r) :
    ∃ Us U r', r.signature ctx'.table b = (Us, U, r') ∧ TwinTypes ctx.table ctx'.table T U ∧
      Good ctx' r' := by
  rcases hv : r.signature ctx'.table b with ⟨Us, U, r'⟩
  have hkb : b.isMethod = true := isMethod_eq_of_details hab.details ▸ hk
  obtain ⟨hg, -, hU⟩ := signature_grows h.right_sound hab.right hkb hv
  have hq := signature_clean h.right_clean hab.right (s := r)
  rw [hv] at hq
  have hgood := hr.grow hg hq
  obtain ⟨_, _, _, hm⟩ := h.tables
  exact ⟨Us, U, r', rfl, type_twin hm h.clean hs hgood.faithful hab hT hU, hgood⟩

theorem Yields.each {ν : Type} {ctx : Context} {visit : ν → Visit State ν Unit} {ns : List ν}
    (h : ∀ n ∈ ns, Yields ctx (visit n) fun _ => True) :
    Yields ctx (Visit.each visit ns) fun _ => True := by
  induction ns with
  | nil => exact .done _ trivial
  | cons n ns ih =>
    rw [List.forall_mem_cons] at h
    exact h.1.part fun _ _ _ => (ih h.2).within

section

variable {ctx ctx' : Context} {s s' : State}

theorem declaredType_yields (h : ctx.Mirrors ctx') {type type' : TypeExpr} {v v' : Declarator}
    (hl : Slotted ctx [⟨v.name.text, type, v.symbol⟩])
    (hl' : Slotted ctx' [⟨v'.name.text, type', v'.symbol⟩]) (hname : v'.name = v.name)
    (hs : Faithful ctx.table s) {D : Ty} (hd : declaredType ctx type v s = (D, s')) {r : State}
    (hr : Good ctx' r) :
    ∃ D' r', declaredType ctx' type' v' r = (D', r') ∧ TwinTypes ctx.table ctx'.table D D' ∧
      Good ctx' r' := by
  obtain ⟨a, b, ha, hb, hk, hp, hreach, hab⟩ := hl.twin h hl' List.mem_cons_self
    List.mem_cons_self (congrArg Name.text hname)
  simp only [declaredType, show v.symbol = some a from ha] at hd
  simp only [declaredType, show v'.symbol = some b from hb]
  obtain ⟨hg, hD⟩ := varType_grows h.left_sound hab.left hk (fun hpar => absurd hpar hp) hd
  exact varType_yields h hab hreach hk (hg.faithful hs) hD hr

theorem LocalStep.yields (h : ctx.Mirrors ctx') {type type' : TypeExpr} {v v' w : Declarator}
    (hstep : LocalStep ctx type v s w s') (he : v'.erase = v.erase)
    (hl : Slotted ctx [⟨v.name.text, type, v.symbol⟩])
    (hl' : Slotted ctx' [⟨v'.name.text, type', v'.symbol⟩]) (hs : Faithful ctx.table s)
    (hr : Ready ctx s) (hq : Quiet ctx.table s') :
    Yields ctx' (annotateLocal ctx' type' v') fun _ => True := by
  simp only [Declarator.erase, Declarator.mk.injEq] at he
  obtain ⟨hname, hinit, -⟩ := he
  intro r hgood
  unfold annotateLocal
  cases hstep with
  | bare hi hd =>
    obtain ⟨D', r', hd', -, hgood'⟩ := declaredType_yields h hl hl' hname hs hd hgood
    exact ⟨v', (), r', by simp only [hd', hinit, hi], trivial, hgood'⟩
  | @init init init' D R _ s₁ s₂ hi hd hv =>
    obtain ⟨D', r', hd', hDD, hgood'⟩ := declaredType_yields h hl hl' hname hs hd hgood
    obtain ⟨a, ha, hbound, -⟩ := hl _ List.mem_cons_self
    obtain ⟨hg, hD⟩ := declaredType_grows h.left_sound (hl.localsPlaced s).isVar hd
    obtain ⟨hge, hsame⟩ := expect_grows ctx.table s₂ D R init'.span.start
    have hq₂ := hq.before hge.extends_
    have hs₁ := hg.faithful hs
    have hr₁ := hr.mono hg.extends_
    have hfind := annotateExpr_finds h.left_sound hv.fresh hr₁ hv.run
    have hDne := hq₂.types hbound (hfind.grows.extends_.types (hD a ha))
    have hRD := hsame hq.diagnostics hDne (hfind.typed hs₁ hq₂).2
    simp only [hd', hinit, hi]
    refine (annotateExpr_yields h hv.fresh hs₁ hr₁ hv.run hq₂).part
      (fun node R' hR' => ?_) r' hgood'
    exact .expect ((hR'.same_eq h.left_sound h.right_sound hDD).trans hRD)

theorem OneByOne.localsYield (h : ctx.Mirrors ctx') {type type' : TypeExpr}
    {vars ws : List Declarator} (hsteps : OneByOne (LocalStep ctx type) vars s ws s') :
    ∀ {vars' : List Declarator}, vars'.map Declarator.erase = vars.map Declarator.erase →
      Slotted ctx (vars.map fun v => ⟨v.name.text, type, v.symbol⟩) →
      Slotted ctx' (vars'.map fun v => ⟨v.name.text, type', v.symbol⟩) →
      Faithful ctx.table s → Ready ctx s → Quiet ctx.table s' →
      ∀ v' ∈ vars', Yields ctx' (annotateLocal ctx' type' v') fun _ => True := by
  induction hsteps with
  | nil =>
    intro vars' he _ _ _ _ _
    rw [List.map_nil, List.map_eq_nil_iff] at he
    simp [he]
  | cons head tail ih =>
    intro vars' he hl hl' hs hr hq
    cases vars' with
    | nil => cases he
    | cons v' vars' =>
      rw [List.map_cons, List.map_cons, List.cons.injEq] at he
      rw [List.map_cons] at hl hl'
      obtain ⟨hl₀, hl₁⟩ := (slotted_append (a := [_])).mp hl
      obtain ⟨hl₀', hl₁'⟩ := (slotted_append (a := [_])).mp hl'
      obtain ⟨hg, -⟩ := head.checks h.left_sound hr (hl₀.localsPlaced _)
      have hext := (tail.imp fun _ _ {_ _ _} hx => hx.extends_).extends_
      refine List.forall_mem_cons.mpr ⟨?_, ?_⟩
      · exact head.yields h he.1 hl₀ hl₀' hs hr (hq.before hext)
      · exact ih he.2 hl₁ hl₁' (hg.faithful hs) (hr.mono hg.extends_) hq

theorem CondStep.yields (h : ctx.Mirrors ctx') {cond cond' : Expr}
    (hstep : CondStep ctx cond s cond' s') (hs : Faithful ctx.table s) (hr : Ready ctx s)
    (hq : Quiet ctx.table s') : Yields ctx' (annotateCondition ctx' cond) fun _ => True := by
  cases hstep with
  | fits hv hT =>
    refine (annotateExpr_yields h hv.fresh hs hr hv.run hq).part fun node T' hT' => ?_
    have hfind := annotateExpr_finds h.left_sound hv.fresh hr hv.run
    have hbool : TwinTypes ctx.table ctx'.table .boolean .boolean := .plain (by simp [Ty.form])
    have hok : (T'.isError || T'.same .boolean) = true := by
      rw [isError_eq_false (hfind.typed hs hq).2, Bool.false_or] at hT
      rw [hT'.same_eq h.left_sound h.right_sound hbool, hT, Bool.or_true]
    intro r hr
    exact ⟨node, (), r, by simp only [if_pos hok], trivial, hr⟩
  | refused => exact absurd hq not_quiet_push

theorem ReturnStep.yields (h : ctx.Mirrors ctx') {value value' : Option Expr} {span : Span}
    (hstep : ReturnStep ctx span value s value' s') (hs : Faithful ctx.table s)
    (hr : Ready ctx s) (hq : Quiet ctx.table s') :
    Yields ctx' (annotateReturn ctx' value span) fun _ => True := by
  obtain ⟨m, n, hm, hn, hk, hmn⟩ : ∃ m n, ctx.method = some m ∧ ctx'.method = some n ∧
      m.isMethod = true ∧ Twins ctx.table ctx'.table m n := by
    refine h.method.resolve_left fun hnone => ?_
    cases hstep <;> simp_all
  intro r hgood
  unfold annotateReturn
  simp only [hn]
  cases hstep with
  | @bare m' Ts D _ s₁ hm' hd =>
    obtain rfl : m = m' := Option.some.inj (hm.symm.trans hm')
    obtain ⟨hg, -, hD⟩ := signature_grows h.left_sound hmn.left hk hd
    obtain ⟨hge, hsame⟩ := expect_grows ctx.table s₁ D .void span.start
    have hRD := hsame hq.diagnostics ((hq.before hge.extends_).types hmn.left hD) (by simp)
    obtain ⟨Us, D', r', hsig, hDD, hgood'⟩ :=
      signature_yields h hmn hk (hg.faithful hs) hD hgood
    simp only [hsig]
    have hvoid : TwinTypes ctx.table ctx'.table .void .void := .plain (by simp [Ty.form])
    refine Yields.part (P := (· = none)) (.done _ rfl) (fun node answer ha => ?_) r' hgood'
    subst ha
    exact .expect ((hvoid.same_eq h.left_sound h.right_sound hDD).trans hRD)
  | @value m' Ts D T value value' _ s₁ s₂ hm' hd hv =>
    obtain rfl : m = m' := Option.some.inj (hm.symm.trans hm')
    obtain ⟨hg, -, hD⟩ := signature_grows h.left_sound hmn.left hk hd
    obtain ⟨hge, hsame⟩ := expect_grows ctx.table s₂ D T span.start
    have hs₁ := hg.faithful hs
    have hr₁ := hr.mono hg.extends_
    have hq₂ := hq.before hge.extends_
    have hfind := annotateExpr_finds h.left_sound hv.fresh hr₁ hv.run
    have hRD := hsame hq.diagnostics (hq₂.types hmn.left (hfind.grows.extends_.types hD))
      (hfind.typed hs₁ hq₂).2
    obtain ⟨Us, D', r', hsig, hDD, hgood'⟩ := signature_yields h hmn hk hs₁ hD hgood
    simp only [hsig]
    have hvalue : Yields ctx' (Visit.optional (annotateExpr ctx') (some value))
        fun T' => ∃ U, T' = some U ∧ TwinTypes ctx.table ctx'.table T U :=
      (annotateExpr_yields h hv.fresh hs₁ hr₁ hv.run hq₂).part fun _ U hU => .done _ ⟨U, rfl, hU⟩
    refine hvalue.part (fun node answer ha => ?_) r' hgood'
    obtain ⟨U, rfl, hU⟩ := ha
    exact .expect ((hU.same_eq h.left_sound h.right_sound hDD).trans hRD)

theorem annotateStmts_yields_each {body : List Stmt}
    (h : ∀ x ∈ body, Yields ctx (annotateStmt ctx x) fun _ => True) :
    Yields ctx (annotateStmts ctx body) fun _ => True := by
  induction body with
  | nil =>
    rw [annotateStmts]
    exact .done _ trivial
  | cons stmt rest ih =>
    rw [List.forall_mem_cons] at h
    rw [annotateStmts]
    exact h.1.part fun _ _ _ => (ih h.2).within

/-- A statement passes if what stands in it passed in its twin, and the statements below it pass. -/
theorem StmtStep.yields (h : ctx.Mirrors ctx') {stmt stmt' twin : Stmt} {bodies : List Stmt}
    (hstep : StmtStep ctx stmt s s' bodies stmt') (he : twin.erase = stmt.erase)
    (hl : Slotted ctx stmt.ownSlots) (hl' : Slotted ctx' twin.ownSlots)
    (hs : Faithful ctx.table s) (hr : Ready ctx s) (hq : Quiet ctx.table s')
    (hb : ∀ x ∈ twin.bodies, Yields ctx' (annotateStmt ctx' x) fun _ => True) :
    Yields ctx' (annotateStmt ctx' twin) fun _ => True := by
  cases hstep with
  | block =>
    cases twin <;> simp only [Stmt.erase, reduceCtorEq] at he
    rw [annotateStmt]
    exact (annotateStmts_yields_each hb).within
  | expr hv =>
    cases twin <;> simp only [Stmt.erase, Stmt.expr.injEq, reduceCtorEq] at he
    obtain ⟨rfl, rfl, rfl⟩ := he
    rw [annotateStmt]
    exact (annotateExpr_yields h hv.fresh hs hr hv.run hq).part fun _ _ _ => .done _ trivial
  | locals hv =>
    cases twin <;> simp only [Stmt.erase, Stmt.locals.injEq, reduceCtorEq] at he
    rw [annotateStmt]
    exact (Yields.each (hv.localsYield h (congrArg VarDecl.vars he) hl hl' hs hr hq)).within
  | ifThen hc =>
    cases twin <;> simp only [Stmt.erase, Stmt.ifThen.injEq, reduceCtorEq] at he
    obtain ⟨rfl, -, -⟩ := he
    rw [annotateStmt]
    exact (hc.yields h hs hr hq).part fun _ _ _ => (hb _ List.mem_cons_self).within
  | ifElse hc =>
    cases twin <;> simp only [Stmt.erase, Stmt.ifElse.injEq, reduceCtorEq] at he
    obtain ⟨rfl, -, -, -⟩ := he
    rw [annotateStmt]
    refine (hc.yields h hs hr hq).part fun _ _ _ => ?_
    exact (hb _ List.mem_cons_self).part fun _ _ _ =>
      (hb _ (List.mem_cons_of_mem _ List.mem_cons_self)).within
  | loop hc =>
    cases twin <;> simp only [Stmt.erase, Stmt.loop.injEq, reduceCtorEq] at he
    obtain ⟨rfl, -, -⟩ := he
    rw [annotateStmt]
    exact (hc.yields h hs hr hq).part fun _ _ _ => (hb _ List.mem_cons_self).within
  | ret hv =>
    cases twin <;> simp only [Stmt.erase, Stmt.ret.injEq, reduceCtorEq] at he
    obtain ⟨rfl, rfl⟩ := he
    rw [annotateStmt]
    exact hv.yields h hs hr hq
  | empty =>
    cases twin <;> simp only [Stmt.erase, reduceCtorEq] at he
    rw [annotateStmt]
    exact .done _ trivial

def TwinsPass (ctx ctx' : Context) (stmt : Stmt) (s s' : State) : Prop :=
  ∀ twin : Stmt, twin.erase = stmt.erase → Slotted ctx stmt.slots → Slotted ctx' twin.slots →
    Faithful ctx.table s → Ready ctx s → Quiet ctx.table s' →
      Yields ctx' (annotateStmt ctx' twin) fun _ => True

theorem OneByOne.twinsPass (h : ctx.Mirrors ctx') {body body' : List Stmt}
    (hbody : OneByOne (fun x s x' s' => Passes ctx x s x' s' ∧ TwinsPass ctx ctx' x s s')
      body s body' s') :
    ∀ {twins : List Stmt}, Stmt.eraseAll twins = Stmt.eraseAll body →
      Slotted ctx (Stmt.allSlots body) → Slotted ctx' (Stmt.allSlots twins) →
      Faithful ctx.table s → Ready ctx s → Quiet ctx.table s' →
      ∀ x ∈ twins, Yields ctx' (annotateStmt ctx' x) fun _ => True := by
  induction hbody with
  | nil =>
    intro twins he
    cases twins <;> simp only [Stmt.eraseAll, reduceCtorEq] at he
    simp
  | cons head tail ih =>
    intro twins he hl hl' hs hr hq
    cases twins <;> simp only [Stmt.eraseAll, List.cons.injEq, reduceCtorEq] at he
    rw [Stmt.allSlots, slotted_append] at hl hl'
    have hc := head.1.checks h.left_sound h.isMethod hr (hl.1.localsPlaced _)
    have hext := (tail.imp fun _ _ {_ _ _} hx => hx.1.extends_).extends_
    refine List.forall_mem_cons.mpr ⟨?_, ?_⟩
    · exact head.2 _ he.1 hl.1 hl'.1 hs hr (hq.before hext)
    · exact ih he.2 hl.2 hl'.2 (hc.grows.faithful hs) (hr.mono hc.grows.extends_) hq

theorem Passes.twinsPass (h : ctx.Mirrors ctx') {stmt stmt' : Stmt}
    (hrun : Passes ctx stmt s stmt' s') : TwinsPass ctx ctx' stmt s s' := by
  refine Passes.induct (P := fun x s _ s' => TwinsPass ctx ctx' x s s') ?_ hrun
  intro stmt stmt' bodies s s₁ s' _ hstep hbodies twin he hl hl' hs hr hq
  rw [Stmt.slots_eq, slotted_append] at hl hl'
  have heb : Stmt.eraseAll twin.bodies = Stmt.eraseAll stmt.bodies := by
    rw [← Stmt.bodies_erase, ← Stmt.bodies_erase, he]
  have hext := (hbodies.imp fun _ _ {_ _ _} hx => hx.1.extends_).extends_
  obtain ⟨hg, -⟩ := hstep.checks h.left_sound h.isMethod hr (hl.1.localsPlaced s)
  exact hstep.yields h he hl.1 hl'.1 hs hr (hq.before hext)
    (hbodies.twinsPass h heb hl.2 hl'.2 (hg.faithful hs) (hr.mono hg.extends_) hq)

theorem annotateStmts_yields (h : ctx.Mirrors ctx') {body twin body' : List Stmt}
    (he : Stmt.eraseAll twin = Stmt.eraseAll body)
    (hf : Stmt.allFresh (Stmt.eraseAll body) = true) (hl : Slotted ctx (Stmt.allSlots body))
    (hl' : Slotted ctx' (Stmt.allSlots twin)) (hs : Faithful ctx.table s) (hr : Ready ctx s)
    (hrun : annotateStmts ctx body s = ⟨body', .ok (), s'⟩) (hq : Quiet ctx.table s') :
    Yields ctx' (annotateStmts ctx' twin) fun _ => True := by
  have hsteps := oneByOne_of_annotateStmts hf hrun
  exact annotateStmts_yields_each ((hsteps.imp fun _ _ {_ _ _} hx => ⟨hx, hx.twinsPass h⟩).twinsPass
    h he hl hl' hs hr hq)

end

def Passed (t : Table) (entry : Option Nat) : Decl → Prop
  | .method _ m => ∀ b, m.symbol = some b → ∃ k body body' s s', b.scope = some k ∧
      m.body = some body ∧ Faithful t s ∧ Ready ⟨t, k, some b, entry⟩ s ∧
      annotateStmts ⟨t, k, some b, entry⟩ body s = ⟨body', .ok (), s'⟩ ∧ Quiet t s'
  | .field _ d => ∀ v ∈ d.vars, v.init = none
  | .cls _ _ => True

theorem cls_declared {t : Table} {tag : Nat} {ds : List Decl} (h : Declares t tag ds)
    {path : List String} {head : ClassHead} (hd : .cls path head ∈ ds)
    (hfill : (Decl.cls path head).Filled) :
    ∃ b k, head.symbol = some b ∧ b.scope = some k ∧ t.PathOf k path := by
  obtain ⟨b, hb⟩ := Option.ne_none_iff_exists'.mp hfill
  obtain ⟨-, hsome, -⟩ := h.placed _ hd b hb
  obtain ⟨k, hk⟩ := Option.isSome_iff_exists.mp hsome
  exact ⟨b, k, hb, hk, cls_scope h hd hb hk⟩

theorem annotateClassWith_enters {ctx : Context} {tag : Nat} {ds : List Decl}
    (h : Declares ctx.table tag ds) {path : List String} {head : ClassHead}
    {members : List Member} {body : Context → Visit State (List Member) Unit} {c : ClassDecl}
    {s s' : State} (hd : .cls path head ∈ ds) (hfill : ∀ d ∈ ds, d.Filled)
    (hrun : annotateClassWith ctx head members body s = ⟨c, .ok (), s'⟩) :
    ∃ k members', ctx.table.PathOf k path ∧
      body ⟨ctx.table, k, none, ctx.entry⟩ s = ⟨members', .ok (), s'⟩ := by
  cases classStep_of_annotateClassWith hrun with
  | passed hb => exact absurd hb (hfill _ hd)
  | entered hb hk hm => exact ⟨_, _, cls_scope h hd hb hk, hm⟩

mutual

theorem annotateMember_passed {ctx : Context} {tag : Nat} {ds : List Decl}
    (h : Declares ctx.table tag ds) {path : List String} {m m' : Member} {s s' : State}
    (hin : ∀ d ∈ m.decls path, d ∈ ds) (hf : m.erase.isFresh = true)
    (hfill : ∀ d ∈ ds, d.Filled) (hfaith : Faithful ctx.table s)
    (hrun : annotateMember ctx m s = ⟨m', .ok (), s'⟩) (hq : Quiet ctx.table s') :
    ∀ d ∈ m.decls path, Passed ctx.table ctx.entry d := by
  cases m with
  | method m =>
    rw [annotateMember] at hrun
    obtain ⟨m', hm, rfl⟩ := Visit.within_ok_iff.mp hrun
    rw [Member.decls, List.forall_mem_singleton] at *
    intro b hb
    obtain ⟨k, s₁, body, body', he, hbody, -, hstmts⟩ := annotateMethod_enters h hin hfaith hb hm
    exact ⟨k, body, body', s₁, s', he.scope, hbody, he.grows.faithful hfaith, he.ready, hstmts, hq⟩
  | field d =>
    rw [annotateMember] at hrun
    rw [Member.erase, Member.isFresh] at hf
    obtain ⟨d', hd, rfl⟩ := Visit.within_ok_iff.mp hrun
    obtain ⟨vars, -, hsteps⟩ := oneByOne_of_annotateField hf hd
    rw [Member.decls, List.forall_mem_singleton] at *
    exact (hsteps.fieldsQuiet hq.diagnostics).2
  | nested head members =>
    rw [annotateMember] at hrun
    rw [Member.erase, Member.isFresh, Bool.and_eq_true] at hf
    rw [Member.decls] at *
    obtain ⟨c, hc, rfl⟩ := Visit.within_ok_iff.mp hrun
    obtain ⟨k, members', hpath, hmembers⟩ :=
      annotateClassWith_enters h (hin _ List.mem_cons_self) hfill hc
    have h' : Declares (Context.mk ctx.table k none ctx.entry).table tag ds := h
    rw [List.forall_mem_cons]
    exact ⟨trivial, annotateMembers_passed h' hpath
      (fun d hd => hin d (List.mem_cons_of_mem _ hd)) hf.2 hfill hfaith hmembers hq⟩

theorem annotateMembers_passed {ctx : Context} {tag : Nat} {ds : List Decl}
    (h : Declares ctx.table tag ds) {path : List String} (hp : ctx.table.PathOf ctx.scope path)
    {ms ms' : List Member} {s s' : State} (hin : ∀ d ∈ Member.allDecls path ms, d ∈ ds)
    (hf : Member.allFresh (Member.eraseAll ms) = true) (hfill : ∀ d ∈ ds, d.Filled)
    (hfaith : Faithful ctx.table s) (hrun : annotateMembers ctx ms s = ⟨ms', .ok (), s'⟩)
    (hq : Quiet ctx.table s') :
    ∀ d ∈ Member.allDecls path ms, Passed ctx.table ctx.entry d := by
  cases ms with
  | nil =>
    rw [Member.allDecls]
    simp
  | cons m rest =>
    rw [annotateMembers] at hrun
    rw [Member.eraseAll, Member.allFresh, Bool.and_eq_true] at hf
    rw [Member.allDecls, List.forall_mem_append] at *
    obtain ⟨m', _, s₁, h₁, h₂⟩ := Visit.part_ok_iff.mp hrun
    obtain ⟨rest', hrest, rfl⟩ := Visit.within_ok_iff.mp h₂
    obtain ⟨-, hc⟩ := annotateMember_checks h hp hin.1 hf.1 (fun _ => hfill) hfaith h₁
    have hfaith₁ := hc.grows.faithful hfaith
    obtain ⟨-, hcs⟩ := annotateMembers_checks h hp hin.2 hf.2 (fun _ => hfill) hfaith₁ hrest
    exact ⟨annotateMember_passed h hin.1 hf.1 hfill hfaith h₁ (hq.before hcs.grows.extends_),
      annotateMembers_passed h hp hin.2 hf.2 hfill hfaith₁ hrest hq⟩

end

theorem slotted_of_laid {t : Table} {tag : Nat} {ds : List Decl} (h : Laid t tag ds)
    {path : List String} {m : Method} (hd : .method path m ∈ ds) {b : Symbol}
    (hb : m.symbol = some b) {k : ScopeId} (hk : b.scope = some k) {body : List Stmt}
    (hbody : m.body = some body) (entry : Option Nat) :
    Slotted ⟨t, k, some b, entry⟩ (Stmt.allSlots body) := by
  have hslots : m.bodySlots = Stmt.allSlots body := by simp [Method.bodySlots, hbody]
  have hplaced := h.placed _ hd
  simp only [Decl.Placed, hb] at hplaced
  obtain ⟨-, j, hj, -, hlocals⟩ := hplaced
  obtain rfl := Option.some.inj (hk.symm.trans hj)
  obtain ⟨-, -, -, i, hi, -, hbound⟩ := method_declared h.toDeclares hd hb
  obtain rfl := Option.some.inj (hk.symm.trans hi)
  rw [← hslots]
  intro v hv
  obtain ⟨q, hq⟩ := Option.ne_none_iff_exists'.mp ((h.filled _ hd).2.2 v hv)
  obtain ⟨hqb, hin, hdet⟩ := hbound v hv q hq
  exact ⟨q, hq, hqb, hin, (hlocals.of_mem hv hq).1, hdet⟩

section Twin

variable {tag : Nat} {t u : Table} {ds es : List Decl} {entry entry' : Option Nat}
  {k : ScopeId} {path : List String}

theorem good_of_pathOf (h : u.Sound) (hp : u.PathOf k path) {r : State} (hf : Faithful u r)
    (hq : r.diagnostics = []) : Good ⟨u, k, none, entry'⟩ r :=
  have hp' : (Context.mk u k none entry').table.PathOf k path := hp
  ⟨hf, hq, ready_of_pathOf h hp' r⟩

theorem annotateMethod_yields (h : Mirrored tag t u ds es) (hc : Clean t)
    (hst : ∀ {a b}, Twins t u a b → runsStatic entry' b = runsStatic entry a)
    (hp : u.PathOf k path) {m n : Method} (hm : .method path m ∈ ds) (hn : .method path n ∈ es)
    (he : m.erase = n.erase) (hf : n.erase.isFresh = true)
    (hpass : Passed t entry (.method path m)) :
    Yields ⟨u, k, none, entry'⟩ (annotateMethod ⟨u, k, none, entry'⟩ n) fun _ => True := by
  obtain ⟨a, ha⟩ := Option.ne_none_iff_exists'.mp (h.left.filled _ hm).1
  obtain ⟨b, hb, hab, i, j, hi, hj, hij⟩ := h.method_twins hm hn he.symm ha
  obtain ⟨i', body, body', s, s', hi', hbody, hfaith, hready, hrun, hq⟩ := hpass a ha
  obtain rfl := Option.some.inj (hi.symm.trans hi')
  obtain ⟨hbound, hmeth, -⟩ := method_declared h.right.toDeclares hn hb
  obtain ⟨twin, htwin, hbodies⟩ : ∃ twin, n.body = some twin ∧
      Stmt.eraseAll twin = Stmt.eraseAll body := by
    have hmap := congrArg Method.body he
    simp only [Method.erase, hbody, Option.map_some] at hmap
    obtain ⟨twin, htwin, heq⟩ := Option.map_eq_some_iff.mp hmap.symm
    exact ⟨twin, htwin, heq⟩
  have hfb := isFresh_body (he ▸ hf) hbody
  have hctx : Context.Mirrors ⟨t, i, some a, entry⟩ ⟨u, j, some b, entry'⟩ :=
    ⟨⟨tag, ds, es, h⟩, hc, hij,
      Or.inr ⟨a, b, rfl, rfl, isMethod_eq_of_details hab.details ▸ hmeth, hab⟩, hst⟩
  have hstmts := annotateStmts_yields hctx hbodies hfb (slotted_of_laid h.left hm ha hi hbody entry)
    (slotted_of_laid h.right hn hb hj htwin entry') hfaith hready hrun hq
  -- The parameters get their types before the body is visited, so the state is good inside too.
  intro r hr
  rcases hsig : r.signature u b with ⟨Ts, T, r₁⟩
  have h' : Declares (Context.mk u k none entry').table tag es := h.right.toDeclares
  obtain ⟨j', hent⟩ := enters_of_signature h' hn hr.faithful hb hsig
  obtain rfl := Option.some.inj (hj.symm.trans hent.scope)
  have hdiag := signature_clean (hc.twin h) hbound (s := r)
  rw [hsig] at hdiag
  have hgood : Good ⟨u, j, some b, entry'⟩ (typeParams n.params Ts r₁) :=
    ⟨hent.grows.faithful hr.faithful, typeParams_diagnostics.trans (hdiag.trans hr.quiet),
      hent.ready⟩
  obtain ⟨twin', _, r₂, hrun', -, hgood'⟩ := hstmts _ hgood
  refine ⟨{ n with body := some twin' }, (), r₂, ?_, trivial,
    good_of_pathOf h.right.sound hp hgood'.faithful hgood'.quiet⟩
  simp only [annotateMethod, hb, hj, hsig, htwin]
  exact Visit.within_ok_iff.mpr ⟨twin', hrun', rfl⟩

theorem annotateFieldVar_yields (hs : u.Sound) (hc : Clean u) (hp : u.PathOf k path)
    {type : TypeExpr} {v : Declarator} {b : Symbol} (hb : v.symbol = some b) (hbound : u.Bound b)
    {st : Bool} {owner : List String} (hd : b.details = .var type (.field st owner))
    (hi : v.init = none) :
    Yields ⟨u, k, none, entry'⟩ (annotateFieldVar ⟨u, k, none, entry'⟩ type v)
      fun _ => True := by
  intro r hr
  have hk : b.kind = .var := by simp [Symbol.kind, hd]
  have hnp : IsParam b → (r.resolutions.type? b).isSome = true := by
    rintro ⟨_, _, hd'⟩
    rw [hd] at hd'
    cases hd'
  rcases hv : r.varType u b with ⟨T, r₁⟩
  obtain ⟨hg, -⟩ := varType_grows hs hbound hk hnp hv
  have hq := varType_clean hc hbound hk hnp
  rw [hv] at hq
  refine ⟨v, (), r₁, ?_, trivial,
    good_of_pathOf hs hp (hg.faithful hr.faithful) (hq.trans hr.quiet)⟩
  simp only [annotateFieldVar, declaredType, hb, hv, hi]

theorem annotateField_yields (h : Laid u tag es) (hc : Clean u) (hp : u.PathOf k path)
    {d : VarDecl} (hd : .field path d ∈ es) (hi : ∀ v ∈ d.vars, v.init = none) :
    Yields ⟨u, k, none, entry'⟩ (annotateField ⟨u, k, none, entry'⟩ d) fun _ => True := by
  refine (Yields.each fun v hv => ?_).within
  obtain ⟨b, hb⟩ := Option.ne_none_iff_exists'.mp (h.filled _ hd _ (List.mem_map_of_mem hv))
  obtain ⟨hbound, st, owner, hdet⟩ := field_declared h.toDeclares hd v hv b hb
  exact annotateFieldVar_yields h.sound hc hp hb hbound hdet (hi v hv)

theorem annotateClassWith_yields (h : Laid u tag es) (hp : u.PathOf k path)
    {head : ClassHead} {members : List Member} {inner : List String}
    (hd : .cls inner head ∈ es) {body : Context → Visit State (List Member) Unit}
    (hbody : ∀ {i}, u.PathOf i inner → Yields ⟨u, i, none, entry'⟩ (body ⟨u, i, none, entry'⟩)
      fun _ => True) :
    Yields ⟨u, k, none, entry'⟩ (annotateClassWith ⟨u, k, none, entry'⟩ head members body)
      fun _ => True := by
  obtain ⟨b, i, hb, hi, hpath⟩ := cls_declared h.toDeclares hd (h.filled _ hd)
  simp only [annotateClassWith, hb, hi]
  intro r hr
  have hinner : Yields ⟨u, i, none, entry'⟩
      ((body ⟨u, i, none, entry'⟩).within (ClassDecl.mk head)) fun _ => True :=
    (hbody hpath).within
  obtain ⟨c, _, r', hrun, -, hgood⟩ :=
    hinner r (good_of_pathOf h.sound hpath hr.faithful hr.quiet)
  exact ⟨_, (), r', hrun, trivial, good_of_pathOf h.sound hp hgood.faithful hgood.quiet⟩

mutual

theorem annotateMember_yields (h : Mirrored tag t u ds es) (hc : Clean t)
    (hst : ∀ {a b}, Twins t u a b → runsStatic entry' b = runsStatic entry a)
    (hpass : ∀ d ∈ ds, Passed t entry d) {k : ScopeId} {path : List String}
    (hp : u.PathOf k path) {m : Member} (hin : ∀ e ∈ m.decls path, e ∈ es)
    (hf : m.erase.isFresh = true) :
    Yields ⟨u, k, none, entry'⟩ (annotateMember ⟨u, k, none, entry'⟩ m) fun _ => True := by
  cases m with
  | method n =>
    rw [Member.decls, List.forall_mem_singleton] at hin
    rw [Member.erase, Member.isFresh] at hf
    obtain ⟨d, hd, he⟩ := h.back _ hin
    cases d with
    | method p m =>
      simp only [Decl.erase, Decl.method.injEq] at he
      obtain ⟨rfl, he⟩ := he
      rw [annotateMember]
      exact (annotateMethod_yields h hc hst hp hd hin he hf (hpass _ hd)).within
    | field => cases he
    | cls => cases he
  | field e =>
    rw [Member.decls, List.forall_mem_singleton] at hin
    obtain ⟨d, hd, he⟩ := h.back _ hin
    cases d with
    | field p d =>
      simp only [Decl.erase, Decl.field.injEq] at he
      obtain ⟨rfl, he⟩ := he
      have hi : ∀ v ∈ e.vars, v.init = none := by
        intro v hv
        have hmem : v.erase ∈ d.vars.map Declarator.erase := by
          rw [show d.vars.map Declarator.erase = e.vars.map Declarator.erase from
            congrArg VarDecl.vars he]
          exact List.mem_map_of_mem hv
        obtain ⟨w, hw, hwv⟩ := List.mem_map.mp hmem
        exact (congrArg Declarator.init hwv).symm.trans (hpass _ hd w hw)
      rw [annotateMember]
      exact (annotateField_yields h.right (hc.twin h) hp hin hi).within
    | method => cases he
    | cls => cases he
  | nested head members =>
    rw [Member.decls, List.forall_mem_cons] at hin
    rw [Member.erase, Member.isFresh, Bool.and_eq_true] at hf
    rw [annotateMember]
    exact (annotateClassWith_yields h.right hp hin.1 fun hpath =>
      annotateMembers_yields h hc hst hpass hpath hin.2 hf.2).within

theorem annotateMembers_yields (h : Mirrored tag t u ds es) (hc : Clean t)
    (hst : ∀ {a b}, Twins t u a b → runsStatic entry' b = runsStatic entry a)
    (hpass : ∀ d ∈ ds, Passed t entry d) {k : ScopeId} {path : List String}
    (hp : u.PathOf k path) {ms : List Member} (hin : ∀ e ∈ Member.allDecls path ms, e ∈ es)
    (hf : Member.allFresh (Member.eraseAll ms) = true) :
    Yields ⟨u, k, none, entry'⟩ (annotateMembers ⟨u, k, none, entry'⟩ ms) fun _ => True := by
  cases ms with
  | nil => exact .done _ trivial
  | cons m rest =>
    rw [Member.allDecls, List.forall_mem_append] at hin
    rw [Member.eraseAll, Member.allFresh, Bool.and_eq_true] at hf
    rw [annotateMembers]
    exact (annotateMember_yields h hc hst hpass hp hin.1 hf.1).part fun _ _ _ =>
      (annotateMembers_yields h hc hst hpass hp hin.2 hf.2).within

end

end Twin

/-- If nothing is reported about a unit, every declaration of it passed. -/
theorem annotateUnit_passed {u registered u' : CompilationUnit} {tag : Nat} {choice : EntryChoice}
    {s : Registration.State} {s' : State} (hf : u.isFresh = true)
    (hr : Registration.registerUnit u (.withSystem tag) [] = ⟨registered, .ok (), s⟩)
    (hv : annotateUnit registered s.table choice ⟨.empty, s.diagnostics⟩ = ⟨u', .ok (), s'⟩)
    (hq : Quiet s.table s') :
    s.diagnostics = [] ∧ ∃ c, registered.top = some c ∧
      ∀ d ∈ registered.decls, Passed s.table (choice.resolve c) d := by
  obtain ⟨herase, hreg⟩ := Registration.registerUnit_registers hf hr
  obtain ⟨c, _, htop, -, -, hcheck⟩ := annotateUnit_checks hf hr hv
  have hd := hcheck.grows.extends_.quiet hq.diagnostics
  have hfresh := CompilationUnit.isFresh_erase hf
  rw [← herase] at hfresh
  obtain ⟨_⟩ := registered
  subst htop
  refine ⟨hd, c, rfl, ?_⟩
  simp only [CompilationUnit.isFresh, CompilationUnit.erase, Option.map_some, Option.all_some,
    ClassDecl.erase, Bool.and_eq_true] at hfresh
  have hfill := hreg.filled hd
  have hroot : Declares (Context.mk s.table root none (choice.resolve c)).table tag
      (c.decls []) := hreg.declares
  obtain ⟨_, hc, -⟩ := Visit.within_ok_iff.mp hv
  obtain ⟨k, _, hpath, hmembers⟩ := annotateClassWith_enters hroot List.mem_cons_self hfill hc
  have hinner : Declares (Context.mk s.table k none (choice.resolve c)).table tag (c.decls []) :=
    hroot
  have hpassed := annotateMembers_passed hinner hpath (fun d hd => List.mem_cons_of_mem _ hd)
    hfresh.2 hfill (faithful_empty s.table s.diagnostics) hmembers hq
  exact List.forall_mem_cons.mpr ⟨trivial, hpassed⟩

/-- A unit is typed without a report if every declaration of its twin passed. -/
theorem annotateUnit_yields {tag : Nat} {t u : Table} {ds : List Decl} {v : CompilationUnit}
    {c : ClassDecl} {choice : EntryChoice} {entry : Option Nat}
    (h : Mirrored tag t u ds v.decls) (hc : Clean t)
    (hst : ∀ {a b}, Twins t u a b → runsStatic (choice.resolve c) b = runsStatic entry a)
    (hpass : ∀ d ∈ ds, Passed t entry d) (hf : v.erase.isFresh = true) (htop : v.top = some c) :
    Yields ⟨u, root, none, choice.resolve c⟩ (annotateUnit v u choice) fun _ => True := by
  obtain ⟨_⟩ := v
  subst htop
  simp only [CompilationUnit.isFresh, CompilationUnit.erase, Option.map_some, Option.all_some,
    ClassDecl.erase, Bool.and_eq_true] at hf
  refine Yields.within (annotateClassWith_yields h.right (Or.inl ⟨rfl, rfl⟩)
    List.mem_cons_self fun hpath => ?_)
  exact annotateMembers_yields h hc hst hpass hpath (fun e he => List.mem_cons_of_mem _ he) hf.2

end Typing

end ClassLang
