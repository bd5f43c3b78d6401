import ClassLang.Proofs.Registered
import ClassLang.Proofs.Statements
import ClassLang.Proofs.Typed
import ClassLang.Typing.Unit
import Mathlib.Data.List.Forall2

/-! Rules for statements and declarations. Typing changes nothing but expressions, and when it
reports nothing, every statement of every method obeys the rules and every declared symbol has its
type. -/
namespace ClassLang

namespace Typing

def LocalChecked (ctx : Context) (r : Resolutions) (v : Declarator) : Prop :=
  ∃ b T, v.symbol = some b ∧ ctx.table.Reached ctx.scope b ∧
    (∃ type index, b.details = .var type (.slot index)) ∧ r.type? b = some T ∧
    ∀ init, v.init = some init → HasType ctx r init T

def ReturnChecked (ctx : Context) (r : Resolutions) (T : Ty) : Option Expr → Prop
  | none => T = .void
  | some e => HasType ctx r e T

mutual

def StmtChecked (ctx : Context) (r : Resolutions) : Stmt → Prop
  | .block body _ => StmtsChecked ctx r body
  | .expr value _ _ => ∃ T, HasType ctx r value T
  | .locals d => ∀ v ∈ d.vars, LocalChecked ctx r v
  | .ifThen cond thenBody _ => HasType ctx r cond .boolean ∧ StmtChecked ctx r thenBody
  | .ifElse cond thenBody elseBody _ =>
    HasType ctx r cond .boolean ∧ StmtChecked ctx r thenBody ∧ StmtChecked ctx r elseBody
  | .loop cond body _ => HasType ctx r cond .boolean ∧ StmtChecked ctx r body
  | .ret value _ =>
    ∃ m T, ctx.method = some m ∧ r.type? m = some T ∧ ReturnChecked ctx r T value
  | .empty _ => True

def StmtsChecked (ctx : Context) (r : Resolutions) : List Stmt → Prop
  | [] => True
  | s :: rest => StmtChecked ctx r s ∧ StmtsChecked ctx r rest

end

theorem LocalChecked.extend {ctx : Context} {s s' : State} (he : Extends s s') {v : Declarator}
    (h : LocalChecked ctx s.resolutions v) : LocalChecked ctx s'.resolutions v := by
  obtain ⟨b, T, hb, hr, hslot, ht, hi⟩ := h
  exact ⟨b, T, hb, hr, hslot, he.types ht, fun init hinit => (hi init hinit).extend he⟩

def HeadChecked (ctx : Context) (r : Resolutions) : Stmt → Prop
  | .expr value _ _ => ∃ T, HasType ctx r value T
  | .locals d => ∀ v ∈ d.vars, LocalChecked ctx r v
  | .ifThen cond _ _ | .ifElse cond _ _ _ | .loop cond _ _ => HasType ctx r cond .boolean
  | .ret value _ =>
    ∃ m T, ctx.method = some m ∧ r.type? m = some T ∧ ReturnChecked ctx r T value
  | .block .. | .empty _ => True

theorem stmtsChecked_iff {ctx : Context} {r : Resolutions} {body : List Stmt} :
    StmtsChecked ctx r body ↔ ∀ x ∈ body, StmtChecked ctx r x := by
  induction body with
  | nil => simp [StmtsChecked]
  | cons stmt body ih => simp [StmtsChecked, ih]

theorem stmtChecked_iff {ctx : Context} {r : Resolutions} {stmt : Stmt} :
    StmtChecked ctx r stmt ↔ HeadChecked ctx r stmt ∧ StmtsChecked ctx r stmt.bodies := by
  cases stmt <;> simp [StmtChecked, HeadChecked, Stmt.bodies, StmtsChecked]

theorem HeadChecked.extend {ctx : Context} {s s' : State} (he : Extends s s') {stmt : Stmt}
    (h : HeadChecked ctx s.resolutions stmt) : HeadChecked ctx s'.resolutions stmt := by
  cases stmt with
  | expr =>
    obtain ⟨T, hT⟩ := h
    exact ⟨T, hT.extend he⟩
  | locals => exact fun v hv => (h v hv).extend he
  | ifThen | ifElse | loop => exact HasType.extend he h
  | ret value =>
    obtain ⟨m, T, hm, ht, hv⟩ := h
    refine ⟨m, T, hm, he.types ht, ?_⟩
    cases value with
    | none => exact hv
    | some e => exact HasType.extend he hv
  | block | empty => trivial

theorem StmtChecked.extend {ctx : Context} {s s' : State} (he : Extends s s') {stmt : Stmt}
    (h : StmtChecked ctx s.resolutions stmt) : StmtChecked ctx s'.resolutions stmt := by
  rw [stmtChecked_iff, stmtsChecked_iff] at *
  exact ⟨h.1.extend he, fun x hx => StmtChecked.extend he (h.2 x hx)⟩
termination_by sizeOf stmt
decreasing_by exact Stmt.sizeOf_bodies hx

theorem StmtsChecked.extend {ctx : Context} {s s' : State} (he : Extends s s') {body : List Stmt}
    (h : StmtsChecked ctx s.resolutions body) : StmtsChecked ctx s'.resolutions body := by
  rw [stmtsChecked_iff] at *
  exact fun x hx => (h x hx).extend he

theorem isFresh_body {m : Method} {body : List Stmt} (h : m.erase.isFresh = true)
    (hb : m.body = some body) : Stmt.allFresh (Stmt.eraseAll body) = true := by
  simp only [Method.isFresh, Method.erase, hb, Option.map_some, Option.all_some,
    Bool.and_eq_true] at h
  exact h.2

structure LocalsPlaced (ctx : Context) (s : State) (slots : List VarSlot) : Prop where
  placed : ∀ v ∈ slots, ∀ b, v.symbol = some b → ctx.table.Bound b ∧ b.declaredIn = ctx.scope ∧
    ∃ index, b.details = .var v.type (.slot index)
  filled : s.diagnostics = [] → ∀ v ∈ slots, v.symbol ≠ none

namespace LocalsPlaced

variable {ctx : Context} {s s' : State} {a b : List VarSlot}

theorem sub (he : Extends s s') (h : LocalsPlaced ctx s a) (hsub : ∀ v ∈ b, v ∈ a) :
    LocalsPlaced ctx s' b :=
  ⟨fun v hv => h.placed v (hsub v hv), fun hd v hv => h.filled (he.quiet hd) v (hsub v hv)⟩

theorem left (h : LocalsPlaced ctx s (a ++ b)) : LocalsPlaced ctx s a :=
  h.sub (.refl s) fun _ => List.mem_append_left b

theorem right (he : Extends s s') (h : LocalsPlaced ctx s (a ++ b)) : LocalsPlaced ctx s' b :=
  h.sub he fun _ => List.mem_append_right a

theorem isVar {v : VarSlot} (h : LocalsPlaced ctx s [v]) :
    ∀ b, v.symbol = some b → ctx.table.Bound b ∧ b.kind = .var ∧ ¬ IsParam b := by
  intro b hb
  obtain ⟨hbound, -, index, hdet⟩ := h.placed v List.mem_cons_self b hb
  exact ⟨hbound, by simp [Symbol.kind, hdet], by simp [IsParam, hdet]⟩

end LocalsPlaced

theorem expect_grows (t : Table) (s : State) (expected received : Ty) (position : Position) :
    Grows t s (s.expect expected received position) ∧
      ((s.expect expected received position).diagnostics = [] → expected ≠ .error →
        received ≠ .error → received.same expected = true) := by
  unfold State.expect
  split
  · next hok =>
    refine ⟨.refl s, fun _ he hr => ?_⟩
    rw [Bool.or_eq_true, Bool.or_eq_true, Ty.isError_iff, Ty.isError_iff] at hok
    rcases hok with (hok | hok) | hok
    · exact absurd hok he
    · exact absurd hok hr
    · exact hok
  · refine ⟨.report s _ _, fun hd => ?_⟩
    simp [State.report, State.push] at hd

/-- The declared type is that of the symbol; only a rejected variable lacks one. -/
theorem declaredType_grows {ctx : Context} (hs : ctx.table.Sound) {type : TypeExpr} {v : Declarator}
    {s s' : State} {D : Ty}
    (hv : ∀ b, v.symbol = some b → ctx.table.Bound b ∧ b.kind = .var ∧ ¬ IsParam b)
    (h : declaredType ctx type v s = (D, s')) :
    Grows ctx.table s s' ∧ ∀ b, v.symbol = some b → s'.resolutions.type? b = some D := by
  unfold declaredType at h
  cases hb : v.symbol with
  | none =>
    rw [hb] at h
    exact ⟨(resolve_grows h).1, by simp⟩
  | some b =>
    rw [hb] at h
    obtain ⟨hbound, hkind, hparam⟩ := hv b hb
    obtain ⟨hg, ht⟩ := varType_grows hs hbound hkind (fun hp => absurd hp hparam) h
    refine ⟨hg, ?_⟩
    rintro _ ⟨⟩
    exact ht

section

variable {ctx : Context} {s s₁ s' : State}

theorem LocalStep.checks (hs : ctx.table.Sound) {type : TypeExpr} {v v' : Declarator}
    (h : LocalStep ctx type v s v' s') (hr : Ready ctx s)
    (hl : LocalsPlaced ctx s [⟨v.name.text, type, v.symbol⟩]) : Grows ctx.table s s' ∧
      (Faithful ctx.table s → Quiet ctx.table s' → LocalChecked ctx s'.resolutions v') := by
  have hsym : Quiet ctx.table s → ∃ b, v.symbol = some b ∧ ctx.table.Reached ctx.scope b ∧
      ∃ type index, b.details = .var type (.slot index) := by
    intro hq
    obtain ⟨b, hb⟩ := Option.ne_none_iff_exists'.mp (hl.filled hq.diagnostics _ List.mem_cons_self)
    obtain ⟨hbound, hin, index, hdet⟩ := hl.placed _ List.mem_cons_self b hb
    exact ⟨b, hb, ⟨hbound, Or.inl hin⟩, type, index, hdet⟩
  cases h with
  | @bare D _ _ hi hd =>
    obtain ⟨hg, hrec⟩ := declaredType_grows hs hl.isVar hd
    refine ⟨hg, fun hfaith hq => ?_⟩
    obtain ⟨b, hb, hreach, hslot⟩ := hsym (hq.before hg.extends_)
    exact ⟨b, D, hb, hreach, hslot, hrec b hb, by simp [hi]⟩
  | @init init init' D R _ s1 s2 hi hd hv =>
    obtain ⟨hg, hrec⟩ := declaredType_grows hs hl.isVar hd
    have hfind := annotateExpr_finds hs hv.fresh (hr.mono hg.extends_) hv.run
    obtain ⟨hge, hsame⟩ := expect_grows ctx.table s2 D R init'.span.start
    refine ⟨(hg.trans hfind.grows).trans hge, fun hfaith hq => ?_⟩
    have hq2 := hq.before hge.extends_
    obtain ⟨b, hb, hreach, hslot⟩ := hsym ((hq2.before hfind.grows.extends_).before hg.extends_)
    have hfaith1 := hg.faithful hfaith
    have hfaith2 := hfind.grows.faithful hfaith1
    obtain ⟨htyped, hne⟩ := hfind.typed hfaith1 hq2
    have hbD := hfind.grows.extends_.types (hrec b hb)
    have hD : D ≠ .error := hq2.types hreach.1 hbD
    obtain rfl := eq_of_same hs (htyped.known hs hfaith2) (hfaith2.known_type hs hreach.1 hbD)
      (hsame hq.diagnostics hD hne)
    refine ⟨b, R, hb, hreach, hslot, hge.extends_.types hbD, ?_⟩
    rintro _ ⟨⟩
    exact htyped.extend hge.extends_

theorem OneByOne.localsChecked (hs : ctx.table.Sound) {type : TypeExpr}
    {vars vars' : List Declarator} (h : OneByOne (LocalStep ctx type) vars s vars' s')
    (hr : Ready ctx s) (hl : LocalsPlaced ctx s (vars.map fun v => ⟨v.name.text, type, v.symbol⟩)) :
    Grows ctx.table s s' ∧ (Faithful ctx.table s → Quiet ctx.table s' →
      ∀ v ∈ vars', LocalChecked ctx s'.resolutions v) := by
  induction h with
  | nil => exact ⟨.refl _, by simp⟩
  | cons head _ ih =>
    rw [List.map_cons] at hl
    obtain ⟨hg, hc⟩ := head.checks hs hr (LocalsPlaced.left hl)
    obtain ⟨hgs, hcs⟩ := ih (hr.mono hg.extends_) (LocalsPlaced.right (a := [_]) hg.extends_ hl)
    refine ⟨hg.trans hgs, fun hfaith hq => ?_⟩
    have hhead := (hc hfaith (hq.before hgs.extends_)).extend hgs.extends_
    exact List.forall_mem_cons.mpr ⟨hhead, hcs (hg.faithful hfaith) hq⟩

theorem CondStep.checks (hs : ctx.table.Sound) {cond cond' : Expr}
    (h : CondStep ctx cond s cond' s') (hr : Ready ctx s) :
    Grows ctx.table s s' ∧ (Faithful ctx.table s → Quiet ctx.table s' →
      HasType ctx s'.resolutions cond' .boolean) := by
  cases h with
  | @fits _ T _ _ hv hT =>
    have hfind := annotateExpr_finds hs hv.fresh hr hv.run
    refine ⟨hfind.grows, fun hfaith hq => ?_⟩
    obtain ⟨ht, hne⟩ := hfind.typed hfaith hq
    rw [Bool.or_eq_true, Ty.isError_iff] at hT
    rcases hT with hT | hT
    · exact absurd hT hne
    · have hform := (Ty.same_iff.mp hT).1
      cases T <;> first | exact ht | cases hform
  | refused hv =>
    have hfind := annotateExpr_finds hs hv.fresh hr hv.run
    exact ⟨hfind.grows.trans (.report _ _ _), fun _ hq => absurd hq not_quiet_push⟩

theorem ReturnStep.checks (hs : ctx.table.Sound)
    (hm : ∀ m, ctx.method = some m → ctx.table.Bound m ∧ m.isMethod = true)
    {value value' : Option Expr} {span : Span} (h : ReturnStep ctx span value s value' s')
    (hr : Ready ctx s) : Grows ctx.table s s' ∧ (Faithful ctx.table s → Quiet ctx.table s' →
      HeadChecked ctx s'.resolutions (.ret value' span)) := by
  cases h with
  | @bare m _ D _ s1 hmeth hd =>
    obtain ⟨hb, hk⟩ := hm m hmeth
    obtain ⟨hg, -, hD⟩ := signature_grows hs hb hk hd
    obtain ⟨hge, hsame⟩ := expect_grows ctx.table s1 D .void span.start
    refine ⟨hg.trans hge, fun hfaith hq => ⟨m, D, hmeth, hge.extends_.types hD, ?_⟩⟩
    have hsame' := hsame hq.diagnostics ((hq.before hge.extends_).types hb hD) (by simp)
    have hform := (Ty.same_iff.mp hsame').1
    cases D <;> first | rfl | cases hform
  | @value m _ D T _ _ _ _ s2 hmeth hd hv =>
    obtain ⟨hb, hk⟩ := hm m hmeth
    obtain ⟨hg, -, hD⟩ := signature_grows hs hb hk hd
    obtain ⟨hge, hsame⟩ := expect_grows ctx.table s2 D T span.start
    have hfind := annotateExpr_finds hs hv.fresh (hr.mono hg.extends_) hv.run
    refine ⟨(hg.trans hfind.grows).trans hge, fun hfaith hq => ?_⟩
    have hq2 := hq.before hge.extends_
    have hfaith1 := hg.faithful hfaith
    have hfaith2 := hfind.grows.faithful hfaith1
    obtain ⟨ht, hne⟩ := hfind.typed hfaith1 hq2
    have hD2 := hfind.grows.extends_.types hD
    obtain rfl := eq_of_same hs (ht.known hs hfaith2) (hfaith2.known_type hs hb hD2)
      (hsame hq.diagnostics (hq2.types hb hD2) hne)
    exact ⟨m, T, hmeth, hge.extends_.types hD2, HasType.extend hge.extends_ ht⟩

theorem StmtStep.checks (hs : ctx.table.Sound)
    (hm : ∀ m, ctx.method = some m → ctx.table.Bound m ∧ m.isMethod = true) {stmt stmt' : Stmt}
    {bodies : List Stmt} (h : StmtStep ctx stmt s s' bodies stmt') (hr : Ready ctx s)
    (hl : LocalsPlaced ctx s stmt.ownSlots) : Grows ctx.table s s' ∧
      (Faithful ctx.table s → Quiet ctx.table s' → HeadChecked ctx s'.resolutions stmt') := by
  cases h with
  | block | empty => exact ⟨.refl s, fun _ _ => trivial⟩
  | expr hv =>
    have hfind := annotateExpr_finds hs hv.fresh hr hv.run
    exact ⟨hfind.grows, fun hfaith hq => ⟨_, (hfind.typed hfaith hq).1⟩⟩
  | locals hv => exact hv.localsChecked hs hr hl
  | ifThen hc | ifElse hc | loop hc => exact hc.checks hs hr
  | ret hv => exact hv.checks hs hm hr

end

structure Checks (ctx : Context) (s s' : State) (stmt stmt' : Stmt) : Prop where
  slots : stmt'.slots = stmt.slots
  grows : Grows ctx.table s s'
  checked : Faithful ctx.table s → Quiet ctx.table s' → StmtChecked ctx s'.resolutions stmt'

structure ChecksAll (ctx : Context) (s s' : State) (body body' : List Stmt) : Prop where
  slots : Stmt.allSlots body' = Stmt.allSlots body
  grows : Grows ctx.table s s'
  checked : Faithful ctx.table s → Quiet ctx.table s' → StmtsChecked ctx s'.resolutions body'

theorem OneByOne.checksAll {ctx : Context} {body body' : List Stmt} {s s' : State}
    (h : OneByOne (fun x s x' s' => Ready ctx s → LocalsPlaced ctx s x.slots →
      Checks ctx s s' x x') body s body' s')
    (hr : Ready ctx s) (hl : LocalsPlaced ctx s (Stmt.allSlots body)) :
    ChecksAll ctx s s' body body' := by
  induction h with
  | nil => exact ⟨rfl, .refl _, fun _ _ => by simp [StmtsChecked]⟩
  | cons head _ ih =>
    rw [Stmt.allSlots] at hl
    have hd := head hr hl.left
    have hrest := ih (hr.mono hd.grows.extends_) (hl.right hd.grows.extends_)
    refine ⟨by simp only [Stmt.allSlots, hd.slots, hrest.slots], hd.grows.trans hrest.grows,
      fun hfaith hq => ?_⟩
    rw [StmtsChecked]
    exact ⟨(hd.checked hfaith (hq.before hrest.grows.extends_)).extend hrest.grows.extends_,
      hrest.checked (hd.grows.faithful hfaith) hq⟩

theorem Passes.checks {ctx : Context} (hs : ctx.table.Sound)
    (hm : ∀ m, ctx.method = some m → ctx.table.Bound m ∧ m.isMethod = true) {stmt stmt' : Stmt}
    {s s' : State} (h : Passes ctx stmt s stmt' s') (hr : Ready ctx s)
    (hl : LocalsPlaced ctx s stmt.slots) : Checks ctx s s' stmt stmt' := by
  refine Passes.induct (P := fun x s x' s' => Ready ctx s → LocalsPlaced ctx s x.slots →
    Checks ctx s s' x x') ?_ h hr hl
  intro stmt stmt' bodies s s₁ s' _ hstep hbodies hr hl
  rw [Stmt.slots_eq] at hl
  obtain ⟨hg, hc⟩ := hstep.checks hs hm hr hl.left
  have hb := (hbodies.imp fun _ _ {_ _ _} hx => hx.2).checksAll (hr.mono hg.extends_)
    (hl.right hg.extends_)
  refine ⟨?_, hg.trans hb.grows, fun hfaith hq => stmtChecked_iff.mpr ⟨?_, ?_⟩⟩
  · rw [Stmt.slots_eq, Stmt.slots_eq stmt, hstep.ownSlots_eq, hstep.bodies_eq, hb.slots]
  · exact (hc hfaith (hq.before hb.grows.extends_)).extend hb.grows.extends_
  · rw [hstep.bodies_eq]
    exact hb.checked (hg.faithful hfaith) hq

theorem annotateStmts_checks {ctx : Context} (hs : ctx.table.Sound)
    (hm : ∀ m, ctx.method = some m → ctx.table.Bound m ∧ m.isMethod = true)
    {body body' : List Stmt} {s s' : State} (hf : Stmt.allFresh (Stmt.eraseAll body) = true)
    (hr : Ready ctx s) (hl : LocalsPlaced ctx s (Stmt.allSlots body))
    (h : annotateStmts ctx body s = ⟨body', .ok (), s'⟩) : ChecksAll ctx s s' body body' :=
  ((oneByOne_of_annotateStmts hf h).imp fun _ _ {_ _ _} hx => hx.checks hs hm).checksAll hr hl

end Typing

inductive Decl.Same : Decl → Decl → Prop
  | method {path m body} (hb : body.isSome = m.body.isSome)
    (hs : Stmt.allSlots (body.getD []) = m.bodySlots) :
    Decl.Same (.method path m) (.method path { m with body })
  | field {path d vars} (hs : VarDecl.slots { d with vars } = d.slots) :
    Decl.Same (.field path d) (.field path { d with vars })
  | cls {path head} : Decl.Same (.cls path head) (.cls path head)

namespace Decl.Same

theorem refl (d : Decl) : d.Same d := by
  cases d with
  | method path m => exact @Decl.Same.method path m m.body rfl rfl
  | field path d => exact @Decl.Same.field path d d.vars rfl
  | cls path head => exact .cls

theorem symbols {d e : Decl} (h : d.Same e) : e.symbols = d.symbols := by
  cases h with
  | method hb hs => simp only [Decl.symbols, Method.vars, Method.paramSymbols, Method.bodySlots, hs]
  | field hs => simp only [Decl.symbols, hs]
  | cls => rfl

theorem placed {d e : Decl} (h : d.Same e) (hd : d.Placed) : e.Placed := by
  cases h with
  | @method path m body hb hs =>
    cases hm : m.symbol with
    | none =>
      simp only [Decl.Placed, hm] at *
      simpa only [Method.vars, Method.paramSymbols, Method.bodySlots, hs] using hd
    | some s =>
      simp only [Decl.Placed, hm] at *
      simpa only [Method.bodySlots, hs] using hd
  | field hs => simpa only [Decl.Placed, hs] using hd
  | cls => exact hd

theorem filled {d e : Decl} (h : d.Same e) (hd : d.Filled) : e.Filled := by
  cases h with
  | method hb hs => simpa only [Decl.Filled, Method.bodySlots, hs] using hd
  | field hs => simpa only [Decl.Filled, hs] using hd
  | cls => exact hd

end Decl.Same

/-- Members that a choice of the entry point cannot tell apart. -/
inductive Member.Alike : Member → Member → Prop
  | method {m body} : Member.Alike (.method m) (.method { m with body })
  | field {d d'} : Member.Alike (.field d) (.field d')
  | nested {head members members'} : Member.Alike (.nested head members) (.nested head members')

theorem Member.Alike.refl (m : Member) : m.Alike m := by
  cases m with
  | method m => exact @Member.Alike.method m m.body
  | field d => exact .field
  | nested head members => exact .nested

theorem EntryChoice.resolve_of_alike (choice : EntryChoice) (head head' : ClassHead)
    {ms ms' : List Member} (h : List.Forall₂ Member.Alike ms ms') :
    choice.resolve ⟨head', ms'⟩ = choice.resolve ⟨head, ms⟩ := by
  unfold EntryChoice.resolve
  induction h with
  | nil => rfl
  | cons hm _ ih =>
    cases hm with
    | @method m body =>
      have hacc : choice.accepts { m with body } = choice.accepts m := by cases choice <;> rfl
      by_cases ha : choice.accepts m = true
      · simp [EntryChoice.first?, hacc, ha]
      · simpa [EntryChoice.first?, hacc, ha] using ih
    | field => exact ih
    | nested => exact ih

namespace Typing

/-- A parameter that a method's scope holds is one of the method's own. -/
theorem param_of_scope {t : Table} {tag : Nat} {ds : List Decl} (h : Declares t tag ds)
    {path : List String} {m : Method} (hd : .method path m ∈ ds) {s : Symbol} {k : ScopeId}
    (hs : m.symbol = some s) (hk : s.scope = some k) {b : Symbol} (hb : t.Bound b)
    (hin : b.declaredIn = k) (hp : IsParam b) : ∃ p ∈ m.params, p.symbol = some b := by
  obtain ⟨type, index, hdet⟩ := hp
  subst hin
  cases h.declared hb with
  | param hm' hs' hin' hp hpb _ =>
    obtain rfl := h.method_eq_of_scope hd hm' hs hs' (hin'.trans hk.symm) (by simp [hk])
    exact ⟨_, hp, hpb⟩
  | system hb =>
    subst hb
    cases hdet
  | _ =>
    rename_i hd'
    rw [hdet] at hd'
    cases hd'

theorem typeParams_grows {t : Table} (h : t.Sound) (scope : ScopeId) (params : List Param) :
    ∀ {s : State}, (∀ p ∈ params, ∀ b, p.symbol = some b → t.Bound b ∧ Writes t b scope p.type) →
      (∀ p ∈ params, Told t s scope p.type) →
      Grows t s (typeParams params (params.map fun p => meaning t scope p.type) s) ∧
        ∀ p ∈ params, ∀ b, p.symbol = some b →
          ((typeParams params (params.map fun p => meaning t scope p.type) s).resolutions.type?
            b).isSome = true := by
  induction params with
  | nil =>
    intro s _ _
    exact ⟨.refl s, by simp⟩
  | cons p params ih =>
    intro s hw hk
    have hfirst : ∃ s1, typeParams (p :: params)
          ((p :: params).map fun p => meaning t scope p.type) s =
          typeParams params (params.map fun p => meaning t scope p.type) s1 ∧ Grows t s s1 ∧
        ∀ b, p.symbol = some b → (s1.resolutions.type? b).isSome = true := by
      cases hp : p.symbol with
      | none => exact ⟨s, by simp [typeParams, hp], .refl s, by simp⟩
      | some b =>
        obtain ⟨hb, hwb⟩ := hw p List.mem_cons_self b hp
        refine ⟨s.setType b (meaning t scope p.type), by simp [typeParams, hp],
          .setType h hb ⟨scope, p.type, hwb, rfl, hk p List.mem_cons_self⟩, ?_⟩
        rintro _ ⟨⟩
        have hself := s.resolutions.type?_setType_self b (meaning t scope p.type)
        exact Option.isSome_iff_exists.mpr ⟨_, hself⟩
    obtain ⟨s1, he, hg, hfirst⟩ := hfirst
    obtain ⟨hgs, hrest⟩ := ih (s := s1) (fun q hq => hw q (List.mem_cons_of_mem _ hq))
      (fun q hq => (hk q (List.mem_cons_of_mem _ hq)).mono hg.extends_)
    rw [he]
    refine ⟨hg.trans hgs, ?_⟩
    intro q hq b hb
    rcases List.mem_cons.mp hq with rfl | hq
    · obtain ⟨T, hT⟩ := Option.isSome_iff_exists.mp (hfirst b hb)
      exact Option.isSome_iff_exists.mpr ⟨T, hgs.extends_.types hT⟩
    · exact hrest q hq b hb

theorem typeParams_diagnostics {params : List Param} :
    ∀ {Ts : List Ty} {s : State}, (typeParams params Ts s).diagnostics = s.diagnostics := by
  induction params with
  | nil =>
    intro Ts s
    rfl
  | cons p params ih =>
    intro Ts s
    cases Ts with
    | nil => rfl
    | cons T Ts =>
      rw [typeParams, ih]
      cases p.symbol <;> rfl

/-- A method obeys the rules in its own scope, and fields take no initial value. -/
def DeclChecked (t : Table) (entry : Option Nat) (r : Resolutions) : Decl → Prop
  | .method _ m => ∀ b, m.symbol = some b →
      ((r.params? b).isSome = true ∧ (r.type? b).isSome = true ∧
        ∀ p ∈ m.params, ∀ q, p.symbol = some q → (r.type? q).isSome = true) ∧
      ∃ scope body, b.scope = some scope ∧ m.body = some body ∧
        StmtsChecked ⟨t, scope, some b, entry⟩ r body
  | .field _ d => ∀ v ∈ d.vars, v.init = none ∧
      ∀ b, v.symbol = some b → (r.type? b).isSome = true
  | .cls _ _ => True

theorem isSome_type?_mono {s s' : State} (he : Extends s s') {b : Symbol}
    (h : (s.resolutions.type? b).isSome = true) : (s'.resolutions.type? b).isSome = true := by
  obtain ⟨T, hT⟩ := Option.isSome_iff_exists.mp h
  exact Option.isSome_iff_exists.mpr ⟨T, he.types hT⟩

theorem DeclChecked.extend {t : Table} {entry : Option Nat} {s s' : State} (he : Extends s s')
    {d : Decl} (h : DeclChecked t entry s.resolutions d) :
    DeclChecked t entry s'.resolutions d := by
  cases d with
  | method path m =>
    intro b hb
    obtain ⟨⟨hp, ht, hps⟩, scope, body, hscope, hbody, hc⟩ := h b hb
    obtain ⟨Ts, hTs⟩ := Option.isSome_iff_exists.mp hp
    exact ⟨⟨Option.isSome_iff_exists.mpr ⟨Ts, he.params hTs⟩, isSome_type?_mono he ht,
      fun p hp q hq => isSome_type?_mono he (hps p hp q hq)⟩,
      scope, body, hscope, hbody, hc.extend he⟩
  | field path d =>
    intro v hv
    exact ⟨(h v hv).1, fun b hb => isSome_type?_mono he ((h v hv).2 b hb)⟩
  | cls path head => trivial

/-- What the table holds of a registered method. -/
theorem method_declared {t : Table} {tag : Nat} {ds : List Decl} (h : Declares t tag ds)
    {path : List String} {m : Method} (hd : .method path m ∈ ds) {b : Symbol}
    (hb : m.symbol = some b) :
    t.Bound b ∧ b.isMethod = true ∧
      b.details = .method (m.params.map Param.type) m.returns m.modifiers path none ∧
      ∃ k, b.scope = some k ∧
        (∀ p ∈ m.params, ∀ q, p.symbol = some q →
          t.Bound q ∧ Writes t q b.declaredIn p.type) ∧
        ∀ v ∈ m.bodySlots, ∀ q, v.symbol = some q →
          t.Bound q ∧ q.declaredIn = k ∧ ∃ index, q.details = .var v.type (.slot index) := by
  have hbound : ∀ x ∈ (Decl.method path m).symbols, t.Bound x := fun x hx =>
    (h.bound x).mpr (Or.inr (Decl.mem_allSymbols hd hx))
  have hown := hbound b (by simp [Decl.symbols, hb])
  have hplaced := h.placed _ hd
  simp only [Decl.Placed, hb] at hplaced
  obtain ⟨⟨-, hdet⟩, k, hk, hparams, hslots⟩ := hplaced
  refine ⟨hown, by simp [Symbol.isMethod, Symbol.kind, hdet], hdet, k, hk, ?_, ?_⟩
  · intro p hp q hq
    obtain ⟨-, hin, index, hqd⟩ := hparams.of_mem hp hq
    refine ⟨hbound q ?_, ?_⟩
    · simp only [Decl.symbols, Method.vars, Method.paramSymbols, List.mem_append,
        List.mem_filterMap]
      exact Or.inr (Or.inl ⟨p, hp, hq⟩)
    · simp only [Writes, hqd]
      exact ⟨trivial, b, hown, hin ▸ hk, rfl⟩
  · intro v hv q hq
    obtain ⟨-, hin, index, hqd⟩ := hslots.of_mem hv hq
    refine ⟨hbound q ?_, hin, index, hqd⟩
    simp only [Decl.symbols, Method.vars, VarSlot.symbols, List.mem_append, List.mem_filterMap]
    exact Or.inr (Or.inr ⟨v, hv, hq⟩)

structure Enters (ctx : Context) (s s' : State) (m : Method) (b : Symbol) (k : ScopeId) : Prop where
  grows : Grows ctx.table s s'
  scope : b.scope = some k
  result : (s'.resolutions.type? b).isSome = true
  params : ∃ Ts, s'.resolutions.params? b = some Ts ∧ Ts.length = m.params.length
  typed : ∀ p ∈ m.params, ∀ q, p.symbol = some q → (s'.resolutions.type? q).isSome = true
  ready : Ready ⟨ctx.table, k, some b, ctx.entry⟩ s'

theorem enters_of_signature {ctx : Context} {tag : Nat} {ds : List Decl}
    (h : Declares ctx.table tag ds) {path : List String} {m : Method} {s s1 : State}
    (hd : .method path m ∈ ds) (hfaith : Faithful ctx.table s) {b : Symbol}
    (hb : m.symbol = some b) {Ts : List Ty} {T : Ty}
    (hsig : s.signature ctx.table b = (Ts, T, s1)) :
    ∃ k, Enters ctx s (typeParams m.params Ts s1) m b k := by
  obtain ⟨hbound, hmeth, hdet, k, hk, hwrites, -⟩ := method_declared h hd hb
  obtain ⟨hg1, hTs, hT⟩ := signature_grows h.sound hbound hmeth hsig
  obtain ⟨params, _, _, _, _, hdet', hmean, htold⟩ := (hg1.faithful hfaith).params hbound hTs
  rw [hdet] at hdet'
  cases hdet'
  obtain ⟨hg2, hrec⟩ := typeParams_grows h.sound b.declaredIn m.params (s := s1) hwrites
    (fun p hp => htold _ (List.mem_map_of_mem hp))
  rw [List.map_map] at hmean
  rw [show (m.params.map fun p => meaning ctx.table b.declaredIn p.type) = Ts from hmean.symm]
    at hg2 hrec
  refine ⟨k, hg1.trans hg2, hk, ?_, ⟨Ts, hg2.extends_.params hTs, ?_⟩, hrec, ?_⟩
  · exact Option.isSome_iff_exists.mpr ⟨T, hg2.extends_.types hT⟩
  · rw [hmean, List.length_map]
  · intro q hq hin hpar
    obtain ⟨p, hp, hsym⟩ := param_of_scope h hd hb hk hq hin hpar
    exact hrec p hp q hsym

theorem annotateMethod_enters {ctx : Context} {tag : Nat} {ds : List Decl}
    (h : Declares ctx.table tag ds) {path : List String} {m m' : Method} {s s' : State}
    (hd : .method path m ∈ ds) (hfaith : Faithful ctx.table s) {b : Symbol}
    (hb : m.symbol = some b) (hv : annotateMethod ctx m s = ⟨m', .ok (), s'⟩) :
    ∃ k s1 body body', Enters ctx s s1 m b k ∧ m.body = some body ∧
      m' = { m with body := some body' } ∧
      annotateStmts ⟨ctx.table, k, some b, ctx.entry⟩ body s1 = ⟨body', .ok (), s'⟩ := by
  unfold annotateMethod at hv
  rcases hsig : s.signature ctx.table b with ⟨Ts, T, s1⟩
  obtain ⟨k, he⟩ := enters_of_signature h hd hfaith hb hsig
  simp only [hb, he.scope, hsig] at hv
  cases hbody : m.body with
  | none =>
    rw [hbody] at hv
    cases hv
  | some body =>
    rw [hbody] at hv
    obtain ⟨body', hstmts, rfl⟩ := Visit.within_ok_iff.mp hv
    exact ⟨k, _, body, body', he, rfl, by rw [hb], hstmts⟩

theorem Enters.localsPlaced {ctx : Context} {tag : Nat} {ds : List Decl}
    (h : Declares ctx.table tag ds) {path : List String} {m : Method} {s s' : State} {b : Symbol}
    {k : ScopeId} (he : Enters ctx s s' m b k) (hd : .method path m ∈ ds) (hb : m.symbol = some b)
    (hfill : s.diagnostics = [] → (Decl.method path m).Filled) :
    LocalsPlaced ⟨ctx.table, k, some b, ctx.entry⟩ s' m.bodySlots := by
  obtain ⟨-, -, -, j, hj, -, hslots⟩ := method_declared h hd hb
  obtain rfl := Option.some.inj (hj.symm.trans he.scope)
  exact ⟨hslots, fun hdiag => (hfill (he.grows.extends_.quiet hdiag)).2.2⟩

theorem annotateMethod_checks {ctx : Context} {tag : Nat} {ds : List Decl}
    (h : Declares ctx.table tag ds) {path : List String} {m m' : Method} {s s' : State}
    (hd : .method path m ∈ ds) (hf : m.erase.isFresh = true)
    (hfill : s.diagnostics = [] → (Decl.method path m).Filled)
    (hfaith : Faithful ctx.table s) (hv : annotateMethod ctx m s = ⟨m', .ok (), s'⟩) :
    (Decl.method path m).Same (.method path m') ∧ Grows ctx.table s s' ∧
      (Quiet ctx.table s' → DeclChecked ctx.table ctx.entry s'.resolutions (.method path m')) := by
  cases hb : m.symbol with
  | none =>
    simp only [annotateMethod, hb] at hv
    cases hv
    refine ⟨.refl _, .refl s, fun _ b hb' => ?_⟩
    rw [hb] at hb'
    cases hb'
  | some b =>
    obtain ⟨hbound, hmeth, -⟩ := method_declared h hd hb
    obtain ⟨k, s1, body, body', he, hbody, rfl, hstmts⟩ := annotateMethod_enters h hd hfaith hb hv
    have hfb := isFresh_body hf hbody
    have hbs : m.bodySlots = Stmt.allSlots body := by simp [Method.bodySlots, hbody]
    have hsound : (Context.mk ctx.table k (some b) ctx.entry).table.Sound := h.sound
    have hcheck := annotateStmts_checks hsound (by rintro _ ⟨⟩; exact ⟨hbound, hmeth⟩) hfb he.ready
      (hbs ▸ he.localsPlaced h hd hb hfill) hstmts
    refine ⟨.method (by simp [hbody]) (by rw [hbs]; exact hcheck.slots),
      he.grows.trans hcheck.grows, fun hq b' hb' => ?_⟩
    obtain rfl : b = b' := Option.some.inj (hb.symm.trans hb')
    obtain ⟨Ts, hTs, -⟩ := he.params
    refine ⟨⟨?_, isSome_type?_mono hcheck.grows.extends_ he.result, ?_⟩, k, body', he.scope, rfl,
      hcheck.checked (he.grows.faithful hfaith) hq⟩
    · exact Option.isSome_iff_exists.mpr ⟨Ts, hcheck.grows.extends_.params hTs⟩
    · intro p hp q hq'
      exact isSome_type?_mono hcheck.grows.extends_ (he.typed p hp q hq')

theorem field_declared {t : Table} {tag : Nat} {ds : List Decl} (h : Declares t tag ds)
    {path : List String} {d : VarDecl} (hd : .field path d ∈ ds) :
    ∀ v ∈ d.vars, ∀ b, v.symbol = some b → t.Bound b ∧ ∃ st owner,
      b.details = .var d.type (.field st owner) := by
  intro v hv b hb
  have hslot : (⟨v.name.text, d.type, v.symbol⟩ : VarSlot) ∈ d.slots := List.mem_map_of_mem hv
  refine ⟨(h.bound b).mpr (Or.inr (Decl.mem_allSymbols hd ?_)),
    _, _, (h.placed _ hd _ hslot b hb).2⟩
  exact List.mem_filterMap.mpr ⟨_, hslot, hb⟩

theorem field_isVar {t : Table} {tag : Nat} {ds : List Decl} (h : Declares t tag ds)
    {path : List String} {d : VarDecl} (hd : .field path d ∈ ds) :
    ∀ v ∈ d.vars, ∀ b, v.symbol = some b → t.Bound b ∧ b.kind = .var ∧ ¬ IsParam b := by
  intro v hv b hb
  obtain ⟨hbound, st, owner, hdet⟩ := field_declared h hd v hv b hb
  exact ⟨hbound, by simp [Symbol.kind, hdet], by simp [IsParam, hdet]⟩

theorem FieldStep.grows {ctx : Context} (hs : ctx.table.Sound) {type : TypeExpr}
    {v v' : Declarator} {s s' : State} (h : FieldStep ctx type v s v' s') (hr : Ready ctx s)
    (hv : ∀ b, v.symbol = some b → ctx.table.Bound b ∧ b.kind = .var ∧ ¬ IsParam b) :
    Grows ctx.table s s' := by
  cases h with
  | bare _ hd => exact (declaredType_grows hs hv hd).1
  | @refused init _ _ _ _ s₁ _ _ hd hinit =>
    have hg := (declaredType_grows hs hv hd).1.trans
      (.report s₁ (.unsupported "field initializers") init.span.start)
    exact hg.trans (annotateExpr_finds hs hinit.fresh (hr.mono hg.extends_) hinit.run).grows

theorem OneByOne.fieldsGrow {ctx : Context} (hs : ctx.table.Sound) {type : TypeExpr}
    {vars vars' : List Declarator} {s s' : State}
    (h : OneByOne (FieldStep ctx type) vars s vars' s') (hr : Ready ctx s)
    (hv : ∀ v ∈ vars, ∀ b, v.symbol = some b → ctx.table.Bound b ∧ b.kind = .var ∧ ¬ IsParam b) :
    Grows ctx.table s s' := by
  induction h with
  | nil => exact .refl _
  | cons head _ ih =>
    rw [List.forall_mem_cons] at hv
    have hg := head.grows hs hr hv.1
    exact hg.trans (ih (hr.mono hg.extends_) hv.2)

theorem FieldStep.recorded {ctx : Context} {type : TypeExpr} {v v' : Declarator} {s s' : State}
    (h : FieldStep ctx type v s v' s') :
    ∀ b, v.symbol = some b → (s'.resolutions.type? b).isSome = true := by
  cases h with
  | bare _ hd => exact fun b hb => Option.isSome_iff_exists.mpr ⟨_, (declaredType_found hd).2 b hb⟩
  | refused _ hd hv =>
    intro b hb
    exact Option.isSome_iff_exists.mpr ⟨_, hv.extends_.types ((declaredType_found hd).2 b hb)⟩

theorem OneByOne.fieldsRecorded {ctx : Context} {type : TypeExpr} {vars vars' : List Declarator}
    {s s' : State} (h : OneByOne (FieldStep ctx type) vars s vars' s') :
    ∀ v ∈ vars, ∀ b, v.symbol = some b → (s'.resolutions.type? b).isSome = true := by
  induction h with
  | nil => simp
  | cons head tail ih =>
    have hext := (tail.imp fun _ _ {_ _ _} hx => hx.extends_).extends_
    exact List.forall_mem_cons.mpr ⟨fun b hb => isSome_type?_mono hext (head.recorded b hb), ih⟩

theorem annotateField_checks {ctx : Context} {tag : Nat} {ds : List Decl}
    (h : Declares ctx.table tag ds) {path : List String} {d d' : VarDecl} {s s' : State}
    (hd : .field path d ∈ ds) (hf : d.erase.isFresh = true) (hr : Ready ctx s)
    (hv : annotateField ctx d s = ⟨d', .ok (), s'⟩) :
    (Decl.field path d).Same (.field path d') ∧ Grows ctx.table s s' ∧
      (Quiet ctx.table s' → DeclChecked ctx.table ctx.entry s'.resolutions (.field path d')) := by
  obtain ⟨vars, rfl, hsteps⟩ := oneByOne_of_annotateField hf hv
  refine ⟨.field ((hsteps.imp fun _ _ {_ _ _} hx => hx.slot_eq).slots_eq _),
    hsteps.fieldsGrow h.sound hr (field_isVar h hd), fun hq => ?_⟩
  obtain ⟨rfl, hinits⟩ := hsteps.fieldsQuiet hq.diagnostics
  exact fun v hv => ⟨hinits v hv, hsteps.fieldsRecorded v hv⟩

structure ChecksDecls (t : Table) (entry : Option Nat) (s s' : State) (ds ds' : List Decl) :
    Prop where
  same : List.Forall₂ Decl.Same ds ds'
  grows : Grows t s s'
  checked : Quiet t s' → ∀ d ∈ ds', DeclChecked t entry s'.resolutions d

theorem ChecksDecls.trans {t : Table} {entry : Option Nat} {s s' s'' : State}
    {as as' bs bs' : List Decl} (h : ChecksDecls t entry s s' as as')
    (k : ChecksDecls t entry s' s'' bs bs') :
    ChecksDecls t entry s s'' (as ++ bs) (as' ++ bs') := by
  refine ⟨List.rel_append h.same k.same, h.grows.trans k.grows, fun hq d hd => ?_⟩
  rcases List.mem_append.mp hd with hd | hd
  · exact (h.checked (hq.before k.grows.extends_) d hd).extend k.grows.extends_
  · exact k.checked hq d hd

/-- No parameter belongs to the scope of a class. -/
theorem ready_of_pathOf {ctx : Context} (h : ctx.table.Sound) {path : List String}
    (hp : ctx.table.PathOf ctx.scope path) (s : State) : Ready ctx s := by
  rintro b hb hin ⟨type, index, hd⟩
  have hfits := h.fits b hb
  simp only [Table.Fits, hd] at hfits
  rw [hin] at hfits
  exact absurd hfits.2 (hp.not_isBody h)

theorem cls_scope {t : Table} {tag : Nat} {ds : List Decl} (h : Declares t tag ds)
    {path : List String} {head : ClassHead} (hd : .cls path head ∈ ds) {b : Symbol} {k : ScopeId}
    (hb : head.symbol = some b) (hk : b.scope = some k) : t.PathOf k path := by
  obtain ⟨-, -, hdet⟩ := h.placed _ hd b hb
  exact Or.inr ⟨b, _, _, h.bound_of_mem hd (by simp [Decl.symbols, hb]), hk, hdet⟩

theorem annotateClassWith_checks {ctx : Context} {tag : Nat} {ds : List Decl}
    (h : Declares ctx.table tag ds) {path : List String} {head : ClassHead} {members : List Member}
    {body : Context → Visit State (List Member) Unit} {c : ClassDecl} {s s' : State}
    (hin : ∀ d ∈ (ClassDecl.mk head members).decls path, d ∈ ds)
    (hfill : s.diagnostics = [] → ∀ d ∈ ds, d.Filled)
    (hbody : ∀ {k members' s'}, ctx.table.PathOf k (path ++ [head.name.text]) →
      body { ctx with scope := k, method := none } s = ⟨members', .ok (), s'⟩ →
      List.Forall₂ Member.Alike members members' ∧
        ChecksDecls ctx.table ctx.entry s s' (Member.allDecls (path ++ [head.name.text]) members)
          (Member.allDecls (path ++ [head.name.text]) members'))
    (hv : annotateClassWith ctx head members body s = ⟨c, .ok (), s'⟩) :
    c.head = head ∧ List.Forall₂ Member.Alike members c.members ∧
      ChecksDecls ctx.table ctx.entry s s' ((ClassDecl.mk head members).decls path)
        (c.decls path) := by
  have hcls : Decl.cls (path ++ [head.name.text]) head ∈ ds := hin _ List.mem_cons_self
  cases classStep_of_annotateClassWith hv with
  | passed hb =>
    refine ⟨rfl, List.forall₂_same.mpr fun m _ => .refl m,
      List.forall₂_same.mpr fun d _ => .refl d, .refl s, fun hq => ?_⟩
    exact absurd hb (hfill hq.diagnostics _ hcls)
  | entered hb hk hm =>
    obtain ⟨ha, hc⟩ := hbody (cls_scope h hcls hb hk) hm
    refine ⟨rfl, ha, .cons .cls hc.same, hc.grows, fun hq d hd => ?_⟩
    rcases List.mem_cons.mp hd with rfl | hd
    · trivial
    · exact hc.checked hq d hd

mutual

theorem annotateMember_checks {ctx : Context} {tag : Nat} {ds : List Decl}
    (h : Declares ctx.table tag ds) {path : List String} (hp : ctx.table.PathOf ctx.scope path)
    {m m' : Member} {s s' : State} (hin : ∀ d ∈ m.decls path, d ∈ ds)
    (hf : m.erase.isFresh = true) (hfill : s.diagnostics = [] → ∀ d ∈ ds, d.Filled)
    (hfaith : Faithful ctx.table s) (hv : annotateMember ctx m s = ⟨m', .ok (), s'⟩) :
    m.Alike m' ∧ ChecksDecls ctx.table ctx.entry s s' (m.decls path) (m'.decls path) := by
  cases m with
  | method m =>
    rw [annotateMember] at hv
    rw [Member.erase, Member.isFresh] at hf
    obtain ⟨m', hm, rfl⟩ := Visit.within_ok_iff.mp hv
    have hd : Decl.method path m ∈ ds := hin _ (by rw [Member.decls]; exact List.mem_cons_self)
    obtain ⟨hsame, hg, hc⟩ :=
      annotateMethod_checks h hd hf (fun hdiag => hfill hdiag _ hd) hfaith hm
    rw [Member.decls, Member.decls]
    refine ⟨?_, .cons hsame .nil, hg, fun hq => by simpa using hc hq⟩
    cases hsame
    exact .method
  | field d =>
    rw [annotateMember] at hv
    rw [Member.erase, Member.isFresh] at hf
    obtain ⟨d', hm, rfl⟩ := Visit.within_ok_iff.mp hv
    have hd : Decl.field path d ∈ ds := hin _ (by rw [Member.decls]; exact List.mem_cons_self)
    obtain ⟨hsame, hg, hc⟩ := annotateField_checks h hd hf (ready_of_pathOf h.sound hp s) hm
    rw [Member.decls, Member.decls]
    exact ⟨.field, .cons hsame .nil, hg, fun hq => by simpa using hc hq⟩
  | nested head members =>
    rw [annotateMember] at hv
    rw [Member.erase, Member.isFresh, Bool.and_eq_true] at hf
    obtain ⟨c, hm, rfl⟩ := Visit.within_ok_iff.mp hv
    rw [Member.decls] at hin
    have hrest : ∀ d ∈ Member.allDecls (path ++ [head.name.text]) members, d ∈ ds := fun d hd =>
      hin d (List.mem_cons_of_mem _ hd)
    obtain ⟨hhead, -, hc⟩ := annotateClassWith_checks h hin hfill (fun {k _ _} hpath hb => by
      have h' : Declares (Context.mk ctx.table k none ctx.entry).table tag ds := h
      exact annotateMembers_checks h' hpath hrest hf.2 hfill hfaith hb) hm
    rw [Member.decls, Member.decls]
    exact ⟨hhead ▸ .nested, hc⟩

theorem annotateMembers_checks {ctx : Context} {tag : Nat} {ds : List Decl}
    (h : Declares ctx.table tag ds) {path : List String} (hp : ctx.table.PathOf ctx.scope path)
    {ms ms' : List Member} {s s' : State} (hin : ∀ d ∈ Member.allDecls path ms, d ∈ ds)
    (hf : Member.allFresh (Member.eraseAll ms) = true)
    (hfill : s.diagnostics = [] → ∀ d ∈ ds, d.Filled) (hfaith : Faithful ctx.table s)
    (hv : annotateMembers ctx ms s = ⟨ms', .ok (), s'⟩) :
    List.Forall₂ Member.Alike ms ms' ∧ ChecksDecls ctx.table ctx.entry s s'
      (Member.allDecls path ms) (Member.allDecls path ms') := by
  cases ms with
  | nil =>
    rw [annotateMembers] at hv
    cases hv
    rw [Member.allDecls]
    exact ⟨.nil, .nil, .refl s, by simp⟩
  | cons m rest =>
    rw [annotateMembers] at hv
    rw [Member.eraseAll, Member.allFresh, Bool.and_eq_true] at hf
    rw [Member.allDecls] at hin
    obtain ⟨m', _, s1, h1, h2⟩ := Visit.part_ok_iff.mp hv
    obtain ⟨rest', hrest, rfl⟩ := Visit.within_ok_iff.mp h2
    obtain ⟨ha, hc⟩ := annotateMember_checks h hp
      (fun d hd => hin d (List.mem_append_left _ hd)) hf.1 hfill hfaith h1
    obtain ⟨has, hcs⟩ := annotateMembers_checks h hp
      (fun d hd => hin d (List.mem_append_right _ hd)) hf.2
      (fun hdiag => hfill (hc.grows.extends_.quiet hdiag)) (hc.grows.faithful hfaith) hrest
    rw [Member.allDecls, Member.allDecls]
    exact ⟨.cons ha has, hc.trans hcs⟩

end

theorem faithful_empty (t : Table) (diagnostics : List Diagnostic) :
    Faithful t ⟨.empty, diagnostics⟩ := by
  constructor
  · intro b T _ hT
    simp [Resolutions.empty, Resolutions.type?] at hT
  · intro b Ts _ hTs
    simp [Resolutions.empty, Resolutions.params?] at hTs

theorem forall_mem_of_same {P Q : Decl → Prop} {ds ds' : List Decl}
    (h : List.Forall₂ Decl.Same ds ds') (hpq : ∀ {d e : Decl}, d.Same e → P d → Q e)
    (hp : ∀ d ∈ ds, P d) : ∀ e ∈ ds', Q e := by
  induction h with
  | nil => simp
  | cons hs _ ih =>
    rw [List.forall_mem_cons] at hp ⊢
    exact ⟨hpq hs hp.1, ih hp.2⟩

theorem allSymbols_of_same {ds ds' : List Decl} (h : List.Forall₂ Decl.Same ds ds') :
    Decl.allSymbols ds' = Decl.allSymbols ds := by
  induction h with
  | nil => rfl
  | cons hd _ ih => rw [Decl.allSymbols_cons, Decl.allSymbols_cons, hd.symbols, ih]

theorem declares_of_same {t : Table} {tag : Nat} {ds ds' : List Decl} (h : Declares t tag ds)
    (hs : List.Forall₂ Decl.Same ds ds') : Declares t tag ds' := by
  have hsymbols := allSymbols_of_same hs
  exact ⟨h.sound, hsymbols ▸ h.bound, hsymbols ▸ h.ordered,
    forall_mem_of_same hs Decl.Same.placed h.placed⟩

theorem annotateUnit_checks {u registered u' : CompilationUnit} {tag : Nat}
    {choice : EntryChoice} {s : Registration.State} {s' : State} (hf : u.isFresh = true)
    (hr : Registration.registerUnit u (.withSystem tag) [] = ⟨registered, .ok (), s⟩)
    (hv : annotateUnit registered s.table choice ⟨.empty, s.diagnostics⟩ = ⟨u', .ok (), s'⟩) :
    ∃ c c', registered.top = some c ∧ u'.top = some c' ∧
      choice.resolve c' = choice.resolve c ∧
      ChecksDecls s.table (choice.resolve c) ⟨.empty, s.diagnostics⟩ s' registered.decls
        u'.decls := by
  obtain ⟨herase, hreg⟩ := Registration.registerUnit_registers hf hr
  have hfresh := CompilationUnit.isFresh_erase hf
  rw [← herase] at hfresh
  have hdecl := hreg.declares
  obtain ⟨_ | c⟩ := registered
  · cases hv
  obtain ⟨c', hc, rfl⟩ := Visit.within_ok_iff.mp hv
  simp only [CompilationUnit.isFresh, CompilationUnit.erase, Option.map_some, Option.all_some,
    ClassDecl.erase, Bool.and_eq_true] at hfresh
  have hroot : Declares (Context.mk s.table Table.root none (choice.resolve c)).table tag
      (c.decls []) := hdecl
  obtain ⟨-, halike, hcheck⟩ := annotateClassWith_checks hroot (fun d hd => hd) hreg.filled
    (fun {k _ _} hpath hb => by
      have h' : Declares (Context.mk s.table k none (choice.resolve c)).table tag (c.decls []) :=
        hdecl
      exact annotateMembers_checks h' hpath (fun d hd => List.mem_cons_of_mem _ hd) hfresh.2
        hreg.filled (faithful_empty s.table s.diagnostics) hb) hc
  exact ⟨c, c', rfl, rfl, choice.resolve_of_alike c.head c'.head halike, hcheck⟩

structure Analysed (t : Table) (tag : Nat) (choice : EntryChoice) (s : State)
    (u : CompilationUnit) (c : ClassDecl) : Prop where
  top : u.top = some c
  declares : Declares t tag u.decls
  faithful : Faithful t s
  filled : s.diagnostics = [] → ∀ d ∈ u.decls, d.Filled
  checked : Quiet t s → ∀ d ∈ u.decls, DeclChecked t (choice.resolve c) s.resolutions d

theorem annotateUnit_analysed {u registered u' : CompilationUnit} {tag : Nat}
    {choice : EntryChoice} {s : Registration.State} {s' : State} (hf : u.isFresh = true)
    (hr : Registration.registerUnit u (.withSystem tag) [] = ⟨registered, .ok (), s⟩)
    (hv : annotateUnit registered s.table choice ⟨.empty, s.diagnostics⟩ = ⟨u', .ok (), s'⟩) :
    List.Forall₂ Decl.Same registered.decls u'.decls ∧
      ∃ c, Analysed s.table tag choice s' u' c := by
  obtain ⟨-, hreg⟩ := Registration.registerUnit_registers hf hr
  obtain ⟨c, c', -, htop, hentry, hcheck⟩ := annotateUnit_checks hf hr hv
  refine ⟨hcheck.same, c', htop, declares_of_same hreg.declares hcheck.same,
    hcheck.grows.faithful (faithful_empty s.table s.diagnostics), fun hd => ?_, fun hq => ?_⟩
  · exact forall_mem_of_same hcheck.same Decl.Same.filled
      (hreg.filled (hcheck.grows.extends_.quiet hd))
  · rw [hentry]
    exact hcheck.checked hq

end Typing

end ClassLang
