import ClassLang.Proofs.Accepted
import ClassLang.Proofs.Overloads

/-! The type `error` stands for a report. Where all written types mean something, an expression has
type `error` exactly if something was reported while it was checked, so nothing is reported about a
node whose operands have type `error`. Each report is then a fault of its own: of the nodes above
one that reports, none reports as well. Field access, indexing, `new` with arguments and calls of
computed values are refused whatever their operands are, and only there a report may follow from
another. -/
namespace ClassLang

/-- Every written type of the table means a type, where it is declared. -/
def Table.Plain (t : Table) : Prop :=
  ∀ b, t.Lists b → ∀ type ∈ b.writtenTypes, Typing.Resolves t b.declaredIn type

def Table.symbols (t : Table) : List Symbol :=
  t.scopes.flatMap fun scope => scope.bindings.toList.flatMap (·.2)

theorem Table.mem_symbols {t : Table} {b : Symbol} (h : t.Lists b) : b ∈ t.symbols := by
  obtain ⟨k, x, h⟩ := h
  unfold members at h
  split at h
  · next scope hscope =>
    unfold Scope.get at h
    rw [Std.TreeMap.getD_eq_getD_getElem?] at h
    cases hx : scope.bindings[x]? with
    | none =>
      rw [hx] at h
      cases h
    | some found =>
      rw [hx, Option.getD_some] at h
      have hpair := Std.TreeMap.mem_toList_iff_getElem?_eq_some.mpr hx
      exact List.mem_flatMap.mpr ⟨scope, List.mem_of_getElem? hscope,
        List.mem_flatMap.mpr ⟨_, hpair, h⟩⟩
  · cases h

def Table.isPlain (t : Table) : Bool :=
  t.symbols.all fun b => b.writtenTypes.all fun type =>
    (Typing.resolveType t b.declaredIn type).2.isNone &&
      !(Typing.meaning t b.declaredIn type).isError

theorem Table.plain_of_isPlain {t : Table} (h : t.isPlain = true) : t.Plain := by
  intro b hb type htype
  have hall := List.all_eq_true.mp (List.all_eq_true.mp h b (mem_symbols hb)) type htype
  rw [Bool.and_eq_true, Option.isNone_iff_eq_none, Bool.not_eq_true'] at hall
  exact ⟨hall.1, fun he => by simp [he, Ty.isError] at hall⟩

namespace Typing

def Clear (t : Table) (s : State) : Prop :=
  ∀ b, t.Lists b → s.resolutions.type? b ≠ some .error

section

variable {t : Table} {s s' : State}

theorem Clear.of_resolutions_eq (h : Clear t s) (hr : s'.resolutions = s.resolutions) :
    Clear t s' := by
  intro b hb
  rw [hr]
  exact h b hb

theorem Clear.setType (h : Clear t s) (b : Symbol) {T : Ty} (hT : T ≠ .error) :
    Clear t (s.setType b T) := by
  intro c hc
  by_cases hid : c.id = b.id
  · have hself : (s.setType b T).resolutions.type? c = some ((s.resolutions.type? c).getD T) := by
      have hb := s.resolutions.type?_setType_self b T
      simp only [Resolutions.type?, ← hid] at hb
      exact hb
    rw [hself]
    cases hr : s.resolutions.type? c with
    | none => simpa using hT
    | some U =>
      have hne := h c hc
      rw [hr] at hne
      simpa using hne
  · rw [show (s.setType b T).resolutions.type? c = s.resolutions.type? c from
      s.resolutions.type?_setType_of_ne T hid]
    exact h c hc

theorem Clear.setParams (h : Clear t s) (b : Symbol) (Ts : List Ty) :
    Clear t (s.setParams b Ts) := by
  intro c hc
  rw [type?_setParams]
  exact h c hc

theorem failures_eq_nil {scope : ScopeId} {type : TypeExpr} (h : Resolves t scope type) :
    failures t scope type = [] := by
  rw [failures, h.quiet]
  rfl

theorem varType_clear (ht : t.Plain) {b : Symbol} {T : Ty} (hb : t.Lists b) (hc : Clear t s)
    (h : s.varType t b = (T, s')) :
    T ≠ .error ∧ s'.diagnostics = s.diagnostics ∧ Clear t s' := by
  unfold State.varType at h
  split at h
  · next U hU =>
    cases h
    exact ⟨fun he => hc b hb (he ▸ hU), rfl, hc⟩
  · cases hd : b.details with
    | var type storage =>
      have hres := ht b hb type (by simp [Symbol.writtenTypes, hd])
      simp only [hd, resolve_eq, failures_eq_nil hres, State.also_nil] at h
      cases h
      exact ⟨hres.ne_error, rfl, hc.setType b hres.ne_error⟩
    | cls | method =>
      simp only [hd] at h
      cases h
      have hne : Ty.declaration ≠ .error := by simp
      exact ⟨hne, rfl, hc.setType b hne⟩

theorem signature_clear (ht : t.Plain) {m : Symbol} {Ts : List Ty} {T : Ty} (hm : t.Lists m)
    (hk : m.isMethod = true) (hc : Clear t s) (h : s.signature t m = (Ts, T, s')) :
    T ≠ .error ∧ s'.diagnostics = s.diagnostics ∧ Clear t s' := by
  cases hd : m.details with
  | cls | var => simp [Symbol.isMethod, Symbol.kind, hd] at hk
  | method params returns ms owner ro =>
    have hres : ∀ type ∈ returns :: params, Resolves t m.declaredIn type := fun type htype =>
      ht m hm type (by simpa [Symbol.writtenTypes, hd] using htype)
    rcases h₁ : s.paramTypes t m params with ⟨Us, s₁⟩
    rcases h₂ : s₁.resultType t m returns with ⟨U, s₂⟩
    simp only [State.signature, hd, h₁, h₂] at h
    cases h
    have hparams : s₁.diagnostics = s.diagnostics ∧ Clear t s₁ := by
      have hnone : params.flatMap (failures t m.declaredIn) = [] := by
        rw [List.flatMap_eq_nil_iff]
        exact fun type htype => failures_eq_nil (hres type (List.mem_cons_of_mem _ htype))
      unfold State.paramTypes at h₁
      split at h₁
      · cases h₁
        exact ⟨rfl, hc⟩
      · rw [resolveAll_eq, hnone, State.also_nil] at h₁
        cases h₁
        exact ⟨rfl, hc.setParams m _⟩
    have hlast := hres returns List.mem_cons_self
    unfold State.resultType at h₂
    split at h₂
    · next V hV =>
      cases h₂
      exact ⟨fun he => hparams.2 m hm (he ▸ hV), hparams⟩
    · rw [resolve_eq, failures_eq_nil hlast, State.also_nil] at h₂
      cases h₂
      exact ⟨hlast.ne_error, hparams.1, hparams.2.setType m hlast.ne_error⟩

theorem offers_clear (ht : t.Plain) {ms : List Symbol} : ∀ {s s' : State} {found : List Offer},
    (∀ m ∈ ms, t.Lists m ∧ m.isMethod = true) → Clear t s → offers t ms s = (found, s') →
      (∀ o ∈ found, o.returns ≠ .error) ∧ s'.diagnostics = s.diagnostics ∧ Clear t s' := by
  induction ms with
  | nil =>
    intro s s' found _ hc h
    cases h
    exact ⟨by simp, rfl, hc⟩
  | cons m ms ih =>
    intro s s' found hm hc h
    obtain ⟨⟨hlisted, hk⟩, hms⟩ := List.forall_mem_cons.mp hm
    rcases h₁ : s.signature t m with ⟨params, returns, s₁⟩
    rcases h₂ : offers t ms s₁ with ⟨rest, s₂⟩
    simp only [offers, h₁, h₂] at h
    cases h
    obtain ⟨hne, hd₁, hc₁⟩ := signature_clear ht hlisted hk hc h₁
    obtain ⟨hrest, hd₂, hc₂⟩ := ih hms hc₁ h₂
    exact ⟨List.forall_mem_cons.mpr ⟨hne, hrest⟩, hd₂.trans hd₁, hc₂⟩

theorem lists_of_candidates {ctx : Context} {q : List Name} {x : Name} {position : Position}
    {found : List Symbol} (h : candidates ctx q x position = .ok found) :
    ∀ b ∈ found, ctx.table.Lists b := by
  intro b hb
  unfold candidates at h
  split at h
  · cases h
    rcases ctx.table.visibleFrom_cases ctx.scope x.text with he | ⟨j, -, he⟩
    · rw [he] at hb
      cases hb
    · exact ⟨j, x.text, he ▸ hb⟩
  · cases h
  · split at h
    · next k _ =>
      cases h
      exact ⟨k, x.text, hb⟩
    · cases h

theorem lists_of_methods {ctx : Context} {q : List Name} {x : Name} {position : Position}
    {found : List Symbol} (h : candidates ctx q x position = .ok found) :
    ∀ m ∈ found.filter Symbol.isMethod, ctx.table.Lists m ∧ m.isMethod = true := by
  intro m hm
  obtain ⟨hmem, hk⟩ := List.mem_filter.mp hm
  exact ⟨lists_of_candidates h m hmem, hk⟩

end

end Typing

namespace Expr

mutual

/-- No field access, no index, no `new` with arguments and no call of a computed value. -/
def isDirect : Expr → Bool
  | .literal .. | .this _ | .name .. => true
  | .unary _ operand _ => operand.isDirect
  | .binary _ left right _ => left.isDirect && right.isDirect
  | .assign target value _ => target.isDirect && value.isDirect
  | .call (.name ..) args _ => allDirect args
  | .create _ args _ => args.isEmpty
  | .call .. | .field .. | .index .. => false

def allDirect : List Expr → Bool
  | [] => true
  | e :: rest => e.isDirect && allDirect rest

end

theorem isDirect_call {callee : Expr} (h : callee.shape ≠ .name) (args : List Expr) (note : Note) :
    (call callee args note).isDirect = false := by
  cases callee with
  | name => exact absurd rfl h
  | _ => rfl

theorem allDirect_operands {e : Expr} (h : e.isDirect = true) : allDirect e.operands = true := by
  cases e with
  | call callee args note =>
    cases callee with
    | name => exact h
    | _ => cases h
  | create n args note =>
    rw [isDirect, List.isEmpty_iff] at h
    rw [operands, h]
    rfl
  | _ => simp_all [operands, isDirect, allDirect]

end Expr

namespace Typing

/-- A node whose operands have these types was checked, from `s` to `s'`. It reports once at most.
A node that reports has type `error`, and so has one above an operand of type `error`; if it is
direct, such a node does not report. -/
structure Adds (t : Table) (direct : Bool) (types : List Ty) (T : Ty) (s s' : State)
    (own : List Diagnostic) : Prop where
  clear : Clear t s'
  appended : s'.diagnostics = s.diagnostics ++ own
  once : own.length ≤ 1
  error_iff : T = .error ↔ .error ∈ types ∨ own ≠ []
  alone : direct = true → .error ∈ types → own = []

/-- A judgement about operands of these types. It says `error` exactly if an operand does or it
tells a problem, and that of a direct node tells none above an operand of type `error`. -/
structure Judgement.Fair (direct : Bool) (types : List Ty) (j : Judgement) : Prop where
  error_iff : j.type = .error ↔ .error ∈ types ∨ j.problem ≠ none
  alone : direct = true → .error ∈ types → j.problem = none

section

variable {ctx : Context} {s s₁ s' : State} {e : Expr} {T : Ty} {types : List Ty} {direct : Bool}

namespace Judgement.Fair

theorem silent (h : .error ∈ types) : Judgement.silent.Fair direct types :=
  ⟨⟨fun _ => Or.inl h, fun _ => rfl⟩, fun _ _ => rfl⟩

theorem found (h : .error ∉ types) (hT : T ≠ .error) : (Judgement.found T).Fair direct types :=
  ⟨by simp [Judgement.found, h, hT], fun _ _ => rfl⟩

theorem bad (problem : Problem) (h : direct = true → .error ∉ types) :
    (Judgement.bad problem).Fair direct types :=
  ⟨by simp [Judgement.bad], fun hd he => absurd he (h hd)⟩

end Judgement.Fair

theorem adds_of_settle {build : Note → Expr} {note : Note} {j : Judgement} {t : Table}
    (hc : Clear t s) (h : settle build note j s = ⟨e, .ok T, s'⟩) (hj : j.Fair direct types) :
    ∃ own, Adds t direct types T s s' own := by
  obtain ⟨-, rfl, rfl⟩ := settle_eq h
  refine ⟨_, hc.of_resolutions_eq rfl, rfl, ?_, ?_, fun hd he => ?_⟩
  · cases j.problem <;> simp [Note.complaint]
  · rw [hj.error_iff]
    cases j.problem <;> simp [Note.complaint]
  · rw [hj.alone hd he]
    rfl

theorem adds_of_silent {build : Note → Expr} {note : Note} {t : Table} {d : Diagnostic}
    (hc : Clear t s) (h : settle build note .silent (s.also [d]) = ⟨e, .ok T, s'⟩)
    (hq : direct = true → .error ∉ types) : ∃ own, Adds t direct types T s s' own := by
  obtain ⟨-, rfl, rfl⟩ := settle_eq h
  exact ⟨[d], hc.of_resolutions_eq rfl, by simp [Judgement.silent, Note.complaint, State.also],
    Nat.le_refl 1, by simp [Judgement.silent], fun hd he => absurd he (hq hd)⟩

/-- Reading a type that is on record, or becomes so, is no report. -/
theorem Adds.after {t : Table} {own : List Diagnostic} (hd : s₁.diagnostics = s.diagnostics)
    (h : Adds t direct types T s₁ s' own) : Adds t direct types T s s' own :=
  { h with appended := hd ▸ h.appended }

theorem unaryJudgement_fair (op : UnaryOp) (A : Ty) : (unaryJudgement op A).Fair direct [A] := by
  unfold unaryJudgement
  split
  · next h => exact .silent (by simp [Ty.isError_iff.mp h])
  · next h =>
    have hno : .error ∉ [A] := fun he => h (Ty.isError_iff.mpr (List.mem_singleton.mp he).symm)
    split
    · exact .found hno (by cases op <;> simp [operandType])
    · exact .bad _ fun _ => hno

theorem error_mem_pair {A B : Ty} : (A.isError || B.isError) = true ↔ .error ∈ [A, B] := by
  rw [Bool.or_eq_true, Ty.isError_iff, Ty.isError_iff, List.mem_pair, eq_comm, eq_comm (a := B)]

theorem binaryJudgement_fair (op : BinaryOp) (A B : Ty) :
    (binaryJudgement op A B).Fair direct [A, B] := by
  unfold binaryJudgement
  split
  · next h => exact .silent (error_mem_pair.mp h)
  · next h =>
    have hno : .error ∉ [A, B] := mt error_mem_pair.mpr h
    split
    · refine .found hno ?_
      split
      · simp
      · exact fun hA => hno (by simp [hA])
    · exact .bad _ fun _ => hno

theorem assignJudgement_fair (A B : Ty) : (assignJudgement A B).Fair direct [A, B] := by
  unfold assignJudgement
  split
  · next h => exact .silent (error_mem_pair.mp h)
  · next h =>
    have hno : .error ∉ [A, B] := mt error_mem_pair.mpr h
    split
    · exact .found hno fun hA => hno (by simp [hA])
    · exact .bad _ fun _ => hno

/-- Whatever `new` is given, it is refused with arguments. -/
theorem createJudgement_fair (n : DottedName) {args : List Expr} (b : Symbol)
    (hd : direct = true → .error ∉ types) (hargs : args = [] → .error ∉ types) :
    (createJudgement n args b).Fair direct types := by
  unfold createJudgement
  split
  · split
    · exact .bad _ hd
    · split
      · next h => exact .found (hargs (List.isEmpty_iff.mp h)) (by simp)
      · exact .bad _ hd
  · exact .bad _ hd

theorem CalleeStep.adds (ht : ctx.table.Plain) {n n' : DottedName} {position : Position}
    {j : Judgement} {build : Note → Expr} {note : Note}
    (h : CalleeStep ctx n types position s n' j s₁) (hc : Clear ctx.table s)
    (hset : settle build note j s₁ = ⟨e, .ok T, s'⟩) :
    ∃ own, Adds ctx.table direct types T s s' own := by
  cases h with
  | muted he => exact adds_of_settle hc hset (.silent he)
  | lost he => exact adds_of_silent hc hset fun _ => he
  | refused he _ hcand ho _ =>
    obtain ⟨-, hd, hc₁⟩ := offers_clear ht (lists_of_methods hcand) hc ho
    exact (adds_of_settle hc₁ hset (.bad _ fun _ => he)).imp fun _ h => h.after hd
  | chosen he _ hcand ho hp =>
    obtain ⟨hret, hd, hc₁⟩ := offers_clear ht (lists_of_methods hcand) hc ho
    exact (adds_of_settle hc₁ hset (.found he (hret _ (chooseOffer_ok hp).1))).imp
      fun _ h => h.after hd

/-- Checking a node adds to what checking its operands came to. -/
theorem NodeStep.adds (ht : ctx.table.Plain) {e e' : Expr} {xs : List Expr} {build : Note → Expr}
    {j : Judgement} (h : NodeStep ctx e xs types s build j s₁)
    (hlen : xs.length = types.length ∧ types.length = e.operands.length) (hc : Clear ctx.table s)
    (hset : settle build e.note j s₁ = ⟨e', .ok T, s'⟩) :
    ∃ own, Adds ctx.table e.isDirect types T s s' own := by
  have hnone : xs = [] → .error ∉ types := by
    rintro rfl
    rw [List.length_eq_zero_iff.mp hlen.1.symm]
    exact List.not_mem_nil
  cases h with
  | @literal value =>
    exact adds_of_settle hc hset
      (.found (by simp) (by cases value <;> simp [literalType]))
  | this =>
    refine adds_of_settle hc hset ?_
    unfold thisJudgement
    split
    · exact .bad _ (by simp)
    · exact .found (by simp) (by simp)
  | lostName => exact adds_of_silent hc hset (by simp)
  | refusedName => exact adds_of_settle hc hset (.bad _ (by simp))
  | var _ hp _ _ hv =>
    obtain ⟨hne, hd, hc₁⟩ := varType_clear ht (lists_of_resolvePath hp) hc hv
    exact (adds_of_settle hc₁ hset (.found (by simp) hne)).imp fun _ h => h.after hd
  | declaration => exact adds_of_settle hc hset (.found (by simp) (by simp))
  | unary => exact adds_of_settle hc hset (unaryJudgement_fair _ _)
  | binary => exact adds_of_settle hc hset (binaryJudgement_fair _ _ _)
  | assign => exact adds_of_settle hc hset (assignJudgement_fair _ _)
  | call _ _ hcallee => exact hcallee.adds ht hc hset
  | computed hcallee =>
    exact adds_of_settle hc hset (.bad _ (by simp [Expr.isDirect_call hcallee]))
  | @lostClass n args xs note | @create n args xs note =>
    have hdirect : (Expr.create n args note).isDirect = true → .error ∉ types := fun hd => by
      rw [Expr.isDirect, List.isEmpty_iff] at hd
      rw [Expr.operands, hd, List.length_nil] at hlen
      exact hnone (List.length_eq_zero_iff.mp (hlen.1.trans hlen.2))
    first
      | exact adds_of_silent hc hset hdirect
      | exact adds_of_settle hc hset (createJudgement_fair _ _ hdirect hnone)
  | field | index => exact adds_of_settle hc hset (.bad _ (by simp [Expr.isDirect]))

end

/-- What each node of an expression reports. -/
inductive Audit where
  | node (own : List Diagnostic) (parts : List Audit)

namespace Audit

def own : Audit → List Diagnostic
  | .node own _ => own

mutual

def nodes : Audit → List Audit
  | .node own parts => .node own parts :: allNodes parts

def allNodes : List Audit → List Audit
  | [] => []
  | a :: rest => a.nodes ++ allNodes rest

end

def descendants : Audit → List Audit
  | .node _ parts => allNodes parts

theorem allNodes_append (as bs : List Audit) :
    allNodes (as ++ bs) = allNodes as ++ allNodes bs := by
  induction as with
  | nil => rfl
  | cons a as ih => simp [allNodes, ih]

/-- The node reports once at most, and then none below it does. -/
structure Alone (a : Audit) : Prop where
  once : a.own.length ≤ 1
  quiet : a.own ≠ [] → ∀ b ∈ a.descendants, b.own = []

/-- Where each node reports once at most, the reports count the nodes that report. -/
theorem length_reports {as : List Audit} (h : ∀ a ∈ as, a.own.length ≤ 1) :
    (as.flatMap own).length = as.countP fun a => !a.own.isEmpty := by
  induction as with
  | nil => rfl
  | cons a as ih =>
    obtain ⟨ha, has⟩ := List.forall_mem_cons.mp h
    rw [List.flatMap_cons, List.length_append, ih has, List.countP_cons, Nat.add_comm]
    congr 1
    cases hown : a.own with
    | nil => rfl
    | cons d ds =>
      rw [hown, List.length_cons] at ha
      have hds : ds = [] := List.length_eq_zero_iff.mp (by omega)
      simp [hds]

end Audit

def ownReports (ctx : Context) (e : Expr) (s : State) : List Diagnostic :=
  (annotateExpr ctx e s).state.diagnostics.drop
    (annotateArgs ctx e.operands s).state.diagnostics.length

mutual

/-- The reports of an expression that is checked from `s` on, node by node. -/
def audit (ctx : Context) (e : Expr) (s : State) : Audit :=
  .node (ownReports ctx e s)
    (match e with
    | .literal .. | .this _ | .name .. => []
    | .unary _ operand _ => [audit ctx operand s]
    | .binary _ left right _ => [audit ctx left s, audit ctx right (annotateExpr ctx left s).state]
    | .assign target value _ =>
      [audit ctx target s, audit ctx value (annotateExpr ctx target s).state]
    | .call (.name ..) args _ => auditAll ctx args s
    | .call callee args _ =>
      audit ctx callee s :: auditAll ctx args (annotateExpr ctx callee s).state
    | .create _ args _ => auditAll ctx args s
    | .field target _ _ => [audit ctx target s]
    | .index target place _ =>
      [audit ctx target s, audit ctx place (annotateExpr ctx target s).state])

def auditAll (ctx : Context) : List Expr → State → List Audit
  | [], _ => []
  | e :: rest, s => audit ctx e s :: auditAll ctx rest (annotateExpr ctx e s).state

end

theorem audit_eq (ctx : Context) (e : Expr) (s : State) :
    audit ctx e s = .node (ownReports ctx e s) (auditAll ctx e.operands s) := by
  cases e with
  | call callee args note => cases callee <;> simp [audit, auditAll, Expr.operands]
  | _ => simp [audit, auditAll, Expr.operands]

/-- From `s` to `s'` something was checked. Its type is `error`, or one of its types is, exactly if
something was reported. If it is direct, the reports are those of its nodes, each alone. -/
structure Tells (t : Table) (isError : Prop) (direct : Bool) (audits : List Audit) (s s' : State)
    (ds : List Diagnostic) : Prop where
  clear : Clear t s'
  appended : s'.diagnostics = s.diagnostics ++ ds
  error_iff : isError ↔ ds ≠ []
  reports : direct = true → ds = (Audit.allNodes audits).flatMap Audit.own
  alone : direct = true → ∀ a ∈ Audit.allNodes audits, a.Alone

section

variable {ctx : Context} {t : Table} {s s₁ s' : State} {as bs : List Audit} {p q : Prop}
  {c d : Bool} {ds es own : List Diagnostic}

theorem Tells.nil (h : Clear t s) : Tells t False true [] s s [] :=
  ⟨h, (List.append_nil _).symm, by simp, fun _ => rfl, by simp [Audit.allNodes]⟩

theorem Tells.append (h : Tells t p c as s s₁ ds) (k : Tells t q d bs s₁ s' es) :
    Tells t (p ∨ q) (c && d) (as ++ bs) s s' (ds ++ es) where
  clear := k.clear
  appended := by rw [k.appended, h.appended, List.append_assoc]
  error_iff := by
    rw [h.error_iff, k.error_iff]
    simp only [ne_eq, List.append_eq_nil_iff, Decidable.not_and_iff_not_or_not]
  reports hcd := by
    obtain ⟨hc, hd⟩ := Bool.and_eq_true_iff.mp hcd
    rw [Audit.allNodes_append, List.flatMap_append, ← h.reports hc, ← k.reports hd]
  alone hcd a ha := by
    obtain ⟨hc, hd⟩ := Bool.and_eq_true_iff.mp hcd
    rw [Audit.allNodes_append] at ha
    exact (List.mem_append.mp ha).elim (h.alone hc a) (k.alone hd a)

/-- Above a report there is no other one. -/
theorem Tells.nil_or_nil {types : List Ty} {T : Ty} (h : Tells t (.error ∈ types) c as s s₁ ds)
    (k : Adds t d types T s₁ s' own) (hd : d = true) : ds = [] ∨ own = [] := by
  by_cases herr : .error ∈ types
  · exact Or.inr (k.alone hd herr)
  · exact Or.inl (Decidable.not_not.mp fun hds => herr (h.error_iff.mpr hds))

/-- A node above operands that tell their errors tells its own. -/
theorem Tells.node {types : List Ty} {T : Ty} (h : Tells t (.error ∈ types) c as s s₁ ds)
    (k : Adds t d types T s₁ s' own) (hcd : d = true → c = true) :
    Tells t (T = .error) d [.node own as] s s' (ds ++ own) where
  clear := k.clear
  appended := by rw [k.appended, h.appended, List.append_assoc]
  error_iff := by
    rw [k.error_iff, h.error_iff]
    simp only [ne_eq, List.append_eq_nil_iff, Decidable.not_and_iff_not_or_not]
  reports hd := by
    simp only [Audit.allNodes, Audit.nodes, List.append_nil, List.flatMap_cons, Audit.own]
    rw [← h.reports (hcd hd)]
    rcases h.nil_or_nil k hd with rfl | rfl <;> simp
  alone hd a ha := by
    simp only [Audit.allNodes, Audit.nodes, List.append_nil] at ha
    rcases List.mem_cons.mp ha with rfl | ha
    · refine ⟨k.once, fun hown b hb => ?_⟩
      have hds := (h.nil_or_nil k hd).resolve_right hown
      rw [h.reports (hcd hd), List.flatMap_eq_nil_iff] at hds
      exact hds b hb
    · exact h.alone (hcd hd) a ha

theorem InTurn.tells {es es' : List Expr} {Ts : List Ty} {s s' : State}
    (h : InTurn (fun e s e' T s' => Annotates ctx e s e' T s' ∧ (Clear ctx.table s →
      ∃ ds, Tells ctx.table (T = .error) e.isDirect [audit ctx e s] s s' ds)) es s es' Ts s')
    (hc : Clear ctx.table s) :
    ∃ ds, Tells ctx.table (.error ∈ Ts) (Expr.allDirect es) (auditAll ctx es s) s s' ds := by
  induction h with
  | nil =>
    refine ⟨[], ?_⟩
    simpa [Expr.allDirect, auditAll] using Tells.nil hc
  | cons head _ ih =>
    obtain ⟨hrun, hhead⟩ := head
    obtain ⟨ds, hds⟩ := hhead hc
    obtain ⟨es, hes⟩ := ih hds.clear
    refine ⟨ds ++ es, ?_⟩
    rw [auditAll, Expr.allDirect, List.mem_cons, hrun.run, eq_comm (a := Ty.error)]
    exact hds.append hes

theorem annotateExpr_tells (ht : ctx.table.Plain) {e e' : Expr} {T : Ty} {s s' : State}
    (hf : e.isFresh = true) (hc : Clear ctx.table s)
    (h : annotateExpr ctx e s = ⟨e', .ok T, s'⟩) :
    ∃ ds, Tells ctx.table (T = .error) e.isDirect [audit ctx e s] s s' ds := by
  refine Annotates.induct (P := fun e s _ T s' => Clear ctx.table s →
    ∃ ds, Tells ctx.table (T = .error) e.isDirect [audit ctx e s] s s' ds) ?_ ⟨hf, h⟩ hc
  intro e e' T xs types build j s s₁ s₂ s' hrun hargs hstep hset hc
  obtain ⟨ds, hds⟩ := hargs.tells hc
  obtain ⟨own, hown⟩ := hstep.adds ht hargs.length_eq hds.clear hset
  have hreports : ownReports ctx e s = own := by
    rw [ownReports, hrun.run, (hargs.imp fun _ _ {_ _ _ _} hx => hx.1).annotateArgs_eq,
      hown.appended, List.drop_left]
  refine ⟨ds ++ own, ?_⟩
  rw [audit_eq, hreports]
  exact hds.node hown Expr.allDirect_operands

end

/-- A value of type `error` is found at its statement without a further word: the statement goes on
from the state in which the value was left. -/
structure StaysQuiet (ctx : Context) (value value' : Expr) (s s' : State) : Prop where
  ifThen : ∀ body span, annotateStmt ctx (.ifThen value body span) s =
    (annotateStmt ctx body).within (.ifThen value' · span) s'
  ifElse : ∀ thenBody elseBody span, annotateStmt ctx (.ifElse value thenBody elseBody span) s =
    ((annotateStmt ctx thenBody).part (.ifElse value' · elseBody span) fun thenBody _ =>
      (annotateStmt ctx elseBody).within (.ifElse value' thenBody · span)) s'
  loop : ∀ body span, annotateStmt ctx (.loop value body span) s =
    (annotateStmt ctx body).within (.loop value' · span) s'
  ret : ∀ method span before, ctx.method = some method →
    (State.signature before ctx.table method).2.2 = s →
      annotateStmt ctx (.ret (some value) span) before = ⟨.ret (some value') span, .ok (), s'⟩
  init : ∀ type v before, v.init = some value → (declaredType ctx type v before).2 = s →
    annotateLocal ctx type v before = ⟨{ v with init := some value' }, .ok (), s'⟩

theorem annotateCondition_error {ctx : Context} {value value' : Expr} {s s' : State}
    (h : annotateExpr ctx value s = ⟨value', .ok .error, s'⟩) :
    annotateCondition ctx value s = ⟨value', .ok (), s'⟩ := by
  refine Visit.part_ok_iff.mpr ⟨_, _, _, h, ?_⟩
  rw [if_pos (by rfl)]

theorem expect_error (s : State) (expected : Ty) (position : Position) :
    s.expect expected .error position = s := by
  simp [State.expect, Ty.isError]

theorem staysQuiet_of_error {ctx : Context} {value value' : Expr} {s s' : State}
    (h : annotateExpr ctx value s = ⟨value', .ok .error, s'⟩) :
    StaysQuiet ctx value value' s s' where
  ifThen body span := by
    rw [annotateStmt]
    rw [Visit.part, annotateCondition_error h]
  ifElse thenBody elseBody span := by
    rw [annotateStmt]
    rw [Visit.part, annotateCondition_error h]
  loop body span := by
    rw [annotateStmt]
    rw [Visit.part, annotateCondition_error h]
  ret method span before hm hs := by
    have hvalue : Visit.optional (annotateExpr ctx) (some value) s =
        ⟨some value', .ok (some .error), s'⟩ := Visit.part_ok_iff.mpr ⟨_, _, _, h, rfl⟩
    rw [annotateStmt, annotateReturn, hm]
    dsimp only
    rw [hs, Visit.part, hvalue]
    dsimp only
    rw [Option.getD_some, expect_error]
  init type v before hv hs := by
    rw [annotateLocal, hv]
    dsimp only
    rw [hs, Visit.part, h]
    dsimp only
    rw [expect_error]

/-- The type `error` stands for a report, and a report for one fault. -/
theorem error_iff_reported (ctx : Context) (ht : ctx.table.Plain) (s : State)
    (hc : Clear ctx.table s) (e : Expr) (hf : e.isFresh = true) (e' : Expr) (T : Ty) (s' : State)
    (h : annotateExpr ctx e s = ⟨e', .ok T, s'⟩) :
    ∃ ds, s'.diagnostics = s.diagnostics ++ ds ∧ (T = .error ↔ ds ≠ []) ∧
      (e.isDirect = true →
        ds = (audit ctx e s).nodes.flatMap Audit.own ∧
        ds.length = (audit ctx e s).nodes.countP (fun a => !a.own.isEmpty) ∧
        ∀ a ∈ (audit ctx e s).nodes,
          a.own.length ≤ 1 ∧ (a.own ≠ [] → ∀ b ∈ a.descendants, b.own = [])) ∧
      (T = .error → StaysQuiet ctx e e' s s') := by
  obtain ⟨ds, hds⟩ := annotateExpr_tells ht hf hc h
  refine ⟨ds, hds.appended, hds.error_iff, fun hd => ?_, fun he => staysQuiet_of_error (he ▸ h)⟩
  have hreports := hds.reports hd
  have halone := hds.alone hd
  simp only [Audit.allNodes, List.append_nil] at hreports halone
  refine ⟨hreports, ?_, fun a ha => ⟨(halone a ha).once, (halone a ha).quiet⟩⟩
  rw [hreports, Audit.length_reports fun a ha => (halone a ha).once]

end Typing

def Sample.faulty : Expr :=
  call "add" [bin .mul (ref "i") (ref "missing"), bin .sub (ref "total") (str "x")]

open Typing Sample in
theorem error_iff_reported_sample : inMain.table.Plain ∧ Clear inMain.table ⟨.empty, []⟩ ∧
    faulty.isFresh = true ∧ faulty.isDirect = true ∧
    ∃ e' s', annotateExpr inMain faulty ⟨.empty, []⟩ = ⟨e', .ok .error, s'⟩ ∧
      s'.diagnostics.length = 2 ∧
      ∃ ds, s'.diagnostics = ds ∧ (Ty.error = .error ↔ ds ≠ []) ∧
        (ds = (audit inMain faulty ⟨.empty, []⟩).nodes.flatMap Audit.own ∧
          ds.length = (audit inMain faulty ⟨.empty, []⟩).nodes.countP (fun a => !a.own.isEmpty) ∧
          ∀ a ∈ (audit inMain faulty ⟨.empty, []⟩).nodes,
            a.own.length ≤ 1 ∧ (a.own ≠ [] → ∀ b ∈ a.descendants, b.own = [])) ∧
        StaysQuiet inMain faulty e' ⟨.empty, []⟩ s' := by
  have ht : inMain.table.Plain := by
    simp only [inMain]
    exact Table.plain_of_isPlain (by decide +kernel)
  have hc : Clear inMain.table ⟨.empty, []⟩ := fun b _ => by
    simp [Resolutions.type?, Resolutions.empty]
  have hfresh : faulty.isFresh = true := by decide
  have hdirect : faulty.isDirect = true := by decide
  have htype : (annotateExpr inMain faulty ⟨.empty, []⟩).answer.toOption.map Ty.isError =
      some true := by decide +kernel
  have hcount : (annotateExpr inMain faulty ⟨.empty, []⟩).state.diagnostics.length = 2 := by
    decide +kernel
  rcases hv : annotateExpr inMain faulty ⟨.empty, []⟩ with ⟨e', _ | T, s'⟩
  · rw [hv] at htype
    cases htype
  · rw [hv] at htype hcount
    have hT : T = .error := Ty.isError_iff.mp (Option.some.inj htype)
    obtain ⟨ds, hds, herr, hnodes, hquiet⟩ :=
      error_iff_reported inMain ht ⟨.empty, []⟩ hc faulty hfresh e' T s' hv
    subst hT
    exact ⟨ht, hc, hfresh, hdirect, e', s', rfl, hcount, ds, hds, herr, hnodes hdirect,
      hquiet rfl⟩

end ClassLang
