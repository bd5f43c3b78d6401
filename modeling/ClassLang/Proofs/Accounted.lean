import ClassLang.Proofs.Rechecked

/-! Every report of typing accounted for. A type that a declaration writes is resolved when it is
first needed: by a use, by a call that looks at all methods of a name, by a `return`, or by the
declaration itself. Whichever comes first, what is wrong with it is reported once for each symbol.
All other reports are complaints that can be read off the annotated tree and the table, so they do
not depend on what was on record when. -/
namespace ClassLang

namespace Typing

def paramFailures (t : Table) (b : Symbol) : List Diagnostic :=
  match b.details with
  | .method params _ _ _ _ => params.flatMap (failures t b.declaredIn)
  | _ => []

/-- What is wrong with the written type of a variable, or with the result type of a method. The type
of a parameter is a matter of its method. -/
def typeFailures (t : Table) (b : Symbol) : List Diagnostic :=
  match b.details with
  | .var _ (.param _) => []
  | .var type _ => failures t b.declaredIn type
  | .method _ returns _ _ _ => failures t b.declaredIn returns
  | .cls .. => []

def pending (t : Table) (r : Resolutions) (b : Symbol) : List Diagnostic :=
  (if (r.params? b).isSome then [] else paramFailures t b) ++
    if (r.type? b).isSome then [] else typeFailures t b

/-- A step of typing. Its reports are its own ones, and those about the symbols that it is the first
to need. -/
structure Accounts (t : Table) (bs : List Symbol) (s s' : State) (own : List Diagnostic) :
    Prop where
  grows : Grows t s s'
  balance : ∀ d, s'.diagnostics.count d + (bs.flatMap (pending t s'.resolutions)).count d =
    s.diagnostics.count d + own.count d + (bs.flatMap (pending t s.resolutions)).count d

namespace Accounts

variable {t : Table} {bs : List Symbol} {s s₁ s' : State} {a b : List Diagnostic}

theorem refl (s : State) : Accounts t bs s s [] := ⟨.refl s, fun d => by simp⟩

theorem trans (h : Accounts t bs s s₁ a) (k : Accounts t bs s₁ s' b) :
    Accounts t bs s s' (a ++ b) := by
  refine ⟨h.grows.trans k.grows, fun d => ?_⟩
  have hh := h.balance d
  have hk := k.balance d
  rw [List.count_append]
  omega

theorem after (h : Accounts t bs s s₁ []) (k : Accounts t bs s₁ s' b) : Accounts t bs s s' b :=
  h.trans k

theorem also (s : State) (own : List Diagnostic) : Accounts t bs s (s.also own) own :=
  ⟨.of_resolutions_eq rfl (List.prefix_append _ _), fun d => by simp [State.also]⟩

end Accounts

@[simp] theorem State.also_resolutions (s : State) (more : List Diagnostic) :
    (s.also more).resolutions = s.resolutions := rfl

theorem pending_setType_of_ne (t : Table) (s : State) {b x : Symbol} (T : Ty) (h : x.id ≠ b.id) :
    pending t (s.setType b T).resolutions x = pending t s.resolutions x := by
  have hx : (s.setType b T).resolutions.type? x = s.resolutions.type? x :=
    s.resolutions.type?_setType_of_ne T h
  rw [pending, pending, params?_setType, hx]

theorem pending_setParams_of_ne (t : Table) (s : State) {b x : Symbol} (Ts : List Ty)
    (h : x.id ≠ b.id) :
    pending t (s.setParams b Ts).resolutions x = pending t s.resolutions x := by
  have hx : (s.setParams b Ts).resolutions.params? x = s.resolutions.params? x :=
    s.resolutions.params?_setParams_of_ne Ts h
  rw [pending, pending, type?_setParams, hx]

theorem count_flatMap_of_one {bs : List Symbol} {f g : Symbol → List Diagnostic} {b : Symbol}
    {n : Nat} {d : Diagnostic} (hone : bs.Nodup) (hb : b ∈ bs)
    (hself : (f b).count d = n + (g b).count d) (hother : ∀ x ∈ bs, x ≠ b → f x = g x) :
    (bs.flatMap f).count d = n + (bs.flatMap g).count d := by
  induction bs with
  | nil => cases hb
  | cons x bs ih =>
    rw [List.nodup_cons] at hone
    rw [List.forall_mem_cons] at hother
    rw [List.flatMap_cons, List.flatMap_cons, List.count_append, List.count_append]
    rcases List.mem_cons.mp hb with rfl | hb
    · have hrest : bs.flatMap f = bs.flatMap g := List.flatMap_congr fun y hy =>
        hother.2 y hy fun he => hone.1 (he ▸ hy)
      rw [hself, hrest, Nat.add_assoc]
    · have hx : f x = g x := hother.1 fun he => hone.1 (he ▸ hb)
      rw [hx, ih hone.2 hb hother.2]
      omega

section

variable {t : Table} {tag : Nat} {ds : List Decl}

theorem pending_builtin {b : Symbol} (h : b ∈ Table.builtins tag) (r : Resolutions) :
    pending t r b = [] := by
  have hfail : paramFailures t b = [] ∧ typeFailures t b = [] := by
    rcases Table.mem_builtins h with rfl | ⟨-, -, _, _, -, hd⟩
    · exact ⟨rfl, rfl⟩
    · simp [paramFailures, typeFailures, hd, failures, resolveType]
  simp [pending, hfail]

/-- A step that records something about one symbol and reports what was pending about it. -/
theorem Accounts.record (h : Declares t tag ds) {s s' : State} {b : Symbol}
    {told : List Diagnostic} (hb : t.Bound b) (hg : Grows t s s')
    (htold : s'.diagnostics = s.diagnostics ++ told)
    (hself : ∀ d, (pending t s.resolutions b).count d =
      told.count d + (pending t s'.resolutions b).count d)
    (hother : ∀ x, x.id ≠ b.id → pending t s'.resolutions x = pending t s.resolutions x) :
    Accounts t (Decl.allSymbols ds) s s' [] := by
  have hothers : ∀ x ∈ Decl.allSymbols ds, x ≠ b →
      pending t s.resolutions x = pending t s'.resolutions x := by
    intro x hx hne
    have hbx : t.Bound x := (h.bound x).mpr (Or.inr hx)
    exact (hother x fun hid => hne (h.sound.distinct x b hbx hb hid)).symm
  refine ⟨hg, fun d => ?_⟩
  rw [htold, List.count_append, List.count_nil]
  by_cases hmem : b ∈ Decl.allSymbols ds
  · rw [count_flatMap_of_one h.nodup hmem (hself d) hothers]
    omega
  · have hbuiltin := ((h.bound b).mp hb).resolve_right hmem
    have hs := hself d
    rw [pending_builtin hbuiltin, pending_builtin hbuiltin, List.count_nil] at hs
    rw [List.flatMap_congr fun x hx => hothers x hx fun he => hmem (he ▸ hx)]
    omega

theorem accounts_setType (h : Declares t tag ds) {s : State} {b : Symbol} {T : Ty}
    (hb : t.Bound b) (hnone : s.resolutions.type? b = none)
    (hg : Grows t s ((s.also (typeFailures t b)).setType b T)) :
    Accounts t (Decl.allSymbols ds) s ((s.also (typeFailures t b)).setType b T) [] := by
  refine .record h hb hg rfl (fun d => ?_) fun x hx => pending_setType_of_ne t (s.also _) T hx
  have hset := type?_setType_of_none (s := s.also (typeFailures t b)) hnone T
  rw [pending, pending, params?_setType, State.also_resolutions, hset, hnone, List.count_append,
    List.count_append]
  simp [Nat.add_comm]

theorem accounts_setParams (h : Declares t tag ds) {s : State} {b : Symbol} {Ts : List Ty}
    (hb : t.Bound b) (hnone : s.resolutions.params? b = none)
    (hg : Grows t s ((s.also (paramFailures t b)).setParams b Ts)) :
    Accounts t (Decl.allSymbols ds) s ((s.also (paramFailures t b)).setParams b Ts) [] := by
  refine .record h hb hg rfl (fun d => ?_) fun x hx => pending_setParams_of_ne t (s.also _) Ts hx
  have hset : ((s.also (paramFailures t b)).setParams b Ts).resolutions.params? b =
      some ((s.resolutions.params? b).getD Ts) := s.resolutions.params?_setParams_self b Ts
  rw [pending, pending, type?_setParams, State.also_resolutions, hset, hnone, List.count_append,
    List.count_append]
  simp

theorem varType_accounts (h : Declares t tag ds) {s s' : State} {v : Symbol} {T : Ty}
    (hv : t.Bound v) (hk : v.kind = .var)
    (hp : IsParam v → (s.resolutions.type? v).isSome = true) (hs : s.varType t v = (T, s')) :
    Accounts t (Decl.allSymbols ds) s s' [] := by
  have hg := (varType_grows h.sound hv hk hp hs).1
  unfold State.varType at hs
  split at hs
  · cases hs
    exact .refl s
  · next hnone =>
    have hnp : ¬ IsParam v := fun hpar => by simpa [hnone] using hp hpar
    obtain ⟨type, storage, hd, -⟩ := writes_of_var (t := t) hk hnp
    have hfail : failures t v.declaredIn type = typeFailures t v := by
      rcases storage with _ | index | _
      · simp [typeFailures, hd]
      · exact absurd ⟨type, index, hd⟩ hnp
      · simp [typeFailures, hd]
    simp only [hd, resolve_eq, hfail] at hs
    cases hs
    exact accounts_setType h hv hnone hg

theorem signature_accounts (h : Declares t tag ds) {s s' : State} {m : Symbol} {Ts : List Ty}
    {T : Ty} (hm : t.Bound m) (hk : m.isMethod = true) (hs : s.signature t m = (Ts, T, s')) :
    Accounts t (Decl.allSymbols ds) s s' [] := by
  cases hd : m.details with
  | cls | var => simp [Symbol.isMethod, Symbol.kind, hd] at hk
  | method params returns ms owner ro =>
    rcases h1 : s.paramTypes t m params with ⟨Us, s1⟩
    rcases h2 : s1.resultType t m returns with ⟨U, s2⟩
    simp only [State.signature, hd, h1, h2] at hs
    cases hs
    have hg1 := (paramTypes_grows h.sound hm hd h1).1
    have hg2 := (resultType_grows h.sound hm hd h2).1
    have hparams : Accounts t (Decl.allSymbols ds) s s1 [] := by
      unfold State.paramTypes at h1
      split at h1
      · cases h1
        exact .refl s
      · next hnone =>
        have hfail : params.flatMap (failures t m.declaredIn) = paramFailures t m := by
          simp [paramFailures, hd]
        rw [resolveAll_eq, hfail] at h1
        cases h1
        exact accounts_setParams h hm hnone hg1
    have hresult : Accounts t (Decl.allSymbols ds) s1 s' [] := by
      unfold State.resultType at h2
      split at h2
      · cases h2
        exact .refl _
      · next hnone =>
        have hfail : failures t m.declaredIn returns = typeFailures t m := by
          simp [typeFailures, hd]
        rw [resolve_eq, hfail] at h2
        cases h2
        exact accounts_setType h hm hnone hg2
    exact hparams.after hresult

theorem pending_of_isParam {b : Symbol} (h : IsParam b) (r : Resolutions) : pending t r b = [] := by
  obtain ⟨type, index, hd⟩ := h
  simp [pending, paramFailures, typeFailures, hd]

theorem pending_typeParams (hs : t.Sound) {x : Symbol} (hx : t.Bound x) (params : List Param) :
    ∀ {Ts : List Ty} {s : State},
      (∀ p ∈ params, ∀ b, p.symbol = some b → t.Bound b ∧ IsParam b) →
      pending t (typeParams params Ts s).resolutions x = pending t s.resolutions x := by
  induction params with
  | nil => exact fun _ => rfl
  | cons p params ih =>
    intro Ts s hp
    rw [List.forall_mem_cons] at hp
    cases Ts with
    | nil => rfl
    | cons T Ts =>
      rw [typeParams, ih hp.2]
      cases hsym : p.symbol with
      | none => rfl
      | some b =>
        obtain ⟨hb, hparam⟩ := hp.1 b hsym
        by_cases hid : x.id = b.id
        · obtain rfl := hs.distinct x b hx hb hid
          rw [pending_of_isParam hparam, pending_of_isParam hparam]
        · exact pending_setType_of_ne t s T hid

def offered (t : Table) (m : Symbol) : Offer :=
  match m.details with
  | .method params returns _ _ _ =>
    ⟨m, params.map (meaning t m.declaredIn), meaning t m.declaredIn returns⟩
  | _ => ⟨m, [], .error⟩

theorem Faithful.type_eq (h : t.Sound) {s : State} (hf : Faithful t s) {b : Symbol} {T : Ty}
    (hb : t.Bound b) (hT : s.resolutions.type? b = some T) {scope : ScopeId} {type : TypeExpr}
    (hw : Writes t b scope type) : T = meaning t scope type := by
  obtain ⟨_, _, hw', rfl, -⟩ := hf.types hb hT
  obtain ⟨rfl, rfl⟩ := hw'.unique h hw
  rfl

theorem Faithful.params_eq {s : State} (hf : Faithful t s) {m : Symbol} {Ts : List Ty}
    (hm : t.Bound m) (hTs : s.resolutions.params? m = some Ts) {params : List TypeExpr}
    {returns : TypeExpr} {ms : List Modifier} {owner : List String} {ro : Option Routine}
    (hd : m.details = .method params returns ms owner ro) :
    Ts = params.map (meaning t m.declaredIn) := by
  obtain ⟨_, _, _, _, _, hd', rfl, -⟩ := hf.params hm hTs
  rw [hd] at hd'
  cases hd'
  rfl

theorem signature_eq (h : t.Sound) {s s' : State} (hf : Faithful t s) {m : Symbol} {Ts : List Ty}
    {T : Ty} (hm : t.Bound m) (hk : m.isMethod = true) (hs : s.signature t m = (Ts, T, s')) :
    ⟨m, Ts, T⟩ = offered t m := by
  obtain ⟨hg, hTs, hT⟩ := signature_grows h hm hk hs
  have hf' := hg.faithful hf
  cases hd : m.details with
  | cls | var => simp [Symbol.isMethod, Symbol.kind, hd] at hk
  | method params returns ms owner ro =>
    have hw : Writes t m m.declaredIn returns := by simp [Writes, hd]
    rw [hf'.params_eq hm hTs hd, hf'.type_eq h hm hT hw]
    simp [offered, hd]

theorem offers_accounts (h : Declares t tag ds) {ms : List Symbol} :
    ∀ {s s' : State} {found : List Offer}, Faithful t s →
      (∀ m ∈ ms, t.Bound m ∧ m.isMethod = true) → offers t ms s = (found, s') →
      Accounts t (Decl.allSymbols ds) s s' [] ∧ found = ms.map (offered t) := by
  induction ms with
  | nil =>
    intro s s' found _ _ ho
    cases ho
    exact ⟨.refl s, rfl⟩
  | cons m ms ih =>
    intro s s' found hf hm ho
    rw [List.forall_mem_cons] at hm
    obtain ⟨⟨hb, hk⟩, hms⟩ := hm
    rcases h1 : s.signature t m with ⟨params, returns, s1⟩
    rcases h2 : offers t ms s1 with ⟨rest, s2⟩
    simp only [offers, h1, h2] at ho
    cases ho
    have hsig := signature_accounts h hb hk h1
    obtain ⟨hrest, rfl⟩ := ih (hsig.grows.faithful hf) hms h2
    refine ⟨hsig.after hrest, ?_⟩
    rw [List.map_cons, signature_eq h.sound hf hb hk h1]

end

end Typing

open Typing

def Note.complaint (note : Note) (problem : Option Problem) : List Diagnostic :=
  (problem.map fun p => ⟨p, note.span.start⟩).toList

namespace DottedName

def complaints (ctx : Context) (n : DottedName) (note : Note) (problem? : Symbol → Option Problem) :
    List Diagnostic :=
  match resolvePath ctx.table ctx.scope n.span.start n.segments with
  | none => []
  | some (.error d) => [d]
  | some (.ok b) => note.complaint (problem? b)

def callComplaints (ctx : Context) (n : DottedName) (types : List Ty) (note : Note) :
    List Diagnostic :=
  if types.any Ty.isError then []
  else
    match n.segments.getLast? with
    | none => []
    | some last =>
      match candidates ctx n.segments.dropLast last note.span.start with
      | .error d => [d]
      | .ok symbols =>
        match chooseOffer ctx n types
            ((symbols.filter Symbol.isMethod).map (offered ctx.table)) with
        | .error p => note.complaint (some p)
        | .ok _ => []

end DottedName

namespace Expr

def found (e : Expr) : Ty := e.type.getD .error

mutual

def complaints (ctx : Context) : Expr → List Diagnostic
  | .literal .. => []
  | .this note => note.complaint (thisJudgement ctx).problem
  | .name n note => n.complaints ctx note (nameProblem? ctx n)
  | .unary op operand note =>
    operand.complaints ctx ++ note.complaint (unaryJudgement op operand.found).problem
  | .binary op left right note =>
    left.complaints ctx ++ right.complaints ctx ++
      note.complaint (binaryJudgement op left.found right.found).problem
  | .assign target value note =>
    target.complaints ctx ++ value.complaints ctx ++
      note.complaint (assignJudgement target.found value.found).problem
  | .call (.name n _) args note =>
    allComplaints ctx args ++ n.callComplaints ctx (args.map found) note
  | .call callee args note =>
    callee.complaints ctx ++ allComplaints ctx args ++
      note.complaint (some (.unsupported "calls on computed expressions"))
  | .create n args note =>
    allComplaints ctx args ++ n.complaints ctx note fun b => (createJudgement n args b).problem
  | .field target _ note =>
    target.complaints ctx ++ note.complaint (some (.unsupported "field access on expressions"))
  | .index target place note =>
    target.complaints ctx ++ place.complaints ctx ++ note.complaint (some (.unsupported "arrays"))

def allComplaints (ctx : Context) : List Expr → List Diagnostic
  | [] => []
  | e :: rest => e.complaints ctx ++ allComplaints ctx rest

end

end Expr

namespace Declarator

/-- What is wrong with the type of a variable that was passed over. It is looked at in its place. -/
def failures (ctx : Context) (type : TypeExpr) (v : Declarator) : List Diagnostic :=
  if v.symbol.isSome then [] else Typing.failures ctx.table ctx.scope type

def localComplaints (ctx : Context) (type : TypeExpr) (v : Declarator) : List Diagnostic :=
  v.failures ctx type ++ v.init.elim [] fun init =>
    init.complaints ctx ++ mismatch (meaning ctx.table ctx.scope type) init.found init.span.start

def fieldComplaints (ctx : Context) (type : TypeExpr) (v : Declarator) : List Diagnostic :=
  v.failures ctx type ++ v.init.elim [] fun init =>
    ⟨.unsupported "field initializers", init.span.start⟩ :: init.complaints ctx

end Declarator

def Expr.conditionComplaints (ctx : Context) (cond : Expr) : List Diagnostic :=
  cond.complaints ctx ++
    if cond.found.isError || cond.found.same .boolean then []
    else [⟨.notBoolean cond.found.text, cond.span.start⟩]

/-- Complaints about a statement, apart from those about the statements in it. -/
def Stmt.complaints (ctx : Context) : Stmt → List Diagnostic
  | .expr value _ _ => value.complaints ctx
  | .locals d => d.vars.flatMap (Declarator.localComplaints ctx d.type)
  | .ifThen cond _ _ | .ifElse cond _ _ _ | .loop cond _ _ => cond.conditionComplaints ctx
  | .ret value span =>
    value.elim [] (Expr.complaints ctx) ++
      mismatch (ctx.method.elim .error fun m => (offered ctx.table m).returns)
        ((value.map Expr.found).getD .void) span.start
  | .block .. | .empty _ => []

def Method.complaints (ctx : Context) (m : Method) : List Diagnostic :=
  match m.symbol with
  | none => []
  | some b => (Stmt.allParts (m.body.getD [])).flatMap
      (Stmt.complaints ⟨ctx.table, b.scope.getD ctx.scope, some b, ctx.entry⟩)

namespace Member

mutual

def complaints (ctx : Context) : Member → List Diagnostic
  | .method m => m.complaints ctx
  | .field d => d.vars.flatMap (Declarator.fieldComplaints ctx d.type)
  | .nested head members =>
    match head.symbol with
    | none => []
    | some c => allComplaints ⟨ctx.table, c.scope.getD ctx.scope, none, ctx.entry⟩ members

def allComplaints (ctx : Context) : List Member → List Diagnostic
  | [] => []
  | m :: rest => m.complaints ctx ++ allComplaints ctx rest

end

end Member

/-- Complaints about all that was registered. -/
def CompilationUnit.complaints (table : Table) (choice : EntryChoice) (u : CompilationUnit) :
    List Diagnostic :=
  u.top.elim [] fun c =>
    Member.complaints ⟨table, Table.root, none, choice.resolve c⟩ (.nested c.head c.members)

namespace Typing

theorem settle_eq {build : Note → Expr} {note : Note} {j : Judgement} {s s' : State} {e : Expr}
    {T : Ty} (h : settle build note j s = ⟨e, .ok T, s'⟩) :
    e = build { note with type := some j.type } ∧ T = j.type ∧
      s' = s.also (note.complaint j.problem) := by
  unfold settle at h
  cases hp : j.problem with
  | none =>
    rw [hp] at h
    cases h
    exact ⟨rfl, rfl, s.also_nil.symm⟩
  | some p =>
    rw [hp] at h
    cases h
    exact ⟨rfl, rfl, rfl⟩

section

variable {ctx : Context} {tag : Nat} {ds : List Decl} {s s₁ s' : State}

theorem accounts_of_settle {bs : List Symbol} {build : Note → Expr} {note : Note} {j : Judgement}
    {a : List Diagnostic} {e : Expr} {T : Ty} (ha : Accounts ctx.table bs s s₁ a)
    (h : settle build note j s₁ = ⟨e, .ok T, s'⟩)
    (he : (build { note with type := some j.type }).complaints ctx =
      a ++ note.complaint j.problem) : Accounts ctx.table bs s s' (e.complaints ctx) := by
  obtain ⟨rfl, -, rfl⟩ := settle_eq h
  rw [he]
  exact ha.trans (.also s₁ _)

theorem complaints_call {callee : Expr} (h : callee.shape ≠ .name) (args : List Expr)
    (note : Note) : (Expr.call callee args note).complaints ctx =
      callee.complaints ctx ++ Expr.allComplaints ctx args ++
        note.complaint (some (.unsupported "calls on computed expressions")) := by
  rw [Expr.complaints]
  rintro n nameNote rfl
  exact h rfl

theorem found_of_type {e : Expr} {T : Ty} (h : e.type = some T) : e.found = T := by
  rw [Expr.found, h, Option.getD_some]

theorem InTurn.map_found {es es' : List Expr} {Ts : List Ty}
    (h : InTurn (Annotates ctx) es s es' Ts s') : es'.map Expr.found = Ts := by
  induction h with
  | nil => rfl
  | cons head _ ih => rw [List.map_cons, ih, found_of_type head.outline.2.2]

/-- What is reported while a callee is looked for, before the judgement on the call. What the callee
is bound to makes no difference to the complaints. -/
theorem CalleeStep.accounts (h : Declares ctx.table tag ds) {n n' : DottedName} {note : Note}
    {types : List Ty} {j : Judgement} (hf : Faithful ctx.table s)
    (hstep : CalleeStep ctx n types note.span.start s n' j s') (type : Option Ty) :
    ∃ own, Accounts ctx.table (Decl.allSymbols ds) s s' own ∧
      n'.callComplaints ctx types { note with type := type } =
        own ++ note.complaint j.problem := by
  cases hstep with
  | muted he =>
    refine ⟨[], .refl s, ?_⟩
    rw [DottedName.callComplaints, if_pos (any_isError_iff.mpr he)]
    rfl
  | @lost _ d _ he hl hc =>
    refine ⟨[d], .also s [d], ?_⟩
    rw [DottedName.callComplaints, if_neg (mt any_isError_iff.mp he)]
    simp [hl, hc, Judgement.silent, Note.complaint]
  | refused he hl hc ho hp =>
    obtain ⟨hoffers, rfl⟩ := offers_accounts h hf (methods_of_candidates h.sound hc) ho
    refine ⟨[], hoffers, ?_⟩
    rw [DottedName.callComplaints, if_neg (mt any_isError_iff.mp he)]
    simp [hl, hc, hp, Judgement.bad, Note.complaint]
  | @chosen _ _ _ offer _ _ he hl hc ho hp =>
    obtain ⟨hoffers, rfl⟩ := offers_accounts h hf (methods_of_candidates h.sound hc) ho
    refine ⟨[], hoffers, ?_⟩
    change n.callComplaints ctx types note = _
    rw [DottedName.callComplaints, if_neg (mt any_isError_iff.mp he)]
    simp [hl, hc, hp, Judgement.found, Note.complaint]

/-- What is reported while a node is judged, and what is said of it with its judgement. -/
theorem NodeStep.accounts (h : Declares ctx.table tag ds) {e : Expr} {xs : List Expr}
    {types : List Ty} {build : Note → Expr} {j : Judgement} (hr : Ready ctx s)
    (hf : Faithful ctx.table s) (hargs : InTurn (Annotates ctx) e.operands s₁ xs types s)
    (hstep : NodeStep ctx e xs types s build j s') :
    ∃ own, Accounts ctx.table (Decl.allSymbols ds) s s' own ∧
      (build { e.note with type := some j.type }).complaints ctx =
        Expr.allComplaints ctx xs ++ own ++ e.note.complaint j.problem := by
  have hfound := hargs.map_found
  cases hstep with
  | lostName _ hp | lostClass _ hp =>
    refine ⟨[_], .also s [_], ?_⟩
    simp [Expr.complaints, Expr.allComplaints, DottedName.complaints, hp, Judgement.silent,
      Note.complaint]
  | var _ hp hj hk hv =>
    have hreach := h.sound.reached_of_resolvePath hp
    have hready := fun hpar => hr.of_reached h.sound hreach hpar
    refine ⟨[], varType_accounts h hreach.1 hk hready hv, ?_⟩
    simp [Expr.complaints, Expr.allComplaints, DottedName.complaints, hp, hj, Judgement.found,
      Note.complaint]
  | call _ _ hc =>
    obtain ⟨own, hown, hsaid⟩ := hc.accounts h hf (some j.type)
    refine ⟨own, hown, ?_⟩
    rw [Expr.complaints, hfound, List.append_assoc]
    exact congrArg (Expr.allComplaints ctx xs ++ ·) hsaid
  | @computed callee x args _ _ _ _ _ hc =>
    rw [Expr.operands_call hc] at hargs
    obtain ⟨⟩ | ⟨hhead, -⟩ := hargs
    refine ⟨[], .refl s, ?_⟩
    rw [complaints_call (hhead.outline.2.1 ▸ hc), List.append_nil]
    rfl
  | refusedName _ hp hj | declaration _ hp hj _ =>
    refine ⟨[], .refl s, ?_⟩
    simp [Expr.complaints, Expr.allComplaints, DottedName.complaints, hp, hj, Judgement.bad,
      Judgement.found, Note.complaint]
  | create _ hp =>
    refine ⟨[], .refl s, ?_⟩
    simp [Expr.complaints, DottedName.complaints, hp, Note.complaint]
  | literal | this | field | index =>
    refine ⟨[], .refl s, ?_⟩
    simp [Expr.complaints, Expr.allComplaints, Judgement.found, Judgement.bad, Note.complaint,
      Expr.note]
  | unary | binary | assign =>
    cases hfound
    refine ⟨[], .refl s, ?_⟩
    simp [Expr.complaints, Expr.allComplaints, Note.complaint, Expr.note]

theorem InTurn.accounts {es es' : List Expr} {Ts : List Ty} {bs : List Symbol} {s s' : State}
    (h : InTurn (fun _ s e' _ s' => Ready ctx s → Faithful ctx.table s →
      Accounts ctx.table bs s s' (e'.complaints ctx)) es s es' Ts s')
    (hr : Ready ctx s) (hf : Faithful ctx.table s) :
    Accounts ctx.table bs s s' (Expr.allComplaints ctx es') := by
  induction h with
  | nil =>
    rw [Expr.allComplaints]
    exact .refl _
  | cons head _ ih =>
    have he := head hr hf
    rw [Expr.allComplaints]
    exact he.trans (ih (hr.mono he.grows.extends_) (he.grows.faithful hf))

theorem annotateExpr_accounts (h : Declares ctx.table tag ds) {e e' : Expr} {T : Ty} {s s' : State}
    (hf : e.isFresh = true) (hr : Ready ctx s) (hfaith : Faithful ctx.table s)
    (hv : annotateExpr ctx e s = ⟨e', .ok T, s'⟩) :
    Accounts ctx.table (Decl.allSymbols ds) s s' (e'.complaints ctx) := by
  refine Annotates.induct (P := fun _ s e' _ s' => Ready ctx s → Faithful ctx.table s →
    Accounts ctx.table (Decl.allSymbols ds) s s' (e'.complaints ctx)) ?_ ⟨hf, hv⟩ hr hfaith
  intro e e' T xs types build j s s₁ s₂ s' _ hargs hstep hset hr hfaith
  have ha := (hargs.imp fun _ _ {_ _ _ _} hx => hx.2).accounts hr hfaith
  obtain ⟨own, hown, hsaid⟩ := hstep.accounts h (hr.mono ha.grows.extends_)
    (ha.grows.faithful hfaith) (hargs.imp fun _ _ {_ _ _ _} hx => hx.1)
  exact accounts_of_settle (ha.trans hown) hset hsaid

theorem declaredType_accounts (h : Declares ctx.table tag ds) {type : TypeExpr}
    {v : Declarator} {D : Ty}
    (hb : ∀ b, v.symbol = some b → ctx.table.Bound b ∧ b.kind = .var ∧ ¬ IsParam b)
    (hv : declaredType ctx type v s = (D, s')) :
    Accounts ctx.table (Decl.allSymbols ds) s s' (v.failures ctx type) := by
  unfold declaredType at hv
  unfold Declarator.failures
  cases hsym : v.symbol with
  | none =>
    rw [hsym, resolve_eq] at hv
    cases hv
    exact .also s _
  | some b =>
    rw [hsym] at hv
    obtain ⟨hbound, hkind, hparam⟩ := hb b hsym
    exact varType_accounts h hbound hkind (fun hp => absurd hp hparam) hv

/-- A local is declared in the scope of its method, so its type means the same with and without a
symbol. -/
theorem declaredType_eq (h : ctx.table.Sound) (hf : Faithful ctx.table s) {type : TypeExpr}
    {v : Declarator} {D : Ty} (hl : LocalsPlaced ctx s [⟨v.name.text, type, v.symbol⟩])
    (hv : declaredType ctx type v s = (D, s')) : D = meaning ctx.table ctx.scope type := by
  obtain ⟨hg, hD⟩ := declaredType_grows h hl.isVar hv
  cases hsym : v.symbol with
  | none =>
    rw [declaredType, hsym, resolve_eq] at hv
    cases hv
    rfl
  | some b =>
    obtain ⟨hbound, hin, index, hd⟩ := hl.placed _ List.mem_cons_self b hsym
    exact (hg.faithful hf).type_eq h hbound (hD b hsym) (by simp [Writes, hd, hin])

theorem LocalStep.accounts (h : Declares ctx.table tag ds) {type : TypeExpr} {v v' : Declarator}
    (hstep : LocalStep ctx type v s v' s') (hr : Ready ctx s) (hfaith : Faithful ctx.table s)
    (hl : LocalsPlaced ctx s [⟨v.name.text, type, v.symbol⟩]) :
    Accounts ctx.table (Decl.allSymbols ds) s s' (v'.localComplaints ctx type) := by
  cases hstep with
  | bare hi hd =>
    simpa [Declarator.localComplaints, hi] using declaredType_accounts h hl.isVar hd
  | @init init init' D R _ s₁ s₂ hi hd hv =>
    have hdecl := declaredType_accounts h hl.isVar hd
    obtain rfl := declaredType_eq h.sound hfaith hl hd
    have hinit := annotateExpr_accounts h hv.fresh (hr.mono hdecl.grows.extends_)
      (hdecl.grows.faithful hfaith) hv.run
    rw [expect_also, ← found_of_type hv.outline.2.2]
    exact hdecl.trans (hinit.trans (.also s₂ _))

theorem CondStep.accounts (h : Declares ctx.table tag ds) {cond cond' : Expr}
    (hstep : CondStep ctx cond s cond' s') (hr : Ready ctx s) (hfaith : Faithful ctx.table s) :
    Accounts ctx.table (Decl.allSymbols ds) s s' (cond'.conditionComplaints ctx) := by
  cases hstep with
  | fits hv hT =>
    obtain rfl := found_of_type hv.outline.2.2
    rw [Expr.conditionComplaints, if_pos hT, List.append_nil]
    exact annotateExpr_accounts h hv.fresh hr hfaith hv.run
  | refused hv hT =>
    obtain rfl := found_of_type hv.outline.2.2
    rw [Expr.conditionComplaints, if_neg hT]
    exact (annotateExpr_accounts h hv.fresh hr hfaith hv.run).trans (.also _ [_])

theorem ReturnStep.accounts (h : Declares ctx.table tag ds)
    (hm : ∀ m, ctx.method = some m → ctx.table.Bound m ∧ m.isMethod = true)
    {value value' : Option Expr} {span : Span} (hstep : ReturnStep ctx span value s value' s')
    (hr : Ready ctx s) (hfaith : Faithful ctx.table s) :
    Accounts ctx.table (Decl.allSymbols ds) s s' (Stmt.complaints ctx (.ret value' span)) := by
  have hsig : ∀ {m Ts D s₁}, ctx.method = some m → s.signature ctx.table m = (Ts, D, s₁) →
      Accounts ctx.table (Decl.allSymbols ds) s s₁ [] ∧
        D = ctx.method.elim .error fun m => (offered ctx.table m).returns := by
    intro m Ts D s₁ hmeth hd
    obtain ⟨hb, hk⟩ := hm m hmeth
    refine ⟨signature_accounts h hb hk hd, ?_⟩
    rw [hmeth, Option.elim_some, ← signature_eq h.sound hfaith hb hk hd]
  cases hstep with
  | bare hmeth hd =>
    obtain ⟨hdecl, hD⟩ := hsig hmeth hd
    rw [expect_also, Stmt.complaints, ← hD]
    exact hdecl.after (.also _ _)
  | value hmeth hd hv =>
    obtain ⟨hdecl, hD⟩ := hsig hmeth hd
    have hvalue := annotateExpr_accounts h hv.fresh (hr.mono hdecl.grows.extends_)
      (hdecl.grows.faithful hfaith) hv.run
    rw [expect_also, Stmt.complaints, ← hD, ← found_of_type hv.outline.2.2]
    exact hdecl.after (hvalue.trans (.also _ _))

/-- Visiting nodes one by one. What is known of the first state is known of all that follow. -/
theorem OneByOne.accounts {ν : Type} {t : Table} {bs : List Symbol}
    {P : ν → State → ν → State → Prop} {complaints : ν → List Diagnostic} {ns ns' : List ν}
    {s s' : State} (h : OneByOne P ns s ns' s')
    (hstep : ∀ n ∈ ns, ∀ {n' : ν} {s s' : State}, Extends s₁ s → Faithful t s → P n s n' s' →
      Accounts t bs s s' (complaints n')) (he : Extends s₁ s) (hfaith : Faithful t s) :
    Accounts t bs s s' (ns'.flatMap complaints) := by
  induction h with
  | nil => exact .refl _
  | cons head _ ih =>
    rw [List.forall_mem_cons] at hstep
    have hn := hstep.1 he hfaith head
    rw [List.flatMap_cons]
    exact hn.trans (ih hstep.2 (he.trans hn.grows.extends_) (hn.grows.faithful hfaith))

theorem StmtStep.accounts (h : Declares ctx.table tag ds)
    (hm : ∀ m, ctx.method = some m → ctx.table.Bound m ∧ m.isMethod = true) {stmt stmt' : Stmt}
    {bodies : List Stmt} (hstep : StmtStep ctx stmt s s' bodies stmt') (hr : Ready ctx s)
    (hfaith : Faithful ctx.table s) (hl : LocalsPlaced ctx s stmt.ownSlots) :
    Accounts ctx.table (Decl.allSymbols ds) s s' (stmt'.complaints ctx) := by
  cases hstep with
  | block | empty => exact .refl s
  | expr hv => exact annotateExpr_accounts h hv.fresh hr hfaith hv.run
  | locals hv =>
    exact hv.accounts (fun v hin _ _ _ he hfaith' hlocal => hlocal.accounts h (hr.mono he) hfaith'
      (hl.sub he (List.forall_mem_singleton.mpr (List.mem_map_of_mem hin)))) (.refl s) hfaith
  | ifThen hc | ifElse hc | loop hc => exact hc.accounts h hr hfaith
  | ret hv => exact hv.accounts h hm hr hfaith

def StmtAccounts (ctx : Context) (bs : List Symbol) (stmt : Stmt) (s : State) (stmt' : Stmt)
    (s' : State) : Prop :=
  Ready ctx s → Faithful ctx.table s → LocalsPlaced ctx s stmt.slots →
    Accounts ctx.table bs s s' (stmt'.parts.flatMap (Stmt.complaints ctx))

theorem OneByOne.stmtsAccount {bs : List Symbol} {body body' : List Stmt}
    (h : OneByOne (StmtAccounts ctx bs) body s body' s') (hr : Ready ctx s)
    (hfaith : Faithful ctx.table s) (hl : LocalsPlaced ctx s (Stmt.allSlots body)) :
    Accounts ctx.table bs s s' ((Stmt.allParts body').flatMap (Stmt.complaints ctx)) := by
  rw [Stmt.allParts_eq, List.flatMap_assoc]
  refine h.accounts (fun stmt hin _ _ _ he hfaith' hstmt => ?_) (.refl s) hfaith
  refine hstmt (hr.mono he) hfaith' (hl.sub he fun v hv => ?_)
  rw [Stmt.allSlots_eq]
  exact List.mem_flatMap.mpr ⟨stmt, hin, hv⟩

theorem Passes.accounts (h : Declares ctx.table tag ds)
    (hm : ∀ m, ctx.method = some m → ctx.table.Bound m ∧ m.isMethod = true) {stmt stmt' : Stmt}
    (hrun : Passes ctx stmt s stmt' s') :
    StmtAccounts ctx (Decl.allSymbols ds) stmt s stmt' s' := by
  refine Passes.induct (P := StmtAccounts ctx (Decl.allSymbols ds)) ?_ hrun
  intro stmt stmt' bodies s s₁ s' _ hstep hbodies hr hfaith hl
  rw [Stmt.slots_eq] at hl
  have hown := hstep.accounts h hm hr hfaith hl.left
  rw [Stmt.parts_eq, List.flatMap_cons, hstep.bodies_eq]
  exact hown.trans ((hbodies.imp fun _ _ {_ _ _} hx => hx.2).stmtsAccount
    (hr.mono hown.grows.extends_) (hown.grows.faithful hfaith) (hl.right hown.grows.extends_))

theorem annotateStmts_accounts (h : Declares ctx.table tag ds)
    (hm : ∀ m, ctx.method = some m → ctx.table.Bound m ∧ m.isMethod = true)
    {body body' : List Stmt} {s s' : State} (hf : Stmt.allFresh (Stmt.eraseAll body) = true)
    (hr : Ready ctx s) (hfaith : Faithful ctx.table s)
    (hl : LocalsPlaced ctx s (Stmt.allSlots body))
    (hv : annotateStmts ctx body s = ⟨body', .ok (), s'⟩) :
    Accounts ctx.table (Decl.allSymbols ds) s s'
      ((Stmt.allParts body').flatMap (Stmt.complaints ctx)) :=
  ((oneByOne_of_annotateStmts hf hv).imp fun _ _ {_ _ _} hx => hx.accounts h hm).stmtsAccount
    hr hfaith hl

/-- Once there is a signature, the types of the parameters are no news. -/
theorem enter_accounts (h : Declares ctx.table tag ds) {path : List String} {m : Method}
    (hd : .method path m ∈ ds) (hfaith : Faithful ctx.table s) {b : Symbol}
    (hb : m.symbol = some b) {Ts : List Ty} {T : Ty}
    (hsig : s.signature ctx.table b = (Ts, T, s₁)) :
    Accounts ctx.table (Decl.allSymbols ds) s (typeParams m.params Ts s₁) [] := by
  obtain ⟨hbound, hmeth, -⟩ := method_declared h hd hb
  obtain ⟨k, he⟩ := enters_of_signature h hd hfaith hb hsig
  have hplaced := h.placed _ hd
  simp only [Decl.Placed, hb] at hplaced
  obtain ⟨-, j, -, hparams, -⟩ := hplaced
  have hisParam : ∀ p ∈ m.params, ∀ q, p.symbol = some q → ctx.table.Bound q ∧ IsParam q := by
    intro p hp q hq
    obtain ⟨-, -, index, hqd⟩ := hparams.of_mem hp hq
    refine ⟨h.bound_of_mem hd ?_, p.type, index, hqd⟩
    simp only [Decl.symbols, Method.vars, Method.paramSymbols, List.mem_append,
      List.mem_filterMap]
    exact Or.inr (Or.inl ⟨p, hp, hq⟩)
  refine ⟨he.grows, fun d => ?_⟩
  rw [typeParams_diagnostics, List.flatMap_congr fun x hx =>
    pending_typeParams h.sound ((h.bound x).mpr (Or.inr hx)) m.params hisParam]
  exact (signature_accounts h hbound hmeth hsig).balance d

theorem annotateMethod_accounts (h : Declares ctx.table tag ds) {path : List String}
    {m m' : Method} (hd : .method path m ∈ ds) (hf : m.erase.isFresh = true)
    (hfill : s.diagnostics = [] → (Decl.method path m).Filled) (hfaith : Faithful ctx.table s)
    (hv : annotateMethod ctx m s = ⟨m', .ok (), s'⟩) :
    Accounts ctx.table (Decl.allSymbols ds) s s' (m'.complaints ctx) := by
  unfold annotateMethod at hv
  cases hb : m.symbol with
  | none =>
    simp only [hb] at hv
    cases hv
    rw [Method.complaints, hb]
    exact .refl s
  | some b =>
    rcases hsig : s.signature ctx.table b with ⟨Ts, T, s1⟩
    obtain ⟨hbound, hmeth, -⟩ := method_declared h hd hb
    obtain ⟨k, he⟩ := enters_of_signature h hd hfaith hb hsig
    have henter := enter_accounts h hd hfaith hb hsig
    simp only [hb, he.scope, hsig] at hv
    cases hbody : m.body with
    | none =>
      rw [hbody] at hv
      cases hv
    | some body =>
      rw [hbody] at hv
      obtain ⟨body', hstmts, rfl⟩ := Visit.within_ok_iff.mp hv
      have hfb := isFresh_body hf hbody
      have hbs : m.bodySlots = Stmt.allSlots body := by simp [Method.bodySlots, hbody]
      have h' : Declares (Context.mk ctx.table k (some b) ctx.entry).table tag ds := h
      have hown : ∀ x, some b = some x → ctx.table.Bound x ∧ x.isMethod = true := by
        rintro _ ⟨⟩
        exact ⟨hbound, hmeth⟩
      have hrest := annotateStmts_accounts h' hown hfb he.ready (he.grows.faithful hfaith)
        (hbs ▸ he.localsPlaced h hd hb hfill) hstmts
      have hcomplaints : Method.complaints ctx { m with symbol := some b, body := some body' } =
          (Stmt.allParts body').flatMap (Stmt.complaints ⟨ctx.table, k, some b, ctx.entry⟩) := by
        simp [Method.complaints, he.scope]
      rw [hcomplaints]
      exact henter.after hrest

theorem FieldStep.accounts (h : Declares ctx.table tag ds) {type : TypeExpr} {v v' : Declarator}
    (hstep : FieldStep ctx type v s v' s') (hr : Ready ctx s) (hfaith : Faithful ctx.table s)
    (hb : ∀ b, v.symbol = some b → ctx.table.Bound b ∧ b.kind = .var ∧ ¬ IsParam b) :
    Accounts ctx.table (Decl.allSymbols ds) s s' (v'.fieldComplaints ctx type) := by
  cases hstep with
  | bare hi hd =>
    simpa [Declarator.fieldComplaints, hi] using declaredType_accounts h hb hd
  | @refused init init' D R _ s₁ _ hi hd hv =>
    have hreport : Accounts ctx.table (Decl.allSymbols ds) s
        (s₁.report (.unsupported "field initializers") init.span.start)
        (v.failures ctx type ++ [⟨.unsupported "field initializers", init.span.start⟩]) :=
      (declaredType_accounts h hb hd).trans (.also s₁ [_])
    have hinit := annotateExpr_accounts h hv.fresh (hr.mono hreport.grows.extends_)
      (hreport.grows.faithful hfaith) hv.run
    have hall := hreport.trans hinit
    rw [List.append_assoc, ← hv.outline.1] at hall
    exact hall

theorem annotateField_accounts (h : Declares ctx.table tag ds) {path : List String}
    {d d' : VarDecl} (hd : .field path d ∈ ds) (hf : d.erase.isFresh = true) (hr : Ready ctx s)
    (hfaith : Faithful ctx.table s) (hv : annotateField ctx d s = ⟨d', .ok (), s'⟩) :
    Accounts ctx.table (Decl.allSymbols ds) s s'
      (d'.vars.flatMap (Declarator.fieldComplaints ctx d'.type)) := by
  obtain ⟨vars, rfl, hsteps⟩ := oneByOne_of_annotateField hf hv
  exact hsteps.accounts (fun v hv' _ _ _ he hfaith' hvar =>
    hvar.accounts h (hr.mono he) hfaith' (field_isVar h hd v hv')) (.refl s) hfaith

theorem annotateClassWith_accounts (h : Declares ctx.table tag ds) {path : List String}
    {head : ClassHead} {members : List Member} {body : Context → Visit State (List Member) Unit}
    {c : ClassDecl} (hcls : .cls (path ++ [head.name.text]) head ∈ ds)
    (hbody : ∀ {k members' s'}, ctx.table.PathOf k (path ++ [head.name.text]) →
      body ⟨ctx.table, k, none, ctx.entry⟩ s = ⟨members', .ok (), s'⟩ →
      Accounts ctx.table (Decl.allSymbols ds) s s'
        (Member.allComplaints ⟨ctx.table, k, none, ctx.entry⟩ members'))
    (hv : annotateClassWith ctx head members body s = ⟨c, .ok (), s'⟩) :
    Accounts ctx.table (Decl.allSymbols ds) s s'
      (Member.complaints ctx (.nested c.head c.members)) := by
  cases classStep_of_annotateClassWith hv with
  | passed hb =>
    rw [Member.complaints, hb]
    exact .refl s
  | entered hb hk hm =>
    have hc := hbody (cls_scope h hcls hb hk) hm
    rw [Member.complaints, hb]
    simpa [hk] using hc

mutual

theorem annotateMember_accounts {ctx : Context} (h : Declares ctx.table tag ds)
    {path : List String} (hp : ctx.table.PathOf ctx.scope path) {m m' : Member} {s s' : State}
    (hin : ∀ d ∈ m.decls path, d ∈ ds) (hf : m.erase.isFresh = true)
    (hfill : s.diagnostics = [] → ∀ d ∈ ds, d.Filled) (hfaith : Faithful ctx.table s)
    (hv : annotateMember ctx m s = ⟨m', .ok (), s'⟩) :
    Accounts ctx.table (Decl.allSymbols ds) s s' (m'.complaints ctx) := by
  cases m with
  | method m =>
    rw [annotateMember] at hv
    rw [Member.erase, Member.isFresh] at hf
    obtain ⟨m', hm, rfl⟩ := Visit.within_ok_iff.mp hv
    have hd : Decl.method path m ∈ ds := hin _ (by rw [Member.decls]; exact List.mem_cons_self)
    rw [Member.complaints]
    exact annotateMethod_accounts h hd hf (fun hdiag => hfill hdiag _ hd) hfaith hm
  | field d =>
    rw [annotateMember] at hv
    rw [Member.erase, Member.isFresh] at hf
    obtain ⟨d', hm, rfl⟩ := Visit.within_ok_iff.mp hv
    have hd : Decl.field path d ∈ ds := hin _ (by rw [Member.decls]; exact List.mem_cons_self)
    rw [Member.complaints]
    exact annotateField_accounts h hd hf (ready_of_pathOf h.sound hp s) hfaith hm
  | nested head members =>
    rw [annotateMember] at hv
    rw [Member.erase, Member.isFresh, Bool.and_eq_true] at hf
    obtain ⟨c, hm, rfl⟩ := Visit.within_ok_iff.mp hv
    rw [Member.decls] at hin
    exact annotateClassWith_accounts h (hin _ List.mem_cons_self) (fun {k _ _} hpath hb => by
      have h' : Declares (Context.mk ctx.table k none ctx.entry).table tag ds := h
      exact annotateMembers_accounts h' hpath (fun d hd => hin d (List.mem_cons_of_mem _ hd)) hf.2
        hfill hfaith hb) hm

theorem annotateMembers_accounts {ctx : Context} (h : Declares ctx.table tag ds)
    {path : List String} (hp : ctx.table.PathOf ctx.scope path) {ms ms' : List Member}
    {s s' : State}
    (hin : ∀ d ∈ Member.allDecls path ms, d ∈ ds)
    (hf : Member.allFresh (Member.eraseAll ms) = true)
    (hfill : s.diagnostics = [] → ∀ d ∈ ds, d.Filled) (hfaith : Faithful ctx.table s)
    (hv : annotateMembers ctx ms s = ⟨ms', .ok (), s'⟩) :
    Accounts ctx.table (Decl.allSymbols ds) s s' (Member.allComplaints ctx ms') := by
  cases ms with
  | nil =>
    rw [annotateMembers] at hv
    cases hv
    rw [Member.allComplaints]
    exact .refl s
  | cons m rest =>
    rw [annotateMembers] at hv
    rw [Member.eraseAll, Member.allFresh, Bool.and_eq_true] at hf
    rw [Member.allDecls] at hin
    obtain ⟨m', _, s1, h1, h2⟩ := Visit.part_ok_iff.mp hv
    obtain ⟨rest', hrest, rfl⟩ := Visit.within_ok_iff.mp h2
    have hm := annotateMember_accounts h hp (fun d hd => hin d (List.mem_append_left _ hd)) hf.1
      hfill hfaith h1
    rw [Member.allComplaints]
    exact hm.trans (annotateMembers_accounts h hp (fun d hd => hin d (List.mem_append_right _ hd))
      hf.2 (fun hdiag => hfill (hm.grows.extends_.quiet hdiag)) (hm.grows.faithful hfaith) hrest)

end

theorem pending_of_recorded {t : Table} (h : Declares t tag ds) {r : Resolutions}
    (hrec : ∀ d ∈ ds, d.Recorded r) {b : Symbol} (hb : t.Bound b) : pending t r b = [] := by
  cases h.declared hb with
  | system hd =>
    subst hd
    exact pending_builtin List.mem_cons_self r
  | routine _ hd => simp [pending, paramFailures, typeFailures, hd, failures, resolveType]
  | method hm hs hd =>
    obtain ⟨htype, Ts, hTs, -⟩ := (hrec _ hm).1 b hs
    simp [pending, htype, hTs]
  | param _ _ _ _ _ hd => exact pending_of_isParam ⟨_, _, hd⟩ r
  | slot hm _ _ hv hs hd =>
    have htype := (hrec _ hm).2.2 _ hv b hs
    simp [pending, paramFailures, hd, htype]
  | field hf hv hs hd =>
    have htype := hrec _ hf _ (List.mem_map_of_mem hv) b hs
    simp [pending, paramFailures, hd, htype]
  | cls _ _ hd => simp [pending, paramFailures, typeFailures, hd]

end

theorem pending_empty (t : Table) (b : Symbol) :
    pending t .empty b = paramFailures t b ++ typeFailures t b := by
  simp [pending, Resolutions.empty, Resolutions.type?, Resolutions.params?]

end Typing

/-- What is on record for a declaration is what its written types mean in the scope it is declared
in, and a parameter has the type of its place in the signature. -/
def Decl.Transparent (t : Table) (r : Resolutions) : Decl → Prop
  | .method _ m =>
    (∀ b, m.symbol = some b →
      r.params? b = some (m.params.map fun p => meaning t b.declaredIn p.type) ∧
      r.type? b = some (meaning t b.declaredIn m.returns) ∧
      ∀ (i : Nat) (p : Param) (q : Symbol), m.params[i]? = some p → p.symbol = some q →
        r.type? q = (r.params? b).bind fun types => types[i]?) ∧
    ∀ v ∈ m.bodySlots, ∀ b, v.symbol = some b → r.type? b = some (meaning t b.declaredIn v.type)
  | .field _ d => ∀ v ∈ d.slots, ∀ b, v.symbol = some b →
      r.type? b = some (meaning t b.declaredIn v.type)
  | .cls .. => True

namespace Typing

theorem Faithful.type?_eq {t : Table} (h : t.Sound) {s : State} (hf : Faithful t s) {b : Symbol}
    (hb : t.Bound b) {scope : ScopeId} {type : TypeExpr} (hw : Writes t b scope type)
    (hrec : (s.resolutions.type? b).isSome = true) :
    s.resolutions.type? b = some (meaning t scope type) := by
  obtain ⟨T, hT⟩ := Option.isSome_iff_exists.mp hrec
  rw [hT, hf.type_eq h hb hT hw]

theorem transparent_of_recorded {t : Table} {tag : Nat} {ds : List Decl} (h : Declares t tag ds)
    {s : State} (hf : Faithful t s) {d : Decl} (hd : d ∈ ds) (hrec : d.Recorded s.resolutions) :
    d.Transparent t s.resolutions := by
  cases d with
  | cls path head => trivial
  | field path d =>
    intro v hv b hb
    have hdet := (h.placed _ hd v hv b hb).2
    have hbound := h.bound_of_mem hd (List.mem_filterMap.mpr ⟨v, hv, hb⟩)
    exact hf.type?_eq h.sound hbound (by simp [Writes, hdet]) (hrec v hv b hb)
  | method path m =>
    obtain ⟨hown, hparams, hslots⟩ := hrec
    refine ⟨fun b hb => ?_, fun v hv q hq => ?_⟩
    · obtain ⟨hbound, -, hdet, k, -, hwrites, -⟩ := method_declared h hd hb
      obtain ⟨htype, Ts, hTs, -⟩ := hown b hb
      have hsig : Ts = m.params.map fun p => meaning t b.declaredIn p.type := by
        rw [hf.params_eq hbound hTs hdet, List.map_map]
        rfl
      rw [hTs, hsig]
      refine ⟨rfl, hf.type?_eq h.sound hbound (by simp [Writes, hdet]) htype, ?_⟩
      intro i p q hi hq
      have hp := List.mem_of_getElem? hi
      obtain ⟨hbq, hw⟩ := hwrites p hp q hq
      rw [hf.type?_eq h.sound hbq hw (hparams p hp q hq)]
      simp [hi]
    · have hmem : q ∈ (Decl.method path m).symbols := by
        simp only [Decl.symbols, Method.vars, VarSlot.symbols, List.mem_append,
          List.mem_filterMap]
        exact Or.inr (Or.inr ⟨v, hv, hq⟩)
      obtain ⟨b, -, hb, -⟩ := (h.placed _ hd).of_mem_method hmem
      obtain ⟨-, -, -, k, -, -, hlocals⟩ := method_declared h hd hb
      obtain ⟨hbound, -, index, hdet⟩ := hlocals v hv q hq
      exact hf.type?_eq h.sound hbound (by simp [Writes, hdet]) (hslots v hv q hq)

variable {u registered u' : CompilationUnit} {tag : Nat} {reports : List Diagnostic}
  {choice : EntryChoice} {s : Registration.State} {s' : State}

theorem annotateUnit_accounts (hf : u.isFresh = true)
    (hr : Registration.registerUnit u (.withSystem tag) reports = ⟨registered, .ok (), s⟩)
    (hv : annotateUnit registered s.table choice ⟨.empty, s.diagnostics⟩ = ⟨u', .ok (), s'⟩) :
    Declares s.table tag u'.decls ∧ (∀ d ∈ u'.decls, d.Recorded s'.resolutions) ∧
      Accounts s.table (Decl.allSymbols u'.decls) ⟨.empty, s.diagnostics⟩ s'
        (u'.complaints s.table choice) := by
  obtain ⟨herase, hreg⟩ := Registration.registerUnit_registers hf hr
  have hfresh := CompilationUnit.isFresh_erase hf
  rw [← herase] at hfresh
  obtain ⟨_ | c⟩ := registered
  · cases hv
  obtain ⟨c', hc, rfl⟩ := Visit.within_ok_iff.mp hv
  simp only [CompilationUnit.isFresh, CompilationUnit.erase, Option.map_some, Option.all_some,
    ClassDecl.erase, Bool.and_eq_true] at hfresh
  have hset := (Registration.registerUnit_settles hf hr rfl).settled
  rw [Member.AllSettled, Member.Settled] at hset
  have hfaith := faithful_empty s.table s.diagnostics
  have hin : ∀ k, Declares (Context.mk s.table k none (choice.resolve c)).table tag (c.decls []) :=
    fun _ => hreg.declares
  have hrest : ∀ d ∈ Member.allDecls ([] ++ [c.head.name.text]) c.members, d ∈ c.decls [] :=
    fun d hd => List.mem_cons_of_mem _ hd
  obtain ⟨-, halike, hcheck⟩ := annotateClassWith_checks (hin Table.root) (fun d hd => hd)
    hreg.filled (fun {k _ _} hpath hb =>
      annotateMembers_checks (hin k) hpath hrest hfresh.2 hreg.filled hfaith hb) hc
  obtain ⟨hcomplete, -⟩ := annotateClassWith_complete (hin Table.root) List.mem_cons_self
    (fun hnone => by
      rw [hnone] at hset
      exact hset.1)
    (fun {k _ _} hpath hne hb => by
      obtain ⟨b, hsym⟩ := Option.ne_none_iff_exists'.mp hne
      rw [hsym] at hset
      obtain ⟨⟨j, -, -, -, hall⟩, -⟩ := hset
      exact annotateMembers_complete (hin k) hpath hrest hfresh.2 hall hreg.filled hfaith hb) hc
  have haccounts := annotateClassWith_accounts (hin Table.root) List.mem_cons_self
    (fun {k _ _} hpath hb =>
      annotateMembers_accounts (hin k) hpath hrest hfresh.2 hreg.filled hfaith hb) hc
  refine ⟨declares_of_same hreg.declares hcheck.same, fun d hd => (hcomplete d hd).recorded, ?_⟩
  have hentry : choice.resolve c' = choice.resolve c :=
    choice.resolve_of_alike c.head c'.head halike
  rw [CompilationUnit.complaints, Option.elim_some, hentry]
  rw [show Decl.allSymbols (CompilationUnit.decls ⟨some c'⟩) = Decl.allSymbols (c.decls []) from
    allSymbols_of_same hcheck.same]
  exact haccounts

end Typing

/-- The written type of every registered symbol is resolved once, where the symbol is declared, and
what is wrong with it is reported once. The reports of typing are those complaints about the tree
that do not depend on what is on record, and one time what is wrong with the types of each symbol.
-/
theorem written_types_resolved_once {u registered u' : CompilationUnit} {tag : Nat}
    {reports : List Diagnostic} {choice : EntryChoice} {s : Registration.State} {s' : State}
    (hf : u.isFresh = true)
    (hr : Registration.registerUnit u (.withSystem tag) reports = ⟨registered, .ok (), s⟩)
    (hv : annotateUnit registered s.table choice ⟨.empty, s.diagnostics⟩ = ⟨u', .ok (), s'⟩) :
    (∀ d ∈ u'.decls, d.Transparent s.table s'.resolutions) ∧ (Decl.allSymbols u'.decls).Nodup ∧
      s'.diagnostics.Perm (s.diagnostics ++ u'.complaints s.table choice ++
        (Decl.allSymbols u'.decls).flatMap fun b =>
          paramFailures s.table b ++ typeFailures s.table b) := by
  obtain ⟨hdecl, hrec, hacc⟩ := annotateUnit_accounts hf hr hv
  have hfaith := hacc.grows.faithful (faithful_empty s.table s.diagnostics)
  refine ⟨fun d hd => transparent_of_recorded hdecl hfaith hd (hrec d hd), hdecl.nodup, ?_⟩
  -- all is pending at the start and nothing at the end
  have hdone : (Decl.allSymbols u'.decls).flatMap (pending s.table s'.resolutions) = [] :=
    List.flatMap_eq_nil_iff.mpr fun b hb =>
      pending_of_recorded hdecl hrec ((hdecl.bound b).mpr (Or.inr hb))
  rw [List.perm_iff_count]
  intro d
  have hd := hacc.balance d
  rw [hdone, List.count_nil, Nat.add_zero] at hd
  rw [hd, List.count_append, List.count_append, funext (pending_empty s.table)]

/-- Types that mean nothing are needed before their declarations and after, and many times. -/
def Sample.unknown : CompilationUnit :=
  ⟨some ⟨⟨.plain "Main", [], none, [], none⟩,
    [method [.static] (word .void) "early" []
       [run (call "late" [num 1]), run (call "late" [ref "kept"]),
        .locals (decl [] (.named [.plain "Missing"] .null)
          [("x", some (ref "kept")), ("x", none), ("y", some (ref "x"))])],
     method [.static] (.named [.plain "Lost"] .null) "late"
       [(.named [.plain "Gone"] .null, "p"), (.named [.plain "Gone"] .null, "q")]
       [run (call "late" [ref "p", ref "q"]), run (call "late" [num 1]), ret (num 1)],
     .field (decl [.static] (.named [.plain "Absent"] .null) [("kept", some (call "late" []))]),
     method [.static] (word .void) "late" [(word .int, "n")] [ret (ref "n")]]⟩⟩

theorem written_types_resolved_once_unknown : ∃ registered s u' s',
    Registration.registerUnit Sample.unknown (.withSystem 3) [] = ⟨registered, .ok (), s⟩ ∧
      annotateUnit registered s.table .firstStatic ⟨.empty, s.diagnostics⟩ = ⟨u', .ok (), s'⟩ ∧
      s.diagnostics.length = 1 ∧ (u'.complaints s.table .firstStatic).length = 4 ∧
      ((Decl.allSymbols u'.decls).flatMap fun b =>
        paramFailures s.table b ++ typeFailures s.table b).map Diagnostic.problem =
          ["Missing", "Missing", "Gone", "Gone", "Lost", "Absent"].map Problem.undeclared ∧
      s'.diagnostics.length = 11 ∧
      (∀ d ∈ u'.decls, d.Transparent s.table s'.resolutions) ∧ (Decl.allSymbols u'.decls).Nodup ∧
      s'.diagnostics.Perm (s.diagnostics ++ u'.complaints s.table .firstStatic ++
        (Decl.allSymbols u'.decls).flatMap fun b =>
          paramFailures s.table b ++ typeFailures s.table b) := by
  have hreg : (Registration.registerUnit Sample.unknown (.withSystem 3) []).answer.isOk = true ∧
      (Registration.registerUnit Sample.unknown (.withSystem 3) []).state.diagnostics.length =
        1 := by decide +kernel
  have htyp : ∀ r, Registration.registerUnit Sample.unknown (.withSystem 3) [] = r →
      ∀ v, annotateUnit r.node r.state.table .firstStatic ⟨.empty, r.state.diagnostics⟩ = v →
        v.answer.isOk = true ∧ (v.node.complaints r.state.table .firstStatic).length = 4 ∧
        ((Decl.allSymbols v.node.decls).flatMap fun b =>
          paramFailures r.state.table b ++ typeFailures r.state.table b).map Diagnostic.problem =
            ["Missing", "Missing", "Gone", "Gone", "Lost", "Absent"].map Problem.undeclared ∧
        v.state.diagnostics.length = 11 := by
    rintro _ rfl _ rfl
    decide +kernel
  generalize hr : Registration.registerUnit Sample.unknown (.withSystem 3) [] = r at hreg
  obtain ⟨registered, _ | ⟨⟩, s⟩ := r
  · cases hreg.1
  have hvisit := htyp _ hr _ rfl
  generalize hv : annotateUnit registered s.table .firstStatic ⟨.empty, s.diagnostics⟩ = v at hvisit
  obtain ⟨u', _ | ⟨⟩, s'⟩ := v
  · cases hvisit.1
  obtain ⟨-, hcomplaints, hfailures, hlength⟩ := hvisit
  exact ⟨registered, s, u', s', rfl, hv, hreg.2, hcomplaints, hfailures, hlength,
    written_types_resolved_once (by decide) hr hv⟩

end ClassLang
