import ClassLang.Proofs.Places.Registered

/-! Typing does not look at places. Names and written types resolve to the same bare symbols and
types, with the same problems, in tables that are alike; from there on the judgements are the same.
Typing of a registered tree agrees with typing of its bare tree. -/
namespace ClassLang

namespace Resolutions

theorem type?_eq_of_bare (r : Resolutions) {b c : Symbol} (h : b.bare = c.bare) :
    r.type? b = r.type? c := by
  have hid : b.id = c.id := by simpa using congrArg Symbol.id h
  simp only [type?, hid]

theorem params?_eq_of_bare (r : Resolutions) {b c : Symbol} (h : b.bare = c.bare) :
    r.params? b = r.params? c := by
  have hid : b.id = c.id := by simpa using congrArg Symbol.id h
  simp only [params?, hid]

structure Like (r q : Resolutions) : Prop where
  type? : ∀ b, (r.type? b).map Ty.bare = (q.type? b).map Ty.bare
  params? : ∀ b, (r.params? b).map (List.map Ty.bare) = (q.params? b).map (List.map Ty.bare)

namespace Like

variable {r q : Resolutions}

theorem refl (r : Resolutions) : r.Like r := ⟨fun _ => rfl, fun _ => rfl⟩

theorem symm (h : r.Like q) : q.Like r := ⟨fun b => (h.type? b).symm, fun b => (h.params? b).symm⟩

theorem trans {p : Resolutions} (h : r.Like q) (k : q.Like p) : r.Like p :=
  ⟨fun b => (h.type? b).trans (k.type? b), fun b => (h.params? b).trans (k.params? b)⟩

theorem setType (h : r.Like q) {b c : Symbol} (hb : b.bare = c.bare) {T U : Ty}
    (hT : T.bare = U.bare) : (r.setType b T).2.Like (q.setType c U).2 := by
  have hid : b.id = c.id := by simpa using congrArg Symbol.id hb
  constructor
  · intro x
    by_cases hx : x.id = b.id
    · have hxb : ∀ p : Resolutions, p.type? x = p.type? b := fun p => by
        simp only [Resolutions.type?, hx]
      have hxc : ∀ p : Resolutions, p.type? x = p.type? c := fun p => by
        simp only [Resolutions.type?, hx, hid]
      have hlike := h.type? x
      rw [hxb r, hxc q] at hlike
      rw [hxb (r.setType b T).2, hxc (q.setType c U).2, type?_setType_self, type?_setType_self,
        Option.map_some, Option.map_some, ← Option.getD_map Ty.bare, ← Option.getD_map Ty.bare,
        hlike, hT]
    · rw [type?_setType_of_ne r T hx, type?_setType_of_ne q U (hid ▸ hx)]
      exact h.type? x
  · intro x
    have hkeep : ∀ (p : Resolutions) (y : Symbol) (V : Ty),
        (p.setType y V).2.params? x = p.params? x := by
      intro p y V
      unfold Resolutions.setType
      split <;> rfl
    rw [hkeep, hkeep]
    exact h.params? x

theorem setParams (h : r.Like q) {b c : Symbol} (hb : b.bare = c.bare) {Ts Us : List Ty}
    (hT : Ts.map Ty.bare = Us.map Ty.bare) : (r.setParams b Ts).2.Like (q.setParams c Us).2 := by
  have hid : b.id = c.id := by simpa using congrArg Symbol.id hb
  constructor
  · intro x
    have hkeep : ∀ (p : Resolutions) (y : Symbol) (Vs : List Ty),
        (p.setParams y Vs).2.type? x = p.type? x := by
      intro p y Vs
      unfold Resolutions.setParams
      split <;> rfl
    rw [hkeep, hkeep]
    exact h.type? x
  · intro x
    by_cases hx : x.id = b.id
    · have hxb : ∀ p : Resolutions, p.params? x = p.params? b := fun p => by
        simp only [Resolutions.params?, hx]
      have hxc : ∀ p : Resolutions, p.params? x = p.params? c := fun p => by
        simp only [Resolutions.params?, hx, hid]
      have hlike := h.params? x
      rw [hxb r, hxc q] at hlike
      rw [hxb (r.setParams b Ts).2, hxc (q.setParams c Us).2, params?_setParams_self,
        params?_setParams_self, Option.map_some, Option.map_some,
        ← Option.getD_map (List.map Ty.bare), ← Option.getD_map (List.map Ty.bare), hlike, hT]
    · rw [params?_setParams_of_ne r Ts hx, params?_setParams_of_ne q Us (hid ▸ hx)]
      exact h.params? x

end Like

end Resolutions

namespace Typing

def outcome : Except Diagnostic Symbol → Except Problem Symbol
  | .ok b => .ok b.bare
  | .error d => .error d.problem

theorem single_or_not {as bs : List Symbol} (h : as.map Symbol.bare = bs.map Symbol.bare) :
    (∃ a b, as = [a] ∧ bs = [b] ∧ a.bare = b.bare) ∨ (∀ a, as ≠ [a]) ∧ ∀ b, bs ≠ [b] := by
  rcases as with _ | ⟨a, _ | ⟨a', as⟩⟩ <;> rcases bs with _ | ⟨b, _ | ⟨b', bs⟩⟩ <;> simp_all

theorem resolveMembers_agrees {t u : Table} (h : t.Like u) (fallback fallback' : Position)
    (rest : List Name) : ∀ (before : List Name) {owner owner' : Symbol},
      owner.bare = owner'.bare →
        outcome (resolveMembers t fallback before owner rest) =
          outcome (resolveMembers u fallback' (before.map Name.bare) owner'
            (rest.map Name.bare)) := by
  induction rest with
  | nil =>
    intro before owner owner' ho
    exact congrArg Except.ok ho
  | cons segment rest ih =>
    intro before owner owner' ho
    have hscope : owner.memberScope? = owner'.memberScope? := by
      simpa using congrArg Symbol.memberScope? ho
    have hname : owner.name = owner'.name := by simpa using congrArg Symbol.name ho
    have hdotted : Text.dotted (before.map Name.bare ++ [segment.bare]) =
        Text.dotted (before ++ [segment]) := by
      simpa using Text.dotted_bare (before ++ [segment])
    rw [List.map_cons, resolveMembers, resolveMembers, hscope]
    cases owner'.memberScope? with
    | none => simp [outcome, hname]
    | some scope =>
      dsimp only
      rcases single_or_not (h.members scope segment.text) with ⟨a, b, ha, hb, hab⟩ | ⟨ha, hb⟩
      · rw [Name.text_bare, ha, hb]
        simpa using ih (before ++ [segment]) hab
      · rw [Name.text_bare]
        split
        · next a hsingle => exact absurd hsingle (ha a)
        · simp [outcome, undeclared, hdotted]

theorem resolvePath_agrees {t u : Table} (h : t.Like u) (scope : ScopeId)
    (fallback fallback' : Position) (segments : List Name) :
    (resolvePath t scope fallback segments).map outcome =
      (resolvePath u scope fallback' (segments.map Name.bare)).map outcome := by
  cases segments with
  | nil => rfl
  | cons segment rest =>
    have hdotted : Text.dotted [segment.bare] = Text.dotted [segment] := Text.dotted_bare [segment]
    rw [List.map_cons, resolvePath, resolvePath, Name.text_bare]
    rcases single_or_not (h.visibleFrom scope segment.text) with ⟨a, b, ha, hb, hab⟩ | ⟨ha, hb⟩
    · rw [ha, hb]
      exact congrArg some (resolveMembers_agrees h fallback fallback' rest [segment] hab)
    · split
      · next a hsingle => exact absurd hsingle (ha a)
      · simp [outcome, undeclared, hdotted]

/-- How resolving a name ends, both times in the same way. -/
theorem resolvePath_cases {t u : Table} (h : t.Like u) (scope : ScopeId)
    (fallback fallback' : Position) (segments : List Name) :
    (resolvePath t scope fallback segments = none ∧
        resolvePath u scope fallback' (segments.map Name.bare) = none) ∨
      (∃ d d', resolvePath t scope fallback segments = some (.error d) ∧
        resolvePath u scope fallback' (segments.map Name.bare) = some (.error d') ∧
        d.problem = d'.problem) ∨
      ∃ b b', resolvePath t scope fallback segments = some (.ok b) ∧
        resolvePath u scope fallback' (segments.map Name.bare) = some (.ok b') ∧
        b.bare = b'.bare := by
  have hagrees := resolvePath_agrees h scope fallback fallback' segments
  generalize resolvePath t scope fallback segments = x at hagrees ⊢
  generalize resolvePath u scope fallback' (segments.map Name.bare) = y at hagrees ⊢
  rcases x with _ | d | b <;> rcases y with _ | d' | b' <;> simp_all [outcome]

theorem resolveType_bare {t u : Table} (h : t.Like u) (scope : ScopeId) (type : TypeExpr) :
    (resolveType t scope type).1.bare = (resolveType u scope type.bare).1.bare ∧
      (resolveType t scope type).2.map Diagnostic.problem =
        (resolveType u scope type.bare).2.map Diagnostic.problem := by
  cases type with
  | keyword word span => simp [TypeExpr.bare, resolveType]
  | array element span => simp [TypeExpr.bare, resolveType]
  | generic base args span => simp [TypeExpr.bare, resolveType]
  | named segments span =>
    rw [TypeExpr.bare, resolveType, resolveType]
    rcases resolvePath_cases h scope span.start Span.null.start segments with
      ⟨he, he'⟩ | ⟨d, d', he, he', hd⟩ | ⟨b, b', he, he', hb⟩
    · simp [he, he']
    · simp [he, he', hd]
    · have hkind : b.kind = b'.kind := by simpa using congrArg Symbol.kind hb
      simp only [he, he', hkind]
      split
      · simp [Ty.bare, hb]
      · simp

theorem resolveType_agrees {t u : Table} (h : t.Like u) (scope : ScopeId) {type type' : TypeExpr}
    (htype : type.bare = type'.bare) :
    (resolveType t scope type).1.bare = (resolveType u scope type').1.bare ∧
      (resolveType t scope type).2.map Diagnostic.problem =
        (resolveType u scope type').2.map Diagnostic.problem := by
  obtain ⟨hleft, hleftProblem⟩ := resolveType_bare h scope type
  obtain ⟨hright, hrightProblem⟩ := resolveType_bare (.refl u) scope type'
  rw [hleft, hleftProblem, htype, hright, hrightProblem]
  exact ⟨rfl, rfl⟩

structure State.Like (s u : State) : Prop where
  resolutions : s.resolutions.Like u.resolutions
  problems : s.diagnostics.map Diagnostic.problem = u.diagnostics.map Diagnostic.problem

namespace State.Like

variable {s u : State}

theorem push (h : s.Like u) {d d' : Diagnostic} (hd : d.problem = d'.problem) :
    (s.push d).Like (u.push d') :=
  ⟨h.resolutions, by simp [State.push, h.problems, hd]⟩

theorem report (h : s.Like u) (problem : Problem) (position position' : Position) :
    (s.report problem position).Like (u.report problem position') :=
  h.push rfl

theorem setType (h : s.Like u) {b c : Symbol} (hb : b.bare = c.bare) {T U : Ty}
    (hT : T.bare = U.bare) : (s.setType b T).Like (u.setType c U) :=
  ⟨h.resolutions.setType hb hT, h.problems⟩

theorem setParams (h : s.Like u) {b c : Symbol} (hb : b.bare = c.bare) {Ts Us : List Ty}
    (hT : Ts.map Ty.bare = Us.map Ty.bare) : (s.setParams b Ts).Like (u.setParams c Us) :=
  ⟨h.resolutions.setParams hb hT, h.problems⟩

section Tables

variable {t r : Table} (ht : t.Like r)
include ht

theorem resolve (h : s.Like u) (scope : ScopeId) {type type' : TypeExpr}
    (htype : type.bare = type'.bare) :
    (s.resolve t scope type).1.bare = (u.resolve r scope type').1.bare ∧
      (s.resolve t scope type).2.Like (u.resolve r scope type').2 := by
  obtain ⟨hfound, hproblem⟩ := resolveType_agrees ht scope htype
  unfold State.resolve
  generalize resolveType t scope type = x at hfound hproblem ⊢
  generalize resolveType r scope type' = y at hfound hproblem ⊢
  obtain ⟨T, _ | d⟩ := x <;> obtain ⟨U, _ | d'⟩ := y
  · exact ⟨hfound, h⟩
  · cases hproblem
  · cases hproblem
  · exact ⟨hfound, h.push (Option.some.inj hproblem)⟩

theorem resolveAll (scope : ScopeId) (types : List TypeExpr) : ∀ {types' : List TypeExpr}
    {s u : State}, types.map TypeExpr.bare = types'.map TypeExpr.bare → s.Like u →
      (s.resolveAll t scope types).1.map Ty.bare = (u.resolveAll r scope types').1.map Ty.bare ∧
        (s.resolveAll t scope types).2.Like (u.resolveAll r scope types').2 := by
  induction types with
  | nil =>
    intro types' s u htypes h
    rw [List.map_nil, eq_comm, List.map_eq_nil_iff] at htypes
    subst htypes
    exact ⟨rfl, h⟩
  | cons type rest ih =>
    intro types' s u htypes h
    obtain ⟨type', rest', rfl, htype, hrest⟩ := List.map_eq_cons_iff.mp htypes.symm
    obtain ⟨hT, h1⟩ := h.resolve ht scope htype.symm
    obtain ⟨hTs, h2⟩ := ih hrest.symm h1
    exact ⟨by simp [State.resolveAll, hT, hTs], h2⟩

theorem varType (h : s.Like u) {v w : Symbol} (hv : v.bare = w.bare) :
    (s.varType t v).1.bare = (u.varType r w).1.bare ∧ (s.varType t v).2.Like (u.varType r w).2 := by
  have hrec := h.resolutions.type? v
  rw [u.resolutions.type?_eq_of_bare hv] at hrec
  have hin : v.declaredIn = w.declaredIn := by simpa using congrArg Symbol.declaredIn hv
  have hdetails : v.details.bare = w.details.bare := by simpa using congrArg Symbol.details hv
  unfold State.varType
  generalize s.resolutions.type? v = x at hrec ⊢
  generalize u.resolutions.type? w = y at hrec ⊢
  obtain _ | T := x <;> obtain _ | U := y
  · rcases hd : v.details with _ | _ | ⟨type, storage⟩ <;>
      rcases hd' : w.details with _ | _ | ⟨type', storage'⟩ <;>
      simp only [hd, hd', Details.bare, reduceCtorEq] at hdetails
    · exact ⟨rfl, h.setType hv rfl⟩
    · exact ⟨rfl, h.setType hv rfl⟩
    · obtain ⟨htype, -⟩ := Details.var.inj hdetails
      obtain ⟨hT, h1⟩ := h.resolve ht v.declaredIn htype
      rw [← hin]
      exact ⟨hT, h1.setType hv hT⟩
  · cases hrec
  · cases hrec
  · exact ⟨Option.some.inj hrec, h⟩

theorem paramTypes (h : s.Like u) {m n : Symbol} (hm : m.bare = n.bare)
    {params params' : List TypeExpr} (hp : params.map TypeExpr.bare = params'.map TypeExpr.bare) :
    (s.paramTypes t m params).1.map Ty.bare = (u.paramTypes r n params').1.map Ty.bare ∧
      (s.paramTypes t m params).2.Like (u.paramTypes r n params').2 := by
  have hrec := h.resolutions.params? m
  rw [u.resolutions.params?_eq_of_bare hm] at hrec
  have hin : m.declaredIn = n.declaredIn := by simpa using congrArg Symbol.declaredIn hm
  unfold State.paramTypes
  generalize s.resolutions.params? m = x at hrec ⊢
  generalize u.resolutions.params? n = y at hrec ⊢
  obtain _ | Ts := x <;> obtain _ | Us := y
  · obtain ⟨hTs, h1⟩ := resolveAll ht m.declaredIn params hp h
    rw [← hin]
    exact ⟨hTs, h1.setParams hm hTs⟩
  · cases hrec
  · cases hrec
  · exact ⟨Option.some.inj hrec, h⟩

theorem resultType (h : s.Like u) {m n : Symbol} (hm : m.bare = n.bare) {type type' : TypeExpr}
    (htype : type.bare = type'.bare) :
    (s.resultType t m type).1.bare = (u.resultType r n type').1.bare ∧
      (s.resultType t m type).2.Like (u.resultType r n type').2 := by
  have hrec := h.resolutions.type? m
  rw [u.resolutions.type?_eq_of_bare hm] at hrec
  have hin : m.declaredIn = n.declaredIn := by simpa using congrArg Symbol.declaredIn hm
  unfold State.resultType
  generalize s.resolutions.type? m = x at hrec ⊢
  generalize u.resolutions.type? n = y at hrec ⊢
  obtain _ | T := x <;> obtain _ | U := y
  · obtain ⟨hT, h1⟩ := h.resolve ht m.declaredIn htype
    rw [← hin]
    exact ⟨hT, h1.setType hm hT⟩
  · cases hrec
  · cases hrec
  · exact ⟨Option.some.inj hrec, h⟩

theorem signature (h : s.Like u) {m n : Symbol} (hm : m.bare = n.bare) :
    (s.signature t m).1.map Ty.bare = (u.signature r n).1.map Ty.bare ∧
      (s.signature t m).2.1.bare = (u.signature r n).2.1.bare ∧
      (s.signature t m).2.2.Like (u.signature r n).2.2 := by
  have hdetails : m.details.bare = n.details.bare := by simpa using congrArg Symbol.details hm
  unfold State.signature
  rcases hd : m.details with _ | ⟨params, returns, _, _, _⟩ | _ <;>
    rcases hd' : n.details with _ | ⟨params', returns', _, _, _⟩ | _ <;>
    simp only [hd, hd', Details.bare, reduceCtorEq] at hdetails
  · exact ⟨rfl, rfl, h⟩
  · obtain ⟨hparams, hreturns, -⟩ := Details.method.inj hdetails
    obtain ⟨hTs, h1⟩ := h.paramTypes ht hm hparams
    obtain ⟨hT, h2⟩ := h1.resultType ht hm hreturns
    exact ⟨hTs, hT, h2⟩
  · exact ⟨rfl, rfl, h⟩

end Tables

end State.Like

def Judgement.bare (j : Judgement) : Judgement := ⟨j.type.bare, j.problem⟩

structure Context.Like (ctx ctx' : Context) : Prop where
  table : ctx.table.Like ctx'.table
  scope : ctx.scope = ctx'.scope
  method : ctx.method.map Symbol.bare = ctx'.method.map Symbol.bare
  entry : ctx.entry = ctx'.entry

namespace Context.Like

variable {ctx ctx' : Context}

theorem isStatic (h : ctx.Like ctx') : ctx.isStatic = ctx'.isStatic := by
  have hm := h.method
  unfold Context.isStatic
  rw [h.entry]
  generalize ctx.method = x at hm ⊢
  generalize ctx'.method = y at hm ⊢
  obtain _ | m := x <;> obtain _ | n := y
  · rfl
  · cases hm
  · cases hm
  · simpa using congrArg (runsStatic ctx'.entry) (Option.some.inj hm)

theorem owner? (h : ctx.Like ctx') : ctx.owner? = ctx'.owner? := by
  have hm := congrArg (Option.bind · Symbol.methodOwner?) h.method
  simpa [Context.owner?, Option.bind_map, Function.comp_def] using hm

theorem thisJudgement (h : ctx.Like ctx') : thisJudgement ctx = thisJudgement ctx' := by
  unfold Typing.thisJudgement
  rw [h.isStatic]

theorem nameProblem? (h : ctx.Like ctx') {n n' : DottedName} (hn : n.bare = n'.bare)
    {b b' : Symbol} (hb : b.bare = b'.bare) : nameProblem? ctx n b = nameProblem? ctx' n' b' := by
  have htext : n.text = n'.text := by simpa using congrArg DottedName.text hn
  have hlength : n.segments.length = n'.segments.length := by
    simpa [DottedName.bare] using congrArg (fun n => n.segments.length) hn
  have hfield : ∀ owner, fieldProblem? ctx n owner = fieldProblem? ctx' n' owner := by
    intro owner
    unfold fieldProblem?
    rw [h.isStatic, h.owner?, htext, hlength]
  have hbare : ∀ (c : Context) (m : DottedName) (x : Symbol),
      Typing.nameProblem? c m x.bare = Typing.nameProblem? c m x := by
    intro c m x
    unfold Typing.nameProblem?
    rw [Symbol.details_bare]
    rcases x.details with _ | _ | ⟨_, _ | _ | ⟨_ | _, _⟩⟩ <;> rfl
  rw [← hbare, hb, hbare]
  unfold Typing.nameProblem?
  rcases b'.details with _ | _ | ⟨_, _ | _ | ⟨_ | _, owner⟩⟩
  all_goals first | exact hfield owner | rfl

theorem mayCall (h : ctx.Like ctx') {n n' : DottedName} (hn : n.bare = n'.bare) {b b' : Symbol}
    (hb : b.bare = b'.bare) : mayCall ctx n b = mayCall ctx' n' b' := by
  have hlength : n.segments.length = n'.segments.length := by
    simpa [DottedName.bare] using congrArg (fun n => n.segments.length) hn
  have hruns : runsStatic ctx'.entry b = runsStatic ctx'.entry b' := by
    simpa using congrArg (runsStatic ctx'.entry) hb
  have howner : b.methodOwner? = b'.methodOwner? := by
    simpa using congrArg Symbol.methodOwner? hb
  unfold Typing.mayCall
  rw [h.entry, h.isStatic, h.owner?, hlength, hruns, howner]

end Context.Like

theorem unaryJudgement_bare (op : UnaryOp) (T : Ty) :
    unaryJudgement op T.bare = (unaryJudgement op T).bare := by
  have hop : (operandType op).bare = operandType op := by cases op <;> rfl
  unfold unaryJudgement
  rw [Ty.isError_bare, Ty.same_bare_left, Ty.text_bare]
  split
  · rfl
  · split
    · simp [Judgement.bare, Judgement.found, hop]
    · rfl

theorem applies_bare (op : BinaryOp) (T : Ty) : applies op T.bare = applies op T := by
  cases op <;> simp [applies, Ty.same_bare_left]

theorem binaryJudgement_bare (op : BinaryOp) (L R : Ty) :
    binaryJudgement op L.bare R.bare = (binaryJudgement op L R).bare := by
  unfold binaryJudgement
  simp only [Ty.isError_bare, Ty.same_bare, Ty.text_bare, applies_bare]
  split
  · rfl
  · split
    · split <;> rfl
    · rfl

theorem assignJudgement_bare (T V : Ty) :
    assignJudgement T.bare V.bare = (assignJudgement T V).bare := by
  unfold assignJudgement
  simp only [Ty.isError_bare, Ty.convertsTo_bare, Ty.text_bare, Ty.isValue_bare]
  split
  · rfl
  · split <;> rfl

theorem createJudgement_bare {n n' : DottedName} (hn : n.bare = n'.bare) {args args' : List Expr}
    (hargs : args.map Expr.bare = args'.map Expr.bare) {b b' : Symbol} (hb : b.bare = b'.bare) :
    (createJudgement n args b).bare = (createJudgement n' args' b').bare := by
  have htext : n.text = n'.text := by simpa using congrArg DottedName.text hn
  have hempty : args.isEmpty = args'.isEmpty := by simpa using congrArg List.isEmpty hargs
  have hdetails : b.details.bare = b'.details.bare := by simpa using congrArg Symbol.details hb
  unfold createJudgement
  rcases hd : b.details with ⟨path, modifiers, builtin⟩ | _ | _ <;>
    rcases hd' : b'.details with ⟨path', modifiers', builtin'⟩ | _ | _ <;>
    simp only [hd, hd', Details.bare, reduceCtorEq] at hdetails
  · obtain ⟨-, rfl, rfl⟩ := Details.cls.inj hdetails
    simp only [hempty, htext]
    split
    · rfl
    · split
      · simp [Judgement.bare, Judgement.found, Ty.bare, hb]
      · rfl
  · simp [htext]
  · simp [htext]

def Offer.bare (o : Offer) : Offer := ⟨o.method.bare, o.params.map Ty.bare, o.returns.bare⟩

theorem chooseOffer_agrees {ctx ctx' : Context} (h : ctx.Like ctx') {n n' : DottedName}
    (hn : n.bare = n'.bare) {args args' : List Ty} (hargs : args.map Ty.bare = args'.map Ty.bare)
    {offers offers' : List Offer} (ho : offers.map Offer.bare = offers'.map Offer.bare) :
    (chooseOffer ctx n args offers).map Offer.bare =
      (chooseOffer ctx' n' args' offers').map Offer.bare := by
  have htext : n.text = n'.text := by simpa using congrArg DottedName.text hn
  have hfilter : ∀ (Ts : List Ty) (os : List Offer),
      (os.filter fun o => Ty.sameList o.params Ts).map Offer.bare =
        (os.map Offer.bare).filter fun o => Ty.sameList o.params (Ts.map Ty.bare) := by
    intro Ts os
    simp [List.filter_map, Function.comp_def, Offer.bare]
  have hfit := hfilter args offers
  rw [ho, hargs, ← hfilter args' offers'] at hfit
  unfold chooseOffer
  generalize offers.filter _ = fit at hfit ⊢
  generalize offers'.filter _ = fit' at hfit ⊢
  rcases offers with _ | ⟨o, os⟩ <;> rcases offers' with _ | ⟨o', os'⟩
  · simp [htext]
  · cases ho
  · cases ho
  · rcases fit with _ | ⟨f, _ | ⟨f₂, fit⟩⟩ <;> rcases fit' with _ | ⟨f', _ | ⟨f₂', fit'⟩⟩ <;>
      simp only [List.map_cons, List.map_nil, reduceCtorEq, List.cons.injEq, and_true, and_false]
        at hfit
    · simp [htext]
    · have hmethod : f.method.bare = f'.method.bare := congrArg Offer.method hfit
      simp only [h.mayCall hn hmethod, htext]
      split
      · exact congrArg Except.ok hfit
      · rfl
    · simp [htext]

theorem candidates_cases {ctx ctx' : Context} (h : ctx.Like ctx') (qualifier : List Name)
    (last : Name) (position position' : Position) :
    (∃ d d', candidates ctx qualifier last position = .error d ∧
        candidates ctx' (qualifier.map Name.bare) last.bare position' = .error d' ∧
        d.problem = d'.problem) ∨
      ∃ bs bs', candidates ctx qualifier last position = .ok bs ∧
        candidates ctx' (qualifier.map Name.bare) last.bare position' = .ok bs' ∧
        bs.map Symbol.bare = bs'.map Symbol.bare := by
  unfold candidates
  rw [h.scope]
  rcases resolvePath_cases h.table ctx'.scope position position' qualifier with
    ⟨he, he'⟩ | ⟨d, d', he, he', hd⟩ | ⟨b, b', he, he', hb⟩
  · simp only [he, he']
    exact Or.inr ⟨_, _, rfl, rfl, h.table.visibleFrom ctx'.scope last.text⟩
  · simp only [he, he']
    exact Or.inl ⟨d, d', rfl, rfl, hd⟩
  · have hscope : b.memberScope? = b'.memberScope? := by
      simpa using congrArg Symbol.memberScope? hb
    have hname : b.name = b'.name := by simpa using congrArg Symbol.name hb
    simp only [he, he', hscope]
    cases b'.memberScope? with
    | none => exact Or.inl ⟨_, _, rfl, rfl, by simp [hname]⟩
    | some scope => exact Or.inr ⟨_, _, rfl, rfl, h.table.members scope last.text⟩

theorem offers_agrees {t u : Table} (ht : t.Like u) (ms : List Symbol) : ∀ {ms' : List Symbol}
    {s r : State}, ms.map Symbol.bare = ms'.map Symbol.bare → s.Like r →
      (offers t ms s).1.map Offer.bare = (offers u ms' r).1.map Offer.bare ∧
        (offers t ms s).2.Like (offers u ms' r).2 := by
  induction ms with
  | nil =>
    intro ms' s r hms h
    rw [List.map_nil, eq_comm, List.map_eq_nil_iff] at hms
    subst hms
    exact ⟨rfl, h⟩
  | cons m rest ih =>
    intro ms' s r hms h
    obtain ⟨m', rest', rfl, hm, hrest⟩ := List.map_eq_cons_iff.mp hms.symm
    obtain ⟨hparams, hreturns, h1⟩ := h.signature ht hm.symm
    obtain ⟨hoffers, h2⟩ := ih hrest.symm h1
    exact ⟨by simp [offers, Offer.bare, hm, hparams, hreturns, hoffers], h2⟩

theorem settle_agrees {build build' : Note → Expr} {note note' : Note} {j j' : Judgement}
    (hbuild : ∀ n n' : Note, n.bare = n'.bare → (build n).bare = (build' n').bare)
    (hj : j.bare = j'.bare) :
    Visit.Agrees State.Like Expr.bare Ty.bare (settle build note j) (settle build' note' j') := by
  intro s u h
  obtain ⟨htype, hproblem⟩ := Judgement.mk.inj hj
  refine ⟨hbuild _ _ (by simp [Note.bare, htype]), congrArg Except.ok htype, ?_⟩
  unfold settle
  rw [hproblem]
  cases j'.problem with
  | none => exact h
  | some problem => exact h.report _ _ _

theorem bindName_agrees {ctx ctx' : Context} (h : ctx.Like ctx') (n : DottedName) :
    Visit.Agrees State.Like DottedName.bare (Option.map Symbol.bare) (bindName ctx n)
      (bindName ctx' n.bare) := by
  intro s u hs
  have hsegments : n.bare.segments = n.segments.map Name.bare := rfl
  have hslot : n.bare.symbol = n.symbol.map Symbol.bare := rfl
  unfold bindName
  rw [h.scope, hsegments, hslot, DottedName.text_bare]
  rcases resolvePath_cases h.table ctx'.scope n.span.start n.bare.span.start n.segments with
    ⟨he, he'⟩ | ⟨d, d', he, he', hd⟩ | ⟨b, b', he, he', hb⟩
  · simp only [he, he']
    exact ⟨by simp, rfl, hs⟩
  · simp only [he, he']
    exact ⟨by simp, rfl, hs.push hd⟩
  · simp only [he, he']
    cases hsymbol : n.symbol with
    | none =>
      simp only [Option.map_none, fillSlot]
      exact ⟨by simp [DottedName.bare, hb], congrArg (fun x => Except.ok (some x)) hb, hs⟩
    | some found =>
      simp only [Option.map_some, fillSlot]
      exact ⟨by simp, rfl, hs⟩

theorem nameJudgement_agrees {ctx ctx' : Context} (h : ctx.Like ctx') {n n' : DottedName}
    (hn : n.bare = n'.bare) {b b' : Symbol} (hb : b.bare = b'.bare) {s u : State} (hs : s.Like u) :
    (nameJudgement ctx n b s).1.bare = (nameJudgement ctx' n' b' u).1.bare ∧
      (nameJudgement ctx n b s).2.Like (nameJudgement ctx' n' b' u).2 := by
  have hkind : b.kind = b'.kind := by simpa using congrArg Symbol.kind hb
  unfold nameJudgement
  rw [h.nameProblem? hn hb, hkind]
  cases nameProblem? ctx' n' b' with
  | some problem => exact ⟨rfl, hs⟩
  | none =>
    cases b'.kind with
    | cls => exact ⟨rfl, hs⟩
    | method => exact ⟨rfl, hs⟩
    | var =>
      obtain ⟨hT, h1⟩ := hs.varType h.table hb
      exact ⟨by simp [Judgement.bare, Judgement.found, hT], h1⟩

theorem annotateName_agrees {ctx ctx' : Context} (h : ctx.Like ctx') (n : DottedName)
    (note : Note) :
    Visit.Agrees State.Like Expr.bare Ty.bare (annotateName ctx n note)
      (annotateName ctx' n.bare note.bare) := by
  unfold annotateName
  refine (bindName_agrees h n).part (fun m m' hm => by simp [Expr.bare, hm]) ?_
  intro m m' found found' hm hfound s u hs
  have hbuild : ∀ k k' : Note, k.bare = k'.bare →
      (Expr.name m k).bare = (Expr.name m' k').bare := by
    intro k k' hk
    simp [Expr.bare, hm, hk]
  rcases found with _ | b <;> rcases found' with _ | b'
  · exact settle_agrees hbuild rfl s u hs
  · cases hfound
  · cases hfound
  · obtain ⟨hj, h1⟩ := nameJudgement_agrees h hm (Option.some.inj hfound) hs
    exact settle_agrees hbuild hj _ _ h1

theorem annotateCallee_agrees {ctx ctx' : Context} (h : ctx.Like ctx') (n : DottedName)
    {nameNote nameNote' : Note} (hname : nameNote.bare = nameNote'.bare) (note : Note)
    {args args' : List Expr} (hargs : args.map Expr.bare = args'.map Expr.bare)
    {types types' : List Ty} (htypes : types.map Ty.bare = types'.map Ty.bare) :
    Visit.Agrees State.Like Expr.bare Ty.bare (annotateCallee ctx n nameNote args types note)
      (annotateCallee ctx' n.bare nameNote' args' types' note.bare) := by
  intro s u hs
  have hbuild : ∀ m m' : DottedName, m.bare = m'.bare → ∀ k k' : Note, k.bare = k'.bare →
      (Expr.call (.name m nameNote) args k).bare =
        (Expr.call (.name m' nameNote') args' k').bare := by
    intro m m' hm k k' hk
    simp [Expr.bare, hm, hname, hargs, hk]
  have hsilent : Visit.Agrees State.Like Expr.bare Ty.bare
      (settle (.call (.name n nameNote) args) note .silent)
      (settle (.call (.name n.bare nameNote') args') note.bare .silent) :=
    settle_agrees (hbuild n n.bare (by simp)) rfl
  have herror : types.any Ty.isError = types'.any Ty.isError := by
    simpa [Function.comp_def] using congrArg (List.any · Ty.isError) htypes
  have hlast : n.bare.segments.getLast? = n.segments.getLast?.map Name.bare := by
    simp [DottedName.bare]
  have hqualifier : n.bare.segments.dropLast = n.segments.dropLast.map Name.bare := by
    simp [DottedName.bare]
  have hslot : n.bare.symbol = n.symbol.map Symbol.bare := rfl
  unfold annotateCallee
  dsimp only
  rw [herror, hlast, hqualifier, hslot, DottedName.text_bare]
  split
  · exact hsilent s u hs
  · cases n.segments.getLast? with
    | none => exact ⟨hbuild _ _ (by simp) _ _ (by simp), rfl, hs⟩
    | some last =>
      simp only [Option.map_some]
      rcases candidates_cases h n.segments.dropLast last note.span.start note.bare.span.start with
        ⟨d, d', he, he', hd⟩ | ⟨bs, bs', he, he', hbs⟩
      · simp only [he, he']
        exact hsilent _ _ (hs.push hd)
      · simp only [he, he']
        have hmethods : (bs.filter Symbol.isMethod).map Symbol.bare =
            (bs'.filter Symbol.isMethod).map Symbol.bare := by
          have hfilter : ∀ l : List Symbol, (l.filter Symbol.isMethod).map Symbol.bare =
              (l.map Symbol.bare).filter Symbol.isMethod := by
            intro l
            simp [List.filter_map, Function.comp_def]
          rw [hfilter, hfilter, hbs]
        obtain ⟨hoffers, h1⟩ := offers_agrees h.table _ hmethods hs
        have hchoice := chooseOffer_agrees h n.bare_bare.symm htypes hoffers
        generalize chooseOffer ctx n types _ = x at hchoice ⊢
        generalize chooseOffer ctx' n.bare types' _ = y at hchoice ⊢
        obtain problem | offer := x <;> obtain problem' | offer' := y
        · cases hchoice
          exact settle_agrees (hbuild n n.bare (by simp)) rfl _ _ h1
        · cases hchoice
        · cases hchoice
        · have hoffer := Except.ok.inj hchoice
          have hmethod : offer.method.bare = offer'.method.bare := congrArg Offer.method hoffer
          have hreturns : offer.returns.bare = offer'.returns.bare := congrArg Offer.returns hoffer
          cases hsymbol : n.symbol with
          | none =>
            simp only [Option.map_none, fillSlot]
            exact settle_agrees (hbuild _ _ (by simp [DottedName.bare, hmethod]))
              (by simp [Judgement.bare, Judgement.found, hreturns]) _ _ h1
          | some found =>
            simp only [Option.map_some, fillSlot]
            exact ⟨hbuild _ _ (by simp) _ _ (by simp), rfl, h1⟩

theorem isTarget_bare (e : Expr) : isTarget e.bare = isTarget e := by
  cases e <;> simp [Expr.bare, isTarget]

mutual

theorem annotateExpr_agrees {ctx ctx' : Context} (h : ctx.Like ctx') (e : Expr) :
    Visit.Agrees State.Like Expr.bare Ty.bare (annotateExpr ctx e) (annotateExpr ctx' e.bare) := by
  unfold annotateExpr
  rw [Expr.type_bare]
  cases htype : e.type with
  | some type => exact .done (by simp) (by simp)
  | none =>
    simp only [Option.map_none]
    cases e with
    | literal value note =>
      simp only [Expr.bare]
      exact settle_agrees (fun k k' hk => by simp [Expr.bare, hk]) rfl
    | this note =>
      simp only [Expr.bare, h.thisJudgement]
      exact settle_agrees (fun k k' hk => by simp [Expr.bare, hk]) rfl
    | name n note =>
      simp only [Expr.bare]
      exact annotateName_agrees h n note
    | unary op operand note =>
      simp only [Expr.bare]
      refine (annotateExpr_agrees h operand).part (fun x x' hx => by simp [Expr.bare, hx]) ?_
      intro x x' T T' hx hT
      refine settle_agrees (fun k k' hk => by simp [Expr.bare, hx, hk]) ?_
      rw [← unaryJudgement_bare, hT, unaryJudgement_bare]
    | binary op left right note =>
      simp only [Expr.bare]
      refine (annotateExpr_agrees h left).part (fun x x' hx => by simp [Expr.bare, hx]) ?_
      intro x x' L L' hx hL
      refine (annotateExpr_agrees h right).part (fun y y' hy => by simp [Expr.bare, hx, hy]) ?_
      intro y y' R R' hy hR
      refine settle_agrees (fun k k' hk => by simp [Expr.bare, hx, hy, hk]) ?_
      rw [← binaryJudgement_bare, hL, hR, binaryJudgement_bare]
    | assign target value note =>
      simp only [Expr.bare, isTarget_bare, Expr.shape_bare]
      split
      · refine (annotateExpr_agrees h target).part (fun x x' hx => by simp [Expr.bare, hx]) ?_
        intro x x' T T' hx hT
        refine (annotateExpr_agrees h value).part (fun y y' hy => by simp [Expr.bare, hx, hy]) ?_
        intro y y' V V' hy hV
        refine settle_agrees (fun k k' hk => by simp [Expr.bare, hx, hy, hk]) ?_
        rw [← assignJudgement_bare, hT, hV, assignJudgement_bare]
      · exact .fail (by simp [Expr.bare]) _
    | call callee args note =>
      have hcomputed : Visit.Agrees State.Like Expr.bare Ty.bare
          ((annotateExpr ctx callee).part (.call · args note) fun callee _ =>
            (annotateArgs ctx args).part (.call callee · note) fun args _ =>
              settle (.call callee args) note (.bad (.unsupported "calls on computed expressions")))
          ((annotateExpr ctx' callee.bare).part (.call · (Expr.bareAll args) note.bare)
            fun callee _ =>
              (annotateArgs ctx' (Expr.bareAll args)).part (.call callee · note.bare) fun args _ =>
                settle (.call callee args) note.bare
                  (.bad (.unsupported "calls on computed expressions"))) := by
        rw [Expr.bareAll_eq_map]
        refine (annotateExpr_agrees h callee).part (fun x x' hx => by simp [Expr.bare, hx]) ?_
        intro x x' _ _ hx _
        refine (annotateArgs_agrees h args).part (fun xs xs' hxs => by simp [Expr.bare, hx, hxs]) ?_
        intro xs xs' _ _ hxs _
        exact settle_agrees (fun k k' hk => by simp [Expr.bare, hx, hxs, hk]) rfl
      cases callee with
      | name n nameNote =>
        simp only [Expr.bare, Expr.bareAll_eq_map, Note.bare]
        cases hnote : nameNote.type with
        | some type => exact .fail (by simp [Expr.bare, Note.bare, hnote]) _
        | none =>
          simp only [Option.map_none]
          refine (annotateArgs_agrees h args).part
            (fun xs xs' hxs => by simp [Expr.bare, Note.bare, hxs]) ?_
          intro xs xs' Ts Ts' hxs hTs
          exact annotateCallee_agrees h n (by simp [Note.bare]) note hxs hTs
      | _ => exact hcomputed
    | create n args note =>
      simp only [Expr.bare, Expr.bareAll_eq_map]
      refine (annotateArgs_agrees h args).part (fun xs xs' hxs => by simp [Expr.bare, hxs]) ?_
      intro xs xs' Ts Ts' hxs hTs
      refine (bindName_agrees h n).part (fun m m' hm => by simp [Expr.bare, hxs, hm]) ?_
      intro m m' found found' hm hfound
      refine settle_agrees (fun k k' hk => by simp [Expr.bare, hxs, hm, hk]) ?_
      rcases found with _ | b <;> rcases found' with _ | b'
      · rfl
      · cases hfound
      · cases hfound
      · exact createJudgement_bare hm hxs (Option.some.inj hfound)
    | field target wanted note =>
      simp only [Expr.bare]
      refine (annotateExpr_agrees h target).part (fun x x' hx => by simp [Expr.bare, hx]) ?_
      intro x x' T T' hx hT
      exact settle_agrees (fun k k' hk => by simp [Expr.bare, hx, hk]) rfl
    | index target place note =>
      simp only [Expr.bare]
      refine (annotateExpr_agrees h target).part (fun x x' hx => by simp [Expr.bare, hx]) ?_
      intro x x' T T' hx hT
      refine (annotateExpr_agrees h place).part (fun y y' hy => by simp [Expr.bare, hx, hy]) ?_
      intro y y' P P' hy hP
      exact settle_agrees (fun k k' hk => by simp [Expr.bare, hx, hy, hk]) rfl

theorem annotateArgs_agrees {ctx ctx' : Context} (h : ctx.Like ctx') (es : List Expr) :
    Visit.Agrees State.Like (List.map Expr.bare) (List.map Ty.bare) (annotateArgs ctx es)
      (annotateArgs ctx' (es.map Expr.bare)) := by
  cases es with
  | nil =>
    unfold annotateArgs
    exact .done rfl rfl
  | cons e rest =>
    rw [List.map_cons]
    unfold annotateArgs
    refine (annotateExpr_agrees h e).part (fun x x' hx => by simp [hx]) ?_
    intro x x' T T' hx hT
    refine (annotateArgs_agrees h rest).part (fun xs xs' hxs => by simp [hx, hxs]) ?_
    intro xs xs' Ts Ts' hxs hTs
    exact .done (by simp [hx, hxs]) (by simp [hT, hTs])

end

theorem State.Like.expect {s u : State} (h : s.Like u) {E E' R R' : Ty} (hE : E.bare = E'.bare)
    (hR : R.bare = R'.bare) (position position' : Position) :
    (s.expect E R position).Like (u.expect E' R' position') := by
  have hbare : ∀ (v : State) (A B : Ty) (at_ : Position),
      v.expect A.bare B.bare at_ = v.expect A B at_ := by
    intro v A B at_
    simp [State.expect]
  rw [← hbare s, ← hbare u, hE, hR]
  unfold State.expect
  split
  · exact h
  · exact h.report _ _ _

theorem declaredType_agrees {ctx ctx' : Context} (h : ctx.Like ctx') (type : TypeExpr)
    (v : Declarator) {s u : State} (hs : s.Like u) :
    (declaredType ctx type v s).1.bare = (declaredType ctx' type.bare v.bare u).1.bare ∧
      (declaredType ctx type v s).2.Like (declaredType ctx' type.bare v.bare u).2 := by
  have hslot : v.bare.symbol = v.symbol.map Symbol.bare := rfl
  unfold declaredType
  rw [hslot, h.scope]
  cases v.symbol with
  | none => exact hs.resolve h.table ctx'.scope (by simp)
  | some b => exact hs.varType h.table (by simp)

theorem annotateLocal_agrees {ctx ctx' : Context} (h : ctx.Like ctx') (type : TypeExpr)
    (v : Declarator) :
    Visit.Agrees State.Like Declarator.bare id (annotateLocal ctx type v)
      (annotateLocal ctx' type.bare v.bare) := by
  intro s u hs
  obtain ⟨hD, h1⟩ := declaredType_agrees h type v hs
  have hinit : v.bare.init = v.init.map Expr.bare := rfl
  unfold annotateLocal
  dsimp only
  rw [hinit]
  cases hi : v.init with
  | none => exact ⟨by simp, rfl, h1⟩
  | some init =>
    simp only [Option.map_some]
    have hput : ∀ e e' : Expr, e.bare = e'.bare → ({ v with init := some e } : Declarator).bare =
        ({ v.bare with init := some e' } : Declarator).bare := by
      intro e e' he
      simp [Declarator.bare, he]
    exact (annotateExpr_agrees h init).close hput
      (fun _ _ _ _ _ _ _ hR hs => hs.expect hD hR _ _) _ _ h1

theorem annotateCondition_agrees {ctx ctx' : Context} (h : ctx.Like ctx') (cond : Expr) :
    Visit.Agrees State.Like Expr.bare id (annotateCondition ctx cond)
      (annotateCondition ctx' cond.bare) := by
  refine (annotateExpr_agrees h cond).close (fun _ _ he => he) ?_
  intro e e' T T' s u he hT hs
  have herror : T.isError = T'.isError := by simpa using congrArg Ty.isError hT
  have hsame : T.same .boolean = T'.same .boolean := by
    rw [← Ty.same_bare_left, hT, Ty.same_bare_left]
  have htext : T.text = T'.text := by simpa using congrArg Ty.text hT
  rw [herror, hsame, htext]
  split
  · exact hs
  · exact hs.report _ _ _

theorem annotateReturn_agrees {ctx ctx' : Context} (h : ctx.Like ctx') (value : Option Expr)
    (span : Span) :
    Visit.Agrees State.Like Stmt.bare id (annotateReturn ctx value span)
      (annotateReturn ctx' (value.map Expr.bare) .null) := by
  intro s u hs
  have hput : ∀ e e' : Option Expr, e.map Expr.bare = e'.map Expr.bare →
      (Stmt.ret e span).bare = (Stmt.ret e' .null).bare := by
    intro e e' he
    simp [Stmt.bare, he]
  have hm := h.method
  unfold annotateReturn
  generalize ctx.method = x at hm ⊢
  generalize ctx'.method = y at hm ⊢
  obtain _ | m := x <;> obtain _ | m' := y
  · exact ⟨hput _ _ (by simp), rfl, hs⟩
  · cases hm
  · cases hm
  · obtain ⟨-, hE, h1⟩ := hs.signature h.table (Option.some.inj hm)
    refine (Visit.Agrees.optional (annotateExpr_agrees h) value).close hput ?_ _ _ h1
    intro e e' R R' s u _ hR hs
    refine hs.expect hE ?_ _ _
    rw [← Option.getD_map Ty.bare, hR, Option.getD_map]

mutual

theorem annotateStmt_agrees {ctx ctx' : Context} (h : ctx.Like ctx') : ∀ stmt : Stmt,
    Visit.Agrees State.Like Stmt.bare id (annotateStmt ctx stmt) (annotateStmt ctx' stmt.bare)
  | .block body span => by
    rw [Stmt.bare, Stmt.bareAll_eq_map, annotateStmt, annotateStmt]
    exact (annotateStmts_agrees h body).within fun n m hn => by simp [Stmt.bare, hn]
  | .expr value span type => by
    rw [Stmt.bare, annotateStmt, annotateStmt]
    refine (annotateExpr_agrees h value).part (fun n m hn => by simp [Stmt.bare, hn]) ?_
    intro n m T T' hn hT
    refine .done ?_ rfl
    cases type <;> simp [Stmt.bare, hn, hT]
  | .locals d => by
    rw [Stmt.bare, annotateStmt, annotateStmt]
    refine (Visit.Agrees.each Declarator.bare_bare (annotateLocal_agrees h d.type) d.vars).within ?_
    intro n m hn
    simp [Stmt.bare, VarDecl.bare, hn]
  | .ifThen cond thenBody span => by
    rw [Stmt.bare, annotateStmt, annotateStmt]
    refine (annotateCondition_agrees h cond).part (fun n m hn => by simp [Stmt.bare, hn]) ?_
    intro c c' _ _ hc _
    exact (annotateStmt_agrees h thenBody).within fun n m hn => by simp [Stmt.bare, hc, hn]
  | .ifElse cond thenBody elseBody span => by
    rw [Stmt.bare, annotateStmt, annotateStmt]
    refine (annotateCondition_agrees h cond).part (fun n m hn => by simp [Stmt.bare, hn]) ?_
    intro c c' _ _ hc _
    refine (annotateStmt_agrees h thenBody).part (fun n m hn => by simp [Stmt.bare, hc, hn]) ?_
    intro t t' _ _ ht _
    exact (annotateStmt_agrees h elseBody).within fun n m hn => by simp [Stmt.bare, hc, ht, hn]
  | .loop cond body span => by
    rw [Stmt.bare, annotateStmt, annotateStmt]
    refine (annotateCondition_agrees h cond).part (fun n m hn => by simp [Stmt.bare, hn]) ?_
    intro c c' _ _ hc _
    exact (annotateStmt_agrees h body).within fun n m hn => by simp [Stmt.bare, hc, hn]
  | .ret value span => by
    rw [Stmt.bare, annotateStmt, annotateStmt]
    exact annotateReturn_agrees h value span
  | .empty span => by
    rw [Stmt.bare, annotateStmt, annotateStmt]
    exact .done (by simp [Stmt.bare]) rfl

theorem annotateStmts_agrees {ctx ctx' : Context} (h : ctx.Like ctx') : ∀ body : List Stmt,
    Visit.Agrees State.Like (List.map Stmt.bare) id (annotateStmts ctx body)
      (annotateStmts ctx' (body.map Stmt.bare))
  | [] => by
    rw [List.map_nil, annotateStmts, annotateStmts]
    exact .done rfl rfl
  | stmt :: rest => by
    rw [List.map_cons, annotateStmts, annotateStmts]
    refine (annotateStmt_agrees h stmt).part (fun n m hn => by simp [hn]) ?_
    intro n m _ _ hn _
    exact (annotateStmts_agrees h rest).within fun ns ms hns => by simp [hn, hns]

end

theorem typeParams_agrees (params : List Param) : ∀ {types types' : List Ty} {s u : State},
    types.map Ty.bare = types'.map Ty.bare → s.Like u →
      (typeParams params types s).Like (typeParams (params.map Param.bare) types' u) := by
  induction params with
  | nil =>
    intro types types' s u _ hs
    simpa [typeParams] using hs
  | cons p rest ih =>
    intro types types' s u htypes hs
    rcases types with _ | ⟨T, types⟩ <;> rcases types' with _ | ⟨T', types'⟩
    · simpa [typeParams] using hs
    · cases htypes
    · cases htypes
    · obtain ⟨hT, hrest⟩ := List.cons.inj htypes
      have hslot : p.bare.symbol = p.symbol.map Symbol.bare := rfl
      simp only [List.map_cons, typeParams, hslot]
      refine ih hrest ?_
      cases p.symbol with
      | none => exact hs
      | some b => exact hs.setType (by simp) hT

theorem annotateMethod_agrees {ctx ctx' : Context} (h : ctx.Like ctx') (m : Method) :
    Visit.Agrees State.Like Method.bare id (annotateMethod ctx m) (annotateMethod ctx' m.bare) := by
  intro s u hs
  have hslot : m.bare.symbol = m.symbol.map Symbol.bare := rfl
  have hparams : m.bare.params = m.params.map Param.bare := rfl
  have hbody : m.bare.body = m.body.map (List.map Stmt.bare) := rfl
  unfold annotateMethod
  rw [hslot, hparams, hbody]
  cases m.symbol with
  | none => exact ⟨by simp, rfl, hs⟩
  | some b =>
    simp only [Option.map_some, Symbol.scope_bare, Symbol.name_bare]
    cases b.scope with
    | none => exact ⟨by simp, rfl, hs⟩
    | some scope =>
      obtain ⟨hTs, -, h1⟩ := hs.signature h.table b.bare_bare.symm
      have h2 := typeParams_agrees m.params hTs h1
      dsimp only
      cases m.body with
      | none => exact ⟨by simp, rfl, h2⟩
      | some body =>
        have hctx : Context.Like { ctx with scope, method := some b }
            { ctx' with scope, method := some b.bare } :=
          ⟨h.table, rfl, by simp, h.entry⟩
        refine (annotateStmts_agrees hctx body).within ?_ _ _ h2
        intro n n' hn
        simp [Method.bare, hn]

theorem annotateFieldVar_agrees {ctx ctx' : Context} (h : ctx.Like ctx') (type : TypeExpr)
    (v : Declarator) :
    Visit.Agrees State.Like Declarator.bare id (annotateFieldVar ctx type v)
      (annotateFieldVar ctx' type.bare v.bare) := by
  intro s u hs
  obtain ⟨-, h1⟩ := declaredType_agrees h type v hs
  have hinit : v.bare.init = v.init.map Expr.bare := rfl
  unfold annotateFieldVar
  dsimp only
  rw [hinit]
  cases hi : v.init with
  | none => exact ⟨by simp, rfl, h1⟩
  | some init =>
    simp only [Option.map_some]
    have hput : ∀ e e' : Expr, e.bare = e'.bare → ({ v with init := some e } : Declarator).bare =
        ({ v.bare with init := some e' } : Declarator).bare := by
      intro e e' he
      simp [Declarator.bare, he]
    exact (annotateExpr_agrees h init).part hput
      (fun e e' _ _ he _ => .done (hput e e' he) rfl) _ _ (h1.report _ _ _)

theorem annotateField_agrees {ctx ctx' : Context} (h : ctx.Like ctx') (d : VarDecl) :
    Visit.Agrees State.Like VarDecl.bare id (annotateField ctx d) (annotateField ctx' d.bare) :=
  (Visit.Agrees.each Declarator.bare_bare (annotateFieldVar_agrees h d.type) d.vars).within
    fun _ _ hn => by simp [VarDecl.bare, hn]

theorem annotateClassWith_agrees {ctx ctx' : Context} (h : ctx.Like ctx') (head : ClassHead)
    (members : List Member) {body body' : Context → Visit State (List Member) Unit}
    (hbody : ∀ c c' : Context, c.Like c' →
      Visit.Agrees State.Like (List.map Member.bare) id (body c) (body' c')) :
    Visit.Agrees State.Like ClassDecl.bare id (annotateClassWith ctx head members body)
      (annotateClassWith ctx' head.bare (members.map Member.bare) body') := by
  have hslot : head.bare.symbol = head.symbol.map Symbol.bare := rfl
  unfold annotateClassWith
  rw [hslot]
  cases head.symbol with
  | none => exact .done (by simp [ClassDecl.bare]) rfl
  | some b =>
    simp only [Option.map_some, Symbol.scope_bare, Symbol.name_bare]
    cases b.scope with
    | none => exact .fail (by simp [ClassDecl.bare]) _
    | some scope =>
      refine (hbody { ctx with scope, method := none } { ctx' with scope, method := none }
        ⟨h.table, rfl, rfl, h.entry⟩).within ?_
      intro ms ms' hms
      simp [ClassDecl.bare, hms]

mutual

theorem annotateMember_agrees {ctx ctx' : Context} (h : ctx.Like ctx') : ∀ m : Member,
    Visit.Agrees State.Like Member.bare id (annotateMember ctx m) (annotateMember ctx' m.bare)
  | .method m => by
    rw [Member.bare, annotateMember, annotateMember]
    exact (annotateMethod_agrees h m).within fun n n' hn => by simp [Member.bare, hn]
  | .field d => by
    rw [Member.bare, annotateMember, annotateMember]
    exact (annotateField_agrees h d).within fun n n' hn => by simp [Member.bare, hn]
  | .nested head members => by
    rw [Member.bare, Member.bareAll_eq_map, annotateMember, annotateMember]
    refine (annotateClassWith_agrees h head members fun c c' hc =>
      annotateMembers_agrees hc members).within fun c c' hc => ?_
    obtain ⟨hhead, hmembers⟩ := ClassDecl.mk.inj hc
    simp [Member.bare, hhead, hmembers]

theorem annotateMembers_agrees {ctx ctx' : Context} (h : ctx.Like ctx') : ∀ ms : List Member,
    Visit.Agrees State.Like (List.map Member.bare) id (annotateMembers ctx ms)
      (annotateMembers ctx' (ms.map Member.bare))
  | [] => by
    rw [List.map_nil, annotateMembers, annotateMembers]
    exact .done rfl rfl
  | m :: rest => by
    rw [List.map_cons, annotateMembers, annotateMembers]
    refine (annotateMember_agrees h m).part (fun n n' hn => by simp [hn]) ?_
    intro n n' _ _ hn _
    exact (annotateMembers_agrees h rest).within fun ns ns' hns => by simp [hn, hns]

end

end Typing

theorem EntryChoice.resolve_bare (choice : EntryChoice) (c : ClassDecl) :
    choice.resolve c.bare = choice.resolve c := by
  have hfirst : ∀ ms : List Member,
      choice.first? (ms.map Member.bare) = (choice.first? ms).map Method.bare := by
    intro ms
    induction ms with
    | nil => rfl
    | cons m rest ih =>
      cases m with
      | method m =>
        have haccepts : choice.accepts m.bare = choice.accepts m := by cases choice <;> rfl
        simp only [List.map_cons, Member.bare, EntryChoice.first?, haccepts, ih]
        split <;> rfl
      | field d => simpa [Member.bare, EntryChoice.first?] using ih
      | nested head members => simpa [Member.bare, EntryChoice.first?] using ih
  unfold EntryChoice.resolve ClassDecl.bare
  rw [hfirst]
  cases choice.first? c.members with
  | none => rfl
  | some m => simp [Method.bare, Function.comp_def]

theorem Typing.annotateUnit_agrees (u : CompilationUnit) {t t' : Table} (h : t.Like t')
    (choice : EntryChoice) :
    Visit.Agrees State.Like CompilationUnit.bare id (annotateUnit u t choice)
      (annotateUnit u.bare t' choice) := by
  unfold annotateUnit
  cases htop : u.top with
  | none =>
    have hnone : u.bare.top = none := by simp [CompilationUnit.bare, htop]
    simp only [hnone]
    exact .fail (by simp) _
  | some top =>
    have hsome : u.bare.top = some top.bare := by simp [CompilationUnit.bare, htop]
    simp only [hsome, EntryChoice.resolve_bare]
    have hctx : Context.Like ⟨t, Table.root, none, choice.resolve top⟩
        ⟨t', Table.root, none, choice.resolve top⟩ := ⟨h, rfl, rfl, rfl⟩
    refine (annotateClassWith_agrees hctx top.head top.members fun c c' hc =>
      annotateMembers_agrees hc top.members).within ?_
    intro c c' hc
    simp [CompilationUnit.bare, hc]

end ClassLang
