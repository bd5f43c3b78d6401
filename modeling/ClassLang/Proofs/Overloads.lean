import ClassLang.Proofs.Accounted
import ClassLang.Proofs.Produced

/-! Which method a call by name means. The name stands for the symbols of the nearest scope that
binds it, or for the members of the class before its last segment. Of the methods among them, those
count whose parameter types are the types of the arguments. If there is exactly one, and it may be
called here, the call is bound to it and has its result type. Otherwise the call stays unbound, has
type `error` and gives one report. -/
namespace ClassLang

namespace Typing

def known (t : Table) (r : Resolutions) (m : Symbol) : Offer :=
  ⟨m, (r.params? m).getD (offered t m).params, (r.type? m).getD (offered t m).returns⟩

/-- The types of methods were looked up. What is wrong with a written type is reported where it is
needed for the first time. -/
structure LooksUp (t : Table) (ms : List Symbol) (s s' : State) : Prop where
  reports : s'.diagnostics = s.diagnostics ++ ms.flatMap (pending t s.resolutions)
  params : ∀ m ∈ ms, s'.resolutions.params? m = some (known t s.resolutions m).params
  returns : ∀ m ∈ ms, s'.resolutions.type? m = some (known t s.resolutions m).returns
  others : ∀ x : Symbol, (∀ m ∈ ms, x.id ≠ m.id) →
    s'.resolutions.params? x = s.resolutions.params? x ∧
      s'.resolutions.type? x = s.resolutions.type? x

theorem paramTypes_known {t : Table} {m : Symbol} {params : List TypeExpr} {returns : TypeExpr}
    {ms : List Modifier} {owner : List String} {ro : Option Routine}
    (hd : m.details = .method params returns ms owner ro) (s : State) :
    ∃ s', s.paramTypes t m params = ((known t s.resolutions m).params, s') ∧
      s'.diagnostics = s.diagnostics ++
        (if (s.resolutions.params? m).isSome then [] else paramFailures t m) ∧
      s'.resolutions.params? m = some (known t s.resolutions m).params ∧
      (∀ x : Symbol, x.id ≠ m.id → s'.resolutions.params? x = s.resolutions.params? x) ∧
      ∀ x : Symbol, s'.resolutions.type? x = s.resolutions.type? x := by
  cases hp : s.resolutions.params? m with
  | some Ts =>
    refine ⟨s, ?_, by simp, ?_, fun _ _ => rfl, fun _ => rfl⟩
    · simp [State.paramTypes, hp, known]
    · simp [hp, known]
  | none =>
    have hknown : (known t s.resolutions m).params = params.map (meaning t m.declaredIn) := by
      simp [known, hp, offered, hd]
    have hfail : params.flatMap (failures t m.declaredIn) = paramFailures t m := by
      simp [paramFailures, hd]
    refine ⟨(s.also (paramFailures t m)).setParams m (params.map (meaning t m.declaredIn)), ?_, rfl,
      ?_, fun x hx => ?_, fun x => type?_setParams _ _ _ _⟩
    · simp [State.paramTypes, hp, resolveAll_eq, hfail, hknown]
    · have hself := s.resolutions.params?_setParams_self m (params.map (meaning t m.declaredIn))
      rw [hp, Option.getD_none] at hself
      rw [hknown]
      exact hself
    · exact s.resolutions.params?_setParams_of_ne _ hx

theorem resultType_known {t : Table} {m : Symbol} {params : List TypeExpr} {returns : TypeExpr}
    {ms : List Modifier} {owner : List String} {ro : Option Routine}
    (hd : m.details = .method params returns ms owner ro) (s : State) :
    ∃ s', s.resultType t m returns = ((known t s.resolutions m).returns, s') ∧
      s'.diagnostics = s.diagnostics ++
        (if (s.resolutions.type? m).isSome then [] else typeFailures t m) ∧
      s'.resolutions.type? m = some (known t s.resolutions m).returns ∧
      (∀ x : Symbol, x.id ≠ m.id → s'.resolutions.type? x = s.resolutions.type? x) ∧
      ∀ x : Symbol, s'.resolutions.params? x = s.resolutions.params? x := by
  cases hr : s.resolutions.type? m with
  | some T =>
    refine ⟨s, ?_, by simp, ?_, fun _ _ => rfl, fun _ => rfl⟩
    · simp [State.resultType, hr, known]
    · simp [hr, known]
  | none =>
    have hknown : (known t s.resolutions m).returns = meaning t m.declaredIn returns := by
      simp [known, hr, offered, hd]
    have hfail : failures t m.declaredIn returns = typeFailures t m := by simp [typeFailures, hd]
    refine ⟨(s.also (typeFailures t m)).setType m (meaning t m.declaredIn returns), ?_, rfl, ?_,
      fun x hx => ?_, fun x => params?_setType _ _ _ _⟩
    · simp [State.resultType, hr, resolve_eq, hfail, hknown]
    · rw [hknown]
      exact type?_setType_of_none (s := s.also (typeFailures t m)) hr _
    · exact s.resolutions.type?_setType_of_ne _ hx

theorem signature_known {t : Table} {m : Symbol} (hm : m.isMethod = true) (s : State) :
    ∃ s', s.signature t m =
        ((known t s.resolutions m).params, (known t s.resolutions m).returns, s') ∧
      LooksUp t [m] s s' := by
  cases hd : m.details with
  | cls | var => simp [Symbol.isMethod, Symbol.kind, hd] at hm
  | method params returns ms owner ro =>
    obtain ⟨s₁, h₁, hreports₁, hparams, hothers₁, hsame₁⟩ := paramTypes_known (t := t) hd s
    obtain ⟨s₂, h₂, hreports₂, htype, hothers₂, hsame₂⟩ := resultType_known (t := t) hd s₁
    have hreturns : (known t s₁.resolutions m).returns = (known t s.resolutions m).returns := by
      simp [known, hsame₁]
    rw [hreturns] at h₂ htype
    refine ⟨s₂, by simp [State.signature, hd, h₁, h₂], ?_, ?_, ?_, ?_⟩
    · rw [hreports₂, hreports₁, hsame₁, List.append_assoc]
      simp [pending]
    · simp [hsame₂, hparams]
    · simp [htype]
    · intro x hx
      have hne := hx m List.mem_cons_self
      exact ⟨(hsame₂ x).trans (hothers₁ x hne), (hothers₂ x hne).trans (hsame₁ x)⟩

/-- Records about other symbols do not matter. -/
theorem known_of_others {t : Table} {r r' : Resolutions} {m : Symbol}
    (hp : r'.params? m = r.params? m) (ht : r'.type? m = r.type? m) :
    known t r' m = known t r m ∧ pending t r' m = pending t r m := by
  simp [known, pending, hp, ht]

/-- Methods with numbers of their own are looked up one by one. -/
theorem offers_known {t : Table} {ms : List Symbol} : (∀ m ∈ ms, m.isMethod = true) →
    ms.Pairwise (fun a b => a.id ≠ b.id) → ∀ s : State,
      ∃ s', offers t ms s = (ms.map (known t s.resolutions), s') ∧ LooksUp t ms s s' := by
  induction ms with
  | nil => exact fun _ _ s => ⟨s, rfl, by simp, by simp, by simp, by simp⟩
  | cons m ms ih =>
    intro hm hd s
    obtain ⟨hm, hms⟩ := List.forall_mem_cons.mp hm
    obtain ⟨hne, hd⟩ := List.pairwise_cons.mp hd
    obtain ⟨s₁, h₁, hfirst⟩ := signature_known (t := t) hm s
    obtain ⟨s₂, h₂, hrest⟩ := ih hms hd s₁
    -- The first method is looked up no more, and changes nothing for the others.
    have hothers : ∀ x ∈ ms, known t s₁.resolutions x = known t s.resolutions x ∧
        pending t s₁.resolutions x = pending t s.resolutions x := by
      intro x hx
      obtain ⟨hp, ht⟩ := hfirst.others x fun y hy => List.mem_singleton.mp hy ▸ (hne x hx).symm
      exact known_of_others hp ht
    have hself := hrest.others m hne
    refine ⟨s₂, ?_, ?_, ?_, ?_, ?_⟩
    · simp only [offers, h₁, h₂, List.map_cons]
      rw [List.map_congr_left fun x hx => (hothers x hx).1]
      rfl
    · rw [hrest.reports, hfirst.reports, List.append_assoc, List.flatMap_cons,
        List.flatMap_congr fun x hx => (hothers x hx).2]
      simp
    · rw [List.forall_mem_cons]
      refine ⟨by rw [hself.1, hfirst.params m List.mem_cons_self], fun x hx => ?_⟩
      rw [hrest.params x hx, (hothers x hx).1]
    · rw [List.forall_mem_cons]
      refine ⟨by rw [hself.2, hfirst.returns m List.mem_cons_self], fun x hx => ?_⟩
      rw [hrest.returns x hx, (hothers x hx).1]
    · intro x hx
      obtain ⟨hxm, hxms⟩ := List.forall_mem_cons.mp hx
      obtain ⟨hp, ht⟩ := hrest.others x hxms
      obtain ⟨hp', ht'⟩ := hfirst.others x fun y hy => List.mem_singleton.mp hy ▸ hxm
      exact ⟨hp.trans hp', ht.trans ht'⟩

/-- What the name of a call at `position` stands for, or why it stands for nothing. -/
inductive Stands (ctx : Context) (n : DottedName) (position : Position) :
    Except Diagnostic (List Symbol) → Prop
  | bare {x : Name} {found : List Symbol} (hs : n.segments = [x])
    (hf : ctx.table.Nearest x.text ctx.scope found) : Stands ctx n position (.ok found)
  | member {q : List Name} {x : Name} {c : Symbol} {k : ScopeId} (hs : n.segments = q ++ [x])
    (hq : q ≠ []) (hc : resolvePath ctx.table ctx.scope position q = some (.ok c))
    (hk : c.kind = .cls) (hm : c.scope = some k) :
    Stands ctx n position (.ok (ctx.table.members k x.text))
  | notAClass {q : List Name} {x : Name} {b : Symbol} (hs : n.segments = q ++ [x]) (hq : q ≠ [])
    (hb : resolvePath ctx.table ctx.scope position q = some (.ok b)) (hk : b.kind ≠ .cls) :
    Stands ctx n position (.error ⟨.unsupported s!"method calls on `{b.name}`", position⟩)
  | unresolved {q : List Name} {x : Name} {d : Diagnostic} (hs : n.segments = q ++ [x])
    (hq : q ≠ []) (hd : resolvePath ctx.table ctx.scope position q = some (.error d)) :
    Stands ctx n position (.error d)

theorem resolvePath_ne_none {t : Table} {scope : ScopeId} {fallback : Position} {q : List Name}
    (hq : q ≠ []) : resolvePath t scope fallback q ≠ none := by
  cases q with
  | nil => exact absurd rfl hq
  | cons segment rest =>
    unfold resolvePath
    dsimp only
    split <;> simp

theorem candidates_stands {ctx : Context} (ht : ctx.table.InOrder) {n : DottedName} {q : List Name}
    {x : Name} (hs : n.segments = q ++ [x]) (position : Position) :
    Stands ctx n position (candidates ctx q x position) := by
  unfold candidates
  split
  · next hnone =>
    obtain rfl : q = [] := Classical.byContradiction fun hq => resolvePath_ne_none hq hnone
    exact .bare hs (ht.nearest _ _)
  · next d hd =>
    refine .unresolved hs ?_ hd
    rintro rfl
    cases hd
  · next owner ho =>
    have hq : q ≠ [] := by
      rintro rfl
      cases ho
    split
    · next k hk =>
      unfold Symbol.memberScope? at hk
      split at hk
      · next hcls => exact .member hs hq ho hcls hk
      · cases hk
    · next hk =>
      refine .notAClass hs hq ho fun hcls => ?_
      obtain ⟨j, y, hmem⟩ := lists_of_resolvePath ho
      have hscope := ht.opened j y owner hmem hcls
      rw [Symbol.memberScope?, hcls] at hk
      rw [show owner.scope = none from hk] at hscope
      cases hscope

/-- What a name stands for are symbols with numbers of their own. -/
theorem candidates_distinct {ctx : Context} (ht : ctx.table.InOrder) {q : List Name} {x : Name}
    {position : Position} {found : List Symbol} (h : candidates ctx q x position = .ok found) :
    found.Pairwise fun a b => a.id ≠ b.id := by
  have hmembers : ∀ k, (ctx.table.members k x.text).Pairwise fun a b => a.id ≠ b.id := fun k =>
    (ht.order k x.text).imp fun hlt heq => Nat.ne_of_lt hlt (congrArg SymbolId.number heq)
  unfold candidates at h
  split at h
  · cases h
    rcases ctx.table.visibleFrom_cases ctx.scope x.text with he | ⟨j, -, he⟩
    · rw [he]
      exact List.Pairwise.nil
    · rw [he]
      exact hmembers j
  · cases h
  · split at h
    · cases h
      exact hmembers _
    · cases h

/-- A method that runs without `this` may be called from anywhere. Any other is called by its bare
name, from a method of its class that has `this`. -/
def Callable (ctx : Context) (n : DottedName) (f : Symbol) : Prop :=
  f.isStatic = true ∨ ctx.entry = some f.id.number ∨
    n.segments.length = 1 ∧ ∃ m, ctx.method = some m ∧ m.methodOwner? = f.methodOwner? ∧
      m.isStatic = false ∧ ctx.entry ≠ some m.id.number

theorem mayCall_iff {ctx : Context} {n : DottedName} {f : Symbol} (hf : f.isMethod = true) :
    mayCall ctx n f = true ↔ Callable ctx n f := by
  have howner : f.methodOwner?.isSome = true := by
    unfold Symbol.isMethod Symbol.kind at hf
    unfold Symbol.methodOwner?
    split at hf <;> simp_all
  have hinside : (!ctx.isStatic && ctx.owner?.isSome && ctx.owner? == f.methodOwner?) = true ↔
      ∃ m, ctx.method = some m ∧ m.methodOwner? = f.methodOwner? ∧ m.isStatic = false ∧
        ctx.entry ≠ some m.id.number := by
    cases hm : ctx.method with
    | none => simp [Context.isStatic, hm]
    | some m =>
      simp only [Context.isStatic, Context.owner?, hm, runsStatic, Option.bind_some,
        Bool.and_eq_true, Bool.not_eq_true', Bool.or_eq_false_iff, beq_eq_false_iff_ne, beq_iff_eq,
        Option.some.injEq, exists_eq_left']
      constructor
      · rintro ⟨⟨⟨he, hs⟩, -⟩, ho⟩
        exact ⟨ho, hs, he⟩
      · rintro ⟨ho, hs, he⟩
        exact ⟨⟨⟨he, hs⟩, ho ▸ howner⟩, ho⟩
  unfold mayCall Callable
  rw [Bool.or_eq_true, runsStatic, Bool.or_eq_true, beq_iff_eq, ← hinside, Bool.and_assoc,
    Bool.and_assoc, Bool.and_eq_true, beq_iff_eq, Bool.and_assoc]
  tauto

def overloads (t : Table) (r : Resolutions) (types : List Ty) (found : List Symbol) : List Symbol :=
  (found.filter Symbol.isMethod).filter fun f => Ty.sameList (known t r f).params types

def refusal (n : DottedName) (methods matching : List Symbol) : Problem :=
  if methods.isEmpty then .undeclared n.text
  else if matching.isEmpty then .badCall n.text "no applicable overload"
  else if matching.length = 1 then
    .badModifiers n.text "instance method called from a static context"
  else .badCall n.text "ambiguous call"

theorem chooseOffer_known (ctx : Context) (n : DottedName) {t : Table} {r : Resolutions}
    {types : List Ty} {ms matching : List Symbol} (hm : ∀ m ∈ ms, m.isMethod = true)
    (hf : ms.filter (fun f => Ty.sameList (known t r f).params types) = matching) :
    (∀ f, matching = [f] → Callable ctx n f →
        chooseOffer ctx n types (ms.map (known t r)) = .ok (known t r f)) ∧
      ((¬ ∃ f, matching = [f] ∧ Callable ctx n f) →
        chooseOffer ctx n types (ms.map (known t r)) = .error (refusal n ms matching)) := by
  have hfilter : (ms.map (known t r)).filter (fun o => Ty.sameList o.params types) =
      matching.map (known t r) := by
    rw [List.filter_map, ← hf]
    rfl
  have hcall : ∀ f ∈ matching, (mayCall ctx n (known t r f).method = true ↔ Callable ctx n f) := by
    intro f hmem
    rw [← hf] at hmem
    exact mayCall_iff (hm f (List.mem_filter.mp hmem).1)
  unfold chooseOffer
  rw [hfilter]
  cases ms with
  | nil =>
    obtain rfl : matching = [] := hf.symm
    exact ⟨fun f h => by simp at h, fun _ => rfl⟩
  | cons m ms =>
    rw [List.map_cons]
    rcases matching with _ | ⟨f, _ | ⟨g, rest⟩⟩
    · exact ⟨fun f h => by simp at h, fun _ => rfl⟩
    · have hmay := hcall f List.mem_cons_self
      constructor
      · rintro _ ⟨⟩ hc
        exact if_pos (hmay.mpr hc)
      · intro hno
        exact if_neg fun hc => hno ⟨f, rfl, hmay.mp hc⟩
    · exact ⟨fun f h => by simp at h, fun _ => rfl⟩

def typedCall (n : DottedName) (calleeNote note : Note) (args : List Expr) (f : Option Symbol)
    (T : Ty) : Expr :=
  .call (.name { n with symbol := f } { calleeNote with type := some .declaration }) args
    { note with type := some T }

theorem typedCall_none {n : DottedName} (hn : n.symbol = none) (calleeNote note : Note)
    (args : List Expr) (T : Ty) :
    typedCall n calleeNote note args none T =
      .call (.name n { calleeNote with type := some .declaration }) args
        { note with type := some T } := by
  rw [typedCall, ← hn]

section

variable {ctx : Context} {n : DottedName} {note : Note} {args : List Expr} {types : List Ty}
  {s s₁ s₂ : State} {q : List Name} {x : Name}

theorem annotateExpr_call {calleeNote : Note} {args' : List Expr} (hnote : note.type = none)
    (hcallee : calleeNote.type = none) (hargs : annotateArgs ctx args s = ⟨args', .ok types, s₁⟩) :
    annotateExpr ctx (.call (.name n calleeNote) args note) s =
      annotateCallee ctx n { calleeNote with type := some .declaration } args' types note s₁ := by
  have htype : (Expr.call (.name n calleeNote) args note).type = none := hnote
  rw [annotateExpr, htype]
  simp only [hcallee]
  unfold Visit.part
  rw [hargs]

theorem annotateCallee_unresolved (calleeNote : Note) (args' : List Expr)
    (hclean : types.any Ty.isError = false) (hq : n.segments = q ++ [x]) (hn : n.symbol = none)
    {d : Diagnostic} (hd : candidates ctx q x note.span.start = .error d) :
    annotateCallee ctx n { calleeNote with type := some .declaration } args' types note s₁ =
      ⟨typedCall n calleeNote note args' none .error, .ok .error, s₁.push d⟩ := by
  rw [typedCall_none hn]
  simp [annotateCallee, hclean, hq, hd, settle, Judgement.silent]

/-- The rest depends on the offer that is chosen. -/
theorem annotateCallee_chosen (calleeNote : Note) (args' : List Expr)
    (hclean : types.any Ty.isError = false) (hq : n.segments = q ++ [x]) (hn : n.symbol = none)
    {symbols : List Symbol} {found : List Offer}
    (hc : candidates ctx q x note.span.start = .ok symbols)
    (ho : offers ctx.table (symbols.filter Symbol.isMethod) s₁ = (found, s₂)) :
    (∀ o, chooseOffer ctx n types found = .ok o →
      annotateCallee ctx n { calleeNote with type := some .declaration } args' types note s₁ =
        ⟨typedCall n calleeNote note args' (some o.method) o.returns, .ok o.returns, s₂⟩) ∧
    ∀ p, chooseOffer ctx n types found = .error p →
      annotateCallee ctx n { calleeNote with type := some .declaration } args' types note s₁ =
        ⟨typedCall n calleeNote note args' none .error, .ok .error,
          s₂.report p note.span.start⟩ := by
  constructor
  · intro o h
    simp [annotateCallee, hclean, hq, hc, ho, h, settle, Judgement.found, fillSlot, hn, typedCall]
  · intro p h
    rw [typedCall_none hn]
    simp [annotateCallee, hclean, hq, hc, ho, h, settle, Judgement.bad]

end

end Typing

def Expr.callee? : Expr → Option Symbol
  | .call (.name n _) _ _ => n.symbol
  | _ => none

open Typing

/-- The outcome of a call whose name stands for `symbols`, once its arguments have their types. -/
structure CallDecided (ctx : Context) (n : DottedName) (calleeNote note : Note) (args : List Expr)
    (types : List Ty) (symbols : List Symbol) (s s' : State) (call : Visited State Expr Ty) :
    Prop where
  looksUp : LooksUp ctx.table (symbols.filter Symbol.isMethod) s s'
  bound_iff : ∀ f, call.node.callee? = some f ↔
    overloads ctx.table s.resolutions types symbols = [f] ∧ Callable ctx n f
  bound : ∀ f, overloads ctx.table s.resolutions types symbols = [f] → Callable ctx n f →
    call = ⟨typedCall n calleeNote note args (some f) (known ctx.table s.resolutions f).returns,
      .ok (known ctx.table s.resolutions f).returns, s'⟩
  refused : (¬ ∃ f, overloads ctx.table s.resolutions types symbols = [f] ∧ Callable ctx n f) →
    call = ⟨typedCall n calleeNote note args none .error, .ok .error,
      s'.report (refusal n (symbols.filter Symbol.isMethod)
        (overloads ctx.table s.resolutions types symbols)) note.span.start⟩

/-- A call is bound to a method exactly if its name stands for one method that takes the arguments,
and the method may be called here. -/
theorem call_resolved {ctx : Context} {n : DottedName} {calleeNote note : Note}
    {args args' : List Expr} {types : List Ty} {s s₁ : State} (ht : ctx.table.Produced)
    (hnote : note.type = none) (hcallee : calleeNote.type = none) (hn : n.symbol = none)
    (hsegs : n.segments ≠ []) (hargs : annotateArgs ctx args s = ⟨args', .ok types, s₁⟩)
    (htypes : ∀ T ∈ types, T ≠ .error) :
    ∃ found, Stands ctx n note.span.start found ∧
      (∀ d, found = .error d →
        annotateExpr ctx (.call (.name n calleeNote) args note) s =
          ⟨typedCall n calleeNote note args' none .error, .ok .error, s₁.push d⟩) ∧
      ∀ symbols, found = .ok symbols →
        ∃ s₂, CallDecided ctx n calleeNote note args' types symbols s₁ s₂
          (annotateExpr ctx (.call (.name n calleeNote) args note) s) := by
  obtain ⟨q, x, hq⟩ : ∃ q x, n.segments = q ++ [x] :=
    ⟨_, _, (List.dropLast_append_getLast hsegs).symm⟩
  have hclean : types.any Ty.isError = false := by
    rw [List.any_eq_false]
    exact fun T hT he => htypes T hT (Ty.isError_iff.mp he)
  have horder := ht.inOrder
  rw [annotateExpr_call hnote hcallee hargs]
  refine ⟨_, candidates_stands horder hq _, fun d hd => ?_, fun symbols hc => ?_⟩
  · exact annotateCallee_unresolved calleeNote args' hclean hq hn hd
  · have hmethods : ∀ m ∈ symbols.filter Symbol.isMethod, m.isMethod = true := fun m hm =>
      (List.mem_filter.mp hm).2
    obtain ⟨s₂, ho, hlooks⟩ := offers_known hmethods ((candidates_distinct horder hc).filter _) s₁
    obtain ⟨hbound, hrefused⟩ := annotateCallee_chosen calleeNote args' hclean hq hn hc ho
    obtain ⟨hone, hnone⟩ := chooseOffer_known ctx n hmethods
      (rfl : _ = overloads ctx.table s₁.resolutions types symbols)
    refine ⟨s₂, hlooks, fun f => ?_, fun f hf hcall => hbound _ (hone f hf hcall),
      fun hno => hrefused _ (hnone hno)⟩
    by_cases hg : ∃ g, overloads ctx.table s₁.resolutions types symbols = [g] ∧ Callable ctx n g
    · obtain ⟨g, hg, hcall⟩ := hg
      rw [hbound _ (hone g hg hcall), hg]
      change some g = some f ↔ _
      constructor
      · rintro ⟨⟩
        exact ⟨rfl, hcall⟩
      · rintro ⟨⟨⟩, -⟩
        rfl
    · rw [hrefused _ (hnone hg)]
      change none = some f ↔ _
      exact ⟨fun h => (by cases h), fun h => absurd ⟨f, h⟩ hg⟩

def Sample.registered : Table :=
  (Registration.registerUnit Sample.unit (.withSystem 0) []).state.table

theorem Sample.registered_produced : Sample.registered.Produced :=
  Table.Produced.registered (Table.Produced.withSystem 0) Sample.unit []

def Sample.inMain : Context := ⟨Sample.registered, 3, none, none⟩

open Sample in
theorem call_resolved_sample : inMain.table.Produced ∧
    (annotateExpr inMain (call "add" [str "b", str "ig"]) ⟨.empty, []⟩).node.callee?.map
      (·.id.number) = some 14 ∧
    ∃ args types s₁,
      annotateArgs inMain [str "b", str "ig"] ⟨.empty, []⟩ = ⟨args, .ok types, s₁⟩ ∧
      (∀ T ∈ types, T ≠ .error) ∧
      ∃ found, Stands inMain (.parse "add") .null found ∧
        (∀ d, found = .error d →
          annotateExpr inMain (call "add" [str "b", str "ig"]) ⟨.empty, []⟩ =
            ⟨typedCall (.parse "add") note note args none .error, .ok .error, s₁.push d⟩) ∧
        ∀ symbols, found = .ok symbols →
          ∃ s₂, CallDecided inMain (.parse "add") note note args types symbols s₁ s₂
            (annotateExpr inMain (call "add" [str "b", str "ig"]) ⟨.empty, []⟩) := by
  have ht : inMain.table.Produced := by
    simp only [inMain]
    exact registered_produced
  have hargs : annotateArgs inMain [str "b", str "ig"] ⟨.empty, []⟩ =
      ⟨_, .ok [.string, .string], ⟨.empty, []⟩⟩ := rfl
  have htypes : ∀ T ∈ [Ty.string, Ty.string], T ≠ .error := by simp
  have hnote : note.type = none := rfl
  have hsegs : (DottedName.parse "add").segments ≠ [] := by decide
  exact ⟨ht, by decide +kernel, _, _, _, hargs, htypes,
    call_resolved ht hnote hnote rfl hsegs hargs htypes⟩

end ClassLang
