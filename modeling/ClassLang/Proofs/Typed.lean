import ClassLang.Proofs.Operands
import ClassLang.Proofs.Resolved
import ClassLang.Typing.Stmt

/-! Typing rules, stated apart from the visit that finds types. When typing reports nothing, every
expression that it annotates obeys the rules, and carries the type they give. -/
namespace ClassLang.Typing

/-- An expression obeys the rules and carries its type. Types are equal where the visit compares
them, since classes of one table are told apart by their numbers. -/
inductive HasType (ctx : Context) (r : Resolutions) : Expr → Ty → Prop
  | literal {value note} (hn : note.type = some (literalType value)) :
    HasType ctx r (.literal value note) (literalType value)
  | this {note} (hs : ctx.isStatic = false) (hn : note.type = some .this) :
    HasType ctx r (.this note) .this
  | var {n note b T} (hb : n.symbol = some b) (hr : ctx.table.Reached ctx.scope b)
    (hk : b.kind = .var) (hp : nameProblem? ctx n b = none) (ht : r.type? b = some T)
    (hn : note.type = some T) : HasType ctx r (.name n note) T
  | declaration {n note b} (hb : n.symbol = some b) (hk : b.kind ≠ .var)
    (hn : note.type = some .declaration) : HasType ctx r (.name n note) .declaration
  | unary {op operand note} (ho : HasType ctx r operand (operandType op))
    (hn : note.type = some (operandType op)) :
    HasType ctx r (.unary op operand note) (operandType op)
  | binary {op left right note T} (hl : HasType ctx r left T) (hr : HasType ctx r right T)
    (ha : applies op T = true)
    (hn : note.type = some (if op.isComparison then .boolean else T)) :
    HasType ctx r (.binary op left right note) (if op.isComparison then .boolean else T)
  | assign {n nameNote value note T} (ht : HasType ctx r (.name n nameNote) T)
    (hv : HasType ctx r value T) (hi : T.isValue = true) (hn : note.type = some T) :
    HasType ctx r (.assign (.name n nameNote) value note) T
  | call {n nameNote args note m params T} (hm : n.symbol = some m)
    (hr : ctx.table.Reached ctx.scope m) (hk : m.isMethod = true) (hp : r.params? m = some params)
    (ht : r.type? m = some T) (hc : mayCall ctx n m = true)
    (ho : ∀ o, ctx.table.Bound o → o.isMethod = true → o.declaredIn = m.declaredIn →
      o.name = m.name → ∃ ps, r.params? o = some ps ∧ (ps = params → o = m))
    (hl : args.length = params.length) (ha : ∀ e T, (e, T) ∈ args.zip params → HasType ctx r e T)
    (hn : note.type = some T) : HasType ctx r (.call (.name n nameNote) args note) T
  | create {n note c path modifiers} (hc : n.symbol = some c) (hb : ctx.table.Bound c)
    (hd : c.details = .cls path modifiers false) (hs : Modifier.isStatic modifiers = false)
    (hn : note.type = some (.cls c)) : HasType ctx r (.create n [] note) (.cls c)

namespace HasType

variable {ctx : Context} {r r' : Resolutions} {e : Expr} {T : Ty}

theorem type_eq (h : HasType ctx r e T) : e.type = some T := by
  cases h <;> assumption

theorem mono (ht : ∀ {b T}, r.type? b = some T → r'.type? b = some T)
    (hp : ∀ {b Ts}, r.params? b = some Ts → r'.params? b = some Ts) (h : HasType ctx r e T) :
    HasType ctx r' e T := by
  induction h with
  | literal hn => exact .literal hn
  | this hs hn => exact .this hs hn
  | var hb hr hk hproblem htype hn => exact .var hb hr hk hproblem (ht htype) hn
  | declaration hb hk hn => exact .declaration hb hk hn
  | unary _ hn ih => exact .unary ih hn
  | binary _ _ ha hn ihl ihr => exact .binary ihl ihr ha hn
  | assign _ _ hi hn iht ihv => exact .assign iht ihv hi hn
  | call hm hr hk hparams htype hc ho hl _ hn ih =>
    refine .call hm hr hk (hp hparams) (ht htype) hc ?_ hl ih hn
    intro o hob hom hin hname
    obtain ⟨ps, hps, hone⟩ := ho o hob hom hin hname
    exact ⟨ps, hp hps, hone⟩
  | create hc hb hd hs hn => exact .create hc hb hd hs hn

end HasType

theorem HasType.extend {ctx : Context} {s s' : State} {e : Expr} {T : Ty} (he : Extends s s')
    (h : HasType ctx s.resolutions e T) : HasType ctx s'.resolutions e T :=
  h.mono he.types he.params

def Known (t : Table) (T : Ty) : Prop := ∀ c, T = .cls c → t.Bound c ∧ c.kind = .cls

theorem known_meaning {t : Table} (h : t.Sound) (scope : ScopeId) (type : TypeExpr) :
    Known t (meaning t scope type) := fun _ hc => h.bound_of_resolveType hc

theorem Faithful.known_type {t : Table} (h : t.Sound) {s : State} (hf : Faithful t s) {b : Symbol}
    {T : Ty} (hb : t.Bound b) (ht : s.resolutions.type? b = some T) : Known t T := by
  obtain ⟨scope, type, -, rfl, -⟩ := hf.types hb ht
  exact known_meaning h scope type

theorem Faithful.known_params {t : Table} (h : t.Sound) {s : State} (hf : Faithful t s) {b : Symbol}
    {Ts : List Ty} (hb : t.Bound b) (ht : s.resolutions.params? b = some Ts) :
    ∀ T ∈ Ts, Known t T := by
  obtain ⟨params, _, _, _, _, -, rfl, -⟩ := hf.params hb ht
  intro T hT
  obtain ⟨type, -, rfl⟩ := List.mem_map.mp hT
  exact known_meaning h b.declaredIn type

theorem HasType.known {ctx : Context} (h : ctx.table.Sound) {s : State}
    (hf : Faithful ctx.table s) {e : Expr} {T : Ty} (ht : HasType ctx s.resolutions e T) :
    Known ctx.table T := by
  induction ht with
  | @literal value =>
    intro c hc
    cases value <;> cases hc
  | this =>
    intro c hc
    cases hc
  | var _ hr _ _ ht => exact hf.known_type h hr.1 ht
  | declaration =>
    intro c hc
    cases hc
  | @unary op =>
    intro c hc
    cases op <;> cases hc
  | @binary op =>
    rename_i ih _
    split
    · intro c hc
      cases hc
    · exact ih
  | assign _ _ _ _ ih => exact ih
  | call _ hr _ _ ht => exact hf.known_type h hr.1 ht
  | create _ hb hd =>
    rintro c ⟨⟩
    exact ⟨hb, by simp [Symbol.kind, hd]⟩

theorem eq_of_same {t : Table} (h : t.Sound) {a b : Ty} (ha : Known t a) (hb : Known t b)
    (hs : a.same b = true) : a = b := by
  obtain ⟨hform, hnumber⟩ := Ty.same_iff.mp hs
  cases a with
  | cls c =>
    cases b with
    | cls d =>
      have hc := (ha c rfl).1
      have hd := (hb d rfl).1
      have hid : c.id = d.id := by
        have htable := (h.number c hc).1.trans (h.number d hd).1.symm
        have hnum : c.id.number = d.id.number := Option.some.inj hnumber
        cases hci : c.id
        cases hdi : d.id
        simp_all
      rw [h.distinct c d hc hd hid]
    | _ => cases hform
  | _ => cases b <;> first | rfl | cases hform

theorem eq_of_sameList {t : Table} (h : t.Sound) : ∀ {as bs : List Ty},
    (∀ T ∈ as, Known t T) → (∀ T ∈ bs, Known t T) → Ty.sameList as bs = true → as = bs
  | [], [], _, _, _ => rfl
  | a :: as, b :: bs, ha, hb, hs => by
    rw [Ty.sameList, Bool.and_eq_true] at hs
    rw [eq_of_same h (ha a List.mem_cons_self) (hb b List.mem_cons_self) hs.1,
      eq_of_sameList h (fun T hT => ha T (List.mem_cons_of_mem _ hT))
        (fun T hT => hb T (List.mem_cons_of_mem _ hT)) hs.2]

structure Quiet (t : Table) (s : State) : Prop where
  diagnostics : s.diagnostics = []
  types : ∀ {b T}, t.Bound b → s.resolutions.type? b = some T → T ≠ .error
  params : ∀ {b Ts}, t.Bound b → s.resolutions.params? b = some Ts → .error ∉ Ts

theorem Quiet.before {t : Table} {s s' : State} (h : Extends s s') (hq : Quiet t s') : Quiet t s :=
  ⟨h.quiet hq.diagnostics, fun hb ht => hq.types hb (h.types ht),
    fun hb ht => hq.params hb (h.params ht)⟩

def Ready (ctx : Context) (s : State) : Prop :=
  ∀ b, ctx.table.Bound b → b.declaredIn = ctx.scope → IsParam b →
    (s.resolutions.type? b).isSome = true

theorem Ready.mono {ctx : Context} {s s' : State} (h : Extends s s') (hr : Ready ctx s) :
    Ready ctx s' := by
  intro b hb hin hp
  obtain ⟨T, hT⟩ := Option.isSome_iff_exists.mp (hr b hb hin hp)
  exact Option.isSome_iff_exists.mpr ⟨T, h.types hT⟩

/-- A parameter can be meant only in its own method. -/
theorem Ready.of_reached {ctx : Context} (h : ctx.table.Sound) {s : State} (hr : Ready ctx s)
    {b : Symbol} (hb : ctx.table.Reached ctx.scope b) (hp : IsParam b) :
    (s.resolutions.type? b).isSome = true := by
  refine hr b hb.1 ?_ hp
  rcases hb.2 with hin | hout
  · exact hin
  · obtain ⟨type, index, hd⟩ := hp
    have hfits := h.fits b hb.1
    simp only [Table.Fits, hd] at hfits
    exact absurd hfits.2 hout

structure Finds (ctx : Context) (s s' : State) (e : Expr) (T : Ty) : Prop where
  grows : Grows ctx.table s s'
  typed : Faithful ctx.table s → Quiet ctx.table s' → HasType ctx s'.resolutions e T ∧ T ≠ .error

structure FindsAll (ctx : Context) (s s' : State) (es : List Expr) (Ts : List Ty) : Prop where
  grows : Grows ctx.table s s'
  typed : Faithful ctx.table s → Quiet ctx.table s' → es.length = Ts.length ∧
    (∀ e T, (e, T) ∈ es.zip Ts → HasType ctx s'.resolutions e T) ∧ .error ∉ Ts

theorem settle_ok {t : Table} {build : Note → Expr} {note : Note} {j : Judgement} {s s' : State}
    {e : Expr} {T : Ty} (h : settle build note j s = ⟨e, .ok T, s'⟩) :
    e = build { note with type := some T } ∧ T = j.type ∧ Grows t s s' ∧
      s'.resolutions = s.resolutions ∧ (s'.diagnostics = [] → j.problem = none) := by
  unfold settle at h
  cases hp : j.problem with
  | none =>
    rw [hp] at h
    cases h
    exact ⟨rfl, rfl, .refl s, rfl, fun _ => rfl⟩
  | some p =>
    rw [hp] at h
    cases h
    refine ⟨rfl, rfl, .report s p _, rfl, ?_⟩
    intro hd
    simp [State.report, State.push] at hd

/-- A judgement that holds gives what its rule gives. -/
theorem finds_of_settle {ctx : Context} {build : Note → Expr} {note : Note} {j : Judgement}
    {s s1 s' : State} {e : Expr} {T : Ty} (hg : Grows ctx.table s s1)
    (h : settle build note j s1 = ⟨e, .ok T, s'⟩)
    (hj : Faithful ctx.table s → Quiet ctx.table s1 → j.problem = none →
      HasType ctx s1.resolutions (build { note with type := some j.type }) j.type ∧
        j.type ≠ .error) : Finds ctx s s' e T := by
  obtain ⟨rfl, rfl, hg', hr, hp⟩ := settle_ok (t := ctx.table) h
  refine ⟨hg.trans hg', fun hf hq => ?_⟩
  rw [hr]
  exact hj hf (hq.before hg'.extends_) (hp hq.diagnostics)

theorem unaryJudgement_found {op : UnaryOp} {T : Ty} (hT : T ≠ .error)
    (h : (unaryJudgement op T).problem = none) :
    T = operandType op ∧ (unaryJudgement op T).type = operandType op := by
  unfold unaryJudgement at *
  split at h
  · next he => exact absurd (Ty.isError_iff.mp he) hT
  · split at h
    · next hs =>
      refine ⟨?_, by simp [*, Judgement.found]⟩
      have hform := (Ty.same_iff.mp hs).1
      cases op <;> cases T <;> first | rfl | cases hform
    · cases h

theorem binaryJudgement_found {op : BinaryOp} {L R : Ty} (hL : L ≠ .error) (hR : R ≠ .error)
    (h : (binaryJudgement op L R).problem = none) :
    L.same R = true ∧ applies op L = true ∧
      (binaryJudgement op L R).type = if op.isComparison then .boolean else L := by
  have he : ¬ (L.isError || R.isError) = true := by
    rw [Bool.or_eq_true, Ty.isError_iff, Ty.isError_iff]
    rintro (he | he)
    · exact hL he
    · exact hR he
  rw [binaryJudgement, if_neg he] at h ⊢
  split at h
  · next hs =>
    rw [Bool.and_eq_true] at hs
    exact ⟨hs.1, hs.2, by simp [hs, Judgement.found]⟩
  · cases h

theorem assignJudgement_found {T V : Ty} (hT : T ≠ .error) (hV : V ≠ .error)
    (h : (assignJudgement T V).problem = none) :
    V.same T = true ∧ T.isValue = true ∧ (assignJudgement T V).type = T := by
  have he : ¬ (T.isError || V.isError) = true := by
    rw [Bool.or_eq_true, Ty.isError_iff, Ty.isError_iff]
    rintro (he | he)
    · exact hT he
    · exact hV he
  rw [assignJudgement, if_neg he] at h ⊢
  split at h
  · next hs =>
    rw [Bool.and_eq_true] at hs
    exact ⟨hs.1, hs.2, by simp [hs, Judgement.found]⟩
  · cases h

theorem not_quiet_push {t : Table} {s : State} {d : Diagnostic} : ¬ Quiet t (s.push d) := by
  intro hq
  have hd := hq.diagnostics
  simp [State.push] at hd

theorem offers_grows {t : Table} (h : t.Sound) {ms : List Symbol} :
    ∀ {s s' : State} {found : List Offer}, (∀ m ∈ ms, t.Bound m ∧ m.isMethod = true) →
      offers t ms s = (found, s') →
      Grows t s s' ∧ found.map Offer.method = ms ∧
        ∀ o ∈ found, s'.resolutions.params? o.method = some o.params ∧
          s'.resolutions.type? o.method = some o.returns := by
  induction ms with
  | nil =>
    intro s s' found _ ho
    cases ho
    exact ⟨.refl s, rfl, by simp⟩
  | cons m ms ih =>
    intro s s' found hm ho
    unfold offers at ho
    rcases h1 : s.signature t m with ⟨params, returns, s1⟩
    rcases h2 : offers t ms s1 with ⟨rest, s2⟩
    simp only [h1, h2] at ho
    cases ho
    obtain ⟨hb, hk⟩ := hm m List.mem_cons_self
    obtain ⟨hg, hp, ht⟩ := signature_grows h hb hk h1
    obtain ⟨hgs, hms, hos⟩ := ih (fun x hx => hm x (List.mem_cons_of_mem _ hx)) h2
    refine ⟨hg.trans hgs, by simp [hms], ?_⟩
    intro o ho
    rcases List.mem_cons.mp ho with rfl | ho
    · exact ⟨hgs.extends_.params hp, hgs.extends_.types ht⟩
    · exact hos o ho

/-- The offer chosen is the only one for these arguments. -/
theorem chooseOffer_ok {ctx : Context} {n : DottedName} {types : List Ty} {found : List Offer}
    {offer : Offer} (h : chooseOffer ctx n types found = .ok offer) :
    offer ∈ found ∧ Ty.sameList offer.params types = true ∧
      (∀ o ∈ found, Ty.sameList o.params types = true → o = offer) ∧
      mayCall ctx n offer.method = true := by
  unfold chooseOffer at h
  split at h
  · cases h
  · cases h
  · next found _ _ _ _ hfilter =>
    split at h
    · next hmay =>
      cases h
      have hmem : ∀ x, x ∈ found.filter (fun o => Ty.sameList o.params types) ↔ x = offer := by
        intro x
        rw [hfilter, List.mem_singleton]
      have hself := List.mem_filter.mp ((hmem offer).mpr rfl)
      exact ⟨hself.1, hself.2, fun o ho hs => (hmem o).mp (List.mem_filter.mpr ⟨ho, hs⟩), hmay⟩
    · cases h
  · cases h

/-- A call may mean what one scope binds to its last segment. -/
theorem candidates_ok {ctx : Context} (hs : ctx.table.Sound) {qualifier : List Name} {last : Name}
    {position : Position} {symbols : List Symbol}
    (h : candidates ctx qualifier last position = .ok symbols) :
    (∀ b ∈ symbols, ctx.table.Reached ctx.scope b) ∧
      ∀ a ∈ symbols, ∀ b, ctx.table.Bound b → b.declaredIn = a.declaredIn → b.name = a.name →
        b ∈ symbols := by
  have hmembers : ∀ j, symbols = ctx.table.members j last.text → ∀ a ∈ symbols, ∀ b,
      ctx.table.Bound b → b.declaredIn = a.declaredIn → b.name = a.name → b ∈ symbols := by
    rintro j rfl a ha b hb hin hname
    obtain ⟨hn, hj⟩ := hs.home j last.text a ha
    rw [← hn, ← hj, ← hin, ← hname]
    exact hb
  unfold candidates at h
  split at h
  · cases h
    refine ⟨fun b hb => hs.reached_of_visible hb, ?_⟩
    rcases Table.visibleFrom_cases ctx.table ctx.scope last.text with he | ⟨j, -, he⟩
    · rw [he]
      simp
    · exact hmembers j he
  · cases h
  · next owner ho =>
    split at h
    · next k hk =>
      cases h
      have hreach := hs.reached_of_resolvePath ho
      exact ⟨fun b hb => hs.reached_of_member hreach.1 hk hb, hmembers k rfl⟩
    · cases h

theorem methods_of_candidates {ctx : Context} (hs : ctx.table.Sound) {qualifier : List Name}
    {last : Name} {position : Position} {symbols : List Symbol}
    (h : candidates ctx qualifier last position = .ok symbols) :
    ∀ m ∈ symbols.filter Symbol.isMethod, ctx.table.Bound m ∧ m.isMethod = true := by
  intro m hm
  obtain ⟨hmem, hk⟩ := List.mem_filter.mp hm
  exact ⟨((candidates_ok hs h).1 m hmem).1, hk⟩

theorem CalleeStep.finds {ctx : Context} (hs : ctx.table.Sound) {n n' : DottedName}
    {nameNote note : Note} {args : List Expr} {types : List Ty} {j : Judgement} {e : Expr} {T : Ty}
    {s s1 s2 s' : State} (h : CalleeStep ctx n types note.span.start s1 n' j s2)
    (ha : FindsAll ctx s s1 args types)
    (hset : settle (.call (.name n' nameNote) args) note j s2 = ⟨e, .ok T, s'⟩) :
    Finds ctx s s' e T := by
  cases h with
  | muted he =>
    exact finds_of_settle ha.grows hset fun hf hq _ => absurd he (ha.typed hf hq).2.2
  | lost =>
    exact finds_of_settle (ha.grows.trans (.push s1 _)) hset fun _ hq => absurd hq not_quiet_push
  | refused _ _ hc ho _ =>
    obtain ⟨hg, -⟩ := offers_grows hs (methods_of_candidates hs hc) ho
    exact finds_of_settle (ha.grows.trans hg) hset fun _ _ hno => by cases hno
  | @chosen last symbols found offer _ _ _ _ hc ho hchoice =>
    obtain ⟨hreach, hall⟩ := candidates_ok hs hc
    obtain ⟨hg, hmethods, hrec⟩ := offers_grows hs (methods_of_candidates hs hc) ho
    obtain ⟨hin, hsame, hone, hmay⟩ := chooseOffer_ok hchoice
    obtain ⟨hparams, htype⟩ := hrec offer hin
    have hmem : ∀ o ∈ found, o.method ∈ symbols ∧ o.method.isMethod = true := by
      intro o ho'
      rw [← List.mem_filter, ← hmethods]
      exact List.mem_map_of_mem ho'
    obtain ⟨hcandm, hmeth⟩ := hmem offer hin
    refine finds_of_settle (ha.grows.trans hg) hset fun hf hq _ => ?_
    have hf2 := (ha.grows.trans hg).faithful hf
    obtain ⟨hlen, hargs, -⟩ := ha.typed hf (hq.before hg.extends_)
    have hknown : ∀ X ∈ types, Known ctx.table X := by
      intro X hX
      obtain ⟨i, hi, rfl⟩ := List.getElem_of_mem hX
      have hzip : (args[i], types[i]) ∈ args.zip types := by
        rw [List.mem_iff_getElem]
        exact ⟨i, by simp [hlen, hi], by simp⟩
      exact (hargs _ _ hzip).known hs (ha.grows.faithful hf)
    have heq : ∀ o ∈ found, Ty.sameList o.params types = true → o.params = types := by
      intro o ho' hsame'
      have hb := (hreach _ (hmem o ho').1).1
      exact eq_of_sameList hs (hf2.known_params hs hb (hrec o ho').1) hknown hsame'
    have htypes := heq offer hin hsame
    refine ⟨?_, hq.types (hreach _ hcandm).1 htype⟩
    refine .call rfl (hreach _ hcandm) hmeth hparams htype hmay ?_ (htypes ▸ hlen) ?_ rfl
    · intro o hob hom hino hname
      have hof : o ∈ found.map Offer.method := by
        rw [hmethods, List.mem_filter]
        exact ⟨hall _ hcandm o hob hino hname, hom⟩
      obtain ⟨x, hx, rfl⟩ := List.mem_map.mp hof
      refine ⟨x.params, (hrec x hx).1, fun hps => ?_⟩
      rw [hone x hx (by rw [hps]; exact hsame)]
    · intro a X hX
      rw [htypes] at hX
      exact (hargs a X hX).extend hg.extends_

theorem createJudgement_found {n : DottedName} {args : List Expr} {c : Symbol}
    (h : (createJudgement n args c).problem = none) :
    ∃ path modifiers, c.details = .cls path modifiers false ∧ Modifier.isStatic modifiers = false ∧
      args = [] ∧ (createJudgement n args c).type = .cls c := by
  unfold createJudgement at *
  split at h
  · next path ms bi hd =>
    split at h
    · cases h
    · next hno =>
      split at h
      · next hempty =>
        rw [Bool.or_eq_true, not_or, Bool.not_eq_true, Bool.not_eq_true] at hno
        obtain ⟨rfl, hst⟩ := hno
        refine ⟨path, ms, hd, hst, List.isEmpty_iff.mp hempty, ?_⟩
        simp [hst, hempty, Judgement.found]
      · cases h
  · cases h

theorem isTarget_eq {e e' : Expr} (h : e'.shape = e.shape) : isTarget e' = isTarget e := by
  cases e <;> cases e' <;> first | rfl | cases h

/-- The only typed targets are names. -/
theorem HasType.eq_name {ctx : Context} {r : Resolutions} {e : Expr} {T : Ty}
    (h : HasType ctx r e T) (ht : isTarget e = true) : ∃ n note, e = .name n note := by
  cases h with
  | var => exact ⟨_, _, rfl⟩
  | declaration => exact ⟨_, _, rfl⟩
  | _ => cases ht

theorem InTurn.findsAll {ctx : Context} {es es' : List Expr} {Ts : List Ty} {s s' : State}
    (h : InTurn (fun _ s e' T s' => Ready ctx s → Finds ctx s s' e' T) es s es' Ts s')
    (hr : Ready ctx s) : FindsAll ctx s s' es' Ts := by
  induction h with
  | nil => exact ⟨.refl _, fun _ _ => ⟨rfl, by simp, by simp⟩⟩
  | cons head _ ih =>
    have he := head hr
    have hrest := ih (hr.mono he.grows.extends_)
    refine ⟨he.grows.trans hrest.grows, fun hfaith hq => ?_⟩
    obtain ⟨ht, hne⟩ := he.typed hfaith (hq.before hrest.grows.extends_)
    obtain ⟨hlen, hall, hnes⟩ := hrest.typed (he.grows.faithful hfaith) hq
    refine ⟨by simp [hlen], ?_, ?_⟩
    · intro a X hX
      rw [List.zip_cons_cons, List.mem_cons] at hX
      rcases hX with hX | hX
      · cases hX
        exact ht.extend hrest.grows.extends_
      · exact hall a X hX
    · rw [List.mem_cons]
      rintro (hX | hX)
      · exact hne hX.symm
      · exact hnes hX

theorem FindsAll.operand {ctx : Context} {es : List Expr} {Ts : List Ty} {s s' : State}
    (h : FindsAll ctx s s' es Ts) (hf : Faithful ctx.table s) (hq : Quiet ctx.table s') {e : Expr}
    {T : Ty} (he : (e, T) ∈ es.zip Ts) : HasType ctx s'.resolutions e T ∧ T ≠ .error := by
  obtain ⟨-, hall, hne⟩ := h.typed hf hq
  exact ⟨hall e T he, fun hT => hne (hT ▸ (List.of_mem_zip he).2)⟩

theorem annotateExpr_finds {ctx : Context} (hs : ctx.table.Sound) {e e' : Expr} {T : Ty}
    {s s' : State} (hf : e.isFresh = true) (hr : Ready ctx s)
    (h : annotateExpr ctx e s = ⟨e', .ok T, s'⟩) : Finds ctx s s' e' T := by
  refine Annotates.induct (P := fun _ s e' T s' => Ready ctx s → Finds ctx s s' e' T) ?_ ⟨hf, h⟩ hr
  intro e e' T xs types build j s s1 s2 s' _ hargs hstep hset hr
  have ha := (hargs.imp fun _ _ {_ _ _ _} hx => hx.2).findsAll hr
  cases hstep with
  | @literal value =>
    refine finds_of_settle ha.grows hset fun _ _ _ => ⟨.literal rfl, ?_⟩
    cases value <;> simp [Judgement.found, literalType]
  | this =>
    refine finds_of_settle ha.grows hset fun _ _ hp => ?_
    unfold thisJudgement at *
    split at hp
    · cases hp
    · next hst =>
      simp only [hst]
      exact ⟨.this (by simpa using hst) rfl, by simp [Judgement.found]⟩
  | lostName | lostClass =>
    exact finds_of_settle (ha.grows.trans (.push s1 _)) hset fun _ hq => absurd hq not_quiet_push
  | refusedName | computed | field | index =>
    exact finds_of_settle ha.grows hset fun _ _ hno => by cases hno
  | var _ hpath hj hk hv =>
    cases hargs
    have hreach := hs.reached_of_resolvePath hpath
    obtain ⟨hg, ht⟩ := varType_grows hs hreach.1 hk (fun hpar => hr.of_reached hs hreach hpar) hv
    refine finds_of_settle hg hset fun _ hq _ => ⟨?_, hq.types hreach.1 ht⟩
    exact .var rfl hreach hk hj ht rfl
  | declaration _ _ _ hk =>
    refine finds_of_settle ha.grows hset fun _ _ _ => ⟨?_, by simp [Judgement.found]⟩
    exact .declaration rfl hk rfl
  | @unary op _ x _ A =>
    refine finds_of_settle ha.grows hset fun hfaith hq hp => ?_
    obtain ⟨ht, hne⟩ := ha.operand hfaith hq (e := x) (T := A) (by simp)
    obtain ⟨rfl, hj⟩ := unaryJudgement_found hne hp
    rw [hj]
    exact ⟨.unary ht rfl, hne⟩
  | @binary op _ _ x y _ L R =>
    refine finds_of_settle ha.grows hset fun hfaith hq hp => ?_
    obtain ⟨htl, hnl⟩ := ha.operand hfaith hq (e := x) (T := L) (by simp)
    obtain ⟨htr, hnr⟩ := ha.operand hfaith hq (e := y) (T := R) (by simp)
    obtain ⟨hsame, happ, hj⟩ := binaryJudgement_found hnl hnr hp
    have hfaith1 := ha.grows.faithful hfaith
    obtain rfl := eq_of_same hs (htl.known hs hfaith1) (htr.known hs hfaith1) hsame
    rw [hj]
    refine ⟨.binary htl htr happ rfl, ?_⟩
    split
    · simp
    · exact hnl
  | @assign target _ x y _ L R _ htarget =>
    refine finds_of_settle ha.grows hset fun hfaith hq hp => ?_
    obtain ⟨htt, hnt⟩ := ha.operand hfaith hq (e := x) (T := L) (by simp)
    obtain ⟨htv, hnv⟩ := ha.operand hfaith hq (e := y) (T := R) (by simp)
    obtain ⟨hsame, hval, hj⟩ := assignJudgement_found hnt hnv hp
    have hfaith1 := ha.grows.faithful hfaith
    obtain rfl := eq_of_same hs (htv.known hs hfaith1) (htt.known hs hfaith1) hsame
    cases hargs with
    | cons head =>
      obtain ⟨n, nameNote, rfl⟩ :=
        htt.eq_name ((isTarget_eq head.1.outline.2.1).trans htarget)
      rw [hj]
      exact ⟨.assign htt htv hval rfl, hnt⟩
  | call _ _ hc => exact hc.finds hs ha hset
  | create _ hpath =>
    refine finds_of_settle ha.grows hset fun _ _ hp => ?_
    obtain ⟨path, ms, hd, hst, rfl, hj⟩ := createJudgement_found hp
    rw [hj]
    exact ⟨.create rfl (hs.reached_of_resolvePath hpath).1 hd hst rfl, by simp⟩

end ClassLang.Typing
