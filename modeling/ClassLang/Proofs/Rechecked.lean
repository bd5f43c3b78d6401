import ClassLang.Proofs.Annotated
import ClassLang.Lowering.Unit

/-! Typing a unit twice. What was found the first time is found again: expressions have their types
already and are not looked at, and every written type that belongs to a symbol is on record. The
checks that are made again are those of statements and of variables without a symbol, and they come
to the same reports. All this holds for any table and any records to begin with. -/
namespace ClassLang

namespace Typing

structure Keeps (r r' : Resolutions) : Prop where
  types : ∀ {b T}, r.type? b = some T → r'.type? b = some T
  params : ∀ {b Ts}, r.params? b = some Ts → r'.params? b = some Ts

theorem Keeps.refl (r : Resolutions) : Keeps r r := ⟨fun h => h, fun h => h⟩

theorem Keeps.trans {a b c : Resolutions} (h : Keeps a b) (k : Keeps b c) : Keeps a c :=
  ⟨fun hs => k.types (h.types hs), fun hs => k.params (h.params hs)⟩

theorem Extends.keeps {s s' : State} (h : Extends s s') : Keeps s.resolutions s'.resolutions :=
  ⟨h.types, h.params⟩

/-- A step led from `s` to `s'`. Taken again from a state that has all its records, it comes to the
same result, records nothing, and reports only what it reported before, in this order. -/
structure Repeats {ρ : Type} (s s' : State) (again result : State → ρ) : Prop where
  keeps : Keeps s.resolutions s'.resolutions
  again : ∃ reports, s'.diagnostics = s.diagnostics ++ reports ∧
    ∀ q : State, Keeps s'.resolutions q.resolutions →
      ∃ more, more.Sublist reports ∧ again q = result (q.also more)

namespace Repeats

variable {ρ τ ν μ α β : Type} {s s' s₁ : State}

theorem silent {again result : State → ρ} (he : Extends s s')
    (h : ∀ q : State, Keeps s'.resolutions q.resolutions → again q = result q) :
    Repeats s s' again result := by
  obtain ⟨reports, hr⟩ := he.diagnostics
  refine ⟨he.keeps, reports, hr.symm, fun q hq => ⟨[], List.nil_sublist _, ?_⟩⟩
  rw [h q hq, State.also_nil]

/-- A step that makes the same reports each time. -/
theorem reports {again result : State → ρ} (ds : List Diagnostic)
    (h : ∀ q : State, again q = result (q.also ds)) : Repeats s (s.also ds) again result :=
  ⟨.refl _, ds, rfl, fun q _ => ⟨ds, List.Sublist.refl ds, h q⟩⟩

/-- Two steps, the second of which goes on with the result of the first. -/
theorem step {again result : State → ρ} {first : State → τ} {found : State → τ}
    {next : State → ρ} (h : Repeats s s₁ first found) (k : Repeats s₁ s' next result)
    (hnext : ∀ q q' : State, first q = found q' → again q = next q') :
    Repeats s s' again result := by
  obtain ⟨a, ha, hfirst⟩ := h.again
  obtain ⟨b, hb, hsecond⟩ := k.again
  refine ⟨h.keeps.trans k.keeps, a ++ b, by rw [hb, ha, List.append_assoc], fun q hq => ?_⟩
  obtain ⟨x, hx, hq1⟩ := hfirst q (k.keeps.trans hq)
  obtain ⟨y, hy, hq2⟩ := hsecond (q.also x) hq
  exact ⟨x ++ y, hx.append hy, by rw [hnext q _ hq1, hq2, State.also_also]⟩

theorem part {v : Visit State ν α} {put : ν → μ} {rest : ν → α → Visit State μ β} {n : ν} {a : α}
    {result : State → Visited State μ β} (h : Repeats s s₁ v (Visit.done n a))
    (k : Repeats s₁ s' (rest n a) result) : Repeats s s' (v.part put rest) result :=
  h.step k fun q q' hq => by simp only [Visit.part, hq, Visit.done]

theorem within {v : Visit State ν α} {put : ν → μ} {n : ν} {a : α}
    (h : Repeats s s' v (Visit.done n a)) : Repeats s s' (v.within put) (Visit.done (put n) a) :=
  h.part (.silent (.refl s') fun _ _ => rfl)

end Repeats

theorem annotateExpr_repeats {ctx : Context} {e e' : Expr} {T : Ty} {s s' : State}
    (hf : e.isFresh = true) (h : annotateExpr ctx e s = ⟨e', .ok T, s'⟩) :
    Repeats s s' (annotateExpr ctx e') (Visit.done e' T) := by
  refine .silent (Annotates.extends_ ⟨hf, h⟩) fun q _ => ?_
  unfold annotateExpr
  simp only [(Annotates.outline ⟨hf, h⟩).2.2]

theorem varType_repeats {t : Table} {s s' : State} {v : Symbol} {T : Ty}
    (h : s.varType t v = (T, s')) :
    Repeats s s' (fun q => q.varType t v) (fun q => (T, q)) := by
  obtain ⟨he, hT⟩ := varType_found h
  refine .silent he fun q hq => ?_
  simp only [State.varType, hq.types hT]

theorem signature_repeats {t : Table} {s s' : State} {m : Symbol} {Ts : List Ty} {T : Ty}
    (h : s.signature t m = (Ts, T, s')) :
    Repeats s s' (fun q => q.signature t m) (fun q => (Ts, T, q)) := by
  obtain ⟨he, hfound⟩ := signature_found h
  refine .silent he fun q hq => ?_
  unfold State.signature at h ⊢
  cases hd : m.details with
  | method =>
    obtain ⟨hTs, hT⟩ := hfound (by simp [Symbol.isMethod, Symbol.kind, hd])
    simp only [State.paramTypes, State.resultType, hq.params hTs, hq.types hT]
  | cls | var =>
    simp only [hd] at h
    cases h
    rfl

def mismatch (expected received : Ty) (position : Position) : List Diagnostic :=
  if expected.isError || received.isError || received.convertsTo expected then []
  else [⟨.badAssignment expected.text received.text, position⟩]

theorem expect_also (s : State) (expected received : Ty) (position : Position) :
    s.expect expected received position = s.also (mismatch expected received position) := by
  unfold State.expect mismatch
  split
  · exact s.also_nil.symm
  · rfl

theorem expect_repeats {ν : Type} (n : ν) (expected received : Ty) (position : Position)
    (s : State) :
    Repeats s (s.expect expected received position)
      (fun q => ⟨n, .ok (), q.expect expected received position⟩) (Visit.done n ()) := by
  simp only [expect_also]
  exact .reports _ fun q => rfl

/-- A variable without a symbol has its type read again. -/
theorem declaredType_repeats {ctx : Context} {type : TypeExpr} {v v' : Declarator} {D : Ty}
    {s s' : State} (hv : v'.symbol = v.symbol) (h : declaredType ctx type v s = (D, s')) :
    Repeats s s' (declaredType ctx type v') (fun q => (D, q)) := by
  unfold declaredType at h ⊢
  rw [hv]
  cases hb : v.symbol with
  | some b =>
    rw [hb] at h
    exact varType_repeats h
  | none =>
    simp only [hb, resolve_eq] at h ⊢
    cases h
    exact .reports _ fun q => rfl

section

variable {ctx : Context} {s s₁ s' : State}

theorem LocalStep.repeats {type : TypeExpr} {v v' : Declarator}
    (h : LocalStep ctx type v s v' s') :
    Repeats s s' (annotateLocal ctx type v') (Visit.done v' ()) := by
  cases h with
  | bare hi hd =>
    refine (declaredType_repeats rfl hd).step (.silent (.refl s') fun _ _ => rfl) fun q q' hq => ?_
    simp only [annotateLocal, hq, hi]
    rfl
  | @init init init' D R _ s₁ s₂ hi hd hv =>
    have hdecl : Repeats s s₁ (declaredType ctx type { v with init := some init' })
        (fun q => (D, q)) := declaredType_repeats rfl hd
    have hinit : Repeats s₁ (s₂.expect D R init'.span.start)
        ((annotateExpr ctx init').part (fun init => { v with init := some init })
          fun init received s =>
            ⟨{ v with init := some init }, .ok (), s.expect D received init.span.start⟩)
        (Visit.done { v with init := some init' } ()) :=
      (annotateExpr_repeats hv.fresh hv.run).part (expect_repeats _ D R _ s₂)
    exact hdecl.step hinit fun q q' hq => by simp only [annotateLocal, hq]

theorem OneByOne.repeats {ν : Type} {visit : ν → Visit State ν Unit} {ns ns' : List ν}
    (h : OneByOne (fun _ s n' s' => Repeats s s' (visit n') (Visit.done n' ())) ns s ns' s') :
    Repeats s s' (Visit.each visit ns') (Visit.done ns' ()) := by
  induction h with
  | nil => exact .silent (.refl _) fun _ _ => rfl
  | cons head _ ih => exact head.part ih.within

theorem CondStep.repeats {cond cond' : Expr} (h : CondStep ctx cond s cond' s') :
    Repeats s s' (annotateCondition ctx cond') (Visit.done cond' ()) := by
  cases h with
  | fits hv hT =>
    refine (annotateExpr_repeats hv.fresh hv.run).part ?_
    simp only [if_pos hT]
    exact .silent (.refl s') fun _ _ => rfl
  | refused hv hT =>
    refine (annotateExpr_repeats hv.fresh hv.run).part ?_
    simp only [if_neg hT]
    exact .reports [_] fun _ => rfl

theorem ReturnStep.repeats {value value' : Option Expr} {span : Span}
    (h : ReturnStep ctx span value s value' s') :
    Repeats s s' (annotateReturn ctx value' span) (Visit.done (.ret value' span) ()) := by
  have hvalue : ∀ {D : Ty} {found : Option Ty} {s₁ s₂ : State},
      Repeats s₁ s₂ (Visit.optional (annotateExpr ctx) value') (Visit.done value' found) →
      Repeats s₁ (s₂.expect D (found.getD .void) span.start)
        ((Visit.optional (annotateExpr ctx) value').part (Stmt.ret · span) fun value received s =>
          ⟨.ret value span, .ok (), s.expect D (received.getD .void) span.start⟩)
        (Visit.done (.ret value' span) ()) :=
    fun h => h.part (expect_repeats _ _ _ _ _)
  cases h with
  | @bare _ _ _ _ s₁ hm hd =>
    have hnone : Repeats s₁ s₁ (Visit.optional (annotateExpr ctx) none) (Visit.done none none) :=
      .silent (.refl s₁) fun _ _ => rfl
    refine (signature_repeats hd).step (hvalue hnone) fun q q' hq => ?_
    simp only [annotateReturn, hm, hq]
  | @value _ _ _ T _ value' _ s₁ s₂ hm hd hv =>
    have hsome : Repeats s₁ s₂ (Visit.optional (annotateExpr ctx) (some value'))
        (Visit.done (some value') (some T)) :=
      (annotateExpr_repeats hv.fresh hv.run).part (.silent (.refl s₂) fun _ _ => rfl)
    refine (signature_repeats hd).step (hvalue hsome) fun q q' hq => ?_
    simp only [annotateReturn, hm, hq]

def StmtRepeats (ctx : Context) (_ : Stmt) (s : State) (stmt' : Stmt) (s' : State) : Prop :=
  Repeats s s' (annotateStmt ctx stmt') (Visit.done stmt' ())

theorem OneByOne.stmtsRepeat {body body' : List Stmt}
    (h : OneByOne (StmtRepeats ctx) body s body' s') :
    Repeats s s' (annotateStmts ctx body') (Visit.done body' ()) := by
  induction h with
  | nil =>
    rw [annotateStmts]
    exact .silent (.refl _) fun _ _ => rfl
  | cons head _ ih =>
    rw [annotateStmts]
    exact Repeats.part head ih.within

theorem StmtStep.repeats {stmt stmt' : Stmt} {bodies : List Stmt}
    (h : StmtStep ctx stmt s s₁ bodies stmt')
    (hb : OneByOne (StmtRepeats ctx) stmt.bodies s₁ bodies s') :
    StmtRepeats ctx stmt s stmt' s' := by
  unfold StmtRepeats
  cases h with
  | block =>
    rw [annotateStmt]
    exact hb.stmtsRepeat.within
  | expr hv =>
    cases hb
    rw [annotateStmt]
    exact (annotateExpr_repeats hv.fresh hv.run).part (.silent (.refl _) fun _ _ => rfl)
  | locals hv =>
    cases hb
    rw [annotateStmt]
    exact (hv.imp fun _ _ {_ _ _} hx => hx.repeats).repeats.within
  | ifThen hc | loop hc =>
    obtain _ | ⟨hbody, ⟨⟩⟩ := hb
    rw [annotateStmt]
    exact hc.repeats.part hbody.within
  | ifElse hc =>
    obtain _ | ⟨hthen, _ | ⟨helse, ⟨⟩⟩⟩ := hb
    rw [annotateStmt]
    exact hc.repeats.part (Repeats.part hthen helse.within)
  | ret hv =>
    cases hb
    rw [annotateStmt]
    exact hv.repeats
  | empty =>
    cases hb
    rw [annotateStmt]
    exact .silent (.refl s) fun _ _ => rfl

theorem Passes.repeats {stmt stmt' : Stmt} (h : Passes ctx stmt s stmt' s') :
    StmtRepeats ctx stmt s stmt' s' := by
  refine Passes.induct (P := StmtRepeats ctx) ?_ h
  intro stmt stmt' bodies s s₁ s' _ hstep hbodies
  exact hstep.repeats (hbodies.imp fun _ _ {_ _ _} hx => hx.2)

theorem annotateStmts_repeats {body body' : List Stmt}
    (hf : Stmt.allFresh (Stmt.eraseAll body) = true)
    (h : annotateStmts ctx body s = ⟨body', .ok (), s'⟩) :
    Repeats s s' (annotateStmts ctx body') (Visit.done body' ()) :=
  ((oneByOne_of_annotateStmts hf h).imp fun _ _ {_ _ _} hx => hx.repeats).stmtsRepeat

end

theorem setType_of_some {s : State} {b : Symbol} {T U : Ty} (h : s.resolutions.type? b = some U) :
    s.setType b T = s := by
  simp [State.setType, Resolutions.setType, h]

theorem typeParams_repeats (params : List Param) : ∀ (Ts : List Ty) (s : State),
    Repeats s (typeParams params Ts s) (typeParams params Ts) id := by
  induction params with
  | nil => exact fun Ts s => .silent (.refl s) fun _ _ => rfl
  | cons p params ih =>
    rintro (_ | ⟨T, Ts⟩) s
    · exact .silent (.refl s) fun _ _ => rfl
    · cases hb : p.symbol with
      | none => simpa only [typeParams, hb] using ih Ts s
      | some b =>
        have hset : Repeats s (s.setType b T) (fun q => q.setType b T) id :=
          .silent (.setType s b T) fun q hq =>
            setType_of_some (hq.types (s.resolutions.type?_setType_self b T))
        simp only [typeParams, hb]
        exact hset.step (ih Ts _) fun q q' hq => by rw [show q.setType b T = q' from hq]

theorem annotateMethod_repeats {ctx : Context} {m m' : Method} {s s' : State}
    (hf : m.erase.isFresh = true) (h : annotateMethod ctx m s = ⟨m', .ok (), s'⟩) :
    Member.Alike (.method m) (.method m') ∧
      Repeats s s' (annotateMethod ctx m') (Visit.done m' ()) := by
  unfold annotateMethod at h
  split at h
  · next hb =>
    cases h
    refine ⟨.refl _, .silent (.refl s) fun q _ => ?_⟩
    simp only [annotateMethod, hb]
    rfl
  · next b hb =>
    split at h
    · cases h
    · next k hk =>
      rcases hsig : s.signature ctx.table b with ⟨Ts, T, s1⟩
      simp only [hsig] at h
      split at h
      · cases h
      · next body hbody =>
        obtain ⟨body', hstmts, rfl⟩ := Visit.within_ok_iff.mp h
        have hfb := isFresh_body hf hbody
        have hrest : Repeats s1 s'
            (fun q => (annotateStmts { ctx with scope := k, method := some b } body').within
              (fun body => { m with body := some body }) (typeParams m.params Ts q))
            (Visit.done { m with body := some body' } ()) :=
          (typeParams_repeats m.params Ts s1).step (annotateStmts_repeats hfb hstmts).within
            fun q q' hq => by rw [hq, id]
        refine ⟨.method, (signature_repeats hsig).step hrest fun q q' hq => ?_⟩
        simp only [annotateMethod, hb, hk, hq]

theorem FieldStep.repeats {ctx : Context} {type : TypeExpr} {v v' : Declarator} {s s' : State}
    (h : FieldStep ctx type v s v' s') :
    Repeats s s' (annotateFieldVar ctx type v') (Visit.done v' ()) := by
  cases h with
  | bare hi hd =>
    refine (declaredType_repeats rfl hd).step (.silent (.refl s') fun _ _ => rfl) fun q q' hq => ?_
    simp only [annotateFieldVar, hq, hi]
    rfl
  | @refused init init' D R _ s₁ _ hi hd hv =>
    have hdecl : Repeats s s₁ (declaredType ctx type { v with init := some init' })
        (fun q => (D, q)) := declaredType_repeats rfl hd
    have hreport : Repeats s₁ (s₁.report (.unsupported "field initializers") init.span.start)
        (fun q => q.report (.unsupported "field initializers") init.span.start) id :=
      .reports [_] fun _ => rfl
    have hinit : Repeats (s₁.report (.unsupported "field initializers") init.span.start) s'
        ((annotateExpr ctx init').part (fun init => { v with init := some init })
          fun init _ => Visit.done { v with init := some init } ())
        (Visit.done { v with init := some init' } ()) :=
      (annotateExpr_repeats hv.fresh hv.run).part (.silent (.refl s') fun _ _ => rfl)
    have hrest := hreport.step hinit fun q q' hq => congrArg
      ((annotateExpr ctx init').part (fun init => { v with init := some init })
        fun init _ => Visit.done { v with init := some init } ()) hq
    exact hdecl.step hrest fun q q' hq => by simp only [annotateFieldVar, hq, hv.outline.1]

theorem annotateField_repeats {ctx : Context} {d d' : VarDecl} {s s' : State}
    (hf : d.erase.isFresh = true) (h : annotateField ctx d s = ⟨d', .ok (), s'⟩) :
    Repeats s s' (annotateField ctx d') (Visit.done d' ()) := by
  obtain ⟨vars, rfl, hsteps⟩ := oneByOne_of_annotateField hf h
  exact (hsteps.imp fun _ _ {_ _ _} hx => hx.repeats).repeats.within

theorem annotateClassWith_repeats {ctx : Context} {head : ClassHead} {members : List Member}
    {body : Context → Visit State (List Member) Unit} {c : ClassDecl} {s s' : State}
    (again : Context → Visit State (List Member) Unit)
    (hbody : ∀ {k members' s'},
      body { ctx with scope := k, method := none } s = ⟨members', .ok (), s'⟩ →
        List.Forall₂ Member.Alike members members' ∧ (members' = c.members →
          Repeats s s' (again { ctx with scope := k, method := none }) (Visit.done members' ())))
    (h : annotateClassWith ctx head members body s = ⟨c, .ok (), s'⟩) :
    c.head = head ∧ List.Forall₂ Member.Alike members c.members ∧
      Repeats s s' (annotateClassWith ctx c.head c.members again) (Visit.done c ()) := by
  cases classStep_of_annotateClassWith h with
  | passed hb =>
    refine ⟨rfl, List.forall₂_same.mpr fun m _ => .refl m, .silent (.refl s) fun q _ => ?_⟩
    simp only [annotateClassWith, hb]
  | entered hb hk hm =>
    obtain ⟨halike, hrepeat⟩ := hbody hm
    refine ⟨rfl, halike, ?_⟩
    simp only [annotateClassWith, hb, hk]
    exact (hrepeat rfl).within

mutual

theorem annotateMember_repeats {ctx : Context} {m m' : Member} {s s' : State}
    (hf : m.erase.isFresh = true) (h : annotateMember ctx m s = ⟨m', .ok (), s'⟩) :
    m.Alike m' ∧ Repeats s s' (annotateMember ctx m') (Visit.done m' ()) := by
  cases m with
  | method m =>
    rw [annotateMember] at h
    rw [Member.erase, Member.isFresh] at hf
    obtain ⟨m', hm, rfl⟩ := Visit.within_ok_iff.mp h
    obtain ⟨halike, hrepeat⟩ := annotateMethod_repeats hf hm
    rw [annotateMember]
    exact ⟨halike, hrepeat.within⟩
  | field d =>
    rw [annotateMember] at h
    rw [Member.erase, Member.isFresh] at hf
    obtain ⟨d', hd, rfl⟩ := Visit.within_ok_iff.mp h
    rw [annotateMember]
    exact ⟨.field, (annotateField_repeats hf hd).within⟩
  | nested head members =>
    rw [annotateMember] at h
    rw [Member.erase, Member.isFresh, Bool.and_eq_true] at hf
    obtain ⟨c, hc, rfl⟩ := Visit.within_ok_iff.mp h
    obtain ⟨hhead, -, hrepeat⟩ := annotateClassWith_repeats
      (fun ctx => annotateMembers ctx c.members) (fun hm => by
        obtain ⟨halike, hrepeat⟩ := annotateMembers_repeats hf.2 hm
        exact ⟨halike, fun heq => heq ▸ hrepeat⟩) hc
    rw [annotateMember, hhead]
    exact ⟨.nested, hhead ▸ hrepeat.within⟩

theorem annotateMembers_repeats {ctx : Context} {ms ms' : List Member} {s s' : State}
    (hf : Member.allFresh (Member.eraseAll ms) = true)
    (h : annotateMembers ctx ms s = ⟨ms', .ok (), s'⟩) :
    List.Forall₂ Member.Alike ms ms' ∧
      Repeats s s' (annotateMembers ctx ms') (Visit.done ms' ()) := by
  cases ms with
  | nil =>
    rw [annotateMembers] at h
    cases h
    rw [annotateMembers]
    exact ⟨.nil, .silent (.refl s) fun _ _ => rfl⟩
  | cons m rest =>
    rw [annotateMembers] at h
    rw [Member.eraseAll, Member.allFresh, Bool.and_eq_true] at hf
    obtain ⟨m', _, s1, h1, h⟩ := Visit.part_ok_iff.mp h
    obtain ⟨rest', h2, rfl⟩ := Visit.within_ok_iff.mp h
    obtain ⟨halike, hrepeat⟩ := annotateMember_repeats hf.1 h1
    obtain ⟨halikes, hrepeats⟩ := annotateMembers_repeats hf.2 h2
    rw [annotateMembers]
    exact ⟨.cons halike halikes, hrepeat.part hrepeats.within⟩

end

theorem annotateUnit_repeats {u u' : CompilationUnit} {t : Table} {choice : EntryChoice}
    {s s' : State} (hf : u.erase.isFresh = true)
    (h : annotateUnit u t choice s = ⟨u', .ok (), s'⟩) :
    Repeats s s' (annotateUnit u' t choice) (Visit.done u' ()) := by
  obtain ⟨_ | ⟨head, members⟩⟩ := u
  · cases h
  simp only [CompilationUnit.isFresh, CompilationUnit.erase, Option.map_some, Option.all_some,
    ClassDecl.erase, Bool.and_eq_true] at hf
  obtain ⟨⟨head', members'⟩, hc, rfl⟩ := Visit.within_ok_iff.mp h
  obtain ⟨hhead, halike, hrepeat⟩ := annotateClassWith_repeats
    (fun ctx => annotateMembers ctx members') (fun hm => by
      obtain ⟨halike, hrepeat⟩ := annotateMembers_repeats hf.2 hm
      exact ⟨halike, fun heq => heq ▸ hrepeat⟩) hc
  have hentry := choice.resolve_of_alike head head' halike
  change Repeats s s' ((annotateClass ⟨t, Table.root, none, choice.resolve ⟨head', members'⟩⟩
    ⟨head', members'⟩).within fun top => CompilationUnit.mk (some top)) _
  rw [hentry]
  exact hrepeat.within

end Typing

open Typing

/-- Typing a unit again does no harm. It succeeds, leaves the tree and the records exactly as they
were, and adds to whatever was reported in between nothing but reports that the first run made, in
this order. The code that follows is the same. -/
theorem recheck_harmless {u registered u' : CompilationUnit} {t : Table}
    {reports : List Diagnostic} {s : Registration.State} {records : Resolutions}
    {choice : EntryChoice} {s' : State} (hf : u.isFresh = true)
    (hr : Registration.registerUnit u t reports = ⟨registered, .ok (), s⟩)
    (hv : annotateUnit registered s.table choice ⟨records, s.diagnostics⟩ = ⟨u', .ok (), s'⟩) :
    ∃ first, s'.diagnostics = s.diagnostics ++ first ∧ ∀ sink,
      let second := annotateUnit u' s.table choice ⟨s'.resolutions, sink⟩
      second.answer = .ok () ∧ second.node = u' ∧ second.state.resolutions = s'.resolutions ∧
        (∃ again, second.state.diagnostics = sink ++ again ∧ again.Sublist first ∧
          (first = [] → again = [])) ∧
        ∀ options, Lowering.assemble second.node second.state.resolutions options =
          Lowering.assemble u' s'.resolutions options := by
  have hfresh : registered.erase.isFresh = true := by
    have herase := Registration.registerUnit_erase u t reports
    rw [hr] at herase
    rw [herase]
    exact CompilationUnit.isFresh_erase hf
  obtain ⟨first, hfirst, hsecond⟩ := (annotateUnit_repeats hfresh hv).again
  refine ⟨first, hfirst, fun sink => ?_⟩
  obtain ⟨again, hsub, hagain⟩ := hsecond ⟨s'.resolutions, sink⟩ (.refl _)
  rw [hagain]
  refine ⟨rfl, rfl, rfl, ⟨again, rfl, hsub, fun hnil => ?_⟩, fun _ => rfl⟩
  exact List.sublist_nil.mp (hnil ▸ hsub)

/-- Thirteen reports the first time, and three of them again. -/
theorem recheck_harmless_troubled : ∃ registered s u' s' first again,
    Registration.registerUnit Sample.troubled (.withSystem 3) [] = ⟨registered, .ok (), s⟩ ∧
      annotateUnit registered s.table .firstStatic ⟨.empty, s.diagnostics⟩ = ⟨u', .ok (), s'⟩ ∧
      s'.diagnostics = s.diagnostics ++ first ∧ first.length = 13 ∧
      (annotateUnit u' s.table .firstStatic s').answer = .ok () ∧
      (annotateUnit u' s.table .firstStatic s').node = u' ∧
      (annotateUnit u' s.table .firstStatic s').state.resolutions = s'.resolutions ∧
      (annotateUnit u' s.table .firstStatic s').state.diagnostics = s'.diagnostics ++ again ∧
      again.length = 3 ∧ again.Sublist first := by
  have hreg : (Registration.registerUnit Sample.troubled (.withSystem 3) []).answer.isOk = true ∧
      (Registration.registerUnit Sample.troubled (.withSystem 3) []).state.diagnostics.length =
        3 := by decide +kernel
  have htyp : ∀ r, Registration.registerUnit Sample.troubled (.withSystem 3) [] = r →
      ∀ v, annotateUnit r.node r.state.table .firstStatic ⟨.empty, r.state.diagnostics⟩ = v →
        v.answer.isOk = true ∧ v.state.diagnostics.length = 16 ∧
          (annotateUnit v.node r.state.table .firstStatic v.state).state.diagnostics.length =
            19 := by
    rintro _ rfl _ rfl
    decide +kernel
  generalize hr : Registration.registerUnit Sample.troubled (.withSystem 3) [] = r at hreg
  obtain ⟨registered, _ | ⟨⟩, s⟩ := r
  · cases hreg.1
  have hvisit := htyp _ hr _ rfl
  generalize hv : annotateUnit registered s.table .firstStatic ⟨.empty, s.diagnostics⟩ = v at hvisit
  obtain ⟨u', _ | ⟨⟩, s'⟩ := v
  · cases hvisit.1
  obtain ⟨first, hfirst, hsecond⟩ := recheck_harmless (by decide) hr hv
  obtain ⟨hok, hnode, hrecords, ⟨again, hagain, hsub, -⟩, -⟩ := hsecond s'.diagnostics
  refine ⟨registered, s, u', s', first, again, rfl, hv, hfirst, ?_, hok, hnode, hrecords, hagain,
    ?_, hsub⟩
  · have hlen := hvisit.2.1
    rw [hfirst, List.length_append, hreg.2] at hlen
    exact Nat.add_left_cancel hlen
  · have hlen := (congrArg List.length hagain).symm.trans hvisit.2.2
    rw [List.length_append, hvisit.2.1] at hlen
    exact Nat.add_left_cancel hlen

end ClassLang
