import ClassLang.Proofs.Verified
import Mathlib.Data.List.Nodup
import Std.Data.String.ToNat

/-! Where positions run out. Parameters are counted in 16 bits without a check, so the parameter
after the first 65536 has the position of the first one. A method that returns it is accepted all
the same, and its code reads another parameter. -/
namespace ClassLang

open Assembly

namespace Table

def put (t : Table) (b : Symbol) : Table :=
  { t with
    scopes := t.scopes.modify t.current fun scope => scope.add b
    nextSymbol := t.nextSymbol + 1 }

theorem members_put {t : Table} (hc : t.current < t.scopes.length) (b : Symbol) (j : ScopeId)
    (name : String) :
    (t.put b).members j name =
      if j = t.current ∧ name = b.name then t.members j name ++ [b] else t.members j name := by
  by_cases hj : j = t.current
  · subst hj
    have hk : t.scopes[t.current]? = some t.scopes[t.current] := List.getElem?_eq_getElem hc
    by_cases hn : name = b.name
    · simp [put, members, hk, Scope.get_add, hn]
    · simp [put, members, hk, Scope.get_add, hn]
  · simp [put, members, hj, Ne.symm hj]

theorem members_opened {t : Table} (hc : t.current < t.scopes.length) (name wanted : String)
    (b : Symbol) :
    (((t.openScope name).2.put b).moveTo t.scopes.length).members t.scopes.length wanted = [] := by
  have hcur : (t.openScope name).2.current < (t.openScope name).2.scopes.length := by
    simp only [openScope, List.length_append, List.length_singleton]
    exact Nat.lt_succ_of_lt hc
  rw [members_moveTo, members_put hcur, if_neg fun h => Nat.ne_of_gt hc h.1, members_openScope]
  simp [members]

theorem length_opened (t : Table) (name : String) (b : Symbol) :
    ((t.openScope name).2.put b).scopes.length = t.scopes.length + 1 := by
  simp [put, openScope]

theorem Sound.visibleFrom_of_members {t : Table} (hs : t.Sound) {scope : ScopeId} {name : String}
    {b : Symbol} (h : t.members scope name = [b]) : t.visibleFrom scope name = [b] := by
  rw [hs.visibleFrom_eq]
  cases t.parent? scope with
  | none => exact h
  | some parent => simp [h]

end Table

namespace Registration

section

variable {s : State}

theorem declare_free {name : Name} {details : Details} {scope : Option ScopeId}
    (h : s.table.members s.table.current name.text = []) :
    s.declare name details scope =
      ({ s with table := s.table.put (made s name details scope) },
        some (made s name details scope)) := by
  have hbind : (s.table.newSymbol name.text details scope name.span.start).2.bind
      (made s name details scope) = .ok (s.table.put (made s name details scope)) := by
    unfold Table.bind
    rw [Table.members_newSymbol]
    change (if Table.admits (s.table.members s.table.current name.text) _ then _ else _) = _
    rw [h]
    rfl
  unfold State.declare
  dsimp only
  split
  · next table hb =>
    cases hbind.symm.trans hb
    rfl
  · next hb => cases hbind.symm.trans hb

theorem registerParam_free {i : UInt16} {p : Param} (hp : p.symbol = none)
    (h : s.table.members s.table.current p.name.text = []) :
    registerParam i p s =
      ⟨{ p with symbol := some (made s p.name (.var p.type (.param i)) none) }, .ok (),
        { s with table := s.table.put (made s p.name (.var p.type (.param i)) none) }⟩ := by
  have hfree : (s.table.localsOf p.name.text .var).isEmpty = true := by
    simp [Table.localsOf, h]
  simp only [registerParam, hfree, if_true, declare_free h, fillSlot, hp]

/-- Parameters with names of their own are registered without a word. -/
theorem registerParams_free {params : List Param} :
    ∀ {i : UInt16} {s : State}, s.table.current < s.table.scopes.length →
      (∀ p ∈ params, p.symbol = none) → (params.map fun p => p.name.text).Nodup →
      (∀ p ∈ params, s.table.members s.table.current p.name.text = []) →
      ∃ params' s', registerParams i params s = ⟨params', .ok (), s'⟩ ∧
        s'.diagnostics = s.diagnostics ∧ params'.map Param.erase = params.map Param.erase ∧
        (∀ p ∈ params', ∃ b, p.symbol = some b ∧
          s'.table.members s.table.current p.name.text = [b]) ∧
        ∀ name, (∀ p ∈ params, p.name.text ≠ name) →
          s'.table.members s.table.current name = s.table.members s.table.current name := by
  induction params with
  | nil =>
    intro i s _ _ _ _
    exact ⟨[], s, rfl, rfl, rfl, by simp, fun _ _ => rfl⟩
  | cons p rest ih =>
    intro i s hc hf hn hm
    rw [List.map_cons, List.nodup_cons] at hn
    have hother : ∀ q ∈ rest, q.name.text ≠ p.name.text := fun q hq he =>
      hn.1 (he ▸ List.mem_map_of_mem hq)
    obtain ⟨b, hname, hfirst⟩ : ∃ b, b.name = p.name.text ∧ registerParam i p s =
        ⟨{ p with symbol := some b }, .ok (), { s with table := s.table.put b }⟩ :=
      ⟨_, rfl, registerParam_free (hf p List.mem_cons_self) (hm p List.mem_cons_self)⟩
    have hput := Table.members_put hc b s.table.current
    rw [hname] at hput
    have hfree : ∀ q ∈ rest, (s.table.put b).members s.table.current q.name.text = [] := by
      intro q hq
      rw [hput, if_neg fun h => hother q hq h.2]
      exact hm q (List.mem_cons_of_mem _ hq)
    have hc' : (s.table.put b).current < (s.table.put b).scopes.length := by
      simpa [Table.put] using hc
    obtain ⟨rest', s', hr, hd, he, hb, hk⟩ := @ih (i + 1) { s with table := s.table.put b } hc'
      (fun q hq => hf q (List.mem_cons_of_mem _ hq)) hn.2 hfree
    refine ⟨{ p with symbol := some b } :: rest', s', ?_, hd, ?_, ?_, ?_⟩
    · exact Visit.part_ok_iff.mpr ⟨_, (), _, hfirst, Visit.within_ok_iff.mpr ⟨rest', hr, rfl⟩⟩
    · simp only [List.map_cons, he]
      rfl
    · rw [List.forall_mem_cons]
      refine ⟨⟨b, rfl, ?_⟩, hb⟩
      refine (hk p.name.text hother).trans ((hput _).trans ?_)
      rw [if_pos ⟨rfl, rfl⟩, hm p List.mem_cons_self]
      rfl
    · intro name hne
      have hnot : ¬ (s.table.current = s.table.current ∧ name = p.name.text) := fun h =>
        hne p List.mem_cons_self h.2.symm
      exact (hk name fun q hq => hne q (List.mem_cons_of_mem _ hq)).trans
        ((hput name).trans (if_neg hnot))

theorem registerClassWith_free {path : List String} {head : ClassHead} {members : List Member}
    {body : List String → Visit State (List Member) Unit}
    (hm : modifierProblems head.name.text head.modifiers = []) (hu : unsupportedHead head = [])
    (hs : head.symbol = none) (hfree : s.table.members s.table.current head.name.text = []) :
    ∃ b, b.scope = some s.table.scopes.length ∧
      registerClassWith path head members body s =
        (body (path ++ [head.name.text])).part (ClassDecl.mk { head with symbol := some b })
          (fun members _ s' =>
            ⟨⟨{ head with symbol := some b }, members⟩, .ok (), s'.moveTo s.table.current⟩)
          ⟨((s.table.openScope head.name.text).2.put b).moveTo s.table.scopes.length,
            s.diagnostics, s.nextSlot⟩ := by
  refine ⟨made { s with table := (s.table.openScope head.name.text).2 } head.name
    (.cls (path ++ [head.name.text]) head.modifiers false) (some s.table.scopes.length), rfl, ?_⟩
  have hopened : (s.table.openScope head.name.text).2.members
      (s.table.openScope head.name.text).2.current head.name.text = [] := by
    rw [Table.members_openScope]
    exact hfree
  have hdeclare := @declare_free { s with table := (s.table.openScope head.name.text).2 } head.name
    (.cls (path ++ [head.name.text]) head.modifiers false) (some s.table.scopes.length) hopened
  have hreport : s.reportAll (modifierProblems head.name.text head.modifiers) head.name.span.start =
      s := by
    rw [hm]
    simp [State.reportAll, Diagnostic.allAt]
  unfold registerClassWith
  simp only [hreport, hu, List.append_nil]
  rw [if_pos (by rw [hfree]; rfl)]
  split
  · next hd => cases hdeclare.symm.trans hd
  · next hd =>
    cases hdeclare.symm.trans hd
    simp only [hs, fillSlot]
    rfl

theorem registerMethod_free {path : List String} {m : Method} {body : List Stmt}
    (hm : modifierProblems m.name.text m.modifiers = []) (hs : m.symbol = none)
    (hc : s.table.current < s.table.scopes.length)
    (hfree : s.table.members s.table.current m.name.text = [])
    (hf : ∀ p ∈ m.params, p.symbol = none) (hn : (m.params.map fun p => p.name.text).Nodup)
    (hb : m.body = some body) (hbody : registerStmts body = Visit.done body ()) :
    ∃ b params s', b.scope = some s.table.scopes.length ∧
      b.details = .method (m.params.map Param.type) m.returns m.modifiers path none ∧
      registerMethod path m s = ⟨{ m with symbol := some b, params }, .ok (), s'⟩ ∧
      s'.diagnostics = s.diagnostics ∧ params.map Param.erase = m.params.map Param.erase ∧
      ∀ p ∈ params, ∃ b, p.symbol = some b ∧
        s'.table.members s.table.scopes.length p.name.text = [b] := by
  have hopened : (s.table.openScope m.name.text).2.members
      (s.table.openScope m.name.text).2.current m.name.text = [] := by
    rw [Table.members_openScope]
    exact hfree
  have hdeclare := @declare_free { s with table := (s.table.openScope m.name.text).2 } m.name
    (.method (m.params.map Param.type) m.returns m.modifiers path none)
    (some s.table.scopes.length) hopened
  obtain ⟨b, hscope, hdet, hdeclare⟩ : ∃ b : Symbol, b.scope = some s.table.scopes.length ∧
      b.details = .method (m.params.map Param.type) m.returns m.modifiers path none ∧
      State.declare { s with table := (s.table.openScope m.name.text).2 } m.name
        (.method (m.params.map Param.type) m.returns m.modifiers path none)
        (some s.table.scopes.length) =
      (⟨(s.table.openScope m.name.text).2.put b, s.diagnostics, s.nextSlot⟩, some b) :=
    ⟨_, rfl, rfl, hdeclare⟩
  obtain ⟨params, s', hp, hd, he, hbound, -⟩ := @registerParams_free m.params 0
    ⟨((s.table.openScope m.name.text).2.put b).moveTo s.table.scopes.length, s.diagnostics, 0⟩
    (Nat.lt_of_lt_of_eq (Nat.lt_succ_self _) (Table.length_opened s.table m.name.text b).symm) hf hn
    fun p _ => Table.members_opened hc _ _ _
  refine ⟨b, params, s'.moveTo s.table.current, hscope, hdet, ?_, hd, he, hbound⟩
  have hreport : s.reportAll (modifierProblems m.name.text m.modifiers) m.name.span.start = s := by
    rw [hm]
    simp [State.reportAll, Diagnostic.allAt]
  unfold registerMethod
  simp only [hreport, Table.localsOf, hfree, List.filter_nil, List.any_nil]
  rw [if_neg Bool.false_ne_true]
  split
  · next hd => cases hdeclare.symm.trans hd
  · next hd =>
    cases hdeclare.symm.trans hd
    simp only [hs, fillSlot]
    refine Visit.part_ok_iff.mpr ⟨_, (), s', Visit.part_ok_iff.mpr ⟨params, (), s', hp, ?_⟩, rfl⟩
    simp only [hb, hbody]
    rfl

end

end Registration

namespace Typing

def IsKeyword (type : TypeExpr) : Prop := ∃ word span, type = .keyword word span

theorem resolve_keyword {s : State} {t : Table} {k : ScopeId} {type : TypeExpr}
    (h : IsKeyword type) : (s.resolve t k type).2 = s := by
  obtain ⟨word, span, rfl⟩ := h
  rfl

theorem resolveAll_keywords {s : State} {t : Table} {k : ScopeId} {types : List TypeExpr}
    (h : ∀ type ∈ types, IsKeyword type) : (s.resolveAll t k types).2 = s := by
  induction types with
  | nil => rfl
  | cons type rest ih =>
    rw [List.forall_mem_cons] at h
    simp only [State.resolveAll, resolve_keyword h.1]
    exact ih h.2

theorem signature_keywords {s : State} {t : Table} {b : Symbol} {params : List TypeExpr}
    {returns : TypeExpr} {ms : List Modifier} {owner : List String} {ro : Option Routine}
    (hd : b.details = .method params returns ms owner ro) (hp : ∀ type ∈ params, IsKeyword type)
    (hr : IsKeyword returns) : (s.signature t b).2.2.diagnostics = s.diagnostics := by
  have hparams : ∀ s : State, (s.paramTypes t b params).2.diagnostics = s.diagnostics := by
    intro s
    unfold State.paramTypes
    split
    · rfl
    · simp only [State.setParams, resolveAll_keywords hp]
  have hresult : ∀ s : State, (s.resultType t b returns).2.diagnostics = s.diagnostics := by
    intro s
    unfold State.resultType
    split
    · rfl
    · simp only [State.setType, resolve_keyword hr]
  simp only [State.signature, hd, hresult, hparams]

theorem signature_recorded {s : State} {t : Table} {b : Symbol} {Ts : List Ty} {T : Ty}
    (hm : b.isMethod = true) (hTs : s.resolutions.params? b = some Ts)
    (hT : s.resolutions.type? b = some T) : s.signature t b = (Ts, T, s) := by
  unfold Symbol.isMethod Symbol.kind at hm
  rcases hd : b.details with ⟨_, _, _⟩ | ⟨_, _, _, _, _⟩ | ⟨_, _⟩
  · simp [hd] at hm
  · simp [State.signature, hd, State.paramTypes, hTs, State.resultType, hT]
  · simp [hd] at hm

theorem annotateExpr_param {ctx : Context} {q : Symbol} {name : Name} {type : TypeExpr}
    {index : UInt16} {s : State} {T : Ty} (hvis : ctx.table.visibleFrom ctx.scope name.text = [q])
    (hd : q.details = .var type (.param index)) (hT : s.resolutions.type? q = some T) :
    annotateExpr ctx (.name ⟨[name], .null, none⟩ ⟨.null, none⟩) s =
      ⟨.name ⟨[name], .null, some q⟩ ⟨.null, some T⟩, .ok T, s⟩ := by
  have hbind : bindName ctx ⟨[name], .null, none⟩ s =
      ⟨⟨[name], .null, some q⟩, .ok (some q), s⟩ := by
    simp [bindName, resolvePath, hvis, resolveMembers, fillSlot]
  have hjudge : nameJudgement ctx ⟨[name], .null, some q⟩ q s = (.found T, s) := by
    simp [nameJudgement, nameProblem?, Symbol.kind, hd, State.varType, hT]
  rw [annotateExpr]
  simp only [Expr.type, Expr.note, annotateName, Visit.part, hbind, hjudge]
  rfl

def returning (p : Param) (symbol : Option Symbol) (type : Option Ty) : List Stmt :=
  [.ret (some (.name ⟨[p.name], .null, symbol⟩ ⟨.null, type⟩)) .null]

theorem annotateStmts_returning {ctx : Context} {b q : Symbol} {p : Param} {s : State}
    {Ts : List Ty} {T : Ty} (hm : ctx.method = some b)
    (hsig : s.signature ctx.table b = (Ts, T, s))
    (hname : annotateExpr ctx (.name ⟨[p.name], .null, none⟩ ⟨.null, none⟩) s =
      ⟨.name ⟨[p.name], .null, some q⟩ ⟨.null, some T⟩, .ok T, s⟩) :
    annotateStmts ctx (returning p none none) s =
      ⟨returning p (some q) (some T), .ok (), s⟩ := by
  have hexpect : s.expect T T Span.null.start = s := by
    simp [State.expect, Ty.convertsTo, Ty.same_refl]
  simp only [returning, annotateStmts, annotateStmt, Visit.part, Visit.within, annotateReturn, hm,
    hsig, Visit.optional, hname, Visit.done, Option.getD_some, hexpect]

theorem annotateMethod_returning {ctx : Context} {tag : Nat} {ds : List Decl} {path : List String}
    {m : Method} {b q : Symbol} {k : ScopeId} {p : Param} {s : State}
    (h : Declares ctx.table tag ds) (hm : .method path m ∈ ds) (hb : m.symbol = some b)
    (hk : b.scope = some k) (hf : Faithful ctx.table s)
    (hkeyword : ∀ x ∈ m.params, IsKeyword x.type) (hret : m.returns = p.type) (hp : p ∈ m.params)
    (hq : p.symbol = some q) (hvis : ctx.table.visibleFrom k p.name.text = [q])
    (hbody : m.body = some (returning p none none)) :
    ∃ T s', annotateMethod ctx m s = ⟨{ m with body := some (returning p (some q) (some T)) },
      .ok (), s'⟩ ∧ s'.diagnostics = s.diagnostics := by
  obtain ⟨hbound, hmeth, hdet, -, -, hparams, -⟩ := method_declared h hm hb
  obtain ⟨hqb, hqw⟩ := hparams p hp q hq
  rcases hsig : s.signature ctx.table b with ⟨Ts, T, s1⟩
  have hd1 : s1.diagnostics = s.diagnostics := by
    have hquiet := signature_keywords (s := s) (t := ctx.table) hdet
      (by simpa using fun x hx => hkeyword x hx) (hret ▸ hkeyword p hp)
    rwa [hsig] at hquiet
  obtain ⟨hg1, hTs, hT⟩ := signature_grows h.sound hbound hmeth hsig
  obtain ⟨params, _, _, _, _, hdet', rfl, htold⟩ := (hg1.faithful hf).params hbound hTs
  rw [hdet] at hdet'
  cases hdet'
  rw [List.map_map] at hTs hsig
  obtain ⟨hg2, hsome⟩ := typeParams_grows h.sound b.declaredIn m.params (s := s1) hparams
    fun x hx => htold x.type (List.mem_map_of_mem hx)
  have hf2 := hg2.faithful (hg1.faithful hf)
  obtain ⟨U, hU⟩ := Option.isSome_iff_exists.mp (hsome p hp q hq)
  obtain ⟨_, _, hw, rfl, -⟩ := hf2.types hqb hU
  obtain ⟨rfl, rfl⟩ := hw.unique h.sound hqw
  obtain ⟨_, _, hw', rfl, -⟩ := (hg1.faithful hf).types hbound hT
  simp only [Writes, hdet] at hw'
  obtain ⟨rfl, rfl⟩ := hw'
  have hplaced := h.placed _ hm
  simp only [Decl.Placed, hb] at hplaced
  obtain ⟨-, _, -, hpp, -⟩ := hplaced
  obtain ⟨-, -, index, hqd⟩ := hpp.of_mem hp hq
  have hrec := signature_recorded (t := ctx.table) hmeth (hg2.extends_.params hTs)
    (hg2.extends_.types hT)
  have hname :=
    @annotateExpr_param { ctx with scope := k, method := some b } _ _ _ _ _ _ hvis hqd hU
  rw [hret] at hrec
  have hstmts := @annotateStmts_returning { ctx with scope := k, method := some b } _ _ _ _ _ _ rfl
    hrec hname
  refine ⟨meaning ctx.table b.declaredIn p.type, typeParams m.params
    (m.params.map fun x => meaning ctx.table b.declaredIn x.type) s1, ?_,
    typeParams_diagnostics.trans hd1⟩
  simp only [annotateMethod, hb, hk, hsig, hbody]
  exact Visit.within_ok_iff.mpr ⟨_, hstmts, rfl⟩

end Typing

theorem Accepted.keyword_type {t : Table} {target : Lowering.Target} {ds : List Decl} {img : Image}
    (h : Accepted t target ds img) {b : Symbol} {k : ScopeId} {word : Keyword} {span : Span}
    {a : AsmType} (hb : t.Bound b) (hw : Typing.Writes t b k (.keyword word span))
    (ha : Lowering.symbolType target.resolutions b = .ok a) :
    (Ty.ofKeyword word).toAsm = .ok a := by
  obtain ⟨T, hT, hasm⟩ := Lowering.symbolType_eq_ok_iff.mp ha
  obtain ⟨s, hr, hf⟩ := h.faithful
  obtain ⟨k', type, hw', rfl, -⟩ := hf.types hb (hr ▸ hT)
  obtain ⟨rfl, rfl⟩ := hw'.unique h.declares.sound hw
  exact hasm

theorem Param.eq_of_erase_eq {p p' : Param} (h : p.erase = p'.erase) :
    p.name = p'.name ∧ p.type = p'.type := by
  injection h with hname htype
  exact ⟨hname, htype⟩

namespace Wide

open Typing

def head : ClassHead := ⟨.plain "Wide", [], none, [], none⟩

def method (front : List Param) (last : Param) : Method :=
  ⟨.plain "last", [.static], last.type, front ++ [last], some (returning last none none), none⟩

def unit (front : List Param) (last : Param) : CompilationUnit :=
  ⟨some ⟨head, [.method (method front last)]⟩⟩

variable {front : List Param} {last : Param}

/-- Registration finds nothing wrong, and the scope of the method holds each parameter once. -/
theorem registered (hf : ∀ p ∈ front ++ [last], p.symbol = none)
    (hn : ((front ++ [last]).map fun p => p.name.text).Nodup) :
    ∃ c b params s, Registration.registerUnit (unit front last) (.withSystem 0) [] =
        ⟨⟨some ⟨{ head with symbol := some c },
          [.method { method front last with symbol := some b, params }]⟩⟩, .ok (), s⟩ ∧
      s.diagnostics = [] ∧ c.scope = some 2 ∧ b.scope = some 3 ∧
      params.map Param.erase = (front ++ [last]).map Param.erase ∧
      ∀ p ∈ params, ∃ q, p.symbol = some q ∧ s.table.members 3 p.name.text = [q] := by
  have hroot : ((Table.withSystem 0).moveTo Table.root).current <
      ((Table.withSystem 0).moveTo Table.root).scopes.length := by
    decide
  have hfree : ((Table.withSystem 0).moveTo Table.root).members 0 "Wide" = [] := by
    rw [Table.members_moveTo, Table.members_withSystem]
    rfl
  obtain ⟨c, hc, hclass⟩ := @Registration.registerClassWith_free
    (.start ((Table.withSystem 0).moveTo Table.root) []) [] head [.method (method front last)]
    (fun path => Registration.registerMembers path [.method (method front last)]) rfl rfl rfl hfree
  obtain ⟨b, params, s, hb, -, hmethod, hd, he, hparams⟩ := @Registration.registerMethod_free
    ⟨((((Table.withSystem 0).moveTo Table.root).openScope "Wide").2.put c).moveTo 2, [], 0⟩ ["Wide"]
    (method front last) (returning last none none) rfl rfl
    (Nat.lt_of_lt_of_eq (Nat.lt_succ_self 2)
      (Table.length_opened ((Table.withSystem 0).moveTo Table.root) "Wide" c).symm)
    (Table.members_opened hroot _ _ _) hf hn rfl rfl
  refine ⟨c, b, params, (s.moveTo 0).moveTo 0, ?_, hd, hc, hb, he, hparams⟩
  refine Visit.part_ok_iff.mpr ⟨_, (), s.moveTo 0, ?_, rfl⟩
  refine hclass.trans (Visit.part_ok_iff.mpr ⟨_, (), s, ?_, rfl⟩)
  exact Visit.part_ok_iff.mpr ⟨_, (), s, Visit.within_ok_iff.mpr ⟨_, hmethod, rfl⟩, rfl⟩

theorem isFresh_unit (hf : ∀ p ∈ front ++ [last], p.symbol = none) :
    (unit front last).isFresh = true := by
  have hparams : (front ++ [last]).all (fun p => p.symbol.isNone) = true :=
    List.all_eq_true.mpr fun p hp => by rw [hf p hp]; rfl
  have hm : (method front last).isFresh = true := by
    rw [Method.isFresh, method, hparams]
    rfl
  simp only [CompilationUnit.isFresh, unit, Option.all_some, Member.allFresh, Member.isFresh, hm]
  rfl

theorem isWellFormed_unit (hk : ∀ p ∈ front ++ [last], IsKeyword p.type) :
    (unit front last).isWellFormed = true := by
  have htype : ∀ p ∈ front ++ [last], p.type.isWellFormed = true := by
    intro p hp
    obtain ⟨word, span, hw⟩ := hk p hp
    rw [hw]
    rfl
  have hm : (method front last).isWellFormed = true := by
    rw [Method.isWellFormed, method, List.all_eq_true.mpr htype, htype last (by simp)]
    rfl
  simp only [CompilationUnit.isWellFormed, unit, Option.any_some, Member.allWellFormed,
    Member.isWellFormed, hm]
  rfl

/-- The unit is accepted, however many parameters there are. -/
theorem accepted (options : Options) (hf : ∀ p ∈ front ++ [last], p.symbol = none)
    (hn : ((front ++ [last]).map fun p => p.name.text).Nodup)
    (hk : ∀ p ∈ front ++ [last], IsKeyword p.type) :
    ∃ listing m q T, (compile (unit front last) options).result = .ok (some listing) ∧
      Decl.methods (compile (unit front last) options).unit.decls = [(["Wide"], m)] ∧
      Decl.fields (compile (unit front last) options).unit.decls = [] ∧
      m.modifiers = [.static] ∧ m.returns = last.type ∧
      m.params.map Param.erase = (front ++ [last]).map Param.erase ∧
      m.body = some (returning last (some q) (some T)) ∧
      ∃ p, m.params[front.length]? = some p ∧ p.symbol = some q ∧ p.name = last.name := by
  obtain ⟨c, b, params, s, hreg, hd, hc, hb, he, hparams⟩ := registered hf hn
  have hfresh := isFresh_unit hf
  obtain ⟨-, hregs⟩ := Registration.registerUnit_registers hfresh hreg
  have hlast : (params.map Param.erase)[front.length]? = some last.erase := by
    rw [he]
    simp
  rw [List.getElem?_map, Option.map_eq_some_iff] at hlast
  obtain ⟨p, hat, hpe⟩ := hlast
  obtain ⟨hname, htype⟩ := Param.eq_of_erase_eq hpe
  have hp := List.mem_of_getElem? hat
  obtain ⟨q, hq, hmem⟩ := hparams p hp
  have hkeyword : ∀ x ∈ params, IsKeyword x.type := by
    intro x hx
    have hxe := List.mem_map_of_mem (f := Param.erase) hx
    rw [he] at hxe
    obtain ⟨y, hy, hyx⟩ := List.mem_map.mp hxe
    exact (Param.eq_of_erase_eq hyx).2 ▸ hk y hy
  have hmethod := @annotateMethod_returning
    ⟨s.table, 2, none, options.entry.resolve ⟨{ head with symbol := some c },
      [.method { method front last with symbol := some b, params }]⟩⟩ 0 _ ["Wide"]
    { method front last with symbol := some b, params } b q 3 p ⟨.empty, s.diagnostics⟩
    hregs.declares
    (by simp [CompilationUnit.decls, ClassDecl.decls, Member.allDecls, Member.decls, head,
      Name.plain])
    rfl hb (faithful_empty _ _) hkeyword htype.symm hp hq
    (hregs.declares.sound.visibleFrom_of_members hmem)
    (by simp [method, returning, hname])
  obtain ⟨T, s₂, hrun, hd₂⟩ := hmethod
  have htyp : annotateUnit ⟨some ⟨{ head with symbol := some c },
      [.method { method front last with symbol := some b, params }]⟩⟩ s.table options.entry
      ⟨.empty, s.diagnostics⟩ = ⟨⟨some ⟨{ head with symbol := some c },
      [.method { method front last with
        symbol := some b, params, body := some (returning p (some q) (some T)) }]⟩⟩, .ok (),
          s₂⟩ := by
    refine Visit.within_ok_iff.mpr ⟨_, ?_, rfl⟩
    simp only [annotateClass, annotateClassWith, hc]
    refine Visit.within_ok_iff.mpr ⟨_, ?_, rfl⟩
    exact Visit.part_ok_iff.mpr ⟨_, (), s₂, Visit.within_ok_iff.mpr ⟨_, hrun, rfl⟩, rfl⟩
  obtain ⟨listing, hcompile⟩ :=
    compile_of_quiet hfresh (isWellFormed_unit hk) hreg htyp (hd₂.trans hd)
  rw [hcompile]
  refine ⟨listing, _, q, T, rfl, rfl, rfl, rfl, rfl, he, ?_, p, hat, hq, hname⟩
  simp [returning, hname]

theorem returning_codes {ctx : Context} {r : Resolutions} {f : Lowering.Frame} {n next : Nat}
    {items : List Lowering.Item} {p : Param} {q : Symbol} {T : Ty} {type : TypeExpr}
    {index : UInt16} (hd : q.details = .var type (.param index))
    (h : Lowering.StmtsCodes ctx r f n (returning p (some q) (some T)) items next) :
    items = [.instr (.ldarg (f.argument index)), .instr .ret] := by
  simp only [returning, Lowering.StmtsCodes, Lowering.StmtCodes] at h
  obtain ⟨xs, ys, _, ⟨_, _, is, -, -, hcodes, rfl, rfl⟩, ⟨rfl, -⟩, rfl⟩ := h
  cases hcodes with
  | declaration hb hk _ =>
    cases hb
    exact absurd (by simp [Symbol.kind, hd]) hk
  | var hb _ _ hp _ =>
    cases hb
    cases hp with
    | argument hd' =>
      rw [hd] at hd'
      cases hd'
      rfl
    | slot hd' | shared hd' | own hd' =>
      rw [hd] at hd'
      cases hd'

theorem defined (options : Options) (hf : ∀ p ∈ front ++ [last], p.symbol = none)
    (hn : ((front ++ [last]).map fun p => p.name.text).Nodup)
    (hk : ∀ p ∈ front ++ [last], IsKeyword p.type) :
    ∃ listing m d q T t entry,
      (compile (unit front last) options).result = .ok (some listing) ∧
      Decl.methods (compile (unit front last) options).unit.decls = [(["Wide"], m)] ∧
      listing.image.methods = [d] ∧ listing.image.fields = [] ∧ m.modifiers = [.static] ∧
      m.returns = last.type ∧ m.params.map Param.erase = (front ++ [last]).map Param.erase ∧
      m.body = some (returning last (some q) (some T)) ∧
      Accepted t ⟨options, (compile (unit front last) options).resolutions, entry⟩
        (compile (unit front last) options).unit.decls listing.image ∧
      Compiled t ⟨options, (compile (unit front last) options).resolutions, entry⟩
        (["Wide"], m) d ∧
      ∃ p, m.params[front.length]? = some p ∧ p.symbol = some q ∧ p.name = last.name := by
  obtain ⟨listing, m, q, T, hresult, hmethods, hfields, hmod, hret, he, hbody, hlast⟩ :=
    accepted options hf hn hk
  obtain ⟨t, entry, hacc, -, -⟩ := accepted_with_conditions (isFresh_unit hf) hresult
  have hnofields : listing.image.fields = [] := by
    obtain ⟨vars, hperm, hforall⟩ := hacc.emits.fields
    rw [hfields] at hperm
    obtain rfl := hperm.eq_nil
    generalize listing.image.fields = fields at hforall
    cases hforall
    rfl
  have hforall := hacc.methods
  rw [hmethods] at hforall
  generalize himg : listing.image.methods = ds at hforall
  cases hforall with
  | cons hcompiled hnil =>
    cases hnil
    exact ⟨listing, m, _, q, T, t, entry, hresult, hmethods, himg, hnofields, hmod, hret, he,
      hbody, hacc, hcompiled, hlast⟩

/-- The code of the method reads the parameter at the position that is left of the last one in 16
bits. -/
theorem compiled (options : Options) (hf : ∀ p ∈ front ++ [last], p.symbol = none)
    (hn : ((front ++ [last]).map fun p => p.name.text).Nodup)
    (hk : ∀ p ∈ front ++ [last], IsKeyword p.type) :
    ∃ listing m d q T, (compile (unit front last) options).result = .ok (some listing) ∧
      Decl.methods (compile (unit front last) options).unit.decls = [(["Wide"], m)] ∧
      listing.image.methods = [d] ∧ listing.image.fields = [] ∧
      m.params.map Param.erase = (front ++ [last]).map Param.erase ∧
      m.body = some (returning last (some q) (some T)) ∧ q.name = last.name.text ∧
      (∃ type i, q.details = .var type (.param i)) ∧ d.isStatic = true ∧
      d.code = [.instr (.ldarg (UInt16.ofNat front.length).toNat), .instr .ret, .instr .ret] ∧
      d.params.length = (front ++ [last]).length ∧
      (∀ (i : Nat) (p : Param) word span, (front ++ [last])[i]? = some p →
        p.type = .keyword word span →
        ∃ a name, d.params[i]? = some (a, name) ∧ (Ty.ofKeyword word).toAsm = .ok a) ∧
      ∀ word span, last.type = .keyword word span → (Ty.ofKeyword word).toAsm = .ok d.returns := by
  obtain ⟨listing, m, d, q, T, t, entry, hresult, hmethods, himg, hnofields, hmod, hret, he, hbody,
    hacc, hcompiled, p, hat, hq, hname⟩ := defined options hf hn hk
  have hmem : Decl.method ["Wide"] m ∈ (compile (unit front last) options).unit.decls :=
    Decl.mem_methods.mp (by rw [hmethods]; exact List.mem_cons_self)
  refine ⟨listing, m, d, q, T, hresult, hmethods, himg, hnofields, he, hbody, ?_⟩
  cases hcompiled with
  | @intro _ _ b k _ _ _ _ _ items n next hb hk' hr hp hbody' hf' hl hs hi hcodes =>
    obtain ⟨hbound, hmeth, hdet, k', hk'', hparams, -⟩ := method_declared hacc.declares hmem hb
    obtain rfl := Option.some.inj (hk'.symm.trans hk'')
    have hstatic : runsStatic entry b = true := by
      simp [runsStatic, Symbol.isStatic, hdet, hmod, Modifier.isStatic]
    have hplaced := hacc.declares.placed _ hmem
    simp only [Decl.Placed, hb] at hplaced
    obtain ⟨-, _, -, hpp, -⟩ := hplaced
    have hqd := hpp.position hat hq
    have hqn := (hpp.of_mem (List.mem_of_getElem? hat) hq).1
    refine ⟨hname ▸ hqn, ⟨_, _, hqd⟩, hstatic, ?_, ?_, ?_, ?_⟩
    · obtain rfl := Option.some.inj (hbody.symm.trans hbody')
      rw [returning_codes hqd hcodes, Lowering.Frame.argument]
      simp [Lowering.Target.frame, hstatic]
    · rw [← (Lowering.paramEntries_inv hp).length_eq, ← List.length_map Param.erase, he,
        List.length_map]
    · intro i x word span hx hword
      have hy : (m.params.map Param.erase)[i]? = some x.erase := by
        rw [he, List.getElem?_map, hx]
        rfl
      rw [List.getElem?_map, Option.map_eq_some_iff] at hy
      obtain ⟨y, hyat, hyx⟩ := hy
      obtain ⟨⟨a, name⟩, ha, c, hc, hasm, -⟩ :=
        Lowering.forall₂_getElem? (Lowering.paramEntries_inv hp) hyat
      obtain ⟨hcb, hcw⟩ := hparams y (List.mem_of_getElem? hyat) c hc
      rw [(Param.eq_of_erase_eq hyx).2, hword] at hcw
      exact ⟨a, name, ha, hacc.keyword_type hcb hcw hasm⟩
    · intro word span hword
      have hw : Writes t b b.declaredIn (.keyword word span) := by
        simp only [Writes, hdet]
        exact ⟨(hret.trans hword).symm, trivial⟩
      exact hacc.keyword_type hbound hw hr

def param (word : Keyword) (i : Nat) : Param :=
  ⟨.plain ("p" ++ i.repr), .keyword word .null, none⟩

def flags : List Param := (List.range 65536).map (param .boolean)

def text : Param := param .string 65536

theorem names_nodup : ((flags ++ [text]).map fun p => p.name.text).Nodup := by
  have hnames : (flags ++ [text]).map (fun p => p.name.text) =
      (List.range 65537).map fun i => "p" ++ i.repr := by
    rw [List.range_succ, List.map_append, List.map_append, flags, List.map_map]
    rfl
  rw [hnames]
  exact List.Nodup.map (fun i j h => Nat.repr_injective ((String.append_right_inj "p").mp h))
    List.nodup_range

theorem isKeyword_params : ∀ p ∈ flags ++ [text], IsKeyword p.type := by
  intro p hp
  rcases List.mem_append.mp hp with hp | hp
  · obtain ⟨i, -, rfl⟩ := List.mem_map.mp hp
    exact ⟨_, _, rfl⟩
  · rw [List.mem_singleton.mp hp]
    exact ⟨_, _, rfl⟩

theorem length_flags : flags.length = 65536 := by
  rw [flags, List.length_map, List.length_range]

theorem flag_at {i : Nat} (h : i < 65536) :
    (flags ++ [text])[i]? = some (param .boolean i) := by
  rw [List.getElem?_append_left (by rw [length_flags]; exact h), flags, List.getElem?_map,
    List.getElem?_range h]
  rfl

theorem text_at : (flags ++ [text])[65536]? = some text := by
  rw [List.getElem?_append_right (Nat.le_of_eq length_flags), length_flags]
  rfl

theorem isVoidFree_unit : (unit flags text).isVoidFree = true := by
  have hparams : (flags ++ [text]).all (fun p => !p.type.isVoid) = true := by
    rw [List.all_append, flags, List.all_map]
    exact Bool.and_eq_true_iff.mpr ⟨List.all_eq_true.mpr fun _ _ => rfl, rfl⟩
  have hm : (Decl.method ["Wide"] (method flags text)).isVoidFree = true := by
    rw [Decl.isVoidFree, method, hparams]
    rfl
  change [Decl.cls ["Wide"] head, .method ["Wide"] (method flags text)].all Decl.isVoidFree = true
  rw [List.all_cons, List.all_cons, hm]
  rfl

theorem symbol_params : ∀ p ∈ flags ++ [text], p.symbol = none := by
  intro p hp
  rcases List.mem_append.mp hp with hp | hp
  · obtain ⟨i, -, rfl⟩ := List.mem_map.mp hp
    rfl
  · rw [List.mem_singleton.mp hp]
    rfl

end Wide

/-- The code of a method that is too wide need not be verified, though the unit is accepted. -/
theorem wide_code_fails : (Wide.unit Wide.flags Wide.text).isFresh = true ∧
    (Wide.unit Wide.flags Wide.text).isVoidFree = true ∧
    ∃ listing, (compile (Wide.unit Wide.flags Wide.text) .default).result = .ok (some listing) ∧
      ¬ ∃ entry, List.Forall₂
        (fun x d => Verified ⟨(compile (Wide.unit Wide.flags Wide.text) .default).resolutions,
          entry, !d.isStatic⟩ x.2 d)
        (Decl.methods (compile (Wide.unit Wide.flags Wide.text) .default).unit.decls)
        listing.image.methods := by
  obtain ⟨listing, m, d, q, T, hresult, hmethods, himg, -, -, -, -, -, hstatic, hcode, -, hparams,
    hret⟩ := Wide.compiled .default Wide.symbol_params Wide.names_nodup Wide.isKeyword_params
  refine ⟨Wide.isFresh_unit Wide.symbol_params, Wide.isVoidFree_unit, listing, hresult, ?_⟩
  rintro ⟨entry, hforall⟩
  rw [hmethods, himg] at hforall
  cases hforall with
  | cons hverified _ =>
    obtain ⟨_, _, items, -, hitems, hcheck⟩ := hverified.code
    obtain ⟨a, name, hfirst, ha⟩ :=
      hparams 0 (Wide.param .boolean 0) .boolean .null (Wide.flag_at (by decide)) rfl
    have hreturns := hret .string .null rfl
    have hload : d.argument 0 = some .int32 := by
      cases ha
      simp [MethodDef.argument, MethodDef.arguments, hstatic, hfirst, AsmType.entry]
    have hitems' : items = [.instr (.ldarg 0), .instr .ret] := by
      rw [hcode, Wide.length_flags] at hitems
      exact (List.append_cancel_right hitems).symm
    rw [hitems'] at hcheck
    injection hreturns with hreturns
    simp [MethodDef.verify, Instr.check, Instr.signature, hload, takeOff, ← hreturns,
      AsmType.entry] at hcheck

end ClassLang
