import ClassLang.Proofs.Places.Bare
import ClassLang.Proofs.Scopes

/-! Registration does not look at places. Two visits agree if, from states that are alike, they end
in states that are alike, with the same bare node and the same answer or the same fault.
Registration of a tree agrees with registration of its bare tree. -/
namespace ClassLang

/-- `p` and `q` say what is compared of the nodes and of the answers. -/
structure Visited.Agrees {σ ν μ α β : Type} (alike : σ → σ → Prop) (p : ν → μ) (q : α → β)
    (x y : Visited σ ν α) : Prop where
  node : p x.node = p y.node
  answer : x.answer.map q = y.answer.map q
  state : alike x.state y.state

def Visit.Agrees {σ ν μ α β : Type} (alike : σ → σ → Prop) (p : ν → μ) (q : α → β)
    (v w : Visit σ ν α) : Prop :=
  ∀ s u, alike s u → (v s).Agrees alike p q (w u)

namespace Visit.Agrees

variable {σ ν ν' μ μ' α α' β β' : Type} {alike : σ → σ → Prop}
  {p : ν → ν'} {p' : μ → μ'} {q : α → α'} {q' : β → β'}

theorem done {n m : ν} {a b : α} (hn : p n = p m) (ha : q a = q b) :
    Agrees alike p q (Visit.done n a) (Visit.done m b) :=
  fun _ _ hs => ⟨hn, congrArg Except.ok ha, hs⟩

theorem fail {n m : ν} (hn : p n = p m) (fault : Fault) :
    Agrees alike p q (Visit.fail n fault) (Visit.fail m fault) :=
  fun _ _ hs => ⟨hn, rfl, hs⟩

theorem part {v w : Visit σ ν α} {put put' : ν → μ} {rest rest' : ν → α → Visit σ μ β}
    (h : Agrees alike p q v w) (hput : ∀ n m, p n = p m → p' (put n) = p' (put' m))
    (hrest : ∀ n m a b, p n = p m → q a = q b → Agrees alike p' q' (rest n a) (rest' m b)) :
    Agrees alike p' q' (v.part put rest) (w.part put' rest') := by
  intro s u hs
  have hvw := h s u hs
  unfold Visit.part
  generalize v s = x at hvw ⊢
  generalize w u = y at hvw ⊢
  obtain ⟨hn, ha, ht⟩ := hvw
  obtain ⟨n, _ | a, t⟩ := x <;> obtain ⟨m, _ | b, r⟩ := y
  · cases ha
    exact ⟨hput n m hn, rfl, ht⟩
  · cases ha
  · cases ha
  · exact hrest n m a b hn (Except.ok.inj ha) t r ht

theorem within {v w : Visit σ ν α} {put put' : ν → μ} (h : Agrees alike p q v w)
    (hput : ∀ n m, p n = p m → p' (put n) = p' (put' m)) :
    Agrees alike p' q (v.within put) (w.within put') :=
  h.part hput fun n m _ _ hn ha => done (hput n m hn) ha

theorem close {v w : Visit σ ν α} {put put' : ν → μ} {f g : ν → α → σ → σ}
    (h : Agrees alike p q v w) (hput : ∀ n m, p n = p m → p' (put n) = p' (put' m))
    (hstate : ∀ n m a b s u, p n = p m → q a = q b → alike s u → alike (f n a s) (g m b u)) :
    Agrees alike p' id (v.part put fun n a s => ⟨put n, .ok (), f n a s⟩)
      (w.part put' fun n a s => ⟨put' n, .ok (), g n a s⟩) :=
  h.part hput fun n m a b hn ha s u hs => ⟨hput n m hn, rfl, hstate n m a b s u hn ha hs⟩

theorem optional {f : ν → ν} {visit visit' : ν → Visit σ ν α}
    (h : ∀ n, Agrees alike f q (visit n) (visit' (f n))) (node : Option ν) :
    Agrees alike (Option.map f) (Option.map q) (Visit.optional visit node)
      (Visit.optional visit' (node.map f)) := by
  cases node with
  | none => exact done rfl rfl
  | some node =>
    refine (h node).part (fun n m hn => congrArg some hn) fun n m a b hn ha => ?_
    exact done (congrArg some hn) (congrArg some ha)

theorem each {f : ν → ν} {visit visit' : ν → Visit σ ν Unit} (hf : ∀ n, f (f n) = f n)
    (h : ∀ n, Agrees alike f id (visit n) (visit' (f n))) (nodes : List ν) :
    Agrees alike (List.map f) id (Visit.each visit nodes) (Visit.each visit' (nodes.map f)) := by
  induction nodes with
  | nil => exact done rfl rfl
  | cons node rest ih =>
    have hrest : (rest.map f).map f = rest.map f := by simp [Function.comp_def, hf]
    refine (h node).part (fun n m hn => by simp [hn, hf]) fun n m _ _ hn _ => ?_
    exact ih.within fun ns ms hns => by simp [hn, hns]

end Visit.Agrees

namespace Table

/-- Tables with the same scopes, and in each scope the same bare symbols under every name. -/
structure Like (t u : Table) : Prop where
  tag : t.tag = u.tag
  current : t.current = u.current
  nextSymbol : t.nextSymbol = u.nextSymbol
  length : t.scopes.length = u.scopes.length
  parent? : ∀ j, t.parent? j = u.parent? j
  members : ∀ j x, (t.members j x).map Symbol.bare = (u.members j x).map Symbol.bare

theorem Like.refl (t : Table) : t.Like t :=
  ⟨rfl, rfl, rfl, rfl, fun _ => rfl, fun _ _ => rfl⟩

namespace Like

variable {t u : Table}

theorem isEmpty_members (h : t.Like u) (j : ScopeId) (x : String) :
    (t.members j x).isEmpty = (u.members j x).isEmpty := by
  simpa using congrArg List.isEmpty (h.members j x)

theorem visibleFrom (h : t.Like u) (scope : ScopeId) (x : String) :
    (t.visibleFrom scope x).map Symbol.bare = (u.visibleFrom scope x).map Symbol.bare := by
  unfold Table.visibleFrom
  rw [h.length]
  generalize u.scopes.length = fuel
  induction fuel generalizing scope with
  | zero => rfl
  | succ fuel ih =>
    rw [searchOutward_succ, searchOutward_succ, h.isEmpty_members, h.parent?]
    split
    · cases u.parent? scope with
      | none => rfl
      | some parent => exact ih parent
    · exact h.members scope x

theorem localsOf (h : t.Like u) (x : String) (kind : SymbolKind) :
    (t.localsOf x kind).map Symbol.bare = (u.localsOf x kind).map Symbol.bare := by
  have hfilter : ∀ l : List Symbol, (l.filter fun b => b.kind == kind).map Symbol.bare =
      (l.map Symbol.bare).filter fun b => b.kind == kind := by
    intro l
    simp [List.filter_map, Function.comp_def]
  unfold Table.localsOf
  rw [hfilter, hfilter, h.current, h.members]

theorem moveTo (h : t.Like u) (scope : ScopeId) : (t.moveTo scope).Like (u.moveTo scope) :=
  ⟨h.tag, rfl, h.nextSymbol, h.length, h.parent?, h.members⟩

theorem openScope (h : t.Like u) (name : String) :
    (t.openScope name).1 = (u.openScope name).1 ∧
      (t.openScope name).2.Like (u.openScope name).2 := by
  refine ⟨h.length, h.tag, h.current, h.nextSymbol, ?_, ?_, ?_⟩
  · simp [Table.openScope, h.length]
  · intro j
    rw [parent?_openScope, parent?_openScope, h.length, h.current, h.parent?]
  · intro j x
    simpa using h.members j x

theorem newSymbol (h : t.Like u) {details details' : Details} (hd : details.bare = details'.bare)
    (name : String) (scope : Option ScopeId) (position position' : Position) :
    (t.newSymbol name details scope position).1.bare =
        (u.newSymbol name details' scope position').1.bare ∧
      (t.newSymbol name details scope position).2.Like
        (u.newSymbol name details' scope position').2 := by
  constructor
  · simp [Table.newSymbol, Symbol.bare, h.tag, h.nextSymbol, h.current, hd]
  · exact ⟨h.tag, h.current, congrArg (· + 1) h.nextSymbol, h.length, h.parent?, h.members⟩

end Like

theorem admits_bare (existing : List Symbol) (s : Symbol) :
    admits (existing.map Symbol.bare) s.bare = admits existing s := by
  simp [admits, Function.comp_def]

theorem members_modify_add (t : Table) (s : Symbol) (j : ScopeId) (x : String) :
    ({ t with scopes := t.scopes.modify t.current fun scope => scope.add s } : Table).members j x =
      if j = t.current ∧ x = s.name ∧ t.current < t.scopes.length then t.members j x ++ [s]
      else t.members j x := by
  by_cases hc : t.current < t.scopes.length
  · by_cases hj : j = t.current
    · subst hj
      by_cases hx : x = s.name <;> simp [Table.members, Scope.get_add, hx, hc]
    · simp [Table.members, hj, Ne.symm hj]
  · have hid : (t.scopes.modify t.current fun scope => scope.add s) = t.scopes :=
      List.modify_eq_self (Nat.le_of_not_lt hc)
    rw [hid, if_neg fun h => hc h.2.2]

/-- Symbols that are equal up to places are bound both or not at all. -/
theorem Like.bind {t u : Table} (h : t.Like u) {s s' : Symbol} (hs : s.bare = s'.bare) :
    (∃ t' u', t.bind s = .ok t' ∧ u.bind s' = .ok u' ∧ t'.Like u') ∨
      ∃ c c', t.bind s = .error c ∧ u.bind s' = .error c' := by
  have hname : s.name = s'.name := by simpa using congrArg Symbol.name hs
  have hadmits : admits (t.members t.current s.name) s =
      admits (u.members u.current s'.name) s' := by
    rw [← admits_bare, ← admits_bare (u.members ..), h.members, hs, h.current, hname]
  cases ht : t.bind s with
  | error c =>
    obtain ⟨ha, -⟩ := bind_eq_error_iff.mp ht
    exact Or.inr ⟨c, _, rfl, bind_eq_error_iff.mpr ⟨hadmits ▸ ha, rfl⟩⟩
  | ok t' =>
    cases hu : u.bind s' with
    | error c =>
      obtain ⟨ha, -⟩ := bind_eq_error_iff.mp hu
      rw [← hadmits, (bind_ok_inv ht).1] at ha
      cases ha
    | ok u' =>
      have hpt := parent?_of_bind ht
      have hpu := parent?_of_bind hu
      obtain ⟨-, rfl⟩ := bind_ok_inv ht
      obtain ⟨-, rfl⟩ := bind_ok_inv hu
      refine Or.inl ⟨_, _, rfl, rfl, h.tag, h.current, h.nextSymbol, ?_, ?_, ?_⟩
      · simpa using h.length
      · intro j
        rw [hpt, hpu, h.parent?]
      · intro j x
        rw [members_modify_add, members_modify_add, h.current, hname, h.length]
        split
        · simp [h.members, hs]
        · exact h.members j x

end Table

namespace Registration

structure State.Like (s u : State) : Prop where
  table : s.table.Like u.table
  problems : s.diagnostics.map Diagnostic.problem = u.diagnostics.map Diagnostic.problem
  nextSlot : s.nextSlot = u.nextSlot

namespace State.Like

variable {s u : State}

theorem report (h : s.Like u) (problem : Problem) (position position' : Position) :
    (s.report problem position).Like (u.report problem position') :=
  ⟨h.table, by simp [State.report, h.problems], h.nextSlot⟩

theorem reportAll (h : s.Like u) (problems : List Problem) (position position' : Position) :
    (s.reportAll problems position).Like (u.reportAll problems position') :=
  ⟨h.table, by simp [State.reportAll, Diagnostic.allAt, h.problems], h.nextSlot⟩

theorem moveTo (h : s.Like u) (scope : ScopeId) : (s.moveTo scope).Like (u.moveTo scope) :=
  ⟨h.table.moveTo scope, h.problems, h.nextSlot⟩

theorem declare (h : s.Like u) (name : Name) {details details' : Details}
    (hd : details.bare = details'.bare) (scope : Option ScopeId) :
    (s.declare name details scope).1.Like (u.declare name.bare details' scope).1 ∧
      (s.declare name details scope).2.map Symbol.bare =
        (u.declare name.bare details' scope).2.map Symbol.bare := by
  obtain ⟨hsym, htab⟩ :=
    h.table.newSymbol hd name.text scope name.span.start name.bare.span.start
  unfold State.declare
  rcases htab.bind hsym with ⟨t, r, ht, hr, hlike⟩ | ⟨c, c', ht, hr⟩
  · simp only [Name.text_bare, ht, hr]
    exact ⟨⟨hlike, h.problems, h.nextSlot⟩, congrArg some hsym⟩
  · simp only [Name.text_bare, ht, hr]
    exact ⟨⟨htab, h.problems, h.nextSlot⟩, trivial⟩

end State.Like

/-- A slot is filled, or found full, whatever the places in the symbols. -/
theorem fillSlot_bare {b b' : Symbol} (h : b.bare = b'.bare) (slot : Option Symbol) (what : Mark)
    (name : String) :
    (fillSlot slot b what name).map (Option.map Symbol.bare) =
      (fillSlot (slot.map Symbol.bare) b' what name).map (Option.map Symbol.bare) := by
  cases slot with
  | none => simp [fillSlot, Except.map, h]
  | some found => rfl

theorem sameParams_bare (params : List TypeExpr) (b : Symbol) :
    sameParams (params.map TypeExpr.bare) b.bare = sameParams params b := by
  unfold sameParams
  rw [Symbol.details_bare]
  cases b.details <;> simp [Details.bare]

theorem any_sameParams_bare (symbols : List Symbol) (params : List TypeExpr) :
    (symbols.map Symbol.bare).any (sameParams (params.map TypeExpr.bare)) =
      symbols.any (sameParams params) := by
  rw [List.any_map]
  exact congrArg symbols.any (funext (sameParams_bare params))

theorem Home.take_like {s u : State} (h : s.Like u) (home : Home) :
    (home.take s).1 = (home.take u).1 ∧ (home.take s).2.Like (home.take u).2 := by
  cases home with
  | method =>
    exact ⟨congrArg Storage.slot h.nextSlot, h.table, h.problems, by simp [take, h.nextSlot]⟩
  | cls isStatic path => exact ⟨rfl, h⟩

/-- How declaring a name and marking its declaration ends: both times with a clash, both times with
a slot that was full, or both times with the slot filled. -/
theorem State.Like.declare_cases {s u : State} (h : s.Like u) (name : Name)
    {details details' : Details} (hd : details.bare = details'.bare) (scope : Option ScopeId)
    (slot : Option Symbol) (what : Mark) :
    (∃ s' u', s.declare name details scope = (s', none) ∧
        u.declare name.bare details' scope = (u', none) ∧ s'.Like u') ∨
      ∃ s' u' b b', s.declare name details scope = (s', some b) ∧
        u.declare name.bare details' scope = (u', some b') ∧ s'.Like u' ∧
        ((∃ fault, fillSlot slot b what name.text = .error fault ∧
            fillSlot (slot.map Symbol.bare) b' what name.text = .error fault) ∨
          ∃ filled filled', fillSlot slot b what name.text = .ok filled ∧
            fillSlot (slot.map Symbol.bare) b' what name.text = .ok filled' ∧
            filled.map Symbol.bare = filled'.map Symbol.bare) := by
  obtain ⟨hlike, hsym⟩ := h.declare name hd scope
  generalize s.declare name details scope = x at hlike hsym ⊢
  generalize u.declare name.bare details' scope = y at hlike hsym ⊢
  obtain ⟨s', _ | b⟩ := x <;> obtain ⟨u', _ | b'⟩ := y
  · exact Or.inl ⟨s', u', rfl, rfl, hlike⟩
  · cases hsym
  · cases hsym
  · refine Or.inr ⟨s', u', b, b', rfl, rfl, hlike, ?_⟩
    have hfill := fillSlot_bare (Option.some.inj hsym) slot what name.text
    generalize fillSlot slot b what name.text = x at hfill ⊢
    generalize fillSlot (slot.map Symbol.bare) b' what name.text = y at hfill ⊢
    obtain fault | filled := x <;> obtain fault' | filled' := y
    · cases hfill
      exact Or.inl ⟨fault, rfl, rfl⟩
    · cases hfill
    · cases hfill
    · exact Or.inr ⟨filled, filled', rfl, rfl, Except.ok.inj hfill⟩

theorem registerVar_agrees (home : Home) (type : TypeExpr) (v : Declarator) :
    Visit.Agrees State.Like Declarator.bare id (registerVar home type v)
      (registerVar home type.bare v.bare) := by
  intro s u h
  have hname : v.bare.name = v.name.bare := rfl
  have hslot : v.bare.symbol = v.symbol.map Symbol.bare := rfl
  unfold registerVar
  dsimp only
  rw [hname, hslot, Name.text_bare, h.table.current, h.table.isEmpty_members]
  split
  · obtain ⟨hstorage, hs⟩ := home.take_like h
    have hd : (Details.var type (home.take s).1).bare =
        (Details.var type.bare (home.take u).1).bare := by simp [Details.bare, hstorage]
    rcases hs.declare_cases v.name hd none v.symbol .var with ⟨s', u', he, he', hlike⟩ |
      ⟨s', u', b, b', he, he', hlike, ⟨fault, hf, hf'⟩ | ⟨slot, slot', hf, hf', hslot⟩⟩
    · simp only [he, he']
      exact ⟨by simp, rfl, hlike.report _ _ _⟩
    · simp only [he, he', hf, hf']
      exact ⟨by simp, rfl, hlike⟩
    · simp only [he, he', hf, hf']
      exact ⟨by simp [Declarator.bare, hslot], rfl, hlike⟩
  · exact ⟨by simp, rfl, h.report _ _ _⟩

theorem registerVars_agrees (home : Home) (d : VarDecl) :
    Visit.Agrees State.Like VarDecl.bare id (registerVars home d) (registerVars home d.bare) :=
  (Visit.Agrees.each Declarator.bare_bare (registerVar_agrees home d.type) d.vars).within
    fun _ _ h => by simp [VarDecl.bare, h]

theorem registerField_agrees (path : List String) (d : VarDecl) :
    Visit.Agrees State.Like VarDecl.bare id (registerField path d) (registerField path d.bare) := by
  intro s u h
  unfold registerField
  rw [VarDecl.names_bare]
  exact registerVars_agrees _ d _ _ (h.reportAll _ _ _)

theorem registerLocals_agrees (d : VarDecl) :
    Visit.Agrees State.Like VarDecl.bare id (registerLocals d) (registerLocals d.bare) := by
  intro s u h
  have hmodifiers : d.bare.modifiers = d.modifiers := rfl
  unfold registerLocals
  rw [VarDecl.names_bare, hmodifiers]
  refine registerVars_agrees _ d _ _ ?_
  split
  · exact h
  · exact h.report _ _ _

mutual

theorem registerStmt_agrees : ∀ stmt : Stmt,
    Visit.Agrees State.Like Stmt.bare id (registerStmt stmt) (registerStmt stmt.bare)
  | .locals d => by
    rw [Stmt.bare, registerStmt, registerStmt]
    exact (registerLocals_agrees d).within fun n m h => by simp [Stmt.bare, h]
  | .block body span => by
    rw [Stmt.bare, Stmt.bareAll_eq_map, registerStmt, registerStmt]
    exact (registerStmts_agrees body).within fun n m h => by simp [Stmt.bare, h]
  | .ifThen cond thenBody span => by
    rw [Stmt.bare, registerStmt, registerStmt]
    exact (registerStmt_agrees thenBody).within fun n m h => by simp [Stmt.bare, h]
  | .ifElse cond thenBody elseBody span => by
    rw [Stmt.bare, registerStmt, registerStmt]
    refine (registerStmt_agrees thenBody).part (fun n m h => by simp [Stmt.bare, h]) ?_
    intro n m _ _ hn _
    exact (registerStmt_agrees elseBody).within fun n m h => by simp [Stmt.bare, hn, h]
  | .loop cond body span => by
    rw [Stmt.bare, registerStmt, registerStmt]
    exact (registerStmt_agrees body).within fun n m h => by simp [Stmt.bare, h]
  | .expr value span type => by
    simp only [Stmt.bare, registerStmt]
    exact .done (by simp [Stmt.bare]) rfl
  | .ret value span => by
    simp only [Stmt.bare, registerStmt]
    exact .done (by simp [Stmt.bare]) rfl
  | .empty span => by
    simp only [Stmt.bare, registerStmt]
    exact .done (by simp [Stmt.bare]) rfl

theorem registerStmts_agrees : ∀ body : List Stmt,
    Visit.Agrees State.Like (List.map Stmt.bare) id (registerStmts body)
      (registerStmts (body.map Stmt.bare))
  | [] => by
    rw [List.map_nil, registerStmts]
    exact .done rfl rfl
  | stmt :: rest => by
    rw [List.map_cons, registerStmts, registerStmts]
    refine (registerStmt_agrees stmt).part (fun n m h => by simp [h]) ?_
    intro n m _ _ hn _
    exact (registerStmts_agrees rest).within fun ns ms h => by simp [hn, h]

end

theorem registerParam_agrees (index : UInt16) (p : Param) :
    Visit.Agrees State.Like Param.bare id (registerParam index p) (registerParam index p.bare) := by
  intro s u h
  have hlocals : (s.table.localsOf p.name.text .var).isEmpty =
      (u.table.localsOf p.name.text .var).isEmpty := by
    simpa using congrArg List.isEmpty (h.table.localsOf p.name.text .var)
  have hname : p.bare.name = p.name.bare := rfl
  have hslot : p.bare.symbol = p.symbol.map Symbol.bare := rfl
  unfold registerParam
  dsimp only
  rw [hname, hslot, Name.text_bare, hlocals]
  split
  · have hd : (Details.var p.type (.param index)).bare =
        (Details.var p.bare.type (.param index)).bare := by simp [Details.bare, Param.bare]
    rcases h.declare_cases p.name hd none p.symbol .param with ⟨s', u', he, he', hlike⟩ |
      ⟨s', u', b, b', he, he', hlike, ⟨fault, hf, hf'⟩ | ⟨slot, slot', hf, hf', hslot⟩⟩
    · simp only [he, he']
      exact ⟨by simp, rfl, hlike.report _ _ _⟩
    · simp only [he, he', hf, hf']
      exact ⟨by simp, rfl, hlike⟩
    · simp only [he, he', hf, hf']
      exact ⟨by simp [Param.bare, hslot], rfl, hlike⟩
  · exact ⟨by simp, rfl, h.report _ _ _⟩

theorem registerParams_agrees (params : List Param) (index : UInt16) :
    Visit.Agrees State.Like (List.map Param.bare) id (registerParams index params)
      (registerParams index (params.map Param.bare)) := by
  induction params generalizing index with
  | nil => exact .done rfl rfl
  | cons p rest ih =>
    refine (registerParam_agrees index p).part (fun n m h => by simp [h]) ?_
    intro n m _ _ hn _
    exact (ih (index + 1)).within fun ns ms h => by simp [hn, h]

theorem registerMethodBody_agrees (m : Method) {slot slot' : Option Symbol}
    (h : slot.map Symbol.bare = slot'.map Symbol.bare) :
    Visit.Agrees State.Like Method.bare id (registerMethodBody { m with symbol := slot })
      (registerMethodBody { m.bare with symbol := slot' }) := by
  have hput : ∀ ps qs : List Param, ps.map Param.bare = qs.map Param.bare →
      ({ m with params := ps, symbol := slot } : Method).bare =
        ({ m.bare with params := qs, symbol := slot' } : Method).bare := by
    intro ps qs hps
    simp [Method.bare, hps, h, Function.comp_def]
  unfold registerMethodBody
  refine (registerParams_agrees m.params 0).part hput fun ps qs _ _ hps _ => ?_
  cases hbody : m.body with
  | none =>
    have hnone : m.bare.body = none := by simp [Method.bare, hbody]
    simp only [hnone]
    exact .fail (by simpa [hbody, hnone] using hput ps qs hps) _
  | some body =>
    have hsome : m.bare.body = some (body.map Stmt.bare) := by simp [Method.bare, hbody]
    simp only [hsome]
    refine (registerStmts_agrees body).within fun b c hbc => ?_
    simp [Method.bare, hps, h, hbc]

theorem registerMethod_agrees (path : List String) (m : Method) :
    Visit.Agrees State.Like Method.bare id (registerMethod path m)
      (registerMethod path m.bare) := by
  intro s u h
  have hname : m.bare.name = m.name.bare := rfl
  have hslot : m.bare.symbol = m.symbol.map Symbol.bare := rfl
  have hmodifiers : m.bare.modifiers = m.modifiers := rfl
  have hparams : m.bare.params.map Param.type = (m.params.map Param.type).map TypeExpr.bare := by
    simp [Method.bare, Param.bare, Function.comp_def]
  have hreport := h.reportAll (modifierProblems m.name.text m.modifiers) m.name.span.start
    m.name.bare.span.start
  unfold registerMethod
  dsimp only
  rw [hname, hslot, hmodifiers, hparams, Name.text_bare]
  generalize m.params.map Param.type = params
  generalize s.reportAll _ _ = s₁ at hreport ⊢
  generalize u.reportAll _ _ = u₁ at hreport ⊢
  have hsame : (s₁.table.localsOf m.name.text .method).any (sameParams params) =
      (u₁.table.localsOf m.name.text .method).any (sameParams (params.map TypeExpr.bare)) := by
    rw [← any_sameParams_bare, hreport.table.localsOf, ← any_sameParams_bare (u₁.table.localsOf ..),
      List.map_map, TypeExpr.bare_comp_bare]
  rw [hsame]
  split
  · exact ⟨by simp, rfl, hreport.report _ _ _⟩
  · obtain ⟨hscope, htable⟩ := hreport.table.openScope m.name.text
    have hopened : State.Like { s₁ with table := (s₁.table.openScope m.name.text).2 }
        { u₁ with table := (u₁.table.openScope m.name.text).2 } :=
      ⟨htable, hreport.problems, hreport.nextSlot⟩
    have hd : (Details.method params m.returns m.modifiers path none).bare =
        (Details.method (params.map TypeExpr.bare) m.bare.returns m.modifiers path none).bare := by
      simp [Details.bare, Method.bare]
    rw [hscope, hreport.table.current]
    rcases hopened.declare_cases m.name hd (some (u₁.table.openScope m.name.text).1) m.symbol
      .method
      with ⟨s', u', he, he', hlike⟩ |
      ⟨s', u', b, b', he, he', hlike, ⟨fault, hf, hf'⟩ | ⟨slot, slot', hf, hf', hslot⟩⟩
    · simp only [he, he']
      exact ⟨by simp, rfl, hlike.report _ _ _⟩
    · simp only [he, he', hf, hf']
      exact ⟨by simp, rfl, hlike⟩
    · simp only [he, he', hf, hf']
      exact (registerMethodBody_agrees m hslot).close (fun _ _ hn => hn)
        (fun _ _ _ _ _ _ _ _ hs => hs.moveTo u₁.table.current) _ _
        ⟨hlike.table.moveTo _, hlike.problems, rfl⟩

theorem unsupportedHead_bare (head : ClassHead) :
    (unsupportedHead head.bare).map Diagnostic.problem =
      (unsupportedHead head).map Diagnostic.problem := by
  unfold unsupportedHead ClassHead.bare
  cases head.base <;> cases head.typeParams <;> rfl

theorem registerClassWith_agrees (path : List String) (head : ClassHead) (members : List Member)
    {body body' : List String → Visit State (List Member) Unit}
    (hbody : ∀ path, Visit.Agrees State.Like (List.map Member.bare) id (body path) (body' path)) :
    Visit.Agrees State.Like ClassDecl.bare id (registerClassWith path head members body)
      (registerClassWith path head.bare (members.map Member.bare) body') := by
  intro s u h
  have hname : head.bare.name = head.name.bare := rfl
  have hslot : head.bare.symbol = head.symbol.map Symbol.bare := rfl
  have hmodifiers : head.bare.modifiers = head.modifiers := rfl
  have hsame : (ClassDecl.mk head members).bare =
      (ClassDecl.mk head.bare (members.map Member.bare)).bare := by
    simp [ClassDecl.bare]
  unfold registerClassWith
  dsimp only
  rw [hname, hslot, hmodifiers, Name.text_bare]
  have hall := h.reportAll (modifierProblems head.name.text head.modifiers) head.name.span.start
    head.name.bare.span.start
  generalize s.reportAll _ _ = s₁ at hall ⊢
  generalize u.reportAll _ _ = u₁ at hall ⊢
  have hreport : State.Like { s₁ with diagnostics := s₁.diagnostics ++ unsupportedHead head }
      { u₁ with diagnostics := u₁.diagnostics ++ unsupportedHead head.bare } :=
    ⟨hall.table, by simp [hall.problems, unsupportedHead_bare], hall.nextSlot⟩
  rw [hall.table.current, hall.table.isEmpty_members]
  split
  · obtain ⟨hscope, htable⟩ := hall.table.openScope head.name.text
    have hopened : State.Like
        { s₁ with
          diagnostics := s₁.diagnostics ++ unsupportedHead head
          table := (s₁.table.openScope head.name.text).2 }
        { u₁ with
          diagnostics := u₁.diagnostics ++ unsupportedHead head.bare
          table := (u₁.table.openScope head.name.text).2 } :=
      ⟨htable, hreport.problems, hreport.nextSlot⟩
    rw [hscope]
    rcases hopened.declare_cases head.name
      (rfl : (Details.cls (path ++ [head.name.text]) head.modifiers false).bare = _)
      (some (u₁.table.openScope head.name.text).1) head.symbol .cls
      with ⟨s', u', he, he', hlike⟩ |
      ⟨s', u', b, b', he, he', hlike, ⟨fault, hf, hf'⟩ | ⟨slot, slot', hf, hf', hslot⟩⟩
    · simp only [he, he']
      exact ⟨hsame, rfl, hlike.report _ _ _⟩
    · simp only [he, he', hf, hf']
      exact ⟨hsame, rfl, hlike⟩
    · simp only [he, he', hf, hf']
      have hhead : ({ head with symbol := slot } : ClassHead).bare =
          ({ head.bare with symbol := slot' } : ClassHead).bare := by
        simp [ClassHead.bare, hslot]
      have hput : ∀ ms ns : List Member, ms.map Member.bare = ns.map Member.bare →
          (ClassDecl.mk { head with symbol := slot } ms).bare =
            (ClassDecl.mk { head.bare with symbol := slot' } ns).bare := by
        intro ms ns hms
        simp only [ClassDecl.bare, hhead, hms]
      exact (hbody (path ++ [head.name.text])).close hput
        (fun _ _ _ _ _ _ _ _ hs => hs.moveTo u₁.table.current) _ _ (hlike.moveTo _)
  · exact ⟨hsame, rfl, hreport.report _ _ _⟩

mutual

theorem registerMember_agrees (path : List String) : ∀ m : Member,
    Visit.Agrees State.Like Member.bare id (registerMember path m) (registerMember path m.bare)
  | .method m => by
    rw [Member.bare, registerMember, registerMember]
    exact (registerMethod_agrees path m).within fun n n' h => by simp [Member.bare, h]
  | .field d => by
    rw [Member.bare, registerMember, registerMember]
    exact (registerField_agrees path d).within fun n n' h => by simp [Member.bare, h]
  | .nested head members => by
    rw [Member.bare, Member.bareAll_eq_map, registerMember, registerMember]
    refine (registerClassWith_agrees path head members fun inner =>
      registerMembers_agrees inner members).within fun c c' h => ?_
    obtain ⟨hhead, hmembers⟩ := ClassDecl.mk.inj h
    simp [Member.bare, hhead, hmembers]

theorem registerMembers_agrees (path : List String) : ∀ ms : List Member,
    Visit.Agrees State.Like (List.map Member.bare) id (registerMembers path ms)
      (registerMembers path (ms.map Member.bare))
  | [] => by
    rw [List.map_nil, registerMembers]
    exact .done rfl rfl
  | m :: rest => by
    rw [List.map_cons, registerMembers, registerMembers]
    refine (registerMember_agrees path m).part (fun n n' h => by simp [h]) ?_
    intro n n' _ _ hn _
    exact (registerMembers_agrees path rest).within fun ns ns' h => by simp [hn, h]

end

/-- Registration of a unit and of the bare unit, from the same table. -/
theorem registerUnit_agrees (u : CompilationUnit) (table : Table) (reports : List Diagnostic) :
    (registerUnit u table reports).Agrees State.Like CompilationUnit.bare id
      (registerUnit u.bare table reports) := by
  have hstart : (State.start (table.moveTo Table.root) reports).Like
      (.start (table.moveTo Table.root) reports) := ⟨.refl _, rfl, rfl⟩
  unfold registerUnit
  cases htop : u.top with
  | none =>
    have hnone : u.bare.top = none := by simp [CompilationUnit.bare, htop]
    simp only [hnone]
    exact ⟨by simp, rfl, .refl _, rfl, rfl⟩
  | some top =>
    have hsome : u.bare.top = some top.bare := by simp [CompilationUnit.bare, htop]
    simp only [hsome]
    have hclass := registerClassWith_agrees [] top.head top.members fun inner =>
      registerMembers_agrees inner top.members
    have hput : ∀ c c' : ClassDecl, c.bare = c'.bare →
        (CompilationUnit.mk (some c)).bare = (CompilationUnit.mk (some c')).bare := by
      intro c c' hc
      simp [CompilationUnit.bare, hc]
    exact hclass.close hput (fun _ _ _ _ _ _ _ _ hs => hs.moveTo Table.root) _ _ hstart

end Registration

end ClassLang
