import ClassLang.Proofs.History
import ClassLang.Proofs.Input
import ClassLang.Registration

/-! What a declaration leaves alone. Of the scopes that are there, the registration of a class or a
method changes the current one only, and adds at most its own symbol to it; what is declared inside
goes to scopes that are new. Afterwards the table is back in the scope it was in. This holds of
every table and of every tree, also of one that is annotated already. -/
namespace ClassLang

/-- The class that a symbol says to be declared in. Parameters and locals do not say. -/
def Symbol.outer? (b : Symbol) : Option (List String) :=
  match b.details with
  | .cls path _ _ => some path.dropLast
  | .method _ _ _ owner _ => some owner
  | .var _ (.field _ owner) => some owner
  | .var _ _ => none

structure Scope.Gains (a b : Scope) (added : List Symbol) : Prop where
  name : b.name = a.name
  parent : b.parent = a.parent
  get : ∀ x, b.get x = a.get x ++ added.filter fun s => s.name == x

theorem Scope.Gains.trans {a b c : Scope} {xs ys : List Symbol} (h : a.Gains b xs)
    (k : b.Gains c ys) : a.Gains c (xs ++ ys) :=
  ⟨k.name.trans h.name, k.parent.trans h.parent, fun x => by
    rw [k.get, h.get, List.filter_append, List.append_assoc]⟩

theorem Scope.gains_add (a : Scope) (s : Symbol) : a.Gains (a.add s) [s] := by
  refine ⟨rfl, rfl, fun x => ?_⟩
  rw [get_add]
  by_cases hx : x = s.name <;> simp [hx, Ne.symm]

namespace Table

/-- From `t` to `u` the current scope gained the symbols `added`. What else was bound was bound in
scopes that are new, and each symbol in the scope it was made in. -/
structure Gains (t u : Table) (added : List Symbol) : Prop where
  current : u.current = t.current
  scopes : t.scopes.length ≤ u.scopes.length
  others : ∀ k < t.scopes.length, k ≠ t.current → u.scopes[k]? = t.scopes[k]?
  own : ∃ a b, t.scopes[t.current]? = some a ∧ u.scopes[t.current]? = some b ∧ a.Gains b added
  home : ∀ b ∈ added, b.declaredIn = t.current
  opened : ∀ k, t.scopes.length ≤ k → ∀ x, ∀ b ∈ u.members k x, b.declaredIn = k

theorem members_eq_of_scope {t u : Table} {k : ScopeId} (h : u.scopes[k]? = t.scopes[k]?)
    (x : String) : u.members k x = t.members k x := by
  simp [members, h]

namespace Gains

variable {t u v : Table} {xs ys : List Symbol}

theorem current_lt (h : t.Gains u xs) : t.current < t.scopes.length := by
  obtain ⟨a, -, ha, -⟩ := h.own
  exact (List.getElem?_eq_some_iff.mp ha).1

theorem current_lt_after (h : t.Gains u xs) : u.current < u.scopes.length := by
  rw [h.current]
  exact Nat.lt_of_lt_of_le h.current_lt h.scopes

theorem members (h : t.Gains u xs) (x : String) :
    u.members t.current x = t.members t.current x ++ xs.filter fun s => s.name == x := by
  obtain ⟨a, b, ha, hb, hab⟩ := h.own
  simp [Table.members, ha, hb, hab.get]

theorem parent? (h : t.Gains u xs) {k : ScopeId} (hk : k < t.scopes.length) :
    u.parent? k = t.parent? k := by
  by_cases hc : k = t.current
  · obtain ⟨a, b, ha, hb, hab⟩ := h.own
    simp [Table.parent?, hc, ha, hb, hab.parent]
  · simp [Table.parent?, h.others k hk hc]

theorem of_scopes_eq (hc : t.current < t.scopes.length) (hu : u.current = t.current)
    (hs : u.scopes = t.scopes) : t.Gains u [] := by
  have hown := List.getElem?_eq_getElem hc
  refine ⟨hu, Nat.le_of_eq (by rw [hs]), fun k _ _ => by rw [hs], ?_, by simp, fun k hk x => ?_⟩
  · exact ⟨_, _, hown, by rw [hs, hown], rfl, rfl, by simp⟩
  · simp [members_eq_nil_of_length_le (hs ▸ hk : u.scopes.length ≤ k)]

theorem openScope (hc : t.current < t.scopes.length) (name : String) :
    t.Gains (t.openScope name).2 [] := by
  have hold : ∀ k < t.scopes.length, (t.openScope name).2.scopes[k]? = t.scopes[k]? := fun k hk =>
    List.getElem?_append_left hk
  have hown := List.getElem?_eq_getElem hc
  refine ⟨rfl, by simp [Table.openScope], fun k hk _ => hold k hk, ?_, by simp, fun k hk x => ?_⟩
  · exact ⟨_, _, hown, (hold _ hc).trans hown, rfl, rfl, by simp⟩
  · simp [members_eq_nil_of_length_le hk]

theorem bind {s : Symbol} (hc : t.current < t.scopes.length) (hs : s.declaredIn = t.current)
    (h : t.bind s = .ok u) : t.Gains u [s] := by
  obtain ⟨-, rfl⟩ := bind_ok_inv h
  have hown := List.getElem?_eq_getElem hc
  refine ⟨rfl, by simp, fun k _ hk => ?_, ?_, by simpa using hs, fun k hk x => ?_⟩
  · simp [Ne.symm hk]
  · exact ⟨_, _, hown, by simp [hown], Scope.gains_add _ s⟩
  · rw [members_eq_nil_of_length_le (by simpa using hk)]
    simp

theorem trans (h : t.Gains u xs) (k : u.Gains v ys) : t.Gains v (xs ++ ys) := by
  have hown : ∃ a b, t.scopes[t.current]? = some a ∧ v.scopes[t.current]? = some b ∧
      a.Gains b (xs ++ ys) := by
    obtain ⟨a, b, ha, hb, hab⟩ := h.own
    obtain ⟨b', c, hb', hc, hbc⟩ := k.own
    rw [h.current] at hb' hc
    obtain rfl := Option.some.inj (hb.symm.trans hb')
    exact ⟨a, c, ha, hc, hab.trans hbc⟩
  refine ⟨k.current.trans h.current, Nat.le_trans h.scopes k.scopes, ?_, hown, ?_, ?_⟩
  · intro j hj hne
    rw [k.others j (Nat.lt_of_lt_of_le hj h.scopes) (h.current ▸ hne), h.others j hj hne]
  · exact List.forall_mem_append.mpr ⟨h.home, fun b hb => (k.home b hb).trans h.current⟩
  · intro j hj x
    by_cases hu : u.scopes.length ≤ j
    · exact k.opened j hu x
    · -- A scope that is new in `u` is not the current one, so it stays as it was there.
      have hne : j ≠ u.current := by
        rw [h.current]
        exact Nat.ne_of_gt (Nat.lt_of_lt_of_le h.current_lt hj)
      rw [members_eq_of_scope (k.others j (Nat.lt_of_not_le hu) hne)]
      exact h.opened j hj x

/-- What is done in a new scope, until the table is back, leaves no trace in the old ones. -/
theorem inside (h : t.Gains u xs) {scope : ScopeId} (hs : t.scopes.length ≤ scope)
    (k : (u.moveTo scope).Gains v ys) : t.Gains (v.moveTo t.current) xs := by
  have hold : ∀ j < t.scopes.length, v.scopes[j]? = u.scopes[j]? := fun j hj =>
    k.others j (Nat.lt_of_lt_of_le hj h.scopes) (Nat.ne_of_lt (Nat.lt_of_lt_of_le hj hs))
  refine ⟨rfl, Nat.le_trans h.scopes k.scopes, ?_, ?_, h.home, ?_⟩
  · exact fun j hj hne => (hold j hj).trans (h.others j hj hne)
  · obtain ⟨a, b, ha, hb, hab⟩ := h.own
    exact ⟨a, b, ha, (hold _ h.current_lt).trans hb, hab⟩
  · intro j hj x b hb
    by_cases hu : u.scopes.length ≤ j
    · exact k.opened j hu x b hb
    · by_cases hne : j = scope
      · subst hne
        have hmembers : v.members j x = u.members j x ++ ys.filter fun s => s.name == x :=
          k.members x
        rw [members_moveTo, hmembers, List.mem_append] at hb
        rcases hb with hb | hb
        · exact h.opened _ hj x b hb
        · exact k.home b (List.mem_filter.mp hb).1
      · refine h.opened j hj x b ?_
        rwa [← members_eq_of_scope (t := u) (k.others j (Nat.lt_of_not_le hu) hne)]

/-- If nothing was added, then every look-up from a scope that was there gives what it gave. -/
theorem lookups_eq (h : t.Gains u []) (hp : ∀ j p, t.parent? j = some p → p < j) {k : ScopeId}
    (hk : k < t.scopes.length) (x : String) :
    u.members k x = t.members k x ∧ u.visibleFrom k x = t.visibleFrom k x := by
  have hmembers : ∀ j < t.scopes.length, ∀ x, u.members j x = t.members j x := by
    intro j hj x
    by_cases hc : j = t.current
    · rw [hc, h.members, List.filter_nil, List.append_nil]
    · exact members_eq_of_scope (h.others j hj hc) x
  exact ⟨hmembers k hk x, searchOutward_congr hp (fun j hj => ⟨h.parent? hj, hmembers j hj⟩) x
    (Nat.lt_of_lt_of_le hk h.scopes) hk hk⟩

end Gains

end Table

namespace Registration

structure Binds (outer : Option (List String)) (s s' : State) (added : List Symbol) : Prop where
  table : s.table.Gains s'.table added
  outer : ∀ b ∈ added, b.outer? = outer
  reports : s.diagnostics <+: s'.diagnostics

theorem Binds.of_reports {outer : Option (List String)} {s r s' : State} {added : List Symbol}
    (h : Binds outer r s' added) (ht : r.table = s.table) (hd : s.diagnostics <+: r.diagnostics) :
    Binds outer s s' added :=
  ⟨ht ▸ h.table, h.outer, hd.trans h.reports⟩

def StaysIn {ν α : Type} (outer : Option (List String)) (v : Visit State ν α) : Prop :=
  ∀ s node answer s', s.table.current < s.table.scopes.length → v s = ⟨node, .ok answer, s'⟩ →
    ∃ added, Binds outer s s' added

namespace StaysIn

variable {ν μ α β : Type} {outer : Option (List String)}

theorem done (node : ν) (answer : α) : StaysIn outer (Visit.done node answer) := by
  intro s node' answer' s' hc h
  cases h
  exact ⟨[], .of_scopes_eq hc rfl rfl, by simp, List.prefix_rfl⟩

theorem fail (node : ν) (fault : Fault) :
    StaysIn outer (Visit.fail node fault : Visit State ν α) := by
  intro s node' answer' s' _ h
  cases h

theorem part {v : Visit State ν α} {put : ν → μ} {rest : ν → α → Visit State μ β}
    (hv : StaysIn outer v) (hr : ∀ node answer, StaysIn outer (rest node answer)) :
    StaysIn outer (v.part put rest) := by
  intro s node answer s' hc h
  obtain ⟨n, a, s1, h1, h2⟩ := Visit.part_ok_iff.mp h
  obtain ⟨xs, hxs⟩ := hv s n a s1 hc h1
  obtain ⟨ys, hys⟩ := hr n a s1 node answer s' hxs.table.current_lt_after h2
  exact ⟨xs ++ ys, hxs.table.trans hys.table, List.forall_mem_append.mpr ⟨hxs.outer, hys.outer⟩,
    hxs.reports.trans hys.reports⟩

theorem within {v : Visit State ν α} {put : ν → μ} (hv : StaysIn outer v) :
    StaysIn outer (v.within put) :=
  hv.part fun _ _ => done _ _

theorem each {visit : ν → Visit State ν Unit} (hv : ∀ node, StaysIn outer (visit node))
    (nodes : List ν) : StaysIn outer (Visit.each visit nodes) := by
  induction nodes with
  | nil => exact done _ _
  | cons node rest ih => exact (hv node).part fun _ _ => ih.within

theorem after {v : Visit State ν α} (hv : StaysIn outer v) {before : State → State}
    (ht : ∀ s, (before s).table = s.table)
    (hd : ∀ s, s.diagnostics <+: (before s).diagnostics) :
    StaysIn outer fun s => v (before s) := by
  intro s node answer s' hc h
  obtain ⟨xs, hxs⟩ := hv (before s) node answer s' (by rw [ht]; exact hc) h
  exact ⟨xs, hxs.of_reports (ht s) (hd s)⟩

end StaysIn

/-- The number is used up whether or not the symbol is bound. -/
theorem declare_gains {s s' : State} {name : Name} {details : Details} {scope : Option ScopeId}
    {answer : Option Symbol} (hc : s.table.current < s.table.scopes.length)
    (h : s.declare name details scope = (s', answer)) :
    s.table.Gains s'.table answer.toList ∧ s'.diagnostics = s.diagnostics ∧
      ∀ b, answer = some b → b.name = name.text ∧ b.details = details ∧ b.scope = scope := by
  unfold State.declare at h
  dsimp only at h
  split at h
  · next u hb =>
    cases h
    have hnew : s.table.Gains (s.table.newSymbol name.text details scope name.span.start).2 [] :=
      .of_scopes_eq hc rfl rfl
    refine ⟨hnew.trans (.bind hnew.current_lt_after rfl hb), rfl, ?_⟩
    rintro b ⟨⟩
    exact ⟨rfl, rfl, rfl⟩
  · cases h
    exact ⟨.of_scopes_eq hc rfl rfl, rfl, by simp⟩

def Home.outer? : Home → Option (List String)
  | .method => none
  | .cls _ path => some path

theorem registerVar_staysIn (home : Home) (type : TypeExpr) (v : Declarator) :
    StaysIn home.outer? (registerVar home type v) := by
  intro s v' answer s' hc h
  unfold registerVar at h
  dsimp only at h
  split at h
  · have htable : (home.take s).2.table = s.table := by cases home <;> rfl
    have hreports : (home.take s).2.diagnostics = s.diagnostics := by cases home <;> rfl
    split at h
    · next s1 hd =>
      cases h
      obtain ⟨hg, hs1, -⟩ := declare_gains (by rw [htable]; exact hc) hd
      rw [htable] at hg
      rw [hreports] at hs1
      exact ⟨[], hg, by simp, hs1 ▸ List.prefix_append _ _⟩
    · next s1 b hd =>
      obtain ⟨hg, hs1, hb⟩ := declare_gains (by rw [htable]; exact hc) hd
      rw [htable] at hg
      rw [hreports] at hs1
      split at h
      · cases h
        refine ⟨[b], hg, ?_, hs1 ▸ List.prefix_rfl⟩
        rw [List.forall_mem_singleton, Symbol.outer?, (hb b rfl).2.1]
        cases home <;> rfl
      · cases h
  · cases h
    exact ⟨[], .of_scopes_eq hc rfl rfl, by simp, List.prefix_append _ _⟩

theorem registerVars_staysIn (home : Home) (d : VarDecl) :
    StaysIn home.outer? (registerVars home d) :=
  (StaysIn.each (registerVar_staysIn home d.type) d.vars).within

theorem registerField_staysIn (path : List String) (d : VarDecl) :
    StaysIn (some path) (registerField path d) :=
  (registerVars_staysIn (.cls (Modifier.isStatic d.modifiers) path) d).after (fun _ => rfl)
    fun _ => List.prefix_append _ _

theorem registerLocals_staysIn (d : VarDecl) : StaysIn none (registerLocals d) := by
  refine (registerVars_staysIn .method d).after (fun s => ?_) fun s => ?_
  · split <;> rfl
  · split
    · exact List.prefix_rfl
    · exact List.prefix_append _ _

mutual

theorem registerStmt_staysIn : ∀ stmt : Stmt, StaysIn none (registerStmt stmt)
  | .locals d => by
    rw [registerStmt]
    exact (registerLocals_staysIn d).within
  | .block body _ => by
    rw [registerStmt]
    exact (registerStmts_staysIn body).within
  | .ifThen _ thenBody _ => by
    rw [registerStmt]
    exact (registerStmt_staysIn thenBody).within
  | .ifElse _ thenBody elseBody _ => by
    rw [registerStmt]
    exact (registerStmt_staysIn thenBody).part fun _ _ => (registerStmt_staysIn elseBody).within
  | .loop _ body _ => by
    rw [registerStmt]
    exact (registerStmt_staysIn body).within
  | .expr .. => by
    rw [registerStmt]
    · exact .done _ _
    all_goals simp
  | .ret .. => by
    rw [registerStmt]
    · exact .done _ _
    all_goals simp
  | .empty _ => by
    rw [registerStmt]
    · exact .done _ _
    all_goals simp

theorem registerStmts_staysIn : ∀ body : List Stmt, StaysIn none (registerStmts body)
  | [] => by
    rw [registerStmts]
    exact .done _ _
  | stmt :: rest => by
    rw [registerStmts]
    exact (registerStmt_staysIn stmt).part fun _ _ => (registerStmts_staysIn rest).within

end

theorem registerParam_staysIn (index : UInt16) (p : Param) :
    StaysIn none (registerParam index p) := by
  intro s p' answer s' hc h
  unfold registerParam at h
  dsimp only at h
  split at h
  · split at h
    · next s1 hd =>
      cases h
      obtain ⟨hg, hs1, -⟩ := declare_gains hc hd
      exact ⟨[], hg, by simp, hs1 ▸ List.prefix_append _ _⟩
    · next s1 b hd =>
      obtain ⟨hg, hs1, hb⟩ := declare_gains hc hd
      split at h
      · cases h
        refine ⟨[b], hg, ?_, hs1 ▸ List.prefix_rfl⟩
        rw [List.forall_mem_singleton, Symbol.outer?, (hb b rfl).2.1]
      · cases h
  · cases h
    exact ⟨[], .of_scopes_eq hc rfl rfl, by simp, List.prefix_append _ _⟩

theorem registerParams_staysIn (params : List Param) :
    ∀ index : UInt16, StaysIn none (registerParams index params) := by
  induction params with
  | nil => exact fun _ => .done _ _
  | cons p rest ih =>
    exact fun index => (registerParam_staysIn index p).part fun _ _ => (ih _).within

theorem registerMethodBody_staysIn (m : Method) : StaysIn none (registerMethodBody m) := by
  refine (registerParams_staysIn m.params 0).part fun params _ => ?_
  dsimp only
  split
  · exact .fail _ _
  · exact (registerStmts_staysIn _).within

structure Begins (path : List String) (s r : State) (name : String) (b : Symbol) : Prop where
  binds : Binds (some path) s r [b]
  name : b.name = name
  scope : b.scope = some s.table.scopes.length
  inside : s.table.scopes.length < r.table.scopes.length
  empty : ∀ x, r.table.members s.table.scopes.length x = []

theorem declare_begins {path : List String} {s r : State} {reports : List Diagnostic} {n : UInt16}
    {name : Name} {details : Details} {answer : Option Symbol}
    (hc : s.table.current < s.table.scopes.length) (hd : s.diagnostics <+: reports)
    (ho : ∀ b : Symbol, b.details = details → b.outer? = some path)
    (h : (State.mk (s.table.openScope name.text).2 reports n).declare name details
      (some (s.table.openScope name.text).1) = (r, answer)) :
    (answer = none → Binds (some path) s r []) ∧
      ∀ b, answer = some b → Begins path s r name.text b := by
  have hopen := Table.Gains.openScope hc name.text
  obtain ⟨hg, hr, hb⟩ := declare_gains hopen.current_lt_after h
  have hreports : s.diagnostics <+: r.diagnostics := hr ▸ hd
  have hlt : s.table.scopes.length < (s.table.openScope name.text).2.scopes.length := by
    simp [Table.openScope]
  constructor
  · rintro rfl
    exact ⟨hopen.trans hg, by simp, hreports⟩
  · rintro b rfl
    obtain ⟨hname, hdetails, hscope⟩ := hb b rfl
    refine ⟨⟨hopen.trans hg, List.forall_mem_singleton.mpr (ho b hdetails), hreports⟩, hname,
      hscope, Nat.lt_of_lt_of_le hlt hg.scopes, fun x => ?_⟩
    rw [Table.members_eq_of_scope (hg.others _ hlt (Nat.ne_of_gt hc)), Table.members_openScope,
      Table.members_eq_nil_of_length_le (Nat.le_refl _)]

/-- What the registration of a class or a method comes to. Either it is rejected, with a report, and
nothing is added; or its symbol is added, and what its scope binds says to be declared in `inner`.
-/
inductive Outcome (path : List String) (inner : Option (List String)) (s s' : State) (name : String)
    (duplicate : Diagnostic) : Option Symbol → Prop
  | rejected (h : Binds (some path) s s' []) (hd : s'.diagnostics.getLast? = some duplicate) :
    Outcome path inner s s' name duplicate none
  | bound {b : Symbol} {scope : ScopeId} (h : Binds (some path) s s' [b]) (hb : b.name = name)
    (hs : b.scope = some scope) (hnew : s.table.scopes.length ≤ scope)
    (hin : ∀ x, ∀ d ∈ s'.table.members scope x, d.outer? = inner) :
    Outcome path inner s s' name duplicate (some b)

section

variable {path : List String} {inner : Option (List String)} {s r s' : State} {name : String}
  {duplicate : Diagnostic}

theorem Outcome.binds {added : Option Symbol} (h : Outcome path inner s s' name duplicate added) :
    Binds (some path) s s' added.toList := by
  cases h with
  | rejected h => exact h
  | bound h => exact h

theorem Binds.rejected (h : Binds (some path) s r []) (problem : Problem) (position : Position) :
    Outcome path inner s (r.report problem position) name ⟨problem, position⟩ none :=
  .rejected ⟨h.table, h.outer, h.reports.trans (List.prefix_append _ _)⟩ (by simp [State.report])

/-- The body of a declaration is visited in its own scope, and then the table moves back. -/
theorem Begins.outcome {ν α : Type} {b : Symbol} {r' : State} {node : ν} {answer : α}
    {body : Visit State ν α} (hb : Begins path s r name b) (hbody : StaysIn inner body)
    (h : body r' = ⟨node, .ok answer, s'⟩) (ht : r'.table = r.table.moveTo s.table.scopes.length)
    (hd : r'.diagnostics = r.diagnostics) :
    Outcome path inner s (s'.moveTo s.table.current) name duplicate (some b) := by
  obtain ⟨xs, hxs⟩ := hbody r' node answer s' (by rw [ht]; exact hb.inside) h
  have hgains := hxs.table
  rw [ht] at hgains
  refine .bound ⟨hb.binds.table.inside (Nat.le_refl _) hgains, hb.binds.outer, ?_⟩ hb.name hb.scope
    (Nat.le_refl _) fun x d hmem => ?_
  · exact hb.binds.reports.trans (hd ▸ hxs.reports)
  · have hmembers : s'.table.members s.table.scopes.length x =
        [] ++ xs.filter fun s => s.name == x :=
      (hgains.members x).trans (congrArg (· ++ _) (hb.empty x))
    rw [State.moveTo, Table.members_moveTo, hmembers, List.nil_append] at hmem
    exact hxs.outer d (List.mem_filter.mp hmem).1

end

theorem fillSlot_ok {slot slot' : Option Symbol} {b : Symbol} {what : Mark} {name : String}
    (h : fillSlot slot b what name = .ok slot') : slot = none ∧ slot' = some b := by
  cases slot with
  | none =>
    cases h
    exact ⟨rfl, rfl⟩
  | some => cases h

theorem symbol_of_registerMethodBody {m m' : Method} {s s' : State}
    (h : registerMethodBody m s = ⟨m', .ok (), s'⟩) : m'.symbol = m.symbol := by
  obtain ⟨params, _, s1, -, hrest⟩ := Visit.part_ok_iff.mp h
  cases hbody : m.body with
  | none =>
    simp only [hbody] at hrest
    cases hrest
  | some body =>
    simp only [hbody] at hrest
    obtain ⟨body', -, rfl⟩ := Visit.within_ok_iff.mp hrest
    rfl

theorem registerMethod_outcome {path : List String} {m m' : Method} {s s' : State}
    (hc : s.table.current < s.table.scopes.length)
    (h : registerMethod path m s = ⟨m', .ok (), s'⟩) :
    ∃ added, Outcome path none s s' m.name.text ⟨.duplicateMethod m.name.text, m.name.span.start⟩
        added ∧
      (added = none → m' = m) ∧ ∀ b, added = some b → m.symbol = none ∧ m'.symbol = some b := by
  have hreported : Binds (some path) s
      (s.reportAll (modifierProblems m.name.text m.modifiers) m.name.span.start) [] :=
    ⟨.of_scopes_eq hc rfl rfl, by simp, List.prefix_append _ _⟩
  have houter : ∀ b : Symbol,
      b.details = .method (m.params.map Param.type) m.returns m.modifiers path none →
        b.outer? = some path := fun b hb => by simp [Symbol.outer?, hb]
  unfold registerMethod at h
  dsimp only at h
  split at h
  · cases h
    exact ⟨none, hreported.rejected _ _, fun _ => rfl, by simp⟩
  · split at h
    · next r hd =>
      cases h
      have hb := (declare_begins hc hreported.reports houter hd).1 rfl
      exact ⟨none, hb.rejected _ _, fun _ => rfl, by simp⟩
    · next r b hd =>
      have hb := (declare_begins hc hreported.reports houter hd).2 b rfl
      split at h
      · cases h
      · next slot hslot =>
        obtain ⟨hfree, rfl⟩ := fillSlot_ok hslot
        obtain ⟨m1, _, s1, h1, h2⟩ := Visit.part_ok_iff.mp h
        cases h2
        refine ⟨some b, hb.outcome (registerMethodBody_staysIn _) h1 rfl rfl, by simp, ?_⟩
        rintro _ ⟨⟩
        exact ⟨hfree, symbol_of_registerMethodBody h1⟩

theorem registerClassWith_outcome {path : List String} {head : ClassHead} {members : List Member}
    {body : List String → Visit State (List Member) Unit} {c : ClassDecl} {s s' : State}
    (hbody : ∀ path, StaysIn (some path) (body path))
    (hc : s.table.current < s.table.scopes.length)
    (h : registerClassWith path head members body s = ⟨c, .ok (), s'⟩) :
    ∃ added, Outcome path (some (path ++ [head.name.text])) s s' head.name.text
        ⟨.duplicateClass head.name.text, head.name.span.start⟩ added ∧
      (added = none → c = ⟨head, members⟩) ∧
      ∀ b, added = some b → head.symbol = none ∧ c.head.symbol = some b := by
  have hreported : Binds (some path) s
      ⟨s.table, (s.reportAll (modifierProblems head.name.text head.modifiers)
        head.name.span.start).diagnostics ++ unsupportedHead head, s.nextSlot⟩ [] :=
    ⟨.of_scopes_eq hc rfl rfl, by simp, (List.prefix_append _ _).trans (List.prefix_append _ _)⟩
  have houter : ∀ b : Symbol, b.details = .cls (path ++ [head.name.text]) head.modifiers false →
      b.outer? = some path := fun b hb => by simp [Symbol.outer?, hb]
  unfold registerClassWith at h
  dsimp only at h
  split at h
  · split at h
    · next r hd =>
      cases h
      have hb := (declare_begins hc hreported.reports houter hd).1 rfl
      exact ⟨none, hb.rejected _ _, fun _ => rfl, by simp⟩
    · next r b hd =>
      have hb := (declare_begins hc hreported.reports houter hd).2 b rfl
      split at h
      · cases h
      · next slot hslot =>
        obtain ⟨hfree, rfl⟩ := fillSlot_ok hslot
        obtain ⟨members', _, s1, h1, h2⟩ := Visit.part_ok_iff.mp h
        cases h2
        refine ⟨some b, hb.outcome (hbody _) h1 rfl rfl, by simp, ?_⟩
        rintro _ ⟨⟩
        exact ⟨hfree, rfl⟩
  · cases h
    exact ⟨none, hreported.rejected _ _, fun _ => rfl, by simp⟩

mutual

theorem registerMember_staysIn : ∀ (path : List String) (m : Member),
    StaysIn (some path) (registerMember path m)
  | path, .method m => by
    rw [registerMember]
    refine StaysIn.within fun s m' answer s' hc h => ?_
    obtain ⟨added, ho, -⟩ := registerMethod_outcome hc h
    exact ⟨added.toList, ho.binds⟩
  | path, .field d => by
    rw [registerMember]
    exact (registerField_staysIn path d).within
  | path, .nested head members => by
    rw [registerMember]
    refine StaysIn.within fun s c answer s' hc h => ?_
    obtain ⟨added, ho, -⟩ :=
      registerClassWith_outcome (fun path => registerMembers_staysIn path members) hc h
    exact ⟨added.toList, ho.binds⟩

theorem registerMembers_staysIn : ∀ (path : List String) (ms : List Member),
    StaysIn (some path) (registerMembers path ms)
  | _, [] => by
    rw [registerMembers]
    exact .done _ _
  | path, m :: rest => by
    rw [registerMembers]
    exact (registerMember_staysIn path m).part fun _ _ => (registerMembers_staysIn path rest).within

end

/-- How the registration of `name` in the class at `path` leaves what was there before. The symbol
that was bound is `added`; if there is none, then the registration ends with the report `duplicate`.
What is declared inside is in the class at `inner`. -/
structure Framed (path : List String) (inner : Option (List String)) (s s' : State) (name : String)
    (duplicate : Diagnostic) (added : Option Symbol) : Prop where
  current : s'.table.current = s.table.current
  others : ∀ k < s.table.scopes.length, k ≠ s.table.current →
    s'.table.scopes[k]? = s.table.scopes[k]?
  own : ∃ a b, s.table.scopes[s.table.current]? = some a ∧
    s'.table.scopes[s.table.current]? = some b ∧ b.name = a.name ∧ b.parent = a.parent ∧
    ∀ x, b.get x = a.get x ++ if x = name then added.toList else []
  reports : s.diagnostics <+: s'.diagnostics
  rejected : added = none → s'.diagnostics.getLast? = some duplicate ∧
    ∀ k < s.table.scopes.length, ∀ x, s'.table.members k x = s.table.members k x ∧
      s'.table.visibleFrom k x = s.table.visibleFrom k x
  opened : ∀ k, s.table.scopes.length ≤ k → ∀ x, ∀ b ∈ s'.table.members k x, b.declaredIn = k
  owner : ∀ b, added = some b → b.outer? = some path ∧ ∃ k, b.scope = some k ∧
    s.table.scopes.length ≤ k ∧ ∀ x, ∀ d ∈ s'.table.members k x, d.outer? = inner

theorem Outcome.framed {path : List String} {inner : Option (List String)} {s s' : State}
    {name : String} {duplicate : Diagnostic} {added : Option Symbol}
    (h : Outcome path inner s s' name duplicate added)
    (hp : ∀ j p, s.table.parent? j = some p → p < j) :
    Framed path inner s s' name duplicate added := by
  have hgains := h.binds.table
  have hown : ∀ x, (added.toList.filter fun b => b.name == x) =
      if x = name then added.toList else [] := by
    intro x
    cases h with
    | rejected => simp
    | bound _ hb => by_cases hx : x = name <;> simp [hx, hb, Ne.symm]
  refine ⟨hgains.current, hgains.others, ?_, h.binds.reports, ?_, hgains.opened, ?_⟩
  · obtain ⟨a, b, ha, hb, hab⟩ := hgains.own
    exact ⟨a, b, ha, hb, hab.name, hab.parent, fun x => by rw [hab.get, hown]⟩
  · rintro rfl
    cases h with
    | rejected _ hd => exact ⟨hd, fun k hk x => hgains.lookups_eq hp hk x⟩
  · rintro b rfl
    cases h with
    | bound hb _ hscope hnew hin => exact ⟨hb.outer b List.mem_cons_self, _, hscope, hnew, hin⟩

end Registration

open Registration

/-- The frame of a declaration, in every table that can be reached. When a class or a method was
registered without a fault, the table is in the scope it was in. Of the scopes that were there only
the current one may have changed, and only by one symbol behind those of the declared name. There is
none if the declaration was rejected, and then every look-up gives what it gave. Earlier reports
stand first, and new scopes bind only symbols that were made in them. The class path is what it was:
all members say to be in their class, whatever classes were declared before them. -/
theorem declaration_frame {h : History} (hr : h.Reachable) (path : List String) {s : State}
    (hs : s.table = h.table) :
    (∀ c c' s', registerClass path c s = ⟨c', .ok (), s'⟩ →
      ∃ added, Framed path (some (path ++ [c.head.name.text])) s s' c.head.name.text
          ⟨.duplicateClass c.head.name.text, c.head.name.span.start⟩ added ∧
        (added = none → c' = c) ∧
        ∀ b, added = some b → c.head.symbol = none ∧ c'.head.symbol = some b) ∧
    ∀ m m' s', registerMethod path m s = ⟨m', .ok (), s'⟩ →
      ∃ added, Framed path none s s' m.name.text
          ⟨.duplicateMethod m.name.text, m.name.span.start⟩ added ∧
        (added = none → m' = m) ∧
        ∀ b, added = some b → m.symbol = none ∧ m'.symbol = some b := by
  have hi := hr.invariant
  have hc : s.table.current < s.table.scopes.length := hs ▸ hi.current
  have hp : ∀ j p, s.table.parent? j = some p → p < j := fun j p hp => hi.parent_lt (hs ▸ hp)
  constructor
  · intro c c' s' hrun
    obtain ⟨added, ho, hrest⟩ :=
      registerClassWith_outcome (fun path => registerMembers_staysIn path c.members) hc hrun
    exact ⟨added, ho.framed hp, hrest⟩
  · intro m m' s' hrun
    obtain ⟨added, ho, hrest⟩ := registerMethod_outcome hc hrun
    exact ⟨added, ho.framed hp, hrest⟩

namespace Sample

def crate : ClassDecl :=
  ⟨⟨.plain "Crate", [], none, [], none⟩,
    [method [] (word .int) "f" [(word .int, "n")] [.locals (decl [] (word .int) [("x", none)])],
     .nested ⟨.plain "Deep", [], none, [], none⟩
       [.field (decl [] (word .int) [("d", none)]), .nested ⟨.plain "d", [], none, [], none⟩ []],
     method [] (word .void) "Deep" [] [],
     .field (decl [] (word .int) [("last", none), ("f", none)])]⟩

def mistaken : Method := ⟨.plain "Main", [], word .void, [], some [], none⟩

end Sample

theorem declaration_frame_sample : ∃ h : History, h.Reachable ∧ h.table.scopes.length = 5 ∧
    ∃ s : State, s.table = h.table ∧ s.diagnostics.length = 1 ∧
      (∃ c' s' b, registerClass ["Outer"] Sample.crate s = ⟨c', .ok (), s'⟩ ∧
        s'.table.scopes.length = 9 ∧ s'.diagnostics.length = 4 ∧
        Framed ["Outer"] (some ["Outer", "Crate"]) s s' "Crate"
          ⟨.duplicateClass "Crate", .null⟩ (some b)) ∧
      ∃ m' s', registerMethod ["Outer"] Sample.mistaken s = ⟨m', .ok (), s'⟩ ∧
        s'.table.scopes.length = 6 ∧
        Framed ["Outer"] none s s' "Main" ⟨.duplicateMethod "Main", .null⟩ none := by
  have hr : ((History.system 3).run (Sample.operations ++ [.moveTo 0])).Reachable :=
    (History.Reachable.system 3).run (by decide +kernel)
  generalize ht : ((History.system 3).run (Sample.operations ++ [.moveTo 0])) = h at hr
  refine ⟨h, hr, by rw [← ht]; decide +kernel, ⟨h.table, [⟨.notAType "x", .null⟩], 5⟩, rfl, rfl, ?_⟩
  obtain ⟨hcls, hmethod⟩ := declaration_frame hr ["Outer"]
    (s := ⟨h.table, [⟨.notAType "x", .null⟩], 5⟩) rfl
  have hcrate : ∀ r,
      registerClass ["Outer"] Sample.crate ⟨h.table, [⟨.notAType "x", .null⟩], 5⟩ = r →
      r.answer.isOk = true ∧ r.state.table.scopes.length = 9 ∧ r.state.diagnostics.length = 4 ∧
        r.node.head.symbol.isSome = true := by
    rintro _ rfl
    rw [← ht]
    decide +kernel
  have hmistaken : ∀ r, registerMethod ["Outer"] Sample.mistaken
      ⟨h.table, [⟨.notAType "x", .null⟩], 5⟩ = r →
      r.answer.isOk = true ∧ r.state.table.scopes.length = 6 ∧ r.node.symbol.isNone = true := by
    rintro _ rfl
    rw [← ht]
    decide +kernel
  constructor
  · generalize hrun : registerClass ["Outer"] Sample.crate
      ⟨h.table, [⟨.notAType "x", .null⟩], 5⟩ = r at hcrate
    obtain ⟨c', _ | ⟨⟩, s'⟩ := r
    · cases (hcrate _ rfl).1
    obtain ⟨-, hlength, hreports, hsome⟩ := hcrate _ rfl
    obtain ⟨added, hframed, hnone, -⟩ := hcls _ _ _ hrun
    cases added with
    | none =>
      rw [hnone rfl] at hsome
      cases hsome
    | some b => exact ⟨c', s', b, rfl, hlength, hreports, hframed⟩
  · generalize hrun : registerMethod ["Outer"] Sample.mistaken
      ⟨h.table, [⟨.notAType "x", .null⟩], 5⟩ = r at hmistaken
    obtain ⟨m', _ | ⟨⟩, s'⟩ := r
    · cases (hmistaken _ rfl).1
    obtain ⟨-, hlength, hnone⟩ := hmistaken _ rfl
    obtain ⟨added, hframed, -, hsome⟩ := hmethod _ _ _ hrun
    cases added with
    | none => exact ⟨m', s', rfl, hlength, hframed⟩
    | some b =>
      rw [(hsome b rfl).2] at hnone
      cases hnone

end ClassLang
