import ClassLang.Proofs.Scopes
import ClassLang.Registration

/-! Tables that registration produces, from any unit and whether or not it comes to an end. Parents
come before their children, every class has a scope for its members, and symbols that share a name
and a scope stand in the order in which they were made. So a search outward ends at the nearest
scope that binds a name. -/
namespace ClassLang

namespace Table

/-- What registration does to a table. A class opens a scope, and a number is used up even if its
symbol clashes. -/
inductive Step : Table → Table → Prop
  | openScope (t : Table) (name : String) : Step t (t.openScope name).2
  | moveTo (t : Table) {scope : ScopeId} (h : scope < t.scopes.length) : Step t (t.moveTo scope)
  | clash (t : Table) (name : String) (details : Details) (scope : Option ScopeId)
    (position : Position) : Step t (t.newSymbol name details scope position).2
  | declare (t : Table) {u : Table} (name : String) (details : Details) (scope : Option ScopeId)
    (position : Position)
    (hc : ∀ path ms builtin, details = .cls path ms builtin → scope.isSome = true)
    (h : (t.newSymbol name details scope position).2.bind
      (t.newSymbol name details scope position).1 = .ok u) : Step t u

inductive Runs (t : Table) : Table → Prop
  | refl : Runs t t
  | tail {u v : Table} (h : Runs t u) (hs : Step u v) : Runs t v

theorem Runs.single {t u : Table} (h : t.Step u) : t.Runs u := .tail .refl h

theorem Runs.trans {t u v : Table} (h : t.Runs u) (k : u.Runs v) : t.Runs v := by
  induction k with
  | refl => exact h
  | tail _ hs ih => exact ih.tail hs

structure InOrder (t : Table) : Prop where
  current : t.current < t.scopes.length
  parent : ∀ j p, t.parent? j = some p → p < j
  opened : ∀ k x, ∀ b ∈ t.members k x, b.kind = .cls → b.scope.isSome = true
  recent : ∀ k x, ∀ b ∈ t.members k x, b.id.number < t.nextSymbol
  order : ∀ k x, (t.members k x).Pairwise fun a b => a.id.number < b.id.number

theorem inOrder_empty (tag : Nat) : (Table.empty tag).InOrder := by
  have hmembers : ∀ k x, (Table.empty tag).members k x = [] := by
    rintro (_ | k) x <;> simp [members, Table.empty]
  have hparent : ∀ j, (Table.empty tag).parent? j = none := by
    rintro (_ | j) <;> simp [parent?, Table.empty, Scope.empty]
  constructor
  · simp [Table.empty, root]
  · simp [hparent]
  · simp [hmembers]
  · simp [hmembers]
  · simp [hmembers]

theorem inOrder_withSystem (tag : Nat) : (withSystem tag).InOrder := by
  have hs := sound_withSystem tag
  refine ⟨hs.current, hs.parent, fun k x b hb hk => ?_,
    fun k x b hb => (hs.number b (hs.bound_of_mem hb)).2, fun k x => ?_⟩
  · have hfits := hs.fits b (hs.bound_of_mem hb)
    unfold Symbol.kind at hk
    split at hk
    · next hd =>
      rw [Fits, hd] at hfits
      exact hfits.1
    · cases hk
    · cases hk
  rw [members_withSystem]
  refine List.Pairwise.filter _ ?_
  simp [builtins, systemClass, consoleRoutine]

theorem InOrder.openScope {t : Table} (h : t.InOrder) (name : String) :
    (t.openScope name).2.InOrder := by
  have hlength : (t.openScope name).2.scopes.length = t.scopes.length + 1 := by
    simp [Table.openScope]
  refine ⟨hlength ▸ Nat.lt_succ_of_lt h.current, fun j p hp => ?_, fun k x b hb => ?_,
    fun k x b hb => ?_, fun k x => ?_⟩
  · rw [parent?_openScope] at hp
    split at hp
    · next hj =>
      cases hp
      exact hj ▸ h.current
    · exact h.parent j p hp
  · rw [members_openScope] at hb
    exact h.opened k x b hb
  · rw [members_openScope] at hb
    exact h.recent k x b hb
  · rw [members_openScope]
    exact h.order k x

/-- The symbol made last has the largest number. -/
theorem InOrder.declare {t u : Table} (h : t.InOrder) {name : String} {details : Details}
    {scope : Option ScopeId} {position : Position}
    (hc : ∀ path ms builtin, details = .cls path ms builtin → scope.isSome = true)
    (hb : (t.newSymbol name details scope position).2.bind
      (t.newSymbol name details scope position).1 = .ok u) : u.InOrder := by
  have hmembers := members_of_bind hb h.current
  have hparent := parent?_of_bind hb
  obtain ⟨-, hu⟩ := bind_ok_inv hb
  have hnext : u.nextSymbol = t.nextSymbol + 1 := by rw [hu]; rfl
  have hcases : ∀ {k x b}, b ∈ u.members k x →
      b ∈ t.members k x ∨ b = (t.newSymbol name details scope position).1 := by
    intro k x b hmem
    rw [hmembers] at hmem
    split at hmem
    · exact (List.mem_append.mp hmem).imp id List.mem_singleton.mp
    · exact Or.inl hmem
  refine ⟨?_, fun j p hp => h.parent j p (hparent j ▸ hp), fun k x b hmem hk => ?_,
    fun k x b hmem => ?_, fun k x => ?_⟩
  · rw [hu]
    simpa [newSymbol] using h.current
  · rcases hcases hmem with hmem | rfl
    · exact h.opened k x b hmem hk
    · unfold Symbol.kind at hk
      split at hk
      · next path ms builtin hd => exact hc path ms builtin hd
      · cases hk
      · cases hk
  · rw [hnext]
    rcases hcases hmem with hmem | rfl
    · exact Nat.lt_succ_of_lt (h.recent k x b hmem)
    · exact Nat.lt_succ_self _
  · rw [hmembers]
    split
    · rw [List.pairwise_append]
      refine ⟨h.order k x, List.pairwise_singleton _ _, fun a ha b hmem => ?_⟩
      rw [List.mem_singleton.mp hmem]
      exact h.recent k x a ha
    · exact h.order k x

theorem InOrder.step {t u : Table} (h : t.InOrder) (hs : t.Step u) : u.InOrder := by
  cases hs with
  | openScope name => exact h.openScope name
  | moveTo hscope => exact ⟨hscope, h.parent, h.opened, h.recent, h.order⟩
  | clash name details scope position =>
    exact ⟨h.current, h.parent, h.opened, fun k x b hb => Nat.lt_succ_of_lt (h.recent k x b hb),
      h.order⟩
  | declare name details scope position hc hb => exact h.declare hc hb

theorem InOrder.runs {t u : Table} (h : t.InOrder) (hr : t.Runs u) : u.InOrder := by
  induction hr with
  | refl => exact h
  | tail _ hs ih => exact ih.step hs

/-- Scopes are never taken away. -/
theorem Step.length_le {t u : Table} (h : t.Step u) : t.scopes.length ≤ u.scopes.length := by
  cases h with
  | openScope name => simp [Table.openScope]
  | moveTo | clash => exact Nat.le_refl _
  | declare name details scope position hc hb =>
    obtain ⟨-, rfl⟩ := bind_ok_inv hb
    simp [newSymbol]

theorem Runs.length_le {t u : Table} (h : t.Runs u) : t.scopes.length ≤ u.scopes.length := by
  induction h with
  | refl => exact Nat.le_refl _
  | tail _ hs ih => exact Nat.le_trans ih hs.length_le

end Table

namespace Registration

open Table

def Moves {ν α : Type} (v : Visit State ν α) : Prop :=
  ∀ s : State, s.table.InOrder → s.table.Runs (v s).state.table

namespace Moves

variable {ν μ α β : Type}

theorem done (node : ν) (answer : α) : Moves (Visit.done node answer) := fun _ _ => .refl

theorem fail (node : ν) (fault : Fault) : Moves (Visit.fail node fault : Visit State ν α) :=
  fun _ _ => .refl

theorem part {v : Visit State ν α} {put : ν → μ} {rest : ν → α → Visit State μ β} (hv : Moves v)
    (hr : ∀ node answer, Moves (rest node answer)) : Moves (v.part put rest) := by
  intro s hs
  have hfirst := hv s hs
  unfold Visit.part
  rcases hvs : v s with ⟨node, fault | answer, s'⟩
  · rw [hvs] at hfirst
    exact hfirst
  · rw [hvs] at hfirst
    exact hfirst.trans (hr node answer s' (hs.runs hfirst))

theorem within {v : Visit State ν α} {put : ν → μ} (hv : Moves v) : Moves (v.within put) :=
  hv.part fun _ _ => done _ _

theorem each {visit : ν → Visit State ν Unit} (hv : ∀ node, Moves (visit node)) (nodes : List ν) :
    Moves (Visit.each visit nodes) := by
  induction nodes with
  | nil => exact done _ _
  | cons node rest ih => exact (hv node).part fun _ _ => ih.within

theorem of_table_eq {v : Visit State ν α} (hv : Moves v) {s s' : State} (hs : s.table.InOrder)
    (ht : s'.table = s.table) : s.table.Runs (v s').state.table := by
  rw [← ht]
  exact hv s' (ht ▸ hs)

end Moves

theorem declare_runs (s : State) (name : Name) (details : Details) (scope : Option ScopeId)
    (hc : ∀ path ms builtin, details = .cls path ms builtin → scope.isSome = true) :
    s.table.Runs (s.declare name details scope).1.table := by
  unfold State.declare
  dsimp only
  split
  · next u hb => exact .single (.declare s.table name.text details scope name.span.start hc hb)
  · exact .single (.clash s.table name.text details scope name.span.start)

theorem registerVar_moves (home : Home) (type : TypeExpr) (v : Declarator) :
    Moves (registerVar home type v) := by
  intro s hs
  unfold registerVar
  dsimp only
  split
  · have htake : (home.take s).2.table = s.table := by cases home <;> rfl
    have hrun := declare_runs (home.take s).2 v.name (.var type (home.take s).1) none (by simp)
    rw [htake] at hrun
    split
    · next hd =>
      rw [hd] at hrun
      exact hrun
    · next hd =>
      rw [hd] at hrun
      split <;> exact hrun
  · exact .refl

theorem registerVars_moves (home : Home) (d : VarDecl) : Moves (registerVars home d) :=
  (Moves.each (registerVar_moves home d.type) d.vars).within

theorem registerField_moves (path : List String) (d : VarDecl) : Moves (registerField path d) :=
  fun _ hs => (registerVars_moves _ d).of_table_eq hs rfl

theorem registerLocals_moves (d : VarDecl) : Moves (registerLocals d) := by
  intro s hs
  refine (registerVars_moves _ d).of_table_eq hs ?_
  split <;> rfl

mutual

theorem registerStmt_moves : ∀ stmt : Stmt, Moves (registerStmt stmt)
  | .locals d => by
    rw [registerStmt]
    exact (registerLocals_moves d).within
  | .block body _ => by
    rw [registerStmt]
    exact (registerStmts_moves body).within
  | .ifThen _ thenBody _ => by
    rw [registerStmt]
    exact (registerStmt_moves thenBody).within
  | .ifElse _ thenBody elseBody _ => by
    rw [registerStmt]
    exact (registerStmt_moves thenBody).part fun _ _ => (registerStmt_moves elseBody).within
  | .loop _ body _ => by
    rw [registerStmt]
    exact (registerStmt_moves body).within
  | .expr .. => by
    simp only [registerStmt]
    exact .done _ _
  | .ret .. => by
    simp only [registerStmt]
    exact .done _ _
  | .empty _ => by
    simp only [registerStmt]
    exact .done _ _

theorem registerStmts_moves : ∀ body : List Stmt, Moves (registerStmts body)
  | [] => by
    rw [registerStmts]
    exact .done _ _
  | s :: rest => by
    rw [registerStmts]
    exact (registerStmt_moves s).part fun _ _ => (registerStmts_moves rest).within

end

theorem registerParam_moves (index : UInt16) (p : Param) : Moves (registerParam index p) := by
  intro s hs
  have hrun := declare_runs s p.name (.var p.type (.param index)) none (by simp)
  unfold registerParam
  dsimp only
  split
  · split
    · next hd =>
      rw [hd] at hrun
      exact hrun
    · next hd =>
      rw [hd] at hrun
      split <;> exact hrun
  · exact .refl

theorem registerParams_moves (params : List Param) :
    ∀ index : UInt16, Moves (registerParams index params) := by
  induction params with
  | nil => exact fun _ => .done _ _
  | cons p rest ih => exact fun index => (registerParam_moves index p).part fun _ _ => (ih _).within

theorem registerMethodBody_moves (m : Method) : Moves (registerMethodBody m) := by
  refine (registerParams_moves m.params 0).part fun params _ => ?_
  dsimp only
  split
  · exact .fail _ _
  · exact (registerStmts_moves _).within

/-- What is inside a declaration is registered in a scope of its own, and the table moves back. -/
theorem runs_inside {ν μ : Type} {body : Visit State ν Unit} {put : ν → μ} {build : ν → μ}
    {s r r' : State} {scope : ScopeId} (hs : s.table.InOrder) (hopen : s.table.Runs r.table)
    (hscope : scope < r.table.scopes.length) (hr : r'.table = r.table.moveTo scope)
    (hbody : Moves body) :
    s.table.Runs ((body.part put fun node _ u => ⟨build node, .ok (), u.moveTo s.table.current⟩)
      r').state.table := by
  have hmove : s.table.Runs r'.table := hr ▸ hopen.tail (.moveTo _ hscope)
  have hinner := hmove.trans (hbody r' (hs.runs hmove))
  unfold Visit.part
  rcases hb : body r' with ⟨node, _ | _, u⟩
  · rw [hb] at hinner
    exact hinner
  · rw [hb] at hinner
    exact hinner.tail (.moveTo _ (Nat.lt_of_lt_of_le hs.current hinner.length_le))

/-- A declaration that opens a scope. -/
theorem runs_opened {t : Table} {ds : List Diagnostic} {slot : UInt16} {r : State} {name : Name}
    {details : Details} {answer : Option Symbol}
    (hd : (State.mk (t.openScope name.text).2 ds slot).declare name details
      (some (t.openScope name.text).1) = (r, answer)) :
    t.Runs r.table ∧ (t.openScope name.text).1 < r.table.scopes.length := by
  have hopen : t.Runs (t.openScope name.text).2 := .single (.openScope _ _)
  have hdecl := declare_runs ⟨(t.openScope name.text).2, ds, slot⟩ name details
    (some (t.openScope name.text).1) fun _ _ _ _ => rfl
  rw [hd] at hdecl
  refine ⟨hopen.trans hdecl, Nat.lt_of_lt_of_le ?_ hdecl.length_le⟩
  simp [Table.openScope]

theorem registerMethod_moves (path : List String) (m : Method) : Moves (registerMethod path m) := by
  intro s hs
  unfold registerMethod
  dsimp only
  split
  · exact .refl
  · split
    · next hd => exact (runs_opened hd).1
    · next r symbol hd =>
      obtain ⟨hopen, hscope⟩ := runs_opened hd
      split
      · exact hopen
      · exact runs_inside hs hopen hscope rfl (registerMethodBody_moves _)

theorem registerClassWith_moves (path : List String) (head : ClassHead) (members : List Member)
    {body : List String → Visit State (List Member) Unit} (hbody : ∀ path, Moves (body path)) :
    Moves (registerClassWith path head members body) := by
  intro s hs
  unfold registerClassWith
  dsimp only
  split
  · split
    · next hd => exact (runs_opened hd).1
    · next r symbol hd =>
      obtain ⟨hopen, hscope⟩ := runs_opened hd
      split
      · exact hopen
      · exact runs_inside hs hopen hscope rfl (hbody _)
  · exact .refl

mutual

theorem registerMember_moves : ∀ (path : List String) (m : Member), Moves (registerMember path m)
  | path, .method m => by
    rw [registerMember]
    exact (registerMethod_moves path m).within
  | path, .field d => by
    rw [registerMember]
    exact (registerField_moves path d).within
  | path, .nested head members => by
    rw [registerMember]
    exact
      (registerClassWith_moves path head members fun p => registerMembers_moves p members).within

theorem registerMembers_moves : ∀ (path : List String) (ms : List Member),
    Moves (registerMembers path ms)
  | _, [] => by
    rw [registerMembers]
    exact .done _ _
  | path, m :: rest => by
    rw [registerMembers]
    exact (registerMember_moves path m).part fun _ _ => (registerMembers_moves path rest).within

end

theorem registerUnit_runs (u : CompilationUnit) {t : Table} (ds : List Diagnostic)
    (h : t.InOrder) : t.Runs (registerUnit u t ds).state.table := by
  have hroot : Table.root < t.scopes.length := Nat.zero_lt_of_lt h.current
  unfold registerUnit
  split
  · exact .refl
  · next top _ =>
    have hmove : t.Runs (t.moveTo Table.root) := .single (.moveTo t hroot)
    have hclass : Moves (registerClass [] top) :=
      registerClassWith_moves _ _ _ fun p => registerMembers_moves p top.members
    have hinner := hmove.trans (hclass (.start (t.moveTo Table.root) ds) (h.runs hmove))
    unfold Visit.part
    rcases hb : registerClass [] top (.start (t.moveTo Table.root) ds) with ⟨node, _ | _, s⟩
    · rw [hb] at hinner
      exact hinner
    · rw [hb] at hinner
      exact hinner.tail (.moveTo _ (Nat.lt_of_lt_of_le hroot hinner.length_le))

end Registration

namespace Table

inductive Produced : Table → Prop
  | empty (tag : Nat) : Produced (.empty tag)
  | withSystem (tag : Nat) : Produced (.withSystem tag)
  | registered {t : Table} (h : Produced t) (u : CompilationUnit) (ds : List Diagnostic) :
    Produced (Registration.registerUnit u t ds).state.table

theorem Produced.inOrder {t : Table} (h : t.Produced) : t.InOrder := by
  induction h with
  | empty tag => exact inOrder_empty tag
  | withSystem tag => exact inOrder_withSystem tag
  | registered _ u ds ih => exact ih.runs (Registration.registerUnit_runs u ds ih)

/-- The symbols that the nearest scope to bind a name binds to it, from a scope outward. -/
inductive Nearest (t : Table) (name : String) : ScopeId → List Symbol → Prop
  | here {k : ScopeId} (h : t.members k name ≠ []) : Nearest t name k (t.members k name)
  | outward {k p : ScopeId} {found : List Symbol} (h : t.members k name = [])
    (hp : t.parent? k = some p) (hn : Nearest t name p found) : Nearest t name k found
  | nowhere {k : ScopeId} (h : t.members k name = []) (hp : t.parent? k = none) :
    Nearest t name k []

theorem Chain.nearest {t : Table} {k : ScopeId} {chain : List ScopeId} (h : t.Chain k chain)
    (name : String) : t.Nearest name k (t.firstBound name chain) := by
  induction h with
  | @outermost k hp =>
    rw [firstBound, firstBound]
    split
    · next he => exact .nowhere (List.isEmpty_iff.mp he) hp
    · next he => exact .here fun hk => he (List.isEmpty_iff.mpr hk)
  | inner hp _ ih =>
    rw [firstBound]
    split
    · next he => exact .outward (List.isEmpty_iff.mp he) hp ih
    · next he => exact .here fun hk => he (List.isEmpty_iff.mpr hk)

theorem InOrder.nearest {t : Table} (h : t.InOrder) (scope : ScopeId) (name : String) :
    t.Nearest name scope (t.visibleFrom scope name) := by
  obtain ⟨chain, hc⟩ := Chain.exists_of_older h.parent scope
  rw [hc.visibleFrom_eq h.parent (Nat.zero_lt_of_lt h.current)]
  exact hc.nearest name

/-- Bound in some scope to some name, not necessarily where it was made. -/
def Lists (t : Table) (b : Symbol) : Prop := ∃ k x, b ∈ t.members k x

end Table

namespace Typing

theorem lists_of_resolveMembers {t : Table} {fallback : Position} {rest : List Name} :
    ∀ {before : List Name} {owner b : Symbol}, t.Lists owner →
      resolveMembers t fallback before owner rest = .ok b → t.Lists b := by
  induction rest with
  | nil =>
    intro before owner b ho h
    cases h
    exact ho
  | cons segment rest ih =>
    intro before owner b ho h
    unfold resolveMembers at h
    split at h
    · cases h
    · next k hk =>
      split at h
      · next found hf => exact ih ⟨k, segment.text, by rw [hf]; exact List.mem_cons_self⟩ h
      · cases h

theorem lists_of_resolvePath {t : Table} {scope : ScopeId} {fallback : Position}
    {segments : List Name} {b : Symbol}
    (h : resolvePath t scope fallback segments = some (.ok b)) : t.Lists b := by
  unfold resolvePath at h
  cases segments with
  | nil => cases h
  | cons segment rest =>
    dsimp only at h
    split at h
    · next found hf =>
      rcases t.visibleFrom_cases scope segment.text with he | ⟨j, -, he⟩
      · rw [he] at hf
        cases hf
      · refine lists_of_resolveMembers ⟨j, segment.text, ?_⟩ (Option.some.inj h)
        rw [← he, hf]
        exact List.mem_cons_self
    · cases h

end Typing

end ClassLang
