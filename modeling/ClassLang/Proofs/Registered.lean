import ClassLang.Proofs.Lexical
import ClassLang.Registration

/-! What registration leaves behind. The table gains exactly the symbols put on the tree, numbered
in source order; each symbol repeats what its declaration says, in the scope of the declaration
around it; the rest of the tree stays as it was. A declaration is passed over only with a report. -/
namespace ClassLang

namespace Registration

/-- From `s` to `s'` the table gained the symbols `added`, in this order, and nothing else. They are
bound in the current scope or in scopes that are new. -/
structure Adds (s s' : State) (added : List Symbol) : Prop where
  sound : s'.table.Sound
  current : s'.table.current = s.table.current
  scopes : s.table.scopes.length ≤ s'.table.scopes.length
  parent : ∀ j < s.table.scopes.length, s'.table.parent? j = s.table.parent? j
  members : ∀ j x, s'.table.members j x =
    s.table.members j x ++ added.filter fun b => b.declaredIn == j && b.name == x
  inner : ∀ b ∈ added, b.declaredIn = s.table.current ∨ s.table.scopes.length ≤ b.declaredIn
  next : s.table.nextSymbol ≤ s'.table.nextSymbol
  range : ∀ b ∈ added, s.table.nextSymbol ≤ b.id.number ∧ b.id.number < s'.table.nextSymbol
  ordered : added.Pairwise fun a b => a.id.number < b.id.number
  diagnostics : s.diagnostics <+: s'.diagnostics

namespace Adds

variable {s s' s'' : State} {a b : List Symbol}

theorem of_table_eq (h : s.table.Sound) (ht : s'.table = s.table)
    (hd : s.diagnostics <+: s'.diagnostics) : Adds s s' [] := by
  constructor
  · exact ht ▸ h
  · rw [ht]
  · exact Nat.le_of_eq (by rw [ht])
  · simp [ht]
  · simp [ht]
  · simp
  · exact Nat.le_of_eq (by rw [ht])
  · simp
  · exact List.Pairwise.nil
  · exact hd

theorem report (hs : s.table.Sound) (problem : Problem) (position : Position) :
    Adds s (s.report problem position) [] :=
  of_table_eq hs rfl (List.prefix_append _ _)

theorem trans (h : Adds s s' a) (k : Adds s' s'' b) : Adds s s'' (a ++ b) := by
  constructor
  · exact k.sound
  · exact k.current.trans h.current
  · exact Nat.le_trans h.scopes k.scopes
  · intro j hj
    rw [k.parent j (Nat.lt_of_lt_of_le hj h.scopes), h.parent j hj]
  · intro j x
    rw [k.members, h.members, List.filter_append, List.append_assoc]
  · intro x hx
    rcases List.mem_append.mp hx with hx | hx
    · exact h.inner x hx
    · exact (k.inner x hx).imp (·.trans h.current) (Nat.le_trans h.scopes)
  · exact Nat.le_trans h.next k.next
  · intro x hx
    rcases List.mem_append.mp hx with hx | hx
    · exact ⟨(h.range x hx).1, Nat.lt_of_lt_of_le (h.range x hx).2 k.next⟩
    · exact ⟨Nat.le_trans h.next (k.range x hx).1, (k.range x hx).2⟩
  · refine List.pairwise_append.mpr ⟨h.ordered, k.ordered, ?_⟩
    intro x hx y hy
    exact Nat.lt_of_lt_of_le (h.range x hx).2 (k.range y hy).1
  · exact h.diagnostics.trans k.diagnostics

theorem of_reports (h : Adds s' s'' a) (ht : s'.table = s.table)
    (hd : s.diagnostics <+: s'.diagnostics) : Adds s s'' a := by
  obtain ⟨hsound, hcurrent, hscopes, hparent, hmembers, hinner, hnext, hrange, hordered,
    hdiagnostics⟩ := h
  rw [ht] at hcurrent hscopes hparent hmembers hinner hnext hrange
  exact ⟨hsound, hcurrent, hscopes, hparent, hmembers, hinner, hnext, hrange, hordered,
    hd.trans hdiagnostics⟩

theorem bound (h : Adds s s' a) (x : Symbol) :
    s'.table.Bound x ↔ s.table.Bound x ∨ x ∈ a := by
  simp [Table.Bound, h.members]

theorem keeps (h : Adds s s' a) {x : Symbol} (hx : s.table.Bound x) : s'.table.Bound x :=
  (h.bound x).mpr (Or.inl hx)

theorem quiet (h : Adds s s' a) (hd : s'.diagnostics = []) : s.diagnostics = [] :=
  List.prefix_nil.mp (hd ▸ h.diagnostics)

/-- A scope that was there and is not the current one binds what it did. -/
theorem members_other (h : Adds s s' a) {j : ScopeId} (hj : j < s.table.scopes.length)
    (hc : j ≠ s.table.current) (x : String) : s'.table.members j x = s.table.members j x := by
  have hnone : a.filter (fun b => b.declaredIn == j && b.name == x) = [] := by
    rw [List.filter_eq_nil_iff]
    intro b hb hbj
    simp only [Bool.and_eq_true, beq_iff_eq] at hbj
    rcases h.inner b hb with hin | hin
    · exact hc (hbj.1.symm.trans hin)
    · exact absurd (hbj.1 ▸ hin) (Nat.not_le_of_lt hj)
  rw [h.members, hnone, List.append_nil]

theorem keepsTable (h : Adds s s' a) : s.table.Keeps s'.table s.table.current := by
  have hlt : ∀ {j p}, s.table.parent? j = some p → j < s.table.scopes.length := fun hp =>
    Nat.lt_of_not_le fun hge => by simp [Table.parent?, List.getElem?_eq_none hge] at hp
  refine ⟨fun j p hp => ?_, fun j p hp hj x => ?_⟩
  · rw [h.parent j (hlt hp), hp]
  · exact h.members_other (hlt hp) (Nat.ne_of_gt hj) x

/-- What is added inside a new scope, or in the current one, is added once the table is back. -/
theorem inside (scope : ScopeId) (n : UInt16) (hc : s.table.current < s.table.scopes.length)
    (hs : scope = s.table.current ∨ s.table.scopes.length ≤ scope) (h : Adds s s' a)
    (k : Adds { s'.moveTo scope with nextSlot := n } s'' b) :
    Adds s (s''.moveTo s.table.current) (a ++ b) := by
  have hscopes := Nat.le_trans h.scopes k.scopes
  constructor
  · exact k.sound.moveTo (Nat.lt_of_lt_of_le hc hscopes)
  · rfl
  · exact hscopes
  · intro j hj
    exact (k.parent j (Nat.lt_of_lt_of_le hj h.scopes)).trans (h.parent j hj)
  · intro j x
    refine (k.members j x).trans ?_
    rw [List.filter_append, ← List.append_assoc, ← h.members]
    rfl
  · intro x hx
    rcases List.mem_append.mp hx with hx | hx
    · exact h.inner x hx
    · rcases k.inner x hx with hin | hin
      · exact hin ▸ hs
      · exact Or.inr (Nat.le_trans h.scopes hin)
  · exact Nat.le_trans h.next k.next
  · intro x hx
    rcases List.mem_append.mp hx with hx | hx
    · exact ⟨(h.range x hx).1, Nat.lt_of_lt_of_le (h.range x hx).2 k.next⟩
    · exact ⟨Nat.le_trans h.next (k.range x hx).1, (k.range x hx).2⟩
  · refine List.pairwise_append.mpr ⟨h.ordered, k.ordered, ?_⟩
    intro x hx y hy
    exact Nat.lt_of_lt_of_le (h.range x hx).2 (k.range y hy).1
  · exact h.diagnostics.trans k.diagnostics

theorem openScope (hs : s.table.Sound) (name : String) (hc : ¬ s.table.IsBody s.table.current) :
    Adds s { s with table := (s.table.openScope name).2 } [] := by
  constructor
  · exact hs.openScope name hc
  · rfl
  · simp [Table.openScope]
  · intro j hj
    rw [Table.parent?_openScope, if_neg (Nat.ne_of_lt hj)]
  · simp
  · simp
  · exact Nat.le_refl _
  · simp
  · exact List.Pairwise.nil
  · exact List.prefix_rfl

end Adds

def made (s : State) (name : Name) (details : Details) (scope : Option ScopeId) : Symbol :=
  (s.table.newSymbol name.text details scope name.span.start).1

theorem declare_adds {s : State} (hs : s.table.Sound) {name : Name} {details : Details}
    {scope : Option ScopeId} (hf : s.table.Fits (made s name details scope))
    (hl : s.table.Unlike (made s name details scope))
    (hk : ∀ k, scope = some k → s.table.Unclaimed k) {s' : State} {answer : Option Symbol}
    (h : s.declare name details scope = (s', answer)) :
    Adds s s' answer.toList ∧ s'.diagnostics = s.diagnostics ∧ s'.nextSlot = s.nextSlot ∧
      (∀ b, answer = some b → b = made s name details scope) ∧
      (answer = none → (s.table.members s.table.current name.text).isEmpty = false) := by
  have hn := hs.newSymbol name.text details scope name.span.start
  unfold State.declare at h
  dsimp only at h
  split at h
  · next table hbind =>
    cases h
    have hsound := hn.bind hbind ⟨rfl, Nat.lt_succ_self _⟩ (fun b hb => (hs.number b hb).2) rfl
      (fun k hk' => (⟨(hk k hk').inner, (hk k hk').exists_, (hk k hk').free, (hk k hk').childless⟩))
      (hf.mono fun b hb => hb) hl
    have hparent := Table.parent?_of_bind hbind
    have hmembers := Table.members_of_bind hbind hn.current
    obtain ⟨-, rfl⟩ := Table.bind_ok_inv hbind
    refine ⟨⟨hsound, rfl, ?_, fun j _ => hparent j, ?_, ?_, Nat.le_succ _, ?_,
      List.pairwise_singleton _ _, List.prefix_rfl⟩, rfl, rfl, ?_, ?_⟩
    · simp [Table.newSymbol]
    · intro j x
      refine (hmembers j x).trans ?_
      simp only [Option.toList_some, List.filter_cons, List.filter_nil, Bool.and_eq_true,
        beq_iff_eq, Table.newSymbol, eq_comm (a := j), eq_comm (a := x)]
      split
      · rfl
      · exact (List.append_nil _).symm
    · intro b hb
      rw [Option.toList_some, List.mem_singleton] at hb
      subst hb
      exact Or.inl rfl
    · intro b hb
      rw [Option.toList_some, List.mem_singleton] at hb
      subst hb
      exact ⟨Nat.le_refl _, Nat.lt_succ_self _⟩
    · intro b hb
      exact (Option.some.inj hb).symm
    · intro hnone
      cases hnone
  · next clash hbind =>
    cases h
    refine ⟨⟨hn, rfl, Nat.le_refl _, fun _ _ => rfl, ?_, by simp, Nat.le_succ _, by simp,
      List.Pairwise.nil, List.prefix_rfl⟩, rfl, rfl, ?_, ?_⟩
    · simp
    · intro b hb
      cases hb
    · intro _
      have hadm := (Table.bind_eq_error_iff.mp hbind).1
      rw [Table.admits, Bool.or_eq_false_iff] at hadm
      exact hadm.1

namespace Home

def storage (n : UInt16) : Home → Storage
  | .method => .slot n
  | .cls isStatic path => .field isStatic path

def next (n : UInt16) : Home → UInt16
  | .method => n + 1
  | .cls .. => n

theorem take_eq (home : Home) (s : State) :
    home.take s = (home.storage s.nextSlot, { s with nextSlot := home.next s.nextSlot }) := by
  cases home <;> rfl

def Is (t : Table) : Home → Prop
  | .method => t.IsBody t.current
  | .cls _ path => t.PathOf t.current path

/-- Every symbol repeats its declaration. Slots are given out in order from `n` on. -/
def Placed (home : Home) (k : ScopeId) : UInt16 → List VarSlot → Prop
  | _, [] => True
  | n, v :: rest =>
    match v.symbol with
    | none => Placed home k n rest
    | some b =>
      (b.name = v.name ∧ b.declaredIn = k ∧ b.details = .var v.type (home.storage n)) ∧
        Placed home k (home.next n) rest

def after (home : Home) : UInt16 → List VarSlot → UInt16
  | n, [] => n
  | n, v :: rest => after home (if v.symbol.isSome then home.next n else n) rest

theorem after_append (home : Home) (n : UInt16) (a b : List VarSlot) :
    home.after n (a ++ b) = home.after (home.after n a) b := by
  induction a generalizing n with
  | nil => rfl
  | cons v a ih => exact ih _

theorem Placed.of_mem {home : Home} {k : ScopeId} {n : UInt16} {slots : List VarSlot}
    (h : home.Placed k n slots) {v : VarSlot} {b : Symbol} (hv : v ∈ slots)
    (hb : v.symbol = some b) :
    b.name = v.name ∧ b.declaredIn = k ∧ ∃ m, b.details = .var v.type (home.storage m) := by
  induction slots generalizing n with
  | nil => cases hv
  | cons w rest ih =>
    rw [Placed] at h
    cases hw : w.symbol with
    | none =>
      rw [hw] at h
      rcases List.mem_cons.mp hv with rfl | hv
      · rw [hw] at hb
        cases hb
      · exact ih h hv
    | some c =>
      rw [hw] at h
      rcases List.mem_cons.mp hv with rfl | hv
      · rw [hw] at hb
        cases hb
        exact ⟨h.1.1, h.1.2.1, n, h.1.2.2⟩
      · exact ih h.2 hv

theorem Placed.append {home : Home} {k : ScopeId} {n : UInt16} {a b : List VarSlot}
    (ha : home.Placed k n a) (hb : home.Placed k (home.after n a) b) :
    home.Placed k n (a ++ b) := by
  induction a generalizing n with
  | nil => exact hb
  | cons v a ih =>
    rw [List.cons_append]
    cases hv : v.symbol with
    | none =>
      simp only [Placed, after, hv] at ha hb ⊢
      exact ih ha hb
    | some x =>
      simp only [Placed, after, hv] at ha hb ⊢
      exact ⟨ha.1, ih ha.2 hb⟩

end Home

/-- Where the first variable of a name is passed over, the name was taken before. -/
def Claims (t : Table) (slots : List VarSlot) : Prop :=
  ∀ x v, VarSlot.first? x slots = some v → v.symbol = none → t.members t.current x ≠ []

theorem Claims.nil (t : Table) : Claims t [] := fun _ _ hv => nomatch hv

theorem Claims.singleton {t : Table} {v : VarSlot}
    (h : v.symbol = none → t.members t.current v.name ≠ []) : Claims t [v] := by
  intro x w hw hnone
  obtain ⟨hmem, rfl⟩ := VarSlot.mem_of_first? hw
  obtain rfl := List.mem_singleton.mp hmem
  exact h hnone

/-- Variables that come later find only what was there and the names before them. -/
theorem Claims.append {s s' : State} {a b : List VarSlot} (ha : Claims s.table a)
    (hadds : Adds s s' (VarSlot.symbols a))
    (hnames : ∀ v ∈ a, ∀ c, v.symbol = some c → c.name = v.name) (hb : Claims s'.table b) :
    Claims s.table (a ++ b) := by
  intro x v hv hnone
  rw [VarSlot.first?, List.find?_append, ← VarSlot.first?, ← VarSlot.first?] at hv
  cases hfind : VarSlot.first? x a with
  | some w =>
    rw [hfind, Option.some_or] at hv
    exact ha x v (hfind.trans hv) hnone
  | none =>
    rw [hfind, Option.none_or] at hv
    have htaken := hb x v hv hnone
    have hfilter : (VarSlot.symbols a).filter
        (fun c => c.declaredIn == s.table.current && c.name == x) = [] := by
      rw [List.filter_eq_nil_iff]
      intro c hc hcx
      obtain ⟨w, hw, hwc⟩ := List.mem_filterMap.mp hc
      simp only [Bool.and_eq_true, beq_iff_eq] at hcx
      exact VarSlot.name_ne_of_first?_eq_none hfind hw (hnames w hw c hwc ▸ hcx.2)
    rwa [hadds.current, hadds.members, hfilter, List.append_nil] at htaken

structure Lays (home : Home) (s s' : State) (slots : List VarSlot) : Prop where
  adds : Adds s s' (VarSlot.symbols slots)
  placed : home.Placed s.table.current s.nextSlot slots
  next : s'.nextSlot = home.after s.nextSlot slots
  claims : Claims s.table slots
  filled : s'.diagnostics = [] → ∀ v ∈ slots, v.symbol ≠ none

namespace Lays

variable {home : Home} {s s' s'' : State} {a b : List VarSlot}

theorem nil (hs : s.table.Sound) : Lays home s s [] :=
  ⟨.of_table_eq hs rfl List.prefix_rfl, trivial, rfl, .nil _, by simp⟩

theorem trans (h : Lays home s s' a) (k : Lays home s' s'' b) : Lays home s s'' (a ++ b) := by
  constructor
  · rw [VarSlot.symbols_append]
    exact h.adds.trans k.adds
  · refine h.placed.append ?_
    rw [← h.next, ← h.adds.current]
    exact k.placed
  · rw [Home.after_append, ← h.next]
    exact k.next
  · exact h.claims.append h.adds (fun v hv c hc => (h.placed.of_mem hv hc).1) k.claims
  · intro hd v hv
    rcases List.mem_append.mp hv with hv | hv
    · exact h.filled (k.adds.quiet hd) v hv
    · exact k.filled hd v hv

theorem of_reports (h : Lays home s' s'' a) (ht : s'.table = s.table)
    (hn : s'.nextSlot = s.nextSlot) (hd : s.diagnostics <+: s'.diagnostics) :
    Lays home s s'' a := by
  constructor
  · exact h.adds.of_reports ht hd
  · rw [← ht, ← hn]
    exact h.placed
  · rw [← hn]
    exact h.next
  · exact ht ▸ h.claims
  · exact h.filled

end Lays

theorem Home.Is.after {home : Home} {s s' : State} {a : List Symbol} (hh : home.Is s.table)
    (h : Adds s s' a) : home.Is s'.table := by
  unfold Home.Is at *
  rw [h.current]
  cases home with
  | method => exact Table.IsBody.mono (fun b hb => h.keeps hb) hh
  | cls st path => exact Table.PathOf.mono (fun b hb => h.keeps hb) hh

theorem registerVar_lays {home : Home} {type : TypeExpr} {v v' : Declarator} {s s' : State}
    (hs : s.table.Sound) (hh : home.Is s.table) (hv : v.symbol = none)
    (h : registerVar home type v s = ⟨v', .ok (), s'⟩) :
    v'.erase = v.erase ∧ Lays home s s' [⟨v'.name.text, type, v'.symbol⟩] := by
  unfold registerVar at h
  dsimp only at h
  split at h
  · next hfree =>
    rw [Home.take_eq] at h
    have hfit : s.table.Fits (made s v.name (.var type (home.storage s.nextSlot)) none) := by
      cases home with
      | method => exact ⟨rfl, hh⟩
      | cls st path => exact ⟨rfl, hh⟩
    split at h
    · next s1 hd =>
      obtain ⟨-, -, -, -, hn⟩ := declare_adds (s := { s with nextSlot := home.next s.nextSlot })
        hs hfit (.of_isMethod rfl) (by simp) hd
      rw [hn rfl] at hfree
      cases hfree
    · next s1 b hd =>
      obtain ⟨ha, hdia, hslot, hb, -⟩ :=
        declare_adds (s := { s with nextSlot := home.next s.nextSlot }) hs hfit (.of_isMethod rfl)
          (by simp) hd
      obtain rfl := hb b rfl
      rw [hv] at h
      cases h
      refine ⟨by simp [Declarator.erase], ?_⟩
      constructor
      · exact ⟨ha.sound, ha.current, ha.scopes, ha.parent, ha.members, ha.inner, ha.next, ha.range,
          ha.ordered, ha.diagnostics⟩
      · exact ⟨⟨rfl, rfl, rfl⟩, trivial⟩
      · exact hslot
      · exact .singleton (by simp)
      · simp
  · next htaken =>
    cases h
    refine ⟨rfl, ?_⟩
    constructor
    · simp only [VarSlot.symbols, hv, List.filterMap_cons_none, List.filterMap_nil]
      exact .of_table_eq hs rfl (List.prefix_append _ _)
    · simp [Home.Placed, hv]
    · simp [Home.after, hv, State.report]
    · exact .singleton fun _ => by simpa using htaken
    · simp [State.report]

theorem registerVar_each_lays {home : Home} {type : TypeExpr} {vars : List Declarator} :
    ∀ {vars' : List Declarator} {s s' : State}, s.table.Sound → home.Is s.table →
      (∀ v ∈ vars, v.symbol = none) →
      Visit.each (registerVar home type) vars s = ⟨vars', .ok (), s'⟩ →
      vars'.map Declarator.erase = vars.map Declarator.erase ∧
        Lays home s s' (vars'.map fun v => ⟨v.name.text, type, v.symbol⟩) := by
  induction vars with
  | nil =>
    intro vars' s s' hs _ _ h
    cases h
    exact ⟨rfl, .nil hs⟩
  | cons v vars ih =>
    intro vars' s s' hs hh hv h
    obtain ⟨v', _, s1, h1, h2⟩ := Visit.part_ok_iff.mp h
    obtain ⟨rest, hr, rfl⟩ := Visit.within_ok_iff.mp h2
    obtain ⟨he, hl⟩ := registerVar_lays hs hh (hv v List.mem_cons_self) h1
    obtain ⟨hes, hls⟩ := ih hl.adds.sound (hh.after hl.adds)
      (fun x hx => hv x (List.mem_cons_of_mem _ hx)) hr
    exact ⟨by simp [he, hes], hl.trans hls⟩

theorem symbol_eq_none_of_isFresh {d : VarDecl} (h : d.isFresh = true) :
    ∀ v ∈ d.vars, v.symbol = none := by
  intro v hv
  have hf := List.all_eq_true.mp h v hv
  simp only [Declarator.isFresh, Bool.and_eq_true, Option.isNone_iff_eq_none] at hf
  exact hf.1

theorem registerVars_lays {home : Home} {d d' : VarDecl} {s s' : State} (hs : s.table.Sound)
    (hh : home.Is s.table) (hf : d.isFresh = true)
    (h : registerVars home d s = ⟨d', .ok (), s'⟩) :
    d'.erase = d.erase ∧ Lays home s s' d'.slots := by
  obtain ⟨vars, hv, rfl⟩ := Visit.within_ok_iff.mp h
  obtain ⟨he, hl⟩ := registerVar_each_lays hs hh (symbol_eq_none_of_isFresh hf) hv
  exact ⟨by simp [VarDecl.erase, he], hl⟩

theorem registerField_lays {path : List String} {d d' : VarDecl} {s s' : State}
    (hs : s.table.Sound) (hh : Home.Is s.table (.cls (Modifier.isStatic d.modifiers) path))
    (hf : d.isFresh = true) (h : registerField path d s = ⟨d', .ok (), s'⟩) :
    d'.erase = d.erase ∧ Lays (.cls (Modifier.isStatic d.modifiers) path) s s' d'.slots := by
  obtain ⟨he, hl⟩ := registerVars_lays
    (s := s.reportAll (modifierProblems d.names d.modifiers) d.span.start) hs hh hf h
  exact ⟨he, hl.of_reports rfl rfl (List.prefix_append _ _)⟩

theorem registerLocals_lays {d d' : VarDecl} {s s' : State} (hs : s.table.Sound)
    (hb : Home.Is s.table .method) (hf : d.isFresh = true)
    (h : registerLocals d s = ⟨d', .ok (), s'⟩) :
    d'.erase = d.erase ∧ Lays .method s s' d'.slots := by
  unfold registerLocals at h
  split at h
  · exact registerVars_lays hs hb hf h
  · obtain ⟨he, hl⟩ := registerVars_lays
      (s := s.report (.badModifiers d.names "local variables take no modifiers") d.span.start)
      hs hb hf h
    exact ⟨he, hl.of_reports rfl rfl (List.prefix_append _ _)⟩

mutual

theorem registerStmt_lays {stmt stmt' : Stmt} {s s' : State} (hs : s.table.Sound)
    (hb : Home.Is s.table .method) (hf : stmt.isFresh = true)
    (h : registerStmt stmt s = ⟨stmt', .ok (), s'⟩) :
    stmt'.erase = stmt.erase ∧ Lays .method s s' stmt'.slots := by
  cases stmt with
  | block body span =>
    rw [registerStmt] at h
    obtain ⟨body', hbody, rfl⟩ := Visit.within_ok_iff.mp h
    rw [Stmt.isFresh] at hf
    obtain ⟨he, hl⟩ := registerStmts_lays hs hb hf hbody
    exact ⟨by simp only [Stmt.erase, he], by simpa only [Stmt.slots] using hl⟩
  | locals d =>
    rw [registerStmt] at h
    obtain ⟨d', hd, rfl⟩ := Visit.within_ok_iff.mp h
    rw [Stmt.isFresh] at hf
    obtain ⟨he, hl⟩ := registerLocals_lays hs hb hf hd
    exact ⟨by simp only [Stmt.erase, he], by simpa only [Stmt.slots] using hl⟩
  | ifThen cond thenBody span =>
    rw [registerStmt] at h
    obtain ⟨then', hthen, rfl⟩ := Visit.within_ok_iff.mp h
    rw [Stmt.isFresh, Bool.and_eq_true] at hf
    obtain ⟨he, hl⟩ := registerStmt_lays hs hb hf.2 hthen
    exact ⟨by simp only [Stmt.erase, he], by simpa only [Stmt.slots] using hl⟩
  | ifElse cond thenBody elseBody span =>
    rw [registerStmt] at h
    obtain ⟨then', _, s1, hthen, h⟩ := Visit.part_ok_iff.mp h
    obtain ⟨else', helse, rfl⟩ := Visit.within_ok_iff.mp h
    rw [Stmt.isFresh, Bool.and_eq_true, Bool.and_eq_true] at hf
    obtain ⟨he, hl⟩ := registerStmt_lays hs hb hf.1.2 hthen
    obtain ⟨he', hl'⟩ := registerStmt_lays hl.adds.sound (hb.after hl.adds) hf.2 helse
    exact ⟨by simp only [Stmt.erase, he, he'], by simpa only [Stmt.slots] using hl.trans hl'⟩
  | loop cond body span =>
    rw [registerStmt] at h
    obtain ⟨body', hbody, rfl⟩ := Visit.within_ok_iff.mp h
    rw [Stmt.isFresh, Bool.and_eq_true] at hf
    obtain ⟨he, hl⟩ := registerStmt_lays hs hb hf.2 hbody
    exact ⟨by simp only [Stmt.erase, he], by simpa only [Stmt.slots] using hl⟩
  | expr value span type =>
    rw [registerStmt] at h
    · cases h
      exact ⟨rfl, by simpa only [Stmt.slots] using .nil hs⟩
    all_goals simp
  | ret value span =>
    rw [registerStmt] at h
    · cases h
      exact ⟨rfl, by simpa only [Stmt.slots] using .nil hs⟩
    all_goals simp
  | empty span =>
    rw [registerStmt] at h
    · cases h
      exact ⟨rfl, by simpa only [Stmt.slots] using .nil hs⟩
    all_goals simp

theorem registerStmts_lays {body body' : List Stmt} {s s' : State} (hs : s.table.Sound)
    (hb : Home.Is s.table .method) (hf : Stmt.allFresh body = true)
    (h : registerStmts body s = ⟨body', .ok (), s'⟩) :
    Stmt.eraseAll body' = Stmt.eraseAll body ∧ Lays .method s s' (Stmt.allSlots body') := by
  cases body with
  | nil =>
    rw [registerStmts] at h
    cases h
    exact ⟨rfl, by simpa only [Stmt.allSlots] using .nil hs⟩
  | cons stmt rest =>
    rw [registerStmts] at h
    obtain ⟨stmt', _, s1, hstmt, h⟩ := Visit.part_ok_iff.mp h
    obtain ⟨rest', hrest, rfl⟩ := Visit.within_ok_iff.mp h
    rw [Stmt.allFresh, Bool.and_eq_true] at hf
    obtain ⟨he, hl⟩ := registerStmt_lays hs hb hf.1 hstmt
    obtain ⟨he', hl'⟩ := registerStmts_lays hl.adds.sound (hb.after hl.adds) hf.2 hrest
    exact ⟨by simp only [Stmt.eraseAll, he, he'], by simpa only [Stmt.allSlots] using hl.trans hl'⟩

end

def ParamsPlaced (k : ScopeId) : UInt16 → List Param → Prop
  | _, [] => True
  | i, p :: rest =>
    (∀ b, p.symbol = some b →
      b.name = p.name.text ∧ b.declaredIn = k ∧ b.details = .var p.type (.param i)) ∧
      ParamsPlaced k (i + 1) rest

theorem ParamsPlaced.of_mem {k : ScopeId} {i : UInt16} {params : List Param}
    (h : ParamsPlaced k i params) {p : Param} (hp : p ∈ params) {b : Symbol}
    (hb : p.symbol = some b) :
    b.name = p.name.text ∧ b.declaredIn = k ∧ ∃ index, b.details = .var p.type (.param index) := by
  induction params generalizing i with
  | nil => cases hp
  | cons q rest ih =>
    rw [ParamsPlaced] at h
    rcases List.mem_cons.mp hp with rfl | hp
    · obtain ⟨hname, hin, hd⟩ := h.1 b hb
      exact ⟨hname, hin, i, hd⟩
    · exact ih h.2 hp

theorem registerParam_adds {i : UInt16} {p p' : Param} {s s' : State} (hs : s.table.Sound)
    (hb : Home.Is s.table .method) (hp : p.symbol = none)
    (h : registerParam i p s = ⟨p', .ok (), s'⟩) :
    p'.erase = p.erase ∧ Adds s s' p'.symbol.toList ∧ s'.nextSlot = s.nextSlot ∧
      (∀ b, p'.symbol = some b → b.name = p'.name.text ∧ b.declaredIn = s.table.current ∧
        b.details = .var p'.type (.param i)) ∧
      (p'.symbol = none → s.table.members s.table.current p'.name.text ≠ []) ∧
      (s'.diagnostics = [] → p'.symbol ≠ none) := by
  unfold registerParam at h
  dsimp only at h
  have hfit : s.table.Fits (made s p.name (.var p.type (.param i)) none) := ⟨rfl, hb⟩
  split at h
  · split at h
    · next s1 hd =>
      cases h
      obtain ⟨ha, -, hslot, -, htaken⟩ := declare_adds hs hfit (.of_isMethod rfl) (by simp) hd
      refine ⟨rfl, ?_, hslot, by simp [hp], fun _ => ?_, by simp [State.report]⟩
      · rw [hp]
        exact ha.trans (.report ha.sound _ _)
      · simpa using htaken rfl
    · next s1 b hd =>
      obtain ⟨ha, -, hslot, hmade, -⟩ := declare_adds hs hfit (.of_isMethod rfl) (by simp) hd
      obtain rfl := hmade b rfl
      rw [hp] at h
      cases h
      refine ⟨rfl, ha, hslot, ?_, by simp, by simp⟩
      intro b hb'
      cases hb'
      exact ⟨rfl, rfl, rfl⟩
  · next htaken =>
    cases h
    refine ⟨rfl, ?_, rfl, by simp [hp], fun _ hfree => ?_, by simp [State.report]⟩
    · rw [hp]
      exact .report hs _ _
    · simp [Table.localsOf, hfree] at htaken

theorem registerParams_adds {params : List Param} :
    ∀ {i : UInt16} {params' : List Param} {s s' : State}, s.table.Sound →
      Home.Is s.table .method → (∀ p ∈ params, p.symbol = none) →
      registerParams i params s = ⟨params', .ok (), s'⟩ →
      params'.map Param.erase = params.map Param.erase ∧
        Adds s s' (params'.filterMap Param.symbol) ∧ s'.nextSlot = s.nextSlot ∧
        ParamsPlaced s.table.current i params' ∧ Claims s.table (params'.map Param.slot) ∧
        (s'.diagnostics = [] → ∀ p ∈ params', p.symbol ≠ none) := by
  induction params with
  | nil =>
    intro i params' s s' hs _ _ h
    cases h
    exact ⟨rfl, .of_table_eq hs rfl List.prefix_rfl, rfl, trivial, .nil _, by simp⟩
  | cons p rest ih =>
    intro i params' s s' hs hb hp h
    obtain ⟨p', _, s1, h1, h2⟩ := Visit.part_ok_iff.mp h
    obtain ⟨rest', hr, rfl⟩ := Visit.within_ok_iff.mp h2
    obtain ⟨he, ha, hslot, hpl, hclaim, hfill⟩ :=
      registerParam_adds hs hb (hp p List.mem_cons_self) h1
    obtain ⟨hes, has, hslots, hpls, hclaims, hfills⟩ := ih ha.sound (hb.after ha)
      (fun x hx => hp x (List.mem_cons_of_mem _ hx)) hr
    refine ⟨by simp [he, hes], ?_, hslots.trans hslot, ⟨hpl, ha.current ▸ hpls⟩, ?_, ?_⟩
    · have hsplit : (p' :: rest').filterMap Param.symbol =
          p'.symbol.toList ++ rest'.filterMap Param.symbol := by
        cases hsym : p'.symbol <;> simp [hsym]
      rw [hsplit]
      exact ha.trans has
    · have hsymbols : VarSlot.symbols [p'.slot] = p'.symbol.toList := by
        cases hsym : p'.symbol <;> simp [VarSlot.symbols, Param.slot, hsym]
      refine (Claims.singleton hclaim).append (hsymbols ▸ ha) (fun v hv c hc => ?_) hclaims
      obtain rfl := List.mem_singleton.mp hv
      exact (hpl c hc).1
    · intro hd q hq
      rcases List.mem_cons.mp hq with rfl | hq
      · exact hfill (has.quiet hd)
      · exact hfills hd q hq

end Registration

namespace Stmt

mutual

theorem symbols_of_isFresh {s : Stmt} (h : s.isFresh = true) : VarSlot.symbols s.slots = [] := by
  cases s with
  | block body span =>
    rw [isFresh] at h
    rw [slots]
    exact symbols_of_allFresh h
  | locals d =>
    rw [isFresh] at h
    simp [slots, VarDecl.slots, VarSlot.symbols]
    exact Registration.symbol_eq_none_of_isFresh h
  | ifThen cond thenBody span =>
    rw [isFresh, Bool.and_eq_true] at h
    rw [slots]
    exact symbols_of_isFresh h.2
  | ifElse cond thenBody elseBody span =>
    rw [isFresh, Bool.and_eq_true, Bool.and_eq_true] at h
    rw [slots, VarSlot.symbols_append, symbols_of_isFresh h.1.2, symbols_of_isFresh h.2]
    rfl
  | loop cond body span =>
    rw [isFresh, Bool.and_eq_true] at h
    rw [slots]
    exact symbols_of_isFresh h.2
  | expr value span type => simp [slots, VarSlot.symbols]
  | ret value span => simp [slots, VarSlot.symbols]
  | empty span => simp [slots, VarSlot.symbols]

theorem symbols_of_allFresh {body : List Stmt} (h : allFresh body = true) :
    VarSlot.symbols (allSlots body) = [] := by
  cases body with
  | nil => simp [allSlots, VarSlot.symbols]
  | cons s rest =>
    rw [allFresh, Bool.and_eq_true] at h
    rw [allSlots, VarSlot.symbols_append, symbols_of_isFresh h.1, symbols_of_allFresh h.2]
    rfl

end

end Stmt

namespace Decl

def isFresh : Decl → Bool
  | .method _ m => m.isFresh
  | .field _ d => d.isFresh
  | .cls _ head => head.isFresh

def Placed : Decl → Prop
  | .method path m =>
    match m.symbol with
    | none => m.vars = []
    | some b =>
      (b.name = m.name.text ∧
        b.details = .method (m.params.map Param.type) m.returns m.modifiers path none) ∧
        ∃ k, b.scope = some k ∧ Registration.ParamsPlaced k 0 m.params ∧
          Registration.Home.method.Placed k 0 m.bodySlots
  | .field path d => ∀ v ∈ d.slots, ∀ b, v.symbol = some b →
      b.name = v.name ∧ b.details = .var v.type (.field (Modifier.isStatic d.modifiers) path)
  | .cls path head => ∀ b, head.symbol = some b → b.name = head.name.text ∧
      b.scope.isSome = true ∧ b.details = .cls path head.modifiers false

def Filled : Decl → Prop
  | .method _ m => m.symbol ≠ none ∧ (∀ p ∈ m.params, p.symbol ≠ none) ∧
      ∀ v ∈ m.bodySlots, v.symbol ≠ none
  | .field _ d => ∀ v ∈ d.slots, v.symbol ≠ none
  | .cls _ head => head.symbol ≠ none

theorem symbols_of_isFresh {d : Decl} (h : d.isFresh = true) : d.symbols = [] := by
  cases d with
  | method path m =>
    simp only [isFresh, Method.isFresh, Bool.and_eq_true, Option.isNone_iff_eq_none,
      List.all_eq_true] at h
    obtain ⟨⟨hm, hp⟩, hb⟩ := h
    have hbody : VarSlot.symbols m.bodySlots = [] := by
      unfold Method.bodySlots
      cases hbod : m.body with
      | none => rfl
      | some body =>
        rw [hbod] at hb
        exact Stmt.symbols_of_allFresh hb
    simp only [symbols, Method.vars, Method.paramSymbols, hm, hbody, Option.toList_none,
      List.nil_append, List.append_nil, List.filterMap_eq_nil_iff]
    exact hp
  | field path d =>
    simp only [symbols, VarSlot.symbols, VarDecl.slots, List.filterMap_eq_nil_iff,
      List.mem_map]
    rintro _ ⟨v, hv, rfl⟩
    exact Registration.symbol_eq_none_of_isFresh h v hv
  | cls path head =>
    simp only [isFresh, ClassHead.isFresh, Option.isNone_iff_eq_none] at h
    simp [symbols, h]

theorem placed_of_isFresh {d : Decl} (h : d.isFresh = true) : d.Placed := by
  have hs := symbols_of_isFresh h
  cases d with
  | method path m =>
    obtain ⟨hm, hv⟩ := List.append_eq_nil_iff.mp hs
    rw [Option.toList_eq_nil_iff] at hm
    simp only [Placed, hm]
    exact hv
  | field path d =>
    intro v hv b hb
    rw [symbols, VarSlot.symbols, List.filterMap_eq_nil_iff] at hs
    rw [hs v hv] at hb
    cases hb
  | cls path head =>
    intro b hb
    rw [symbols, Option.toList_eq_nil_iff] at hs
    rw [hs] at hb
    cases hb

end Decl

namespace Member

mutual

theorem isFresh_of_mem_decls {m : Member} {path : List String} (h : m.isFresh = true) {d : Decl}
    (hd : d ∈ m.decls path) : d.isFresh = true := by
  cases m with
  | method m =>
    rw [decls, List.mem_singleton] at hd
    subst hd
    rw [isFresh] at h
    exact h
  | field d =>
    rw [decls, List.mem_singleton] at hd
    subst hd
    rw [isFresh] at h
    exact h
  | nested head members =>
    rw [isFresh, Bool.and_eq_true] at h
    rw [decls, List.mem_cons] at hd
    rcases hd with rfl | hd
    · exact h.1
    · exact isFresh_of_mem_allDecls h.2 hd

theorem isFresh_of_mem_allDecls {ms : List Member} {path : List String} (h : allFresh ms = true)
    {d : Decl} (hd : d ∈ allDecls path ms) : d.isFresh = true := by
  cases ms with
  | nil =>
    rw [allDecls] at hd
    cases hd
  | cons m rest =>
    rw [allFresh, Bool.and_eq_true] at h
    rw [allDecls, List.mem_append] at hd
    rcases hd with hd | hd
    · exact isFresh_of_mem_decls h.1 hd
    · exact isFresh_of_mem_allDecls h.2 hd

end

end Member

namespace Registration

structure Registers (s s' : State) (ds : List Decl) : Prop where
  adds : Adds s s' (Decl.allSymbols ds)
  placed : ∀ d ∈ ds, d.Placed
  filled : s'.diagnostics = [] → ∀ d ∈ ds, d.Filled

namespace Registers

variable {s s' s'' : State} {a b : List Decl}

theorem nil (hs : s.table.Sound) : Registers s s [] :=
  ⟨.of_table_eq hs rfl List.prefix_rfl, by simp, by simp⟩

theorem trans (h : Registers s s' a) (k : Registers s' s'' b) : Registers s s'' (a ++ b) := by
  constructor
  · rw [Decl.allSymbols_append]
    exact h.adds.trans k.adds
  · intro d hd
    rcases List.mem_append.mp hd with hd | hd
    · exact h.placed d hd
    · exact k.placed d hd
  · intro hq d hd
    rcases List.mem_append.mp hd with hd | hd
    · exact h.filled (k.adds.quiet hq) d hd
    · exact k.filled hq d hd

/-- Declarations that are passed over get no symbols, and a report. -/
theorem passed (ha : Adds s s' []) (hd : s'.diagnostics ≠ []) (hf : ∀ d ∈ a, d.isFresh = true) :
    Registers s s' a := by
  have hnil : Decl.allSymbols a = [] := by
    rw [Decl.allSymbols, List.flatMap_eq_nil_iff]
    intro d hd'
    exact Decl.symbols_of_isFresh (hf d hd')
  exact ⟨hnil ▸ ha, fun d hd' => Decl.placed_of_isFresh (hf d hd'), fun hq => absurd hq hd⟩

theorem of_reports (h : Registers s' s'' a) (ht : s'.table = s.table)
    (hd : s.diagnostics <+: s'.diagnostics) : Registers s s'' a :=
  ⟨h.adds.of_reports ht hd, h.placed, h.filled⟩

end Registers

theorem erase_method_eq {m m' : Method} (h : m'.erase = m.erase) :
    m'.name = m.name ∧ m'.returns = m.returns ∧ m'.modifiers = m.modifiers ∧
      m'.params.map Param.type = m.params.map Param.type := by
  simp only [Method.erase, Method.mk.injEq] at h
  obtain ⟨hname, hmods, hret, hparams, -⟩ := h
  have htypes := congrArg (List.map Param.type) hparams
  rw [List.map_map, List.map_map] at htypes
  exact ⟨hname, hret, hmods, htypes⟩

structure Fills (s s' : State) (m : Method) : Prop where
  adds : Adds s s' m.vars
  params : ParamsPlaced s.table.current 0 m.params
  slots : Home.method.Placed s.table.current 0 m.bodySlots
  claims : Claims s.table m.slots
  filled : s'.diagnostics = [] →
    (∀ p ∈ m.params, p.symbol ≠ none) ∧ ∀ v ∈ m.bodySlots, v.symbol ≠ none

theorem registerMethodBody_fills {m m' : Method} {s s' : State} (hs : s.table.Sound)
    (hb : Home.Is s.table .method) (hp : ∀ p ∈ m.params, p.symbol = none)
    (hf : m.body.all Stmt.allFresh = true) (hn : s.nextSlot = 0)
    (h : registerMethodBody m s = ⟨m', .ok (), s'⟩) :
    m'.erase = m.erase ∧ m'.symbol = m.symbol ∧ Fills s s' m' := by
  obtain ⟨params, _, s1, hparams, hrest⟩ := Visit.part_ok_iff.mp h
  obtain ⟨he, ha, hslot, hpl, hclaims, hfill⟩ := registerParams_adds hs hb hp hparams
  cases hbody : m.body with
  | none =>
    simp only [hbody] at hrest
    cases hrest
  | some body =>
    simp only [hbody] at hrest
    obtain ⟨body', hstmts, rfl⟩ := Visit.within_ok_iff.mp hrest
    rw [hbody] at hf
    obtain ⟨hes, hl⟩ := registerStmts_lays ha.sound (hb.after ha) hf hstmts
    refine ⟨by simp [Method.erase, he, hes, hbody], rfl, ha.trans hl.adds, hpl, ?_, ?_, ?_⟩
    · rw [← ha.current, ← hslot.trans hn]
      exact hl.placed
    · have hsymbols : VarSlot.symbols (params.map Param.slot) = params.filterMap Param.symbol := by
        simp only [VarSlot.symbols, List.filterMap_map]
        rfl
      refine hclaims.append (hsymbols ▸ ha) (fun v hv c hc => ?_) hl.claims
      obtain ⟨p, hp, rfl⟩ := List.mem_map.mp hv
      exact (hpl.of_mem hp hc).1
    · intro hd
      exact ⟨hfill (hl.adds.quiet hd), hl.filled hd⟩

structure Settles (s s' : State) (ms : List Member) : Prop where
  settled : Member.AllSettled s'.table s.table.current ms
  members : ∀ x, s'.table.members s.table.current x =
    s.table.members s.table.current x ++ Member.allNamed x ms

namespace Settles

variable {s s' s'' : State} {a b : List Member} {added : List Symbol}

theorem nil (s : State) : Settles s s [] := by
  constructor
  · rw [Member.AllSettled]
    trivial
  · simp [Member.allNamed]

theorem trans (h : Settles s s' a) (hs : s'.table.Sound) (hc : s'.table.current = s.table.current)
    (k : Settles s' s'' b) (hadds : Adds s' s'' added) : Settles s s'' (a ++ b) := by
  constructor
  · rw [Member.allSettled_append]
    exact ⟨h.settled.keep hs (hc ▸ hadds.keepsTable), hc ▸ k.settled⟩
  · intro x
    rw [← hc, k.members, hc, h.members, Member.allNamed_append, List.append_assoc]

/-- A member that is passed over binds nothing. -/
theorem passed {m : Member} (ha : Adds s s' []) (hm : m.Settled s'.table s.table.current)
    (hn : ∀ x, m.named x = []) : Settles s s' [m] := by
  constructor
  · simpa [Member.AllSettled] using hm
  · simp [ha.members, Member.allNamed, hn]

theorem of_reports (h : Settles s' s'' a) (ht : s'.table = s.table) : Settles s s'' a := by
  obtain ⟨hsettled, hmembers⟩ := h
  rw [ht] at hsettled hmembers
  exact ⟨hsettled, hmembers⟩

end Settles

/-- From `r` to `s` a symbol was bound that has a scope of its own. The scope is new, lies in the
current one and is empty. -/
structure Opens (r s : State) (name : String) (details : Details) (b : Symbol) : Prop where
  adds : Adds r s [b]
  name : b.name = name
  declaredIn : b.declaredIn = r.table.current
  scope : b.scope = some r.table.scopes.length
  details : b.details = details
  inside : r.table.scopes.length < s.table.scopes.length
  parent : s.table.parent? r.table.scopes.length = some r.table.current
  empty : ∀ x, s.table.members r.table.scopes.length x = []

theorem declare_opened {r s : State} {name : Name} {details : Details} {answer : Option Symbol}
    (hr : r.table.Sound) (hc : ¬ r.table.IsBody r.table.current)
    (hf : (r.table.openScope name.text).2.Fits
      (made { r with table := (r.table.openScope name.text).2 } name details
        (some r.table.scopes.length)))
    (hl : (r.table.openScope name.text).2.Unlike
      (made { r with table := (r.table.openScope name.text).2 } name details
        (some r.table.scopes.length)))
    (hd : State.declare { r with table := (r.table.openScope name.text).2 } name details
      (some r.table.scopes.length) = (s, answer)) :
    Adds r s answer.toList ∧ ∀ b, answer = some b → Opens r s name.text details b := by
  have hopen := Adds.openScope hr name.text hc
  have hlt : r.table.scopes.length < (r.table.openScope name.text).2.scopes.length := by
    simp [Table.openScope]
  have hfree : ∀ k, some r.table.scopes.length = some k →
      (r.table.openScope name.text).2.Unclaimed k := by
    rintro k ⟨⟩
    exact hr.unclaimed_openScope name.text
  obtain ⟨ha, -, -, hmade, -⟩ := declare_adds hopen.sound hf hl hfree hd
  have hadds := hopen.trans ha
  refine ⟨hadds, fun b hb => ?_⟩
  obtain rfl := hmade b hb
  subst hb
  refine ⟨hadds, rfl, rfl, rfl, rfl, Nat.lt_of_lt_of_le hlt ha.scopes, ?_, fun x => ?_⟩
  · rw [ha.parent _ hlt, Table.parent?_openScope, if_pos rfl]
  · rw [ha.members_other hlt (Nat.ne_of_gt hr.current), Table.members_openScope]
    exact Table.members_eq_nil_of_length_le (Nat.le_refl _) x

/-- What is declared inside leaves the scope around with the new symbol alone. -/
theorem Opens.members {r s s' : State} {name : String} {details : Details} {b : Symbol}
    {added : List Symbol} {n : UInt16} (h : Opens r s name details b)
    (hc : r.table.current < r.table.scopes.length)
    (k : Adds { s.moveTo r.table.scopes.length with nextSlot := n } s' added) (x : String) :
    s'.table.members r.table.current x =
      r.table.members r.table.current x ++ if name = x then [b] else [] := by
  have hother := k.members_other (Nat.lt_trans hc h.inside) (Nat.ne_of_lt hc) x
  refine hother.trans ((h.adds.members _ x).trans ?_)
  simp [List.filter_cons, h.declaredIn, h.name]

namespace Fills

variable {m : Method} {s s' : State}

theorem of_mem (h : Fills s s' m) {v : VarSlot} (hmem : v ∈ m.slots) {b : Symbol}
    (hb : v.symbol = some b) :
    b.name = v.name ∧ b.declaredIn = s.table.current ∧ b.isMethod = false := by
  rcases List.mem_append.mp hmem with hmem | hmem
  · obtain ⟨p, hpm, rfl⟩ := List.mem_map.mp hmem
    obtain ⟨hname, hin, _, hd⟩ := h.params.of_mem hpm hb
    exact ⟨hname, hin, by simp [Symbol.isMethod, Symbol.kind, hd]⟩
  · obtain ⟨hname, hin, _, hd⟩ := h.slots.of_mem hmem hb
    exact ⟨hname, hin, by simp [Symbol.isMethod, Symbol.kind, hd]⟩

/-- A method is settled once its variables are registered in an empty scope of its own. -/
theorem settled (h : Fills s s' m) {outer : ScopeId}
    (hc : s.table.current < s.table.scopes.length)
    (he : ∀ x, s.table.members s.table.current x = [])
    (ho : s.table.parent? s.table.current = some outer)
    (hb : ∀ b, m.symbol = some b → b.scope = some s.table.current) : m.Settled s'.table outer := by
  refine fun b hbm => ⟨_, hb b hbm, (h.adds.parent _ hc).trans ho,
    Method.members_first h.adds.sound ?_ h.adds.ordered ?_ ?_⟩
  · intro x
    rw [h.adds.members, he, List.nil_append]
    refine List.filter_congr fun c hcv => ?_
    rw [← m.symbols_slots] at hcv
    obtain ⟨v, hmem, hvc⟩ := List.mem_filterMap.mp hcv
    simp [(h.of_mem hmem hvc).2.1]
  · intro v hmem c hvc
    obtain ⟨hname, -, hmethod⟩ := h.of_mem hmem hvc
    exact ⟨hname, hmethod⟩
  · exact fun x v hfirst hnone => h.claims x v hfirst hnone (he x)

end Fills

theorem alike_of_details {a b : Symbol} {params : List TypeExpr} {returns : TypeExpr}
    {modifiers : List Modifier} {owner : List String} {routine : Option Routine}
    (h : b.details = .method params returns modifiers owner routine) :
    a.alike b = sameParams params a := by
  unfold Symbol.alike sameParams
  cases a.details <;> simp [h]

theorem kind_of_sameParams {params : List TypeExpr} {a : Symbol}
    (h : sameParams params a = true) : a.kind = .method := by
  unfold sameParams at h
  split at h
  · next hd => simp [Symbol.kind, hd]
  · cases h

/-- A method with other parameters than the methods of its name is unlike what is bound. -/
theorem unlike_of_localsOf {r : State} {name : Name} {params : List TypeExpr} {returns : TypeExpr}
    {modifiers : List Modifier} {path : List String}
    (h : ¬ (r.table.localsOf name.text .method).any (sameParams params) = true) :
    (r.table.openScope name.text).2.Unlike
      (made { r with table := (r.table.openScope name.text).2 } name
        (.method params returns modifiers path none) (some r.table.scopes.length)) := by
  intro a ha hin hname
  cases hsame : sameParams params a with
  | false => exact (alike_of_details rfl).trans hsame
  | true =>
    have hmem : a ∈ r.table.members r.table.current name.text := by
      rw [← show a.declaredIn = r.table.current from hin, ← show a.name = name.text from hname]
      simpa [Table.Bound] using ha
    refine absurd (List.any_eq_true.mpr ⟨a, ?_, hsame⟩) h
    exact List.mem_filter.mpr ⟨hmem, by simp [kind_of_sameParams hsame]⟩

namespace Opens

variable {r s s' : State} {path : List String} {b : Symbol}

theorem registers_method {m : Method}
    (h : Opens r s m.name.text
      (.method (m.params.map Param.type) m.returns m.modifiers path none) b)
    (hc : r.table.current < r.table.scopes.length) (hb : m.symbol = some b)
    (k : Fills { s.moveTo r.table.scopes.length with nextSlot := 0 } s' m) :
    Registers r (s'.moveTo r.table.current) [.method path m] := by
  constructor
  · simp only [Decl.allSymbols_cons, Decl.allSymbols_nil, List.append_nil, Decl.symbols, hb]
    exact h.adds.inside _ _ hc (Or.inr (Nat.le_refl _)) k.adds
  · simp only [List.mem_singleton, forall_eq, Decl.Placed, hb]
    exact ⟨⟨h.name, h.details⟩, _, h.scope, k.params, k.slots⟩
  · intro hq
    simp only [List.mem_singleton, forall_eq, Decl.Filled, hb]
    exact ⟨by simp, k.filled hq⟩

theorem settles_method {m : Method} {details : Details} (h : Opens r s m.name.text details b)
    (hc : r.table.current < r.table.scopes.length) (hb : m.symbol = some b)
    (k : Fills { s.moveTo r.table.scopes.length with nextSlot := 0 } s' m) :
    Settles r (s'.moveTo r.table.current) [.method m] := by
  constructor
  · have hsettled := k.settled h.inside h.empty h.parent
      fun c hcb => Option.some.inj (hb.symm.trans hcb) ▸ h.scope
    simp only [Member.AllSettled, Member.Settled, and_true]
    exact hsettled.keep k.adds.sound (.moveTo _ _ _)
  · intro x
    have hnamed : Member.allNamed x [.method m] = if m.name.text = x then [b] else [] := by
      simp [Member.allNamed, Member.named, hb]
    rw [hnamed]
    exact h.members hc k.adds x

variable {head : ClassHead} {members : List Member}

theorem registers_class
    (h : Opens r s head.name.text (.cls (path ++ [head.name.text]) head.modifiers false) b)
    (hc : r.table.current < r.table.scopes.length)
    (k : Registers (s.moveTo r.table.scopes.length) s'
      (Member.allDecls (path ++ [head.name.text]) members)) :
    Registers r (s'.moveTo r.table.current)
      (ClassDecl.decls path ⟨{ head with symbol := some b }, members⟩) := by
  constructor
  · simp only [ClassDecl.decls, Decl.allSymbols_cons, Decl.symbols]
    exact h.adds.inside _ s.nextSlot hc (Or.inr (Nat.le_refl _)) k.adds
  · intro d hd
    rw [ClassDecl.decls, List.mem_cons] at hd
    rcases hd with rfl | hd
    · intro c hcb
      cases hcb
      exact ⟨h.name, by rw [h.scope]; rfl, h.details⟩
    · exact k.placed d hd
  · intro hq d hd
    rw [ClassDecl.decls, List.mem_cons] at hd
    rcases hd with rfl | hd
    · simp [Decl.Filled]
    · exact k.filled hq d hd

theorem settles_class {details : Details} {added : List Symbol}
    (h : Opens r s head.name.text details b) (hc : r.table.current < r.table.scopes.length)
    (hadds : Adds (s.moveTo r.table.scopes.length) s' added)
    (k : Settles (s.moveTo r.table.scopes.length) s' members) :
    Settles r (s'.moveTo r.table.current) [.nested { head with symbol := some b } members] := by
  constructor
  · simp only [Member.AllSettled, Member.Settled, and_true]
    refine ⟨_, h.scope, (hadds.parent _ h.inside).trans h.parent, fun x => ?_,
      k.settled.keep hadds.sound (.moveTo _ _ _)⟩
    have hempty : (s.moveTo r.table.scopes.length).table.members
        (s.moveTo r.table.scopes.length).table.current x = [] := h.empty x
    exact (k.members x).trans (by rw [hempty, List.nil_append])
  · intro x
    have hnamed : Member.allNamed x [.nested { head with symbol := some b } members] =
        if head.name.text = x then [b] else [] := by
      simp [Member.allNamed, Member.named]
    rw [hnamed]
    exact h.members (n := s.nextSlot) hc hadds x

end Opens

theorem registerMethod_registers {path : List String} {m m' : Method} {s s' : State}
    (hs : s.table.Sound) (hp : s.table.PathOf s.table.current path) (hf : m.isFresh = true)
    (h : registerMethod path m s = ⟨m', .ok (), s'⟩) :
    m'.erase = m.erase ∧ Registers s s' [.method path m'] ∧ Settles s s' [.method m'] := by
  have hfresh : ∀ d ∈ [Decl.method path m], d.isFresh = true := by simpa [Decl.isFresh] using hf
  simp only [Method.isFresh, Bool.and_eq_true, Option.isNone_iff_eq_none, List.all_eq_true] at hf
  obtain ⟨⟨hsym, hparams⟩, hbody⟩ := hf
  have hpassed : ∀ {s'}, Adds s s' [] → s'.diagnostics ≠ [] →
      Registers s s' [.method path m] ∧ Settles s s' [.method m] := by
    refine fun ha hd => ⟨.passed ha hd hfresh, .passed ha ?_ (by simp [Member.named, hsym])⟩
    simp [Member.Settled, Method.Settled, hsym]
  unfold registerMethod at h
  dsimp only at h
  generalize hr : s.reportAll (modifierProblems m.name.text m.modifiers) m.name.span.start = r at h
  have htable : r.table = s.table := by rw [← hr]; rfl
  have hpre : s.diagnostics <+: r.diagnostics := by rw [← hr]; exact List.prefix_append _ _
  rw [← htable] at hs hp
  split at h
  · cases h
    exact ⟨rfl, hpassed ((Adds.report hs _ _).of_reports htable hpre) (by simp [State.report])⟩
  · next hcheck =>
    have hfit : (r.table.openScope m.name.text).2.Fits
        (made { r with table := (r.table.openScope m.name.text).2 } m.name
          (.method (m.params.map Param.type) m.returns m.modifiers path none)
          (some r.table.scopes.length)) := Table.PathOf.mono (by simp) hp
    split at h
    · next s1 hd =>
      cases h
      obtain ⟨ha, -⟩ := declare_opened hs (hp.not_isBody hs) hfit (unlike_of_localsOf hcheck) hd
      exact ⟨rfl, hpassed ((ha.trans (.report ha.sound _ _)).of_reports htable hpre)
        (by simp [State.report])⟩
    · next s1 b hd =>
      obtain ⟨-, ho⟩ := declare_opened hs (hp.not_isBody hs) hfit (unlike_of_localsOf hcheck) hd
      replace ho := ho b rfl
      rw [hsym] at h
      obtain ⟨m1, _, s2, h1, h2⟩ := Visit.part_ok_iff.mp h
      cases h2
      have hbod : Home.Is (s1.moveTo r.table.scopes.length).table .method :=
        ⟨b, (ho.adds.bound _).mpr (Or.inr List.mem_cons_self),
          by simp [Symbol.isMethod, Symbol.kind, ho.details], ho.scope⟩
      obtain ⟨he, hkeep, hfills⟩ :=
        registerMethodBody_fills (m := { m with symbol := some b })
          (s := { s1.moveTo r.table.scopes.length with nextSlot := 0 })
          (ho.adds.sound.moveTo ho.inside) hbod hparams hbody rfl h1
      have hkeep : m'.symbol = some b := hkeep
      obtain ⟨hname, hret, hmods, hptypes⟩ := erase_method_eq he
      rw [← hname, ← hret, ← hmods, ← hptypes] at ho
      exact ⟨he.trans (by simp [Method.erase]),
        (ho.registers_method hs.current hkeep hfills).of_reports htable hpre,
        (ho.settles_method hs.current hkeep hfills).of_reports htable⟩

theorem registerClassWith_registers {path : List String} {head : ClassHead} {members : List Member}
    {body : List String → Visit State (List Member) Unit} {c : ClassDecl} {s s' : State}
    (hs : s.table.Sound) (hp : s.table.PathOf s.table.current path) (hf : head.isFresh = true)
    (hm : Member.allFresh members = true)
    (hbody : ∀ {path members' s s'}, s.table.Sound → s.table.PathOf s.table.current path →
      body path s = ⟨members', .ok (), s'⟩ → Member.eraseAll members' = Member.eraseAll members ∧
        Registers s s' (Member.allDecls path members') ∧ Settles s s' members')
    (h : registerClassWith path head members body s = ⟨c, .ok (), s'⟩) :
    c.erase = (ClassDecl.mk head members).erase ∧ Registers s s' (c.decls path) ∧
      Settles s s' [.nested c.head c.members] := by
  have hfresh : ∀ d ∈ (ClassDecl.mk head members).decls path, d.isFresh = true := by
    intro d hd
    rw [ClassDecl.decls, List.mem_cons] at hd
    rcases hd with rfl | hd
    · exact hf
    · exact Member.isFresh_of_mem_allDecls hm hd
  rw [ClassHead.isFresh, Option.isNone_iff_eq_none] at hf
  have hpassed : ∀ {s'}, Adds s s' [] → s'.diagnostics ≠ [] →
      Registers s s' ((ClassDecl.mk head members).decls path) ∧
        Settles s s' [.nested head members] := by
    refine fun ha hd => ⟨.passed ha hd hfresh, .passed ha ?_ (by simp [Member.named, hf])⟩
    simp [Member.Settled, hf, hm]
  unfold registerClassWith at h
  dsimp only at h
  generalize hq : s.reportAll _ _ = q at h
  obtain ⟨table, reports, slot⟩ := q
  dsimp only at h
  generalize hr : reports ++ unsupportedHead head = reported at h
  have htable : table = s.table := (congrArg State.table hq).symm
  have hpre : s.diagnostics <+: reported := by
    have hreports : reports = s.diagnostics ++ _ := (congrArg State.diagnostics hq).symm
    rw [← hr, hreports]
    exact (List.prefix_append _ _).trans (List.prefix_append _ _)
  rw [← htable] at hs hp
  split at h
  · have hfit : (table.openScope head.name.text).2.Fits
        (made ⟨(table.openScope head.name.text).2, reported, slot⟩ head.name
          (.cls (path ++ [head.name.text]) head.modifiers false) (some table.scopes.length)) :=
      ⟨rfl, path, Table.PathOf.mono (by simp) hp, rfl⟩
    split at h
    · next s1 hd =>
      cases h
      obtain ⟨ha, -⟩ :=
        declare_opened (r := ⟨table, reported, slot⟩) hs (hp.not_isBody hs) hfit
          (.of_isMethod rfl) hd
      exact ⟨rfl, hpassed ((ha.trans (.report ha.sound _ _)).of_reports htable hpre)
        (by simp [State.report])⟩
    · next s1 b hd =>
      obtain ⟨-, ho⟩ :=
        declare_opened (r := ⟨table, reported, slot⟩) hs (hp.not_isBody hs) hfit
          (.of_isMethod rfl) hd
      replace ho := ho b rfl
      rw [hf] at h
      obtain ⟨members', _, s2, h1, h2⟩ := Visit.part_ok_iff.mp h
      cases h2
      have hin : (s1.moveTo table.scopes.length).table.Sound := ho.adds.sound.moveTo ho.inside
      have hpath : (s1.moveTo table.scopes.length).table.PathOf
          (s1.moveTo table.scopes.length).table.current (path ++ [head.name.text]) :=
        Or.inr ⟨b, _, _, (ho.adds.bound _).mpr (Or.inr List.mem_cons_self), ho.scope, ho.details⟩
      obtain ⟨he, hreg, hset⟩ := hbody hin hpath h1
      exact ⟨by simp [ClassDecl.erase, ClassHead.erase, he],
        (ho.registers_class hs.current hreg).of_reports htable hpre,
        (ho.settles_class hs.current hreg.adds hset).of_reports htable⟩
  · cases h
    exact ⟨rfl, hpassed ((Adds.report (s := ⟨table, reported, slot⟩) hs _ _).of_reports htable hpre)
      (by simp [State.report])⟩

theorem registerField_settles {path : List String} {d : VarDecl} {s s' : State}
    (h : Lays (.cls (Modifier.isStatic d.modifiers) path) s s' d.slots) :
    Settles s s' [.field d] := by
  constructor
  · simp [Member.AllSettled, Member.Settled]
  · intro x
    rw [h.adds.members]
    simp only [Member.allNamed, Member.named, List.flatMap_cons, List.flatMap_nil, List.append_nil,
      VarSlot.symbols_filter fun v hv b hb => (h.placed.of_mem hv hb).1]
    congr 1
    refine List.filter_congr fun b hb => ?_
    obtain ⟨v, hv, hvb⟩ := List.mem_filterMap.mp hb
    simp [(h.placed.of_mem hv hvb).2.1]

mutual

theorem registerMember_registers {path : List String} {m m' : Member} {s s' : State}
    (hs : s.table.Sound) (hp : s.table.PathOf s.table.current path) (hf : m.isFresh = true)
    (h : registerMember path m s = ⟨m', .ok (), s'⟩) :
    m'.erase = m.erase ∧ Registers s s' (m'.decls path) ∧ Settles s s' [m'] := by
  cases m with
  | method m =>
    rw [registerMember] at h
    obtain ⟨m', hm, rfl⟩ := Visit.within_ok_iff.mp h
    rw [Member.isFresh] at hf
    obtain ⟨he, hr⟩ := registerMethod_registers hs hp hf hm
    exact ⟨by simp only [Member.erase, he], by simpa only [Member.decls] using hr⟩
  | field d =>
    rw [registerMember] at h
    obtain ⟨d', hd, rfl⟩ := Visit.within_ok_iff.mp h
    rw [Member.isFresh] at hf
    obtain ⟨he, hl⟩ := registerField_lays hs hp hf hd
    have hmods : d'.modifiers = d.modifiers := by
      simp only [VarDecl.erase, VarDecl.mk.injEq] at he
      exact he.1
    refine ⟨by simp only [Member.erase, he], ?_, registerField_settles (hmods ▸ hl)⟩
    rw [Member.decls]
    constructor
    · simpa [Decl.symbols] using hl.adds
    · simp only [List.mem_singleton, forall_eq, Decl.Placed, hmods]
      intro v hv b hb
      obtain ⟨hname, -, _, hdet⟩ := hl.placed.of_mem hv hb
      exact ⟨hname, hdet⟩
    · simpa [Decl.Filled] using hl.filled
  | nested head members =>
    rw [registerMember] at h
    obtain ⟨c, hc, rfl⟩ := Visit.within_ok_iff.mp h
    rw [Member.isFresh, Bool.and_eq_true] at hf
    obtain ⟨he, hr⟩ := registerClassWith_registers hs hp hf.1 hf.2
      (fun hs hp h => registerMembers_registers hs hp hf.2 h) hc
    simp only [ClassDecl.erase, ClassDecl.mk.injEq] at he
    exact ⟨by simp only [Member.erase, he], by simpa only [Member.decls, ClassDecl.decls] using hr⟩

theorem registerMembers_registers {path : List String} {ms ms' : List Member} {s s' : State}
    (hs : s.table.Sound) (hp : s.table.PathOf s.table.current path)
    (hf : Member.allFresh ms = true) (h : registerMembers path ms s = ⟨ms', .ok (), s'⟩) :
    Member.eraseAll ms' = Member.eraseAll ms ∧ Registers s s' (Member.allDecls path ms') ∧
      Settles s s' ms' := by
  cases ms with
  | nil =>
    rw [registerMembers] at h
    cases h
    exact ⟨rfl, by simpa only [Member.allDecls] using .nil hs, .nil s⟩
  | cons m rest =>
    rw [registerMembers] at h
    obtain ⟨m', _, s1, hm, h⟩ := Visit.part_ok_iff.mp h
    obtain ⟨rest', hrest, rfl⟩ := Visit.within_ok_iff.mp h
    rw [Member.allFresh, Bool.and_eq_true] at hf
    obtain ⟨he, hr, hset⟩ := registerMember_registers hs hp hf.1 hm
    have hp' : s1.table.PathOf s1.table.current path := by
      rw [hr.adds.current]
      exact hp.mono fun b hb => hr.adds.keeps hb
    obtain ⟨he', hr', hset'⟩ := registerMembers_registers hr.adds.sound hp' hf.2 hrest
    exact ⟨by simp only [Member.eraseAll, he, he'],
      by simpa only [Member.allDecls] using hr.trans hr',
      hset.trans hr.adds.sound hr.adds.current hset' hr'.adds⟩

end

theorem registerTop_registers {c c' : ClassDecl} {tag : Nat} {reports : List Diagnostic}
    {s' : State} (hf : (CompilationUnit.mk (some c)).isFresh = true)
    (h : registerClass [] c (.start ((Table.withSystem tag).moveTo Table.root) reports) =
      ⟨c', .ok (), s'⟩) :
    c'.erase = c.erase ∧ Registers (.start (.withSystem tag) reports) s' (c'.decls []) ∧
      Settles (.start (.withSystem tag) reports) s' [.nested c'.head c'.members] := by
  rw [CompilationUnit.isFresh, Option.all_some, Bool.and_eq_true] at hf
  exact registerClassWith_registers
    (s := .start (.withSystem tag) reports) (Table.sound_withSystem tag)
    (Or.inl ⟨rfl, rfl⟩) hf.1 hf.2
    (fun hs hp h => registerMembers_registers hs hp hf.2 h) h

/-- A fresh unit that is registered keeps its text, and its symbols are those of the table. -/
theorem registerUnit_registers {u u' : CompilationUnit} {tag : Nat} {reports : List Diagnostic}
    {s' : State} (hf : u.isFresh = true)
    (h : registerUnit u (.withSystem tag) reports = ⟨u', .ok (), s'⟩) :
    u'.erase = u.erase ∧ Registers (.start (.withSystem tag) reports) s' u'.decls := by
  obtain ⟨_ | c⟩ := u
  · cases h
  obtain ⟨c', _, s1, h1, h2⟩ := Visit.part_ok_iff.mp h
  cases h2
  obtain ⟨he, hr, -⟩ := registerTop_registers hf h1
  have hs := Table.sound_withSystem tag
  refine ⟨by simp only [CompilationUnit.erase, Option.map_some, he], ?_, hr.placed, hr.filled⟩
  have hstay : Adds (.start (.withSystem tag) reports) (.start (.withSystem tag) reports) [] :=
    .of_table_eq hs rfl List.prefix_rfl
  change Adds _ _ ([] ++ Decl.allSymbols (c'.decls []))
  exact hstay.inside Table.root 0 hs.current (Or.inl rfl) hr.adds

theorem registerUnit_settles {u u' : CompilationUnit} {tag : Nat} {reports : List Diagnostic}
    {s' : State} (hf : u.isFresh = true)
    (h : registerUnit u (.withSystem tag) reports = ⟨u', .ok (), s'⟩) {top : ClassDecl}
    (ht : u'.top = some top) :
    Settles (.start (.withSystem tag) reports) s' [.nested top.head top.members] := by
  obtain ⟨_ | c⟩ := u
  · cases h
  obtain ⟨c', _, s1, h1, h2⟩ := Visit.part_ok_iff.mp h
  cases h2
  cases ht
  obtain ⟨-, hr, hset⟩ := registerTop_registers hf h1
  exact ⟨hset.settled.keep hr.adds.sound (.moveTo _ _ _), hset.members⟩

end Registration

/-- The table of a unit that declares `ds`. -/
structure Declares (t : Table) (tag : Nat) (ds : List Decl) : Prop where
  sound : t.Sound
  bound : ∀ b, t.Bound b ↔ b ∈ Table.builtins tag ∨ b ∈ Decl.allSymbols ds
  ordered : (Decl.allSymbols ds).Pairwise fun a b => a.id.number < b.id.number
  placed : ∀ d ∈ ds, d.Placed

theorem Registration.Registers.declares {tag : Nat} {reports : List Diagnostic}
    {s : Registration.State} {ds : List Decl}
    (h : Registers (.start (.withSystem tag) reports) s ds) : Declares s.table tag ds := by
  refine ⟨h.adds.sound, fun b => ?_, h.adds.ordered, h.placed⟩
  rw [h.adds.bound, ← Table.bound_withSystem]
  rfl

namespace Decl

theorem mem_allSymbols {ds : List Decl} {d : Decl} {b : Symbol} (hd : d ∈ ds) (hb : b ∈ d.symbols) :
    b ∈ allSymbols ds := List.mem_flatMap.mpr ⟨d, hd, hb⟩

/-- A symbol belongs to one declaration. -/
theorem eq_of_common {ds : List Decl}
    (h : (allSymbols ds).Pairwise fun a b => a.id.number < b.id.number) {d e : Decl} {b : Symbol}
    (hd : d ∈ ds) (he : e ∈ ds) (hbd : b ∈ d.symbols) (hbe : b ∈ e.symbols) : d = e := by
  induction ds with
  | nil => cases hd
  | cons x ds ih =>
    rw [allSymbols_cons, List.pairwise_append] at h
    obtain ⟨-, hrest, hcross⟩ := h
    rcases List.mem_cons.mp hd with rfl | hd'
    · rcases List.mem_cons.mp he with rfl | he'
      · rfl
      · exact absurd (hcross b hbd b (mem_allSymbols he' hbe)) (Nat.lt_irrefl _)
    · rcases List.mem_cons.mp he with rfl | he'
      · exact absurd (hcross b hbe b (mem_allSymbols hd' hbd)) (Nat.lt_irrefl _)
      · exact ih hrest hd' he'

end Decl

theorem Decl.Placed.of_mem_method {path : List String} {m : Method}
    (h : (Decl.method path m).Placed) {b : Symbol} (hb : b ∈ (Decl.method path m).symbols) :
    ∃ s k, m.symbol = some s ∧ s.scope = some k ∧
      s.details = .method (m.params.map Param.type) m.returns m.modifiers path none ∧
      (b = s ∨
        (b.declaredIn = k ∧ ∃ p ∈ m.params, p.symbol = some b ∧
          ∃ index, b.details = .var p.type (.param index)) ∨
        b.declaredIn = k ∧ ∃ v ∈ m.bodySlots, v.symbol = some b ∧
          ∃ index, b.details = .var v.type (.slot index)) := by
  cases hs : m.symbol with
  | none =>
    simp only [Decl.Placed, hs] at h
    simp [Decl.symbols, hs, h] at hb
  | some s =>
    simp only [Decl.Placed, hs] at h
    obtain ⟨⟨-, hdet⟩, k, hk, hparams, hslots⟩ := h
    refine ⟨s, k, rfl, hk, hdet, ?_⟩
    simp only [Decl.symbols, hs, Option.toList_some, List.mem_append, List.mem_singleton,
      Method.vars, Method.paramSymbols, VarSlot.symbols, List.mem_filterMap] at hb
    rcases hb with rfl | ⟨p, hp, hsym⟩ | ⟨v, hv, hsym⟩
    · exact Or.inl rfl
    · obtain ⟨-, hin, hd⟩ := hparams.of_mem hp hsym
      exact Or.inr (Or.inl ⟨hin, p, hp, hsym, hd⟩)
    · obtain ⟨-, hin, hd⟩ := hslots.of_mem hv hsym
      exact Or.inr (Or.inr ⟨hin, v, hv, hsym, hd⟩)

def Details.isRoutine : Details → Bool
  | .method _ _ _ _ routine => routine.isSome
  | _ => false

inductive Declared (tag : Nat) (ds : List Decl) (b : Symbol) : Prop
  | system (hd : b = Table.systemClass tag)
  | routine {param routine} (hw : param = .int ∨ param = .string)
    (hd : b.details = .method [.keyword param .null] (.keyword .void .null) [.pub, .static]
      ["System"] (some routine))
  | method {path m} (hm : .method path m ∈ ds) (hs : m.symbol = some b)
    (hd : b.details = .method (m.params.map Param.type) m.returns m.modifiers path none)
  | param {path m s p index} (hm : .method path m ∈ ds) (hs : m.symbol = some s)
    (hin : s.scope = some b.declaredIn) (hp : p ∈ m.params) (hb : p.symbol = some b)
    (hd : b.details = .var p.type (.param index))
  | slot {path m s v index} (hm : .method path m ∈ ds) (hs : m.symbol = some s)
    (hin : s.scope = some b.declaredIn) (hv : v ∈ m.bodySlots) (hb : v.symbol = some b)
    (hd : b.details = .var v.type (.slot index))
  | field {path d v} (hf : .field path d ∈ ds) (hv : v ∈ d.vars) (hb : v.symbol = some b)
    (hd : b.details = .var d.type (.field (Modifier.isStatic d.modifiers) path))
  | cls {path head} (hc : .cls path head ∈ ds) (hb : head.symbol = some b)
    (hd : b.details = .cls path head.modifiers false)

namespace Declares

variable {t : Table} {tag : Nat} {ds : List Decl}

theorem bound_of_mem (h : Declares t tag ds) {d : Decl} (hd : d ∈ ds) {b : Symbol}
    (hb : b ∈ d.symbols) : t.Bound b :=
  (h.bound b).mpr (Or.inr (Decl.mem_allSymbols hd hb))

theorem nodup (h : Declares t tag ds) : (Decl.allSymbols ds).Nodup :=
  h.ordered.imp fun hlt he => absurd (he ▸ hlt) (Nat.lt_irrefl _)

theorem declared (h : Declares t tag ds) {b : Symbol} (hb : t.Bound b) : Declared tag ds b := by
  rcases (h.bound b).mp hb with hbi | hbs
  · rcases Table.mem_builtins hbi with hb | ⟨-, -, _, _, hw, hd⟩
    · exact .system hb
    · exact .routine hw hd
  obtain ⟨d, hmem, hbd⟩ := List.mem_flatMap.mp hbs
  have hplaced := h.placed d hmem
  cases d with
  | cls path head =>
    rw [Decl.symbols, Option.mem_toList] at hbd
    exact .cls hmem hbd (hplaced b hbd).2.2
  | field path d =>
    obtain ⟨s, hs, hsym⟩ := List.mem_filterMap.mp hbd
    have hd := (hplaced s hs b hsym).2
    obtain ⟨v, hv, rfl⟩ := List.mem_map.mp hs
    exact .field hmem hv hsym hd
  | method path m =>
    obtain ⟨s, k, hs, hk, hd, hcases⟩ := hplaced.of_mem_method hbd
    rcases hcases with rfl | ⟨rfl, p, hp, hpb, index, hpd⟩ | ⟨rfl, v, hv, hvb, index, hvd⟩
    · exact .method hmem hs hd
    · exact .param hmem hs hk hp hpb hpd
    · exact .slot hmem hs hk hv hvb hvd

/-- A scope belongs to one method. -/
theorem method_eq_of_scope (h : Declares t tag ds) {path path' : List String} {m m' : Method}
    (hm : .method path m ∈ ds) (hm' : .method path' m' ∈ ds) {s s' : Symbol}
    (hs : m.symbol = some s) (hs' : m'.symbol = some s') (he : s'.scope = s.scope)
    (hk : s.scope ≠ none) : m' = m := by
  have hown : s ∈ (Decl.method path m).symbols := by simp [Decl.symbols, hs]
  have hown' : s' ∈ (Decl.method path' m').symbols := by simp [Decl.symbols, hs']
  obtain ⟨k, hk⟩ := Option.ne_none_iff_exists'.mp hk
  obtain rfl := h.sound.opener s s' k (h.bound_of_mem hm hown) (h.bound_of_mem hm' hown') hk
    (he.trans hk)
  cases Decl.eq_of_common h.ordered hm hm' hown hown'
  rfl

end Declares

end ClassLang
