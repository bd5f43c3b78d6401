import ClassLang.Proofs.Faultless
import ClassLang.Proofs.Layout
import ClassLang.Proofs.Places.Bare
import Mathlib.Data.List.Nodup

/-! When registration accepts a unit. Each declaration has to be written properly on its own, and
the members of a class have to stand apart: only methods share a name, and only with other
parameters. Neither condition depends on the order of the members. -/
namespace ClassLang

namespace Stmt

mutual

def isPlain : Stmt → Bool
  | .locals d => d.modifiers.isEmpty
  | .block body _ => allPlain body
  | .ifThen _ thenBody _ => thenBody.isPlain
  | .ifElse _ thenBody elseBody _ => thenBody.isPlain && elseBody.isPlain
  | .loop _ body _ => body.isPlain
  | .expr .. => true
  | .ret .. => true
  | .empty _ => true

def allPlain : List Stmt → Bool
  | [] => true
  | s :: rest => s.isPlain && allPlain rest

end

end Stmt

namespace Registration

def Passes {ν : Type} (visit : Visit State ν Unit) (s : State) : Prop :=
  ∃ node s', visit s = ⟨node, .ok (), s'⟩ ∧ s'.diagnostics = []

theorem passes_within {ν μ : Type} {visit : Visit State ν Unit} {put : ν → μ} {s : State} :
    Passes (visit.within put) s ↔ Passes visit s := by
  constructor
  · rintro ⟨node, s', h, hq⟩
    obtain ⟨n, hn, -⟩ := Visit.within_ok_iff.mp h
    exact ⟨n, s', hn, hq⟩
  · rintro ⟨node, s', h, hq⟩
    exact ⟨_, s', Visit.within_ok_iff.mpr ⟨node, h, rfl⟩, hq⟩

theorem passes_part {ν μ : Type} {visit : Visit State ν Unit} {put : ν → μ}
    {rest : ν → Unit → Visit State μ Unit} {s : State} :
    Passes (visit.part put rest) s ↔
      ∃ node s₁, visit s = ⟨node, .ok (), s₁⟩ ∧ Passes (rest node ()) s₁ := by
  constructor
  · rintro ⟨node, s', h, hq⟩
    obtain ⟨n, _, s₁, hn, hr⟩ := Visit.part_ok_iff.mp h
    exact ⟨n, s₁, hn, node, s', hr, hq⟩
  · rintro ⟨n, s₁, hn, node, s', hr, hq⟩
    exact ⟨node, s', Visit.part_ok_iff.mpr ⟨n, (), s₁, hn, hr⟩, hq⟩

theorem passes_back {ν μ : Type} {visit : Visit State ν Unit} {put built : ν → μ} {scope : ScopeId}
    {s : State} :
    Passes (visit.part put fun node _ s => ⟨built node, .ok (), s.moveTo scope⟩) s ↔
      Passes visit s := by
  rw [passes_part]
  constructor
  · rintro ⟨node, s₁, h, _, _, h', hq⟩
    cases h'
    exact ⟨node, s₁, h, hq⟩
  · rintro ⟨node, s₁, h, hq⟩
    exact ⟨node, s₁, h, _, _, rfl, hq⟩

/-- Reports stay, so two visits leave none exactly if each of them does. -/
theorem quiet_iff_and {s₁ s' : State} {added : List Symbol} {P Q : Prop} (h : Adds s₁ s' added)
    (hp : s₁.diagnostics = [] ↔ P) (hq : s₁.diagnostics = [] → (s'.diagnostics = [] ↔ Q)) :
    s'.diagnostics = [] ↔ P ∧ Q := by
  constructor
  · intro hd
    have hd₁ := h.quiet hd
    exact ⟨hp.mp hd₁, (hq hd₁).mp hd⟩
  · rintro ⟨hP, hQ⟩
    exact (hq (hp.mpr hP)).mpr hQ

theorem declare_diagnostics {s s' : State} {name : Name} {details : Details}
    {scope : Option ScopeId} {answer : Option Symbol}
    (h : s.declare name details scope = (s', answer)) : s'.diagnostics = s.diagnostics := by
  unfold State.declare at h
  dsimp only at h
  split at h <;> cases h <;> rfl

theorem registerVar_unreported {home : Home} {type : TypeExpr} {v v' : Declarator} {s s' : State}
    (hv : v.symbol = none) (h : registerVar home type v s = ⟨v', .ok (), s'⟩)
    (hf : v'.symbol ≠ none) : s'.diagnostics = s.diagnostics := by
  unfold registerVar at h
  dsimp only at h
  split at h
  · rw [Home.take_eq] at h
    split at h
    · cases h
      exact absurd hv hf
    · next hd =>
      rw [hv] at h
      cases h
      exact (declare_diagnostics hd).trans rfl
  · cases h
    exact absurd hv hf

theorem registerVar_each_unreported {home : Home} {type : TypeExpr} {vars : List Declarator} :
    ∀ {vars' : List Declarator} {s s' : State}, (∀ v ∈ vars, v.symbol = none) →
      Visit.each (registerVar home type) vars s = ⟨vars', .ok (), s'⟩ →
      (∀ v ∈ vars', v.symbol ≠ none) → s'.diagnostics = s.diagnostics := by
  induction vars with
  | nil =>
    intro vars' s s' _ h _
    cases h
    rfl
  | cons v vars ih =>
    intro vars' s s' hv h hf
    obtain ⟨v', _, s₁, h₁, h₂⟩ := Visit.part_ok_iff.mp h
    obtain ⟨rest, hr, rfl⟩ := Visit.within_ok_iff.mp h₂
    have hfirst := registerVar_unreported (hv v List.mem_cons_self) h₁ (hf v' List.mem_cons_self)
    exact (ih (fun x hx => hv x (List.mem_cons_of_mem _ hx)) hr
      fun x hx => hf x (List.mem_cons_of_mem _ hx)).trans hfirst

theorem registerVars_unreported {home : Home} {d d' : VarDecl} {s s' : State}
    (hf : d.isFresh = true) (h : registerVars home d s = ⟨d', .ok (), s'⟩)
    (hfilled : ∀ v ∈ d'.slots, v.symbol ≠ none) : s'.diagnostics = s.diagnostics := by
  obtain ⟨vars, hv, rfl⟩ := Visit.within_ok_iff.mp h
  refine registerVar_each_unreported (symbol_eq_none_of_isFresh hf) hv fun v hmem => ?_
  exact hfilled _ (List.mem_map.mpr ⟨v, hmem, rfl⟩)

theorem registerLocals_quiet {d d' : VarDecl} {s s' : State} (hs : s.table.Sound)
    (hb : Home.Is s.table .method) (hf : d.isFresh = true) (hq : s.diagnostics = [])
    (h : registerLocals d s = ⟨d', .ok (), s'⟩) :
    s'.diagnostics = [] ↔
      d.modifiers.isEmpty = true ∧ ∀ v ∈ d'.slots, v.symbol ≠ none := by
  have hl := (registerLocals_lays hs hb hf h).2
  unfold registerLocals at h
  split at h
  · next hplain =>
    refine ⟨fun hq' => ⟨hplain, hl.filled hq'⟩, fun hfill => ?_⟩
    exact (registerVars_unreported hf h hfill.2).trans hq
  · next hplain =>
    refine ⟨fun hq' => ?_, fun hfill => absurd hfill.1 hplain⟩
    have hreported := (registerVars_lays (s := s.report
      (.badModifiers d.names "local variables take no modifiers") d.span.start) hs hb hf h).2
    simpa [State.report] using hreported.adds.quiet hq'

mutual

theorem registerStmt_quiet {stmt stmt' : Stmt} {s s' : State} (hs : s.table.Sound)
    (hb : Home.Is s.table .method) (hf : stmt.isFresh = true) (hq : s.diagnostics = [])
    (h : registerStmt stmt s = ⟨stmt', .ok (), s'⟩) :
    s'.diagnostics = [] ↔ stmt.isPlain = true ∧ ∀ v ∈ stmt'.slots, v.symbol ≠ none := by
  cases stmt with
  | block body span =>
    rw [registerStmt] at h
    obtain ⟨body', hbody, rfl⟩ := Visit.within_ok_iff.mp h
    rw [Stmt.isFresh] at hf
    simpa only [Stmt.isPlain, Stmt.slots] using registerStmts_quiet hs hb hf hq hbody
  | locals d =>
    rw [registerStmt] at h
    obtain ⟨d', hd, rfl⟩ := Visit.within_ok_iff.mp h
    rw [Stmt.isFresh] at hf
    simpa only [Stmt.isPlain, Stmt.slots] using registerLocals_quiet hs hb hf hq hd
  | ifThen cond thenBody span =>
    rw [registerStmt] at h
    obtain ⟨then', hthen, rfl⟩ := Visit.within_ok_iff.mp h
    rw [Stmt.isFresh, Bool.and_eq_true] at hf
    simpa only [Stmt.isPlain, Stmt.slots] using registerStmt_quiet hs hb hf.2 hq hthen
  | ifElse cond thenBody elseBody span =>
    rw [registerStmt] at h
    obtain ⟨then', _, s₁, hthen, h⟩ := Visit.part_ok_iff.mp h
    obtain ⟨else', helse, rfl⟩ := Visit.within_ok_iff.mp h
    rw [Stmt.isFresh, Bool.and_eq_true, Bool.and_eq_true] at hf
    obtain ⟨-, hl⟩ := registerStmt_lays hs hb hf.1.2 hthen
    obtain ⟨-, hl'⟩ := registerStmt_lays hl.adds.sound (hb.after hl.adds) hf.2 helse
    have hfirst := registerStmt_quiet hs hb hf.1.2 hq hthen
    have hsecond := fun hq₁ => registerStmt_quiet hl.adds.sound (hb.after hl.adds) hf.2 hq₁ helse
    simp only [Stmt.isPlain, Stmt.slots, Bool.and_eq_true, List.forall_mem_append]
    exact (quiet_iff_and hl'.adds hfirst hsecond).trans and_and_and_comm
  | loop cond body span =>
    rw [registerStmt] at h
    obtain ⟨body', hbody, rfl⟩ := Visit.within_ok_iff.mp h
    rw [Stmt.isFresh, Bool.and_eq_true] at hf
    simpa only [Stmt.isPlain, Stmt.slots] using registerStmt_quiet hs hb hf.2 hq hbody
  | expr value span type =>
    rw [registerStmt] at h
    · cases h
      simp [Stmt.isPlain, Stmt.slots, hq]
    all_goals simp
  | ret value span =>
    rw [registerStmt] at h
    · cases h
      simp [Stmt.isPlain, Stmt.slots, hq]
    all_goals simp
  | empty span =>
    rw [registerStmt] at h
    · cases h
      simp [Stmt.isPlain, Stmt.slots, hq]
    all_goals simp

theorem registerStmts_quiet {body body' : List Stmt} {s s' : State} (hs : s.table.Sound)
    (hb : Home.Is s.table .method) (hf : Stmt.allFresh body = true) (hq : s.diagnostics = [])
    (h : registerStmts body s = ⟨body', .ok (), s'⟩) :
    s'.diagnostics = [] ↔
      Stmt.allPlain body = true ∧ ∀ v ∈ Stmt.allSlots body', v.symbol ≠ none := by
  cases body with
  | nil =>
    rw [registerStmts] at h
    cases h
    simp [Stmt.allPlain, Stmt.allSlots, hq]
  | cons stmt rest =>
    rw [registerStmts] at h
    obtain ⟨stmt', _, s₁, hstmt, h⟩ := Visit.part_ok_iff.mp h
    obtain ⟨rest', hrest, rfl⟩ := Visit.within_ok_iff.mp h
    rw [Stmt.allFresh, Bool.and_eq_true] at hf
    obtain ⟨-, hl⟩ := registerStmt_lays hs hb hf.1 hstmt
    obtain ⟨-, hl'⟩ := registerStmts_lays hl.adds.sound (hb.after hl.adds) hf.2 hrest
    have hfirst := registerStmt_quiet hs hb hf.1 hq hstmt
    have hsecond := fun hq₁ => registerStmts_quiet hl.adds.sound (hb.after hl.adds) hf.2 hq₁ hrest
    simp only [Stmt.allPlain, Stmt.allSlots, Bool.and_eq_true, List.forall_mem_append]
    exact (quiet_iff_and hl'.adds hfirst hsecond).trans and_and_and_comm

end

theorem registerParam_unreported {i : UInt16} {p p' : Param} {s s' : State} (hp : p.symbol = none)
    (h : registerParam i p s = ⟨p', .ok (), s'⟩) (hf : p'.symbol ≠ none) :
    s'.diagnostics = s.diagnostics := by
  unfold registerParam at h
  dsimp only at h
  split at h
  · split at h
    · cases h
      exact absurd hp hf
    · next hd =>
      rw [hp] at h
      cases h
      exact declare_diagnostics hd
  · cases h
    exact absurd hp hf

theorem registerParams_unreported {params : List Param} :
    ∀ {i : UInt16} {params' : List Param} {s s' : State}, (∀ p ∈ params, p.symbol = none) →
      registerParams i params s = ⟨params', .ok (), s'⟩ → (∀ p ∈ params', p.symbol ≠ none) →
      s'.diagnostics = s.diagnostics := by
  induction params with
  | nil =>
    intro i params' s s' _ h _
    cases h
    rfl
  | cons p rest ih =>
    intro i params' s s' hp h hf
    obtain ⟨p', _, s₁, h₁, h₂⟩ := Visit.part_ok_iff.mp h
    obtain ⟨rest', hr, rfl⟩ := Visit.within_ok_iff.mp h₂
    have hfirst := registerParam_unreported (hp p List.mem_cons_self) h₁ (hf p' List.mem_cons_self)
    exact (ih (fun x hx => hp x (List.mem_cons_of_mem _ hx)) hr
      fun x hx => hf x (List.mem_cons_of_mem _ hx)).trans hfirst

/-- Variables of one scope all get symbols exactly if their names are new and distinct. -/
theorem filled_iff_distinct {s s' : State} {slots : List VarSlot} (hs : s.table.Sound)
    (ha : Adds s s' (VarSlot.symbols slots)) (hc : Claims s.table slots)
    (hp : ∀ v ∈ slots, ∀ b, v.symbol = some b →
      b.name = v.name ∧ b.declaredIn = s.table.current ∧ b.isMethod = false) :
    (∀ v ∈ slots, v.symbol ≠ none) ↔ (slots.map VarSlot.name).Nodup ∧
      ∀ v ∈ slots, s.table.members s.table.current v.name = [] := by
  have hslot : ∀ {b}, b ∈ VarSlot.symbols slots →
      ∃ v ∈ slots, v.symbol = some b ∧ b.name = v.name ∧ b.declaredIn = s.table.current ∧
        b.isMethod = false := by
    intro b hb
    obtain ⟨v, hv, hvb⟩ := List.mem_filterMap.mp hb
    exact ⟨v, hv, hvb, hp v hv b hvb⟩
  constructor
  · intro hf
    constructor
    · have hnames : slots.map VarSlot.name = (VarSlot.symbols slots).map Symbol.name := by
        clear ha hc hslot
        induction slots with
        | nil => rfl
        | cons v rest ih =>
          obtain ⟨b, hb⟩ := Option.ne_none_iff_exists'.mp (hf v List.mem_cons_self)
          have ih := ih (fun w hw => hp w (List.mem_cons_of_mem _ hw))
            fun w hw => hf w (List.mem_cons_of_mem _ hw)
          simp only [VarSlot.symbols] at ih ⊢
          simp [hb, (hp v List.mem_cons_self b hb).1, ih]
      rw [hnames, List.Nodup, List.pairwise_map]
      refine ha.ordered.imp_of_mem fun {a b} hma hmb hlt hname => ?_
      obtain ⟨_, _, _, _, hina, hka⟩ := hslot hma
      obtain ⟨_, _, _, _, hinb, _⟩ := hslot hmb
      obtain rfl := ha.sound.alone a b ((ha.bound a).mpr (Or.inr hma))
        ((ha.bound b).mpr (Or.inr hmb)) (hina.trans hinb.symm) hname hka
      exact Nat.lt_irrefl _ hlt
    · intro v hv
      obtain ⟨b, hb⟩ := Option.ne_none_iff_exists'.mp (hf v hv)
      obtain ⟨hname, hin, hk⟩ := hp v hv b hb
      have hmem : b ∈ VarSlot.symbols slots := List.mem_filterMap.mpr ⟨v, hv, hb⟩
      refine List.eq_nil_iff_forall_not_mem.mpr fun c hc => ?_
      obtain ⟨hcn, hck⟩ := hs.home _ _ c hc
      have hcb := hs.bound_of_mem hc
      obtain rfl := ha.sound.alone b c ((ha.bound b).mpr (Or.inr hmem)) (ha.keeps hcb)
        (hin.trans hck.symm) (hname.trans hcn.symm) hk
      exact absurd (hs.number b hcb).2 (Nat.not_lt_of_le (ha.range b hmem).1)
  · rintro ⟨hnodup, hfree⟩ v hv hnone
    have hfirst : VarSlot.first? v.name slots = some v := by
      refine find?_eq_some_of_unique hv (by simp) fun w hw hwv => ?_
      exact List.inj_on_of_nodup_map hnodup hw hv (by simpa using hwv)
    exact hc v.name v hfirst hnone (hfree v hv)

end Registration

structure Method.Tidy (m : Method) : Prop where
  modifiers : Registration.modifierProblems m.name.text m.modifiers = []
  body : m.body.isSome = true
  plain : m.body.all Stmt.allPlain = true
  names : (m.slots.map VarSlot.name).Nodup

namespace Registration

theorem slotNames_eq {m n : Method} (h : n.erase = m.erase) :
    n.slots.map VarSlot.name = m.slots.map VarSlot.name := by
  obtain ⟨hparams, hslots⟩ := Method.slots_of_erase h
  have hparams := congrArg (List.map fun p => p.name.text) hparams
  have hslots := congrArg (List.map VarSlot.name) hslots
  simp only [List.map_map] at hparams hslots
  simp only [Method.slots, List.map_append, List.map_map]
  exact congrArg₂ _ hparams hslots

theorem registerMethodBody_passes {m : Method} {s : State} (hs : s.table.Sound)
    (hb : Home.Is s.table .method) (hp : ∀ p ∈ m.params, p.symbol = none)
    (hf : m.body.all Stmt.allFresh = true) (hn : s.nextSlot = 0) (hq : s.diagnostics = [])
    (hempty : ∀ x, s.table.members s.table.current x = []) :
    Passes (registerMethodBody m) s ↔ m.body.isSome = true ∧ m.body.all Stmt.allPlain = true ∧
      (m.slots.map VarSlot.name).Nodup := by
  have hrun : ∀ {m' s'}, registerMethodBody m s = ⟨m', .ok (), s'⟩ →
      (s'.diagnostics = [] ↔ m.body.isSome = true ∧ m.body.all Stmt.allPlain = true ∧
        (m.slots.map VarSlot.name).Nodup) := by
    intro m' s' h
    obtain ⟨he, -, hfills⟩ := registerMethodBody_fills hs hb hp hf hn h
    have hdistinct := filled_iff_distinct hs
      (m'.symbols_slots ▸ hfills.adds) hfills.claims fun v hv b hb => hfills.of_mem hv hb
    rw [slotNames_eq he] at hdistinct
    obtain ⟨params, _, s₁, hparams, hrest⟩ := Visit.part_ok_iff.mp h
    obtain ⟨-, ha, -, -, -, hfill⟩ := registerParams_adds hs hb hp hparams
    cases hbody : m.body with
    | none =>
      simp only [hbody] at hrest
      cases hrest
    | some body =>
      simp only [hbody] at hrest
      obtain ⟨body', hstmts, rfl⟩ := Visit.within_ok_iff.mp hrest
      rw [hbody] at hf
      obtain ⟨-, hl⟩ := registerStmts_lays ha.sound (hb.after ha) hf hstmts
      have hfirst : s₁.diagnostics = [] ↔ ∀ p ∈ params, p.symbol ≠ none :=
        ⟨hfill, fun hf => (registerParams_unreported hp hparams hf).trans hq⟩
      have hsecond := fun hq₁ => registerStmts_quiet ha.sound (hb.after ha) hf hq₁ hstmts
      have hnames := hdistinct.trans ⟨And.left, fun h => ⟨h, fun _ _ => hempty _⟩⟩
      rw [quiet_iff_and hl.adds hfirst hsecond, ← hnames]
      simp only [Option.isSome_some, Option.all_some, true_and, Method.slots,
        List.forall_mem_append, List.forall_mem_map]
      exact and_left_comm
  constructor
  · rintro ⟨m', s', h, hq'⟩
    exact (hrun h).mp hq'
  · rintro ⟨hsome, hplain, hnodup⟩
    obtain ⟨m', _, s', h⟩ := registerMethodBody_succeeds hp hf hsome s
    exact ⟨m', s', h, (hrun h).mpr ⟨hsome, hplain, hnodup⟩⟩

end Registration

/-- What a member of a class goes by: a name, and for a method the types of its parameters. -/
structure Title where
  name : String
  params? : Option (List TypeExpr)

def Title.Apart (a b : Title) : Prop :=
  a.name = b.name → ∃ ps qs, a.params? = some ps ∧ b.params? = some qs ∧
    TypeExpr.sameAll ps qs = false

theorem Title.Apart.symm {a b : Title} (h : a.Apart b) : b.Apart a := by
  intro hname
  obtain ⟨ps, qs, ha, hb, hne⟩ := h hname.symm
  exact ⟨qs, ps, hb, ha, TypeExpr.sameAll_comm qs ps ▸ hne⟩

structure ClassHead.Tidy (head : ClassHead) : Prop where
  modifiers : Registration.modifierProblems head.name.text head.modifiers = []
  supported : Registration.unsupportedHead head = []

namespace Member

def titles : Member → List Title
  | .method m => [⟨m.name.text, some (m.params.map Param.type)⟩]
  | .field d => d.vars.map fun v => ⟨v.name.text, none⟩
  | .nested head _ => [⟨head.name.text, none⟩]

mutual

def Tidy : Member → Prop
  | .method m => m.Tidy
  | .field d => Registration.modifierProblems d.names d.modifiers = []
  | .nested head members =>
    head.Tidy ∧ (members.flatMap titles).Pairwise Title.Apart ∧ AllTidy members

def AllTidy : List Member → Prop
  | [] => True
  | m :: rest => m.Tidy ∧ AllTidy rest

end

end Member

namespace Registration

def Free (s : State) (a : Title) : Prop :=
  ∀ b ∈ s.table.members s.table.current a.name,
    ∃ ps, a.params? = some ps ∧ b.isMethod = true ∧ sameParams ps b = false

theorem free_none_iff {s : State} {name : String} :
    Free s ⟨name, none⟩ ↔ s.table.members s.table.current name = [] := by
  simp [Free, List.eq_nil_iff_forall_not_mem]

theorem free_method_iff {s : State} {name : String} {params : List TypeExpr} :
    Free s ⟨name, some params⟩ ↔
      (∀ b ∈ s.table.members s.table.current name, b.isMethod = true) ∧
        ¬ (s.table.localsOf name .method).any (sameParams params) = true := by
  simp only [Free, Option.some.injEq, exists_eq_left', Table.localsOf, List.any_eq_true,
    List.mem_filter, not_exists, not_and, Bool.not_eq_true]
  constructor
  · intro h
    exact ⟨fun b hb => (h b hb).1, fun b hb => (h b hb.1).2⟩
  · rintro ⟨hk, hdiff⟩ b hb
    exact ⟨hk b hb, hdiff b ⟨hb, hk b hb⟩⟩

theorem admits_iff {existing : List Symbol} {b : Symbol} :
    Table.admits existing b = true ↔ ∀ x ∈ existing, b.isMethod = true ∧ x.isMethod = true := by
  cases existing with
  | nil => simp [Table.admits]
  | cons x rest =>
    simp only [Table.admits, List.isEmpty_cons, Bool.false_or, Bool.and_eq_true, List.all_eq_true]
    exact ⟨fun h y hy => ⟨h.1, h.2 y hy⟩,
      fun h => ⟨(h x List.mem_cons_self).1, fun y hy => (h y hy).2⟩⟩

theorem declare_admits {s s' : State} {name : Name} {details : Details} {scope : Option ScopeId}
    {answer : Option Symbol} (h : s.declare name details scope = (s', answer)) :
    answer.isSome = true ↔ ∀ b ∈ s.table.members s.table.current name.text,
      (made s name details scope).isMethod = true ∧ b.isMethod = true := by
  rw [← admits_iff]
  unfold State.declare at h
  dsimp only at h
  split at h
  · next hbind =>
    cases h
    exact iff_of_true rfl (Table.bind_ok_inv hbind).1
  · next hbind =>
    cases h
    simp only [Option.isSome_none, Bool.false_eq_true, false_iff, Bool.not_eq_true]
    exact (Table.bind_eq_error_iff.mp hbind).1

theorem allAt_eq_nil_iff {position : Position} {problems : List Problem} :
    Diagnostic.allAt position problems = [] ↔ problems = [] := by
  simp [Diagnostic.allAt]

theorem not_quiet_of_report {ν : Type} {node : ν} {s : State} {problem : Problem}
    {position : Position} :
    ¬ ∃ node' s', (⟨node, .ok (), s.report problem position⟩ : Visited State ν Unit) =
      ⟨node', .ok (), s'⟩ ∧ s'.diagnostics = [] := by
  rintro ⟨_, _, h, hq⟩
  cases h
  simp [State.report] at hq

theorem registerMethod_passes {path : List String} {m : Method} {s : State} (hs : s.table.Sound)
    (hp : s.table.PathOf s.table.current path) (hf : m.isFresh = true) (hq : s.diagnostics = []) :
    Passes (registerMethod path m) s ↔
      m.Tidy ∧ Free s ⟨m.name.text, some (m.params.map Param.type)⟩ := by
  simp only [Method.isFresh, Bool.and_eq_true, Option.isNone_iff_eq_none, List.all_eq_true] at hf
  obtain ⟨⟨hsym, hparams⟩, hbody⟩ := hf
  unfold Passes registerMethod
  dsimp only
  generalize hr : s.reportAll (modifierProblems m.name.text m.modifiers) m.name.span.start = r
  have htable : r.table = s.table := by rw [← hr]; rfl
  have hreports : r.diagnostics = [] ↔ modifierProblems m.name.text m.modifiers = [] := by
    rw [← hr]
    simp [State.reportAll, hq, allAt_eq_nil_iff]
  rw [free_method_iff, ← htable]
  rw [← htable] at hs hp
  split
  · next hany => exact iff_of_false not_quiet_of_report fun h => h.2.2 hany
  · next hany =>
    have hfit : (r.table.openScope m.name.text).2.Fits
        (made { r with table := (r.table.openScope m.name.text).2 } m.name
          (.method (m.params.map Param.type) m.returns m.modifiers path none)
          (some r.table.scopes.length)) := Table.PathOf.mono (by simp) hp
    split
    · next s₁ hd =>
      refine iff_of_false not_quiet_of_report fun h => ?_
      have hsome := (declare_admits hd).mpr fun b hb => ⟨rfl, h.2.1 b ?_⟩
      · cases hsome
      · rwa [Table.members_openScope] at hb
    · next s₁ b hd =>
      have hmethods : ∀ b ∈ r.table.members r.table.current m.name.text, b.isMethod = true :=
        fun b hb => ((declare_admits hd).mp rfl b (by rwa [Table.members_openScope])).2
      obtain ⟨-, ho⟩ := declare_opened hs (hp.not_isBody hs) hfit (unlike_of_localsOf hany) hd
      replace ho := ho b rfl
      have hin : Home.Is (s₁.moveTo r.table.scopes.length).table .method :=
        ⟨b, (ho.adds.bound _).mpr (Or.inr List.mem_cons_self),
          by simp [Symbol.isMethod, Symbol.kind, ho.details], ho.scope⟩
      have hpass := fun hq₁ => registerMethodBody_passes (m := { m with symbol := some b })
        (s := { s₁.moveTo r.table.scopes.length with nextSlot := 0 })
        (ho.adds.sound.moveTo ho.inside) hin hparams hbody rfl hq₁ ho.empty
      have hsame : s₁.diagnostics = r.diagnostics := (declare_diagnostics hd).trans rfl
      rw [hsym]
      refine passes_back.trans ?_
      constructor
      · intro h
        obtain ⟨m', s', hrun, hq'⟩ := id h
        obtain ⟨-, -, hfills⟩ := registerMethodBody_fills (m := { m with symbol := some b })
          (s := { s₁.moveTo r.table.scopes.length with nextSlot := 0 })
          (ho.adds.sound.moveTo ho.inside) hin hparams hbody rfl hrun
        have hq₁ := hfills.adds.quiet hq'
        obtain ⟨hsome, hplain, hnames⟩ := (hpass hq₁).mp h
        exact ⟨⟨hreports.mp (hsame.symm.trans hq₁), hsome, hplain, hnames⟩, hmethods, hany⟩
      · rintro ⟨htidy, -⟩
        have hq₁ := hsame.trans (hreports.mpr htidy.modifiers)
        exact (hpass hq₁).mpr ⟨htidy.body, htidy.plain, htidy.names⟩

theorem registerField_passes {path : List String} {d : VarDecl} {s : State} (hs : s.table.Sound)
    (hp : s.table.PathOf s.table.current path) (hf : d.isFresh = true) (hq : s.diagnostics = []) :
    Passes (registerField path d) s ↔ modifierProblems d.names d.modifiers = [] ∧
      (d.vars.map fun v => v.name.text).Nodup ∧
        ∀ v ∈ d.vars, s.table.members s.table.current v.name.text = [] := by
  have hrun : ∀ {d' s'}, registerField path d s = ⟨d', .ok (), s'⟩ →
      (s'.diagnostics = [] ↔ modifierProblems d.names d.modifiers = [] ∧
        (d.vars.map fun v => v.name.text).Nodup ∧
          ∀ v ∈ d.vars, s.table.members s.table.current v.name.text = []) := by
    intro d' s' h
    obtain ⟨he, hl⟩ := registerField_lays hs hp hf h
    have hdistinct := filled_iff_distinct hs hl.adds hl.claims fun v hv b hb => by
      obtain ⟨hname, hin, _, hd⟩ := hl.placed.of_mem hv hb
      exact ⟨hname, hin, by simp [Symbol.isMethod, Symbol.kind, hd]⟩
    have hnames : d'.slots.map VarSlot.name = d.vars.map fun v => v.name.text := by
      have hslots := congrArg (List.map fun v : Declarator => v.name.text)
        (congrArg VarDecl.vars he)
      simp only [VarDecl.erase, List.map_map] at hslots
      simp only [VarDecl.slots, List.map_map]
      exact hslots
    have hfree : (∀ v ∈ d'.slots, s.table.members s.table.current v.name = []) ↔
        ∀ v ∈ d.vars, s.table.members s.table.current v.name.text = [] := by
      have hall := List.forall_mem_map (f := VarSlot.name) (l := d'.slots)
        (P := fun x => s.table.members s.table.current x = [])
      rw [← hall, hnames, List.forall_mem_map]
    have hreports : (s.reportAll (modifierProblems d.names d.modifiers) d.span.start).diagnostics =
        [] ↔ modifierProblems d.names d.modifiers = [] := by
      simp [State.reportAll, hq, allAt_eq_nil_iff]
    have hhome : Home.Is s.table (.cls (Modifier.isStatic d.modifiers) path) := hp
    have hadds := (registerVars_lays
      (s := s.reportAll (modifierProblems d.names d.modifiers) d.span.start) hs hhome hf h).2.adds
    rw [hnames, hfree] at hdistinct
    rw [← hdistinct]
    refine quiet_iff_and hadds hreports fun hq₁ => ⟨hl.filled, fun hfilled => ?_⟩
    exact (registerVars_unreported hf h hfilled).trans hq₁
  constructor
  · rintro ⟨d', s', h, hq'⟩
    exact (hrun h).mp hq'
  · intro hall
    obtain ⟨d', _, s', h⟩ := registerVars_succeeds hf
      (s.reportAll (modifierProblems d.names d.modifiers) d.span.start)
    exact ⟨d', s', h, (hrun h).mpr hall⟩

theorem registerClassWith_passes {path : List String} {head : ClassHead} {members : List Member}
    {body : List String → Visit State (List Member) Unit} {s : State} {P : Prop}
    (hs : s.table.Sound) (hp : s.table.PathOf s.table.current path) (hf : head.symbol = none)
    (hq : s.diagnostics = [])
    (hquiet : ∀ {path members' s s'}, s.table.Sound → s.table.PathOf s.table.current path →
      body path s = ⟨members', .ok (), s'⟩ → s'.diagnostics = [] → s.diagnostics = [])
    (hbody : ∀ {path s}, s.table.Sound → s.table.PathOf s.table.current path →
      s.diagnostics = [] → (∀ x, s.table.members s.table.current x = []) →
      (Passes (body path) s ↔ P)) :
    Passes (registerClassWith path head members body) s ↔
      head.Tidy ∧ s.table.members s.table.current head.name.text = [] ∧ P := by
  unfold Passes registerClassWith
  dsimp only
  generalize hr : s.reportAll _ _ = q
  obtain ⟨table, reports, slot⟩ := q
  dsimp only
  generalize hreported : reports ++ unsupportedHead head = reported
  have htable : table = s.table := (congrArg State.table hr).symm
  have htidy : reported = [] ↔ head.Tidy := by
    have hreports : reports = s.diagnostics ++ _ := (congrArg State.diagnostics hr).symm
    rw [← hreported, hreports, hq, List.nil_append, List.append_eq_nil_iff, allAt_eq_nil_iff]
    exact ⟨fun h => ⟨h.1, h.2⟩, fun h => ⟨h.1, h.2⟩⟩
  rw [← htable] at hs hp ⊢
  split
  · next hempty =>
    have hfit : (table.openScope head.name.text).2.Fits
        (made ⟨(table.openScope head.name.text).2, reported, slot⟩ head.name
          (.cls (path ++ [head.name.text]) head.modifiers false) (some table.scopes.length)) :=
      ⟨rfl, path, Table.PathOf.mono (by simp) hp, rfl⟩
    split
    · next s₁ hd =>
      have hsome := (declare_admits hd).mpr fun b hb => ?_
      · cases hsome
      · rw [Table.members_openScope] at hb
        exact absurd hb (List.isEmpty_iff.mp hempty ▸ List.not_mem_nil)
    · next s₁ b hd =>
      obtain ⟨-, ho⟩ :=
        declare_opened (r := ⟨table, reported, slot⟩) hs (hp.not_isBody hs) hfit
          (.of_isMethod rfl) hd
      replace ho := ho b rfl
      have hsame : s₁.diagnostics = reported := declare_diagnostics hd
      have hin : (s₁.moveTo table.scopes.length).table.Sound := ho.adds.sound.moveTo ho.inside
      have hpath : (s₁.moveTo table.scopes.length).table.PathOf
          (s₁.moveTo table.scopes.length).table.current (path ++ [head.name.text]) :=
        Or.inr ⟨b, _, _, (ho.adds.bound _).mpr (Or.inr List.mem_cons_self), ho.scope, ho.details⟩
      rw [hf]
      refine passes_back.trans ?_
      constructor
      · intro h
        obtain ⟨members', s', hrun, hq'⟩ := id h
        have hq₁ := hquiet hin hpath hrun hq'
        exact ⟨htidy.mp (hsame.symm.trans hq₁), List.isEmpty_iff.mp hempty,
          (hbody hin hpath hq₁ ho.empty).mp h⟩
      · rintro ⟨hhead, -, hP⟩
        exact (hbody hin hpath (hsame.trans (htidy.mpr hhead)) ho.empty).mpr hP
  · next hempty =>
    exact iff_of_false not_quiet_of_report fun h => hempty (List.isEmpty_iff.mpr h.2.1)

/-- A member that is registered stands apart from the titles that stay free. -/
theorem named_iff_apart {m : Member} {path : List String} {a : Title}
    (hp : ∀ d ∈ m.decls path, d.Placed) (hf : ∀ d ∈ m.decls path, d.Filled) :
    (∀ b ∈ m.named a.name, ∃ ps, a.params? = some ps ∧ b.isMethod = true ∧
      sameParams ps b = false) ↔ ∀ c ∈ m.titles, c.Apart a := by
  cases m with
  | method m =>
    simp only [Member.decls, List.mem_singleton, forall_eq] at hp hf
    obtain ⟨b, hb⟩ := Option.ne_none_iff_exists'.mp hf.1
    simp only [Decl.Placed, hb] at hp
    have hd := hp.1.2
    by_cases hname : m.name.text = a.name
    · simp [Member.named, Member.titles, Title.Apart, hname, hb, Symbol.isMethod, Symbol.kind, hd,
        sameParams]
    · simp [Member.named, Member.titles, Title.Apart, hname]
  | field d =>
    simp only [Member.decls, List.mem_singleton, forall_eq] at hp hf
    have hvar : ∀ v ∈ d.slots, ∀ b, v.symbol = some b → b.isMethod = false := fun v hv b hb => by
      simp [Symbol.isMethod, Symbol.kind, (hp v hv b hb).2]
    simp only [Member.named, Member.titles, VarSlot.symbols, List.mem_filterMap, List.mem_filter,
      beq_iff_eq, List.forall_mem_map]
    constructor
    · intro h v hv hname
      have hslot : (⟨v.name.text, d.type, v.symbol⟩ : VarSlot) ∈ d.slots :=
        List.mem_map.mpr ⟨v, hv, rfl⟩
      obtain ⟨b, hb⟩ := Option.ne_none_iff_exists'.mp (hf _ hslot)
      obtain ⟨_, -, hmethod, -⟩ := h b ⟨_, ⟨hslot, hname⟩, hb⟩
      rw [hvar _ hslot b hb] at hmethod
      cases hmethod
    · rintro h b ⟨v, ⟨hv, hname⟩, hb⟩
      obtain ⟨w, hw, rfl⟩ := List.mem_map.mp hv
      obtain ⟨_, _, hnone, -⟩ := h w hw hname
      cases hnone
  | nested head members =>
    have hown : .cls (path ++ [head.name.text]) head ∈ (Member.nested head members).decls path := by
      rw [Member.decls]
      exact List.mem_cons_self
    have hfilled : head.symbol ≠ none := hf _ hown
    obtain ⟨b, hb⟩ := Option.ne_none_iff_exists'.mp hfilled
    have hd := (hp _ hown b hb).2.2
    by_cases hname : head.name.text = a.name
    · simp [Member.named, Member.titles, Title.Apart, hname, hb, Symbol.isMethod, Symbol.kind, hd]
    · simp [Member.named, Member.titles, Title.Apart, hname]

theorem titles_eq {m n : Member} (h : n.erase = m.erase) : n.titles = m.titles := by
  cases m with
  | method m =>
    cases n <;> simp only [Member.erase, Member.method.injEq, reduceCtorEq] at h
    obtain ⟨hname, -, -, htypes⟩ := erase_method_eq h
    simp [Member.titles, hname, htypes]
  | field d =>
    cases n <;> simp only [Member.erase, Member.field.injEq, reduceCtorEq] at h
    have hvars := congrArg (List.map fun v : Declarator => (⟨v.name.text, none⟩ : Title))
      (congrArg VarDecl.vars h)
    simp only [VarDecl.erase, List.map_map] at hvars
    exact hvars
  | nested head members =>
    cases n <;> simp only [Member.erase, Member.nested.injEq, reduceCtorEq] at h
    simp only [ClassHead.erase, ClassHead.mk.injEq] at h
    simp [Member.titles, h]

/-- After a member, the titles are free that were free and stand apart from its own. -/
theorem free_after {path : List String} {m m' : Member} {s s₁ : State} {a : Title}
    (hs : s.table.Sound) (hp : s.table.PathOf s.table.current path) (hf : m.isFresh = true)
    (h : registerMember path m s = ⟨m', .ok (), s₁⟩) (hq : s₁.diagnostics = []) :
    Free s₁ a ↔ Free s a ∧ ∀ c ∈ m.titles, c.Apart a := by
  obtain ⟨he, hr, hset⟩ := registerMember_registers hs hp hf h
  rw [← titles_eq he, ← named_iff_apart hr.placed (hr.filled hq), Free, hr.adds.current,
    hset.members, List.forall_mem_append]
  simp [Free, Member.allNamed]

mutual

theorem registerMember_passes {path : List String} {m : Member} {s : State} (hs : s.table.Sound)
    (hp : s.table.PathOf s.table.current path) (hf : m.isFresh = true) (hq : s.diagnostics = []) :
    Passes (registerMember path m) s ↔
      m.Tidy ∧ m.titles.Pairwise Title.Apart ∧ ∀ a ∈ m.titles, Free s a := by
  cases m with
  | method m =>
    rw [Member.isFresh] at hf
    rw [registerMember, passes_within, registerMethod_passes hs hp hf hq]
    simp [Member.Tidy, Member.titles]
  | field d =>
    rw [Member.isFresh] at hf
    rw [registerMember, passes_within, registerField_passes hs hp hf hq]
    simp only [Member.Tidy, Member.titles, List.forall_mem_map, free_none_iff]
    simp [List.pairwise_map, Title.Apart, List.Nodup]
  | nested head members =>
    rw [Member.isFresh, Bool.and_eq_true] at hf
    have hbody : ∀ {path s}, s.table.Sound → s.table.PathOf s.table.current path →
        s.diagnostics = [] → (∀ x, s.table.members s.table.current x = []) →
        (Passes (registerMembers path members) s ↔
          (members.flatMap Member.titles).Pairwise Title.Apart ∧ Member.AllTidy members) := by
      intro path s hs hp hq hempty
      rw [registerMembers_passes hs hp hf.2 hq]
      have hfree : ∀ a ∈ members.flatMap Member.titles, Free s a := by simp [Free, hempty]
      exact ⟨fun h => ⟨h.2.1, h.1⟩, fun h => ⟨h.2, h.1, hfree⟩⟩
    rw [registerMember, passes_within, registerClassWith_passes hs hp
      (Option.isNone_iff_eq_none.mp hf.1) hq
      (fun hs hp h hq' => (registerMembers_registers hs hp hf.2 h).2.1.adds.quiet hq') hbody]
    simp only [Member.Tidy, Member.titles, List.pairwise_singleton, true_and,
      List.mem_singleton, forall_eq, free_none_iff]
    exact ⟨fun h => ⟨⟨h.1, h.2.2⟩, h.2.1⟩, fun h => ⟨h.1.1, h.2, h.1.2⟩⟩

theorem registerMembers_passes {path : List String} {ms : List Member} {s : State}
    (hs : s.table.Sound) (hp : s.table.PathOf s.table.current path)
    (hf : Member.allFresh ms = true) (hq : s.diagnostics = []) :
    Passes (registerMembers path ms) s ↔ Member.AllTidy ms ∧
      (ms.flatMap Member.titles).Pairwise Title.Apart ∧
        ∀ a ∈ ms.flatMap Member.titles, Free s a := by
  cases ms with
  | nil =>
    rw [registerMembers]
    simp only [Member.AllTidy, List.flatMap_nil, true_and]
    refine iff_of_true ⟨[], s, rfl, hq⟩ ⟨List.Pairwise.nil, by simp⟩
  | cons m rest =>
    rw [Member.allFresh, Bool.and_eq_true] at hf
    rw [registerMembers, passes_part]
    simp only [passes_within, Member.AllTidy, List.flatMap_cons, List.pairwise_append,
      List.forall_mem_append]
    have hnext : ∀ {m' s₁}, registerMember path m s = ⟨m', .ok (), s₁⟩ →
        s₁.table.Sound ∧ s₁.table.PathOf s₁.table.current path := by
      intro m' s₁ h
      obtain ⟨-, hr, -⟩ := registerMember_registers hs hp hf.1 h
      exact ⟨hr.adds.sound, hr.adds.current ▸ hp.mono fun b hb => hr.adds.keeps hb⟩
    have hfirst := registerMember_passes hs hp hf.1 hq
    constructor
    · rintro ⟨m', s₁, h, hrest⟩
      obtain ⟨hs₁, hp₁⟩ := hnext h
      obtain ⟨_, _, hrun, hq'⟩ := id hrest
      have hq₁ := (registerMembers_registers hs₁ hp₁ hf.2 hrun).2.1.adds.quiet hq'
      obtain ⟨htidy, hapart, hfree⟩ := hfirst.mp ⟨m', s₁, h, hq₁⟩
      obtain ⟨htidy', hapart', hfree'⟩ := (registerMembers_passes hs₁ hp₁ hf.2 hq₁).mp hrest
      have hafter := fun a ha => (free_after hs hp hf.1 h hq₁).mp (hfree' a ha)
      exact ⟨⟨htidy, htidy'⟩, ⟨hapart, hapart', fun c hc a ha => (hafter a ha).2 c hc⟩, hfree,
        fun a ha => (hafter a ha).1⟩
    · rintro ⟨⟨htidy, htidy'⟩, ⟨hapart, hapart', hcross⟩, hfree, hfree'⟩
      obtain ⟨m', s₁, h, hq₁⟩ := hfirst.mpr ⟨htidy, hapart, hfree⟩
      obtain ⟨hs₁, hp₁⟩ := hnext h
      refine ⟨m', s₁, h, (registerMembers_passes hs₁ hp₁ hf.2 hq₁).mpr ⟨htidy', hapart', ?_⟩⟩
      exact fun a ha => (free_after hs hp hf.1 h hq₁).mpr
        ⟨hfree' a ha, fun c hc => hcross c hc a ha⟩

end

/-- A fresh unit is registered without a report exactly if its class is written properly and does
not go by the name of the class that is built in. -/
theorem registerUnit_passes {u : CompilationUnit} {tag : Nat} (hf : u.isFresh = true) :
    (∃ u' s, registerUnit u (.withSystem tag) [] = ⟨u', .ok (), s⟩ ∧ s.diagnostics = []) ↔
      ∃ top, u.top = some top ∧ top.head.name.text ≠ "System" ∧
        (Member.nested top.head top.members).Tidy := by
  obtain ⟨_ | top⟩ := u
  · refine iff_of_false ?_ (by simp)
    rintro ⟨_, _, h, -⟩
    cases h
  have hclass : Passes (registerMember [] (.nested top.head top.members))
        (.start (.withSystem tag) []) ↔
      Passes (registerClass [] top) (.start (.withSystem tag) []) := by
    rw [registerMember]
    exact passes_within
  have hfree : Free (.start (.withSystem tag) []) ⟨top.head.name.text, none⟩ ↔
      top.head.name.text ≠ "System" := by
    have hroot : (Table.withSystem tag).members Table.root top.head.name.text = [] ↔
        top.head.name.text ≠ "System" := by
      rw [Table.members_withSystem, ne_comm]
      simp [Table.builtins, Table.systemClass, Table.consoleRoutine, Table.root]
    rw [free_none_iff, ← hroot]
    rfl
  refine passes_back.trans (hclass.symm.trans ?_)
  rw [registerMember_passes (Table.sound_withSystem tag) (Or.inl ⟨rfl, rfl⟩)
    (by rw [Member.isFresh]; exact hf) rfl]
  simp [Member.titles, hfree, and_comm]

end Registration

end ClassLang
