import ClassLang.Proofs.Faultless
import ClassLang.Proofs.Image

/-! Units that are accepted: nothing was reported and there is assembly. That the assembly could be
written says that every declared symbol has a type that means something, so the typing rules hold
throughout. -/
namespace ClassLang

open Assembly Typing

namespace Lowering

theorem symbolType_eq_ok_iff {r : Resolutions} {b : Symbol} {a : AsmType} :
    symbolType r b = .ok a ↔ ∃ T, r.type? b = some T ∧ T.toAsm = .ok a := by
  unfold symbolType Resolutions.typeOf
  cases r.type? b with
  | none => simp [bind, Except.bind]
  | some T => simp [bind, Except.bind]

theorem paramEntries_inv {t : Target} {params : List Param} :
    ∀ {entries : List (AsmType × String)}, t.paramEntries params = .ok entries →
      List.Forall₂ (fun p e => ∃ b, p.symbol = some b ∧ symbolType t.resolutions b = .ok e.1 ∧
        e.2 = b.name) params entries := by
  induction params with
  | nil =>
    intro entries h
    cases h
    exact .nil
  | cons p params ih =>
    intro entries h
    simp only [Target.paramEntries, bind, Except.bind, pure, Except.pure] at h
    cases hb : registered p.symbol .param p.name.text with
    | error fault => simp [hb] at h
    | ok b =>
      cases ha : symbolType t.resolutions b with
      | error fault => simp [hb, ha] at h
      | ok a =>
        cases hr : t.paramEntries params with
        | error fault => simp [hb, ha, hr] at h
        | ok rest =>
          simp only [hb, ha, hr, Except.ok.injEq] at h
          subst h
          exact .cons ⟨b, symbol_of_registered hb, ha, rfl⟩ (ih hr)

theorem localEntries_inv {t : Target} {found : List (UInt16 × Symbol)} :
    ∀ {entries : List LocalEntry}, t.localEntries found = .ok entries →
      List.Forall₂ (fun x e => e.slot = x.1 ∧ symbolType t.resolutions x.2 = .ok e.type ∧
        e.name = x.2.name) found entries := by
  induction found with
  | nil =>
    intro entries h
    cases h
    exact .nil
  | cons x found ih =>
    intro entries h
    simp only [Target.localEntries, bind, Except.bind, pure, Except.pure] at h
    cases ha : symbolType t.resolutions x.2 with
    | error fault => simp [ha] at h
    | ok a =>
      cases hr : t.localEntries found with
      | error fault => simp [ha, hr] at h
      | ok rest =>
        simp only [ha, hr, Except.ok.injEq] at h
        subst h
        exact .cons ⟨rfl, ha, rfl⟩ (ih hr)

theorem exists_of_forall₂_left {α β : Type} {R : α → β → Prop} {as : List α} {bs : List β}
    (h : List.Forall₂ R as bs) {a : α} (ha : a ∈ as) : ∃ b ∈ bs, R a b := by
  induction h with
  | nil => cases ha
  | cons hr _ ih =>
    rcases List.mem_cons.mp ha with rfl | ha
    · exact ⟨_, List.mem_cons_self, hr⟩
    · obtain ⟨b, hb, hab⟩ := ih ha
      exact ⟨b, List.mem_cons_of_mem _ hb, hab⟩

theorem exists_of_forall₂_right {α β : Type} {R : α → β → Prop} {as : List α} {bs : List β}
    (h : List.Forall₂ R as bs) {b : β} (hb : b ∈ bs) : ∃ a ∈ as, R a b :=
  exists_of_forall₂_left h.flip hb

theorem forall₂_imp_of_mem {α β : Type} {R S : α → β → Prop} {as : List α} {bs : List β}
    (h : List.Forall₂ R as bs) (hi : ∀ a b, a ∈ as → R a b → S a b) : List.Forall₂ S as bs := by
  induction h with
  | nil => exact .nil
  | cons hr _ ih =>
    exact .cons (hi _ _ List.mem_cons_self hr) (ih fun a b ha => hi a b (List.mem_cons_of_mem _ ha))

theorem forall₂_trans {α β γ : Type} {R : α → β → Prop} {S : β → γ → Prop} {T : α → γ → Prop}
    (hT : ∀ a b c, R a b → S b c → T a c) {as : List α} {bs : List β} (h : List.Forall₂ R as bs) :
    ∀ {cs : List γ}, List.Forall₂ S bs cs → List.Forall₂ T as cs := by
  induction h with
  | nil =>
    intro cs hcs
    cases hcs
    exact .nil
  | cons hr _ ih =>
    intro cs hcs
    cases hcs with
    | cons hs hrest => exact .cons (hT _ _ _ hr hs) (ih hrest)

theorem Emits.written {t : Target} {tag : Nat} {ds : List Decl} {img : Image} (h : Emits t ds img)
    {b : Symbol} (hb : Declared tag ds b) :
    b.kind = .cls ∨ b.details.isRoutine = true ∨ ∃ a, symbolType t.resolutions b = .ok a := by
  cases hb with
  | system hb =>
    subst hb
    exact Or.inl rfl
  | cls _ _ hd => exact Or.inl (by simp [Symbol.kind, hd])
  | routine _ hd => exact Or.inr (Or.inl (by simp [Details.isRoutine, hd]))
  | field hf hv hb _ =>
    obtain ⟨vs, hvs, hfields⟩ := h.fields
    obtain ⟨f, -, hef⟩ := exists_of_forall₂_left hfields
      (hvs.mem_iff.mpr (Decl.mem_fields.mpr ⟨_, hf, hv⟩))
    obtain ⟨hb', ht⟩ := hef
    obtain rfl := Option.some.inj (hb.symm.trans hb')
    exact Or.inr (Or.inr ⟨_, ht⟩)
  | method hm hs _ =>
    obtain ⟨x, -, hx⟩ := exists_of_forall₂_left h.methods (Decl.mem_methods.mpr hm)
    obtain ⟨hs', hr, -⟩ := hx
    obtain rfl := Option.some.inj (hs.symm.trans hs')
    exact Or.inr (Or.inr ⟨_, hr⟩)
  | param hm _ _ hp hb _ =>
    obtain ⟨x, -, hx⟩ := exists_of_forall₂_left h.methods (Decl.mem_methods.mpr hm)
    obtain ⟨-, -, hparams, -⟩ := hx
    obtain ⟨e, -, b', hb', ha, -⟩ := exists_of_forall₂_left (paramEntries_inv hparams) hp
    obtain rfl := Option.some.inj (hb.symm.trans hb')
    exact Or.inr (Or.inr ⟨_, ha⟩)
  | @slot _ m _ v index hm _ _ hv hb hd =>
    obtain ⟨x, -, hx⟩ := exists_of_forall₂_left h.methods (Decl.mem_methods.mpr hm)
    obtain ⟨-, -, -, hbody, hfound, hlocals, -⟩ := hx
    rw [Method.bodySlots, hbody, Option.getD_some] at hv
    have hin := (gatherAllLocals_gathers.1 _ hfound (index, b)).mpr (Or.inr ⟨v, hv, _, hb, hd⟩)
    obtain ⟨e, -, -, ha, -⟩ := exists_of_forall₂_left (localEntries_inv hlocals) hin
    exact Or.inr (Or.inr ⟨_, ha⟩)

end Lowering

namespace Typing

theorem meaning_keyword_ne_error (t : Table) (scope : ScopeId) (word : Keyword) (span : Span) :
    meaning t scope (.keyword word span) ≠ .error := by
  cases word <;> simp [meaning, resolveType, Ty.ofKeyword]

theorem meaning_ne_this (t : Table) (k : ScopeId) (type : TypeExpr) : meaning t k type ≠ .this := by
  intro he
  cases type with
  | keyword word span => cases word <;> cases he
  | array => cases he
  | generic => cases he
  | named segments span =>
    unfold meaning resolveType at he
    dsimp only at he
    split at he
    · cases he
    · cases he
    · split at he <;> cases he

structure Resolves (t : Table) (scope : ScopeId) (type : TypeExpr) : Prop where
  quiet : (resolveType t scope type).2 = none
  ne_error : meaning t scope type ≠ .error

/-- Every written type of the table means a type. -/
structure Clean (t : Table) : Prop where
  types : ∀ {b k type}, t.Bound b → Writes t b k type → Resolves t k type
  params : ∀ {b params returns modifiers owner routine}, t.Bound b →
    b.details = .method params returns modifiers owner routine →
    ∀ type ∈ params, Resolves t b.declaredIn type

theorem resolves_keyword (t : Table) (scope : ScopeId) (word : Keyword) (span : Span) :
    Resolves t scope (.keyword word span) := ⟨rfl, meaning_keyword_ne_error t scope word span⟩

theorem quiet_of_clean {t : Table} {s : State} (hc : Clean t) (hf : Faithful t s)
    (hd : s.diagnostics = []) : Quiet t s := by
  refine ⟨hd, fun hb hT => ?_, fun hb hTs herr => ?_⟩
  · obtain ⟨k, type, hw, rfl, -⟩ := hf.types hb hT
    exact (hc.types hb hw).ne_error
  · obtain ⟨params, _, _, _, _, hdet, rfl, -⟩ := hf.params hb hTs
    obtain ⟨type, htype, he⟩ := List.mem_map.mp herr
    exact (hc.params hb hdet type htype).ne_error he

/-- What could be written out means something. -/
theorem clean_of_emits {t : Table} {tag : Nat} {ds : List Decl} {s : State}
    {target : Lowering.Target} {img : Image} (h : Declares t tag ds) (hf : Faithful t s)
    (hd : s.diagnostics = []) (hr : target.resolutions = s.resolutions)
    (he : Lowering.Emits target ds img) : Clean t := by
  have htypes : ∀ {b k type}, t.Bound b → Writes t b k type → Resolves t k type := by
    intro b k type hb hw
    rcases he.written (h.declared hb) with hk | hro | ⟨a, ha⟩
    · unfold Symbol.kind at hk
      unfold Writes at hw
      rcases hdet : b.details with ⟨_, _, _⟩ | ⟨_, _, _, _, _⟩ | ⟨_, _⟩
      all_goals simp [hdet] at hk hw
    · cases h.declared hb with
      | routine _ hdet =>
        simp only [Writes, hdet] at hw
        rw [hw.1]
        exact resolves_keyword _ _ _ _
      | system hb =>
        subst hb
        exact absurd hw id
      | _ =>
        rename_i hdet
        rw [hdet] at hro
        cases hro
    · rw [hr] at ha
      obtain ⟨T, hT, hasm⟩ := Lowering.symbolType_eq_ok_iff.mp ha
      obtain ⟨scope, written, hw', rfl, htold⟩ := hf.types hb hT
      obtain ⟨rfl, rfl⟩ := hw.unique h.sound hw'
      refine ⟨Option.eq_none_iff_forall_ne_some.mpr fun d hsome => ?_, fun herr => ?_⟩
      · have hmem := htold d hsome
        rw [hd] at hmem
        cases hmem
      · rw [herr] at hasm
        cases hasm
  refine ⟨htypes, fun {b params returns ms owner ro} hb hdet type htype => ?_⟩
  cases h.declared hb with
  | routine _ hdet' =>
    rw [hdet] at hdet'
    cases hdet'
    rw [List.mem_singleton.mp htype]
    exact resolves_keyword _ _ _ _
  | @method path m hmem hs hdet' =>
    obtain ⟨-, -, -, k, -, hparams, -⟩ := method_declared h hmem hs
    rw [hdet] at hdet'
    cases hdet'
    obtain ⟨p, hp, rfl⟩ := List.mem_map.mp htype
    obtain ⟨x, -, hx⟩ := Lowering.exists_of_forall₂_left he.methods (Decl.mem_methods.mpr hmem)
    obtain ⟨-, -, hentries, -⟩ := hx
    obtain ⟨e, -, q, hq, -, -⟩ :=
      Lowering.exists_of_forall₂_left (Lowering.paramEntries_inv hentries) hp
    obtain ⟨hqb, hqw⟩ := hparams p hp q hq
    exact htypes hqb hqw
  | system hb =>
    subst hb
    cases hdet
  | _ =>
    rename_i hdet'
    rw [hdet] at hdet'
    cases hdet'

theorem quiet_of_emits {t : Table} {tag : Nat} {ds : List Decl} {s : State}
    {target : Lowering.Target} {img : Image} (h : Declares t tag ds) (hf : Faithful t s)
    (hd : s.diagnostics = []) (hr : target.resolutions = s.resolutions)
    (he : Lowering.Emits target ds img) : Quiet t s :=
  quiet_of_clean (clean_of_emits h hf hd hr he) hf hd

end Typing

/-- What is known of a unit that is accepted: its table, its annotated declarations and the
definitions in its assembly. -/
structure Accepted (t : Table) (target : Lowering.Target) (ds : List Decl) (img : Image) :
    Prop where
  declares : Declares t 0 ds
  faithful : ∃ s : Typing.State, s.resolutions = target.resolutions ∧ Faithful t s
  writable : Writable t target.resolutions
  prepared : ∀ d ∈ ds, Lowering.Prepared t target.entry target.resolutions d
  emits : Lowering.Emits target ds img

inductive Compiled (t : Table) (target : Lowering.Target) : List String × Method → MethodDef → Prop
  | intro {path m b k returns params body found locals items n next} (hb : m.symbol = some b)
    (hk : b.scope = some k) (hr : Lowering.symbolType target.resolutions b = .ok returns)
    (hp : target.paramEntries m.params = .ok params) (hbody : m.body = some body)
    (hf : Lowering.gatherAllLocals body [] = .ok found)
    (hl : target.localEntries found = .ok locals)
    (hs : StmtsChecked ⟨t, k, some b, target.entry⟩ target.resolutions body)
    (hi : Lowering.lowerStmts (target.frame !runsStatic target.entry b) body n =
      ⟨items, next, none⟩)
    (hc : Lowering.StmtsCodes ⟨t, k, some b, target.entry⟩ target.resolutions
      (target.frame !runsStatic target.entry b) n body items next) :
    Compiled t target (path, m)
      ⟨path, runsStatic target.entry b, returns, b.name, params, locals, items ++ [.instr .ret]⟩

section

variable {t : Table} {target : Lowering.Target} {ds : List Decl} {img : Image}

theorem Accepted.compiled (h : Accepted t target ds img) {x : List String × Method} {d : MethodDef}
    (hmem : x ∈ Decl.methods ds) (hd : Lowering.EmitsMethod target x d) :
    Compiled t target x d := by
  cases hd with
  | @intro _ _ b _ _ _ _ _ _ n _ hb hr hp hbody hf hl hc =>
    obtain ⟨-, k, _, hk, hbody', hchecked⟩ :=
      (h.prepared _ (Decl.mem_methods.mp hmem)).checked b hb
    obtain rfl := Option.some.inj (hbody.symm.trans hbody')
    have hserves : Lowering.Serves (target.frame !runsStatic target.entry b)
        ⟨t, k, some b, target.entry⟩ target.resolutions := ⟨rfl, rfl, rfl⟩
    obtain ⟨_, _, hitems, hcodes⟩ :=
      Lowering.stmtsCodes_of_checked hserves h.writable hchecked n
    rw [hc] at hitems
    cases hitems
    exact .intro hb hk hr hp hbody hf hl hchecked hc hcodes

theorem Accepted.methods (h : Accepted t target ds img) :
    List.Forall₂ (Compiled t target) (Decl.methods ds) img.methods :=
  Lowering.forall₂_imp_of_mem h.emits.methods fun _ _ hmem hd => h.compiled hmem hd

end

/-- The phases of a run that ends without a fault. There is assembly exactly if nothing was
reported. -/
theorem phases_of_compile {u : CompilationUnit} {options : Options} {listing? : Option Listing}
    (hc : (compile u options).result = .ok listing?) :
    ∃ u₁ s₁ u₂ s₂, Registration.registerUnit u (.withSystem 0) [] = ⟨u₁, .ok (), s₁⟩ ∧
      annotateUnit u₁ s₁.table options.entry ⟨.empty, s₁.diagnostics⟩ = ⟨u₂, .ok (), s₂⟩ ∧
      compile u options = ⟨u₂, s₂.resolutions, s₂.diagnostics, .ok listing?⟩ ∧
      ((s₂.diagnostics = [] ∧ ∃ listing, listing? = some listing ∧
          Lowering.assemble u₂ s₂.resolutions options = .ok listing) ∨
        (s₂.diagnostics ≠ [] ∧ listing? = none)) := by
  rcases hreg : Registration.registerUnit u (.withSystem 0) [] with ⟨u₁, _ | ⟨⟩, s₁⟩
  · simp [compile, compileFrom, hreg] at hc
  rcases htyp : annotateUnit u₁ s₁.table options.entry ⟨.empty, s₁.diagnostics⟩ with
    ⟨u₂, _ | ⟨⟩, s₂⟩
  · simp [compile, compileFrom, hreg, htyp] at hc
  refine ⟨u₁, s₁, u₂, s₂, rfl, htyp, ?_⟩
  have hrun : compile u options = if s₂.diagnostics.isEmpty then
      ⟨u₂, s₂.resolutions, s₂.diagnostics,
        (Lowering.assemble u₂ s₂.resolutions options).map some⟩
      else ⟨u₂, s₂.resolutions, s₂.diagnostics, .ok none⟩ := by
    simp only [compile, compileFrom, hreg, htyp]
  by_cases hd : s₂.diagnostics = []
  · rw [if_pos (by rw [hd]; rfl)] at hrun
    cases hl : Lowering.assemble u₂ s₂.resolutions options with
    | error fault =>
      rw [hrun, hl] at hc
      cases hc
    | ok listing =>
      rw [hrun, hl] at hc
      cases hc
      exact ⟨by rw [hrun, hl]; rfl, Or.inl ⟨hd, listing, rfl, rfl⟩⟩
  · rw [if_neg (by simpa using hd)] at hrun
    rw [hrun] at hc
    cases hc
    exact ⟨hrun, Or.inr ⟨hd, rfl⟩⟩

theorem accepted_top {u : CompilationUnit} {options : Options} {listing : Listing}
    (hf : u.isFresh = true) (hc : (compile u options).result = .ok (some listing)) :
    ∃ t c, (compile u options).unit.top = some c ∧
      Accepted t ⟨options, (compile u options).resolutions, options.entry.resolve c⟩
        (compile u options).unit.decls listing.image ∧
      Lowering.assemble (compile u options).unit (compile u options).resolutions options =
        .ok listing := by
  obtain ⟨u₁, s₁, u₂, s₂, hreg, htyp, hrun, ⟨hd, _, ⟨⟩, hl⟩ | ⟨-, ⟨⟩⟩⟩ := phases_of_compile hc
  rw [hrun]
  obtain ⟨-, c, ha⟩ := annotateUnit_analysed hf hreg htyp
  have hemits := Lowering.assemble_emits ha.top hl
  have hq := quiet_of_emits ha.declares ha.faithful hd rfl hemits
  exact ⟨s₁.table, c, ha.top, ⟨ha.declares, ⟨s₂, rfl, ha.faithful⟩,
    writable_of_quiet ha.faithful hq, prepared_of_analysed ha hq, hemits⟩, hl⟩

theorem accepted_of_compile {u : CompilationUnit} {options : Options} {listing : Listing}
    (hf : u.isFresh = true) (hc : (compile u options).result = .ok (some listing)) :
    ∃ t entry, Accepted t ⟨options, (compile u options).resolutions, entry⟩
        (compile u options).unit.decls listing.image := by
  obtain ⟨t, c, -, ha, -⟩ := accepted_top hf hc
  exact ⟨t, _, ha⟩

def Compilation.assembly (c : Compilation) : Option Listing := c.result.toOption.join

theorem Compilation.result_of_assembly {c : Compilation} {listing : Listing}
    (h : c.assembly = some listing) : c.result = .ok (some listing) := by
  unfold assembly at h
  cases hr : c.result with
  | error fault => simp [hr, Except.toOption] at h
  | ok listing? =>
    rw [hr] at h
    exact congrArg Except.ok h

theorem Sample.unit_accepted :
    ∃ listing, (compile Sample.unit .default).result = .ok (some listing) ∧
      listing.image.methods.length = 4 := by
  have hlength : (compile Sample.unit .default).assembly.map (·.image.methods.length) = some 4 := by
    decide +kernel
  obtain ⟨listing, hl, hcount⟩ := Option.map_eq_some_iff.mp hlength
  exact ⟨listing, Compilation.result_of_assembly hl, hcount⟩

end ClassLang
