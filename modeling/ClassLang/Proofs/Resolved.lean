import ClassLang.Proofs.Scopes
import ClassLang.Typing.State

/-! What is recorded about symbols. A record is never replaced, and it says what the written type
means: parameters are read in the class around their method, everything else where it is declared.
A type that means nothing is reported, unless it is a name without segments. -/
namespace ClassLang.Typing

def meaning (t : Table) (scope : ScopeId) (type : TypeExpr) : Ty := (resolveType t scope type).1

def Told (t : Table) (s : State) (scope : ScopeId) (type : TypeExpr) : Prop :=
  ∀ d, (resolveType t scope type).2 = some d → d ∈ s.diagnostics

def Writes (t : Table) (b : Symbol) (scope : ScopeId) (type : TypeExpr) : Prop :=
  match b.details with
  | .var written (.param _) =>
    type = written ∧ ∃ m, t.Bound m ∧ m.scope = some b.declaredIn ∧ scope = m.declaredIn
  | .var written _ => type = written ∧ scope = b.declaredIn
  | .method _ returns _ _ _ => type = returns ∧ scope = b.declaredIn
  | .cls .. => False

def IsParam (b : Symbol) : Prop := ∃ type index, b.details = .var type (.param index)

theorem Writes.unique {t : Table} (h : t.Sound) {b : Symbol} {j k : ScopeId} {a c : TypeExpr}
    (ha : Writes t b j a) (hc : Writes t b k c) : j = k ∧ a = c := by
  unfold Writes at ha hc
  rcases hd : b.details with ⟨_, _, _⟩ | ⟨_, _, _, _, _⟩ | ⟨_, _ | _ | _⟩
  all_goals simp only [hd] at ha hc
  · exact ⟨ha.2.trans hc.2.symm, ha.1.trans hc.1.symm⟩
  · exact ⟨ha.2.trans hc.2.symm, ha.1.trans hc.1.symm⟩
  · obtain ⟨rfl, m, hm, hs, rfl⟩ := ha
    obtain ⟨rfl, n, hn, hs', rfl⟩ := hc
    rw [h.opener m n _ hm hn hs hs']
    exact ⟨rfl, rfl⟩
  · exact ⟨ha.2.trans hc.2.symm, ha.1.trans hc.1.symm⟩

theorem params?_setType (s : State) (b x : Symbol) (T : Ty) :
    (s.setType b T).resolutions.params? x = s.resolutions.params? x := by
  unfold State.setType Resolutions.setType
  split <;> rfl

theorem type?_setParams (s : State) (b x : Symbol) (Ts : List Ty) :
    (s.setParams b Ts).resolutions.type? x = s.resolutions.type? x := by
  unfold State.setParams Resolutions.setParams
  split <;> rfl

structure Extends (s s' : State) : Prop where
  diagnostics : s.diagnostics <+: s'.diagnostics
  types : ∀ {b T}, s.resolutions.type? b = some T → s'.resolutions.type? b = some T
  params : ∀ {b Ts}, s.resolutions.params? b = some Ts → s'.resolutions.params? b = some Ts

namespace Extends

theorem refl (s : State) : Extends s s := ⟨List.prefix_rfl, fun h => h, fun h => h⟩

theorem trans {a b c : State} (h : Extends a b) (k : Extends b c) : Extends a c :=
  ⟨h.diagnostics.trans k.diagnostics, fun hs => k.types (h.types hs),
    fun hs => k.params (h.params hs)⟩

theorem setType (s : State) (b : Symbol) (T : Ty) : Extends s (s.setType b T) :=
  ⟨List.prefix_rfl, fun h => s.resolutions.type?_setType_of_some h,
    fun h => (params?_setType s b _ T).trans h⟩

theorem setParams (s : State) (b : Symbol) (Ts : List Ty) : Extends s (s.setParams b Ts) :=
  ⟨List.prefix_rfl, fun h => (type?_setParams s b _ Ts).trans h,
    fun h => s.resolutions.params?_setParams_of_some h⟩

theorem quiet {s s' : State} (h : Extends s s') (hd : s'.diagnostics = []) : s.diagnostics = [] :=
  List.prefix_nil.mp (hd ▸ h.diagnostics)

end Extends

theorem Told.mono {t : Table} {s s' : State} (h : Extends s s') {scope : ScopeId} {type : TypeExpr}
    (hk : Told t s scope type) : Told t s' scope type :=
  fun d hd => h.diagnostics.subset (hk d hd)

def TypeFound (t : Table) (s : State) (b : Symbol) (T : Ty) : Prop :=
  ∃ scope type, Writes t b scope type ∧ T = meaning t scope type ∧ Told t s scope type

def ParamsFound (t : Table) (s : State) (b : Symbol) (Ts : List Ty) : Prop :=
  ∃ params returns modifiers owner routine,
    b.details = .method params returns modifiers owner routine ∧
      Ts = params.map (meaning t b.declaredIn) ∧ ∀ type ∈ params, Told t s b.declaredIn type

theorem TypeFound.mono {t : Table} {s s' : State} (h : Extends s s') {b : Symbol} {T : Ty}
    (hb : TypeFound t s b T) : TypeFound t s' b T := by
  obtain ⟨scope, type, hw, hm, hk⟩ := hb
  exact ⟨scope, type, hw, hm, hk.mono h⟩

theorem ParamsFound.mono {t : Table} {s s' : State} (h : Extends s s') {b : Symbol} {Ts : List Ty}
    (hb : ParamsFound t s b Ts) : ParamsFound t s' b Ts := by
  obtain ⟨params, returns, ms, owner, ro, hd, hm, hk⟩ := hb
  exact ⟨params, returns, ms, owner, ro, hd, hm, fun type ht => (hk type ht).mono h⟩

/-- Everything recorded about the symbols of the table says what their written types mean. -/
structure Faithful (t : Table) (s : State) : Prop where
  types : ∀ {b T}, t.Bound b → s.resolutions.type? b = some T → TypeFound t s b T
  params : ∀ {b Ts}, t.Bound b → s.resolutions.params? b = some Ts → ParamsFound t s b Ts

structure Grows (t : Table) (s s' : State) : Prop where
  extends_ : Extends s s'
  faithful : Faithful t s → Faithful t s'

namespace Grows

variable {t : Table} {a b c : State}

theorem refl (s : State) : Grows t s s := ⟨.refl s, fun h => h⟩

theorem trans (h : Grows t a b) (k : Grows t b c) : Grows t a c :=
  ⟨h.extends_.trans k.extends_, fun hf => k.faithful (h.faithful hf)⟩

/-- A step that records nothing. -/
theorem of_resolutions_eq (hr : b.resolutions = a.resolutions)
    (hd : a.diagnostics <+: b.diagnostics) : Grows t a b := by
  have he : Extends a b := ⟨hd, fun h => hr ▸ h, fun h => hr ▸ h⟩
  refine ⟨he, fun hf => ⟨?_, ?_⟩⟩
  · intro x T hx hT
    exact (hf.types hx (hr ▸ hT)).mono he
  · intro x Ts hx hTs
    exact (hf.params hx (hr ▸ hTs)).mono he

theorem push (s : State) (d : Diagnostic) : Grows t s (s.push d) :=
  of_resolutions_eq rfl (List.prefix_append _ _)

theorem report (s : State) (p : Problem) (position : Position) : Grows t s (s.report p position) :=
  push s _

theorem setType (h : t.Sound) {s : State} {x : Symbol} {T : Ty} (hx : t.Bound x)
    (hfound : TypeFound t s x T) : Grows t s (s.setType x T) := by
  have he := Extends.setType s x T
  refine ⟨he, fun hf => ⟨?_, ?_⟩⟩
  · intro y U hy hU
    by_cases hid : y.id = x.id
    · obtain rfl := h.distinct y x hy hx hid
      have hself := s.resolutions.type?_setType_self y T
      obtain rfl := Option.some.inj (hU.symm.trans hself)
      cases hs : s.resolutions.type? y with
      | some V => exact (hf.types hy hs).mono he
      | none => exact hfound.mono he
    · have hold := (s.resolutions.type?_setType_of_ne T hid).symm.trans hU
      exact (hf.types hy hold).mono he
  · intro y Ts hy hTs
    have hold := (params?_setType s x y T).symm.trans hTs
    exact (hf.params hy hold).mono he

theorem setParams (h : t.Sound) {s : State} {x : Symbol} {Ts : List Ty} (hx : t.Bound x)
    (hfound : ParamsFound t s x Ts) : Grows t s (s.setParams x Ts) := by
  have he := Extends.setParams s x Ts
  refine ⟨he, fun hf => ⟨?_, ?_⟩⟩
  · intro y T hy hT
    have hold := (type?_setParams s x y Ts).symm.trans hT
    exact (hf.types hy hold).mono he
  · intro y Us hy hUs
    by_cases hid : y.id = x.id
    · obtain rfl := h.distinct y x hy hx hid
      have hself := s.resolutions.params?_setParams_self y Ts
      obtain rfl := Option.some.inj (hUs.symm.trans hself)
      cases hs : s.resolutions.params? y with
      | some Vs => exact (hf.params hy hs).mono he
      | none => exact hfound.mono he
    · have hold := (s.resolutions.params?_setParams_of_ne Ts hid).symm.trans hUs
      exact (hf.params hy hold).mono he

end Grows

theorem resolve_grows {t : Table} {s s' : State} {scope : ScopeId} {type : TypeExpr} {T : Ty}
    (h : s.resolve t scope type = (T, s')) :
    Grows t s s' ∧ T = meaning t scope type ∧ Told t s' scope type := by
  unfold State.resolve at h
  unfold meaning Told
  split at h
  · next U hr =>
    cases h
    rw [hr]
    exact ⟨.refl s, rfl, by simp⟩
  · next U d hr =>
    cases h
    rw [hr]
    refine ⟨.push s d, rfl, ?_⟩
    rintro _ ⟨⟩
    simp [State.push]

theorem resolve_resolutions {t : Table} {s s' : State} {scope : ScopeId} {type : TypeExpr} {T : Ty}
    (h : s.resolve t scope type = (T, s')) : s'.resolutions = s.resolutions := by
  unfold State.resolve at h
  split at h <;> cases h <;> rfl

theorem resolveAll_grows {t : Table} {scope : ScopeId} {types : List TypeExpr} :
    ∀ {s s' : State} {Ts : List Ty}, s.resolveAll t scope types = (Ts, s') →
      Grows t s s' ∧ s'.resolutions = s.resolutions ∧ Ts = types.map (meaning t scope) ∧
        ∀ type ∈ types, Told t s' scope type := by
  induction types with
  | nil =>
    intro s s' Ts h
    cases h
    exact ⟨.refl s, rfl, rfl, by simp⟩
  | cons type types ih =>
    intro s s' Ts h
    unfold State.resolveAll at h
    dsimp only at h
    rcases h1 : s.resolve t scope type with ⟨T, s1⟩
    rcases h2 : s1.resolveAll t scope types with ⟨Us, s2⟩
    rw [h1, h2] at h
    cases h
    obtain ⟨hg, hT, hk⟩ := resolve_grows h1
    obtain ⟨hgs, hr, hTs, hks⟩ := ih h2
    refine ⟨hg.trans hgs, hr.trans (resolve_resolutions h1), by rw [List.map_cons, hT, hTs], ?_⟩
    intro x hx
    rcases List.mem_cons.mp hx with rfl | hx
    · exact hk.mono hgs.extends_
    · exact hks x hx

def State.also (s : State) (more : List Diagnostic) : State :=
  { s with diagnostics := s.diagnostics ++ more }

@[simp] theorem State.also_nil (s : State) : s.also [] = s := by simp [also]

@[simp] theorem State.also_also (s : State) (a b : List Diagnostic) :
    (s.also a).also b = s.also (a ++ b) := by
  simp [also]

def failures (t : Table) (scope : ScopeId) (type : TypeExpr) : List Diagnostic :=
  (resolveType t scope type).2.toList

theorem resolve_eq (s : State) (t : Table) (scope : ScopeId) (type : TypeExpr) :
    s.resolve t scope type = (meaning t scope type, s.also (failures t scope type)) := by
  unfold State.resolve meaning failures
  split
  · next hr => simp [hr]
  · next hr =>
    rw [hr]
    rfl

theorem resolveAll_eq (t : Table) (scope : ScopeId) (types : List TypeExpr) :
    ∀ s : State, s.resolveAll t scope types =
      (types.map (meaning t scope), s.also (types.flatMap (failures t scope))) := by
  induction types with
  | nil =>
    intro s
    simp [State.resolveAll]
  | cons type types ih =>
    intro s
    simp [State.resolveAll, resolve_eq, ih]

theorem type?_setType_of_none {s : State} {b : Symbol} (h : s.resolutions.type? b = none) (T : Ty) :
    (s.setType b T).resolutions.type? b = some T := by
  have hself := s.resolutions.type?_setType_self b T
  rwa [h, Option.getD_none] at hself

theorem writes_of_var {t : Table} {v : Symbol} (hk : v.kind = .var) (hp : ¬ IsParam v) :
    ∃ type storage, v.details = .var type storage ∧ Writes t v v.declaredIn type := by
  unfold Symbol.kind at hk
  rcases hd : v.details with ⟨_, _, _⟩ | ⟨_, _, _, _, _⟩ | ⟨type, index | index | ⟨st, owner⟩⟩
  all_goals simp only [hd] at hk
  · cases hk
  · cases hk
  · exact ⟨type, _, rfl, by simp [Writes, hd]⟩
  · exact absurd ⟨type, index, hd⟩ hp
  · exact ⟨type, _, rfl, by simp [Writes, hd]⟩

/-- A parameter has to be typed before it is used. -/
theorem varType_grows {t : Table} (h : t.Sound) {s s' : State} {v : Symbol} {T : Ty}
    (hv : t.Bound v) (hk : v.kind = .var)
    (hp : IsParam v → (s.resolutions.type? v).isSome = true) (hs : s.varType t v = (T, s')) :
    Grows t s s' ∧ s'.resolutions.type? v = some T := by
  unfold State.varType at hs
  split at hs
  · next U hU =>
    cases hs
    exact ⟨.refl s, hU⟩
  · next hnone =>
    have hnp : ¬ IsParam v := by
      intro hpar
      have hsome := hp hpar
      rw [hnone] at hsome
      cases hsome
    obtain ⟨type, storage, hd, hw⟩ := writes_of_var (t := t) hk hnp
    simp only [hd] at hs
    rcases h1 : s.resolve t v.declaredIn type with ⟨U, s1⟩
    rw [h1] at hs
    cases hs
    obtain ⟨hg, hT, htold⟩ := resolve_grows h1
    refine ⟨hg.trans (.setType h hv ⟨_, _, hw, hT, htold⟩), ?_⟩
    exact type?_setType_of_none (resolve_resolutions h1 ▸ hnone) _

theorem paramTypes_grows {t : Table} (h : t.Sound) {s s' : State} {m : Symbol}
    {params : List TypeExpr} {returns : TypeExpr} {ms : List Modifier} {owner : List String}
    {ro : Option Routine} {Ts : List Ty} (hm : t.Bound m)
    (hd : m.details = .method params returns ms owner ro)
    (hs : s.paramTypes t m params = (Ts, s')) :
    Grows t s s' ∧ s'.resolutions.params? m = some Ts := by
  unfold State.paramTypes at hs
  split at hs
  · next Us hUs =>
    cases hs
    exact ⟨.refl s, hUs⟩
  · next hnone =>
    rcases h1 : s.resolveAll t m.declaredIn params with ⟨Us, s1⟩
    simp only [h1] at hs
    cases hs
    obtain ⟨hg, hr, hTs, htold⟩ := resolveAll_grows h1
    refine ⟨hg.trans (.setParams h hm ⟨params, returns, ms, owner, ro, hd, hTs, htold⟩), ?_⟩
    have hself := s1.resolutions.params?_setParams_self m Ts
    rw [← hr] at hnone
    rwa [hnone, Option.getD_none] at hself

theorem resultType_grows {t : Table} (h : t.Sound) {s s' : State} {m : Symbol}
    {params : List TypeExpr} {returns : TypeExpr} {ms : List Modifier} {owner : List String}
    {ro : Option Routine} {T : Ty} (hm : t.Bound m)
    (hd : m.details = .method params returns ms owner ro)
    (hs : s.resultType t m returns = (T, s')) :
    Grows t s s' ∧ s'.resolutions.type? m = some T := by
  unfold State.resultType at hs
  split at hs
  · next U hU =>
    cases hs
    exact ⟨.refl s, hU⟩
  · next hnone =>
    rcases h1 : s.resolve t m.declaredIn returns with ⟨U, s1⟩
    simp only [h1] at hs
    cases hs
    obtain ⟨hg, hT, htold⟩ := resolve_grows h1
    have hw : Writes t m m.declaredIn returns := by simp [Writes, hd]
    refine ⟨hg.trans (.setType h hm ⟨_, _, hw, hT, htold⟩), ?_⟩
    exact type?_setType_of_none (resolve_resolutions h1 ▸ hnone) T

theorem signature_grows {t : Table} (h : t.Sound) {s s' : State} {m : Symbol} {Ts : List Ty}
    {T : Ty} (hm : t.Bound m) (hk : m.isMethod = true) (hs : s.signature t m = (Ts, T, s')) :
    Grows t s s' ∧ s'.resolutions.params? m = some Ts ∧ s'.resolutions.type? m = some T := by
  unfold State.signature at hs
  split at hs
  · next params returns ms owner ro hd =>
    rcases h1 : s.paramTypes t m params with ⟨Us, s1⟩
    rcases h2 : s1.resultType t m returns with ⟨U, s2⟩
    simp only [h1, h2] at hs
    cases hs
    obtain ⟨hg1, hp1⟩ := paramTypes_grows h hm hd h1
    obtain ⟨hg2, ht2⟩ := resultType_grows h hm hd h2
    exact ⟨hg1.trans hg2, hg2.extends_.params hp1, ht2⟩
  · next hno =>
    unfold Symbol.isMethod Symbol.kind at hk
    rcases hd : m.details with ⟨_, _, _⟩ | ⟨_, _, _, _, _⟩ | ⟨_, _⟩
    · simp [hd] at hk
    · exact absurd hd (hno _ _ _ _ _)
    · simp [hd] at hk

theorem Extends.also (s : State) (more : List Diagnostic) : Extends s (s.also more) :=
  ⟨List.prefix_append _ _, fun h => h, fun h => h⟩

/-- A variable is on record once its type was asked for. -/
theorem varType_found {t : Table} {s s' : State} {v : Symbol} {T : Ty}
    (h : s.varType t v = (T, s')) : Extends s s' ∧ s'.resolutions.type? v = some T := by
  unfold State.varType at h
  split at h
  · next hT =>
    cases h
    exact ⟨.refl s, hT⟩
  · next hnone =>
    obtain ⟨more, rfl⟩ : ∃ more, s' = (s.also more).setType v T := by
      cases hd : v.details <;> simp only [hd, resolve_eq] at h <;> cases h
      · exact ⟨[], by simp⟩
      · exact ⟨[], by simp⟩
      · exact ⟨_, rfl⟩
    exact ⟨(Extends.also s more).trans (.setType _ v T), type?_setType_of_none hnone T⟩

theorem paramTypes_found {t : Table} {s s' : State} {m : Symbol} {params : List TypeExpr}
    {Ts : List Ty} (h : s.paramTypes t m params = (Ts, s')) :
    Extends s s' ∧ s'.resolutions.params? m = some Ts := by
  unfold State.paramTypes at h
  split at h
  · next hTs =>
    cases h
    exact ⟨.refl s, hTs⟩
  · next hnone =>
    rw [resolveAll_eq] at h
    cases h
    refine ⟨(Extends.also s _).trans (.setParams _ m _), ?_⟩
    have hself := (s.also (params.flatMap (failures t m.declaredIn))).resolutions
      |>.params?_setParams_self m (params.map (meaning t m.declaredIn))
    rwa [show (s.also _).resolutions.params? m = none from hnone, Option.getD_none] at hself

theorem resultType_found {t : Table} {s s' : State} {m : Symbol} {returns : TypeExpr} {T : Ty}
    (h : s.resultType t m returns = (T, s')) :
    Extends s s' ∧ s'.resolutions.type? m = some T := by
  unfold State.resultType at h
  split at h
  · next hT =>
    cases h
    exact ⟨.refl s, hT⟩
  · next hnone =>
    rw [resolve_eq] at h
    cases h
    exact ⟨(Extends.also s _).trans (.setType _ m _), type?_setType_of_none hnone _⟩

theorem signature_found {t : Table} {s s' : State} {m : Symbol} {Ts : List Ty} {T : Ty}
    (h : s.signature t m = (Ts, T, s')) : Extends s s' ∧
      (m.isMethod = true →
        s'.resolutions.params? m = some Ts ∧ s'.resolutions.type? m = some T) := by
  unfold State.signature at h
  split at h
  · next params returns _ _ _ _ =>
    rcases h1 : s.paramTypes t m params with ⟨Us, s1⟩
    rcases h2 : s1.resultType t m returns with ⟨U, s2⟩
    simp only [h1, h2] at h
    cases h
    obtain ⟨he1, hp⟩ := paramTypes_found h1
    obtain ⟨he2, ht⟩ := resultType_found h2
    exact ⟨he1.trans he2, fun _ => ⟨he2.params hp, ht⟩⟩
  · next hno =>
    cases h
    refine ⟨.refl s, fun hk => ?_⟩
    rcases hd : m.details with ⟨_, _, _⟩ | ⟨_, _, _, _, _⟩ | ⟨_, _⟩
    · simp [Symbol.isMethod, Symbol.kind, hd] at hk
    · exact absurd hd (hno _ _ _ _ _)
    · simp [Symbol.isMethod, Symbol.kind, hd] at hk

end ClassLang.Typing
