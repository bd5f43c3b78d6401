import ClassLang.Proofs.Faultless
import ClassLang.Proofs.Order.Twins
import Mathlib.Data.List.Nodup

/-! Typing expressions in twin places. Where every written type of one table means something, the
types of twins are twins; and an expression that was typed in one table without a report is typed in
the other without a report, from every state that has none, with the twin of its type. -/
namespace ClassLang

open Table

namespace Typing

inductive TwinTypes (t u : Table) : Ty → Ty → Prop
  | cls {a b : Symbol} (hk : a.kind = .cls) (h : Twins t u a b) : TwinTypes t u (.cls a) (.cls b)
  | plain {T : Ty} (h : T.form ≠ .cls) : TwinTypes t u T T

namespace TwinTypes

variable {t u : Table} {A A' B B' : Ty}

theorem eq_of_form (h : TwinTypes t u A A') (hA : A.form ≠ .cls) : A' = A := by
  cases h with
  | cls => exact absurd rfl hA
  | plain => rfl

theorem ne_error (h : TwinTypes t u A A') (hA : A ≠ .error) : A' ≠ .error := by
  cases h with
  | cls => simp
  | plain => exact hA

theorem error_not_mem {As As' : List Ty} (h : List.Forall₂ (TwinTypes t u) As As')
    (hA : .error ∉ As) : .error ∉ As' := by
  induction h with
  | nil => exact hA
  | cons h _ ih =>
    rw [List.mem_cons, not_or] at hA ⊢
    exact ⟨fun he => h.ne_error (fun hA' => hA.1 hA'.symm) he.symm, ih hA.2⟩

theorem isValue_eq (h : TwinTypes t u A A') : A'.isValue = A.isValue := by
  cases h <;> rfl

theorem applies_eq (h : TwinTypes t u A A') (op : BinaryOp) : applies op A' = applies op A := by
  cases h with
  | cls => cases op <;> rfl
  | plain => rfl

theorem known_left (h : TwinTypes t u A A') : Known t A := by
  rintro c rfl
  cases h with
  | cls hk h => exact ⟨h.left, hk⟩
  | plain h => exact absurd rfl h

theorem known_right (h : TwinTypes t u A A') : Known u A' := by
  rintro c rfl
  cases h with
  | cls hk h => exact ⟨h.right, h.kind_eq ▸ hk⟩
  | plain h => exact absurd rfl h

theorem right_unique (ht : t.Sound) (hu : u.Sound) (h : TwinTypes t u A A')
    (h' : TwinTypes t u A B') : A' = B' := by
  cases h with
  | plain hA => exact (h'.eq_of_form hA).symm
  | cls _ ha =>
    cases h' with
    | plain hA => exact absurd rfl hA
    | cls _ ha' => rw [ha.right_unique ht hu ha']

theorem left_unique (ht : t.Sound) (hu : u.Sound) (h : TwinTypes t u A A')
    (h' : TwinTypes t u B A') : A = B := by
  cases h with
  | plain hA =>
    cases h' with
    | plain => rfl
    | cls => exact absurd rfl hA
  | cls _ ha =>
    cases h' with
    | plain hB => exact absurd rfl hB
    | cls _ hb => rw [ha.left_unique ht hu hb]

/-- Twin types are the same exactly if those they are twins of are. -/
theorem same_eq (ht : t.Sound) (hu : u.Sound) (hA : TwinTypes t u A A') (hB : TwinTypes t u B B') :
    A'.same B' = A.same B := by
  rw [Bool.eq_iff_iff]
  constructor
  · intro h
    obtain rfl := eq_of_same hu hA.known_right hB.known_right h
    rw [hA.left_unique ht hu hB]
    exact Ty.same_refl B
  · intro h
    obtain rfl := eq_of_same ht hA.known_left hB.known_left h
    rw [hA.right_unique ht hu hB]
    exact Ty.same_refl B'

theorem sameList_eq (ht : t.Sound) (hu : u.Sound) {As As' Bs Bs' : List Ty}
    (hA : List.Forall₂ (TwinTypes t u) As As') (hB : List.Forall₂ (TwinTypes t u) Bs Bs') :
    Ty.sameList As' Bs' = Ty.sameList As Bs := by
  induction hA generalizing Bs Bs' with
  | nil => cases hB <;> rfl
  | cons h _ ih =>
    cases hB with
    | nil => rfl
    | cons hb hB => rw [Ty.sameList, Ty.sameList, h.same_eq ht hu hb, ih hB]

end TwinTypes

section Meaning

variable {tag : Nat} {t u : Table} {ds es : List Decl}

theorem memberScope_twin (hu : u.Sound) {a b : Symbol} (hab : Twins t u a b) {j : ScopeId}
    (hj : a.memberScope? = some j) : ∃ k, b.memberScope? = some k ∧ TwinScopes t u j k := by
  unfold Symbol.memberScope? at hj ⊢
  rw [← hab.kind_eq]
  cases hk : a.kind with
  | cls =>
    rw [hk] at hj
    rcases hd : a.details with ⟨path, ms, bi⟩ | ⟨_, _, _, _, _⟩ | ⟨_, _⟩
    · have hf := hu.fits b hab.right
      simp only [Fits, ← hab.details, hd] at hf
      obtain ⟨k, hk⟩ := Option.isSome_iff_exists.mp hf.1
      exact ⟨k, hk, .cls (Or.inr ⟨a, ms, bi, hab.left, hj, hd⟩)
        (Or.inr ⟨b, ms, bi, hab.right, hk, hab.details ▸ hd⟩)⟩
    · simp [Symbol.kind, hd] at hk
    · simp [Symbol.kind, hd] at hk
  | _ =>
    rw [hk] at hj
    cases hj

theorem resolveMembers_twin (h : Mirrored tag t u ds es) {fallback : Position}
    {segments : List Name} : ∀ {before : List Name} {a b found : Symbol}, Twins t u a b →
      resolveMembers t fallback before a segments = .ok found →
      ∃ found', resolveMembers u fallback before b segments = .ok found' ∧
        Twins t u found found' := by
  induction segments with
  | nil =>
    intro before a b found hab hr
    cases hr
    exact ⟨b, rfl, hab⟩
  | cons segment rest ih =>
    intro before a b found hab hr
    unfold resolveMembers at hr ⊢
    split at hr
    · cases hr
    · next j hj =>
      obtain ⟨k, hk, hjk⟩ := memberScope_twin h.right.sound hab hj
      simp only [hk]
      split at hr
      · next c hc =>
        have hmatch := h.members hjk segment.text
        rw [hc] at hmatch
        obtain ⟨c', hc', hcc⟩ := hmatch.singleton h.left.sound h.right.sound
        simp only [hc']
        exact ih hcc hr
      · cases hr

theorem resolvePath_twin (h : Mirrored tag t u ds es) {j k : ScopeId} (hjk : TwinScopes t u j k)
    {fallback : Position} {segments : List Name} {a : Symbol}
    (hr : resolvePath t j fallback segments = some (.ok a)) :
    ∃ b, resolvePath u k fallback segments = some (.ok b) ∧ Twins t u a b := by
  unfold resolvePath at hr ⊢
  cases segments with
  | nil => cases hr
  | cons segment rest =>
    dsimp only at hr ⊢
    split at hr
    · next c hc =>
      have hmatch := h.visible hjk segment.text
      rw [hc] at hmatch
      obtain ⟨c', hc', hcc⟩ := hmatch.singleton h.left.sound h.right.sound
      obtain ⟨b, hb, hab⟩ := resolveMembers_twin h hcc (Option.some.inj hr)
      exact ⟨b, by simp only [hc', hb], hab⟩
    · cases hr

theorem Resolves.twin (h : Mirrored tag t u ds es) {j k : ScopeId} (hjk : TwinScopes t u j k)
    {type : TypeExpr} (hr : Resolves t j type) :
    Resolves u k type ∧ TwinTypes t u (meaning t j type) (meaning u k type) := by
  obtain ⟨hquiet, hne⟩ := hr
  cases type with
  | keyword word span =>
    have hword : (Ty.ofKeyword word).form ≠ .cls ∧ Ty.ofKeyword word ≠ .error := by
      cases word <;> simp [Ty.ofKeyword, Ty.form]
    exact ⟨⟨rfl, hword.2⟩, .plain hword.1⟩
  | named segments span =>
    cases hp : resolvePath t j span.start segments with
    | none => simp [meaning, resolveType, hp] at hne
    | some found =>
      cases found with
      | error d => simp [resolveType, hp] at hquiet
      | ok a =>
        obtain ⟨b, hb, hab⟩ := resolvePath_twin h hjk hp
        by_cases hk : a.kind = .cls
        · have hkb : b.kind = .cls := hab.kind_eq ▸ hk
          refine ⟨⟨by simp [resolveType, hb, hkb], by simp [meaning, resolveType, hb, hkb]⟩, ?_⟩
          simpa [meaning, resolveType, hp, hb, hk, hkb] using TwinTypes.cls hk hab
        · simp [resolveType, hp, hk] at hquiet
  | array element span => simp [resolveType] at hquiet
  | generic base args span => simp [resolveType] at hquiet

/-- What one table can resolve, the other can. -/
theorem Clean.twin (h : Mirrored tag t u ds es) (hc : Clean t) : Clean u := by
  constructor
  · intro b k type hb hw
    obtain ⟨a, ha⟩ := h.symm.exists_twin hb
    obtain ⟨j, hj, hkj⟩ := h.symm.writes ha hw
    exact ((hc.types ha.right hj).twin h hkj.symm).1
  · intro b params returns modifiers owner routine hb hd type htype
    obtain ⟨a, ha⟩ := h.symm.exists_twin hb
    exact ((hc.params ha.right (ha.details ▸ hd) type htype).twin h ha.scopes.symm).1

theorem type_twin (h : Mirrored tag t u ds es) (hc : Clean t) {s r : State} (hs : Faithful t s)
    (hr : Faithful u r) {a b : Symbol} (hab : Twins t u a b) {T U : Ty}
    (hT : s.resolutions.type? a = some T) (hU : r.resolutions.type? b = some U) :
    TwinTypes t u T U := by
  obtain ⟨j, type, hw, rfl, -⟩ := hs.types hab.left hT
  obtain ⟨k, type', hw', rfl, -⟩ := hr.types hab.right hU
  obtain ⟨k', hwk, hjk⟩ := h.writes hab hw
  obtain ⟨rfl, rfl⟩ := hwk.unique h.right.sound hw'
  exact ((hc.types hab.left hw).twin h hjk).2

theorem params_twin (h : Mirrored tag t u ds es) (hc : Clean t) {s r : State} (hs : Faithful t s)
    (hr : Faithful u r) {a b : Symbol} (hab : Twins t u a b) {Ts Us : List Ty}
    (hT : s.resolutions.params? a = some Ts) (hU : r.resolutions.params? b = some Us) :
    List.Forall₂ (TwinTypes t u) Ts Us := by
  obtain ⟨params, _, _, _, _, hd, rfl, -⟩ := hs.params hab.left hT
  obtain ⟨params', _, _, _, _, hd', rfl, -⟩ := hr.params hab.right hU
  rw [← hab.details, hd] at hd'
  cases hd'
  rw [List.forall₂_map_left_iff, List.forall₂_map_right_iff, List.forall₂_same]
  exact fun type htype => ((hc.params hab.left hd type htype).twin h hab.scopes).2

end Meaning

section Clean

variable {t : Table} {s : State}

theorem resolve_clean {k : ScopeId} {type : TypeExpr} (hr : Resolves t k type) :
    s.resolve t k type = (meaning t k type, s) := by
  have hquiet := hr.quiet
  unfold State.resolve meaning
  generalize resolveType t k type = found at hquiet ⊢
  obtain ⟨T, _ | d⟩ := found
  · rfl
  · cases hquiet

theorem resolveAll_clean {k : ScopeId} {types : List TypeExpr}
    (hr : ∀ type ∈ types, Resolves t k type) :
    s.resolveAll t k types = (types.map (meaning t k), s) := by
  induction types with
  | nil => rfl
  | cons type types ih =>
    simp only [State.resolveAll, resolve_clean (hr type List.mem_cons_self),
      ih fun x hx => hr x (List.mem_cons_of_mem _ hx), List.map_cons]

theorem varType_clean (hc : Clean t) {v : Symbol} (hv : t.Bound v) (hk : v.kind = .var)
    (hp : IsParam v → (s.resolutions.type? v).isSome = true) :
    (s.varType t v).2.diagnostics = s.diagnostics := by
  unfold State.varType
  split
  · rfl
  · next hnone =>
    have hnp : ¬ IsParam v := by
      intro hpar
      have hsome := hp hpar
      rw [hnone] at hsome
      cases hsome
    obtain ⟨type, storage, hd, hw⟩ := writes_of_var (t := t) hk hnp
    simp only [hd, resolve_clean (hc.types hv hw)]
    rfl

theorem signature_clean (hc : Clean t) {m : Symbol} (hm : t.Bound m) :
    (s.signature t m).2.2.diagnostics = s.diagnostics := by
  unfold State.signature
  split
  · next params returns ms owner ro hd =>
    have hparams : (s.paramTypes t m params).2.diagnostics = s.diagnostics := by
      unfold State.paramTypes
      split
      · rfl
      · simp only [resolveAll_clean (hc.params hm hd)]
        rfl
    have hresult : ∀ s : State, (s.resultType t m returns).2.diagnostics = s.diagnostics := by
      intro s
      have hw : Writes t m m.declaredIn returns := by simp [Writes, hd]
      unfold State.resultType
      split
      · rfl
      · simp only [resolve_clean (hc.types hm hw)]
        rfl
    exact (hresult _).trans hparams
  · rfl

theorem offers_clean (hc : Clean t) {ms : List Symbol} : ∀ {s : State},
    (∀ m ∈ ms, t.Bound m) → (offers t ms s).2.diagnostics = s.diagnostics := by
  induction ms with
  | nil => exact fun _ => rfl
  | cons m ms ih =>
    intro s hm
    exact (ih fun x hx => hm x (List.mem_cons_of_mem _ hx)).trans
      (signature_clean hc (hm m List.mem_cons_self))

end Clean

structure Good (ctx : Context) (r : State) : Prop where
  faithful : Faithful ctx.table r
  quiet : r.diagnostics = []
  ready : Ready ctx r

theorem Good.grow {ctx : Context} {r r' : State} (h : Good ctx r) (hg : Grows ctx.table r r')
    (hq : r'.diagnostics = r.diagnostics) : Good ctx r' :=
  ⟨hg.faithful h.faithful, hq.trans h.quiet, h.ready.mono hg.extends_⟩

/-- From every good state the visit ends in one, with an answer as `P` says. -/
def Yields {ν α : Type} (ctx : Context) (visit : Visit State ν α) (P : α → Prop) : Prop :=
  ∀ r, Good ctx r → ∃ node answer r', visit r = ⟨node, .ok answer, r'⟩ ∧ P answer ∧ Good ctx r'

namespace Yields

variable {ν μ α β : Type} {ctx : Context}

theorem done {P : α → Prop} (node : ν) {answer : α} (h : P answer) :
    Yields ctx (Visit.done node answer) P := fun r hr => ⟨node, answer, r, rfl, h, hr⟩

theorem part {visit : Visit State ν α} {put : ν → μ} {rest : ν → α → Visit State μ β}
    {P : α → Prop} {Q : β → Prop} (h : Yields ctx visit P)
    (k : ∀ node answer, P answer → Yields ctx (rest node answer) Q) :
    Yields ctx (visit.part put rest) Q := by
  intro r hr
  obtain ⟨n, a, r₁, h₁, ha, hr₁⟩ := h r hr
  obtain ⟨m, b, r₂, h₂, hb, hr₂⟩ := k n a ha r₁ hr₁
  exact ⟨m, b, r₂, Visit.part_ok_iff.mpr ⟨n, a, r₁, h₁, h₂⟩, hb, hr₂⟩

theorem within {visit : Visit State ν α} {put : ν → μ} {P : α → Prop} (h : Yields ctx visit P) :
    Yields ctx (visit.within put) P := h.part fun _ _ ha => .done _ ha

theorem settle {P : Ty → Prop} {build : Note → Expr} {note : Note} {T : Ty} (h : P T) :
    Yields ctx (settle build note (.found T)) P := fun r hr => ⟨_, T, r, rfl, h, hr⟩

end Yields

structure Context.Mirrors (ctx ctx' : Context) : Prop where
  tables : ∃ tag ds es, Mirrored tag ctx.table ctx'.table ds es
  clean : Clean ctx.table
  scopes : TwinScopes ctx.table ctx'.table ctx.scope ctx'.scope
  method : (ctx.method = none ∧ ctx'.method = none) ∨
    ∃ m n, ctx.method = some m ∧ ctx'.method = some n ∧ m.isMethod = true ∧
      Twins ctx.table ctx'.table m n
  static : ∀ {a b}, Twins ctx.table ctx'.table a b →
    runsStatic ctx'.entry b = runsStatic ctx.entry a

namespace Context.Mirrors

variable {ctx ctx' : Context}

theorem left_sound (h : ctx.Mirrors ctx') : ctx.table.Sound := by
  obtain ⟨_, _, _, hm⟩ := h.tables
  exact hm.left.sound

theorem right_sound (h : ctx.Mirrors ctx') : ctx'.table.Sound := by
  obtain ⟨_, _, _, hm⟩ := h.tables
  exact hm.right.sound

theorem right_clean (h : ctx.Mirrors ctx') : Clean ctx'.table := by
  obtain ⟨_, _, _, hm⟩ := h.tables
  exact h.clean.twin hm

theorem isMethod (h : ctx.Mirrors ctx') (m : Symbol) (hm : ctx.method = some m) :
    ctx.table.Bound m ∧ m.isMethod = true := by
  rcases h.method with ⟨hnone, -⟩ | ⟨m', _, hm', -, hk, htwin⟩
  · rw [hnone] at hm
    cases hm
  · obtain rfl := Option.some.inj (hm.symm.trans hm')
    exact ⟨htwin.left, hk⟩

theorem isStatic_eq (h : ctx.Mirrors ctx') : ctx'.isStatic = ctx.isStatic := by
  unfold Context.isStatic
  rcases h.method with ⟨hm, hn⟩ | ⟨m, n, hm, hn, -, hmn⟩
  · rw [hm, hn]
  · rw [hm, hn]
    exact h.static hmn

theorem methodOwner?_eq {a b : Symbol} (hab : Twins ctx.table ctx'.table a b) :
    b.methodOwner? = a.methodOwner? := by
  rw [Symbol.methodOwner?, Symbol.methodOwner?, hab.details]

theorem owner?_eq (h : ctx.Mirrors ctx') : ctx'.owner? = ctx.owner? := by
  unfold Context.owner?
  rcases h.method with ⟨hm, hn⟩ | ⟨m, n, hm, hn, -, hmn⟩
  · rw [hm, hn]
  · rw [hm, hn]
    exact methodOwner?_eq hmn

theorem nameProblem?_eq_none (h : ctx.Mirrors ctx') {a b : Symbol}
    (hab : Twins ctx.table ctx'.table a b) {n n' : DottedName} (hn : n'.segments = n.segments)
    (hp : nameProblem? ctx n a = none) : nameProblem? ctx' n' b = none := by
  unfold nameProblem? fieldProblem? at *
  rw [← hab.details, h.isStatic_eq, h.owner?_eq, hn]
  split at hp
  · split at hp
    · cases hp
    · split at hp
      · cases hp
      · split at hp
        · simp_all
        · cases hp
  · simp_all

theorem mayCall_eq (h : ctx.Mirrors ctx') {a b : Symbol} (hab : Twins ctx.table ctx'.table a b)
    (n : DottedName) : mayCall ctx' n b = mayCall ctx n a := by
  rw [mayCall, mayCall, h.static hab, h.isStatic_eq, h.owner?_eq, methodOwner?_eq hab]

theorem resolvePath (h : ctx.Mirrors ctx') {position : Position} {segments : List Name} {a : Symbol}
    (hr : resolvePath ctx.table ctx.scope position segments = some (.ok a)) :
    ∃ b, Typing.resolvePath ctx'.table ctx'.scope position segments = some (.ok b) ∧
      Twins ctx.table ctx'.table a b := by
  obtain ⟨_, _, _, hm⟩ := h.tables
  exact resolvePath_twin hm h.scopes hr

end Context.Mirrors

theorem settle_quiet {t : Table} {build : Note → Expr} {note : Note} {j : Judgement} {s s' : State}
    {e : Expr} {T : Ty} (h : settle build note j s = ⟨e, .ok T, s'⟩) (hq : Quiet t s') :
    T = j.type ∧ j.problem = none ∧ Quiet t s := by
  obtain ⟨-, hT, hg, -, hp⟩ := settle_ok (t := t) h
  exact ⟨hT, hp hq.diagnostics, hq.before hg.extends_⟩

theorem varType_yields {ctx ctx' : Context} (h : ctx.Mirrors ctx') {a b : Symbol}
    (hab : Twins ctx.table ctx'.table a b) (hb : ctx'.table.Reached ctx'.scope b)
    (hk : a.kind = .var) {s : State} (hs : Faithful ctx.table s) {T : Ty}
    (hT : s.resolutions.type? a = some T) {r : State} (hr : Good ctx' r) :
    ∃ U r', r.varType ctx'.table b = (U, r') ∧ TwinTypes ctx.table ctx'.table T U ∧
      Good ctx' r' := by
  rcases hv : r.varType ctx'.table b with ⟨U, r'⟩
  have hkb : b.kind = .var := hab.kind_eq ▸ hk
  have hp := fun hp => hr.ready.of_reached h.right_sound hb hp
  obtain ⟨hg, hU⟩ := varType_grows h.right_sound hb.1 hkb hp hv
  have hq := varType_clean h.right_clean hb.1 hkb hp
  rw [hv] at hq
  have hgood := hr.grow hg hq
  obtain ⟨_, _, _, hm⟩ := h.tables
  exact ⟨U, r', rfl, type_twin hm h.clean hs hgood.faithful hab hT hU, hgood⟩

theorem resolvePath_eq_none_iff {t : Table} {scope : ScopeId} {position : Position}
    {segments : List Name} : resolvePath t scope position segments = none ↔ segments = [] := by
  unfold resolvePath
  cases segments with
  | nil => simp
  | cons segment rest =>
    dsimp only
    split <;> simp

theorem candidates_twin {ctx ctx' : Context} (h : ctx.Mirrors ctx') {qualifier : List Name}
    {last : Name} {position : Position} {as : List Symbol}
    (hc : candidates ctx qualifier last position = .ok as) :
    ∃ bs, candidates ctx' qualifier last position = .ok bs ∧
      Matches ctx.table ctx'.table as bs := by
  obtain ⟨_, _, _, hm⟩ := h.tables
  unfold candidates at hc ⊢
  split at hc
  · next hnone =>
    cases hc
    rw [resolvePath_eq_none_iff] at hnone
    rw [resolvePath_eq_none_iff.mpr hnone]
    exact ⟨_, rfl, hm.visible h.scopes _⟩
  · cases hc
  · next owner ho =>
    obtain ⟨owner', ho', hoo⟩ := h.resolvePath ho
    split at hc
    · next j hj =>
      cases hc
      obtain ⟨k, hk, hjk⟩ := memberScope_twin h.right_sound hoo hj
      exact ⟨_, by simp only [ho', hk], hm.members hjk _⟩
    · cases hc

theorem chooseOffer_eq {ctx : Context} {n : DottedName} {types : List Ty} {found : List Offer}
    {offer : Offer} (hfilter : found.filter (fun o => Ty.sameList o.params types) = [offer])
    (hmay : mayCall ctx n offer.method = true) : chooseOffer ctx n types found = .ok offer := by
  unfold chooseOffer
  rw [hfilter]
  cases found with
  | nil => cases hfilter
  | cons o rest =>
    dsimp only
    rw [if_pos hmay]

/-- Offers for twins: one of them is chosen exactly as the one it is a twin of. -/
theorem chooseOffer_twin {ctx ctx' : Context} (h : ctx.Mirrors ctx') {as bs : List Symbol}
    (hab : Matches ctx.table ctx'.table as bs) {n : DottedName} {types types' : List Ty}
    (ht : List.Forall₂ (TwinTypes ctx.table ctx'.table) types types') {found found' : List Offer}
    (hf : found.map Offer.method = as.filter Symbol.isMethod)
    (hf' : found'.map Offer.method = bs.filter Symbol.isMethod)
    (hp : ∀ o ∈ found, ∀ o' ∈ found', Twins ctx.table ctx'.table o.method o'.method →
      List.Forall₂ (TwinTypes ctx.table ctx'.table) o.params o'.params) {offer : Offer}
    (hc : chooseOffer ctx n types found = .ok offer) :
    ∃ offer' ∈ found', chooseOffer ctx' n types' found' = .ok offer' ∧
      Twins ctx.table ctx'.table offer.method offer'.method := by
  obtain ⟨hmem, hsame, hone, hmay⟩ := chooseOffer_ok hc
  have hnodup : (found'.map Offer.method).Nodup := hf' ▸ hab.nodup.filter _
  have hmethod : offer.method ∈ as.filter Symbol.isMethod := hf ▸ List.mem_map_of_mem hmem
  obtain ⟨b, hb, htwin⟩ := hab.left _ (List.mem_of_mem_filter hmethod)
  have hbmem : b ∈ found'.map Offer.method := by
    rw [hf', List.mem_filter, ← isMethod_eq_of_details htwin.details]
    exact ⟨hb, (List.mem_filter.mp hmethod).2⟩
  obtain ⟨offer', hmem', rfl⟩ := List.mem_map.mp hbmem
  have hkeep : Ty.sameList offer'.params types' = true := by
    rw [TwinTypes.sameList_eq h.left_sound h.right_sound (hp _ hmem _ hmem' htwin) ht]
    exact hsame
  refine ⟨offer', hmem', chooseOffer_eq ?_ (h.mayCall_eq htwin n ▸ hmay), htwin⟩
  refine eq_singleton_of_nodup ((List.Nodup.of_map _ hnodup).filter _)
    (List.mem_filter.mpr ⟨hmem', hkeep⟩) fun o ho => ?_
  obtain ⟨hoin, hosame⟩ := List.mem_filter.mp ho
  have hom : o.method ∈ bs.filter Symbol.isMethod := hf' ▸ List.mem_map_of_mem hoin
  obtain ⟨a, ha, hao⟩ := hab.right _ (List.mem_of_mem_filter hom)
  have hamem : a ∈ found.map Offer.method := by
    rw [hf, List.mem_filter, isMethod_eq_of_details hao.details]
    exact ⟨ha, (List.mem_filter.mp hom).2⟩
  obtain ⟨x, hx, rfl⟩ := List.mem_map.mp hamem
  rw [TwinTypes.sameList_eq h.left_sound h.right_sound (hp _ hx _ hoin hao) ht] at hosame
  obtain rfl := hone x hx hosame
  exact List.inj_on_of_nodup_map hnodup hoin hmem'
    (hao.right_unique h.left_sound h.right_sound htwin)

theorem CalleeStep.twin {ctx ctx' : Context} (h : ctx.Mirrors ctx') {n n' : DottedName}
    {types types' : List Ty} {position : Position} {j : Judgement} {s s' r : State}
    (hstep : CalleeStep ctx n types position s n' j s') (hj : j.problem = none)
    (hq : Quiet ctx.table s') (hs : Faithful ctx.table s)
    (ht : List.Forall₂ (TwinTypes ctx.table ctx'.table) types types') (hne : .error ∉ types)
    (hr : Good ctx' r) :
    ∃ m T r', CalleeStep ctx' n types' position r m (.found T) r' ∧
      TwinTypes ctx.table ctx'.table j.type T ∧ Good ctx' r' := by
  cases hstep with
  | muted he => exact absurd he hne
  | lost => exact absurd hq not_quiet_push
  | refused => cases hj
  | @chosen _ as found offer _ _ _ hl hc ho hchoice =>
    obtain ⟨_, _, _, hm⟩ := h.tables
    obtain ⟨bs, hc', hab⟩ := candidates_twin h hc
    rcases ho' : offers ctx'.table (bs.filter Symbol.isMethod) r with ⟨found', r'⟩
    have hbound' := methods_of_candidates h.right_sound hc'
    obtain ⟨hg, hmethods, hrec⟩ :=
      offers_grows h.left_sound (methods_of_candidates h.left_sound hc) ho
    obtain ⟨hg', hmethods', hrec'⟩ := offers_grows h.right_sound hbound' ho'
    have hquiet := offers_clean h.right_clean (s := r) fun m hm => (hbound' m hm).1
    rw [ho'] at hquiet
    have hgood := hr.grow hg' hquiet
    obtain ⟨offer', hmem', hchoice', htwin⟩ := chooseOffer_twin h hab ht hmethods hmethods'
      (fun o hoin o' hoin' htwin => params_twin hm h.clean (hg.faithful hs) hgood.faithful htwin
        (hrec o hoin).1 (hrec' o' hoin').1) hchoice
    have hne' := TwinTypes.error_not_mem ht hne
    exact ⟨_, _, r', .chosen hne' hl hc' ho' hchoice', type_twin hm h.clean (hg.faithful hs)
      hgood.faithful htwin (hrec offer (chooseOffer_ok hchoice).1).2 (hrec' offer' hmem').2, hgood⟩

theorem isError_eq_false {T : Ty} (h : T ≠ .error) : T.isError = false := by
  cases he : T.isError with
  | false => rfl
  | true => exact absurd (Ty.isError_iff.mp he) h

theorem unaryJudgement_operandType (op : UnaryOp) :
    unaryJudgement op (operandType op) = .found (operandType op) := by
  cases op <;> rfl

theorem binaryJudgement_eq {op : BinaryOp} {L R : Ty} (hL : L ≠ .error) (hR : R ≠ .error)
    (hs : L.same R = true) (ha : applies op L = true) :
    binaryJudgement op L R = .found (if op.isComparison then .boolean else L) := by
  simp [binaryJudgement, isError_eq_false hL, isError_eq_false hR, hs, ha]

theorem assignJudgement_eq {T V : Ty} (hT : T ≠ .error) (hV : V ≠ .error)
    (hs : V.same T = true) (hv : T.isValue = true) : assignJudgement T V = .found T := by
  simp [assignJudgement, isError_eq_false hT, isError_eq_false hV, Ty.convertsTo, hs, hv]

theorem createJudgement_eq {n : DottedName} {c : Symbol} {path : List String} {ms : List Modifier}
    (hd : c.details = .cls path ms false) (hst : Modifier.isStatic ms = false) :
    createJudgement n [] c = .found (.cls c) := by
  simp [createJudgement, hd, hst]

/-- A node that is judged without a report is judged so in its twin place. -/
theorem NodeStep.twin {ctx ctx' : Context} (h : ctx.Mirrors ctx') {e : Expr} {xs xs' : List Expr}
    {types types' : List Ty} {build : Note → Expr} {j : Judgement} {s s' r : State}
    (hstep : NodeStep ctx e xs types s build j s') (hj : j.problem = none)
    (hq : Quiet ctx.table s') (hs : Faithful ctx.table s) (hready : Ready ctx s)
    (hlen : xs.length = types.length) (hlen' : xs'.length = types'.length)
    (ht : List.Forall₂ (TwinTypes ctx.table ctx'.table) types types') (hne : .error ∉ types)
    (hr : Good ctx' r) :
    ∃ build' j' T r', NodeStep ctx' e xs' types' r build' j' r' ∧ j' = .found T ∧
      TwinTypes ctx.table ctx'.table j.type T ∧ Good ctx' r' := by
  cases hstep with
  | @literal value =>
    cases ht
    cases List.length_eq_zero_iff.mp hlen'
    refine ⟨_, _, _, r, .literal, rfl, .plain ?_, hr⟩
    cases value <;> simp [Judgement.found, literalType, Ty.form]
  | this =>
    cases ht
    cases List.length_eq_zero_iff.mp hlen'
    have hthis : thisJudgement ctx' = thisJudgement ctx := by
      rw [thisJudgement, thisJudgement, h.isStatic_eq]
    have hfound : thisJudgement ctx = .found .this := by
      unfold thisJudgement at hj ⊢
      split at hj
      · cases hj
      · next hst => rw [if_neg hst]
    refine ⟨_, _, _, r, .this, hthis.trans hfound, ?_, hr⟩
    rw [hfound]
    exact .plain (by simp [Judgement.found, Ty.form])
  | lostName | lostClass => exact absurd hq not_quiet_push
  | refusedName | computed | field | index => cases hj
  | var hn hp hproblem hk hv =>
    cases ht
    cases List.length_eq_zero_iff.mp hlen'
    obtain ⟨b, hb, hab⟩ := h.resolvePath hp
    have hreach := h.left_sound.reached_of_resolvePath hp
    obtain ⟨hg, hU⟩ := varType_grows h.left_sound hreach.1 hk
      (fun hpar => hready.of_reached h.left_sound hreach hpar) hv
    obtain ⟨V, r', hv', hUV, hr'⟩ := varType_yields h hab
      (h.right_sound.reached_of_resolvePath hb) hk (hg.faithful hs) hU hr
    exact ⟨_, _, V, r', .var hn hb (h.nameProblem?_eq_none hab rfl hproblem) (hab.kind_eq ▸ hk) hv',
      rfl, hUV, hr'⟩
  | declaration hn hp hproblem hk =>
    cases ht
    cases List.length_eq_zero_iff.mp hlen'
    obtain ⟨b, hb, hab⟩ := h.resolvePath hp
    exact ⟨_, _, _, r,
      .declaration hn hb (h.nameProblem?_eq_none hab rfl hproblem) (hab.kind_eq ▸ hk), rfl,
      .plain (by simp [Judgement.found, Ty.form]), hr⟩
  | @unary op =>
    obtain ⟨⟩ | ⟨hA', ⟨⟩⟩ := ht
    obtain ⟨x', rfl⟩ := List.length_eq_one_iff.mp hlen'
    obtain ⟨rfl, hfound⟩ := unaryJudgement_found (fun hA => hne (by simp [hA])) hj
    have hform : (operandType op).form ≠ .cls := by cases op <;> simp [operandType, Ty.form]
    obtain rfl := hA'.eq_of_form hform
    refine ⟨_, _, _, r, .unary, unaryJudgement_operandType op, ?_, hr⟩
    rw [hfound]
    exact .plain hform
  | @binary op _ _ _ _ _ L R =>
    obtain ⟨⟩ | ⟨hL', ⟨⟩ | ⟨hR', ⟨⟩⟩⟩ := ht
    obtain ⟨x', y', rfl⟩ := List.length_eq_two.mp hlen'
    have hL : L ≠ .error := fun hL => hne (by simp [hL])
    have hR : R ≠ .error := fun hR => hne (by simp [hR])
    obtain ⟨hsame, happ, hfound⟩ := binaryJudgement_found hL hR hj
    refine ⟨_, _, _, r, .binary, binaryJudgement_eq (hL'.ne_error hL) (hR'.ne_error hR)
      ((hL'.same_eq h.left_sound h.right_sound hR').trans hsame) ((hL'.applies_eq op).trans happ),
      ?_, hr⟩
    rw [hfound]
    split
    · exact .plain (by simp [Ty.form])
    · exact hL'
  | @assign _ _ _ _ _ U V _ htarget =>
    obtain ⟨⟩ | ⟨hU', ⟨⟩ | ⟨hV', ⟨⟩⟩⟩ := ht
    obtain ⟨x', y', rfl⟩ := List.length_eq_two.mp hlen'
    have hU : U ≠ .error := fun hU => hne (by simp [hU])
    have hV : V ≠ .error := fun hV => hne (by simp [hV])
    obtain ⟨hsame, hval, hfound⟩ := assignJudgement_found hU hV hj
    refine ⟨_, _, _, r, .assign htarget, assignJudgement_eq (hU'.ne_error hU) (hV'.ne_error hV)
      ((hV'.same_eq h.left_sound h.right_sound hU').trans hsame) (hU'.isValue_eq.trans hval),
      ?_, hr⟩
    rw [hfound]
    exact hU'
  | call hn hnote hc =>
    obtain ⟨m, T, r', hc', hT, hr'⟩ := hc.twin h hj hq hs ht hne hr
    exact ⟨_, _, T, r', .call hn hnote hc', rfl, hT, hr'⟩
  | create hn hp =>
    obtain ⟨path, ms, hd, hst, rfl, hfound⟩ := createJudgement_found hj
    cases List.length_eq_zero_iff.mp hlen.symm
    cases ht
    cases List.length_eq_zero_iff.mp hlen'
    obtain ⟨b, hb, hab⟩ := h.resolvePath hp
    refine ⟨_, _, _, r, .create hn hb, createJudgement_eq (hab.details ▸ hd) hst, ?_, hr⟩
    rw [hfound]
    exact .cls (by simp [Symbol.kind, hd]) hab

theorem InTurn.twin {ctx ctx' : Context} (h : ctx.Mirrors ctx') {es es' : List Expr} {Ts : List Ty}
    {s s' r : State}
    (hargs : InTurn (fun e s e' T s' => Annotates ctx e s e' T s' ∧ (Faithful ctx.table s →
      Ready ctx s → Quiet ctx.table s' →
        Yields ctx' (annotateExpr ctx' e) (TwinTypes ctx.table ctx'.table T))) es s es' Ts s')
    (hs : Faithful ctx.table s) (hready : Ready ctx s) (hq : Quiet ctx.table s')
    (hr : Good ctx' r) :
    ∃ xs types r', InTurn (Annotates ctx') es r xs types r' ∧
      List.Forall₂ (TwinTypes ctx.table ctx'.table) Ts types ∧ Good ctx' r' := by
  induction hargs generalizing r with
  | nil => exact ⟨[], [], r, .nil, .nil, hr⟩
  | cons head tail ih =>
    obtain ⟨hrun, hhead⟩ := head
    have hfind := annotateExpr_finds h.left_sound hrun.fresh hready hrun.run
    have hrest := (tail.imp fun _ _ {_ _ _ _} hx => hx.1.extends_).extends_
    obtain ⟨x, T, r₁, hx, hT, hr₁⟩ := hhead hs hready (hq.before hrest) r hr
    obtain ⟨xs, types, r₂, hxs, hTs, hr₂⟩ :=
      ih (hfind.grows.faithful hs) (hready.mono hfind.grows.extends_) hq hr₁
    exact ⟨_, _, _, .cons ⟨hrun.fresh, hx⟩ hxs, .cons hT hTs, hr₂⟩

theorem annotateExpr_yields {ctx ctx' : Context} (h : ctx.Mirrors ctx') {e e' : Expr} {T : Ty}
    {s s' : State} (hf : e.isFresh = true) (hs : Faithful ctx.table s) (hr : Ready ctx s)
    (hrun : annotateExpr ctx e s = ⟨e', .ok T, s'⟩) (hq : Quiet ctx.table s') :
    Yields ctx' (annotateExpr ctx' e) (TwinTypes ctx.table ctx'.table T) := by
  refine Annotates.induct (P := fun e s _ T s' => Faithful ctx.table s → Ready ctx s →
    Quiet ctx.table s' → Yields ctx' (annotateExpr ctx' e) (TwinTypes ctx.table ctx'.table T)) ?_
    ⟨hf, hrun⟩ hs hr hq
  intro e e' T xs types build j s s₁ s₂ s' hrun hargs hstep hset hs hready hq r hr
  obtain ⟨rfl, hj, hq₂⟩ := settle_quiet hset hq
  have hq₁ := hq₂.before hstep.extends_
  have ha : FindsAll ctx s s₁ xs types := (hargs.imp fun _ _ {_ _ _ _} hx hready =>
    annotateExpr_finds h.left_sound hx.1.fresh hready hx.1.run).findsAll hready
  obtain ⟨hlen, -, hne⟩ := ha.typed hs hq₁
  obtain ⟨xs', types', r₁, hargs', ht, hr₁⟩ := hargs.twin h hs hready hq₁ hr
  obtain ⟨build', _, U, r₂, hstep', rfl, hU, hr₂⟩ := hstep.twin h hj hq₂ (ha.grows.faithful hs)
    (hready.mono ha.grows.extends_) hlen hargs'.length_eq.1 ht hne hr₁
  exact ⟨_, U, r₂, hstep'.annotateExpr_eq hrun.fresh hargs', hU, hr₂⟩

end Typing

end ClassLang
