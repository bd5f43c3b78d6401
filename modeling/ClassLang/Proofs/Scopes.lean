import ClassLang.Typing.Path

/-! The state of a table while declarations are registered. Every bound symbol stands in the scope
it was made in, numbers and opened scopes tell symbols apart, and the details of a symbol agree with
the scope around it: fields and methods carry the path of their class, and only bodies of methods
hold locals and parameters. No scope lies inside the body of a method, and methods of one name and
class take different parameters. -/
namespace ClassLang

def Symbol.alike (a b : Symbol) : Bool :=
  match a.details, b.details with
  | .method ps _ _ _ _, .method qs _ _ _ _ => TypeExpr.sameAll ps qs
  | _, _ => false

theorem Symbol.alike_eq_false (a : Symbol) {b : Symbol} (h : b.isMethod = false) :
    a.alike b = false := by
  unfold isMethod kind at h
  unfold alike
  split
  · next hb => simp [hb] at h
  · rfl

namespace Table

/-- Bound in the scope that was current when the symbol was made. -/
def Bound (t : Table) (b : Symbol) : Prop := b ∈ t.members b.declaredIn b.name

def parent? (t : Table) (scope : ScopeId) : Option ScopeId := t.scopes[scope]?.bind Scope.parent

def IsBody (t : Table) (scope : ScopeId) : Prop :=
  ∃ m, t.Bound m ∧ m.isMethod = true ∧ m.scope = some scope

/-- The scope of the members of the class at `path`. The unit itself has the empty path. -/
def PathOf (t : Table) (scope : ScopeId) (path : List String) : Prop :=
  (scope = root ∧ path = []) ∨
    ∃ c modifiers builtin, t.Bound c ∧ c.scope = some scope ∧
      c.details = .cls path modifiers builtin

def Fits (t : Table) (b : Symbol) : Prop :=
  match b.details with
  | .cls path _ _ =>
    b.scope.isSome = true ∧ ∃ outer, t.PathOf b.declaredIn outer ∧ path = outer ++ [b.name]
  | .method _ _ _ owner _ => t.PathOf b.declaredIn owner
  | .var _ (.field _ owner) => b.scope = none ∧ t.PathOf b.declaredIn owner
  | .var _ _ => b.scope = none ∧ t.IsBody b.declaredIn

def Unlike (t : Table) (b : Symbol) : Prop :=
  ∀ a, t.Bound a → a.declaredIn = b.declaredIn → a.name = b.name → a.alike b = false

theorem Unlike.of_isMethod {t : Table} {b : Symbol} (h : b.isMethod = false) : t.Unlike b :=
  fun a _ _ _ => a.alike_eq_false h

/-- A scope that was opened and that no symbol has taken yet. -/
structure Unclaimed (t : Table) (scope : ScopeId) : Prop where
  inner : 0 < scope
  exists_ : scope < t.scopes.length
  free : ∀ b, t.Bound b → b.scope ≠ some scope
  childless : ∀ j, t.parent? j ≠ some scope

structure Sound (t : Table) : Prop where
  current : t.current < t.scopes.length
  parent : ∀ j p, t.parent? j = some p → p < j
  home : ∀ j name b, b ∈ t.members j name → b.name = name ∧ b.declaredIn = j
  number : ∀ b, t.Bound b → b.id.table = t.tag ∧ b.id.number < t.nextSymbol
  distinct : ∀ a b, t.Bound a → t.Bound b → a.id = b.id → a = b
  alone : ∀ a b, t.Bound a → t.Bound b → a.declaredIn = b.declaredIn → a.name = b.name →
    a.isMethod = false → a = b
  opened : ∀ b k, t.Bound b → b.scope = some k → 0 < k ∧ k < t.scopes.length
  opener : ∀ a b k, t.Bound a → t.Bound b → a.scope = some k → b.scope = some k → a = b
  body : ∀ k, t.IsBody k → ∀ j, t.parent? j ≠ some k
  fits : ∀ b, t.Bound b → t.Fits b
  unlike : ∀ a b, t.Bound a → t.Bound b → a.id.number < b.id.number →
    a.declaredIn = b.declaredIn → a.name = b.name → a.alike b = false

theorem Sound.bound_of_mem {t : Table} (h : t.Sound) {j : ScopeId} {name : String} {b : Symbol}
    (hb : b ∈ t.members j name) : t.Bound b := by
  obtain ⟨rfl, rfl⟩ := h.home j name b hb
  exact hb

/-- The symbols of a table are numbered. -/
theorem Sound.eq_of_number {t : Table} (h : t.Sound) {a b : Symbol} (ha : t.Bound a)
    (hb : t.Bound b) (hn : a.id.number = b.id.number) : a = b := by
  have htable := (h.number a ha).1.trans (h.number b hb).1.symm
  have hid : a.id = ⟨b.id.table, b.id.number⟩ := by rw [← htable, ← hn]
  exact h.distinct a b ha hb hid

section Monotone

variable {t u : Table} (hb : ∀ b, t.Bound b → u.Bound b)
include hb

theorem IsBody.mono {k : ScopeId} (h : t.IsBody k) : u.IsBody k := by
  obtain ⟨m, hm, hk, hs⟩ := h
  exact ⟨m, hb m hm, hk, hs⟩

theorem PathOf.mono {k : ScopeId} {path : List String} (h : t.PathOf k path) : u.PathOf k path := by
  rcases h with h | ⟨c, ms, bi, hc, hs, hd⟩
  · exact Or.inl h
  · exact Or.inr ⟨c, ms, bi, hb c hc, hs, hd⟩

theorem Fits.mono {b : Symbol} (h : t.Fits b) : u.Fits b := by
  unfold Fits at *
  rcases hd : b.details with ⟨path, ms, bi⟩ | ⟨ps, r, ms, owner, ro⟩ | ⟨type, k | k | ⟨st, owner⟩⟩
  all_goals rw [hd] at h
  · obtain ⟨hs, outer, hp, he⟩ := h
    exact ⟨hs, outer, hp.mono hb, he⟩
  · exact PathOf.mono hb h
  · exact ⟨h.1, h.2.mono hb⟩
  · exact ⟨h.1, h.2.mono hb⟩
  · exact ⟨h.1, h.2.mono hb⟩

end Monotone

theorem members_eq_nil_of_length_le {t : Table} {j : ScopeId} (h : t.scopes.length ≤ j)
    (x : String) : t.members j x = [] := by
  simp [members, List.getElem?_eq_none h]

@[simp] theorem bound_openScope (t : Table) (name : String) (b : Symbol) :
    (t.openScope name).2.Bound b ↔ t.Bound b := by
  simp [Bound]

theorem parent?_openScope (t : Table) (name : String) (j : ScopeId) :
    (t.openScope name).2.parent? j =
      if j = t.scopes.length then some t.current else t.parent? j := by
  unfold parent? openScope
  rcases Nat.lt_trichotomy j t.scopes.length with h | h | h
  · rw [if_neg (Nat.ne_of_lt h), List.getElem?_append_left h]
  · subst h
    simp [Scope.empty]
  · rw [if_neg (Nat.ne_of_gt h), List.getElem?_eq_none (by simp; omega),
      List.getElem?_eq_none (by omega)]

theorem Sound.moveTo {t : Table} (h : t.Sound) {scope : ScopeId} (hs : scope < t.scopes.length) :
    (t.moveTo scope).Sound :=
  ⟨hs, h.parent, h.home, h.number, h.distinct, h.alone, h.opened, h.opener, h.body, h.fits,
    h.unlike⟩

theorem Sound.openScope {t : Table} (h : t.Sound) (name : String) (hc : ¬ t.IsBody t.current) :
    (t.openScope name).2.Sound := by
  have hb : ∀ b, t.Bound b → (t.openScope name).2.Bound b := fun b => (bound_openScope t name b).mpr
  have hl : (t.openScope name).2.scopes.length = t.scopes.length + 1 := by simp [Table.openScope]
  constructor
  · rw [hl]
    exact Nat.lt_succ_of_lt h.current
  · intro j p hp
    rw [parent?_openScope] at hp
    split at hp
    · next hj =>
      cases hp
      exact hj ▸ h.current
    · exact h.parent j p hp
  · intro j wanted b hm
    exact h.home j wanted b (by simpa using hm)
  · intro b hm
    exact h.number b (by simpa using hm)
  · intro a b ha hb
    exact h.distinct a b (by simpa using ha) (by simpa using hb)
  · intro a b ha hb
    exact h.alone a b (by simpa using ha) (by simpa using hb)
  · intro b k hm hk
    obtain ⟨hi, hk⟩ := h.opened b k (by simpa using hm) hk
    exact ⟨hi, hl ▸ Nat.lt_succ_of_lt hk⟩
  · intro a b k ha hb
    exact h.opener a b k (by simpa using ha) (by simpa using hb)
  · rintro k ⟨m, hm, hk, hs⟩ j hj
    have hbody : t.IsBody k := ⟨m, by simpa using hm, hk, hs⟩
    rw [parent?_openScope] at hj
    split at hj
    · cases hj
      exact hc hbody
    · exact h.body k hbody j hj
  · intro b hm
    exact (h.fits b (by simpa using hm)).mono hb
  · intro a b ha hb
    exact h.unlike a b (by simpa using ha) (by simpa using hb)

theorem Sound.unclaimed_openScope {t : Table} (h : t.Sound) (name : String) :
    (t.openScope name).2.Unclaimed t.scopes.length := by
  have hl : (t.openScope name).2.scopes.length = t.scopes.length + 1 := by simp [Table.openScope]
  have hc := h.current
  constructor
  · exact Nat.zero_lt_of_lt hc
  · rw [hl]
    exact Nat.lt_succ_self _
  · intro b hb hs
    exact absurd (h.opened b _ (by simpa using hb) hs).2 (Nat.lt_irrefl _)
  · intro j hj
    rw [parent?_openScope] at hj
    split at hj
    · exact absurd (Option.some.inj hj) (Nat.ne_of_lt hc)
    · have hp := h.parent j _ hj
      rw [parent?, List.getElem?_eq_none (Nat.le_of_lt hp)] at hj
      cases hj

theorem Sound.newSymbol {t : Table} (h : t.Sound) (name : String) (details : Details)
    (opened : Option ScopeId) (position : Position) :
    (t.newSymbol name details opened position).2.Sound :=
  ⟨h.current, h.parent, h.home,
    fun b hb => ⟨(h.number b hb).1, Nat.lt_succ_of_lt (h.number b hb).2⟩,
    h.distinct, h.alone, h.opened, h.opener, h.body, h.fits, h.unlike⟩

section Bind

variable {t u : Table} {s : Symbol} (hu : t.bind s = .ok u)
include hu

theorem bind_ok_inv : admits (t.members t.current s.name) s = true ∧
    u = { t with scopes := t.scopes.modify t.current fun scope => scope.add s } := by
  unfold bind at hu
  split at hu
  · next ha =>
    cases hu
    exact ⟨ha, rfl⟩
  · cases hu

theorem parent?_of_bind (j : ScopeId) : u.parent? j = t.parent? j := by
  obtain ⟨-, rfl⟩ := bind_ok_inv hu
  unfold parent?
  rw [List.getElem?_modify]
  cases t.scopes[j]? with
  | none => rfl
  | some scope => by_cases hj : t.current = j <;> simp [hj, Scope.add]

theorem bound_of_bind (hc : t.current < t.scopes.length) (hs : s.declaredIn = t.current)
    (b : Symbol) : u.Bound b ↔ t.Bound b ∨ b = s := by
  unfold Bound
  rw [members_of_bind hu hc]
  by_cases hb : b.declaredIn = t.current ∧ b.name = s.name
  · rw [if_pos hb, List.mem_append, List.mem_singleton]
  · rw [if_neg hb]
    constructor
    · exact Or.inl
    · rintro (h | rfl)
      · exact h
      · exact absurd ⟨hs, rfl⟩ hb

/-- What holds of any two symbols bound before, and of the new one with each of them and itself,
holds of any two symbols. -/
theorem forall_bound_of_bind {P : Symbol → Symbol → Prop} (hc : t.current < t.scopes.length)
    (hs : s.declaredIn = t.current) (hold : ∀ a b, t.Bound a → t.Bound b → P a b)
    (hlast : ∀ a, t.Bound a → P a s) (hfirst : ∀ b, t.Bound b → P s b) (hself : P s s) :
    ∀ a b, u.Bound a → u.Bound b → P a b := by
  intro a b ha hb
  rcases (bound_of_bind hu hc hs a).mp ha with hta | rfl
  · rcases (bound_of_bind hu hc hs b).mp hb with htb | rfl
    · exact hold a b hta htb
    · exact hlast a hta
  · rcases (bound_of_bind hu hc hs b).mp hb with htb | rfl
    · exact hfirst b htb
    · exact hself

/-- A symbol that is no method finds its name free, and leaves room for none. -/
theorem isMethod_of_bind (hs : s.declaredIn = t.current) {b : Symbol} (hb : t.Bound b)
    (hin : b.declaredIn = s.declaredIn) (hname : b.name = s.name) :
    s.isMethod = true ∧ b.isMethod = true := by
  obtain ⟨ha, -⟩ := bind_ok_inv hu
  have hmem : b ∈ t.members t.current s.name := by
    rw [← hs, ← hin, ← hname]
    exact hb
  have hne : (t.members t.current s.name).isEmpty = false :=
    List.isEmpty_eq_false_iff.mpr (List.ne_nil_of_mem hmem)
  rw [admits, hne, Bool.false_or, Bool.and_eq_true, List.all_eq_true] at ha
  exact ⟨ha.1, ha.2 b hmem⟩

theorem Sound.bind (h : t.Sound) (hn : s.id.table = t.tag ∧ s.id.number < t.nextSymbol)
    (hlast : ∀ b, t.Bound b → b.id.number < s.id.number) (hs : s.declaredIn = t.current)
    (hk : ∀ k, s.scope = some k → t.Unclaimed k) (hf : t.Fits s) (hl : t.Unlike s) : u.Sound := by
  have hb := bound_of_bind hu h.current hs
  have hd : ∀ b, t.Bound b → b.id ≠ s.id := fun b hbb he =>
    Nat.lt_irrefl _ (he ▸ hlast b hbb)
  have hm := members_of_bind hu h.current
  have hp := parent?_of_bind hu
  have hpair := fun P => forall_bound_of_bind (P := P) hu h.current hs
  have halone := fun b => isMethod_of_bind (b := b) hu hs
  obtain ⟨-, rfl⟩ := bind_ok_inv hu
  constructor
  · simpa using h.current
  · intro j p hj
    exact h.parent j p (hp j ▸ hj)
  · intro j name b hmem
    rw [hm] at hmem
    split at hmem
    · next hc =>
      rcases List.mem_append.mp hmem with hmem | hmem
      · exact h.home j name b hmem
      · rw [List.mem_singleton.mp hmem]
        exact ⟨hc.2.symm, hs.trans hc.1.symm⟩
    · exact h.home j name b hmem
  · intro b hbb
    rcases (hb b).mp hbb with hbb | rfl
    · exact h.number b hbb
    · exact hn
  · apply hpair _ h.distinct
    · exact fun a ha hid => absurd hid (hd a ha)
    · exact fun b hb hid => absurd hid.symm (hd b hb)
    · exact fun _ => rfl
  · apply hpair _ h.alone
    · intro a ha hin hname hma
      rw [(halone a ha hin hname).2] at hma
      cases hma
    · intro b hb hin hname hma
      rw [(halone b hb hin.symm hname.symm).1] at hma
      cases hma
    · exact fun _ _ _ => rfl
  · intro b k hbb hbk
    have hlen : (t.scopes.modify t.current fun scope => scope.add s).length = t.scopes.length :=
      List.length_modify ..
    rcases (hb b).mp hbb with htb | rfl
    · exact ⟨(h.opened b k htb hbk).1, hlen ▸ (h.opened b k htb hbk).2⟩
    · exact ⟨(hk k hbk).inner, hlen ▸ (hk k hbk).exists_⟩
  · intro a b k
    revert a b
    apply hpair _ fun a b ha hb => h.opener a b k ha hb
    · exact fun a ha hak hbk => absurd hak ((hk k hbk).free a ha)
    · exact fun b hb hak hbk => absurd hbk ((hk k hak).free b hb)
    · exact fun _ _ => rfl
  · rintro k ⟨m, hmm, hme, hmk⟩ j hj
    rw [hp] at hj
    rcases (hb m).mp hmm with hmm | rfl
    · exact h.body k ⟨m, hmm, hme, hmk⟩ j hj
    · exact (hk k hmk).childless j hj
  · intro b hbb
    rcases (hb b).mp hbb with hbb | rfl
    · exact (h.fits b hbb).mono fun x hx => (hb x).mpr (Or.inl hx)
    · exact hf.mono fun x hx => (hb x).mpr (Or.inl hx)
  · apply hpair _ h.unlike
    · exact fun a ha _ hin hname => hl a ha hin hname
    · exact fun b hb hlt => absurd hlt (Nat.lt_asymm (hlast b hb))
    · exact fun hlt => absurd hlt (Nat.lt_irrefl _)

end Bind

theorem PathOf.not_isBody {t : Table} (h : t.Sound) {k : ScopeId} {path : List String}
    (hp : t.PathOf k path) : ¬ t.IsBody k := by
  rintro ⟨m, hm, hme, hs⟩
  rcases hp with ⟨rfl, -⟩ | ⟨c, ms, bi, hc, hck, hd⟩
  · exact absurd (h.opened m _ hm hs).1 (Nat.lt_irrefl 0)
  · obtain rfl := h.opener m c k hm hc hs hck
    simp [Symbol.isMethod, Symbol.kind, hd] at hme

theorem Sound.path_eq_of_cls {t : Table} (h : t.Sound) {c : Symbol} {path : List String}
    {ms : List Modifier} {bi : Bool} (hc : t.Bound c) (hd : c.details = .cls path ms bi) :
    ∃ outer, t.PathOf c.declaredIn outer ∧ path = outer ++ [c.name] := by
  have hf := h.fits c hc
  simp only [Fits, hd] at hf
  exact hf.2

theorem PathOf.scope_unique {t : Table} (h : t.Sound) {path : List String} :
    ∀ {j k : ScopeId}, t.PathOf j path → t.PathOf k path → j = k := by
  induction hn : path.length generalizing path with
  | zero =>
    -- Only the unit has the empty path, since the path of a class ends with its name.
    have hroot : ∀ {j}, t.PathOf j path → j = root := by
      rintro j (⟨rfl, -⟩ | ⟨c, ms, bi, hc, -, hd⟩)
      · rfl
      · obtain ⟨outer, -, rfl⟩ := h.path_eq_of_cls hc hd
        simp at hn
    intro j k hj hk
    rw [hroot hj, hroot hk]
  | succ n ih =>
    rintro j k (⟨-, rfl⟩ | ⟨c, ms, bi, hc, hcj, hd⟩) hk
    · cases hn
    rcases hk with ⟨-, rfl⟩ | ⟨c', ms', bi', hc', hck, hd'⟩
    · cases hn
    obtain ⟨outer, ho, he⟩ := h.path_eq_of_cls hc hd
    obtain ⟨outer', ho', he'⟩ := h.path_eq_of_cls hc' hd'
    obtain ⟨hout, hname⟩ := List.append_inj' (he.symm.trans he') rfl
    subst hout
    have hin : c.declaredIn = c'.declaredIn := by
      refine ih ?_ ho ho'
      have hlen := congrArg List.length he
      rw [hn, List.length_append, List.length_singleton] at hlen
      omega
    have hcls : c.isMethod = false := by simp [Symbol.isMethod, Symbol.kind, hd]
    obtain rfl := h.alone c c' hc hc' hin (List.cons.inj hname).1 hcls
    exact Option.some.inj (hcj.symm.trans hck)

theorem searchOutward_succ (t : Table) (name : String) (fuel : Nat) (scope : ScopeId) :
    t.searchOutward name (fuel + 1) scope =
      if (t.members scope name).isEmpty then (t.parent? scope).elim [] (t.searchOutward name fuel)
      else t.members scope name := by
  rw [searchOutward]
  cases hsc : t.scopes[scope]? with
  | none => simp [members, parent?, hsc]
  | some sc =>
    cases hg : sc.get name with
    | cons => simp [members, hsc, hg]
    | nil => cases hp : sc.parent <;> simp [members, parent?, hsc, hg, hp]

inductive Chain (t : Table) : ScopeId → List ScopeId → Prop
  | outermost {k : ScopeId} (hp : t.parent? k = none) : Chain t k [k]
  | inner {k p : ScopeId} {outer : List ScopeId} (hp : t.parent? k = some p) (h : Chain t p outer) :
    Chain t k (k :: outer)

def firstBound (t : Table) (name : String) : List ScopeId → List Symbol
  | [] => []
  | k :: outer => if (t.members k name).isEmpty then t.firstBound name outer else t.members k name

theorem firstBound_congr {t u : Table} {name : String} {chain : List ScopeId}
    (h : ∀ k ∈ chain, u.members k name = t.members k name) :
    u.firstBound name chain = t.firstBound name chain := by
  induction chain with
  | nil => rfl
  | cons k outer ih =>
    rw [List.forall_mem_cons] at h
    rw [firstBound, firstBound, h.1, ih h.2]

namespace Chain

variable {t u : Table} {k : ScopeId} {chain : List ScopeId}

/-- Chains depend only on the parents of their own scopes. -/
theorem congr (h : t.Chain k chain) (hp : ∀ j ∈ chain, u.parent? j = t.parent? j) :
    u.Chain k chain := by
  induction h with
  | outermost hk => exact .outermost ((hp _ List.mem_cons_self).trans hk)
  | inner hk _ ih =>
    exact .inner ((hp _ List.mem_cons_self).trans hk)
      (ih fun j hj => hp j (List.mem_cons_of_mem _ hj))

/-- A search that may go as far as the chain does stops where the name is bound first. -/
theorem searchOutward_eq (h : t.Chain k chain) (name : String) {fuel : Nat}
    (hf : chain.length ≤ fuel) : t.searchOutward name fuel k = t.firstBound name chain := by
  induction h generalizing fuel with
  | outermost hp =>
    obtain ⟨fuel, rfl⟩ := Nat.exists_eq_succ_of_ne_zero (Nat.ne_zero_of_lt hf)
    rw [searchOutward_succ, hp, firstBound]
    rfl
  | inner hp _ ih =>
    obtain ⟨fuel, rfl⟩ := Nat.exists_eq_succ_of_ne_zero (Nat.ne_zero_of_lt hf)
    rw [searchOutward_succ, hp, firstBound, Option.elim_some, ih (Nat.le_of_succ_le_succ hf)]

section Older

variable (ho : ∀ j p, t.parent? j = some p → p < j)
include ho

/-- Since parents are older, following them comes to an end. -/
theorem exists_of_older (k : ScopeId) : ∃ chain, t.Chain k chain := by
  induction k using Nat.strongRecOn with
  | ind k ih =>
    cases hp : t.parent? k with
    | none => exact ⟨[k], .outermost hp⟩
    | some p =>
      obtain ⟨outer, houter⟩ := ih p (ho k p hp)
      exact ⟨k :: outer, .inner hp houter⟩

theorem le_of_mem (h : t.Chain k chain) : ∀ j ∈ chain, j ≤ k := by
  induction h with
  | outermost => simp
  | inner hp _ ih =>
    refine List.forall_mem_cons.mpr ⟨Nat.le_refl _, fun j hj => ?_⟩
    exact Nat.le_trans (ih j hj) (Nat.le_of_lt (ho _ _ hp))

theorem length_le (h : t.Chain k chain) : chain.length ≤ k + 1 := by
  induction h with
  | outermost => simp
  | inner hp _ ih => exact Nat.succ_le_succ (Nat.le_trans ih (ho _ _ hp))

/-- No chain is longer than the list of scopes, also from a scope that does not exist. -/
theorem visibleFrom_eq (h : t.Chain k chain) (hne : 0 < t.scopes.length) (name : String) :
    t.visibleFrom k name = t.firstBound name chain := by
  refine h.searchOutward_eq name ?_
  by_cases hk : k < t.scopes.length
  · exact Nat.le_trans (h.length_le ho) hk
  · have hnone : t.parent? k = none := by
      simp [parent?, List.getElem?_eq_none (Nat.le_of_not_lt hk)]
    cases h with
    | outermost => exact hne
    | inner hp => cases hnone.symm.trans hp

end Older

end Chain

/-- A search depends on the scopes it can come to, and not on how far it may go if that is enough.
-/
theorem searchOutward_congr {t u : Table} (ho : ∀ j p, t.parent? j = some p → p < j) {limit : Nat}
    (hsame : ∀ k < limit, u.parent? k = t.parent? k ∧ ∀ x, u.members k x = t.members k x)
    (name : String) {m n : Nat} {scope : ScopeId} (hm : scope < m) (hn : scope < n)
    (hl : scope < limit) : u.searchOutward name m scope = t.searchOutward name n scope := by
  obtain ⟨chain, hc⟩ := Chain.exists_of_older ho scope
  have hlength := hc.length_le ho
  have hin : ∀ j ∈ chain, j < limit := fun j hj => Nat.lt_of_le_of_lt (hc.le_of_mem ho j hj) hl
  have hc' : u.Chain scope chain := hc.congr fun j hj => (hsame j (hin j hj)).1
  rw [hc'.searchOutward_eq name (Nat.le_trans hlength hm),
    hc.searchOutward_eq name (Nat.le_trans hlength hn)]
  exact firstBound_congr fun j hj => (hsame j (hin j hj)).2 name

/-- What is bound in a scope is visible there, and hides what the scopes around bind. -/
theorem Sound.visibleFrom_eq {t : Table} (hs : t.Sound) (scope : ScopeId) (name : String) :
    t.visibleFrom scope name =
      match t.parent? scope with
      | some parent =>
        if t.members scope name = [] then t.visibleFrom parent name else t.members scope name
      | none => t.members scope name := by
  have hne : 0 < t.scopes.length := Nat.zero_lt_of_lt hs.current
  cases hp : t.parent? scope with
  | none =>
    have hc : t.Chain scope [scope] := .outermost hp
    rw [hc.visibleFrom_eq hs.parent hne, firstBound, firstBound]
    cases t.members scope name <;> rfl
  | some parent =>
    obtain ⟨outer, houter⟩ := Chain.exists_of_older hs.parent parent
    have hc : t.Chain scope (scope :: outer) := .inner hp houter
    rw [hc.visibleFrom_eq hs.parent hne, firstBound]
    simp only [List.isEmpty_iff, houter.visibleFrom_eq hs.parent hne]

/-- What is visible from a scope is bound in one scope, which is this one or has scopes inside. -/
theorem visibleFrom_cases (t : Table) (scope : ScopeId) (name : String) :
    t.visibleFrom scope name = [] ∨
      ∃ j, (j = scope ∨ ∃ i, t.parent? i = some j) ∧
        t.visibleFrom scope name = t.members j name := by
  unfold visibleFrom
  generalize t.scopes.length = fuel
  induction fuel generalizing scope with
  | zero => exact Or.inl rfl
  | succ fuel ih =>
    cases hs : t.scopes[scope]? with
    | none => exact Or.inl (by simp [searchOutward, hs])
    | some sc =>
      have hm : t.members scope name = sc.get name := by simp [members, hs]
      cases hg : sc.get name with
      | cons b rest =>
        refine Or.inr ⟨scope, Or.inl rfl, ?_⟩
        simp [searchOutward, hs, hg, hm]
      | nil =>
        cases hp : sc.parent with
        | none => exact Or.inl (by simp [searchOutward, hs, hg, hp])
        | some parent =>
          have hpar : t.parent? scope = some parent := by simp [parent?, hs, hp]
          have he : t.searchOutward name (fuel + 1) scope = t.searchOutward name fuel parent := by
            simp [searchOutward, hs, hg, hp]
          rw [he]
          rcases ih parent with h | ⟨j, hj, h⟩
          · exact Or.inl h
          · refine Or.inr ⟨j, Or.inr ?_, h⟩
            rcases hj with rfl | hj
            · exact ⟨scope, hpar⟩
            · exact hj

/-- A symbol that a use in `scope` can mean: one of the scope itself, or one that is no variable of
a body. -/
def Reached (t : Table) (scope : ScopeId) (b : Symbol) : Prop :=
  t.Bound b ∧ (b.declaredIn = scope ∨ ¬ t.IsBody b.declaredIn)

theorem Sound.reached_of_visible {t : Table} (h : t.Sound) {scope : ScopeId} {name : String}
    {b : Symbol} (hb : b ∈ t.visibleFrom scope name) : t.Reached scope b := by
  rcases visibleFrom_cases t scope name with he | ⟨j, hj, he⟩
  · rw [he] at hb
    cases hb
  · rw [he] at hb
    refine ⟨h.bound_of_mem hb, ?_⟩
    rw [(h.home j name b hb).2]
    rcases hj with rfl | ⟨i, hi⟩
    · exact Or.inl rfl
    · exact Or.inr fun hbody => h.body j hbody i hi

theorem Sound.reached_of_member {t : Table} (h : t.Sound) {scope k : ScopeId} {name : String}
    {owner b : Symbol} (ho : t.Bound owner) (hk : owner.memberScope? = some k)
    (hb : b ∈ t.members k name) : t.Reached scope b := by
  refine ⟨h.bound_of_mem hb, Or.inr ?_⟩
  rw [(h.home k name b hb).2]
  unfold Symbol.memberScope? Symbol.kind at hk
  rcases hd : owner.details with ⟨path, ms, bi⟩ | _ | _
  · rw [hd] at hk
    exact PathOf.not_isBody h (Or.inr ⟨owner, ms, bi, ho, hk, hd⟩)
  · rw [hd] at hk
    cases hk
  · rw [hd] at hk
    cases hk

theorem Sound.reached_of_resolveMembers {t : Table} (h : t.Sound) {scope : ScopeId}
    {fallback : Position} {rest : List Name} : ∀ {before : List Name} {owner b : Symbol},
    t.Reached scope owner → Typing.resolveMembers t fallback before owner rest = .ok b →
      t.Reached scope b := by
  induction rest with
  | nil =>
    intro before owner b ho hr
    cases hr
    exact ho
  | cons segment rest ih =>
    intro before owner b ho hr
    unfold Typing.resolveMembers at hr
    split at hr
    · cases hr
    · next k hk =>
      split at hr
      · next found hf =>
        have hm : found ∈ t.members k segment.text := by
          rw [hf]
          exact List.mem_singleton_self found
        exact ih (h.reached_of_member ho.1 hk hm) hr
      · cases hr

theorem Sound.reached_of_resolvePath {t : Table} (h : t.Sound) {scope : ScopeId}
    {fallback : Position} {segments : List Name} {b : Symbol}
    (hr : Typing.resolvePath t scope fallback segments = some (.ok b)) : t.Reached scope b := by
  unfold Typing.resolvePath at hr
  cases segments with
  | nil => cases hr
  | cons segment rest =>
    dsimp only at hr
    split at hr
    · next found hf =>
      have hm : found ∈ t.visibleFrom scope segment.text := by
        rw [hf]
        exact List.mem_singleton_self found
      exact h.reached_of_resolveMembers (h.reached_of_visible hm) (Option.some.inj hr)
    · cases hr

/-- A written type that means a class means one of the table. -/
theorem Sound.bound_of_resolveType {t : Table} (h : t.Sound) {scope : ScopeId} {type : TypeExpr}
    {c : Symbol} (hr : (Typing.resolveType t scope type).1 = .cls c) :
    t.Bound c ∧ c.kind = .cls := by
  cases type with
  | keyword word span => cases word <;> cases hr
  | array element span => cases hr
  | generic base args span => cases hr
  | named segments span =>
    unfold Typing.resolveType at hr
    dsimp only at hr
    split at hr
    · cases hr
    · cases hr
    · next symbol hp =>
      split at hr
      · next hk =>
        cases hr
        exact ⟨(h.reached_of_resolvePath hp).1, hk⟩
      · cases hr

def builtins (tag : Nat) : List Symbol :=
  [systemClass tag, consoleRoutine tag 1 .write .string, consoleRoutine tag 2 .write .int,
   consoleRoutine tag 3 .writeLine .string, consoleRoutine tag 4 .writeLine .int]

theorem members_withSystem (tag : Nat) (j : ScopeId) (name : String) :
    (withSystem tag).members j name =
      (builtins tag).filter fun b => b.declaredIn == j && b.name == name := by
  rcases j with _ | _ | j
  · by_cases hn : "System" = name
    · subst hn
      simp [members, withSystem, Scope.get_add, builtins, systemClass, consoleRoutine, root]
    · simp [members, withSystem, Scope.get_add, builtins, systemClass, consoleRoutine, root,
        hn, Ne.symm hn]
  · by_cases hw : "Write" = name
    · subst hw
      simp [members, withSystem, Scope.get_add, builtins, systemClass, consoleRoutine, root,
        Routine.text]
    · by_cases hl : "WriteLine" = name
      · subst hl
        simp [members, withSystem, Scope.get_add, builtins, systemClass, consoleRoutine, root,
          Routine.text]
      · simp [members, withSystem, Scope.get_add, builtins, systemClass, consoleRoutine, root,
          Routine.text, hw, hl, Ne.symm hw, Ne.symm hl]
  · simp [members, withSystem, builtins, systemClass, consoleRoutine, root]

theorem bound_withSystem (tag : Nat) (b : Symbol) :
    (withSystem tag).Bound b ↔ b ∈ builtins tag := by
  simp [Bound, members_withSystem]

theorem mem_builtins {tag : Nat} {b : Symbol} (hb : b ∈ builtins tag) :
    b = systemClass tag ∨
      b.scope = none ∧ b.declaredIn = 1 ∧ ∃ param routine, (param = .int ∨ param = .string) ∧
        b.details = .method [.keyword param .null] (.keyword .void .null) [.pub, .static] ["System"]
          (some routine) := by
  simp only [builtins, List.mem_cons, List.not_mem_nil, or_false] at hb
  rcases hb with rfl | rfl | rfl | rfl | rfl
  · exact Or.inl rfl
  all_goals exact Or.inr ⟨rfl, rfl, _, _, by simp, rfl⟩

theorem sound_withSystem (tag : Nat) : (withSystem tag).Sound := by
  have hpar : ∀ j p, (withSystem tag).parent? j = some p → j = 1 ∧ p = 0 := by
    intro j p hp
    rcases j with _ | _ | j
    · simp [parent?, withSystem, Scope.add, Scope.empty] at hp
    · simp [parent?, withSystem, Scope.add, Scope.empty, root] at hp
      exact ⟨rfl, hp.symm⟩
    · simp [parent?, withSystem] at hp
  have hopen : ∀ b k, b ∈ builtins tag → b.scope = some k → b = systemClass tag ∧ k = 1 := by
    intro b k hb hk
    rcases mem_builtins hb with rfl | ⟨hs, -⟩
    · exact ⟨rfl, (Option.some.inj hk).symm⟩
    · rw [hs] at hk
      cases hk
  constructor
  · simp [withSystem, root]
  · intro j p hp
    obtain ⟨rfl, rfl⟩ := hpar j p hp
    exact Nat.one_pos
  · intro j name b hb
    rw [members_withSystem, List.mem_filter, Bool.and_eq_true, beq_iff_eq, beq_iff_eq] at hb
    exact ⟨hb.2.2, hb.2.1⟩
  · intro b hb
    rw [bound_withSystem] at hb
    simp only [builtins, List.mem_cons, List.not_mem_nil, or_false] at hb
    rcases hb with rfl | rfl | rfl | rfl | rfl <;> simp [withSystem, systemClass, consoleRoutine]
  · intro a b ha hb
    rw [bound_withSystem] at ha hb
    simp only [builtins, List.mem_cons, List.not_mem_nil, or_false] at ha hb
    rcases ha with rfl | rfl | rfl | rfl | rfl <;> rcases hb with rfl | rfl | rfl | rfl | rfl <;>
      simp [systemClass, consoleRoutine]
  · intro a b ha hb hin _ hm
    rw [bound_withSystem] at ha hb
    rcases mem_builtins ha with rfl | ⟨-, -, _, _, hd⟩
    · rcases mem_builtins hb with rfl | ⟨-, hin', -⟩
      · rfl
      · rw [hin'] at hin
        cases hin
    · simp [Symbol.isMethod, Symbol.kind, hd] at hm
  · intro b k hb hk
    obtain ⟨-, rfl⟩ := hopen b k ((bound_withSystem tag b).mp hb) hk
    simp [withSystem]
  · intro a b k ha hb hak hbk
    rw [(hopen a k ((bound_withSystem tag a).mp ha) hak).1,
      (hopen b k ((bound_withSystem tag b).mp hb) hbk).1]
  · rintro k ⟨m, hm, hme, hk⟩
    rw [(hopen m k ((bound_withSystem tag m).mp hm) hk).1] at hme
    cases hme
  · intro b hb
    have hsys : (withSystem tag).Bound (systemClass tag) := by simp [bound_withSystem, builtins]
    rcases mem_builtins ((bound_withSystem tag b).mp hb) with rfl | ⟨-, hin, _, _, hd⟩
    · exact ⟨rfl, [], Or.inl ⟨rfl, rfl⟩, rfl⟩
    · simp only [Fits, hd, hin]
      exact Or.inr ⟨systemClass tag, _, _, hsys, rfl, rfl⟩
  · intro a b ha hb hlt _ hname
    rw [bound_withSystem] at ha hb
    simp only [builtins, List.mem_cons, List.not_mem_nil, or_false] at ha hb
    rcases ha with rfl | rfl | rfl | rfl | rfl <;> rcases hb with rfl | rfl | rfl | rfl | rfl <;>
      first | rfl | simp [consoleRoutine, Routine.text] at hlt hname

end Table

end ClassLang
