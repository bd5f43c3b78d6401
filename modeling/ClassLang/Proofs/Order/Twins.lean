import ClassLang.Proofs.Layout
import ClassLang.Proofs.Resolved

/-! Two tables of the same declarations, written in another order. Every symbol of one has a twin in
the other: a symbol of the same name and details, in the scope of the same class or of the twin
method. Twins determine each other, so a name that is looked up in twin scopes finds twins. -/
namespace ClassLang

namespace Table

variable {t u : Table}

theorem PathOf.path_unique (h : t.Sound) {k : ScopeId} {p q : List String} (hp : t.PathOf k p)
    (hq : t.PathOf k q) : p = q := by
  have hroot : ∀ {c : Symbol}, t.Bound c → c.scope ≠ some root := fun hc hk =>
    Nat.lt_irrefl 0 (h.opened _ _ hc hk).1
  rcases hp with ⟨rfl, rfl⟩ | ⟨c, _, _, hc, hck, hd⟩
  · rcases hq with ⟨-, rfl⟩ | ⟨c', _, _, hc', hck', -⟩
    · rfl
    · exact absurd hck' (hroot hc')
  · rcases hq with ⟨rfl, -⟩ | ⟨c', _, _, hc', hck', hd'⟩
    · exact absurd hck (hroot hc)
    · obtain rfl := h.opener c c' k hc hc' hck hck'
      rw [hd] at hd'
      cases hd'
      rfl

theorem Sound.pathOf_of_isMethod (h : t.Sound) {m : Symbol} (hm : t.Bound m)
    (hk : m.isMethod = true) : ∃ params returns modifiers owner routine,
      m.details = .method params returns modifiers owner routine ∧ t.PathOf m.declaredIn owner := by
  have hf := h.fits m hm
  unfold Fits at hf
  rcases hd : m.details with ⟨_, _, _⟩ | ⟨ps, r, ms, owner, ro⟩ | ⟨_, _⟩
  · simp [Symbol.isMethod, Symbol.kind, hd] at hk
  · rw [hd] at hf
    exact ⟨ps, r, ms, owner, ro, rfl, hf⟩
  · simp [Symbol.isMethod, Symbol.kind, hd] at hk

theorem isMethod_eq_of_details {a b : Symbol} (h : a.details = b.details) :
    a.isMethod = b.isMethod := by
  rw [Symbol.isMethod, Symbol.isMethod, Symbol.kind, Symbol.kind, h]

/-- Two methods of one class that are written alike are one. -/
theorem Sound.eq_of_details (h : t.Sound) {m n : Symbol} (hm : t.Bound m) (hn : t.Bound n)
    (hk : m.isMethod = true) (hname : m.name = n.name) (hd : m.details = n.details) : m = n := by
  obtain ⟨ps, r, ms, owner, ro, hdm, hpm⟩ := h.pathOf_of_isMethod hm hk
  have hkn : n.isMethod = true := isMethod_eq_of_details hd ▸ hk
  obtain ⟨_, _, _, _, _, hdn, hpn⟩ := h.pathOf_of_isMethod hn hkn
  rw [← hd, hdm] at hdn
  cases hdn
  have hin : m.declaredIn = n.declaredIn := hpm.scope_unique h hpn
  have halike : ∀ {a b : Symbol}, a.details = m.details → b.details = m.details →
      a.alike b = true := by
    intro a b ha hb
    simp [Symbol.alike, ha, hb, hdm, TypeExpr.sameAll_refl]
  -- Were they two, the later one would not have been registered.
  rcases Nat.lt_trichotomy m.id.number n.id.number with hlt | heq | hgt
  · have hfalse := h.unlike m n hm hn hlt hin hname
    rw [halike rfl hd.symm] at hfalse
    cases hfalse
  · exact h.eq_of_number hm hn heq
  · have hfalse := h.unlike n m hn hm hgt hin.symm hname.symm
    rw [halike hd.symm rfl] at hfalse
    cases hfalse

/-- Scopes of one class, or bodies of methods that are written alike in one class. -/
inductive TwinScopes (t u : Table) (j k : ScopeId) : Prop
  | cls {path : List String} (ht : t.PathOf j path) (hu : u.PathOf k path)
  | body {m n : Symbol} (hm : t.Bound m) (hn : u.Bound n) (hk : m.isMethod = true)
    (hname : m.name = n.name) (hd : m.details = n.details) (hms : m.scope = some j)
    (hns : n.scope = some k)

structure Twins (t u : Table) (a b : Symbol) : Prop where
  left : t.Bound a
  right : u.Bound b
  name : a.name = b.name
  details : a.details = b.details
  scopes : TwinScopes t u a.declaredIn b.declaredIn

namespace TwinScopes

variable {j k : ScopeId}

theorem symm (h : TwinScopes t u j k) : TwinScopes u t k j := by
  cases h with
  | cls ht hu => exact .cls hu ht
  | body hm hn hk hname hd hms hns =>
    exact .body hn hm (isMethod_eq_of_details hd ▸ hk) hname.symm hd.symm hns hms

theorem right_unique (ht : t.Sound) (hu : u.Sound) {k' : ScopeId} (h : TwinScopes t u j k)
    (h' : TwinScopes t u j k') : k = k' := by
  cases h with
  | cls hj hk =>
    cases h' with
    | cls hj' hk' =>
      obtain rfl := hj.path_unique ht hj'
      exact hk.scope_unique hu hk'
    | body hm _ hmk _ _ hms _ => exact absurd ⟨_, hm, hmk, hms⟩ (hj.not_isBody ht)
  | body hm hn hmk hname hd hms hns =>
    cases h' with
    | cls hj' _ => exact absurd ⟨_, hm, hmk, hms⟩ (hj'.not_isBody ht)
    | body hm' hn' hmk' hname' hd' hms' hns' =>
      obtain rfl := ht.opener _ _ j hm hm' hms hms'
      obtain rfl := hu.eq_of_details hn hn' (isMethod_eq_of_details hd ▸ hmk)
        (hname.symm.trans hname') (hd.symm.trans hd')
      exact Option.some.inj (hns.symm.trans hns')

/-- The scopes around members of classes that are written alike. -/
theorem of_details (ht : t.Sound) (hu : u.Sound) {a b : Symbol} (ha : t.Bound a) (hb : u.Bound b)
    (hname : a.name = b.name) (hd : a.details = b.details)
    (hv : ∀ type n, a.details ≠ .var type (.slot n) ∧ a.details ≠ .var type (.param n)) :
    TwinScopes t u a.declaredIn b.declaredIn := by
  have hfa := ht.fits a ha
  have hfb := hu.fits b hb
  unfold Fits at hfa hfb
  rw [← hd] at hfb
  rcases hda : a.details with ⟨path, _, _⟩ | ⟨_, _, _, _, _⟩ | ⟨type, n | n | ⟨_, _⟩⟩
  all_goals rw [hda] at hfa hfb
  · obtain ⟨-, outer, hout, hp⟩ := hfa
    obtain ⟨-, outer', hout', hp'⟩ := hfb
    rw [hname] at hp
    obtain ⟨rfl, -⟩ := List.append_inj' (hp.symm.trans hp') rfl
    exact .cls hout hout'
  · exact .cls hfa hfb
  · exact absurd hda (hv type n).1
  · exact absurd hda (hv type n).2
  · exact .cls hfa.2 hfb.2

theorem of_methods (ht : t.Sound) (hu : u.Sound) {m n : Symbol} (hm : t.Bound m) (hn : u.Bound n)
    (hk : m.isMethod = true) (hname : m.name = n.name) (hd : m.details = n.details) :
    TwinScopes t u m.declaredIn n.declaredIn := by
  refine .of_details ht hu hm hn hname hd fun type i => ?_
  constructor <;> intro hdm <;> simp [Symbol.isMethod, Symbol.kind, hdm] at hk

end TwinScopes

namespace Twins

variable {a b : Symbol}

theorem symm (h : Twins t u a b) : Twins u t b a :=
  ⟨h.right, h.left, h.name.symm, h.details.symm, h.scopes.symm⟩

theorem kind_eq (h : Twins t u a b) : a.kind = b.kind := by
  rw [Symbol.kind, Symbol.kind, h.details]

theorem right_unique (ht : t.Sound) (hu : u.Sound) {b' : Symbol} (h : Twins t u a b)
    (h' : Twins t u a b') : b = b' := by
  have hd := h.details.symm.trans h'.details
  have hname := h.name.symm.trans h'.name
  cases hk : b.isMethod with
  | true => exact hu.eq_of_details h.right h'.right hk hname hd
  | false =>
    exact hu.alone b b' h.right h'.right (h.scopes.right_unique ht hu h'.scopes) hname hk

theorem left_unique (ht : t.Sound) (hu : u.Sound) {a' : Symbol} (h : Twins t u a b)
    (h' : Twins t u a' b) : a = a' := h.symm.right_unique hu ht h'.symm

end Twins

structure Matches (t u : Table) (as bs : List Symbol) : Prop where
  left : ∀ a ∈ as, ∃ b ∈ bs, Twins t u a b
  right : ∀ b ∈ bs, ∃ a ∈ as, Twins t u a b
  nodup : bs.Nodup

theorem eq_singleton_of_nodup {α : Type} {l : List α} {a : α} (hn : l.Nodup) (ha : a ∈ l)
    (hall : ∀ b ∈ l, b = a) : l = [a] := by
  have hrep := List.eq_replicate_of_mem hall
  rw [hrep, List.nodup_replicate] at hn
  have hpos := List.length_pos_of_mem ha
  rw [hrep, Nat.le_antisymm hn hpos]
  rfl

namespace Matches

variable {as bs : List Symbol}

theorem eq_nil_iff (h : Matches t u as bs) : as = [] ↔ bs = [] := by
  constructor
  · rintro rfl
    refine List.eq_nil_iff_forall_not_mem.mpr fun b hb => ?_
    obtain ⟨_, ha, -⟩ := h.right b hb
    cases ha
  · rintro rfl
    refine List.eq_nil_iff_forall_not_mem.mpr fun a ha => ?_
    obtain ⟨_, hb, -⟩ := h.left a ha
    cases hb

theorem singleton (ht : t.Sound) (hu : u.Sound) {a : Symbol} (h : Matches t u [a] bs) :
    ∃ b, bs = [b] ∧ Twins t u a b := by
  obtain ⟨b, hb, htwin⟩ := h.left a List.mem_cons_self
  refine ⟨b, eq_singleton_of_nodup h.nodup hb fun c hc => ?_, htwin⟩
  obtain ⟨a', ha', htwin'⟩ := h.right c hc
  obtain rfl := List.mem_singleton.mp ha'
  exact htwin'.right_unique ht hu htwin

end Matches

end Table

open Table

structure Laid (t : Table) (tag : Nat) (ds : List Decl) : Prop extends Declares t tag ds where
  filled : ∀ d ∈ ds, d.Filled
  nodup : ∀ j x, (t.members j x).Nodup
  around : ∀ {b k}, t.Bound b → b.scope = some k → t.parent? k = some b.declaredIn

/-- Tables of declarations that are written alike, in any order. -/
structure Mirrored (tag : Nat) (t u : Table) (ds es : List Decl) : Prop where
  left : Laid t tag ds
  right : Laid u tag es
  forth : ∀ d ∈ ds, ∃ e ∈ es, e.erase = d.erase
  back : ∀ e ∈ es, ∃ d ∈ ds, d.erase = e.erase

theorem getElem?_of_map_eq {α β : Type} {f : α → β} {xs ys : List α} (h : xs.map f = ys.map f)
    {j : Nat} {y : α} (hy : ys[j]? = some y) : ∃ x, xs[j]? = some x ∧ f x = f y := by
  have hj := congrArg (·[j]?) h
  simp only [List.getElem?_map, hy, Option.map_some, Option.map_eq_some_iff] at hj
  exact hj

namespace Mirrored

variable {tag : Nat} {t u : Table} {ds es : List Decl}

theorem symm (h : Mirrored tag t u ds es) : Mirrored tag u t es ds :=
  ⟨h.right, h.left, h.back, h.forth⟩

theorem method_twins (h : Mirrored tag t u ds es) {path : List String} {m n : Method}
    (hm : .method path m ∈ ds) (hn : .method path n ∈ es) (he : n.erase = m.erase) {a : Symbol}
    (ha : m.symbol = some a) : ∃ b, n.symbol = some b ∧ Twins t u a b ∧
      ∃ j k, a.scope = some j ∧ b.scope = some k ∧ TwinScopes t u j k := by
  obtain ⟨b, hb⟩ := Option.ne_none_iff_exists'.mp (h.right.filled _ hn).1
  have hpm := h.left.placed _ hm
  have hpn := h.right.placed _ hn
  simp only [Decl.Placed, ha] at hpm
  simp only [Decl.Placed, hb] at hpn
  obtain ⟨⟨hname, hd⟩, j, hj, -, -⟩ := hpm
  obtain ⟨⟨hname', hd'⟩, k, hk, -, -⟩ := hpn
  obtain ⟨hnames, hret, hmods, htypes⟩ := Registration.erase_method_eq he
  have habound : t.Bound a := h.left.bound_of_mem hm (by simp [Decl.symbols, ha])
  have hbbound : u.Bound b := h.right.bound_of_mem hn (by simp [Decl.symbols, hb])
  have hnab : a.name = b.name := by rw [hname, hname', hnames]
  have hdab : a.details = b.details := by rw [hd, hd', hret, hmods, htypes]
  have hkind : a.isMethod = true := by simp [Symbol.isMethod, Symbol.kind, hd]
  exact ⟨b, hb, ⟨habound, hbbound, hnab, hdab,
    .of_methods h.left.sound h.right.sound habound hbbound hkind hnab hdab⟩, j, k, hj, hk,
    .body habound hbbound hkind hnab hdab hj hk⟩

theorem field_twin (h : Mirrored tag t u ds es) {path : List String} {d e : VarDecl}
    (hd : .field path d ∈ ds) (he : .field path e ∈ es) (hde : e.erase = d.erase) {v : VarSlot}
    (hv : v ∈ d.slots) {a : Symbol} (ha : v.symbol = some a) : ∃ b, Twins t u a b := by
  obtain ⟨i, hi⟩ := List.getElem?_of_mem hv
  have hslots : e.slots.map VarSlot.erase = d.slots.map VarSlot.erase := by
    rw [← e.slots_strip, ← d.slots_strip, ← e.strip_erase, hde, d.strip_erase]
  obtain ⟨w, hw, hwv⟩ := getElem?_of_map_eq hslots hi
  have hwmem := List.mem_of_getElem? hw
  simp only [VarSlot.erase, VarSlot.mk.injEq, and_true] at hwv
  obtain ⟨b, hb⟩ := Option.ne_none_iff_exists'.mp (h.right.filled _ he w hwmem)
  obtain ⟨hname, hdet⟩ := h.left.placed _ hd v hv a ha
  obtain ⟨hname', hdet'⟩ := h.right.placed _ he w hwmem b hb
  have hmods : e.modifiers = d.modifiers := by
    simp only [VarDecl.erase, VarDecl.mk.injEq] at hde
    exact hde.1
  have hab : t.Bound a := h.left.bound_of_mem hd (List.mem_filterMap.mpr ⟨v, hv, ha⟩)
  have hbb : u.Bound b := h.right.bound_of_mem he (List.mem_filterMap.mpr ⟨w, hwmem, hb⟩)
  have hnab : a.name = b.name := by rw [hname, hname', hwv.1]
  have hdab : a.details = b.details := by rw [hdet, hdet', hwv.2, hmods]
  exact ⟨b, hab, hbb, hnab, hdab,
    .of_details h.left.sound h.right.sound hab hbb hnab hdab (by simp [hdet])⟩

theorem class_twin (h : Mirrored tag t u ds es) {path : List String} {head head' : ClassHead}
    (hd : .cls path head ∈ ds) (he : .cls path head' ∈ es) (hde : head'.erase = head.erase)
    {a : Symbol} (ha : head.symbol = some a) : ∃ b, Twins t u a b := by
  obtain ⟨b, hb⟩ := Option.ne_none_iff_exists'.mp (h.right.filled _ he)
  obtain ⟨hname, -, hdet⟩ := h.left.placed _ hd a ha
  obtain ⟨hname', -, hdet'⟩ := h.right.placed _ he b hb
  simp only [ClassHead.erase, ClassHead.mk.injEq] at hde
  have hab : t.Bound a := h.left.bound_of_mem hd (by simp [Decl.symbols, ha])
  have hbb : u.Bound b := h.right.bound_of_mem he (by simp [Decl.symbols, hb])
  have hnab : a.name = b.name := by simp [hname, hname', hde]
  have hdab : a.details = b.details := by simp [hdet, hdet', hde]
  exact ⟨b, hab, hbb, hnab, hdab,
    .of_details h.left.sound h.right.sound hab hbb hnab hdab (by simp [hdet])⟩

/-- The variables of methods that are written alike stand in the same order. -/
theorem var_twin (h : Mirrored tag t u ds es) {path : List String} {m n : Method}
    (hm : .method path m ∈ ds) (hn : .method path n ∈ es) (he : n.erase = m.erase) {a : Symbol}
    (ha : a ∈ m.vars) : ∃ b, Twins t u a b := by
  obtain ⟨s, hs⟩ := Option.ne_none_iff_exists'.mp (h.left.filled _ hm).1
  obtain ⟨s', hs', -, j, k, hj, hk, hjk⟩ := h.method_twins hm hn he hs
  have hfm := h.left.filled _ hm
  have hfn := h.right.filled _ hn
  have hpm := h.left.placed _ hm
  have hpn := h.right.placed _ hn
  simp only [Decl.Placed, hs] at hpm
  simp only [Decl.Placed, hs'] at hpn
  obtain ⟨-, j', hj', hparams, hslots⟩ := hpm
  obtain ⟨-, k', hk', hparams', hslots'⟩ := hpn
  obtain rfl := Option.some.inj (hj.symm.trans hj')
  obtain rfl := Option.some.inj (hk.symm.trans hk')
  obtain ⟨heparams, heslots⟩ := Method.slots_of_erase he
  have hvars : ∀ {n : Method} {b : Symbol}, b ∈ n.vars → b ∈ (Decl.method path n).symbols :=
    fun hb => List.mem_append_right _ hb
  rcases List.mem_append.mp ha with hp | hv
  · obtain ⟨p, hp, hpa⟩ := List.mem_filterMap.mp hp
    obtain ⟨i, hi⟩ := List.getElem?_of_mem hp
    obtain ⟨q, hq, hqp⟩ := getElem?_of_map_eq heparams hi
    have hqmem := List.mem_of_getElem? hq
    obtain ⟨b, hb⟩ := Option.ne_none_iff_exists'.mp (hfn.2.1 q hqmem)
    simp only [Param.erase, Param.mk.injEq, and_true] at hqp
    obtain ⟨hname, hin, -⟩ := hparams.of_mem hp hpa
    obtain ⟨hname', hin', -⟩ := hparams'.of_mem hqmem hb
    refine ⟨b, h.left.bound_of_mem hm (hvars ha), h.right.bound_of_mem hn (hvars ?_), ?_, ?_, ?_⟩
    · exact List.mem_append_left _ (List.mem_filterMap.mpr ⟨q, hqmem, hb⟩)
    · simp [hname, hname', hqp]
    · simp [hparams.position hi hpa, hparams'.position hq hb, hqp]
    · rw [hin, hin']
      exact hjk
  · obtain ⟨v, hv, hva⟩ := List.mem_filterMap.mp hv
    obtain ⟨i, hi⟩ := List.getElem?_of_mem hv
    obtain ⟨w, hw, hwv⟩ := getElem?_of_map_eq heslots hi
    have hwmem := List.mem_of_getElem? hw
    obtain ⟨b, hb⟩ := Option.ne_none_iff_exists'.mp (hfn.2.2 w hwmem)
    simp only [VarSlot.erase, VarSlot.mk.injEq, and_true] at hwv
    obtain ⟨hname, hin, -⟩ := hslots.of_mem hv hva
    obtain ⟨hname', hin', -⟩ := hslots'.of_mem hwmem hb
    refine ⟨b, h.left.bound_of_mem hm (hvars ha), h.right.bound_of_mem hn (hvars ?_), ?_, ?_, ?_⟩
    · exact List.mem_append_right _ (List.mem_filterMap.mpr ⟨w, hwmem, hb⟩)
    · simp [hname, hname', hwv]
    · simp [hslots.position hfm.2.2 hi hva, hslots'.position hfn.2.2 hw hb, hwv]
    · rw [hin, hin']
      exact hjk

theorem exists_twin (h : Mirrored tag t u ds es) {a : Symbol} (ha : t.Bound a) :
    ∃ b, Twins t u a b := by
  rcases (h.left.bound a).mp ha with hbuilt | hmem
  · have hau := (h.right.bound a).mpr (Or.inl hbuilt)
    refine ⟨a, ha, hau, rfl, rfl, .of_details h.left.sound h.right.sound ha hau rfl rfl ?_⟩
    rcases mem_builtins hbuilt with rfl | ⟨-, -, _, _, -, hd⟩
    · simp [systemClass]
    · simp [hd]
  obtain ⟨d, hd, had⟩ := List.mem_flatMap.mp hmem
  obtain ⟨e, he, hde⟩ := h.forth d hd
  cases d with
  | cls path head =>
    cases e <;> simp only [Decl.erase, Decl.cls.injEq, reduceCtorEq] at hde
    obtain ⟨rfl, hde⟩ := hde
    exact h.class_twin hd he hde (Option.mem_toList.mp had)
  | field path d =>
    cases e <;> simp only [Decl.erase, Decl.field.injEq, reduceCtorEq] at hde
    obtain ⟨rfl, hde⟩ := hde
    obtain ⟨v, hv, hva⟩ := List.mem_filterMap.mp had
    exact h.field_twin hd he hde hv hva
  | method path m =>
    cases e <;> simp only [Decl.erase, Decl.method.injEq, reduceCtorEq] at hde
    obtain ⟨rfl, hde⟩ := hde
    rcases List.mem_append.mp had with hsym | hvar
    · obtain ⟨b, -, htwin, -⟩ := h.method_twins hd he hde (Option.mem_toList.mp hsym)
      exact ⟨b, htwin⟩
    · exact h.var_twin hd he hde hvar

theorem members (h : Mirrored tag t u ds es) {j k : ScopeId} (hjk : TwinScopes t u j k)
    (x : String) : Matches t u (t.members j x) (u.members k x) := by
  have hforth : ∀ {t u : Table} {ds es : List Decl} {j k : ScopeId}, Mirrored tag t u ds es →
      TwinScopes t u j k → ∀ a ∈ t.members j x, ∃ b ∈ u.members k x, Twins t u a b := by
    intro t u ds es j k h hjk a ha
    obtain ⟨rfl, rfl⟩ := h.left.sound.home j x a ha
    obtain ⟨b, hb⟩ := h.exists_twin ha
    have hin := hb.scopes.right_unique h.left.sound h.right.sound hjk
    refine ⟨b, ?_, hb⟩
    rw [← hin, hb.name]
    exact hb.right
  refine ⟨hforth h hjk, fun b hb => ?_, h.right.nodup k x⟩
  obtain ⟨a, ha, htwin⟩ := hforth h.symm hjk.symm b hb
  exact ⟨a, ha, htwin.symm⟩

theorem parents (h : Mirrored tag t u ds es) {j k : ScopeId} (hjk : TwinScopes t u j k) :
    (t.parent? j = none ∧ u.parent? k = none) ∨
      ∃ p q, t.parent? j = some p ∧ u.parent? k = some q ∧ TwinScopes t u p q := by
  have hroot : ∀ {t : Table}, t.Sound → t.parent? root = none := by
    intro t ht
    cases hp : t.parent? root with
    | none => rfl
    | some p => exact absurd (ht.parent _ _ hp) (Nat.not_lt_zero p)
  have hnil : ∀ {t : Table} {c : Symbol} {ms bi}, t.Sound → t.Bound c →
      c.details ≠ .cls [] ms bi := by
    intro t c ms bi ht hc hd
    obtain ⟨outer, -, hp⟩ := ht.path_eq_of_cls hc hd
    simp at hp
  cases hjk with
  | cls hj hk =>
    rcases hj with ⟨rfl, rfl⟩ | ⟨c, _, _, hc, hcj, hd⟩
    · rcases hk with ⟨rfl, -⟩ | ⟨c', _, _, hc', -, hd'⟩
      · exact Or.inl ⟨hroot h.left.sound, hroot h.right.sound⟩
      · exact absurd hd' (hnil h.right.sound hc')
    · rcases hk with ⟨-, rfl⟩ | ⟨c', _, _, hc', hck', hd'⟩
      · exact absurd hd (hnil h.left.sound hc)
      · obtain ⟨outer, hout, hp⟩ := h.left.sound.path_eq_of_cls hc hd
        obtain ⟨outer', hout', hp'⟩ := h.right.sound.path_eq_of_cls hc' hd'
        obtain ⟨rfl, -⟩ := List.append_inj' (hp.symm.trans hp') rfl
        exact Or.inr ⟨_, _, h.left.around hc hcj, h.right.around hc' hck', .cls hout hout'⟩
  | body hm hn hmk hname hd hms hns =>
    exact Or.inr ⟨_, _, h.left.around hm hms, h.right.around hn hns,
      .of_methods h.left.sound h.right.sound hm hn hmk hname hd⟩

theorem visible (h : Mirrored tag t u ds es) {j k : ScopeId} (hjk : TwinScopes t u j k)
    (x : String) : Matches t u (t.visibleFrom j x) (u.visibleFrom k x) := by
  -- A scope has a greater number than its parent; of those on the other side nothing is known.
  induction j using Nat.strongRecOn generalizing k with
  | ind j ih =>
    have hmem := h.members hjk x
    rw [h.left.sound.visibleFrom_eq, h.right.sound.visibleFrom_eq]
    rcases h.parents hjk with ⟨hp, hq⟩ | ⟨p, q, hp, hq, hpq⟩
    · rw [hp, hq]
      exact hmem
    · rw [hp, hq]
      dsimp only
      split
      · next hnil =>
        rw [if_pos (hmem.eq_nil_iff.mp hnil)]
        exact ih p (h.left.sound.parent j p hp) hpq
      · next hne =>
        rw [if_neg fun hnil => hne (hmem.eq_nil_iff.mpr hnil)]
        exact hmem

/-- The written types of twins are read in twin scopes. -/
theorem writes (h : Mirrored tag t u ds es) {a b : Symbol} (hab : Twins t u a b) {j : ScopeId}
    {type : TypeExpr} (hw : Typing.Writes t a j type) :
    ∃ k, Typing.Writes u b k type ∧ TwinScopes t u j k := by
  unfold Typing.Writes at hw ⊢
  rw [← hab.details]
  rcases hd : a.details with ⟨_, _, _⟩ | ⟨_, _, _, _, _⟩ | ⟨_, _ | _ | _⟩
  all_goals simp only [hd] at hw ⊢
  · exact ⟨_, ⟨hw.1, rfl⟩, hw.2 ▸ hab.scopes⟩
  · exact ⟨_, ⟨hw.1, rfl⟩, hw.2 ▸ hab.scopes⟩
  · obtain ⟨rfl, m, hm, hms, rfl⟩ := hw
    have hbody : t.IsBody a.declaredIn := by
      have hf := h.left.sound.fits a hab.left
      simp only [Fits, hd] at hf
      exact hf.2
    cases hab.scopes with
    | cls hj _ => exact absurd hbody (hj.not_isBody h.left.sound)
    | body hm' hn hmk hname hdet hms' hns =>
      obtain rfl := h.left.sound.opener _ _ _ hm hm' hms hms'
      exact ⟨_, ⟨rfl, _, hn, hns, rfl⟩,
        .of_methods h.left.sound h.right.sound hm hn hmk hname hdet⟩
  · exact ⟨_, ⟨hw.1, rfl⟩, hw.2 ▸ hab.scopes⟩

end Mirrored

def Decl.own? : Decl → Option Symbol
  | .method _ m => m.symbol
  | .cls _ head => head.symbol
  | .field _ _ => none

theorem Decl.own?_eq_none_of_isFresh {d : Decl} (h : d.isFresh = true) : d.own? = none := by
  have hs := Decl.symbols_of_isFresh h
  cases d with
  | method path m => exact Option.toList_eq_nil_iff.mp (List.append_eq_nil_iff.mp hs).1
  | cls path head => exact Option.toList_eq_nil_iff.mp hs
  | field path d => rfl

namespace Member

mutual

/-- The scope of a settled method or class lies in the scope it is declared in. -/
theorem parent_of_mem_decls {t : Table} (hs : t.Sound) {m : Member} {outer : ScopeId}
    {path : List String} (hset : m.Settled t outer)
    (hin : ∀ x, ∀ b ∈ m.named x, b ∈ t.members outer x) {d : Decl} (hd : d ∈ m.decls path)
    {b : Symbol} (hb : d.own? = some b) {k : ScopeId}
    (hk : b.scope = some k) : t.parent? k = some b.declaredIn := by
  cases m with
  | method m =>
    rw [decls, List.mem_singleton] at hd
    subst hd
    have hb : m.symbol = some b := hb
    rw [Settled] at hset
    obtain ⟨k', hk', hp, -⟩ := hset b hb
    obtain rfl := Option.some.inj (hk.symm.trans hk')
    have hmem := hin m.name.text b (by simp [named, hb])
    rw [hp, (hs.home _ _ _ hmem).2]
  | field d =>
    rw [decls, List.mem_singleton] at hd
    subst hd
    cases hb
  | nested head members =>
    rw [decls, List.mem_cons] at hd
    rw [Settled] at hset
    cases hc : head.symbol with
    | none =>
      rw [hc] at hset
      rcases hd with rfl | hd
      · exact absurd (hc.symm.trans hb) (by simp)
      · rw [Decl.own?_eq_none_of_isFresh (isFresh_of_mem_allDecls hset hd)] at hb
        cases hb
    | some c =>
      rw [hc] at hset
      obtain ⟨k', hk', hp, hmembers, hall⟩ := hset
      rcases hd with rfl | hd
      · obtain rfl := Option.some.inj (hc.symm.trans hb)
        obtain rfl := Option.some.inj (hk.symm.trans hk')
        have hmem := hin head.name.text c (by simp [named, hc])
        rw [hp, (hs.home _ _ _ hmem).2]
      · exact parent_of_mem_allDecls hs hall (fun x b hb => hmembers x ▸ hb) hd hb hk

theorem parent_of_mem_allDecls {t : Table} (hs : t.Sound) {ms : List Member} {outer : ScopeId}
    {path : List String} (hset : AllSettled t outer ms)
    (hin : ∀ x, ∀ b ∈ allNamed x ms, b ∈ t.members outer x) {d : Decl} (hd : d ∈ allDecls path ms)
    {b : Symbol} (hb : d.own? = some b) {k : ScopeId} (hk : b.scope = some k) :
    t.parent? k = some b.declaredIn := by
  cases ms with
  | nil =>
    rw [allDecls] at hd
    cases hd
  | cons m rest =>
    rw [AllSettled] at hset
    rw [allDecls, List.mem_append] at hd
    have hnamed : ∀ x, allNamed x (m :: rest) = m.named x ++ allNamed x rest := fun _ =>
      List.flatMap_cons
    rcases hd with hd | hd
    · exact parent_of_mem_decls hs hset.1
        (fun x b hb => hin x b (hnamed x ▸ List.mem_append_left _ hb)) hd hb hk
    · exact parent_of_mem_allDecls hs hset.2
        (fun x b hb => hin x b (hnamed x ▸ List.mem_append_right _ hb)) hd hb hk

end

end Member

/-- Only methods and classes have scopes of their own. -/
theorem Declares.own_of_scope {t : Table} {tag : Nat} {ds : List Decl} (h : Declares t tag ds)
    {b : Symbol} (hb : t.Bound b) {k : ScopeId} (hk : b.scope = some k) :
    b = systemClass tag ∨ ∃ d ∈ ds, d.own? = some b := by
  have hvar : ∀ type storage, b.details ≠ .var type storage := by
    intro type storage hd
    have hf := h.sound.fits b hb
    rcases storage with _ | _ | _
    all_goals
      simp only [Fits, hd] at hf
      rw [hf.1] at hk
      cases hk
  rcases (h.bound b).mp hb with hbuilt | hmem
  · rcases mem_builtins hbuilt with rfl | ⟨hnone, -⟩
    · exact Or.inl rfl
    · rw [hnone] at hk
      cases hk
  obtain ⟨d, hd, hbd⟩ := List.mem_flatMap.mp hmem
  refine Or.inr ⟨d, hd, ?_⟩
  have hplaced := h.placed d hd
  cases d with
  | cls path head => exact Option.mem_toList.mp hbd
  | field path d =>
    obtain ⟨v, hv, hvb⟩ := List.mem_filterMap.mp hbd
    exact absurd (hplaced v hv b hvb).2 (hvar _ _)
  | method path m =>
    obtain ⟨s, _, hs, -, -, rfl | ⟨-, _, _, _, _, hdet⟩ | ⟨-, _, _, _, _, hdet⟩⟩ :=
      hplaced.of_mem_method hbd
    · exact hs
    · exact absurd hdet (hvar _ _)
    · exact absurd hdet (hvar _ _)

namespace Registration

/-- Numbers grow in the order of binding, so no symbol is bound twice. -/
theorem Registers.nodup {tag : Nat} {reports : List Diagnostic} {s : State} {ds : List Decl}
    (h : Registers (.start (.withSystem tag) reports) s ds) (j : ScopeId) (x : String) :
    (s.table.members j x).Nodup := by
  have hstart : State.table (.start (.withSystem tag) reports) = .withSystem tag := rfl
  have hordered : (s.table.members j x).Pairwise fun a b => a.id.number < b.id.number := by
    rw [h.adds.members, hstart, members_withSystem]
    refine List.pairwise_append.mpr ⟨.filter _ ?_, h.adds.ordered.filter _, fun a ha b hb => ?_⟩
    · simp [builtins, systemClass, consoleRoutine]
    · have habound := (bound_withSystem tag a).mpr (List.mem_of_mem_filter ha)
      exact Nat.lt_of_lt_of_le ((sound_withSystem tag).number a habound).2
        (h.adds.range b (List.mem_of_mem_filter hb)).1
  refine hordered.imp fun hlt heq => ?_
  rw [heq] at hlt
  exact Nat.lt_irrefl _ hlt

theorem registerUnit_laid {u u' : CompilationUnit} {tag : Nat} {reports : List Diagnostic}
    {s : State} (hf : u.isFresh = true)
    (h : registerUnit u (.withSystem tag) reports = ⟨u', .ok (), s⟩) (hq : s.diagnostics = []) :
    Laid s.table tag u'.decls := by
  obtain ⟨-, hr⟩ := registerUnit_registers hf h
  refine ⟨hr.declares, hr.filled hq, hr.nodup, fun {b k} hb hk => ?_⟩
  rcases hr.declares.own_of_scope hb hk with rfl | ⟨d, hd, hown⟩
  · cases hk
    exact hr.adds.parent 1 (by simp [State.start, withSystem])
  · obtain ⟨_ | top⟩ := u'
    · cases hd
    have hset := registerUnit_settles hf h rfl
    have hin : d ∈ Member.allDecls [] [.nested top.head top.members] := by
      simpa [Member.allDecls, Member.decls, CompilationUnit.decls, ClassDecl.decls] using hd
    refine Member.parent_of_mem_allDecls hr.adds.sound hset.settled (fun x b hb => ?_) hin hown hk
    rw [hset.members]
    exact List.mem_append_right _ hb

end Registration

end ClassLang
