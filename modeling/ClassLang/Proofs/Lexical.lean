import ClassLang.Proofs.Outline
import ClassLang.Proofs.Scopes

/-! What a name means at a place of the tree, read off the tree: the variables of the method around,
then the members of the classes around, from the inside out. A class or method is settled in a table
if its scope lies in that of the class around it and binds what is written there. -/
namespace ClassLang

def Param.slot (p : Param) : VarSlot := ⟨p.name.text, p.type, p.symbol⟩

def Method.slots (m : Method) : List VarSlot := m.params.map Param.slot ++ m.bodySlots

theorem Method.symbols_slots (m : Method) : VarSlot.symbols m.slots = m.vars := by
  simp only [slots, vars, paramSymbols, VarSlot.symbols, List.filterMap_append, List.filterMap_map]
  rfl

def VarSlot.first? (x : String) (slots : List VarSlot) : Option VarSlot :=
  slots.find? fun v => v.name == x

namespace VarSlot

variable {x : String} {slots : List VarSlot} {v : VarSlot}

theorem mem_of_first? (h : first? x slots = some v) : v ∈ slots ∧ v.name = x :=
  ⟨List.mem_of_find?_eq_some h, beq_iff_eq.mp (List.find?_some h :)⟩

theorem name_ne_of_first?_eq_none (h : first? x slots = none) (hv : v ∈ slots) : v.name ≠ x :=
  fun hx => List.find?_eq_none.mp h v hv (beq_iff_eq.mpr hx)

/-- Where variables carry their names, those of a name have the symbols of that name. -/
theorem symbols_filter (h : ∀ v ∈ slots, ∀ b, v.symbol = some b → b.name = v.name) :
    symbols (slots.filter fun v => v.name == x) = (symbols slots).filter fun b => b.name == x := by
  induction slots with
  | nil => rfl
  | cons v rest ih =>
    have ih := ih fun w hw => h w (List.mem_cons_of_mem _ hw)
    simp only [symbols] at ih ⊢
    cases hb : v.symbol with
    | none => by_cases hx : v.name == x <;> simp [hx, hb, ih]
    | some b =>
      have hname := h v List.mem_cons_self b hb
      by_cases hx : v.name == x <;> simp [hx, hb, hname, ih]

end VarSlot

def Member.named (x : String) : Member → List Symbol
  | .method m => if m.name.text = x then m.symbol.toList else []
  | .field d => VarSlot.symbols (d.slots.filter fun v => v.name == x)
  | .nested head _ => if head.name.text = x then head.symbol.toList else []

def Member.allNamed (x : String) (ms : List Member) : List Symbol := ms.flatMap (named x)

theorem Member.allNamed_append (x : String) (a b : List Member) :
    allNamed x (a ++ b) = allNamed x a ++ allNamed x b := List.flatMap_append

/-- A class and those around it, innermost first. -/
inductive ClassDecl.Encloses (top : ClassDecl) : List ClassDecl → Prop
  | top : Encloses top [top]
  | nested {c outer head members} (h : Encloses top (c :: outer))
    (hm : .nested head members ∈ c.members) : Encloses top (⟨head, members⟩ :: c :: outer)

/-- The members of a name in the innermost class that has any, or else what the unit has. -/
def ClassDecl.visible (x : String) (unit : List Symbol) : List ClassDecl → List Symbol
  | [] => unit
  | c :: outer =>
    if Member.allNamed x c.members = [] then visible x unit outer else Member.allNamed x c.members

def Method.Settled (t : Table) (outer : ScopeId) (m : Method) : Prop :=
  ∀ b, m.symbol = some b → ∃ k, b.scope = some k ∧ t.parent? k = some outer ∧
    ∀ x, match VarSlot.first? x m.slots with
      | some v => ∃ p, v.symbol = some p ∧ t.members k x = [p]
      | none => t.members k x = []

theorem eq_singleton_of_ordered {l : List Symbol} {p : Symbol}
    (ho : l.Pairwise fun a b => a.id.number < b.id.number) (hp : p ∈ l) (hall : ∀ q ∈ l, q = p) :
    l = [p] := by
  match l, ho with
  | [], _ => cases hp
  | [q], _ => rw [hall q List.mem_cons_self]
  | q :: r :: _, ho =>
    have hlt := (List.pairwise_cons.mp ho).1 r List.mem_cons_self
    rw [hall q List.mem_cons_self, hall r (by simp)] at hlt
    exact absurd hlt (Nat.lt_irrefl _)

/-- A scope that holds the variables of a method binds the first one of every name, if that one was
not passed over. -/
theorem Method.members_first {t : Table} (hs : t.Sound) {m : Method} {k : ScopeId}
    (hm : ∀ x, t.members k x = m.vars.filter fun b => b.name == x)
    (ho : m.vars.Pairwise fun a b => a.id.number < b.id.number)
    (hv : ∀ v ∈ m.slots, ∀ b, v.symbol = some b → b.name = v.name ∧ b.isMethod = false)
    (hf : ∀ x v, VarSlot.first? x m.slots = some v → v.symbol ≠ none) (x : String) :
    match VarSlot.first? x m.slots with
    | some v => ∃ p, v.symbol = some p ∧ t.members k x = [p]
    | none => t.members k x = [] := by
  have hslot : ∀ {b}, b ∈ t.members k x → ∃ v ∈ m.slots, v.symbol = some b ∧ v.name = x := by
    intro b hb
    rw [hm, List.mem_filter, ← m.symbols_slots, beq_iff_eq] at hb
    obtain ⟨v, hmem, hvb⟩ := List.mem_filterMap.mp hb.1
    exact ⟨v, hmem, hvb, (hv v hmem b hvb).1.symm.trans hb.2⟩
  cases hfirst : VarSlot.first? x m.slots with
  | none =>
    refine List.eq_nil_iff_forall_not_mem.mpr fun b hb => ?_
    obtain ⟨v, hmem, -, hname⟩ := hslot hb
    exact VarSlot.name_ne_of_first?_eq_none hfirst hmem hname
  | some v =>
    obtain ⟨hmem, rfl⟩ := VarSlot.mem_of_first? hfirst
    obtain ⟨p, hp⟩ := Option.ne_none_iff_exists'.mp (hf _ v hfirst)
    have hin : p ∈ t.members k v.name := by
      rw [hm, List.mem_filter, ← m.symbols_slots, beq_iff_eq]
      exact ⟨List.mem_filterMap.mpr ⟨v, hmem, hp⟩, (hv v hmem p hp).1⟩
    refine ⟨p, hp, eq_singleton_of_ordered (hm v.name ▸ ho.filter _) hin fun q hq => ?_⟩
    obtain ⟨w, hw, hwq, -⟩ := hslot hq
    obtain ⟨hqn, hqk⟩ := hs.home k _ q hq
    obtain ⟨hpn, hpk⟩ := hs.home k _ p hin
    exact hs.alone q p (hs.bound_of_mem hq) (hs.bound_of_mem hin) (hqk.trans hpk.symm)
      (hqn.trans hpn.symm) (hv w hw q hwq).2

namespace Member

mutual

/-- The scope of a class lies in `outer` and binds its members. A class that was passed over is as
it was written. -/
def Settled (t : Table) (outer : ScopeId) : Member → Prop
  | .method m => m.Settled t outer
  | .field _ => True
  | .nested head members =>
    match head.symbol with
    | none => allFresh members = true
    | some c => ∃ k, c.scope = some k ∧ t.parent? k = some outer ∧
        (∀ x, t.members k x = allNamed x members) ∧ AllSettled t k members

def AllSettled (t : Table) (outer : ScopeId) : List Member → Prop
  | [] => True
  | m :: rest => m.Settled t outer ∧ AllSettled t outer rest

end

theorem AllSettled.of_mem {t : Table} {outer : ScopeId} {ms : List Member} {m : Member}
    (h : AllSettled t outer ms) (hm : m ∈ ms) : m.Settled t outer := by
  induction ms with
  | nil => cases hm
  | cons _ _ ih =>
    rw [AllSettled] at h
    rcases List.mem_cons.mp hm with rfl | hm
    · exact h.1
    · exact ih h.2 hm

theorem allSettled_append {t : Table} {outer : ScopeId} {a b : List Member} :
    AllSettled t outer (a ++ b) ↔ AllSettled t outer a ∧ AllSettled t outer b := by
  induction a with
  | nil => simp [AllSettled]
  | cons m a ih => simp [AllSettled, ih, and_assoc]

end Member

/-- From `t` to `u` no scope moves, and none inside `outer` gets another symbol. -/
structure Table.Keeps (t u : Table) (outer : ScopeId) : Prop where
  parent : ∀ j p, t.parent? j = some p → u.parent? j = some p
  members : ∀ j p, t.parent? j = some p → outer < j → ∀ x, u.members j x = t.members j x

theorem Table.Keeps.moveTo (t : Table) (scope outer : ScopeId) : t.Keeps (t.moveTo scope) outer :=
  ⟨fun _ _ hp => hp, fun _ _ _ _ _ => rfl⟩

theorem Table.Keeps.inside {t u : Table} {outer k : ScopeId} (h : t.Keeps u outer)
    (hk : outer ≤ k) : t.Keeps u k :=
  ⟨h.parent, fun j p hp hj => h.members j p hp (Nat.lt_of_le_of_lt hk hj)⟩

theorem Method.Settled.keep {t u : Table} (hs : t.Sound) {outer : ScopeId} {m : Method}
    (h : m.Settled t outer) (hk : t.Keeps u outer) : m.Settled u outer := by
  intro b hb
  obtain ⟨k, hbk, hp, hx⟩ := h b hb
  refine ⟨k, hbk, hk.parent k _ hp, fun x => ?_⟩
  rw [hk.members k _ hp (hs.parent k _ hp) x]
  exact hx x

namespace Member

variable {t u : Table}

mutual

theorem Settled.keep (hs : t.Sound) : ∀ {m : Member} {outer : ScopeId}, m.Settled t outer →
    t.Keeps u outer → m.Settled u outer
  | .method m, outer, h, hk => by
    rw [Settled] at h ⊢
    exact Method.Settled.keep hs h hk
  | .field d, outer, _, _ => by
    rw [Settled]
    trivial
  | .nested head members, outer, h, hk => by
    rw [Settled] at h ⊢
    cases hc : head.symbol with
    | none =>
      rw [hc] at h
      exact h
    | some c =>
      rw [hc] at h
      obtain ⟨k, hck, hp, hx, hall⟩ := h
      have hlt := hs.parent k _ hp
      refine ⟨k, hck, hk.parent k _ hp, fun x => ?_, hall.keep hs (hk.inside (Nat.le_of_lt hlt))⟩
      rw [hk.members k _ hp hlt x]
      exact hx x

theorem AllSettled.keep (hs : t.Sound) :
    ∀ {ms : List Member} {outer : ScopeId}, AllSettled t outer ms → t.Keeps u outer →
      AllSettled u outer ms
  | [], outer, _, _ => by
    rw [AllSettled]
    trivial
  | m :: rest, outer, h, hk => by
    rw [AllSettled] at h ⊢
    exact ⟨h.1.keep hs hk, h.2.keep hs hk⟩

end

end Member

end ClassLang
