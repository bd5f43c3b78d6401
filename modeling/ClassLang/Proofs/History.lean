import ClassLang.Proofs.Scopes

/-! Histories of a table. Whoever holds a table may open scopes, move to a scope that exists, make
symbols and bind them, in any order. A symbol may be bound in another scope than the one it was made
in, and again after it was bound. The history keeps what was made and what was bound, and the table
is held against it. -/
namespace ClassLang

inductive Table.Op where
  | openScope (name : String)
  | moveTo (scope : ScopeId)
  | newSymbol (name : String) (details : Details) (scope : Option ScopeId) (position : Position)
  | bind (symbol : Symbol)

def Table.Op.isEnabled (t : Table) : Op → Bool
  | .moveTo scope => decide (scope < t.scopes.length)
  | .openScope _ | .newSymbol .. | .bind _ => true

structure History where
  table : Table
  made : List Symbol
  bound : List (ScopeId × Symbol)

namespace History

open Table (Op)

def empty (tag : Nat) : History := ⟨.empty tag, [], []⟩

def system (tag : Nat) : History :=
  ⟨.withSystem tag, Table.builtins tag, (Table.builtins tag).map fun b => (b.declaredIn, b)⟩

/-- A symbol that clashes is not bound, and leaves no trace. -/
def next (h : History) : Op → History
  | .openScope name => { h with table := (h.table.openScope name).2 }
  | .moveTo scope => { h with table := h.table.moveTo scope }
  | .newSymbol name details scope position =>
    let (symbol, table) := h.table.newSymbol name details scope position
    { h with table, made := h.made ++ [symbol] }
  | .bind symbol =>
    match h.table.bind symbol with
    | .ok table => { h with table, bound := h.bound ++ [(h.table.current, symbol)] }
    | .error _ => h

def run (h : History) (ops : List Op) : History := ops.foldl next h

inductive Reachable : History → Prop
  | empty (tag : Nat) : Reachable (.empty tag)
  | system (tag : Nat) : Reachable (.system tag)
  | next {h op} (hr : Reachable h) (he : op.isEnabled h.table = true) : Reachable (h.next op)

def allows (h : History) : List Op → Bool
  | [] => true
  | op :: rest => op.isEnabled h.table && (h.next op).allows rest

theorem Reachable.run {ops : List Op} : ∀ {h : History}, h.Reachable → h.allows ops = true →
    (h.run ops).Reachable := by
  induction ops with
  | nil => exact fun hr _ => hr
  | cons op rest ih =>
    intro h hr ha
    rw [allows, Bool.and_eq_true] at ha
    exact ih (hr.next ha.1) ha.2

def boundTo (h : History) (scope : ScopeId) (name : String) : List Symbol :=
  (h.bound.filter fun e => e.1 == scope && e.2.name == name).map Prod.snd

structure Invariant (h : History) : Prop where
  current : h.table.current < h.table.scopes.length
  root : h.table.parent? Table.root = none
  parent : ∀ k < h.table.scopes.length, k ≠ Table.root → ∃ p < k, h.table.parent? k = some p
  overloads : ∀ k x, (h.table.members k x).length ≤ 1 ∨ ∀ b ∈ h.table.members k x, b.isMethod = true
  numbered : ∀ b ∈ h.made, b.id.table = h.table.tag ∧ b.id.number < h.table.nextSymbol
  distinct : h.made.Pairwise fun a b => a.id ≠ b.id
  order : ∀ k x, h.table.members k x = h.boundTo k x

theorem invariant_empty (tag : Nat) : (empty tag).Invariant := by
  have hmembers : ∀ k x, (Table.empty tag).members k x = [] := by
    rintro (_ | k) x <;> simp [Table.members, Table.empty]
  constructor
  · simp [empty, Table.empty, Table.root]
  · rfl
  · intro k hk hroot
    simp only [empty, Table.empty, List.length_singleton] at hk
    exact absurd (Nat.lt_one_iff.mp hk) hroot
  · intro k x
    exact Or.inl (by simp [empty, hmembers])
  · simp [empty]
  · exact List.Pairwise.nil
  · intro k x
    simp [empty, boundTo, hmembers]

theorem invariant_system (tag : Nat) : (system tag).Invariant := by
  have hsound := Table.sound_withSystem tag
  constructor
  · exact hsound.current
  · rfl
  · rintro (_ | _ | k) hk hroot
    · exact absurd rfl hroot
    · exact ⟨0, Nat.one_pos, rfl⟩
    · exact absurd hk (Nat.not_lt.mpr (Nat.le_add_left 2 k))
  · intro k x
    by_cases hk : k = 1
    · refine Or.inr fun b hb => ?_
      have hbound := (Table.bound_withSystem tag b).mp (hsound.bound_of_mem hb)
      rcases Table.mem_builtins hbound with rfl | ⟨-, -, _, _, -, hd⟩
      · have hin := (hsound.home k x _ hb).2
        rw [hk] at hin
        cases hin
      · simp [Symbol.isMethod, Symbol.kind, hd]
    · refine Or.inl ?_
      simp only [system, Table.members_withSystem, Table.builtins, Table.systemClass,
        Table.consoleRoutine, List.filter_cons, List.filter_nil, Ne.symm hk,
        beq_eq_false_iff_ne.mpr, ne_eq, not_false_eq_true, Bool.false_and, Bool.false_eq_true,
        if_false]
      split <;> simp
  · intro b hb
    exact hsound.number b ((Table.bound_withSystem tag b).mpr hb)
  · simp [system, Table.builtins, Table.systemClass, Table.consoleRoutine]
  · intro k x
    simp [system, boundTo, Table.members_withSystem, List.filter_map, Function.comp_def]

/-- A symbol that finds its name taken is a method among methods. -/
theorem overloads_bind {bound : List Symbol} {s : Symbol} (h : Table.admits bound s = true) :
    (bound ++ [s]).length ≤ 1 ∨ ∀ b ∈ bound ++ [s], b.isMethod = true := by
  rw [Table.admits, Bool.or_eq_true, Bool.and_eq_true, List.isEmpty_iff, List.all_eq_true] at h
  rcases h with rfl | ⟨hs, hall⟩
  · exact Or.inl (Nat.le_refl 1)
  · exact Or.inr (List.forall_mem_append.mpr ⟨hall, List.forall_mem_singleton.mpr hs⟩)

theorem Invariant.bind {h : History} (hi : h.Invariant) {s : Symbol} {u : Table}
    (hb : h.table.bind s = .ok u) :
    Invariant { h with table := u, bound := h.bound ++ [(h.table.current, s)] } := by
  have hparent := Table.parent?_of_bind hb
  have hmembers := Table.members_of_bind hb hi.current
  obtain ⟨hadmits, hu⟩ := Table.bind_ok_inv hb
  have hlen : u.scopes.length = h.table.scopes.length := by simp [hu]
  have hcur : u.current = h.table.current := by rw [hu]
  constructor
  · exact (hlen.symm ▸ hcur ▸ hi.current : u.current < u.scopes.length)
  · exact (hparent _).trans hi.root
  · intro k hk hroot
    obtain ⟨p, hp, hpar⟩ := hi.parent k (hlen ▸ hk) hroot
    exact ⟨p, hp, (hparent k).trans hpar⟩
  · intro k x
    simp only [hmembers]
    split
    · next hkx =>
      obtain ⟨rfl, rfl⟩ := hkx
      exact overloads_bind hadmits
    · exact hi.overloads k x
  · rw [hu]
    exact hi.numbered
  · exact hi.distinct
  · intro k x
    have hnew : [(h.table.current, s)].filter (fun e => e.1 == k && e.2.name == x) =
        if k = h.table.current ∧ x = s.name then [(h.table.current, s)] else [] := by
      simp only [List.filter_cons, List.filter_nil, Bool.and_eq_true, beq_iff_eq, eq_comm (a := k),
        eq_comm (a := x)]
    simp only [hmembers, boundTo, List.filter_append, List.map_append, hnew]
    split
    · rw [hi.order]
      rfl
    · rw [hi.order, List.map_nil, List.append_nil]
      rfl

theorem Invariant.next {h : History} (hi : h.Invariant) {op : Op}
    (he : op.isEnabled h.table = true) : (h.next op).Invariant := by
  cases op with
  | openScope name =>
    have hlen : (h.table.openScope name).2.scopes.length = h.table.scopes.length + 1 := by
      simp [Table.openScope]
    have hroot : Table.root ≠ h.table.scopes.length := Nat.ne_of_lt (Nat.zero_lt_of_lt hi.current)
    constructor
    · exact hlen ▸ Nat.lt_succ_of_lt hi.current
    · rw [History.next, Table.parent?_openScope, if_neg hroot]
      exact hi.root
    · intro k hk hne
      rw [History.next, Table.parent?_openScope]
      rw [History.next, hlen] at hk
      split
      · next hnew => exact ⟨h.table.current, hnew ▸ hi.current, rfl⟩
      · next hold => exact hi.parent k (Nat.lt_of_le_of_ne (Nat.le_of_lt_succ hk) hold) hne
    · simpa [History.next] using hi.overloads
    · exact hi.numbered
    · exact hi.distinct
    · simpa [History.next, boundTo] using hi.order
  | moveTo scope =>
    exact ⟨of_decide_eq_true he, hi.root, hi.parent, hi.overloads, hi.numbered, hi.distinct,
      hi.order⟩
  | newSymbol name details scope position =>
    refine ⟨hi.current, hi.root, hi.parent, hi.overloads, ?_, ?_, hi.order⟩
    · refine List.forall_mem_append.mpr ⟨fun b hb => ?_, List.forall_mem_singleton.mpr ?_⟩
      · exact ⟨(hi.numbered b hb).1, Nat.lt_succ_of_lt (hi.numbered b hb).2⟩
      · exact ⟨rfl, Nat.lt_succ_self _⟩
    · refine List.pairwise_append.mpr ⟨hi.distinct, List.pairwise_singleton _ _, ?_⟩
      intro a ha b hb hid
      rw [List.mem_singleton.mp hb] at hid
      exact Nat.ne_of_lt (hi.numbered a ha).2 (congrArg SymbolId.number hid)
  | bind symbol =>
    unfold History.next
    dsimp only
    split
    · next hb => exact hi.bind hb
    · exact hi

theorem Reachable.invariant {h : History} (hr : h.Reachable) : h.Invariant := by
  induction hr with
  | empty tag => exact invariant_empty tag
  | system tag => exact invariant_system tag
  | next _ he ih => exact ih.next he

theorem Invariant.parent_lt {h : History} (hi : h.Invariant) {j p : ScopeId}
    (hp : h.table.parent? j = some p) : p < j := by
  have hj : j < h.table.scopes.length := Nat.lt_of_not_le fun hge => by
    simp [Table.parent?, List.getElem?_eq_none hge] at hp
  have hroot : j ≠ Table.root := by
    rintro rfl
    rw [hi.root] at hp
    cases hp
  obtain ⟨q, hq, hparent⟩ := hi.parent j hj hroot
  obtain rfl := Option.some.inj (hp.symm.trans hparent)
  exact hq

theorem next_of_clash {h : History} {s : Symbol} {c : Clash} (hc : h.table.bind s = .error c) :
    h.next (.bind s) = h := by
  simp only [next, hc]

end History

open Table (Op)

theorem Table.bind_clashes_iff {t : Table} {s : Symbol} {c : Clash} :
    t.bind s = .error c ↔ c = ⟨s.name, s.kind⟩ ∧ t.members t.current s.name ≠ [] ∧
      ¬ (s.isMethod = true ∧ ∀ b ∈ t.members t.current s.name, b.isMethod = true) := by
  rw [bind_eq_error_iff, and_comm]
  refine and_congr_right fun _ => ?_
  rw [admits, Bool.or_eq_false_iff, List.isEmpty_eq_false_iff]
  refine and_congr_right fun _ => ?_
  rw [← Bool.not_eq_true, Bool.and_eq_true, List.all_eq_true]

/-- Every table that can be reached is in order. Its current scope exists, scopes lie in scopes with
smaller numbers, only methods share a name, symbols have numbers of their own, and a name is bound
to what was bound to it, oldest first. A symbol clashes exactly if its name is taken and not all
concerned are methods, and then nothing that is looked up later comes out differently. -/
theorem reachable_table_in_order {h : History} (hr : h.Reachable) :
    h.table.current < h.table.scopes.length ∧
      (∀ k < h.table.scopes.length, k ≠ Table.root → ∃ p < k, h.table.parent? k = some p) ∧
      (∀ k x, (h.table.members k x).length ≤ 1 ∨
        ∀ b ∈ h.table.members k x, b.isMethod = true) ∧
      h.made.Pairwise (fun a b => a.id ≠ b.id) ∧
      (∀ k x, h.table.members k x = h.boundTo k x) ∧
      ∀ s c, (h.table.bind s = .error c ↔ c = ⟨s.name, s.kind⟩ ∧
          h.table.members h.table.current s.name ≠ [] ∧
          ¬ (s.isMethod = true ∧
            ∀ b ∈ h.table.members h.table.current s.name, b.isMethod = true)) ∧
        (h.table.bind s = .error c → ∀ later : List Op,
          let after := (h.run (.bind s :: later)).table
          let without := (h.run later).table
          (∀ x, after.visible x = without.visible x) ∧
            (∀ k x, after.visibleFrom k x = without.visibleFrom k x) ∧
            (∀ x kind, after.localsOf x kind = without.localsOf x kind) ∧
            ∀ k x, after.members k x = without.members k x) := by
  have hi := hr.invariant
  refine ⟨hi.current, hi.parent, hi.overloads, hi.distinct, hi.order, fun s c =>
    ⟨Table.bind_clashes_iff, fun hc later => ?_⟩⟩
  have hrun : h.run (.bind s :: later) = h.run later := by
    rw [History.run, List.foldl_cons, History.next_of_clash hc]
    rfl
  simp [hrun]

namespace Sample

def routine (number : Nat) (name : String) (scope : ScopeId) : Symbol :=
  ⟨⟨3, number⟩, name, 2, some scope, .null, .method [] (.keyword .void .null) [] ["Main"] none⟩

/-- A class with two methods of one name. A variable of that name clashes with them in their class;
outside, where they were not made, one of them is bound before it and the other one after. -/
def operations : List Op :=
  [.openScope "Main", .newSymbol "Main" (.cls ["Main"] [] false) (some 2) .null,
   .bind ⟨⟨3, 5⟩, "Main", 0, some 2, .null, .cls ["Main"] [] false⟩, .moveTo 2,
   .openScope "f", .newSymbol "f" (routine 6 "f" 3).details (some 3) .null, .bind (routine 6 "f" 3),
   .openScope "f", .newSymbol "f" (routine 7 "f" 4).details (some 4) .null, .bind (routine 7 "f" 4),
   .newSymbol "f" (.var (.keyword .int .null) (.slot 0)) none .null,
   .bind ⟨⟨3, 8⟩, "f", 2, none, .null, .var (.keyword .int .null) (.slot 0)⟩,
   .moveTo 0, .bind (routine 7 "f" 4),
   .bind ⟨⟨3, 8⟩, "f", 2, none, .null, .var (.keyword .int .null) (.slot 0)⟩,
   .bind (routine 6 "f" 3), .moveTo 4]

end Sample

theorem reachable_table_in_order_sample : ∃ h : History, h.Reachable ∧
    h.made.map (·.id.number) = [0, 1, 2, 3, 4, 5, 6, 7, 8] ∧ h.table.current = 4 ∧
    (List.range 5).map (fun k => (h.table.members k "f").map (·.id.number)) =
      [[7, 6], [], [6, 7], [], []] ∧
    h.table.current < h.table.scopes.length ∧
    (∀ k < h.table.scopes.length, k ≠ Table.root → ∃ p < k, h.table.parent? k = some p) ∧
    (∀ k x, (h.table.members k x).length ≤ 1 ∨ ∀ b ∈ h.table.members k x, b.isMethod = true) ∧
    h.made.Pairwise (fun a b => a.id ≠ b.id) ∧
    ∀ k x, h.table.members k x = h.boundTo k x := by
  have hr : ((History.system 3).run Sample.operations).Reachable :=
    (History.Reachable.system 3).run (by decide +kernel)
  obtain ⟨hcurrent, hparent, hoverloads, hdistinct, horder, -⟩ := reachable_table_in_order hr
  exact ⟨_, hr, by decide +kernel, by decide +kernel, by decide +kernel, hcurrent, hparent,
    hoverloads, hdistinct, horder⟩

end ClassLang
