import ClassLang.Proofs.History
import Mathlib.Logic.Function.Iterate

/-! Looking names up in a table with any history. Scopes lie in older scopes, wherever the table was
when they were opened, so that every walk outward comes to the root. What it brings back is what was
bound in the first scope on its way that binds the name, and nothing that is bound beside the way or
further out. -/
namespace ClassLang

namespace Table

/-- A walk outward has a scope to look at next, or none is left; it is back with what it found; or
it has come to a scope that does not exist. -/
inductive Walk where
  | next (scope : Option ScopeId)
  | back (found : List Symbol)
  | lost

/-- One turn of a walk, which ends in the first scope that binds the name. Nothing bounds the number
of turns. -/
def Walk.turn (t : Table) (name : String) : Walk → Walk
  | .next none => .back []
  | .next (some k) =>
    match t.scopes[k]? with
    | none => .lost
    | some s => if (s.get name).isEmpty then .next s.parent else .back (s.get name)
  | .back found => .back found
  | .lost => .lost

theorem Walk.turn_next {t : Table} {k : ScopeId} (hk : k < t.scopes.length) (name : String) :
    turn t name (.next (some k)) =
      if (t.members k name).isEmpty then .next (t.parent? k) else .back (t.members k name) := by
  simp [turn, members, parent?, List.getElem?_eq_getElem hk]

namespace Chain

variable {t : Table} {k : ScopeId} {chain : List ScopeId}

theorem unique {chain' : List ScopeId} (h : t.Chain k chain) (h' : t.Chain k chain') :
    chain = chain' := by
  induction h generalizing chain' with
  | outermost hp =>
    cases h' with
    | outermost => rfl
    | inner hp' => cases hp.symm.trans hp'
  | inner hp _ ih =>
    cases h' with
    | outermost hp' => cases hp.symm.trans hp'
    | inner hp' h' =>
      cases hp.symm.trans hp'
      rw [ih h']

/-- A walk from a scope looks at one scope of its chain after the other. -/
theorem turns (h : t.Chain k chain) (hin : ∀ j ∈ chain, j < t.scopes.length) (name : String) :
    (Walk.turn t name)^[chain.length + 1] (.next (some k)) = .back (t.firstBound name chain) := by
  have hback : ∀ found n, (Walk.turn t name)^[n] (.back found) = .back found := fun found n =>
    Function.iterate_fixed rfl n
  induction h with
  | outermost hp =>
    -- One turn looks at the scope, and one more finds that there is none left.
    rw [List.length_singleton, Function.iterate_succ_apply, Function.iterate_one,
      Walk.turn_next (hin _ List.mem_cons_self), hp, firstBound]
    split <;> rfl
  | inner hp _ ih =>
    rw [List.length_cons, Function.iterate_succ_apply,
      Walk.turn_next (hin _ List.mem_cons_self), hp, firstBound]
    split
    · exact ih fun j hj => hin j (List.mem_cons_of_mem _ hj)
    · exact hback _ _

end Chain

section FirstBound

variable {t : Table} {name : String} {inner outer : List ScopeId} {k : ScopeId}

/-- Scopes that do not bind the name are passed. -/
theorem firstBound_append (h : ∀ j ∈ inner, t.members j name = []) :
    t.firstBound name (inner ++ outer) = t.firstBound name outer := by
  induction inner with
  | nil => rfl
  | cons j inner ih =>
    rw [List.forall_mem_cons] at h
    rw [List.cons_append, firstBound, h.1, ih h.2]
    rfl

theorem firstBound_eq_nil (h : ∀ j ∈ outer, t.members j name = []) :
    t.firstBound name outer = [] := by
  rw [← List.append_nil outer, firstBound_append h]
  rfl

theorem firstBound_cons (h : t.members k name ≠ []) :
    t.firstBound name (k :: outer) = t.members k name := by
  rw [firstBound, if_neg (by rwa [List.isEmpty_iff])]

/-- Nothing is found further out than a scope that binds the name. -/
theorem mem_firstBound {b : Symbol} (h : t.members k name ≠ [])
    (hb : b ∈ t.firstBound name (inner ++ k :: outer)) :
    ∃ j ∈ inner ++ [k], b ∈ t.members j name := by
  induction inner with
  | nil =>
    rw [List.nil_append, firstBound_cons h] at hb
    exact ⟨k, List.mem_singleton_self k, hb⟩
  | cons j inner ih =>
    rw [List.cons_append, firstBound] at hb
    split at hb
    · obtain ⟨i, hi, hbi⟩ := ih hb
      exact ⟨i, List.mem_cons_of_mem j hi, hbi⟩
    · exact ⟨j, List.mem_cons_self, hb⟩

end FirstBound

end Table

namespace History

open Table (Op Walk)

variable {h : History} {s : ScopeId} {chain : List ScopeId}

structure Extends (h h' : History) : Prop where
  scopes : h.table.scopes.length ≤ h'.table.scopes.length
  parent? : ∀ k < h.table.scopes.length, h'.table.parent? k = h.table.parent? k

theorem Extends.refl (h : History) : Extends h h := ⟨Nat.le_refl _, fun _ _ => rfl⟩

theorem Extends.trans {a b c : History} (h : Extends a b) (k : Extends b c) : Extends a c :=
  ⟨Nat.le_trans h.scopes k.scopes,
    fun j hj => (k.parent? j (Nat.lt_of_lt_of_le hj h.scopes)).trans (h.parent? j hj)⟩

theorem extends_next (h : History) (op : Op) : Extends h (h.next op) := by
  cases op with
  | openScope name =>
    refine ⟨by simp [next, Table.openScope], fun k hk => ?_⟩
    rw [next, Table.parent?_openScope, if_neg (Nat.ne_of_lt hk)]
  | moveTo scope => exact ⟨Nat.le_refl _, fun _ _ => rfl⟩
  | newSymbol name details scope position => exact ⟨Nat.le_refl _, fun _ _ => rfl⟩
  | bind c =>
    unfold next
    dsimp only
    split
    · next u hu =>
      refine ⟨?_, fun k _ => Table.parent?_of_bind hu k⟩
      obtain ⟨-, rfl⟩ := Table.bind_ok_inv hu
      exact Nat.le_of_eq (List.length_modify ..).symm
    · exact .refl h

theorem extends_run (ops : List Op) : ∀ h : History, Extends h (h.run ops) := by
  induction ops with
  | nil => exact .refl
  | cons op rest ih => exact fun h => (h.extends_next op).trans (ih (h.next op))

theorem Invariant.older (hi : h.Invariant) : ∀ j p, h.table.parent? j = some p → p < j :=
  fun _ _ => hi.parent_lt

theorem Invariant.lt_of_chain (hi : h.Invariant) (hs : s < h.table.scopes.length)
    (hc : h.table.Chain s chain) : ∀ k ∈ chain, k < h.table.scopes.length :=
  fun k hk => Nat.lt_of_le_of_lt (hc.le_of_mem hi.older k hk) hs

/-- Every chain ends with the root, the only scope that lies in no other. -/
theorem Invariant.getLast?_chain (hi : h.Invariant) (hs : s < h.table.scopes.length)
    (hc : h.table.Chain s chain) : chain.getLast? = some Table.root := by
  induction hc with
  | @outermost k hp =>
    by_cases hk : k = Table.root
    · rw [hk]
      rfl
    · obtain ⟨p, -, hparent⟩ := hi.parent k hs hk
      cases hp.symm.trans hparent
  | @inner k p outer hp _ ih =>
    rw [List.getLast?_cons, ih (Nat.lt_trans (hi.older k p hp) hs)]
    rfl

theorem Invariant.visibleFrom_eq (hi : h.Invariant) (hc : h.table.Chain s chain) (name : String) :
    h.table.visibleFrom s name = h.table.firstBound name chain :=
  hc.visibleFrom_eq hi.older (Nat.zero_lt_of_lt hi.current) name

/-- As long as nothing is bound in the scopes of a chain, whatever else happens, what is visible
from its innermost scope stays the same. -/
theorem visibleFrom_run (hr : h.Reachable) (hs : s < h.table.scopes.length)
    (hc : h.table.Chain s chain) {later : List Op} (ha : h.allows later = true)
    {new : List (ScopeId × Symbol)} (hnew : (h.run later).bound = h.bound ++ new)
    (hoff : ∀ e ∈ new, e.1 ∉ chain) (name : String) :
    (h.run later).table.visibleFrom s name = h.table.visibleFrom s name := by
  have hi := hr.invariant
  have hi' := (hr.run ha).invariant
  have hext := h.extends_run later
  have hc' : (h.run later).table.Chain s chain :=
    hc.congr fun j hj => hext.parent? j (hi.lt_of_chain hs hc j hj)
  rw [hi'.visibleFrom_eq hc', hi.visibleFrom_eq hc]
  refine Table.firstBound_congr fun j hj => ?_
  have hnone : new.filter (fun e => e.1 == j && e.2.name == name) = [] := by
    refine List.filter_eq_nil_iff.mpr fun e he hej => ?_
    rw [Bool.and_eq_true, beq_iff_eq] at hej
    exact hoff e he (hej.1 ▸ hj)
  rw [hi'.order, hi.order, boundTo, boundTo, hnew, List.filter_append, hnone, List.append_nil]

/-- Moving to a scope and binding a symbol there binds that symbol at most. -/
theorem bound_moveTo_bind (h : History) (k : ScopeId) (c : Symbol) :
    ∃ new, (h.run [.moveTo k, .bind c]).bound = h.bound ++ new ∧ ∀ e ∈ new, e.1 = k := by
  simp only [run, List.foldl_cons, List.foldl_nil, next]
  split
  · exact ⟨[(k, c)], rfl, by simp⟩
  · exact ⟨[], (List.append_nil _).symm, by simp⟩

end History

open Table (Op Walk)

/-- Looking a name up from a scope, in every table that can be reached. The scopes around it lead to
the root in no more steps than there are older scopes, and the walk along them ends. It brings back
what was bound to the name, oldest first, in the first of them that binds it, and nothing if none
does. So what is bound further out is hidden as soon as one of them binds the name, and a symbol
that is declared in any other scope makes no difference. -/
theorem lookup_walks_chain {h : History} (hr : h.Reachable) {s : ScopeId}
    (hs : s < h.table.scopes.length) (name : String) :
    ∃ chain, h.table.Chain s chain ∧ chain.getLast? = some Table.root ∧
      (∀ k ∈ chain, k < h.table.scopes.length) ∧ chain.length ≤ s + 1 ∧
      (Walk.turn h.table name)^[chain.length + 1] (.next (some s)) =
        .back (h.table.visibleFrom s name) ∧
      (∀ inner k outer, chain = inner ++ k :: outer → (∀ j ∈ inner, h.boundTo j name = []) →
        h.boundTo k name ≠ [] → h.table.visibleFrom s name = h.boundTo k name) ∧
      ((∀ k ∈ chain, h.boundTo k name = []) → h.table.visibleFrom s name = []) ∧
      (∀ inner k outer, chain = inner ++ k :: outer → h.boundTo k name ≠ [] →
        ∀ b ∈ h.table.visibleFrom s name, ∃ j ∈ inner ++ [k], b ∈ h.boundTo j name) ∧
      ∀ k < h.table.scopes.length, k ∉ chain → ∀ c : Symbol,
        (h.run [.moveTo k, .bind c]).table.visibleFrom s name = h.table.visibleFrom s name := by
  have hi := hr.invariant
  obtain ⟨chain, hc⟩ := Table.Chain.exists_of_older hi.older s
  have hin := hi.lt_of_chain hs hc
  have hvisible := hi.visibleFrom_eq hc name
  simp only [← hi.order]
  refine ⟨chain, hc, hi.getLast?_chain hs hc, hin, hc.length_le hi.older, ?_, ?_, ?_, ?_, ?_⟩
  · rw [hvisible]
    exact hc.turns hin name
  · rintro inner k outer rfl hinner hk
    rw [hvisible, Table.firstBound_append hinner, Table.firstBound_cons hk]
  · intro hnone
    rw [hvisible, Table.firstBound_eq_nil hnone]
  · rintro inner k outer rfl hk b hb
    exact Table.mem_firstBound hk (hvisible ▸ hb)
  · intro k hk hoff c
    have ha : h.allows [.moveTo k, .bind c] = true := by simp [History.allows, Op.isEnabled, hk]
    obtain ⟨new, hnew, hat⟩ := h.bound_moveTo_bind k c
    exact History.visibleFrom_run hr hs hc ha hnew (fun e he => hat e he ▸ hoff) name

/-- From the body of the second method, the methods of the class hide those outside, and the console
routines are bound beside the way. -/
theorem lookup_walks_chain_sample : ∃ h : History, h.Reachable ∧ h.table.scopes.length = 5 ∧
    h.table.Chain 4 [4, 2, 0] ∧
    (List.range 5).map (fun k => (h.boundTo k "f").map (·.id.number)) =
      [[7, 6], [], [6, 7], [], []] ∧
    (Walk.turn h.table "f")^[4] (.next (some 4)) = .back (h.boundTo 2 "f") ∧
    (∀ c : Symbol, (h.run [.moveTo 3, .bind c]).table.visibleFrom 4 "f" = h.boundTo 2 "f") ∧
    (h.boundTo 1 "Write").length = 2 ∧ h.table.visibleFrom 4 "Write" = [] := by
  have hr : ((History.system 3).run Sample.operations).Reachable :=
    (History.Reachable.system 3).run (by decide +kernel)
  have hlength : ((History.system 3).run Sample.operations).table.scopes.length = 5 := by
    decide +kernel
  have hchain : ((History.system 3).run Sample.operations).table.Chain 4 [4, 2, 0] :=
    .inner (by decide +kernel) (.inner (by decide +kernel) (.outermost (by decide +kernel)))
  obtain ⟨chain, hc, -, -, -, hwalk, hfirst, -, -, hoff⟩ :=
    lookup_walks_chain hr (hlength ▸ (by decide : 4 < 5)) "f"
  obtain ⟨chain', hc', -, -, -, -, -, hnone, -⟩ :=
    lookup_walks_chain hr (hlength ▸ (by decide : 4 < 5)) "Write"
  obtain rfl := hc.unique hchain
  obtain rfl := hc'.unique hchain
  have hfound := hfirst [4] 2 [0] rfl (by decide +kernel) (by decide +kernel)
  rw [hfound] at hwalk hoff
  exact ⟨_, hr, hlength, hchain, by decide +kernel, hwalk,
    hoff 3 (hlength ▸ (by decide : 3 < 5)) (by decide), by decide +kernel,
    hnone (by decide +kernel)⟩

end ClassLang
