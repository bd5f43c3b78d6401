import ClassLang.Proofs.Admitted
import ClassLang.Proofs.Frame
import ClassLang.Proofs.Places.Bare
import ClassLang.Proofs.Resolved

/-! Types as they are spelled. Two types that are spelled alike differ in their places only, and
from one scope of one table they mean the same and fail in the same way. So a method that is turned
away for its parameters could not have been told apart from the method that has them already. -/
namespace ClassLang

namespace TypeExpr

theorem same_equivalence : Equivalence fun a b : TypeExpr => a.same b = true where
  refl := same_refl
  symm h := (same_iff _ _).mpr ((same_iff _ _).mp h).symm
  trans h k := (same_iff _ _).mpr (((same_iff _ _).mp h).trans ((same_iff _ _).mp k))

theorem sameAll_equivalence : Equivalence fun p q : List TypeExpr => sameAll p q = true where
  refl := sameAll_refl
  symm h := (sameAll_iff _ _).mpr ((sameAll_iff _ _).mp h).symm
  trans h k := (sameAll_iff _ _).mpr (((sameAll_iff _ _).mp h).trans ((sameAll_iff _ _).mp k))

end TypeExpr

namespace Typing

variable (t : Table) (k : ScopeId)

def verdict : Except Diagnostic Symbol → Except Problem Symbol
  | .ok b => .ok b
  | .error d => .error d.problem

section Names

variable (fallback fallback' : Position)

theorem verdict_undeclared (before : List Name) (segment : Name) :
    verdict (.error (undeclared fallback' (before.map Name.bare) segment.bare)) =
      verdict (.error (undeclared fallback before segment)) := by
  have hdotted := Text.dotted_bare (before ++ [segment])
  rw [List.map_append, List.map_singleton] at hdotted
  simp only [verdict, undeclared, hdotted]

theorem verdict_resolveMembers (rest : List Name) : ∀ (before : List Name) (owner : Symbol),
    verdict (resolveMembers t fallback' (before.map Name.bare) owner (rest.map Name.bare)) =
      verdict (resolveMembers t fallback before owner rest) := by
  induction rest with
  | nil => exact fun _ _ => rfl
  | cons segment rest ih =>
    intro before owner
    rw [List.map_cons, resolveMembers, resolveMembers]
    split
    · rfl
    · rw [Name.text_bare]
      split
      · next found _ => simpa using ih (before ++ [segment]) found
      · exact verdict_undeclared fallback fallback' before segment

theorem verdict_resolvePath (segments : List Name) :
    (resolvePath t k fallback' (segments.map Name.bare)).map verdict =
      (resolvePath t k fallback segments).map verdict := by
  cases segments with
  | nil => rfl
  | cons segment rest =>
    rw [List.map_cons, resolvePath, resolvePath, Name.text_bare]
    split
    · next found _ =>
      exact congrArg some (verdict_resolveMembers t fallback fallback' rest [segment] found)
    · exact congrArg some (verdict_undeclared fallback fallback' [] segment)

end Names

/-- What a type means, and what is wrong with it, does not depend on places. -/
theorem resolveType_spelled (type : TypeExpr) :
    meaning t k type.bare = meaning t k type ∧
      (failures t k type.bare).map Diagnostic.problem =
        (failures t k type).map Diagnostic.problem := by
  cases type with
  | keyword word span => exact ⟨rfl, rfl⟩
  | array element span => exact ⟨rfl, rfl⟩
  | generic base args span => exact ⟨rfl, rfl⟩
  | named segments span =>
    have hpath := verdict_resolvePath t k span.start Span.null.start segments
    unfold meaning failures
    rw [TypeExpr.bare, resolveType, resolveType, Text.dotted_bare]
    generalize resolvePath t k Span.null.start (segments.map Name.bare) = x at hpath ⊢
    generalize resolvePath t k span.start segments = y at hpath ⊢
    rcases x with _ | d | b <;> rcases y with _ | d' | b' <;>
      simp only [Option.map_none, Option.map_some, Option.some.injEq, reduceCtorEq, verdict,
        Except.error.injEq, Except.ok.injEq] at hpath
    · exact ⟨rfl, rfl⟩
    · exact ⟨rfl, congrArg (fun p => [p]) hpath⟩
    · subst hpath
      dsimp only
      split <;> exact ⟨rfl, rfl⟩

section Lists

variable {p q : List TypeExpr} (h : TypeExpr.sameAll p q = true)
include h

theorem meanings_of_sameAll : p.map (meaning t k) = q.map (meaning t k) := by
  have hspelled : ∀ types : List TypeExpr,
      (types.map TypeExpr.bare).map (meaning t k) = types.map (meaning t k) := fun types => by
    rw [List.map_map]
    exact List.map_congr_left fun type _ => (resolveType_spelled t k type).1
  rw [← hspelled p, (TypeExpr.sameAll_iff p q).mp h, hspelled q]

theorem problems_of_sameAll :
    (p.flatMap (failures t k)).map Diagnostic.problem =
      (q.flatMap (failures t k)).map Diagnostic.problem := by
  have hspelled : ∀ types : List TypeExpr,
      ((types.map TypeExpr.bare).flatMap (failures t k)).map Diagnostic.problem =
        (types.flatMap (failures t k)).map Diagnostic.problem := fun types => by
    rw [List.flatMap_map, List.map_flatMap, List.map_flatMap]
    exact congrArg types.flatMap (funext fun type => (resolveType_spelled t k type).2)
  rw [← hspelled p, (TypeExpr.sameAll_iff p q).mp h, hspelled q]

end Lists

/-- In some scope of some table, the types do not mean the same. -/
def Differ (p q : List TypeExpr) : Prop :=
  ∃ (t : Table) (k : ScopeId) (s : State), (s.resolveAll t k p).1 ≠ (s.resolveAll t k q).1

theorem Differ.not_sameAll {p q : List TypeExpr} (h : Differ p q) :
    TypeExpr.sameAll p q = false := by
  obtain ⟨t, k, s, hne⟩ := h
  rw [resolveAll_eq, resolveAll_eq] at hne
  exact Bool.eq_false_iff.mpr fun hsame => hne (meanings_of_sameAll t k hsame)

end Typing

namespace Registration

variable {path : List String} {m m' : Method} {s s' : State}

section Free

variable (hfree : (s.table.members s.table.current m.name.text).all
  (SiteKind.method (m.params.map Param.type)).overloads = true)
include hfree

/-- A method gets a symbol unless something in the current scope stands in its way: what has its
name and is no method, or a method with its parameters. -/
theorem symbol_of_registerMethod (h : registerMethod path m s = ⟨m', .ok (), s'⟩) :
    m.symbol = none ∧ m'.symbol.isSome = true := by
  unfold registerMethod at h
  dsimp only at h
  generalize hr : s.reportAll (modifierProblems m.name.text m.modifiers) m.name.span.start = r at h
  have htable : r.table = s.table := by rw [← hr]; rfl
  rw [← htable] at hfree
  split at h
  · next hany =>
    rw [all_overloads_method, hany] at hfree
    cases hfree
  · next hany =>
    split at h
    · next hd =>
      have hnot := (declare_decides hd).1.trans (all_overloads_eq_admits hany).symm
      rw [hfree] at hnot
      cases hnot
    · next b hd =>
      split at h
      · cases h
      · next slot hslot =>
        obtain ⟨hempty, rfl⟩ := fillSlot_ok hslot
        obtain ⟨m₁, _, s₁, hbody, hback⟩ := Visit.part_ok_iff.mp h
        cases hback
        rw [symbol_of_registerMethodBody hbody]
        exact ⟨hempty, rfl⟩

theorem registerMethod_adds (hc : s.table.current < s.table.scopes.length)
    (h : registerMethod path m s = ⟨m', .ok (), s'⟩) :
    ∃ b, m'.symbol = some b ∧ s'.table.members s.table.current m.name.text =
      s.table.members s.table.current m.name.text ++ [b] := by
  obtain ⟨hempty, hfilled⟩ := symbol_of_registerMethod hfree h
  obtain ⟨added, ho, hnone, hsome⟩ := registerMethod_outcome hc h
  cases ho with
  | rejected =>
    rw [hnone rfl, hempty] at hfilled
    cases hfilled
  | bound hb hname => exact ⟨_, (hsome _ rfl).2, by simp [hb.table.members, hname]⟩

end Free

/-- Types that differ stand in nobody's way. -/
theorem overloads_of_differ {b : Symbol} {params types : List TypeExpr} {returns : TypeExpr}
    {modifiers : List Modifier} {owner : List String} {routine : Option Routine}
    (hb : b.details = .method types returns modifiers owner routine)
    (h : Typing.Differ types params) : (SiteKind.method params).overloads b = true := by
  simp [SiteKind.overloads, sameParams, Symbol.isMethod, Symbol.kind, hb, h.not_sameAll]

end Registration

open Registration Typing

/-- Types are spelled alike exactly if they are equal without their places, and lists of types if
they are so one by one, at every depth. Then they mean the same from every scope of every table, and
the same problems are reported. So a method is added beside methods of its name whenever the types
of its parameters can be told from theirs anywhere. -/
theorem spelled_alike_resolved_alike :
    (∀ a b : TypeExpr, a.same b = true ↔ a.bare = b.bare) ∧
    (∀ p q : List TypeExpr,
      TypeExpr.sameAll p q = true ↔ p.map TypeExpr.bare = q.map TypeExpr.bare) ∧
    (Equivalence fun a b : TypeExpr => a.same b = true) ∧
    (Equivalence fun p q : List TypeExpr => TypeExpr.sameAll p q = true) ∧
    (∀ p q : List TypeExpr, TypeExpr.sameAll p q = true →
      ∀ (t : Table) (k : ScopeId) (s : Typing.State),
        (s.resolveAll t k p).1 = (s.resolveAll t k q).1 ∧
        ∃ ds es, (s.resolveAll t k p).2 = s.also ds ∧ (s.resolveAll t k q).2 = s.also es ∧
          ds.map Diagnostic.problem = es.map Diagnostic.problem) ∧
    ∀ (path : List String) (m m' : Method) (s s' : Registration.State),
      s.table.current < s.table.scopes.length → registerMethod path m s = ⟨m', .ok (), s'⟩ →
      (∀ b ∈ s.table.members s.table.current m.name.text,
        ∃ types returns modifiers owner routine,
          b.details = .method types returns modifiers owner routine ∧
            Differ types (m.params.map Param.type)) →
      ∃ b, m'.symbol = some b ∧ s'.table.members s.table.current m.name.text =
        s.table.members s.table.current m.name.text ++ [b] := by
  refine ⟨TypeExpr.same_iff, TypeExpr.sameAll_iff, TypeExpr.same_equivalence,
    TypeExpr.sameAll_equivalence, fun p q h t k s => ?_, fun path m m' s s' hc hrun hdiffer => ?_⟩
  · rw [resolveAll_eq, resolveAll_eq]
    exact ⟨meanings_of_sameAll t k h, _, _, rfl, rfl, problems_of_sameAll t k h⟩
  · refine registerMethod_adds (List.all_eq_true.mpr fun b hb => ?_) hc hrun
    obtain ⟨types, returns, modifiers, owner, routine, hdetails, hne⟩ := hdiffer b hb
    exact overloads_of_differ hdetails hne

namespace Sample

def spelled : List TypeExpr :=
  [.generic (.named [⟨"List", .within "a" 0 4⟩] (.within "a" 0 4))
      [.array (.keyword .int (.within "a" 5 8)) (.within "a" 5 10)] (.within "a" 0 11),
   .named [⟨"System", .within "a" 13 19⟩] (.within "a" 13 19),
   .named [⟨"System", .within "a" 21 27⟩, ⟨"No", .within "a" 28 30⟩] (.within "a" 21 30)]

def reports (types : List TypeExpr) : List Diagnostic :=
  (Typing.State.resolveAll ⟨.empty, []⟩ (.withSystem 7) 1 types).2.diagnostics

def writesClass : Method :=
  ⟨.plain "Write", [], word .void, [⟨.plain "c", .named [.plain "System"] .null, none⟩],
    some [], none⟩

end Sample

theorem spelled_alike_resolved_alike_sample :
    (TypeExpr.sameAll Sample.spelled (Sample.spelled.map TypeExpr.bare) = true ∧
      (Sample.reports Sample.spelled).map Diagnostic.problem =
        [.unsupported "generic types", .undeclared "System.No"] ∧
      (Sample.reports (Sample.spelled.map TypeExpr.bare)).map Diagnostic.problem =
        [.unsupported "generic types", .undeclared "System.No"] ∧
      Sample.reports Sample.spelled ≠ Sample.reports (Sample.spelled.map TypeExpr.bare)) ∧
    ∃ s m' s', (s.table.members 1 "Write").length = 2 ∧
      registerMethod ["System"] Sample.writesClass s = ⟨m', .ok (), s'⟩ ∧
      ∃ b, m'.symbol = some b ∧
        s'.table.members 1 "Write" = s.table.members 1 "Write" ++ [b] := by
  obtain ⟨-, -, -, -, hresolved, hadded⟩ := spelled_alike_resolved_alike
  constructor
  · have hsame : TypeExpr.sameAll Sample.spelled (Sample.spelled.map TypeExpr.bare) = true := by
      decide +kernel
    have hproblems : (Sample.reports Sample.spelled).map Diagnostic.problem =
        [.unsupported "generic types", .undeclared "System.No"] := by
      decide +kernel
    obtain ⟨-, ds, es, hds, hes, halike⟩ := hresolved _ _ hsame (.withSystem 7) 1 ⟨.empty, []⟩
    refine ⟨hsame, hproblems, ?_, by decide +kernel⟩
    rw [← hproblems, Sample.reports, Sample.reports, hds, hes]
    exact halike.symm
  · have hok : (registerMethod ["System"] Sample.writesClass
        (.start ((Table.withSystem 7).moveTo 1) [])).answer.isOk = true := by
      decide +kernel
    rcases hrun : registerMethod ["System"] Sample.writesClass
      (.start ((Table.withSystem 7).moveTo 1) []) with ⟨m', _ | ⟨⟩, s'⟩
    · rw [hrun] at hok
      cases hok
    refine ⟨_, m', s', by decide +kernel, hrun, hadded _ _ _ _ _ (by decide +kernel) hrun ?_⟩
    intro b (hb : b ∈ (Table.withSystem 7).members 1 "Write")
    have hbuiltin := (Table.bound_withSystem 7 b).mp ((Table.sound_withSystem 7).bound_of_mem hb)
    rcases Table.mem_builtins hbuiltin with rfl | ⟨-, -, param, routine, hparam, hdetails⟩
    · exact absurd ((Table.sound_withSystem 7).home _ _ _ hb).1 (by decide)
    · refine ⟨_, _, _, _, _, hdetails, .withSystem 7, 0, ⟨.empty, []⟩, fun he => ?_⟩
      have hforms := congrArg (List.map Ty.form) he
      rcases hparam with rfl | rfl
      · exact absurd hforms (by decide +kernel)
      · exact absurd hforms (by decide +kernel)

end ClassLang
