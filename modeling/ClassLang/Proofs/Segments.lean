import ClassLang.Proofs.Overloads

/-! What dotted names mean, segment by segment. A name means a symbol exactly if each of its
segments means one symbol and no more, and otherwise the first segment that does not is reported,
once. So a written type means `error` exactly if it is reported. -/
namespace ClassLang

theorem Symbol.memberScope?_eq_some_iff {s : Symbol} {k : ScopeId} :
    s.memberScope? = some k ↔ s.kind = .cls ∧ s.scope = some k := by
  unfold Symbol.memberScope?
  cases s.kind <;> simp

namespace Table

theorem Nearest.unique {t : Table} {name : String} {k : ScopeId} {found found' : List Symbol}
    (h : t.Nearest name k found) (h' : t.Nearest name k found') : found = found' := by
  induction h with
  | here hk =>
    cases h' with
    | here => rfl
    | outward hk' | nowhere hk' => exact absurd hk' hk
  | outward hk hp _ ih =>
    cases h' with
    | here hk' => exact absurd hk hk'
    | outward _ hp' hn =>
      cases hp.symm.trans hp'
      exact ih hn
    | nowhere _ hp' => cases hp.symm.trans hp'
  | nowhere hk hp =>
    cases h' with
    | here hk' => exact absurd hk hk'
    | outward _ hp' => cases hp.symm.trans hp'
    | nowhere => rfl

theorem Nearest.lists {t : Table} {name : String} {k : ScopeId} {found : List Symbol} {b : Symbol}
    (h : t.Nearest name k found) (hb : b ∈ found) : t.Lists b := by
  induction h with
  | here => exact ⟨_, name, hb⟩
  | outward _ _ _ ih => exact ih hb
  | nowhere => cases hb

theorem InOrder.nearest_iff {t : Table} (h : t.InOrder) {scope : ScopeId} {name : String}
    {found : List Symbol} : t.Nearest name scope found ↔ t.visibleFrom scope name = found := by
  constructor
  · exact (h.nearest scope name).unique
  · rintro rfl
    exact h.nearest scope name

end Table

namespace Typing

/-- The symbols that a segment can mean. The first segment is looked up outward; after a class,
only the members of that class count, and what is no class has none. -/
inductive Choices (t : Table) (scope : ScopeId) (x : Name) : Option Symbol → List Symbol → Prop
  | outward {found : List Symbol} (h : t.Nearest x.text scope found) :
    Choices t scope x none found
  | member {c : Symbol} {k : ScopeId} (hc : c.kind = .cls) (hk : c.scope = some k) :
    Choices t scope x (some c) (t.members k x.text)

inductive Denotes (t : Table) (scope : ScopeId) : Option Symbol → List Name → List Symbol → Prop
  | nil {owner : Option Symbol} : Denotes t scope owner [] []
  | cons {owner : Option Symbol} {x : Name} {r : Symbol} {xs : List Name} {rs : List Symbol}
    (hx : Choices t scope x owner [r]) (h : Denotes t scope (some r) xs rs) :
    Denotes t scope owner (x :: xs) (r :: rs)

/-- What is reported of a segment that does not mean exactly one symbol, behind the segments
`before` that do. Segments without a place of their own are reported at `fallback`. -/
inductive Blocked (t : Table) (scope : ScopeId) (fallback : Position) (before : List Name)
    (x : Name) : Option Symbol → Diagnostic → Prop
  | notAClass {b : Symbol} (hb : b.kind ≠ .cls) : Blocked t scope fallback before x (some b)
      ⟨.unsupported s!"member access on `{b.name}`", x.span.start⟩
  | unclear {owner : Option Symbol} {found : List Symbol} (hf : Choices t scope x owner found)
    (hn : found.length ≠ 1) : Blocked t scope fallback before x owner
      ⟨.undeclared (Text.dotted (before ++ [x])),
        if x.span.start = .null then fallback else x.span.start⟩

def Means (t : Table) (scope : ScopeId) (segments : List Name) (r : Symbol) : Prop :=
  ∃ rs, Denotes t scope none segments rs ∧ rs.getLast? = some r

/-- A name fails at its first segment that does not mean exactly one symbol. -/
def FailsWith (t : Table) (scope : ScopeId) (fallback : Position) (segments : List Name)
    (d : Diagnostic) : Prop :=
  ∃ before x after rs, segments = before ++ x :: after ∧ Denotes t scope none before rs ∧
    Blocked t scope fallback before x rs.getLast? d

section

variable {t : Table} {scope : ScopeId} {fallback : Position} {x : Name}

theorem choices_none_iff (ht : t.InOrder) {found : List Symbol} :
    Choices t scope x none found ↔ t.visibleFrom scope x.text = found := by
  constructor
  · rintro ⟨h⟩
    exact ht.nearest_iff.mp h
  · exact fun h => .outward (ht.nearest_iff.mpr h)

theorem choices_some_iff {c : Symbol} {found : List Symbol} :
    Choices t scope x (some c) found ↔
      ∃ k, c.memberScope? = some k ∧ t.members k x.text = found := by
  constructor
  · rintro (_ | ⟨hc, hk⟩)
    exact ⟨_, Symbol.memberScope?_eq_some_iff.mpr ⟨hc, hk⟩, rfl⟩
  · rintro ⟨k, hk, rfl⟩
    obtain ⟨hc, hk⟩ := Symbol.memberScope?_eq_some_iff.mp hk
    exact .member hc hk

theorem Choices.unique {owner : Option Symbol} {found found' : List Symbol}
    (h : Choices t scope x owner found) (h' : Choices t scope x owner found') : found = found' := by
  cases h with
  | outward h =>
    obtain ⟨h'⟩ := h'
    exact h.unique h'
  | member hc hk =>
    obtain _ | ⟨-, hk'⟩ := h'
    cases hk.symm.trans hk'
    rfl

theorem Choices.lists {owner : Option Symbol} {found : List Symbol} {b : Symbol}
    (h : Choices t scope x owner found) (hb : b ∈ found) : t.Lists b := by
  cases h with
  | outward h => exact h.lists hb
  | member => exact ⟨_, _, hb⟩

theorem Blocked.not_choices {before : List Name} {owner : Option Symbol} {d : Diagnostic}
    (h : Blocked t scope fallback before x owner d) (r : Symbol) :
    ¬ Choices t scope x owner [r] := by
  intro hr
  cases h with
  | notAClass hb =>
    obtain ⟨k, hk, -⟩ := choices_some_iff.mp hr
    exact hb (Symbol.memberScope?_eq_some_iff.mp hk).1
  | unclear hf hn =>
    rw [hf.unique hr] at hn
    exact hn rfl

theorem Blocked.unique {before : List Name} {owner : Option Symbol} {d d' : Diagnostic}
    (h : Blocked t scope fallback before x owner d)
    (h' : Blocked t scope fallback before x owner d') : d = d' := by
  have hclass : ∀ {b : Symbol} {found : List Symbol}, b.kind ≠ .cls →
      ¬ Choices t scope x (some b) found := fun hb hf => by
    obtain ⟨k, hk, -⟩ := choices_some_iff.mp hf
    exact hb (Symbol.memberScope?_eq_some_iff.mp hk).1
  cases h with
  | notAClass hb =>
    cases h' with
    | notAClass => rfl
    | unclear hf => exact absurd hf (hclass hb)
  | unclear hf =>
    cases h' with
    | notAClass hb => exact absurd hf (hclass hb)
    | unclear => rfl

def resolveRest (t : Table) (scope : ScopeId) (fallback : Position) (before : List Name) :
    Option Symbol → List Name → Option (Except Diagnostic Symbol)
  | none, rest => resolvePath t scope fallback rest
  | some owner, rest => some (resolveMembers t fallback before owner rest)

/-- A segment is passed if it means one symbol, and is reported otherwise. -/
theorem resolveRest_cons (ht : t.InOrder) (scope : ScopeId) (fallback : Position)
    {before : List Name} {owner : Option Symbol} (ho : ∀ c, owner = some c → t.Lists c)
    (hb : owner = none → before = []) (x : Name) (rest : List Name) :
    (∃ r, Choices t scope x owner [r] ∧
      resolveRest t scope fallback before owner (x :: rest) =
        resolveRest t scope fallback (before ++ [x]) (some r) rest) ∨
    ∃ d, Blocked t scope fallback before x owner d ∧
      resolveRest t scope fallback before owner (x :: rest) = some (.error d) := by
  have hunclear : ∀ {found : List Symbol}, (∀ r, found = [r] → False) → found.length ≠ 1 :=
    fun hf hn => by
      obtain ⟨r, hr⟩ := List.length_eq_one_iff.mp hn
      exact hf r hr
  cases owner with
  | none =>
    obtain rfl := hb rfl
    have hx : Choices t scope x none (t.visibleFrom scope x.text) := (choices_none_iff ht).mpr rfl
    simp only [resolveRest, resolvePath]
    split
    · next r hf => exact Or.inl ⟨r, hf ▸ hx, rfl⟩
    · next hf => exact Or.inr ⟨_, .unclear hx (hunclear hf), rfl⟩
  | some c =>
    simp only [resolveRest, resolveMembers]
    split
    · next hk =>
      refine Or.inr ⟨_, .notAClass fun hc => ?_, rfl⟩
      -- A class of the table has a scope, so its members would have been looked at.
      obtain ⟨j, y, hmem⟩ := ho c rfl
      obtain ⟨k, hs⟩ := Option.isSome_iff_exists.mp (ht.opened j y c hmem hc)
      rw [Symbol.memberScope?_eq_some_iff.mpr ⟨hc, hs⟩] at hk
      cases hk
    · next k hk =>
      have hx : Choices t scope x (some c) (t.members k x.text) :=
        choices_some_iff.mpr ⟨k, hk, rfl⟩
      split
      · next r hf => exact Or.inl ⟨r, hf ▸ hx, rfl⟩
      · next hf => exact Or.inr ⟨_, .unclear hx (hunclear hf), rfl⟩

theorem getLast?_cons_or (s : Symbol) (rs : List Symbol) (owner : Option Symbol) :
    (s :: rs).getLast?.or owner = rs.getLast?.or (some s) := by
  rw [List.getLast?_cons]
  cases rs.getLast? <;> rfl

/-- A name means a symbol if each segment that is left does. -/
theorem resolveRest_ok_iff (ht : t.InOrder) (scope : ScopeId) (fallback : Position)
    {r : Symbol} (rest : List Name) :
    ∀ (before : List Name) (owner : Option Symbol), (∀ c, owner = some c → t.Lists c) →
      (owner = none → before = []) →
      (resolveRest t scope fallback before owner rest = some (.ok r) ↔
        ∃ rs, Denotes t scope owner rest rs ∧ rs.getLast?.or owner = some r) := by
  induction rest with
  | nil =>
    intro before owner _ _
    constructor
    · intro h
      refine ⟨[], .nil, ?_⟩
      cases owner with
      | none => cases h
      | some c =>
        cases h
        rfl
    · rintro ⟨rs, hd, hlast⟩
      cases hd
      cases owner with
      | none => cases hlast
      | some c =>
        cases hlast
        rfl
  | cons x rest ih =>
    intro before owner ho hb
    rcases resolveRest_cons ht scope fallback ho hb x rest with ⟨s, hs, heq⟩ | ⟨d, hd, heq⟩
    · have hlists : ∀ c, some s = some c → t.Lists c := by
        rintro c ⟨⟩
        exact hs.lists List.mem_cons_self
      rw [heq, ih _ _ hlists (by simp)]
      constructor
      · rintro ⟨rs, hrs, hlast⟩
        rw [← getLast?_cons_or s rs owner] at hlast
        exact ⟨s :: rs, .cons hs hrs, hlast⟩
      · rintro ⟨rs, hrs, hlast⟩
        cases hrs with
        | cons hs' hrs =>
          cases hs.unique hs'
          rw [getLast?_cons_or] at hlast
          exact ⟨_, hrs, hlast⟩
    · rw [heq]
      constructor
      · intro h
        cases h
      · rintro ⟨rs, hrs, -⟩
        cases hrs with
        | cons hs => exact absurd hs (hd.not_choices _)

theorem resolveRest_error_iff (ht : t.InOrder) (scope : ScopeId) (fallback : Position)
    {d : Diagnostic} (rest : List Name) :
    ∀ (before : List Name) (owner : Option Symbol), (∀ c, owner = some c → t.Lists c) →
      (owner = none → before = []) →
      (resolveRest t scope fallback before owner rest = some (.error d) ↔
        ∃ passed x after rs, rest = passed ++ x :: after ∧ Denotes t scope owner passed rs ∧
          Blocked t scope fallback (before ++ passed) x (rs.getLast?.or owner) d) := by
  induction rest with
  | nil =>
    intro before owner _ _
    constructor
    · intro h
      cases owner <;> cases h
    · rintro ⟨passed, x, after, rs, h, -⟩
      simp at h
  | cons x rest ih =>
    intro before owner ho hb
    rcases resolveRest_cons ht scope fallback ho hb x rest with ⟨s, hs, heq⟩ | ⟨d', hd, heq⟩
    · have hlists : ∀ c, some s = some c → t.Lists c := by
        rintro c ⟨⟩
        exact hs.lists List.mem_cons_self
      rw [heq, ih _ _ hlists (by simp)]
      constructor
      · rintro ⟨passed, y, after, rs, rfl, hrs, hy⟩
        rw [← getLast?_cons_or s rs owner, List.append_assoc] at hy
        exact ⟨x :: passed, y, after, s :: rs, rfl, .cons hs hrs, hy⟩
      · rintro ⟨passed, y, after, rs, hsplit, hrs, hy⟩
        cases hrs with
        | nil =>
          cases hsplit
          exact absurd hs (hy.not_choices s)
        | cons hs' hrs =>
          cases hsplit
          cases hs.unique hs'
          rw [getLast?_cons_or, List.append_cons] at hy
          exact ⟨_, y, after, _, rfl, hrs, hy⟩
    · rw [heq]
      constructor
      · rintro ⟨⟩
        refine ⟨[], x, rest, [], rfl, .nil, ?_⟩
        rw [List.append_nil]
        exact hd
      · rintro ⟨passed, y, after, rs, hsplit, hrs, hy⟩
        cases hrs with
        | nil =>
          cases hsplit
          rw [List.append_nil] at hy
          rw [hd.unique hy]
        | cons hs hrs =>
          cases hsplit
          exact absurd hs (hd.not_choices _)

theorem resolvePath_ok_iff (ht : t.InOrder) {segments : List Name} {r : Symbol} :
    resolvePath t scope fallback segments = some (.ok r) ↔ Means t scope segments r := by
  simpa [resolveRest, Means] using
    resolveRest_ok_iff ht scope fallback segments [] none (by simp) fun _ => rfl

theorem resolvePath_error_iff (ht : t.InOrder) {segments : List Name} {d : Diagnostic} :
    resolvePath t scope fallback segments = some (.error d) ↔
      FailsWith t scope fallback segments d := by
  simpa [resolveRest, FailsWith] using
    resolveRest_error_iff ht scope fallback segments [] none (by simp) fun _ => rfl

theorem means_or_fails (ht : t.InOrder) (scope : ScopeId) (fallback : Position)
    {segments : List Name} (h : segments ≠ []) :
    (∃ r, Means t scope segments r) ∨ ∃ d, FailsWith t scope fallback segments d := by
  have hne : resolvePath t scope fallback segments ≠ none := resolvePath_ne_none h
  obtain ⟨answer, ha⟩ := Option.ne_none_iff_exists'.mp hne
  cases answer with
  | ok r => exact Or.inl ⟨r, (resolvePath_ok_iff ht).mp ha⟩
  | error d => exact Or.inr ⟨d, (resolvePath_error_iff ht).mp ha⟩

/-- Any type but a name without segments is reported exactly if it means nothing. -/
theorem resolveType_eq_error_iff {type : TypeExpr} (hw : type.isWellFormed = true) :
    (resolveType t scope type).1 = .error ↔ ∃ d, (resolveType t scope type).2 = some d := by
  cases type with
  | keyword word span => cases word <;> simp [resolveType, Ty.ofKeyword]
  | named segments span =>
    have hne : resolvePath t scope span.start segments ≠ none := by
      refine resolvePath_ne_none fun hnil => ?_
      simp [TypeExpr.isWellFormed, hnil] at hw
    unfold resolveType
    dsimp only
    split
    · next hnone => exact absurd hnone hne
    · simp
    · split <;> simp
  | array element span => simp [resolveType]
  | generic base args span => simp [resolveType]

theorem resolve_eq_error_iff (s : State) {type : TypeExpr} (hw : type.isWellFormed = true) :
    ((s.resolve t scope type).1 = .error ↔ ∃ d, (s.resolve t scope type).2 = s.push d) ∧
      ((s.resolve t scope type).1 ≠ .error → (s.resolve t scope type).2 = s) := by
  have hpush : ∀ d, s.push d ≠ s := fun d h => by
    have hlength := congrArg (fun s => s.diagnostics.length) h
    simp [State.push] at hlength
  have hiff : (resolveType t scope type).1 = .error ↔ _ := resolveType_eq_error_iff hw
  unfold State.resolve
  rcases hr : resolveType t scope type with ⟨T, _ | d⟩
  · rw [hr] at hiff
    refine ⟨⟨fun he => ?_, fun hpushed => ?_⟩, fun _ => rfl⟩
    · obtain ⟨d, hd⟩ := hiff.mp he
      cases hd
    · obtain ⟨d, hd⟩ := hpushed
      exact absurd hd.symm (hpush d)
  · rw [hr] at hiff
    have he : T = .error := hiff.mpr ⟨d, rfl⟩
    exact ⟨⟨fun _ => ⟨d, rfl⟩, fun _ => he⟩, fun hne => absurd he hne⟩

theorem bindName_of_means (ht : t.InOrder) (method : Option Symbol) (entry : Option Nat)
    {n : DottedName} (hn : n.symbol = none) {r : Symbol} (hr : Means t scope n.segments r)
    (s : State) : bindName ⟨t, scope, method, entry⟩ n s =
      ⟨{ n with symbol := some r }, .ok (some r), s⟩ := by
  have hpath : resolvePath t scope n.span.start n.segments = some (.ok r) :=
    (resolvePath_ok_iff ht).mpr hr
  simp [bindName, hpath, fillSlot, hn]

theorem bindName_of_failsWith (ht : t.InOrder) (method : Option Symbol) (entry : Option Nat)
    {n : DottedName} {d : Diagnostic} (hd : FailsWith t scope n.span.start n.segments d)
    (s : State) : bindName ⟨t, scope, method, entry⟩ n s = ⟨n, .ok none, s.push d⟩ := by
  have hpath : resolvePath t scope n.span.start n.segments = some (.error d) :=
    (resolvePath_error_iff ht).mpr hd
  simp [bindName, hpath]

end

end Typing

open Typing

/-- A name has an answer, and it is the symbol that the name means or the one report of where it
fails. The report is added to those there are, and nothing is added for a name that means a symbol
or for a type that has a meaning. -/
theorem names_resolve_exactly {t : Table} (ht : t.Produced) (scope : ScopeId) :
    (∀ (fallback : Position) (segments : List Name), segments ≠ [] →
      (∀ r, resolvePath t scope fallback segments = some (.ok r) ↔ Means t scope segments r) ∧
      (∀ d, resolvePath t scope fallback segments = some (.error d) ↔
        FailsWith t scope fallback segments d) ∧
      ((∃ r, Means t scope segments r) ∨ ∃ d, FailsWith t scope fallback segments d)) ∧
    (∀ (method : Option Symbol) (entry : Option Nat) (n : DottedName) (s : State),
      n.symbol = none →
      (∀ r, Means t scope n.segments r → bindName ⟨t, scope, method, entry⟩ n s =
        ⟨{ n with symbol := some r }, .ok (some r), s⟩) ∧
      ∀ d, FailsWith t scope n.span.start n.segments d →
        bindName ⟨t, scope, method, entry⟩ n s = ⟨n, .ok none, s.push d⟩) ∧
    ∀ (type : TypeExpr) (s : State), type.isWellFormed = true →
      ((s.resolve t scope type).1 = .error ↔ ∃ d, (s.resolve t scope type).2 = s.push d) ∧
      ((s.resolve t scope type).1 ≠ .error → (s.resolve t scope type).2 = s) := by
  have horder := ht.inOrder
  refine ⟨fun fallback segments hne => ⟨fun r => resolvePath_ok_iff horder,
    fun d => resolvePath_error_iff horder, means_or_fails horder scope fallback hne⟩,
    fun method entry n s hn => ⟨fun r hr => bindName_of_means horder method entry hn hr s,
      fun d hd => bindName_of_failsWith horder method entry hd s⟩,
    fun type s hw => resolve_eq_error_iff s hw⟩

theorem Sample.path_eq_error {answer : Option (Except Diagnostic Symbol)} {d : Diagnostic}
    (h : answer.map (Except.map Symbol.name) = some (.error d)) : answer = some (.error d) := by
  obtain ⟨found, rfl, hfound⟩ := Option.map_eq_some_iff.mp h
  cases found with
  | error e =>
    cases hfound
    rfl
  | ok r => cases hfound

theorem Sample.path_eq_ok {answer : Option (Except Diagnostic Symbol)} {name : String}
    (h : answer.map (Except.map Symbol.name) = some (.ok name)) :
    ∃ r, r.name = name ∧ answer = some (.ok r) := by
  obtain ⟨found, rfl, hfound⟩ := Option.map_eq_some_iff.mp h
  cases found with
  | error e => cases hfound
  | ok r =>
    cases hfound
    exact ⟨r, rfl, rfl⟩

open Sample in
/-- A member of a nested class, a name with overloads, a member of a field, and a class that is
looked for inside itself. -/
theorem names_resolve_exactly_sample : registered.Produced ∧
    (∃ r, r.name = "next" ∧ Means registered 3 (Text.segments "Tally.Cell.next") r) ∧
    FailsWith registered 3 .null (Text.segments "Tally.add") ⟨.undeclared "Tally.add", .null⟩ ∧
    FailsWith registered 3 .null (Text.segments "Tally.own.x")
      ⟨.unsupported "member access on `own`", .null⟩ ∧
    FailsWith registered 3 .null (Text.segments "Cell.Cell.next")
      ⟨.undeclared "Cell.Cell", .null⟩ := by
  have hexact := fun text => (names_resolve_exactly registered_produced 3).1 .null
    (Text.segments text)
  refine ⟨registered_produced, ?_, ?_, ?_, ?_⟩
  · obtain ⟨r, hname, hr⟩ : ∃ r, r.name = "next" ∧
        resolvePath registered 3 .null (Text.segments "Tally.Cell.next") = some (.ok r) :=
      path_eq_ok (by decide +kernel)
    exact ⟨r, hname, ((hexact "Tally.Cell.next" (by decide)).1 r).mp hr⟩
  · exact ((hexact "Tally.add" (by decide)).2.1 _).mp (path_eq_error (by decide +kernel))
  · exact ((hexact "Tally.own.x" (by decide)).2.1 _).mp (path_eq_error (by decide +kernel))
  · exact ((hexact "Cell.Cell.next" (by decide)).2.1 _).mp (path_eq_error (by decide +kernel))

end ClassLang
