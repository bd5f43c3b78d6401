import ClassLang.Proofs.Registered

/-! Registration builds the lexical environment of the tree: what is visible from the scope of a
method is what a reader of the tree finds, walking from the method out to the unit. -/
namespace ClassLang

/-- What a unit binds outside all its members: its class and the class `System`. -/
def ClassDecl.outermost (top : ClassDecl) (tag : Nat) (x : String) : List Symbol :=
  if top.head.name.text = x then top.head.symbol.toList
  else if x = "System" then [Table.systemClass tag]
  else []

theorem Member.isFresh_of_mem {ms : List Member} (h : Member.allFresh ms = true) {m : Member}
    (hm : m ∈ ms) : m.isFresh = true := by
  induction ms with
  | nil => cases hm
  | cons _ _ ih =>
    rw [Member.allFresh, Bool.and_eq_true] at h
    rcases List.mem_cons.mp hm with rfl | hm
    · exact h.1
    · exact ih h.2 hm

theorem Table.members_root_withSystem (tag : Nat) (x : String) :
    (withSystem tag).members root x = if x = "System" then [systemClass tag] else [] := by
  by_cases hx : x = "System"
  · subst hx
    simp [members_withSystem, builtins, systemClass, consoleRoutine, root]
  · simp [members_withSystem, builtins, systemClass, consoleRoutine, root, hx, Ne.symm hx]

/-- The scope of a settled class shows its members, and what is visible around it. -/
theorem Member.Settled.inside {t : Table} (hs : t.Sound) {outer : ScopeId} {head : ClassHead}
    {members : List Member} (h : Member.Settled t outer (.nested head members)) :
    Member.allFresh members = true ∨ head.symbol ≠ none ∧ ∃ k, Member.AllSettled t k members ∧
      ∀ x, t.visibleFrom k x =
        if allNamed x members = [] then t.visibleFrom outer x else allNamed x members := by
  rw [Member.Settled] at h
  cases hsym : head.symbol with
  | none => exact Or.inl (by simpa [hsym] using h)
  | some c =>
    rw [hsym] at h
    obtain ⟨k, -, hp, hx, hall⟩ := h
    exact Or.inr ⟨nofun, k, hall, fun x => by rw [hs.visibleFrom_eq, hp, hx]⟩

/-- A class in a settled one was passed over with all in it, or shows what the classes around it
have, from the inside out. -/
theorem ClassDecl.Encloses.settled {t : Table} (hs : t.Sound) {root : ScopeId} {top : ClassDecl}
    (ht : Member.Settled t root (.nested top.head top.members)) {c : ClassDecl}
    {outer : List ClassDecl} (h : top.Encloses (c :: outer)) :
    Member.allFresh c.members = true ∨
      top.head.symbol ≠ none ∧ ∃ k, Member.AllSettled t k c.members ∧
        ∀ x, t.visibleFrom k x = ClassDecl.visible x (t.visibleFrom root x) (c :: outer) := by
  generalize hchain : c :: outer = chain at h ⊢
  induction h generalizing c outer with
  | top =>
    cases hchain
    exact ht.inside hs
  | nested _ hm ih =>
    cases hchain
    rcases ih rfl with hfresh | ⟨htop, k, hall, hx⟩
    · have hmember := Member.isFresh_of_mem hfresh hm
      rw [Member.isFresh, Bool.and_eq_true] at hmember
      exact Or.inl hmember.2
    · rcases (hall.of_mem hm).inside hs with hfresh | ⟨-, j, hin, hj⟩
      · exact Or.inl hfresh
      · refine Or.inr ⟨htop, j, hin, fun x => ?_⟩
        rw [hj, hx]
        rfl

namespace Registration

variable {u u' : CompilationUnit} {tag : Nat} {reports : List Diagnostic} {s : State}
  {top : ClassDecl}

theorem visibleFrom_root (hf : u.isFresh = true)
    (h : registerUnit u (.withSystem tag) reports = ⟨u', .ok (), s⟩) (ht : u'.top = some top)
    (hr : top.head.symbol ≠ none) (x : String) :
    s.table.visibleFrom Table.root x = top.outermost tag x := by
  have hreg := (registerUnit_registers hf h).2.adds
  have hs := hreg.sound
  have hparent : s.table.parent? Table.root = none := hreg.parent Table.root Nat.zero_lt_two
  have hmembers : s.table.members Table.root x =
      (Table.withSystem tag).members Table.root x ++
        Member.allNamed x [.nested top.head top.members] :=
    (registerUnit_settles hf h ht).members x
  rw [Table.members_root_withSystem] at hmembers
  rw [hs.visibleFrom_eq, hparent]
  refine hmembers.trans ?_
  by_cases hx : top.head.name.text = x
  · -- a class `System` of the unit is passed over, as there is one already
    have hne : x ≠ "System" := by
      intro he
      obtain ⟨b, hb⟩ := Option.ne_none_iff_exists'.mp hr
      have hadded : b ∈ Decl.allSymbols u'.decls := by
        simp [CompilationUnit.decls, ht, ClassDecl.decls, Decl.symbols, hb]
      have hmem : ∀ a ∈ [Table.systemClass tag, b], a ∈ s.table.members Table.root x := by
        rw [hmembers]
        simp [he, Member.allNamed, Member.named, hx, hb]
      have hsystem := hmem (Table.systemClass tag) (by simp)
      have hown := hmem b (by simp)
      have heq : Table.systemClass tag = b :=
        hs.alone _ _ (hs.bound_of_mem hsystem) (hs.bound_of_mem hown)
          ((hs.home _ _ _ hsystem).2.trans (hs.home _ _ _ hown).2.symm)
          ((hs.home _ _ _ hsystem).1.trans (hs.home _ _ _ hown).1.symm) rfl
      exact absurd (hreg.range b hadded).1 (heq ▸ Nat.not_succ_le_zero 4)
    simp [ClassDecl.outermost, Member.allNamed, Member.named, hx, hne]
  · simp [ClassDecl.outermost, Member.allNamed, Member.named, hx]

end Registration

open Registration

/-- The declaration pass builds exactly the lexical environment of the tree. From the scope of a
method, a name means the first parameter or local variable of that name, or else the members of that
name of the innermost class around that has any, or else what the unit binds. -/
theorem lexical_environment {u u' : CompilationUnit} {tag : Nat} {reports : List Diagnostic}
    {s : State} (hf : u.isFresh = true)
    (h : registerUnit u (.withSystem tag) reports = ⟨u', .ok (), s⟩) {top c : ClassDecl}
    {outer : List ClassDecl} (ht : u'.top = some top) (hc : top.Encloses (c :: outer)) {m : Method}
    {b : Symbol} (hm : .method m ∈ c.members) (hb : m.symbol = some b) :
    ∃ k, b.scope = some k ∧ ∀ x,
      match VarSlot.first? x m.slots with
      | some v => ∃ p, v.symbol = some p ∧ s.table.visibleFrom k x = [p]
      | none => s.table.visibleFrom k x =
          ClassDecl.visible x (top.outermost tag x) (c :: outer) := by
  have hs := (registerUnit_registers hf h).2.adds.sound
  have htop := (registerUnit_settles hf h ht).settled.of_mem List.mem_cons_self
  rcases hc.settled hs htop with hfresh | ⟨hr, j, hall, hvisible⟩
  · have hmethod := Member.isFresh_of_mem hfresh hm
    simp [Member.isFresh, Method.isFresh, hb] at hmethod
  have hmethod := hall.of_mem hm
  rw [Member.Settled] at hmethod
  obtain ⟨k, hk, hp, hslots⟩ := hmethod b hb
  refine ⟨k, hk, fun x => ?_⟩
  have hx := hslots x
  rw [hs.visibleFrom_eq, hp]
  cases hfirst : VarSlot.first? x m.slots with
  | some v =>
    rw [hfirst] at hx
    obtain ⟨p, hvp, hkx⟩ := hx
    exact ⟨p, hvp, by simp [hkx]⟩
  | none =>
    rw [hfirst] at hx
    simp only [hx, if_true]
    rw [hvisible]
    exact congrArg (ClassDecl.visible x · _) (visibleFrom_root hf h ht hr x)

namespace Sample

/-- A parameter and a field of the inner class hide members of the outer one, and the second local
variable `v` is passed over. -/
def shadows : CompilationUnit :=
  ⟨some ⟨⟨.plain "Outer", [], none, [], none⟩,
    [.field (decl [.static] (word .int) [("p", none), ("f", none), ("kept", none)]),
     .nested ⟨.plain "Inner", [], none, [], none⟩
       [.field (decl [.static] (word .string) [("f", none)]),
        method [.static] (word .void) "run" [(word .int, "p")]
          [.locals (decl [] (word .int) [("v", none)]),
           .block [.locals (decl [] (word .string) [("v", none)])] .null]]]⟩⟩

end Sample

namespace Member

def class? : Member → Option ClassDecl
  | .nested head members => some ⟨head, members⟩
  | .method _ | .field _ => none

def method? : Member → Option Method
  | .method m => some m
  | .field _ | .nested .. => none

theorem mem_of_class? {ms : List Member} {c : ClassDecl} (h : ms.findSome? class? = some c) :
    .nested c.head c.members ∈ ms := by
  obtain ⟨m, hm, hc⟩ := List.exists_of_findSome?_eq_some h
  cases m with
  | nested head members =>
    cases hc
    exact hm
  | method | field => cases hc

theorem mem_of_method? {ms : List Member} {m : Method} (h : ms.findSome? method? = some m) :
    .method m ∈ ms := by
  obtain ⟨x, hx, hm⟩ := List.exists_of_findSome?_eq_some h
  cases x with
  | method =>
    cases hm
    exact hx
  | nested | field => cases hm

end Member

theorem lexical_environment_shadows : ∃ u s top c m b,
    registerUnit Sample.shadows (.withSystem 7) [] = ⟨u, .ok (), s⟩ ∧ u.top = some top ∧
      top.Encloses [c, top] ∧ .method m ∈ c.members ∧ m.symbol = some b ∧ ∃ k, b.scope = some k ∧
      ["p", "f", "kept", "v", "run", "Inner", "Outer", "System", "Write"].map
        (fun x => (s.table.visibleFrom k x).map (·.id.number)) =
          [[12], [10], [8], [13], [11], [9], [5], [0], []] ∧
      ∀ x, match VarSlot.first? x m.slots with
        | some v => ∃ p, v.symbol = some p ∧ s.table.visibleFrom k x = [p]
        | none => s.table.visibleFrom k x = ClassDecl.visible x (top.outermost 7 x) [c, top] := by
  have hok : (registerUnit Sample.shadows (.withSystem 7) []).answer.isOk = true := by
    decide +kernel
  have hinner : ((registerUnit Sample.shadows (.withSystem 7) []).node.top.bind fun top =>
      (top.members.findSome? Member.class?).bind fun c =>
        (c.members.findSome? Member.method?).bind fun m => m.symbol.bind Symbol.scope) =
          some 4 := by
    decide +kernel
  have hnames : ["p", "f", "kept", "v", "run", "Inner", "Outer", "System", "Write"].map
      (fun x => ((registerUnit Sample.shadows (.withSystem 7) []).state.table.visibleFrom 4 x).map
        (·.id.number)) = [[12], [10], [8], [13], [11], [9], [5], [0], []] := by decide +kernel
  generalize hr : registerUnit Sample.shadows (.withSystem 7) [] = r at hok hinner hnames
  obtain ⟨u, _ | ⟨⟩, s⟩ := r
  · cases hok
  simp only [Option.bind_eq_some_iff] at hinner
  obtain ⟨top, ht, c, hc, m, hm, b, hb, hk⟩ := hinner
  have hchain : top.Encloses [c, top] := .nested .top (Member.mem_of_class? hc)
  have hmem := Member.mem_of_method? hm
  obtain ⟨k, hbk, hx⟩ := lexical_environment (by decide) hr ht hchain hmem hb
  obtain rfl : k = 4 := Option.some.inj (hbk.symm.trans hk)
  exact ⟨u, s, top, c, m, b, rfl, ht, hchain, hmem, hb, 4, hbk, hnames, hx⟩

end ClassLang
