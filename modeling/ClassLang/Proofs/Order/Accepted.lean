import ClassLang.Proofs.Order.Checked
import ClassLang.Proofs.Order.Tidy

/-! The order of members. Of two units that hold the same members in another order, both are
registered without a report or none. If both are, their tables are twins, so what passes in one unit
passes in the other. -/
namespace ClassLang

open Table Typing

/-- The same members in another order, also inside nested classes. -/
inductive Member.Reordered : List Member → List Member → Prop
  | nil : Reordered [] []
  | cons (m : Member) {ms ns : List Member} (h : Reordered ms ns) : Reordered (m :: ms) (m :: ns)
  | nested (head : ClassHead) {inner inner' ms ns : List Member} (hi : Reordered inner inner')
    (h : Reordered ms ns) : Reordered (.nested head inner :: ms) (.nested head inner' :: ns)
  | swap (m n : Member) (ms : List Member) : Reordered (n :: m :: ms) (m :: n :: ms)
  | trans {ms ns os : List Member} (h : Reordered ms ns) (k : Reordered ns os) : Reordered ms os

def CompilationUnit.Reordered (u v : CompilationUnit) : Prop :=
  Option.Rel (fun c d => d.head = c.head ∧ Member.Reordered c.members d.members) u.top v.top

namespace Member.Reordered

variable {ms ns : List Member}

theorem of_perm (h : ms.Perm ns) : Reordered ms ns := by
  induction h with
  | nil => exact .nil
  | cons m _ ih => exact .cons m ih
  | swap m n ms => exact .swap m n ms
  | trans _ _ ih₁ ih₂ => exact .trans ih₁ ih₂

theorem symm (h : Reordered ms ns) : Reordered ns ms := by
  induction h with
  | nil => exact .nil
  | cons m _ ih => exact .cons m ih
  | nested head _ _ ihi ih => exact .nested head ihi ih
  | swap m n ms => exact .swap n m ms
  | trans _ _ ih₁ ih₂ => exact .trans ih₂ ih₁

theorem allFresh_eq (h : Reordered ms ns) : allFresh ns = allFresh ms := by
  induction h with
  | nil => rfl
  | cons m _ ih => rw [allFresh, allFresh, ih]
  | nested head _ _ ihi ih => rw [allFresh, allFresh, isFresh, isFresh, ihi, ih]
  | swap m n ms =>
    simp only [allFresh]
    exact Bool.and_left_comm _ _ _
  | trans _ _ ih₁ ih₂ => rw [ih₂, ih₁]

theorem allDecls_perm (h : Reordered ms ns) (path : List String) :
    (allDecls path ms).Perm (allDecls path ns) := by
  induction h generalizing path with
  | nil => exact .refl _
  | cons m _ ih => exact (ih path).append_left _
  | nested head _ _ ihi ih =>
    simp only [allDecls, decls]
    exact ((ihi _).cons _).append (ih path)
  | swap m n ms =>
    simp only [allDecls, ← List.append_assoc]
    exact List.perm_append_comm.append_right _
  | trans _ _ ih₁ ih₂ => exact (ih₁ path).trans (ih₂ path)

theorem titles_perm (h : Reordered ms ns) : (ms.flatMap titles).Perm (ns.flatMap titles) := by
  induction h with
  | nil => exact .refl _
  | cons m _ ih => exact ih.append_left _
  | nested head _ _ _ ih => exact ih.append_left _
  | swap m n ms =>
    simp only [List.flatMap_cons, ← List.append_assoc]
    exact List.perm_append_comm.append_right _
  | trans _ _ ih₁ ih₂ => exact ih₁.trans ih₂

theorem titles_apart (h : Reordered ms ns) (hp : (ms.flatMap titles).Pairwise Title.Apart) :
    (ns.flatMap titles).Pairwise Title.Apart :=
  h.titles_perm.pairwise hp fun hab => hab.symm

theorem allTidy (h : Reordered ms ns) (ht : AllTidy ms) : AllTidy ns := by
  induction h with
  | nil => exact ht
  | cons m _ ih => exact ⟨ht.1, ih ht.2⟩
  | nested head hi _ ihi ih =>
    obtain ⟨⟨hhead, hapart, hinner⟩, hrest⟩ := ht
    exact ⟨⟨hhead, hi.titles_apart hapart, ihi hinner⟩, ih hrest⟩
  | swap m n ms => exact ⟨ht.2.1, ht.1, ht.2.2⟩
  | trans _ _ ih₁ ih₂ => exact ih₂ (ih₁ ht)

end Member.Reordered

namespace CompilationUnit.Reordered

variable {u v : CompilationUnit}

theorem symm (h : u.Reordered v) : v.Reordered u := by
  obtain ⟨c⟩ := u
  obtain ⟨d⟩ := v
  cases h with
  | none => exact .none
  | some h => exact .some ⟨h.1.symm, h.2.symm⟩

theorem isFresh (h : u.Reordered v) (hf : u.isFresh = true) : v.isFresh = true := by
  obtain ⟨c⟩ := u
  obtain ⟨d⟩ := v
  cases h with
  | none => rfl
  | some h =>
    simp only [CompilationUnit.isFresh, Option.all_some, Bool.and_eq_true] at hf ⊢
    rw [h.1, h.2.allFresh_eq]
    exact hf

theorem decls_perm (h : u.Reordered v) : u.decls.Perm v.decls := by
  obtain ⟨c⟩ := u
  obtain ⟨d⟩ := v
  cases h with
  | none => exact .refl _
  | some h =>
    simp only [decls, Option.elim_some, ClassDecl.decls, h.1]
    exact (h.2.allDecls_perm _).cons _

/-- The order of members does not matter to whether registration reports something. -/
theorem registers (h : u.Reordered v) (hf : u.isFresh = true) {tag : Nat} {u' : CompilationUnit}
    {s : Registration.State}
    (hr : Registration.registerUnit u (.withSystem tag) [] = ⟨u', .ok (), s⟩)
    (hd : s.diagnostics = []) :
    ∃ v' r, Registration.registerUnit v (.withSystem tag) [] = ⟨v', .ok (), r⟩ ∧
      r.diagnostics = [] := by
  obtain ⟨top, htop, hname, htidy⟩ :=
    (Registration.registerUnit_passes hf).mp ⟨u', s, hr, hd⟩
  refine (Registration.registerUnit_passes (h.isFresh hf)).mpr ?_
  unfold CompilationUnit.Reordered at h
  rw [htop] at h
  cases hv : v.top with
  | none =>
    rw [hv] at h
    cases h
  | some top' =>
    rw [hv] at h
    obtain ⟨hhead, hmembers⟩ := Option.rel_some_some.mp h
    rw [← hhead] at hname htidy
    have htidy' := (Member.Reordered.nested top'.head hmembers .nil).allTidy ⟨htidy, trivial⟩
    exact ⟨top', rfl, hname, htidy'.1⟩

/-- The tables of reordered units are twins. -/
theorem mirrored (h : u.Reordered v) (hf : u.isFresh = true) {tag : Nat}
    {u' v' : CompilationUnit} {s r : Registration.State}
    (hs : Registration.registerUnit u (.withSystem tag) [] = ⟨u', .ok (), s⟩)
    (hds : s.diagnostics = [])
    (hr : Registration.registerUnit v (.withSystem tag) [] = ⟨v', .ok (), r⟩)
    (hdr : r.diagnostics = []) : Mirrored tag s.table r.table u'.decls v'.decls := by
  have hfv := h.isFresh hf
  have hwritten : (u'.decls.map Decl.erase).Perm (v'.decls.map Decl.erase) := by
    rw [← decls_erase, ← decls_erase, (Registration.registerUnit_registers hf hs).1,
      (Registration.registerUnit_registers hfv hr).1, decls_erase, decls_erase]
    exact h.decls_perm.map _
  refine ⟨Registration.registerUnit_laid hf hs hds, Registration.registerUnit_laid hfv hr hdr,
    fun d hd => ?_, fun e he => ?_⟩
  · exact List.mem_map.mp (hwritten.mem_iff.mp (List.mem_map_of_mem hd))
  · exact List.mem_map.mp (hwritten.mem_iff.mpr (List.mem_map_of_mem he))

end CompilationUnit.Reordered

theorem EntryChoice.mem_of_first? {choice : EntryChoice} {ms : List Member} {m : Method}
    (h : choice.first? ms = some m) : .method m ∈ ms ∧ choice.accepts m = true := by
  induction ms with
  | nil => cases h
  | cons x ms ih =>
    cases x with
    | method n =>
      rw [first?] at h
      split at h
      · next haccepts =>
        cases h
        exact ⟨List.mem_cons_self, haccepts⟩
      · exact ⟨List.mem_cons_of_mem _ (ih h).1, (ih h).2⟩
    | field d => exact ⟨List.mem_cons_of_mem _ (ih h).1, (ih h).2⟩
    | nested head members => exact ⟨List.mem_cons_of_mem _ (ih h).1, (ih h).2⟩

/-- Where the first static method starts the program, the methods that run without `this` are the
static ones. -/
theorem runsStatic_firstStatic {t : Table} {tag : Nat} {u : CompilationUnit} {c : ClassDecl}
    (h : Declares t tag u.decls) (htop : u.top = some c) {b : Symbol} (hb : t.Bound b) :
    runsStatic (EntryChoice.firstStatic.resolve c) b = b.isStatic := by
  unfold runsStatic
  rw [Bool.or_eq_right_iff_imp]
  intro hentry
  simp only [EntryChoice.resolve, beq_iff_eq, Option.bind_eq_some_iff,
    Option.map_eq_some_iff] at hentry
  obtain ⟨m, hfirst, a, ha, hnumber⟩ := hentry
  obtain ⟨hmem, haccepts⟩ := EntryChoice.mem_of_first? hfirst
  have hdecl : Decl.method [c.head.name.text] m ∈ u.decls := by
    rw [CompilationUnit.decls, htop]
    exact List.mem_cons_of_mem _ (Member.mem_allDecls hmem (by simp [Member.decls]))
  obtain ⟨hbound, -, hdet, -⟩ := method_declared h hdecl ha
  obtain rfl := h.sound.eq_of_number hbound hb hnumber
  simp only [Symbol.isStatic, hdet]
  exact haccepts

/-- What passed in one unit passes in its twin. -/
theorem Mirrored.typed {tag : Nat} {t t' : Table} {u v : CompilationUnit} {c : ClassDecl}
    (h : Mirrored tag t t' u.decls v.decls) (hc : Clean t) (htop : u.top = some c)
    (hpass : ∀ d ∈ u.decls, Passed t (EntryChoice.firstStatic.resolve c) d)
    (hf : v.erase.isFresh = true) :
    ∃ v' r, annotateUnit v t' .firstStatic ⟨.empty, []⟩ = ⟨v', .ok (), r⟩ ∧ Quiet t' r := by
  obtain ⟨e, he, -⟩ := h.forth (.cls [c.head.name.text] c.head) (by
    rw [CompilationUnit.decls, htop]
    exact List.mem_cons_self)
  cases htop' : v.top with
  | none =>
    rw [CompilationUnit.decls, htop'] at he
    cases he
  | some c' =>
    have hstatic : ∀ {a b}, Twins t t' a b →
        runsStatic (EntryChoice.firstStatic.resolve c') b =
          runsStatic (EntryChoice.firstStatic.resolve c) a := by
      intro a b hab
      rw [runsStatic_firstStatic h.left.toDeclares htop hab.left,
        runsStatic_firstStatic h.right.toDeclares htop' hab.right]
      rw [Symbol.isStatic, Symbol.isStatic, hab.details]
    have hstart : Good ⟨t', root, none, EntryChoice.firstStatic.resolve c'⟩ ⟨.empty, []⟩ :=
      good_of_pathOf h.right.sound (Or.inl ⟨rfl, rfl⟩) (faithful_empty t' []) rfl
    obtain ⟨v', _, r, hrun, -, hgood⟩ :=
      annotateUnit_yields h hc hstatic hpass hf htop' _ hstart
    exact ⟨v', r, hrun, quiet_of_clean (hc.twin h) hgood.faithful hgood.quiet⟩

def Compilation.Succeeds (c : Compilation) : Prop :=
  (∃ listing?, c.result = .ok listing?) ∧ c.diagnostics = []

theorem CompilationUnit.Reordered.succeeds {u v : CompilationUnit} {options : Options}
    (h : u.Reordered v) (hf : u.isFresh = true) (hentry : options.entry = .firstStatic)
    (hs : (compile u options).Succeeds) : (compile v options).Succeeds := by
  obtain ⟨⟨listing?, hok⟩, hd⟩ := hs
  obtain ⟨u₁, s₁, u₂, s₂, hreg, htyp, hrun, ⟨hd₂, listing, -, hl⟩ | ⟨hne, -⟩⟩ :=
    phases_of_compile hok
  · obtain ⟨-, c, ha⟩ := annotateUnit_analysed hf hreg htyp
    have hclean := clean_of_emits ha.declares ha.faithful hd₂ rfl
      (Lowering.assemble_emits ha.top hl)
    obtain ⟨hd₁, c₁, htop, hpassed⟩ :=
      annotateUnit_passed hf hreg htyp (quiet_of_clean hclean ha.faithful hd₂)
    rw [hentry] at hpassed
    have hfv := h.isFresh hf
    obtain ⟨v₁, r₁, hreg', hd₁'⟩ := h.registers hf hreg hd₁
    have hfresh := CompilationUnit.isFresh_erase hfv
    rw [← (Registration.registerUnit_registers hfv hreg').1] at hfresh
    obtain ⟨v₂, r₂, htyp', hq⟩ :=
      (h.mirrored hf hreg hd₁ hreg' hd₁').typed hclean htop hpassed hfresh
    rw [← hentry, ← hd₁'] at htyp'
    obtain ⟨listing', hrun'⟩ := compile_of_typed hfv hreg' htyp' hq
    rw [hrun']
    exact ⟨⟨some listing', rfl⟩, hq.diagnostics⟩
  · rw [hrun] at hd
    exact absurd hd hne

/-- Where the first static method starts the program, it does not matter to whether a unit is
accepted in which order the members of its classes stand. -/
theorem acceptance_ignores_order {u v : CompilationUnit} {options : Options}
    (hf : u.isFresh = true) (h : u.Reordered v) (hentry : options.entry = .firstStatic) :
    (compile u options).Succeeds ↔ (compile v options).Succeeds :=
  ⟨h.succeeds hf hentry, h.symm.succeeds (h.isFresh hf) hentry⟩

/-- Uses stand before and after what they use, and two methods can be the first static one. -/
def Sample.shelf (arrange : List Member → List Member) : CompilationUnit :=
  let cell : TypeExpr := .named [.plain "Cell"] .null
  ⟨some ⟨⟨.plain "Main", [], none, [], none⟩, arrange
    [.field (decl [.static] cell [("first", none)]),
     .nested ⟨.plain "Cell", [], none, [], none⟩ (arrange
       [.field (decl [] cell [("next", none)]),
        method [] (word .int) "size" [(word .int, "n")]
          [.ifThen (bin .lt (ref "n") (num 1)) (ret (num 0)) .null,
           ret (bin .add (call "size" [call "less" [ref "n"]]) (num 1))],
        method [] (word .int) "less" [(word .int, "n")] [ret (bin .sub (ref "n") (num 1))]]),
     method [.static] cell "make" [(word .int, "n")]
       [set "first" (.create (.parse "Cell") [] note), ret (call "last" [ref "first"])],
     method [.static] cell "last" [(cell, "c")] [ret (ref "c")]]⟩⟩

theorem acceptance_ignores_order_shelf :
    (Sample.shelf id).isFresh = true ∧ (Sample.shelf id).Reordered (Sample.shelf List.reverse) ∧
      (compile (Sample.shelf id) .default).Succeeds ∧
        (compile (Sample.shelf List.reverse) .default).Succeeds := by
  have hfresh : (Sample.shelf id).isFresh = true := by decide
  have hturned : ∀ ms, Member.Reordered ms ms.reverse := fun ms =>
    .of_perm (List.reverse_perm ms).symm
  have hreordered : (Sample.shelf id).Reordered (Sample.shelf List.reverse) :=
    .some ⟨rfl, .trans (.cons _ (.nested _ (hturned _) (.of_perm (.refl _)))) (hturned _)⟩
  have hquiet : (compile (Sample.shelf id) .default).diagnostics.isEmpty = true := by
    decide +kernel
  have hmade : (compile (Sample.shelf id) .default).assembly.isSome = true := by
    decide +kernel
  obtain ⟨listing, hl⟩ := Option.isSome_iff_exists.mp hmade
  have hsucceeds : (compile (Sample.shelf id) .default).Succeeds :=
    ⟨⟨some listing, Compilation.result_of_assembly hl⟩, List.isEmpty_iff.mp hquiet⟩
  exact ⟨hfresh, hreordered, hsucceeds,
    (acceptance_ignores_order hfresh hreordered rfl).mp hsucceeds⟩

end ClassLang
