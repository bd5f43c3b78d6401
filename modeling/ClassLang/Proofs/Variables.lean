import ClassLang.Proofs.Verified

/-! The types of variables. A declaration may give a variable any type that means something, so that
a variable has values unless its type is written `void`. Typing lets such a variable pass, and it
may be initialised and read: the code then stores and pushes what does not exist. -/
namespace ClassLang

open Assembly Typing

def Decl.variables : Decl → List VarSlot
  | .method _ m => m.slots
  | .field _ d => d.slots
  | .cls _ _ => []

theorem Decl.Placed.of_variable {d : Decl} (h : d.Placed) (hf : d.Filled) {v : VarSlot}
    (hv : v ∈ d.variables) :
    ∃ b storage, v.symbol = some b ∧ b ∈ d.symbols ∧ b.details = .var v.type storage := by
  cases d with
  | cls path head => cases hv
  | field path d =>
    obtain ⟨b, hb⟩ := Option.ne_none_iff_exists'.mp (hf v hv)
    exact ⟨b, _, hb, List.mem_filterMap.mpr ⟨v, hv, hb⟩, (h v hv b hb).2⟩
  | method path m =>
    obtain ⟨s, hs⟩ := Option.ne_none_iff_exists'.mp hf.1
    simp only [Decl.Placed, hs] at h
    obtain ⟨-, k, -, hparams, hslots⟩ := h
    obtain ⟨b, hb⟩ : ∃ b, v.symbol = some b := by
      refine Option.ne_none_iff_exists'.mp ?_
      rcases List.mem_append.mp hv with hv | hv
      · obtain ⟨p, hp, rfl⟩ := List.mem_map.mp hv
        exact hf.2.1 p hp
      · exact hf.2.2 v hv
    have hmem : b ∈ (Decl.method path m).symbols := by
      rw [Decl.symbols, ← m.symbols_slots]
      exact List.mem_append_right _ (List.mem_filterMap.mpr ⟨v, hv, hb⟩)
    rcases List.mem_append.mp hv with hv | hv
    · obtain ⟨p, hp, rfl⟩ := List.mem_map.mp hv
      obtain ⟨-, -, _, hd⟩ := hparams.of_mem hp hb
      exact ⟨b, _, hb, hmem, hd⟩
    · obtain ⟨-, -, _, hd⟩ := hslots.of_mem hv hb
      exact ⟨b, _, hb, hmem, hd⟩

theorem Ty.isValue_of_toAsm {T : Ty} {a : AsmType} (h : T.toAsm = .ok a) :
    T.isValue = true ↔ T ≠ .void := by
  cases T with
  | void => simp [isValue]
  | error | declaration => cases h
  | _ => simp [isValue]

/-- What is recorded for a variable is what its written type means in some scope. -/
theorem Accepted.variable_type {t : Table} {target : Lowering.Target} {ds : List Decl} {img : Image}
    (h : Accepted t target ds img) {b : Symbol} {type : TypeExpr} {storage : Storage}
    (hb : t.Bound b) (hd : b.details = .var type storage) :
    ∃ T a k, target.resolutions.type? b = some T ∧ T.toAsm = .ok a ∧ T = meaning t k type := by
  obtain ⟨state, hr, hf⟩ := h.faithful
  rcases h.emits.written (h.declares.declared hb) with hk | hk | ⟨a, ha⟩
  · simp [Symbol.kind, hd] at hk
  · simp [Details.isRoutine, hd] at hk
  obtain ⟨T, hT, hasm⟩ := Lowering.symbolType_eq_ok_iff.mp ha
  obtain ⟨k, written, hw, hmeaning, -⟩ := hf.types hb (hr ▸ hT)
  have hwritten : written = type := by
    cases storage <;> simp only [Writes, hd] at hw <;> exact hw.1
  exact ⟨T, a, k, hT, hasm, hwritten ▸ hmeaning⟩

/-- In an accepted unit every variable is registered and has a type, which is a type of values
unless it is written `void`. -/
theorem variables_hold_values {u : CompilationUnit} {options : Options} {listing : Listing}
    (hf : u.isFresh = true) (hc : (compile u options).result = .ok (some listing)) :
    ∀ d ∈ (compile u options).unit.decls, ∀ v ∈ d.variables, ∃ b T,
      v.symbol = some b ∧ (compile u options).resolutions.type? b = some T ∧
        (T.isValue = true ↔ v.type.isVoid = false) ∧ (T = .void ↔ v.type.isVoid = true) := by
  obtain ⟨t, entry, hacc⟩ := accepted_of_compile hf hc
  intro d hd v hv
  obtain ⟨b, storage, hb, hmem, hdet⟩ :=
    (hacc.declares.placed d hd).of_variable (hacc.filled hd) hv
  obtain ⟨T, a, k, hT, hasm, hmeaning⟩ :=
    hacc.variable_type (hacc.declares.bound_of_mem hd hmem) hdet
  refine ⟨b, T, hb, hT, ?_⟩
  rw [Ty.isValue_of_toAsm hasm, hmeaning]
  cases hvoid : v.type.isVoid with
  | true => simp [meaning_of_isVoid hvoid]
  | false => simp [meaning_ne_void hvoid]

theorem variables_hold_values_sample : ∃ listing,
    (compile Sample.unit .default).result = .ok (some listing) ∧
      ((compile Sample.unit .default).unit.decls.flatMap Decl.variables).length = 10 ∧
      ∀ d ∈ (compile Sample.unit .default).unit.decls, ∀ v ∈ d.variables, ∃ b T,
        v.symbol = some b ∧ (compile Sample.unit .default).resolutions.type? b = some T ∧
          (T.isValue = true ↔ v.type.isVoid = false) ∧ (T = .void ↔ v.type.isVoid = true) := by
  obtain ⟨listing, hl, -⟩ := Sample.unit_accepted
  exact ⟨listing, hl, by decide +kernel, variables_hold_values (by decide +kernel) hl⟩

/-- A field, a parameter and a local of type `void`. The local gets the result of a call that has
none, and it and the field are read. -/
def Sample.voids : CompilationUnit :=
  ⟨some ⟨⟨.plain "Main", [], none, [], none⟩,
    [.field (decl [.static] (word .void) [("f", none)]),
     method [.static] (word .void) "nothing" [] [],
     method [.static] (word .void) "take" [(word .void, "p")] [],
     method [.static] (word .void) "main" []
       [.locals (decl [] (word .void) [("x", some (call "nothing" []))]),
        run (ref "x"),
        run (call "take" [ref "f"])]]⟩⟩

/-- Variables of type `void` are accepted, and code that uses them is not verified. -/
theorem void_variables_accepted : ∃ listing,
    (compile Sample.voids .default).result = .ok (some listing) ∧
      ((compile Sample.voids .default).unit.decls.flatMap Decl.variables).map (fun v =>
        (v.name, (v.symbol.bind (compile Sample.voids .default).resolutions.type?).map
          Ty.isValue)) =
          [("f", some false), ("p", some false), ("x", some false)] ∧
      listing.image.methods.map (fun d => (d.name, (d.verify d.code []).isSome)) =
        [("nothing", true), ("take", true), ("main", false)] := by
  have hcode : (compile Sample.voids .default).assembly.map (fun listing =>
      listing.image.methods.map fun d => (d.name, (d.verify d.code []).isSome)) =
        some [("nothing", true), ("take", true), ("main", false)] := by decide +kernel
  obtain ⟨listing, hl, hverify⟩ := Option.map_eq_some_iff.mp hcode
  exact ⟨listing, Compilation.result_of_assembly hl, by decide +kernel, hverify⟩

end ClassLang
