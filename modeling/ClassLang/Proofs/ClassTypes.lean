import ClassLang.Proofs.Layout
import ClassLang.Proofs.Signatures

/-! Class types in assembly. A type may name any class that can be seen, and that is a class of the
unit or `System`. A class of the unit is defined in its assembly. `System` never is, so a
declaration whose type is written `System` leaves a class type without a definition. -/
namespace ClassLang

open Assembly Typing

namespace Assembly

def AsmType.className? : AsmType → Option String
  | .cls path => some (classToken path)
  | _ => none

def Instr.types : Instr → List AsmType
  | .ldfld f | .stfld f | .ldsfld f | .stsfld f => [f.type]
  | .call m => m.returns :: m.params
  | .callConsole _ params returns => returns :: params
  | _ => []

theorem Instr.types_of_isPlain {i : Instr} (h : Lowering.isPlain i = true) : i.types = [] := by
  cases i with
  | ldfld | stfld | ldsfld | stsfld | call | callConsole => cases h
  | _ => rfl

def itemTypes : Lowering.Item → List AsmType
  | .instr i => i.types
  | .label _ => []

def MethodDef.types (d : MethodDef) : List AsmType :=
  d.returns :: (d.params.map Prod.fst ++ (d.locals.map LocalEntry.type ++
    d.code.flatMap itemTypes))

def Image.types (img : Image) : List AsmType :=
  img.fields.map FieldDef.type ++ img.bodies.flatMap MethodDef.types

/-- The spelling of every class type. -/
def Image.classNames (img : Image) : List String := img.types.filterMap AsmType.className?

end Assembly

/-- The class that every unit can see without declaring it. -/
def TypeExpr.isSystem : TypeExpr → Bool
  | .named [segment] _ => segment.text == "System"
  | _ => false

namespace Decl

def types : Decl → List TypeExpr
  | .method _ m => m.returns :: (m.params.map Param.type ++ m.bodySlots.map VarSlot.type)
  | .field _ d => d.slots.map VarSlot.type
  | .cls _ _ => []

def isSystemFree (d : Decl) : Bool := d.types.all fun type => !type.isSystem

theorem types_strip (d : Decl) : d.strip.types = d.types := by
  cases d with
  | method path m =>
    have hslots : m.strip.bodySlots.map VarSlot.type = m.bodySlots.map VarSlot.type := by
      simp [Method.bodySlots_strip, VarSlot.erase, Function.comp_def]
    simp only [strip, types, hslots]
    simp [Method.strip, Param.erase, Function.comp_def]
  | field path d => simp [strip, types, VarDecl.slots_strip, VarSlot.erase, Function.comp_def]
  | cls path head => rfl

theorem isSystemFree_strip (d : Decl) : d.strip.isSystemFree = d.isSystemFree := by
  rw [isSystemFree, isSystemFree, types_strip]

end Decl

/-- No declaration of the unit has a type written `System`. -/
def CompilationUnit.isSystemFree (u : CompilationUnit) : Bool := u.decls.all Decl.isSystemFree

/-- What is declared outside every class is no member of one. -/
theorem Table.Sound.eq_nil_of_resolveMembers {t : Table} (h : t.Sound) {fallback : Position}
    {rest : List Name} : ∀ {before : List Name} {owner b : Symbol}, t.Bound owner →
      resolveMembers t fallback before owner rest = .ok b → b.declaredIn = root → rest = [] := by
  induction rest with
  | nil => exact fun _ _ _ => rfl
  | cons segment rest ih =>
    intro before owner b ho hr hb
    unfold resolveMembers at hr
    split at hr
    · cases hr
    · next k hk =>
      split at hr
      · next found hf =>
        have hm : found ∈ t.members k segment.text := hf ▸ List.mem_singleton_self found
        obtain rfl := ih (h.bound_of_mem hm) hr hb
        cases hr
        have hscope : owner.scope = some k := by
          unfold Symbol.memberScope? at hk
          split at hk
          · exact hk
          · cases hk
        have hopen := (h.opened owner k ho hscope).1
        rw [← (h.home k _ b hm).2, hb] at hopen
        exact absurd hopen (Nat.lt_irrefl _)
      · cases hr

namespace Typing

/-- Only a name that is just `System` means the class `System`. -/
theorem isSystem_of_meaning {t : Table} (h : t.Sound) {k : ScopeId} {type : TypeExpr} {tag : Nat}
    (hm : meaning t k type = .cls (Table.systemClass tag)) : type.isSystem = true := by
  cases type with
  | keyword word span => cases word <;> cases hm
  | array => cases hm
  | generic => cases hm
  | named segments span =>
    obtain ⟨c, hc, hpath⟩ := resolvePath_of_meaning (ne_of_eq_of_ne hm (by simp))
    rw [hm] at hc
    cases hc
    have hname := h.name_of_resolvePath hpath
    unfold resolvePath at hpath
    cases segments with
    | nil => cases hpath
    | cons segment rest =>
      dsimp only at hpath
      split at hpath
      · next found hf =>
        have hfound := (h.reached_of_visible (hf ▸ List.mem_singleton_self found)).1
        obtain rfl := h.eq_nil_of_resolveMembers hfound (Option.some.inj hpath) rfl
        simpa [TypeExpr.isSystem, Table.systemClass] using hname
      · cases hpath

end Typing

namespace Declares

/-- The written type of a symbol is that of a console routine or stands in a declaration. -/
theorem keyword_or_mem_types {t : Table} {tag : Nat} {ds : List Decl} (h : Declares t tag ds)
    {b : Symbol} (hb : t.Bound b) {k : ScopeId} {type : TypeExpr} (hw : Writes t b k type) :
    (∃ word, type = .keyword word .null) ∨ ∃ d ∈ ds, type ∈ d.types := by
  unfold Writes at hw
  cases h.declared hb with
  | system hd =>
    subst hd
    exact absurd hw id
  | routine _ hd =>
    rw [hd] at hw
    exact Or.inl ⟨_, hw.1⟩
  | method hm _ hd =>
    rw [hd] at hw
    exact Or.inr ⟨_, hm, hw.1 ▸ List.mem_cons_self⟩
  | param hm _ _ hp _ hd =>
    rw [hd] at hw
    exact Or.inr ⟨_, hm, hw.1 ▸ List.mem_cons_of_mem _
      (List.mem_append_left _ (List.mem_map_of_mem hp))⟩
  | slot hm _ _ hv _ hd =>
    rw [hd] at hw
    exact Or.inr ⟨_, hm, hw.1 ▸ List.mem_cons_of_mem _
      (List.mem_append_right _ (List.mem_map_of_mem hv))⟩
  | field hf hv _ hd =>
    rw [hd] at hw
    exact Or.inr ⟨_, hf, hw.1 ▸ List.mem_map_of_mem (List.mem_map_of_mem hv)⟩
  | cls _ _ hd =>
    rw [hd] at hw
    exact absurd hw id

theorem keyword_or_mem_types_of_param {t : Table} {tag : Nat} {ds : List Decl}
    (h : Declares t tag ds) {b : Symbol} (hb : t.Bound b) {params : List TypeExpr}
    {returns : TypeExpr} {modifiers : List Modifier} {owner : List String}
    {routine : Option Routine} (hd : b.details = .method params returns modifiers owner routine)
    {type : TypeExpr} (ht : type ∈ params) :
    (∃ word, type = .keyword word .null) ∨ ∃ d ∈ ds, type ∈ d.types := by
  cases h.declared hb with
  | routine _ hd' =>
    rw [hd] at hd'
    cases hd'
    exact Or.inl ⟨_, List.mem_singleton.mp ht⟩
  | method hm _ hd' =>
    rw [hd] at hd'
    cases hd'
    exact Or.inr ⟨_, hm, List.mem_cons_of_mem _ (List.mem_append_left _ ht)⟩
  | system hb =>
    subst hb
    cases hd
  | _ =>
    rename_i hd'
    rw [hd] at hd'
    cases hd'

end Declares

namespace Accepted

variable {t : Table} {target : Lowering.Target} {ds : List Decl} {img : Image}

/-- A unit cannot declare a class of its own in the place of `System`. -/
theorem system_not_mem_classes (h : Accepted t target ds img) : ["System"] ∉ img.classes := by
  intro hmem
  obtain ⟨head, hhead⟩ := (h.emits.classes _).mp hmem
  obtain ⟨b, hb⟩ := Option.ne_none_iff_exists'.mp (h.filled hhead)
  obtain ⟨-, -, hd⟩ := h.declares.placed _ hhead b hb
  have hbound := h.declares.bound_of_mem hhead (b := b) (by simp [Decl.symbols, hb])
  have hsystem : t.Bound (Table.systemClass 0) :=
    (h.declares.bound _).mpr (Or.inl List.mem_cons_self)
  obtain rfl := h.declares.sound.eq_of_classPath hbound hsystem hd rfl
  simp [Table.systemClass] at hd

/-- A class type is defined unless it is `System`, which some declaration then writes. -/
def Spells (ds : List Decl) (img : Image) (a : AsmType) : Prop :=
  ∀ path, a = .cls path → (path ∈ img.classes ↔ path ≠ ["System"]) ∧
    (path = ["System"] → ∃ d ∈ ds, d.isSystemFree = false)

theorem spells_of_written (h : Accepted t target ds img) {k : ScopeId} {type : TypeExpr}
    (hw : (∃ word, type = .keyword word .null) ∨ ∃ d ∈ ds, type ∈ d.types) {a : AsmType}
    (ha : (meaning t k type).toAsm = .ok a) : Spells ds img a := by
  rintro path rfl
  cases hm : meaning t k type with
  | cls c =>
    rw [hm] at ha
    obtain ⟨_, ms, x, hd, hpath⟩ := toAsm_cls_eq_ok ha
    cases hpath
    obtain ⟨hc, -⟩ := known_meaning h.declares.sound k type c hm
    cases h.declares.declared hc with
    | system hb =>
      subst hb
      cases hd
      refine ⟨⟨fun hin => absurd hin h.system_not_mem_classes, fun hne => absurd rfl hne⟩, ?_⟩
      intro _
      have hsystem := isSystem_of_meaning h.declares.sound hm
      rcases hw with ⟨word, rfl⟩ | ⟨d, hd, htype⟩
      · cases hsystem
      · refine ⟨d, hd, ?_⟩
        simpa [Decl.isSystemFree] using ⟨type, htype, hsystem⟩
    | cls hcls _ hd' =>
      rw [hd] at hd'
      cases hd'
      have hin := (h.emits.classes path).mpr ⟨_, hcls⟩
      have hne : path ≠ ["System"] := by
        rintro rfl
        exact h.system_not_mem_classes hin
      exact ⟨iff_of_true hin hne, fun he => absurd he hne⟩
    | _ =>
      rename_i hd'
      rw [hd] at hd'
      cases hd'
  | _ =>
    rw [hm] at ha
    cases ha

theorem spells_of_type (h : Accepted t target ds img) {b : Symbol} (hb : t.Bound b) {T : Ty}
    (hT : target.resolutions.type? b = some T) {a : AsmType} (ha : T.toAsm = .ok a) :
    Spells ds img a := by
  obtain ⟨s, hs, hf⟩ := h.faithful
  obtain ⟨k, type, hw, rfl, -⟩ := hf.types hb (hs ▸ hT)
  exact h.spells_of_written (h.declares.keyword_or_mem_types hb hw) ha

theorem spells_of_symbolType (h : Accepted t target ds img) {b : Symbol} (hb : t.Bound b)
    {a : AsmType} (ha : Lowering.symbolType target.resolutions b = .ok a) : Spells ds img a := by
  obtain ⟨T, hT, hasm⟩ := Lowering.symbolType_eq_ok_iff.mp ha
  exact h.spells_of_type hb hT hasm

theorem spells_of_params (h : Accepted t target ds img) {b : Symbol} (hb : t.Bound b)
    {Ts : List Ty} (hTs : target.resolutions.params? b = some Ts) {as : List AsmType}
    (has : Lowering.asmTypes Ts = .ok as) : ∀ a ∈ as, Spells ds img a := by
  obtain ⟨s, hs, hf⟩ := h.faithful
  obtain ⟨params, _, _, _, _, hd, rfl, -⟩ := hf.params hb (hs ▸ hTs)
  have hw : ∀ type ∈ params, (∃ word, type = .keyword word .null) ∨ ∃ d ∈ ds, type ∈ d.types :=
    fun type => h.declares.keyword_or_mem_types_of_param hb hd
  clear hTs hd
  induction params generalizing as with
  | nil =>
    cases has
    simp
  | cons type params ih =>
    obtain ⟨a, rest, ha, hrest, rfl⟩ := asmTypes_cons_eq_ok has
    exact List.forall_mem_cons.mpr ⟨h.spells_of_written (hw type List.mem_cons_self) ha,
      ih hrest fun type ht => hw type (List.mem_cons_of_mem _ ht)⟩

theorem spells_of_call (h : Accepted t target ds img) {ctx : Context} {b : Symbol}
    (hb : t.Bound b) {Ts : List Ty} (hTs : target.resolutions.params? b = some Ts) {T : Ty}
    (hT : target.resolutions.type? b = some T) {before : List Instr} {i : Instr}
    (hc : Lowering.CallOf ctx b Ts T before i) : ∀ a ∈ i.types, Spells ds img a := by
  cases hc with
  | console _ has ha | shared _ has ha | own _ has ha =>
    exact List.forall_mem_cons.mpr ⟨h.spells_of_type hb hT ha, h.spells_of_params hb hTs has⟩

theorem spells_of_refers (h : Accepted t target ds img) {ctx : Context} (ht : ctx.table = t)
    {i : Instr} (hi : Lowering.Refers ctx target.resolutions i) :
    ∀ a ∈ i.types, Spells ds img a := by
  subst ht
  cases i with
  | ldfld f | stfld f =>
    obtain ⟨b, T, _, hb, hT, hplace⟩ := hi
    cases hplace with
    | own hd ha => exact List.forall_mem_singleton.mpr (h.spells_of_type hb hT ha)
  | ldsfld f | stsfld f =>
    obtain ⟨b, T, _, hb, hT, hplace⟩ := hi
    cases hplace with
    | shared hd ha => exact List.forall_mem_singleton.mpr (h.spells_of_type hb hT ha)
  | call m =>
    obtain ⟨b, Ts, T, _, hb, -, hTs, hT, hc, -⟩ := hi
    exact h.spells_of_call hb hTs hT hc
  | callConsole routine params returns =>
    obtain ⟨b, Ts, T, _, hb, hTs, hT, hc⟩ := hi
    exact h.spells_of_call hb hTs hT hc
  | _ => exact List.forall_mem_nil _

theorem spells_of_code (h : Accepted t target ds img) {d : MethodDef} (hd : d ∈ img.bodies) :
    ∀ a ∈ d.code.flatMap itemTypes, Spells ds img a := by
  intro a ha
  obtain ⟨item, hitem, ha⟩ := List.mem_flatMap.mp ha
  cases item with
  | label l => cases ha
  | instr i =>
    cases hp : Lowering.isPlain i with
    | false =>
      obtain ⟨ctx, ht, -, -, -, hi⟩ := h.refers hd hitem hp
      exact h.spells_of_refers ht hi a ha
    | true =>
      rw [itemTypes, Instr.types_of_isPlain hp] at ha
      cases ha

theorem spells_of_body (h : Accepted t target ds img) {d : MethodDef} (hd : d ∈ img.bodies) :
    ∀ a ∈ d.types, Spells ds img a := by
  have hcode := h.spells_of_code hd
  rcases List.mem_append.mp hd with hd | hd
  · obtain ⟨⟨path, m⟩, hm, hemits⟩ := Lowering.exists_of_forall₂_right h.emits.methods hd
    have hm := Decl.mem_methods.mp hm
    cases hemits with
    | @intro _ _ b _ _ _ _ _ _ _ _ hb hr hp hbody hf hl =>
      obtain ⟨hbound, -, -, k, hk, hparams, -⟩ := method_declared h.declares hm hb
      refine List.forall_mem_cons.mpr ⟨h.spells_of_symbolType hbound hr, ?_⟩
      refine List.forall_mem_append.mpr ⟨?_, List.forall_mem_append.mpr ⟨?_, hcode⟩⟩
      · intro a ha
        obtain ⟨e, he, rfl⟩ := List.mem_map.mp ha
        obtain ⟨p, hpm, q, hq, htype, -⟩ :=
          Lowering.exists_of_forall₂_right (Lowering.paramEntries_inv hp) he
        exact h.spells_of_symbolType (hparams p hpm q hq).1 htype
      · intro a ha
        obtain ⟨e, he, rfl⟩ := List.mem_map.mp ha
        obtain ⟨c, type, hc, -, -, -, htype⟩ := h.local_symbol hm hb hk hbody hf hl he
        exact h.spells_of_symbolType hc htype
  · obtain ⟨path, head, -, -, rfl⟩ := (h.emits.ctors d).mp hd
    exact List.forall_mem_cons.mpr ⟨by rintro _ ⟨⟩, hcode⟩

theorem spells (h : Accepted t target ds img) : ∀ a ∈ img.types, Spells ds img a := by
  refine List.forall_mem_append.mpr ⟨?_, ?_⟩
  · intro a ha
    obtain ⟨f, hf, rfl⟩ := List.mem_map.mp ha
    obtain ⟨b, type, hb, -, -, ht⟩ := h.field_symbol hf
    exact h.spells_of_symbolType hb ht
  · intro a ha
    obtain ⟨d, hd, ha⟩ := List.mem_flatMap.mp ha
    exact h.spells_of_body hd a ha

end Accepted

/-- In the assembly of an accepted unit exactly the class types other than `System` are defined, and
all are if no declaration has a type written `System`. -/
theorem class_types_defined {u : CompilationUnit} {options : Options} {listing : Listing}
    (hf : u.isFresh = true) (hc : (compile u options).result = .ok (some listing)) :
    (∀ name ∈ listing.image.classNames,
      (name ∈ listing.image.classes.map classToken ↔ name ≠ "System")) ∧
    (u.isSystemFree = true →
      ∀ name ∈ listing.image.classNames, name ∈ listing.image.classes.map classToken) := by
  obtain ⟨t, entry, h⟩ := accepted_of_compile hf hc
  have hspells : ∀ name ∈ listing.image.classNames, ∃ path, name = classToken path ∧
      Accepted.Spells (compile u options).unit.decls listing.image (.cls path) := by
    intro name hname
    obtain ⟨a, ha, hcls⟩ := List.mem_filterMap.mp hname
    cases a with
    | cls path => exact ⟨path, (Option.some.inj hcls).symm, h.spells _ ha⟩
    | _ => cases hcls
  have hmem : ∀ path, classToken path ∈ listing.image.classes.map classToken ↔
      path ∈ listing.image.classes := fun path =>
    List.mem_map_of_injective fun _ _ => classToken_injective
  have hname : classToken ["System"] = "System" := by decide
  constructor
  · intro name hin
    obtain ⟨path, rfl, hs⟩ := hspells name hin
    rw [hmem, (hs path rfl).1, ← hname]
    exact not_congr ⟨fun he => he ▸ rfl, fun he => classToken_injective he⟩
  · intro hfree name hin
    obtain ⟨path, rfl, hs⟩ := hspells name hin
    rw [hmem, (hs path rfl).1]
    intro he
    obtain ⟨d, hd, hwrites⟩ := (hs path rfl).2 he
    have hall := (Decl.all_compile Decl.isSystemFree_strip u options).trans hfree
    rw [List.all_eq_true.mp hall d hd] at hwrites
    cases hwrites

def Sample.cells : CompilationUnit :=
  let cell : TypeExpr := .named [.plain "Cell"] .null
  ⟨some ⟨⟨.plain "Main", [], none, [], none⟩,
    [.nested ⟨.plain "Cell", [], none, [], none⟩ [.field (decl [] cell [("next", none)])],
     method [.static] (.named [.plain "Main", .plain "Cell"] .null) "pass" [(cell, "c")]
       [.locals (decl [] cell [("d", some (ref "c"))]), ret (call "pass" [ref "d"])]]⟩⟩

theorem class_types_defined_cells : ∃ listing,
    (compile Sample.cells .default).result = .ok (some listing) ∧
      listing.image.classNames = List.replicate 6 "Main/Cell" ∧
      Sample.cells.isSystemFree = true ∧
      ∀ name ∈ listing.image.classNames, name ∈ listing.image.classes.map classToken := by
  have hnames : (compile Sample.cells .default).assembly.map (·.image.classNames) =
      some (List.replicate 6 "Main/Cell") := by decide +kernel
  obtain ⟨listing, hl, hsix⟩ := Option.map_eq_some_iff.mp hnames
  have hc := Compilation.result_of_assembly hl
  have hfree : Sample.cells.isSystemFree = true := by decide
  exact ⟨listing, hc, hsix, hfree, (class_types_defined (by decide) hc).2 hfree⟩

/-- The same with the class `System`, which also is the type of a field that is set. -/
def Sample.systemTypes : CompilationUnit :=
  let system : TypeExpr := .named [.plain "System"] .null
  ⟨some ⟨⟨.plain "Main", [], none, [], none⟩,
    [.field (decl [.static] system [("f", none)]),
     method [.static] system "pass" [(system, "c")]
       [.locals (decl [] system [("d", some (ref "c"))]),
        set "f" (call "pass" [ref "d"]),
        ret (ref "f")]]⟩⟩

/-- `System` is spelled in every kind of signature, and no class but `Main` is defined. -/
theorem system_types_undefined : ∃ listing,
    (compile Sample.systemTypes .default).result = .ok (some listing) ∧
      listing.image.classNames = List.replicate 8 "System" ∧
      listing.image.classes.map classToken = ["Main"] := by
  have hnames : (compile Sample.systemTypes .default).assembly.map
      (fun listing => (listing.image.classNames, listing.image.classes.map classToken)) =
        some (List.replicate 8 "System", ["Main"]) := by decide +kernel
  obtain ⟨listing, hl, heq⟩ := Option.map_eq_some_iff.mp hnames
  obtain ⟨hsystem, hclasses⟩ := Prod.ext_iff.mp heq
  exact ⟨listing, Compilation.result_of_assembly hl, hsystem, hclasses⟩

end ClassLang
