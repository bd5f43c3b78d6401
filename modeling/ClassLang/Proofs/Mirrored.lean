import ClassLang.Proofs.Linking
import ClassLang.Proofs.Plans
import ClassLang.Proofs.Stripped
import Mathlib.Data.List.Nodup

/-! The blocks of a module mirror the classes of its unit. Registration and typing do not change
what a unit declares, so the blocks can be compared with its source. No two classes have the same
path, and no two fields of a class have the same name. -/
namespace ClassLang

open Assembly

theorem Method.plan_strip (m : Method) : m.strip.plan = m.plan := by
  simp [plan, strip, Param.erase]

theorem VarDecl.plans_strip (d : VarDecl) : d.strip.plans = d.plans := by
  simp [plans, strip, Declarator.strip]

namespace Member

theorem fieldPlans_stripAll (ms : List Member) : fieldPlans (stripAll ms) = fieldPlans ms := by
  induction ms with
  | nil => rfl
  | cons m rest ih => cases m <;> simp [stripAll, strip, fieldPlans, VarDecl.plans_strip, ih]

mutual

theorem plans_strip : ∀ m : Member, m.strip.plans = m.plans
  | .method m => by rw [strip, plans, plans, m.plan_strip]
  | .field d => by rw [strip, plans, plans]
  | .nested head members => by
    rw [strip, plans, plans, fieldPlans_stripAll, allPlans_stripAll members]
    rfl

theorem allPlans_stripAll : ∀ ms : List Member, allPlans (stripAll ms) = allPlans ms
  | [] => rfl
  | m :: rest => by rw [stripAll, allPlans, allPlans, plans_strip m, allPlans_stripAll rest]

end

end Member

theorem ClassDecl.plan_strip (c : ClassDecl) : c.strip.plan = c.plan := by
  rw [plan, plan, strip, Member.fieldPlans_stripAll, Member.allPlans_stripAll]
  rfl

/-- The plan of the annotated unit is that of its source. -/
theorem plan_of_compile {u : CompilationUnit} {options : Options} {c : ClassDecl}
    (htop : (compile u options).unit.top = some c) :
    ∃ source, u.top = some source ∧ c.plan = source.plan := by
  have hstrip : u.top.map ClassDecl.strip = some c.strip := by
    rw [← Option.map_some, ← htop]
    exact congrArg CompilationUnit.top (compile_strip u options).symm
  obtain ⟨source, hsource, hsame⟩ := Option.map_eq_some_iff.mp hstrip
  exact ⟨source, hsource, by rw [← c.plan_strip, ← hsame, source.plan_strip]⟩

namespace Plan

mutual

def classes (path : List String) : Plan → List (List String)
  | .cls _ _ _ name parts => (path ++ [name]) :: allClasses (path ++ [name]) parts
  | .field .. | .method .. | .ctor => []

def allClasses (path : List String) : List Plan → List (List String)
  | [] => []
  | plan :: rest => plan.classes path ++ allClasses path rest

end

mutual

def fields (path : List String) : Plan → List (List String × String)
  | .field _ _ name => [(path, name)]
  | .cls _ _ _ name parts => allFields (path ++ [name]) parts
  | .method .. | .ctor => []

def allFields (path : List String) : List Plan → List (List String × String)
  | [] => []
  | plan :: rest => plan.fields path ++ allFields path rest

end

theorem allClasses_append (path : List String) (ps qs : List Plan) :
    allClasses path (ps ++ qs) = allClasses path ps ++ allClasses path qs := by
  induction ps with
  | nil => simp [allClasses]
  | cons p ps ih => simp [allClasses, ih]

theorem allFields_append (path : List String) (ps qs : List Plan) :
    allFields path (ps ++ qs) = allFields path ps ++ allFields path qs := by
  induction ps with
  | nil => simp [allFields]
  | cons p ps ih => simp [allFields, ih]

end Plan

namespace Decl

def classes (ds : List Decl) : List (List String × ClassHead) :=
  ds.filterMap fun
    | .cls path head => some (path, head)
    | _ => none

theorem classes_append (a b : List Decl) : classes (a ++ b) = classes a ++ classes b := by
  simp [classes]

theorem mem_classes {ds : List Decl} {path : List String} {head : ClassHead} :
    (path, head) ∈ classes ds ↔ .cls path head ∈ ds := by
  simp only [classes, List.mem_filterMap]
  constructor
  · rintro ⟨d, hd, h⟩
    cases d <;> cases h
    exact hd
  · intro h
    exact ⟨_, h, rfl⟩

theorem classSymbols_sublist (ds : List Decl) :
    ((classes ds).filterMap fun x => x.2.symbol).Sublist (allSymbols ds) := by
  induction ds with
  | nil => exact .slnil
  | cons d ds ih =>
    rw [allSymbols_cons]
    cases d with
    | cls path head =>
      change (((path, head) :: classes ds).filterMap _).Sublist _
      rw [filterMap_cons_toList]
      exact List.Sublist.append (.refl _) ih
    | field path d => exact ih.trans (List.sublist_append_right _ _)
    | method path m => exact ih.trans (List.sublist_append_right _ _)

end Decl

/-- A class is known by its path. -/
theorem Declares.nodup_classes {t : Table} {tag : Nat} {ds : List Decl} (h : Declares t tag ds)
    (hf : ∀ d ∈ ds, d.Filled) : ((Decl.classes ds).map Prod.fst).Nodup := by
  have hfilled : ∀ x ∈ Decl.classes ds, x.2.symbol ≠ none := fun ⟨path, head⟩ hx =>
    hf _ (Decl.mem_classes.mp hx)
  have hkeys := Decl.pairwise_symbol_ne (Decl.classSymbols_sublist ds) h.ordered hfilled
  refine List.pairwise_map.mpr (hkeys.imp_of_mem fun {x y} hx hy hne hpath => hne ?_)
  obtain ⟨b, hb⟩ := Option.ne_none_iff_exists'.mp (hfilled x hx)
  obtain ⟨c, hc⟩ := Option.ne_none_iff_exists'.mp (hfilled y hy)
  obtain ⟨-, -, hbd⟩ := h.placed _ (Decl.mem_classes.mp hx) b hb
  obtain ⟨-, -, hcd⟩ := h.placed _ (Decl.mem_classes.mp hy) c hc
  have hbb : t.Bound b := h.bound_of_mem (Decl.mem_classes.mp hx) (by simp [Decl.symbols, hb])
  have hcb : t.Bound c := h.bound_of_mem (Decl.mem_classes.mp hy) (by simp [Decl.symbols, hc])
  rw [hb, hc, h.sound.eq_of_classPath hbb hcb hbd (hpath ▸ hcd)]

/-- A field is known by its class and its name. -/
theorem Declares.nodup_fields {t : Table} {tag : Nat} {ds : List Decl} (h : Declares t tag ds)
    (hf : ∀ d ∈ ds, d.Filled) :
    ((Decl.fields ds).map fun x => (x.1, x.2.name.text)).Nodup := by
  have hslot : ∀ {path : List String} {v : Declarator}, (path, v) ∈ Decl.fields ds →
      ∃ b, v.symbol = some b ∧ t.Bound b ∧ b.name = v.name.text ∧
        ∃ type isStatic, b.details = .var type (.field isStatic path) := by
    intro path v hv
    obtain ⟨d, hd, hmem⟩ := Decl.mem_fields.mp hv
    have hin : ⟨v.name.text, d.type, v.symbol⟩ ∈ d.slots := List.mem_map_of_mem hmem
    obtain ⟨b, hb⟩ := Option.ne_none_iff_exists'.mp (hf _ hd _ hin)
    obtain ⟨hname, hdet⟩ := h.placed _ hd _ hin b hb
    exact ⟨b, hb, h.bound_of_mem hd (List.mem_filterMap.mpr ⟨_, hin, hb⟩), hname, _, _, hdet⟩
  have hfilled : ∀ x ∈ Decl.fields ds, x.2.symbol ≠ none := fun ⟨path, v⟩ hx => by
    obtain ⟨b, hb, -⟩ := hslot hx
    simp [hb]
  have hkeys := Decl.pairwise_symbol_ne (Decl.fieldSymbols_sublist ds) h.ordered hfilled
  refine List.pairwise_map.mpr (hkeys.imp_of_mem ?_)
  rintro ⟨path, v⟩ ⟨path', w⟩ hx hy hne heq
  obtain ⟨rfl, hname⟩ := Prod.mk.inj heq
  obtain ⟨b, hb, hbb, hbn, _, _, hbd⟩ := hslot hx
  obtain ⟨c, hc, hcb, hcn, _, _, hcd⟩ := hslot hy
  refine hne ?_
  rw [hb, hc, h.sound.eq_of_field hbb hcb hbd hcd (hbn.trans (hname.trans hcn.symm))]

namespace ClassHead

theorem classes_plan (head : ClassHead) (nested : Bool) (path : List String)
    (fields others : List Plan) : (head.plan nested fields others).classes path =
      (path ++ [head.name.text]) :: (Plan.allClasses (path ++ [head.name.text]) fields ++
        Plan.allClasses (path ++ [head.name.text]) others) := by
  rw [plan, Plan.classes, Plan.allClasses_append, Plan.allClasses_append]
  split <;> simp [Plan.allClasses, Plan.classes]

theorem fields_plan (head : ClassHead) (nested : Bool) (path : List String)
    (fields others : List Plan) : (head.plan nested fields others).fields path =
      Plan.allFields (path ++ [head.name.text]) fields ++
        Plan.allFields (path ++ [head.name.text]) others := by
  rw [plan, Plan.fields, Plan.allFields_append, Plan.allFields_append]
  split <;> simp [Plan.allFields, Plan.fields]

end ClassHead

namespace VarDecl

theorem allClasses_plans (d : VarDecl) (path : List String) :
    Plan.allClasses path d.plans = [] := by
  unfold plans
  induction d.vars with
  | nil => rfl
  | cons v vars ih => simpa [Plan.allClasses, Plan.classes] using ih

theorem allFields_plans (d : VarDecl) (path : List String) :
    Plan.allFields path d.plans = d.vars.map fun v => (path, v.name.text) := by
  unfold plans
  induction d.vars with
  | nil => rfl
  | cons v vars ih => simpa [Plan.allFields, Plan.fields] using ih

end VarDecl

namespace Member

theorem allClasses_fieldPlans (path : List String) (ms : List Member) :
    Plan.allClasses path (fieldPlans ms) = [] := by
  induction ms with
  | nil => rfl
  | cons m ms ih =>
    cases m with
    | field d =>
      rw [fieldPlans, Plan.allClasses_append, d.allClasses_plans, ih, List.append_nil]
    | method m => exact ih
    | nested head members => exact ih

mutual

theorem allClasses_plans : ∀ (path : List String) (m : Member),
    Plan.allClasses path m.plans = (Decl.classes (m.decls path)).map Prod.fst
  | path, .method m => by
    simp [plans, decls, Plan.allClasses, Method.plan, Plan.classes, Decl.classes]
  | path, .field d => by
    simp [plans, decls, Plan.allClasses, Decl.classes]
  | path, .nested head members => by
    rw [plans, decls, Plan.allClasses, head.classes_plan, allClasses_fieldPlans,
      allClasses_allPlans, Plan.allClasses, List.append_nil, List.nil_append]
    rfl

theorem allClasses_allPlans : ∀ (path : List String) (ms : List Member),
    Plan.allClasses path (allPlans ms) = (Decl.classes (allDecls path ms)).map Prod.fst
  | path, [] => rfl
  | path, m :: rest => by
    rw [allPlans, allDecls, Plan.allClasses_append, Decl.classes_append, List.map_append,
      allClasses_plans, allClasses_allPlans]

end

theorem fieldPlans_cons (m : Member) (ms : List Member) :
    fieldPlans (m :: ms) = fieldPlans [m] ++ fieldPlans ms := by
  cases m <;> simp [fieldPlans]

mutual

theorem allFields_plans : ∀ (path : List String) (m : Member),
    (Plan.allFields path (fieldPlans [m]) ++ Plan.allFields path m.plans).Perm
      ((Decl.fields (m.decls path)).map fun x => (x.1, x.2.name.text))
  | path, .method m => by
    simp [plans, decls, fieldPlans, Plan.allFields, Method.plan, Plan.fields, Decl.fields]
  | path, .field d => by
    simp [plans, decls, fieldPlans, Plan.allFields, Decl.fields, d.allFields_plans,
      Function.comp_def]
  | path, .nested head members => by
    have hinner := allFields_allPlans (path ++ [head.name.text]) members
    rw [plans, decls, Plan.allFields, head.fields_plan, Plan.allFields, List.append_nil]
    exact hinner

theorem allFields_allPlans : ∀ (path : List String) (ms : List Member),
    (Plan.allFields path (fieldPlans ms) ++ Plan.allFields path (allPlans ms)).Perm
      ((Decl.fields (allDecls path ms)).map fun x => (x.1, x.2.name.text))
  | path, [] => .refl _
  | path, m :: rest => by
    rw [fieldPlans_cons, allPlans, allDecls, Plan.allFields_append, Plan.allFields_append,
      Decl.fields_append, List.map_append, List.append_assoc]
    have hm := allFields_plans path m
    have hrest := allFields_allPlans path rest
    refine List.Perm.trans ?_ (hm.append hrest)
    rw [List.append_assoc]
    exact (List.perm_append_comm_assoc _ _ _).append_left _

end

end Member

theorem ClassDecl.classes_plan (c : ClassDecl) :
    c.plan.classes [] = (Decl.classes (c.decls [])).map Prod.fst := by
  rw [plan, c.head.classes_plan, Member.allClasses_fieldPlans, Member.allClasses_allPlans]
  rfl

theorem ClassDecl.fields_plan (c : ClassDecl) :
    (c.plan.fields []).Perm ((Decl.fields (c.decls [])).map fun x => (x.1, x.2.name.text)) := by
  rw [plan, c.head.fields_plan]
  exact Member.allFields_allPlans _ _

/-- The lines of a module can be read as blocks, after the four lines that every module starts with
there is one block, and it declares what the class of the unit does. Each line stands as deep as the
braces around it say, four spaces for each. -/
theorem module_mirrors_classes {u : CompilationUnit} {options : Options} {listing : Listing}
    (hf : u.isFresh = true) (hc : (compile u options).result = .ok (some listing)) :
    ∃ c top, u.top = some c ∧
      blocks listing.lines = some (Lowering.preamble options ++ [top]) ∧
      braceDepth listing.lines = 0 ∧
      (∀ before p after, listing.lines = before ++ p :: after → p.line.isLabel = false →
        p.depth = (if p.line = .closeBrace then braceDepth before - 1 else braceDepth before) ∧
          p.render listing.library = String.ofList (List.replicate (4 * p.depth) ' ') ++
            p.line.spell listing.library ++ "\n") ∧
      top.plan? = some c.plan ∧ ((c.plan.classes []).map classToken).Nodup ∧
      ((c.plan.fields []).map fun x => (classToken x.1, nameToken x.2)).Nodup := by
  obtain ⟨t, c, top, htop, ha, -, hblocks, hshows⟩ := accepted_shows hf hc
  obtain ⟨source, hsource, hplan⟩ := plan_of_compile htop
  have hdecls : (compile u options).unit.decls = c.decls [] := by
    rw [CompilationUnit.decls, htop, Option.elim_some]
  have hdeclares := ha.declares
  have hfilled := fun d hd => (ha.prepared d hd).filled
  rw [hdecls] at hdeclares hfilled
  refine ⟨source, top, hsource, hblocks, braceDepth_of_blocks hblocks, ?_, ?_, ?_, ?_⟩
  · intro before p after hsplit hl
    rw [hsplit] at hblocks
    exact ⟨depth_of_blocks hblocks hl, p.render_eq listing.library⟩
  · rw [← hplan]
    exact LineTree.plan?_of_allPlans? hshows.plans
  · rw [← hplan, c.classes_plan]
    exact (hdeclares.nodup_classes hfilled).map fun _ _ => classToken_injective
  · rw [← hplan, (c.fields_plan.map _).nodup_iff]
    refine (hdeclares.nodup_fields hfilled).map fun x y hxy => ?_
    obtain ⟨hpath, hname⟩ := Prod.mk.inj hxy
    exact Prod.ext (classToken_injective hpath) (nameToken_injective hname)

theorem module_mirrors_classes_sample : Sample.unit.isFresh = true ∧ ∃ listing,
    (compile Sample.unit .default).result = .ok (some listing) ∧ ∃ c top,
      Sample.unit.top = some c ∧ c.plan.classes [] = [["Tally"], ["Tally", "Cell"]] ∧
      c.plan.fields [] = [(["Tally"], "total"), (["Tally"], "own"), (["Tally", "Cell"], "next")] ∧
      blocks listing.lines = some (Lowering.preamble .default ++ [top]) ∧
      top.plan? = some c.plan := by
  obtain ⟨listing, hl, -⟩ := Sample.unit_accepted
  have hf : Sample.unit.isFresh = true := by decide
  obtain ⟨c, top, hc, hblocks, -, -, hplan, -⟩ := module_mirrors_classes hf hl
  refine ⟨hf, listing, hl, c, top, hc, ?_, ?_, hblocks, hplan⟩
  · cases hc
    decide
  · cases hc
    decide

end ClassLang
