import ClassLang.Proofs.Accepted
import ClassLang.Proofs.Blocks

/-! What a unit declares and what the blocks of a listing declare, put in the same form. Each class
has a block, with a line for each field, then a block for each method and each nested class in
source order, and at last the block of its constructor, if it has one. The lines of a method are
known exactly, given the code of its body. -/
namespace ClassLang

open Assembly

/-- What a class declares, without types and code. -/
inductive Plan where
  | field (access : Access) (isStatic : Bool) (name : String)
  | method (access : Access) (name : String) (params : List String)
  | ctor
  | cls (nested : Bool) (access : Access) (isStatic : Bool) (name : String) (parts : List Plan)

def Method.plan (m : Method) : Plan :=
  .method (Modifier.access m.modifiers) m.name.text (m.params.map fun p => p.name.text)

def VarDecl.plans (d : VarDecl) : List Plan :=
  d.vars.map fun v =>
    .field (Modifier.access d.modifiers) (Modifier.isStatic d.modifiers) v.name.text

/-- Fields come first, and a constructor last. -/
def ClassHead.plan (head : ClassHead) (nested : Bool) (fields others : List Plan) : Plan :=
  .cls nested (Modifier.access head.modifiers) (Modifier.isStatic head.modifiers) head.name.text
    (fields ++ others ++ if Modifier.isStatic head.modifiers then [] else [.ctor])

namespace Member

def fieldPlans : List Member → List Plan
  | [] => []
  | .field d :: rest => d.plans ++ fieldPlans rest
  | _ :: rest => fieldPlans rest

mutual

def plans : Member → List Plan
  | .method m => [m.plan]
  | .field _ => []
  | .nested head members => [head.plan true (fieldPlans members) (allPlans members)]

def allPlans : List Member → List Plan
  | [] => []
  | m :: rest => m.plans ++ allPlans rest

end

end Member

def ClassDecl.plan (c : ClassDecl) : Plan :=
  c.head.plan false (Member.fieldPlans c.members) (Member.allPlans c.members)

namespace Assembly

def Line.fieldPlan? : Line → Option Plan
  | .field access isStatic _ name => some (.field access isStatic name)
  | _ => none

def Line.codePlan? : Line → Option Plan
  | .method access _ _ name params => some (.method access name (params.map Prod.snd))
  | .ctor => some .ctor
  | _ => none

structure MethodBlock where
  owner : List String
  isStatic : Bool
  name : String
  lines : List Line

namespace LineTree

def line? : LineTree → Option Line
  | .line l => some l
  | .block .. => none

mutual

/-- What a tree declares. In a class there are declarations only, and in a method only lines. -/
def plan? : LineTree → Option Plan
  | .line l => l.fieldPlan?
  | .block (.cls nested access isStatic name) body =>
    (allPlans? body).map (.cls nested access isStatic name)
  | .block head body => if body.all fun tree => tree.line?.isSome then head.codePlan? else none

def allPlans? : List LineTree → Option (List Plan)
  | [] => some []
  | tree :: rest => tree.plan?.bind fun plan => (allPlans? rest).map (plan :: ·)

end

mutual

def methodBlocks (path : List String) : LineTree → List MethodBlock
  | .line _ => []
  | .block (.cls _ _ _ name) body => allMethodBlocks (path ++ [name]) body
  | .block (.method _ isStatic _ name _) body => [⟨path, isStatic, name, body.filterMap line?⟩]
  | .block _ _ => []

def allMethodBlocks (path : List String) : List LineTree → List MethodBlock
  | [] => []
  | tree :: rest => tree.methodBlocks path ++ allMethodBlocks path rest

end

theorem allPlans?_append (xs ys : List LineTree) :
    allPlans? (xs ++ ys) = (allPlans? xs).bind fun a => (allPlans? ys).map (a ++ ·) := by
  induction xs with
  | nil => simp [allPlans?]
  | cons x xs ih =>
    rw [List.cons_append, allPlans?, allPlans?, ih]
    cases x.plan? with
    | none => rfl
    | some plan =>
      cases allPlans? xs with
      | none => rfl
      | some plans => cases allPlans? ys <;> rfl

theorem length_of_allPlans? {xs : List LineTree} {ps : List Plan} (h : allPlans? xs = some ps) :
    ps.length = xs.length := by
  induction xs generalizing ps with
  | nil =>
    cases h
    rfl
  | cons x xs ih =>
    rw [allPlans?, Option.bind_eq_some_iff] at h
    obtain ⟨p, -, h⟩ := h
    obtain ⟨qs, hqs, rfl⟩ := Option.map_eq_some_iff.mp h
    rw [List.length_cons, List.length_cons, ih hqs]

theorem plan?_of_allPlans? {x : LineTree} {p : Plan} (h : allPlans? [x] = some [p]) :
    x.plan? = some p := by
  rw [allPlans?, Option.bind_eq_some_iff] at h
  obtain ⟨q, hq, h⟩ := h
  cases h
  exact hq

theorem allMethodBlocks_append (path : List String) (xs ys : List LineTree) :
    allMethodBlocks path (xs ++ ys) = allMethodBlocks path xs ++ allMethodBlocks path ys := by
  induction xs with
  | nil => simp [allMethodBlocks]
  | cons x xs ih => simp [allMethodBlocks, ih]

theorem all_line (lines : List Line) :
    ((lines.map LineTree.line).all fun tree => tree.line?.isSome) = true := by
  simp [line?]

theorem filterMap_line (lines : List Line) : (lines.map LineTree.line).filterMap line? = lines := by
  simp [List.filterMap_map, Function.comp_def, line?]

theorem allPlans?_method (access : Access) (isStatic : Bool) (returns : AsmType) (name : String)
    (params : List (AsmType × String)) (lines : List Line) :
    allPlans? [.block (.method access isStatic returns name params) (lines.map .line)] =
      some [.method access name (params.map Prod.snd)] := by
  simp only [allPlans?, plan?, all_line, Line.codePlan?, if_true, Option.bind_some, Option.map_some]

theorem allMethodBlocks_method (path : List String) (access : Access) (isStatic : Bool)
    (returns : AsmType) (name : String) (params : List (AsmType × String)) (lines : List Line) :
    allMethodBlocks path [.block (.method access isStatic returns name params) (lines.map .line)] =
      [⟨path, isStatic, name, lines⟩] := by
  simp only [allMethodBlocks, methodBlocks, filterMap_line, List.append_nil]

theorem map_line_allPlaced (depth : Nat) (lines : List Line) :
    (allPlaced depth (lines.map .line)).map Placed.line = lines := by
  induction lines with
  | nil => rfl
  | cons l lines ih => simp [allPlaced, placed, ih]

theorem count_block {head : Line} (h : head ≠ .entryPoint) (depth : Nat) (body : List LineTree) :
    ((allPlaced depth [.block head body]).map Placed.line).count .entryPoint =
      ((allPlaced (depth + 1) body).map Placed.line).count .entryPoint := by
  simp [allPlaced, placed, List.count_append, h]

end LineTree

def localsLines (entries : List LocalEntry) : List Line :=
  if entries.isEmpty then [] else [.locals entries]

def MethodDef.lines (d : MethodDef) (isEntry : Bool) (maxStack : Nat) : List Line :=
  (if isEntry then [.entryPoint] else []) ++ [.maxStack maxStack] ++ localsLines d.locals ++
    d.code.map Lowering.Item.line

end Assembly

namespace Lowering

theorem line_ne_entryPoint (item : Item) : item.line ≠ .entryPoint := by
  cases item <;> simp [Item.line]

inductive EmitsBlock (t : Target) : List String × Method → MethodBlock → Prop
  | intro {path : List String} {m : Method} {b : Symbol} {d : MethodDef} (hb : m.symbol = some b)
    (hd : EmitsMethod t (path, m) d) : EmitsBlock t (path, m)
      ⟨path, d.isStatic, d.name, d.lines (t.entry == some b.id.number) t.options.maxStack⟩

structure Shows (t : Target) (path : List String) (plans : List Plan)
    (methods : List (List String × Method)) (trees : List LineTree) : Prop where
  plans : LineTree.allPlans? trees = some plans
  methods : List.Forall₂ (EmitsBlock t) methods (LineTree.allMethodBlocks path trees)
  entries : ∀ depth, ((LineTree.allPlaced depth trees).map Placed.line).count .entryPoint =
    ((LineTree.allMethodBlocks path trees).flatMap MethodBlock.lines).count .entryPoint

namespace Shows

variable {t : Target} {path : List String}

theorem nil : Shows t path [] [] [] := by
  refine ⟨rfl, by simpa only [LineTree.allMethodBlocks] using .nil, fun depth => ?_⟩
  simp [LineTree.allPlaced, LineTree.allMethodBlocks]

theorem append {ps qs : List Plan} {xs ys : List (List String × Method)} {as bs : List LineTree}
    (ha : Shows t path ps xs as) (hb : Shows t path qs ys bs) :
    Shows t path (ps ++ qs) (xs ++ ys) (as ++ bs) := by
  constructor
  · rw [LineTree.allPlans?_append, ha.plans, hb.plans]
    rfl
  · rw [LineTree.allMethodBlocks_append]
    exact List.rel_append ha.methods hb.methods
  · intro depth
    rw [LineTree.allPlaced_append, LineTree.allMethodBlocks_append, List.map_append,
      List.flatMap_append, List.count_append, List.count_append, ha.entries, hb.entries]

end Shows

theorem methodBody_prints (t : Target) (isStatic : Bool) (body : List Stmt) :
    (t.methodBody isStatic body).Prints fun trees => ∃ found locals items n next,
      gatherAllLocals body [] = .ok found ∧ t.localEntries found = .ok locals ∧
      lowerStmts (t.frame !isStatic) body n = ⟨items, next, none⟩ ∧
      trees = (localsLines locals ++ (items ++ [Item.instr .ret]).map Item.line).map .line := by
  refine .need fun found hfound => .need fun locals hlocals => ?_
  have hentries : (Target.localsLine locals).Prints
      (· = (localsLines locals).map .line) := by
    unfold Target.localsLine localsLines
    split
    · exact .skip
    · exact .line rfl rfl
  have hbefore : (Writer.move fun pen => { pen with hasThis := !isStatic }).Prints (· = []) :=
    .move fun _ => rfl
  have hafter : (Writer.move fun pen => { pen with hasThis := false }).Prints (· = []) :=
    .move fun _ => rfl
  have hret : (Writer.instrs [.ret]).Prints (· = [.line (.instr .ret)]) := by
    refine (Writer.Prints.code _).imp ?_
    rintro _ ⟨n, items, next, hcode, rfl⟩
    cases hcode
    rfl
  refine ((((hentries.append hbefore).append (.code _)).append hret).append hafter).imp ?_
  rintro _ ⟨_, _, rfl, ⟨_, _, rfl, ⟨_, _, rfl, ⟨_, _, rfl, rfl, rfl⟩,
    n, items, next, hcode, rfl⟩, rfl⟩, rfl⟩
  refine ⟨found, locals, items, n, next, hfound, hlocals, hcode, ?_⟩
  simp [Item.line]

theorem names_of_paramEntries {t : Target} {k : ScopeId} {i : UInt16} {params : List Param}
    {entries : List (AsmType × String)} (hp : Registration.ParamsPlaced k i params)
    (h : t.paramEntries params = .ok entries) :
    entries.map Prod.snd = params.map fun p => p.name.text := by
  have hnames : List.Forall₂ (fun p e => e.2 = p.name.text) params entries :=
    forall₂_imp_of_mem (paramEntries_inv h) fun p e hmem ⟨b, hb, _, hname⟩ =>
      hname.trans (hp.of_mem hmem hb).1
  clear hp h
  induction hnames with
  | nil => rfl
  | cons hname _ ih => rw [List.map_cons, List.map_cons, hname, ih]

theorem method_prints (t : Target) {path : List String} {m : Method}
    (hp : (Decl.method path m).Placed) :
    (t.method m).Prints (Shows t path [m.plan] [(path, m)]) := by
  refine .need fun b hb => .need fun returns hr => .need fun params hparams => ?_
  have hsym := symbol_of_registered hb
  simp only [Decl.Placed, hsym] at hp
  obtain ⟨⟨hname, -⟩, k, -, hplaced, -⟩ := hp
  have hentry : (if t.entry = some b.id.number then Writer.line .entryPoint else .skip).Prints
      (· = (if t.entry == some b.id.number then [.entryPoint] else []).map .line) := by
    by_cases he : t.entry = some b.id.number
    · simpa [he] using Writer.Prints.line (l := .entryPoint) rfl rfl
    · simpa [he] using Writer.Prints.skip
  dsimp only
  cases hm : m.body with
  | none =>
    have hnever : (Writer.fail (.missing .methodBody)).Prints fun _ => False := .fail _
    refine (Writer.Prints.block rfl rfl ((hentry.append (.line rfl rfl)).append hnever)).imp ?_
    rintro _ ⟨_, ⟨_, _, _, _, hfalse⟩, _⟩
    exact hfalse.elim
  | some body =>
    refine (Writer.Prints.block rfl rfl
      ((hentry.append (.line rfl rfl)).append (methodBody_prints t _ body))).imp ?_
    rintro _ ⟨_, ⟨_, _, rfl, ⟨_, _, rfl, rfl, rfl⟩,
      found, locals, items, n, next, hfound, hlocals, hcode, rfl⟩, rfl⟩
    have hinner : (if t.entry == some b.id.number then [.entryPoint] else []).map LineTree.line ++
        [.line (.maxStack t.options.maxStack)] ++
        (localsLines locals ++ (items ++ [Item.instr .ret]).map Item.line).map .line =
          (MethodDef.lines ⟨path, runsStatic t.entry b, returns, b.name, params, locals,
            items ++ [.instr .ret]⟩ (t.entry == some b.id.number) t.options.maxStack).map
            .line := by
      simp [MethodDef.lines]
    rw [hinner]
    constructor
    · rw [LineTree.allPlans?_method, names_of_paramEntries hplaced hparams, hname]
      rfl
    · rw [LineTree.allMethodBlocks_method]
      exact .cons (.intro hsym (.intro hsym hr hparams hm hfound hlocals hcode)) .nil
    · intro depth
      rw [LineTree.allMethodBlocks_method, LineTree.count_block (by simp),
        LineTree.map_line_allPlaced, List.flatMap_singleton]

theorem fieldVars_prints (t : Target) {path : List String} {d : VarDecl}
    (hp : (Decl.field path d).Placed) {vars : List Declarator} (hv : ∀ v ∈ vars, v ∈ d.vars) :
    (t.fieldVars d.modifiers vars).Prints (Shows t path ({ d with vars }).plans []) := by
  induction vars with
  | nil => exact Writer.Prints.skip.imp fun _ h => h ▸ .nil
  | cons v vars ih =>
    have hline : (t.fieldLine d.modifiers v).Prints
        (Shows t path (VarDecl.plans { d with vars := [v] }) []) := by
      refine .need fun b hb => .need fun type htype => (Writer.Prints.line rfl rfl).imp ?_
      rintro _ rfl
      obtain ⟨hname, hdet⟩ := hp ⟨v.name.text, d.type, v.symbol⟩
        (List.mem_map_of_mem (hv v List.mem_cons_self)) b (symbol_of_registered hb)
      simp only [hname, hdet]
      refine ⟨rfl, by simpa only [LineTree.allMethodBlocks, LineTree.methodBlocks] using .nil,
        fun depth => ?_⟩
      simp [LineTree.allPlaced, LineTree.placed, LineTree.allMethodBlocks, LineTree.methodBlocks]
    refine (hline.append (ih fun w hw => hv w (List.mem_cons_of_mem _ hw))).imp ?_
    rintro _ ⟨_, _, rfl, hx, hy⟩
    exact hx.append hy

theorem fields_prints (t : Target) {path : List String} {ms : List Member}
    (hp : ∀ d ∈ Member.allDecls path ms, d.Placed) :
    (t.fields ms).Prints (Shows t path (Member.fieldPlans ms) []) := by
  induction ms with
  | nil => exact Writer.Prints.skip.imp fun _ h => h ▸ .nil
  | cons m ms ih =>
    simp only [Member.allDecls, List.forall_mem_append] at hp
    cases m with
    | method m => exact ih hp.2
    | nested head members => exact ih hp.2
    | field d =>
      have hd : (Decl.field path d).Placed :=
        hp.1 _ (by rw [Member.decls]; exact List.mem_singleton_self _)
      refine ((fieldVars_prints t hd fun v hv => hv).append (ih hp.2)).imp ?_
      rintro _ ⟨_, _, rfl, hx, hy⟩
      exact hx.append hy

theorem defaultCtor_prints (t : Target) (path : List String) :
    t.defaultCtor.Prints (Shows t path [.ctor] []) := by
  refine (Writer.Prints.block rfl rfl ((Writer.Prints.line rfl rfl).append (.code _))).imp ?_
  rintro _ ⟨_, ⟨_, _, rfl, rfl, n, items, next, -, rfl⟩, rfl⟩
  have hlines : [LineTree.line (.maxStack t.options.maxStack)] ++ (items.map Item.line).map .line =
      (.maxStack t.options.maxStack :: items.map Item.line).map .line := rfl
  rw [hlines]
  constructor
  · simp only [LineTree.allPlans?, LineTree.plan?, LineTree.all_line, Line.codePlan?, if_true,
      Option.bind_some, Option.map_some]
  · simpa only [LineTree.allMethodBlocks, LineTree.methodBlocks] using .nil
  · intro depth
    rw [LineTree.count_block (by simp), LineTree.map_line_allPlaced]
    simp [LineTree.allMethodBlocks, LineTree.methodBlocks, List.count_eq_zero, line_ne_entryPoint]

theorem clsWith_prints (t : Target) {path : List String} (nested : Bool) {head : ClassHead}
    {members : List Member} {rest : Writer}
    (hp : ∀ d ∈ (ClassDecl.mk head members).decls path, d.Placed)
    (hrest : rest.Prints (Shows t (path ++ [head.name.text]) (Member.allPlans members)
      (Decl.methods (Member.allDecls (path ++ [head.name.text]) members)))) :
    (t.clsWith nested head members rest).Prints
      (Shows t path [head.plan nested (Member.fieldPlans members) (Member.allPlans members)]
        (Decl.methods ((ClassDecl.mk head members).decls path))) := by
  refine .need fun b hb => ?_
  obtain ⟨-, -, hdet⟩ := hp _ List.mem_cons_self b (symbol_of_registered hb)
  simp only [hdet]
  have hfields : (t.fields members).Prints
      (Shows t (path ++ [head.name.text]) (Member.fieldPlans members) []) :=
    fields_prints t fun d hd => hp d (List.mem_cons_of_mem _ hd)
  have hctor : (if Modifier.isStatic head.modifiers then .skip else t.defaultCtor).Prints
      (Shows t (path ++ [head.name.text])
        (if Modifier.isStatic head.modifiers then [] else [.ctor]) []) := by
    by_cases hs : Modifier.isStatic head.modifiers = true
    · rw [if_pos hs, if_pos hs]
      exact Writer.Prints.skip.imp fun _ h => h ▸ .nil
    · rw [if_neg hs, if_neg hs]
      exact defaultCtor_prints t _
  refine (Writer.Prints.block rfl rfl ((hfields.append hrest).append hctor)).imp ?_
  rintro _ ⟨_, ⟨_, _, rfl, ⟨_, _, rfl, hx, hy⟩, hz⟩, rfl⟩
  have hall := (hx.append hy).append hz
  rw [List.nil_append, List.append_nil] at hall
  constructor
  · simp only [LineTree.allPlans?, LineTree.plan?, hall.plans, Option.map_some, Option.bind_some]
    rfl
  · simp only [LineTree.allMethodBlocks, LineTree.methodBlocks, List.append_nil]
    exact hall.methods
  · intro depth
    rw [LineTree.count_block (by simp), hall.entries]
    simp only [LineTree.allMethodBlocks, LineTree.methodBlocks, List.append_nil]

mutual

theorem member_prints (t : Target) {path : List String} : ∀ {m : Member},
    (∀ d ∈ m.decls path, d.Placed) →
      (t.member m).Prints (Shows t path m.plans (Decl.methods (m.decls path)))
  | .method m, hp => by
    rw [Target.member, Member.plans, Member.decls]
    rw [Member.decls] at hp
    exact method_prints t (hp _ (List.mem_singleton_self _))
  | .field d, _ => by
    rw [Target.member, Member.plans, Member.decls]
    exact Writer.Prints.skip.imp fun _ h => h ▸ .nil
  | .nested head members, hp => by
    rw [Target.member, Member.plans]
    rw [Member.decls] at hp ⊢
    exact clsWith_prints t true hp
      (members_prints t fun d hd => hp d (List.mem_cons_of_mem _ hd))

theorem members_prints (t : Target) {path : List String} : ∀ {ms : List Member},
    (∀ d ∈ Member.allDecls path ms, d.Placed) →
      (t.members ms).Prints
        (Shows t path (Member.allPlans ms) (Decl.methods (Member.allDecls path ms)))
  | [], _ => by
    rw [Target.members, Member.allPlans, Member.allDecls]
    exact Writer.Prints.skip.imp fun _ h => h ▸ .nil
  | m :: rest, hp => by
    rw [Target.members, Member.allPlans, Member.allDecls, Decl.methods_append]
    rw [Member.allDecls, List.forall_mem_append] at hp
    refine ((member_prints t hp.1).append (members_prints t hp.2)).imp ?_
    rintro _ ⟨_, _, rfl, hx, hy⟩
    exact hx.append hy

end

def preamble (options : Options) : List LineTree :=
  [.line (.usesLibrary options.runtimeLibrary), .line (.assembly options.assemblyName),
   .line (.program options.assemblyName), .line .blank]

theorem program_prints (t : Target) {c : ClassDecl} (hp : ∀ d ∈ c.decls [], d.Placed) :
    (t.program c).Prints fun trees => ∃ top, trees = preamble t.options ++ [top] ∧
      Shows t [] [c.plan] (Decl.methods (c.decls [])) [top] := by
  have hclass := clsWith_prints t false hp
    (members_prints t fun d hd => hp d (List.mem_cons_of_mem _ hd))
  refine (((((Writer.Prints.line rfl rfl).append (.line rfl rfl)).append (.line rfl rfl)).append
    (.line rfl rfl)).append hclass).imp ?_
  rintro _ ⟨_, trees, rfl, ⟨_, _, rfl, ⟨_, _, rfl, ⟨_, _, rfl, rfl, rfl⟩, rfl⟩, rfl⟩, hshows⟩
  obtain ⟨top, rfl⟩ : ∃ top, trees = [top] :=
    List.length_eq_one_iff.mp (LineTree.length_of_allPlans? hshows.plans).symm
  exact ⟨top, rfl, hshows⟩

theorem assemble_shows {u : CompilationUnit} {c : ClassDecl} {r : Resolutions} {options : Options}
    {listing : Listing} (htop : u.top = some c) (hp : ∀ d ∈ u.decls, d.Placed)
    (h : assemble u r options = .ok listing) :
    ∃ top, listing.lines = LineTree.allPlaced 0 (preamble options ++ [top]) ∧
      blocks listing.lines = some (preamble options ++ [top]) ∧
      Shows ⟨options, r, options.entry.resolve c⟩ [] [c.plan] (Decl.methods u.decls) [top] := by
  simp only [assemble, Generator.unit, htop, Generator.write, Generator.start] at h
  rcases hw : Target.program ⟨options, r, options.entry.resolve c⟩ c Pen.start with
    ⟨lines, pen, fault⟩
  simp only [hw] at h
  rw [CompilationUnit.decls, htop, Option.elim_some] at hp ⊢
  cases fault with
  | some fault => cases h
  | none =>
    cases h
    obtain ⟨-, _, rfl, hproper, top, rfl, hshows⟩ := program_prints _ hp _ _ _ hw
    exact ⟨top, rfl, LineTree.blocks_allPlaced hproper, hshows⟩

end Lowering

theorem accepted_shows {u : CompilationUnit} {options : Options} {listing : Listing}
    (hf : u.isFresh = true) (hc : (compile u options).result = .ok (some listing)) :
    ∃ t c top, (compile u options).unit.top = some c ∧
      Accepted t ⟨options, (compile u options).resolutions, options.entry.resolve c⟩
        (compile u options).unit.decls listing.image ∧
      listing.lines = LineTree.allPlaced 0 (Lowering.preamble options ++ [top]) ∧
      blocks listing.lines = some (Lowering.preamble options ++ [top]) ∧
      Lowering.Shows ⟨options, (compile u options).resolutions, options.entry.resolve c⟩ []
        [c.plan] (Decl.methods (compile u options).unit.decls) [top] := by
  obtain ⟨t, c, htop, ha, hl⟩ := accepted_top hf hc
  obtain ⟨top, hlines, hblocks, hshows⟩ :=
    Lowering.assemble_shows htop (fun d hd => (ha.prepared d hd).placed) hl
  exact ⟨t, c, top, htop, ha, hlines, hblocks, hshows⟩

/-- The block of a method stands in its class and bears its name. -/
theorem Accepted.head_of_block {t : Table} {target : Lowering.Target} {ds : List Decl} {img : Image}
    (h : Accepted t target ds img) {x : List String × Method} {b : MethodBlock}
    (hx : x ∈ Decl.methods ds) (hb : Lowering.EmitsBlock target x b) :
    b.owner = x.1 ∧ b.name = x.2.name.text := by
  cases hb with
  | intro _ hd =>
    cases hd with
    | intro hs =>
      have hplaced := h.declares.placed _ (Decl.mem_methods.mp hx)
      simp only [Decl.Placed, hs] at hplaced
      exact ⟨rfl, hplaced.1.1⟩

end ClassLang
