import ClassLang.Proofs.Checked
import ClassLang.Proofs.Stripped

/-! Complete annotation. Typing goes on after a problem, so the tree it leaves is annotated
throughout, whatever was reported: every expression has its type, every name and every call that
has a type other than `error` is bound, and every registered symbol has its types on record. Only
what registration passed over is left as it was. -/
namespace ClassLang

/-- An expression in its place. -/
structure Node where
  isCallee : Bool
  expr : Expr

namespace Expr

mutual

def inner : Expr → List Node
  | .literal .. | .this _ | .name .. => []
  | .unary _ operand _ => ⟨false, operand⟩ :: operand.inner
  | .binary _ left right _ => ⟨false, left⟩ :: left.inner ++ ⟨false, right⟩ :: right.inner
  | .assign target value _ => ⟨false, target⟩ :: target.inner ++ ⟨false, value⟩ :: value.inner
  | .call callee args _ => ⟨true, callee⟩ :: callee.inner ++ allInner args
  | .create _ args _ => allInner args
  | .field target _ _ => ⟨false, target⟩ :: target.inner
  | .index target place _ => ⟨false, target⟩ :: target.inner ++ ⟨false, place⟩ :: place.inner

def allInner : List Expr → List Node
  | [] => []
  | e :: rest => ⟨false, e⟩ :: e.inner ++ allInner rest

end

def nodes (e : Expr) : List Node := ⟨false, e⟩ :: e.inner

end Expr

namespace Node

/-- Unless its type is `error`, a name outside of callee position and the class of a `new` are
bound, and the callee of a call is a name that is bound to a method. -/
def IsBound : Node → Prop
  | ⟨false, .name n note⟩ => note.type ≠ some .error → n.symbol ≠ none
  | ⟨_, .create n _ note⟩ => note.type ≠ some .error → n.symbol ≠ none
  | ⟨_, .call callee _ note⟩ => note.type ≠ some .error →
      ∃ n calleeNote m, callee = .name n calleeNote ∧ n.symbol = some m ∧ m.isMethod = true
  | _ => True

structure Complete (x : Node) : Prop where
  typed : x.expr.type ≠ none
  bound : x.IsBound

theorem Complete.callee {e : Expr} (h : Complete ⟨false, e⟩) : Complete ⟨true, e⟩ := by
  refine ⟨h.typed, ?_⟩
  cases e with
  | name => trivial
  | create | call => exact h.bound
  | _ => trivial

end Node

def Expr.Complete (e : Expr) : Prop := ∀ x ∈ e.nodes, x.Complete

def VarDecl.inits (d : VarDecl) : List Expr := d.vars.filterMap Declarator.init

namespace Stmt

def exprs : Stmt → List Expr
  | .expr value _ _ => [value]
  | .locals d => d.inits
  | .ifThen cond _ _ | .ifElse cond _ _ _ | .loop cond _ _ => [cond]
  | .ret value _ => value.toList
  | .block .. | .empty _ => []

def TypeKept (stmt : Stmt) : Prop :=
  ∀ value span type, stmt = .expr value span type → type = value.type

structure Complete (stmt : Stmt) : Prop where
  exprs : ∀ e ∈ stmt.exprs, e.Complete
  kept : stmt.TypeKept

end Stmt

/-- The statements of a method that was registered. -/
def Decl.stmts : Decl → List Stmt
  | .method _ m => if m.symbol.isSome then Stmt.allParts (m.body.getD []) else []
  | _ => []

/-- What is recorded for the symbols of a declaration: the type of every variable, and for a method
the type of its result and as many types as it has parameters. -/
def Decl.Recorded (r : Resolutions) : Decl → Prop
  | .method _ m =>
    (∀ b, m.symbol = some b → (r.type? b).isSome = true ∧
      ∃ Ts, r.params? b = some Ts ∧ Ts.length = m.params.length) ∧
    (∀ p ∈ m.params, ∀ b, p.symbol = some b → (r.type? b).isSome = true) ∧
    ∀ v ∈ m.bodySlots, ∀ b, v.symbol = some b → (r.type? b).isSome = true
  | .field _ d => ∀ v ∈ d.slots, ∀ b, v.symbol = some b → (r.type? b).isSome = true
  | .cls _ _ => True

namespace Member

mutual

/-- The initial values of fields in classes that were registered. `registered` tells it of the class
around. -/
def inits (registered : Bool) : Member → List Expr
  | .method _ => []
  | .field d => if registered then d.inits else []
  | .nested head members => allInits head.symbol.isSome members

def allInits (registered : Bool) : List Member → List Expr
  | [] => []
  | m :: rest => m.inits registered ++ allInits registered rest

end

end Member

namespace CompilationUnit

def stmts (u : CompilationUnit) : List Stmt := u.decls.flatMap Decl.stmts

/-- The expressions of these statements, and the initial values of fields. -/
def exprs (u : CompilationUnit) : List Expr :=
  u.stmts.flatMap Stmt.exprs ++
    u.top.elim [] fun c => Member.allInits c.head.symbol.isSome c.members

end CompilationUnit

namespace Typing

theorem map_method_offers (t : Table) (ms : List Symbol) :
    ∀ s : State, (offers t ms s).1.map Offer.method = ms := by
  induction ms with
  | nil => exact fun s => rfl
  | cons m ms ih => exact fun s => congrArg (m :: ·) (ih _)

/-- A call by name is bound to a method, unless its type is `error`. -/
theorem CalleeStep.bound {ctx : Context} {n n' : DottedName} {types : List Ty} {position : Position}
    {j : Judgement} {s s' : State} (h : CalleeStep ctx n types position s n' j s')
    (hj : j.type ≠ .error) : ∃ m, n'.symbol = some m ∧ m.isMethod = true := by
  cases h with
  | muted | lost | refused => exact absurd rfl hj
  | @chosen _ symbols found offer _ _ _ _ _ ho hp =>
    have hmem : offer.method ∈ symbols.filter Symbol.isMethod := by
      rw [← map_method_offers ctx.table (symbols.filter Symbol.isMethod) s, ho]
      exact List.mem_map_of_mem (chooseOffer_ok hp).1
    exact ⟨_, rfl, (List.mem_filter.mp hmem).2⟩

section

variable {ctx : Context} {e e' : Expr} {T : Ty} {xs : List Expr} {types : List Ty}
  {build : Note → Expr} {j : Judgement} {s s' : State}

theorem NodeStep.isBound (h : NodeStep ctx e xs types s build j s') (note : Note) :
    Node.IsBound ⟨false, build { note with type := some j.type }⟩ := by
  cases h with
  | lostName | lostClass | computed => exact fun hne => absurd rfl hne
  | refusedName | var | declaration | create => exact fun _ => by simp
  | call _ _ hc =>
    intro hne
    obtain ⟨m, hm, hk⟩ := hc.bound fun hj => hne (congrArg some hj)
    exact ⟨_, _, m, rfl, hm, hk⟩
  | literal | this | unary | binary | assign | field | index => trivial

theorem NodeStep.inner_complete (h : NodeStep ctx e xs types s build j s')
    (hx : ∀ x ∈ Expr.allInner xs, x.Complete) (note : Note) :
    ∀ x ∈ (build note).inner, x.Complete := by
  cases h with
  | call =>
    rw [Expr.inner, Expr.inner]
    exact List.forall_mem_cons.mpr ⟨⟨by simp [Expr.type, Expr.note], trivial⟩, hx⟩
  | computed =>
    obtain ⟨hcallee, hrest⟩ := List.forall_mem_cons.mp hx
    rw [Expr.inner]
    exact List.forall_mem_cons.mpr ⟨hcallee.callee, hrest⟩
  | literal | this | lostName | refusedName | var | declaration => simp [Expr.inner]
  | _ => simpa [Expr.inner, Expr.allInner] using hx

theorem InTurn.complete {es : List Expr}
    (h : InTurn (fun _ _ e' _ _ => e'.Complete) es s xs types s') :
    ∀ x ∈ Expr.allInner xs, x.Complete := by
  induction h with
  | nil => simp [Expr.allInner]
  | cons head _ ih =>
    rw [Expr.allInner]
    exact List.forall_mem_append.mpr ⟨head, ih⟩

theorem annotateExpr_complete (hf : e.isFresh = true)
    (h : annotateExpr ctx e s = ⟨e', .ok T, s'⟩) : e'.Complete := by
  refine Annotates.induct (P := fun _ _ e' _ _ => e'.Complete) ?_ ⟨hf, h⟩
  intro e e' T xs types build j s s₁ s₂ s' hrun hargs hstep hset
  have htype := hrun.outline.2.2
  have hinner := (hargs.imp fun _ _ {_ _ _ _} hx => hx.2).complete
  cases hset
  refine List.forall_mem_cons.mpr ⟨⟨?_, hstep.isBound e.note⟩, hstep.inner_complete hinner _⟩
  rw [htype]
  simp

end

def SlotsRecorded (r : Resolutions) (slots : List VarSlot) : Prop :=
  ∀ v ∈ slots, ∀ b, v.symbol = some b → (r.type? b).isSome = true

theorem SlotsRecorded.extend {s s' : State} (he : Extends s s') {slots : List VarSlot}
    (h : SlotsRecorded s.resolutions slots) : SlotsRecorded s'.resolutions slots :=
  fun v hv b hb => isSome_type?_mono he (h v hv b hb)

theorem SlotsRecorded.append {r : Resolutions} {a b : List VarSlot} (ha : SlotsRecorded r a)
    (hb : SlotsRecorded r b) : SlotsRecorded r (a ++ b) := List.forall_mem_append.mpr ⟨ha, hb⟩

section

variable {ctx : Context} {s s' : State}

theorem LocalStep.complete {type : TypeExpr} {v v' : Declarator}
    (h : LocalStep ctx type v s v' s') : (∀ e, v'.init = some e → e.Complete) ∧
      SlotsRecorded s'.resolutions [⟨v.name.text, type, v.symbol⟩] := by
  have hrec : ∀ {D s₁}, declaredType ctx type v s = (D, s₁) →
      SlotsRecorded s₁.resolutions [⟨v.name.text, type, v.symbol⟩] := fun hd =>
    List.forall_mem_singleton.mpr fun b hb =>
      Option.isSome_iff_exists.mpr ⟨_, (declaredType_found hd).2 b hb⟩
  cases h with
  | bare hi hd => exact ⟨by simp [hi], hrec hd⟩
  | init _ hd hv =>
    refine ⟨?_, (hrec hd).extend (hv.extends_.trans (expect_extends _ _ _ _))⟩
    rintro _ ⟨⟩
    exact annotateExpr_complete hv.fresh hv.run

theorem OneByOne.initsComplete {vars vars' : List Declarator}
    (h : OneByOne (fun _ _ v' _ => ∀ e, v'.init = some e → e.Complete) vars s vars' s') :
    ∀ e ∈ vars'.filterMap Declarator.init, e.Complete := by
  induction h with
  | nil => simp
  | cons head _ ih =>
    intro e he
    obtain ⟨x, hx, hxe⟩ := List.mem_filterMap.mp he
    rcases List.mem_cons.mp hx with rfl | hx
    · exact head e hxe
    · exact ih e (List.mem_filterMap.mpr ⟨x, hx, hxe⟩)

theorem OneByOne.localsRecorded {type : TypeExpr} {vars vars' : List Declarator}
    (h : OneByOne (LocalStep ctx type) vars s vars' s') :
    SlotsRecorded s'.resolutions (vars.map fun v => ⟨v.name.text, type, v.symbol⟩) := by
  induction h with
  | nil => simp [SlotsRecorded]
  | cons head tail ih =>
    have hext := (tail.imp fun _ _ {_ _ _} hx => hx.extends_).extends_
    exact (head.complete.2.extend hext).append ih

theorem CondStep.complete {cond cond' : Expr} (h : CondStep ctx cond s cond' s') :
    cond'.Complete := by
  cases h with
  | fits hv | refused hv => exact annotateExpr_complete hv.fresh hv.run

theorem ReturnStep.complete {value value' : Option Expr} {span : Span}
    (h : ReturnStep ctx span value s value' s') : ∀ e ∈ value'.toList, e.Complete := by
  cases h with
  | bare => simp
  | value _ _ hv => simpa using annotateExpr_complete hv.fresh hv.run

theorem StmtStep.complete {stmt stmt' : Stmt} {bodies : List Stmt}
    (h : StmtStep ctx stmt s s' bodies stmt') :
    stmt'.Complete ∧ SlotsRecorded s'.resolutions stmt.ownSlots := by
  cases h with
  | block | empty =>
    exact ⟨⟨by simp [Stmt.exprs], by simp [Stmt.TypeKept]⟩, by simp [Stmt.ownSlots, SlotsRecorded]⟩
  | expr hv =>
    refine ⟨⟨?_, ?_⟩, by simp [Stmt.ownSlots, SlotsRecorded]⟩
    · exact List.forall_mem_singleton.mpr (annotateExpr_complete hv.fresh hv.run)
    · rintro _ _ _ ⟨⟩
      exact hv.outline.2.2.symm
  | locals hv =>
    exact ⟨⟨(hv.imp fun _ _ {_ _ _} hx => hx.complete.1).initsComplete, by simp [Stmt.TypeKept]⟩,
      hv.localsRecorded⟩
  | ifThen hc | ifElse hc | loop hc =>
    exact ⟨⟨List.forall_mem_singleton.mpr hc.complete, by simp [Stmt.TypeKept]⟩,
      by simp [Stmt.ownSlots, SlotsRecorded]⟩
  | ret hv =>
    exact ⟨⟨hv.complete, by simp [Stmt.TypeKept]⟩, by simp [Stmt.ownSlots, SlotsRecorded]⟩

end

structure Leaves (s : State) (parts : List Stmt) (slots : List VarSlot) : Prop where
  complete : ∀ x ∈ parts, x.Complete
  recorded : SlotsRecorded s.resolutions slots

namespace Leaves

variable {s s' : State} {a b : List Stmt} {x y : List VarSlot}

theorem extend (h : Leaves s a x) (he : Extends s s') : Leaves s' a x :=
  ⟨h.complete, h.recorded.extend he⟩

theorem append (h : Leaves s a x) (k : Leaves s b y) : Leaves s (a ++ b) (x ++ y) :=
  ⟨List.forall_mem_append.mpr ⟨h.complete, k.complete⟩, h.recorded.append k.recorded⟩

theorem nil (s : State) : Leaves s [] [] := ⟨by simp, by simp [SlotsRecorded]⟩

end Leaves

theorem OneByOne.leaves {body body' : List Stmt} {s s' : State}
    (h : OneByOne (fun x s x' s' => Extends s s' ∧ Leaves s' x'.parts x.slots) body s body' s') :
    Leaves s' (Stmt.allParts body') (Stmt.allSlots body) := by
  induction h with
  | nil =>
    rw [Stmt.allParts, Stmt.allSlots]
    exact .nil _
  | cons head tail ih =>
    rw [Stmt.allParts, Stmt.allSlots]
    exact (head.2.extend (tail.imp fun _ _ {_ _ _} hx => hx.1).extends_).append ih

theorem Passes.leaves {ctx : Context} {stmt stmt' : Stmt} {s s' : State}
    (h : Passes ctx stmt s stmt' s') : Leaves s' stmt'.parts stmt.slots := by
  refine Passes.induct (P := fun x _ x' s' => Leaves s' x'.parts x.slots) ?_ h
  intro stmt stmt' bodies s s₁ s' _ hstep hbodies
  have hext := (hbodies.imp fun _ _ {_ _ _} hx => hx.1.extends_).extends_
  have hleaves := (hbodies.imp fun _ _ {_ _ _} hx => ⟨hx.1.extends_, hx.2⟩).leaves
  obtain ⟨hc, hrec⟩ := hstep.complete
  rw [Stmt.parts_eq, Stmt.slots_eq, hstep.bodies_eq]
  exact ⟨List.forall_mem_cons.mpr ⟨hc, hleaves.complete⟩,
    (hrec.extend hext).append hleaves.recorded⟩

theorem annotateStmts_leaves {ctx : Context} {body body' : List Stmt} {s s' : State}
    (hf : Stmt.allFresh (Stmt.eraseAll body) = true)
    (h : annotateStmts ctx body s = ⟨body', .ok (), s'⟩) :
    Leaves s' (Stmt.allParts body') (Stmt.allSlots body) :=
  ((oneByOne_of_annotateStmts hf h).imp fun _ _ {_ _ _} hx => ⟨hx.extends_, hx.leaves⟩).leaves

structure DeclComplete (r : Resolutions) (d : Decl) : Prop where
  recorded : d.Recorded r
  stmts : ∀ x ∈ d.stmts, x.Complete

theorem DeclComplete.extend {s s' : State} (he : Extends s s') {d : Decl}
    (h : DeclComplete s.resolutions d) : DeclComplete s'.resolutions d := by
  refine ⟨?_, h.stmts⟩
  cases d with
  | method path m =>
    obtain ⟨hown, hparams, hslots⟩ := h.recorded
    refine ⟨fun b hb => ?_, fun p hp b hb => isSome_type?_mono he (hparams p hp b hb),
      fun v hv b hb => isSome_type?_mono he (hslots v hv b hb)⟩
    obtain ⟨ht, Ts, hTs, hlen⟩ := hown b hb
    exact ⟨isSome_type?_mono he ht, Ts, he.params hTs, hlen⟩
  | field path d => exact fun v hv b hb => isSome_type?_mono he (h.recorded v hv b hb)
  | cls path head => trivial

theorem declComplete_of_symbols {r : Resolutions} {d : Decl} (h : d.symbols = []) :
    DeclComplete r d := by
  cases d with
  | method path m =>
    simp only [Decl.symbols, Method.vars, Method.paramSymbols, VarSlot.symbols,
      List.append_eq_nil_iff, List.filterMap_eq_nil_iff, Option.toList_eq_nil_iff] at h
    obtain ⟨hown, hparams, hslots⟩ := h
    refine ⟨⟨by simp [hown], fun p hp b hb => ?_, fun v hv b hb => ?_⟩, by simp [Decl.stmts, hown]⟩
    · rw [hparams p hp] at hb
      cases hb
    · rw [hslots v hv] at hb
      cases hb
  | field path d =>
    simp only [Decl.symbols, VarSlot.symbols, List.filterMap_eq_nil_iff] at h
    refine ⟨fun v hv b hb => ?_, by simp [Decl.stmts]⟩
    rw [h v hv] at hb
    cases hb
  | cls path head => exact ⟨trivial, by simp [Decl.stmts]⟩

theorem annotateMethod_complete {ctx : Context} {tag : Nat} {ds : List Decl}
    (h : Declares ctx.table tag ds) {path : List String} {m m' : Method} {s s' : State}
    (hd : .method path m ∈ ds) (hf : m.erase.isFresh = true)
    (hfill : s.diagnostics = [] → (Decl.method path m).Filled)
    (hfaith : Faithful ctx.table s) (hv : annotateMethod ctx m s = ⟨m', .ok (), s'⟩) :
    DeclComplete s'.resolutions (.method path m') := by
  cases hb : m.symbol with
  | none =>
    simp only [annotateMethod, hb] at hv
    cases hv
    have hplaced := h.placed _ hd
    simp only [Decl.Placed, hb] at hplaced
    exact declComplete_of_symbols (by simp [Decl.symbols, hb, hplaced])
  | some b =>
    obtain ⟨hbound, hmeth, -⟩ := method_declared h hd hb
    obtain ⟨k, s1, body, body', he, hbody, rfl, hstmts⟩ := annotateMethod_enters h hd hfaith hb hv
    have hfb := isFresh_body hf hbody
    have hbs : m.bodySlots = Stmt.allSlots body := by simp [Method.bodySlots, hbody]
    have hsound : (Context.mk ctx.table k (some b) ctx.entry).table.Sound := h.sound
    have hown : ∀ x, some b = some x → ctx.table.Bound x ∧ x.isMethod = true := by
      rintro _ ⟨⟩
      exact ⟨hbound, hmeth⟩
    have hplaced := hbs ▸ he.localsPlaced h hd hb hfill
    have hcheck := annotateStmts_checks hsound hown hfb he.ready hplaced hstmts
    have hleaves := annotateStmts_leaves hfb hstmts
    have hext := hcheck.grows.extends_
    have htyped := fun p hp q hq => isSome_type?_mono hext (he.typed p hp q hq)
    refine ⟨⟨fun b' hb' => ?_, htyped, ?_⟩, ?_⟩
    · obtain rfl : b = b' := Option.some.inj (hb.symm.trans hb')
      obtain ⟨Ts, hTs, hlen⟩ := he.params
      exact ⟨isSome_type?_mono hext he.result, Ts, hext.params hTs, hlen⟩
    · rw [show Method.bodySlots { m with body := some body' } = Stmt.allSlots body from
        hcheck.slots]
      exact hleaves.recorded
    · simpa [Decl.stmts, hb] using hleaves.complete

theorem FieldStep.complete {ctx : Context} {type : TypeExpr} {v v' : Declarator} {s s' : State}
    (h : FieldStep ctx type v s v' s') : ∀ e, v'.init = some e → e.Complete := by
  cases h with
  | bare hi => simp [hi]
  | refused _ _ hv =>
    rintro _ ⟨⟩
    exact annotateExpr_complete hv.fresh hv.run

theorem annotateField_complete {ctx : Context} (path : List String) {d d' : VarDecl} {s s' : State}
    (hf : d.erase.isFresh = true) (hv : annotateField ctx d s = ⟨d', .ok (), s'⟩) :
    DeclComplete s'.resolutions (.field path d') ∧ ∀ e ∈ d'.inits, e.Complete := by
  obtain ⟨vars, rfl, hsteps⟩ := oneByOne_of_annotateField hf hv
  refine ⟨⟨?_, by simp [Decl.stmts]⟩,
    (hsteps.imp fun _ _ {_ _ _} hx => hx.complete).initsComplete⟩
  have hslots := (hsteps.imp fun _ _ {_ _ _} hx => hx.slot_eq).slots_eq d.type
  simpa only [Decl.Recorded, VarDecl.slots, hslots, List.forall_mem_map] using hsteps.fieldsRecorded

mutual

/-- A class that was passed over has no initial values that typing sees. -/
theorem inits_of_isFresh : ∀ {m : Member}, m.isFresh = true → m.inits false = []
  | .method m, _ => by rw [Member.inits]
  | .field d, _ => by
    rw [Member.inits]
    rfl
  | .nested head members, h => by
    rw [Member.isFresh, Bool.and_eq_true, ClassHead.isFresh, Option.isNone_iff_eq_none] at h
    rw [Member.inits, h.1]
    exact allInits_of_allFresh h.2

theorem allInits_of_allFresh : ∀ {ms : List Member}, Member.allFresh ms = true →
    Member.allInits false ms = []
  | [], _ => by rw [Member.allInits]
  | m :: rest, h => by
    rw [Member.allFresh, Bool.and_eq_true] at h
    rw [Member.allInits, inits_of_isFresh h.1, allInits_of_allFresh h.2]
    rfl

end

structure MembersComplete (s : State) (path : List String) (ms : List Member) : Prop where
  decls : ∀ d ∈ Member.allDecls path ms, DeclComplete s.resolutions d
  inits : ∀ e ∈ Member.allInits true ms, e.Complete

theorem annotateClassWith_complete {ctx : Context} {tag : Nat} {ds : List Decl}
    (h : Declares ctx.table tag ds) {path : List String} {head : ClassHead} {members : List Member}
    {body : Context → Visit State (List Member) Unit} {c : ClassDecl} {s s' : State}
    (hcls : .cls (path ++ [head.name.text]) head ∈ ds)
    (hpassed : head.symbol = none → Member.allFresh members = true)
    (hbody : ∀ {k members' s'}, ctx.table.PathOf k (path ++ [head.name.text]) →
      head.symbol ≠ none →
      body { ctx with scope := k, method := none } s = ⟨members', .ok (), s'⟩ →
      MembersComplete s' (path ++ [head.name.text]) members')
    (hv : annotateClassWith ctx head members body s = ⟨c, .ok (), s'⟩) :
    (∀ d ∈ c.decls path, DeclComplete s'.resolutions d) ∧
      ∀ e ∈ Member.allInits c.head.symbol.isSome c.members, e.Complete := by
  have hself : ∀ r, DeclComplete r (.cls (path ++ [head.name.text]) head) := fun r =>
    ⟨trivial, by simp [Decl.stmts]⟩
  cases classStep_of_annotateClassWith hv with
  | passed hb =>
    refine ⟨List.forall_mem_cons.mpr ⟨hself _, fun d hd => ?_⟩, ?_⟩
    · exact declComplete_of_symbols
        (Decl.symbols_of_isFresh (Member.isFresh_of_mem_allDecls (hpassed hb) hd))
    · simp [hb, allInits_of_allFresh (hpassed hb)]
  | entered hb hk hm =>
    have hc := hbody (cls_scope h hcls hb hk) (by simp [hb]) hm
    exact ⟨List.forall_mem_cons.mpr ⟨hself _, hc.decls⟩, by simpa [hb] using hc.inits⟩

mutual

theorem annotateMember_complete {ctx : Context} {tag : Nat} {ds : List Decl}
    (h : Declares ctx.table tag ds) {path : List String} {m m' : Member} {s s' : State}
    (hin : ∀ d ∈ m.decls path, d ∈ ds) (hf : m.erase.isFresh = true) {outer : ScopeId}
    (hset : m.Settled ctx.table outer) (hfill : s.diagnostics = [] → ∀ d ∈ ds, d.Filled)
    (hfaith : Faithful ctx.table s) (hv : annotateMember ctx m s = ⟨m', .ok (), s'⟩) :
    (∀ d ∈ m'.decls path, DeclComplete s'.resolutions d) ∧ ∀ e ∈ m'.inits true, e.Complete := by
  cases m with
  | method m =>
    rw [annotateMember] at hv
    rw [Member.erase, Member.isFresh] at hf
    obtain ⟨m', hm, rfl⟩ := Visit.within_ok_iff.mp hv
    have hd : Decl.method path m ∈ ds := hin _ (by rw [Member.decls]; exact List.mem_cons_self)
    have hc := annotateMethod_complete h hd hf (fun hdiag => hfill hdiag _ hd) hfaith hm
    rw [Member.decls, Member.inits]
    exact ⟨List.forall_mem_singleton.mpr hc, by simp⟩
  | field d =>
    rw [annotateMember] at hv
    rw [Member.erase, Member.isFresh] at hf
    obtain ⟨d', hm, rfl⟩ := Visit.within_ok_iff.mp hv
    obtain ⟨hc, hes⟩ := annotateField_complete path hf hm
    rw [Member.decls, Member.inits]
    exact ⟨List.forall_mem_singleton.mpr hc, hes⟩
  | nested head members =>
    rw [annotateMember] at hv
    rw [Member.erase, Member.isFresh, Bool.and_eq_true] at hf
    obtain ⟨c, hm, rfl⟩ := Visit.within_ok_iff.mp hv
    rw [Member.decls] at hin
    rw [Member.Settled] at hset
    rw [Member.decls, Member.inits]
    exact annotateClassWith_complete h (hin _ List.mem_cons_self)
      (fun hnone => by rwa [hnone] at hset)
      (fun {k _ _} hpath hne hb => by
        have h' : Declares (Context.mk ctx.table k none ctx.entry).table tag ds := h
        obtain ⟨b, hsym⟩ := Option.ne_none_iff_exists'.mp hne
        rw [hsym] at hset
        obtain ⟨j, -, -, -, hall⟩ := hset
        exact annotateMembers_complete h' hpath (fun d hd => hin d (List.mem_cons_of_mem _ hd))
          hf.2 hall hfill hfaith hb) hm

theorem annotateMembers_complete {ctx : Context} {tag : Nat} {ds : List Decl}
    (h : Declares ctx.table tag ds) {path : List String} (hp : ctx.table.PathOf ctx.scope path)
    {ms ms' : List Member} {s s' : State} (hin : ∀ d ∈ Member.allDecls path ms, d ∈ ds)
    (hf : Member.allFresh (Member.eraseAll ms) = true) {outer : ScopeId}
    (hset : Member.AllSettled ctx.table outer ms)
    (hfill : s.diagnostics = [] → ∀ d ∈ ds, d.Filled) (hfaith : Faithful ctx.table s)
    (hv : annotateMembers ctx ms s = ⟨ms', .ok (), s'⟩) : MembersComplete s' path ms' := by
  cases ms with
  | nil =>
    rw [annotateMembers] at hv
    cases hv
    exact ⟨by simp [Member.allDecls], by simp [Member.allInits]⟩
  | cons m rest =>
    rw [annotateMembers] at hv
    rw [Member.eraseAll, Member.allFresh, Bool.and_eq_true] at hf
    rw [Member.allDecls] at hin
    rw [Member.AllSettled] at hset
    obtain ⟨m', _, s1, h1, h2⟩ := Visit.part_ok_iff.mp hv
    obtain ⟨rest', hrest, rfl⟩ := Visit.within_ok_iff.mp h2
    have hleft := fun d hd => hin d (List.mem_append_left _ hd)
    have hright := fun d hd => hin d (List.mem_append_right _ hd)
    have hg := (annotateMember_checks h hp hleft hf.1 hfill hfaith h1).2.grows
    have hfill1 := fun hdiag => hfill (hg.extends_.quiet hdiag)
    have hgs :=
      (annotateMembers_checks h hp hright hf.2 hfill1 (hg.faithful hfaith) hrest).2.grows
    obtain ⟨hds, hes⟩ := annotateMember_complete h hleft hf.1 hset.1 hfill hfaith h1
    have hms := annotateMembers_complete h hp hright hf.2 hset.2 hfill1 (hg.faithful hfaith) hrest
    constructor
    · rw [Member.allDecls]
      exact List.forall_mem_append.mpr ⟨fun d hd => (hds d hd).extend hgs.extends_, hms.decls⟩
    · rw [Member.allInits]
      exact List.forall_mem_append.mpr ⟨hes, hms.inits⟩

end

end Typing

open Typing

/-- Typing that comes to its end has annotated a fresh unit completely, whatever it reported, and
changed nothing else. -/
theorem annotations_complete {u registered u' : CompilationUnit} {tag : Nat}
    {reports : List Diagnostic} {choice : EntryChoice} {s : Registration.State} {s' : State}
    (hf : u.isFresh = true)
    (hr : Registration.registerUnit u (.withSystem tag) reports = ⟨registered, .ok (), s⟩)
    (hv : annotateUnit registered s.table choice ⟨.empty, s.diagnostics⟩ = ⟨u', .ok (), s'⟩) :
    u'.strip = u ∧ (∀ e ∈ u'.exprs, ∀ x ∈ e.nodes, x.expr.type ≠ none ∧ x.IsBound) ∧
      (∀ value span type, .expr value span type ∈ u'.stmts → type = value.type) ∧
      ∀ d ∈ u'.decls, d.Recorded s'.resolutions := by
  have hstrip : u'.strip = u := by
    have htyp := annotateUnit_strip registered s.table choice ⟨.empty, s.diagnostics⟩
    have hreg := Registration.registerUnit_strip u (.withSystem tag) reports
    rw [hv] at htyp
    rw [hr] at hreg
    exact (htyp.trans hreg).trans (CompilationUnit.strip_of_isFresh hf)
  obtain ⟨herase, hreg⟩ := Registration.registerUnit_registers hf hr
  have hfresh := CompilationUnit.isFresh_erase hf
  rw [← herase] at hfresh
  obtain ⟨_ | c⟩ := registered
  · cases hv
  obtain ⟨c', hc, rfl⟩ := Visit.within_ok_iff.mp hv
  simp only [CompilationUnit.isFresh, CompilationUnit.erase, Option.map_some, Option.all_some,
    ClassDecl.erase, Bool.and_eq_true] at hfresh
  have hset := (Registration.registerUnit_settles hf hr rfl).settled
  rw [Member.AllSettled, Member.Settled] at hset
  have hdecl : Declares s.table tag (c.decls []) := hreg.declares
  have hfaith := faithful_empty s.table s.diagnostics
  have hroot : Declares (Context.mk s.table Table.root none (choice.resolve c)).table tag
      (c.decls []) := hdecl
  have hcls : .cls ([] ++ [c.head.name.text]) c.head ∈ c.decls [] := List.mem_cons_self
  obtain ⟨hdecls, hinits⟩ := annotateClassWith_complete hroot hcls
    (fun hnone => by
      rw [hnone] at hset
      exact hset.1)
    (fun {k _ _} hpath hne hb => by
      have h' : Declares (Context.mk s.table k none (choice.resolve c)).table tag (c.decls []) :=
        hdecl
      obtain ⟨b, hsym⟩ := Option.ne_none_iff_exists'.mp hne
      rw [hsym] at hset
      obtain ⟨⟨j, -, -, -, hall⟩, -⟩ := hset
      exact annotateMembers_complete h' hpath (fun d hd => List.mem_cons_of_mem _ hd) hfresh.2
        hall hreg.filled hfaith hb) hc
  have hstmts : ∀ x ∈ (CompilationUnit.mk (some c')).stmts, x.Complete := by
    intro x hx
    obtain ⟨d, hd, hx⟩ := List.mem_flatMap.mp hx
    exact (hdecls d hd).stmts x hx
  refine ⟨hstrip, ?_, fun value span type hx => (hstmts _ hx).kept _ _ _ rfl,
    fun d hd => (hdecls d hd).recorded⟩
  have hall : ∀ e ∈ (CompilationUnit.mk (some c')).exprs, e.Complete := by
    refine List.forall_mem_append.mpr ⟨fun e he => ?_, hinits⟩
    obtain ⟨stmt, hstmt, he⟩ := List.mem_flatMap.mp he
    exact (hstmts stmt hstmt).exprs e he
  exact fun e he x hx => ⟨(hall e he x hx).typed, (hall e he x hx).bound⟩

/-- Much is wrong here: a parameter, a local and a class are declared twice, a field has an initial
value, and names, calls and operands are bad. -/
def Sample.troubled : CompilationUnit :=
  ⟨some ⟨⟨.plain "Main", [], none, [], none⟩,
    [.field (decl [.static] (word .int) [("f", some (call "missing" [num 1]))]),
     method [.static] (.named [.plain "Gone"] .null) "run" [(word .int, "n"), (word .int, "n")]
       [.locals (decl [] (word .int) [("x", some (str "s")), ("x", some (ref "y"))]),
        .loop (ref "n") (.block
          [set "x" (bin .add (ref "n") (call "run" [ref "n", bin .and (ref "x") (num 2)])),
           run (.index (.field (call "run" [num 0, num 1]) (.plain "g") note) (.this note) note)]
          .null) .null,
        run (.call (.create (.parse "Main") [ref "z"] note) [.create (.parse "Main") [] note] note),
        ret (num 1)],
     .nested ⟨.plain "f", [], none, [], none⟩
       [.field (decl [] (word .int) [("q", some (num 1))])]]⟩⟩

theorem annotations_complete_troubled : ∃ registered s u' s',
    Registration.registerUnit Sample.troubled (.withSystem 3) [] = ⟨registered, .ok (), s⟩ ∧
      annotateUnit registered s.table .firstStatic ⟨.empty, s.diagnostics⟩ = ⟨u', .ok (), s'⟩ ∧
      s.diagnostics.length = 3 ∧ s'.diagnostics.length = 16 ∧
      (u'.exprs.flatMap Expr.nodes).length = 28 ∧ u'.strip = Sample.troubled ∧
      (∀ e ∈ u'.exprs, ∀ x ∈ e.nodes, x.expr.type ≠ none ∧ x.IsBound) ∧
      (∀ value span type, .expr value span type ∈ u'.stmts → type = value.type) ∧
      ∀ d ∈ u'.decls, d.Recorded s'.resolutions := by
  have hreg : (Registration.registerUnit Sample.troubled (.withSystem 3) []).answer.isOk = true ∧
      (Registration.registerUnit Sample.troubled (.withSystem 3) []).state.diagnostics.length =
        3 := by decide +kernel
  have htyp : ∀ r, Registration.registerUnit Sample.troubled (.withSystem 3) [] = r →
      ∀ v, annotateUnit r.node r.state.table .firstStatic ⟨.empty, r.state.diagnostics⟩ = v →
        v.answer.isOk = true ∧ v.state.diagnostics.length = 16 ∧
          (v.node.exprs.flatMap Expr.nodes).length = 28 := by
    rintro _ rfl _ rfl
    decide +kernel
  generalize hr : Registration.registerUnit Sample.troubled (.withSystem 3) [] = r at hreg
  obtain ⟨registered, _ | ⟨⟩, s⟩ := r
  · cases hreg.1
  have hvisit := htyp _ hr _ rfl
  generalize hv : annotateUnit registered s.table .firstStatic ⟨.empty, s.diagnostics⟩ = v at hvisit
  obtain ⟨u', _ | ⟨⟩, s'⟩ := v
  · cases hvisit.1
  exact ⟨registered, s, u', s', rfl, hv, hreg.2, hvisit.2.1, hvisit.2.2,
    annotations_complete (by decide) hr hv⟩

end ClassLang
