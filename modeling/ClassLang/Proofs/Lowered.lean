import ClassLang.Lowering.Unit
import ClassLang.Proofs.Coded

/-! What obeys the typing rules can be written out whole: the code of its methods, their locals, and
the lines of its declarations. -/
namespace ClassLang

open Assembly

namespace Lowering

open Typing

theorem mem_insertLocal {slot : UInt16} {s : Symbol} {found : List (UInt16 × Symbol)}
    {x : UInt16 × Symbol} : x ∈ insertLocal slot s found ↔ x = (slot, s) ∨ x ∈ found := by
  induction found with
  | nil => simp [insertLocal]
  | cons o rest ih =>
    rw [insertLocal]
    split
    · rw [List.mem_cons, ih, List.mem_cons]
      exact or_left_comm
    · rw [List.mem_cons]

def IsLocal (slots : List VarSlot) (x : UInt16 × Symbol) : Prop :=
  ∃ v ∈ slots, ∃ type, v.symbol = some x.2 ∧ x.2.details = .var type (.slot x.1)

theorem isLocal_append {a b : List VarSlot} {x : UInt16 × Symbol} :
    IsLocal (a ++ b) x ↔ IsLocal a x ∨ IsLocal b x := by
  simp only [IsLocal, List.mem_append, or_and_right, exists_or]

def Gathers (slots : List VarSlot) (found : List (UInt16 × Symbol))
    (result : Except Fault (List (UInt16 × Symbol))) : Prop :=
  (∀ found', result = .ok found' → ∀ x, x ∈ found' ↔ x ∈ found ∨ IsLocal slots x) ∧
    ((∀ v ∈ slots, v.symbol ≠ none) → ∃ found', result = .ok found')

theorem gathers_nil (found : List (UInt16 × Symbol)) : Gathers [] found (.ok found) := by
  refine ⟨?_, fun _ => ⟨found, rfl⟩⟩
  rintro _ ⟨⟩ x
  simp [IsLocal]

theorem Gathers.bind {a b : List VarSlot} {found : List (UInt16 × Symbol)}
    {first : Except Fault (List (UInt16 × Symbol))}
    {rest : List (UInt16 × Symbol) → Except Fault (List (UInt16 × Symbol))}
    (ha : Gathers a found first) (hb : ∀ found', Gathers b found' (rest found')) :
    Gathers (a ++ b) found (first >>= rest) := by
  cases first with
  | error fault =>
    refine ⟨fun _ h => (by cases h), fun hf => ?_⟩
    obtain ⟨_, h⟩ := ha.2 fun v hv => hf v (List.mem_append_left b hv)
    cases h
  | ok mid =>
    refine ⟨fun found' h x => ?_, fun hf => ?_⟩
    · rw [(hb mid).1 found' h x, ha.1 mid rfl x, isLocal_append, or_assoc]
    · exact (hb mid).2 fun v hv => hf v (List.mem_append_right a hv)

theorem gatherVars_gathers (type : TypeExpr) {vars : List Declarator} :
    ∀ {found : List (UInt16 × Symbol)},
      Gathers (vars.map fun v => ⟨v.name.text, type, v.symbol⟩) found (gatherVars vars found) := by
  induction vars with
  | nil => exact gathers_nil _
  | cons v vars ih =>
    intro found
    rw [gatherVars, List.map_cons]
    cases hv : v.symbol with
    | none =>
      refine ⟨fun _ h => (by cases h), fun hf => ?_⟩
      exact absurd rfl (hf _ List.mem_cons_self)
    | some s =>
      have hfirst : ∀ mid, Gathers [⟨v.name.text, type, some s⟩] found (.ok mid) →
          Gathers (⟨v.name.text, type, some s⟩ :: vars.map fun v => ⟨v.name.text, type, v.symbol⟩)
            found (gatherVars vars mid) := fun mid hmid => hmid.bind fun _ => ih
      simp only [registered, bind, Except.bind]
      split
      · next ty index hd =>
        refine hfirst _ ⟨?_, fun _ => ⟨_, rfl⟩⟩
        rintro _ ⟨⟩ ⟨i, b⟩
        rw [mem_insertLocal, or_comm]
        refine or_congr_right ⟨?_, ?_⟩
        · rintro ⟨⟩
          exact ⟨_, List.mem_cons_self, ty, rfl, hd⟩
        · rintro ⟨_, hmem, ty', hsym, hd'⟩
          rw [List.mem_singleton] at hmem
          subst hmem
          cases hsym
          rw [hd] at hd'
          cases hd'
          rfl
      · next hno =>
        refine hfirst found ⟨?_, fun _ => ⟨_, rfl⟩⟩
        rintro _ ⟨⟩ ⟨i, b⟩
        refine (or_iff_left ?_).symm
        rintro ⟨_, hmem, ty', hsym, hd'⟩
        rw [List.mem_singleton] at hmem
        subst hmem
        cases hsym
        exact hno _ _ hd'

mutual

theorem gatherLocals_gathers : ∀ {stmt : Stmt} {found : List (UInt16 × Symbol)},
    Gathers stmt.slots found (gatherLocals stmt found)
  | .locals d, _ => by
    rw [Stmt.slots, gatherLocals]
    exact gatherVars_gathers d.type
  | .block body _, _ => by
    rw [Stmt.slots, gatherLocals]
    exact gatherAllLocals_gathers
  | .ifThen _ thenBody _, _ => by
    rw [Stmt.slots, gatherLocals]
    exact gatherLocals_gathers
  | .ifElse _ thenBody elseBody _, _ => by
    rw [Stmt.slots, gatherLocals]
    exact gatherLocals_gathers.bind fun _ => gatherLocals_gathers
  | .loop _ body _, _ => by
    rw [Stmt.slots, gatherLocals]
    exact gatherLocals_gathers
  | .expr .., _ => by
    rw [Stmt.slots, gatherLocals]
    · exact gathers_nil _
    all_goals simp
  | .ret .., _ => by
    rw [Stmt.slots, gatherLocals]
    · exact gathers_nil _
    all_goals simp
  | .empty _, _ => by
    rw [Stmt.slots, gatherLocals]
    · exact gathers_nil _
    all_goals simp

theorem gatherAllLocals_gathers : ∀ {body : List Stmt} {found : List (UInt16 × Symbol)},
    Gathers (Stmt.allSlots body) found (gatherAllLocals body found)
  | [], _ => by
    rw [Stmt.allSlots, gatherAllLocals]
    exact gathers_nil _
  | _ :: _, _ => by
    rw [Stmt.allSlots, gatherAllLocals]
    exact gatherLocals_gathers.bind fun _ => gatherAllLocals_gathers

end

theorem ownSlots_of_checked {ctx : Context} {r : Resolutions} {stmt : Stmt}
    (h : HeadChecked ctx r stmt) : ∀ v ∈ stmt.ownSlots, ∀ b, v.symbol = some b →
      ctx.table.Bound b ∧ (r.type? b).isSome = true := by
  cases stmt with
  | locals d =>
    intro v hv b hb
    obtain ⟨w, hw, rfl⟩ := List.mem_map.mp hv
    obtain ⟨b', T, hb', hr, -, hT, -⟩ := h w hw
    obtain rfl : b = b' := Option.some.inj (hb.symm.trans hb')
    exact ⟨hr.1, Option.isSome_iff_exists.mpr ⟨T, hT⟩⟩
  | _ => simp [Stmt.ownSlots]

theorem slots_of_checked {ctx : Context} {r : Resolutions} {stmt : Stmt}
    (h : StmtChecked ctx r stmt) : ∀ v ∈ stmt.slots, ∀ b, v.symbol = some b →
      ctx.table.Bound b ∧ (r.type? b).isSome = true := by
  obtain ⟨hhead, hbodies⟩ := stmtChecked_iff.mp h
  rw [Stmt.slots_eq, List.forall_mem_append, Stmt.allSlots_eq]
  refine ⟨ownSlots_of_checked hhead, fun v hv => ?_⟩
  obtain ⟨x, hx, hv⟩ := List.mem_flatMap.mp hv
  exact slots_of_checked (stmtsChecked_iff.mp hbodies x hx) v hv
termination_by sizeOf stmt
decreasing_by exact Stmt.sizeOf_bodies hx

theorem allSlots_of_checked {ctx : Context} {r : Resolutions} {body : List Stmt}
    (h : StmtsChecked ctx r body) : ∀ v ∈ Stmt.allSlots body, ∀ b, v.symbol = some b →
      ctx.table.Bound b ∧ (r.type? b).isSome = true := by
  rw [Stmt.allSlots_eq]
  intro v hv
  obtain ⟨x, hx, hv⟩ := List.mem_flatMap.mp hv
  exact slots_of_checked (stmtsChecked_iff.mp h x hx) v hv

namespace Writer

def Whole (w : Writer) : Prop := ∀ pen, (w pen).fault = none

theorem whole_line (l : Line) : (line l).Whole := fun _ => rfl

theorem whole_move (f : Pen → Pen) : (move f).Whole := fun _ => rfl

theorem whole_skip : skip.Whole := whole_move id

theorem Whole.append {a b : Writer} (ha : a.Whole) (hb : b.Whole) : (a ++ b).Whole := by
  intro pen
  change (seq a b pen).fault = none
  unfold seq
  have hap := ha pen
  generalize a pen = x at hap ⊢
  obtain ⟨xs, after, fault⟩ := x
  obtain rfl : fault = none := hap
  exact hb after

theorem Whole.block {body : Writer} (h : body.Whole) : (block body).Whole :=
  (((whole_line _).append (whole_move _)).append h).append ((whole_move _).append (whole_line _))

theorem Whole.need {α : Type} {value : Except Fault α} {rest : α → Writer}
    (h : ∃ a, value = .ok a ∧ (rest a).Whole) : (need value rest).Whole := by
  obtain ⟨a, rfl, ha⟩ := h
  exact ha

theorem whole_code {c : Code} (h : ∀ n, (c n).fault = none) : (code c).Whole :=
  fun pen => h pen.nextLabel

theorem whole_instrs (is : List Instr) : (instrs is).Whole := whole_code fun _ => rfl

end Writer

structure Prepared (t : Table) (entry : Option Nat) (r : Resolutions) (d : Decl) : Prop where
  bound : ∀ b ∈ d.symbols, t.Bound b
  placed : d.Placed
  filled : d.Filled
  checked : DeclChecked t entry r d

section Declarations

variable {t : Table} {target : Target} (hw : Writable t target.resolutions)
include hw

theorem symbolType_of_isSome {b : Symbol} (hb : t.Bound b)
    (h : (target.resolutions.type? b).isSome = true) :
    ∃ a, symbolType target.resolutions b = .ok a := by
  obtain ⟨T, hT⟩ := Option.isSome_iff_exists.mp h
  obtain ⟨a, ha⟩ := hw.types hb hT
  exact ⟨a, symbolType_ok hT ha⟩

theorem localEntries_ok {found : List (UInt16 × Symbol)}
    (h : ∀ x ∈ found, t.Bound x.2 ∧ (target.resolutions.type? x.2).isSome = true) :
    ∃ entries, target.localEntries found = .ok entries := by
  induction found with
  | nil => exact ⟨[], rfl⟩
  | cons x found ih =>
    obtain ⟨hb, hs⟩ := h x List.mem_cons_self
    obtain ⟨a, ha⟩ := symbolType_of_isSome hw hb hs
    obtain ⟨entries, he⟩ := ih fun y hy => h y (List.mem_cons_of_mem _ hy)
    refine ⟨⟨x.1, a, x.2.name⟩ :: entries, ?_⟩
    simp [Target.localEntries, ha, he, bind, Except.bind, pure, Except.pure]

theorem paramEntries_ok {params : List Param}
    (h : ∀ p ∈ params, ∃ b, p.symbol = some b ∧ t.Bound b ∧
      (target.resolutions.type? b).isSome = true) :
    ∃ entries, target.paramEntries params = .ok entries := by
  induction params with
  | nil => exact ⟨[], rfl⟩
  | cons p params ih =>
    obtain ⟨b, hb, hbound, hs⟩ := h p List.mem_cons_self
    obtain ⟨a, ha⟩ := symbolType_of_isSome hw hbound hs
    obtain ⟨entries, he⟩ := ih fun q hq => h q (List.mem_cons_of_mem _ hq)
    refine ⟨(a, b.name) :: entries, ?_⟩
    simp [Target.paramEntries, registered, hb, ha, he, bind, Except.bind, pure, Except.pure]

theorem method_whole {path : List String} {m : Method}
    (h : Prepared t target.entry target.resolutions (.method path m)) :
    (target.method m).Whole := by
  obtain ⟨b, hb⟩ := Option.ne_none_iff_exists'.mp h.filled.1
  obtain ⟨⟨-, htype, hparams⟩, scope, body, -, hbody, hchecked⟩ := h.checked b hb
  have hbound : t.Bound b := h.bound b (by simp [Decl.symbols, hb])
  obtain ⟨returns, hreturns⟩ := symbolType_of_isSome hw hbound htype
  have hentries : ∃ entries, target.paramEntries m.params = .ok entries := by
    refine paramEntries_ok hw fun p hp => ?_
    obtain ⟨q, hq⟩ := Option.ne_none_iff_exists'.mp (h.filled.2.1 p hp)
    refine ⟨q, hq, h.bound q ?_, hparams p hp q hq⟩
    simp only [Decl.symbols, Method.vars, Method.paramSymbols, List.mem_append, List.mem_filterMap]
    exact Or.inr (Or.inl ⟨p, hp, hq⟩)
  obtain ⟨entries, hentries⟩ := hentries
  have hslots : m.bodySlots = Stmt.allSlots body := by simp [Method.bodySlots, hbody]
  have hbodyWhole : (target.methodBody (runsStatic target.entry b) body).Whole := by
    have hgather : Gathers (Stmt.allSlots body) [] (gatherAllLocals body []) :=
      gatherAllLocals_gathers
    obtain ⟨found, hfound⟩ := hgather.2 fun v hv => h.filled.2.2 v (hslots ▸ hv)
    refine Writer.Whole.need ⟨found, hfound, Writer.Whole.need ?_⟩
    have hlocals : ∃ locals, target.localEntries found = .ok locals := by
      refine localEntries_ok hw fun x hx => ?_
      rcases (hgather.1 found hfound x).mp hx with hx | ⟨v, hv, _, hsym, -⟩
      · cases hx
      · exact allSlots_of_checked hchecked v hv _ hsym
    obtain ⟨locals, hlocals⟩ := hlocals
    refine ⟨locals, hlocals, ?_⟩
    have hline : (Target.localsLine locals).Whole := by
      unfold Target.localsLine
      split
      · exact Writer.whole_skip
      · exact Writer.whole_line _
    have hserves : Serves (target.frame !runsStatic target.entry b) ⟨t, scope, some b, target.entry⟩
        target.resolutions := ⟨rfl, rfl, rfl⟩
    have hcode : ∀ n, (lowerStmts (target.frame !runsStatic target.entry b) body n).fault =
        none := by
      intro n
      obtain ⟨_, _, hitems, -⟩ := stmtsCodes_of_checked hserves hw hchecked n
      rw [hitems]
    exact (((hline.append (Writer.whole_move _)).append (Writer.whole_code hcode)).append
      (Writer.whole_instrs _)).append (Writer.whole_move _)
  unfold Target.method
  refine Writer.Whole.need ⟨b, by simp [registered, hb], ?_⟩
  refine Writer.Whole.need ⟨returns, hreturns, Writer.Whole.need ⟨entries, hentries, ?_⟩⟩
  refine (Writer.whole_line _).append (Writer.Whole.block ?_)
  refine Writer.Whole.append (Writer.Whole.append ?_ (Writer.whole_line _)) ?_
  · split
    · exact Writer.whole_line _
    · exact Writer.whole_skip
  · rw [hbody]
    exact hbodyWhole

theorem fieldVars_whole {path : List String} {d : VarDecl}
    (hd : Prepared t target.entry target.resolutions (.field path d)) {vars : List Declarator}
    (hin : ∀ v ∈ vars, v ∈ d.vars) : (target.fieldVars d.modifiers vars).Whole := by
  induction vars with
  | nil => exact Writer.whole_skip
  | cons v vars ih =>
    refine Writer.Whole.append ?_ (ih fun x hx => hin x (List.mem_cons_of_mem _ hx))
    have hv := hin v List.mem_cons_self
    have hslot : (⟨v.name.text, d.type, v.symbol⟩ : VarSlot) ∈ d.slots := List.mem_map_of_mem hv
    obtain ⟨b, hb⟩ := Option.ne_none_iff_exists'.mp (hd.filled _ hslot)
    have hbound := hd.bound b (List.mem_filterMap.mpr ⟨_, hslot, hb⟩)
    obtain ⟨a, ha⟩ := symbolType_of_isSome hw hbound ((hd.checked v hv).2 b hb)
    refine Writer.Whole.need ⟨b, by simp [registered, show v.symbol = some b from hb], ?_⟩
    exact Writer.Whole.need ⟨a, ha, Writer.whole_line _⟩

theorem fields_whole {path : List String} {members : List Member}
    (h : ∀ d, .field d ∈ members → Prepared t target.entry target.resolutions (.field path d)) :
    (target.fields members).Whole := by
  induction members with
  | nil => exact Writer.whole_skip
  | cons m rest ih =>
    have hrest := ih fun d hd => h d (List.mem_cons_of_mem _ hd)
    cases m with
    | method m => exact hrest
    | nested head members => exact hrest
    | field d => exact (fieldVars_whole hw (h d List.mem_cons_self) fun _ hv => hv).append hrest

end Declarations

theorem clsWith_whole {t : Table} {target : Target} {path : List String} {nested : Bool}
    {head : ClassHead} {members : List Member} {rest : Writer}
    (hc : Prepared t target.entry target.resolutions (.cls path head))
    (hf : (target.fields members).Whole) (hr : rest.Whole) :
    (target.clsWith nested head members rest).Whole := by
  obtain ⟨b, hb⟩ := Option.ne_none_iff_exists'.mp hc.filled
  refine Writer.Whole.need ⟨b, by simp [registered, hb], ?_⟩
  rw [(hc.placed b hb).2.2]
  refine (Writer.whole_line _).append (Writer.Whole.block ((hf.append hr).append ?_))
  split
  · exact Writer.whole_skip
  · exact (Writer.whole_line _).append
      (Writer.Whole.block ((Writer.whole_line _).append (Writer.whole_instrs _)))

theorem field_mem_allDecls {path : List String} {members : List Member} {d : VarDecl}
    (h : .field d ∈ members) : .field path d ∈ Member.allDecls path members :=
  Member.mem_allDecls h (by simp [Member.decls])

mutual

theorem member_whole {t : Table} {target : Target} (hw : Writable t target.resolutions) :
    ∀ {path : List String} {m : Member},
      (∀ d ∈ m.decls path, Prepared t target.entry target.resolutions d) → (target.member m).Whole
  | path, .method m, h => by
    rw [Member.decls] at h
    rw [Target.member]
    exact method_whole hw (h _ List.mem_cons_self)
  | _, .field d, _ => by
    rw [Target.member]
    exact Writer.whole_skip
  | path, .nested head members, h => by
    rw [Member.decls] at h
    have hrest : ∀ d ∈ Member.allDecls (path ++ [head.name.text]) members,
        Prepared t target.entry target.resolutions d := fun d hd => h d (List.mem_cons_of_mem _ hd)
    rw [Target.member]
    exact clsWith_whole (h _ List.mem_cons_self)
      (fields_whole hw fun d hd => hrest _ (field_mem_allDecls hd)) (members_whole hw hrest)

theorem members_whole {t : Table} {target : Target} (hw : Writable t target.resolutions) :
    ∀ {path : List String} {ms : List Member},
      (∀ d ∈ Member.allDecls path ms, Prepared t target.entry target.resolutions d) →
      (target.members ms).Whole
  | _, [], _ => by
    rw [Target.members]
    exact Writer.whole_skip
  | path, _ :: _, h => by
    rw [Member.allDecls] at h
    rw [Target.members]
    exact (member_whole hw fun d hd => h d (List.mem_append_left _ hd)).append
      (members_whole hw fun d hd => h d (List.mem_append_right _ hd))

end

theorem program_whole {t : Table} {target : Target} {c : ClassDecl}
    (hw : Writable t target.resolutions)
    (h : ∀ d ∈ c.decls [], Prepared t target.entry target.resolutions d) :
    (target.program c).Whole := by
  have hmembers : ∀ d ∈ Member.allDecls ([] ++ [c.head.name.text]) c.members,
      Prepared t target.entry target.resolutions d := fun d hd => h d (List.mem_cons_of_mem _ hd)
  have hfields : (target.fields c.members).Whole :=
    fields_whole hw fun d hd => hmembers _ (field_mem_allDecls hd)
  exact ((((Writer.whole_line _).append (Writer.whole_line _)).append
    (Writer.whole_line _)).append (Writer.whole_line _)).append
    (clsWith_whole (h _ List.mem_cons_self) hfields (members_whole hw hmembers))

/-- A unit whose declarations can all be written has its assembly. -/
theorem assemble_ok {t : Table} {u : CompilationUnit} {c : ClassDecl} {r : Resolutions}
    {options : Options} (htop : u.top = some c) (hw : Writable t r)
    (h : ∀ d ∈ u.decls, Prepared t (options.entry.resolve c) r d) :
    ∃ listing, assemble u r options = .ok listing := by
  rw [CompilationUnit.decls, htop, Option.elim_some] at h
  have hwhole : (Target.program ⟨options, r, options.entry.resolve c⟩ c).Whole :=
    program_whole hw h
  have hfault := hwhole Pen.start
  simp only [assemble, Generator.unit, htop, Generator.write, Generator.start, hfault]
  exact ⟨_, rfl⟩

end Lowering

end ClassLang
