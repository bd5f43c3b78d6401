import ClassLang.Proofs.Machine
import ClassLang.Proofs.Verified

/-! Values of programs and what the machine holds for them. A running method and its activation
agree: every variable has its value, of its type, in its own place. Agreement holds when a method
starts and survives every store. -/
namespace ClassLang

open Assembly Typing

def Value.cell : Value → Cell
  | .int n => .word n
  | .bool b => .truth b
  | .str s => .str s
  | .null => .null
  | .ref number => .ref number

namespace World

def cells (w : World Value) : World Cell :=
  ⟨fun owner name => (w.statics owner name).cell, w.objects, w.output⟩

theorem cells_setStatic (w : World Value) (owner : List String) (name : String) (v : Value) :
    (w.setStatic owner name v).cells = w.cells.setStatic owner name v.cell := by
  simp only [cells, setStatic, World.mk.injEq, and_true]
  funext o n
  split <;> rfl

end World

def Assembly.AsmType.holds : AsmType → Value → Bool
  | .int32, .int _ | .bool, .bool _ => true
  | .string, .str _ | .string, .null => true
  | .object, .null | .object, .ref _ | .cls _, .null | .cls _, .ref _ => true
  | _, _ => false

namespace Ty

def holds : Ty → Value → Bool
  | .int, .int _ | .boolean, .bool _ => true
  | .string, .str _ | .string, .null => true
  | .object, .null | .object, .ref _ | .this, .null | .this, .ref _ => true
  | .cls _, .null | .cls _, .ref _ | .null, .null => true
  | _, _ => false

def gives (T : Ty) : Option Value → Prop
  | some v => T.holds v = true
  | none => T.isValue = false

theorem holds_of_toAsm {T : Ty} {a : AsmType} (h : T.toAsm = .ok a) (v : Value) :
    T.holds v = a.holds v := by
  cases T with
  | cls c =>
    obtain ⟨_, _, _, -, rfl⟩ := toAsm_cls_eq_ok h
    cases v <;> rfl
  | null | error | declaration => cases h
  | _ =>
    cases h
    cases v <;> rfl

theorem isValue_of_holds {T : Ty} {v : Value} (h : T.holds v = true) : T.isValue = true := by
  cases T with
  | void | error | declaration => cases v <;> cases h
  | _ => rfl

end Ty

namespace Value

theorem string?_cell (v : Value) (h : Ty.string.holds v = true) :
    ∃ x, v.string? = some x ∧ v.cell.string? = some x := by
  cases v with
  | str s => exact ⟨some s, rfl, rfl⟩
  | null => exact ⟨none, rfl, rfl⟩
  | _ => cases h

theorem shown_cell {v : Value} {text : String} (h : v.shown = some text) :
    v.cell.shown = some text := by
  cases v with
  | bool | ref => cases h
  | _ => exact h

theorem of_holds_int {v : Value} (h : Ty.int.holds v = true) : ∃ n, v = .int n := by
  cases v with
  | int n => exact ⟨n, rfl⟩
  | _ => cases h

theorem of_holds_boolean {v : Value} (h : Ty.boolean.holds v = true) : ∃ b, v = .bool b := by
  cases v with
  | bool b => exact ⟨b, rfl⟩
  | _ => cases h

def isReference : Value → Bool
  | .str _ | .null | .ref _ => true
  | _ => false

theorem isReference_of_holds {T : Ty} {v : Value} (h : T.holds v = true) (hi : T ≠ .int)
    (hb : T ≠ .boolean) : v.isReference = true := by
  cases v with
  | int =>
    cases T with
    | int => exact absurd rfl hi
    | _ => cases h
  | bool =>
    cases T with
    | boolean => exact absurd rfl hb
    | _ => cases h
  | _ => rfl

theorem eq_of_string? {v : Value} {a : Option String} (h : v.string? = some a) :
    v = a.elim .null .str := by
  cases v <;> cases h <;> rfl

/-- Strings may be compared as values. -/
theorem string?_beq {v w : Value} {a b : Option String} (hv : v.string? = some a)
    (hw : w.string? = some b) : (v == w) = (a == b) := by
  rw [eq_of_string? hv, eq_of_string? hw, Bool.eq_iff_iff, beq_iff_eq, beq_iff_eq]
  cases a <;> cases b <;> simp

theorem apply_strings {op : BinaryOp} {v w : Value} {a b : Option String} (hv : v.string? = some a)
    (hw : w.string? = some b) (he : op ≠ .eq) (hn : op ≠ .ne) :
    op.apply v w = op.onStrings a b := by
  rw [eq_of_string? hv, eq_of_string? hw]
  cases op with
  | eq => exact absurd rfl he
  | ne => exact absurd rfl hn
  | _ => cases a <;> cases b <;> rfl

section

variable {T : Ty} {v w : Value} (hv : T.holds v = true) (hw : T.holds w = true)
include hv hw

theorem alike : (∃ a b, v = .int a ∧ w = .int b) ∨ (∃ a b, v = .bool a ∧ w = .bool b) ∨
    (v.isReference = true ∧ w.isReference = true) := by
  cases T with
  | int =>
    obtain ⟨a, rfl⟩ := of_holds_int hv
    obtain ⟨b, rfl⟩ := of_holds_int hw
    exact Or.inl ⟨a, b, rfl, rfl⟩
  | boolean =>
    obtain ⟨a, rfl⟩ := of_holds_boolean hv
    obtain ⟨b, rfl⟩ := of_holds_boolean hw
    exact Or.inr (Or.inl ⟨a, b, rfl, rfl⟩)
  | _ =>
    exact Or.inr (Or.inr ⟨isReference_of_holds hv (by simp) (by simp),
      isReference_of_holds hw (by simp) (by simp)⟩)

/-- Within a type values are equal if their cells are. -/
theorem cell_beq : (v.cell == w.cell) = (v == w) := by
  rw [Bool.eq_iff_iff, beq_iff_eq, beq_iff_eq]
  rcases alike hv hw with ⟨a, b, rfl, rfl⟩ | ⟨a, b, rfl, rfl⟩ | ⟨hrv, hrw⟩
  · simp [cell]
  · cases a <;> cases b <;> simp [cell, Cell.truth]
  · cases v <;> cases w <;> first | cases hrv; done | cases hrw; done | simp [cell]

end

end Value

namespace Lowering

variable {cmp : Comparison}

theorem computes_negation (cmp : Comparison) (b : Bool) (S : List Cell) :
    computes cmp negation (.truth b :: S) = some (.truth (!b) :: S) := by
  cases b <;> rfl

theorem unaryCode_computes (cmp : Comparison) {op : UnaryOp} {v r : Value}
    (hv : (operandType op).holds v = true) (hr : op.apply v = some r) (S : List Cell) :
    (operandType op).holds r = true ∧
      computes cmp (unaryCode op) (v.cell :: S) = some (r.cell :: S) := by
  cases op with
  | negate =>
    cases v with
    | int n =>
      cases hr
      exact ⟨rfl, rfl⟩
    | _ => cases hv
  | not =>
    cases v with
    | bool b =>
      cases hr
      exact ⟨rfl, computes_negation cmp b S⟩
    | _ => cases hv

theorem wordCode_computes {op : BinaryOp} {T : Ty} {v w r : Value} (ha : applies op T = true)
    (hs : T.same .string = false) (hv : T.holds v = true) (hw : T.holds w = true)
    (ho : op.apply v w = some r) (S : List Cell) :
    (if op.isComparison then Ty.boolean else T).holds r = true ∧
      computes cmp (wordCode op) (w.cell :: v.cell :: S) = some (r.cell :: S) := by
  have hint : T.same .int = true → ∃ a b, T = .int ∧ v = .int a ∧ w = .int b := by
    intro h
    obtain rfl := same_eq h (by simp [Ty.form])
    obtain ⟨a, rfl⟩ := Value.of_holds_int hv
    obtain ⟨b, rfl⟩ := Value.of_holds_int hw
    exact ⟨a, b, rfl, rfl, rfl⟩
  cases op with
  | eq =>
    cases ho
    refine ⟨rfl, ?_⟩
    rw [Value.cell, ← Value.cell_beq hv hw]
    rfl
  | ne =>
    cases ho
    refine ⟨rfl, (computes_negation cmp (v.cell == w.cell) S).trans ?_⟩
    rw [Value.cell_beq hv hw]
    rfl
  | and | or =>
    obtain rfl := same_eq ha (by simp [Ty.form])
    obtain ⟨a, rfl⟩ := Value.of_holds_boolean hv
    obtain ⟨b, rfl⟩ := Value.of_holds_boolean hw
    cases ho
    exact ⟨rfl, by cases a <;> cases b <;> rfl⟩
  | sub | mul =>
    obtain ⟨a, b, rfl, rfl, rfl⟩ := hint ha
    cases ho
    exact ⟨rfl, rfl⟩
  | div | rem =>
    obtain ⟨a, b, rfl, rfl, rfl⟩ := hint ha
    obtain ⟨q, hq, rfl⟩ := Option.map_eq_some_iff.mp ho
    exact ⟨rfl, by simp [wordCode, computes, Instr.compute.eq_def, onWords, hq, Value.cell]⟩
  | add | lt | gt =>
    rw [applies, hs, Bool.or_false] at ha
    obtain ⟨a, b, rfl, rfl, rfl⟩ := hint ha
    cases ho
    exact ⟨rfl, rfl⟩
  | le =>
    rw [applies, hs, Bool.or_false] at ha
    obtain ⟨a, b, rfl, rfl, rfl⟩ := hint ha
    cases ho
    refine ⟨rfl, (computes_negation cmp (b < a) S).trans ?_⟩
    simp [Value.cell, ← Int32.not_lt]
  | ge =>
    rw [applies, hs, Bool.or_false] at ha
    obtain ⟨a, b, rfl, rfl, rfl⟩ := hint ha
    cases ho
    refine ⟨rfl, (computes_negation cmp (a < b) S).trans ?_⟩
    simp [Value.cell, ← Int32.not_lt]

theorem stringCode_computes {op : BinaryOp} {v w r : Value} {ks : List Instr}
    (hc : stringCode op = .of ks) (hv : Ty.string.holds v = true) (hw : Ty.string.holds w = true)
    (ho : op.apply v w = some r) (S : List Cell) :
    (if op.isComparison then Ty.boolean else .string).holds r = true ∧
      computes cmp ks (w.cell :: v.cell :: S) = some (r.cell :: S) := by
  obtain ⟨a, hva, hca⟩ := Value.string?_cell v hv
  obtain ⟨b, hwb, hcb⟩ := Value.string?_cell w hw
  have hcall : ∀ routine rest, computes cmp (.callString routine :: rest) (w.cell :: v.cell :: S) =
      computes cmp rest (routine.run cmp a b :: S) := fun routine rest => by
    -- The equations of `compute` for each case are slow to find: they are about all words.
    simp [computes, Instr.compute.eq_def, StringRoutine.compute, hca, hcb]
  cases op with
  | eq | ne =>
    cases hc
    cases ho
    refine ⟨rfl, ?_⟩
    simp only [hcall, bne, Value.string?_beq hva hwb]
    rfl
  | add =>
    cases hc
    rw [Value.apply_strings hva hwb (by simp) (by simp)] at ho
    cases ho
    exact ⟨rfl, hcall _ _⟩
  | lt =>
    cases hc
    rw [Value.apply_strings hva hwb (by simp) (by simp)] at ho
    cases ho
    refine ⟨rfl, (hcall _ _).trans ?_⟩
    rw [← cmp.neg_eq_isLT a b]
    rfl
  | gt =>
    cases hc
    rw [Value.apply_strings hva hwb (by simp) (by simp)] at ho
    cases ho
    refine ⟨rfl, (hcall _ _).trans ?_⟩
    rw [← cmp.pos_eq_isGT a b]
    rfl
  | le =>
    cases hc
    rw [Value.apply_strings hva hwb (by simp) (by simp)] at ho
    cases ho
    refine ⟨rfl, (hcall _ _).trans ((computes_negation cmp (0 < cmp.answer a b) S).trans ?_)⟩
    rw [cmp.pos_eq_isGT a b]
    cases Text.ordinal a b <;> rfl
  | ge =>
    cases hc
    rw [Value.apply_strings hva hwb (by simp) (by simp)] at ho
    cases ho
    refine ⟨rfl, (hcall _ _).trans ((computes_negation cmp (cmp.answer a b < 0) S).trans ?_)⟩
    rw [cmp.neg_eq_isLT a b]
    cases Text.ordinal a b <;> rfl
  | _ => cases hc

/-- The code of an operator leaves its result, if it has one. -/
theorem binaryCode_computes (cmp : Comparison) {op : BinaryOp} {T : Ty} {ks : List Instr}
    {v w r : Value} (ha : applies op T = true) (hc : binaryCode op T = .of ks)
    (hv : T.holds v = true) (hw : T.holds w = true) (ho : op.apply v w = some r) (S : List Cell) :
    (if op.isComparison then Ty.boolean else T).holds r = true ∧
      computes cmp ks (w.cell :: v.cell :: S) = some (r.cell :: S) := by
  unfold binaryCode at hc
  split at hc
  · next hs =>
    obtain rfl := same_eq hs (by simp [Ty.form])
    exact stringCode_computes hc hv hw ho S
  · next hs =>
    cases hc
    exact wordCode_computes ha (by simpa using hs) hv hw ho S

end Lowering

def World.Fits (t : Table) (r : Resolutions) (w : World Value) : Prop :=
  ∀ {b type owner T}, t.Bound b → b.details = .var type (.field true owner) →
    r.type? b = some T → T.holds (w.statics owner b.name) = true

/-- A static method of an accepted unit, as written and as it is defined in the assembly. -/
structure Body (t : Table) (target : Lowering.Target) (ds : List Decl) where
  path : List String
  method : Method
  definition : MethodDef
  symbol : Symbol
  scope : ScopeId
  result : Ty
  stmts : List Stmt
  mem : .method path method ∈ ds
  named : method.symbol = some symbol
  opens : symbol.scope = some scope
  static : runsStatic target.entry symbol = true
  typed : target.resolutions.type? symbol = some result
  returns : result.toAsm = .ok definition.returns
  written : method.body = some stmts
  params : target.paramEntries method.params = .ok definition.params
  locals : ∃ found, Lowering.gatherAllLocals stmts [] = .ok found ∧
    target.localEntries found = .ok definition.locals
  code : ∃ n items next, Lowering.StmtsCodes ⟨t, scope, some symbol, target.entry⟩
      target.resolutions (target.frame false) n stmts items next ∧
    definition.code = items ++ [.instr .ret]

namespace Body

variable {t : Table} {target : Lowering.Target} {ds : List Decl} {img : Image}

def context (B : Body t target ds) : Context := ⟨t, B.scope, some B.symbol, target.entry⟩

theorem isStatic_context (B : Body t target ds) : B.context.isStatic = true := B.static

structure Agrees (B : Body t target ds) (s : Store) (x : Variables) : Prop where
  slot : ∀ {b type index T}, t.Bound b → b.declaredIn = B.scope →
    b.details = .var type (.slot index) → target.resolutions.type? b = some T →
    T.holds (s.vars b.name) = true ∧ x.locals index = some (s.vars b.name).cell
  param : ∀ {b type index T}, t.Bound b → b.declaredIn = B.scope →
    b.details = .var type (.param index) → target.resolutions.type? b = some T →
    T.holds (s.vars b.name) = true ∧ x.args[index.toNat]? = some (s.vars b.name).cell
  world : s.world.Fits t target.resolutions

section Places

variable {cmp : Comparison} (h : Accepted t target ds img) {B : Body t target ds} {s : Store}
  {x : Variables}
  {b : Symbol} {T : Ty} {p : Lowering.Place} {v : Value}
include h

theorem Agrees.load (ha : B.Agrees s x) (hr : t.Reached B.scope b)
    (ht : target.resolutions.type? b = some T)
    (hp : Lowering.PlaceOf B.context (target.frame false) b T p) (hg : s.get b = some v) :
    T.holds v = true ∧ ∀ rest S callers,
      Machine.Reaches cmp img
        (.running ⟨B.definition, p.load.map .instr ++ rest, S, x⟩ callers s.world.cells)
        (.running ⟨B.definition, rest, v.cell :: S, x⟩ callers s.world.cells) := by
  cases hp with
  | slot hd =>
    simp only [Store.get, hd, Option.some.injEq] at hg
    subst hg
    obtain ⟨hholds, hat⟩ := ha.slot hr.1 (h.declaredIn_of_reached hr hd (by simp)) hd ht
    exact ⟨hholds, fun rest S callers => Machine.reaches_act (by simp [Instr.act.eq_def, hat])⟩
  | argument hd =>
    simp only [Store.get, hd, Option.some.injEq] at hg
    subst hg
    obtain ⟨hholds, hat⟩ := ha.param hr.1 (h.declaredIn_of_reached hr hd (by simp)) hd ht
    exact ⟨hholds, fun rest S callers =>
      Machine.reaches_act (by
        simp [Instr.act.eq_def, Lowering.Frame.argument, Lowering.Target.frame, hat])⟩
  | shared hd hasm =>
    simp only [Store.get, hd, Option.some.injEq] at hg
    subst hg
    exact ⟨ha.world hr.1 hd ht, fun rest S callers => Machine.reaches_act rfl⟩
  | own hd hasm hs ho => exact absurd (hs.symm.trans B.isStatic_context) (by simp)

section Distinct

variable {c : Symbol} {type type' : TypeExpr} {storage : Storage} {i : UInt16}

theorem name_ne (hb : t.Bound b) (hc : t.Bound c) (hbin : b.declaredIn = B.scope)
    (hcin : c.declaredIn = B.scope) (hd : c.details = .var type storage) (hne : c ≠ b) :
    c.name ≠ b.name := h.declares.name_ne hb hc (hcin.trans hbin.symm) hd hne

theorem eq_of_slot (hn : ∀ d ∈ ds, d.isNarrow = true) (hb : t.Bound b) (hc : t.Bound c)
    (hbin : b.declaredIn = B.scope) (hcin : c.declaredIn = B.scope)
    (hbd : b.details = .var type (.slot i)) (hcd : c.details = .var type' (.slot i)) : c = b :=
  h.declares.eq_of_slot B.mem (h.filled B.mem) (hn _ B.mem) B.named B.opens hb hc hbin hcin hbd hcd

theorem eq_of_position (hn : ∀ d ∈ ds, d.isNarrow = true) (hb : t.Bound b) (hc : t.Bound c)
    (hbin : b.declaredIn = B.scope) (hcin : c.declaredIn = B.scope)
    (hbd : b.details = .var type (.param i)) (hcd : c.details = .var type' (.param i)) : c = b :=
  h.declares.eq_of_position B.mem (hn _ B.mem) B.named B.opens hb hc hbin hcin hbd hcd

end Distinct

theorem Agrees.setSlot (hn : ∀ d ∈ ds, d.isNarrow = true) {type : TypeExpr} {index : UInt16}
    (ha : B.Agrees s x) (hb : t.Bound b) (hin : b.declaredIn = B.scope)
    (hd : b.details = .var type (.slot index)) (ht : target.resolutions.type? b = some T)
    (hv : T.holds v = true) :
    B.Agrees (s.setVar b.name v)
      { x with locals := fun i => if i = index then some v.cell else x.locals i } := by
  refine ⟨fun {c _ i U} hc hcin hcd hU => ?_, fun {c _ i U} hc hcin hcd hU => ?_, ha.world⟩
  · by_cases hcb : c = b
    · subst hcb
      obtain rfl := Option.some.inj (ht.symm.trans hU)
      rw [hd] at hcd
      cases hcd
      simp [Store.setVar, hv]
    · have hname := name_ne h hb hc hin hcin hcd hcb
      have hi : i ≠ index := fun hi => hcb (eq_of_slot h hn hb hc hin hcin hd (hi ▸ hcd))
      simpa [Store.setVar, hname, hi] using ha.slot hc hcin hcd hU
  · have hname := name_ne h hb hc hin hcin hcd fun hcb => by simp [← hcb, hcd] at hd
    simpa [Store.setVar, hname] using ha.param hc hcin hcd hU

theorem Agrees.setParam (hn : ∀ d ∈ ds, d.isNarrow = true) {type : TypeExpr} {index : UInt16}
    (ha : B.Agrees s x) (hb : t.Bound b) (hin : b.declaredIn = B.scope)
    (hd : b.details = .var type (.param index)) (ht : target.resolutions.type? b = some T)
    (hv : T.holds v = true) :
    B.Agrees (s.setVar b.name v) { x with args := x.args.set index.toNat v.cell } := by
  have hlt := (List.getElem?_eq_some_iff.mp (ha.param hb hin hd ht).2).1
  refine ⟨fun {c _ i U} hc hcin hcd hU => ?_, fun {c _ i U} hc hcin hcd hU => ?_, ha.world⟩
  · have hname := name_ne h hb hc hin hcin hcd fun hcb => by simp [← hcb, hcd] at hd
    simpa [Store.setVar, hname] using ha.slot hc hcin hcd hU
  · by_cases hcb : c = b
    · subst hcb
      obtain rfl := Option.some.inj (ht.symm.trans hU)
      rw [hd] at hcd
      cases hcd
      simp [Store.setVar, hv, hlt]
    · have hname := name_ne h hb hc hin hcin hcd hcb
      have hi : index.toNat ≠ i.toNat := fun hi =>
        hcb (eq_of_position h hn hb hc hin hcin hd ((UInt16.toNat_inj.mp hi) ▸ hcd))
      simpa [Store.setVar, hname, hi] using ha.param hc hcin hcd hU

theorem Agrees.setStatic {type : TypeExpr} {owner : List String} (ha : B.Agrees s x)
    (hb : t.Bound b) (hd : b.details = .var type (.field true owner))
    (ht : target.resolutions.type? b = some T) (hv : T.holds v = true) :
    B.Agrees { s with world := s.world.setStatic owner b.name v } x := by
  refine ⟨ha.slot, ha.param, fun {c _ o U} hc hcd hU => ?_⟩
  simp only [World.setStatic]
  split
  · next heq =>
    obtain ⟨rfl, hname⟩ := heq
    obtain rfl := h.declares.sound.eq_of_field hc hb hcd hd hname
    obtain rfl := Option.some.inj (ht.symm.trans hU)
    exact hv
  · exact ha.world hc hcd hU

theorem Agrees.store (hn : ∀ d ∈ ds, d.isNarrow = true) {s' : Store} (ha : B.Agrees s x)
    (hr : t.Reached B.scope b) (ht : target.resolutions.type? b = some T)
    (hp : Lowering.PlaceOf B.context (target.frame false) b T p) (hg : s.set b v = some s')
    (hv : T.holds v = true) :
    ∃ y, B.Agrees s' y ∧ ∀ rest S callers,
      Machine.Reaches cmp img
        (.running ⟨B.definition, (p.store [] false).map .instr ++ rest, v.cell :: S, x⟩ callers
          s.world.cells)
        (.running ⟨B.definition, rest, S, y⟩ callers s'.world.cells) := by
  cases hp with
  | slot hd =>
    have hin := h.declaredIn_of_reached hr hd (by simp)
    simp only [Store.set, hd, Option.some.injEq] at hg
    subst hg
    refine ⟨_, ha.setSlot h hn hr.1 hin hd ht hv, fun rest S callers => Machine.reaches_act ?_⟩
    simp [Instr.act.eq_def, Instr.taking, (ha.slot hr.1 hin hd ht).2, Store.setVar]
  | argument hd =>
    have hin := h.declaredIn_of_reached hr hd (by simp)
    simp only [Store.set, hd, Option.some.injEq] at hg
    subst hg
    have hlt := (List.getElem?_eq_some_iff.mp (ha.param hr.1 hin hd ht).2).1
    refine ⟨_, ha.setParam h hn hr.1 hin hd ht hv, fun rest S callers => Machine.reaches_act ?_⟩
    simp [Instr.act.eq_def, Instr.taking, Lowering.Frame.argument, Lowering.Target.frame, hlt,
      Store.setVar]
  | shared hd hasm =>
    simp only [Store.set, hd, Option.some.injEq] at hg
    subst hg
    refine ⟨x, ha.setStatic h hr.1 hd ht hv, fun rest S callers => Machine.reaches_act ?_⟩
    simp [Instr.act.eq_def, Instr.taking, World.cells_setStatic]
  | own hd hasm hs ho => exact absurd (hs.symm.trans B.isStatic_context) (by simp)

end Places

theorem initial_of_meaning {k : ScopeId} {type : TypeExpr} {a : AsmType}
    (ha : (meaning t k type).toAsm = .ok a) (hv : type.isVoid = false) :
    type.initial.cell = a.initial ∧ a.holds type.initial = true := by
  cases type with
  | keyword word span =>
    cases word with
    | void => cases hv
    | _ =>
      cases ha
      exact ⟨rfl, rfl⟩
  | array | generic => cases ha
  | named segments span =>
    unfold meaning resolveType at ha
    dsimp only at ha
    split at ha
    · cases ha
    · cases ha
    · split at ha
      · obtain ⟨_, _, _, -, rfl⟩ := toAsm_cls_eq_ok ha
        exact ⟨rfl, rfl⟩
      · cases ha

section Start

variable (h : Accepted t target ds img) (B : Body t target ds)
include h

theorem paramSymbol {p : Param} (hp : p ∈ B.method.params) {q : Symbol} (hq : p.symbol = some q) :
    t.Bound q ∧ q.declaredIn = B.scope ∧ q.name = p.name.text ∧
      ∃ index, q.details = .var p.type (.param index) := by
  have hplaced := h.declares.placed _ B.mem
  simp only [Decl.Placed, B.named] at hplaced
  obtain ⟨-, k, hk, hparams, -⟩ := hplaced
  obtain rfl := Option.some.inj (B.opens.symm.trans hk)
  obtain ⟨-, -, -, k', -, hbound, -⟩ := method_declared h.declares B.mem B.named
  obtain ⟨hname, hin, hdet⟩ := hparams.of_mem hp hq
  exact ⟨(hbound p hp q hq).1, hin, hname, hdet⟩

theorem slotSymbol {v : VarSlot} (hv : v ∈ B.method.bodySlots) {q : Symbol}
    (hq : v.symbol = some q) : t.Bound q ∧ q.declaredIn = B.scope ∧ q.name = v.name ∧
      ∃ index, q.details = .var v.type (.slot index) := by
  have hplaced := h.declares.placed _ B.mem
  simp only [Decl.Placed, B.named] at hplaced
  obtain ⟨-, k, hk, -, hslots⟩ := hplaced
  obtain rfl := Option.some.inj (B.opens.symm.trans hk)
  obtain ⟨-, -, -, k', -, -, hbound⟩ := method_declared h.declares B.mem B.named
  obtain ⟨hname, hin, hdet⟩ := hslots.of_mem hv hq
  exact ⟨(hbound v hv q hq).1, hin, hname, hdet⟩

section

variable {b : Symbol} {type : TypeExpr} {index : UInt16} (hb : t.Bound b)
  (hin : b.declaredIn = B.scope) (args : List Value)
include hb hin

theorem symbol_of_param_name {p : Param} (hp : p ∈ B.method.params) (hname : p.name.text = b.name) :
    p.symbol = some b := by
  obtain ⟨q, hq⟩ := Option.ne_none_iff_exists'.mp ((h.filled B.mem).2.1 p hp)
  obtain ⟨hqb, hqin, hqname, _, hqd⟩ := B.paramSymbol h hp hq
  by_contra hne
  exact name_ne h hb hqb hin hqin hqd (fun heq => hne (heq ▸ hq)) (hqname.trans hname)

theorem symbol_of_slot_name {v : VarSlot} (hv : v ∈ B.method.bodySlots) (hname : v.name = b.name) :
    v.symbol = some b := by
  obtain ⟨q, hq⟩ := Option.ne_none_iff_exists'.mp ((h.filled B.mem).2.2 v hv)
  obtain ⟨hqb, hqin, hqname, _, hqd⟩ := B.slotSymbol h hv hq
  by_contra hne
  exact name_ne h hb hqb hin hqin hqd (fun heq => hne (heq ▸ hq)) (hqname.trans hname)

/-- A local starts with the value of its type. -/
theorem start_slot (hn : ∀ d ∈ ds, d.isNarrow = true) (hd : b.details = .var type (.slot index)) :
    B.method.start args b.name = type.initial := by
  have hparams : (B.method.params.zip args).find? (fun x => x.1.name.text == b.name) = none := by
    rw [List.find?_eq_none]
    rintro ⟨p, v⟩ hx hname
    have hp := (List.of_mem_zip hx).1
    obtain ⟨-, -, -, _, hpd⟩ :=
      B.paramSymbol h hp (B.symbol_of_param_name h hb hin hp (by simpa using hname))
    rw [hd] at hpd
    cases hpd
  obtain ⟨v, hat, hv, -⟩ :=
    h.declares.slot_at B.mem (h.filled B.mem) (hn _ B.mem) B.named B.opens hb hin hd
  have hmem := List.mem_of_getElem? hat
  simp only [Method.start, hparams]
  cases hfind : B.method.bodySlots.find? (fun v => v.name == b.name) with
  | none =>
    have hname := (B.slotSymbol h hmem hv).2.2.1
    exact absurd (List.find?_eq_none.mp hfind v hmem) (by simp [hname])
  | some w =>
    have hw := List.mem_of_find?_eq_some hfind
    obtain ⟨-, -, -, _, hwd⟩ := B.slotSymbol h hw
      (B.symbol_of_slot_name h hb hin hw (by simpa using List.find?_some hfind))
    rw [hd] at hwd
    injection hwd with htype
    exact congrArg TypeExpr.initial htype.symm

/-- A parameter starts with its argument. -/
theorem start_param (hn : ∀ d ∈ ds, d.isNarrow = true) (hd : b.details = .var type (.param index))
    {v : Value} (hv : args[index.toNat]? = some v) : B.method.start args b.name = v := by
  obtain ⟨p, hat, hp, -⟩ := h.declares.param_at B.mem (hn _ B.mem) B.named B.opens hb hin hd
  have hmem : (p, v) ∈ B.method.params.zip args :=
    List.mem_of_getElem? (List.getElem?_zip_eq_some.mpr ⟨hat, hv⟩)
  have hname := (B.paramSymbol h (List.mem_of_getElem? hat) hp).2.2.1
  have hfind : (B.method.params.zip args).find? (fun x => x.1.name.text == b.name) =
      some (p, v) := by
    refine find?_eq_some_of_unique hmem (by simp [hname]) ?_
    rintro ⟨q, w⟩ hx hqname
    -- Another parameter of this name would have the same symbol, and so the same position.
    have hq := B.symbol_of_param_name h hb hin (List.of_mem_zip hx).1 (by simpa using hqname)
    obtain ⟨j, hj⟩ := List.getElem?_of_mem hx
    obtain ⟨hjq, hjw⟩ := List.getElem?_zip_eq_some.mp hj
    obtain ⟨rfl, -⟩ := h.declares.position_eq B.mem (hn _ B.mem) B.named hjq hq hd
    exact Prod.ext (Option.some.inj (hjq.symm.trans hat)) (Option.some.inj (hjw.symm.trans hv))
  simp only [Method.start, hfind]

end

/-- A method and its activation agree when they start. -/
theorem agrees_start (hn : ∀ d ∈ ds, d.isNarrow = true) (hv : ∀ d ∈ ds, d.isVoidFree = true)
    {args : List Value} {w : World Value}
    (hargs : List.Forall₂ (fun p v => p.1.holds v = true) B.definition.params args)
    (hw : w.Fits t target.resolutions) :
    B.Agrees ⟨B.method.start args, w⟩ (B.definition.variables (args.map Value.cell)) := by
  refine ⟨fun {b type index T} hb hin hd ht => ?_, fun {b type index T} hb hin hd ht => ?_, hw⟩
  · obtain ⟨found, hf, hl⟩ := B.locals
    obtain ⟨a, hat, ha⟩ :=
      h.local_entry B.mem (hn _ B.mem) B.named B.opens B.written hf hl hb hin hd
    have hasm := Lowering.toAsm_of_symbolType ht ha
    obtain ⟨v, hvat, -, rfl⟩ :=
      h.declares.slot_at B.mem (h.filled B.mem) (hn _ B.mem) B.named B.opens hb hin hd
    have hvoid := hv _ B.mem
    simp only [Decl.isVoidFree, Bool.and_eq_true, List.all_eq_true, Bool.not_eq_true'] at hvoid
    obtain ⟨state, hr, hfaith⟩ := h.faithful
    obtain ⟨scope, written, hwrites, rfl, -⟩ := hfaith.types hb (hr ▸ ht)
    simp only [Writes, hd] at hwrites
    rw [hwrites.1] at hasm ⊢
    obtain ⟨hcell, hholds⟩ := initial_of_meaning hasm (hvoid.2 v (List.mem_of_getElem? hvat))
    dsimp only
    rw [B.start_slot h hb hin args hn hd, Ty.holds_of_toAsm hasm, hcell]
    exact ⟨hholds, by simp [MethodDef.variables, hat]⟩
  · obtain ⟨a, hat, ha⟩ := h.param_entry B.mem (hn _ B.mem) B.named B.opens B.params hb hin hd
    obtain ⟨v, hvat, hholds⟩ := Lowering.forall₂_getElem? hargs hat
    dsimp only
    rw [B.start_param h hb hin args hn hd hvat,
      Ty.holds_of_toAsm (Lowering.toAsm_of_symbolType ht ha)]
    exact ⟨hholds, by simp [MethodDef.variables, hvat]⟩

end Start

end Body

namespace Accepted

variable {t : Table} {target : Lowering.Target} {ds : List Decl} {img : Image}

theorem exists_body {path : List String} {m : Method} {d : MethodDef}
    (hm : (path, m) ∈ Decl.methods ds) (hc : Compiled t target (path, m) d)
    (hs : d.isStatic = true) :
    ∃ B : Body t target ds, B.path = path ∧ B.method = m ∧ B.definition = d ∧
      d.owner = path ∧ d.name = B.symbol.name := by
  cases hc with
  | @intro _ _ b k _ _ body found _ items n next hb hk hr hp hbody hf hl _ hi hcodes =>
    dsimp only at hs
    obtain ⟨T, hT, hasm⟩ := Lowering.symbolType_eq_ok_iff.mp hr
    rw [hs] at hcodes
    exact ⟨⟨path, m, _, b, k, T, body, Decl.mem_methods.mp hm, hb, hk, hs, hT, hasm, hbody, hp,
      ⟨found, hf, hl⟩, ⟨n, items, next, hcodes, rfl⟩⟩, rfl, rfl, rfl, rfl, rfl⟩

theorem callee (h : Accepted t target ds img) {path : List String} {m : Method} {b : Symbol}
    {ps : List TypeExpr} {ret : TypeExpr} {ms : List Modifier} {owner : List String} {Ts : List Ty}
    {T : Ty} {as : List AsmType} {a : AsmType} (hm : (path, m) ∈ Decl.methods ds)
    (hs : m.symbol = some b) (hst : runsStatic target.entry b = true)
    (hd : b.details = .method ps ret ms owner none)
    (hTs : target.resolutions.params? b = some Ts) (has : Lowering.asmTypes Ts = .ok as)
    (hT : target.resolutions.type? b = some T) (ha : T.toAsm = .ok a)
    (ho : ∀ o, t.Bound o → o.isMethod = true → o.declaredIn = b.declaredIn →
      o.name = b.name → ∃ ps, target.resolutions.params? o = some ps ∧ (ps = Ts → o = b)) :
    ∃ B : Body t target ds, B.method = m ∧ B.result = T ∧
      img.methods.filter (·.answers ⟨true, a, owner, b.name, as⟩) = [B.definition] ∧
      B.definition.params.map Prod.fst = as := by
  obtain ⟨hbound, -, hdet, -⟩ := method_declared h.declares (Decl.mem_methods.mp hm) hs
  obtain ⟨d, hmem, hc⟩ := Lowering.exists_of_forall₂_left h.methods hm
  have hstatic : d.isStatic = true := by
    cases hc with
    | intro hb =>
      obtain rfl := Option.some.inj (hs.symm.trans hb)
      exact hst
  obtain ⟨B, rfl, rfl, rfl, howner, hname⟩ := exists_body hm hc hstatic
  obtain rfl := Option.some.inj (hs.symm.trans B.named)
  rw [hd] at hdet
  cases hdet
  have hparams := Except.ok.inj ((h.asmTypes_params B.mem B.params B.named hTs).symm.trans has)
  obtain ⟨d, hfilter, -, -⟩ := h.call_links hbound hd hTs has hT ha ho true
  have hin : B.definition ∈ img.methods.filter (·.answers ⟨true, a, B.path, B.symbol.name, as⟩) :=
    List.mem_filter.mpr ⟨hmem, MethodDef.answers_iff.mpr ⟨howner, hname, hparams⟩⟩
  rw [hfilter, List.mem_singleton] at hin
  exact ⟨B, rfl, Option.some.inj (B.typed.symm.trans hT), by rw [hfilter, hin], hparams⟩

theorem find_ctor (h : Accepted t target ds img) {c : Symbol} {path : List String}
    {ms : List Modifier} (hb : t.Bound c) (hd : c.details = .cls path ms false)
    (hs : Modifier.isStatic ms = false) :
    img.ctors.find? (fun d => d.owner == path) = some (.ctor path Lowering.ctorCode) := by
  obtain ⟨head, hmem, rfl⟩ := h.exists_class hb hd
  have hctor := (h.emits.ctors _).mpr ⟨path, head, hmem, hs, rfl⟩
  refine find?_eq_some_of_unique hctor (by simp [MethodDef.ctor]) fun d hmd hown => ?_
  obtain ⟨path', _, -, -, rfl⟩ := (h.emits.ctors d).mp hmd
  obtain rfl : path' = path := by simpa [MethodDef.ctor] using hown
  rfl

end Accepted

end ClassLang
