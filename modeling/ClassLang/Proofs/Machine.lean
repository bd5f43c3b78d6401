import ClassLang.Proofs.Linking
import ClassLang.Proofs.Semantics
import Mathlib.Logic.Relation

/-! The stack machine that runs assembly. Its steps are a function: where there is no step, the
machine has halted, or it traps. A truth value is a number, and a call runs the code of the method
that the reference means. Fields of objects are left out, as static methods do not reach them. -/
namespace ClassLang

open Assembly Lowering

inductive Cell where
  | word (n : Int32)
  | str (s : String)
  | null
  | ref (number : Nat)
  deriving DecidableEq

namespace Cell

def truth (b : Bool) : Cell := .word (if b then 1 else 0)

def string? : Cell → Option (Option String)
  | .str s => some (some s)
  | .null => some none
  | _ => none

def shown : Cell → Option String
  | .word n => some (toString n.toInt)
  | .str s => some s
  | .null => some ""
  | .ref _ => none

end Cell

def Assembly.AsmType.initial : AsmType → Cell
  | .int32 | .bool => .word 0
  | _ => .null

def onWords (f : Int32 → Int32 → Option Cell) : List Cell → Option (List Cell)
  | .word b :: .word a :: stack => (f a b).map (· :: stack)
  | _ => none

/-- How strings are compared, which is up to the machine. It promises nothing of its answer but the
sign. -/
structure Comparison where
  answer : Option String → Option String → Int32
  neg_iff : ∀ a b, answer a b < 0 ↔ Text.ordinal a b = .lt
  pos_iff : ∀ a b, 0 < answer a b ↔ Text.ordinal a b = .gt

namespace Comparison

theorem neg_eq_isLT (cmp : Comparison) (a b : Option String) :
    decide (cmp.answer a b < 0) = (Text.ordinal a b).isLT := by
  have hsign := cmp.neg_iff a b
  cases hord : Text.ordinal a b <;> simp_all

theorem pos_eq_isGT (cmp : Comparison) (a b : Option String) :
    decide (0 < cmp.answer a b) = (Text.ordinal a b).isGT := by
  have hsign := cmp.pos_iff a b
  cases hord : Text.ordinal a b <;> simp_all

def least : Comparison where
  answer a b :=
    match Text.ordinal a b with
    | .lt => -1
    | .eq => 0
    | .gt => 1
  neg_iff a b := by cases Text.ordinal a b <;> decide
  pos_iff a b := by cases Text.ordinal a b <;> decide

end Comparison

namespace Assembly

def StringRoutine.run (routine : StringRoutine) (cmp : Comparison) (a b : Option String) : Cell :=
  match routine with
  | .concat => .str (a.getD "" ++ b.getD "")
  | .equal => .truth (a == b)
  | .notEqual => .truth (a != b)
  | .compare => .word (cmp.answer a b)

def StringRoutine.compute (routine : StringRoutine) (cmp : Comparison) :
    List Cell → Option (List Cell)
  | y :: x :: stack => do return routine.run cmp (← x.string?) (← y.string?) :: stack
  | _ => none

/-- The stack after an instruction. Division traps where there is no quotient. -/
def Instr.compute (i : Instr) (cmp : Comparison) (stack : List Cell) : Option (List Cell) :=
  match i with
  | .ldcI4 n => some (.word n :: stack)
  | .ldcZero => some (.word 0 :: stack)
  | .ldcOne => some (.word 1 :: stack)
  | .ldstr s => some (.str s :: stack)
  | .ldnull => some (.null :: stack)
  | .dup =>
    match stack with
    | x :: rest => some (x :: x :: rest)
    | [] => none
  | .pop =>
    match stack with
    | _ :: rest => some rest
    | [] => none
  | .neg =>
    match stack with
    | .word n :: rest => some (.word (-n) :: rest)
    | _ => none
  | .add => onWords (fun a b => some (.word (a + b))) stack
  | .sub => onWords (fun a b => some (.word (a - b))) stack
  | .mul => onWords (fun a b => some (.word (a * b))) stack
  | .div => onWords (fun a b => (Word.quotient a b).map .word) stack
  | .rem => onWords (fun a b => (Word.remainder a b).map .word) stack
  | .and => onWords (fun a b => some (.word (a &&& b))) stack
  | .or => onWords (fun a b => some (.word (a ||| b))) stack
  | .ceq =>
    match stack with
    | y :: x :: rest => some (.truth (x == y) :: rest)
    | _ => none
  | .clt => onWords (fun a b => some (.truth (a < b))) stack
  | .cgt => onWords (fun a b => some (.truth (b < a))) stack
  | .callString routine => routine.compute cmp stack
  | _ => none

def computes (cmp : Comparison) : List Instr → List Cell → Option (List Cell)
  | [], stack => some stack
  | i :: rest, stack => do computes cmp rest (← i.compute cmp stack)

end Assembly

structure Variables where
  args : List Cell
  locals : UInt16 → Option Cell

/-- A method that runs: what is left of its code, its operand stack and its variables. -/
structure Activation where
  method : MethodDef
  rest : List Item
  stack : List Cell
  vars : Variables

/-- Locals are cleared when a method starts. -/
def Assembly.MethodDef.variables (d : MethodDef) (args : List Cell) : Variables :=
  ⟨args, fun slot => (d.localAt slot).map fun e => e.type.initial⟩

def Assembly.MethodDef.enter (d : MethodDef) (args : List Cell) : Activation :=
  ⟨d, d.code, [], d.variables args⟩

def codeFrom (l : Label) (code : List Item) : Option (List Item) :=
  match code.dropWhile (· != .label l) with
  | [] => none
  | rest => some rest

inductive Machine where
  | running (top : Activation) (callers : List Activation) (world : World Cell)
  | halted (result : Option Cell) (world : World Cell)

namespace Machine

def start (d : MethodDef) (args : List Cell) (world : World Cell) : Machine :=
  .running (d.enter args) [] world

/-- Where a result goes: on the stack of the caller, if there is one. -/
def back (result : Option Cell) : List Activation → World Cell → Machine
  | [], world => .halted result world
  | caller :: callers, world =>
    .running { caller with stack := result.toList ++ caller.stack } callers world

end Machine

namespace Assembly.Instr

def taking (x : Activation) (f : Cell → Activation → Option (Activation × World Cell)) :
    Option (Activation × World Cell) :=
  match x.stack with
  | c :: stack => f c { x with stack }
  | [] => none

def act (i : Instr) (cmp : Comparison) (x : Activation) (w : World Cell) :
    Option (Activation × World Cell) :=
  match i with
  | .ldthis => do return ({ x with stack := (← x.vars.args[0]?) :: x.stack }, w)
  | .ldarg index => do return ({ x with stack := (← x.vars.args[index]?) :: x.stack }, w)
  | .starg index => taking x fun c x =>
    if index < x.vars.args.length then
      some ({ x with vars := { x.vars with args := x.vars.args.set index c } }, w)
    else none
  | .ldloc slot => do return ({ x with stack := (← x.vars.locals slot) :: x.stack }, w)
  | .stloc slot => taking x fun c x => do
    let _ ← x.vars.locals slot
    let locals := fun i => if i = slot then some c else x.vars.locals i
    return ({ x with vars := { x.vars with locals } }, w)
  | .ldsfld field => some ({ x with stack := w.statics field.owner field.name :: x.stack }, w)
  | .stsfld field => taking x fun c x => some (x, w.setStatic field.owner field.name c)
  | .callConsole routine _ _ => taking x fun c x => do return (x, w.print routine (← c.shown))
  | .callObject => taking x fun c x =>
    match c with
    | .ref _ => some (x, w)
    | _ => none
  | i => do return ({ x with stack := (← i.compute cmp x.stack) }, w)

/-- A step. The code left in `x` is what follows the instruction. -/
def step (cmp : Comparison) (img : Image) (i : Instr) (x : Activation) (callers : List Activation)
    (w : World Cell) : Option Machine :=
  match i with
  | .br l => do return .running { x with rest := ← codeFrom l x.method.code } callers w
  | .brfalse l =>
    match x.stack with
    | .word n :: stack =>
      if n = 0 then do
        return .running { x with rest := ← codeFrom l x.method.code, stack } callers w
      else some (.running { x with stack } callers w)
    | _ => none
  | .ret =>
    if x.stack.length = (if x.method.returns = .void then 0 else 1) then
      some (.back x.stack.head? callers w)
    else none
  | .call r =>
    match img.methods.filter (·.answers r) with
    | [d] =>
      let count := r.params.length + if r.isStatic then 0 else 1
      if count ≤ x.stack.length then
        some (.running (d.enter (x.stack.take count).reverse)
          ({ x with stack := x.stack.drop count } :: callers) w)
      else none
    | _ => none
  -- The new object stays below while its constructor runs.
  | .newobj path => do
    let d ← img.ctors.find? fun d => d.owner == path
    return .running (d.enter [.ref w.objects])
      ({ x with stack := .ref w.objects :: x.stack } :: callers) w.grow
  | i => do
    let (y, w') ← i.act cmp x w
    return .running y callers w'

end Assembly.Instr

namespace Machine

def step (cmp : Comparison) (img : Image) : Machine → Option Machine
  | .halted _ _ => none
  | .running x callers w =>
    match x.rest with
    | [] => none
    | .label _ :: rest => some (.running { x with rest } callers w)
    | .instr i :: rest => i.step cmp img { x with rest } callers w

def Reaches (cmp : Comparison) (img : Image) : Machine → Machine → Prop :=
  Relation.ReflTransGen fun a b => a.step cmp img = some b

variable {cmp : Comparison} {img : Image} {d : MethodDef} {rest : List Item} {S : List Cell}
  {x : Variables}
  {callers : List Activation} {w : World Cell}

/-- A machine that has halted stays so: it cannot halt in two ways. -/
theorem Reaches.halted_unique {a : Machine} {q r : Option Cell} {u v : World Cell}
    (hb : Reaches cmp img a (.halted q u)) (hc : Reaches cmp img a (.halted r v)) :
    q = r ∧ u = v := by
  induction hb using Relation.ReflTransGen.head_induction_on with
  | refl =>
    rcases hc.cases_head with heq | ⟨_, hstep, _⟩
    · cases heq
      exact ⟨rfl, rfl⟩
    · cases hstep
  | head hstep _ ih =>
    rcases hc.cases_head with heq | ⟨_, hstep', hrest⟩
    · subst heq
      cases hstep
    · obtain rfl := Option.some.inj (hstep.symm.trans hstep')
      exact ih hrest

theorem reaches_one {a b : Machine} (h : a.step cmp img = some b) : Reaches cmp img a b :=
  Relation.ReflTransGen.single h

theorem reaches_label (l : Label) :
    Reaches cmp img (.running ⟨d, .label l :: rest, S, x⟩ callers w)
      (.running ⟨d, rest, S, x⟩ callers w) := reaches_one rfl

theorem reaches_act {i : Instr} {y : Activation} {v : World Cell}
    (h : i.act cmp ⟨d, rest, S, x⟩ w = some (y, v)) :
    Reaches cmp img (.running ⟨d, .instr i :: rest, S, x⟩ callers w) (.running y callers v) := by
  refine reaches_one ?_
  have hact : (do
      let (y, w') ← i.act cmp ⟨d, rest, S, x⟩ w
      return Machine.running y callers w') = some (.running y callers v) := by
    simp [h]
  cases i <;> first | exact hact | cases h

theorem act_of_compute {i : Instr} {S' : List Cell} (h : i.compute cmp S = some S') :
    i.act cmp ⟨d, rest, S, x⟩ w = some (⟨d, rest, S', x⟩, w) := by
  have hact : (do return (Activation.mk d rest (← i.compute cmp S) x, w)) =
      some (Activation.mk d rest S' x, w) := by
    simp [h]
  cases i <;> first | exact hact | cases h

theorem reaches_computes {is : List Instr} {S' : List Cell} (h : computes cmp is S = some S') :
    Reaches cmp img (.running ⟨d, is.map .instr ++ rest, S, x⟩ callers w)
      (.running ⟨d, rest, S', x⟩ callers w) := by
  induction is generalizing S with
  | nil =>
    cases h
    exact .refl
  | cons i is ih =>
    obtain ⟨T, hi, hrest⟩ := Option.bind_eq_some_iff.mp h
    exact (reaches_act (act_of_compute hi)).trans (ih hrest)

theorem codeFrom_append {l : Label} {before after : List Item} (h : .label l ∉ before) :
    codeFrom l (before ++ .label l :: after) = some (.label l :: after) := by
  have hdrop : (before ++ .label l :: after).dropWhile (· != .label l) = .label l :: after := by
    rw [List.dropWhile_append_of_pos]
    · simp
    · intro a ha
      simpa using fun heq : a = .label l => h (heq ▸ ha)
  simp only [codeFrom, hdrop]

theorem reaches_br {l : Label} {target : List Item} (h : codeFrom l d.code = some target) :
    Reaches cmp img (.running ⟨d, .instr (.br l) :: rest, S, x⟩ callers w)
      (.running ⟨d, target, S, x⟩ callers w) :=
  reaches_one (by simp [step, Instr.step, h])

theorem reaches_brfalse {l : Label} {target : List Item} (h : codeFrom l d.code = some target)
    (b : Bool) :
    Reaches cmp img (.running ⟨d, .instr (.brfalse l) :: rest, .truth b :: S, x⟩ callers w)
      (.running ⟨d, if b then rest else target, S, x⟩ callers w) := by
  refine reaches_one ?_
  cases b with
  | true => simp [step, Instr.step, Cell.truth]
  | false => simp [step, Instr.step, Cell.truth, h]

theorem reaches_call {r : MethodRef} {m : MethodDef} {args : List Cell}
    (hr : img.methods.filter (·.answers r) = [m]) (hs : r.isStatic = true)
    (hl : args.length = r.params.length) :
    Reaches cmp img (.running ⟨d, .instr (.call r) :: rest, args.reverse ++ S, x⟩ callers w)
      (.running (m.enter args) (⟨d, rest, S, x⟩ :: callers) w) := by
  refine reaches_one ?_
  simp [step, Instr.step, hr, hs, ← hl]

/-- A result that fits the method is handed to the caller. -/
theorem reaches_ret {result : Option Cell} (h : result = none ↔ d.returns = .void) :
    Reaches cmp img (.running ⟨d, .instr .ret :: rest, result.toList, x⟩ callers w)
      (.back result callers w) := by
  refine reaches_one ?_
  cases result with
  | none =>
    have hv : d.returns = .void := h.mp rfl
    simp [step, Instr.step, hv]
  | some c =>
    have hv : d.returns ≠ .void := fun he => by cases h.mpr he
    simp [step, Instr.step, hv]

/-- A constructor does nothing, so an object is made in a few steps. -/
theorem reaches_newobj {path : List String}
    (h : img.ctors.find? (fun m => m.owner == path) = some (.ctor path ctorCode)) :
    Reaches cmp img (.running ⟨d, .instr (.newobj path) :: rest, S, x⟩ callers w)
      (.running ⟨d, rest, .ref w.objects :: S, x⟩ callers w.grow) := by
  let new : Activation := ⟨d, rest, .ref w.objects :: S, x⟩
  have henter : Reaches cmp img (.running ⟨d, .instr (.newobj path) :: rest, S, x⟩ callers w)
      (.running ((MethodDef.ctor path ctorCode).enter [.ref w.objects]) (new :: callers) w.grow) :=
    reaches_one (by simp [step, Instr.step, h, new])
  have hbody : Reaches cmp img
      (.running ((MethodDef.ctor path ctorCode).enter [.ref w.objects]) (new :: callers) w.grow)
      (.running ⟨.ctor path ctorCode, [.instr .ret], none.toList,
        (MethodDef.ctor path ctorCode).variables [.ref w.objects]⟩ (new :: callers) w.grow) :=
    .head rfl (reaches_one rfl)
  exact (henter.trans hbody).trans (reaches_ret (by simp [MethodDef.ctor]))

end Machine

end ClassLang
