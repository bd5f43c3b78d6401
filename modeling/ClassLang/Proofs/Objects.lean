import ClassLang.Proofs.Agreement

/-! Expressions in methods of objects. Here evaluation is a function: it always ends, with a value
or at a division that has no quotient, and tells what was stored on the way. The machine runs
straight code on the fields of objects too, and tells a trap from an instruction that cannot go on.
-/
namespace ClassLang

open Assembly

abbrev Objects (α : Type) := Nat → List String → String → α

def Objects.put {α : Type} (fields : Objects α) (object : Nat) (owner : List String) (name : String)
    (v : α) : Objects α :=
  fun i o n => if i = object ∧ o = owner ∧ n = name then v else fields i o n

/-- What a method sees that runs for the object `self`. In a static method there is no such object,
and nothing refers to it. -/
structure Memory where
  store : Store
  self : Nat
  fields : Objects Value

namespace Memory

def get (s : Memory) (b : Symbol) : Option Value :=
  match b.details with
  | .var _ (.field false owner) => some (s.fields s.self owner b.name)
  | _ => s.store.get b

def set (s : Memory) (b : Symbol) (v : Value) : Option Memory :=
  match b.details with
  | .var _ (.field false owner) => some { s with fields := s.fields.put s.self owner b.name v }
  | _ => (s.store.set b v).map fun store => { s with store }

theorem self_of_set {s s' : Memory} {b : Symbol} {v : Value} (h : s.set b v = some s') :
    s'.self = s.self := by
  unfold set at h
  split at h
  · cases h
    rfl
  · obtain ⟨store, -, rfl⟩ := Option.map_eq_some_iff.mp h
    rfl

end Memory

/-- How evaluation ends: with a value, at a division without quotient, or where a value is taken for
what it is not. -/
inductive Ending where
  | value (v : Value)
  | noQuotient
  | confused
  deriving DecidableEq

def Ending.of : Option Value → Ending
  | some v => .value v
  | none => .confused

def BinaryOp.lacksQuotient : BinaryOp → Value → Value → Bool
  | .div, .int a, .int b | .rem, .int a, .int b => !Word.divides a b
  | _, _, _ => false

def BinaryOp.ending (op : BinaryOp) (v w : Value) : Ending :=
  if op.lacksQuotient v w then .noQuotient else .of (op.apply v w)

structure Evaluation where
  ending : Ending
  memory : Memory
  stores : List (Symbol × Value)

namespace Evaluation

def andThen (E : Evaluation) (next : Value → Memory → Evaluation) : Evaluation :=
  match E.ending with
  | .value v => { next v E.memory with stores := E.stores ++ (next v E.memory).stores }
  | _ => E

end Evaluation

def Memory.assign (s : Memory) (target : Option Symbol) (v : Value) : Evaluation :=
  match target with
  | none => ⟨.confused, s, []⟩
  | some b =>
    match s.set b v with
    | some s' => ⟨.value v, s', [(b, v)]⟩
    | none => ⟨.confused, s, []⟩

namespace Expr

/-- The value of an expression without calls, from left to right. -/
def evaluate : Expr → Memory → Evaluation
  | .literal value _, s => ⟨.value value.value, s, []⟩
  | .this _, s => ⟨.value (.ref s.self), s, []⟩
  | .name n _, s => ⟨.of (n.symbol.bind s.get), s, []⟩
  | .unary op operand _, s =>
    (operand.evaluate s).andThen fun v s => ⟨.of (op.apply v), s, []⟩
  | .binary op left right _, s =>
    (left.evaluate s).andThen fun v s =>
      (right.evaluate s).andThen fun w s => ⟨op.ending v w, s, []⟩
  | .assign (.name n _) value _, s => (value.evaluate s).andThen fun v s => s.assign n.symbol v
  | _, s => ⟨.confused, s, []⟩

/-- Made of literals, `this`, names, operators and assignments to names. -/
def isCallFree : Expr → Bool
  | .literal .. | .this _ | .name .. => true
  | .unary _ operand _ => operand.isCallFree
  | .binary _ left right _ => left.isCallFree && right.isCallFree
  | .assign (.name ..) value _ => value.isCallFree
  | _ => false

end Expr

structure Scene where
  top : Activation
  world : World Cell
  fields : Objects Cell

inductive Progress where
  | on (x : Scene)
  | trapped (x : Scene)
  | stuck

def Progress.andThen (p : Progress) (next : Scene → Progress) : Progress :=
  match p with
  | .on x => next x
  | p => p

namespace Scene

def withStack (x : Scene) (stack : List Cell) : Scene := { x with top := { x.top with stack } }

@[simp] theorem stack_withStack (x : Scene) (S : List Cell) : (x.withStack S).top.stack = S := rfl

@[simp] theorem vars_withStack (x : Scene) (S : List Cell) :
    (x.withStack S).top.vars = x.top.vars := rfl

@[simp] theorem fields_withStack (x : Scene) (S : List Cell) :
    (x.withStack S).fields = x.fields := rfl

@[simp] theorem withStack_withStack (x : Scene) (S S' : List Cell) :
    (x.withStack S).withStack S' = x.withStack S' := rfl

end Scene

namespace Assembly.Instr

def lacksQuotient : Instr → List Cell → Bool
  | .div, .word b :: .word a :: _ | .rem, .word b :: .word a :: _ => !Word.divides a b
  | _, _ => false

def actOn (i : Instr) (cmp : Comparison) (x : Scene) : Progress :=
  match i.act cmp x.top x.world with
  | some (top, world) => .on { x with top, world }
  | none => if i.lacksQuotient x.top.stack then .trapped x else .stuck

/-- An instruction that goes on with the next one. A field of `null` and a division without quotient
are traps. -/
def perform (i : Instr) (cmp : Comparison) (x : Scene) : Progress :=
  match i with
  | .ldfld field =>
    match x.top.stack with
    | .ref n :: stack => .on (x.withStack (x.fields n field.owner field.name :: stack))
    | .null :: _ => .trapped x
    | _ => .stuck
  | .stfld field =>
    match x.top.stack with
    | c :: .ref n :: stack =>
      .on { x.withStack stack with fields := x.fields.put n field.owner field.name c }
    | _ :: .null :: _ => .trapped x
    | _ => .stuck
  | i => i.actOn cmp x

end Assembly.Instr

namespace Scene

def run (cmp : Comparison) : List Instr → Scene → Progress
  | [], x => .on x
  | i :: rest, x => (i.perform cmp x).andThen (run cmp rest)

variable {cmp : Comparison}

theorem run_append (is js : List Instr) (x : Scene) :
    run cmp (is ++ js) x = (run cmp is x).andThen (run cmp js) := by
  induction is generalizing x with
  | nil => rfl
  | cons i is ih =>
    rw [List.cons_append, run, run]
    cases i.perform cmp x with
    | on y => exact ih y
    | trapped y => rfl
    | stuck => rfl

theorem perform_of_act {i : Instr} {x : Scene} {top : Activation} {world : World Cell}
    (h : i.act cmp x.top x.world = some (top, world)) :
    i.perform cmp x = .on { x with top, world } := by
  have hact : i.actOn cmp x = .on { x with top, world } := by rw [Instr.actOn, h]
  cases i <;> first | exact hact | cases h

theorem run_computes {is : List Instr} : ∀ {x : Scene} {S : List Cell},
    computes cmp is x.top.stack = some S → run cmp is x = .on (x.withStack S) := by
  induction is with
  | nil =>
    intro x S h
    cases h
    rfl
  | cons i is ih =>
    intro x S h
    obtain ⟨T, hi, hrest⟩ := Option.bind_eq_some_iff.mp h
    have hact : i.act cmp x.top x.world = some ((x.withStack T).top, x.world) :=
      Machine.act_of_compute hi
    rw [run, perform_of_act hact]
    exact ih (x := x.withStack T) hrest

theorem run_cons {i : Instr} {is : List Instr} {x y : Scene} (h : i.perform cmp x = .on y) :
    run cmp (i :: is) x = run cmp is y := by
  rw [run, h]
  rfl

section

variable {x : Scene} {c : Cell} {S : List Cell}

theorem perform_ldthis (h : x.top.vars.args[0]? = some c) :
    Instr.ldthis.perform cmp x = .on (x.withStack (c :: x.top.stack)) :=
  perform_of_act (by simp [Instr.act.eq_def, h])

theorem perform_ldarg {index : Nat} (h : x.top.vars.args[index]? = some c) :
    (Instr.ldarg index).perform cmp x = .on (x.withStack (c :: x.top.stack)) :=
  perform_of_act (by simp [Instr.act.eq_def, h])

theorem perform_ldloc {slot : UInt16} (h : x.top.vars.locals slot = some c) :
    (Instr.ldloc slot).perform cmp x = .on (x.withStack (c :: x.top.stack)) :=
  perform_of_act (by simp [Instr.act.eq_def, h])

theorem perform_ldsfld (field : FieldRef) : (Instr.ldsfld field).perform cmp x =
    .on (x.withStack (x.world.statics field.owner field.name :: x.top.stack)) := rfl

theorem perform_ldfld {n : Nat} (field : FieldRef) :
    (Instr.ldfld field).perform cmp (x.withStack (.ref n :: S)) =
      .on (x.withStack (x.fields n field.owner field.name :: S)) := rfl

end

def read (x : Scene) (hasThis : Bool) (self : Nat) (b : Symbol) : Option Cell :=
  match b.details with
  | .var _ (.slot index) => x.top.vars.locals index
  | .var _ (.param index) => x.top.vars.args[index.toNat + if hasThis then 1 else 0]?
  | .var _ (.field true owner) => some (x.world.statics owner b.name)
  | .var _ (.field false owner) => some (x.fields self owner b.name)
  | _ => none

def keep (x : Scene) (hasThis : Bool) (self : Nat) (b : Symbol) (c : Cell) : Scene :=
  match b.details with
  | .var _ (.slot index) =>
    let locals := fun i => if i = index then some c else x.top.vars.locals i
    { x with top := { x.top with vars := { x.top.vars with locals } } }
  | .var _ (.param index) =>
    let args := x.top.vars.args.set (index.toNat + if hasThis then 1 else 0) c
    { x with top := { x.top with vars := { x.top.vars with args } } }
  | .var _ (.field true owner) => { x with world := x.world.setStatic owner b.name c }
  | .var _ (.field false owner) => { x with fields := x.fields.put self owner b.name c }
  | _ => x

section

variable {x : Scene} {hasThis : Bool} {self : Nat} {b : Symbol} {type : TypeExpr} {index : UInt16}
  {owner : List String} {old c : Cell} {S : List Cell}

theorem perform_stloc (hd : b.details = .var type (.slot index))
    (hr : x.read hasThis self b = some old) :
    (Instr.stloc index).perform cmp (x.withStack (c :: S)) =
      .on ((x.keep hasThis self b c).withStack S) := by
  simp only [read, hd] at hr
  simp only [keep, hd]
  exact perform_of_act (by simp [Instr.act.eq_def, Instr.taking, hr, withStack])

theorem perform_starg (hd : b.details = .var type (.param index))
    (hr : x.read hasThis self b = some old) :
    (Instr.starg (index.toNat + if hasThis then 1 else 0)).perform cmp (x.withStack (c :: S)) =
      .on ((x.keep hasThis self b c).withStack S) := by
  simp only [read, hd] at hr
  have hlt := (List.getElem?_eq_some_iff.mp hr).1
  simp only [keep, hd]
  exact perform_of_act (by simp [Instr.act.eq_def, Instr.taking, hlt, withStack])

theorem perform_stsfld (hd : b.details = .var type (.field true owner)) (a : AsmType) :
    (Instr.stsfld ⟨a, owner, b.name⟩).perform cmp (x.withStack (c :: S)) =
      .on ((x.keep hasThis self b c).withStack S) := by
  simp only [keep, hd]
  rfl

theorem perform_stfld (hd : b.details = .var type (.field false owner)) (a : AsmType) :
    (Instr.stfld ⟨a, owner, b.name⟩).perform cmp (x.withStack (c :: .ref self :: S)) =
      .on ((x.keep hasThis self b c).withStack S) := by
  simp only [keep, hd]
  rfl

end

def after (x : Scene) (hasThis : Bool) (self : Nat) (stores : List (Symbol × Value)) : Scene :=
  stores.foldl (fun x st => x.keep hasThis self st.1 st.2.cell) x

section

variable (x : Scene) (hasThis : Bool) (self : Nat)

theorem keep_withStack (b : Symbol) (c : Cell) (S : List Cell) :
    (x.withStack S).keep hasThis self b c = (x.keep hasThis self b c).withStack S := by
  unfold keep
  rcases b.details with _ | _ | ⟨_, _ | _ | ⟨_ | _, _⟩⟩ <;> rfl

theorem after_withStack (stores : List (Symbol × Value)) (S : List Cell) :
    (x.withStack S).after hasThis self stores = (x.after hasThis self stores).withStack S := by
  unfold after
  induction stores generalizing x with
  | nil => rfl
  | cons st stores ih => rw [List.foldl_cons, List.foldl_cons, keep_withStack, ih]

theorem after_append (a b : List (Symbol × Value)) :
    x.after hasThis self (a ++ b) = (x.after hasThis self a).after hasThis self b :=
  List.foldl_append

end

end Scene

end ClassLang
