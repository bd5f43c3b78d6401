import ClassLang.Proofs.Layout

/-! What programs mean. Evaluation is big-step and goes by values: operands and arguments from left
to right, both operands of `&&` and `||`, numbers of 32 bits that wrap. A run that traps, or that
takes a value for what it is not, has no derivation. Static fields, objects and the console outlive
a call; the variables of a method start afresh with each. -/
namespace ClassLang

inductive Value where
  | int (n : Int32)
  | bool (b : Bool)
  | str (s : String)
  | null
  | ref (number : Nat)
  deriving DecidableEq

/-- What outlives a call: the static fields by class and name, how many objects were made, and what
was written to the console. -/
structure World (α : Type) where
  statics : List String → String → α
  objects : Nat
  output : List (Routine × String)

namespace World

variable {α : Type}

def setStatic (w : World α) (owner : List String) (name : String) (v : α) : World α :=
  { w with statics := fun o n => if o = owner ∧ n = name then v else w.statics o n }

def grow (w : World α) : World α := { w with objects := w.objects + 1 }

def print (w : World α) (routine : Routine) (text : String) : World α :=
  { w with output := w.output ++ [(routine, text)] }

end World

structure Store where
  vars : String → Value
  world : World Value

namespace Store

def setVar (s : Store) (name : String) (v : Value) : Store :=
  { s with vars := fun x => if x = name then v else s.vars x }

/-- The value of a variable. There is no object around whose fields could be meant. -/
def get (s : Store) (b : Symbol) : Option Value :=
  match b.details with
  | .var _ (.slot _) | .var _ (.param _) => some (s.vars b.name)
  | .var _ (.field true owner) => some (s.world.statics owner b.name)
  | _ => none

def set (s : Store) (b : Symbol) (v : Value) : Option Store :=
  match b.details with
  | .var _ (.slot _) | .var _ (.param _) => some (s.setVar b.name v)
  | .var _ (.field true owner) => some { s with world := s.world.setStatic owner b.name v }
  | _ => none

end Store

namespace Word

/-- There is no quotient by zero, nor one of the least number and -1. -/
def divides (a b : Int32) : Bool := b != 0 && !(a == Int32.minValue && b == -1)

/-- Cut off towards zero. -/
def quotient (a b : Int32) : Option Int32 := if divides a b then some (a / b) else none

/-- With the sign of the dividend. -/
def remainder (a b : Int32) : Option Int32 := if divides a b then some (a % b) else none

end Word

namespace Text

def charUnits (c : Char) : List Nat :=
  let n := c.toNat
  if n < 0x10000 then [n]
  else [0xD800 + (n - 0x10000) / 0x400, 0xDC00 + (n - 0x10000) % 0x400]

def units (s : String) : List Nat := s.toList.flatMap charUnits

/-- Ordinal order: unit by unit, and no string at all before any string. -/
def ordinal (a b : Option String) : Ordering := compare (a.map units) (b.map units)

end Text

def Literal.value : Literal → Value
  | .int n => .int n
  | .string s => .str s
  | .boolean b => .bool b
  | .null => .null

def UnaryOp.apply : UnaryOp → Value → Option Value
  | .negate, .int n => some (.int (-n))
  | .not, .bool b => some (.bool !b)
  | _, _ => none

def Value.string? : Value → Option (Option String)
  | .str s => some (some s)
  | .null => some none
  | _ => none

def Value.shown : Value → Option String
  | .int n => some (toString n.toInt)
  | .str s => some s
  | .null => some ""
  | _ => none

namespace BinaryOp

def onInts (op : BinaryOp) (a b : Int32) : Option Value :=
  match op with
  | .add => some (.int (a + b))
  | .sub => some (.int (a - b))
  | .mul => some (.int (a * b))
  | .div => (Word.quotient a b).map .int
  | .rem => (Word.remainder a b).map .int
  | .lt => some (.bool (a < b))
  | .le => some (.bool (a ≤ b))
  | .gt => some (.bool (b < a))
  | .ge => some (.bool (b ≤ a))
  | _ => none

def onBools (op : BinaryOp) (a b : Bool) : Option Value :=
  match op with
  | .and => some (.bool (a && b))
  | .or => some (.bool (a || b))
  | _ => none

/-- In a concatenation `null` is the empty string. -/
def onStrings (op : BinaryOp) (a b : Option String) : Option Value :=
  match op with
  | .add => some (.str (a.getD "" ++ b.getD ""))
  | .lt => some (.bool (Text.ordinal a b).isLT)
  | .le => some (.bool (Text.ordinal a b).isLE)
  | .gt => some (.bool (Text.ordinal a b).isGT)
  | .ge => some (.bool (Text.ordinal a b).isGE)
  | _ => none

/-- Strings are equal if they read the same, and references if they are to one object. -/
def apply : BinaryOp → Value → Value → Option Value
  | .eq, v, w => some (.bool (v == w))
  | .ne, v, w => some (.bool (v != w))
  | op, .int a, .int b => op.onInts a b
  | op, .bool a, .bool b => op.onBools a b
  | op, v, w => do op.onStrings (← v.string?) (← w.string?)

end BinaryOp

def TypeExpr.initial : TypeExpr → Value
  | .keyword .int _ => .int 0
  | .keyword .boolean _ => .bool false
  | _ => .null

def Method.start (m : Method) (args : List Value) (name : String) : Value :=
  match (m.params.zip args).find? fun x => x.1.name.text == name with
  | some x => x.2
  | none =>
    match m.bodySlots.find? fun v => v.name == name with
    | some v => v.type.initial
    | none => .null

inductive Outcome where
  | normal
  | returned (v : Option Value)

/-- What a method gives back. Only a method without result may run off its end. -/
def Outcome.result (m : Method) : Outcome → Option (Option Value)
  | .normal => if m.returns.isVoid then some none else none
  | .returned v => some v

mutual

/-- In a program with these methods an expression is evaluated, to a value if it has one. -/
inductive Evals (P : List (List String × Method)) : Store → Expr → Option Value → Store → Prop
  | literal {s value note} : Evals P s (.literal value note) (some value.value) s
  | var {s n note b v} (hb : n.symbol = some b) (hv : s.get b = some v) :
    Evals P s (.name n note) (some v) s
  | declaration {s n note b} (hb : n.symbol = some b) (hk : b.kind ≠ .var) :
    Evals P s (.name n note) none s
  | unary {s s' op operand note v r} (ho : Evals P s operand (some v) s')
    (hr : op.apply v = some r) : Evals P s (.unary op operand note) (some r) s'
  | binary {s s₁ s₂ op left right note v w r} (hl : Evals P s left (some v) s₁)
    (hr : Evals P s₁ right (some w) s₂) (ho : op.apply v w = some r) :
    Evals P s (.binary op left right note) (some r) s₂
  | assign {s s₁ s₂ n nameNote value note b v} (hb : n.symbol = some b)
    (hv : Evals P s value (some v) s₁) (hs : s₁.set b v = some s₂) :
    Evals P s (.assign (.name n nameNote) value note) (some v) s₂
  | print {s s' n nameNote args note m params returns modifiers owner routine v text}
    (hm : n.symbol = some m)
    (hd : m.details = .method params returns modifiers owner (some routine))
    (ha : EvalsAll P s args [v] s') (ht : v.shown = some text) :
    Evals P s (.call (.name n nameNote) args note) none
      { s' with world := s'.world.print routine text }
  | call {s s' n nameNote args note m params returns modifiers owner path decl vs r w}
    (hm : n.symbol = some m) (hd : m.details = .method params returns modifiers owner none)
    (ha : EvalsAll P s args vs s') (hp : (path, decl) ∈ P) (hs : decl.symbol = some m)
    (hr : Runs P decl vs s'.world r w) :
    Evals P s (.call (.name n nameNote) args note) r { s' with world := w }
  | create {s n note c path modifiers} (hc : n.symbol = some c)
    (hd : c.details = .cls path modifiers false) :
    Evals P s (.create n [] note) (some (.ref s.world.objects)) { s with world := s.world.grow }

inductive EvalsAll (P : List (List String × Method)) :
    Store → List Expr → List Value → Store → Prop
  | nil {s} : EvalsAll P s [] [] s
  | cons {s s₁ s₂ e rest v vs} (he : Evals P s e (some v) s₁) (hr : EvalsAll P s₁ rest vs s₂) :
    EvalsAll P s (e :: rest) (v :: vs) s₂

inductive Inits (P : List (List String × Method)) : Store → List Declarator → Store → Prop
  | nil {s} : Inits P s [] s
  | bare {s s' v rest} (hi : v.init = none) (hr : Inits P s rest s') : Inits P s (v :: rest) s'
  | init {s s₁ s₂ s₃ v rest e b x} (hi : v.init = some e) (hb : v.symbol = some b)
    (he : Evals P s e (some x) s₁) (hs : s₁.set b x = some s₂) (hr : Inits P s₂ rest s₃) :
    Inits P s (v :: rest) s₃

inductive Execs (P : List (List String × Method)) : Store → Stmt → Outcome → Store → Prop
  | block {s s' body span o} (hb : ExecsAll P s body o s') : Execs P s (.block body span) o s'
  | expr {s s' value span type v} (he : Evals P s value v s') :
    Execs P s (.expr value span type) .normal s'
  | locals {s s' d} (hi : Inits P s d.vars s') : Execs P s (.locals d) .normal s'
  | thenTrue {s s₁ s₂ cond body span o} (hc : Evals P s cond (some (.bool true)) s₁)
    (hb : Execs P s₁ body o s₂) : Execs P s (.ifThen cond body span) o s₂
  | thenFalse {s s₁ cond body span} (hc : Evals P s cond (some (.bool false)) s₁) :
    Execs P s (.ifThen cond body span) .normal s₁
  | elseTrue {s s₁ s₂ cond body other span o} (hc : Evals P s cond (some (.bool true)) s₁)
    (hb : Execs P s₁ body o s₂) : Execs P s (.ifElse cond body other span) o s₂
  | elseFalse {s s₁ s₂ cond body other span o} (hc : Evals P s cond (some (.bool false)) s₁)
    (hb : Execs P s₁ other o s₂) : Execs P s (.ifElse cond body other span) o s₂
  | loopEnd {s s₁ cond body span} (hc : Evals P s cond (some (.bool false)) s₁) :
    Execs P s (.loop cond body span) .normal s₁
  | loopNext {s s₁ s₂ s₃ cond body span o} (hc : Evals P s cond (some (.bool true)) s₁)
    (hb : Execs P s₁ body .normal s₂) (hl : Execs P s₂ (.loop cond body span) o s₃) :
    Execs P s (.loop cond body span) o s₃
  | loopReturn {s s₁ s₂ cond body span v} (hc : Evals P s cond (some (.bool true)) s₁)
    (hb : Execs P s₁ body (.returned v) s₂) : Execs P s (.loop cond body span) (.returned v) s₂
  | leave {s span} : Execs P s (.ret none span) (.returned none) s
  | ret {s s' e span v} (he : Evals P s e v s') : Execs P s (.ret (some e) span) (.returned v) s'
  | empty {s span} : Execs P s (.empty span) .normal s

inductive ExecsAll (P : List (List String × Method)) :
    Store → List Stmt → Outcome → Store → Prop
  | nil {s} : ExecsAll P s [] .normal s
  | cons {s s₁ s₂ stmt rest o} (hs : Execs P s stmt .normal s₁) (hr : ExecsAll P s₁ rest o s₂) :
    ExecsAll P s (stmt :: rest) o s₂
  | stop {s s₁ stmt rest v} (hs : Execs P s stmt (.returned v) s₁) :
    ExecsAll P s (stmt :: rest) (.returned v) s₁

/-- A method runs with these arguments, from one world to another, and gives back a result. -/
inductive Runs (P : List (List String × Method)) :
    Method → List Value → World Value → Option Value → World Value → Prop
  | body {m args w body o s r} (hl : args.length = m.params.length) (hb : m.body = some body)
    (he : ExecsAll P ⟨m.start args, w⟩ body o s) (hr : o.result m = some r) :
    Runs P m args w r s.world

end

end ClassLang
