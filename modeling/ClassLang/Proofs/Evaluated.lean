import ClassLang.Proofs.Branches
import ClassLang.Proofs.Meaning
import ClassLang.Proofs.Objects

/-! The code of an expression delivers its value, in static methods and in methods of objects. From
every machine that holds what the source holds, it pushes the value of the expression and makes the
stores that the source makes, and it traps exactly if the source divides where there is no quotient.
-/
namespace ClassLang

open Assembly Typing Lowering

structure Host (t : Table) (target : Target) (ds : List Decl) where
  path : List String
  method : Method
  definition : MethodDef
  symbol : Symbol
  scope : ScopeId
  mem : .method path method ∈ ds
  named : method.symbol = some symbol
  opens : symbol.scope = some scope
  owner : definition.owner = path
  static : definition.isStatic = runsStatic target.entry symbol
  params : target.paramEntries method.params = .ok definition.params
  locals : ∃ body found, method.body = some body ∧ gatherAllLocals body [] = .ok found ∧
    target.localEntries found = .ok definition.locals

namespace Host

variable {t : Table} {target : Target} {ds : List Decl} {cmp : Comparison} {img : Image}

def context (H : Host t target ds) : Context := ⟨t, H.scope, some H.symbol, target.entry⟩

def hasThis (H : Host t target ds) : Bool := !H.definition.isStatic

def frame (H : Host t target ds) : Frame := target.frame H.hasThis

theorem serves (H : Host t target ds) : Serves H.frame H.context target.resolutions :=
  ⟨rfl, rfl, by rw [frame, hasThis, H.static]; rfl⟩

inductive Sees (H : Host t target ds) (b : Symbol) : Prop
  | slot {type index} (hb : t.Bound b) (hin : b.declaredIn = H.scope)
    (hd : b.details = .var type (.slot index))
  | param {type index} (hb : t.Bound b) (hin : b.declaredIn = H.scope)
    (hd : b.details = .var type (.param index))
  | shared {type owner} (hb : t.Bound b) (hd : b.details = .var type (.field true owner))
  | own {type} (hb : t.Bound b) (hd : b.details = .var type (.field false H.path))
    (hs : H.definition.isStatic = false)

/-- Every variable has a value of its type, and the machine holds it. What has the type `void` does
not count. -/
structure Agrees (H : Host t target ds) (s : Memory) (x : Scene) : Prop where
  this : H.definition.isStatic = false → x.top.vars.args[0]? = some (.ref s.self)
  var : ∀ {b T}, H.Sees b → target.resolutions.type? b = some T → T ≠ .void →
    ∃ v, s.get b = some v ∧ T.holds v = true ∧ x.read H.hasThis s.self b = some v.cell

theorem Agrees.withStack {H : Host t target ds} {s : Memory} {x : Scene} (h : H.Agrees s x)
    (S : List Cell) : H.Agrees s (x.withStack S) := ⟨h.this, h.var⟩

section Places

variable (h : Accepted t target ds img) {H : Host t target ds} {b c : Symbol} {T : Ty}
  {p : Lowering.Place}
  {s s' : Memory} {x : Scene} {v : Value}
include h

theorem sees_of_place (hr : t.Reached H.scope b) (hp : PlaceOf H.context H.frame b T p) :
    H.Sees b := by
  cases hp with
  | slot hd => exact .slot hr.1 (h.declaredIn_of_reached hr hd (by simp)) hd
  | argument hd => exact .param hr.1 (h.declaredIn_of_reached hr hd (by simp)) hd
  | shared hd _ => exact .shared hr.1 hd
  | own hd _ hs ho =>
    obtain ⟨-, -, hdet, -⟩ := method_declared h.declares H.mem H.named
    have howns : H.symbol.methodOwner? = some _ := ho
    rw [Symbol.methodOwner?, hdet] at howns
    obtain rfl := Option.some.inj howns
    exact .own hr.1 hd (H.static.trans hs)

theorem get_set_of_ne (hb : H.Sees b) (hc : H.Sees c) (hne : c ≠ b) (hs : s.set b v = some s') :
    s'.get c = s.get c := by
  cases hb with
  | slot hb hin hd | param hb hin hd =>
    simp only [Memory.set, hd, Store.set, Option.map_some, Option.some.injEq] at hs
    subst hs
    cases hc with
    | slot hc hcin hcd | param hc hcin hcd =>
      have hname := h.declares.name_ne hb hc (hcin.trans hin.symm) hcd hne
      simp [Memory.get, hcd, Store.get, Store.setVar, hname]
    | shared _ hcd | own _ hcd _ => simp [Memory.get, hcd, Store.get, Store.setVar]
  | @shared _ owner hb hd =>
    simp only [Memory.set, hd, Store.set, Option.map_some, Option.some.injEq] at hs
    subst hs
    cases hc with
    | @shared _ owner' hc hcd =>
      have hapart : ¬(owner' = owner ∧ c.name = b.name) := fun heq =>
        hne (h.declares.sound.eq_of_field hc hb (heq.1 ▸ hcd) hd heq.2)
      simp [Memory.get, hcd, Store.get, World.setStatic, hapart]
    | slot _ _ hcd | param _ _ hcd | own _ hcd _ => simp [Memory.get, hcd, Store.get]
  | own hb hd _ =>
    simp only [Memory.set, hd, Option.some.injEq] at hs
    subst hs
    cases hc with
    | own hc hcd _ =>
      have hname : c.name ≠ b.name := fun hname =>
        hne (h.declares.sound.eq_of_field hc hb hcd hd hname)
      simp [Memory.get, hcd, Objects.put, hname]
    | slot _ _ hcd | param _ _ hcd | shared _ hcd => simp [Memory.get, hcd]

theorem read_keep_of_ne (hn : ∀ d ∈ ds, d.isNarrow = true) (hb : H.Sees b) (hc : H.Sees c)
    (hne : c ≠ b) (self : Nat) (cell : Cell) :
    (x.keep H.hasThis self b cell).read H.hasThis self c = x.read H.hasThis self c := by
  cases hb with
  | @slot _ index hb hin hd =>
    cases hc with
    | @slot _ i hc hcin hcd =>
      have hi : i ≠ index := fun hi => hne (h.declares.eq_of_slot H.mem (h.filled H.mem)
        (hn _ H.mem) H.named H.opens hb hc hin hcin hd (hi ▸ hcd))
      simp [Scene.read, Scene.keep, hd, hcd, hi]
    | param _ _ hcd | shared _ hcd | own _ hcd _ => simp [Scene.read, Scene.keep, hd, hcd]
  | @param _ index hb hin hd =>
    cases hc with
    | @param _ i hc hcin hcd =>
      have hi : index.toNat ≠ i.toNat := fun hi => hne (h.declares.eq_of_position H.mem
        (hn _ H.mem) H.named H.opens hb hc hin hcin hd (UInt16.toNat_inj.mp hi ▸ hcd))
      simp [Scene.read, Scene.keep, hd, hcd, hi]
    | slot _ _ hcd | shared _ hcd | own _ hcd _ => simp [Scene.read, Scene.keep, hd, hcd]
  | @shared _ owner hb hd =>
    cases hc with
    | @shared _ owner' hc hcd =>
      have hapart : ¬(owner' = owner ∧ c.name = b.name) := fun heq =>
        hne (h.declares.sound.eq_of_field hc hb (heq.1 ▸ hcd) hd heq.2)
      simp [Scene.read, Scene.keep, hd, hcd, World.setStatic, hapart]
    | slot _ _ hcd | param _ _ hcd | own _ hcd _ => simp [Scene.read, Scene.keep, hd, hcd]
  | own hb hd _ =>
    cases hc with
    | own hc hcd _ =>
      have hname : c.name ≠ b.name := fun hname =>
        hne (h.declares.sound.eq_of_field hc hb hcd hd hname)
      simp [Scene.read, Scene.keep, hd, hcd, Objects.put, hname]
    | slot _ _ hcd | param _ _ hcd | shared _ hcd => simp [Scene.read, Scene.keep, hd, hcd]

end Places

theorem get_set_self {H : Host t target ds} {b : Symbol} {s s' : Memory} {v : Value}
    (hb : H.Sees b) (hs : s.set b v = some s') : s'.get b = some v := by
  cases hb with
  | slot _ _ hd | param _ _ hd | shared _ hd =>
    simp only [Memory.set, hd, Store.set, Option.map_some, Option.some.injEq] at hs
    subst hs
    simp [Memory.get, hd, Store.get, Store.setVar, World.setStatic]
  | own _ hd _ =>
    simp only [Memory.set, hd, Option.some.injEq] at hs
    subst hs
    simp [Memory.get, hd, Objects.put]

theorem read_keep_self {H : Host t target ds} {b : Symbol} {x : Scene} {self : Nat} {old : Cell}
    (hr : x.read H.hasThis self b = some old) (cell : Cell) :
    (x.keep H.hasThis self b cell).read H.hasThis self b = some cell := by
  unfold Scene.read at hr
  split at hr
  · next hd => simp [Scene.read, Scene.keep, hd]
  · next hd =>
    have hlt := (List.getElem?_eq_some_iff.mp hr).1
    simp [Scene.read, Scene.keep, hd, List.getElem?_set_self hlt]
  · next hd => simp [Scene.read, Scene.keep, hd, World.setStatic]
  · next hd => simp [Scene.read, Scene.keep, hd, Objects.put]
  · cases hr

theorem exists_set {H : Host t target ds} {b : Symbol} (hb : H.Sees b) (s : Memory) (v : Value) :
    ∃ s', s.set b v = some s' := by
  cases hb with
  | slot _ _ hd | param _ _ hd | shared _ hd | own _ hd _ => simp [Memory.set, hd, Store.set]

theorem Agrees.store (h : Accepted t target ds img) (hn : ∀ d ∈ ds, d.isNarrow = true)
    {H : Host t target ds} {s s' : Memory} {x : Scene} {b : Symbol} {T : Ty} {v : Value}
    (ha : H.Agrees s x) (hb : H.Sees b) (ht : target.resolutions.type? b = some T)
    (hv : T.holds v = true) (hs : s.set b v = some s') :
    H.Agrees s' (x.keep H.hasThis s.self b v.cell) := by
  have hself := Memory.self_of_set hs
  have hvoid : T ≠ .void := by
    rintro rfl
    cases v <;> cases hv
  constructor
  · intro hstatic
    rw [hself, ← ha.this hstatic]
    cases hb with
    | param _ _ hd =>
      have hthis : H.hasThis = true := by rw [hasThis, hstatic]; rfl
      simp [Scene.keep, hd, hthis]
    | slot _ _ hd | shared _ hd | own _ hd _ => simp [Scene.keep, hd]
  · intro c U hc hU hne
    by_cases hcb : c = b
    · subst hcb
      obtain rfl := Option.some.inj (ht.symm.trans hU)
      obtain ⟨old, -, -, hread⟩ := ha.var hb ht hvoid
      exact ⟨v, get_set_self hb hs, hv, by rw [hself]; exact read_keep_self hread v.cell⟩
    · obtain ⟨w, hget, hholds, hread⟩ := ha.var hc hU hne
      refine ⟨w, (get_set_of_ne h hb hc hcb hs).trans hget, hholds, ?_⟩
      rw [hself, read_keep_of_ne h hn hb hc hcb]
      exact hread

/-- Code that was started with the variables of `x` follows an evaluation: it leaves the value on
top of `S`, or traps where the evaluation ends. Either way it has made the stores, and no other. -/
inductive Follows (H : Host t target ds) (T : Ty) (x : Scene) (self : Nat) (S : List Cell)
    (E : Evaluation) : Progress → Prop
  | value {v} (he : E.ending = .value v) (hT : T.holds v = true) (hself : E.memory.self = self)
    (ha : H.Agrees E.memory (x.after H.hasThis self E.stores)) :
    Follows H T x self S E (.on ((x.after H.hasThis self E.stores).withStack (v.cell :: S)))
  | trap {R} (he : E.ending = .noQuotient) (hself : E.memory.self = self)
    (ha : H.Agrees E.memory (x.after H.hasThis self E.stores)) :
    Follows H T x self S E (.trapped ((x.after H.hasThis self E.stores).withStack R))

section Follows

variable {H : Host t target ds} {T U : Ty} {x : Scene} {self : Nat} {S R : List Cell}
  {E : Evaluation} {p : Progress}

theorem Follows.of_withStack (h : H.Follows T (x.withStack R) self S E p) :
    H.Follows T x self S E p := by
  cases h with
  | value he hT hself ha =>
    rw [Scene.after_withStack] at ha ⊢
    exact .value he hT hself ⟨ha.this, ha.var⟩
  | trap he hself ha =>
    rw [Scene.after_withStack] at ha ⊢
    exact .trap he hself ⟨ha.this, ha.var⟩

theorem Follows.done {s : Memory} {v : Value} (ha : H.Agrees s x) (hT : T.holds v = true) :
    H.Follows T x s.self S ⟨.value v, s, []⟩ (.on (x.withStack (v.cell :: S))) :=
  .value rfl hT rfl ha

/-- Code goes on with the value where evaluation does. -/
theorem Follows.andThen {next : Value → Memory → Evaluation} {js : List Instr}
    (h : H.Follows T x self S E p)
    (hn : ∀ v y, T.holds v = true → H.Agrees E.memory y → E.memory.self = self →
      H.Follows U y self R (next v E.memory) (Scene.run cmp js (y.withStack (v.cell :: S)))) :
    H.Follows U x self R (E.andThen next) (p.andThen (Scene.run cmp js)) := by
  cases h with
  | @value v he hT hself ha =>
    rw [Evaluation.andThen, he]
    have hrest := hn v _ hT ha hself
    rw [Progress.andThen]
    generalize Scene.run cmp js _ = q at hrest
    cases hrest with
    | value he' hT' hself' ha' =>
      rw [← Scene.after_append] at ha' ⊢
      exact .value he' hT' hself' ha'
    | trap he' hself' ha' =>
      rw [← Scene.after_append] at ha' ⊢
      exact .trap he' hself' ha'
  | trap he hself ha =>
    rw [Evaluation.andThen, he]
    exact .trap he hself ha

end Follows

def Delivers (H : Host t target ds) (cmp : Comparison) (e : Expr) (T : Ty)
    (is : List Instr) : Prop :=
  ∀ s x, H.Agrees s x → H.Follows T x s.self x.top.stack (e.evaluate s) (Scene.run cmp is x)

end Host

theorem UnaryOp.apply_of_holds {op : UnaryOp} {v : Value} (h : (operandType op).holds v = true) :
    ∃ r, op.apply v = some r := by
  cases op with
  | negate =>
    obtain ⟨n, rfl⟩ := Value.of_holds_int h
    exact ⟨_, rfl⟩
  | not =>
    obtain ⟨b, rfl⟩ := Value.of_holds_boolean h
    exact ⟨_, rfl⟩

/-- An operator on values of its type has a result, or it is a division without quotient. -/
theorem BinaryOp.apply_of_holds {op : BinaryOp} {T : Ty} {v w : Value} (ha : applies op T = true)
    (hv : T.holds v = true) (hw : T.holds w = true) :
    (op.lacksQuotient v w = false ∧ ∃ r, op.apply v w = some r) ∨
      ((op = .div ∨ op = .rem) ∧ T = .int ∧
        ∃ a b, v = .int a ∧ w = .int b ∧ Word.divides a b = false) := by
  have hint : T.same .int = true → ∃ a b, T = .int ∧ v = .int a ∧ w = .int b := fun h => by
    obtain rfl := same_eq h (by simp [Ty.form])
    obtain ⟨a, rfl⟩ := Value.of_holds_int hv
    obtain ⟨b, rfl⟩ := Value.of_holds_int hw
    exact ⟨a, b, rfl, rfl, rfl⟩
  cases op with
  | eq | ne => exact Or.inl ⟨rfl, _, rfl⟩
  | and | or =>
    obtain rfl := same_eq ha (by simp [Ty.form])
    obtain ⟨a, rfl⟩ := Value.of_holds_boolean hv
    obtain ⟨b, rfl⟩ := Value.of_holds_boolean hw
    exact Or.inl ⟨rfl, _, rfl⟩
  | sub | mul =>
    obtain ⟨a, b, rfl, rfl, rfl⟩ := hint ha
    exact Or.inl ⟨rfl, _, rfl⟩
  | div | rem =>
    obtain ⟨a, b, rfl, rfl, rfl⟩ := hint ha
    cases hq : Word.divides a b with
    | false => exact Or.inr ⟨by simp, rfl, a, b, rfl, rfl, hq⟩
    | true =>
      have hsome : ∀ n : Int32, ((if Word.divides a b then some n else none).map Value.int) =
          some (.int n) := fun n => by rw [hq]; rfl
      exact Or.inl ⟨by rw [lacksQuotient, hq]; rfl, _, hsome _⟩
  | add | lt | le | gt | ge =>
    rcases Bool.or_eq_true_iff.mp ha with ha | ha
    · obtain ⟨a, b, rfl, rfl, rfl⟩ := hint ha
      exact Or.inl ⟨rfl, _, rfl⟩
    · obtain rfl := same_eq ha (by simp [Ty.form])
      obtain ⟨a, hva, -⟩ := Value.string?_cell v hv
      obtain ⟨b, hwb, -⟩ := Value.string?_cell w hw
      exact Or.inl ⟨rfl, _, Value.apply_strings hva hwb (by simp) (by simp)⟩

namespace Host

variable {t : Table} {target : Target} {ds : List Decl} {cmp : Comparison} {img : Image}
  {H : Host t target ds}
  {T : Ty} {x : Scene} {S : List Cell} {s : Memory} {is js ks : List Instr}

theorem perform_noQuotient {a b : Int32} {i : Instr} (hi : i = .div ∨ i = .rem)
    (hq : Word.divides a b = false) (y : Scene) :
    Scene.run cmp [i] (y.withStack (.word b :: .word a :: S)) =
      .trapped (y.withStack (.word b :: .word a :: S)) := by
  rcases hi with rfl | rfl
  all_goals simp [Scene.run, Instr.perform.eq_def, Instr.actOn, Instr.act.eq_def,
    Instr.compute.eq_def, onWords, Word.quotient, Word.remainder, hq, Instr.lacksQuotient.eq_def,
    Progress.andThen]

namespace Delivers

theorem literal (value : Literal) (note : Note) :
    H.Delivers cmp (.literal value note) (literalType value) [literalCode value] := by
  intro s x ha
  have hrun : Scene.run cmp [literalCode value] x =
      .on (x.withStack (value.value.cell :: x.top.stack)) := by
    refine Scene.run_computes ?_
    rcases value with _ | _ | (_ | _) | _ <;> rfl
  rw [hrun]
  exact .done ha (by cases value <;> rfl)

theorem unary {op : UnaryOp} {operand : Expr} {note : Note}
    (ho : H.Delivers cmp operand (operandType op) is) :
    H.Delivers cmp (.unary op operand note) (operandType op) (is ++ unaryCode op) := by
  intro s x ha
  rw [Scene.run_append, Expr.evaluate]
  refine (ho s x ha).andThen fun v y hv hy hself => ?_
  obtain ⟨r, hr⟩ := UnaryOp.apply_of_holds hv
  obtain ⟨hT, hcode⟩ := unaryCode_computes cmp hv hr x.top.stack
  have hrun := Scene.run_computes (x := y.withStack (v.cell :: x.top.stack)) hcode
  rw [hrun, hr, ← hself]
  exact .done hy hT

theorem binary {op : BinaryOp} {left right : Expr} {note : Note} (hl : H.Delivers cmp left T is)
    (hr : H.Delivers cmp right T js) (ha : applies op T = true) (hc : binaryCode op T = .of ks) :
    H.Delivers cmp (.binary op left right note) (if op.isComparison then .boolean else T)
      (is ++ js ++ ks) := by
  intro s x hx
  rw [List.append_assoc, Scene.run_append, Expr.evaluate]
  refine (hl s x hx).andThen fun v y hv hy hself => ?_
  rw [Scene.run_append]
  have hright := hr _ _ (hy.withStack (v.cell :: x.top.stack))
  rw [hself, Scene.stack_withStack] at hright
  refine hright.of_withStack.andThen fun w z hw hz hself' => ?_
  rcases BinaryOp.apply_of_holds ha hv hw with ⟨hq, r, happly⟩ | ⟨hop, rfl, a, b, rfl, rfl, hq⟩
  · obtain ⟨hT, hcode⟩ := binaryCode_computes cmp ha hc hv hw happly x.top.stack
    have hrun := Scene.run_computes (x := z.withStack (w.cell :: v.cell :: x.top.stack)) hcode
    rw [hrun, BinaryOp.ending, hq, happly, ← hself']
    exact .done hz hT
  · have hdiv : ∃ i, ks = [i] ∧ (i = .div ∨ i = .rem) ∧
        op.lacksQuotient (.int a) (.int b) = true := by
      rcases hop with rfl | rfl
      · cases hc
        exact ⟨_, rfl, Or.inl rfl, by rw [BinaryOp.lacksQuotient, hq]; rfl⟩
      · cases hc
        exact ⟨_, rfl, Or.inr rfl, by rw [BinaryOp.lacksQuotient, hq]; rfl⟩
    obtain ⟨i, rfl, hi, hlacks⟩ := hdiv
    rw [Value.cell, Value.cell, perform_noQuotient hi hq, BinaryOp.ending, hlacks]
    exact .trap rfl hself' hz

theorem this {note : Note} (hs : H.definition.isStatic = false) :
    H.Delivers cmp (.this note) .this [.ldthis] := by
  intro s x ha
  rw [Scene.run_cons (Scene.perform_ldthis (ha.this hs))]
  exact .done ha rfl

theorem var (h : Accepted t target ds img) {n : DottedName} {note : Note} {b : Symbol}
    {p : Lowering.Place} (hb : n.symbol = some b) (hr : t.Reached H.scope b)
    (ht : target.resolutions.type? b = some T) (hp : PlaceOf H.context H.frame b T p)
    (hT : T ≠ .void) : H.Delivers cmp (.name n note) T p.load := by
  intro s x ha
  obtain ⟨v, hget, hholds, hread⟩ := ha.var (sees_of_place h hr hp) ht hT
  have hrun : Scene.run cmp p.load x = .on (x.withStack (v.cell :: x.top.stack)) := by
    cases hp with
    | slot hd =>
      simp only [Scene.read, hd] at hread
      exact Scene.run_cons (Scene.perform_ldloc hread)
    | argument hd =>
      simp only [Scene.read, hd] at hread
      exact Scene.run_cons (Scene.perform_ldarg hread)
    | shared hd _ =>
      simp only [Scene.read, hd, Option.some.injEq] at hread
      rw [← hread]
      exact Scene.run_cons (Scene.perform_ldsfld _)
    | own hd _ hs _ =>
      simp only [Scene.read, hd, Option.some.injEq] at hread
      rw [Lowering.Place.load, Scene.run_cons (Scene.perform_ldthis (ha.this (H.static.trans hs))),
        ← hread]
      exact Scene.run_cons (Scene.perform_ldfld _)
  rw [hrun, Expr.evaluate, hb, Option.bind_some, hget]
  exact .done ha hholds

section Assign

variable (h : Accepted t target ds img) (hn : ∀ d ∈ ds, d.isNarrow = true) {n : DottedName}
  {nameNote note : Note} {value : Expr} {b : Symbol} {p : Lowering.Place}
include h hn

theorem follows_assign {y : Scene} {v : Value} (hy : H.Agrees s y) (hb : H.Sees b)
    (ht : target.resolutions.type? b = some T) (hv : T.holds v = true) :
    H.Follows T y s.self S (s.assign (some b) v)
      (.on ((y.keep H.hasThis s.self b v.cell).withStack (v.cell :: S))) := by
  obtain ⟨s', hset⟩ := exists_set hb s v
  rw [Memory.assign, hset]
  exact .value rfl hv (Memory.self_of_set hset) (hy.store h hn hb ht hv hset)

/-- A copy of the value stays, and one instruction stores the other. -/
theorem assign_copied {i : Instr} (hb : n.symbol = some b) (hs : H.Sees b)
    (ht : target.resolutions.type? b = some T) (hv : H.Delivers cmp value T is)
    (hstore : ∀ {s : Memory} {y : Scene} {c old : Cell} {S : List Cell},
      y.read H.hasThis s.self b = some old →
        i.perform cmp (y.withStack (c :: S)) = .on ((y.keep H.hasThis s.self b c).withStack S)) :
    H.Delivers cmp (.assign (.name n nameNote) value note) T (is ++ [.dup] ++ [i]) := by
  intro s x ha
  rw [List.append_assoc, Scene.run_append, Expr.evaluate, hb]
  refine (hv s x ha).andThen fun v y hholds hy hself => ?_
  obtain ⟨old, -, -, hread⟩ := hy.var hs ht (by rintro rfl; cases v <;> cases hholds)
  have hdup : Instr.dup.perform cmp (y.withStack (v.cell :: x.top.stack)) =
      .on (y.withStack (v.cell :: v.cell :: x.top.stack)) := rfl
  rw [List.singleton_append, Scene.run_cons hdup, Scene.run_cons (hstore hread), ← hself]
  exact follows_assign h hn hy hs ht hholds

/-- The code of an assignment stores the value and leaves it. That of an instance field reads it
back. -/
theorem assign (hb : n.symbol = some b) (hr : t.Reached H.scope b)
    (ht : target.resolutions.type? b = some T) (hp : PlaceOf H.context H.frame b T p)
    (hv : H.Delivers cmp value T is) :
    H.Delivers cmp (.assign (.name n nameNote) value note) T (p.store is true) := by
  have hsees := sees_of_place h hr hp
  cases hp with
  | slot hd => exact assign_copied h hn hb hsees ht hv fun hread => Scene.perform_stloc hd hread
  | argument hd =>
    exact assign_copied h hn hb hsees ht hv fun hread => Scene.perform_starg hd hread
  | shared hd _ => exact assign_copied h hn hb hsees ht hv fun _ => Scene.perform_stsfld hd _
  | @own _ owner a hd _ hs _ =>
    have hst : H.definition.isStatic = false := H.static.trans hs
    intro s x ha
    rw [Lowering.Place.store, Scene.run_cons (Scene.perform_ldthis (ha.this hst)),
      Scene.run_append, Expr.evaluate, hb]
    have hvalue := hv _ _ (ha.withStack (.ref s.self :: x.top.stack))
    refine hvalue.of_withStack.andThen fun v y hholds hy hself => ?_
    -- The object waits below the value, and the field is read back once it is stored.
    have hstore : (Instr.stfld ⟨a, owner, b.name⟩).perform cmp
        (y.withStack (v.cell :: .ref s.self :: x.top.stack)) =
          .on ((y.keep H.hasThis s.self b v.cell).withStack x.top.stack) := Scene.perform_stfld hd a
    have hthis : ((y.keep H.hasThis s.self b v.cell).withStack x.top.stack).top.vars.args[0]? =
        some (.ref s.self) := by
      rw [← hself, ← hy.this hst]
      simp [Scene.keep, hd]
    have hback : (y.keep H.hasThis s.self b v.cell).fields s.self owner b.name = v.cell := by
      simp [Scene.keep, hd, Objects.put]
    rw [Scene.stack_withStack, if_pos rfl, Scene.run_cons hstore,
      Scene.run_cons (Scene.perform_ldthis hthis), Scene.run_cons (Scene.perform_ldfld _)]
    simp only [Scene.withStack_withStack, Scene.fields_withStack, Scene.stack_withStack, hback]
    rw [← hself]
    exact follows_assign h hn hy hsees ht hholds

end Assign

end Delivers

theorem delivers_of_codes (h : Accepted t target ds img) (hn : ∀ d ∈ ds, d.isNarrow = true)
    {e : Expr} (hc : Codes H.context target.resolutions H.frame e T is) (hf : e.isCallFree = true)
    (hv : T.isValue = true) : H.Delivers cmp e T is := by
  induction hc with
  | literal _ => exact .literal _ _
  | this hs _ => exact .this (H.static.trans hs)
  | var hb hr ht hp _ => exact .var h hb hr ht hp (by rintro rfl; cases hv)
  | declaration => cases hv
  | @unary op operand note js _ _ ih =>
    rw [Expr.isCallFree] at hf
    exact .unary (ih hf (by cases op <;> rfl))
  | binary _ _ ha hcode _ ihl ihr =>
    rw [Expr.isCallFree, Bool.and_eq_true] at hf
    have hT := isValue_of_applies ha
    exact .binary (ihl hf.1 hT) (ihr hf.2 hT) ha hcode
  | assign hb hr ht hp _ hT _ ih =>
    rw [Expr.isCallFree] at hf
    exact .assign h hn hb hr ht hp (ih hf hT)
  | call | create => cases hf

end Host

/-- The machine that runs a method holds what the source holds: `this` as the first argument, the
parameters after it, the locals in their slots, and the fields of the class. What has the type
`void` does not count. -/
structure Mirrors (img : Image) (d : MethodDef) (s : Memory) (x : Scene) : Prop where
  this : d.isStatic = false → x.top.vars.args[0]? = some (.ref s.self)
  param : ∀ {i a name}, d.params[i]? = some (a, name) → a ≠ .void →
    a.holds (s.store.vars name) = true ∧
      x.top.vars.args[i + if d.isStatic then 0 else 1]? = some (s.store.vars name).cell
  slot : ∀ e ∈ d.locals, e.type ≠ .void → e.type.holds (s.store.vars e.name) = true ∧
    x.top.vars.locals e.slot = some (s.store.vars e.name).cell
  shared : ∀ f ∈ img.fields, f.isStatic = true → f.type ≠ .void →
    f.type.holds (s.store.world.statics f.owner f.name) = true ∧
      x.world.statics f.owner f.name = (s.store.world.statics f.owner f.name).cell
  own : ∀ f ∈ img.fields, f.isStatic = false → f.owner = d.owner → d.isStatic = false →
    f.type ≠ .void → f.type.holds (s.fields s.self f.owner f.name) = true ∧
      x.fields s.self f.owner f.name = (s.fields s.self f.owner f.name).cell

namespace Host

variable {t : Table} {target : Target} {ds : List Decl} {cmp : Comparison} {img : Image}
  {H : Host t target ds}
  {s : Memory} {x : Scene}

theorem param_symbol (h : Accepted t target ds img) (hn : ∀ d ∈ ds, d.isNarrow = true) {i : Nat}
    {a : AsmType} {name : String} (hi : H.definition.params[i]? = some (a, name)) :
    ∃ b type index, t.Bound b ∧ b.declaredIn = H.scope ∧ b.details = .var type (.param index) ∧
      index.toNat = i ∧ b.name = name ∧ symbolType target.resolutions b = .ok a := by
  obtain ⟨p, hp, b, hb, ha, hname⟩ := forall₂_getElem? (paramEntries_inv H.params).flip hi
  have hplaced := h.declares.placed _ H.mem
  simp only [Decl.Placed, H.named] at hplaced
  obtain ⟨-, k, hk, hparams, -⟩ := hplaced
  obtain rfl := Option.some.inj (H.opens.symm.trans hk)
  obtain ⟨-, hin, index, hd⟩ := hparams.of_mem (List.mem_of_getElem? hp) hb
  obtain ⟨-, -, -, _, -, hbound, -⟩ := method_declared h.declares H.mem H.named
  obtain ⟨hpos, -⟩ := h.declares.position_eq H.mem (hn _ H.mem) H.named hp hb hd
  exact ⟨b, p.type, index, (hbound p (List.mem_of_getElem? hp) b hb).1, hin, hd, hpos, hname.symm,
    ha⟩

theorem ne_void_iff {T : Ty} {a : AsmType} (h : T.toAsm = .ok a) : T ≠ .void ↔ a ≠ .void := by
  cases T with
  | cls c =>
    obtain ⟨_, _, _, -, rfl⟩ := toAsm_cls_eq_ok h
    simp
  | null | error | declaration => cases h
  | _ =>
    cases h
    simp

theorem argument_offset (H : Host t target ds) :
    (if H.hasThis then 1 else 0) = if H.definition.isStatic then 0 else 1 := by
  rw [hasThis]
  cases H.definition.isStatic <;> rfl

/-- Every variable that is seen is declared in the assembly. -/
theorem Agrees.of_mirrors (h : Accepted t target ds img) (hn : ∀ d ∈ ds, d.isNarrow = true)
    (hm : Mirrors img H.definition s x) : H.Agrees s x := by
  refine ⟨hm.this, fun {b T} hb hT hvoid => ?_⟩
  cases hb with
  | @slot _ index hb hin hd =>
    obtain ⟨body, found, hbody, hf, hl⟩ := H.locals
    obtain ⟨a, hat, ha⟩ := h.local_entry H.mem (hn _ H.mem) H.named H.opens hbody hf hl hb hin hd
    have hasm := toAsm_of_symbolType hT ha
    obtain ⟨hholds, hcell⟩ :=
      hm.slot _ (List.mem_of_find?_eq_some hat) ((ne_void_iff hasm).mp hvoid)
    refine ⟨s.store.vars b.name, by simp [Memory.get, hd, Store.get], ?_, ?_⟩
    · rw [Ty.holds_of_toAsm hasm]
      exact hholds
    · simp only [Scene.read, hd]
      exact hcell
  | @param _ index hb hin hd =>
    obtain ⟨a, hat, ha⟩ := h.param_entry H.mem (hn _ H.mem) H.named H.opens H.params hb hin hd
    have hasm := toAsm_of_symbolType hT ha
    obtain ⟨hholds, hcell⟩ := hm.param hat ((ne_void_iff hasm).mp hvoid)
    refine ⟨s.store.vars b.name, by simp [Memory.get, hd, Store.get], ?_, ?_⟩
    · rw [Ty.holds_of_toAsm hasm]
      exact hholds
    · simp only [Scene.read, hd, argument_offset]
      exact hcell
  | shared hb hd =>
    obtain ⟨f, hf, hst, rfl, hname, hasm⟩ := h.field_entry hb hd hT
    obtain ⟨hholds, hcell⟩ := hm.shared f hf hst ((ne_void_iff hasm).mp hvoid)
    rw [hname] at hholds hcell
    refine ⟨s.store.world.statics f.owner b.name, by simp [Memory.get, hd, Store.get], ?_, ?_⟩
    · rw [Ty.holds_of_toAsm hasm]
      exact hholds
    · simp only [Scene.read, hd, hcell]
  | own hb hd hstatic =>
    obtain ⟨f, hf, hst, hown, hname, hasm⟩ := h.field_entry hb hd hT
    obtain ⟨hholds, hcell⟩ := hm.own f hf hst (hown.trans H.owner.symm) hstatic
      ((ne_void_iff hasm).mp hvoid)
    rw [hname, hown] at hholds hcell
    refine ⟨s.fields s.self H.path b.name, by simp [Memory.get, hd], ?_, ?_⟩
    · rw [Ty.holds_of_toAsm hasm]
      exact hholds
    · simp only [Scene.read, hd, hcell]

/-- Every declaration of the assembly is that of a variable that is seen. -/
theorem Agrees.mirrors (h : Accepted t target ds img) (hn : ∀ d ∈ ds, d.isNarrow = true)
    (ha : H.Agrees s x) : Mirrors img H.definition s x := by
  have hvar : ∀ {b : Symbol} {a : AsmType}, H.Sees b → symbolType target.resolutions b = .ok a →
      a ≠ .void → ∃ v, s.get b = some v ∧ a.holds v = true ∧
        x.read H.hasThis s.self b = some v.cell := by
    intro b a hb hsym hvoid
    obtain ⟨T, hT, hasm⟩ := symbolType_eq_ok_iff.mp hsym
    obtain ⟨v, hget, hholds, hread⟩ := ha.var hb hT ((ne_void_iff hasm).mpr hvoid)
    exact ⟨v, hget, Ty.holds_of_toAsm hasm v ▸ hholds, hread⟩
  refine ⟨ha.this, fun {i a name} hi hvoid => ?_, fun e he hvoid => ?_, fun f hf hst hvoid => ?_,
    fun f hf hst hown hstatic hvoid => ?_⟩
  · obtain ⟨b, type, index, hb, hin, hd, rfl, rfl, hsym⟩ := param_symbol h hn hi
    obtain ⟨v, hget, hholds, hread⟩ := hvar (.param hb hin hd) hsym hvoid
    simp only [Memory.get, hd, Store.get, Option.some.injEq] at hget
    simp only [Scene.read, hd, argument_offset] at hread
    exact hget ▸ ⟨hholds, hread⟩
  · obtain ⟨body, found, hbody, hf, hl⟩ := H.locals
    obtain ⟨b, type, hb, hin, hd, hname, hsym⟩ :=
      h.local_symbol H.mem H.named H.opens hbody hf hl he
    obtain ⟨v, hget, hholds, hread⟩ := hvar (.slot hb hin hd) hsym hvoid
    simp only [Memory.get, hd, Store.get, Option.some.injEq] at hget
    simp only [Scene.read, hd] at hread
    rw [← hname]
    exact hget ▸ ⟨hholds, hread⟩
  · obtain ⟨b, type, hb, hd, hname, hsym⟩ := h.field_symbol hf
    rw [hst] at hd
    obtain ⟨v, hget, hholds, hread⟩ := hvar (.shared hb hd) hsym hvoid
    simp only [Memory.get, hd, Store.get, Option.some.injEq] at hget
    simp only [Scene.read, hd, Option.some.injEq] at hread
    rw [← hname]
    exact hget ▸ ⟨hholds, hread⟩
  · obtain ⟨b, type, hb, hd, hname, hsym⟩ := h.field_symbol hf
    rw [hst, hown, H.owner] at hd
    obtain ⟨v, hget, hholds, hread⟩ := hvar (.own hb hd hstatic) hsym hvoid
    simp only [Memory.get, hd, Option.some.injEq] at hget
    simp only [Scene.read, hd, Option.some.injEq] at hread
    rw [← hname, hown, H.owner]
    exact hget ▸ ⟨hholds, hread⟩

end Host

/-- Without calls it makes no difference where the program starts. -/
theorem Lowering.lowerExpr_of_isCallFree (r : Resolutions) (entry entry' : Option Nat)
    (hasThis : Bool) {e : Expr} (h : e.isCallFree = true) :
    lowerExpr ⟨r, entry, hasThis⟩ e = lowerExpr ⟨r, entry', hasThis⟩ e := by
  fun_induction Expr.isCallFree e with
  | case1 => rw [lowerExpr, lowerExpr]
  | case2 | case3 =>
    rw [lowerExpr, lowerExpr]
    rfl
  | case4 op operand note ih => rw [lowerExpr, lowerExpr, ih h]
  | case5 op left right note ihl ihr =>
    rw [Bool.and_eq_true] at h
    rw [lowerExpr, lowerExpr, ihl h.1, ihr h.2]
  | case6 n nameNote value note ih =>
    rw [lowerExpr, lowerExpr, ih h]
    rfl
  | case7 => cases h

/-- What the code `is` of an expression does on a machine that holds what the source holds. -/
structure Realizes (cmp : Comparison) (img : Image) (d : MethodDef) (e : Expr) (T : Ty)
    (is : List Instr) (s : Memory) (x : Scene) : Prop where
  /-- Evaluation ends with a value, or at a division without quotient. -/
  ends : (∃ v, (e.evaluate s).ending = .value v) ∨ (e.evaluate s).ending = .noQuotient
  /-- The value is on the stack as it was, and the stores are made. -/
  value : ∀ v, (e.evaluate s).ending = .value v → T.holds v = true ∧
    Scene.run cmp is x = .on ((x.after (!d.isStatic) s.self (e.evaluate s).stores).withStack
      (v.cell :: x.top.stack))
  traps_iff : (∃ y, Scene.run cmp is x = .trapped y) ↔ (e.evaluate s).ending = .noQuotient
  /-- The stores before a trap are made as well. -/
  trapped : ∀ y, Scene.run cmp is x = .trapped y →
    y = (x.after (!d.isStatic) s.self (e.evaluate s).stores).withStack y.top.stack
  self_eq : (e.evaluate s).memory.self = s.self
  mirrors : Mirrors img d (e.evaluate s).memory
    (x.after (!d.isStatic) s.self (e.evaluate s).stores)
  /-- An assignment has the value that it stores last. -/
  assigned : ∀ target value note, e = .assign target value note → ∀ v,
    (e.evaluate s).ending = .value v → ∃ b, (e.evaluate s).stores.getLast? = some (b, v)

theorem stores_of_assign {target value : Expr} {note : Note} {s : Memory} {v : Value}
    (h : (Expr.evaluate (.assign target value note) s).ending = .value v) :
    ∃ b, (Expr.evaluate (.assign target value note) s).stores.getLast? = some (b, v) := by
  cases target with
  | name n nameNote =>
    rw [Expr.evaluate] at h ⊢
    unfold Evaluation.andThen at h ⊢
    split at h
    · next w hw =>
      cases hb : n.symbol with
      | none => simp [Memory.assign, hb] at h
      | some b =>
        cases hset : (value.evaluate s).memory.set b w with
        | none => simp [Memory.assign, hb, hset] at h
        | some s' =>
          simp only [Memory.assign, hb, hset, Ending.value.injEq] at h ⊢
          exact ⟨b, by simp [h]⟩
    · next hno => exact absurd h (hno v)
  | _ => simp [Expr.evaluate] at h

theorem Host.realizes {t : Table} {target : Target} {ds : List Decl} {cmp : Comparison}
    {img : Image} {H : Host t target ds} (h : Accepted t target ds img)
    (hn : ∀ d ∈ ds, d.isNarrow = true) {e : Expr} {T : Ty} {is : List Instr}
    (hd : H.Delivers cmp e T is) {s : Memory} {x : Scene}
    (hx : Mirrors img H.definition s x) : Realizes cmp img H.definition e T is s x := by
  have hfollows := hd s x (.of_mirrors h hn hx)
  generalize hrun : Scene.run cmp is x = p at hfollows
  cases hfollows with
  | @value v he hT hself ha =>
    refine ⟨Or.inl ⟨v, he⟩, ?_, ?_, ?_, hself, ha.mirrors h hn, ?_⟩
    · intro w hw
      obtain rfl : v = w := Ending.value.inj (he.symm.trans hw)
      exact ⟨hT, hrun⟩
    · simp [hrun, he]
    · simp [hrun]
    · rintro _ _ _ rfl w hw
      exact stores_of_assign hw
  | @trap R he hself ha =>
    refine ⟨Or.inr he, ?_, ?_, ?_, hself, ha.mirrors h hn, ?_⟩
    · intro w hw
      cases he.symm.trans hw
    · simp [hrun, he]
    · intro y hy
      cases hrun.symm.trans hy
      rfl
    · rintro _ _ _ rfl w hw
      exact stores_of_assign hw

/-- The code of every expression without calls that has a value, in every method of an accepted unit
whose positions and slots do not run out. No code of a method of objects stores to `this`. The
expressions are those of the given unit but for their annotations. -/
theorem code_delivers (cmp : Comparison) {u : CompilationUnit} {options : Options}
    {listing : Listing} (hf : u.isFresh = true) (hn : u.isNarrow = true)
    (hc : (compile u options).result = .ok (some listing)) :
    (compile u options).unit.strip = u ∧ List.Forall₂
      (fun m d => (d.isStatic = false → .instr (.starg 0) ∉ d.code) ∧
        ∀ e ∈ Stmt.allEvaluated (m.2.body.getD []), e.isCallFree = true →
        ∀ T, e.type = some T → T.isValue = true → ∀ entry, ∃ is,
          lowerExpr ⟨(compile u options).resolutions, entry, !d.isStatic⟩ e = .of is ∧
          (d.isStatic = false → .starg 0 ∉ is) ∧
          ∀ s x, Mirrors listing.image d s x → Realizes cmp listing.image d e T is s x)
      (Decl.methods (compile u options).unit.decls) listing.image.methods := by
  refine ⟨(compile_strip u options).trans (CompilationUnit.strip_of_isFresh hf), ?_⟩
  obtain ⟨t, entry, hacc, -, hnarrow⟩ := accepted_with_conditions hf hc
  refine forall₂_imp_of_mem hacc.methods fun ⟨path, m⟩ d hm hd => ?_
  cases hd with
  | @intro _ _ b k returns params body found locals items n _ hb hk hr hp hbody hfound hl hs hi =>
    refine ⟨fun hstatic => ?_, fun e he hfree T hT hvalue entry' => ?_⟩
    · simpa using (trackStmts_tracks hi).keepsThis (congrArg not hstatic)
    · let H : Host t _ _ := ⟨path, m, ⟨path, runsStatic entry b, returns, b.name, params, locals,
        items ++ [.instr .ret]⟩, b, k, Decl.mem_methods.mp hm, hb, hk, rfl, rfl, hp,
        body, found, hbody, hfound, hl⟩
      rw [hbody, Option.getD_some] at he
      obtain ⟨U, hU⟩ := StmtsChecked.evaluated hs e he
      obtain rfl := Option.some.inj (hT.symm.trans hU.type_eq)
      obtain ⟨is, his, hcodes⟩ := codes_of_hasType H.serves hacc.writable hU
      have hdelivers : H.Delivers cmp e T is :=
        H.delivers_of_codes hacc (hnarrow hn) hcodes hfree hvalue
      refine ⟨is, (lowerExpr_of_isCallFree _ _ _ _ hfree).trans his, ?_, ?_⟩
      · intro hstatic
        have hkeeps := (lowerExpr_straight H.frame e).keepsThis (congrArg not hstatic)
        rwa [his] at hkeeps
      · intro s x hx
        exact Host.realizes hacc (hnarrow hn) hdelivers hx

def Sample.memory : Memory :=
  ⟨⟨fun _ => .str "y", ⟨fun _ _ => .int 0, 0, []⟩⟩, 7, fun _ _ _ => .int 41⟩

def Sample.scene (d : MethodDef) : Scene :=
  ⟨⟨d, [], [.null], ⟨[.ref 7, .str "y"], fun _ => none⟩⟩, ⟨fun _ _ => .word 0, 0, []⟩,
    fun _ _ _ => .word 41⟩

/-- An assignment to a field of the object adds one to it and leaves the sum. -/
theorem code_delivers_sample :
    ∃ listing, (compile Sample.unit .default).result = .ok (some listing) ∧
    (compile Sample.unit .default).unit.strip = Sample.unit ∧
    ∃ m d e T is, (Decl.methods (compile Sample.unit .default).unit.decls)[3]? = some m ∧
      listing.image.methods[3]? = some d ∧ d.isStatic = false ∧ .instr (.starg 0) ∉ d.code ∧
      e ∈ Stmt.allEvaluated (m.2.body.getD []) ∧ e.isCallFree = true ∧ e.type = some T ∧
      T.isValue = true ∧
      lowerExpr ⟨(compile Sample.unit .default).resolutions, none, true⟩ e = .of is ∧
      .starg 0 ∉ is ∧ (e.evaluate Sample.memory).ending = .value (.int 42) ∧
      (e.evaluate Sample.memory).stores.map (fun st => (st.1.name, st.2)) = [("own", .int 42)] ∧
      Realizes .least listing.image d e T is Sample.memory (Sample.scene d) := by
  have hfields : (compile Sample.unit .default).assembly.map (·.image.fields) =
      some [⟨["Tally"], true, .int32, "total"⟩, ⟨["Tally"], false, .int32, "own"⟩,
        ⟨["Tally", "Cell"], false, .cls ["Tally", "Cell"], "next"⟩] := by
    decide +kernel
  have hmethod : (compile Sample.unit .default).assembly.bind (fun l =>
      l.image.methods[3]?.map fun d => (d.owner, d.isStatic, d.params, d.locals.length)) =
      some (["Tally"], false, [(.string, "s")], 0) := by
    decide +kernel
  have hsource : (Decl.methods (compile Sample.unit .default).unit.decls)[3]?.bind (fun m =>
      (Stmt.allEvaluated (m.2.body.getD [])).head?.map fun e => (e.isCallFree,
        e.type.map Ty.isValue, (e.evaluate Sample.memory).ending,
        (e.evaluate Sample.memory).stores.map fun st => (st.1.name, st.2))) =
      some (true, some true, .value (.int 42), [("own", .int 42)]) := by
    decide +kernel
  obtain ⟨listing, hl, hfields⟩ := Option.map_eq_some_iff.mp hfields
  rw [hl, Option.bind_some] at hmethod
  obtain ⟨d, hd, hparts⟩ := Option.map_eq_some_iff.mp hmethod
  obtain ⟨m, hm, hsource⟩ := Option.bind_eq_some_iff.mp hsource
  obtain ⟨e, he, heval⟩ := Option.map_eq_some_iff.mp hsource
  simp only [Prod.mk.injEq, List.length_eq_zero_iff] at hparts heval
  obtain ⟨howner, hstatic, hparams, hlocals⟩ := hparts
  obtain ⟨hfree, htype, hending, hstores⟩ := heval
  obtain ⟨T, hT, hvalue⟩ := Option.map_eq_some_iff.mp htype
  have hresult := Compilation.result_of_assembly hl
  have hmem := List.mem_of_mem_head? he
  have hmirrors : Mirrors listing.image d Sample.memory (Sample.scene d) := by
    refine ⟨fun _ => rfl, fun {i a name} hi _ => ?_, by simp [hlocals], fun f hf hs _ => ?_,
      fun f hf hs ho _ _ => ?_⟩
    · rw [hparams] at hi
      rcases i with _ | i
      · cases hi
        rw [hstatic]
        exact ⟨rfl, rfl⟩
      · cases hi
    · rw [hfields] at hf
      simp only [List.mem_cons, List.not_mem_nil, or_false] at hf
      rcases hf with rfl | rfl | rfl
      · exact ⟨rfl, rfl⟩
      · cases hs
      · cases hs
    · rw [hfields] at hf
      simp only [List.mem_cons, List.not_mem_nil, or_false] at hf
      rcases hf with rfl | rfl | rfl
      · cases hs
      · exact ⟨rfl, rfl⟩
      · cases ho.trans howner
  obtain ⟨hstrip, hcodes⟩ :=
    code_delivers .least (by decide +kernel) (by decide +kernel) hresult
  obtain ⟨d', hd', hall⟩ := forall₂_getElem? hcodes hm
  obtain rfl := Option.some.inj (hd.symm.trans hd')
  obtain ⟨is, his, hkeeps, hrealizes⟩ := hall.2 e hmem hfree T hT hvalue none
  rw [hstatic] at his
  exact ⟨listing, hresult, hstrip, m, d, e, T, is, hm, hd, hstatic, hall.1 hstatic, hmem, hfree, hT,
    hvalue, his, hkeeps hstatic, hending, hstores, hrealizes _ _ hmirrors⟩

namespace Wide

variable {front : List Param} {last : Param}

theorem declared (options : Options) (hf : ∀ p ∈ front ++ [last], p.symbol = none)
    (hn : ((front ++ [last]).map fun p => p.name.text).Nodup)
    (hk : ∀ p ∈ front ++ [last], IsKeyword p.type) :
    ∃ listing m d q T type, (compile (unit front last) options).result = .ok (some listing) ∧
      Decl.methods (compile (unit front last) options).unit.decls = [(["Wide"], m)] ∧
      listing.image.methods = [d] ∧ listing.image.fields = [] ∧ d.isStatic = true ∧
      d.locals = [] ∧ m.body = some (returning last (some q) (some T)) ∧
      q.name = last.name.text ∧ q.details = .var type (.param (UInt16.ofNat front.length)) ∧
      (∀ word span, last.type = .keyword word span → T.toAsm = (Ty.ofKeyword word).toAsm) ∧
      ∀ (i : Nat) a name, d.params[i]? = some (a, name) → ∃ p : Param,
        (front ++ [last])[i]? = some p ∧ name = p.name.text ∧
        ∀ word span, p.type = .keyword word span → (Ty.ofKeyword word).toAsm = .ok a := by
  obtain ⟨listing, m, d, q, T, t, entry, hresult, hmethods, himg, hnofields, hmod, -, he, hbody,
    hacc, hcompiled, p, hat, hq, hname⟩ := defined options hf hn hk
  have hmem : Decl.method ["Wide"] m ∈ (compile (unit front last) options).unit.decls :=
    Decl.mem_methods.mp (by rw [hmethods]; exact List.mem_cons_self)
  cases hcompiled with
  | @intro _ _ b k _ _ _ found _ items n next hb hk' hr hp hbody' hf' hl hs hi hcodes =>
    obtain rfl := Option.some.inj (hbody.symm.trans hbody')
    obtain ⟨-, -, hdet, -, -, hparams, -⟩ := method_declared hacc.declares hmem hb
    have hplaced := hacc.declares.placed _ hmem
    simp only [Decl.Placed, hb] at hplaced
    obtain ⟨-, _, -, hpp, -⟩ := hplaced
    have hsame : ∀ {i : Nat} {y : Param}, m.params[i]? = some y → ∃ x : Param,
        (front ++ [last])[i]? = some x ∧ x.name = y.name ∧ x.type = y.type := by
      intro i y hy
      have hx : ((front ++ [last]).map Param.erase)[i]? = some y.erase := by
        rw [← he, List.getElem?_map, hy]
        rfl
      rw [List.getElem?_map, Option.map_eq_some_iff] at hx
      obtain ⟨x, hx, hxe⟩ := hx
      exact ⟨x, hx, Param.eq_of_erase_eq hxe⟩
    have hqd := hpp.position hat hq
    rw [UInt16.zero_add] at hqd
    refine ⟨listing, m, _, q, T, p.type, hresult, hmethods, himg, hnofields, ?_, ?_, hbody, ?_,
      hqd, ?_, ?_⟩
    · simp [runsStatic, Symbol.isStatic, hdet, hmod, Modifier.isStatic]
    · simp only [returning, Lowering.gatherAllLocals, Lowering.gatherLocals] at hf'
      cases hf'
      cases hl
      rfl
    · rw [← hname]
      exact (hpp.of_mem (List.mem_of_getElem? hat) hq).1
    · intro word span hword
      obtain ⟨U, hU⟩ := StmtsChecked.evaluated hs (.name ⟨[last.name], .null, some q⟩
        ⟨.null, some T⟩) (by simp [returning, Stmt.allEvaluated, Stmt.evaluated, Expr.evaluated])
      obtain rfl : T = U := Option.some.inj hU.type_eq
      obtain ⟨x, hx, -, hxtype⟩ := hsame hat
      rw [List.getElem?_concat_length] at hx
      cases hx
      obtain ⟨hqb, hqw⟩ := hparams p (List.mem_of_getElem? hat) q hq
      rw [← hxtype, hword] at hqw
      cases hU with
      | declaration hsym hkind _ =>
        cases hsym
        exact absurd (by simp [Symbol.kind, hqd]) hkind
      | var hsym _ _ _ ht _ =>
        cases hsym
        obtain ⟨a, ha⟩ := hacc.writable.types hqb ht
        rw [ha, hacc.keyword_type hqb hqw (Lowering.symbolType_ok ht ha)]
    · intro i a name hi'
      obtain ⟨y, hy, c, hc, hasm, hcname⟩ :=
        Lowering.forall₂_getElem? (Lowering.paramEntries_inv hp).flip hi'
      obtain ⟨x, hx, hxname, hxtype⟩ := hsame hy
      refine ⟨x, hx, ?_, fun word span hword => ?_⟩
      · rw [hxname, ← (hpp.of_mem (List.mem_of_getElem? hy) hc).1]
        exact hcname
      · obtain ⟨hcb, hcw⟩ := hparams y (List.mem_of_getElem? hy) c hc
        rw [← hxtype, hword] at hcw
        exact hacc.keyword_type hcb hcw hasm

def vars (name : String) : Value := if name = text.name.text then .str "last" else .bool false

def memory : Memory := ⟨⟨vars, ⟨fun _ _ => .null, 0, []⟩⟩, 0, fun _ _ _ => .null⟩

def scene (d : MethodDef) : Scene :=
  ⟨⟨d, [], [], ⟨args.map Value.cell, fun _ => none⟩⟩, ⟨fun _ _ => .null, 0, []⟩, fun _ _ _ => .null⟩

theorem flag_name_ne {i : Nat} (hi : i < 65536) :
    (param .boolean i).name.text ≠ text.name.text := by
  intro heq
  have hrepr : i.repr = (65536 : Nat).repr := (String.append_right_inj "p").mp heq
  exact absurd (Nat.repr_injective hrepr) (Nat.ne_of_lt hi)

theorem mirrors {img : Image} {d : MethodDef} (hfields : img.fields = []) (hs : d.isStatic = true)
    (hlocals : d.locals = [])
    (hp : ∀ (i : Nat) a name, d.params[i]? = some (a, name) → ∃ p : Param,
      (flags ++ [text])[i]? = some p ∧ name = p.name.text ∧
        ∀ word span, p.type = .keyword word span → (Ty.ofKeyword word).toAsm = .ok a) :
    Mirrors img d memory (scene d) := by
  refine ⟨by simp [hs], fun {i a name} hi _ => ?_, by simp [hlocals], by simp [hfields],
    by simp [hfields]⟩
  obtain ⟨p, hat, rfl, htype⟩ := hp i a name hi
  have hlt := (List.getElem?_eq_some_iff.mp hat).1
  rw [List.length_append, length_flags, List.length_singleton] at hlt
  simp only [hs, if_true, Nat.add_zero, scene, memory, vars, List.getElem?_map]
  by_cases hflag : i < 65536
  · obtain rfl := Option.some.inj ((flag_at hflag).symm.trans hat)
    cases htype .boolean .null rfl
    rw [if_neg (flag_name_ne hflag), flag_arg hflag]
    exact ⟨rfl, rfl⟩
  · obtain rfl : i = 65536 := by omega
    obtain rfl := Option.some.inj (text_at.symm.trans hat)
    cases htype .string .null rfl
    rw [if_pos rfl, last_arg]
    exact ⟨rfl, rfl⟩

end Wide

/-- In a method that is too wide the code of a parameter may deliver another one. -/
theorem wide_value_differs : (Wide.unit Wide.flags Wide.text).isFresh = true ∧
    ∃ listing, (compile (Wide.unit Wide.flags Wide.text) .default).result = .ok (some listing) ∧
      ∀ cmp, ¬ List.Forall₂
        (fun m d => (d.isStatic = false → .instr (.starg 0) ∉ d.code) ∧
          ∀ e ∈ Stmt.allEvaluated (m.2.body.getD []), e.isCallFree = true →
          ∀ T, e.type = some T → T.isValue = true → ∀ entry, ∃ is,
            lowerExpr ⟨(compile (Wide.unit Wide.flags Wide.text) .default).resolutions, entry,
              !d.isStatic⟩ e = .of is ∧
            (d.isStatic = false → .starg 0 ∉ is) ∧
            ∀ s x, Mirrors listing.image d s x → Realizes cmp listing.image d e T is s x)
        (Decl.methods (compile (Wide.unit Wide.flags Wide.text) .default).unit.decls)
        listing.image.methods := by
  obtain ⟨listing, m, d, q, T, type, hresult, hmethods, himg, hfields, hstatic, hlocals, hbody,
    hname, hqd, hT, hparams⟩ :=
    Wide.declared .default Wide.symbol_params Wide.names_nodup Wide.isKeyword_params
  refine ⟨Wide.isFresh_unit Wide.symbol_params, listing, hresult, fun cmp hall => ?_⟩
  rw [hmethods, himg] at hall
  have hasm := hT .string .null rfl
  have hvalue : T.isValue = true := by
    cases T with
    | void | error | declaration => cases hasm
    | _ => rfl
  cases hall with
  | cons hfirst _ =>
    obtain ⟨is, his, -, hrealizes⟩ := hfirst.2 (.name ⟨[Wide.text.name], .null, some q⟩
      ⟨.null, some T⟩) (by simp [hbody, returning, Stmt.allEvaluated, Stmt.evaluated,
        Expr.evaluated]) rfl T rfl hvalue none
    have hr := hrealizes _ _ (Wide.mirrors hfields hstatic hlocals hparams)
    obtain ⟨-, hrun⟩ := hr.value (.str "last") (by
      simp [Expr.evaluate, Memory.get, Store.get, hqd, hname, Wide.memory, Wide.vars, Ending.of])
    have hcode : is = [.ldarg 0] := by
      rw [lowerExpr, symbolOf] at his
      simp only [Emission.need, Frame.load, hqd, Frame.argument, hstatic, Wide.length_flags] at his
      cases his
      rfl
    have hfirst : (Wide.scene d).top.vars.args[0]? = some (.word 0) := by
      rw [Wide.scene, List.getElem?_map, Wide.flag_arg (by decide)]
      rfl
    rw [hcode, Scene.run_cons (Scene.perform_ldarg hfirst)] at hrun
    have hstack := congrArg (fun x : Scene => x.top.stack.head?) (Progress.on.inj hrun)
    simp [Value.cell] at hstack

end ClassLang
