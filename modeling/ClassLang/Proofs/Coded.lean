import ClassLang.Lowering.Stmt
import ClassLang.Proofs.Checked

/-! The code of what obeys the typing rules. Every symbol that code refers to has a type that the
assembler knows, and `this` is used only where there is one. So such code is whole, and `Codes` and
`StmtCodes` say what it is made of, construct by construct. -/
namespace ClassLang

open Assembly

namespace Typing

theorem toAsm_meaning {t : Table} {scope : ScopeId} {type : TypeExpr}
    (h : meaning t scope type ≠ .error) : ∃ a, (meaning t scope type).toAsm = .ok a := by
  unfold meaning at *
  cases type with
  | keyword word span => cases word <;> exact ⟨_, rfl⟩
  | array element span => exact absurd rfl h
  | generic base args span => exact absurd rfl h
  | named segments span =>
    unfold resolveType at *
    dsimp only at *
    split at h
    · exact absurd rfl h
    · exact absurd rfl h
    · next c hc =>
      split at h
      · next hk =>
        simp only [hk, if_true]
        unfold Symbol.kind at hk
        split at hk
        · next path ms bi hd =>
          exact ⟨.cls path, by simp [Ty.toAsm, Symbol.classPath, hd, Except.map]⟩
        · cases hk
        · cases hk
      · exact absurd rfl h

structure Writable (t : Table) (r : Resolutions) : Prop where
  types : ∀ {b T}, t.Bound b → r.type? b = some T → ∃ a, T.toAsm = .ok a
  params : ∀ {b Ts}, t.Bound b → r.params? b = some Ts → ∃ as, Lowering.asmTypes Ts = .ok as

theorem asmTypes_ok {Ts : List Ty} (h : ∀ T ∈ Ts, ∃ a, T.toAsm = .ok a) :
    ∃ as, Lowering.asmTypes Ts = .ok as := by
  induction Ts with
  | nil => exact ⟨[], rfl⟩
  | cons T Ts ih =>
    obtain ⟨a, ha⟩ := h T List.mem_cons_self
    obtain ⟨as, has⟩ := ih fun U hU => h U (List.mem_cons_of_mem _ hU)
    exact ⟨a :: as, by simp [Lowering.asmTypes, ha, has, bind, Except.bind, pure, Except.pure]⟩

theorem asmTypes_cons_eq_ok {T : Ty} {Ts : List Ty} {as : List AsmType}
    (h : Lowering.asmTypes (T :: Ts) = .ok as) :
    ∃ a rest, T.toAsm = .ok a ∧ Lowering.asmTypes Ts = .ok rest ∧ as = a :: rest := by
  simp only [Lowering.asmTypes, bind, Except.bind, pure, Except.pure] at h
  cases ha : T.toAsm with
  | error fault => simp [ha] at h
  | ok a =>
    cases hr : Lowering.asmTypes Ts with
    | error fault => simp [ha, hr] at h
    | ok rest =>
      simp only [ha, hr, Except.ok.injEq] at h
      exact ⟨a, rest, rfl, rfl, h.symm⟩

theorem writable_of_quiet {t : Table} {s : State} (hf : Faithful t s) (hq : Quiet t s) :
    Writable t s.resolutions := by
  constructor
  · intro b T hb hT
    have hne := hq.types hb hT
    obtain ⟨scope, type, -, rfl, -⟩ := hf.types hb hT
    exact toAsm_meaning hne
  · intro b Ts hb hTs
    have hne := hq.params hb hTs
    obtain ⟨params, _, _, _, _, -, rfl, -⟩ := hf.params hb hTs
    refine asmTypes_ok fun T hT => ?_
    obtain ⟨type, -, rfl⟩ := List.mem_map.mp hT
    exact toAsm_meaning fun he => hne (he ▸ hT)

end Typing

namespace Lowering

open Typing

structure Serves (f : Frame) (ctx : Context) (r : Resolutions) : Prop where
  resolutions : f.resolutions = r
  entry : f.entry = ctx.entry
  this : f.hasThis = !ctx.isStatic

theorem symbolType_ok {r : Resolutions} {b : Symbol} {T : Ty} {a : AsmType}
    (ht : r.type? b = some T) (ha : T.toAsm = .ok a) : symbolType r b = .ok a := by
  simp [symbolType, Resolutions.typeOf, ht, ha, bind, Except.bind]

theorem fieldRef_ok {f : Frame} {b : Symbol} {T : Ty} {a : AsmType}
    (ht : f.resolutions.type? b = some T) (ha : T.toAsm = .ok a) (owner : List String) :
    f.fieldRef b owner = .ok ⟨a, owner, b.name⟩ := by
  simp [Frame.fieldRef, symbolType_ok ht ha, bind, Except.bind, pure, Except.pure]

/-- Where a variable lives, as code refers to it. -/
inductive Place where
  | slot (index : UInt16)
  | argument (index : Nat)
  | shared (field : FieldRef)
  | own (field : FieldRef)

namespace Place

def load : Place → List Instr
  | .slot index => [.ldloc index]
  | .argument index => [.ldarg index]
  | .shared field => [.ldsfld field]
  | .own field => [.ldthis, .ldfld field]

def store (value : List Instr) (keep : Bool) : Place → List Instr
  | .slot index => value ++ (if keep then [.dup] else []) ++ [.stloc index]
  | .argument index => value ++ (if keep then [.dup] else []) ++ [.starg index]
  | .shared field => value ++ (if keep then [.dup] else []) ++ [.stsfld field]
  | .own field => .ldthis :: (value ++ .stfld field :: if keep then [.ldthis, .ldfld field] else [])

end Place

/-- The place of a variable of type `T` that may be used here. -/
inductive PlaceOf (ctx : Context) (f : Frame) (b : Symbol) (T : Ty) : Place → Prop
  | slot {type index} (hd : b.details = .var type (.slot index)) : PlaceOf ctx f b T (.slot index)
  | argument {type index} (hd : b.details = .var type (.param index)) :
    PlaceOf ctx f b T (.argument (f.argument index))
  | shared {type owner a} (hd : b.details = .var type (.field true owner)) (ha : T.toAsm = .ok a) :
    PlaceOf ctx f b T (.shared ⟨a, owner, b.name⟩)
  | own {type owner a} (hd : b.details = .var type (.field false owner)) (ha : T.toAsm = .ok a)
    (hs : ctx.isStatic = false) (ho : ctx.owner? = some owner) :
    PlaceOf ctx f b T (.own ⟨a, owner, b.name⟩)

/-- The call of a method that may be called here: what goes before the arguments, and the call. -/
inductive CallOf (ctx : Context) (m : Symbol) (Ts : List Ty) (T : Ty) : List Instr → Instr → Prop
  | console {ps ret ms owner routine as a} (hd : m.details = .method ps ret ms owner (some routine))
    (has : asmTypes Ts = .ok as) (ha : T.toAsm = .ok a) :
    CallOf ctx m Ts T [] (.callConsole routine as a)
  | shared {ps ret ms owner as a} (hd : m.details = .method ps ret ms owner none)
    (has : asmTypes Ts = .ok as) (ha : T.toAsm = .ok a) (hs : runsStatic ctx.entry m = true) :
    CallOf ctx m Ts T [] (.call ⟨true, a, owner, m.name, as⟩)
  | own {ps ret ms owner as a} (hd : m.details = .method ps ret ms owner none)
    (has : asmTypes Ts = .ok as) (ha : T.toAsm = .ok a) (hs : runsStatic ctx.entry m = false)
    (hc : ctx.isStatic = false) (ho : ctx.owner? = some owner) :
    CallOf ctx m Ts T [.ldthis] (.call ⟨false, a, owner, m.name, as⟩)

/-- An expression obeys the rules, and this is its code. -/
inductive Codes (ctx : Context) (r : Resolutions) (f : Frame) : Expr → Ty → List Instr → Prop
  | literal {value note} (hn : note.type = some (literalType value)) :
    Codes ctx r f (.literal value note) (literalType value) [literalCode value]
  | this {note} (hs : ctx.isStatic = false) (hn : note.type = some .this) :
    Codes ctx r f (.this note) .this [.ldthis]
  | var {n note b T p} (hb : n.symbol = some b) (hr : ctx.table.Reached ctx.scope b)
    (ht : r.type? b = some T) (hp : PlaceOf ctx f b T p) (hn : note.type = some T) :
    Codes ctx r f (.name n note) T p.load
  | declaration {n note b} (hb : n.symbol = some b) (hk : b.kind ≠ .var)
    (hn : note.type = some .declaration) : Codes ctx r f (.name n note) .declaration []
  | unary {op operand note is} (ho : Codes ctx r f operand (operandType op) is)
    (hn : note.type = some (operandType op)) :
    Codes ctx r f (.unary op operand note) (operandType op) (is ++ unaryCode op)
  | binary {op left right note T is js ks} (hl : Codes ctx r f left T is)
    (hr : Codes ctx r f right T js) (ha : applies op T = true) (hc : binaryCode op T = .of ks)
    (hn : note.type = some (if op.isComparison then .boolean else T)) :
    Codes ctx r f (.binary op left right note) (if op.isComparison then .boolean else T)
      (is ++ js ++ ks)
  | assign {n nameNote value note b T p is} (hb : n.symbol = some b)
    (hr : ctx.table.Reached ctx.scope b) (ht : r.type? b = some T) (hp : PlaceOf ctx f b T p)
    (hv : Codes ctx r f value T is) (hi : T.isValue = true) (hn : note.type = some T) :
    Codes ctx r f (.assign (.name n nameNote) value note) T (p.store is true)
  | call {n nameNote args note m Ts T codes before i} (hm : n.symbol = some m)
    (hr : ctx.table.Reached ctx.scope m) (hk : m.isMethod = true) (hp : r.params? m = some Ts)
    (ht : r.type? m = some T)
    (ho : ∀ o, ctx.table.Bound o → o.isMethod = true → o.declaredIn = m.declaredIn →
      o.name = m.name → ∃ ps, r.params? o = some ps ∧ (ps = Ts → o = m))
    (hc : CallOf ctx m Ts T before i) (hl : args.length = Ts.length)
    (hlc : codes.length = Ts.length)
    (ha : ∀ e T is, (e, T, is) ∈ args.zip (Ts.zip codes) → Codes ctx r f e T is)
    (hn : note.type = some T) :
    Codes ctx r f (.call (.name n nameNote) args note) T (before ++ codes.flatten ++ [i])
  | create {n note c path modifiers} (hc : n.symbol = some c) (hb : ctx.table.Bound c)
    (hd : c.details = .cls path modifiers false) (hs : Modifier.isStatic modifiers = false)
    (hn : note.type = some (.cls c)) : Codes ctx r f (.create n [] note) (.cls c) [.newobj path]

theorem Codes.type_eq {ctx : Context} {r : Resolutions} {f : Frame} {e : Expr} {T : Ty}
    {is : List Instr} (h : Codes ctx r f e T is) : e.type = some T := by
  cases h <;> assumption

section Expressions

variable {f : Frame} {ctx : Context} {r : Resolutions}

/-- A variable that may be used has its place, from which it is loaded and to which it is stored. -/
theorem place_of_var (hs : Serves f ctx r) {n : DottedName} {b : Symbol} {T : Ty} {a : AsmType}
    (hk : b.kind = .var) (hp : nameProblem? ctx n b = none) (ht : r.type? b = some T)
    (ha : T.toAsm = .ok a) :
    ∃ p, PlaceOf ctx f b T p ∧ f.load b = .of p.load ∧
      ∀ is keep, f.store b (.of is) keep = .of (p.store is keep) := by
  rw [← hs.resolutions] at ht
  unfold Symbol.kind at hk
  rcases hd : b.details with ⟨_, _, _⟩ | ⟨_, _, _, _, _⟩ | ⟨type, index | index | ⟨_ | _, owner⟩⟩
  · simp [hd] at hk
  · simp [hd] at hk
  · exact ⟨_, .slot hd, by simp [Frame.load, hd, Place.load], fun is keep => by
      simp only [Frame.store, hd, Place.store]
      rfl⟩
  · exact ⟨_, .argument hd, by simp [Frame.load, hd, Place.load], fun is keep => by
      simp only [Frame.store, hd, Place.store]
      rfl⟩
  · simp only [nameProblem?, hd, fieldProblem?] at hp
    have hst : ctx.isStatic = false := by
      cases hst : ctx.isStatic with
      | true => simp [hst] at hp
      | false => rfl
    have howner : ctx.owner? = some owner := by
      by_contra hno
      simp only [hst, hno, if_false, Bool.false_eq_true] at hp
      split at hp <;> cases hp
    have hthis : f.hasThis = true := by rw [hs.this, hst]; rfl
    refine ⟨_, .own hd ha hst howner, ?_, fun is keep => ?_⟩
    · simp only [Frame.load, hd, fieldRef_ok ht ha, Frame.pushThis, hthis, if_true]
      rfl
    · simp only [Frame.store, hd, fieldRef_ok ht ha, Frame.pushThis, hthis, if_true]
      rfl
  · refine ⟨_, .shared hd ha, ?_, fun is keep => ?_⟩
    · simp only [Frame.load, hd, fieldRef_ok ht ha]
      rfl
    · simp only [Frame.store, hd, fieldRef_ok ht ha]
      rfl

theorem call_of_method (hs : Serves f ctx r) {n : DottedName} {m : Symbol} {Ts : List Ty} {T : Ty}
    {as : List AsmType} {a : AsmType} (hk : m.isMethod = true) (hc : mayCall ctx n m = true)
    (hTs : r.params? m = some Ts) (has : asmTypes Ts = .ok as) (hT : r.type? m = some T)
    (ha : T.toAsm = .ok a) :
    ∃ before i, CallOf ctx m Ts T before i ∧
      ∀ is, f.invoke m (.of is) = .of (before ++ is ++ [i]) := by
  rw [← hs.resolutions] at hTs hT
  have hparams : f.paramTypes m = .ok as := by simp [Frame.paramTypes, hTs, has]
  unfold Symbol.isMethod Symbol.kind at hk
  rcases hd : m.details with ⟨_, _, _⟩ | ⟨ps, ret, ms, owner, _ | routine⟩ | ⟨_, _⟩
  · simp [hd] at hk
  · cases hst : runsStatic ctx.entry m with
    | true =>
      refine ⟨_, _, .shared hd has ha hst, fun is => ?_⟩
      simp only [Frame.invoke, hd, hparams, symbolType_ok hT ha, hs.entry, hst, Emission.need]
      rfl
    | false =>
      simp only [mayCall, hst, Bool.false_or, Bool.and_eq_true, Bool.not_eq_true',
        Symbol.methodOwner?, hd] at hc
      have hthis : f.hasThis = true := by rw [hs.this, hc.1.1.2]; rfl
      refine ⟨_, _, .own hd has ha hst hc.1.1.2 (beq_iff_eq.mp hc.2), fun is => ?_⟩
      simp only [Frame.invoke, hd, hparams, symbolType_ok hT ha, hs.entry, hst, Emission.need,
        Frame.pushThis, hthis]
      rfl
  · refine ⟨_, _, .console hd has ha, fun is => ?_⟩
    simp only [Frame.invoke, hd, hparams, symbolType_ok hT ha, Emission.need]
    rfl
  · simp [hd] at hk

theorem binaryCode_whole {op : BinaryOp} {T : Ty} (h : applies op T = true) :
    ∃ is, binaryCode op T = .of is := by
  unfold binaryCode
  split
  · next hs =>
    have hform := (Ty.same_iff.mp hs).1
    have hT : T = .string := by cases T <;> first | rfl | cases hform
    subst hT
    cases op <;> first | exact ⟨_, rfl⟩ | cases h
  · exact ⟨_, rfl⟩

theorem lowerArgs_codes {args : List Expr} : ∀ {Ts : List Ty}, args.length = Ts.length →
    (∀ e T, (e, T) ∈ args.zip Ts → ∃ is, lowerExpr f e = .of is ∧ Codes ctx r f e T is) →
    ∃ codes, codes.length = Ts.length ∧ lowerArgs f args = .of codes.flatten ∧
      ∀ e T is, (e, T, is) ∈ args.zip (Ts.zip codes) → Codes ctx r f e T is := by
  induction args with
  | nil =>
    intro Ts hl _
    obtain rfl := List.eq_nil_of_length_eq_zero hl.symm
    exact ⟨[], rfl, by rw [lowerArgs]; rfl, by simp⟩
  | cons e rest ih =>
    intro Ts hl h
    cases Ts with
    | nil => cases hl
    | cons T Ts =>
      obtain ⟨is, his, hcodes⟩ := h e T List.mem_cons_self
      obtain ⟨codes, hlen, hcs, hrest⟩ := ih (Nat.succ.inj hl)
        fun x U hx => h x U (List.mem_cons_of_mem _ hx)
      refine ⟨is :: codes, by simp [hlen], by rw [lowerArgs, his, hcs]; rfl, ?_⟩
      intro x U js hx
      rcases List.mem_cons.mp hx with heq | hx
      · cases heq
        exact hcodes
      · exact hrest x U js hx

/-- What obeys the rules has its code. -/
theorem codes_of_hasType (hs : Serves f ctx r) (hw : Writable ctx.table r) {e : Expr} {T : Ty}
    (h : HasType ctx r e T) : ∃ is, lowerExpr f e = .of is ∧ Codes ctx r f e T is := by
  induction h with
  | literal hn => exact ⟨_, by rw [lowerExpr], .literal hn⟩
  | this hst hn =>
    refine ⟨[.ldthis], ?_, .this hst hn⟩
    rw [lowerExpr, Frame.pushThis, hs.this, hst]
    rfl
  | var hb hr hk hp ht hn =>
    obtain ⟨a, ha⟩ := hw.types hr.1 ht
    obtain ⟨p, hplace, hload, -⟩ := place_of_var hs hk hp ht ha
    exact ⟨_, by rw [lowerExpr, symbolOf, hb]; exact hload, .var hb hr ht hplace hn⟩
  | @declaration n note b hb hk hn =>
    refine ⟨[], ?_, .declaration hb hk hn⟩
    rw [lowerExpr, symbolOf, hb]
    change f.load b = _
    unfold Symbol.kind at hk
    unfold Frame.load
    rcases hd : b.details with ⟨_, _, _⟩ | ⟨_, _, _, _, _⟩ | ⟨_, _⟩
    · rfl
    · rfl
    · simp [hd] at hk
  | unary _ hn ih =>
    obtain ⟨is, his, hc⟩ := ih
    exact ⟨_, by rw [lowerExpr, his]; rfl, .unary hc hn⟩
  | binary _ _ happ hn ihl ihr =>
    obtain ⟨is, his, hl⟩ := ihl
    obtain ⟨js, hjs, hr⟩ := ihr
    obtain ⟨ks, hks⟩ := binaryCode_whole happ
    refine ⟨_, ?_, .binary hl hr happ hks hn⟩
    rw [lowerExpr, his, hjs, exprType, hl.type_eq]
    change _ ++ _ ++ binaryCode _ _ = _
    rw [hks]
    rfl
  | assign ht _ hi hn _ ihv =>
    obtain ⟨is, his, hv⟩ := ihv
    cases ht with
    | declaration => cases hi
    | var hb hr hk hp ht _ =>
      obtain ⟨a, ha⟩ := hw.types hr.1 ht
      obtain ⟨p, hplace, -, hstore⟩ := place_of_var hs hk hp ht ha
      refine ⟨_, ?_, .assign hb hr ht hplace hv hi hn⟩
      rw [lowerExpr, his, Frame.assign, symbolOf, hb]
      exact hstore is true
  | call hm hr hk hp ht hc ho hl _ hn ih =>
    obtain ⟨as, has⟩ := hw.params hr.1 hp
    obtain ⟨a, ha⟩ := hw.types hr.1 ht
    obtain ⟨codes, hlen, hcodes, hargs⟩ := lowerArgs_codes hl ih
    obtain ⟨before, i, hcall, hinvoke⟩ := call_of_method hs hk hc hp has ht ha
    refine ⟨_, ?_, .call hm hr hk hp ht ho hcall hl hlen hargs hn⟩
    rw [lowerExpr, symbolOf, hm, hcodes]
    exact hinvoke _
  | @create n note c path ms hc hb hd hst hn =>
    refine ⟨[.newobj path], ?_, .create hc hb hd hst hn⟩
    rw [lowerExpr, symbolOf, hc]
    simp [Emission.need, Symbol.classPath, hd]

end Expressions

inductive ValueCodes (ctx : Context) (r : Resolutions) (f : Frame) : Expr → List Instr → Prop
  | assign {n nameNote value note b T p is} (hb : n.symbol = some b)
    (hr : ctx.table.Reached ctx.scope b) (ht : r.type? b = some T) (hp : PlaceOf ctx f b T p)
    (hv : Codes ctx r f value T is) (hi : T.isValue = true) :
    ValueCodes ctx r f (.assign (.name n nameNote) value note) (p.store is false)
  | other {e T is} (he : Codes ctx r f e T is) (hne : e.shape ≠ .assign) :
    ValueCodes ctx r f e (is ++ if T.isValue then [.pop] else [])

inductive LocalCodes (ctx : Context) (r : Resolutions) (f : Frame) (v : Declarator) :
    List Instr → Prop
  | bare (hi : v.init = none) : LocalCodes ctx r f v []
  | init {b type index T init is} (hi : v.init = some init) (hb : v.symbol = some b)
    (hr : ctx.table.Reached ctx.scope b) (hd : b.details = .var type (.slot index))
    (ht : r.type? b = some T) (hc : Codes ctx r f init T is) :
    LocalCodes ctx r f v (is ++ [.stloc index])

def LocalsCodes (ctx : Context) (r : Resolutions) (f : Frame) :
    List Declarator → List Instr → Prop
  | [], is => is = []
  | v :: rest, is =>
    ∃ js ks, LocalCodes ctx r f v js ∧ LocalsCodes ctx r f rest ks ∧ is = js ++ ks

def ReturnCodes (ctx : Context) (r : Resolutions) (f : Frame) (T : Ty) :
    Option Expr → List Instr → Prop
  | none, is => T = .void ∧ is = []
  | some e, is => Codes ctx r f e T is

mutual

/-- A statement obeys the rules, and this is its code, with labels numbered from `n` on. -/
def StmtCodes (ctx : Context) (r : Resolutions) (f : Frame) (n : Nat) :
    Stmt → List Item → Nat → Prop
  | .block body _, items, next => StmtsCodes ctx r f n body items next
  | .expr value _ _, items, next =>
    ∃ is, ValueCodes ctx r f value is ∧ items = is.map .instr ∧ next = n
  | .locals d, items, next =>
    ∃ is, LocalsCodes ctx r f d.vars is ∧ items = is.map .instr ∧ next = n
  | .ifThen cond thenBody _, items, next =>
    ∃ is xs, Codes ctx r f cond .boolean is ∧ StmtCodes ctx r f (n + 1) thenBody xs next ∧
      items = is.map .instr ++ .instr (.brfalse ⟨"END_IF", n⟩) :: xs ++ [.label ⟨"END_IF", n⟩]
  | .ifElse cond thenBody elseBody _, items, next =>
    ∃ is xs ys m, Codes ctx r f cond .boolean is ∧ StmtCodes ctx r f (n + 2) thenBody xs m ∧
      StmtCodes ctx r f m elseBody ys next ∧
      items = is.map .instr ++ .instr (.brfalse ⟨"ELSE", n + 1⟩) :: xs ++
        .instr (.br ⟨"END_IF", n⟩) :: .label ⟨"ELSE", n + 1⟩ :: ys ++ [.label ⟨"END_IF", n⟩]
  | .loop cond body _, items, next =>
    ∃ is xs, Codes ctx r f cond .boolean is ∧ StmtCodes ctx r f (n + 2) body xs next ∧
      items = .label ⟨"LOOP", n⟩ :: is.map .instr ++ .instr (.brfalse ⟨"END_LOOP", n + 1⟩) :: xs ++
        [.instr (.br ⟨"LOOP", n⟩), .label ⟨"END_LOOP", n + 1⟩]
  | .ret value _, items, next =>
    ∃ m T is, ctx.method = some m ∧ r.type? m = some T ∧ ReturnCodes ctx r f T value is ∧
      items = is.map .instr ++ [.instr .ret] ∧ next = n
  | .empty _, items, next => items = [] ∧ next = n

def StmtsCodes (ctx : Context) (r : Resolutions) (f : Frame) (n : Nat) :
    List Stmt → List Item → Nat → Prop
  | [], items, next => items = [] ∧ next = n
  | s :: rest, items, next =>
    ∃ xs ys m, StmtCodes ctx r f n s xs m ∧ StmtsCodes ctx r f m rest ys next ∧ items = xs ++ ys

end

namespace Code

theorem append_whole {a b : Code} {n m next : Nat} {xs ys : List Item} (ha : a n = ⟨xs, m, none⟩)
    (hb : b m = ⟨ys, next, none⟩) : (a ++ b) n = ⟨xs ++ ys, next, none⟩ :=
  append_whole_iff.mpr ⟨xs, m, ys, ha, hb, rfl⟩

theorem of_whole {e : Emission} {is : List Instr} (h : e = .of is) (n : Nat) :
    of e n = ⟨is.map .instr, n, none⟩ := by
  rw [h]
  rfl

theorem instrs_whole (is : List Instr) (n : Nat) : instrs is n = ⟨is.map .instr, n, none⟩ := rfl

theorem mark_whole (l : Label) (n : Nat) : mark l n = ⟨[.label l], n, none⟩ := rfl

end Code

section Statements

variable {f : Frame} {ctx : Context} {r : Resolutions}

theorem lowerValue_codes (hs : Serves f ctx r) (hw : Writable ctx.table r) {e : Expr} {T : Ty}
    (h : HasType ctx r e T) : ∃ is, lowerValue f e = .of is ∧ ValueCodes ctx r f e is := by
  by_cases hshape : e.shape = .assign
  · cases h with
    | assign ht hv hi _ =>
      obtain ⟨is, his, hc⟩ := codes_of_hasType hs hw hv
      cases ht with
      | declaration => cases hi
      | var hb hr hk hp ht _ =>
        obtain ⟨a, ha⟩ := hw.types hr.1 ht
        obtain ⟨p, hplace, -, hstore⟩ := place_of_var hs hk hp ht ha
        refine ⟨_, ?_, .assign hb hr ht hplace hc hi⟩
        simp only [lowerValue, his, Frame.assign, symbolOf, hb]
        exact hstore is false
    | _ => cases hshape
  · obtain ⟨is, his, hc⟩ := codes_of_hasType hs hw h
    refine ⟨_, ?_, .other hc hshape⟩
    have hother : lowerValue f e =
        lowerExpr f e ++ .need (leavesValue e) fun b => .of (if b then [.pop] else []) := by
      cases e with
      | assign => exact absurd rfl hshape
      | _ => rfl
    rw [hother, his, leavesValue, exprType, h.type_eq]
    rfl

theorem lowerLocals_codes (hs : Serves f ctx r) (hw : Writable ctx.table r)
    {vars : List Declarator} (h : ∀ v ∈ vars, LocalChecked ctx r v) :
    ∃ is, lowerLocals f vars = .of is ∧ LocalsCodes ctx r f vars is := by
  induction vars with
  | nil => exact ⟨[], rfl, rfl⟩
  | cons v vars ih =>
    obtain ⟨ks, hks, hrest⟩ := ih fun x hx => h x (List.mem_cons_of_mem _ hx)
    have hv : ∃ js, lowerLocal f v = .of js ∧ LocalCodes ctx r f v js := by
      obtain ⟨b, T, hb, hr, ⟨type, index, hd⟩, ht, hinit⟩ := h v List.mem_cons_self
      unfold lowerLocal
      cases hi : v.init with
      | none => exact ⟨[], rfl, .bare hi⟩
      | some init =>
        obtain ⟨is, his, hc⟩ := codes_of_hasType hs hw (hinit init hi)
        refine ⟨_, ?_, .init hi hb hr hd ht hc⟩
        simp only [registered, hb, Emission.need, hd, his]
        rfl
    obtain ⟨js, hjs, hfirst⟩ := hv
    exact ⟨js ++ ks, by rw [lowerLocals, hjs, hks]; rfl, js, ks, hfirst, hrest, rfl⟩

mutual

theorem stmtCodes_of_checked (hs : Serves f ctx r) (hw : Writable ctx.table r) :
    ∀ {stmt : Stmt}, StmtChecked ctx r stmt → ∀ n, ∃ items next,
      lowerStmt f stmt n = ⟨items, next, none⟩ ∧ StmtCodes ctx r f n stmt items next
  | .block body _, h, n => by
    rw [StmtChecked] at h
    simp only [lowerStmt, StmtCodes]
    exact stmtsCodes_of_checked hs hw h n
  | .expr value _ _, h, n => by
    rw [StmtChecked] at h
    obtain ⟨T, hT⟩ := h
    obtain ⟨is, his, hc⟩ := lowerValue_codes hs hw hT
    simp only [lowerStmt, StmtCodes]
    exact ⟨_, n, Code.of_whole his n, is, hc, rfl, rfl⟩
  | .locals d, h, n => by
    rw [StmtChecked] at h
    obtain ⟨is, his, hc⟩ := lowerLocals_codes hs hw h
    simp only [lowerStmt, StmtCodes]
    exact ⟨_, n, Code.of_whole his n, is, hc, rfl, rfl⟩
  | .ifThen cond thenBody _, h, n => by
    rw [StmtChecked] at h
    obtain ⟨is, his, hc⟩ := codes_of_hasType hs hw h.1
    obtain ⟨xs, next, hxs, hthen⟩ := stmtCodes_of_checked hs hw h.2 (n + 1)
    simp only [lowerStmt, StmtCodes]
    have hbranch := Code.append_whole (Code.of_whole his (n + 1))
      (Code.instrs_whole [.brfalse ⟨"END_IF", n⟩] _)
    have hcode := Code.append_whole (Code.append_whole hbranch hxs)
      (Code.mark_whole ⟨"END_IF", n⟩ _)
    exact ⟨_, next, hcode, is, xs, hc, hthen, by simp⟩
  | .ifElse cond thenBody elseBody _, h, n => by
    rw [StmtChecked] at h
    obtain ⟨is, his, hc⟩ := codes_of_hasType hs hw h.1
    obtain ⟨xs, m, hxs, hthen⟩ := stmtCodes_of_checked hs hw h.2.1 (n + 2)
    obtain ⟨ys, next, hys, helse⟩ := stmtCodes_of_checked hs hw h.2.2 m
    simp only [lowerStmt, StmtCodes]
    have hrest := Code.append_whole (Code.append_whole (Code.append_whole (Code.append_whole
      (Code.append_whole (Code.instrs_whole [.brfalse ⟨"ELSE", n + 1⟩] (n + 2)) hxs)
      (Code.instrs_whole [.br ⟨"END_IF", n⟩] _)) (Code.mark_whole ⟨"ELSE", n + 1⟩ _)) hys)
      (Code.mark_whole ⟨"END_IF", n⟩ _)
    have hcode : (Code.of (lowerExpr f cond) ++ Code.fresh "ELSE" fun other =>
        Code.instrs [.brfalse other] ++ lowerStmt f thenBody ++ Code.instrs [.br ⟨"END_IF", n⟩] ++
          Code.mark other ++ lowerStmt f elseBody ++ Code.mark ⟨"END_IF", n⟩) (n + 1) = _ :=
      Code.append_whole (Code.of_whole his (n + 1)) hrest
    exact ⟨_, next, hcode, is, xs, ys, m, hc, hthen, helse, by simp⟩
  | .loop cond body _, h, n => by
    rw [StmtChecked] at h
    obtain ⟨is, his, hc⟩ := codes_of_hasType hs hw h.1
    obtain ⟨xs, next, hxs, hbody⟩ := stmtCodes_of_checked hs hw h.2 (n + 2)
    simp only [lowerStmt, StmtCodes]
    have hcode := Code.append_whole (Code.append_whole (Code.append_whole (Code.append_whole
      (Code.append_whole (Code.mark_whole ⟨"LOOP", n⟩ (n + 2)) (Code.of_whole his _))
      (Code.instrs_whole [.brfalse ⟨"END_LOOP", n + 1⟩] _)) hxs)
      (Code.instrs_whole [.br ⟨"LOOP", n⟩] _)) (Code.mark_whole ⟨"END_LOOP", n + 1⟩ _)
    exact ⟨_, next, hcode, is, xs, hc, hbody, by simp⟩
  | .ret value _, h, n => by
    rw [StmtChecked] at h
    obtain ⟨m, T, hm, ht, hv⟩ := h
    simp only [lowerStmt, StmtCodes]
    cases value with
    | none =>
      obtain rfl : T = .void := hv
      exact ⟨_, n, Code.of_whole rfl n, m, .void, [], hm, ht, ⟨rfl, rfl⟩, rfl, rfl⟩
    | some e =>
      obtain ⟨is, his, hc⟩ := codes_of_hasType hs hw hv
      have hret : lowerExpr f e ++ Emission.of [.ret] = .of (is ++ [.ret]) := by
        rw [his]
        rfl
      exact ⟨_, n, Code.of_whole hret n, m, T, is, hm, ht, hc, by simp, rfl⟩
  | .empty _, _, n => by
    simp only [lowerStmt, StmtCodes]
    exact ⟨[], n, rfl, rfl, rfl⟩

theorem stmtsCodes_of_checked (hs : Serves f ctx r) (hw : Writable ctx.table r) :
    ∀ {body : List Stmt}, StmtsChecked ctx r body → ∀ n, ∃ items next,
      lowerStmts f body n = ⟨items, next, none⟩ ∧ StmtsCodes ctx r f n body items next
  | [], _, n => by
    simp only [lowerStmts, StmtsCodes]
    exact ⟨[], n, rfl, rfl, rfl⟩
  | _ :: _, h, n => by
    rw [StmtsChecked] at h
    obtain ⟨xs, m, hxs, hfirst⟩ := stmtCodes_of_checked hs hw h.1 n
    obtain ⟨ys, next, hys, hrest⟩ := stmtsCodes_of_checked hs hw h.2 m
    simp only [lowerStmts, StmtsCodes]
    exact ⟨_, next, Code.append_whole hxs hys, xs, ys, m, hfirst, hrest, rfl⟩

end

end Statements

end Lowering

end ClassLang
