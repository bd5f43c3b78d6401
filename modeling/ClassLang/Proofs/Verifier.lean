import ClassLang.Proofs.Layout

/-! Verification of code. Entries of the operand stack have types, a truth value being a number
there, and one pass over the code of a method follows them: it knows the parameters and locals of
the method, and the signatures that instructions give. Labels and branches want an empty stack, and
`ret` wants the result alone. The code of a unit without variables of type `void` passes. -/
namespace ClassLang

open Assembly Typing

namespace Assembly

inductive Entry where
  | int32
  | string
  | object
  | null
  | cls (path : List String)
  deriving DecidableEq

def AsmType.entry : AsmType → Option Entry
  | .int32 | .bool => some .int32
  | .string => some .string
  | .object => some .object
  | .void => none
  | .cls path => some (.cls path)

def entries : List AsmType → Option (List Entry)
  | [] => some []
  | a :: rest => do return (← a.entry) :: (← entries rest)

namespace MethodDef

def arguments (d : MethodDef) : List (Option Entry) :=
  (if d.isStatic then [] else [some (.cls d.owner)]) ++ d.params.map fun p => p.1.entry

def argument (d : MethodDef) (index : Nat) : Option Entry := d.arguments[index]?.join

def slot (d : MethodDef) (index : UInt16) : Option Entry :=
  (d.localAt index).bind fun e => e.type.entry

end MethodDef

/-- What an instruction takes off the stack, the last entry on top, and what it leaves there. Some
instructions take what they find. -/
def Instr.signature (d : MethodDef) : Instr → Option (List Entry × List Entry)
  | .ldcI4 _ | .ldcZero | .ldcOne => some ([], [.int32])
  | .ldstr _ => some ([], [.string])
  | .ldnull => some ([], [.null])
  | .ldthis => if d.isStatic then none else some ([], [.cls d.owner])
  | .ldarg index => do return ([], [← d.argument index])
  | .starg index => do return ([← d.argument index], [])
  | .ldloc slot => do return ([], [← d.slot slot])
  | .stloc slot => do return ([← d.slot slot], [])
  | .ldfld field => do return ([.cls field.owner], [← field.type.entry])
  | .stfld field => do return ([.cls field.owner, ← field.type.entry], [])
  | .ldsfld field => do return ([], [← field.type.entry])
  | .stsfld field => do return ([← field.type.entry], [])
  | .neg => some ([.int32], [.int32])
  | .add | .sub | .mul | .div | .rem | .and | .or | .clt | .cgt =>
    some ([.int32, .int32], [.int32])
  | .newobj path => some ([], [.cls path])
  | .call m => do
    return ((if m.isStatic then [] else [.cls m.owner]) ++ (← entries m.params),
      m.returns.entry.toList)
  | .callConsole _ params returns => do return (← entries params, returns.entry.toList)
  | .callString .concat => some ([.string, .string], [.string])
  | .callString _ => some ([.string, .string], [.int32])
  | .callObject => some ([.cls d.owner], [])
  | .dup | .pop | .ceq | .br _ | .brfalse _ | .ret => none

def takeOff : List Entry → List Entry → Option (List Entry)
  | [], stack => some stack
  | _ :: _, [] => none
  | x :: rest, y :: stack => if x = y then takeOff rest stack else none

/-- The stack after an instruction, if the instruction accepts the stack before it. -/
def Instr.check (d : MethodDef) (i : Instr) (stack : List Entry) : Option (List Entry) :=
  match i with
  | .dup =>
    match stack with
    | x :: rest => some (x :: x :: rest)
    | [] => none
  | .pop =>
    match stack with
    | _ :: rest => some rest
    | [] => none
  | .ceq =>
    match stack with
    | x :: y :: rest => if x = y then some (.int32 :: rest) else none
    | _ => none
  | .br _ => if stack = [] then some [] else none
  | .brfalse _ => if stack = [.int32] then some [] else none
  | .ret => if stack = d.returns.entry.toList then some [] else none
  | i => do
    let (takes, leaves) ← i.signature d
    return leaves ++ (← takeOff takes.reverse stack)

/-- The stack after a piece of code, if every instruction accepts what it finds. -/
def MethodDef.verify (d : MethodDef) : List Lowering.Item → List Entry → Option (List Entry)
  | [], stack => some stack
  | .instr i :: rest, stack => do d.verify rest (← i.check d stack)
  | .label _ :: rest, stack => if stack = [] then d.verify rest [] else none

end Assembly

def Ty.entry (owner : List String) : Ty → Option Entry
  | .int | .boolean => some .int32
  | .string => some .string
  | .object => some .object
  | .this => some (.cls owner)
  | .null => some .null
  | .cls symbol => symbol.classPath.toOption.map .cls
  | .void | .error | .declaration => none

namespace Assembly

theorem takeOff_append (xs stack : List Entry) : takeOff xs (xs ++ stack) = some stack := by
  induction xs with
  | nil => rfl
  | cons x xs ih => simpa [takeOff] using ih

theorem Instr.check_of_signature {d : MethodDef} {i : Instr} {takes leaves : List Entry}
    (h : i.signature d = some (takes, leaves)) (stack : List Entry) :
    i.check d (takes.reverse ++ stack) = some (leaves ++ stack) := by
  have hgeneral : (do
      let (takes', leaves') ← i.signature d
      return leaves' ++ (← takeOff takes'.reverse (takes.reverse ++ stack))) =
      some (leaves ++ stack) := by
    simp [h, takeOff_append]
  cases i <;> first | exact hgeneral | cases h

namespace MethodDef

variable {d : MethodDef}

theorem verify_append (xs ys : List Lowering.Item) (stack : List Entry) :
    d.verify (xs ++ ys) stack = (d.verify xs stack).bind (d.verify ys) := by
  induction xs generalizing stack with
  | nil => rfl
  | cons x xs ih =>
    cases x with
    | instr i =>
      simp only [List.cons_append, verify, Option.bind_eq_bind, Option.bind_assoc]
      exact Option.bind_congr fun mid _ => ih mid
    | label l =>
      simp only [List.cons_append, verify]
      split
      · exact ih []
      · rfl

theorem verify_trans {xs ys : List Lowering.Item} {a b c : List Entry}
    (hx : d.verify xs a = some b) (hy : d.verify ys b = some c) :
    d.verify (xs ++ ys) a = some c := by
  rw [verify_append, hx]
  exact hy

theorem verify_label (l : Label) : d.verify [.label l] [] = some [] := rfl

theorem verify_br (l : Label) : d.verify [.instr (.br l)] [] = some [] := rfl

def checks (d : MethodDef) (is : List Instr) (stack : List Entry) : Option (List Entry) :=
  d.verify (is.map .instr) stack

@[simp] theorem checks_nil (stack : List Entry) : d.checks [] stack = some stack := rfl

theorem checks_cons {i : Instr} {is : List Instr} {a b : List Entry} (h : i.check d a = some b) :
    d.checks (i :: is) a = d.checks is b := by
  simp [checks, verify, h]

theorem checks_trans {is js : List Instr} {a b c : List Entry} (hi : d.checks is a = some b)
    (hj : d.checks js b = some c) : d.checks (is ++ js) a = some c := by
  unfold checks at *
  rw [List.map_append]
  exact verify_trans hi hj

theorem checks_snoc {is : List Instr} {i : Instr} {a stack : List Entry}
    (takes leaves : List Entry) (hs : i.signature d = some (takes, leaves))
    (hi : d.checks is a = some (takes.reverse ++ stack)) :
    d.checks (is ++ [i]) a = some (leaves ++ stack) := by
  refine checks_trans hi ?_
  rw [checks_cons (Instr.check_of_signature hs stack), checks_nil]

theorem checks_push {i : Instr} {x : Entry} (hs : i.signature d = some ([], [x]))
    (stack : List Entry) : d.checks [i] stack = some (x :: stack) :=
  checks_cons (Instr.check_of_signature hs stack)

/-- A value is stored by one instruction, maybe after a copy of it was made. -/
theorem checks_store {is : List Instr} {i : Instr} {x : Entry} {a stack : List Entry}
    (hs : i.signature d = some ([x], [])) (hi : d.checks is a = some (x :: stack)) (keep : Bool) :
    d.checks (is ++ (if keep then [.dup] else []) ++ [i]) a =
      some ((if keep then [x] else []) ++ stack) := by
  cases keep with
  | false => exact checks_snoc [x] [] hs (by simpa using hi)
  | true => exact checks_snoc [x] [] hs (checks_trans hi rfl)

end MethodDef

end Assembly

namespace Ty

variable {T : Ty} {a : AsmType} {owner : List String}

theorem entry_of_toAsm (ha : T.toAsm = .ok a) (hne : T ≠ .this) : T.entry owner = a.entry := by
  cases T with
  | this => exact absurd rfl hne
  | cls c =>
    rw [toAsm] at ha
    cases hc : c.classPath with
    | error fault => simp [hc, Except.map] at ha
    | ok path =>
      rw [hc] at ha
      cases ha
      simp [entry, hc, AsmType.entry, Except.toOption]
  | _ => cases ha <;> rfl

theorem isSome_entry (ha : T.toAsm = .ok a) (hne : T ≠ .void) : ∃ x, a.entry = some x := by
  cases T with
  | void => exact absurd rfl hne
  | cls c =>
    rw [toAsm] at ha
    cases hc : c.classPath with
    | error fault => simp [hc, Except.map] at ha
    | ok path =>
      rw [hc] at ha
      cases ha
      exact ⟨_, rfl⟩
  | _ => cases ha <;> exact ⟨_, rfl⟩

end Ty

namespace Lowering

/-- The method whose code is written in this frame: what it declares for the variables that may be
used in it, and the types that have values. -/
structure Houses (d : MethodDef) (ctx : Context) (r : Resolutions) (f : Frame) : Prop where
  this : f.hasThis = !d.isStatic
  binding : ctx.isStatic = d.isStatic
  owner : ∀ {path}, ctx.owner? = some path → d.owner = path
  slot : ∀ {b type index}, ctx.table.Reached ctx.scope b → b.details = .var type (.slot index) →
    ∃ e, d.localAt index = some e ∧ symbolType r b = .ok e.type
  param : ∀ {b type index}, ctx.table.Reached ctx.scope b → b.details = .var type (.param index) →
    ∃ p, d.params[index.toNat]? = some p ∧ symbolType r b = .ok p.1
  returns : ∀ {m}, ctx.method = some m → symbolType r m = .ok d.returns
  method : ∀ {m}, ctx.method = some m → ctx.table.Bound m
  var : ∀ {b T}, ctx.table.Bound b → b.kind = .var → r.type? b = some T → T ≠ .void
  type : ∀ {b T}, ctx.table.Bound b → r.type? b = some T → T ≠ .this
  params : ∀ {m Ts}, ctx.table.Bound m → r.params? m = some Ts → ∀ T ∈ Ts, T ≠ .void ∧ T ≠ .this

section

variable {d : MethodDef} {ctx : Context} {r : Resolutions} {f : Frame}

theorem toAsm_of_symbolType {b : Symbol} {T : Ty} {a : AsmType} (hT : r.type? b = some T)
    (ha : symbolType r b = .ok a) : T.toAsm = .ok a := by
  obtain ⟨U, hU, hasm⟩ := symbolType_eq_ok_iff.mp ha
  obtain rfl := Option.some.inj (hT.symm.trans hU)
  exact hasm

theorem signature_argument (hh : Houses d ctx r f) {index : UInt16} {p : AsmType × String}
    (hp : d.params[index.toNat]? = some p) : d.argument (f.argument index) = p.1.entry := by
  unfold MethodDef.argument MethodDef.arguments Frame.argument
  rw [hh.this]
  cases d.isStatic with
  | true => simp [hp]
  | false => simp [hp]

theorem checks_this (hh : Houses d ctx r f) (hs : ctx.isStatic = false) (S : List Entry) :
    d.checks [.ldthis] S = some (.cls d.owner :: S) :=
  MethodDef.checks_push (by simp [Instr.signature, ← hh.binding, hs]) S

/-- A place takes and gives values of the type of its variable. -/
theorem place_checks (hh : Houses d ctx r f) {b : Symbol} {T : Ty} {p : Place}
    (hr : ctx.table.Reached ctx.scope b) (ht : r.type? b = some T) (hp : PlaceOf ctx f b T p) :
    ∃ x, T.entry d.owner = some x ∧ (∀ S, d.checks p.load S = some (x :: S)) ∧
      ∀ is keep, (∀ S, d.checks is S = some (x :: S)) →
        ∀ S, d.checks (p.store is keep) S = some ((if keep then [x] else []) ++ S) := by
  have hthis := hh.type hr.1 ht
  have hentry : ∀ {a}, b.kind = .var → T.toAsm = .ok a →
      ∃ x, a.entry = some x ∧ T.entry d.owner = some x := by
    intro a hk ha
    obtain ⟨x, hx⟩ := Ty.isSome_entry ha (hh.var hr.1 hk ht)
    exact ⟨x, hx, (Ty.entry_of_toAsm ha hthis).trans hx⟩
  cases hp with
  | @slot _ index hd =>
    obtain ⟨e, hat, ha⟩ := hh.slot hr hd
    obtain ⟨x, hx, hT⟩ := hentry (by simp [Symbol.kind, hd]) (toAsm_of_symbolType ht ha)
    have hslot : d.slot index = some x := by simp [MethodDef.slot, hat, hx]
    exact ⟨x, hT, MethodDef.checks_push (by simp [Instr.signature, hslot]), fun is keep his S =>
      MethodDef.checks_store (by simp [Instr.signature, hslot]) (his S) keep⟩
  | argument hd =>
    obtain ⟨p, hat, ha⟩ := hh.param hr hd
    obtain ⟨x, hx, hT⟩ := hentry (by simp [Symbol.kind, hd]) (toAsm_of_symbolType ht ha)
    have harg := (signature_argument hh hat).trans hx
    exact ⟨x, hT, MethodDef.checks_push (by simp [Instr.signature, harg]), fun is keep his S =>
      MethodDef.checks_store (by simp [Instr.signature, harg]) (his S) keep⟩
  | shared hd ha =>
    obtain ⟨x, hx, hT⟩ := hentry (by simp [Symbol.kind, hd]) ha
    exact ⟨x, hT, MethodDef.checks_push (by simp [Instr.signature, hx]), fun is keep his S =>
      MethodDef.checks_store (by simp [Instr.signature, hx]) (his S) keep⟩
  | @own _ owner a hd ha hs ho =>
    obtain ⟨x, hx, hT⟩ := hentry (by simp [Symbol.kind, hd]) ha
    obtain rfl := hh.owner ho
    have hload : ∀ S, d.checks [.ldthis, .ldfld ⟨a, d.owner, b.name⟩] S = some (x :: S) := fun S =>
      MethodDef.checks_snoc [.cls d.owner] [x] (by simp [Instr.signature, hx]) (checks_this hh hs S)
    refine ⟨x, hT, hload, fun is keep his S => ?_⟩
    have hset : d.checks (.ldthis :: (is ++ [.stfld ⟨a, d.owner, b.name⟩])) S = some S :=
      MethodDef.checks_snoc [.cls d.owner, x] [] (by simp [Instr.signature, hx])
        (MethodDef.checks_trans (checks_this hh hs S) (his _))
    have hsplit : (Place.own ⟨a, d.owner, b.name⟩).store is keep =
        .ldthis :: (is ++ [.stfld ⟨a, d.owner, b.name⟩]) ++
          if keep then [.ldthis, .ldfld ⟨a, d.owner, b.name⟩] else [] := by
      simp [Place.store]
    rw [hsplit]
    refine MethodDef.checks_trans hset ?_
    cases keep with
    | false => rfl
    | true => exact hload S

theorem checks_ceq (x : Entry) (S : List Entry) :
    d.checks [.ceq] (x :: x :: S) = some (.int32 :: S) := by
  rw [MethodDef.checks_cons (b := .int32 :: S) (by simp [Instr.check]), MethodDef.checks_nil]

theorem checks_negation (S : List Entry) :
    d.checks negation (.int32 :: S) = some (.int32 :: S) := rfl

theorem unaryCode_checks (op : UnaryOp) (S : List Entry) :
    d.checks (unaryCode op) (.int32 :: S) = some (.int32 :: S) := by
  cases op <;> rfl

theorem same_eq {T U : Ty} (h : T.same U = true) (hU : U.form ≠ .cls) : T = U := by
  have hform := (Ty.same_iff.mp h).1
  cases U <;> first | exact absurd rfl hU | (cases T <;> first | rfl | cases hform)

theorem isValue_of_applies {op : BinaryOp} {T : Ty} (h : applies op T = true) :
    T.isValue = true := by
  cases T with
  | void | error | declaration => cases op <;> cases h
  | _ => rfl

theorem binaryCode_checks {op : BinaryOp} {T : Ty} {ks : List Instr} {x : Entry}
    {owner : List String} (ha : applies op T = true) (hc : binaryCode op T = .of ks)
    (hx : T.entry owner = some x) :
    ∃ y, (if op.isComparison then .boolean else T).entry owner = some y ∧
      ∀ S, d.checks ks (x :: x :: S) = some (y :: S) := by
  unfold binaryCode at hc
  split at hc
  · next hs =>
    obtain rfl := same_eq hs (by simp [Ty.form])
    cases hx
    cases op
    all_goals first | exact ⟨_, rfl, by cases hc; exact fun _ => rfl⟩ | cases ha
  · next hs =>
    cases hc
    cases op with
    | eq => exact ⟨.int32, rfl, checks_ceq x⟩
    | ne =>
      exact ⟨.int32, rfl, fun S => MethodDef.checks_trans (checks_ceq x S) (checks_negation S)⟩
    | and | or | sub | mul | div | rem =>
      obtain rfl := same_eq ha (by simp [Ty.form])
      cases hx
      exact ⟨_, rfl, fun _ => rfl⟩
    | add | lt | le | gt | ge =>
      rw [applies, Bool.or_eq_true, or_iff_left hs] at ha
      obtain rfl := same_eq ha (by simp [Ty.form])
      cases hx
      exact ⟨_, rfl, fun _ => rfl⟩

theorem args_check {args : List Expr} {Ts : List Ty} {owner : List String} :
    ∀ {codes : List (List Instr)} {as : List AsmType}, args.length = Ts.length →
      codes.length = Ts.length → asmTypes Ts = .ok as → (∀ T ∈ Ts, T ≠ .void ∧ T ≠ .this) →
      (∀ e T is, (e, T, is) ∈ args.zip (Ts.zip codes) →
        ∀ S, d.checks is S = some ((T.entry owner).toList ++ S)) →
      ∃ xs, entries as = some xs ∧
        ∀ S, d.checks codes.flatten S = some (xs.reverse ++ S) := by
  induction Ts generalizing args with
  | nil =>
    intro codes as _ hlc has _ _
    obtain rfl := List.eq_nil_of_length_eq_zero hlc
    cases has
    exact ⟨[], rfl, fun _ => rfl⟩
  | cons T Ts ih =>
    intro codes as hl hlc has hne h
    cases args with
    | nil => cases hl
    | cons e args =>
      cases codes with
      | nil => cases hlc
      | cons is codes =>
        obtain ⟨a, rest, ha, hrest, rfl⟩ := asmTypes_cons_eq_ok has
        obtain ⟨xs, hxs, hchecks⟩ := ih (Nat.succ.inj hl) (Nat.succ.inj hlc) hrest
          (fun U hU => hne U (List.mem_cons_of_mem _ hU))
          (fun e U js hmem => h e U js (List.mem_cons_of_mem _ hmem))
        obtain ⟨hv, ht⟩ := hne T List.mem_cons_self
        obtain ⟨x, hx⟩ := Ty.isSome_entry ha hv
        refine ⟨x :: xs, by simp [entries, hx, hxs], fun S => ?_⟩
        have hfirst := h e T is List.mem_cons_self S
        rw [Ty.entry_of_toAsm ha ht, hx] at hfirst
        rw [List.flatten_cons, List.reverse_cons, List.append_assoc]
        exact MethodDef.checks_trans hfirst (hchecks _)

theorem call_checks (hh : Houses d ctx r f) {m : Symbol} {Ts : List Ty} {T : Ty}
    {before is : List Instr} {i : Instr} (hm : ctx.table.Bound m) (ht : r.type? m = some T)
    (hc : CallOf ctx m Ts T before i)
    (hargs : ∀ as, asmTypes Ts = .ok as → ∃ xs, entries as = some xs ∧
      ∀ S, d.checks is S = some (xs.reverse ++ S)) (S : List Entry) :
    (T.isValue = true → ∃ x, T.entry d.owner = some x) ∧
      d.checks (before ++ is ++ [i]) S = some ((T.entry d.owner).toList ++ S) := by
  have hentry : ∀ {a}, T.toAsm = .ok a → T.entry d.owner = a.entry := fun ha =>
    Ty.entry_of_toAsm ha (hh.type hm ht)
  have hvalue : ∀ {a}, T.toAsm = .ok a → T.isValue = true → ∃ x, T.entry d.owner = some x := by
    intro a ha hv
    rw [hentry ha]
    exact Ty.isSome_entry ha fun he => by simp [he, Ty.isValue] at hv
  cases hc with
  | console hd has ha =>
    obtain ⟨xs, hxs, his⟩ := hargs _ has
    refine ⟨hvalue ha, ?_⟩
    rw [hentry ha]
    exact MethodDef.checks_snoc xs _ (by simp [Instr.signature, hxs]) (his S)
  | shared hd has ha hs =>
    obtain ⟨xs, hxs, his⟩ := hargs _ has
    refine ⟨hvalue ha, ?_⟩
    rw [hentry ha]
    exact MethodDef.checks_snoc xs _ (by simp [Instr.signature, hxs]) (his S)
  | own hd has ha hs hst ho =>
    obtain ⟨xs, hxs, his⟩ := hargs _ has
    refine ⟨hvalue ha, ?_⟩
    rw [hentry ha]
    refine MethodDef.checks_snoc (.cls d.owner :: xs) _ ?_ ?_
    · simp [Instr.signature, hxs, hh.owner ho]
    · simpa using MethodDef.checks_trans (checks_this hh hst S) (his _)

/-- The code of an expression adds its value to the stack, if it has one, and nothing else. -/
theorem codes_check (hh : Houses d ctx r f) {e : Expr} {T : Ty} {is : List Instr}
    (h : Codes ctx r f e T is) :
    (T.isValue = true → ∃ x, T.entry d.owner = some x) ∧
      ∀ S, d.checks is S = some ((T.entry d.owner).toList ++ S) := by
  induction h with
  | @literal value note _ =>
    cases value with
    | boolean b => cases b <;> exact ⟨fun _ => ⟨_, rfl⟩, fun _ => rfl⟩
    | _ => exact ⟨fun _ => ⟨_, rfl⟩, fun _ => rfl⟩
  | this hs _ => exact ⟨fun _ => ⟨_, rfl⟩, checks_this hh hs⟩
  | var hb hr ht hp _ =>
    obtain ⟨x, hx, hload, -⟩ := place_checks hh hr ht hp
    exact ⟨fun _ => ⟨x, hx⟩, by rw [hx]; exact hload⟩
  | declaration => exact ⟨fun hv => (by cases hv), fun _ => rfl⟩
  | @unary op _ _ _ _ _ ih =>
    refine ⟨fun _ => by cases op <;> exact ⟨_, rfl⟩, fun S => MethodDef.checks_trans (ih.2 S) ?_⟩
    cases op <;> exact unaryCode_checks _ S
  | @binary op _ _ _ T _ _ _ _ _ ha hc _ ihl ihr =>
    have hv : T.isValue = true := isValue_of_applies ha
    obtain ⟨x, hx⟩ := ihl.1 hv
    obtain ⟨y, hy, hop⟩ := binaryCode_checks ha hc hx
    rw [hx] at ihl ihr
    refine ⟨fun _ => ⟨y, hy⟩, fun S => ?_⟩
    rw [hy]
    exact MethodDef.checks_trans (MethodDef.checks_trans (ihl.2 S) (ihr.2 _)) (hop S)
  | assign hb hr ht hp _ _ _ ih =>
    obtain ⟨x, hx, -, hstore⟩ := place_checks hh hr ht hp
    rw [hx] at ih ⊢
    exact ⟨fun _ => ⟨x, rfl⟩, hstore _ true ih.2⟩
  | call hm hr hk hp ht ho hc hl hlc ha hn ih =>
    have hargs := fun as (has : asmTypes _ = .ok as) => args_check hl hlc has (hh.params hr.1 hp)
      fun e T is hmem => (ih e T is hmem).2
    exact ⟨(call_checks hh hr.1 ht hc hargs []).1, fun S => (call_checks hh hr.1 ht hc hargs S).2⟩
  | @create n note c path _ hc hb hd hs hn =>
    have hentry : (Ty.cls c).entry d.owner = some (.cls path) := by
      simp [Ty.entry, Symbol.classPath, hd, Except.toOption]
    exact ⟨fun _ => ⟨_, hentry⟩, by rw [hentry]; exact fun _ => rfl⟩

theorem valueCodes_check (hh : Houses d ctx r f) {e : Expr} {is : List Instr}
    (h : ValueCodes ctx r f e is) (S : List Entry) : d.checks is S = some S := by
  cases h with
  | assign hb hr ht hp hv hi =>
    obtain ⟨x, hx, -, hstore⟩ := place_checks hh hr ht hp
    have hvalue := (codes_check hh hv).2
    rw [hx] at hvalue
    exact hstore _ false hvalue S
  | @other e T is he hne =>
    obtain ⟨hentry, hcheck⟩ := codes_check hh he
    refine MethodDef.checks_trans (hcheck S) ?_
    cases hv : T.isValue with
    | true =>
      obtain ⟨x, hx⟩ := hentry hv
      rw [hx]
      rfl
    | false =>
      have hnone : T.entry d.owner = none := by cases T <;> first | rfl | cases hv
      rw [hnone]
      rfl

theorem localsCodes_check (hh : Houses d ctx r f) {vars : List Declarator} :
    ∀ {is : List Instr}, LocalsCodes ctx r f vars is → ∀ S, d.checks is S = some S := by
  induction vars with
  | nil =>
    rintro _ rfl S
    rfl
  | cons v vars ih =>
    rintro _ ⟨js, ks, hv, hrest, rfl⟩ S
    refine MethodDef.checks_trans ?_ (ih hrest S)
    cases hv with
    | bare hi => rfl
    | init hi hb hr hd ht hc =>
      obtain ⟨x, hx, -, hstore⟩ := place_checks hh hr ht (.slot hd)
      have hvalue := (codes_check hh hc).2
      rw [hx] at hvalue
      simpa [Place.store] using hstore _ false hvalue S

theorem returnCodes_check (hh : Houses d ctx r f) {m : Symbol} {T : Ty} {value : Option Expr}
    {is : List Instr} (hm : ctx.method = some m) (ht : r.type? m = some T)
    (h : ReturnCodes ctx r f T value is) : d.checks is [] = some d.returns.entry.toList := by
  have hasm := toAsm_of_symbolType ht (hh.returns hm)
  have hentry : T.entry d.owner = d.returns.entry :=
    Ty.entry_of_toAsm hasm (hh.type (hh.method hm) ht)
  cases value with
  | none =>
    obtain ⟨rfl, rfl⟩ := h
    rw [← hentry]
    rfl
  | some e =>
    have hcheck := (codes_check hh h).2 []
    rwa [hentry, List.append_nil] at hcheck

/-- A branch on a condition finds nothing but the condition. -/
theorem condition_verifies (hh : Houses d ctx r f) {cond : Expr} {is : List Instr}
    (h : Codes ctx r f cond .boolean is) (l : Label) :
    d.verify (is.map .instr ++ [.instr (.brfalse l)]) [] = some [] :=
  MethodDef.verify_trans ((codes_check hh h).2 []) rfl

mutual

/-- The code of a statement takes the empty stack to the empty stack. -/
theorem stmtCodes_verify (hh : Houses d ctx r f) : ∀ {stmt : Stmt} {n next : Nat}
    {items : List Item}, StmtCodes ctx r f n stmt items next → d.verify items [] = some []
  | .block body _, n, next, items, h => by
    rw [StmtCodes] at h
    exact stmtsCodes_verify hh h
  | .expr value _ _, n, next, items, h => by
    rw [StmtCodes] at h
    obtain ⟨is, hv, rfl, -⟩ := h
    exact valueCodes_check hh hv []
  | .locals vars, n, next, items, h => by
    rw [StmtCodes] at h
    obtain ⟨is, hv, rfl, -⟩ := h
    exact localsCodes_check hh hv []
  | .ifThen cond thenBody _, n, next, items, h => by
    rw [StmtCodes] at h
    obtain ⟨is, xs, hc, hthen, rfl⟩ := h
    have hcode := MethodDef.verify_trans (MethodDef.verify_trans
      (condition_verifies hh hc ⟨"END_IF", n⟩) (stmtCodes_verify hh hthen))
      (MethodDef.verify_label ⟨"END_IF", n⟩)
    simpa using hcode
  | .ifElse cond thenBody elseBody _, n, next, items, h => by
    rw [StmtCodes] at h
    obtain ⟨is, xs, ys, m, hc, hthen, helse, rfl⟩ := h
    have hfirst := MethodDef.verify_trans (MethodDef.verify_trans
      (condition_verifies hh hc ⟨"ELSE", n + 1⟩) (stmtCodes_verify hh hthen))
      (MethodDef.verify_br ⟨"END_IF", n⟩)
    have hsecond := MethodDef.verify_trans (MethodDef.verify_trans
      (MethodDef.verify_label ⟨"ELSE", n + 1⟩) (stmtCodes_verify hh helse))
      (MethodDef.verify_label ⟨"END_IF", n⟩)
    simpa using MethodDef.verify_trans hfirst hsecond
  | .loop cond body _, n, next, items, h => by
    rw [StmtCodes] at h
    obtain ⟨is, xs, hc, hbody, rfl⟩ := h
    have hfirst := MethodDef.verify_trans (MethodDef.verify_label ⟨"LOOP", n⟩)
      (condition_verifies hh hc ⟨"END_LOOP", n + 1⟩)
    have hsecond := MethodDef.verify_trans (MethodDef.verify_trans (stmtCodes_verify hh hbody)
      (MethodDef.verify_br ⟨"LOOP", n⟩)) (MethodDef.verify_label ⟨"END_LOOP", n + 1⟩)
    simpa using MethodDef.verify_trans hfirst hsecond
  | .ret value _, n, next, items, h => by
    rw [StmtCodes] at h
    obtain ⟨m, T, is, hm, ht, hv, rfl, -⟩ := h
    refine MethodDef.verify_trans (returnCodes_check hh hm ht hv) ?_
    simp [MethodDef.verify, Instr.check]
  | .empty _, n, next, items, h => by
    rw [StmtCodes] at h
    rw [h.1]
    rfl

theorem stmtsCodes_verify (hh : Houses d ctx r f) : ∀ {body : List Stmt} {n next : Nat}
    {items : List Item}, StmtsCodes ctx r f n body items next → d.verify items [] = some []
  | [], n, next, items, h => by
    rw [StmtsCodes] at h
    rw [h.1]
    rfl
  | s :: rest, n, next, items, h => by
    rw [StmtsCodes] at h
    obtain ⟨xs, ys, m, hs, hrest, rfl⟩ := h
    exact MethodDef.verify_trans (stmtCodes_verify hh hs) (stmtsCodes_verify hh hrest)

end

end

end Lowering

end ClassLang
