import ClassLang.Proofs.Actions
import ClassLang.Proofs.Mirrored
import ClassLang.Proofs.Overloads
import ClassLang.Proofs.Verified

/-! The entry point. Its mark is in one block, that of the method that the options choose, and this
method runs without `this` whatever its modifiers say: its code does not mention `this`, and no call
of it passes one. -/
namespace ClassLang

open Assembly Typing

namespace Lowering

def Emission.Holds (e part : Emission) : Prop :=
  ∀ is, e = .of is → ∃ js, part = .of js ∧ js <:+: is

namespace Emission.Holds

variable {a b part : Emission}

theorem refl (e : Emission) : e.Holds e := fun is h => ⟨is, h, List.infix_rfl⟩

theorem left (h : a.Holds part) : (a ++ b).Holds part := by
  intro is hab
  obtain ⟨js, ks, ha, -, rfl⟩ := append_eq_of_iff.mp hab
  obtain ⟨ls, hpart, hin⟩ := h js ha
  exact ⟨ls, hpart, hin.trans (List.prefix_append js ks).isInfix⟩

theorem right (h : b.Holds part) : (a ++ b).Holds part := by
  intro is hab
  obtain ⟨js, ks, -, hb, rfl⟩ := append_eq_of_iff.mp hab
  obtain ⟨ls, hpart, hin⟩ := h ks hb
  exact ⟨ls, hpart, hin.trans (List.suffix_append js ks).isInfix⟩

theorem fail (fault : Fault) : (Emission.fail fault).Holds part := fun _ h => by cases h

theorem need {α : Type} {value : Except Fault α} {rest : α → Emission}
    (h : ∀ a, (rest a).Holds part) : (Emission.need value rest).Holds part := by
  cases value with
  | ok a => exact h a
  | error fault => exact fail fault

end Emission.Holds

section Operands

variable {f : Frame} {part : Emission}

theorem Frame.store_holds (s : Symbol) {value : Emission} (keep : Bool) (h : value.Holds part) :
    (f.store s value keep).Holds part := by
  unfold store
  rcases s.details with _ | _ | ⟨type, index | index | ⟨_ | _, owner⟩⟩
  · exact .fail _
  · exact .fail _
  · exact h.left.left
  · exact h.left.left
  · exact .need fun _ => h.right.left
  · exact h.left.left

theorem Frame.assign_holds (target : Expr) {value : Emission} (keep : Bool) (h : value.Holds part) :
    (f.assign target value keep).Holds part := by
  unfold assign
  split
  · exact .need fun s => store_holds s keep h
  · exact .fail _

theorem Frame.invoke_holds (m : Symbol) {args : Emission} (h : args.Holds part) :
    (f.invoke m args).Holds part := by
  unfold invoke
  split
  · refine .need fun params => .need fun returns => ?_
    split
    · exact h.left
    · exact h.right.left
  · exact .fail _

mutual

theorem lowerExpr_holds (f : Frame) : ∀ e : Expr, ∀ x ∈ e.evaluated,
    (lowerExpr f e).Holds (lowerExpr f x)
  | .unary op operand note => by
    rw [Expr.evaluated, List.forall_mem_cons]
    refine ⟨.refl _, fun x hx => ?_⟩
    rw [lowerExpr]
    exact (lowerExpr_holds f operand x hx).left
  | .binary op left right note => by
    rw [Expr.evaluated, List.forall_mem_cons, List.forall_mem_append]
    refine ⟨.refl _, fun x hx => ?_, fun x hx => ?_⟩
    · rw [lowerExpr]
      exact (lowerExpr_holds f left x hx).left.left
    · rw [lowerExpr]
      exact (lowerExpr_holds f right x hx).right.left
  | .assign target value note => by
    rw [Expr.evaluated, List.forall_mem_cons]
    refine ⟨.refl _, fun x hx => ?_⟩
    rw [lowerExpr]
    exact Frame.assign_holds target true (lowerExpr_holds f value x hx)
  | .call callee args note => by
    rw [Expr.evaluated, List.forall_mem_cons]
    refine ⟨.refl _, fun x hx => ?_⟩
    cases callee with
    | name n _ =>
      rw [lowerExpr]
      exact .need fun m => Frame.invoke_holds m (lowerArgs_holds f args x hx)
    | _ =>
      simp only [lowerExpr]
      exact .fail _
  | .literal .. => by simpa [Expr.evaluated] using .refl _
  | .this .. => by simpa [Expr.evaluated] using .refl _
  | .name .. => by simpa [Expr.evaluated] using .refl _
  | .create .. => by simpa [Expr.evaluated] using .refl _
  | .field .. => by simpa [Expr.evaluated] using .refl _
  | .index .. => by simpa [Expr.evaluated] using .refl _

theorem lowerArgs_holds (f : Frame) : ∀ args : List Expr, ∀ x ∈ Expr.allEvaluated args,
    (lowerArgs f args).Holds (lowerExpr f x)
  | [] => by simp [Expr.allEvaluated]
  | e :: rest => by
    rw [Expr.allEvaluated, List.forall_mem_append, lowerArgs]
    exact ⟨fun x hx => (lowerExpr_holds f e x hx).left,
      fun x hx => (lowerArgs_holds f rest x hx).right⟩

end

end Operands

end Lowering

def Action.evaluated : Action → List Expr
  | .perform e | .use e => e.evaluated
  | .init v => v.init.elim [] Expr.evaluated

namespace Stmt

mutual

theorem evaluated_eq_flatMap : ∀ stmt : Stmt, stmt.evaluated = stmt.actions.flatMap Action.evaluated
  | .block body _ => by rw [evaluated, actions, allEvaluated_eq_flatMap body]
  | .expr value _ _ => by simp [evaluated, actions, Action.evaluated]
  | .locals d => by
    rw [evaluated, actions, List.flatMap_map]
    rfl
  | .ifThen cond thenBody _ => by
    rw [evaluated, actions, List.flatMap_cons, evaluated_eq_flatMap thenBody, Action.evaluated]
  | .ifElse cond thenBody elseBody _ => by
    rw [evaluated, actions, List.flatMap_cons, List.flatMap_append, evaluated_eq_flatMap thenBody,
      evaluated_eq_flatMap elseBody, Action.evaluated, List.append_assoc]
  | .loop cond body _ => by
    rw [evaluated, actions, List.flatMap_cons, evaluated_eq_flatMap body, Action.evaluated]
  | .ret value _ => by cases value <;> simp [evaluated, actions, Action.evaluated]
  | .empty _ => by simp [evaluated, actions]

theorem allEvaluated_eq_flatMap : ∀ body : List Stmt,
    allEvaluated body = (allActions body).flatMap Action.evaluated
  | [] => by simp [allEvaluated, allActions]
  | s :: rest => by
    rw [allEvaluated, allActions, List.flatMap_append, evaluated_eq_flatMap s,
      allEvaluated_eq_flatMap rest]

end

end Stmt

namespace Lowering

/-- An assignment that stands alone keeps no copy, so its code is not that of its value. -/
theorem lowerAction_holds {f : Frame} {a : Action} {x : Expr} (hx : x ∈ a.evaluated)
    (hn : x.shape ≠ .assign) : (lowerAction f a).Holds (lowerExpr f x) := by
  cases a with
  | use e => exact lowerExpr_holds f e x hx
  | perform e =>
    change (lowerValue f e).Holds _
    have hevaluated : x ∈ e.evaluated := hx
    cases e with
    | assign target value note =>
      rw [Expr.evaluated] at hevaluated
      rcases List.mem_cons.mp hevaluated with rfl | hmem
      · exact absurd rfl hn
      · exact Frame.assign_holds target false (lowerExpr_holds f value x hmem)
    | _ => exact (lowerExpr_holds f _ x hevaluated).left
  | init v =>
    change (lowerLocal f v).Holds _
    unfold lowerLocal
    cases hi : v.init with
    | none => simp [Action.evaluated, hi] at hx
    | some init =>
      rw [Action.evaluated, hi] at hx
      refine .need fun s => ?_
      split
      · exact (lowerExpr_holds f init x hx).left
      · exact .fail _

/-- The code of what a body evaluates stands in one piece in that of the body. -/
theorem Performs.infix_of_evaluated {f : Frame} {body : List Stmt} {items : List Item}
    (h : Performs f (Stmt.allActions body) items) {x : Expr} (hx : x ∈ Stmt.allEvaluated body)
    (hn : x.shape ≠ .assign) : ∃ is, lowerExpr f x = .of is ∧ is.map .instr <:+: items := by
  rw [Stmt.allEvaluated_eq_flatMap, List.mem_flatMap] at hx
  obtain ⟨a, ha, hx⟩ := hx
  obtain ⟨is, his, hin⟩ := h.infix_of_mem ha
  obtain ⟨js, hjs, hpart⟩ := lowerAction_holds hx hn is his
  exact ⟨js, hjs, (hpart.map _).trans hin⟩

/-- A call of a method that runs without `this` is its arguments and the call. -/
theorem lowerExpr_call {f : Frame} {n : DottedName} {nameNote note : Note} {args : List Expr}
    {s : Symbol} {ps : List TypeExpr} {ret : TypeExpr} {ms : List Modifier} {owner : List String}
    {js : List Instr} (hs : n.symbol = some s) (hd : s.details = .method ps ret ms owner none)
    (hst : runsStatic f.entry s = true)
    (h : lowerExpr f (.call (.name n nameNote) args note) = .of js) :
    ∃ is ref, lowerArgs f args = .of is ∧ js = is ++ [.call ref] ∧ ref.isStatic = true ∧
      ref.owner = owner ∧ ref.name = s.name := by
  rw [lowerExpr, symbolOf, hs] at h
  change f.invoke s (lowerArgs f args) = _ at h
  simp only [Frame.invoke, hd] at h
  obtain ⟨params, -, h⟩ := Emission.need_eq_of_iff.mp h
  obtain ⟨returns, -, h⟩ := Emission.need_eq_of_iff.mp h
  rw [hst, if_pos rfl] at h
  obtain ⟨is, ks, hargs, hcall, rfl⟩ := Emission.append_eq_of_iff.mp h
  cases hcall
  exact ⟨is, _, hargs, rfl, rfl, rfl, rfl⟩

section

variable {ctx : Context} {r : Resolutions} {f : Frame}

theorem PlaceOf.load_thisless {b : Symbol} {T : Ty} {p : Place} (hs : ctx.isStatic = true)
    (hp : PlaceOf ctx f b T p) : .ldthis ∉ p.load := by
  cases hp with
  | slot | argument | shared => simp [Place.load]
  | own _ _ hst => simp [hs] at hst

theorem PlaceOf.store_thisless {b : Symbol} {T : Ty} {p : Place} {is : List Instr} (keep : Bool)
    (hs : ctx.isStatic = true) (hp : PlaceOf ctx f b T p) (his : .ldthis ∉ is) :
    .ldthis ∉ p.store is keep := by
  cases hp with
  | slot | argument | shared => cases keep <;> simpa [Place.store] using his
  | own _ _ hst => simp [hs] at hst

theorem binaryCode_thisless {op : BinaryOp} {T : Ty} {is : List Instr}
    (h : binaryCode op T = .of is) : .ldthis ∉ is := by
  unfold binaryCode at h
  split at h
  · cases op <;> cases h <;> decide
  · cases h
    cases op <;> decide

theorem Codes.thisless (hs : ctx.isStatic = true) {e : Expr} {T : Ty} {is : List Instr}
    (h : Codes ctx r f e T is) : .ldthis ∉ is := by
  induction h with
  | @literal value => rcases value with _ | _ | (_ | _) | _ <;> simp [literalCode]
  | this hst => simp [hs] at hst
  | var _ _ _ hp => exact hp.load_thisless hs
  | declaration => simp
  | @unary op _ _ _ _ _ ih =>
    rw [List.mem_append, not_or]
    exact ⟨ih, by cases op <;> decide⟩
  | binary _ _ _ hc _ ihl ihr =>
    rw [List.mem_append, List.mem_append, not_or, not_or]
    exact ⟨⟨ihl, ihr⟩, binaryCode_thisless hc⟩
  | assign _ _ _ hp _ _ _ ih => exact hp.store_thisless true hs ih
  | call _ _ _ _ _ _ hc hl hlc _ _ ih =>
    rw [List.mem_append, List.mem_append, not_or, not_or, List.mem_flatten]
    refine ⟨⟨?_, ?_⟩, ?_⟩
    · cases hc with
      | own _ _ _ _ hst => simp [hs] at hst
      | _ => simp
    · rintro ⟨is, his, hmem⟩
      obtain ⟨e, T, hzip⟩ := exists_mem_zip_zip hl hlc his
      exact ih e T is hzip hmem
    · cases hc <;> simp
  | create => simp

theorem ActionCodes.thisless (hs : ctx.isStatic = true) {a : Action} {is : List Instr}
    (h : ActionCodes ctx r f a is) : .ldthis ∉ is := by
  cases h with
  | perform h =>
    cases h with
    | assign _ _ _ hp hv => exact hp.store_thisless false hs (hv.thisless hs)
    | other he =>
      rw [List.mem_append, not_or]
      exact ⟨he.thisless hs, by split <;> simp⟩
  | init h =>
    cases h with
    | bare => simp
    | init _ _ _ _ _ hc =>
      rw [List.mem_append, not_or]
      exact ⟨hc.thisless hs, by simp⟩
  | use h => exact h.thisless hs

end

end Lowering

def Method.number? (m : Method) : Option Nat := m.symbol.map fun s => s.id.number

def EntryChoice.picks (choice : EntryChoice) (c : ClassDecl) (x : List String × Method) : Bool :=
  x.1 == [c.head.name.text] && choice.accepts x.2

namespace Member

mutual

theorem length_of_methods : ∀ (path : List String) (m : Member),
    ∀ x ∈ Decl.methods (m.decls path), path.length ≤ x.1.length
  | path, .method m => by simp [decls, Decl.methods]
  | path, .field d => by simp [decls, Decl.methods]
  | path, .nested head members => by
    intro x hx
    have hlength := length_of_allMethods (path ++ [head.name.text]) members x
      (by rw [decls] at hx; exact hx)
    rw [List.length_append] at hlength
    exact Nat.le_of_add_right_le hlength

theorem length_of_allMethods : ∀ (path : List String) (ms : List Member),
    ∀ x ∈ Decl.methods (allDecls path ms), path.length ≤ x.1.length
  | path, [] => by simp [allDecls, Decl.methods]
  | path, m :: rest => by
    rw [allDecls, Decl.methods_append, List.forall_mem_append]
    exact ⟨length_of_methods path m, length_of_allMethods path rest⟩

end

end Member

/-- Methods of nested classes have longer paths, so the search passes over them. -/
theorem EntryChoice.find?_allDecls (choice : EntryChoice) (path : List String) (ms : List Member) :
    (Decl.methods (Member.allDecls path ms)).find? (fun x => x.1 == path && choice.accepts x.2) =
      (choice.first? ms).map (path, ·) := by
  induction ms with
  | nil => rfl
  | cons member ms ih =>
    rw [Member.allDecls, Decl.methods_append, List.find?_append, ih]
    cases member with
    | method m =>
      rw [Member.decls]
      change ((([(path, m)] : List (List String × Method)).find? _).or _) = _
      by_cases ha : choice.accepts m = true
      · simp [EntryChoice.first?, ha]
      · simp [EntryChoice.first?, ha]
    | field d =>
      rw [Member.decls, EntryChoice.first?]
      · rfl
      · simp
    | nested head members =>
      have hnone : (Decl.methods ((Member.nested head members).decls path)).find?
          (fun x => x.1 == path && choice.accepts x.2) = none := by
        rw [List.find?_eq_none]
        intro x hx hpick
        have hlength := Member.length_of_allMethods (path ++ [head.name.text]) members x
          (by rw [Member.decls] at hx; exact hx)
        rw [Bool.and_eq_true, beq_iff_eq] at hpick
        rw [hpick.1, List.length_append, List.length_singleton] at hlength
        omega
      rw [hnone, EntryChoice.first?]
      · rfl
      · simp

theorem EntryChoice.resolve_eq_find? (choice : EntryChoice) (c : ClassDecl) :
    choice.resolve c =
      ((Decl.methods (c.decls [])).find? (choice.picks c)).bind fun x => x.2.number? := by
  have hfind : (Decl.methods (c.decls [])).find? (choice.picks c) =
      (choice.first? c.members).map ([c.head.name.text], ·) :=
    choice.find?_allDecls [c.head.name.text] c.members
  rw [hfind, Option.bind_map]
  rfl

theorem EntryChoice.resolve_of_findIdx? (choice : EntryChoice) {c : ClassDecl} {i : Nat}
    (h : (Decl.methods (c.decls [])).findIdx? (choice.picks c) = some i) :
    ∃ x, (Decl.methods (c.decls []))[i]? = some x ∧ choice.resolve c = x.2.number? := by
  obtain ⟨hlt, hpicked, hbefore⟩ := List.findIdx?_eq_some_iff_getElem.mp h
  have hfind : (Decl.methods (c.decls [])).find? (choice.picks c) =
      some (Decl.methods (c.decls []))[i] :=
    List.find?_eq_some_iff_getElem.mpr
      ⟨hpicked, i, hlt, rfl, fun j hj => by simpa using hbefore j hj⟩
  exact ⟨_, List.getElem?_eq_getElem hlt, by rw [resolve_eq_find?, hfind]; rfl⟩

theorem EntryChoice.map_picks (choice : EntryChoice) {c c' : ClassDecl} {ds es : List Decl}
    (hname : c.head.name.text = c'.head.name.text) (h : Decl.outlines ds = Decl.outlines es) :
    (Decl.methods ds).map (choice.picks c) = (Decl.methods es).map (choice.picks c') := by
  have haccepts : ∀ m : Method, choice.accepts m.outline.1 = choice.accepts m := by
    intro m
    cases choice <;> rfl
  have hpicks : ∀ (b : ClassDecl) (bs : List Decl), (Decl.methods bs).map (choice.picks b) =
      (Decl.outlines bs).map fun y => y.1 == [b.head.name.text] && choice.accepts y.2.1 := by
    intro b bs
    simp only [Decl.outlines, List.map_map, Function.comp_def, haccepts]
    rfl
  rw [hpicks, hpicks, h, hname]

namespace Assembly.MethodDef

theorem count_lines (d : MethodDef) (isEntry : Bool) (maxStack : Nat) :
    (d.lines isEntry maxStack).count .entryPoint = if isEntry then 1 else 0 := by
  have hcode : (d.code.map Lowering.Item.line).count .entryPoint = 0 := by
    rw [List.count_eq_zero, List.mem_map]
    rintro ⟨item, -, hitem⟩
    exact Lowering.line_ne_entryPoint item hitem
  have hlocals : (localsLines d.locals).count .entryPoint = 0 := by
    unfold localsLines
    split <;> simp
  rw [lines, List.count_append, List.count_append, List.count_append, hcode, hlocals]
  cases isEntry <;> simp

theorem instr_mem_of_lines {d : MethodDef} {isEntry : Bool} {maxStack : Nat} {i : Instr}
    (h : .instr i ∈ d.lines isEntry maxStack) : .instr i ∈ d.code := by
  simp only [lines, List.mem_append] at h
  rcases h with ((h | h) | h) | h
  · cases isEntry <;> simp at h
  · simp at h
  · unfold localsLines at h
    split at h <;> simp at h
  · obtain ⟨item, hitem, heq⟩ := List.mem_map.mp h
    cases item with
    | instr j =>
      cases heq
      exact hitem
    | label l => cases heq

theorem infix_lines {d : MethodDef} {items : List Lowering.Item} (h : items <:+: d.code)
    (isEntry : Bool) (maxStack : Nat) :
    items.map Lowering.Item.line <:+: d.lines isEntry maxStack :=
  (h.map _).trans (List.suffix_append _ _).isInfix

end Assembly.MethodDef

namespace Lowering

/-- There are as many marks as there are methods with the number of the entry point. -/
theorem count_marks {t : Target} {xs : List (List String × Method)} {bs : List MethodBlock}
    (h : List.Forall₂ (EmitsBlock t) xs bs) :
    (bs.flatMap MethodBlock.lines).count .entryPoint =
      (xs.map fun x => x.2.number?).count t.entry := by
  induction h with
  | nil => rfl
  | @cons x b xs bs hb _ ih =>
    cases hb with
    | @intro path m s d hs hd =>
      rw [List.flatMap_cons, List.count_append, List.map_cons, List.count_cons, ih,
        MethodDef.count_lines, Nat.add_comm, Method.number?, hs, Option.map_some, BEq.comm]

end Lowering

namespace Accepted

variable {t : Table} {target : Lowering.Target} {ds : List Decl} {img : Image}
  {path : List String} {m : Method} {s : Symbol}

theorem number_ne_none (h : Accepted t target ds img) :
    none ∉ (Decl.methods ds).map fun x => x.2.number? := by
  intro hnone
  obtain ⟨⟨path, m⟩, hx, hm⟩ := List.mem_map.mp hnone
  exact (h.filled (Decl.mem_methods.mp hx)).1 (Option.map_eq_none_iff.mp hm)

theorem isSome_number (h : Accepted t target ds img) (p : List String × Method → Bool) :
    (((Decl.methods ds).find? p).bind fun x => x.2.number?).isSome = (Decl.methods ds).any p := by
  rw [← List.isSome_find?]
  cases hfind : (Decl.methods ds).find? p with
  | none => rfl
  | some x =>
    have hx := Decl.mem_methods.mp (List.mem_of_find?_eq_some hfind)
    obtain ⟨b, hb⟩ := Option.ne_none_iff_exists'.mp (h.filled hx).1
    rw [Option.bind_some, Method.number?, hb]
    rfl

theorem nodup_numbers (h : Accepted t target ds img) :
    ((Decl.methods ds).map fun x => x.2.number?).Nodup := by
  have hordered := List.pairwise_filterMap.mp
    (h.declares.ordered.sublist (Decl.methodSymbols_sublist ds))
  rw [List.Nodup, List.pairwise_map]
  refine hordered.imp_of_mem fun {x y} hx _ hlt heq => ?_
  obtain ⟨b, hb⟩ := Option.ne_none_iff_exists'.mp (h.filled (Decl.mem_methods.mp hx)).1
  rw [Method.number?, Method.number?, hb, Eq.comm, Option.map_some, Option.map_eq_some_iff] at heq
  obtain ⟨c, hc, hnumber⟩ := heq
  exact absurd (hlt b hb c hc) (by omega)

theorem count_entry (h : Accepted t target ds img)
    (he : ∀ n, target.entry = some n → ∃ x ∈ Decl.methods ds, x.2.number? = some n) :
    ((Decl.methods ds).map fun x => x.2.number?).count target.entry =
      if target.entry.isSome then 1 else 0 := by
  cases hentry : target.entry with
  | none => exact List.count_eq_zero.mpr h.number_ne_none
  | some n =>
    obtain ⟨x, hx, hn⟩ := he n hentry
    exact List.count_eq_one_of_mem h.nodup_numbers (List.mem_map.mpr ⟨x, hx, hn⟩)

theorem thisless (h : Accepted t target ds img) {d : MethodDef}
    (hd : Compiled t target (path, m) d) (hst : d.isStatic = true) : .instr .ldthis ∉ d.code := by
  obtain ⟨b, k, items, -, -, hb, hcode, hperforms, hcodes⟩ := hd.performs h.writable
  have hstatic : Context.isStatic ⟨t, k, some b, target.entry⟩ = true := hb.symm.trans hst
  rw [hcode, List.mem_append, not_or]
  refine ⟨fun hmem => ?_, by simp⟩
  rcases hperforms.cases_of_mem hmem with hcontrol | ⟨a, ha, is, his, hthis⟩
  · cases hcontrol
  · exact (hcodes a ha is his).thisless hstatic hthis

end Accepted

/-- In this block, the code of every call of the method of a class is that of the arguments and the
call itself, which says that there is no `this`. -/
def CallsBare (r : Resolutions) (owner : List String) (s : Symbol) (x : List String × Method)
    (b : MethodBlock) : Prop :=
  ∀ n nameNote args note,
    Expr.call (.name n nameNote) args note ∈ Stmt.allEvaluated (x.2.body.getD []) →
    n.symbol = some s → ∃ is ref,
      Lowering.lowerArgs ⟨r, some s.id.number, !b.isStatic⟩ args = .of is ∧
      Lowering.lowerExpr ⟨r, some s.id.number, !b.isStatic⟩ (.call (.name n nameNote) args note) =
        .of (is ++ [.call ref]) ∧
      ref.isStatic = true ∧ ref.owner = owner ∧ ref.name = s.name ∧
      (is ++ [Instr.call ref]).map Line.instr <:+: b.lines

/-- The block of the method that starts a program, at its place among the methods. -/
structure IsEntryBlock (r : Resolutions) (ds : List Decl) (img : Image) (bs : List MethodBlock)
    (i : Nat) (b : MethodBlock) : Prop where
  marked : .entryPoint ∈ b.lines
  static : b.isStatic = true
  thisless : .instr .ldthis ∉ b.lines
  calls : ∃ x s, (Decl.methods ds)[i]? = some x ∧ x.2.symbol = some s ∧
    List.Forall₂ (CallsBare r b.owner s) (Decl.methods ds) bs
  references : ∃ d, img.methods[i]? = some d ∧ d.owner = b.owner ∧ d.name = b.name ∧
    ∀ body ∈ img.bodies, ∀ ref, .instr (.call ref) ∈ body.code → d.answers ref = true →
      ref.isStatic = true

namespace Accepted

variable {t : Table} {target : Lowering.Target} {ds : List Decl} {img : Image}
  {path : List String} {m : Method} {s : Symbol}

theorem callsBare (h : Accepted t target ds img) (hm : .method path m ∈ ds)
    (hs : m.symbol = some s) (he : target.entry = some s.id.number) {x : List String × Method}
    {b : MethodBlock} (hx : x ∈ Decl.methods ds) (hb : Lowering.EmitsBlock target x b) :
    CallsBare target.resolutions path s x b := by
  intro n nameNote args note hcall hn
  obtain ⟨-, -, hdet, -⟩ := method_declared h.declares hm hs
  cases hb with
  | @intro _ _ c d hc hd =>
    obtain ⟨_, _, items, -, -, -, hcode, hperforms, -⟩ := (h.compiled hx hd).performs h.writable
    obtain ⟨js, hjs, hin⟩ := hperforms.infix_of_evaluated hcall (by simp [Expr.shape])
    have hframe : target.frame (!d.isStatic) =
        ⟨target.resolutions, some s.id.number, !d.isStatic⟩ := by
      rw [Lowering.Target.frame, he]
    rw [hframe] at hjs
    obtain ⟨is, ref, hargs, rfl, hst, howner, hname⟩ :=
      Lowering.lowerExpr_call hn hdet (by simp [runsStatic]) hjs
    refine ⟨is, ref, hargs, hjs, hst, howner, hname, ?_⟩
    have hline : (is ++ [Instr.call ref]).map Line.instr =
        ((is ++ [Instr.call ref]).map Lowering.Item.instr).map Lowering.Item.line := by
      rw [List.map_map]
      rfl
    rw [hline]
    refine MethodDef.infix_lines ?_ _ _
    rw [hcode]
    exact hin.trans (List.prefix_append _ _).isInfix

theorem references_static (h : Accepted t target ds img) {d : MethodDef} (hd : d ∈ img.methods)
    (hst : d.isStatic = true) {body : MethodDef} (hbody : body ∈ img.bodies) {ref : MethodRef}
    (hr : .instr (.call ref) ∈ body.code) (ha : d.answers ref = true) : ref.isStatic = true := by
  obtain ⟨d', hone, -, hsame⟩ := h.links.call body hbody ref hr
  have hmem : d ∈ img.methods.filter (·.answers ref) := List.mem_filter.mpr ⟨hd, ha⟩
  rw [hone, List.mem_singleton] at hmem
  rw [← hsame, ← hmem, hst]

theorem isEntryBlock (h : Accepted t target ds img) {bs : List MethodBlock}
    (hbs : List.Forall₂ (Lowering.EmitsBlock target) (Decl.methods ds) bs) {i : Nat}
    {x : List String × Method} (hx : (Decl.methods ds)[i]? = some x)
    (he : target.entry = x.2.number?) :
    ∃ b, bs[i]? = some b ∧ IsEntryBlock target.resolutions ds img bs i b := by
  have hmem := List.mem_of_getElem? hx
  obtain ⟨b, hb, hblock⟩ := Lowering.forall₂_getElem? hbs hx
  obtain ⟨d, hd, hemits⟩ := Lowering.forall₂_getElem? h.emits.methods hx
  refine ⟨b, hb, ?_⟩
  cases hblock with
  | @intro path m s d' hs hd' =>
    rw [Method.number?, hs, Option.map_some] at he
    have hstatic : ∀ {d : MethodDef}, Lowering.EmitsMethod target (path, m) d →
        d.isStatic = true ∧ d.owner = path ∧ d.name = s.name := by
      intro d hd
      cases hd with
      | intro hs' =>
        obtain rfl := Option.some.inj (hs.symm.trans hs')
        exact ⟨by simp [runsStatic, he], rfl, rfl⟩
    obtain ⟨hst, howner, hname⟩ := hstatic hemits
    obtain ⟨hst', -, hname'⟩ := hstatic hd'
    constructor
    · simp [MethodDef.lines, he]
    · exact hst'
    · exact fun hthis => h.thisless (h.compiled hmem hd') hst' (MethodDef.instr_mem_of_lines hthis)
    · exact ⟨_, s, hx, hs, Lowering.forall₂_imp_of_mem hbs fun y b hy hb =>
        h.callsBare (Decl.mem_methods.mp hmem) hs he hy hb⟩
    · exact ⟨d, hd, howner, hname.trans hname'.symm, fun body hbody ref hr ha =>
        h.references_static (List.mem_of_getElem? hd) hst hbody hr ha⟩

/-- The lines before the class hold no mark, and outside of methods there is none in it. -/
theorem count_entryPoint (h : Accepted t target ds img) {options : Options} {plans : List Plan}
    {top : LineTree} (hshows : Lowering.Shows target [] plans (Decl.methods ds) [top])
    (he : ∀ n, target.entry = some n → ∃ x ∈ Decl.methods ds, x.2.number? = some n) :
    ((LineTree.allPlaced 0 (Lowering.preamble options ++ [top])).map Placed.line).count
      .entryPoint = if target.entry.isSome then 1 else 0 := by
  have hpreamble : ((LineTree.allPlaced 0 (Lowering.preamble options)).map Placed.line).count
      .entryPoint = 0 := by
    simp [Lowering.preamble, LineTree.allPlaced, LineTree.placed]
  rw [LineTree.allPlaced_append, List.map_append, List.count_append, hpreamble, Nat.zero_add,
    hshows.entries, Lowering.count_marks hshows.methods, h.count_entry he]

end Accepted

/-- Exactly one entry point. Each method has its block. One of them is marked if the options accept
some method of the top-level class, and none otherwise. The mark is in the block of the first method
accepted, and that method runs without `this`. -/
theorem entry_point_unique {u : CompilationUnit} {options : Options} {listing : Listing}
    (hf : u.isFresh = true) (hc : (compile u options).result = .ok (some listing)) :
    ∃ c top, u.top = some c ∧ blocks listing.lines = some (Lowering.preamble options ++ [top]) ∧
      List.Forall₂ (fun x b => b.owner = x.1 ∧ b.name = x.2.name.text) (Decl.methods u.decls)
        (top.methodBlocks []) ∧
      (listing.lines.map Placed.line).count .entryPoint =
        (if (Decl.methods u.decls).any (options.entry.picks c) then 1 else 0) ∧
      ∀ i, (Decl.methods u.decls).findIdx? (options.entry.picks c) = some i →
        ∃ b, (top.methodBlocks [])[i]? = some b ∧
          IsEntryBlock (compile u options).resolutions (compile u options).unit.decls
            listing.image (top.methodBlocks []) i b := by
  obtain ⟨t, c', top, htop, ha, hlines, hblocks, hshows⟩ := accepted_shows hf hc
  obtain ⟨c, hsource, hplan⟩ := plan_of_compile htop
  have hname : c'.head.name.text = c.head.name.text := by injection hplan
  have houtlines := outlines_of_compile u options
  have hpicks := options.entry.map_picks hname houtlines
  have hmethods := hshows.methods
  simp only [LineTree.allMethodBlocks, List.append_nil] at hmethods
  have hdecls : (compile u options).unit.decls = c'.decls [] := by
    rw [CompilationUnit.decls, htop, Option.elim_some]
  rw [hdecls] at ha hshows houtlines hpicks hmethods ⊢
  have hentry := options.entry.resolve_eq_find? c'
  refine ⟨c, top, hsource, hblocks, ?_, ?_, fun i hi => ?_⟩
  · refine Lowering.forall₂_trans ?_ (methods_of_outlines houtlines.symm)
      (Lowering.forall₂_imp_of_mem hmethods fun x b hx hb => ha.head_of_block hx hb)
    rintro x y b ⟨hpath, houtline⟩ ⟨howner, hbname⟩
    have hsame : x.2.name = y.2.name := congrArg (fun o => o.1.name) houtline
    exact ⟨howner.trans hpath.symm, by rw [hbname, hsame]⟩
  · have hany := congrArg (fun picked => picked.any id) hpicks
    simp only [List.any_map, Function.id_comp] at hany
    rw [hlines, ha.count_entryPoint hshows ?_, ← hany, ← ha.isSome_number, ← hentry]
    intro n hn
    obtain ⟨x, hx, hnumber⟩ := Option.bind_eq_some_iff.mp (hentry.symm.trans hn)
    exact ⟨x, List.mem_of_find?_eq_some hx, hnumber⟩
  · -- The search finds the same place in the unit as written and as annotated.
    have hindex := congrArg (fun picked => picked.findIdx? id) hpicks
    simp only [List.findIdx?_map, Function.id_comp] at hindex
    obtain ⟨x, hx, hnumber⟩ := options.entry.resolve_of_findIdx? (hindex.trans hi)
    exact ha.isEntryBlock hmethods hx hnumber

namespace Sample

/-- A method of objects is to start the program. Others have its name, and some call it. -/
def starts : CompilationUnit :=
  ⟨some ⟨⟨.plain "Starts", [], none, [], none⟩,
    [.nested ⟨.plain "Inner", [], none, [], none⟩
       [method [.static] (word .int) "start" [(word .string, "s")] [ret (num 2)]],
     method [] (word .int) "again" [(word .int, "n")]
       [ret (bin .add (call "start" [str "a"]) (ref "n"))],
     method [] (word .int) "start" [(word .string, "s")] [ret (num 1)],
     method [.static] (word .int) "start" [(word .int, "n")] [ret (call "start" [str "b"])]]⟩⟩

def startNamed : Options := { Options.default with entry := .named "start" }

end Sample

theorem entry_point_unique_sample : Sample.starts.isFresh = true ∧ ∃ listing,
    (compile Sample.starts Sample.startNamed).result = .ok (some listing) ∧
    (Decl.methods Sample.starts.decls).map
        (fun x => (x.1, x.2.name.text, Modifier.isStatic x.2.modifiers)) =
      [(["Starts", "Inner"], "start", true), (["Starts"], "again", false),
       (["Starts"], "start", false), (["Starts"], "start", true)] ∧
    (Decl.methods (compile Sample.starts Sample.startNamed).unit.decls).map (fun x =>
        (x.2.number?, (Stmt.allEvaluated (x.2.body.getD [])).filterMap fun e =>
          e.callee?.map fun s => s.id.number)) =
      [(some 7, []), (some 9, [11]), (some 11, []), (some 13, [11])] ∧
    (listing.lines.map Placed.line).count .entryPoint = 1 ∧
    ∃ top b, blocks listing.lines = some (Lowering.preamble Sample.startNamed ++ [top]) ∧
      (top.methodBlocks [])[2]? = some b ∧
      IsEntryBlock (compile Sample.starts Sample.startNamed).resolutions
        (compile Sample.starts Sample.startNamed).unit.decls listing.image
        (top.methodBlocks []) 2 b := by
  have hf : Sample.starts.isFresh = true := by decide
  have hsome : (compile Sample.starts Sample.startNamed).assembly.isSome = true := by
    decide +kernel
  obtain ⟨listing, hl⟩ := Option.isSome_iff_exists.mp hsome
  have hc := Compilation.result_of_assembly hl
  obtain ⟨c, top, htop, hblocks, -, hcount, hentry⟩ := entry_point_unique hf hc
  cases htop
  obtain ⟨b, hb, hblock⟩ := hentry 2 (by decide)
  refine ⟨hf, listing, hc, by decide, by decide +kernel, ?_, top, b, hblocks, hb, hblock⟩
  rw [hcount]
  decide

end ClassLang
