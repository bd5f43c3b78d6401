import ClassLang.Proofs.Verifier

/-! The code of an accepted unit is verified: that of its methods, and in them that of every
statement and of every expression on its own. -/
namespace ClassLang

open Assembly Typing

namespace Expr

mutual

/-- An expression and the operands in it, other than the targets of assignments and calls. -/
def evaluated : Expr → List Expr
  | .unary op operand note => .unary op operand note :: operand.evaluated
  | .binary op left right note => .binary op left right note :: (left.evaluated ++ right.evaluated)
  | .assign target value note => .assign target value note :: value.evaluated
  | .call callee args note => .call callee args note :: allEvaluated args
  | e => [e]

def allEvaluated : List Expr → List Expr
  | [] => []
  | e :: rest => e.evaluated ++ allEvaluated rest

end

end Expr

namespace Stmt

mutual

def evaluated : Stmt → List Expr
  | .block body _ => allEvaluated body
  | .expr value _ _ => value.evaluated
  | .locals d => d.vars.flatMap fun v => v.init.elim [] Expr.evaluated
  | .ifThen cond thenBody _ => cond.evaluated ++ thenBody.evaluated
  | .ifElse cond thenBody elseBody _ => cond.evaluated ++ thenBody.evaluated ++ elseBody.evaluated
  | .loop cond body _ => cond.evaluated ++ body.evaluated
  | .ret value _ => value.elim [] Expr.evaluated
  | .empty _ => []

def allEvaluated : List Stmt → List Expr
  | [] => []
  | s :: rest => s.evaluated ++ allEvaluated rest

end

end Stmt

namespace Typing

variable {ctx : Context} {r : Resolutions}

theorem allEvaluated_mem {args : List Expr} {x : Expr} (h : x ∈ Expr.allEvaluated args) :
    ∃ e ∈ args, x ∈ e.evaluated := by
  induction args with
  | nil => simp [Expr.allEvaluated] at h
  | cons e args ih =>
    rw [Expr.allEvaluated, List.mem_append] at h
    rcases h with h | h
    · exact ⟨e, List.mem_cons_self, h⟩
    · obtain ⟨e', he', hx⟩ := ih h
      exact ⟨e', List.mem_cons_of_mem _ he', hx⟩

theorem HasType.evaluated {e : Expr} {T : Ty} (h : HasType ctx r e T) :
    ∀ x ∈ e.evaluated, ∃ U, HasType ctx r x U := by
  induction h with
  | unary ho hn ih =>
    rw [Expr.evaluated, List.forall_mem_cons]
    exact ⟨⟨_, .unary ho hn⟩, ih⟩
  | binary hl hr ha hn ihl ihr =>
    rw [Expr.evaluated, List.forall_mem_cons, List.forall_mem_append]
    exact ⟨⟨_, .binary hl hr ha hn⟩, ihl, ihr⟩
  | assign ht hv hi hn _ ihv =>
    rw [Expr.evaluated, List.forall_mem_cons]
    exact ⟨⟨_, .assign ht hv hi hn⟩, ihv⟩
  | @call n nameNote args note m params T hm hr hk hp ht hc ho hl ha hn ih =>
    rw [Expr.evaluated, List.forall_mem_cons]
    refine ⟨⟨_, .call hm hr hk hp ht hc ho hl ha hn⟩, fun x hx => ?_⟩
    obtain ⟨e, he, hxe⟩ := allEvaluated_mem hx
    have hfst : (args.zip params).map Prod.fst = args := List.map_fst_zip (Nat.le_of_eq hl)
    rw [← hfst] at he
    obtain ⟨⟨e, U⟩, hmem, rfl⟩ := List.mem_map.mp he
    exact ih e U hmem x hxe
  | literal hn => simpa [Expr.evaluated] using ⟨_, .literal hn⟩
  | this hs hn => simpa [Expr.evaluated] using ⟨_, .this hs hn⟩
  | var hb hr hk hp ht hn => simpa [Expr.evaluated] using ⟨_, .var hb hr hk hp ht hn⟩
  | declaration hb hk hn => simpa [Expr.evaluated] using ⟨_, .declaration hb hk hn⟩
  | create hc hb hd hs hn => simpa [Expr.evaluated] using ⟨_, .create hc hb hd hs hn⟩

mutual

theorem StmtChecked.evaluated : ∀ {stmt : Stmt}, StmtChecked ctx r stmt →
    ∀ x ∈ stmt.evaluated, ∃ U, HasType ctx r x U
  | .block body _, h => by
    rw [StmtChecked] at h
    rw [Stmt.evaluated]
    exact StmtsChecked.evaluated h
  | .expr value _ _, h => by
    rw [StmtChecked] at h
    obtain ⟨T, hT⟩ := h
    rw [Stmt.evaluated]
    exact hT.evaluated
  | .locals d, h => by
    rw [StmtChecked] at h
    intro x hx
    rw [Stmt.evaluated, List.mem_flatMap] at hx
    obtain ⟨v, hv, hx⟩ := hx
    obtain ⟨-, T, -, -, -, -, hinit⟩ := h v hv
    cases hi : v.init with
    | none => simp [hi] at hx
    | some init =>
      rw [hi] at hx
      exact (hinit init hi).evaluated x hx
  | .ifThen cond thenBody _, h => by
    rw [StmtChecked] at h
    rw [Stmt.evaluated, List.forall_mem_append]
    exact ⟨h.1.evaluated, StmtChecked.evaluated h.2⟩
  | .ifElse cond thenBody elseBody _, h => by
    rw [StmtChecked] at h
    rw [Stmt.evaluated, List.forall_mem_append, List.forall_mem_append]
    exact ⟨⟨h.1.evaluated, StmtChecked.evaluated h.2.1⟩, StmtChecked.evaluated h.2.2⟩
  | .loop cond body _, h => by
    rw [StmtChecked] at h
    rw [Stmt.evaluated, List.forall_mem_append]
    exact ⟨h.1.evaluated, StmtChecked.evaluated h.2⟩
  | .ret value _, h => by
    rw [StmtChecked] at h
    obtain ⟨m, T, -, -, hv⟩ := h
    rw [Stmt.evaluated]
    cases value with
    | none => simp
    | some e => exact HasType.evaluated hv
  | .empty _, _ => by simp [Stmt.evaluated]

theorem StmtsChecked.evaluated : ∀ {body : List Stmt}, StmtsChecked ctx r body →
    ∀ x ∈ Stmt.allEvaluated body, ∃ U, HasType ctx r x U
  | [], _ => by simp [Stmt.allEvaluated]
  | _ :: _, h => by
    rw [StmtsChecked] at h
    rw [Stmt.allEvaluated, List.forall_mem_append]
    exact ⟨StmtChecked.evaluated h.1, StmtsChecked.evaluated h.2⟩

end

theorem StmtChecked.parts {stmt : Stmt} (h : StmtChecked ctx r stmt) :
    ∀ p ∈ stmt.parts, StmtChecked ctx r p := by
  rw [Stmt.parts_eq, List.forall_mem_cons, Stmt.allParts_eq]
  refine ⟨h, fun p hp => ?_⟩
  obtain ⟨x, hx, hp⟩ := List.mem_flatMap.mp hp
  exact StmtChecked.parts (stmtsChecked_iff.mp (stmtChecked_iff.mp h).2 x hx) p hp
termination_by sizeOf stmt
decreasing_by exact Stmt.sizeOf_bodies hx

theorem StmtsChecked.parts {body : List Stmt} (h : StmtsChecked ctx r body) :
    ∀ p ∈ Stmt.allParts body, StmtChecked ctx r p := by
  rw [Stmt.allParts_eq]
  intro p hp
  obtain ⟨x, hx, hp⟩ := List.mem_flatMap.mp hp
  exact (stmtsChecked_iff.mp h x hx).parts p hp

end Typing

/-- A method is verified in every part: its body, the statements in it, which start and end with an
empty stack, and the expressions in it, which add their value to any stack. -/
structure Verified (f : Lowering.Frame) (m : Method) (d : MethodDef) : Prop where
  returns : ∃ b T, m.symbol = some b ∧ f.resolutions.type? b = some T ∧ T.toAsm = .ok d.returns
  code : ∃ n next items, Lowering.lowerStmts f (m.body.getD []) n = ⟨items, next, none⟩ ∧
    d.code = items ++ [.instr .ret] ∧ d.verify items [] = some []
  end_ : d.returns = .void → d.verify d.code [] = some []
  stmt : ∀ s ∈ Stmt.allParts (m.body.getD []), ∀ n, ∃ items next,
    Lowering.lowerStmt f s n = ⟨items, next, none⟩ ∧ d.verify items [] = some []
  expr : ∀ e ∈ Stmt.allEvaluated (m.body.getD []), ∃ T is,
    e.type = some T ∧ Lowering.lowerExpr f e = .of is ∧
      if T.isValue then ∃ x, T.entry d.owner = some x ∧ ∀ S, d.checks is S = some (x :: S)
      else ∀ S, d.checks is S = some S

namespace Accepted

variable {t : Table} {target : Lowering.Target} {ds : List Decl} {img : Image}

/-- A variable of a body that is reached from a body is one of its own. -/
theorem declaredIn_of_reached (h : Accepted t target ds img) {k : ScopeId} {b : Symbol}
    {type : TypeExpr} {storage : Storage} (hr : t.Reached k b) (hd : b.details = .var type storage)
    (hs : ∀ st owner, storage ≠ .field st owner) : b.declaredIn = k := by
  refine hr.2.resolve_right fun hno => hno ?_
  have hfits := h.declares.sound.fits b hr.1
  unfold Table.Fits at hfits
  cases storage with
  | slot index => simp only [hd] at hfits; exact hfits.2
  | param index => simp only [hd] at hfits; exact hfits.2
  | field st owner => exact absurd rfl (hs st owner)

theorem houses (h : Accepted t target ds img) (hv : ∀ d ∈ ds, d.isVoidFree = true)
    (hn : ∀ d ∈ ds, d.isNarrow = true) {path : List String} {m : Method} {b : Symbol} {k : ScopeId}
    {d : MethodDef} {body : List Stmt} {found : List (UInt16 × Symbol)}
    (hm : .method path m ∈ ds) (hb : m.symbol = some b) (hk : b.scope = some k)
    (howner : d.owner = path) (hstatic : d.isStatic = runsStatic target.entry b)
    (hr : Lowering.symbolType target.resolutions b = .ok d.returns)
    (hp : target.paramEntries m.params = .ok d.params) (hbody : m.body = some body)
    (hf : Lowering.gatherAllLocals body [] = .ok found)
    (hl : target.localEntries found = .ok d.locals) :
    Lowering.Houses d ⟨t, k, some b, target.entry⟩ target.resolutions
      (target.frame !runsStatic target.entry b) := by
  obtain ⟨hbound, -, hdet, -⟩ := method_declared h.declares hm hb
  constructor
  · rw [hstatic]
    rfl
  · rw [hstatic]
    rfl
  · intro p hpath
    have howns : b.methodOwner? = some p := hpath
    rw [Symbol.methodOwner?, hdet] at howns
    rw [howner]
    exact Option.some.inj howns
  · intro c type index hreach hd
    have hin := h.declaredIn_of_reached hreach hd (by simp)
    obtain ⟨a, he, ha⟩ := h.local_entry hm (hn _ hm) hb hk hbody hf hl hreach.1 hin hd
    exact ⟨_, he, ha⟩
  · intro c type index hreach hd
    have hin := h.declaredIn_of_reached hreach hd (by simp)
    obtain ⟨a, he, ha⟩ := h.param_entry hm (hn _ hm) hb hk hp hreach.1 hin hd
    exact ⟨_, he, ha⟩
  · rintro _ ⟨⟩
    exact hr
  · rintro _ ⟨⟩
    exact hbound
  · exact fun hb hk ht => h.var_ne_void hv hb hk ht
  · exact fun hb ht => h.type_ne_this hb ht
  · exact fun hb hTs T hT => ⟨h.params_ne_void hv hb hTs T hT, h.params_ne_this hb hTs T hT⟩

theorem verified (h : Accepted t target ds img) (hv : ∀ d ∈ ds, d.isVoidFree = true)
    (hn : ∀ d ∈ ds, d.isNarrow = true) {path : List String} {m : Method} {d : MethodDef}
    (hm : .method path m ∈ ds) (hc : Compiled t target (path, m) d) :
    Verified (target.frame !d.isStatic) m d := by
  cases hc with
  | @intro _ _ b k _ _ _ _ _ items n next hb hk hr hp hbody hf hl hs hi hcodes =>
    have hh := h.houses hv hn hm hb hk (d := ⟨path, runsStatic target.entry b, _, b.name, _, _,
      items ++ [.instr .ret]⟩) rfl rfl hr hp hbody hf hl
    have hserves : Lowering.Serves (target.frame !runsStatic target.entry b)
        ⟨t, k, some b, target.entry⟩ target.resolutions := ⟨rfl, rfl, rfl⟩
    have hverify := Lowering.stmtsCodes_verify hh hcodes
    obtain ⟨T, hT, hasm⟩ := Lowering.symbolType_eq_ok_iff.mp hr
    constructor
    · exact ⟨b, T, hb, hT, hasm⟩
    · rw [hbody]
      exact ⟨n, next, items, hi, rfl, hverify⟩
    · rintro rfl
      exact MethodDef.verify_trans hverify rfl
    · rw [hbody]
      intro s hpart n
      obtain ⟨xs, next', hxs, hcode⟩ :=
        Lowering.stmtCodes_of_checked hserves h.writable (StmtsChecked.parts hs s hpart) n
      exact ⟨xs, next', hxs, Lowering.stmtCodes_verify hh hcode⟩
    · rw [hbody]
      intro e he
      obtain ⟨U, hU⟩ := StmtsChecked.evaluated hs e he
      obtain ⟨is, his, hcode⟩ := Lowering.codes_of_hasType hserves h.writable hU
      refine ⟨U, is, hU.type_eq, his, ?_⟩
      obtain ⟨hentry, hcheck⟩ := Lowering.codes_check hh hcode
      cases hval : U.isValue with
      | true =>
        obtain ⟨x, hx⟩ := hentry hval
        rw [hx] at hcheck
        exact ⟨x, hx, hcheck⟩
      | false =>
        have hnone : U.entry path = none := by cases U <;> first | rfl | cases hval
        rw [hnone] at hcheck
        exact hcheck

end Accepted

/-- The code of an accepted unit is verified, if no variable has the type `void` and positions and
slots do not run out. -/
theorem code_verifies {u : CompilationUnit} {options : Options} {listing : Listing}
    (hf : u.isFresh = true) (hv : u.isVoidFree = true) (hn : u.isNarrow = true)
    (hc : (compile u options).result = .ok (some listing)) :
    ∃ entry, List.Forall₂
        (fun x d => Verified ⟨(compile u options).resolutions, entry, !d.isStatic⟩ x.2 d)
        (Decl.methods (compile u options).unit.decls) listing.image.methods ∧
      ∀ d ∈ listing.image.ctors, d.verify d.code [] = some [] := by
  obtain ⟨t, entry, hacc, hvoid, hnarrow⟩ := accepted_with_conditions hf hc
  refine ⟨entry, ?_, ?_⟩
  · exact Lowering.forall₂_imp_of_mem hacc.methods fun ⟨path, m⟩ d hm hd =>
      hacc.verified (hvoid hv) (hnarrow hn) (Decl.mem_methods.mp hm) hd
  · intro d hd
    obtain ⟨path, head, -, -, rfl⟩ := (hacc.emits.ctors d).mp hd
    simp [MethodDef.ctor, Lowering.ctorCode, MethodDef.verify, Instr.check, Instr.signature,
      takeOff, AsmType.entry]

theorem code_verifies_sample :
    ∃ listing, (compile Sample.unit .default).result = .ok (some listing) ∧
      listing.image.methods.length = 4 ∧ ∃ entry, List.Forall₂
        (fun x d => Verified ⟨(compile Sample.unit .default).resolutions, entry, !d.isStatic⟩ x.2 d)
        (Decl.methods (compile Sample.unit .default).unit.decls) listing.image.methods ∧
      ∀ d ∈ listing.image.ctors, d.verify d.code [] = some [] := by
  obtain ⟨listing, hl, hcount⟩ := Sample.unit_accepted
  exact ⟨listing, hl, hcount, code_verifies (by decide +kernel) (by decide +kernel)
    (by decide +kernel) hl⟩

end ClassLang
