import ClassLang.Proofs.Accepted

/-! Code in source order. The actions of a body are the expressions it evaluates, in the order in
which they are written: those that stand alone, initial values of locals, conditions and results.
The code of a body is the code of its actions one after the other, with only labels, branches and
returns in between. -/
namespace ClassLang

open Assembly Typing

inductive Action where
  | perform (e : Expr)
  | init (v : Declarator)
  | use (e : Expr)

namespace Stmt

mutual

def actions : Stmt → List Action
  | .block body _ => allActions body
  | .expr value _ _ => [.perform value]
  | .locals d => d.vars.map .init
  | .ifThen cond thenBody _ => .use cond :: thenBody.actions
  | .ifElse cond thenBody elseBody _ => .use cond :: (thenBody.actions ++ elseBody.actions)
  | .loop cond body _ => .use cond :: body.actions
  | .ret value _ => value.toList.map .use
  | .empty _ => []

def allActions : List Stmt → List Action
  | [] => []
  | s :: rest => s.actions ++ allActions rest

end

end Stmt

def Method.actions (m : Method) : List Action := Stmt.allActions (m.body.getD [])

namespace Lowering

def lowerAction (f : Frame) : Action → Emission
  | .perform e => lowerValue f e
  | .init v => lowerLocal f v
  | .use e => lowerExpr f e

def Item.isControl : Item → Bool
  | .label _ | .instr (.br _) | .instr (.brfalse _) | .instr .ret => true
  | _ => false

inductive Performs (f : Frame) : List Action → List Item → Prop
  | nil : Performs f [] []
  | action {a is as items} (ha : lowerAction f a = .of is) (h : Performs f as items) :
    Performs f (a :: as) (is.map .instr ++ items)
  | control {item as items} (hi : item.isControl = true) (h : Performs f as items) :
    Performs f as (item :: items)

namespace Performs

variable {f : Frame} {as bs : List Action} {xs ys : List Item}

theorem append (ha : Performs f as xs) (hb : Performs f bs ys) :
    Performs f (as ++ bs) (xs ++ ys) := by
  induction ha with
  | nil => exact hb
  | action ha _ ih =>
    rw [List.append_assoc]
    exact .action ha ih
  | control hi _ ih => exact .control hi ih

theorem infix_of_mem (h : Performs f as xs) {a : Action} (ha : a ∈ as) :
    ∃ is, lowerAction f a = .of is ∧ is.map .instr <:+: xs := by
  induction h with
  | nil => cases ha
  | @action _ is _ _ hfirst _ ih =>
    rcases List.mem_cons.mp ha with rfl | ha
    · exact ⟨is, hfirst, (List.prefix_append _ _).isInfix⟩
    · obtain ⟨js, hjs, hin⟩ := ih ha
      exact ⟨js, hjs, hin.trans (List.suffix_append _ _).isInfix⟩
  | control _ _ ih =>
    obtain ⟨js, hjs, hin⟩ := ih ha
    exact ⟨js, hjs, hin.trans (List.suffix_cons _ _).isInfix⟩

/-- An instruction of a body is a branch or a return, or belongs to an action. -/
theorem cases_of_mem (h : Performs f as xs) {i : Instr} (hi : .instr i ∈ xs) :
    (Item.instr i).isControl = true ∨ ∃ a ∈ as, ∃ is, lowerAction f a = .of is ∧ i ∈ is := by
  induction h with
  | nil => cases hi
  | @action a is _ _ hfirst _ ih =>
    rcases List.mem_append.mp hi with hi | hi
    · obtain ⟨j, hj, heq⟩ := List.mem_map.mp hi
      cases heq
      exact Or.inr ⟨a, List.mem_cons_self, is, hfirst, hj⟩
    · exact (ih hi).imp_right fun ⟨b, hb, hcode⟩ => ⟨b, List.mem_cons_of_mem _ hb, hcode⟩
  | control hc _ ih =>
    rcases List.mem_cons.mp hi with rfl | hi
    · exact Or.inl hc
    · exact ih hi

end Performs

def Code.Does (f : Frame) (code : Code) (as : List Action) : Prop :=
  ∀ n items next, code n = ⟨items, next, none⟩ → Performs f as items

namespace Code.Does

variable {f : Frame} {as bs : List Action}

theorem skip : Does f Code.skip [] := by
  intro n items next h
  cases h
  exact .nil

theorem instrs_nil : Does f (Code.instrs []) [] := skip

theorem action (a : Action) : Does f (Code.of (lowerAction f a)) [a] := by
  intro n items next h
  rcases hcode : lowerAction f a with ⟨is, fault⟩
  rw [hcode] at h
  cases h
  simpa using Performs.action hcode .nil

theorem instr {i : Instr} (h : (Item.instr i).isControl = true) : Does f (Code.instrs [i]) [] := by
  intro n items next hcode
  cases hcode
  exact .control h .nil

theorem mark (l : Label) : Does f (Code.mark l) [] := by
  intro n items next h
  cases h
  exact .control rfl .nil

theorem append {a b : Code} (ha : Does f a as) (hb : Does f b bs) : Does f (a ++ b) (as ++ bs) := by
  intro n items next h
  obtain ⟨xs, m, ys, hxs, hys, rfl⟩ := append_whole_iff.mp h
  exact (ha _ _ _ hxs).append (hb _ _ _ hys)

theorem close {a b : Code} (ha : Does f a as) (hb : Does f b []) : Does f (a ++ b) as := by
  simpa using ha.append hb

theorem fresh {stem : String} {rest : Label → Code} (h : ∀ l, Does f (rest l) as) :
    Does f (Code.fresh stem rest) as := fun _ items next hcode => h _ _ items next hcode

end Code.Does

theorem Code.of_append (a b : Emission) : Code.of (a ++ b) = (Code.of a ++ Code.of b : Code) := by
  funext n
  obtain ⟨is, _ | fault⟩ := a
  · change Block.mk ((is ++ b.instrs).map .instr) n b.fault =
      ⟨is.map .instr ++ b.instrs.map .instr, n, b.fault⟩
    rw [List.map_append]
  · rfl

theorem lowerLocals_does (f : Frame) (vars : List Declarator) :
    Code.Does f (.of (lowerLocals f vars)) (vars.map .init) := by
  induction vars with
  | nil => exact .instrs_nil
  | cons v vars ih =>
    rw [lowerLocals, Code.of_append]
    exact (Code.Does.action (.init v)).append ih

mutual

theorem lowerStmt_does (f : Frame) : ∀ stmt : Stmt, Code.Does f (lowerStmt f stmt) stmt.actions
  | .block body _ => by
    rw [lowerStmt, Stmt.actions]
    exact lowerStmts_does f body
  | .expr value _ _ => by
    rw [lowerStmt, Stmt.actions]
    exact .action (.perform value)
  | .locals d => by
    rw [lowerStmt, Stmt.actions]
    exact lowerLocals_does f d.vars
  | .ifThen cond thenBody _ => by
    rw [lowerStmt, Stmt.actions]
    have hcond : Code.Does f (.of (lowerExpr f cond)) [.use cond] := .action (.use cond)
    exact .fresh fun done =>
      ((hcond.close (.instr rfl)).append (lowerStmt_does f thenBody)).close (.mark done)
  | .ifElse cond thenBody elseBody _ => by
    rw [lowerStmt, Stmt.actions]
    have hcond : Code.Does f (.of (lowerExpr f cond)) [.use cond] := .action (.use cond)
    have hthen : ∀ l, Code.Does f (.instrs [.brfalse l] ++ lowerStmt f thenBody) thenBody.actions :=
      fun l => (Code.Does.instr rfl).append (lowerStmt_does f thenBody)
    exact .fresh fun done => hcond.append (.fresh fun other =>
      ((((hthen other).close (.instr rfl)).close (.mark other)).append
        (lowerStmt_does f elseBody)).close (.mark done))
  | .loop cond body _ => by
    rw [lowerStmt, Stmt.actions]
    have hcond : ∀ l, Code.Does f (.mark l ++ .of (lowerExpr f cond)) [.use cond] :=
      fun l => (Code.Does.mark l).append (.action (.use cond))
    exact .fresh fun again => .fresh fun done =>
      ((((hcond again).close (.instr rfl)).append (lowerStmt_does f body)).close
        (.instr rfl)).close (.mark done)
  | .ret value _ => by
    rw [lowerStmt, Stmt.actions, Code.of_append]
    cases value with
    | none => exact Code.Does.instrs_nil.close (.instr rfl)
    | some e => exact (Code.Does.action (.use e)).close (.instr rfl)
  | .empty _ => by
    rw [lowerStmt, Stmt.actions]
    exact .skip

theorem lowerStmts_does (f : Frame) : ∀ body : List Stmt,
    Code.Does f (lowerStmts f body) (Stmt.allActions body)
  | [] => by
    rw [lowerStmts, Stmt.allActions]
    exact .skip
  | s :: rest => by
    rw [lowerStmts, Stmt.allActions]
    exact (lowerStmt_does f s).append (lowerStmts_does f rest)

end

def ActionChecked (ctx : Context) (r : Resolutions) : Action → Prop
  | .perform e | .use e => ∃ T, HasType ctx r e T
  | .init v => LocalChecked ctx r v

mutual

theorem actions_checked {ctx : Context} {r : Resolutions} : ∀ {stmt : Stmt},
    StmtChecked ctx r stmt → ∀ a ∈ stmt.actions, ActionChecked ctx r a
  | .block body _, h => by
    rw [StmtChecked] at h
    rw [Stmt.actions]
    exact allActions_checked h
  | .expr value _ _, h => by
    rw [StmtChecked] at h
    rw [Stmt.actions, List.forall_mem_singleton]
    exact h
  | .locals d, h => by
    rw [StmtChecked] at h
    rw [Stmt.actions, List.forall_mem_map]
    exact h
  | .ifThen cond thenBody _, h => by
    rw [StmtChecked] at h
    rw [Stmt.actions, List.forall_mem_cons]
    exact ⟨⟨_, h.1⟩, actions_checked h.2⟩
  | .ifElse cond thenBody elseBody _, h => by
    rw [StmtChecked] at h
    rw [Stmt.actions, List.forall_mem_cons, List.forall_mem_append]
    exact ⟨⟨_, h.1⟩, actions_checked h.2.1, actions_checked h.2.2⟩
  | .loop cond body _, h => by
    rw [StmtChecked] at h
    rw [Stmt.actions, List.forall_mem_cons]
    exact ⟨⟨_, h.1⟩, actions_checked h.2⟩
  | .ret value _, h => by
    rw [StmtChecked] at h
    obtain ⟨m, T, -, -, hv⟩ := h
    rw [Stmt.actions, List.forall_mem_map]
    cases value with
    | none => simp
    | some e => exact List.forall_mem_singleton.mpr ⟨T, hv⟩
  | .empty _, _ => by simp [Stmt.actions]

theorem allActions_checked {ctx : Context} {r : Resolutions} : ∀ {body : List Stmt},
    StmtsChecked ctx r body → ∀ a ∈ Stmt.allActions body, ActionChecked ctx r a
  | [], _ => by simp [Stmt.allActions]
  | s :: rest, h => by
    rw [StmtsChecked] at h
    rw [Stmt.allActions, List.forall_mem_append]
    exact ⟨actions_checked h.1, allActions_checked h.2⟩

end

inductive ActionCodes (ctx : Context) (r : Resolutions) (f : Frame) : Action → List Instr → Prop
  | perform {e is} (h : ValueCodes ctx r f e is) : ActionCodes ctx r f (.perform e) is
  | init {v is} (h : LocalCodes ctx r f v is) : ActionCodes ctx r f (.init v) is
  | use {e T is} (h : Codes ctx r f e T is) : ActionCodes ctx r f (.use e) is

theorem codes_of_action {f : Frame} {ctx : Context} {r : Resolutions} (hs : Serves f ctx r)
    (hw : Writable ctx.table r) {a : Action} {is : List Instr} (h : ActionChecked ctx r a)
    (hc : lowerAction f a = .of is) : ActionCodes ctx r f a is := by
  cases a with
  | perform e =>
    obtain ⟨T, hT⟩ := h
    obtain ⟨js, hjs, hcodes⟩ := lowerValue_codes hs hw hT
    cases hjs.symm.trans hc
    exact .perform hcodes
  | init v =>
    obtain ⟨js, hjs, _, _, hcodes, rfl, rfl⟩ :=
      lowerLocals_codes hs hw (List.forall_mem_singleton.mpr h)
    have hone : lowerLocals f [v] = .of (is ++ []) := by
      rw [lowerLocals, show lowerLocal f v = .of is from hc]
      rfl
    rw [hone] at hjs
    injection hjs with hjs
    rw [List.append_cancel_right hjs]
    exact .init hcodes
  | use e =>
    obtain ⟨T, hT⟩ := h
    obtain ⟨js, hjs, hcodes⟩ := codes_of_hasType hs hw hT
    cases hjs.symm.trans hc
    exact .use hcodes

end Lowering

/-- The code of a method is that of its actions, each of which obeys the rules. -/
theorem Compiled.performs {t : Table} {target : Lowering.Target} {path : List String} {m : Method}
    {d : MethodDef} (hw : Writable t target.resolutions) (hd : Compiled t target (path, m) d) :
    ∃ b k items, m.symbol = some b ∧ b.scope = some k ∧
      d.isStatic = runsStatic target.entry b ∧ d.code = items ++ [.instr .ret] ∧
      Lowering.Performs (target.frame !d.isStatic) m.actions items ∧
      ∀ a ∈ m.actions, ∀ is, Lowering.lowerAction (target.frame !d.isStatic) a = .of is →
        Lowering.ActionCodes ⟨t, k, some b, target.entry⟩ target.resolutions
          (target.frame !d.isStatic) a is := by
  cases hd with
  | @intro _ _ b k returns params body found locals items n next hb hk _ _ hbody _ _ hs hi =>
    have hactions : m.actions = Stmt.allActions body := by rw [Method.actions, hbody]; rfl
    have hserves : Lowering.Serves (target.frame !runsStatic target.entry b)
        ⟨t, k, some b, target.entry⟩ target.resolutions := ⟨rfl, rfl, rfl⟩
    refine ⟨b, k, items, hb, hk, rfl, rfl, ?_, fun a ha is his => ?_⟩
    · rw [hactions]
      exact Lowering.lowerStmts_does _ body n items next hi
    · rw [hactions] at ha
      exact Lowering.codes_of_action hserves hw (Lowering.allActions_checked hs a ha) his

end ClassLang
