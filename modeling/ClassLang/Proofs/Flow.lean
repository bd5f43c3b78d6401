import ClassLang.Proofs.Simulation

/-! Ways through the code of a method. A way goes on from an instruction to the next one or to the
label of a branch, whatever the condition of the branch, and carries the types on the stack. The
`ret` that stands behind the code of the body is on a way exactly if the statements of the body can
come to their end, and in verified code nothing is on the stack then. A method that has a result to
return is not kept from that. -/
namespace ClassLang

open Assembly Lowering Typing

namespace Stmt

mutual

/-- Whether the statement can come to its end, whatever its conditions. -/
def completes : Stmt → Bool
  | .block body _ => allComplete body
  | .ifElse _ thenBody elseBody _ => thenBody.completes || elseBody.completes
  | .ret .. => false
  | .expr .. | .locals _ | .ifThen .. | .loop .. | .empty _ => true

def allComplete : List Stmt → Bool
  | [] => true
  | s :: rest => s.completes && allComplete rest

end

end Stmt

namespace Assembly

def Instr.goesOn : Instr → Bool
  | .br _ | .brfalse _ | .ret => false
  | _ => true

/-- An instruction leaves on the stack what verification finds there. Where it does not accept the
instruction the stack may be any. -/
def Instr.Leaves (d : MethodDef) (i : Instr) (S S' : List Entry) : Prop :=
  ∀ T, i.check d S = some T → S' = T

theorem Instr.exists_leaves (d : MethodDef) (i : Instr) (S : List Entry) :
    ∃ S', i.Leaves d S S' := by
  cases h : i.check d S with
  | none => exact ⟨[], by simp [Leaves, h]⟩
  | some T => exact ⟨T, by simp [Leaves, h]⟩

/-- One step on a way, between what is left of the code and the stack here and there. -/
inductive MethodDef.Flow (d : MethodDef) : List Item × List Entry → List Item × List Entry → Prop
  | label {l rest S} : Flow d (.label l :: rest, S) (rest, S)
  | instr {i rest S S'} (hg : i.goesOn = true) (hs : i.Leaves d S S') :
    Flow d (.instr i :: rest, S) (rest, S')
  | br {l rest S target} (hl : codeFrom l d.code = some target) :
    Flow d (.instr (.br l) :: rest, S) (target, S)
  | stay {l rest S S'} (hs : (Instr.brfalse l).Leaves d S S') :
    Flow d (.instr (.brfalse l) :: rest, S) (rest, S')
  | jump {l rest S S' target} (hl : codeFrom l d.code = some target)
    (hs : (Instr.brfalse l).Leaves d S S') : Flow d (.instr (.brfalse l) :: rest, S) (target, S')

inductive MethodDef.Path (d : MethodDef) :
    Nat → List Item × List Entry → List Item × List Entry → Prop
  | here {a} : Path d 0 a a
  | step {n a b c} (h : d.Flow a b) (hp : Path d n b c) : Path d (n + 1) a c

theorem MethodDef.Path.append {d : MethodDef} {n m : Nat} {a b c : List Item × List Entry}
    (h : d.Path n a b) (hl : d.Path m b c) : d.Path (n + m) a c := by
  induction h with
  | here => rwa [Nat.zero_add]
  | step hflow _ ih =>
    rw [Nat.succ_add]
    exact .step hflow (ih hl)

end Assembly

namespace Lowering

variable {ctx : Context} {r : Resolutions} {f : Frame}

def GoOn (is : List Instr) : Prop := ∀ i ∈ is, i.goesOn = true

namespace GoOn

theorem of_all {is : List Instr} (h : is.all Instr.goesOn = true) : GoOn is := List.all_eq_true.mp h

theorem append {is js : List Instr} (hi : GoOn is) (hj : GoOn js) : GoOn (is ++ js) :=
  List.forall_mem_append.mpr ⟨hi, hj⟩

theorem load (p : Place) : GoOn p.load := .of_all (by cases p <;> rfl)

theorem store {is : List Instr} (p : Place) (keep : Bool) (h : GoOn is) :
    GoOn (p.store is keep) := by
  have hdup : GoOn (if keep then [Instr.dup] else []) := .of_all (by cases keep <;> rfl)
  cases p with
  | slot index | argument index | shared field => exact .append (.append h hdup) (.of_all rfl)
  | own field =>
    have hself : GoOn [.ldthis] := .of_all rfl
    have hput : GoOn [.stfld field] := .of_all rfl
    exact hself.append (h.append (hput.append (.of_all (by cases keep <;> rfl))))

end GoOn

theorem binaryCode_goOn {op : BinaryOp} {T : Ty} {is : List Instr} (h : binaryCode op T = .of is) :
    GoOn is := by
  refine .of_all ?_
  unfold binaryCode at h
  split at h
  · cases op <;> cases h <;> rfl
  · cases h
    cases op <;> rfl

theorem Codes.goOn {e : Expr} {T : Ty} {is : List Instr} (h : Codes ctx r f e T is) : GoOn is := by
  induction h with
  | @literal value => exact .of_all (by rcases value with _ | _ | (_ | _) | _ <;> rfl)
  | this => exact .of_all rfl
  | @var _ _ _ _ p => exact .load p
  | declaration => exact .of_all rfl
  | @unary op _ _ _ _ _ ih => exact ih.append (.of_all (by cases op <;> rfl))
  | binary _ _ _ hc _ ihl ihr => exact (ihl.append ihr).append (binaryCode_goOn hc)
  | assign _ _ _ _ _ _ _ ih => exact .store _ true ih
  | call _ _ _ _ _ _ hc hl hlc _ _ ih =>
    refine .append (.append (.of_all (by cases hc <;> rfl)) ?_) (.of_all (by cases hc <;> rfl))
    intro i hi
    obtain ⟨js, hjs, hi⟩ := List.mem_flatten.mp hi
    obtain ⟨e, U, hmem⟩ := exists_mem_zip_zip hl hlc hjs
    exact ih e U js hmem i hi
  | create => exact .of_all rfl

theorem ValueCodes.goOn {e : Expr} {is : List Instr} (h : ValueCodes ctx r f e is) : GoOn is := by
  cases h with
  | assign _ _ _ _ hv _ => exact .store _ false hv.goOn
  | other he _ => exact he.goOn.append (.of_all (by split <;> rfl))

theorem LocalsCodes.goOn {vars : List Declarator} :
    ∀ {is : List Instr}, LocalsCodes ctx r f vars is → GoOn is := by
  induction vars with
  | nil =>
    rintro is rfl
    exact .of_all rfl
  | cons v vars ih =>
    rintro is ⟨js, ks, hv, hrest, rfl⟩
    refine .append ?_ (ih hrest)
    cases hv with
    | bare => exact .of_all rfl
    | init _ _ _ _ _ hc => exact hc.goOn.append (.of_all rfl)

theorem ReturnCodes.goOn {T : Ty} {value : Option Expr} {is : List Instr}
    (h : ReturnCodes ctx r f T value is) : GoOn is := by
  cases value with
  | none =>
    obtain ⟨-, rfl⟩ := h
    exact .of_all rfl
  | some e => exact Codes.goOn h

end Lowering

namespace Assembly.MethodDef

variable {d : MethodDef} {n : Nat} {post rest fin : List Item} {S S' : List Entry}

/-- Before a way is past an item, it goes on from there. -/
theorem Path.uncons {x : Item} (h : d.Path n (x :: rest, S) (fin, S'))
    (hf : fin.length ≤ rest.length) :
    ∃ k b, n = k + 1 ∧ d.Flow (x :: rest, S) b ∧ d.Path k b (fin, S') := by
  cases h with
  | here => exact absurd hf (Nat.not_succ_le_self _)
  | step hflow hp => exact ⟨_, _, rfl, hflow, hp⟩

/-- A way that is past a piece of code came to its end, which it can do only if `c`. -/
def Exits (d : MethodDef) (items post : List Item) (c : Bool) : Prop :=
  ∀ n S fin S', d.Path n (items ++ post, S) (fin, S') → fin.length ≤ post.length →
    c = true ∧ ∃ k ≤ n, ∃ S₁, d.Path k (post, S₁) (fin, S')

namespace Exits

variable {xs ys : List Item} {is : List Instr} {a b : Bool}

theorem nil : d.Exits [] post true := fun _ _ _ _ hp _ => ⟨rfl, _, Nat.le_refl _, _, hp⟩

theorem append (hx : d.Exits xs (ys ++ post) a) (hy : d.Exits ys post b) :
    d.Exits (xs ++ ys) post (a && b) := by
  intro n S fin S' hp hf
  rw [List.append_assoc] at hp
  obtain ⟨rfl, k, hk, T, hp⟩ := hx _ _ _ _ hp (Nat.le_trans hf (by simp))
  obtain ⟨rfl, j, hj, hp⟩ := hy _ _ _ _ hp hf
  exact ⟨rfl, j, Nat.le_trans hj hk, hp⟩

theorem instrs (h : GoOn is) : d.Exits (is.map .instr) post true := by
  induction is with
  | nil => exact .nil
  | cons i is ih =>
    intro n S fin S' hp hf
    obtain ⟨k, b, rfl, hflow, hp⟩ := hp.uncons (Nat.le_trans hf (by simp))
    have hgo := h i List.mem_cons_self
    cases hflow with
    | instr =>
      obtain ⟨-, j, hj, hp⟩ := ih (fun j hj => h j (List.mem_cons_of_mem _ hj)) _ _ _ _ hp hf
      exact ⟨rfl, j, Nat.le_succ_of_le hj, hp⟩
    | br | stay | jump => cases hgo

theorem ret : d.Exits [.instr .ret] post false := by
  intro n S fin S' hp hf
  obtain ⟨k, b, -, hflow, -⟩ := hp.uncons hf
  cases hflow with
  | instr hg => cases hg

theorem label (l : Label) : d.Exits [.label l] post true := by
  intro n S fin S' hp hf
  obtain ⟨k, b, rfl, hflow, hp⟩ := hp.uncons hf
  cases hflow
  exact ⟨rfl, k, Nat.le_succ k, _, hp⟩

/-- From a branch a way goes on behind it or at its label. -/
theorem brfalse {l : Label} {target : List Item} (hl : codeFrom l d.code = some target)
    (hi : GoOn is) (hp : d.Path n (is.map .instr ++ .instr (.brfalse l) :: rest, S) (fin, S'))
    (hf : fin.length ≤ rest.length) :
    ∃ k < n, ∃ S₁, d.Path k (rest, S₁) (fin, S') ∨ d.Path k (target, S₁) (fin, S') := by
  obtain ⟨-, k, hk, T, hp⟩ := Exits.instrs hi _ _ _ _ hp (Nat.le_succ_of_le hf)
  obtain ⟨j, b, rfl, hflow, hp⟩ := hp.uncons hf
  cases hflow with
  | instr hg => cases hg
  | stay => exact ⟨j, hk, _, Or.inl hp⟩
  | jump hl' =>
    obtain rfl := Option.some.inj (hl.symm.trans hl')
    exact ⟨j, hk, _, Or.inr hp⟩

theorem br {l : Label} {target : List Item} (hl : codeFrom l d.code = some target)
    (hp : d.Path n (.instr (.br l) :: rest, S) (fin, S')) (hf : fin.length ≤ rest.length) :
    ∃ k < n, d.Path k (target, S) (fin, S') := by
  obtain ⟨k, b, rfl, hflow, hp⟩ := hp.uncons hf
  cases hflow with
  | instr hg => cases hg
  | br hl' =>
    obtain rfl := Option.some.inj (hl.symm.trans hl')
    exact ⟨k, Nat.lt_succ_self k, hp⟩

theorem ifThen {l : Label} (hi : GoOn is) (hl : codeFrom l d.code = some (.label l :: post))
    (hx : d.Exits xs (.label l :: post) a) :
    d.Exits (is.map .instr ++ .instr (.brfalse l) :: xs ++ [.label l]) post true := by
  intro n S fin S' hp hf
  simp only [List.append_assoc, List.cons_append, List.nil_append] at hp
  obtain ⟨k, hk, T, hp | hp⟩ := brfalse hl hi hp (Nat.le_trans hf (by simp; omega))
  · obtain ⟨-, j, hj, U, hp⟩ := hx _ _ _ _ hp (Nat.le_succ_of_le hf)
    obtain ⟨-, i, hi, hp⟩ := Exits.label l _ _ _ _ hp hf
    exact ⟨rfl, i, by omega, hp⟩
  · obtain ⟨-, j, hj, hp⟩ := Exits.label l _ _ _ _ hp hf
    exact ⟨rfl, j, by omega, hp⟩

theorem ifElse {l other : Label} (hi : GoOn is)
    (hl : codeFrom l d.code = some (.label l :: post))
    (ho : codeFrom other d.code = some (.label other :: (ys ++ .label l :: post)))
    (hx : d.Exits xs (.instr (.br l) :: .label other :: (ys ++ .label l :: post)) a)
    (hy : d.Exits ys (.label l :: post) b) :
    d.Exits (is.map .instr ++ .instr (.brfalse other) :: xs ++
      .instr (.br l) :: .label other :: ys ++ [.label l]) post (a || b) := by
  intro n S fin S' hp hf
  simp only [List.append_assoc, List.cons_append, List.nil_append] at hp
  have hf' : fin.length ≤ (ys ++ Item.label l :: post).length := Nat.le_trans hf (by simp; omega)
  obtain ⟨k, hk, T, hp | hp⟩ := brfalse ho hi hp (Nat.le_trans hf (by simp; omega))
  · obtain ⟨rfl, j, hj, U, hp⟩ := hx _ _ _ _ hp (by simp only [List.length_cons]; omega)
    obtain ⟨i, hi, hp⟩ := br hl hp (Nat.le_succ_of_le hf')
    obtain ⟨-, e, he, hp⟩ := Exits.label l _ _ _ _ hp hf
    exact ⟨rfl, e, by omega, hp⟩
  · obtain ⟨-, j, hj, U, hp⟩ := Exits.label other _ _ _ _ hp hf'
    obtain ⟨rfl, i, hi, V, hp⟩ := hy _ _ _ _ hp (Nat.le_succ_of_le hf)
    obtain ⟨-, e, he, hp⟩ := Exits.label l _ _ _ _ hp hf
    exact ⟨Bool.or_true a, e, by omega, hp⟩

/-- A way that is past a loop left it at its condition. Every round takes some steps, so the way
through the rounds is shorter from one to the next. -/
theorem loop {again l : Label} (hi : GoOn is)
    (ha : codeFrom again d.code = some (.label again :: is.map .instr ++
      .instr (.brfalse l) :: xs ++ [.instr (.br again), .label l] ++ post))
    (hl : codeFrom l d.code = some (.label l :: post))
    (hx : d.Exits xs (.instr (.br again) :: .label l :: post) a) :
    d.Exits (.label again :: is.map .instr ++ .instr (.brfalse l) :: xs ++
      [.instr (.br again), .label l]) post true := by
  intro n
  induction n using Nat.strongRecOn with
  | _ n ih =>
    intro S fin S' hp hf
    simp only [List.append_assoc, List.cons_append, List.nil_append] at hp
    obtain ⟨-, k, hk, T, hp⟩ := Exits.label again _ _ _ _ hp (Nat.le_trans hf (by simp; omega))
    obtain ⟨j, hj, U, hp | hp⟩ := brfalse hl hi hp (Nat.le_trans hf (by simp; omega))
    · obtain ⟨-, i, hi', V, hp⟩ := hx _ _ _ _ hp (by simp only [List.length_cons]; omega)
      obtain ⟨e, he, hp⟩ := br ha hp (Nat.le_succ_of_le hf)
      obtain ⟨-, m, hm, hp⟩ := ih e (by omega) _ _ _ hp hf
      exact ⟨rfl, m, by omega, hp⟩
    · obtain ⟨-, i, hi', hp⟩ := Exits.label l _ _ _ _ hp hf
      exact ⟨rfl, i, by omega, hp⟩

end Exits

end Assembly.MethodDef

namespace Lowering

variable {ctx : Context} {r : Resolutions} {f : Frame} {d : MethodDef}

mutual

/-- A way through the code of a statement comes to its end only if the statement can. -/
theorem StmtCodes.exits : ∀ {stmt : Stmt} {n next : Nat} {items post : List Item},
    StmtCodes ctx r f n stmt items next → Located d n items post →
      d.Exits items post stmt.completes
  | .block _ _, _, _, _, _, h, hl => by
    rw [StmtCodes] at h
    exact StmtsCodes.exits h hl
  | .expr _ _ _, _, _, _, _, h, _ => by
    rw [StmtCodes] at h
    obtain ⟨is, hv, rfl, -⟩ := h
    exact .instrs hv.goOn
  | .locals _, _, _, _, _, h, _ => by
    rw [StmtCodes] at h
    obtain ⟨is, hv, rfl, -⟩ := h
    exact .instrs hv.goOn
  | .ifThen _ _ _, _, _, _, _, h, hl => by
    rw [StmtCodes] at h
    obtain ⟨is, xs, hc, hthen, rfl⟩ := h
    obtain ⟨hend, hbody⟩ := hl.ifThen hthen.labels.2
    exact .ifThen hc.goOn hend (StmtCodes.exits hthen hbody)
  | .ifElse _ _ _ _, _, _, _, _, h, hl => by
    rw [StmtCodes] at h
    obtain ⟨is, xs, ys, m, hc, hthen, helse, rfl⟩ := h
    obtain ⟨hend, hother, hfirst, hsecond⟩ :=
      hl.ifElse hthen.labels.2 helse.labels.2 hthen.labels.1 helse.labels.1
    exact .ifElse hc.goOn hend hother (StmtCodes.exits hthen hfirst)
      (StmtCodes.exits helse hsecond)
  | .loop _ _ _, _, _, _, _, h, hl => by
    rw [StmtCodes] at h
    obtain ⟨is, xs, hc, hbody, rfl⟩ := h
    obtain ⟨hagain, hend, hin⟩ := hl.loop hbody.labels.2
    exact .loop hc.goOn hagain hend (StmtCodes.exits hbody hin)
  | .ret _ _, _, _, _, _, h, _ => by
    rw [StmtCodes] at h
    obtain ⟨m, T, is, -, -, hv, rfl, -⟩ := h
    exact .append (.instrs hv.goOn) .ret
  | .empty _, _, _, _, _, h, _ => by
    rw [StmtCodes] at h
    obtain ⟨rfl, -⟩ := h
    exact .nil

theorem StmtsCodes.exits : ∀ {body : List Stmt} {n next : Nat} {items post : List Item},
    StmtsCodes ctx r f n body items next → Located d n items post →
      d.Exits items post (Stmt.allComplete body)
  | [], _, _, _, _, h, _ => by
    rw [StmtsCodes] at h
    obtain ⟨rfl, -⟩ := h
    exact .nil
  | _ :: _, _, _, _, _, h, hl => by
    rw [StmtsCodes] at h
    obtain ⟨xs, ys, m, hs, hrest, rfl⟩ := h
    obtain ⟨hle, hlabels⟩ := hs.labels
    exact .append (StmtCodes.exits hs hl.left)
      (StmtsCodes.exits hrest (hl.right hle (hlabels.widen (Nat.zero_le _) (Nat.le_refl _))))

end

end Lowering

namespace Assembly.MethodDef

variable {d : MethodDef} {post rest : List Item} {S S' : List Entry} {is : List Instr}

def Passes (d : MethodDef) (xs ys : List Item) : Prop :=
  ∀ S, ∃ n S', d.Path n (xs, S) (ys, S')

namespace Passes

variable {xs ys zs target : List Item} {l : Label}

theorem refl : d.Passes xs xs := fun S => ⟨0, S, .here⟩

theorem trans (h : d.Passes xs ys) (hl : d.Passes ys zs) : d.Passes xs zs := by
  intro S
  obtain ⟨n, T, hp⟩ := h S
  obtain ⟨m, U, hq⟩ := hl T
  exact ⟨n + m, U, hp.append hq⟩

theorem of_flow (h : ∀ S, ∃ S', d.Flow (xs, S) (ys, S')) : d.Passes xs ys := by
  intro S
  obtain ⟨S', hflow⟩ := h S
  exact ⟨1, S', .step hflow .here⟩

theorem label (l : Label) : d.Passes (.label l :: rest) rest := of_flow fun S => ⟨S, .label⟩

theorem br (hl : codeFrom l d.code = some target) : d.Passes (.instr (.br l) :: rest) target :=
  of_flow fun S => ⟨S, .br hl⟩

theorem instrs (hg : GoOn is) : d.Passes (is.map .instr ++ rest) rest := by
  induction is with
  | nil => exact .refl
  | cons i is ih =>
    have hfirst : d.Passes (.instr i :: (is.map .instr ++ rest)) (is.map .instr ++ rest) :=
      of_flow fun S => (i.exists_leaves d S).imp fun _ hs => .instr (hg i List.mem_cons_self) hs
    exact hfirst.trans (ih fun j hj => hg j (List.mem_cons_of_mem _ hj))

theorem stay (hg : GoOn is) : d.Passes (is.map .instr ++ .instr (.brfalse l) :: rest) rest :=
  (instrs hg).trans (of_flow fun S => (Instr.exists_leaves d _ S).imp fun _ hs => .stay hs)

theorem jump (hg : GoOn is) (hl : codeFrom l d.code = some target) :
    d.Passes (is.map .instr ++ .instr (.brfalse l) :: rest) target :=
  (instrs hg).trans (of_flow fun S => (Instr.exists_leaves d _ S).imp fun _ hs => .jump hl hs)

end Passes

end Assembly.MethodDef

namespace Lowering

variable {ctx : Context} {r : Resolutions} {f : Frame} {d : MethodDef}

mutual

/-- If a statement can come to its end, then a way leads through its code. -/
theorem StmtCodes.passes : ∀ {stmt : Stmt} {n next : Nat} {items post : List Item},
    StmtCodes ctx r f n stmt items next → Located d n items post → stmt.completes = true →
      d.Passes (items ++ post) post
  | .block _ _, _, _, _, _, h, hl, hcomp => by
    rw [StmtCodes] at h
    exact StmtsCodes.passes h hl hcomp
  | .expr _ _ _, _, _, _, _, h, _, _ => by
    rw [StmtCodes] at h
    obtain ⟨is, hv, rfl, -⟩ := h
    exact .instrs hv.goOn
  | .locals _, _, _, _, _, h, _, _ => by
    rw [StmtCodes] at h
    obtain ⟨is, hv, rfl, -⟩ := h
    exact .instrs hv.goOn
  | .ifThen _ _ _, _, _, _, _, h, hl, _ => by
    rw [StmtCodes] at h
    obtain ⟨is, xs, hc, hthen, rfl⟩ := h
    obtain ⟨hend, -⟩ := hl.ifThen hthen.labels.2
    simp only [List.append_assoc, List.cons_append, List.nil_append]
    exact (MethodDef.Passes.jump hc.goOn hend).trans (.label _)
  | .ifElse _ _ _ _, _, _, _, _, h, hl, hcomp => by
    rw [StmtCodes] at h
    obtain ⟨is, xs, ys, m, hc, hthen, helse, rfl⟩ := h
    obtain ⟨hend, hother, hfirst, hsecond⟩ :=
      hl.ifElse hthen.labels.2 helse.labels.2 hthen.labels.1 helse.labels.1
    simp only [List.append_assoc, List.cons_append, List.nil_append]
    rw [Stmt.completes, Bool.or_eq_true] at hcomp
    rcases hcomp with hcomp | hcomp
    · have hthen := StmtCodes.passes hthen hfirst hcomp
      exact (MethodDef.Passes.stay hc.goOn).trans (hthen.trans (.trans (.br hend) (.label _)))
    · have helse := StmtCodes.passes helse hsecond hcomp
      exact (MethodDef.Passes.jump hc.goOn hother).trans
        (.trans (.label _) (helse.trans (.label _)))
  | .loop _ _ _, _, _, _, _, h, hl, _ => by
    rw [StmtCodes] at h
    obtain ⟨is, xs, hc, hbody, rfl⟩ := h
    obtain ⟨-, hend, -⟩ := hl.loop hbody.labels.2
    simp only [List.append_assoc, List.cons_append, List.nil_append]
    exact (MethodDef.Passes.label _).trans (.trans (.jump hc.goOn hend) (.label _))
  | .ret _ _, _, _, _, _, _, _, hcomp => by cases hcomp
  | .empty _, _, _, _, _, h, _, _ => by
    rw [StmtCodes] at h
    obtain ⟨rfl, -⟩ := h
    exact .refl

theorem StmtsCodes.passes : ∀ {body : List Stmt} {n next : Nat} {items post : List Item},
    StmtsCodes ctx r f n body items next → Located d n items post →
      Stmt.allComplete body = true → d.Passes (items ++ post) post
  | [], _, _, _, _, h, _, _ => by
    rw [StmtsCodes] at h
    obtain ⟨rfl, -⟩ := h
    exact .refl
  | _ :: _, _, _, _, _, h, hl, hcomp => by
    rw [StmtsCodes] at h
    obtain ⟨xs, ys, m, hs, hrest, rfl⟩ := h
    obtain ⟨hle, hlabels⟩ := hs.labels
    rw [Stmt.allComplete, Bool.and_eq_true] at hcomp
    have hsecond := hl.right hle (hlabels.widen (Nat.zero_le _) (Nat.le_refl _))
    rw [List.append_assoc]
    exact (StmtCodes.passes hs hl.left hcomp.1).trans (StmtsCodes.passes hrest hsecond hcomp.2)

end

end Lowering

theorem codeFrom_eq_some {l : Label} {code target : List Item} (h : codeFrom l code = some target) :
    ∃ before after, code = before ++ .label l :: after ∧ target = .label l :: after := by
  unfold codeFrom at h
  have hsplit := List.takeWhile_append_dropWhile (p := (· != Item.label l)) (l := code)
  cases hdrop : code.dropWhile (· != .label l) with
  | nil => simp [hdrop] at h
  | cons x after =>
    have hx : x = .label l := by
      have hhead := List.head_dropWhile_not (· != Item.label l) (l := code) (by simp [hdrop])
      simpa [hdrop] using hhead
    subst hx
    rw [hdrop] at h hsplit
    cases h
    exact ⟨_, after, hsplit.symm, rfl⟩

namespace Assembly.MethodDef

variable {d : MethodDef} {items rest rest' : List Item} {S S' : List Entry}

/-- A way stands within the code of the body, or behind it, with the stack of the code before. -/
def Stands (d : MethodDef) (items rest : List Item) (S : List Entry) : Prop :=
  ∃ before after, items = before ++ after ∧ rest = after ++ [.instr .ret] ∧
    d.verify before [] = some S

theorem verify_next (hv : d.verify items [] = some []) {before after : List Item} {x : Item}
    (hi : items = before ++ x :: after) (hb : d.verify before [] = some S) :
    ∃ T, d.verify [x] S = some T := by
  rw [hi, verify_append, hb, Option.bind_some, ← List.singleton_append, verify_append] at hv
  obtain ⟨T, hT, -⟩ := Option.bind_eq_some_iff.mp hv
  exact ⟨T, hT⟩

/-- At its label a branch finds the stack empty. -/
theorem stands_label (hcode : d.code = items ++ [.instr .ret]) (hv : d.verify items [] = some [])
    {l : Label} (hl : codeFrom l d.code = some rest) : d.Stands items rest [] := by
  obtain ⟨before, after, hsplit, rfl⟩ := codeFrom_eq_some hl
  rw [hcode] at hsplit
  rcases List.eq_nil_or_concat after with rfl | ⟨init, last, rfl⟩
  · cases (List.append_inj' hsplit rfl).2
  rw [List.concat_eq_append, ← List.cons_append, ← List.append_assoc] at hsplit
  obtain ⟨hitems, hlast⟩ := List.append_inj' hsplit rfl
  cases hlast
  rw [hitems, verify_append] at hv
  obtain ⟨T, hT, hlabel⟩ := Option.bind_eq_some_iff.mp hv
  rw [verify] at hlabel
  split at hlabel
  · next hnil => exact ⟨before, .label l :: init, hitems, by simp, hnil ▸ hT⟩
  · cases hlabel

/-- Verified code leaves behind an instruction what verification finds there, which is nothing if
the instruction is a branch. -/
theorem verify_instr {i : Instr} {T : List Entry} (h : d.verify [.instr i] S = some T)
    (hs : i.Leaves d S S') :
    d.verify [.instr i] S = some S' ∧ (∀ l, i = .brfalse l → S' = []) := by
  have hcheck : i.check d S = some T := by simpa [verify] using h
  obtain rfl := hs T hcheck
  refine ⟨h, ?_⟩
  rintro l rfl
  simp only [Instr.check] at hcheck
  split at hcheck
  · exact (Option.some.inj hcheck).symm
  · cases hcheck

theorem Stands.flow (hcode : d.code = items ++ [.instr .ret]) (hv : d.verify items [] = some [])
    (hs : d.Stands items rest S) (h : d.Flow (rest, S) (rest', S')) : d.Stands items rest' S' := by
  obtain ⟨before, after, hitems, hrest, hb⟩ := hs
  cases after with
  | nil =>
    -- Behind the body there is the `ret` alone, which goes nowhere.
    subst hrest
    cases h with
    | instr hg => cases hg
  | cons x after =>
    subst hrest
    obtain ⟨T, hT⟩ := verify_next hv hitems hb
    have hnext : ∀ {U}, d.verify [x] S = some U → d.Stands items (after ++ [.instr .ret]) U :=
      fun hU => ⟨before ++ [x], after, by simp [hitems], rfl, verify_trans hb hU⟩
    cases h with
    | label =>
      rw [verify] at hT
      split at hT
      · next hnil => exact hnext (by simp [verify, hnil])
      · cases hT
    | instr hg hs => exact hnext (verify_instr hT hs).1
    | br hl =>
      obtain rfl : S = [] := by
        by_contra hne
        simp [verify, Instr.check, hne] at hT
      exact stands_label hcode hv hl
    | stay hs => exact hnext (verify_instr hT hs).1
    | jump hl hs =>
      rw [(verify_instr hT hs).2 _ rfl]
      exact stands_label hcode hv hl

theorem Path.stands (hcode : d.code = items ++ [.instr .ret]) (hv : d.verify items [] = some [])
    {n : Nat} {a b : List Item × List Entry} (hp : d.Path n a b) (hs : d.Stands items a.1 a.2) :
    d.Stands items b.1 b.2 := by
  induction hp with
  | here => exact hs
  | step hflow _ ih => exact ih (hs.flow hcode hv hflow)

def Finishes (d : MethodDef) (S : List Entry) : Prop :=
  ∃ n, d.Path n (d.code, []) ([.instr .ret], S)

/-- Behind verified code nothing is left on the stack. -/
theorem Finishes.stack_eq_nil (hcode : d.code = items ++ [.instr .ret])
    (hv : d.verify items [] = some []) (h : d.Finishes S) : S = [] := by
  obtain ⟨n, hp⟩ := h
  obtain ⟨before, after, hitems, hrest, hb⟩ :=
    hp.stands hcode hv ⟨[], items, rfl, hcode, rfl⟩
  obtain rfl : after = [] := List.append_left_eq_self.mp hrest.symm
  rw [List.append_nil] at hitems
  rw [← hitems, hv] at hb
  exact (Option.some.inj hb).symm

/-- If nothing is on the stack behind the body, then a result is there only if no way comes there.
-/
theorem finishes_result_iff (hs : ∀ S, d.Finishes S → S = []) (hr : d.returns ≠ .void) :
    (∀ S, d.Finishes S → S = d.returns.entry.toList) ↔ ¬∃ S, d.Finishes S := by
  constructor
  · rintro hall ⟨S, hl⟩
    have hresult := (hs S hl).symm.trans (hall S hl)
    cases hret : d.returns <;> simp [hret, AsmType.entry] at hresult hr
  · exact fun hno S hl => absurd ⟨S, hl⟩ hno

end Assembly.MethodDef

/-- The `ret` behind a body is reached exactly if the statements of the body can come to their end.
-/
theorem Lowering.StmtsCodes.finishes_iff {ctx : Context} {r : Resolutions} {f : Frame}
    {n next : Nat} {body : List Stmt} {items : List Item} {d : MethodDef}
    (h : StmtsCodes ctx r f n body items next) (hcode : d.code = items ++ [.instr .ret]) :
    (∃ S, d.Finishes S) ↔ Stmt.allComplete body = true := by
  have hl : Located d n items [.instr .ret] := ⟨[], hcode, .nil⟩
  simp only [MethodDef.Finishes, hcode]
  constructor
  · rintro ⟨S, k, hp⟩
    exact (h.exits hl _ _ _ _ hp (Nat.le_refl _)).1
  · intro hcomp
    obtain ⟨k, S, hp⟩ := h.passes hl hcomp []
    exact ⟨S, k, hp⟩

theorem Compiled.finishes_iff {t : Table} {target : Target} {path : List String} {m : Method}
    {d : MethodDef} (hc : Compiled t target (path, m) d) :
    (∃ S, d.Finishes S) ↔ Stmt.allComplete (m.body.getD []) = true := by
  cases hc with
  | intro _ _ _ _ hbody _ _ _ _ hcodes =>
    rw [hbody, Option.getD_some]
    exact hcodes.finishes_iff rfl

/-- What is on the stack where the code of a method ends: nothing, so that a method with a result
has it there only if its body does not come to its end. -/
structure EndsEmpty (m : Method) (d : MethodDef) : Prop where
  stack : ∀ S, d.Finishes S → S = []
  result : d.returns ≠ .void →
    ((∀ S, d.Finishes S → S = d.returns.entry.toList) ↔
      Stmt.allComplete (m.body.getD []) = false)

theorem Accepted.endsEmpty {t : Table} {target : Target} {ds : List Decl} {img : Image}
    (h : Accepted t target ds img) (hv : ∀ d ∈ ds, d.isVoidFree = true)
    (hn : ∀ d ∈ ds, d.isNarrow = true) {path : List String} {m : Method} {d : MethodDef}
    (hm : .method path m ∈ ds) (hc : Compiled t target (path, m) d) : EndsEmpty m d := by
  obtain ⟨_, _, _, _, hcode, hverify⟩ := (h.verified hv hn hm hc).code
  have hstack : ∀ S, d.Finishes S → S = [] := fun S hl => hl.stack_eq_nil hcode hverify
  refine ⟨hstack, fun hr => ?_⟩
  rw [MethodDef.finishes_result_iff hstack hr, hc.finishes_iff, Bool.not_eq_true]

/-- In an accepted unit, the `ret` behind the body of a method is reached exactly if the body can
come to its end. If no variable has the type `void` and positions and slots do not run out, then
nothing is on the stack there. -/
theorem code_ends {u : CompilationUnit} {options : Options} {listing : Listing}
    (hf : u.isFresh = true) (hc : (compile u options).result = .ok (some listing)) :
    List.Forall₂ (fun x d =>
        ((∃ S, d.Finishes S) ↔ Stmt.allComplete (x.2.body.getD []) = true) ∧
          (u.isVoidFree = true → u.isNarrow = true → EndsEmpty x.2 d))
      (Decl.methods (compile u options).unit.decls) listing.image.methods := by
  obtain ⟨t, entry, hacc, hvoid, hnarrow⟩ := accepted_with_conditions hf hc
  exact forall₂_imp_of_mem hacc.methods fun ⟨path, m⟩ d hm hd =>
    ⟨hd.finishes_iff, fun hv hn =>
      hacc.endsEmpty (hvoid hv) (hnarrow hn) (Decl.mem_methods.mp hm) hd⟩

theorem code_ends_sample : ∃ listing, (compile Sample.unit .default).result = .ok (some listing) ∧
    listing.image.methods.length = 4 ∧ Sample.unit.isVoidFree = true ∧
      Sample.unit.isNarrow = true ∧
      List.Forall₂ (fun x d =>
          ((∃ S, d.Finishes S) ↔ Stmt.allComplete (x.2.body.getD []) = true) ∧
            (Sample.unit.isVoidFree = true → Sample.unit.isNarrow = true → EndsEmpty x.2 d))
        (Decl.methods (compile Sample.unit .default).unit.decls) listing.image.methods := by
  obtain ⟨listing, hl, hcount⟩ := Sample.unit_accepted
  exact ⟨listing, hl, hcount, by decide +kernel, by decide +kernel,
    code_ends (by decide +kernel) hl⟩

def Sample.unfinished : CompilationUnit :=
  ⟨some ⟨⟨.plain "Main", [], none, [], none⟩, [method [.static] (word .int) "f" [] []]⟩⟩

/-- The end of a method that has a result may be reached without one. A machine stops there. -/
theorem unfinished_method_accepted : ∃ listing d,
    (compile Sample.unfinished .default).result = .ok (some listing) ∧
      d ∈ listing.image.methods ∧ d.returns = .int32 ∧
      d.Finishes [] ∧ d.verify d.code [] = none ∧
      ∀ cmp w, (Machine.start d [] w).step cmp listing.image = none := by
  have hcode : (compile Sample.unfinished .default).assembly.map (fun listing =>
      listing.image.methods.map fun d => (d.returns, d.code)) = some [(.int32, [.instr .ret])] := by
    decide +kernel
  obtain ⟨listing, hl, hmap⟩ := Option.map_eq_some_iff.mp hcode
  obtain ⟨d, hd, hpair⟩ := List.mem_map.mp (hmap ▸ List.mem_singleton_self _)
  obtain ⟨hreturns, hcode⟩ := Prod.mk.inj hpair
  refine ⟨listing, d, Compilation.result_of_assembly hl, hd, hreturns, ?_, ?_, fun w => ?_⟩
  · exact ⟨0, hcode ▸ .here⟩
  · simp [hcode, MethodDef.verify, Instr.check, hreturns, AsmType.entry]
  · simp [Machine.start, MethodDef.enter, Machine.step, hcode, Instr.step, hreturns]

end ClassLang
