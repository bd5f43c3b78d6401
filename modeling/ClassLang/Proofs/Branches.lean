import ClassLang.Proofs.Accepted
import ClassLang.Proofs.Stripped
import Mathlib.Data.List.Nodup

/-! Labels and the branches to them. The labels of a program all have different spellings, and every
branch goes to a label of its own method: back to one before it at the end of the body of a loop,
and on to one after it everywhere else. All code of the listing belongs to a method or a
constructor, so nothing is left out. The same walk over the code shows that a method of objects
never stores to `this`. -/
namespace ClassLang

open Assembly Lowering

namespace Assembly

def Instr.target? : Instr → Option Label
  | .br l | .brfalse l => some l
  | _ => none

/-- Neither a branch nor a store to `this`. -/
def Instr.isTame (hasThis : Bool) : Instr → Bool
  | .br _ | .brfalse _ => false
  | .starg n => !hasThis || n != 0
  | _ => true

theorem Instr.target?_of_isTame {hasThis : Bool} {i : Instr} (h : i.isTame hasThis = true) :
    i.target? = none := by
  cases i with
  | br | brfalse => cases h
  | _ => rfl

theorem Label.text_eq (l : Label) :
    l.text.toList = l.stem.toList ++ '_' :: Nat.toDigits 10 l.number := by
  simp [Label.text, toString]

/-- The number can be read off the spelling: it stands behind the last underscore. -/
theorem Label.number_of_text {a b : Label} (h : a.text = b.text) : a.number = b.number := by
  have hread : ∀ l : Label,
      l.text.toList.reverse.takeWhile (· != '_') = (Nat.toDigits 10 l.number).reverse := by
    intro l
    have hdigits : ∀ c ∈ (Nat.toDigits 10 l.number).reverse, (c != '_') = true := by
      intro c hc
      rw [bne_iff_ne]
      rintro rfl
      exact Nat.underscore_not_in_toDigits (List.mem_reverse.mp hc)
    rw [Label.text_eq, List.reverse_append, List.reverse_cons, List.append_assoc,
      List.takeWhile_append_of_pos hdigits]
    simp
  have hdigits := hread a
  rw [h, hread b, List.reverse_inj] at hdigits
  calc a.number = Nat.ofDigitChars 10 (Nat.toDigits 10 a.number) 0 :=
      Nat.ofDigitChars_ten_toDigits.symm
    _ = Nat.ofDigitChars 10 (Nat.toDigits 10 b.number) 0 := by rw [hdigits]
    _ = b.number := Nat.ofDigitChars_ten_toDigits

end Assembly

namespace Lowering

namespace Item

def target? : Item → Option Label
  | .instr i => i.target?
  | .label _ => none

def label? : Item → Option Label
  | .instr _ => none
  | .label l => some l

end Item

def labels (items : List Item) : List Label := items.filterMap Item.label?

@[simp] theorem labels_nil : labels [] = [] := rfl

@[simp] theorem labels_append (xs ys : List Item) : labels (xs ++ ys) = labels xs ++ labels ys :=
  List.filterMap_append

@[simp] theorem labels_instr (i : Instr) (items : List Item) :
    labels (.instr i :: items) = labels items := rfl

@[simp] theorem labels_label (l : Label) (items : List Item) :
    labels (.label l :: items) = l :: labels items := rfl

@[simp] theorem labels_instrs (is : List Instr) : labels (is.map .instr) = [] := by
  induction is with
  | nil => rfl
  | cons i is ih => exact ih

theorem mem_labels {l : Label} {items : List Item} : l ∈ labels items ↔ .label l ∈ items := by
  induction items with
  | nil => simp
  | cons item items ih => cases item <;> simp [ih]

/-- Labels with different numbers, all of them from `a` on and below `b`. -/
structure Numbered (a b : Nat) (ls : List Label) : Prop where
  le : a ≤ b
  within : ∀ l ∈ ls, a ≤ l.number ∧ l.number < b
  distinct : (ls.map Label.number).Nodup

namespace Numbered

variable {a b c : Nat} {xs ys : List Label}

theorem nil : Numbered a a [] := ⟨Nat.le_refl a, by simp, by simp⟩

theorem single (l : Label) : Numbered l.number (l.number + 1) [l] :=
  ⟨Nat.le_succ _, by simp, by simp⟩

theorem append (hx : Numbered a b xs) (hy : Numbered b c ys) : Numbered a c (xs ++ ys) := by
  refine ⟨Nat.le_trans hx.le hy.le, ?_, ?_⟩
  · intro l hl
    rcases List.mem_append.mp hl with hl | hl
    · exact ⟨(hx.within l hl).1, Nat.lt_of_lt_of_le (hx.within l hl).2 hy.le⟩
    · exact ⟨Nat.le_trans hx.le (hy.within l hl).1, (hy.within l hl).2⟩
  · rw [List.map_append, List.nodup_append]
    refine ⟨hx.distinct, hy.distinct, ?_⟩
    intro m hm n hn
    obtain ⟨k, hk, rfl⟩ := List.mem_map.mp hm
    obtain ⟨l, hl, rfl⟩ := List.mem_map.mp hn
    have := (hx.within k hk).2
    have := (hy.within l hl).1
    omega

theorem perm (h : Numbered a b xs) (hp : xs.Perm ys) : Numbered a b ys :=
  ⟨h.le, fun l hl => h.within l (hp.mem_iff.mpr hl), (hp.map _).nodup_iff.mp h.distinct⟩

/-- Different numbers make different spellings. -/
theorem texts (h : Numbered a b xs) : (xs.map Label.text).Nodup := by
  have hnumbers := h.distinct
  rw [List.Nodup, List.pairwise_map] at hnumbers ⊢
  exact hnumbers.imp fun hne heq => hne (Label.number_of_text heq)

end Numbered

def Emission.Straight (hasThis : Bool) (e : Emission) : Prop :=
  ∀ i ∈ e.instrs, i.isTame hasThis = true

namespace Emission.Straight

variable {hasThis : Bool}

theorem of_all {is : List Instr} (h : is.all (Instr.isTame hasThis) = true) :
    (Emission.of is).Straight hasThis := List.all_eq_true.mp h

theorem keepsThis {e : Emission} (h : e.Straight hasThis) (ht : hasThis = true) :
    .starg 0 ∉ e.instrs := by
  intro hmem
  have htame := h _ hmem
  rw [ht] at htame
  cases htame

theorem fail (fault : Fault) : (Emission.fail fault).Straight hasThis := fun i hi => by cases hi

theorem append {a b : Emission} (ha : a.Straight hasThis) (hb : b.Straight hasThis) :
    (a ++ b).Straight hasThis := by
  obtain ⟨is, _ | fault⟩ := a
  · exact List.forall_mem_append.mpr ⟨ha, hb⟩
  · exact ha

theorem need {α : Type} {value : Except Fault α} {rest : α → Emission}
    (h : ∀ a, (rest a).Straight hasThis) : (Emission.need value rest).Straight hasThis := by
  cases value with
  | ok a => exact h a
  | error fault => exact fail fault

end Emission.Straight

namespace Frame

variable (f : Frame)

theorem pushThis_straight (found : Intruder) : (f.pushThis found).Straight f.hasThis := by
  unfold pushThis
  split
  · exact .of_all rfl
  · exact .fail _

theorem load_straight (s : Symbol) : (f.load s).Straight f.hasThis := by
  unfold load
  split
  · exact .of_all rfl
  · exact .of_all rfl
  · exact .need fun _ => .of_all rfl
  · exact .append (f.pushThis_straight _) (.need fun _ => .of_all rfl)
  · exact .of_all rfl

theorem store_straight (s : Symbol) {value : Emission} (keep : Bool)
    (h : value.Straight f.hasThis) : (f.store s value keep).Straight f.hasThis := by
  have hcopied : (value ++ Emission.of (if keep then [.dup] else [])).Straight f.hasThis :=
    h.append (.of_all (by cases keep <;> rfl))
  unfold store
  rcases s.details with _ | _ | ⟨type, index | index | ⟨_ | _, owner⟩⟩
  · exact .fail _
  · exact .fail _
  · exact hcopied.append (.of_all rfl)
  · exact hcopied.append (.of_all (by cases h : f.hasThis <;> simp [Instr.isTame, argument, h]))
  · exact .need fun _ => ((f.pushThis_straight _).append h).append
      (.of_all (by cases keep <;> rfl))
  · exact hcopied.append (.need fun _ => .of_all rfl)

theorem assign_straight (target : Expr) {value : Emission} (keep : Bool)
    (h : value.Straight f.hasThis) : (f.assign target value keep).Straight f.hasThis := by
  unfold assign
  split
  · exact .need fun s => f.store_straight s keep h
  · exact .fail _

theorem invoke_straight (m : Symbol) {args : Emission} (h : args.Straight f.hasThis) :
    (f.invoke m args).Straight f.hasThis := by
  unfold invoke
  split
  · refine .need fun params => .need fun returns => ?_
    split
    · exact h.append (.of_all rfl)
    · refine .append (.append ?_ h) (.of_all rfl)
      split
      · exact .of_all rfl
      · exact f.pushThis_straight _
  · exact .fail _

end Frame

theorem binaryCode_straight (hasThis : Bool) (op : BinaryOp) (type : Ty) :
    (binaryCode op type).Straight hasThis := by
  unfold binaryCode
  split
  · cases op <;> first | exact .fail _ | exact .of_all rfl
  · cases op <;> exact .of_all rfl

mutual

theorem lowerExpr_straight (f : Frame) : ∀ e : Expr, (lowerExpr f e).Straight f.hasThis
  | .literal value _ => by
    rw [lowerExpr]
    exact .of_all (by rcases value with _ | _ | (_ | _) | _ <;> rfl)
  | .this _ => by
    rw [lowerExpr]
    exact f.pushThis_straight _
  | .name n _ => by
    rw [lowerExpr]
    exact .need fun s => f.load_straight s
  | .unary op operand _ => by
    rw [lowerExpr]
    exact (lowerExpr_straight f operand).append (.of_all (by cases op <;> rfl))
  | .binary op left right _ => by
    rw [lowerExpr]
    exact ((lowerExpr_straight f left).append (lowerExpr_straight f right)).append
      (.need fun type => binaryCode_straight f.hasThis op type)
  | .assign target value _ => by
    rw [lowerExpr]
    exact f.assign_straight target true (lowerExpr_straight f value)
  | .call callee args _ => by
    cases callee with
    | name n _ =>
      rw [lowerExpr]
      exact .need fun m => f.invoke_straight m (lowerArgs_straight f args)
    | _ =>
      simp only [lowerExpr]
      exact .fail _
  | .create n args _ => by
    rw [lowerExpr]
    exact .need fun s => .need fun path => .of_all rfl
  | .field .. => by
    rw [lowerExpr]
    exact .fail _
  | .index .. => by
    rw [lowerExpr]
    exact .fail _

theorem lowerArgs_straight (f : Frame) : ∀ args : List Expr,
    (lowerArgs f args).Straight f.hasThis
  | [] => by
    rw [lowerArgs]
    exact .of_all rfl
  | e :: rest => by
    rw [lowerArgs]
    exact (lowerExpr_straight f e).append (lowerArgs_straight f rest)

end

theorem lowerValue_straight (f : Frame) (e : Expr) : (lowerValue f e).Straight f.hasThis := by
  unfold lowerValue
  split
  · exact f.assign_straight _ false (lowerExpr_straight f _)
  · exact (lowerExpr_straight f e).append (.need fun b => .of_all (by cases b <;> rfl))

theorem lowerLocals_straight (f : Frame) (vars : List Declarator) :
    (lowerLocals f vars).Straight f.hasThis := by
  induction vars with
  | nil => exact .of_all rfl
  | cons v vars ih =>
    refine .append ?_ ih
    unfold lowerLocal
    split
    · exact .of_all rfl
    · refine .need fun s => ?_
      split
      · exact (lowerExpr_straight f _).append (.of_all rfl)
      · exact .fail _

structure Tracked where
  item : Item
  /-- Whether this is the jump at the end of the body of a loop. -/
  repeats : Bool

namespace Tracked

def instr (i : Instr) : Tracked := ⟨.instr i, false⟩

def label (l : Label) : Tracked := ⟨.label l, false⟩

def jumpBack (l : Label) : Tracked := ⟨.instr (.br l), true⟩

end Tracked

def trackEmission (e : Emission) : List Tracked := e.instrs.map .instr

mutual

/-- The code of a statement that takes its labels from `n` on. -/
def trackStmt (f : Frame) : Stmt → Nat → List Tracked
  | .block body _, n => trackStmts f body n
  | .expr value _ _, _ => trackEmission (lowerValue f value)
  | .locals d, _ => trackEmission (lowerLocals f d.vars)
  | .ifThen cond thenBody _, n =>
    trackEmission (lowerExpr f cond) ++ [.instr (.brfalse ⟨"END_IF", n⟩)] ++
      trackStmt f thenBody (n + 1) ++ [.label ⟨"END_IF", n⟩]
  | .ifElse cond thenBody elseBody _, n =>
    trackEmission (lowerExpr f cond) ++ [.instr (.brfalse ⟨"ELSE", n + 1⟩)] ++
      trackStmt f thenBody (n + 2) ++ [.instr (.br ⟨"END_IF", n⟩)] ++ [.label ⟨"ELSE", n + 1⟩] ++
      trackStmt f elseBody (lowerStmt f thenBody (n + 2)).nextLabel ++ [.label ⟨"END_IF", n⟩]
  | .loop cond body _, n =>
    [.label ⟨"LOOP", n⟩] ++ trackEmission (lowerExpr f cond) ++
      [.instr (.brfalse ⟨"END_LOOP", n + 1⟩)] ++ trackStmt f body (n + 2) ++
      [.jumpBack ⟨"LOOP", n⟩] ++ [.label ⟨"END_LOOP", n + 1⟩]
  | .ret value _, _ => trackEmission (value.elim (.of []) (lowerExpr f) ++ .of [.ret])
  | .empty _, _ => []

def trackStmts (f : Frame) : List Stmt → Nat → List Tracked
  | [], _ => []
  | s :: rest, n => trackStmt f s n ++ trackStmts f rest (lowerStmt f s n).nextLabel

end

/-- Every branch has its label, given those before the code and those after it. The jump at the end
of a loop goes back and every other branch goes on. -/
def Linked (before after : List Label) (xs : List Tracked) : Prop :=
  ∀ pre x post, xs = pre ++ x :: post → ∀ l, x.item.target? = some l →
    if x.repeats then l ∈ before ++ labels (pre.map Tracked.item)
    else l ∈ labels (post.map Tracked.item) ++ after

namespace Linked

variable {before after before' after' : List Label} {xs ys : List Tracked}

theorem nil : Linked before after [] := by
  intro pre x post h
  simp at h

theorem widen (h : Linked before after xs) (hb : before ⊆ before') (ha : after ⊆ after') :
    Linked before' after' xs := by
  intro pre x post heq l hl
  have hlink := h pre x post heq l hl
  split at hlink
  · next hr =>
    rw [if_pos hr]
    exact List.append_subset.mpr ⟨fun a ha => List.mem_append_left _ (hb ha),
      List.subset_append_right _ _⟩ hlink
  · next hr =>
    rw [if_neg hr]
    exact List.append_subset.mpr ⟨List.subset_append_left _ _,
      fun a h => List.mem_append_right _ (ha h)⟩ hlink

/-- In a row, the labels of each part serve the other. -/
theorem append (hx : Linked before (labels (ys.map Tracked.item) ++ after) xs)
    (hy : Linked (before ++ labels (xs.map Tracked.item)) after ys) :
    Linked before after (xs ++ ys) := by
  intro pre x post heq l hl
  rcases List.append_eq_append_iff.mp heq with ⟨mid, rfl, hmid⟩ | ⟨mid, rfl, hmid⟩
  · have hlink := hy mid x post hmid l hl
    simpa [List.append_assoc] using hlink
  · cases mid with
    | nil =>
      have hlink := hy [] x post hmid.symm l hl
      simpa [List.append_assoc] using hlink
    | cons y mid =>
      obtain ⟨rfl, rfl⟩ := List.cons.inj hmid
      have hlink := hx pre x mid rfl l hl
      simpa [List.append_assoc] using hlink

theorem emission {e : Emission} {hasThis : Bool} (h : e.Straight hasThis) :
    Linked before after (trackEmission e) := by
  intro pre x post heq l hl
  have hmem : x ∈ trackEmission e := by
    rw [heq]
    exact List.mem_append_right pre List.mem_cons_self
  obtain ⟨i, hi, rfl⟩ := List.mem_map.mp hmem
  rw [show (Tracked.instr i).item.target? = none from
    Instr.target?_of_isTame (h i hi)] at hl
  cases hl

theorem single {x : Tracked} (h : ∀ l, x.item.target? = some l → if x.repeats then l ∈ before
    else l ∈ after) : Linked before after [x] := by
  intro pre y post heq l hl
  cases pre with
  | nil =>
    obtain ⟨rfl, rfl⟩ := List.cons.inj heq
    simpa using h l hl
  | cons z pre =>
    have hnil := (List.cons.inj heq).2
    simp at hnil

theorem label (l : Label) : Linked before after [.label l] := .single fun _ h => by cases h

end Linked

structure Tracks (hasThis : Bool) (n next : Nat) (items : List Item) (xs : List Tracked) :
    Prop where
  items_eq : xs.map Tracked.item = items
  keepsThis : hasThis = true → .instr (.starg 0) ∉ items
  numbered : Numbered n next (labels items)
  linked : Linked [] [] xs

namespace Tracks

variable {hasThis : Bool} {n m next : Nat} {items items' : List Item} {xs ys : List Tracked}
  {e : Emission}

theorem nil : Tracks hasThis n n [] [] := ⟨rfl, by simp, .nil, .nil⟩

theorem within {before after : List Label} (h : Tracks hasThis n next items xs) :
    Linked before after xs :=
  h.linked.widen (List.nil_subset _) (List.nil_subset _)

theorem append (hx : Tracks hasThis n m items xs) (hy : Tracks hasThis m next items' ys) :
    Tracks hasThis n next (items ++ items') (xs ++ ys) := by
  refine ⟨by rw [List.map_append, hx.items_eq, hy.items_eq], fun ht => ?_, ?_,
    .append hx.within hy.within⟩
  · rw [List.mem_append, not_or]
    exact ⟨hx.keepsThis ht, hy.keepsThis ht⟩
  · rw [labels_append]
    exact hx.numbered.append hy.numbered

theorem map_item_trackEmission (e : Emission) :
    (trackEmission e).map Tracked.item = e.instrs.map .instr := by
  rw [trackEmission, List.map_map]
  rfl

theorem emission (h : e.Straight hasThis) :
    Tracks hasThis n n (e.instrs.map .instr) (trackEmission e) := by
  refine ⟨map_item_trackEmission e, fun ht => ?_, by rw [labels_instrs]; exact .nil, .emission h⟩
  simpa using h.keepsThis ht

theorem ifThen (hc : e.Straight hasThis) (h : Tracks hasThis (n + 1) next items xs) :
    Tracks hasThis n next (e.instrs.map .instr ++ [.instr (.brfalse ⟨"END_IF", n⟩)] ++ items ++
      [.label ⟨"END_IF", n⟩])
      (trackEmission e ++ [.instr (.brfalse ⟨"END_IF", n⟩)] ++ xs ++ [.label ⟨"END_IF", n⟩]) := by
  constructor
  · simp [map_item_trackEmission, h.items_eq, Tracked.instr, Tracked.label]
  · intro ht
    simpa using ⟨hc.keepsThis ht, h.keepsThis ht⟩
  · have hall := (Numbered.single ⟨"END_IF", n⟩).append h.numbered
    simpa using hall.perm List.perm_append_comm
  · refine .append (.append (.append (.emission hc) (.single ?_)) h.within) (.label _)
    rintro _ ⟨⟩
    simp [Tracked.instr, Tracked.label]

theorem ifElse (hc : e.Straight hasThis) (hx : Tracks hasThis (n + 2) m items xs)
    (hy : Tracks hasThis m next items' ys) :
    Tracks hasThis n next (e.instrs.map .instr ++ [.instr (.brfalse ⟨"ELSE", n + 1⟩)] ++ items ++
      [.instr (.br ⟨"END_IF", n⟩)] ++ [.label ⟨"ELSE", n + 1⟩] ++ items' ++ [.label ⟨"END_IF", n⟩])
      (trackEmission e ++ [.instr (.brfalse ⟨"ELSE", n + 1⟩)] ++ xs ++
        [.instr (.br ⟨"END_IF", n⟩)] ++ [.label ⟨"ELSE", n + 1⟩] ++ ys ++
        [.label ⟨"END_IF", n⟩]) := by
  constructor
  · simp [map_item_trackEmission, hx.items_eq, hy.items_eq, Tracked.instr, Tracked.label]
  · intro ht
    simpa using ⟨hc.keepsThis ht, hx.keepsThis ht, hy.keepsThis ht⟩
  · have hbodies := (Numbered.single ⟨"ELSE", n + 1⟩).append hx.numbered
    have hall := (Numbered.single ⟨"END_IF", n⟩).append
      ((hbodies.perm List.perm_append_comm).append hy.numbered)
    simpa using hall.perm List.perm_append_comm
  · refine .append (.append (.append (.append (.append (.append (.emission hc) (.single ?_))
      hx.within) (.single ?_)) (.label _)) hy.within) (.label _)
    all_goals
      rintro _ ⟨⟩
      simp [Tracked.instr, Tracked.label]

theorem loop (hc : e.Straight hasThis) (h : Tracks hasThis (n + 2) next items xs) :
    Tracks hasThis n next ([.label ⟨"LOOP", n⟩] ++ e.instrs.map .instr ++
      [.instr (.brfalse ⟨"END_LOOP", n + 1⟩)] ++ items ++ [.instr (.br ⟨"LOOP", n⟩)] ++
      [.label ⟨"END_LOOP", n + 1⟩])
      ([.label ⟨"LOOP", n⟩] ++ trackEmission e ++ [.instr (.brfalse ⟨"END_LOOP", n + 1⟩)] ++ xs ++
        [.jumpBack ⟨"LOOP", n⟩] ++ [.label ⟨"END_LOOP", n + 1⟩]) := by
  constructor
  · simp [map_item_trackEmission, h.items_eq, Tracked.instr, Tracked.label, Tracked.jumpBack]
  · intro ht
    simpa using ⟨hc.keepsThis ht, h.keepsThis ht⟩
  · have hbody := (Numbered.single ⟨"END_LOOP", n + 1⟩).append h.numbered
    have hall := (Numbered.single ⟨"LOOP", n⟩).append (hbody.perm List.perm_append_comm)
    simpa using hall
  · refine .append (.append (.append (.append (.append (.label _) (.emission hc)) (.single ?_))
      h.within) (.single ?_)) (.label _)
    all_goals
      rintro _ ⟨⟩
      simp [Tracked.instr, Tracked.label, Tracked.jumpBack]

end Tracks

theorem Code.of_whole_inv {e : Emission} {n next : Nat} {items : List Item}
    (h : Code.of e n = ⟨items, next, none⟩) : items = e.instrs.map .instr ∧ next = n := by
  injection h with hitems hnext
  exact ⟨hitems.symm, hnext.symm⟩

mutual

theorem trackStmt_tracks {f : Frame} : ∀ {stmt : Stmt} {n next : Nat} {items : List Item},
    lowerStmt f stmt n = ⟨items, next, none⟩ →
      Tracks f.hasThis n next items (trackStmt f stmt n)
  | .block body _, _, _, _, h => by
    rw [lowerStmt] at h
    rw [trackStmt]
    exact trackStmts_tracks h
  | .expr value _ _, _, _, _, h => by
    rw [lowerStmt] at h
    obtain ⟨rfl, rfl⟩ := Code.of_whole_inv h
    rw [trackStmt]
    exact .emission (lowerValue_straight f value)
  | .locals d, _, _, _, h => by
    rw [lowerStmt] at h
    obtain ⟨rfl, rfl⟩ := Code.of_whole_inv h
    rw [trackStmt]
    exact .emission (lowerLocals_straight f d.vars)
  | .ifThen cond thenBody _, n, _, _, h => by
    rw [lowerStmt] at h
    obtain ⟨_, _, _, h₁, hmark, rfl⟩ := Code.append_whole_iff.mp h
    obtain ⟨_, _, _, h₂, hbody, rfl⟩ := Code.append_whole_iff.mp h₁
    obtain ⟨_, _, _, hcond, hbranch, rfl⟩ := Code.append_whole_iff.mp h₂
    obtain ⟨rfl, rfl⟩ := Code.of_whole_inv hcond
    cases hbranch
    cases hmark
    rw [trackStmt]
    exact .ifThen (lowerExpr_straight f cond) (trackStmt_tracks hbody)
  | .ifElse cond thenBody elseBody _, n, _, _, h => by
    rw [lowerStmt] at h
    obtain ⟨_, _, _, hcond, h₁, rfl⟩ := Code.append_whole_iff.mp h
    obtain ⟨_, _, _, h₂, hdone, rfl⟩ := Code.append_whole_iff.mp h₁
    obtain ⟨_, _, _, h₃, helse, rfl⟩ := Code.append_whole_iff.mp h₂
    obtain ⟨_, _, _, h₄, hother, rfl⟩ := Code.append_whole_iff.mp h₃
    obtain ⟨_, _, _, h₅, hjump, rfl⟩ := Code.append_whole_iff.mp h₄
    obtain ⟨_, _, _, hbranch, hthen, rfl⟩ := Code.append_whole_iff.mp h₅
    obtain ⟨rfl, rfl⟩ := Code.of_whole_inv hcond
    cases hbranch
    cases hjump
    cases hother
    cases hdone
    have hall := Tracks.ifElse (lowerExpr_straight f cond) (trackStmt_tracks hthen)
      (trackStmt_tracks helse)
    rw [trackStmt, hthen]
    simpa [List.append_assoc, Emission.of] using hall
  | .loop cond body _, n, _, _, h => by
    rw [lowerStmt] at h
    obtain ⟨_, _, _, h₁, hdone, rfl⟩ := Code.append_whole_iff.mp h
    obtain ⟨_, _, _, h₂, hjump, rfl⟩ := Code.append_whole_iff.mp h₁
    obtain ⟨_, _, _, h₃, hbody, rfl⟩ := Code.append_whole_iff.mp h₂
    obtain ⟨_, _, _, h₄, hbranch, rfl⟩ := Code.append_whole_iff.mp h₃
    obtain ⟨_, _, _, hagain, hcond, rfl⟩ := Code.append_whole_iff.mp h₄
    cases hagain
    obtain ⟨rfl, rfl⟩ := Code.of_whole_inv hcond
    cases hbranch
    cases hjump
    cases hdone
    rw [trackStmt]
    exact .loop (lowerExpr_straight f cond) (trackStmt_tracks hbody)
  | .ret value _, _, _, _, h => by
    rw [lowerStmt] at h
    obtain ⟨rfl, rfl⟩ := Code.of_whole_inv h
    rw [trackStmt]
    refine .emission (.append ?_ (.of_all rfl))
    cases value with
    | none => exact .of_all rfl
    | some value => exact lowerExpr_straight f value
  | .empty _, _, _, _, h => by
    rw [lowerStmt] at h
    cases h
    rw [trackStmt]
    exact .nil

theorem trackStmts_tracks {f : Frame} : ∀ {body : List Stmt} {n next : Nat} {items : List Item},
    lowerStmts f body n = ⟨items, next, none⟩ →
      Tracks f.hasThis n next items (trackStmts f body n)
  | [], _, _, _, h => by
    rw [lowerStmts] at h
    cases h
    rw [trackStmts]
    exact .nil
  | s :: rest, _, _, _, h => by
    rw [lowerStmts] at h
    obtain ⟨_, _, _, hs, hrest, rfl⟩ := Code.append_whole_iff.mp h
    rw [trackStmts, hs]
    exact (trackStmt_tracks hs).append (trackStmts_tracks hrest)

end

end Lowering

namespace Assembly

def Line.item? : Line → Option Item
  | .instr i => some (.instr i)
  | .label l => some (.label l)
  | _ => none

def Line.isInner : Line → Bool
  | .entryPoint | .maxStack _ | .locals _ | .instr _ | .label _ => true
  | _ => false

def Line.isOuter : Line → Bool
  | .usesLibrary _ | .assembly _ | .program _ | .blank | .cls .. | .field .. | .openBrace
  | .closeBrace => true
  | _ => false

def Line.isHead : Line → Bool
  | .method .. | .ctor => true
  | _ => false

/-- The code in the lines, from top to bottom. -/
def codeOf (lines : List Placed) : List Item := lines.filterMap fun p => p.line.item?

@[simp] theorem codeOf_nil : codeOf [] = [] := rfl

@[simp] theorem codeOf_cons (p : Placed) (lines : List Placed) :
    codeOf (p :: lines) = p.line.item?.toList ++ codeOf lines := by
  rw [codeOf, List.filterMap_cons]
  cases p.line.item? <;> rfl

@[simp] theorem codeOf_append (a b : List Placed) : codeOf (a ++ b) = codeOf a ++ codeOf b :=
  List.filterMap_append

theorem codeOf_place (depth : Nat) (items : List Item) :
    codeOf (items.map (Writer.place depth)) = items := by
  induction items with
  | nil => rfl
  | cons item items ih =>
    cases item <;> exact congrArg (_ :: ·) ih

def Image.code (img : Image) : List Item := img.bodies.flatMap MethodDef.code

theorem Image.code_append (a b : Image) : (a ++ b).code.Perm (a.code ++ b.code) := by
  obtain ⟨ca, fa, ma, ka⟩ := a
  obtain ⟨cb, fb, mb, kb⟩ := b
  change ((ma ++ mb) ++ (ka ++ kb)).flatMap _ |>.Perm ((ma ++ ka).flatMap _ ++ (mb ++ kb).flatMap _)
  rw [← List.flatMap_append]
  refine List.Perm.flatMap_right _ ?_
  rw [List.append_assoc, List.append_assoc]
  refine List.Perm.append_left ma ?_
  rw [← List.append_assoc, ← List.append_assoc]
  exact List.Perm.append_right kb List.perm_append_comm

def Kept (lines : List Placed) : Prop :=
  ∀ r : Reader, r.opened = none → (r.readAll lines).opened = none ∧
    (r.readAll lines).image.code.Perm (r.image.code ++ codeOf lines)

namespace Kept

theorem nil : Kept [] := fun r h => ⟨h, by simp⟩

theorem append {a b : List Placed} (ha : Kept a) (hb : Kept b) : Kept (a ++ b) := by
  intro r h
  obtain ⟨hopen, hperm⟩ := ha r h
  obtain ⟨hopen', hperm'⟩ := hb _ hopen
  rw [Reader.readAll_append, codeOf_append, ← List.append_assoc]
  exact ⟨hopen', hperm'.trans (hperm.append_right _)⟩

theorem line {p : Placed} (h : p.line.isOuter = true) : Kept [p] := by
  obtain ⟨k, l⟩ := p
  rintro ⟨path, opened, img⟩ rfl
  have hsame : img.code.Perm (img.code ++ []) := by simp
  have hnone : ∀ x : Image, x.code = [] → (img ++ x).code.Perm (img.code ++ []) := by
    intro x hx
    simpa [hx] using img.code_append x
  cases l <;> first
    | exact absurd h Bool.false_ne_true
    | exact ⟨rfl, hsame⟩
    | exact ⟨rfl, hnone _ rfl⟩

theorem readAll_inner {lines : List Placed} : (∀ p ∈ lines, p.line.isInner = true) →
    ∀ (path : List String) (o : Opened) (img : Image), ∃ o' : Opened,
      (Reader.mk path (some o) img).readAll lines = ⟨path, some o', img⟩ ∧
      o'.decl.code = o.decl.code ++ codeOf lines := by
  induction lines with
  | nil => exact fun _ path o img => ⟨o, rfl, by simp⟩
  | cons p lines ih =>
    intro h path o img
    obtain ⟨hp, hlines⟩ := List.forall_mem_cons.mp h
    obtain ⟨o₁, hread, hcode⟩ : ∃ o₁ : Opened,
        (Reader.mk path (some o) img).read p.line = ⟨path, some o₁, img⟩ ∧
        o₁.decl.code = o.decl.code ++ p.line.item?.toList := by
      obtain ⟨k, l⟩ := p
      cases l <;> first
        | exact absurd hp Bool.false_ne_true
        | exact ⟨_, rfl, rfl⟩
        | exact ⟨_, rfl, (List.append_nil _).symm⟩
    obtain ⟨o', hrest, hcode'⟩ := ih hlines path o₁ img
    refine ⟨o', by rw [Reader.readAll_cons, hread, hrest], ?_⟩
    rw [hcode', hcode, List.append_assoc, codeOf_cons]

theorem method {head : Line} {lines : List Placed} {i j k : Nat} (hh : head.isHead = true)
    (h : ∀ p ∈ lines, p.line.isInner = true) :
    Kept (⟨i, head⟩ :: (⟨j, .openBrace⟩ :: lines ++ [⟨k, .closeBrace⟩])) := by
  rintro ⟨path, opened, img⟩ rfl
  obtain ⟨o, hopen, hcode⟩ : ∃ o : Opened,
      (Reader.mk path none img).read head = ⟨path, some o, img⟩ ∧ o.decl.code = [] := by
    cases head <;> first | exact absurd hh Bool.false_ne_true | exact ⟨_, rfl, rfl⟩
  obtain ⟨o', hread, hcode'⟩ := readAll_inner h path o img
  have himg : o'.image.code = o'.decl.code := by
    unfold Opened.image
    split <;> simp [Image.code, Image.bodies]
  have hlines : codeOf (⟨i, head⟩ :: (⟨j, .openBrace⟩ :: lines ++ [⟨k, .closeBrace⟩])) =
      codeOf lines := by
    have hhead : head.item? = none := by
      cases head <;> first | exact absurd hh Bool.false_ne_true | rfl
    simp [hhead, show Line.openBrace.item? = none from rfl,
      show Line.closeBrace.item? = none from rfl]
  have hrun : (Reader.mk path none img).readAll (⟨i, head⟩ :: (⟨j, .openBrace⟩ :: lines ++
      [⟨k, .closeBrace⟩])) = ⟨path, none, img ++ o'.image⟩ := by
    rw [Reader.readAll_cons, hopen, List.cons_append, Reader.readAll_cons, Reader.readAll_append]
    change ((Reader.mk path (some o) img).readAll lines).readAll _ = _
    rw [hread]
    rfl
  rw [hrun, hlines]
  refine ⟨rfl, (img.code_append _).trans ?_⟩
  rw [himg, hcode', hcode, List.nil_append]

end Kept

end Assembly

namespace Lowering

namespace Writer

/-- Lines that a writer leaves satisfy `Q`, and their labels take the numbers the pen gave out. -/
def Leaves (Q : List Placed → Prop) (w : Writer) : Prop :=
  ∀ (pen after : Pen) (lines : List Placed), w pen = ⟨lines, after, none⟩ →
    Q lines ∧ Numbered pen.nextLabel after.nextLabel (labels (codeOf lines))

structure Composes (Q : List Placed → Prop) : Prop where
  nil : Q []
  append : ∀ {xs ys}, Q xs → Q ys → Q (xs ++ ys)

namespace Leaves

variable {Q : List Placed → Prop} {a b w : Writer}

theorem append (hQ : Composes Q) (ha : a.Leaves Q) (hb : b.Leaves Q) : (a ++ b).Leaves Q := by
  intro pen after lines h
  obtain ⟨_, _, _, h₁, h₂, rfl⟩ := append_whole_iff.mp h
  obtain ⟨hq₁, hn₁⟩ := ha _ _ _ h₁
  obtain ⟨hq₂, hn₂⟩ := hb _ _ _ h₂
  rw [codeOf_append, labels_append]
  exact ⟨hQ.append hq₁ hq₂, hn₁.append hn₂⟩

theorem move (hQ : Composes Q) {f : Pen → Pen} (hf : ∀ pen, (f pen).nextLabel = pen.nextLabel) :
    (Writer.move f).Leaves Q := by
  intro pen after lines h
  cases h
  rw [hf]
  exact ⟨hQ.nil, .nil⟩

theorem line {l : Line} (hl : l.item? = none) (h : ∀ k, Q [⟨k, l⟩]) : (Writer.line l).Leaves Q := by
  rintro pen after lines ⟨⟩
  have hnone : codeOf [⟨pen.depth, l⟩] = [] := by simp [hl]
  rw [hnone]
  exact ⟨h _, .nil⟩

theorem need {α : Type} {value : Except Fault α} {rest : α → Writer} (h : ∀ a, (rest a).Leaves Q) :
    (Writer.need value rest).Leaves Q := by
  intro pen after lines hw
  obtain ⟨a, -, hw⟩ := need_whole_iff.mp hw
  exact h a _ _ _ hw

theorem fail (fault : Fault) : (Writer.fail fault).Leaves Q := by
  intro pen after lines h
  cases h

end Leaves

def Inner (lines : List Placed) : Prop := ∀ p ∈ lines, p.line.isInner = true

theorem composes_inner : Composes Inner :=
  ⟨by simp [Inner], fun hx hy => List.forall_mem_append.mpr ⟨hx, hy⟩⟩

theorem composes_kept : Composes Kept := ⟨.nil, .append⟩

theorem leaves_inner {l : Line} (h : l.isInner = true) (hl : l.item? = none) :
    (line l).Leaves Inner :=
  .line hl fun _ => List.forall_mem_singleton.mpr h

theorem leaves_outer {l : Line} (h : l.isOuter = true) (hl : l.item? = none) :
    (line l).Leaves Kept :=
  .line hl fun _ => .line h

theorem leaves_code {c : Code} (h : ∀ {n items next}, c n = ⟨items, next, none⟩ →
    Numbered n next (labels items)) : (code c).Leaves Inner := by
  intro pen after lines hw
  rcases hc : c pen.nextLabel with ⟨items, next, fault⟩
  simp only [code, hc, Written.mk.injEq] at hw
  obtain ⟨rfl, rfl, rfl⟩ := hw
  rw [codeOf_place]
  refine ⟨?_, h hc⟩
  rintro _ hp
  obtain ⟨item, -, rfl⟩ := List.mem_map.mp hp
  cases item <;> rfl

theorem leaves_instrs (is : List Instr) : (instrs is).Leaves Inner := by
  refine leaves_code fun h => ?_
  cases h
  rw [labels_instrs]
  exact .nil

theorem leaves_block {body : Writer} (h : body.Leaves Kept) : (block body).Leaves Kept := by
  have henter : enter.Leaves Kept :=
    .append composes_kept (leaves_outer rfl rfl) (.move composes_kept fun _ => rfl)
  have hleave : leave.Leaves Kept :=
    .append composes_kept (.move composes_kept fun _ => rfl) (leaves_outer rfl rfl)
  exact .append composes_kept (.append composes_kept henter h) hleave

theorem leaves_method {head : Line} {body : Writer} (hh : head.isHead = true)
    (h : body.Leaves Inner) : (line head ++ block body).Leaves Kept := by
  intro pen after lines hw
  obtain ⟨_, _, _, hhead, hblock, rfl⟩ := append_whole_iff.mp hw
  obtain ⟨_, _, _, hmost, hleave, rfl⟩ := append_whole_iff.mp hblock
  obtain ⟨_, _, _, henter, hbody, rfl⟩ := append_whole_iff.mp hmost
  cases hhead
  cases henter
  cases hleave
  obtain ⟨hin, hnum⟩ := h _ _ _ hbody
  refine ⟨.method hh hin, ?_⟩
  have hnone : head.item? = none := by
    cases head <;> first | exact absurd hh Bool.false_ne_true | rfl
  simpa [hnone, show Line.openBrace.item? = none from rfl,
    show Line.closeBrace.item? = none from rfl] using hnum

end Writer

namespace Target

open Writer

variable (t : Target)

theorem methodBody_leaves (isStatic : Bool) (body : List Stmt) :
    (t.methodBody isStatic body).Leaves Inner := by
  refine .need fun found => .need fun entries => ?_
  have hline : (localsLine entries).Leaves Inner := by
    unfold localsLine
    split
    · exact .move composes_inner fun _ => rfl
    · exact leaves_inner rfl rfl
  have hcode := leaves_code (c := lowerStmts (t.frame !isStatic) body)
    fun h => (trackStmts_tracks h).numbered
  exact .append composes_inner (.append composes_inner (.append composes_inner
    (.append composes_inner hline (.move composes_inner fun _ => rfl)) hcode) (leaves_instrs _))
    (.move composes_inner fun _ => rfl)

theorem method_leaves (m : Method) : (t.method m).Leaves Kept := by
  refine .need fun s => .need fun returns => .need fun params => leaves_method rfl ?_
  refine .append composes_inner (.append composes_inner ?_ (leaves_inner rfl rfl)) ?_
  · split
    · exact leaves_inner rfl rfl
    · exact .move composes_inner fun _ => rfl
  · split
    · exact .fail _
    · exact t.methodBody_leaves _ _

theorem fields_leaves (ms : List Member) : (t.fields ms).Leaves Kept := by
  have hvars : ∀ (modifiers : List Modifier) (vars : List Declarator),
      (t.fieldVars modifiers vars).Leaves Kept := by
    intro modifiers vars
    induction vars with
    | nil => exact .move composes_kept fun _ => rfl
    | cons v vars ih =>
      exact .append composes_kept (.need fun s => .need fun type => leaves_outer rfl rfl) ih
  induction ms with
  | nil => exact .move composes_kept fun _ => rfl
  | cons m ms ih =>
    cases m with
    | field d => exact .append composes_kept (hvars _ _) ih
    | method m => exact ih
    | nested head members => exact ih

theorem defaultCtor_leaves : t.defaultCtor.Leaves Kept :=
  leaves_method rfl (.append composes_inner (leaves_inner rfl rfl) (leaves_instrs _))

theorem clsWith_leaves {nested : Bool} {head : ClassHead} {members : List Member} {rest : Writer}
    (h : rest.Leaves Kept) : (t.clsWith nested head members rest).Leaves Kept := by
  refine .need fun s => ?_
  split
  · refine .append composes_kept (leaves_outer rfl rfl) (leaves_block ?_)
    refine .append composes_kept (.append composes_kept (t.fields_leaves members) h) ?_
    split
    · exact .move composes_kept fun _ => rfl
    · exact t.defaultCtor_leaves
  · exact .fail _

mutual

theorem member_leaves : ∀ m : Member, (t.member m).Leaves Kept
  | .method m => by
    rw [member]
    exact t.method_leaves m
  | .field _ => by
    rw [member]
    exact .move composes_kept fun _ => rfl
  | .nested head ms => by
    rw [member]
    exact t.clsWith_leaves (members_leaves ms)

theorem members_leaves : ∀ ms : List Member, (t.members ms).Leaves Kept
  | [] => by
    rw [members]
    exact .move composes_kept fun _ => rfl
  | m :: rest => by
    rw [members]
    exact .append composes_kept (member_leaves m) (members_leaves rest)

end

theorem program_leaves (c : ClassDecl) : (t.program c).Leaves Kept :=
  .append composes_kept (.append composes_kept (.append composes_kept (.append composes_kept
    (leaves_outer rfl rfl) (leaves_outer rfl rfl)) (leaves_outer rfl rfl)) (leaves_outer rfl rfl))
    (t.clsWith_leaves (t.members_leaves c.members))

end Target

/-- The code of a program is that of its methods and constructors, and its labels are different. -/
theorem assemble_code {u : CompilationUnit} {r : Resolutions} {options : Options}
    {listing : Listing} (h : assemble u r options = .ok listing) :
    (codeOf listing.lines).Perm listing.image.code ∧
      ((labels (codeOf listing.lines)).map Label.text).Nodup := by
  unfold assemble Generator.unit at h
  cases htop : u.top with
  | none => simp [htop] at h
  | some c =>
    simp only [htop, Generator.write, Generator.start] at h
    rcases hw : Target.program ⟨options, r, options.entry.resolve c⟩ c Pen.start with
      ⟨lines, pen, fault⟩
    simp only [hw] at h
    cases fault with
    | some fault => cases h
    | none =>
      cases h
      obtain ⟨hkept, hnum⟩ := Target.program_leaves _ c _ _ _ hw
      exact ⟨(hkept Reader.start rfl).2.symm, hnum.texts⟩

/-- Every branch goes to a label in `xs`, and that spelling stands before one line of the program.
The jump at the end of a loop goes back and every other branch goes on. -/
def LinkedIn (program : List Item) (xs : List Tracked) : Prop :=
  ∀ pre x post, xs = pre ++ x :: post → ∀ l, x.item.target? = some l →
    ((labels program).map Label.text).count l.text = 1 ∧
      .label l ∈ (if x.repeats then pre else post).map Tracked.item

theorem Linked.linkedIn {program : List Item} {xs : List Tracked} (h : Linked [] [] xs)
    (hd : ((labels program).map Label.text).Nodup) (hsub : xs.map Tracked.item ⊆ program) :
    LinkedIn program xs := by
  intro pre x post heq l hl
  have hmem : .label l ∈ (if x.repeats then pre else post).map Tracked.item := by
    have hlink := h pre x post heq l hl
    split at hlink
    · next hr =>
      rw [if_pos hr]
      simpa using mem_labels.mp hlink
    · next hr =>
      rw [if_neg hr]
      simpa [mem_labels] using hlink
  refine ⟨List.count_eq_one_of_mem hd (List.mem_map_of_mem (mem_labels.mpr (hsub ?_))), hmem⟩
  rw [heq, List.map_append, List.map_cons]
  split at hmem
  · exact List.mem_append_left _ hmem
  · exact List.mem_append_right _ (List.mem_cons_of_mem _ hmem)

/-- The code of a method is the tracked code of its body and a last `ret`. -/
theorem EmitsMethod.linkedIn {t : Target} {x : List String × Method} {d : MethodDef}
    {program : List Item} (h : EmitsMethod t x d) (hd : ((labels program).map Label.text).Nodup)
    (hsub : d.code ⊆ program) :
    ∃ body n, x.2.body = some body ∧
      d.code = (trackStmts (t.frame !d.isStatic) body n).map Tracked.item ++ [.instr .ret] ∧
      LinkedIn program (trackStmts (t.frame !d.isStatic) body n) := by
  cases h with
  | @intro path m b returns params body found locals items n next hb hr hp hbody hf hl hcode =>
    have htracks := trackStmts_tracks hcode
    refine ⟨body, n, hbody, by rw [htracks.items_eq], htracks.linked.linkedIn hd ?_⟩
    rw [htracks.items_eq]
    exact fun item hitem => hsub (List.mem_append_left _ hitem)

end Lowering

/-- Labels have different spellings, all code is that of methods and constructors, and every branch
goes to a label of its method. The statements tracked are those written. -/
theorem branches_linked {u : CompilationUnit} {options : Options} {listing : Listing}
    (hc : (compile u options).result = .ok (some listing)) :
    (compile u options).unit.strip = u.strip ∧
      ((labels (codeOf listing.lines)).map Label.text).Nodup ∧
      (codeOf listing.lines).Perm listing.image.code ∧
      (∀ d ∈ listing.image.ctors, ∀ item ∈ d.code, item.target? = none) ∧
      List.Forall₂ (fun x d => ∃ body n, x.2.body = some body ∧
          d.code = (trackStmts ⟨(compile u options).resolutions,
            (compile u options).unit.top.bind options.entry.resolve, !d.isStatic⟩ body n).map
              Tracked.item ++ [.instr .ret] ∧
          LinkedIn (codeOf listing.lines) (trackStmts ⟨(compile u options).resolutions,
            (compile u options).unit.top.bind options.entry.resolve, !d.isStatic⟩ body n))
        (Decl.methods (compile u options).unit.decls) listing.image.methods := by
  obtain ⟨u₁, s₁, u₂, s₂, -, -, hrun, ⟨-, _, ⟨⟩, ha⟩ | ⟨-, ⟨⟩⟩⟩ := phases_of_compile hc
  obtain ⟨hperm, htexts⟩ := assemble_code ha
  cases htop : u₂.top with
  | none => simp [assemble, Generator.unit, htop] at ha
  | some c =>
    have hemits := assemble_emits htop ha
    refine ⟨compile_strip u options, htexts, hperm, ?_, ?_⟩
    · intro d hd
      obtain ⟨path, head, -, -, rfl⟩ := (hemits.ctors d).mp hd
      exact (by decide : ∀ item ∈ ctorCode, item.target? = none)
    · rw [hrun, htop]
      refine (forall₂_imp_of_mem hemits.methods.flip fun d x hd hx => ?_).flip
      refine hx.linkedIn htexts fun item hitem => hperm.mem_iff.mpr ?_
      exact List.mem_flatMap.mpr ⟨d, List.mem_append_left _ hd, hitem⟩

theorem branches_linked_sample : ∃ listing,
    (compile Sample.unit .default).result = .ok (some listing) ∧
      (labels (codeOf listing.lines)).map Label.text =
        ["LOOP_0", "END_LOOP_1", "ELSE_3", "END_IF_2", "END_IF_4"] ∧
      (compile Sample.unit .default).unit.strip = Sample.unit.strip ∧
      ((labels (codeOf listing.lines)).map Label.text).Nodup ∧
      (codeOf listing.lines).Perm listing.image.code ∧
      (∀ d ∈ listing.image.ctors, ∀ item ∈ d.code, item.target? = none) ∧
      List.Forall₂ (fun x d => ∃ body n, x.2.body = some body ∧
          d.code = (trackStmts ⟨(compile Sample.unit .default).resolutions,
            (compile Sample.unit .default).unit.top.bind Options.default.entry.resolve,
            !d.isStatic⟩ body n).map Tracked.item ++ [.instr .ret] ∧
          LinkedIn (codeOf listing.lines) (trackStmts ⟨(compile Sample.unit .default).resolutions,
            (compile Sample.unit .default).unit.top.bind Options.default.entry.resolve,
            !d.isStatic⟩ body n))
        (Decl.methods (compile Sample.unit .default).unit.decls) listing.image.methods := by
  have hlabels : (compile Sample.unit .default).assembly.map
      (fun l => (labels (codeOf l.lines)).map Label.text) =
        some ["LOOP_0", "END_LOOP_1", "ELSE_3", "END_IF_2", "END_IF_4"] := by decide +kernel
  obtain ⟨listing, hl, hmap⟩ := Option.map_eq_some_iff.mp hlabels
  have hc := Compilation.result_of_assembly hl
  exact ⟨listing, hc, hmap, branches_linked hc⟩

end ClassLang
