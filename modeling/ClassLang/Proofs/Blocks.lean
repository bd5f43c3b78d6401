import ClassLang.Proofs.Image

/-! The blocks of a listing. Its lines are read with the braces that are open, and every line has to
stand as deep as the blocks around it. What a writer leaves can be read in this way, and what is
read says which parts of the writer made which blocks. -/
namespace ClassLang

namespace Assembly

/-- Lines as their braces group them: a line by itself, or a head and what stands in its braces. -/
inductive LineTree where
  | line (l : Line)
  | block (head : Line) (body : List LineTree)

def Line.isBrace : Line → Bool
  | .openBrace | .closeBrace => true
  | _ => false

def Line.isLabel : Line → Bool
  | .label _ | .labelText _ => true
  | _ => false

/-- Where a line stands in blocks of this depth. Labels stand one step further left. -/
def Line.column (depth : Nat) (l : Line) : Nat := if l.isLabel then depth - 1 else depth

def Line.depthAfter (depth : Nat) : Line → Nat
  | .openBrace => depth + 1
  | .closeBrace => depth - 1
  | _ => depth

def braceDepth (lines : List Placed) : Nat := lines.foldl (fun d p => p.line.depthAfter d) 0

theorem Placed.render_eq (library : String) (p : Placed) : p.render library =
    String.ofList (List.replicate (4 * p.depth) ' ') ++ p.line.spell library ++ "\n" := by
  have hspaces : ∀ n, String.join (List.replicate n "    ") =
      String.ofList (List.replicate (4 * n) ' ') := by
    intro n
    induction n with
    | zero => rfl
    | succ n ih =>
      rw [List.replicate_succ, String.join_cons, ih, Nat.mul_succ, Nat.add_comm,
        ← List.replicate_append_replicate, String.ofList_append]
      rfl
  rw [render, hspaces]

/-- The blocks that are open, innermost first, each with what stands before it and its head; and
what was read since the last of them was opened. -/
structure Nesting where
  outer : List (List LineTree × Line)
  here : List LineTree

namespace Nesting

def enter (n : Nesting) : Option Nesting :=
  match n.here.getLast? with
  | some (.line head) => some ⟨(n.here.dropLast, head) :: n.outer, []⟩
  | _ => none

def leave (n : Nesting) : Option Nesting :=
  match n.outer with
  | (before, head) :: outer => some ⟨outer, before ++ [.block head n.here]⟩
  | [] => none

/-- Reads one more line. An opening brace stands as deep as its head, and a closing one as deep as
the opening one. -/
def read (n : Nesting) (p : Placed) : Option Nesting :=
  match p.line with
  | .openBrace => if p.depth = n.outer.length then n.enter else none
  | .closeBrace => if p.depth + 1 = n.outer.length then n.leave else none
  | l => if p.depth = l.column n.outer.length then some ⟨n.outer, n.here ++ [.line l]⟩ else none

def readAll : Nesting → List Placed → Option Nesting
  | n, [] => some n
  | n, p :: rest => (n.read p).bind fun n => n.readAll rest

theorem readAll_append (n : Nesting) (xs ys : List Placed) :
    n.readAll (xs ++ ys) = (n.readAll xs).bind fun n => n.readAll ys := by
  induction xs generalizing n with
  | nil => rfl
  | cons p xs ih =>
    simp only [List.cons_append, readAll]
    cases n.read p with
    | none => rfl
    | some n => exact ih n

theorem read_line (n : Nesting) {l : Line} (h : l.isBrace = false) :
    n.read ⟨l.column n.outer.length, l⟩ = some ⟨n.outer, n.here ++ [.line l]⟩ := by
  cases l <;> simp_all [read, Line.isBrace]

theorem read_openBrace (outer : List (List LineTree × Line)) (here : List LineTree) (head : Line) :
    (mk outer (here ++ [.line head])).read ⟨outer.length, .openBrace⟩ =
      some ⟨(here, head) :: outer, []⟩ := by
  simp [read, enter]

theorem read_closeBrace (before : List LineTree) (head : Line)
    (outer : List (List LineTree × Line)) (here : List LineTree) :
    (mk ((before, head) :: outer) here).read ⟨outer.length, .closeBrace⟩ =
      some ⟨outer, before ++ [.block head here]⟩ := by
  simp [read, leave]

end Nesting

/-- The lines as a tree, if every brace is matched and no line stands too deep or not deep
enough. -/
def blocks (lines : List Placed) : Option (List LineTree) :=
  match (Nesting.mk [] []).readAll lines with
  | some ⟨[], trees⟩ => some trees
  | _ => none

theorem Nesting.depth_of_read {n n' : Nesting} {p : Placed} (h : n.read p = some n') :
    n'.outer.length = p.line.depthAfter n.outer.length ∧ (p.line.isLabel = false →
      p.depth = if p.line = .closeBrace then n.outer.length - 1 else n.outer.length) := by
  obtain ⟨depth, l⟩ := p
  unfold read at h
  dsimp only at h
  split at h
  · split at h
    · next hd =>
      unfold enter at h
      split at h
      · cases h
        exact ⟨rfl, fun _ => by simpa using hd⟩
      · cases h
    · cases h
  · split at h
    · next hd =>
      unfold leave at h
      split at h
      · next before head outer ho =>
        cases h
        rw [ho] at hd ⊢
        exact ⟨rfl, fun _ => by simpa using hd⟩
      · cases h
    · cases h
  · next hopen hclose =>
    split at h
    · next hd =>
      cases h
      refine ⟨?_, fun hl => ?_⟩
      · unfold Line.depthAfter
        split
        · next hl => exact (hopen hl).elim
        · next hl => exact (hclose hl).elim
        · rfl
      · rw [if_neg hclose]
        simpa [Line.column, hl] using hd
    · cases h

theorem Nesting.depth_of_readAll {n n' : Nesting} {lines : List Placed}
    (h : n.readAll lines = some n') :
    n'.outer.length = lines.foldl (fun d p => p.line.depthAfter d) n.outer.length := by
  induction lines generalizing n with
  | nil =>
    cases h
    rfl
  | cons p lines ih =>
    obtain ⟨next, hp, hrest⟩ := Option.bind_eq_some_iff.mp h
    rw [ih hrest, (depth_of_read hp).1, List.foldl_cons]

theorem readAll_of_blocks {lines : List Placed} {trees : List LineTree}
    (h : blocks lines = some trees) : (Nesting.mk [] []).readAll lines = some ⟨[], trees⟩ := by
  unfold blocks at h
  split at h
  · next hread =>
    cases h
    exact hread
  · cases h

/-- Every line but a label stands as deep as the braces around it say. -/
theorem depth_of_blocks {before after : List Placed} {p : Placed} {trees : List LineTree}
    (h : blocks (before ++ p :: after) = some trees) (hl : p.line.isLabel = false) :
    p.depth = if p.line = .closeBrace then braceDepth before - 1 else braceDepth before := by
  have hread := readAll_of_blocks h
  rw [Nesting.readAll_append] at hread
  obtain ⟨n, hbefore, hrest⟩ := Option.bind_eq_some_iff.mp hread
  obtain ⟨next, hp, -⟩ := Option.bind_eq_some_iff.mp hrest
  have hdepth : n.outer.length = braceDepth before := Nesting.depth_of_readAll hbefore
  rw [← hdepth]
  exact (Nesting.depth_of_read hp).2 hl

theorem braceDepth_of_blocks {lines : List Placed} {trees : List LineTree}
    (h : blocks lines = some trees) : braceDepth lines = 0 :=
  (Nesting.depth_of_readAll (readAll_of_blocks h)).symm

namespace LineTree

mutual

def placed (depth : Nat) : LineTree → List Placed
  | .line l => [⟨l.column depth, l⟩]
  | .block head body =>
    ⟨depth, head⟩ :: ⟨depth, .openBrace⟩ :: (allPlaced (depth + 1) body ++ [⟨depth, .closeBrace⟩])

def allPlaced (depth : Nat) : List LineTree → List Placed
  | [] => []
  | tree :: rest => tree.placed depth ++ allPlaced depth rest

end

mutual

def isProper : LineTree → Bool
  | .line l => !l.isBrace
  | .block head body => !head.isBrace && !head.isLabel && allProper body

def allProper : List LineTree → Bool
  | [] => true
  | tree :: rest => tree.isProper && allProper rest

end

theorem allPlaced_append (depth : Nat) (xs ys : List LineTree) :
    allPlaced depth (xs ++ ys) = allPlaced depth xs ++ allPlaced depth ys := by
  induction xs with
  | nil => simp [allPlaced]
  | cons x xs ih => simp [allPlaced, ih]

theorem allProper_append (xs ys : List LineTree) :
    allProper (xs ++ ys) = (allProper xs && allProper ys) := by
  induction xs with
  | nil => simp [allProper]
  | cons x xs ih => simp [allProper, ih, Bool.and_assoc]

mutual

/-- Reading the lines of a tree gives the tree back. -/
theorem readAll_placed : ∀ {tree : LineTree}, tree.isProper = true →
    ∀ (outer : List (List LineTree × Line)) (here : List LineTree),
      (Nesting.mk outer here).readAll (tree.placed outer.length) = some ⟨outer, here ++ [tree]⟩
  | .line l, h, outer, here => by
    rw [isProper, Bool.not_eq_true'] at h
    have hl := Nesting.read_line ⟨outer, here⟩ h
    simp only [placed, Nesting.readAll, hl, Option.bind_some]
  | .block head body, h, outer, here => by
    simp only [isProper, Bool.and_eq_true, Bool.not_eq_true'] at h
    obtain ⟨⟨hbrace, hlabel⟩, hbody⟩ := h
    have hhead : (Nesting.mk outer here).read ⟨outer.length, head⟩ =
        some ⟨outer, here ++ [.line head]⟩ := by
      simpa [Line.column, hlabel] using Nesting.read_line ⟨outer, here⟩ hbrace
    have hin := readAll_allPlaced hbody ((here, head) :: outer) []
    rw [List.length_cons, List.nil_append] at hin
    rw [placed, Nesting.readAll, hhead, Option.bind_some, Nesting.readAll, Nesting.read_openBrace,
      Option.bind_some, Nesting.readAll_append, hin, Option.bind_some, Nesting.readAll,
      Nesting.read_closeBrace, Option.bind_some, Nesting.readAll]

theorem readAll_allPlaced : ∀ {trees : List LineTree}, allProper trees = true →
    ∀ (outer : List (List LineTree × Line)) (here : List LineTree),
      (Nesting.mk outer here).readAll (allPlaced outer.length trees) = some ⟨outer, here ++ trees⟩
  | [], _, outer, here => by
    rw [allPlaced, List.append_nil]
    rfl
  | tree :: rest, h, outer, here => by
    simp only [allProper, Bool.and_eq_true] at h
    rw [allPlaced, Nesting.readAll_append, readAll_placed h.1 outer here, Option.bind_some,
      readAll_allPlaced h.2 outer (here ++ [tree]), List.append_assoc, List.singleton_append]

end

theorem blocks_allPlaced {trees : List LineTree} (h : allProper trees = true) :
    blocks (allPlaced 0 trees) = some trees := by
  have hread := readAll_allPlaced h [] []
  rw [List.length_nil, List.nil_append] at hread
  rw [blocks, hread]

end LineTree

end Assembly

namespace Lowering

open Assembly

def Item.line : Item → Line
  | .instr i => .instr i
  | .label l => .label l

theorem allPlaced_items (depth : Nat) (items : List Item) :
    LineTree.allPlaced depth ((items.map Item.line).map .line) =
      items.map (Writer.place depth) := by
  induction items with
  | nil => rfl
  | cons item items ih =>
    cases item <;> simp [LineTree.allPlaced, Item.line, LineTree.placed, Line.column, Line.isLabel,
      Writer.place, ← ih]

theorem allProper_items (items : List Item) :
    LineTree.allProper ((items.map Item.line).map .line) = true := by
  induction items with
  | nil => rfl
  | cons item items ih =>
    cases item <;> simp [LineTree.allProper, Item.line, LineTree.isProper, Line.isBrace, ← ih]

namespace Writer

/-- What the writer leaves, if it comes to its end, are the lines of trees with the property, and
the pen is as deep as before. -/
def Prints (w : Writer) (P : List LineTree → Prop) : Prop :=
  ∀ (pen after : Pen) (lines : List Placed), w pen = ⟨lines, after, none⟩ →
    after.depth = pen.depth ∧ ∃ trees, lines = LineTree.allPlaced pen.depth trees ∧
      LineTree.allProper trees = true ∧ P trees

namespace Prints

variable {P Q : List LineTree → Prop}

theorem imp {w : Writer} (h : w.Prints P) (hpq : ∀ trees, P trees → Q trees) : w.Prints Q := by
  intro pen after lines hw
  obtain ⟨hd, trees, hl, hproper, hp⟩ := h _ _ _ hw
  exact ⟨hd, trees, hl, hproper, hpq trees hp⟩

/-- A pen that only changes its labels, or that forgets `this`, leaves no lines. -/
theorem move {f : Pen → Pen} (hf : ∀ pen, (f pen).depth = pen.depth) :
    (Writer.move f).Prints (· = []) := by
  intro pen after lines h
  cases h
  exact ⟨hf pen, [], rfl, rfl, rfl⟩

theorem skip : Writer.skip.Prints (· = []) := move fun _ => rfl

theorem fail (fault : Fault) : (Writer.fail fault).Prints P := by
  intro pen after lines h
  cases h

theorem line {l : Line} (hb : l.isBrace = false) (hl : l.isLabel = false) :
    (Writer.line l).Prints (· = [.line l]) := by
  intro pen after lines h
  cases h
  refine ⟨rfl, [.line l], ?_, ?_, rfl⟩
  · simp [LineTree.allPlaced, LineTree.placed, Line.column, hl]
  · simp [LineTree.allProper, LineTree.isProper, hb]

theorem append {a b : Writer} (ha : a.Prints P) (hb : b.Prints Q) :
    (a ++ b).Prints fun trees => ∃ xs ys, trees = xs ++ ys ∧ P xs ∧ Q ys := by
  intro pen after lines h
  obtain ⟨_, p, _, h₁, h₂, rfl⟩ := append_whole_iff.mp h
  obtain ⟨hd, xs, rfl, hxs, hp⟩ := ha _ _ _ h₁
  obtain ⟨hd', ys, rfl, hys, hq⟩ := hb _ _ _ h₂
  refine ⟨hd'.trans hd, xs ++ ys, ?_, ?_, xs, ys, rfl, hp, hq⟩
  · rw [hd, LineTree.allPlaced_append]
  · rw [LineTree.allProper_append, hxs, hys, Bool.and_self]

theorem need {α : Type} {value : Except Fault α} {rest : α → Writer}
    (h : ∀ a, value = .ok a → (rest a).Prints P) : (Writer.need value rest).Prints P := by
  intro pen after lines hw
  obtain ⟨a, ha, hw⟩ := need_whole_iff.mp hw
  exact h a ha _ _ _ hw

/-- What stands in braces becomes the body of the head before them. -/
theorem block {head : Line} {body : Writer} (hb : head.isBrace = false)
    (hl : head.isLabel = false) (h : body.Prints P) :
    (Writer.line head ++ Writer.block body).Prints fun trees =>
      ∃ inner, P inner ∧ trees = [.block head inner] := by
  intro pen after lines hw
  obtain ⟨_, _, _, hhead, hblock, rfl⟩ := append_whole_iff.mp hw
  cases hhead
  obtain ⟨_, _, _, hbody, hleave, rfl⟩ := append_whole_iff.mp hblock
  obtain ⟨_, _, _, henter, hinner, rfl⟩ := append_whole_iff.mp hbody
  cases henter
  obtain ⟨hd, inner, rfl, hproper, hp⟩ := h _ _ _ hinner
  cases hleave
  refine ⟨by simp [hd], [.block head inner], ?_, ?_, inner, hp, rfl⟩
  · simp [LineTree.allPlaced, LineTree.placed, hd]
  · simp [LineTree.allProper, LineTree.isProper, hb, hl, hproper]

theorem code (c : Code) : (Writer.code c).Prints fun trees =>
    ∃ n items next, c n = ⟨items, next, none⟩ ∧ trees = (items.map Item.line).map .line := by
  intro pen after lines h
  obtain ⟨items, next, hc, rfl⟩ := code_whole h
  have hafter : after.depth = pen.depth := by
    have hpen := congrArg Written.pen h
    exact (congrArg Pen.depth hpen).symm
  exact ⟨hafter, _, (allPlaced_items _ _).symm, allProper_items items, _, items, next, hc, rfl⟩

end Prints

end Writer

end Lowering

end ClassLang
