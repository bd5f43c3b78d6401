import ClassLang.Proofs.Agreement

/-! Code does what the source says. For every construct there is a lemma that puts its code together
from the code of its parts; following a run of the source, they show that the machine takes the same
way and ends in the same world with the same result. -/
namespace ClassLang

open Assembly Typing Lowering Machine

namespace Body

variable {t : Table} {target : Target} {ds : List Decl} {cmp : Comparison} {img : Image}

/-- The code of an expression leaves its value on the stack, if it has one. -/
def Computes (B : Body t target ds) (cmp : Comparison) (img : Image) (is : List Instr) (T : Ty)
    (s : Store) (v : Option Value) (s' : Store) : Prop :=
  ∀ x, B.Agrees s x → T.gives v ∧ ∃ y, B.Agrees s' y ∧ ∀ rest S callers,
    Reaches cmp img (.running ⟨B.definition, is.map .instr ++ rest, S, x⟩ callers s.world.cells)
      (.running ⟨B.definition, rest, (v.map Value.cell).toList ++ S, y⟩ callers s'.world.cells)

/-- The code of arguments leaves their values in order, the last one on top. -/
def ComputesAll (B : Body t target ds) (cmp : Comparison) (img : Image) (is : List Instr)
    (Ts : List Ty) (s : Store) (vs : List Value) (s' : Store) : Prop :=
  ∀ x, B.Agrees s x → List.Forall₂ (fun T v => T.holds v = true) Ts vs ∧
    ∃ y, B.Agrees s' y ∧ ∀ rest S callers,
      Reaches cmp img (.running ⟨B.definition, is.map .instr ++ rest, S, x⟩ callers s.world.cells)
        (.running ⟨B.definition, rest, (vs.map Value.cell).reverse ++ S, y⟩ callers s'.world.cells)

def Effects (B : Body t target ds) (cmp : Comparison) (img : Image) (is : List Instr)
    (s s' : Store) : Prop :=
  ∀ x, B.Agrees s x → ∃ y, B.Agrees s' y ∧ ∀ rest S callers,
    Reaches cmp img (.running ⟨B.definition, is.map .instr ++ rest, S, x⟩ callers s.world.cells)
      (.running ⟨B.definition, rest, S, y⟩ callers s'.world.cells)

def Answers (B : Body t target ds) (cmp : Comparison) (img : Image) (args : List Value)
    (w : World Value) (r : Option Value) (w' : World Value) : Prop :=
  List.Forall₂ (fun p v => p.1.holds v = true) B.definition.params args →
    w.Fits t target.resolutions → B.result.gives r ∧ w'.Fits t target.resolutions ∧
      ∀ callers, Reaches cmp img
        (.running (B.definition.enter (args.map Value.cell)) callers w.cells)
        (.back (r.map Value.cell) callers w'.cells)

variable {B : Body t target ds} {s s₁ s₂ : Store} {is js ks : List Instr} {T : Ty}

theorem Agrees.withWorld {x : Variables} {w : World Value} (h : B.Agrees s x)
    (hw : w.Fits t target.resolutions) : B.Agrees { s with world := w } x :=
  ⟨h.slot, h.param, hw⟩

namespace Computes

theorem literal (value : Literal) :
    B.Computes cmp img [literalCode value] (literalType value) s (some value.value) s := by
  intro x hx
  refine ⟨by cases value <;> rfl, x, hx, fun rest S callers => reaches_computes ?_⟩
  rcases value with _ | _ | (_ | _) | _ <;> rfl

theorem declaration : B.Computes cmp img [] .declaration s none s :=
  fun x hx => ⟨rfl, x, hx, fun _ _ _ => .refl⟩

theorem unary {op : UnaryOp} {v r : Value}
    (ho : B.Computes cmp img is (operandType op) s (some v) s₁) (hr : op.apply v = some r) :
    B.Computes cmp img (is ++ unaryCode op) (operandType op) s (some r) s₁ := by
  intro x hx
  obtain ⟨hv, y, hy, hreach⟩ := ho x hx
  refine ⟨(unaryCode_computes cmp hv hr []).1, y, hy, fun rest S callers => ?_⟩
  rw [List.map_append, List.append_assoc]
  exact (hreach _ S callers).trans (reaches_computes (unaryCode_computes cmp hv hr S).2)

theorem binary {op : BinaryOp} {v w r : Value} (hl : B.Computes cmp img is T s (some v) s₁)
    (hr : B.Computes cmp img js T s₁ (some w) s₂) (ha : applies op T = true)
    (hc : binaryCode op T = .of ks) (ho : op.apply v w = some r) :
    B.Computes cmp img (is ++ js ++ ks) (if op.isComparison then .boolean else T) s (some r)
      s₂ := by
  intro x hx
  obtain ⟨hv, y, hy, hleft⟩ := hl x hx
  obtain ⟨hw, z, hz, hright⟩ := hr y hy
  refine ⟨(binaryCode_computes cmp ha hc hv hw ho []).1, z, hz, fun rest S callers => ?_⟩
  rw [List.map_append, List.map_append, List.append_assoc, List.append_assoc]
  exact ((hleft _ S callers).trans (hright _ _ callers)).trans
    (reaches_computes (binaryCode_computes cmp ha hc hv hw ho S).2)

theorem create (h : Accepted t target ds img) {c : Symbol} {path : List String}
    {ms : List Modifier} (hb : t.Bound c) (hd : c.details = .cls path ms false)
    (hs : Modifier.isStatic ms = false) :
    B.Computes cmp img [.newobj path] (.cls c) s (some (.ref s.world.objects))
      { s with world := s.world.grow } := by
  intro x hx
  exact ⟨rfl, x, hx.withWorld hx.world, fun rest S callers => reaches_newobj (h.find_ctor hb hd hs)⟩

theorem print {routine : Routine} {as : List AsmType} {a : AsmType} {Ts : List Ty} {v : Value}
    {text : String} (ha : B.ComputesAll cmp img is Ts s [v] s₁) (ht : v.shown = some text)
    (hT : T.isValue = false) :
    B.Computes cmp img (is ++ [.callConsole routine as a]) T s none
      { s₁ with world := s₁.world.print routine text } := by
  intro x hx
  obtain ⟨-, y, hy, hreach⟩ := ha x hx
  refine ⟨hT, y, hy.withWorld hy.world, fun rest S callers => ?_⟩
  rw [List.map_append, List.append_assoc]
  exact (hreach _ S callers).trans
    (reaches_act (by
      simp [Instr.act.eq_def, Instr.taking, Value.shown_cell ht, World.cells, World.print]))

end Computes

theorem holds_params {Ts : List Ty} {vs : List Value} {as : List AsmType}
    {params : List (AsmType × String)} (has : asmTypes Ts = .ok as)
    (hvs : List.Forall₂ (fun T v => T.holds v = true) Ts vs) (hp : params.map Prod.fst = as) :
    List.Forall₂ (fun p v => p.1.holds v = true) params vs := by
  induction hvs generalizing as params with
  | nil =>
    cases has
    obtain rfl := List.map_eq_nil_iff.mp hp
    exact .nil
  | cons hv _ ih =>
    obtain ⟨a, rest, ha, hrest, rfl⟩ := asmTypes_cons_eq_ok has
    obtain ⟨p, params, rfl, rfl, hps⟩ := List.map_eq_cons_iff.mp hp
    exact .cons (Ty.holds_of_toAsm ha _ ▸ hv) (ih hrest hps)

/-- A call runs the method that it means. -/
theorem Computes.call {C : Body t target ds} {m : MethodRef} {Ts : List Ty} {vs : List Value}
    {r : Option Value} {w : World Value} (ha : B.ComputesAll cmp img is Ts s vs s₁)
    (has : asmTypes Ts = .ok m.params) (hs : m.isStatic = true)
    (hm : img.methods.filter (·.answers m) = [C.definition])
    (hp : C.definition.params.map Prod.fst = m.params) (hr : C.Answers cmp img vs s₁.world r w) :
    B.Computes cmp img (is ++ [.call m]) C.result s r { s₁ with world := w } := by
  intro x hx
  obtain ⟨hvs, y, hy, hreach⟩ := ha x hx
  have hargs := holds_params has hvs hp
  obtain ⟨hgives, hw, hrun⟩ := hr hargs hy.world
  refine ⟨hgives, y, hy.withWorld hw, fun rest S callers => ?_⟩
  have hlength : (vs.map Value.cell).length = m.params.length := by
    rw [← hp, List.length_map, List.length_map, hargs.length_eq]
  rw [List.map_append, List.append_assoc]
  exact ((hreach _ S callers).trans (reaches_call hm hs hlength)).trans (hrun _)

theorem ComputesAll.nil : B.ComputesAll cmp img [] [] s [] s :=
  fun x hx => ⟨.nil, x, hx, fun _ _ _ => .refl⟩

theorem ComputesAll.cons {Ts : List Ty} {v : Value} {vs : List Value}
    (he : B.Computes cmp img is T s (some v) s₁) (hr : B.ComputesAll cmp img js Ts s₁ vs s₂) :
    B.ComputesAll cmp img (is ++ js) (T :: Ts) s (v :: vs) s₂ := by
  intro x hx
  obtain ⟨hv, y, hy, hfirst⟩ := he x hx
  obtain ⟨hvs, z, hz, hrest⟩ := hr y hy
  refine ⟨.cons hv hvs, z, hz, fun rest S callers => ?_⟩
  rw [List.map_append, List.append_assoc, List.map_cons, List.reverse_cons, List.append_assoc]
  exact (hfirst _ S callers).trans (hrest _ _ callers)

section Variables

variable (h : Accepted t target ds img) {b : Symbol} {p : Lowering.Place} {v : Value}
  (hr : t.Reached B.scope b) (ht : target.resolutions.type? b = some T)
  (hp : PlaceOf B.context (target.frame false) b T p)
include h hr ht hp

theorem Computes.var (hg : s.get b = some v) : B.Computes cmp img p.load T s (some v) s := by
  intro x hx
  obtain ⟨hv, hreach⟩ := hx.load h hr ht hp hg
  exact ⟨hv, x, hx, hreach⟩

omit h hr ht in
theorem store_eq (is : List Instr) (keep : Bool) :
    p.store is keep = is ++ ((if keep then [.dup] else []) ++ p.store [] false) := by
  cases hp with
  | own hd hasm hs ho => exact absurd (hs.symm.trans B.isStatic_context) (by simp)
  | _ => simp [Lowering.Place.store]

theorem Computes.assign (hn : ∀ d ∈ ds, d.isNarrow = true)
    (hv : B.Computes cmp img is T s (some v) s₁) (hs : s₁.set b v = some s₂) :
    B.Computes cmp img (p.store is true) T s (some v) s₂ := by
  intro x hx
  obtain ⟨hholds, y, hy, hreach⟩ := hv x hx
  obtain ⟨z, hz, hstore⟩ := hy.store h hn hr ht hp hs hholds
  refine ⟨hholds, z, hz, fun rest S callers => ?_⟩
  rw [store_eq hp, List.map_append, List.append_assoc]
  exact (hreach _ S callers).trans
    (.trans (reaches_act (act_of_compute rfl)) (hstore rest (v.cell :: S) callers))

/-- Where the value of an assignment is not used, none is kept. -/
theorem Effects.assign (hn : ∀ d ∈ ds, d.isNarrow = true)
    (hv : B.Computes cmp img is T s (some v) s₁) (hs : s₁.set b v = some s₂) :
    B.Effects cmp img (p.store is false) s s₂ := by
  intro x hx
  obtain ⟨hholds, y, hy, hreach⟩ := hv x hx
  obtain ⟨z, hz, hstore⟩ := hy.store h hn hr ht hp hs hholds
  refine ⟨z, hz, fun rest S callers => ?_⟩
  rw [store_eq hp, List.map_append, List.append_assoc]
  exact (hreach _ S callers).trans (hstore rest S callers)

end Variables

theorem Computes.dropped {v : Option Value} (he : B.Computes cmp img is T s v s₁) :
    B.Effects cmp img (is ++ if T.isValue then [.pop] else []) s s₁ := by
  intro x hx
  obtain ⟨hv, y, hy, hreach⟩ := he x hx
  refine ⟨y, hy, fun rest S callers => ?_⟩
  rw [List.map_append, List.append_assoc]
  refine (hreach _ S callers).trans ?_
  cases v with
  | none =>
    rw [show T.isValue = false from hv]
    exact .refl
  | some v =>
    rw [Ty.isValue_of_holds hv]
    exact reaches_act (act_of_compute rfl)

theorem Effects.nil : B.Effects cmp img [] s s := fun x hx => ⟨x, hx, fun _ _ _ => .refl⟩

theorem Effects.append (ha : B.Effects cmp img is s s₁) (hb : B.Effects cmp img js s₁ s₂) :
    B.Effects cmp img (is ++ js) s s₂ := by
  intro x hx
  obtain ⟨y, hy, hfirst⟩ := ha x hx
  obtain ⟨z, hz, hsecond⟩ := hb y hy
  refine ⟨z, hz, fun rest S callers => ?_⟩
  rw [List.map_append, List.append_assoc]
  exact (hfirst _ S callers).trans (hsecond rest S callers)

end Body

def LabelsIn (a b : Nat) (items : List Item) : Prop :=
  ∀ l, .label l ∈ items → a ≤ l.number ∧ l.number < b

namespace LabelsIn

variable {a b a' b' : Nat} {xs ys : List Item}

theorem nil : LabelsIn a b [] := fun _ hl => by cases hl

theorem instrs (is : List Instr) : LabelsIn a b (is.map .instr) := fun _ hl => by simp at hl

theorem instr {i : Instr} (h : LabelsIn a b xs) : LabelsIn a b (.instr i :: xs) :=
  fun l hl => h l (by simpa using hl)

theorem label {l : Label} (hl : a ≤ l.number) (hl' : l.number < b) (h : LabelsIn a b xs) :
    LabelsIn a b (.label l :: xs) := by
  intro k hk
  rcases List.mem_cons.mp hk with heq | hk
  · cases heq
    exact ⟨hl, hl'⟩
  · exact h k hk

theorem append (hx : LabelsIn a b xs) (hy : LabelsIn a b ys) : LabelsIn a b (xs ++ ys) :=
  fun l hl => (List.mem_append.mp hl).elim (hx l) (hy l)

theorem widen (h : LabelsIn a b xs) (ha : a' ≤ a) (hb : b ≤ b') : LabelsIn a' b' xs :=
  fun l hl => ⟨Nat.le_trans ha (h l hl).1, Nat.lt_of_lt_of_le (h l hl).2 hb⟩

theorem notMem {l : Label} (h : LabelsIn a b xs) (hl : l.number < a ∨ b ≤ l.number) :
    .label l ∉ xs := fun hm => by
  have := h l hm
  omega

end LabelsIn

/-- A piece of code stands in a method before `post`, and labels before it have numbers below `n`.
-/
def Located (d : MethodDef) (n : Nat) (items post : List Item) : Prop :=
  ∃ before, d.code = before ++ (items ++ post) ∧ LabelsIn 0 n before

namespace Located

variable {d : MethodDef} {n m : Nat} {xs ys post : List Item}

theorem left (h : Located d n (xs ++ ys) post) : Located d n xs (ys ++ post) := by
  obtain ⟨before, hcode, hlabels⟩ := h
  exact ⟨before, by rw [hcode, List.append_assoc], hlabels⟩

theorem right (h : Located d n (xs ++ ys) post) (hnm : n ≤ m) (hx : LabelsIn 0 m xs) :
    Located d m ys post := by
  obtain ⟨before, hcode, hlabels⟩ := h
  exact ⟨before ++ xs, by rw [hcode]; simp, .append (hlabels.widen (Nat.le_refl 0) hnm) hx⟩

theorem codeFrom {l : Label} (h : Located d n (xs ++ .label l :: ys) post) (hn : n ≤ l.number)
    (hx : .label l ∉ xs) : codeFrom l d.code = some (.label l :: ys ++ post) := by
  obtain ⟨before, hcode, hlabels⟩ := h
  rw [hcode, List.append_assoc, ← List.append_assoc, List.cons_append]
  exact codeFrom_append fun hl =>
    (List.mem_append.mp hl).elim (hlabels.notMem (Or.inr hn)) hx

variable {next : Nat} {zs : List Item} {is : List Instr}

theorem ifThen (hx : LabelsIn (n + 1) next xs)
    (h : Located d n (is.map .instr ++ .instr (.brfalse ⟨"END_IF", n⟩) :: xs ++
      [.label ⟨"END_IF", n⟩]) post) :
    ClassLang.codeFrom ⟨"END_IF", n⟩ d.code = some (.label ⟨"END_IF", n⟩ :: post) ∧
      Located d (n + 1) xs (.label ⟨"END_IF", n⟩ :: post) := by
  have hparts : Located d n ((is.map .instr ++ [.instr (.brfalse ⟨"END_IF", n⟩)]) ++
      (xs ++ [.label ⟨"END_IF", n⟩])) post := by simpa using h
  have hcond : LabelsIn 0 (n + 1) (is.map .instr ++ [.instr (.brfalse ⟨"END_IF", n⟩)]) :=
    .append (.instrs is) (.instr .nil)
  exact ⟨h.codeFrom (Nat.le_refl n)
      (LabelsIn.notMem (.append (.instrs is) (.instr hx)) (Or.inl (Nat.lt_succ_self n))),
    (hparts.right (Nat.le_succ n) hcond).left⟩

theorem ifElse (hx : LabelsIn (n + 2) m xs) (hy : LabelsIn m next ys) (hm : n + 2 ≤ m)
    (hn : m ≤ next) (h : Located d n (is.map .instr ++ .instr (.brfalse ⟨"ELSE", n + 1⟩) :: xs ++
      .instr (.br ⟨"END_IF", n⟩) :: .label ⟨"ELSE", n + 1⟩ :: ys ++ [.label ⟨"END_IF", n⟩]) post) :
    ClassLang.codeFrom ⟨"END_IF", n⟩ d.code = some (.label ⟨"END_IF", n⟩ :: post) ∧
      ClassLang.codeFrom ⟨"ELSE", n + 1⟩ d.code =
        some (.label ⟨"ELSE", n + 1⟩ :: (ys ++ .label ⟨"END_IF", n⟩ :: post)) ∧
      Located d (n + 2) xs (.instr (.br ⟨"END_IF", n⟩) :: .label ⟨"ELSE", n + 1⟩ ::
        (ys ++ .label ⟨"END_IF", n⟩ :: post)) ∧
      Located d m ys (.label ⟨"END_IF", n⟩ :: post) := by
  have hcond : ∀ {a b : Nat}, LabelsIn a b (is.map .instr ++ [.instr (.brfalse ⟨"ELSE", n + 1⟩)]) :=
    .append (.instrs is) (.instr .nil)
  have hbefore : LabelsIn (n + 1) next (is.map .instr ++ .instr (.brfalse ⟨"ELSE", n + 1⟩) :: xs ++
      .instr (.br ⟨"END_IF", n⟩) :: .label ⟨"ELSE", n + 1⟩ :: ys) :=
    .append (.append (.instrs is) (.instr (hx.widen (by omega) hn)))
      (.instr (.label (Nat.le_refl _) (show n + 1 < next by omega)
        (hy.widen (by omega) (Nat.le_refl _))))
  have hother : Located d n ((is.map .instr ++ .instr (.brfalse ⟨"ELSE", n + 1⟩) :: xs ++
      [.instr (.br ⟨"END_IF", n⟩)]) ++ .label ⟨"ELSE", n + 1⟩ :: (ys ++ [.label ⟨"END_IF", n⟩]))
      post := by simpa using h
  have hthen : Located d n ((is.map .instr ++ [.instr (.brfalse ⟨"ELSE", n + 1⟩)]) ++ (xs ++
      .instr (.br ⟨"END_IF", n⟩) :: .label ⟨"ELSE", n + 1⟩ :: (ys ++ [.label ⟨"END_IF", n⟩])))
      post := by simpa using h
  have helse : Located d n ((is.map .instr ++ .instr (.brfalse ⟨"ELSE", n + 1⟩) :: xs ++
      [.instr (.br ⟨"END_IF", n⟩), .label ⟨"ELSE", n + 1⟩]) ++ (ys ++ [.label ⟨"END_IF", n⟩]))
      post := by simpa using h
  refine ⟨h.codeFrom (Nat.le_refl n) (hbefore.notMem (Or.inl (Nat.lt_succ_self n))), ?_, ?_, ?_⟩
  · have hfrom := hother.codeFrom (Nat.le_succ n) (LabelsIn.notMem
      (.append (.append (.instrs is) (.instr hx)) (.instr .nil)) (Or.inl (Nat.lt_succ_self _)))
    simpa using hfrom
  · simpa using (hthen.right (by omega) hcond).left
  · have hlabels : LabelsIn 0 m (is.map .instr ++ .instr (.brfalse ⟨"ELSE", n + 1⟩) :: xs ++
        [.instr (.br ⟨"END_IF", n⟩), .label ⟨"ELSE", n + 1⟩]) :=
      .append (.append (.instrs is) (.instr (hx.widen (Nat.zero_le _) (Nat.le_refl _))))
        (.instr (.label (Nat.zero_le _) (show n + 1 < m by omega) .nil))
    exact (helse.right (by omega) hlabels).left

theorem loop (hx : LabelsIn (n + 2) next xs)
    (h : Located d n (.label ⟨"LOOP", n⟩ :: is.map .instr ++
      .instr (.brfalse ⟨"END_LOOP", n + 1⟩) :: xs ++
      [.instr (.br ⟨"LOOP", n⟩), .label ⟨"END_LOOP", n + 1⟩]) post) :
    ClassLang.codeFrom ⟨"LOOP", n⟩ d.code = some (.label ⟨"LOOP", n⟩ :: is.map .instr ++
        .instr (.brfalse ⟨"END_LOOP", n + 1⟩) :: xs ++
        [.instr (.br ⟨"LOOP", n⟩), .label ⟨"END_LOOP", n + 1⟩] ++ post) ∧
      ClassLang.codeFrom ⟨"END_LOOP", n + 1⟩ d.code = some (.label ⟨"END_LOOP", n + 1⟩ :: post) ∧
      Located d (n + 2) xs (.instr (.br ⟨"LOOP", n⟩) :: .label ⟨"END_LOOP", n + 1⟩ :: post) := by
  have hbody : Located d n ((.label ⟨"LOOP", n⟩ :: is.map .instr ++
      [.instr (.brfalse ⟨"END_LOOP", n + 1⟩)]) ++
      (xs ++ [.instr (.br ⟨"LOOP", n⟩), .label ⟨"END_LOOP", n + 1⟩])) post := by simpa using h
  have hlast : Located d n ((.label ⟨"LOOP", n⟩ :: is.map .instr ++
      .instr (.brfalse ⟨"END_LOOP", n + 1⟩) :: xs ++ [.instr (.br ⟨"LOOP", n⟩)]) ++
      .label ⟨"END_LOOP", n + 1⟩ :: []) post := by simpa using h
  have hfirst : Located d n ([] ++ .label ⟨"LOOP", n⟩ :: (is.map .instr ++
      .instr (.brfalse ⟨"END_LOOP", n + 1⟩) :: xs ++
      [.instr (.br ⟨"LOOP", n⟩), .label ⟨"END_LOOP", n + 1⟩])) post := h
  have hno : .label ⟨"END_LOOP", n + 1⟩ ∉ xs := hx.notMem (Or.inl (Nat.lt_succ_self _))
  refine ⟨hfirst.codeFrom (Nat.le_refl n) List.not_mem_nil, ?_, ?_⟩
  · exact hlast.codeFrom (Nat.le_succ n) (by simp [hno])
  · have hlabels : LabelsIn 0 (n + 2) (.label ⟨"LOOP", n⟩ :: is.map .instr ++
        [.instr (.brfalse ⟨"END_LOOP", n + 1⟩)]) :=
      .append (.label (Nat.zero_le _) (show n < n + 2 by omega) (.instrs is)) (.instr .nil)
    exact (hbody.right (by omega) hlabels).left

end Located

namespace Lowering

variable {ctx : Context} {r : Resolutions} {f : Frame}

mutual

/-- The labels of a statement are numbered from where its labels start to where they end. -/
theorem StmtCodes.labels : ∀ {stmt : Stmt} {n next : Nat} {items : List Item},
    StmtCodes ctx r f n stmt items next → n ≤ next ∧ LabelsIn n next items
  | .block _ _, _, _, _, h => by
    rw [StmtCodes] at h
    exact StmtsCodes.labels h
  | .expr _ _ _, _, _, _, h => by
    rw [StmtCodes] at h
    obtain ⟨is, -, rfl, rfl⟩ := h
    exact ⟨Nat.le_refl _, .instrs is⟩
  | .locals _, _, _, _, h => by
    rw [StmtCodes] at h
    obtain ⟨is, -, rfl, rfl⟩ := h
    exact ⟨Nat.le_refl _, .instrs is⟩
  | .ifThen _ _ _, n, next, _, h => by
    rw [StmtCodes] at h
    obtain ⟨is, xs, -, hthen, rfl⟩ := h
    obtain ⟨hle, hxs⟩ := StmtCodes.labels hthen
    have hxs := hxs.widen (Nat.le_succ n) (Nat.le_refl next)
    exact ⟨Nat.le_of_lt hle,
      .append (.append (.instrs is) (.instr hxs)) (.label (Nat.le_refl n) hle .nil)⟩
  | .ifElse _ _ _ _, n, next, _, h => by
    rw [StmtCodes] at h
    obtain ⟨is, xs, ys, m, -, hthen, helse, rfl⟩ := h
    obtain ⟨hle, hxs⟩ := StmtCodes.labels hthen
    obtain ⟨hle', hys⟩ := StmtCodes.labels helse
    have hxs : LabelsIn n next xs := hxs.widen (by omega) hle'
    have hys : LabelsIn n next ys := hys.widen (by omega) (Nat.le_refl next)
    refine ⟨by omega, .append (.append (.append (.instrs is) (.instr hxs))
      (.instr (.label ?_ ?_ hys))) (.label (Nat.le_refl n) ?_ .nil)⟩
    all_goals
      dsimp only
      omega
  | .loop _ _ _, n, next, _, h => by
    rw [StmtCodes] at h
    obtain ⟨is, xs, -, hbody, rfl⟩ := h
    obtain ⟨hle, hxs⟩ := StmtCodes.labels hbody
    have hxs : LabelsIn n next xs := hxs.widen (by omega) (Nat.le_refl next)
    refine ⟨by omega, .append (.append (.label (Nat.le_refl n) ?_ (.instrs is)) (.instr hxs))
      (.instr (.label ?_ ?_ .nil))⟩
    all_goals
      dsimp only
      omega
  | .ret _ _, _, _, _, h => by
    rw [StmtCodes] at h
    obtain ⟨m, T, is, -, -, -, rfl, rfl⟩ := h
    exact ⟨Nat.le_refl _, .append (.instrs is) (.instr .nil)⟩
  | .empty _, _, _, _, h => by
    rw [StmtCodes] at h
    obtain ⟨rfl, rfl⟩ := h
    exact ⟨Nat.le_refl _, .nil⟩

theorem StmtsCodes.labels : ∀ {body : List Stmt} {n next : Nat} {items : List Item},
    StmtsCodes ctx r f n body items next → n ≤ next ∧ LabelsIn n next items
  | [], _, _, _, h => by
    rw [StmtsCodes] at h
    obtain ⟨rfl, rfl⟩ := h
    exact ⟨Nat.le_refl _, .nil⟩
  | _ :: _, n, next, _, h => by
    rw [StmtsCodes] at h
    obtain ⟨xs, ys, m, hs, hrest, rfl⟩ := h
    obtain ⟨hle, hxs⟩ := StmtCodes.labels hs
    obtain ⟨hle', hys⟩ := StmtsCodes.labels hrest
    exact ⟨Nat.le_trans hle hle',
      .append (hxs.widen (Nat.le_refl n) hle') (hys.widen hle (Nat.le_refl next))⟩

end

end Lowering

namespace Body

variable {t : Table} {target : Target} {ds : List Decl} {cmp : Comparison} {img : Image}
  {B : Body t target ds}
  {s s₁ s₂ : Store} {x y : Variables} {o : Outcome} {code mid post : List Item}

/-- Where a statement ends: behind its code, or before a `ret` with nothing but the result. -/
def Lands (B : Body t target ds) (post : List Item) : Outcome → List Item → List Cell → Prop
  | .normal, rest, S => rest = post ∧ S = []
  | .returned v, rest, S =>
    B.result.gives v ∧ (∃ tail, rest = .instr .ret :: tail) ∧ S = (v.map Value.cell).toList

def Leads (B : Body t target ds) (cmp : Comparison) (img : Image) (s : Store) (x : Variables)
    (code : List Item) (o : Outcome) (s' : Store) (post : List Item) : Prop :=
  ∃ y rest S, B.Agrees s' y ∧ B.Lands post o rest S ∧ ∀ callers,
    Reaches cmp img (.running ⟨B.definition, code, [], x⟩ callers s.world.cells)
      (.running ⟨B.definition, rest, S, y⟩ callers s'.world.cells)

/-- The code of a statement does what the statement does, wherever it stands. -/
def Performs (B : Body t target ds) (cmp : Comparison) (img : Image) (n : Nat) (items : List Item)
    (s : Store) (o : Outcome) (s' : Store) : Prop :=
  ∀ x post, B.Agrees s x → Located B.definition n items post →
    B.Leads cmp img s x (items ++ post) o s' post

namespace Leads

theorem after (hr : ∀ callers,
      Reaches cmp img (.running ⟨B.definition, code, [], x⟩ callers s.world.cells)
        (.running ⟨B.definition, mid, [], y⟩ callers s₁.world.cells))
    (hl : B.Leads cmp img s₁ y mid o s₂ post) :
    B.Leads cmp img s x code o s₂ post := by
  obtain ⟨z, rest, S, hz, hlands, hreach⟩ := hl
  exact ⟨z, rest, S, hz, hlands, fun callers => (hr callers).trans (hreach callers)⟩

theorem follow (hl : B.Leads cmp img s x code .normal s₁ mid)
    (hr : ∀ y, B.Agrees s₁ y → B.Leads cmp img s₁ y mid o s₂ post) :
    B.Leads cmp img s x code o s₂ post := by
  obtain ⟨y, rest, S, hy, ⟨rfl, rfl⟩, hreach⟩ := hl
  exact (hr y hy).after hreach

/-- What follows the code of a statement may be nothing but a way to `post`. -/
theorem on (hl : B.Leads cmp img s x code o s₁ mid)
    (hr : ∀ y callers w, Reaches cmp img (.running ⟨B.definition, mid, [], y⟩ callers w)
      (.running ⟨B.definition, post, [], y⟩ callers w)) :
    B.Leads cmp img s x code o s₁ post := by
  obtain ⟨y, rest, S, hy, hlands, hreach⟩ := hl
  cases o with
  | normal =>
    obtain ⟨rfl, rfl⟩ := hlands
    exact ⟨y, post, [], hy, ⟨rfl, rfl⟩, fun callers => (hreach callers).trans (hr _ _ _)⟩
  | returned v => exact ⟨y, rest, S, hy, hlands, hreach⟩

/-- After a `return` it does not matter what would have followed. -/
theorem elsewhere {v : Option Value} (hl : B.Leads cmp img s x code (.returned v) s₁ mid) :
    B.Leads cmp img s x code (.returned v) s₁ post := hl

theorem here (hx : B.Agrees s x) : B.Leads cmp img s x code .normal s code :=
  ⟨x, code, [], hx, ⟨rfl, rfl⟩, fun _ => .refl⟩

theorem label {l : Label} (hx : B.Agrees s x) :
    B.Leads cmp img s x (.label l :: post) .normal s post :=
  (here hx).on fun _ _ _ => reaches_label l

end Leads

namespace Performs

variable {n m : Nat} {xs ys : List Item} {is : List Instr}

theorem nothing : B.Performs cmp img n [] s .normal s := fun _ _ hx _ => .here hx

theorem effects (he : B.Effects cmp img is s s₁) :
    B.Performs cmp img n (is.map .instr) s .normal s₁ := by
  intro x post hx _
  obtain ⟨y, hy, hreach⟩ := he x hx
  exact .after (hreach post []) (.here hy)

theorem append (hf : B.Performs cmp img n xs s .normal s₁) (hs : B.Performs cmp img m ys s₁ o s₂)
    (hnm : n ≤ m) (hx : LabelsIn n m xs) : B.Performs cmp img n (xs ++ ys) s o s₂ := by
  intro x post hxa hloc
  have hleft := hf x (ys ++ post) hxa hloc.left
  rw [← List.append_assoc] at hleft
  exact hleft.follow fun y hy => hs y post hy (hloc.right hnm (hx.widen n.zero_le (Nat.le_refl m)))

theorem stop {v : Option Value} (hf : B.Performs cmp img n xs s (.returned v) s₁) :
    B.Performs cmp img n (xs ++ ys) s (.returned v) s₁ := by
  intro x post hx hloc
  rw [List.append_assoc]
  exact (hf x (ys ++ post) hx hloc.left).elsewhere

/-- Before a branch there is nothing on the stack but its condition. -/
theorem condition {b : Bool} {l : Label} {other : List Item}
    (hc : B.Computes cmp img is .boolean s (some (.bool b)) s₁)
    (hl : codeFrom l B.definition.code = some other) (hx : B.Agrees s x) :
    ∃ y, B.Agrees s₁ y ∧ ∀ rest callers,
      Reaches cmp img (.running ⟨B.definition, is.map .instr ++ .instr (.brfalse l) :: rest, [], x⟩
          callers s.world.cells)
        (.running ⟨B.definition, if b then rest else other, [], y⟩ callers s₁.world.cells) := by
  obtain ⟨-, y, hy, hreach⟩ := hc x hx
  exact ⟨y, hy, fun rest callers => (hreach _ [] callers).trans (reaches_brfalse hl b)⟩

variable {next : Nat}

theorem thenTrue (hxs : LabelsIn (n + 1) next xs)
    (hc : B.Computes cmp img is .boolean s (some (.bool true)) s₁)
    (hb : B.Performs cmp img (n + 1) xs s₁ o s₂) :
    B.Performs cmp img n (is.map .instr ++ .instr (.brfalse ⟨"END_IF", n⟩) :: xs ++
      [.label ⟨"END_IF", n⟩]) s o s₂ := by
  intro x post hx hloc
  obtain ⟨hend, hbody⟩ := hloc.ifThen hxs
  obtain ⟨y, hy, hreach⟩ := condition hc hend hx
  have hlead := (hb y _ hy hbody).on fun _ _ _ => reaches_label _
  simpa using hlead.after (hreach _)

theorem thenFalse (hxs : LabelsIn (n + 1) next xs)
    (hc : B.Computes cmp img is .boolean s (some (.bool false)) s₁) :
    B.Performs cmp img n (is.map .instr ++ .instr (.brfalse ⟨"END_IF", n⟩) :: xs ++
      [.label ⟨"END_IF", n⟩]) s .normal s₁ := by
  intro x post hx hloc
  obtain ⟨hend, -⟩ := hloc.ifThen hxs
  obtain ⟨y, hy, hreach⟩ := condition hc hend hx
  simpa using (Leads.label hy).after (hreach _)

section Alternatives

variable (hxs : LabelsIn (n + 2) m xs) (hys : LabelsIn m next ys) (hm : n + 2 ≤ m) (hn : m ≤ next)
include hxs hys hm hn

theorem elseTrue (hc : B.Computes cmp img is .boolean s (some (.bool true)) s₁)
    (hb : B.Performs cmp img (n + 2) xs s₁ o s₂) :
    B.Performs cmp img n (is.map .instr ++ .instr (.brfalse ⟨"ELSE", n + 1⟩) :: xs ++
      .instr (.br ⟨"END_IF", n⟩) :: .label ⟨"ELSE", n + 1⟩ :: ys ++ [.label ⟨"END_IF", n⟩])
      s o s₂ := by
  intro x post hx hloc
  obtain ⟨hend, helse, hbody, -⟩ := hloc.ifElse hxs hys hm hn
  obtain ⟨y, hy, hreach⟩ := condition hc helse hx
  have hlead := (hb y _ hy hbody).on fun _ _ _ => (reaches_br hend).trans (reaches_label _)
  simpa using hlead.after (hreach _)

theorem elseFalse (hc : B.Computes cmp img is .boolean s (some (.bool false)) s₁)
    (hb : B.Performs cmp img m ys s₁ o s₂) :
    B.Performs cmp img n (is.map .instr ++ .instr (.brfalse ⟨"ELSE", n + 1⟩) :: xs ++
      .instr (.br ⟨"END_IF", n⟩) :: .label ⟨"ELSE", n + 1⟩ :: ys ++ [.label ⟨"END_IF", n⟩])
      s o s₂ := by
  intro x post hx hloc
  obtain ⟨-, helse, -, hbody⟩ := hloc.ifElse hxs hys hm hn
  obtain ⟨y, hy, hreach⟩ := condition hc helse hx
  have hlead := (hb y _ hy hbody).on fun _ _ _ => reaches_label _
  simpa using (Leads.after (fun _ => reaches_label _) hlead).after (hreach _)

end Alternatives

section Loops

variable (hxs : LabelsIn (n + 2) next xs)
include hxs

theorem loopEnd (hc : B.Computes cmp img is .boolean s (some (.bool false)) s₁) :
    B.Performs cmp img n (.label ⟨"LOOP", n⟩ :: is.map .instr ++
      .instr (.brfalse ⟨"END_LOOP", n + 1⟩) :: xs ++
      [.instr (.br ⟨"LOOP", n⟩), .label ⟨"END_LOOP", n + 1⟩]) s .normal s₁ := by
  intro x post hx hloc
  obtain ⟨-, hend, -⟩ := hloc.loop hxs
  obtain ⟨y, hy, hreach⟩ := condition hc hend hx
  have hlead := (Leads.label hy).after
    (hreach (xs ++ .instr (.br ⟨"LOOP", n⟩) :: .label ⟨"END_LOOP", n + 1⟩ :: post))
  simpa using Leads.after (fun _ => reaches_label _) hlead

/-- Another round leads back to the start of the loop. -/
theorem loopNext (hc : B.Computes cmp img is .boolean s (some (.bool true)) s₁)
    (hb : B.Performs cmp img (n + 2) xs s₁ .normal s₂) {s₃ : Store}
    (hl : B.Performs cmp img n (.label ⟨"LOOP", n⟩ :: is.map .instr ++
      .instr (.brfalse ⟨"END_LOOP", n + 1⟩) :: xs ++
      [.instr (.br ⟨"LOOP", n⟩), .label ⟨"END_LOOP", n + 1⟩]) s₂ o s₃) :
    B.Performs cmp img n (.label ⟨"LOOP", n⟩ :: is.map .instr ++
      .instr (.brfalse ⟨"END_LOOP", n + 1⟩) :: xs ++
      [.instr (.br ⟨"LOOP", n⟩), .label ⟨"END_LOOP", n + 1⟩]) s o s₃ := by
  intro x post hx hloc
  obtain ⟨hstart, hend, hbody⟩ := hloc.loop hxs
  obtain ⟨y, hy, hreach⟩ := condition hc hend hx
  have hround := (hb y _ hy hbody).on fun _ _ _ => reaches_br hstart
  have hlead := (hround.follow fun z hz => hl z post hz hloc).after (hreach _)
  simpa using Leads.after (fun _ => reaches_label _) hlead

theorem loopReturn {v : Option Value}
    (hc : B.Computes cmp img is .boolean s (some (.bool true)) s₁)
    (hb : B.Performs cmp img (n + 2) xs s₁ (.returned v) s₂) :
    B.Performs cmp img n (.label ⟨"LOOP", n⟩ :: is.map .instr ++
      .instr (.brfalse ⟨"END_LOOP", n + 1⟩) :: xs ++
      [.instr (.br ⟨"LOOP", n⟩), .label ⟨"END_LOOP", n + 1⟩]) s (.returned v) s₂ := by
  intro x post hx hloc
  obtain ⟨-, hend, hbody⟩ := hloc.loop hxs
  obtain ⟨y, hy, hreach⟩ := condition hc hend hx
  have hlead := (hb y _ hy hbody).after (hreach _)
  simpa using (Leads.after (fun _ => reaches_label _) hlead).elsewhere

end Loops

theorem ret {v : Option Value} (he : B.Computes cmp img is B.result s v s₁) :
    B.Performs cmp img n (is.map .instr ++ [.instr .ret]) s (.returned v) s₁ := by
  intro x post hx _
  obtain ⟨hv, y, hy, hreach⟩ := he x hx
  refine ⟨y, .instr .ret :: post, _, hy, ⟨hv, ⟨post, rfl⟩, rfl⟩, fun callers => ?_⟩
  simpa using hreach (.instr .ret :: post) [] callers

theorem leave (hv : B.result = .void) : B.Performs cmp img n [.instr .ret] s (.returned none) s :=
  fun x post hx _ => ⟨x, .instr .ret :: post, [], hx, ⟨by rw [hv]; rfl, ⟨post, rfl⟩, rfl⟩,
    fun _ => .refl⟩

end Performs

end Body

theorem Store.kind_of_get {s : Store} {b : Symbol} {v : Value} (h : s.get b = some v) :
    b.kind = .var := by
  unfold Store.get at h
  unfold Symbol.kind
  rcases hd : b.details with ⟨_, _, _⟩ | ⟨_, _, _, _, _⟩ | ⟨_, _⟩
  · simp [hd] at h
  · simp [hd] at h
  · rfl

theorem Lowering.PlaceOf.kind {ctx : Context} {f : Frame} {b : Symbol} {T : Ty} {p : Lowering.Place}
    (h : PlaceOf ctx f b T p) : b.kind = .var := by
  unfold Symbol.kind
  cases h with
  | slot hd | argument hd | shared hd _ | own hd _ _ _ => rw [hd]

/-- A result stands on the stack unless the method is `void`. -/
theorem Ty.gives.cell_eq_none_iff {T : Ty} {a : AsmType} {r : Option Value} (h : T.gives r)
    (ha : T.toAsm = .ok a) : r.map Value.cell = none ↔ a = .void := by
  cases r with
  | none =>
    refine ⟨fun _ => ?_, fun _ => rfl⟩
    have hvalue : T.isValue = false := h
    cases T with
    | void =>
      cases ha
      rfl
    | error | declaration => cases ha
    | _ => cases hvalue
  | some v =>
    refine ⟨fun hno => (by cases hno), ?_⟩
    rintro rfl
    have hholds : T.holds v = true := h
    rw [Ty.holds_of_toAsm ha] at hholds
    cases v <;> cases hholds

namespace Accepted

variable {t : Table} {target : Target} {ds : List Decl} {cmp : Comparison} {img : Image}
  (h : Accepted t target ds img) {b : Symbol} {ps : List TypeExpr} {ret : TypeExpr}
  {ms : List Modifier} {owner : List String} {T : Ty}
include h

theorem type_of_void {routine : Option Routine} (hb : t.Bound b)
    (hd : b.details = .method ps ret ms owner routine) (hv : ret.isVoid = true)
    (ht : target.resolutions.type? b = some T) : T = .void := by
  obtain ⟨state, hr, hf⟩ := h.faithful
  obtain ⟨scope, type, hw, rfl, -⟩ := hf.types hb (hr ▸ ht)
  simp only [Writes, hd] at hw
  rw [hw.1]
  exact meaning_of_isVoid hv

theorem type_of_routine {routine : Routine} (hb : t.Bound b)
    (hd : b.details = .method ps ret ms owner (some routine))
    (ht : target.resolutions.type? b = some T) : T = .void := by
  cases h.declares.declared hb with
  | routine _ hd' => exact h.type_of_void hb hd' rfl ht
  | system hb =>
    subst hb
    cases hd
  | _ =>
    rename_i hd'
    rw [hd] at hd'
    cases hd'

end Accepted

/-- Classes that are accepted, with no variable of type `void` and no position that runs out. -/
structure Runnable (t : Table) (target : Target) (ds : List Decl) (img : Image) : Prop where
  accepted : Accepted t target ds img
  voidFree : ∀ d ∈ ds, d.isVoidFree = true
  narrow : ∀ d ∈ ds, d.isNarrow = true

section Runs

variable {t : Table} {target : Target} {ds : List Decl} {cmp : Comparison} {img : Image}

/-- A body that ends as its statements say hands its result on. -/
theorem Body.answers (h : Runnable t target ds img) {B : Body t target ds} {args : List Value}
    {w : World Value} {o : Outcome} {s : Store} {r : Option Value} {n : Nat} {items : List Item}
    (hc : B.definition.code = items ++ [.instr .ret])
    (hp : B.Performs cmp img n items ⟨B.method.start args, w⟩ o s)
    (hr : o.result B.method = some r) : B.Answers cmp img args w r s.world := by
  intro hargs hw
  have hloc : Located B.definition n items [.instr .ret] := ⟨[], hc, .nil⟩
  have hagrees := B.agrees_start h.accepted h.narrow h.voidFree hargs hw
  obtain ⟨y, rest, S, hy, hlands, hreach⟩ := hp _ _ hagrees hloc
  rw [← hc] at hreach
  cases o with
  | normal =>
    obtain ⟨rfl, rfl⟩ := hlands
    obtain ⟨hbound, -, hdet, -⟩ := method_declared h.accepted.declares B.mem B.named
    simp only [Outcome.result] at hr
    split at hr
    · next hvoid =>
      cases hr
      have hgives : B.result.gives none := by
        rw [h.accepted.type_of_void hbound hdet hvoid B.typed]
        rfl
      exact ⟨hgives, hy.world, fun callers =>
        (hreach callers).trans (reaches_ret (hgives.cell_eq_none_iff B.returns))⟩
    · cases hr
  | returned v =>
    obtain ⟨hgives, ⟨tail, rfl⟩, rfl⟩ := hlands
    cases hr
    exact ⟨hgives, hy.world, fun callers =>
      (hreach callers).trans (reaches_ret (hgives.cell_eq_none_iff B.returns))⟩

mutual

/-- An expression is computed, and an assignment may also be done without keeping its value. -/
theorem evals_computes (h : Runnable t target ds img) :
    ∀ {s : Store} {e : Expr} {v : Option Value} {s' : Store},
    Evals (Decl.methods ds) s e v s' → ∀ B : Body t target ds,
      (∀ {T is}, Codes B.context target.resolutions (target.frame false) e T is →
        B.Computes cmp img is T s v s') ∧
      (e.shape = .assign → ∀ {is},
        ValueCodes B.context target.resolutions (target.frame false) e is →
          B.Effects cmp img is s s')
  | _, _, _, _, .literal, B => by
    refine ⟨fun hc => ?_, nofun⟩
    cases hc
    exact .literal _
  | _, _, _, _, .var hb hg, B => by
    refine ⟨fun hc => ?_, nofun⟩
    cases hc with
    | var hb' hr ht hp _ =>
      obtain rfl := Option.some.inj (hb.symm.trans hb')
      exact .var h.accepted hr ht hp hg
    | declaration hb' hk _ =>
      obtain rfl := Option.some.inj (hb.symm.trans hb')
      exact absurd (Store.kind_of_get hg) hk
  | _, _, _, _, .declaration hb hk, B => by
    refine ⟨fun hc => ?_, nofun⟩
    cases hc with
    | var hb' _ _ hp _ =>
      obtain rfl := Option.some.inj (hb.symm.trans hb')
      exact absurd hp.kind hk
    | declaration => exact .declaration
  | _, _, _, _, .unary ho hr, B => by
    refine ⟨fun hc => ?_, nofun⟩
    cases hc with
    | unary hoc _ => exact ((evals_computes h ho B).1 hoc).unary hr
  | _, _, _, _, .binary hl hr ho, B => by
    refine ⟨fun hc => ?_, nofun⟩
    cases hc with
    | binary hlc hrc ha hks _ =>
      exact ((evals_computes h hl B).1 hlc).binary ((evals_computes h hr B).1 hrc) ha hks ho
  | _, _, _, _, .assign hb he hs, B => by
    constructor
    · intro T is hc
      cases hc with
      | assign hb' hr ht hp hvc _ _ =>
        obtain rfl := Option.some.inj (hb.symm.trans hb')
        exact .assign h.accepted hr ht hp h.narrow ((evals_computes h he B).1 hvc) hs
    · intro _ is hc
      cases hc with
      | assign hb' hr ht hp hvc _ =>
        obtain rfl := Option.some.inj (hb.symm.trans hb')
        exact .assign h.accepted hr ht hp h.narrow ((evals_computes h he B).1 hvc) hs
      | other _ hne => exact absurd rfl hne
  | _, _, _, _, .print hm hd ha ht, B => by
    refine ⟨fun hc => ?_, nofun⟩
    cases hc with
    | call hm' hr _ _ hT _ hcall hl hlc hargs _ =>
      obtain rfl := Option.some.inj (hm.symm.trans hm')
      cases hcall with
      | console hd' _ _ =>
        rw [hd] at hd'
        cases hd'
        obtain rfl := h.accepted.type_of_routine hr.1 hd hT
        exact .print (evalsAll_computes h ha B hl hlc hargs) ht rfl
      | shared hd' | own hd' =>
        rw [hd] at hd'
        cases hd'
  | _, _, _, _, .call hm hd ha hp hs hr, B => by
    refine ⟨fun hc => ?_, nofun⟩
    cases hc with
    | call hm' hreach _ hTs hT ho hcall hl hlc hargs _ =>
      obtain rfl := Option.some.inj (hm.symm.trans hm')
      cases hcall with
      | shared hd' has hasm hst =>
        obtain ⟨C, hdecl, rfl, hfound, hparams⟩ :=
          h.accepted.callee hp hs hst hd' hTs has hT hasm ho
        exact .call (evalsAll_computes h ha B hl hlc hargs) has rfl hfound hparams
          (runs_answers h hr C hdecl)
      | console hd' =>
        rw [hd] at hd'
        cases hd'
      | own _ _ _ _ hst => exact absurd (hst.symm.trans B.isStatic_context) (by simp)
  | _, _, _, _, .create hc hd, B => by
    refine ⟨fun hcode => ?_, nofun⟩
    cases hcode with
    | create hc' hb hd' hs _ =>
      obtain rfl := Option.some.inj (hc.symm.trans hc')
      exact .create h.accepted hb hd' hs

theorem evalsAll_computes (h : Runnable t target ds img) :
    ∀ {s : Store} {args : List Expr} {vs : List Value} {s' : Store},
    EvalsAll (Decl.methods ds) s args vs s' → ∀ (B : Body t target ds) {Ts : List Ty}
      {codes : List (List Instr)}, args.length = Ts.length → codes.length = Ts.length →
      (∀ e T is, (e, T, is) ∈ args.zip (Ts.zip codes) →
        Codes B.context target.resolutions (target.frame false) e T is) →
      B.ComputesAll cmp img codes.flatten Ts s vs s'
  | _, _, _, _, .nil, B, Ts, codes, hl, hlc, _ => by
    obtain rfl := List.eq_nil_of_length_eq_zero hl.symm
    obtain rfl := List.eq_nil_of_length_eq_zero hlc
    exact .nil
  | _, _, _, _, .cons he hr, B, Ts, codes, hl, hlc, hargs => by
    cases Ts with
    | nil => cases hl
    | cons T Ts =>
      cases codes with
      | nil => cases hlc
      | cons is codes =>
        refine .cons ((evals_computes h he B).1 (hargs _ T is List.mem_cons_self)) ?_
        exact evalsAll_computes h hr B (Nat.succ.inj hl) (Nat.succ.inj hlc)
          fun e U js hmem => hargs e U js (List.mem_cons_of_mem _ hmem)

theorem inits_effects (h : Runnable t target ds img) :
    ∀ {s : Store} {vars : List Declarator} {s' : Store},
    Inits (Decl.methods ds) s vars s' → ∀ (B : Body t target ds) {is : List Instr},
      LocalsCodes B.context target.resolutions (target.frame false) vars is →
      B.Effects cmp img is s s'
  | _, _, _, .nil, B, is, hc => by
    obtain rfl : is = [] := hc
    exact .nil
  | _, _, _, .bare hi hr, B, is, hc => by
    obtain ⟨js, ks, hfirst, hrest, rfl⟩ := hc
    cases hfirst with
    | bare => exact inits_effects h hr B hrest
    | init hi' => rw [hi] at hi'; cases hi'
  | _, _, _, .init hi hb he hs hr, B, is, hc => by
    have hvalue := evals_computes h he B
    obtain ⟨js, ks, hfirst, hrest, rfl⟩ := hc
    cases hfirst with
    | bare hi' => rw [hi] at hi'; cases hi'
    | init hi' hb' hreach hd ht hcode =>
      obtain rfl := Option.some.inj (hi.symm.trans hi')
      obtain rfl := Option.some.inj (hb.symm.trans hb')
      have hstore :=
        Body.Effects.assign h.accepted hreach ht (.slot hd) h.narrow (hvalue.1 hcode) hs
      exact .append (by simpa [Lowering.Place.store] using hstore) (inits_effects h hr B hrest)

theorem execs_performs (h : Runnable t target ds img) :
    ∀ {s : Store} {stmt : Stmt} {o : Outcome} {s' : Store},
    Execs (Decl.methods ds) s stmt o s' → ∀ (B : Body t target ds) {n next : Nat}
      {items : List Item},
      StmtCodes B.context target.resolutions (target.frame false) n stmt items next →
      B.Performs cmp img n items s o s'
  | _, _, _, _, .block hb, B, n, next, items, hc => by
    rw [StmtCodes] at hc
    exact execsAll_performs h hb B hc
  | _, _, _, _, .expr he, B, n, next, items, hc => by
    rw [StmtCodes] at hc
    obtain ⟨is, hvc, rfl, -⟩ := hc
    have hvalue := evals_computes h he B
    refine .effects ?_
    cases hvc with
    | assign hb hr ht hp hcode hi => exact hvalue.2 rfl (.assign hb hr ht hp hcode hi)
    | other hcode _ => exact (hvalue.1 hcode).dropped
  | _, _, _, _, .locals hi, B, n, next, items, hc => by
    rw [StmtCodes] at hc
    obtain ⟨is, hvc, rfl, -⟩ := hc
    exact .effects (inits_effects h hi B hvc)
  | _, _, _, _, .thenTrue hc hb, B, n, next, items, hcode => by
    rw [StmtCodes] at hcode
    obtain ⟨is, xs, hcond, hthen, rfl⟩ := hcode
    exact .thenTrue hthen.labels.2 ((evals_computes h hc B).1 hcond) (execs_performs h hb B hthen)
  | _, _, _, _, .thenFalse hc, B, n, next, items, hcode => by
    rw [StmtCodes] at hcode
    obtain ⟨is, xs, hcond, hthen, rfl⟩ := hcode
    exact .thenFalse hthen.labels.2 ((evals_computes h hc B).1 hcond)
  | _, _, _, _, .elseTrue hc hb, B, n, next, items, hcode => by
    rw [StmtCodes] at hcode
    obtain ⟨is, xs, ys, m, hcond, hthen, helse, rfl⟩ := hcode
    exact .elseTrue hthen.labels.2 helse.labels.2 hthen.labels.1 helse.labels.1
      ((evals_computes h hc B).1 hcond) (execs_performs h hb B hthen)
  | _, _, _, _, .elseFalse hc hb, B, n, next, items, hcode => by
    rw [StmtCodes] at hcode
    obtain ⟨is, xs, ys, m, hcond, hthen, helse, rfl⟩ := hcode
    exact .elseFalse hthen.labels.2 helse.labels.2 hthen.labels.1 helse.labels.1
      ((evals_computes h hc B).1 hcond) (execs_performs h hb B helse)
  | _, _, _, _, .loopEnd hc, B, n, next, items, hcode => by
    rw [StmtCodes] at hcode
    obtain ⟨is, xs, hcond, hbody, rfl⟩ := hcode
    exact .loopEnd hbody.labels.2 ((evals_computes h hc B).1 hcond)
  | _, _, _, _, .loopNext hc hb hl, B, n, next, items, hcode => by
    have hagain := execs_performs h hl B hcode
    rw [StmtCodes] at hcode
    obtain ⟨is, xs, hcond, hbody, rfl⟩ := hcode
    exact .loopNext hbody.labels.2 ((evals_computes h hc B).1 hcond)
      (execs_performs h hb B hbody) hagain
  | _, _, _, _, .loopReturn hc hb, B, n, next, items, hcode => by
    rw [StmtCodes] at hcode
    obtain ⟨is, xs, hcond, hbody, rfl⟩ := hcode
    exact .loopReturn hbody.labels.2 ((evals_computes h hc B).1 hcond) (execs_performs h hb B hbody)
  | _, _, _, _, .leave, B, n, next, items, hcode => by
    rw [StmtCodes] at hcode
    obtain ⟨m, T, is, hm, hT, ⟨rfl, rfl⟩, rfl, -⟩ := hcode
    cases hm
    exact .leave (Option.some.inj (B.typed.symm.trans hT))
  | _, _, _, _, .ret he, B, n, next, items, hcode => by
    rw [StmtCodes] at hcode
    obtain ⟨m, T, is, hm, hT, hvalue, rfl, -⟩ := hcode
    cases hm
    obtain rfl := Option.some.inj (B.typed.symm.trans hT)
    exact .ret ((evals_computes h he B).1 hvalue)
  | _, _, _, _, .empty, B, n, next, items, hcode => by
    rw [StmtCodes] at hcode
    obtain ⟨rfl, -⟩ := hcode
    exact .nothing

theorem execsAll_performs (h : Runnable t target ds img) :
    ∀ {s : Store} {body : List Stmt} {o : Outcome} {s' : Store},
    ExecsAll (Decl.methods ds) s body o s' → ∀ (B : Body t target ds) {n next : Nat}
      {items : List Item},
      StmtsCodes B.context target.resolutions (target.frame false) n body items next →
      B.Performs cmp img n items s o s'
  | _, _, _, _, .nil, B, n, next, items, hc => by
    rw [StmtsCodes] at hc
    obtain ⟨rfl, -⟩ := hc
    exact .nothing
  | _, _, _, _, .cons hs hr, B, n, next, items, hc => by
    rw [StmtsCodes] at hc
    obtain ⟨xs, ys, m, hfirst, hrest, rfl⟩ := hc
    exact .append (execs_performs h hs B hfirst) (execsAll_performs h hr B hrest) hfirst.labels.1
      hfirst.labels.2
  | _, _, _, _, .stop hs, B, n, next, items, hc => by
    rw [StmtsCodes] at hc
    obtain ⟨xs, ys, m, hfirst, -, rfl⟩ := hc
    exact .stop (execs_performs h hs B hfirst)

theorem runs_answers (h : Runnable t target ds img) :
    ∀ {m : Method} {args : List Value} {w : World Value} {r : Option Value}
    {w' : World Value}, Runs (Decl.methods ds) m args w r w' → ∀ B : Body t target ds,
      B.method = m → B.Answers cmp img args w r w'
  | _, _, _, _, _, .body _ hb he hr, B, hm => by
    obtain ⟨n, items, next, hcodes, hcode⟩ := B.code
    rw [← hm] at hb
    rw [Option.some.inj (B.written.symm.trans hb)] at hcodes
    have hperforms := execsAll_performs h he B hcodes
    rw [← hm] at hperforms hr
    exact B.answers h hcode hperforms hr

end

end Runs

end ClassLang
