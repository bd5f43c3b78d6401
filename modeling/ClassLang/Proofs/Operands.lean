import ClassLang.Proofs.Input
import ClassLang.Proofs.Resolved

/-! Typing of an expression, taken apart. The operands are typed in turn, then the node above them
is judged, and the judgement is settled on it. What is proved of every expression that typing went
through is proved by induction over these steps. -/
namespace ClassLang

namespace Expr

/-- What is checked before the node itself, in this order. The name of a call is no operand. -/
def operands : Expr → List Expr
  | .literal .. | .this _ | .name .. => []
  | .unary _ operand _ => [operand]
  | .binary _ left right _ => [left, right]
  | .assign target value _ => [target, value]
  | .call (.name ..) args _ => args
  | .call callee args _ => callee :: args
  | .create _ args _ => args
  | .field target _ _ => [target]
  | .index target place _ => [target, place]

theorem operands_call {callee : Expr} (h : callee.shape ≠ .name) (args : List Expr) (note : Note) :
    (call callee args note).operands = callee :: args := by
  cases callee with
  | name => exact absurd rfl h
  | _ => rfl

theorem sizeOf_operands {e x : Expr} (h : x ∈ e.operands) : sizeOf x < sizeOf e := by
  have harg : ∀ {args : List Expr}, x ∈ args → sizeOf x < sizeOf args := List.sizeOf_lt_of_mem
  cases e with
  | literal | this | name => cases h
  | unary | field =>
    cases List.mem_singleton.mp h
    simp
    omega
  | binary | assign | index =>
    rcases List.mem_cons.mp h with rfl | h
    · simp
      omega
    · cases List.mem_singleton.mp h
      simp
      omega
  | create n args note =>
    have hx : sizeOf x < sizeOf args := harg h
    simp only [create.sizeOf_spec]
    omega
  | call callee args note =>
    cases callee with
    | name =>
      have hx : sizeOf x < sizeOf args := harg h
      simp only [call.sizeOf_spec]
      omega
    | _ =>
      rcases List.mem_cons.mp h with rfl | h
      · simp only [call.sizeOf_spec]
        omega
      · have hx := harg h
        simp only [call.sizeOf_spec]
        omega

end Expr

namespace Typing

/-- Expressions that are typed one after the other, where `P` says what became of each. -/
inductive InTurn (P : Expr → State → Expr → Ty → State → Prop) :
    List Expr → State → List Expr → List Ty → State → Prop
  | nil {s : State} : InTurn P [] s [] [] s
  | cons {e e' : Expr} {T : Ty} {es es' : List Expr} {Ts : List Ty} {s s₁ s' : State}
    (head : P e s e' T s₁) (tail : InTurn P es s₁ es' Ts s') :
    InTurn P (e :: es) s (e' :: es') (T :: Ts) s'

structure Annotates (ctx : Context) (e : Expr) (s : State) (e' : Expr) (T : Ty) (s' : State) :
    Prop where
  fresh : e.isFresh = true
  run : annotateExpr ctx e s = ⟨e', .ok T, s'⟩

section

variable {ctx : Context} {P Q : Expr → State → Expr → Ty → State → Prop} {e e' : Expr} {T : Ty}
  {es es' : List Expr} {Ts : List Ty} {s s₁ s₂ s' : State}

namespace InTurn

theorem imp (h : InTurn P es s es' Ts s')
    (hPQ : ∀ e ∈ es, ∀ {s e' T s'}, P e s e' T s' → Q e s e' T s') : InTurn Q es s es' Ts s' := by
  induction h with
  | nil => exact .nil
  | cons head _ ih =>
    obtain ⟨hhead, htail⟩ := List.forall_mem_cons.mp hPQ
    exact .cons (hhead head) (ih htail)

theorem length_eq (h : InTurn P es s es' Ts s') :
    es'.length = Ts.length ∧ Ts.length = es.length := by
  induction h with
  | nil => exact ⟨rfl, rfl⟩
  | cons _ _ ih => exact ⟨congrArg (· + 1) ih.1, congrArg (· + 1) ih.2⟩

end InTurn

theorem inTurn_of_annotateArgs : ∀ {es es' : List Expr} {Ts : List Ty} {s s' : State},
    Expr.allFresh es = true → annotateArgs ctx es s = ⟨es', .ok Ts, s'⟩ →
      InTurn (Annotates ctx) es s es' Ts s' := by
  intro es
  induction es with
  | nil =>
    intro es' Ts s s' _ h
    rw [annotateArgs] at h
    cases h
    exact .nil
  | cons e es ih =>
    intro es' Ts s s' hf h
    rw [annotateArgs] at h
    rw [Expr.allFresh, Bool.and_eq_true] at hf
    obtain ⟨e', T, s₁, h₁, h⟩ := Visit.part_ok_iff.mp h
    obtain ⟨rest, Us, s₂, h₂, h₃⟩ := Visit.part_ok_iff.mp h
    cases h₃
    exact .cons ⟨hf.1, h₁⟩ (ih hf.2 h₂)

theorem InTurn.annotateArgs_eq (h : InTurn (Annotates ctx) es s es' Ts s') :
    annotateArgs ctx es s = ⟨es', .ok Ts, s'⟩ := by
  induction h with
  | nil =>
    rw [annotateArgs]
    rfl
  | cons head _ ih =>
    rw [annotateArgs]
    exact Visit.part_ok_iff.mpr ⟨_, _, _, head.run, Visit.part_ok_iff.mpr ⟨_, _, _, ih, rfl⟩⟩

/-- How the callee `n` of a call with arguments of these types is looked for, from `s` to `s'`: what
its name becomes, and the judgement on the call. Arguments of type `error` leave it alone. -/
inductive CalleeStep (ctx : Context) (n : DottedName) (types : List Ty) (position : Position) :
    State → DottedName → Judgement → State → Prop
  | muted {s : State} (he : .error ∈ types) :
    CalleeStep ctx n types position s n .silent s
  | lost {last : Name} {d : Diagnostic} {s : State} (he : .error ∉ types)
    (hl : n.segments.getLast? = some last)
    (hc : candidates ctx n.segments.dropLast last position = .error d) :
    CalleeStep ctx n types position s n .silent (s.push d)
  | refused {last : Name} {symbols : List Symbol} {found : List Offer} {p : Problem} {s s' : State}
    (he : .error ∉ types) (hl : n.segments.getLast? = some last)
    (hc : candidates ctx n.segments.dropLast last position = .ok symbols)
    (ho : offers ctx.table (symbols.filter Symbol.isMethod) s = (found, s'))
    (hp : chooseOffer ctx n types found = .error p) :
    CalleeStep ctx n types position s n (.bad p) s'
  | chosen {last : Name} {symbols : List Symbol} {found : List Offer} {offer : Offer} {s s' : State}
    (he : .error ∉ types) (hl : n.segments.getLast? = some last)
    (hc : candidates ctx n.segments.dropLast last position = .ok symbols)
    (ho : offers ctx.table (symbols.filter Symbol.isMethod) s = (found, s'))
    (hp : chooseOffer ctx n types found = .ok offer) :
    CalleeStep ctx n types position s { n with symbol := some offer.method } (.found offer.returns)
      s'

/-- How a node is judged, from `s` to `s'`, once its operands have become expressions of these
types: how it is built from them, and the judgement on it. -/
inductive NodeStep (ctx : Context) :
    Expr → List Expr → List Ty → State → (Note → Expr) → Judgement → State → Prop
  | literal {value : Literal} {note : Note} {s : State} :
    NodeStep ctx (.literal value note) [] [] s (.literal value) (.found (literalType value)) s
  | this {note : Note} {s : State} : NodeStep ctx (.this note) [] [] s .this (thisJudgement ctx) s
  | lostName {n : DottedName} {note : Note} {d : Diagnostic} {s : State} (hn : n.symbol = none)
    (hp : resolvePath ctx.table ctx.scope n.span.start n.segments = some (.error d)) :
    NodeStep ctx (.name n note) [] [] s (.name n) .silent (s.push d)
  | refusedName {n : DottedName} {note : Note} {b : Symbol} {p : Problem} {s : State}
    (hn : n.symbol = none)
    (hp : resolvePath ctx.table ctx.scope n.span.start n.segments = some (.ok b))
    (hj : nameProblem? ctx { n with symbol := some b } b = some p) :
    NodeStep ctx (.name n note) [] [] s (.name { n with symbol := some b }) (.bad p) s
  | var {n : DottedName} {note : Note} {b : Symbol} {A : Ty} {s s' : State} (hn : n.symbol = none)
    (hp : resolvePath ctx.table ctx.scope n.span.start n.segments = some (.ok b))
    (hj : nameProblem? ctx { n with symbol := some b } b = none) (hk : b.kind = .var)
    (hv : s.varType ctx.table b = (A, s')) :
    NodeStep ctx (.name n note) [] [] s (.name { n with symbol := some b }) (.found A) s'
  | declaration {n : DottedName} {note : Note} {b : Symbol} {s : State} (hn : n.symbol = none)
    (hp : resolvePath ctx.table ctx.scope n.span.start n.segments = some (.ok b))
    (hj : nameProblem? ctx { n with symbol := some b } b = none) (hk : b.kind ≠ .var) :
    NodeStep ctx (.name n note) [] [] s (.name { n with symbol := some b }) (.found .declaration) s
  | unary {op : UnaryOp} {operand x : Expr} {note : Note} {A : Ty} {s : State} :
    NodeStep ctx (.unary op operand note) [x] [A] s (.unary op x) (unaryJudgement op A) s
  | binary {op : BinaryOp} {left right x y : Expr} {note : Note} {A B : Ty} {s : State} :
    NodeStep ctx (.binary op left right note) [x, y] [A, B] s (.binary op x y)
      (binaryJudgement op A B) s
  | assign {target value x y : Expr} {note : Note} {A B : Ty} {s : State}
    (ht : isTarget target = true) :
    NodeStep ctx (.assign target value note) [x, y] [A, B] s (.assign x y) (assignJudgement A B) s
  | call {n n' : DottedName} {nameNote note : Note} {args xs : List Expr} {types : List Ty}
    {j : Judgement} {s s' : State} (hn : n.symbol = none) (hnote : nameNote.type = none)
    (hc : CalleeStep ctx n types note.span.start s n' j s') :
    NodeStep ctx (.call (.name n nameNote) args note) xs types s
      (.call (.name n' { nameNote with type := some .declaration }) xs) j s'
  | computed {callee x : Expr} {args xs : List Expr} {note : Note} {A : Ty} {types : List Ty}
    {s : State} (hc : callee.shape ≠ .name) :
    NodeStep ctx (.call callee args note) (x :: xs) (A :: types) s (.call x xs)
      (.bad (.unsupported "calls on computed expressions")) s
  | lostClass {n : DottedName} {args xs : List Expr} {note : Note} {types : List Ty}
    {d : Diagnostic} {s : State} (hn : n.symbol = none)
    (hp : resolvePath ctx.table ctx.scope n.span.start n.segments = some (.error d)) :
    NodeStep ctx (.create n args note) xs types s (.create n xs) .silent (s.push d)
  | create {n : DottedName} {args xs : List Expr} {note : Note} {types : List Ty} {b : Symbol}
    {s : State} (hn : n.symbol = none)
    (hp : resolvePath ctx.table ctx.scope n.span.start n.segments = some (.ok b)) :
    NodeStep ctx (.create n args note) xs types s (.create { n with symbol := some b } xs)
      (createJudgement { n with symbol := some b } xs b) s
  | field {target x : Expr} {field : Name} {note : Note} {A : Ty} {s : State} :
    NodeStep ctx (.field target field note) [x] [A] s (.field x field)
      (.bad (.unsupported "field access on expressions")) s
  | index {target place x y : Expr} {note : Note} {A B : Ty} {s : State} :
    NodeStep ctx (.index target place note) [x, y] [A, B] s (.index x y)
      (.bad (.unsupported "arrays")) s

theorem bindName_eq {n n' : DottedName} {symbol? : Option Symbol} (hn : n.symbol = none)
    (h : bindName ctx n s = ⟨n', .ok symbol?, s'⟩) :
    (∃ d, resolvePath ctx.table ctx.scope n.span.start n.segments = some (.error d) ∧ n' = n ∧
        symbol? = none ∧ s' = s.push d) ∨
      ∃ b, resolvePath ctx.table ctx.scope n.span.start n.segments = some (.ok b) ∧
        n' = { n with symbol := some b } ∧ symbol? = some b ∧ s' = s := by
  unfold bindName at h
  split at h
  · cases h
  · next d hd =>
    cases h
    exact Or.inl ⟨d, hd, rfl, rfl, rfl⟩
  · next b hb =>
    rw [hn] at h
    cases h
    exact Or.inr ⟨b, hb, rfl, rfl, rfl⟩

theorem nodeStep_of_annotateName {n : DottedName} {note : Note} (hn : n.symbol = none)
    (h : annotateName ctx n note s = ⟨e', .ok T, s'⟩) :
    ∃ build j s₁, NodeStep ctx (.name n note) [] [] s build j s₁ ∧
      settle build note j s₁ = ⟨e', .ok T, s'⟩ := by
  obtain ⟨n', symbol?, s₁, h₁, h₂⟩ := Visit.part_ok_iff.mp h
  rcases bindName_eq hn h₁ with ⟨d, hp, rfl, rfl, rfl⟩ | ⟨b, hp, rfl, rfl, rfl⟩
  · exact ⟨_, _, _, .lostName hn hp, h₂⟩
  · dsimp only at h₂
    unfold nameJudgement at h₂
    split at h₂
    · next hj => exact ⟨_, _, _, .refusedName hn hp hj, h₂⟩
    · next hj hk => exact ⟨_, _, _, .var hn hp hj hk rfl, h₂⟩
    · next hj hk => exact ⟨_, _, _, .declaration hn hp hj hk, h₂⟩

theorem any_isError_iff {types : List Ty} : types.any Ty.isError = true ↔ .error ∈ types := by
  simp [Ty.isError_iff]

theorem calleeStep_of_annotateCallee {n : DottedName} {nameNote note : Note} {args : List Expr}
    {types : List Ty} (hn : n.symbol = none)
    (h : annotateCallee ctx n nameNote args types note s = ⟨e', .ok T, s'⟩) :
    ∃ n' j s₁, CalleeStep ctx n types note.span.start s n' j s₁ ∧
      settle (.call (.name n' nameNote) args) note j s₁ = ⟨e', .ok T, s'⟩ := by
  unfold annotateCallee at h
  dsimp only at h
  split at h
  · next he => exact ⟨_, _, _, .muted (any_isError_iff.mp he), h⟩
  · next he =>
    replace he := mt any_isError_iff.mpr he
    split at h
    · cases h
    · next last hl =>
      split at h
      · next hc => exact ⟨_, _, _, .lost he hl hc, h⟩
      · next symbols hc =>
        rcases ho : offers ctx.table (symbols.filter Symbol.isMethod) s with ⟨found, s₁⟩
        simp only [ho] at h
        split at h
        · next hp => exact ⟨_, _, _, .refused he hl hc ho hp, h⟩
        · next hp =>
          rw [hn] at h
          exact ⟨_, _, _, .chosen he hl hc ho hp, h⟩

/-- What typing does with an expression: its operands in turn, and then the node. -/
theorem Annotates.steps (h : Annotates ctx e s e' T s') :
    ∃ xs types s₁ build j s₂, InTurn (Annotates ctx) e.operands s xs types s₁ ∧
      NodeStep ctx e xs types s₁ build j s₂ ∧ settle build e.note j s₂ = ⟨e', .ok T, s'⟩ := by
  obtain ⟨hf, h⟩ := h
  unfold annotateExpr at h
  simp only [Expr.type_eq_none_of_isFresh hf] at h
  cases e with
  | literal value note => exact ⟨_, _, _, _, _, _, .nil, .literal, h⟩
  | this note => exact ⟨_, _, _, _, _, _, .nil, .this, h⟩
  | name n note =>
    rw [Expr.isFresh, Bool.and_eq_true] at hf
    obtain ⟨build, j, s₁, hstep, hset⟩ :=
      nodeStep_of_annotateName (Option.isNone_iff_eq_none.mp hf.1) h
    exact ⟨_, _, _, _, _, _, .nil, hstep, hset⟩
  | unary op operand note =>
    rw [Expr.isFresh, Bool.and_eq_true] at hf
    obtain ⟨x, A, s₁, h₁, h₂⟩ := Visit.part_ok_iff.mp h
    exact ⟨_, _, _, _, _, _, .cons ⟨hf.1, h₁⟩ .nil, .unary, h₂⟩
  | binary op left right note =>
    rw [Expr.isFresh, Bool.and_eq_true, Bool.and_eq_true] at hf
    obtain ⟨x, A, s₁, h₁, h⟩ := Visit.part_ok_iff.mp h
    obtain ⟨y, B, s₂, h₂, h₃⟩ := Visit.part_ok_iff.mp h
    exact ⟨_, _, _, _, _, _, .cons ⟨hf.1.1, h₁⟩ (.cons ⟨hf.1.2, h₂⟩ .nil), .binary, h₃⟩
  | assign target value note =>
    rw [Expr.isFresh, Bool.and_eq_true, Bool.and_eq_true] at hf
    dsimp only at h
    split at h
    · next ht =>
      obtain ⟨x, A, s₁, h₁, h⟩ := Visit.part_ok_iff.mp h
      obtain ⟨y, B, s₂, h₂, h₃⟩ := Visit.part_ok_iff.mp h
      exact ⟨_, _, _, _, _, _, .cons ⟨hf.1.1, h₁⟩ (.cons ⟨hf.1.2, h₂⟩ .nil), .assign ht, h₃⟩
    · cases h
  | call callee args note =>
    rw [Expr.isFresh, Bool.and_eq_true, Bool.and_eq_true] at hf
    cases callee with
    | name n nameNote =>
      have hname := hf.1.1
      rw [Expr.isFresh, Bool.and_eq_true] at hname
      have hn := Option.isNone_iff_eq_none.mp hname.1
      have hnote := Option.isNone_iff_eq_none.mp hname.2
      simp only [hnote] at h
      obtain ⟨xs, types, s₁, h₁, h₂⟩ := Visit.part_ok_iff.mp h
      obtain ⟨n', j, s₂, hstep, h₃⟩ := calleeStep_of_annotateCallee hn h₂
      exact ⟨_, _, _, _, _, _, inTurn_of_annotateArgs hf.1.2 h₁, .call hn hnote hstep, h₃⟩
    | _ =>
      obtain ⟨x, A, s₁, h₁, h⟩ := Visit.part_ok_iff.mp h
      obtain ⟨xs, types, s₂, h₂, h₃⟩ := Visit.part_ok_iff.mp h
      exact ⟨_, _, _, _, _, _, .cons ⟨hf.1.1, h₁⟩ (inTurn_of_annotateArgs hf.1.2 h₂),
        .computed (by simp [Expr.shape]), h₃⟩
  | create n args note =>
    rw [Expr.isFresh, Bool.and_eq_true, Bool.and_eq_true] at hf
    have hn := Option.isNone_iff_eq_none.mp hf.1.1
    obtain ⟨xs, types, s₁, h₁, h⟩ := Visit.part_ok_iff.mp h
    obtain ⟨n', symbol?, s₂, h₂, h₃⟩ := Visit.part_ok_iff.mp h
    have hargs := inTurn_of_annotateArgs hf.1.2 h₁
    rcases bindName_eq hn h₂ with ⟨d, hp, rfl, rfl, rfl⟩ | ⟨b, hp, rfl, rfl, rfl⟩
    · exact ⟨_, _, _, _, _, _, hargs, .lostClass hn hp, h₃⟩
    · exact ⟨_, _, _, _, _, _, hargs, .create hn hp, h₃⟩
  | field target field note =>
    rw [Expr.isFresh, Bool.and_eq_true] at hf
    obtain ⟨x, A, s₁, h₁, h₂⟩ := Visit.part_ok_iff.mp h
    exact ⟨_, _, _, _, _, _, .cons ⟨hf.1, h₁⟩ .nil, .field, h₂⟩
  | index target place note =>
    rw [Expr.isFresh, Bool.and_eq_true, Bool.and_eq_true] at hf
    obtain ⟨x, A, s₁, h₁, h⟩ := Visit.part_ok_iff.mp h
    obtain ⟨y, B, s₂, h₂, h₃⟩ := Visit.part_ok_iff.mp h
    exact ⟨_, _, _, _, _, _, .cons ⟨hf.1.1, h₁⟩ (.cons ⟨hf.1.2, h₂⟩ .nil), .index, h₃⟩

theorem CalleeStep.annotateCallee_eq {n n' : DottedName} {note : Note} {types : List Ty}
    {j : Judgement} (h : CalleeStep ctx n types note.span.start s n' j s') (hn : n.symbol = none)
    (nameNote : Note) (args : List Expr) :
    annotateCallee ctx n nameNote args types note s =
      settle (.call (.name n' nameNote) args) note j s' := by
  cases h with
  | muted he => simp only [annotateCallee, if_pos (any_isError_iff.mpr he)]
  | lost he hl hc => simp only [annotateCallee, if_neg (mt any_isError_iff.mp he), hl, hc]
  | refused he hl hc ho hp =>
    simp only [annotateCallee, if_neg (mt any_isError_iff.mp he), hl, hc, ho, hp]
  | chosen he hl hc ho hp =>
    simp only [annotateCallee, if_neg (mt any_isError_iff.mp he), hl, hc, ho, hp, hn, fillSlot]

/-- The same steps in the other direction. -/
theorem NodeStep.annotateExpr_eq {xs : List Expr} {types : List Ty} {build : Note → Expr}
    {j : Judgement} (h : NodeStep ctx e xs types s₁ build j s₂) (hf : e.isFresh = true)
    (hargs : InTurn (Annotates ctx) e.operands s xs types s₁) :
    annotateExpr ctx e s = settle build e.note j s₂ := by
  unfold annotateExpr
  simp only [Expr.type_eq_none_of_isFresh hf]
  cases h with
  | literal | this =>
    cases hargs
    rfl
  | lostName hn hp =>
    cases hargs
    simp only [annotateName, Visit.part, bindName, hp]
    rfl
  | refusedName hn hp hj =>
    cases hargs
    simp only [annotateName, Visit.part, bindName, hp, hn, fillSlot, nameJudgement, hj]
    rfl
  | var hn hp hj hk hv =>
    cases hargs
    simp only [annotateName, Visit.part, bindName, hp, hn, fillSlot, nameJudgement, hj, hk, hv]
    rfl
  | @declaration _ _ b _ hn hp hj hk =>
    cases hargs
    simp only [annotateName, Visit.part, bindName, hp, hn, fillSlot, nameJudgement, hj]
    cases hb : b.kind with
    | var => exact absurd hb hk
    | cls | method => rfl
  | unary | field =>
    obtain ⟨⟩ | ⟨h₁, ⟨⟩⟩ := hargs
    simp only [Visit.part, h₁.run]
    rfl
  | binary | index =>
    obtain ⟨⟩ | ⟨h₁, ⟨⟩ | ⟨h₂, ⟨⟩⟩⟩ := hargs
    simp only [Visit.part, h₁.run, h₂.run]
    rfl
  | assign ht =>
    obtain ⟨⟩ | ⟨h₁, ⟨⟩ | ⟨h₂, ⟨⟩⟩⟩ := hargs
    simp only [if_pos ht, Visit.part, h₁.run, h₂.run]
    rfl
  | call hn hnote hc =>
    have hrun := hargs.annotateArgs_eq
    rw [Expr.operands] at hrun
    simp only [hnote, Visit.part, hrun]
    exact hc.annotateCallee_eq hn _ _
  | @computed callee _ _ _ _ _ _ _ hc =>
    cases callee with
    | name => exact absurd rfl hc
    | _ =>
      obtain ⟨⟩ | ⟨h₁, h₂⟩ := hargs
      simp only [Visit.part, h₁.run, h₂.annotateArgs_eq]
      rfl
  | lostClass hn hp =>
    have hrun := hargs.annotateArgs_eq
    rw [Expr.operands] at hrun
    simp only [Visit.part, hrun, bindName, hp]
    rfl
  | create hn hp =>
    have hrun := hargs.annotateArgs_eq
    rw [Expr.operands] at hrun
    simp only [Visit.part, hrun, bindName, hp, hn, fillSlot]
    rfl

/-- A node is built around the note it is given, in the form it had. -/
theorem NodeStep.build_eq {xs : List Expr} {types : List Ty} {build : Note → Expr} {j : Judgement}
    (h : NodeStep ctx e xs types s build j s') (note : Note) :
    (build note).note = note ∧ (build note).shape = e.shape := by
  cases h <;> exact ⟨rfl, rfl⟩

/-- An expression keeps its place and its form, and has the type that was found. -/
theorem Annotates.outline (h : Annotates ctx e s e' T s') :
    e'.span = e.span ∧ e'.shape = e.shape ∧ e'.type = some T := by
  obtain ⟨xs, types, s₁, build, j, s₂, -, hstep, hset⟩ := h.steps
  cases hset
  obtain ⟨hnote, hshape⟩ := hstep.build_eq { e.note with type := some j.type }
  refine ⟨?_, hshape, ?_⟩
  · rw [Expr.span, hnote]
    rfl
  · rw [Expr.type, hnote]

/-- Induction over the expressions that typing goes through: what holds of the operands holds of the
expression that they are operands of. -/
theorem Annotates.induct
    (node : ∀ {e e' : Expr} {T : Ty} {xs : List Expr} {types : List Ty} {build : Note → Expr}
      {j : Judgement} {s s₁ s₂ s' : State}, Annotates ctx e s e' T s' →
        InTurn (fun x s x' A s' => Annotates ctx x s x' A s' ∧ P x s x' A s') e.operands s xs types
          s₁ →
        NodeStep ctx e xs types s₁ build j s₂ → settle build e.note j s₂ = ⟨e', .ok T, s'⟩ →
          P e s e' T s')
    {e e' : Expr} {T : Ty} {s s' : State} (h : Annotates ctx e s e' T s') : P e s e' T s' := by
  obtain ⟨xs, types, s₁, build, j, s₂, hargs, hstep, hset⟩ := h.steps
  exact node h (hargs.imp fun x hx {_ _ _ _} hrun => ⟨hrun, hrun.induct node⟩) hstep hset
termination_by sizeOf e
decreasing_by exact Expr.sizeOf_operands hx

end

theorem offers_extends {t : Table} {ms : List Symbol} {found : List Offer} {s s' : State}
    (h : offers t ms s = (found, s')) : Extends s s' := by
  induction ms generalizing s found with
  | nil =>
    cases h
    exact .refl _
  | cons m ms ih =>
    rcases h₁ : s.signature t m with ⟨params, returns, s₁⟩
    rcases h₂ : offers t ms s₁ with ⟨rest, s₂⟩
    simp only [offers, h₁, h₂] at h
    cases h
    exact (signature_found h₁).1.trans (ih h₂)

theorem CalleeStep.extends_ {ctx : Context} {n n' : DottedName} {types : List Ty}
    {position : Position} {j : Judgement} {s s' : State}
    (h : CalleeStep ctx n types position s n' j s') : Extends s s' := by
  cases h with
  | muted => exact .refl s
  | lost => exact .also s [_]
  | refused _ _ _ ho _ | chosen _ _ _ ho _ => exact offers_extends ho

theorem NodeStep.extends_ {ctx : Context} {e : Expr} {xs : List Expr} {types : List Ty}
    {build : Note → Expr} {j : Judgement} {s s' : State}
    (h : NodeStep ctx e xs types s build j s') : Extends s s' := by
  cases h with
  | lostName | lostClass => exact .also s [_]
  | var _ _ _ _ hv => exact (varType_found hv).1
  | call _ _ hc => exact hc.extends_
  | _ => exact .refl s

theorem InTurn.extends_ {es es' : List Expr} {Ts : List Ty} {s s' : State}
    (h : InTurn (fun _ s _ _ s' => Extends s s') es s es' Ts s') : Extends s s' := by
  induction h with
  | nil => exact .refl _
  | cons head _ ih => exact head.trans ih

theorem settle_extends {build : Note → Expr} {note : Note} {j : Judgement} {s s' : State} {e : Expr}
    {T : Ty} (h : settle build note j s = ⟨e, .ok T, s'⟩) : Extends s s' := by
  unfold settle at h
  cases h
  split
  · exact .also s [_]
  · exact .refl s

theorem Annotates.extends_ {ctx : Context} {e e' : Expr} {T : Ty} {s s' : State}
    (h : Annotates ctx e s e' T s') : Extends s s' := by
  refine Annotates.induct (P := fun _ s _ _ s' => Extends s s') ?_ h
  intro e e' T xs types build j s s₁ s₂ s' _ hargs hstep hset
  have hbefore := (hargs.imp fun _ _ {_ _ _ _} hx => hx.2).extends_
  exact (hbefore.trans hstep.extends_).trans (settle_extends hset)

end Typing

end ClassLang
