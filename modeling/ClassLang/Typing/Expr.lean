import ClassLang.Typing.Judgement
import ClassLang.Visit

/-! Typing of expressions, operands first and from left to right. An expression that has its type
already is not looked at again. -/
namespace ClassLang.Typing

def settle (build : Note → Expr) (note : Note) (j : Judgement) : Visit State Expr Ty := fun s =>
  ⟨build { note with type := some j.type }, .ok j.type,
    match j.problem with
    | some p => s.report p note.span.start
    | none => s⟩

def bindName (ctx : Context) (n : DottedName) : Visit State DottedName (Option Symbol) := fun s =>
  match resolvePath ctx.table ctx.scope n.span.start n.segments with
  | none => ⟨n, .error (.missing .identifier), s⟩
  | some (.error d) => ⟨n, .ok none, s.push d⟩
  | some (.ok symbol) =>
    match fillSlot n.symbol symbol .symbol n.text with
    | .ok slot => ⟨{ n with symbol := slot }, .ok (some symbol), s⟩
    | .error fault => ⟨n, .error fault, s⟩

def nameJudgement (ctx : Context) (n : DottedName) (symbol : Symbol) (s : State) :
    Judgement × State :=
  match nameProblem? ctx n symbol, symbol.kind with
  | some p, _ => (.bad p, s)
  | none, .var =>
    let (type, s) := s.varType ctx.table symbol
    (.found type, s)
  | none, _ => (.found .declaration, s)

def annotateName (ctx : Context) (n : DottedName) (note : Note) : Visit State Expr Ty :=
  (bindName ctx n).part (.name · note) fun n symbol? s =>
    match symbol? with
    | none => settle (.name n) note .silent s
    | some symbol =>
      let (j, s) := nameJudgement ctx n symbol s
      settle (.name n) note j s

def offers (t : Table) : List Symbol → State → List Offer × State
  | [], s => ([], s)
  | m :: rest, s =>
    let (params, returns, s) := s.signature t m
    let (found, s) := offers t rest s
    (⟨m, params, returns⟩ :: found, s)

def annotateCallee (ctx : Context) (n : DottedName) (calleeNote : Note) (args : List Expr)
    (types : List Ty) (note : Note) : Visit State Expr Ty := fun s =>
  let build (n : DottedName) (note : Note) := Expr.call (.name n calleeNote) args note
  if types.any Ty.isError then settle (build n) note .silent s
  else
    match n.segments.getLast? with
    | none => ⟨build n note, .error (.missing .calleeName), s⟩
    | some last =>
      match candidates ctx n.segments.dropLast last note.span.start with
      | .error d => settle (build n) note .silent (s.push d)
      | .ok symbols =>
        let (offers, s) := offers ctx.table (symbols.filter Symbol.isMethod) s
        match chooseOffer ctx n types offers with
        | .error p => settle (build n) note (.bad p) s
        | .ok offer =>
          match fillSlot n.symbol offer.method .symbol n.text with
          | .error fault => ⟨build n note, .error fault, s⟩
          | .ok slot => settle (build { n with symbol := slot }) note (.found offer.returns) s

def isTarget : Expr → Bool
  | .name .. | .field .. | .index .. => true
  | _ => false

mutual

def annotateExpr (ctx : Context) (e : Expr) : Visit State Expr Ty :=
  match e.type with
  | some type => Visit.done e type
  | none =>
    match e with
    | .literal value note => settle (.literal value) note (.found (literalType value))
    | .this note => settle .this note (thisJudgement ctx)
    | .name n note => annotateName ctx n note
    | .unary op operand note =>
      (annotateExpr ctx operand).part (.unary op · note) fun operand type =>
        settle (.unary op operand) note (unaryJudgement op type)
    | .binary op left right note =>
      (annotateExpr ctx left).part (.binary op · right note) fun left leftType =>
        (annotateExpr ctx right).part (.binary op left · note) fun right rightType =>
          settle (.binary op left right) note (binaryJudgement op leftType rightType)
    | .assign target value note =>
      if isTarget target then
        (annotateExpr ctx target).part (.assign · value note) fun target targetType =>
          (annotateExpr ctx value).part (.assign target · note) fun value valueType =>
            settle (.assign target value) note (assignJudgement targetType valueType)
      else Visit.fail e (.misplaced (.expr target.shape) .target)
    | .call (.name n calleeNote) args note =>
      match calleeNote.type with
      | some _ => Visit.fail e (.annotatedTwice .type (Expr.Shape.text .name))
      | none =>
        let calleeNote := { calleeNote with type := some .declaration }
        (annotateArgs ctx args).part (.call (.name n calleeNote) · note) fun args types =>
          annotateCallee ctx n calleeNote args types note
    | .call callee args note =>
      (annotateExpr ctx callee).part (.call · args note) fun callee _ =>
        (annotateArgs ctx args).part (.call callee · note) fun args _ =>
          settle (.call callee args) note (.bad (.unsupported "calls on computed expressions"))
    | .create n args note =>
      (annotateArgs ctx args).part (.create n · note) fun args _ =>
        (bindName ctx n).part (.create · args note) fun n symbol? =>
          settle (.create n args) note (symbol?.elim .silent (createJudgement n args))
    | .field target field note =>
      (annotateExpr ctx target).part (.field · field note) fun target _ =>
        settle (.field target field) note (.bad (.unsupported "field access on expressions"))
    | .index target index note =>
      (annotateExpr ctx target).part (.index · index note) fun target _ =>
        (annotateExpr ctx index).part (.index target · note) fun index _ =>
          settle (.index target index) note (.bad (.unsupported "arrays"))

def annotateArgs (ctx : Context) : List Expr → Visit State (List Expr) (List Ty)
  | [] => Visit.done [] []
  | e :: rest =>
    (annotateExpr ctx e).part (· :: rest) fun e type =>
      (annotateArgs ctx rest).part (e :: ·) fun rest types => Visit.done (e :: rest) (type :: types)

end

end ClassLang.Typing
