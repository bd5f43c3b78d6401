import ClassLang.Proofs.EntryPoint
import ClassLang.Proofs.Mentioned

/-! Entry points that are static anyway. The entry point runs without `this`, so typing and lowering
ask for it wherever they ask whether a method is static. If it was declared static, the answers are
those of the declarations. Such entry points can be exchanged: a run comes to the same end and
writes the same lines, apart from the mark. -/
namespace ClassLang

open Assembly

/-- Whether the method runs without `this` does not depend on which of the two is the entry point.
-/
def SameRun (entry other : Option Nat) (m : Symbol) : Prop :=
  runsStatic entry m = runsStatic other m

namespace Typing

def Context.starting (ctx : Context) (entry : Option Nat) : Context := { ctx with entry }

/-- To start at `entry` makes no difference here: the methods that run without `this` are the same,
of those in the table and of those around. -/
structure Context.Indifferent (ctx : Context) (entry : Option Nat) : Prop where
  listed : ∀ m, ctx.table.Lists m → SameRun entry ctx.entry m
  around : (ctx.starting entry).isStatic = ctx.isStatic

section Rules

variable {ctx : Context} {entry : Option Nat} (h : ctx.Indifferent entry)
include h

theorem thisJudgement_starting : thisJudgement (ctx.starting entry) = thisJudgement ctx := by
  rw [thisJudgement, thisJudgement, h.around]

theorem nameJudgement_starting (n : DottedName) (symbol : Symbol) (s : State) :
    nameJudgement (ctx.starting entry) n symbol s = nameJudgement ctx n symbol s := by
  have hproblem : nameProblem? (ctx.starting entry) n symbol = nameProblem? ctx n symbol := by
    unfold nameProblem? fieldProblem?
    rw [h.around]
    rfl
  unfold nameJudgement
  rw [hproblem]
  rfl

theorem annotateName_starting (n : DottedName) (note : Note) :
    annotateName (ctx.starting entry) n note = annotateName ctx n note := by
  unfold annotateName
  simp only [nameJudgement_starting h]
  rfl

theorem chooseOffer_starting (n : DottedName) (args : List Ty) {os : List Offer}
    (ho : ∀ o ∈ os, ctx.table.Lists o.method) :
    chooseOffer (ctx.starting entry) n args os = chooseOffer ctx n args os := by
  have hmay : ∀ o ∈ os.filter (fun o => Ty.sameList o.params args),
      mayCall (ctx.starting entry) n o.method = mayCall ctx n o.method := by
    intro o hmem
    unfold mayCall
    rw [h.around]
    exact congrArg (· || _) (h.listed _ (ho o (List.mem_filter.mp hmem).1))
  unfold chooseOffer
  generalize os.filter (fun o => Ty.sameList o.params args) = matching at hmay
  cases os with
  | nil => rfl
  | cons =>
    rcases matching with _ | ⟨offer, _ | _⟩
    · rfl
    · simp only [hmay offer List.mem_cons_self]
    · rfl

theorem annotateCallee_starting (n : DottedName) (calleeNote : Note) (args : List Expr)
    (types : List Ty) (note : Note) :
    annotateCallee (ctx.starting entry) n calleeNote args types note =
      annotateCallee ctx n calleeNote args types note := by
  funext s
  have hcandidates : ∀ q last position, candidates (ctx.starting entry) q last position =
      candidates ctx q last position := fun _ _ _ => rfl
  unfold annotateCallee
  dsimp only
  split
  · rfl
  split
  · rfl
  rw [hcandidates]
  split
  · rfl
  · next symbols hfound =>
    have hoffered : ∀ o ∈ (offers ctx.table (symbols.filter Symbol.isMethod) s).1,
        ctx.table.Lists o.method := by
      intro o ho
      have hmem := List.mem_map_of_mem (f := Offer.method) ho
      rw [map_method_offers] at hmem
      exact lists_of_candidates hfound _ (List.mem_filter.mp hmem).1
    rw [show (ctx.starting entry).table = ctx.table from rfl,
      chooseOffer_starting h n types hoffered]

end Rules

section Nodes

variable {ctx : Context} {entry : Option Nat}

mutual

theorem annotateExpr_starting (h : ctx.Indifferent entry) : ∀ e : Expr,
    annotateExpr (ctx.starting entry) e = annotateExpr ctx e
  | .literal value note => by simp only [annotateExpr]
  | .this note => by simp only [annotateExpr, thisJudgement_starting h]
  | .name n note => by simp only [annotateExpr, annotateName_starting h]
  | .unary op operand note => by simp only [annotateExpr, annotateExpr_starting h operand]
  | .binary op left right note => by
    simp only [annotateExpr, annotateExpr_starting h left, annotateExpr_starting h right]
  | .assign target value note => by
    simp only [annotateExpr, annotateExpr_starting h target, annotateExpr_starting h value]
  | .call callee args note => by
    have hcallee := annotateExpr_starting h callee
    have hargs := annotateArgs_starting h args
    unfold annotateExpr
    cases callee with
    | name n nameNote => simp only [hargs, annotateCallee_starting h]
    | _ => simp only [hcallee, hargs]
  | .create n args note => by
    simp only [annotateExpr, annotateArgs_starting h args]
    rfl
  | .field target field note => by simp only [annotateExpr, annotateExpr_starting h target]
  | .index target place note => by
    simp only [annotateExpr, annotateExpr_starting h target, annotateExpr_starting h place]

theorem annotateArgs_starting (h : ctx.Indifferent entry) : ∀ es : List Expr,
    annotateArgs (ctx.starting entry) es = annotateArgs ctx es
  | [] => by simp only [annotateArgs]
  | e :: rest => by
    simp only [annotateArgs, annotateExpr_starting h e, annotateArgs_starting h rest]

end

theorem annotateLocal_starting (h : ctx.Indifferent entry) (type : TypeExpr) (v : Declarator) :
    annotateLocal (ctx.starting entry) type v = annotateLocal ctx type v := by
  unfold annotateLocal
  simp only [annotateExpr_starting h]
  rfl

theorem annotateCondition_starting (h : ctx.Indifferent entry) (cond : Expr) :
    annotateCondition (ctx.starting entry) cond = annotateCondition ctx cond := by
  unfold annotateCondition
  rw [annotateExpr_starting h]

theorem annotateReturn_starting (h : ctx.Indifferent entry) (value : Option Expr) (span : Span) :
    annotateReturn (ctx.starting entry) value span = annotateReturn ctx value span := by
  have hvalue : annotateExpr (ctx.starting entry) = annotateExpr ctx :=
    funext (annotateExpr_starting h)
  unfold annotateReturn
  rw [hvalue]
  rfl

mutual

theorem annotateStmt_starting (h : ctx.Indifferent entry) : ∀ stmt : Stmt,
    annotateStmt (ctx.starting entry) stmt = annotateStmt ctx stmt
  | .block body span => by simp only [annotateStmt, annotateStmts_starting h body]
  | .expr value span type => by simp only [annotateStmt, annotateExpr_starting h value]
  | .locals d => by
    have hlocal : annotateLocal (ctx.starting entry) d.type = annotateLocal ctx d.type :=
      funext (annotateLocal_starting h d.type)
    simp only [annotateStmt, hlocal]
  | .ifThen cond thenBody span => by
    simp only [annotateStmt, annotateCondition_starting h, annotateStmt_starting h thenBody]
  | .ifElse cond thenBody elseBody span => by
    simp only [annotateStmt, annotateCondition_starting h, annotateStmt_starting h thenBody,
      annotateStmt_starting h elseBody]
  | .loop cond body span => by
    simp only [annotateStmt, annotateCondition_starting h, annotateStmt_starting h body]
  | .ret value span => by simp only [annotateStmt, annotateReturn_starting h]
  | .empty span => by simp only [annotateStmt]

theorem annotateStmts_starting (h : ctx.Indifferent entry) : ∀ body : List Stmt,
    annotateStmts (ctx.starting entry) body = annotateStmts ctx body
  | [] => by simp only [annotateStmts]
  | stmt :: rest => by
    simp only [annotateStmts, annotateStmt_starting h stmt, annotateStmts_starting h rest]

end

theorem annotateMethod_starting (h : ctx.Indifferent entry) {m : Method}
    (hm : ∀ b, m.symbol = some b → ctx.table.Lists b) :
    annotateMethod (ctx.starting entry) m = annotateMethod ctx m := by
  funext s
  unfold annotateMethod
  cases hb : m.symbol with
  | none => rfl
  | some b =>
    dsimp only
    split
    · rfl
    · next scope _ =>
      have hin : Context.Indifferent { ctx with scope, method := some b } entry :=
        ⟨h.listed, h.listed b (hm b hb)⟩
      cases m.body with
      | none => rfl
      | some body =>
        simp only [← annotateStmts_starting hin]
        rfl

theorem annotateField_starting (h : ctx.Indifferent entry) (d : VarDecl) :
    annotateField (ctx.starting entry) d = annotateField ctx d := by
  have hvar : annotateFieldVar (ctx.starting entry) d.type = annotateFieldVar ctx d.type := by
    funext v s
    unfold annotateFieldVar
    simp only [annotateExpr_starting h]
    rfl
  rw [annotateField, hvar]
  rfl

/-- Outside of methods there is no `this`, wherever the program starts. -/
theorem annotateClassWith_starting (h : ctx.Indifferent entry) (head : ClassHead)
    (members : List Member) {body : Context → Visit State (List Member) Unit}
    (hbody : ∀ scope, Context.Indifferent { ctx with scope, method := none } entry →
      body (Context.starting { ctx with scope, method := none } entry) =
        body { ctx with scope, method := none }) :
    annotateClassWith (ctx.starting entry) head members body =
      annotateClassWith ctx head members body := by
  unfold annotateClassWith
  split
  · rfl
  · split
    · rfl
    · next scope _ =>
      rw [← hbody scope ⟨h.listed, rfl⟩]
      rfl

mutual

theorem annotateMember_starting {ctx : Context} (h : ctx.Indifferent entry) :
    ∀ m : Member, (∀ b ∈ m.mentioned, ctx.table.Lists b) →
      annotateMember (ctx.starting entry) m = annotateMember ctx m
  | .method m, hl => by
    have hm : ∀ b, m.symbol = some b → ctx.table.Lists b := fun b hb =>
      hl b (by simp [Member.mentioned, Method.mentioned, hb])
    simp only [annotateMember, annotateMethod_starting h hm]
  | .field d, _ => by simp only [annotateMember, annotateField_starting h]
  | .nested head members, hl => by
    rw [Member.mentioned] at hl
    rw [annotateMember, annotateMember, annotateClassWith_starting h head members
      fun scope hctx => annotateMembers_starting hctx members hl]

theorem annotateMembers_starting {ctx : Context} (h : ctx.Indifferent entry) :
    ∀ ms : List Member, (∀ b ∈ Member.allMentioned ms, ctx.table.Lists b) →
      annotateMembers (ctx.starting entry) ms = annotateMembers ctx ms
  | [], _ => by simp only [annotateMembers]
  | m :: rest, hl => by
    rw [Member.allMentioned, List.forall_mem_append] at hl
    simp only [annotateMembers, annotateMember_starting h m hl.1,
      annotateMembers_starting h rest hl.2]

end

theorem annotateClass_starting {ctx : Context} (h : ctx.Indifferent entry) {c : ClassDecl}
    (hl : ∀ b ∈ Member.allMentioned c.members, ctx.table.Lists b) :
    annotateClass (ctx.starting entry) c = annotateClass ctx c :=
  annotateClassWith_starting h c.head c.members
    fun _ hin => annotateMembers_starting hin c.members hl

end Nodes

/-- The unit is typed alike if both choices make the same methods run without `this`. -/
theorem annotateUnit_starting {u : CompilationUnit} {t : Table} {choice choice' : EntryChoice}
    (hu : ∀ c, u.top = some c → (∀ b ∈ Member.allMentioned c.members, t.Lists b) ∧
      ∀ b, t.Lists b → SameRun (choice'.resolve c) (choice.resolve c) b) :
    annotateUnit u t choice' = annotateUnit u t choice := by
  unfold annotateUnit
  cases htop : u.top with
  | none => rfl
  | some c =>
    obtain ⟨hlisted, hruns⟩ := hu c htop
    have hctx : Context.Indifferent ⟨t, Table.root, none, choice.resolve c⟩ (choice'.resolve c) :=
      ⟨hruns, rfl⟩
    dsimp only
    rw [← annotateClass_starting hctx hlisted]
    rfl

end Typing

namespace Lowering

def Frame.starting (f : Frame) (entry : Option Nat) : Frame := { f with entry }

theorem Frame.invoke_starting {f : Frame} {entry : Option Nat} {m : Symbol}
    (h : SameRun entry f.entry m) (args : Emission) :
    (f.starting entry).invoke m args = f.invoke m args := by
  have hruns : runsStatic (f.starting entry).entry m = runsStatic f.entry m := h
  unfold invoke
  rw [hruns]
  rfl

section Code

variable {f : Frame} {entry : Option Nat}

mutual

theorem lowerExpr_starting : ∀ {e : Expr},
    CallsIn (SameRun entry f.entry) e.evaluated →
      lowerExpr (f.starting entry) e = lowerExpr f e
  | .literal .., _ => by simp only [lowerExpr]
  | .this _, _ => by
    simp only [lowerExpr]
    rfl
  | .name .., _ => by
    simp only [lowerExpr]
    rfl
  | .unary op operand note, h => by
    simp only [lowerExpr, lowerExpr_starting (callsIn_unary.mp h)]
  | .binary op left right note, h => by
    obtain ⟨hleft, hright⟩ := callsIn_binary.mp h
    simp only [lowerExpr, lowerExpr_starting hleft, lowerExpr_starting hright]
  | .assign target value note, h => by
    simp only [lowerExpr, lowerExpr_starting (callsIn_assign.mp h)]
    rfl
  | .call callee args note, h => by
    cases callee with
    | name n nameNote =>
      obtain ⟨hn, hargs⟩ := callsIn_call.mp h
      simp only [lowerExpr, lowerArgs_starting hargs]
      cases hsymbol : n.symbol with
      | none => simp only [symbolOf, hsymbol, Emission.need]
      | some m =>
        simp only [symbolOf, hsymbol, Emission.need]
        exact Frame.invoke_starting (hn m (by simp [hsymbol])) _
    | _ => simp only [lowerExpr]
  | .create .., _ => by simp only [lowerExpr]
  | .field .., _ => by simp only [lowerExpr]
  | .index .., _ => by simp only [lowerExpr]

theorem lowerArgs_starting : ∀ {es : List Expr},
    CallsIn (SameRun entry f.entry) (Expr.allEvaluated es) →
      lowerArgs (f.starting entry) es = lowerArgs f es
  | [], _ => by simp only [lowerArgs]
  | e :: rest, h => by
    obtain ⟨hfirst, hrest⟩ := callsIn_args.mp h
    simp only [lowerArgs, lowerExpr_starting hfirst, lowerArgs_starting hrest]

end

theorem lowerValue_starting {e : Expr}
    (h : CallsIn (SameRun entry f.entry) e.evaluated) :
    lowerValue (f.starting entry) e = lowerValue f e := by
  cases e with
  | assign target value note =>
    unfold lowerValue
    dsimp only
    rw [lowerExpr_starting (callsIn_assign.mp h)]
    rfl
  | _ =>
    unfold lowerValue
    dsimp only
    rw [lowerExpr_starting h]

theorem lowerLocals_starting {vars : List Declarator}
    (h : ∀ v ∈ vars, CallsIn (SameRun entry f.entry)
      (v.init.elim [] Expr.evaluated)) :
    lowerLocals (f.starting entry) vars = lowerLocals f vars := by
  induction vars with
  | nil => rfl
  | cons v rest ih =>
    obtain ⟨hfirst, hrest⟩ := List.forall_mem_cons.mp h
    have hlocal : lowerLocal (f.starting entry) v = lowerLocal f v := by
      unfold lowerLocal
      cases hi : v.init with
      | none => rfl
      | some init =>
        rw [hi] at hfirst
        dsimp only
        rw [lowerExpr_starting hfirst]
    rw [lowerLocals, lowerLocals, hlocal, ih hrest]

mutual

theorem lowerStmt_starting : ∀ {stmt : Stmt},
    CallsIn (SameRun entry f.entry) stmt.evaluated →
      lowerStmt (f.starting entry) stmt = lowerStmt f stmt
  | .block body span, h => by simp only [lowerStmt, lowerStmts_starting (callsIn_block.mp h)]
  | .expr value span type, h => by
    simp only [lowerStmt, lowerValue_starting (callsIn_expr.mp h)]
  | .locals d, h => by simp only [lowerStmt, lowerLocals_starting (callsIn_locals.mp h)]
  | .ifThen cond thenBody span, h => by
    obtain ⟨hcond, hthen⟩ := callsIn_ifThen.mp h
    simp only [lowerStmt, lowerExpr_starting hcond, lowerStmt_starting hthen]
  | .ifElse cond thenBody elseBody span, h => by
    obtain ⟨hcond, hthen, helse⟩ := callsIn_ifElse.mp h
    simp only [lowerStmt, lowerExpr_starting hcond, lowerStmt_starting hthen,
      lowerStmt_starting helse]
  | .loop cond body span, h => by
    obtain ⟨hcond, hbody⟩ := callsIn_loop.mp h
    simp only [lowerStmt, lowerExpr_starting hcond, lowerStmt_starting hbody]
  | .ret value span, h => by
    have hvalue := callsIn_ret.mp h
    cases value with
    | none => simp only [lowerStmt, Option.elim_none]
    | some value => simp only [lowerStmt, Option.elim_some, lowerExpr_starting hvalue]
  | .empty span, _ => by simp only [lowerStmt]

theorem lowerStmts_starting : ∀ {body : List Stmt},
    CallsIn (SameRun entry f.entry) (Stmt.allEvaluated body) →
      lowerStmts (f.starting entry) body = lowerStmts f body
  | [], _ => by simp only [lowerStmts]
  | stmt :: rest, h => by
    obtain ⟨hfirst, hrest⟩ := callsIn_stmts.mp h
    simp only [lowerStmts, lowerStmt_starting hfirst, lowerStmts_starting hrest]

end

end Code

end Lowering

namespace Assembly

def unmarked (lines : List Placed) : List Placed := lines.filter fun p => p.line != .entryPoint

def Listing.unmarked (l : Listing) : Listing := { l with lines := Assembly.unmarked l.lines }

end Assembly

namespace Lowering

def Writer.unmarked (w : Writer) : Writer := fun pen =>
  { w pen with lines := Assembly.unmarked (w pen).lines }

namespace Writer

theorem unmarked_append (a b : Writer) : (a ++ b).unmarked = a.unmarked ++ b.unmarked := by
  funext pen
  change Written.mk (Assembly.unmarked (seq a b pen).lines) (seq a b pen).pen
    (seq a b pen).fault = seq a.unmarked b.unmarked pen
  unfold seq unmarked
  rcases a pen with ⟨xs, p, _ | fault⟩
  · simp [Assembly.unmarked]
  · rfl

theorem unmarked_need {α : Type} (value : Except Fault α) (rest : α → Writer) :
    (need value rest).unmarked = need value fun a => (rest a).unmarked := by
  cases value <;> rfl

theorem unmarked_mark (isEntry : Prop) [Decidable isEntry] :
    (if isEntry then line .entryPoint else skip).unmarked = skip := by
  split <;> rfl

theorem unmarked_line {l : Line} (h : l ≠ .entryPoint) : (line l).unmarked = line l := by
  funext pen
  simp [unmarked, line, Assembly.unmarked, h]

theorem unmarked_move (f : Pen → Pen) : (move f).unmarked = move f := rfl

theorem unmarked_block (body : Writer) : (block body).unmarked = block body.unmarked := by
  unfold block enter leave
  simp only [unmarked_append, unmarked_move, unmarked_line (l := .openBrace) (by simp),
    unmarked_line (l := .closeBrace) (by simp)]

end Writer

namespace Target

def starting (t : Target) (choice : EntryChoice) (entry : Option Nat) : Target :=
  ⟨{ t.options with entry := choice }, t.resolutions, entry⟩

section

variable {t : Target} {choice : EntryChoice} {entry : Option Nat}

@[simp] theorem resolutions_starting :
    (t.starting choice entry).resolutions = t.resolutions := rfl

@[simp] theorem maxStack_starting :
    (t.starting choice entry).options.maxStack = t.options.maxStack := rfl

theorem localEntries_starting (found : List (UInt16 × Symbol)) :
    (t.starting choice entry).localEntries found = t.localEntries found := by
  induction found with
  | nil => rfl
  | cons x rest ih =>
    rw [localEntries, localEntries, ih]
    rfl

theorem paramEntries_starting (params : List Param) :
    (t.starting choice entry).paramEntries params = t.paramEntries params := by
  induction params with
  | nil => rfl
  | cons p rest ih =>
    rw [paramEntries, paramEntries, ih]
    rfl

theorem methodBody_starting (isStatic : Bool) {body : List Stmt}
    (h : CallsIn (SameRun entry t.entry) (Stmt.allEvaluated body)) :
    (t.starting choice entry).methodBody isStatic body = t.methodBody isStatic body := by
  have hframe : (t.starting choice entry).frame (!isStatic) = (t.frame !isStatic).starting entry :=
    rfl
  unfold methodBody
  rw [hframe, lowerStmts_starting h]
  simp only [localEntries_starting]

/-- The block of a method depends on the entry point by its mark and by what runs without `this`. -/
theorem method_starting {m : Method}
    (h : ∀ b ∈ m.mentioned, SameRun entry t.entry b) :
    ((t.starting choice entry).method m).unmarked = (t.method m).unmarked := by
  rw [Method.mentioned, List.forall_mem_append] at h
  obtain ⟨hself, hcalls⟩ := h
  unfold method
  cases hs : m.symbol with
  | none => simp only [registered, Writer.need]
  | some s =>
    have hruns : runsStatic (t.starting choice entry).entry s = runsStatic t.entry s :=
      hself s (by simp [hs])
    have hneed : ∀ rest : Symbol → Writer, Writer.need (.ok s) rest = rest s := fun _ => rfl
    simp only [registered, hneed, Writer.unmarked_need, Writer.unmarked_append,
      Writer.unmarked_block, Writer.unmarked_mark, resolutions_starting, maxStack_starting, hruns,
      paramEntries_starting]
    cases hb : m.body with
    | none => simp only
    | some body =>
      rw [hb, Option.getD_some] at hcalls
      simp only [methodBody_starting _ hcalls]

theorem fieldVars_starting (modifiers : List Modifier) (vars : List Declarator) :
    (t.starting choice entry).fieldVars modifiers vars = t.fieldVars modifiers vars := by
  induction vars with
  | nil => rfl
  | cons v rest ih =>
    rw [fieldVars, fieldVars, ih]
    rfl

theorem fields_starting (ms : List Member) :
    (t.starting choice entry).fields ms = t.fields ms := by
  induction ms with
  | nil => rfl
  | cons m rest ih => cases m <;> simp [fields, fieldVars_starting, ih]

theorem clsWith_starting (nested : Bool) (head : ClassHead) (ms : List Member)
    {rest rest' : Writer} (h : rest'.unmarked = rest.unmarked) :
    ((t.starting choice entry).clsWith nested head ms rest').unmarked =
      (t.clsWith nested head ms rest).unmarked := by
  unfold clsWith
  rw [Writer.unmarked_need, Writer.unmarked_need]
  congr 1
  funext s
  split
  · simp only [Writer.unmarked_append, Writer.unmarked_block, fields_starting, h]
    rfl
  · rfl

mutual

theorem member_starting : ∀ {m : Member},
    (∀ b ∈ m.mentioned, SameRun entry t.entry b) →
      ((t.starting choice entry).member m).unmarked = (t.member m).unmarked
  | .method m, h => by
    rw [Member.mentioned] at h
    simp only [member, method_starting h]
  | .field d, _ => by simp only [member]
  | .nested head ms, h => by
    rw [Member.mentioned] at h
    rw [member, member]
    exact clsWith_starting true head ms (members_starting h)

theorem members_starting : ∀ {ms : List Member},
    (∀ b ∈ Member.allMentioned ms, SameRun entry t.entry b) →
      ((t.starting choice entry).members ms).unmarked = (t.members ms).unmarked
  | [], _ => by simp only [members]
  | m :: rest, h => by
    obtain ⟨hfirst, hrest⟩ := forall_mem_allMentioned.mp h
    simp only [members, Writer.unmarked_append, member_starting hfirst, members_starting hrest]

end

theorem program_starting {c : ClassDecl}
    (h : ∀ b ∈ Member.allMentioned c.members, SameRun entry t.entry b) :
    ((t.starting choice entry).program c).unmarked = (t.program c).unmarked := by
  unfold program
  rw [Writer.unmarked_append, Writer.unmarked_append _ (t.clsWith _ _ _ _),
    clsWith_starting false c.head c.members (members_starting h)]
  rfl

end

end Target

def Written.listing (w : Written) (library : String) : Except Fault Listing :=
  w.fault.elim (.ok ⟨library, w.lines⟩) .error

theorem Writer.map_listing (w : Writer) (pen : Pen) (library : String) :
    ((w pen).listing library).map Listing.unmarked = (w.unmarked pen).listing library := by
  unfold Writer.unmarked Written.listing
  cases (w pen).fault <;> rfl

theorem assemble_eq_listing {u : CompilationUnit} {c : ClassDecl} (htop : u.top = some c)
    (r : Resolutions) (options : Options) :
    assemble u r options =
      (Target.program ⟨options, r, options.entry.resolve c⟩ c Pen.start).listing
        options.runtimeLibrary := by
  simp only [assemble, Generator.unit, htop, Generator.write, Generator.start, Written.listing]
  cases (Target.program ⟨options, r, options.entry.resolve c⟩ c Pen.start).fault <;> rfl

theorem assemble_starting {u : CompilationUnit} {r : Resolutions} {options : Options}
    {choice : EntryChoice} (hu : ∀ c, u.top = some c → ∀ b ∈ Member.allMentioned c.members,
      SameRun (choice.resolve c) (options.entry.resolve c) b) :
    (assemble u r { options with entry := choice }).map Listing.unmarked =
      (assemble u r options).map Listing.unmarked := by
  cases htop : u.top with
  | none => simp only [assemble, Generator.unit, htop]
  | some c =>
    have hprogram : (((Target.mk options r (options.entry.resolve c)).starting choice
          (choice.resolve c)).program c).unmarked =
        (Target.program ⟨options, r, options.entry.resolve c⟩ c).unmarked :=
      Target.program_starting (hu c htop)
    rw [assemble_eq_listing htop, assemble_eq_listing htop, Writer.map_listing, Writer.map_listing,
      ← hprogram]
    rfl

end Lowering

namespace EntryChoice

/-- Whether the choice, in a class that was registered, finds no method or a static one. -/
def startsStatic (choice : EntryChoice) (c : ClassDecl) : Bool :=
  (choice.first? c.members).all fun m => m.symbol.isNone || Modifier.isStatic m.modifiers

/-- An entry point that is static anyway lets every method run as it was declared. -/
theorem runsStatic_resolve {t : Table} {tag : Nat} {c : ClassDecl}
    (hd : Declares t tag (c.decls [])) {choice : EntryChoice} (hs : choice.startsStatic c = true)
    {b : Symbol} (hb : t.Lists b) : runsStatic (choice.resolve c) b = b.isStatic := by
  have hstatic : choice.resolve c = some b.id.number → b.isStatic = true := by
    intro hresolve
    obtain ⟨m, hm, hnumber⟩ := Option.bind_eq_some_iff.mp hresolve
    obtain ⟨s, hsymbol, hid⟩ := Option.map_eq_some_iff.mp hnumber
    have hmember : .method [c.head.name.text] m ∈ c.decls [] := by
      have hfind := choice.find?_allDecls [c.head.name.text] c.members
      rw [hm] at hfind
      exact List.mem_cons_of_mem _ (Decl.mem_methods.mp (List.mem_of_find?_eq_some hfind))
    obtain ⟨hbound, -, hdetails, -⟩ := Typing.method_declared hd hmember hsymbol
    -- Numbers are not used twice in a table, so the symbol is that of the method chosen.
    obtain ⟨k, x, hlisted⟩ := hb
    obtain rfl := hd.sound.eq_of_number hbound (hd.sound.bound_of_mem hlisted) hid
    simp only [startsStatic, hm, Option.all_some, hsymbol, Option.isNone_some, Bool.false_or] at hs
    rw [Symbol.isStatic, hdetails]
    exact hs
  unfold runsStatic
  by_cases hresolve : choice.resolve c = some b.id.number
  · rw [hstatic hresolve, Bool.or_true]
  · simp [hresolve]

end EntryChoice

def CompilationUnit.registeredTop (u : CompilationUnit) : Option ClassDecl :=
  let registered := Registration.registerUnit u (.withSystem 0) []
  registered.answer.toOption.bind fun _ => registered.node.top

def Compilation.unmarked (c : Compilation) : Compilation :=
  { c with result := c.result.map (Option.map Listing.unmarked) }

theorem Compilation.listing_unmarked {c d : Compilation} (h : c.unmarked = d.unmarked)
    {l k : Listing} (hc : c.result = .ok (some l)) (hd : d.result = .ok (some k)) :
    l.unmarked = k.unmarked := by
  have hresult := congrArg Compilation.result h
  simp only [unmarked, hc, hd] at hresult
  exact Option.some.inj (Except.ok.inj hresult)

/-- Static entry points can be exchanged. If each of two choices finds no method or a static one,
then the runs end with the same fault or with the same reports, records and annotations. If there is
assembly, its lines are the same apart from the mark. -/
theorem static_entry_exchangeable {u : CompilationUnit} {options : Options} {choice : EntryChoice}
    (hf : u.isFresh = true) (hs : ∀ c, u.registeredTop = some c →
      options.entry.startsStatic c = true ∧ choice.startsStatic c = true) :
    (compile u { options with entry := choice }).unmarked = (compile u options).unmarked := by
  rcases hreg : Registration.registerUnit u (.withSystem 0) [] with ⟨u₁, fault | ⟨⟩, s₁⟩
  · simp only [compile, compileFrom, hreg]
  have hdecl := (Registration.registerUnit_registers hf hreg).2.declares
  have hlisted := lists_of_mentioned hf hreg
  have hruns : ∀ c, u₁.top = some c → ∀ b, s₁.table.Lists b →
      SameRun (choice.resolve c) (options.entry.resolve c) b := by
    intro c htop b hb
    have hclass : Declares s₁.table 0 (c.decls []) := by
      rwa [CompilationUnit.decls, htop, Option.elim_some] at hdecl
    obtain ⟨hone, hother⟩ :=
      hs c (by simp [CompilationUnit.registeredTop, hreg, htop, Except.toOption])
    rw [SameRun, EntryChoice.runsStatic_resolve hclass hone hb,
      EntryChoice.runsStatic_resolve hclass hother hb]
  have htyped := Typing.annotateUnit_starting fun c htop => ⟨hlisted c htop, hruns c htop⟩
  rcases htyp : Typing.annotateUnit u₁ s₁.table options.entry ⟨.empty, s₁.diagnostics⟩ with
    ⟨u₂, fault | ⟨⟩, s₂⟩
  · simp only [compile, compileFrom, hreg, htyped, htyp]
  have hassembled : (Lowering.assemble u₂ s₂.resolutions { options with entry := choice }).map
      Listing.unmarked = (Lowering.assemble u₂ s₂.resolutions options).map Listing.unmarked := by
    have hmentioned := Typing.annotateUnit_mentioned options.entry (fun _ h => h) hlisted
      ⟨.empty, s₁.diagnostics⟩
    rw [htyp] at hmentioned
    obtain ⟨c, d, hc, hd, hentry, -⟩ := Typing.annotateUnit_checks hf hreg htyp
    obtain ⟨_, _, hc', hd', hother, -⟩ :=
      Typing.annotateUnit_checks hf hreg ((congrFun htyped _).trans htyp)
    obtain rfl := Option.some.inj (hc.symm.trans hc')
    obtain rfl := Option.some.inj (hd.symm.trans hd')
    refine Lowering.assemble_starting fun c' htop b hb => ?_
    obtain rfl := Option.some.inj (hd.symm.trans htop)
    rw [hother, hentry]
    exact hruns c hc b (hmentioned d hd b hb)
  have hmap : ∀ r : Except Fault Listing, (r.map some).map (Option.map Listing.unmarked) =
      (r.map Listing.unmarked).map some := by
    intro r
    cases r <;> rfl
  simp only [compile, compileFrom, hreg, htyped, htyp, Compilation.unmarked]
  split
  · simp only [hmap, hassembled]
  · rfl

namespace Sample

/-- Two static methods call each other, and a method of objects calls one of them. A nested class
has a method of the same name. -/
def exchange : CompilationUnit :=
  ⟨some ⟨⟨.plain "Exchange", [], none, [], none⟩,
    [.nested ⟨.plain "Inner", [], none, [], none⟩
       [method [] (word .int) "second" [] [ret (num 2)]],
     method [] (word .int) "plain" [(word .int, "n")]
       [ret (bin .add (call "second" [ref "n"]) (call "plain" [num 1]))],
     method [.static] (word .int) "first" [] [ret (call "second" [num 3])],
     method [.static] (word .int) "second" [(word .int, "n")] [ret (call "first" [])]]⟩⟩

def secondNamed : Options := { Options.default with entry := .named "second" }

end Sample

theorem static_entry_exchangeable_sample : Sample.exchange.isFresh = true ∧
    ∃ one other, (compile Sample.exchange .default).result = .ok (some one) ∧
      (compile Sample.exchange Sample.secondNamed).result = .ok (some other) ∧
      (one.lines.findIdx fun p => p.line == .entryPoint) = 37 ∧
      (other.lines.findIdx fun p => p.line == .entryPoint) = 45 ∧
      other.unmarked = one.unmarked := by
  have hf : Sample.exchange.isFresh = true := by decide
  have hstatic : Sample.exchange.registeredTop.all (fun c =>
      EntryChoice.firstStatic.startsStatic c && (EntryChoice.named "second").startsStatic c) =
        true := by decide +kernel
  have hsame : (compile Sample.exchange Sample.secondNamed).unmarked =
      (compile Sample.exchange .default).unmarked := by
    refine static_entry_exchangeable hf fun c hc => ?_
    rw [hc, Option.all_some, Bool.and_eq_true] at hstatic
    exact hstatic
  have hone : (compile Sample.exchange .default).assembly.map
      (fun l => l.lines.findIdx fun p => p.line == .entryPoint) = some 37 := by decide +kernel
  have hother : (compile Sample.exchange Sample.secondNamed).assembly.map
      (fun l => l.lines.findIdx fun p => p.line == .entryPoint) = some 45 := by decide +kernel
  obtain ⟨one, hone, hmark⟩ := Option.map_eq_some_iff.mp hone
  obtain ⟨other, hother, hmark'⟩ := Option.map_eq_some_iff.mp hother
  have hresult := Compilation.result_of_assembly hone
  have hresult' := Compilation.result_of_assembly hother
  exact ⟨hf, one, other, hresult, hresult', hmark, hmark',
    Compilation.listing_unmarked hsame hresult' hresult⟩

end ClassLang
