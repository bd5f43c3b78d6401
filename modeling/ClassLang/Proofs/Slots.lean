import ClassLang.Proofs.Actions
import ClassLang.Proofs.Plans
import ClassLang.Proofs.Verified

/-! Slots and positions in the text of a method. Registration counts the locals of a method in the
order of their declarations, the directive lists them by slot, and code loads and stores them; the
three agree. So do the positions of parameters, counted after `this` where there is one. -/
namespace ClassLang

open Assembly Typing

inductive VarUse where
  | read (s : Symbol)
  | write (s : Symbol)

def VarUse.symbol : VarUse → Symbol
  | .read s | .write s => s

def VarUse.inFrame (use : VarUse) : Bool :=
  match use.symbol.details with
  | .var _ (.slot _) | .var _ (.param _) => true
  | _ => false

namespace Expr

def stored : Expr → List VarUse
  | .name n _ => n.symbol.toList.map .write
  | _ => []

mutual

def uses : Expr → List VarUse
  | .literal .. | .this _ => []
  | .name n _ => n.symbol.toList.map .read
  | .unary _ operand _ => operand.uses
  | .binary _ left right _ => left.uses ++ right.uses
  | .assign target value _ => value.uses ++ target.stored
  | .call _ args _ | .create _ args _ => allUses args
  | .field target _ _ => target.uses
  | .index target place _ => target.uses ++ place.uses

def allUses : List Expr → List VarUse
  | [] => []
  | e :: rest => e.uses ++ allUses rest

end

end Expr

/-- A local is written only if it has an initial value. -/
def Action.uses : Action → List VarUse
  | .perform e | .use e => e.uses
  | .init v => v.init.elim [] fun e => e.uses ++ v.symbol.toList.map .write

def Method.uses (m : Method) : List VarUse := m.actions.flatMap Action.uses

def Assembly.Instr.isAccess : Instr → Bool
  | .ldloc _ | .stloc _ | .ldarg _ | .starg _ => true
  | _ => false

namespace Lowering

section Accesses

variable {ctx : Context} {r : Resolutions} {f : Frame}

inductive Touches (ctx : Context) (f : Frame) : VarUse → Instr → Prop
  | ldloc {b type index} (hr : ctx.table.Reached ctx.scope b)
    (hd : b.details = .var type (.slot index)) : Touches ctx f (.read b) (.ldloc index)
  | stloc {b type index} (hr : ctx.table.Reached ctx.scope b)
    (hd : b.details = .var type (.slot index)) : Touches ctx f (.write b) (.stloc index)
  | ldarg {b type index} (hr : ctx.table.Reached ctx.scope b)
    (hd : b.details = .var type (.param index)) :
    Touches ctx f (.read b) (.ldarg (f.argument index))
  | starg {b type index} (hr : ctx.table.Reached ctx.scope b)
    (hd : b.details = .var type (.param index)) :
    Touches ctx f (.write b) (.starg (f.argument index))

def Accounts (ctx : Context) (f : Frame) (uses : List VarUse) (is : List Instr) : Prop :=
  List.Forall₂ (Touches ctx f) (uses.filter VarUse.inFrame) (is.filter Instr.isAccess)

theorem Accounts.append {us vs : List VarUse} {is js : List Instr} (hu : Accounts ctx f us is)
    (hv : Accounts ctx f vs js) : Accounts ctx f (us ++ vs) (is ++ js) := by
  unfold Accounts
  rw [List.filter_append, List.filter_append]
  exact List.rel_append hu hv

theorem Accounts.others {is : List Instr} (h : is.all (fun i => !i.isAccess) = true) :
    Accounts ctx f [] is := by
  have hnone : is.filter Instr.isAccess = [] := by simpa using h
  unfold Accounts
  rw [hnone]
  exact .nil

theorem Accounts.close {us : List VarUse} {is js : List Instr} (hu : Accounts ctx f us is)
    (h : js.all (fun i => !i.isAccess) = true) : Accounts ctx f us (is ++ js) := by
  simpa using hu.append (.others h)

theorem Accounts.one {use : VarUse} {i : Instr} (h : Touches ctx f use i) :
    Accounts ctx f [use] [i] := by
  have hboth : use.inFrame = true ∧ i.isAccess = true := by
    cases h with
    | ldloc _ hd | stloc _ hd | ldarg _ hd | starg _ hd =>
      exact ⟨by simp only [VarUse.inFrame, VarUse.symbol, hd], rfl⟩
  unfold Accounts
  rw [List.filter_cons_of_pos hboth.1, List.filter_cons_of_pos hboth.2]
  exact .cons h .nil

/-- The use of what is not in the frame has no load or store of its own. -/
theorem Accounts.outside {use : VarUse} {is : List Instr} (h : use.inFrame = false)
    (his : is.all (fun i => !i.isAccess) = true) : Accounts ctx f [use] is := by
  have hnone : [use].filter VarUse.inFrame = [] := by simp [h]
  have hothers : Accounts ctx f [] is := .others his
  unfold Accounts
  rw [hnone]
  exact hothers

theorem inFrame_field {use : VarUse} {type : TypeExpr} {st : Bool} {owner : List String}
    (hd : use.symbol.details = .var type (.field st owner)) : use.inFrame = false := by
  simp only [VarUse.inFrame, hd]

theorem PlaceOf.load_accounts {b : Symbol} {T : Ty} {p : Place} (hp : PlaceOf ctx f b T p)
    (hr : ctx.table.Reached ctx.scope b) : Accounts ctx f [.read b] p.load := by
  cases hp with
  | slot hd => exact .one (.ldloc hr hd)
  | argument hd => exact .one (.ldarg hr hd)
  | shared hd => exact .outside (inFrame_field hd) rfl
  | own hd => exact .outside (inFrame_field hd) rfl

theorem PlaceOf.store_accounts {b : Symbol} {T : Ty} {p : Place} {us : List VarUse}
    {is : List Instr} (hp : PlaceOf ctx f b T p) (hr : ctx.table.Reached ctx.scope b)
    (keep : Bool) (h : Accounts ctx f us is) :
    Accounts ctx f (us ++ [.write b]) (p.store is keep) := by
  have hcopied : Accounts ctx f us (is ++ if keep then [.dup] else []) :=
    h.close (by cases keep <;> rfl)
  cases hp with
  | slot hd => exact hcopied.append (.one (.stloc hr hd))
  | argument hd => exact hcopied.append (.one (.starg hr hd))
  | shared hd => exact hcopied.append (.outside (inFrame_field hd) rfl)
  | own hd =>
    have hthis : Accounts ctx f [] [.ldthis] := .others rfl
    exact (hthis.append h).append (.outside (inFrame_field hd) (by cases keep <;> rfl))

theorem allUses_accounts {args : List Expr} : ∀ {Ts : List Ty} {codes : List (List Instr)},
    args.length = Ts.length → codes.length = Ts.length →
    (∀ e T is, (e, T, is) ∈ args.zip (Ts.zip codes) → Accounts ctx f e.uses is) →
    Accounts ctx f (Expr.allUses args) codes.flatten := by
  induction args with
  | nil =>
    intro Ts codes hl hc _
    obtain rfl := List.eq_nil_of_length_eq_zero hl.symm
    obtain rfl := List.eq_nil_of_length_eq_zero hc
    rw [Expr.allUses]
    exact .others rfl
  | cons e args ih =>
    intro Ts codes hl hc h
    obtain ⟨T, Ts, rfl⟩ := List.exists_cons_of_length_eq_add_one hl.symm
    obtain ⟨is, codes, rfl⟩ := List.exists_cons_of_length_eq_add_one hc
    rw [Expr.allUses, List.flatten_cons]
    exact (h e T is List.mem_cons_self).append
      (ih (Nat.succ.inj hl) (Nat.succ.inj hc) fun x U js hx => h x U js (List.mem_cons_of_mem _ hx))

theorem Codes.accounts {e : Expr} {T : Ty} {is : List Instr} (h : Codes ctx r f e T is) :
    Accounts ctx f e.uses is := by
  induction h with
  | @literal value note hn =>
    rw [Expr.uses]
    exact .others (by rcases value with _ | _ | (_ | _) | _ <;> rfl)
  | this =>
    rw [Expr.uses]
    exact .others rfl
  | var hb hr _ hp =>
    rw [Expr.uses, hb]
    exact hp.load_accounts hr
  | @declaration n note b hb hk hn =>
    rw [Expr.uses, hb]
    refine .outside ?_ rfl
    unfold Symbol.kind at hk
    unfold VarUse.inFrame VarUse.symbol
    rcases hd : b.details with ⟨_, _, _⟩ | ⟨_, _, _, _, _⟩ | ⟨_, _⟩
    · rfl
    · rfl
    · simp [hd] at hk
  | @unary op _ _ _ _ _ ih =>
    rw [Expr.uses]
    exact ih.close (by cases op <;> rfl)
  | @binary op _ _ _ _ _ _ ks _ _ _ hc _ ihl ihr =>
    rw [Expr.uses]
    refine (ihl.append ihr).close ?_
    unfold binaryCode at hc
    split at hc
    · cases op <;> cases hc <;> rfl
    · cases hc
      cases op <;> rfl
  | assign hb hr _ hp _ _ _ ih =>
    rw [Expr.uses, Expr.stored, hb]
    exact hp.store_accounts hr true ih
  | @call _ _ _ _ _ _ _ _ before _ _ _ _ _ _ _ hc hl hlc _ _ ih =>
    rw [Expr.uses]
    have hbefore : Accounts ctx f [] before := .others (by cases hc <;> rfl)
    exact (hbefore.append (allUses_accounts hl hlc ih)).close (by cases hc <;> rfl)
  | create =>
    rw [Expr.uses, Expr.allUses]
    exact .others rfl

theorem ActionCodes.accounts {a : Action} {is : List Instr} (h : ActionCodes ctx r f a is) :
    Accounts ctx f a.uses is := by
  cases h with
  | perform h =>
    cases h with
    | assign hb hr _ hp hv =>
      rw [Action.uses, Expr.uses, Expr.stored, hb]
      exact hp.store_accounts hr false hv.accounts
    | other he => exact he.accounts.close (by split <;> rfl)
  | init h =>
    cases h with
    | bare hi =>
      rw [Action.uses, hi]
      exact .others rfl
    | init hi hb hr hd _ hc =>
      rw [Action.uses, hi, hb]
      exact hc.accounts.append (.one (.stloc hr hd))
  | use h => exact h.accounts

def Item.instr? : Item → Option Instr
  | .instr i => some i
  | .label _ => none

theorem filterMap_instr (is : List Instr) : (is.map Item.instr).filterMap Item.instr? = is := by
  simp [List.filterMap_map, Function.comp_def, Item.instr?]

/-- Labels, branches and returns use no variables, so the code of a body accounts for its uses if
that of each action does. -/
theorem Performs.accounts {as : List Action} {items : List Item} (h : Performs f as items)
    (ha : ∀ a ∈ as, ∀ is, lowerAction f a = .of is → Accounts ctx f a.uses is) :
    Accounts ctx f (as.flatMap Action.uses) (items.filterMap Item.instr?) := by
  induction h with
  | nil => exact .others rfl
  | action hfirst _ ih =>
    rw [List.forall_mem_cons] at ha
    rw [List.flatMap_cons, List.filterMap_append, filterMap_instr]
    exact (ha.1 _ hfirst).append (ih ha.2)
  | @control item _ _ hi _ ih =>
    cases item with
    | label l => exact ih ha
    | instr i =>
      have hquiet : Accounts ctx f [] [i] := by
        refine .others ?_
        cases i with
        | br | brfalse | ret => rfl
        | _ => cases hi
      exact hquiet.append (ih ha)

end Accesses

theorem insertLocal_of_lt {slot : UInt16} {s : Symbol} {found : List (UInt16 × Symbol)}
    (h : ∀ x ∈ found, x.1 < slot) : insertLocal slot s found = found ++ [(slot, s)] := by
  induction found with
  | nil => rfl
  | cons x found ih =>
    rw [List.forall_mem_cons] at h
    rw [insertLocal, if_pos h.1, ih h.2]
    rfl

def gatherSlot (found : List (UInt16 × Symbol)) (v : VarSlot) :
    Except Fault (List (UInt16 × Symbol)) := do
  let s ← registered v.symbol .var v.name
  match s.details with
  | .var _ (.slot index) => return insertLocal index s found
  | _ => return found

theorem gatherVars_eq_foldlM (type : TypeExpr) (vars : List Declarator) :
    ∀ found, gatherVars vars found =
      (vars.map fun v => (⟨v.name.text, type, v.symbol⟩ : VarSlot)).foldlM gatherSlot found := by
  induction vars with
  | nil => exact fun _ => rfl
  | cons v vars ih =>
    intro found
    rw [gatherVars, List.map_cons, List.foldlM_cons]
    cases hv : v.symbol with
    | none => rfl
    | some s =>
      simp only [gatherSlot, registered, bind, Except.bind, pure, Except.pure]
      rcases s.details with _ | _ | ⟨_, _ | _ | _⟩ <;> exact ih _

mutual

theorem gatherLocals_eq_foldlM : ∀ (stmt : Stmt) (found : List (UInt16 × Symbol)),
    gatherLocals stmt found = stmt.slots.foldlM gatherSlot found
  | .locals d, found => by
    rw [gatherLocals, Stmt.slots]
    exact gatherVars_eq_foldlM d.type d.vars found
  | .block body _, found => by
    rw [gatherLocals, Stmt.slots]
    exact gatherAllLocals_eq_foldlM body found
  | .ifThen _ thenBody _, found => by
    rw [gatherLocals, Stmt.slots]
    exact gatherLocals_eq_foldlM thenBody found
  | .ifElse _ thenBody elseBody _, found => by
    rw [gatherLocals, Stmt.slots, List.foldlM_append, gatherLocals_eq_foldlM thenBody found]
    exact congrArg _ (funext fun mid => gatherLocals_eq_foldlM elseBody mid)
  | .loop _ body _, found => by
    rw [gatherLocals, Stmt.slots]
    exact gatherLocals_eq_foldlM body found
  | .expr .., found => by simp [gatherLocals, Stmt.slots, pure, Except.pure]
  | .ret .., found => by simp [gatherLocals, Stmt.slots, pure, Except.pure]
  | .empty _, found => by simp [gatherLocals, Stmt.slots, pure, Except.pure]

theorem gatherAllLocals_eq_foldlM : ∀ (body : List Stmt) (found : List (UInt16 × Symbol)),
    gatherAllLocals body found = (Stmt.allSlots body).foldlM gatherSlot found
  | [], found => by rw [gatherAllLocals, Stmt.allSlots, List.foldlM_nil]; rfl
  | s :: rest, found => by
    rw [gatherAllLocals, Stmt.allSlots, List.foldlM_append, gatherLocals_eq_foldlM s found]
    exact congrArg _ (funext fun mid => gatherAllLocals_eq_foldlM rest mid)

end

def IsAt (v : VarSlot) (x : UInt16 × Symbol) : Prop :=
  v.symbol = some x.2 ∧ x.2.name = v.name ∧ x.2.details = .var v.type (.slot x.1)

/-- Each slot is larger than those before it, so every local is put last. -/
theorem foldlM_gatherSlot {k : ScopeId} {slots : List VarSlot} :
    ∀ {n : UInt16} {found : List (UInt16 × Symbol)},
      Registration.Home.method.Placed k n slots → (∀ v ∈ slots, v.symbol ≠ none) →
      n.toNat + slots.length ≤ 65535 → (∀ x ∈ found, x.1 < n) →
      ∃ more, slots.foldlM gatherSlot found = .ok (found ++ more) ∧
        List.Forall₂ IsAt slots more ∧
        more.map (fun x => x.1.toNat) = List.range' n.toNat slots.length := by
  induction slots with
  | nil => exact fun _ _ _ _ => ⟨[], by rw [List.append_nil]; rfl, .nil, rfl⟩
  | cons v slots ih =>
    intro n found hp hf hlen hlt
    rw [List.forall_mem_cons] at hf
    obtain ⟨b, hb⟩ := Option.ne_none_iff_exists'.mp hf.1
    rw [Registration.Home.Placed, hb] at hp
    obtain ⟨⟨hname, -, hd⟩, hrest⟩ := hp
    change Registration.Home.method.Placed k (n + 1) slots at hrest
    rw [List.length_cons] at hlen
    have hnext : (n + 1).toNat = n.toNat + 1 := by
      rw [UInt16.toNat_add]
      exact Nat.mod_eq_of_lt (by simp; omega)
    have hput : gatherSlot found v = .ok (found ++ [(n, b)]) := by
      unfold gatherSlot
      rw [hb]
      simp only [registered, hd, bind, Except.bind, pure, Except.pure, Registration.Home.storage]
      rw [insertLocal_of_lt hlt]
    have hlt' : ∀ x ∈ found ++ [(n, b)], x.1 < n + 1 := by
      simp only [List.forall_mem_append, List.forall_mem_singleton, UInt16.lt_iff_toNat_lt, hnext]
      exact ⟨fun x hx => Nat.lt_succ_of_lt (UInt16.lt_iff_toNat_lt.mp (hlt x hx)),
        Nat.lt_succ_self _⟩
    obtain ⟨more, hmore, hat, hslots⟩ := ih hrest hf.2 (by rw [hnext]; omega) hlt'
    refine ⟨(n, b) :: more, ?_, .cons ⟨hb, hname, hd⟩ hat, ?_⟩
    · rw [List.foldlM_cons, hput]
      change slots.foldlM gatherSlot _ = _
      rw [hmore, List.append_assoc]
      rfl
    · rw [List.map_cons, hslots, hnext, List.length_cons, List.range'_succ]

end Lowering

namespace Assembly

def Line.instr? : Line → Option Instr
  | .instr i => some i
  | _ => none

def Line.locals? : Line → Option (List LocalEntry)
  | .locals entries => some entries
  | _ => none

namespace MethodBlock

def instrs (b : MethodBlock) : List Instr := b.lines.filterMap Line.instr?

def locals (b : MethodBlock) : List (List LocalEntry) := b.lines.filterMap Line.locals?

end MethodBlock

theorem MethodDef.filterMap_instr_lines (d : MethodDef) (isEntry : Bool) (maxStack : Nat) :
    (d.lines isEntry maxStack).filterMap Line.instr? =
      d.code.filterMap Lowering.Item.instr? := by
  have hitem : ∀ item : Lowering.Item, item.line.instr? = item.instr? := by
    intro item
    cases item <;> rfl
  have hlocals : (localsLines d.locals).filterMap Line.instr? = [] := by
    unfold localsLines
    split <;> rfl
  have hentry : (if isEntry then [Line.entryPoint] else []).filterMap Line.instr? = [] := by
    cases isEntry <;> rfl
  rw [lines, List.filterMap_append, List.filterMap_append, List.filterMap_append, hentry, hlocals,
    List.filterMap_map, Function.comp_def]
  simp only [hitem]
  rfl

theorem MethodDef.filterMap_locals_lines (d : MethodDef) (isEntry : Bool) (maxStack : Nat) :
    (d.lines isEntry maxStack).filterMap Line.locals? =
      if d.locals.isEmpty then [] else [d.locals] := by
  have hitem : (d.code.map Lowering.Item.line).filterMap Line.locals? = [] := by
    rw [List.filterMap_eq_nil_iff, List.forall_mem_map]
    intro item _
    cases item <;> rfl
  have hentry : (if isEntry then [Line.entryPoint] else []).filterMap Line.locals? = [] := by
    cases isEntry <;> rfl
  rw [lines, List.filterMap_append, List.filterMap_append, List.filterMap_append, hentry, hitem,
    localsLines]
  split <;> rfl

end Assembly

namespace Method

def localAt (m : Method) (i : Nat) : Option Symbol := m.bodySlots[i]?.bind VarSlot.symbol

def paramAt (m : Method) (i : Nat) : Option Symbol := m.params[i]?.bind Param.symbol

end Method

inductive Addresses (m : Method) (isStatic : Bool) : VarUse → Instr → Prop
  | ldloc {s index} (hs : m.localAt index.toNat = some s) :
    Addresses m isStatic (.read s) (.ldloc index)
  | stloc {s index} (hs : m.localAt index.toNat = some s) :
    Addresses m isStatic (.write s) (.stloc index)
  | ldarg {s i} (hs : m.paramAt i = some s) :
    Addresses m isStatic (.read s) (.ldarg (if isStatic then i else i + 1))
  | starg {s i} (hs : m.paramAt i = some s) :
    Addresses m isStatic (.write s) (.starg (if isStatic then i else i + 1))

def Lists (r : Resolutions) (v : VarSlot) (e : LocalEntry) : Prop :=
  ∃ s, v.symbol = some s ∧ s.details = .var v.type (.slot e.slot) ∧ e.name = v.name ∧
    Lowering.symbolType r s = .ok e.type

/-- The block of a method agrees with its declarations: the directive, if there are locals, lists
them with their slots, which count them, and every load or store is that of the variable used. -/
structure SlotsAgree (r : Resolutions) (m : Method) (b : MethodBlock) : Prop where
  distinct : m.vars.Nodup
  locals : ∃ entries, b.locals = (if m.bodySlots.isEmpty then [] else [entries]) ∧
    entries.map (fun e => e.slot.toNat) = List.range m.bodySlots.length ∧
    List.Forall₂ (Lists r) m.bodySlots entries
  bounded : ∀ k, .ldloc k ∈ b.instrs ∨ .stloc k ∈ b.instrs → k.toNat < m.bodySlots.length
  addressed : List.Forall₂ (Addresses m b.isStatic) (m.uses.filter VarUse.inFrame)
    (b.instrs.filter Instr.isAccess)

theorem Method.lt_of_localAt {m : Method} {i : Nat} {s : Symbol} (h : m.localAt i = some s) :
    i < m.bodySlots.length := by
  obtain ⟨v, hv, -⟩ := Option.bind_eq_some_iff.mp h
  exact (List.getElem?_eq_some_iff.mp hv).1

/-- Loads and stores of locals stay within the slots. -/
theorem lt_of_addresses {m : Method} {isStatic : Bool} {uses : List VarUse} {is : List Instr}
    (h : List.Forall₂ (Addresses m isStatic) uses (is.filter Instr.isAccess)) {k : UInt16}
    (hk : .ldloc k ∈ is ∨ .stloc k ∈ is) : k.toNat < m.bodySlots.length := by
  rcases hk with hk | hk
  all_goals
    obtain ⟨use, -, haddress⟩ :=
      Lowering.exists_of_forall₂_right h (List.mem_filter.mpr ⟨hk, rfl⟩)
    cases haddress with
    | _ hs => exact Method.lt_of_localAt hs

namespace Accepted

variable {t : Table} {target : Lowering.Target} {ds : List Decl} {img : Image}
  {path : List String} {m : Method} {s : Symbol} {k : ScopeId}

theorem nodup_vars (h : Accepted t target ds img) (hm : .method path m ∈ ds) : m.vars.Nodup := by
  have hmethod : (Decl.method path m).symbols.Sublist (Decl.allSymbols ds) :=
    List.sublist_flatten_of_mem (List.mem_map_of_mem hm)
  exact h.declares.nodup.sublist ((List.sublist_append_right _ _).trans hmethod)

/-- The slots in the directive count the locals in the order of their declarations. -/
theorem locals_listed (h : Accepted t target ds img) (hm : .method path m ∈ ds)
    (hl : m.bodySlots.length ≤ 65535) {d : MethodDef} (hd : Compiled t target (path, m) d) :
    d.locals.map (fun e => e.slot.toNat) = List.range m.bodySlots.length ∧
      List.Forall₂ (Lists target.resolutions) m.bodySlots d.locals := by
  cases hd with
  | intro hb _ _ _ hbody hf he =>
    have hplaced := h.declares.placed _ hm
    simp only [Decl.Placed, hb] at hplaced
    obtain ⟨-, k, -, -, hslots⟩ := hplaced
    have hnone : ∀ x ∈ ([] : List (UInt16 × Symbol)), x.1 < 0 := by simp
    obtain ⟨_, hgather, hat, hrange⟩ := Lowering.foldlM_gatherSlot hslots (h.filled hm).2.2
      (by simpa using hl) hnone
    rw [Lowering.gatherAllLocals_eq_foldlM] at hf
    rw [Method.bodySlots, hbody, Option.getD_some, hf] at hgather
    cases hgather
    have hentries := Lowering.localEntries_inv he
    constructor
    · rw [List.range_eq_range', Eq.comm, ← UInt16.toNat_zero, ← hrange, ← List.forall₂_eq_eq_eq,
        List.forall₂_map_left_iff, List.forall₂_map_right_iff]
      exact hentries.imp fun x e hx => by rw [hx.1]
    · refine Lowering.forall₂_trans ?_ hat hentries
      rintro v x e ⟨hv, hname, hdet⟩ ⟨hslot, htype, hename⟩
      exact ⟨x.2, hv, hslot ▸ hdet, hename.trans hname, htype⟩

theorem addresses (h : Accepted t target ds img) (hm : .method path m ∈ ds)
    (hs : m.symbol = some s) (hk : s.scope = some k) (hn : (Decl.method path m).isNarrow = true)
    {isStatic : Bool} {use : VarUse} {i : Instr}
    (ht : Lowering.Touches ⟨t, k, some s, target.entry⟩ (target.frame !isStatic) use i) :
    Addresses m isStatic use i := by
  have hlocal : ∀ {b : Symbol} {type : TypeExpr} {index : UInt16}, t.Reached k b →
      b.details = .var type (.slot index) → m.localAt index.toNat = some b := by
    intro b type index hr hd
    have hin := h.declaredIn_of_reached hr hd (by simp)
    obtain ⟨v, hv, hb, -⟩ := h.declares.slot_at hm (h.filled hm) hn hs hk hr.1 hin hd
    simp only [Method.localAt, hv, Option.bind_some, hb]
  have hparam : ∀ {b : Symbol} {type : TypeExpr} {index : UInt16}, t.Reached k b →
      b.details = .var type (.param index) → m.paramAt index.toNat = some b := by
    intro b type index hr hd
    have hin := h.declaredIn_of_reached hr hd (by simp)
    obtain ⟨p, hp, hb, -⟩ := h.declares.param_at hm hn hs hk hr.1 hin hd
    simp only [Method.paramAt, hp, Option.bind_some, hb]
  have hargument : ∀ index : UInt16, (target.frame !isStatic).argument index =
      if isStatic then index.toNat else index.toNat + 1 := by
    intro index
    cases isStatic <;> rfl
  cases ht with
  | ldloc hr hd => exact .ldloc (hlocal hr hd)
  | stloc hr hd => exact .stloc (hlocal hr hd)
  | ldarg hr hd =>
    rw [hargument]
    exact .ldarg (hparam hr hd)
  | starg hr hd =>
    rw [hargument]
    exact .starg (hparam hr hd)

theorem addressed (h : Accepted t target ds img) (hm : .method path m ∈ ds)
    (hn : (Decl.method path m).isNarrow = true) {d : MethodDef}
    (hd : Compiled t target (path, m) d) :
    List.Forall₂ (Addresses m d.isStatic) (m.uses.filter VarUse.inFrame)
      ((d.code.filterMap Lowering.Item.instr?).filter Instr.isAccess) := by
  obtain ⟨b, k, items, hb, hk, -, hcode, hperforms, hcodes⟩ := hd.performs h.writable
  have haccounts := hperforms.accounts fun a ha is his => (hcodes a ha is his).accounts
  rw [hcode, List.filterMap_append]
  exact (haccounts.close rfl).imp fun _ _ ht => h.addresses hm hb hk hn ht

theorem slotsAgree (h : Accepted t target ds img) {d : MethodDef} (hm : .method path m ∈ ds)
    (hp : m.params.length ≤ 65536) (hl : m.bodySlots.length ≤ 65535)
    (hd : Compiled t target (path, m) d) (isEntry : Bool) :
    SlotsAgree target.resolutions m
      ⟨path, d.isStatic, d.name, d.lines isEntry target.options.maxStack⟩ := by
  have hlisted := h.locals_listed hm hl hd
  have haddressed := h.addressed hm (by simp [Decl.isNarrow, hp, hl]) hd
  constructor
  · exact h.nodup_vars hm
  · refine ⟨d.locals, ?_, hlisted⟩
    have hempty : d.locals.isEmpty = m.bodySlots.isEmpty := by
      rw [Bool.eq_iff_iff, List.isEmpty_iff_length_eq_zero, List.isEmpty_iff_length_eq_zero,
        hlisted.2.length_eq]
    rw [MethodBlock.locals, MethodDef.filterMap_locals_lines, hempty]
  · intro k hk
    rw [MethodBlock.instrs, MethodDef.filterMap_instr_lines] at hk
    exact lt_of_addresses haddressed hk
  · rw [MethodBlock.instrs, MethodDef.filterMap_instr_lines]
    exact haddressed

end Accepted

/-- Every pass sees the same slots. In the listing of an accepted unit each method has its block. If
its parameters and locals can be counted in 16 bits, then the directive in the block and the loads
and stores in it agree with what the method declares and uses. What it declares is what was written.
-/
theorem slots_agree {u : CompilationUnit} {options : Options} {listing : Listing}
    (hf : u.isFresh = true) (hc : (compile u options).result = .ok (some listing)) :
    Decl.outlines (compile u options).unit.decls = Decl.outlines u.decls ∧
    ∃ top, blocks listing.lines = some (Lowering.preamble options ++ [top]) ∧
      List.Forall₂ (fun x b => b.owner = x.1 ∧ b.name = x.2.name.text ∧
          (x.2.params.length ≤ 65536 → x.2.bodySlots.length ≤ 65535 →
            SlotsAgree (compile u options).resolutions x.2 b))
        (Decl.methods (compile u options).unit.decls) (top.methodBlocks []) := by
  obtain ⟨t, c, top, -, ha, -, hblocks, hshows⟩ := accepted_shows hf hc
  refine ⟨outlines_of_compile u options, top, hblocks, ?_⟩
  have hmethods := hshows.methods
  simp only [LineTree.allMethodBlocks, List.append_nil] at hmethods
  refine Lowering.forall₂_imp_of_mem hmethods ?_
  rintro ⟨path, m⟩ b hmem hemits
  have hm := Decl.mem_methods.mp hmem
  obtain ⟨howner, hname⟩ := ha.head_of_block hmem hemits
  refine ⟨howner, hname, fun hp hl => ?_⟩
  cases hemits with
  | intro _ hd => exact ha.slotsAgree hm hp hl (ha.compiled hmem hd) _

namespace Sample

def frames : CompilationUnit :=
  ⟨some ⟨⟨.plain "Frames", [], none, [], none⟩,
    [method [.static] (word .int) "main" [(word .int, "n"), (word .string, "s")]
       [.locals (decl [] (word .int) [("a", some (num 0)), ("b", none)]),
        .loop (bin .lt (ref "a") (ref "n"))
          (.block
            [.locals (decl [] (word .int) [("c", some (ref "a"))]),
             set "a" (bin .add (ref "c") (num 1))] .null) .null,
        .ifElse (bin .eq (ref "n") (num 0))
          (.block [.locals (decl [] (word .int) [("d", some (num 1))]), set "b" (ref "d")] .null)
          (.block [.locals (decl [] (word .string) [("e", some (ref "s"))]), set "n" (num 2)] .null)
          .null,
        ret (ref "b")],
     method [] (word .int) "twice" [(word .int, "x")]
       [set "x" (bin .add (ref "x") (ref "x")), ret (ref "x")]]⟩⟩

end Sample

theorem slots_agree_sample : Sample.frames.isFresh = true ∧ ∃ listing,
    (compile Sample.frames .default).result = .ok (some listing) ∧
    (Decl.methods (compile Sample.frames .default).unit.decls).map
      (fun x => (x.2.params.length, x.2.bodySlots.length)) = [(2, 5), (1, 0)] ∧
    ∃ top, blocks listing.lines = some (Lowering.preamble .default ++ [top]) ∧
      List.Forall₂ (fun x b => SlotsAgree (compile Sample.frames .default).resolutions x.2 b)
        (Decl.methods (compile Sample.frames .default).unit.decls) (top.methodBlocks []) := by
  have hf : Sample.frames.isFresh = true := by decide
  have hsome : (compile Sample.frames .default).assembly.isSome = true := by decide +kernel
  obtain ⟨listing, hl⟩ := Option.isSome_iff_exists.mp hsome
  have hc := Compilation.result_of_assembly hl
  have hcounts : (Decl.methods (compile Sample.frames .default).unit.decls).map
      (fun x => (x.2.params.length, x.2.bodySlots.length)) = [(2, 5), (1, 0)] := by decide +kernel
  have hsmall : ∀ x ∈ Decl.methods (compile Sample.frames .default).unit.decls,
      x.2.params.length ≤ 65536 ∧ x.2.bodySlots.length ≤ 65535 := by
    intro x hx
    have hmem := List.mem_map_of_mem (f := fun x : List String × Method =>
      (x.2.params.length, x.2.bodySlots.length)) hx
    rw [hcounts] at hmem
    simp only [List.mem_cons, Prod.mk.injEq, List.not_mem_nil, or_false] at hmem
    omega
  obtain ⟨-, top, hblocks, hall⟩ := slots_agree hf hc
  refine ⟨hf, listing, hc, hcounts, top, hblocks, ?_⟩
  exact Lowering.forall₂_imp_of_mem hall fun x b hx hb => hb.2.2 (hsmall x hx).1 (hsmall x hx).2

end ClassLang
