import ClassLang.Proofs.Accepted
import ClassLang.Proofs.Stripped

/-! Where variables live. Two conditions on units are stated here that typing does not ask for: that
no variable has the type `void`, and that methods have no more parameters and locals than 16-bit
positions can count. Under the second one every parameter of a method is at its own position and
every local has a slot of its own. -/
namespace ClassLang

open Assembly Typing

def TypeExpr.isVoid : TypeExpr → Bool
  | .keyword .void _ => true
  | _ => false

namespace Decl

/-- No variable has the type `void`. -/
def isVoidFree : Decl → Bool
  | .method _ m =>
    m.params.all (fun p => !p.type.isVoid) && m.bodySlots.all (fun v => !v.type.isVoid)
  | .field _ d => d.slots.all fun v => !v.type.isVoid
  | .cls _ _ => true

/-- Positions and slots do not run out. -/
def isNarrow : Decl → Bool
  | .method _ m => decide (m.params.length ≤ 65536) && decide (m.bodySlots.length ≤ 65535)
  | _ => true

def erase : Decl → Decl
  | .method path m => .method path m.erase
  | .field path d => .field path d.erase
  | .cls path head => .cls path head.erase

end Decl

namespace CompilationUnit

def isVoidFree (u : CompilationUnit) : Bool := u.decls.all Decl.isVoidFree

def isNarrow (u : CompilationUnit) : Bool := u.decls.all Decl.isNarrow

end CompilationUnit

def VarSlot.erase (v : VarSlot) : VarSlot := { v with symbol := none }

theorem VarDecl.slots_strip (d : VarDecl) : d.strip.slots = d.slots.map VarSlot.erase := by
  simp [slots, strip, VarSlot.erase, Declarator.strip]

namespace Stmt

mutual

theorem slots_strip : ∀ s : Stmt, s.strip.slots = s.slots.map VarSlot.erase
  | .block body _ => by simp [strip, slots, allSlots_stripAll body]
  | .locals d => by simp [strip, slots, VarDecl.slots_strip d]
  | .ifThen _ thenBody _ => by simp [strip, slots, slots_strip thenBody]
  | .ifElse _ thenBody elseBody _ => by
    simp [strip, slots, slots_strip thenBody, slots_strip elseBody]
  | .loop _ body _ => by simp [strip, slots, slots_strip body]
  | .expr .. => by simp [strip, slots]
  | .ret .. => by simp [strip, slots]
  | .empty _ => by simp [strip, slots]

theorem allSlots_stripAll : ∀ body : List Stmt,
    allSlots (stripAll body) = (allSlots body).map VarSlot.erase
  | [] => by simp [stripAll, allSlots]
  | s :: rest => by simp [stripAll, allSlots, slots_strip s, allSlots_stripAll rest]

end

end Stmt

theorem Method.bodySlots_strip (m : Method) :
    m.strip.bodySlots = m.bodySlots.map VarSlot.erase := by
  unfold bodySlots strip
  cases m.body with
  | none => simp [Stmt.allSlots]
  | some body => exact Stmt.allSlots_stripAll body

theorem Method.slots_of_erase {m n : Method} (h : n.erase = m.erase) :
    n.params.map Param.erase = m.params.map Param.erase ∧
      n.bodySlots.map VarSlot.erase = m.bodySlots.map VarSlot.erase := by
  have hstrip : n.strip = m.strip := by rw [← n.strip_erase, h, m.strip_erase]
  exact ⟨congrArg Method.params hstrip, by rw [← n.bodySlots_strip, hstrip, m.bodySlots_strip]⟩

namespace Member

mutual

theorem decls_erase : ∀ (path : List String) (m : Member),
    m.erase.decls path = (m.decls path).map Decl.erase
  | path, .method m => by simp [erase, decls, Decl.erase]
  | path, .field d => by simp [erase, decls, Decl.erase]
  | path, .nested head members => by
    simp only [erase, decls, List.map_cons, Decl.erase, allDecls_eraseAll _ members]
    rfl

theorem allDecls_eraseAll : ∀ (path : List String) (ms : List Member),
    allDecls path (eraseAll ms) = (allDecls path ms).map Decl.erase
  | path, [] => by simp [eraseAll, allDecls]
  | path, m :: rest => by
    simp [eraseAll, allDecls, decls_erase path m, allDecls_eraseAll path rest]

end

end Member

theorem CompilationUnit.decls_erase (u : CompilationUnit) :
    u.erase.decls = u.decls.map Decl.erase := by
  obtain ⟨_ | c⟩ := u
  · rfl
  simp only [decls, erase, Option.map_some, Option.elim_some, ClassDecl.decls, ClassDecl.erase,
    Member.allDecls_eraseAll, List.map_cons]
  rfl

namespace Decl

theorem isVoidFree_strip (d : Decl) : d.strip.isVoidFree = d.isVoidFree := by
  cases d with
  | method path m =>
    simp only [strip, isVoidFree, Method.bodySlots_strip, List.all_map]
    simp only [Method.strip, List.all_map]
    rfl
  | field path d =>
    simp [strip, isVoidFree, VarDecl.slots_strip, VarSlot.erase, List.all_map, Function.comp_def]
  | cls path head => rfl

theorem isNarrow_strip (d : Decl) : d.strip.isNarrow = d.isNarrow := by
  cases d with
  | method path m =>
    simp only [strip, isNarrow, Method.bodySlots_strip, List.length_map]
    simp only [Method.strip, List.length_map]
  | field path d => rfl
  | cls path head => rfl

/-- What does not depend on annotations carries over to the annotated unit. -/
theorem all_compile {P : Decl → Bool} (hP : ∀ d : Decl, P d.strip = P d) (u : CompilationUnit)
    (options : Options) : (compile u options).unit.decls.all P = u.decls.all P := by
  have hmap : ∀ ds : List Decl, (ds.map strip).all P = ds.all P := by
    intro ds
    rw [List.all_map]
    exact congrArg (ds.all ·) (funext hP)
  rw [← hmap, compile_decls, hmap]

end Decl

def Method.outline (m : Method) : Method × List VarSlot :=
  ({ m.erase with body := none }, m.bodySlots.map VarSlot.erase)

theorem Method.outline_strip (m : Method) : m.strip.outline = m.outline := by
  simp only [outline, bodySlots_strip, List.map_map]
  simp [strip, erase, Param.erase, VarSlot.erase, Function.comp_def]

namespace Decl

def outlines (ds : List Decl) : List (List String × Method × List VarSlot) :=
  (methods ds).map fun x => (x.1, x.2.outline)

theorem outlines_strip (ds : List Decl) : outlines (ds.map strip) = outlines ds := by
  induction ds with
  | nil => rfl
  | cons d ds ih =>
    cases d with
    | method path m =>
      change (path, m.strip.outline) :: outlines (ds.map strip) = (path, m.outline) :: outlines ds
      rw [ih, m.outline_strip]
    | field path d => exact ih
    | cls path head => exact ih

end Decl

theorem add_one_position (j : Nat) : 1 + UInt16.ofNat j = UInt16.ofNat (j + 1) := by
  rw [UInt16.add_comm, UInt16.ofNat_add]
  rfl

theorem Registration.ParamsPlaced.position {k : ScopeId} {params : List Param} :
    ∀ {i : UInt16} {j : Nat} {p : Param} {b : Symbol}, ParamsPlaced k i params →
      params[j]? = some p → p.symbol = some b →
      b.details = .var p.type (.param (i + UInt16.ofNat j)) := by
  induction params with
  | nil =>
    intro i j p b _ hp _
    cases hp
  | cons q rest ih =>
    intro i j p b h hp hb
    rw [ParamsPlaced] at h
    cases j with
    | zero =>
      cases hp
      simpa using (h.1 b hb).2.2
    | succ j =>
      have hd := ih h.2 hp hb
      rw [hd, UInt16.add_assoc, add_one_position]

theorem Registration.Home.Placed.position {k : ScopeId} {slots : List VarSlot} :
    ∀ {n : UInt16} {j : Nat} {v : VarSlot} {b : Symbol}, Home.method.Placed k n slots →
      (∀ v ∈ slots, v.symbol ≠ none) → slots[j]? = some v → v.symbol = some b →
      b.details = .var v.type (.slot (n + UInt16.ofNat j)) := by
  induction slots with
  | nil =>
    intro n j v b _ _ hv _
    cases hv
  | cons w rest ih =>
    intro n j v b h hf hv hb
    obtain ⟨c, hc⟩ := Option.ne_none_iff_exists'.mp (hf w List.mem_cons_self)
    rw [Home.Placed, hc] at h
    cases j with
    | zero =>
      cases hv
      obtain rfl := Option.some.inj (hc.symm.trans hb)
      simpa [Home.storage] using h.1.2.2
    | succ j =>
      have hd := ih h.2 (fun x hx => hf x (List.mem_cons_of_mem _ hx)) hv hb
      rw [hd, Home.next, UInt16.add_assoc, add_one_position]

theorem toNat_position {j : Nat} (h : j < 65536) : (0 + UInt16.ofNat j).toNat = j := by
  rw [UInt16.zero_add, UInt16.toNat_ofNat_of_lt' h]

namespace Declares

section Variables

variable {t : Table} {tag : Nat} {ds : List Decl} {path : List String} {m : Method} {s b : Symbol}
  {k : ScopeId} {type : TypeExpr} {index : UInt16}

theorem position_eq (h : Declares t tag ds) (hm : .method path m ∈ ds)
    (hn : (Decl.method path m).isNarrow = true) (hs : m.symbol = some s) {j : Nat} {p : Param}
    (hj : m.params[j]? = some p) (hp : p.symbol = some b)
    (hd : b.details = .var type (.param index)) : index.toNat = j ∧ p.type = type := by
  have hplaced := h.placed _ hm
  simp only [Decl.Placed, hs] at hplaced
  obtain ⟨-, k', -, hparams, -⟩ := hplaced
  have hdet := hparams.position hj hp
  rw [hd] at hdet
  cases hdet
  simp only [Decl.isNarrow, Bool.and_eq_true, decide_eq_true_eq] at hn
  have hlt := (List.getElem?_eq_some_iff.mp hj).1
  exact ⟨toNat_position (by omega), rfl⟩

theorem param_at (h : Declares t tag ds) (hm : .method path m ∈ ds)
    (hn : (Decl.method path m).isNarrow = true) (hs : m.symbol = some s) (hk : s.scope = some k)
    (hb : t.Bound b) (hin : b.declaredIn = k) (hd : b.details = .var type (.param index)) :
    ∃ p, m.params[index.toNat]? = some p ∧ p.symbol = some b ∧ p.type = type := by
  obtain ⟨p, hp, hsym⟩ := Typing.param_of_scope h hm hs hk hb hin ⟨type, index, hd⟩
  obtain ⟨j, hj⟩ := List.getElem?_of_mem hp
  obtain ⟨rfl, htype⟩ := h.position_eq hm hn hs hj hsym hd
  exact ⟨p, hj, hsym, htype⟩

/-- A local of a method is the one that its slot counts. -/
theorem slot_at (h : Declares t tag ds) (hm : .method path m ∈ ds)
    (hf : (Decl.method path m).Filled) (hn : (Decl.method path m).isNarrow = true)
    (hs : m.symbol = some s) (hk : s.scope = some k) (hb : t.Bound b) (hin : b.declaredIn = k)
    (hd : b.details = .var type (.slot index)) :
    ∃ v, m.bodySlots[index.toNat]? = some v ∧ v.symbol = some b ∧ v.type = type := by
  subst hin
  cases h.declared hb with
  | slot hm' hs' hin' hv hvb _ =>
    obtain rfl := h.method_eq_of_scope hm hm' hs hs' (hin'.trans hk.symm) (by simp [hk])
    obtain ⟨j, hj⟩ := List.getElem?_of_mem hv
    have hplaced := h.placed _ hm
    simp only [Decl.Placed, hs] at hplaced
    obtain ⟨-, k', -, -, hslots⟩ := hplaced
    have hdet := hslots.position hf.2.2 hj hvb
    rw [hd] at hdet
    cases hdet
    simp only [Decl.isNarrow, Bool.and_eq_true, decide_eq_true_eq] at hn
    have hlt := (List.getElem?_eq_some_iff.mp hj).1
    exact ⟨_, by rw [toNat_position (by omega)]; exact hj, hvb, rfl⟩
  | system hb =>
    subst hb
    cases hd
  | _ =>
    rename_i hd'
    rw [hd] at hd'
    cases hd'

/-- Variables of one scope are told apart by their names. -/
theorem name_ne (h : Declares t tag ds) {c : Symbol} {storage : Storage} (hb : t.Bound b)
    (hc : t.Bound c) (hin : c.declaredIn = b.declaredIn) (hd : c.details = .var type storage)
    (hne : c ≠ b) : c.name ≠ b.name := fun hname =>
  hne (h.sound.alone c b hc hb hin hname (by simp [Symbol.isMethod, Symbol.kind, hd]))

theorem eq_of_slot (h : Declares t tag ds) (hm : .method path m ∈ ds)
    (hf : (Decl.method path m).Filled) (hn : (Decl.method path m).isNarrow = true)
    (hs : m.symbol = some s) (hk : s.scope = some k) {c : Symbol} {type' : TypeExpr}
    (hb : t.Bound b) (hc : t.Bound c) (hbin : b.declaredIn = k) (hcin : c.declaredIn = k)
    (hbd : b.details = .var type (.slot index)) (hcd : c.details = .var type' (.slot index)) :
    c = b := by
  obtain ⟨v, hat, hv, -⟩ := h.slot_at hm hf hn hs hk hb hbin hbd
  obtain ⟨w, hat', hw, -⟩ := h.slot_at hm hf hn hs hk hc hcin hcd
  obtain rfl := Option.some.inj (hat.symm.trans hat')
  exact Option.some.inj (hw.symm.trans hv)

theorem eq_of_position (h : Declares t tag ds) (hm : .method path m ∈ ds)
    (hn : (Decl.method path m).isNarrow = true) (hs : m.symbol = some s) (hk : s.scope = some k)
    {c : Symbol} {type' : TypeExpr} (hb : t.Bound b) (hc : t.Bound c) (hbin : b.declaredIn = k)
    (hcin : c.declaredIn = k) (hbd : b.details = .var type (.param index))
    (hcd : c.details = .var type' (.param index)) : c = b := by
  obtain ⟨p, hat, hp, -⟩ := h.param_at hm hn hs hk hb hbin hbd
  obtain ⟨q, hat', hq, -⟩ := h.param_at hm hn hs hk hc hcin hcd
  obtain rfl := Option.some.inj (hat.symm.trans hat')
  exact Option.some.inj (hq.symm.trans hp)

end Variables

end Declares

theorem Typing.meaning_ne_void {t : Table} {k : ScopeId} {type : TypeExpr}
    (h : type.isVoid = false) : meaning t k type ≠ .void := by
  intro he
  cases type with
  | keyword word span =>
    cases word with
    | void => cases h
    | _ => cases he
  | array => cases he
  | generic => cases he
  | named segments span =>
    unfold meaning resolveType at he
    dsimp only at he
    split at he
    · cases he
    · cases he
    · split at he <;> cases he

theorem Typing.meaning_of_isVoid {t : Table} {k : ScopeId} {type : TypeExpr}
    (h : type.isVoid = true) : meaning t k type = .void := by
  cases type with
  | keyword word span =>
    cases word with
    | void => rfl
    | _ => cases h
  | _ => cases h

namespace Lowering

theorem forall₂_getElem? {α β : Type} {R : α → β → Prop} {as : List α} {bs : List β}
    (h : List.Forall₂ R as bs) : ∀ {i : Nat} {a : α}, as[i]? = some a →
      ∃ b, bs[i]? = some b ∧ R a b := by
  induction h with
  | nil =>
    intro i a ha
    cases ha
  | @cons a b _ _ hr _ ih =>
    intro i c hc
    cases i with
    | zero =>
      cases hc
      exact ⟨b, rfl, hr⟩
    | succ i => exact ih hc

end Lowering

theorem find?_eq_some_of_unique {α : Type} {l : List α} {p : α → Bool} {x : α} (hx : x ∈ l)
    (hp : p x = true) (hu : ∀ y ∈ l, p y = true → y = x) : l.find? p = some x := by
  cases hfind : l.find? p with
  | none => exact absurd hp (List.find?_eq_none.mp hfind x hx)
  | some y => rw [hu y (List.mem_of_find?_eq_some hfind) (List.find?_some hfind)]

def Assembly.MethodDef.localAt (d : MethodDef) (slot : UInt16) : Option LocalEntry :=
  d.locals.find? fun e => e.slot == slot

namespace Accepted

variable {t : Table} {target : Lowering.Target} {ds : List Decl} {img : Image}
  {path : List String} {m : Method} {s b : Symbol} {k : ScopeId} {type : TypeExpr} {index : UInt16}

theorem filled (h : Accepted t target ds img) {d : Decl} (hd : d ∈ ds) : d.Filled :=
  (h.prepared d hd).filled

theorem param_entry (h : Accepted t target ds img) (hm : .method path m ∈ ds)
    (hn : (Decl.method path m).isNarrow = true) (hs : m.symbol = some s) (hk : s.scope = some k)
    {params : List (AsmType × String)} (hp : target.paramEntries m.params = .ok params)
    (hb : t.Bound b) (hin : b.declaredIn = k) (hd : b.details = .var type (.param index)) :
    ∃ a, params[index.toNat]? = some (a, b.name) ∧
      Lowering.symbolType target.resolutions b = .ok a := by
  obtain ⟨p, hat, hsym, -⟩ := h.declares.param_at hm hn hs hk hb hin hd
  obtain ⟨⟨a, name⟩, he, b', hb', ha, hname⟩ :=
    Lowering.forall₂_getElem? (Lowering.paramEntries_inv hp) hat
  obtain rfl := Option.some.inj (hsym.symm.trans hb')
  exact ⟨a, by rw [he, ← hname], ha⟩

theorem local_symbol (h : Accepted t target ds img) (hm : .method path m ∈ ds)
    (hs : m.symbol = some s) (hk : s.scope = some k) {body : List Stmt}
    {found : List (UInt16 × Symbol)} {entries : List LocalEntry} (hbody : m.body = some body)
    (hf : Lowering.gatherAllLocals body [] = .ok found)
    (hl : target.localEntries found = .ok entries) {e : LocalEntry} (he : e ∈ entries) :
    ∃ b type, t.Bound b ∧ b.declaredIn = k ∧ b.details = .var type (.slot e.slot) ∧
      b.name = e.name ∧ Lowering.symbolType target.resolutions b = .ok e.type := by
  obtain ⟨⟨i, b⟩, hb, hi, ha, hname⟩ :=
    Lowering.exists_of_forall₂_right (Lowering.localEntries_inv hl) he
  rcases (Lowering.gatherAllLocals_gathers.1 found hf _).mp hb with hno | ⟨v, hv, type, hsym, hd⟩
  · cases hno
  obtain ⟨-, -, -, k', hk', -, hdecl⟩ := Typing.method_declared h.declares hm hs
  obtain rfl := Option.some.inj (hk.symm.trans hk')
  have hslots : m.bodySlots = Stmt.allSlots body := by simp [Method.bodySlots, hbody]
  obtain ⟨hbound, hin, -⟩ := hdecl v (hslots ▸ hv) b hsym
  exact ⟨b, type, hbound, hin, hi ▸ hd, hname.symm, ha⟩

theorem local_entry (h : Accepted t target ds img) (hm : .method path m ∈ ds)
    (hn : (Decl.method path m).isNarrow = true) (hs : m.symbol = some s) (hk : s.scope = some k)
    {body : List Stmt} {found : List (UInt16 × Symbol)} {d : MethodDef} (hbody : m.body = some body)
    (hf : Lowering.gatherAllLocals body [] = .ok found)
    (hl : target.localEntries found = .ok d.locals) (hb : t.Bound b) (hin : b.declaredIn = k)
    (hd : b.details = .var type (.slot index)) :
    ∃ a, d.localAt index = some ⟨index, a, b.name⟩ ∧
      Lowering.symbolType target.resolutions b = .ok a := by
  have hslots : m.bodySlots = Stmt.allSlots body := by simp [Method.bodySlots, hbody]
  obtain ⟨v, hat, hsym, -⟩ := h.declares.slot_at hm (h.filled hm) hn hs hk hb hin hd
  have hfound : (index, b) ∈ found := (Lowering.gatherAllLocals_gathers.1 found hf _).mpr
    (Or.inr ⟨v, hslots ▸ List.mem_of_getElem? hat, type, hsym, hd⟩)
  obtain ⟨e, hmem, hslot, ha, -⟩ :=
    Lowering.exists_of_forall₂_left (Lowering.localEntries_inv hl) hfound
  refine ⟨e.type, ?_, ha⟩
  have honly : ∀ x ∈ d.locals, x.slot = index → x = ⟨index, e.type, b.name⟩ := by
    intro x hx hxslot
    obtain ⟨c, _, hc, hcin, hcd, hcname, hca⟩ := h.local_symbol hm hs hk hbody hf hl hx
    rw [hxslot] at hcd
    obtain rfl := h.declares.eq_of_slot hm (h.filled hm) hn hs hk hb hc hin hcin hd hcd
    rw [← Except.ok.inj (hca.symm.trans ha), ← hxslot, hcname]
  rw [← honly e hmem hslot]
  exact find?_eq_some_of_unique hmem (by simp [hslot]) fun x hx hxslot =>
    (honly x hx (by simpa using hxslot)).trans (honly e hmem hslot).symm

theorem var_ne_void (h : Accepted t target ds img) (hv : ∀ d ∈ ds, d.isVoidFree = true)
    (hb : t.Bound b) (hk : b.kind = .var) {T : Ty} (ht : target.resolutions.type? b = some T) :
    T ≠ .void := by
  obtain ⟨state, hr, hf⟩ := h.faithful
  obtain ⟨scope, type, hw, rfl, -⟩ := hf.types hb (hr ▸ ht)
  refine Typing.meaning_ne_void ?_
  unfold Symbol.kind at hk
  cases h.declares.declared hb with
  | param hm _ _ hp _ hd =>
    have hfree := hv _ hm
    simp only [Decl.isVoidFree, Bool.and_eq_true, List.all_eq_true, Bool.not_eq_true'] at hfree
    simp only [Writes, hd] at hw
    rw [hw.1]
    exact hfree.1 _ hp
  | slot hm _ _ hp _ hd =>
    have hfree := hv _ hm
    simp only [Decl.isVoidFree, Bool.and_eq_true, List.all_eq_true, Bool.not_eq_true'] at hfree
    simp only [Writes, hd] at hw
    rw [hw.1]
    exact hfree.2 _ hp
  | field hm hp _ hd =>
    have hfree := hv _ hm
    simp only [Decl.isVoidFree, List.all_eq_true, Bool.not_eq_true'] at hfree
    simp only [Writes, hd] at hw
    rw [hw.1]
    exact hfree _ (List.mem_map_of_mem hp)
  | system hb =>
    subst hb
    cases hk
  | _ =>
    rename_i hd
    simp [hd] at hk

theorem params_ne_void (h : Accepted t target ds img) (hv : ∀ d ∈ ds, d.isVoidFree = true)
    (hb : t.Bound b) {Ts : List Ty} (hTs : target.resolutions.params? b = some Ts) :
    ∀ T ∈ Ts, T ≠ .void := by
  obtain ⟨state, hr, hf⟩ := h.faithful
  obtain ⟨params, _, _, _, _, hdet, rfl, -⟩ := hf.params hb (hr ▸ hTs)
  intro T hT
  obtain ⟨type, htype, rfl⟩ := List.mem_map.mp hT
  refine Typing.meaning_ne_void ?_
  cases h.declares.declared hb with
  | routine hw hd =>
    rw [hdet] at hd
    cases hd
    rw [List.mem_singleton.mp htype]
    rcases hw with rfl | rfl <;> rfl
  | method hm _ hd =>
    rw [hdet] at hd
    cases hd
    obtain ⟨p, hp, rfl⟩ := List.mem_map.mp htype
    have hfree := hv _ hm
    simp only [Decl.isVoidFree, Bool.and_eq_true, List.all_eq_true, Bool.not_eq_true'] at hfree
    exact hfree.1 p hp
  | system hb =>
    subst hb
    cases hdet
  | _ =>
    rename_i hd
    rw [hdet] at hd
    cases hd

/-- What was recorded for a symbol is never the type of `this`. -/
theorem type_ne_this (h : Accepted t target ds img) (hb : t.Bound b) {T : Ty}
    (ht : target.resolutions.type? b = some T) : T ≠ .this := by
  obtain ⟨state, hr, hf⟩ := h.faithful
  obtain ⟨scope, type, -, rfl, -⟩ := hf.types hb (hr ▸ ht)
  exact Typing.meaning_ne_this _ _ _

theorem params_ne_this (h : Accepted t target ds img) (hb : t.Bound b) {Ts : List Ty}
    (hTs : target.resolutions.params? b = some Ts) : ∀ T ∈ Ts, T ≠ .this := by
  obtain ⟨state, hr, hf⟩ := h.faithful
  obtain ⟨params, _, _, _, _, -, rfl, -⟩ := hf.params hb (hr ▸ hTs)
  intro T hT
  obtain ⟨type, -, rfl⟩ := List.mem_map.mp hT
  exact Typing.meaning_ne_this _ _ _

end Accepted

theorem accepted_with_conditions {u : CompilationUnit} {options : Options} {listing : Listing}
    (hf : u.isFresh = true) (hc : (compile u options).result = .ok (some listing)) :
    ∃ t entry, Accepted t ⟨options, (compile u options).resolutions, entry⟩
        (compile u options).unit.decls listing.image ∧
      (u.isVoidFree = true → ∀ d ∈ (compile u options).unit.decls, d.isVoidFree = true) ∧
      (u.isNarrow = true → ∀ d ∈ (compile u options).unit.decls, d.isNarrow = true) := by
  obtain ⟨t, entry, hacc⟩ := accepted_of_compile hf hc
  refine ⟨t, entry, hacc, fun hv => List.all_eq_true.mp ?_, fun hn => List.all_eq_true.mp ?_⟩
  · rw [Decl.all_compile Decl.isVoidFree_strip]
    exact hv
  · rw [Decl.all_compile Decl.isNarrow_strip]
    exact hn

/-- Methods declare the same before and after they are annotated. -/
theorem outlines_of_compile (u : CompilationUnit) (options : Options) :
    Decl.outlines (compile u options).unit.decls = Decl.outlines u.decls := by
  rw [← Decl.outlines_strip, compile_decls, Decl.outlines_strip]

theorem methods_of_outlines {ds es : List Decl} (h : Decl.outlines ds = Decl.outlines es) :
    List.Forall₂ (fun x y => x.1 = y.1 ∧ x.2.outline = y.2.outline) (Decl.methods ds)
      (Decl.methods es) := by
  rw [Decl.outlines, Decl.outlines, ← List.forall₂_eq_eq_eq, List.forall₂_map_left_iff,
    List.forall₂_map_right_iff] at h
  exact h.imp fun _ _ heq => Prod.mk.inj heq

end ClassLang
