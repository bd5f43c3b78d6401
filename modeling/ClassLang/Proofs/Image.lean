import ClassLang.Lowering.Unit
import ClassLang.Proofs.Outline
import Mathlib.Data.List.Forall2
import Mathlib.Data.List.Perm.Basic

/-! What a listing defines. Its lines are read from top to bottom: the classes around give every
definition its path, and a method takes the lines up to its closing brace. What is read back from
the lines of a unit is, declaration by declaration, what the unit declares. -/
namespace ClassLang

namespace Assembly

open Lowering

structure FieldDef where
  owner : List String
  isStatic : Bool
  type : AsmType
  name : String
  deriving DecidableEq

structure MethodDef where
  owner : List String
  isStatic : Bool
  returns : AsmType
  name : String
  params : List (AsmType × String)
  locals : List LocalEntry
  code : List Item
  deriving DecidableEq

def MethodDef.ctor (owner : List String) (code : List Item) : MethodDef :=
  ⟨owner, false, .void, ".ctor", [], [], code⟩

/-- The definitions of a program. Constructors are kept apart from the methods of the source. -/
structure Image where
  classes : List (List String)
  fields : List FieldDef
  methods : List MethodDef
  ctors : List MethodDef
  deriving DecidableEq

namespace Image

def empty : Image := ⟨[], [], [], []⟩

def append (a b : Image) : Image :=
  ⟨a.classes ++ b.classes, a.fields ++ b.fields, a.methods ++ b.methods, a.ctors ++ b.ctors⟩

instance : Append Image := ⟨append⟩

theorem append_assoc (a b c : Image) : a ++ b ++ c = a ++ (b ++ c) := by
  change append (append a b) c = append a (append b c)
  simp [append]

@[simp] theorem append_empty (a : Image) : a ++ empty = a := by
  change append a empty = a
  simp [append, empty]

@[simp] theorem empty_append (a : Image) : empty ++ a = a := rfl

def bodies (img : Image) : List MethodDef := img.methods ++ img.ctors

end Image

structure Opened where
  isCtor : Bool
  decl : MethodDef

def Opened.image (o : Opened) : Image :=
  if o.isCtor then ⟨[], [], [], [o.decl]⟩ else ⟨[], [], [o.decl], []⟩

structure Reader where
  path : List String
  opened : Option Opened
  image : Image

namespace Reader

def start : Reader := ⟨[], none, .empty⟩

def add (r : Reader) (img : Image) : Reader := { r with image := r.image ++ img }

def begin (r : Reader) (isCtor : Bool) (d : MethodDef) : Reader :=
  { r with opened := some ⟨isCtor, d⟩ }

def refine (r : Reader) (f : MethodDef → MethodDef) : Reader :=
  { r with opened := r.opened.map fun o => { o with decl := f o.decl } }

def close (r : Reader) : Reader :=
  match r.opened with
  | some o => { r.add o.image with opened := none }
  | none => { r with path := r.path.dropLast }

def read (r : Reader) : Line → Reader
  | .cls _ _ _ name =>
    { r.add ⟨[r.path ++ [name]], [], [], []⟩ with path := r.path ++ [name] }
  | .field _ isStatic type name => r.add ⟨[], [⟨r.path, isStatic, type, name⟩], [], []⟩
  | .method _ isStatic returns name params =>
    r.begin false ⟨r.path, isStatic, returns, name, params, [], []⟩
  | .ctor => r.begin true (.ctor r.path [])
  | .locals entries => r.refine fun d => { d with locals := entries }
  | .instr i => r.refine fun d => { d with code := d.code ++ [.instr i] }
  | .label l => r.refine fun d => { d with code := d.code ++ [.label l] }
  | .closeBrace => r.close
  | _ => r

def readAll (r : Reader) (lines : List Placed) : Reader :=
  lines.foldl (fun r p => r.read p.line) r

@[simp] theorem readAll_nil (r : Reader) : r.readAll [] = r := rfl

@[simp] theorem readAll_cons (r : Reader) (p : Placed) (lines : List Placed) :
    r.readAll (p :: lines) = (r.read p.line).readAll lines := rfl

@[simp] theorem readAll_append (r : Reader) (a b : List Placed) :
    r.readAll (a ++ b) = (r.readAll a).readAll b := by
  simp [readAll]

theorem readAll_place (path : List String) (o : Opened) (img : Image) (depth : Nat)
    (items : List Item) :
    (Reader.mk path (some o) img).readAll (items.map (Writer.place depth)) =
      ⟨path, some { o with decl := { o.decl with code := o.decl.code ++ items } }, img⟩ := by
  induction items generalizing o with
  | nil => simp
  | cons item items ih =>
    rw [List.map_cons, readAll_cons]
    cases item with
    | instr i =>
      refine (ih _).trans ?_
      simp [List.append_assoc]
    | label l =>
      refine (ih _).trans ?_
      simp [List.append_assoc]

end Reader

def Listing.image (l : Listing) : Image := (Reader.start.readAll l.lines).image

/-- In the class at `path`, the lines define `img` and end where they started. -/
def Defines (path : List String) (lines : List Placed) (img : Image) : Prop :=
  ∀ before, (Reader.mk path none before).readAll lines = ⟨path, none, before ++ img⟩

namespace Defines

variable {path : List String} {a b : List Placed} {x y : Image}

theorem nil : Defines path [] .empty := fun before => by simp

theorem append (ha : Defines path a x) (hb : Defines path b y) :
    Defines path (a ++ b) (x ++ y) := fun before => by
  rw [Reader.readAll_append, ha, hb, Image.append_assoc]

end Defines

end Assembly

namespace Decl

def methods (ds : List Decl) : List (List String × Method) :=
  ds.filterMap fun
    | .method path m => some (path, m)
    | _ => none

def fields (ds : List Decl) : List (List String × Declarator) :=
  ds.flatMap fun
    | .field path d => d.vars.map (path, ·)
    | _ => []

@[simp] theorem methods_append (a b : List Decl) : methods (a ++ b) = methods a ++ methods b := by
  simp [methods]

@[simp] theorem fields_append (a b : List Decl) : fields (a ++ b) = fields a ++ fields b := by
  simp [fields]

theorem mem_methods {ds : List Decl} {path : List String} {m : Method} :
    (path, m) ∈ methods ds ↔ .method path m ∈ ds := by
  simp only [methods, List.mem_filterMap]
  constructor
  · rintro ⟨d, hd, h⟩
    cases d <;> cases h
    exact hd
  · intro h
    exact ⟨_, h, rfl⟩

theorem mem_fields {ds : List Decl} {path : List String} {v : Declarator} :
    (path, v) ∈ fields ds ↔ ∃ d, .field path d ∈ ds ∧ v ∈ d.vars := by
  simp only [fields, List.mem_flatMap]
  constructor
  · rintro ⟨d, hd, h⟩
    cases d with
    | field p d =>
      obtain ⟨w, hw, h⟩ := List.mem_map.mp h
      cases h
      exact ⟨d, hd, hw⟩
    | method p m => cases h
    | cls p head => cases h
  · rintro ⟨d, hd, hv⟩
    exact ⟨_, hd, List.mem_map_of_mem hv⟩

end Decl

namespace Lowering

open Assembly

def isStaticField (s : Symbol) : Bool :=
  match s.details with
  | .var _ (.field isStatic _) => isStatic
  | _ => false

inductive EmitsField (t : Target) : List String × Declarator → FieldDef → Prop
  | intro {path v b type} (hb : v.symbol = some b) (ht : symbolType t.resolutions b = .ok type) :
    EmitsField t (path, v) ⟨path, isStaticField b, type, b.name⟩

/-- A method as written: its code is that of its body, and a last `ret`. -/
inductive EmitsMethod (t : Target) : List String × Method → MethodDef → Prop
  | intro {path m b returns params body found locals items n next} (hb : m.symbol = some b)
    (hr : symbolType t.resolutions b = .ok returns) (hp : t.paramEntries m.params = .ok params)
    (hbody : m.body = some body) (hf : gatherAllLocals body [] = .ok found)
    (hl : t.localEntries found = .ok locals)
    (hc : lowerStmts (t.frame !runsStatic t.entry b) body n = ⟨items, next, none⟩) :
    EmitsMethod t (path, m)
      ⟨path, runsStatic t.entry b, returns, b.name, params, locals, items ++ [.instr .ret]⟩

def ctorCode : List Item := [.instr .ldthis, .instr .callObject, .instr .ret]

/-- A program defines what is declared. Methods stand in the order of their declarations. -/
structure Emits (t : Target) (ds : List Decl) (img : Image) : Prop where
  classes : ∀ path, path ∈ img.classes ↔ ∃ head, .cls path head ∈ ds
  fields : ∃ vars, vars.Perm (Decl.fields ds) ∧ List.Forall₂ (EmitsField t) vars img.fields
  methods : List.Forall₂ (EmitsMethod t) (Decl.methods ds) img.methods
  ctors : ∀ d, d ∈ img.ctors ↔ ∃ path head, .cls path head ∈ ds ∧
    Modifier.isStatic head.modifiers = false ∧ d = .ctor path ctorCode

namespace Emits

variable {t : Target} {as bs : List Decl} {x y : Image}

theorem nil : Emits t [] .empty :=
  ⟨by simp [Image.empty], ⟨[], .refl _, .nil⟩, .nil, by simp [Image.empty]⟩

theorem append (ha : Emits t as x) (hb : Emits t bs y) : Emits t (as ++ bs) (x ++ y) := by
  obtain ⟨us, hus, hfu⟩ := ha.fields
  obtain ⟨vs, hvs, hfv⟩ := hb.fields
  constructor
  · intro path
    change path ∈ x.classes ++ y.classes ↔ _
    simp only [List.mem_append, ha.classes, hb.classes, exists_or]
  · refine ⟨us ++ vs, ?_, List.rel_append hfu hfv⟩
    rw [Decl.fields_append]
    exact hus.append hvs
  · rw [Decl.methods_append]
    exact List.rel_append ha.methods hb.methods
  · intro d
    change d ∈ x.ctors ++ y.ctors ↔ _
    simp only [List.mem_append, ha.ctors, hb.ctors, or_and_right, exists_or]

/-- Only the order of the methods counts. -/
theorem reorder (h : Emits t as x) (hp : as.Perm bs) (hm : Decl.methods as = Decl.methods bs) :
    Emits t bs x := by
  obtain ⟨vs, hvs, hf⟩ := h.fields
  refine ⟨fun path => ?_, ⟨vs, hvs.trans (hp.flatMap_right _), hf⟩, hm ▸ h.methods, fun d => ?_⟩
  · simp only [h.classes, hp.mem_iff]
  · simp only [h.ctors, hp.mem_iff]

end Emits

namespace Writer

theorem need_whole_iff {α : Type} {value : Except Fault α} {rest : α → Writer} {pen after : Pen}
    {lines : List Placed} : need value rest pen = ⟨lines, after, none⟩ ↔
      ∃ a, value = .ok a ∧ rest a pen = ⟨lines, after, none⟩ := by
  cases value with
  | ok a => simp [need]
  | error fault => simp [need, fail]

theorem block_whole {body : Writer} {pen after : Pen} {lines : List Placed}
    (h : block body pen = ⟨lines, after, none⟩) :
    ∃ inner left xs k l, body inner = ⟨xs, left, none⟩ ∧
      lines = ⟨k, .openBrace⟩ :: xs ++ [⟨l, .closeBrace⟩] := by
  obtain ⟨xs, p, ys, hbody, hleave, rfl⟩ := append_whole_iff.mp h
  obtain ⟨as, q, bs, henter, hinner, rfl⟩ := append_whole_iff.mp hbody
  cases henter
  cases hleave
  exact ⟨_, _, bs, _, _, hinner, rfl⟩

theorem code_whole {c : Code} {pen after : Pen} {lines : List Placed}
    (h : code c pen = ⟨lines, after, none⟩) :
    ∃ items next, c pen.nextLabel = ⟨items, next, none⟩ ∧ lines = items.map (place pen.depth) := by
  unfold code at h
  rcases hc : c pen.nextLabel with ⟨items, next, fault⟩
  simp only [hc, Written.mk.injEq] at h
  obtain ⟨rfl, -, rfl⟩ := h
  exact ⟨items, next, rfl, rfl⟩

end Writer

theorem symbol_of_registered {symbol : Option Symbol} {what : Mark} {name : String} {b : Symbol}
    (h : registered symbol what name = .ok b) : symbol = some b := by
  cases symbol with
  | none => cases h
  | some s =>
    cases h
    rfl

theorem methodBody_read {t : Target} {isStatic : Bool} {body : List Stmt} {pen after : Pen}
    {lines : List Placed} (h : t.methodBody isStatic body pen = ⟨lines, after, none⟩) :
    ∃ found locals items n next, gatherAllLocals body [] = .ok found ∧
      t.localEntries found = .ok locals ∧
      lowerStmts (t.frame !isStatic) body n = ⟨items, next, none⟩ ∧
      ∀ path (d : MethodDef) img, d.locals = [] → d.code = [] →
        (Reader.mk path (some ⟨false, d⟩) img).readAll lines =
          ⟨path, some ⟨false, { d with locals, code := items ++ [.instr .ret] }⟩, img⟩ := by
  obtain ⟨found, hfound, h₁⟩ := Writer.need_whole_iff.mp h
  obtain ⟨locals, hlocals, h₂⟩ := Writer.need_whole_iff.mp h₁
  obtain ⟨_, _, _, h₃, hlast, rfl⟩ := Writer.append_whole_iff.mp h₂
  obtain ⟨_, _, _, h₄, hret, rfl⟩ := Writer.append_whole_iff.mp h₃
  obtain ⟨_, _, _, h₅, hcode, rfl⟩ := Writer.append_whole_iff.mp h₄
  obtain ⟨es, _, _, hentries, hfirst, rfl⟩ := Writer.append_whole_iff.mp h₅
  cases hfirst
  obtain ⟨items, next, hitems, rfl⟩ := Writer.code_whole hcode
  cases hret
  cases hlast
  refine ⟨found, locals, items, _, next, hfound, hlocals, hitems, ?_⟩
  intro path d img hl hc
  have hline : (Reader.mk path (some ⟨false, d⟩) img).readAll es =
      ⟨path, some ⟨false, { d with locals }⟩, img⟩ := by
    unfold Target.localsLine at hentries
    split at hentries
    · next hnone =>
      cases hentries
      rw [List.isEmpty_iff] at hnone
      subst hnone
      rw [Reader.readAll_nil, ← hl]
    · cases hentries
      rfl
  simp only [Reader.readAll_append, hline, List.append_nil, Reader.readAll_place]
  rw [hc, List.nil_append]
  rfl

theorem method_defines {t : Target} {m : Method} {pen after : Pen} {lines : List Placed}
    (path : List String) (h : t.method m pen = ⟨lines, after, none⟩) :
    ∃ d, EmitsMethod t (path, m) d ∧ Defines path lines ⟨[], [], [d], []⟩ := by
  obtain ⟨b, hb, h⟩ := Writer.need_whole_iff.mp h
  obtain ⟨returns, hreturns, h⟩ := Writer.need_whole_iff.mp h
  obtain ⟨params, hparams, h⟩ := Writer.need_whole_iff.mp h
  obtain ⟨_, _, ys, hhead, hblock, rfl⟩ := Writer.append_whole_iff.mp h
  cases hhead
  obtain ⟨inner, left, xs, k, l, hinner, rfl⟩ := Writer.block_whole hblock
  obtain ⟨as, p, bs, htop, hbody, rfl⟩ := Writer.append_whole_iff.mp hinner
  have htop' : ∀ r : Reader, r.readAll as = r := by
    obtain ⟨cs, q, ds, hentry, hmax, rfl⟩ := Writer.append_whole_iff.mp htop
    cases hmax
    intro r
    split at hentry <;> cases hentry <;> rfl
  cases hm : m.body with
  | none =>
    rw [hm] at hbody
    cases hbody
  | some body =>
    rw [hm] at hbody
    obtain ⟨found, locals, items, n, next, hfound, hlocals, hcode, hread⟩ := methodBody_read hbody
    refine ⟨_, .intro (symbol_of_registered hb) hreturns hparams hm hfound hlocals hcode,
      fun before => ?_⟩
    simp only [List.cons_append, Reader.readAll_cons, Reader.readAll_append, Reader.read,
      Reader.begin, htop', Reader.readAll_nil]
    rw [hread _ _ _ rfl rfl]
    rfl

theorem fieldVars_defines {t : Target} {modifiers : List Modifier} {vars : List Declarator}
    (path : List String) : ∀ {pen after : Pen} {lines : List Placed},
      t.fieldVars modifiers vars pen = ⟨lines, after, none⟩ →
      ∃ fs, List.Forall₂ (EmitsField t) (vars.map (path, ·)) fs ∧
        Defines path lines ⟨[], fs, [], []⟩ := by
  induction vars with
  | nil =>
    intro pen after lines h
    cases h
    exact ⟨[], .nil, .nil⟩
  | cons v vars ih =>
    intro pen after lines h
    obtain ⟨_, _, ys, hv, hvs, rfl⟩ := Writer.append_whole_iff.mp h
    obtain ⟨b, hb, h₁⟩ := Writer.need_whole_iff.mp hv
    obtain ⟨type, htype, h₂⟩ := Writer.need_whole_iff.mp h₁
    cases h₂
    obtain ⟨fs, hfs, hdef⟩ := ih hvs
    refine ⟨_, .cons (.intro (symbol_of_registered hb) htype) hfs, ?_⟩
    have hline : Defines path [⟨pen.depth, .field (Modifier.access modifiers) (isStaticField b) type
        b.name⟩] ⟨[], [⟨path, isStaticField b, type, b.name⟩], [], []⟩ := fun _ => rfl
    exact hline.append hdef

def ownFields (path : List String) (ms : List Member) : List Decl :=
  ms.flatMap fun
    | .field d => [.field path d]
    | _ => []

def otherDecls (path : List String) (ms : List Member) : List Decl :=
  ms.flatMap fun
    | .field _ => []
    | m => m.decls path

theorem methods_ownFields (path : List String) (ms : List Member) :
    Decl.methods (ownFields path ms) = [] := by
  induction ms with
  | nil => rfl
  | cons m ms ih => cases m <;> exact ih

theorem methods_otherDecls (path : List String) (ms : List Member) :
    Decl.methods (otherDecls path ms) = Decl.methods (Member.allDecls path ms) := by
  induction ms with
  | nil => rfl
  | cons m ms ih =>
    rw [Member.allDecls, Decl.methods_append, ← ih]
    cases m with
    | field d =>
      rw [Member.decls]
      rfl
    | method m => exact Decl.methods_append _ _
    | nested head members => exact Decl.methods_append _ _

theorem allDecls_perm (path : List String) (ms : List Member) :
    (ownFields path ms ++ otherDecls path ms).Perm (Member.allDecls path ms) := by
  induction ms with
  | nil => exact .refl _
  | cons m ms ih =>
    rw [Member.allDecls]
    -- A member that is no field moves past the fields of the members after it.
    have hother : (ownFields path ms ++ (m.decls path ++ otherDecls path ms)).Perm
        (m.decls path ++ Member.allDecls path ms) := by
      refine List.Perm.trans ?_ (List.Perm.append_left _ ih)
      rw [← List.append_assoc, ← List.append_assoc]
      exact List.Perm.append_right _ List.perm_append_comm
    cases m with
    | field d =>
      rw [Member.decls]
      exact ih.cons _
    | method m => exact hother
    | nested head members => exact hother

theorem fields_emits {t : Target} {ms : List Member} (path : List String) :
    ∀ {pen after : Pen} {lines : List Placed}, t.fields ms pen = ⟨lines, after, none⟩ →
      ∃ img, Defines path lines img ∧ Emits t (ownFields path ms) img := by
  induction ms with
  | nil =>
    intro pen after lines h
    cases h
    exact ⟨_, .nil, .nil⟩
  | cons m ms ih =>
    intro pen after lines h
    cases m with
    | method m => exact ih h
    | nested head members => exact ih h
    | field d =>
      obtain ⟨_, _, _, hd, hrest, rfl⟩ := Writer.append_whole_iff.mp h
      obtain ⟨fs, hfs, hdef⟩ := fieldVars_defines path hd
      obtain ⟨img, hrdef, hr⟩ := ih hrest
      refine ⟨_, hdef.append hrdef, Emits.append ?_ hr⟩
      exact ⟨by simp, ⟨d.vars.map (path, ·), by simp [Decl.fields], hfs⟩, .nil, by simp⟩

theorem defaultCtor_defines {t : Target} {pen after : Pen} {lines : List Placed}
    (path : List String) (h : t.defaultCtor pen = ⟨lines, after, none⟩) :
    Defines path lines ⟨[], [], [], [.ctor path ctorCode]⟩ := by
  cases h
  exact fun _ => rfl

theorem defines_cls {path : List String} {name : String} {nested isStatic : Bool} {access : Access}
    {i j k : Nat} {lines : List Placed} {img : Image} (h : Defines (path ++ [name]) lines img) :
    Defines path (⟨i, .cls nested access isStatic name⟩ ::
      (⟨j, .openBrace⟩ :: lines ++ [⟨k, .closeBrace⟩]))
      (⟨[path ++ [name]], [], [], []⟩ ++ img) := by
  intro before
  simp only [List.cons_append, Reader.readAll_cons, Reader.readAll_append, Reader.read, Reader.add,
    h _, Reader.readAll_nil, Reader.close, List.dropLast_concat, Image.append_assoc]

/-- A class that is not static brings its constructor. -/
theorem Emits.cls {t : Target} {ds : List Decl} {img : Image} (h : Emits t ds img)
    (path : List String) (head : ClassHead) :
    Emits t (.cls path head :: ds) (⟨[path], [], [], []⟩ ++ (img ++
      if Modifier.isStatic head.modifiers then .empty
      else ⟨[], [], [], [.ctor path ctorCode]⟩)) := by
  obtain ⟨vs, hvs, hf⟩ := h.fields
  constructor
  · intro p
    have hmem : p ∈ [path] ++ (img.classes ++ []) ↔ ∃ h, .cls p h ∈ .cls path head :: ds := by
      simp [h.classes, exists_or]
    split <;> exact hmem
  · refine ⟨vs, hvs, ?_⟩
    have hfields : List.Forall₂ (EmitsField t) vs ([] ++ (img.fields ++ [])) := by simpa using hf
    split <;> exact hfields
  · have hmethods : List.Forall₂ (EmitsMethod t) (Decl.methods (.cls path head :: ds))
        ([] ++ (img.methods ++ [])) := by
      rw [List.append_nil, List.nil_append]
      exact h.methods
    split <;> exact hmethods
  · intro d
    split
    · next hst =>
      change d ∈ [] ++ (img.ctors ++ []) ↔ _
      simp [h.ctors, or_and_right, exists_or, and_assoc, hst]
    · next hst =>
      change d ∈ [] ++ (img.ctors ++ [_]) ↔ _
      simp [h.ctors, or_and_right, exists_or, and_assoc, hst, or_comm]

theorem clsWith_emits {t : Target} {path : List String} {nested : Bool} {head : ClassHead}
    {members : List Member} {rest : Writer} {pen after : Pen} {lines : List Placed}
    (hrest : ∀ {pen after lines}, rest pen = ⟨lines, after, none⟩ →
      ∃ img, Defines (path ++ [head.name.text]) lines img ∧
        Emits t (otherDecls (path ++ [head.name.text]) members) img)
    (h : t.clsWith nested head members rest pen = ⟨lines, after, none⟩) :
    ∃ img, Defines path lines img ∧ Emits t ((ClassDecl.mk head members).decls path) img := by
  obtain ⟨b, -, h₁⟩ := Writer.need_whole_iff.mp h
  rcases hd : b.details with ⟨_, _, _⟩ | ⟨_, _, _, _, _⟩ | ⟨_, _⟩
  all_goals simp only [hd] at h₁
  · obtain ⟨_, _, _, hline, hblock, rfl⟩ := Writer.append_whole_iff.mp h₁
    cases hline
    obtain ⟨inner, left, xs, j, k, hinner, rfl⟩ := Writer.block_whole hblock
    obtain ⟨_, _, _, h₂, hctor, rfl⟩ := Writer.append_whole_iff.mp hinner
    obtain ⟨_, _, _, hfields, hmembers, rfl⟩ := Writer.append_whole_iff.mp h₂
    obtain ⟨x, hx, hex⟩ := fields_emits (path ++ [head.name.text]) hfields
    obtain ⟨y, hy, hey⟩ := hrest hmembers
    have hall := (hex.append hey).reorder (allDecls_perm _ _)
      (by rw [Decl.methods_append, methods_ownFields, methods_otherDecls, List.nil_append])
    refine ⟨_, defines_cls ((hx.append hy).append ?_), hall.cls _ head⟩
    split at hctor
    · next hst =>
      cases hctor
      rw [if_pos hst]
      exact .nil
    · next hst =>
      rw [if_neg hst]
      exact defaultCtor_defines _ hctor
  · cases h₁
  · cases h₁

mutual

theorem member_emits {t : Target} : ∀ {path : List String} {m : Member} {pen after : Pen}
    {lines : List Placed}, t.member m pen = ⟨lines, after, none⟩ →
      ∃ img, Defines path lines img ∧ Emits t (otherDecls path [m]) img
  | path, .method m, _, _, _, h => by
    rw [Target.member] at h
    obtain ⟨d, hd, hdef⟩ := method_defines path h
    have hone : otherDecls path [.method m] = [.method path m] := by
      simp [otherDecls, Member.decls]
    rw [hone]
    exact ⟨_, hdef, by simp, ⟨[], .refl _, .nil⟩, .cons hd .nil, by simp⟩
  | _, .field _, _, _, _, h => by
    rw [Target.member] at h
    cases h
    exact ⟨_, .nil, .nil⟩
  | path, .nested head members, _, _, _, h => by
    rw [Target.member] at h
    have hone : otherDecls path [.nested head members] =
        (ClassDecl.mk head members).decls path := by
      simp [otherDecls, Member.decls, ClassDecl.decls]
    rw [hone]
    exact clsWith_emits (fun hm => members_emits hm) h

theorem members_emits {t : Target} : ∀ {path : List String} {ms : List Member} {pen after : Pen}
    {lines : List Placed}, t.members ms pen = ⟨lines, after, none⟩ →
      ∃ img, Defines path lines img ∧ Emits t (otherDecls path ms) img
  | _, [], _, _, _, h => by
    rw [Target.members] at h
    cases h
    exact ⟨_, .nil, .nil⟩
  | path, m :: rest, _, _, _, h => by
    rw [Target.members] at h
    obtain ⟨_, _, _, hm, hrest, rfl⟩ := Writer.append_whole_iff.mp h
    obtain ⟨x, hx, hex⟩ : ∃ x, Defines path _ x ∧ Emits t (otherDecls path [m]) x :=
      member_emits hm
    obtain ⟨y, hy, hey⟩ : ∃ y, Defines path _ y ∧ Emits t (otherDecls path rest) y :=
      members_emits hrest
    have happ : otherDecls path (m :: rest) = otherDecls path [m] ++ otherDecls path rest := by
      simp [otherDecls]
    rw [happ]
    exact ⟨_, hx.append hy, hex.append hey⟩

end

/-- Assembly defines what its unit declares. -/
theorem assemble_emits {u : CompilationUnit} {c : ClassDecl} {r : Resolutions} {options : Options}
    {listing : Listing} (htop : u.top = some c) (h : assemble u r options = .ok listing) :
    Emits ⟨options, r, options.entry.resolve c⟩ u.decls listing.image := by
  simp only [assemble, Generator.unit, htop, Generator.write, Generator.start] at h
  rcases hw : Target.program ⟨options, r, options.entry.resolve c⟩ c Pen.start with
    ⟨lines, pen, fault⟩
  simp only [hw] at h
  cases fault with
  | some fault => cases h
  | none =>
    cases h
    obtain ⟨_, _, body, hpreamble, hcls, rfl⟩ := Writer.append_whole_iff.mp hw
    cases hpreamble
    obtain ⟨img, hdef, hemits⟩ := clsWith_emits (fun hm => members_emits hm) hcls
    rw [CompilationUnit.decls, htop, Option.elim_some]
    change Emits _ _ (Reader.start.readAll body).image
    rw [show Reader.start.readAll body = _ from hdef .empty, Image.empty_append]
    exact hemits

end Lowering

end ClassLang
