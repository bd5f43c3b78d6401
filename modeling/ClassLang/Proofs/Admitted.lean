import ClassLang.Proofs.Environment

/-! The law of registration. A declaration is admitted to the scope of the declaration around it
unless its name is taken there; methods may share a name with methods that have other parameters.
What is not admitted gets one report of its kind, and is passed over with all it contains. -/
namespace ClassLang

inductive SiteKind where
  | cls
  | method (params : List TypeExpr)
  | param
  | var

def SiteKind.overloads : SiteKind → Symbol → Bool
  | .method params, earlier => earlier.isMethod && !Registration.sameParams params earlier
  | _, _ => false

/-- One declared name: a class, a method, a parameter, or a declarator of fields or locals. -/
structure Site where
  kind : SiteKind
  name : Name
  symbol : Option Symbol

namespace Site

def symbols (sites : List Site) : List Symbol := sites.filterMap symbol

/-- Whether the name is free, given what was registered earlier in the scope. -/
def isAdmitted (earlier : List Symbol) (x : Site) : Bool :=
  earlier.all fun b => b.name != x.name.text || x.kind.overloads b

def problem (x : Site) : Problem :=
  match x.kind with
  | .cls => .duplicateClass x.name.text
  | .method _ => .duplicateMethod x.name.text
  | .param => .duplicateParam x.name.text
  | .var => .variableRedeclared x.name.text

def rejection (x : Site) : Option Diagnostic :=
  if x.symbol.isSome then none else some ⟨x.problem, x.name.span.start⟩

def rejections (sites : List Site) : List Diagnostic := sites.filterMap rejection

end Site

/-- A declaration whose turn comes in the walk of registration. -/
structure Candidate where
  /-- The declaration around; there is none around the class of the unit. -/
  around : Option Symbol
  /-- What was registered before in the same scope. -/
  earlier : List Symbol
  site : Site

def Opened (k : ScopeId) : Option Symbol → Prop
  | none => k = Table.root
  | some b => b.scope = some k

/-- The declaration has a symbol exactly if it is admitted, and its symbol belongs where it is. -/
structure Candidate.Lawful (c : Candidate) : Prop where
  registered : c.site.symbol.isSome = c.site.isAdmitted c.earlier
  placed : ∀ b, c.site.symbol = some b → b.name = c.site.name.text ∧ Opened b.declaredIn c.around

def Site.candidates (around : Option Symbol) (earlier : List Symbol) : List Site → List Candidate
  | [] => []
  | x :: rest => ⟨around, earlier, x⟩ :: candidates around (earlier ++ x.symbol.toList) rest

def VarDecl.sites (d : VarDecl) : List Site := d.vars.map fun v => ⟨.var, v.name, v.symbol⟩

def Stmt.sites : Stmt → List Site
  | .locals d => d.sites
  | .block .. | .expr .. | .ifThen .. | .ifElse .. | .loop .. | .ret .. | .empty _ => []

def Param.site (p : Param) : Site := ⟨.param, p.name, p.symbol⟩

namespace Method

def site (m : Method) : Site := ⟨.method (m.params.map Param.type), m.name, m.symbol⟩

/-- What is declared in the scope of a method: its parameters, then its locals. -/
def varSites (m : Method) : List Site :=
  m.params.map Param.site ++ (Stmt.allParts (m.body.getD [])).flatMap Stmt.sites

def candidates (around : Option Symbol) (earlier : List Symbol) (m : Method) : List Candidate :=
  ⟨around, earlier, m.site⟩ :: m.symbol.elim [] fun b => Site.candidates (some b) [] m.varSites

end Method

def ClassHead.site (head : ClassHead) : Site := ⟨.cls, head.name, head.symbol⟩

namespace Member

def sites : Member → List Site
  | .method m => [m.site]
  | .field d => d.sites
  | .nested head _ => [head.site]

mutual

def candidates (around : Option Symbol) (earlier : List Symbol) : Member → List Candidate
  | .method m => m.candidates around earlier
  | .field d => Site.candidates around earlier d.sites
  | .nested head members =>
    ⟨around, earlier, head.site⟩ :: head.symbol.elim [] fun b => allCandidates (some b) [] members

def allCandidates (around : Option Symbol) (earlier : List Symbol) : List Member → List Candidate
  | [] => []
  | m :: rest =>
    m.candidates around earlier ++ allCandidates around (earlier ++ Site.symbols m.sites) rest

end

end Member

/-- The declarations all around which were registered, in the order of the walk. -/
def CompilationUnit.candidates (tag : Nat) (u : CompilationUnit) : List Candidate :=
  u.top.elim [] fun c =>
    Member.candidates none [Table.systemClass tag] (.nested c.head c.members)

open Registration (modifierProblems unsupportedHead)

def VarDecl.fieldReports (d : VarDecl) : List Diagnostic :=
  Diagnostic.allAt d.span.start (modifierProblems d.names d.modifiers) ++ Site.rejections d.sites

def VarDecl.localReports (d : VarDecl) : List Diagnostic :=
  (if d.modifiers.isEmpty then []
    else [⟨.badModifiers d.names "local variables take no modifiers", d.span.start⟩]) ++
  Site.rejections d.sites

def Stmt.reports : Stmt → List Diagnostic
  | .locals d => d.localReports
  | .block .. | .expr .. | .ifThen .. | .ifElse .. | .loop .. | .ret .. | .empty _ => []

def Method.varReports (m : Method) : List Diagnostic :=
  Site.rejections (m.params.map Param.site) ++
    (Stmt.allParts (m.body.getD [])).flatMap Stmt.reports

def Method.reports (m : Method) : List Diagnostic :=
  Diagnostic.allAt m.name.span.start (modifierProblems m.name.text m.modifiers) ++
    m.site.rejection.toList ++ m.symbol.elim [] fun _ => m.varReports

def ClassHead.reports (head : ClassHead) : List Diagnostic :=
  Diagnostic.allAt head.name.span.start (modifierProblems head.name.text head.modifiers) ++
    unsupportedHead head ++ head.site.rejection.toList

namespace Member

mutual

def reports : Member → List Diagnostic
  | .method m => m.reports
  | .field d => d.fieldReports
  | .nested head members => head.reports ++ head.symbol.elim [] fun _ => allReports members

def allReports : List Member → List Diagnostic
  | [] => []
  | m :: rest => m.reports ++ allReports rest

end

end Member

def CompilationUnit.reports (u : CompilationUnit) : List Diagnostic :=
  u.top.elim [] fun c => Member.reports (.nested c.head c.members)

def Problem.isRejection : Problem → Bool
  | .variableRedeclared _ | .duplicateClass _ | .duplicateMethod _ | .duplicateParam _ => true
  | _ => false

namespace Registration

theorem declare_decides {s s' : State} {name : Name} {details : Details} {scope : Option ScopeId}
    {answer : Option Symbol} (h : s.declare name details scope = (s', answer)) :
    answer.isSome = Table.admits (s.table.members s.table.current name.text)
        (made s name details scope) ∧ s'.diagnostics = s.diagnostics := by
  unfold State.declare at h
  dsimp only at h
  split at h
  · next table hbind =>
    cases h
    exact ⟨(Table.bind_ok_inv hbind).1.symm, rfl⟩
  · next clash hbind =>
    cases h
    exact ⟨(Table.bind_eq_error_iff.mp hbind).1.symm, rfl⟩

theorem declare_ne_none {s s' : State} {name : Name} {details : Details} {scope : Option ScopeId}
    (hfree : (s.table.members s.table.current name.text).isEmpty = true) :
    s.declare name details scope ≠ (s', none) := by
  intro hd
  have hnone := (declare_decides hd).1
  rw [Table.admits, hfree] at hnone
  cases hnone

structure Decides (s s' : State) (x : Site) : Prop where
  registered : x.symbol.isSome = (s.table.members s.table.current x.name.text).all x.kind.overloads
  diagnostics : s'.diagnostics = s.diagnostics ++ x.rejection.toList

namespace Decides

variable {s s' : State} {x : Site}

theorem admitted {b : Symbol} (hx : x.symbol = some b)
    (hall : (s.table.members s.table.current x.name.text).all x.kind.overloads = true)
    (hd : s'.diagnostics = s.diagnostics) : Decides s s' x :=
  ⟨by rw [hx, hall, Option.isSome_some], by simp [Site.rejection, hx, hd]⟩

theorem rejected (hx : x.symbol = none)
    (hall : (s.table.members s.table.current x.name.text).all x.kind.overloads = false)
    (hd : s'.diagnostics = s.diagnostics) :
    Decides s (s'.report x.problem x.name.span.start) x :=
  ⟨by rw [hx, hall, Option.isSome_none], by simp [Site.rejection, hx, State.report, hd]⟩

end Decides

theorem all_overloads_eq_isEmpty {k : SiteKind} (h : ∀ b, k.overloads b = false)
    (bound : List Symbol) : bound.all k.overloads = bound.isEmpty := by
  cases bound <;> simp [h]

theorem registerVar_decides {home : Home} {type : TypeExpr} {v v' : Declarator} {s s' : State}
    (hv : v.symbol = none) (h : registerVar home type v s = ⟨v', .ok (), s'⟩) :
    Decides s s' ⟨.var, v'.name, v'.symbol⟩ := by
  have hall := all_overloads_eq_isEmpty (k := .var) (fun _ => rfl)
    (s.table.members s.table.current v.name.text)
  unfold registerVar at h
  dsimp only at h
  split at h
  · next hfree =>
    rw [Home.take_eq] at h
    split at h
    · next s1 hd => exact absurd hd (declare_ne_none hfree)
    · next s1 b hd =>
      rw [hv] at h
      cases h
      exact .admitted rfl (hall.trans hfree) (declare_decides hd).2
  · next htaken =>
    cases h
    exact Decides.rejected (s := s) (x := ⟨.var, v.name, v.symbol⟩) hv
      (hall.trans (Bool.eq_false_iff.mpr htaken)) rfl

theorem registerParam_decides {index : UInt16} {p p' : Param} {s s' : State}
    (hp : p.symbol = none) (h : registerParam index p s = ⟨p', .ok (), s'⟩) :
    Decides s s' p'.site := by
  have hall := all_overloads_eq_isEmpty (k := .param) (fun _ => rfl)
    (s.table.members s.table.current p.name.text)
  unfold registerParam at h
  dsimp only at h
  split at h
  · have hadmits : Table.admits (s.table.members s.table.current p.name.text)
        (made s p.name (.var p.type (.param index)) none) =
          (s.table.members s.table.current p.name.text).isEmpty := by
      simp [Table.admits, made, Table.newSymbol, Symbol.isMethod, Symbol.kind]
    split at h
    · next s1 hd =>
      cases h
      obtain ⟨hnone, hdiag⟩ := declare_decides hd
      exact Decides.rejected (x := p.site) hp (hall.trans (hadmits.symm.trans hnone.symm)) hdiag
    · next s1 b hd =>
      rw [hp] at h
      cases h
      obtain ⟨hsome, hdiag⟩ := declare_decides hd
      exact .admitted rfl (hall.trans (hadmits.symm.trans hsome.symm)) hdiag
  · next htaken =>
    cases h
    refine Decides.rejected (s := s) (x := p.site) hp (hall.trans ?_) rfl
    cases hm : s.table.members s.table.current p.name.text with
    | nil => simp [Table.localsOf, hm] at htaken
    | cons b rest => rfl

def Holds (s : State) (earlier : List Symbol) : Prop :=
  ∀ x, s.table.members s.table.current x = earlier.filter fun b => b.name == x

theorem Holds.after {s s' : State} {earlier added : List Symbol} (h : Holds s earlier)
    (ha : Adds s s' added) (hin : ∀ b ∈ added, b.declaredIn = s.table.current) :
    Holds s' (earlier ++ added) := by
  intro x
  rw [ha.current, ha.members, h x, List.filter_append]
  congr 1
  refine List.filter_congr fun b hb => ?_
  simp [hin b hb]

structure Walks (s s' : State) (cs : List Candidate) (reports : List Diagnostic) : Prop where
  lawful : ∀ c ∈ cs, c.Lawful
  diagnostics : s'.diagnostics = s.diagnostics ++ reports

namespace Walks

variable {s s' s'' : State} {a b : List Candidate} {x y : List Diagnostic}

theorem nil (s : State) : Walks s s [] [] := ⟨by simp, by simp⟩

theorem trans (h : Walks s s' a x) (k : Walks s' s'' b y) : Walks s s'' (a ++ b) (x ++ y) :=
  ⟨List.forall_mem_append.mpr ⟨h.lawful, k.lawful⟩,
    by rw [k.diagnostics, h.diagnostics, List.append_assoc]⟩

theorem of_reports (h : Walks s' s'' a x) (hd : s'.diagnostics = s.diagnostics ++ y) :
    Walks s s'' a (y ++ x) := ⟨h.lawful, by rw [h.diagnostics, hd, List.append_assoc]⟩

end Walks

theorem Decides.walks {s s' : State} {x : Site} {around : Option Symbol} {earlier : List Symbol}
    (h : Decides s s' x) (hh : Holds s earlier)
    (hplaced : ∀ b, x.symbol = some b → b.name = x.name.text ∧ Opened b.declaredIn around) :
    Walks s s' [⟨around, earlier, x⟩] x.rejection.toList := by
  refine ⟨List.forall_mem_singleton.mpr ⟨?_, hplaced⟩, h.diagnostics⟩
  rw [h.registered, hh, List.all_filter]
  rfl

theorem candidates_append (around : Option Symbol) (a b : List Site) : ∀ earlier : List Symbol,
    Site.candidates around earlier (a ++ b) = Site.candidates around earlier a ++
      Site.candidates around (earlier ++ Site.symbols a) b := by
  induction a with
  | nil => simp [Site.candidates, Site.symbols]
  | cons x a ih =>
    intro earlier
    have hsymbols : Site.symbols (x :: a) = x.symbol.toList ++ Site.symbols a := by
      cases hx : x.symbol <;> simp [Site.symbols, hx]
    simp [Site.candidates, ih, hsymbols]

@[simp] theorem rejections_append (a b : List Site) :
    Site.rejections (a ++ b) = Site.rejections a ++ Site.rejections b := by
  simp [Site.rejections]

theorem rejections_cons (x : Site) (rest : List Site) :
    Site.rejections (x :: rest) = x.rejection.toList ++ Site.rejections rest := by
  cases hx : x.rejection <;> simp [Site.rejections, hx]

theorem registerVar_each_walks {home : Home} {type : TypeExpr} {around : Option Symbol}
    {vars : List Declarator} : ∀ {vars' : List Declarator} {s s' : State} {earlier : List Symbol},
    s.table.Sound → home.Is s.table → (∀ v ∈ vars, v.symbol = none) → Holds s earlier →
      Opened s.table.current around →
      Visit.each (registerVar home type) vars s = ⟨vars', .ok (), s'⟩ →
      Walks s s' (Site.candidates around earlier (vars'.map fun v => ⟨.var, v.name, v.symbol⟩))
        (Site.rejections (vars'.map fun v => ⟨.var, v.name, v.symbol⟩)) := by
  induction vars with
  | nil =>
    intro vars' s s' earlier _ _ _ _ _ h
    cases h
    exact .nil s
  | cons v vars ih =>
    intro vars' s s' earlier hs hh hv hholds ho h
    obtain ⟨v', _, s1, h1, h2⟩ := Visit.part_ok_iff.mp h
    obtain ⟨rest, hrest, rfl⟩ := Visit.within_ok_iff.mp h2
    rw [List.forall_mem_cons] at hv
    obtain ⟨-, hl⟩ := registerVar_lays hs hh hv.1 h1
    have hplaced : ∀ b, v'.symbol = some b → b.name = v'.name.text ∧
        b.declaredIn = s.table.current := fun b hb => by
      obtain ⟨hname, hin, -⟩ := hl.placed.of_mem List.mem_cons_self hb
      exact ⟨hname, hin⟩
    have hsymbols : VarSlot.symbols [⟨v'.name.text, type, v'.symbol⟩] = v'.symbol.toList := by
      cases hb : v'.symbol <;> simp [VarSlot.symbols]
    have hholds1 : Holds s1 (earlier ++ v'.symbol.toList) :=
      hholds.after (hsymbols ▸ hl.adds) fun b hb => (hplaced b (Option.mem_toList.mp hb)).2
    have hfirst : Walks s s1 [⟨around, earlier, .var, v'.name, v'.symbol⟩] _ :=
      (registerVar_decides hv.1 h1).walks hholds fun b hb =>
        ⟨(hplaced b hb).1, (hplaced b hb).2 ▸ ho⟩
    rw [List.map_cons, rejections_cons]
    exact hfirst.trans
      (ih hl.adds.sound (hh.after hl.adds) hv.2 hholds1 (hl.adds.current ▸ ho) hrest)

theorem registerVars_walks {home : Home} {d d' : VarDecl} {around : Option Symbol} {s s' : State}
    {earlier : List Symbol} (hs : s.table.Sound) (hh : home.Is s.table) (hf : d.isFresh = true)
    (hholds : Holds s earlier) (ho : Opened s.table.current around)
    (h : registerVars home d s = ⟨d', .ok (), s'⟩) :
    Walks s s' (Site.candidates around earlier d'.sites) (Site.rejections d'.sites) := by
  obtain ⟨vars, hv, rfl⟩ := Visit.within_ok_iff.mp h
  exact registerVar_each_walks hs hh (symbol_eq_none_of_isFresh hf) hholds ho hv

theorem erase_varDecl_eq {d d' : VarDecl} (h : d'.erase = d.erase) :
    d'.names = d.names ∧ d'.modifiers = d.modifiers ∧ d'.span = d.span := by
  simp only [VarDecl.erase, VarDecl.mk.injEq] at h
  obtain ⟨hmods, -, hvars, hspan⟩ := h
  have hnames := congrArg (List.map fun v : Declarator => v.name.text) hvars
  rw [List.map_map, List.map_map] at hnames
  exact ⟨congrArg (", ".intercalate ·) hnames, hmods, hspan⟩

theorem registerField_walks {path : List String} {d d' : VarDecl} {around : Option Symbol}
    {s s' : State} {earlier : List Symbol} (hs : s.table.Sound)
    (hp : s.table.PathOf s.table.current path) (hf : d.isFresh = true) (hholds : Holds s earlier)
    (ho : Opened s.table.current around) (h : registerField path d s = ⟨d', .ok (), s'⟩) :
    Walks s s' (Site.candidates around earlier d'.sites) d'.fieldReports := by
  obtain ⟨he, -⟩ := registerField_lays hs hp hf h
  obtain ⟨hnames, hmods, hspan⟩ := erase_varDecl_eq he
  rw [VarDecl.fieldReports, hnames, hmods, hspan]
  have hh : Home.Is s.table (.cls (Modifier.isStatic d.modifiers) path) := hp
  have hwalks := registerVars_walks
    (s := s.reportAll (modifierProblems d.names d.modifiers) d.span.start) hs hh hf hholds ho h
  exact hwalks.of_reports rfl

theorem registerLocals_walks {d d' : VarDecl} {around : Option Symbol} {s s' : State}
    {earlier : List Symbol} (hs : s.table.Sound) (hb : Home.Is s.table .method)
    (hf : d.isFresh = true) (hholds : Holds s earlier) (ho : Opened s.table.current around)
    (h : registerLocals d s = ⟨d', .ok (), s'⟩) :
    Walks s s' (Site.candidates around earlier d'.sites) d'.localReports := by
  obtain ⟨he, -⟩ := registerLocals_lays hs hb hf h
  obtain ⟨hnames, hmods, hspan⟩ := erase_varDecl_eq he
  rw [VarDecl.localReports, hnames, hmods, hspan]
  unfold registerLocals at h
  split at h
  · next hempty =>
    rw [if_pos hempty]
    exact registerVars_walks hs hb hf hholds ho h
  · next hsome =>
    rw [if_neg hsome]
    have hwalks := registerVars_walks
      (s := s.report (.badModifiers d.names "local variables take no modifiers") d.span.start)
      hs hb hf hholds ho h
    exact hwalks.of_reports rfl

end Registration

theorem VarDecl.symbols_sites (d : VarDecl) : Site.symbols d.sites = VarSlot.symbols d.slots := by
  simp only [Site.symbols, sites, VarSlot.symbols, slots, List.filterMap_map]
  rfl

namespace Stmt

mutual

theorem symbols_sites : ∀ stmt : Stmt,
    Site.symbols (stmt.parts.flatMap sites) = VarSlot.symbols stmt.slots
  | .block body _ => by simpa [parts, sites, slots] using symbols_allSites body
  | .locals d => by simpa [parts, sites, slots] using d.symbols_sites
  | .ifThen _ thenBody _ => by simpa [parts, sites, slots] using symbols_sites thenBody
  | .ifElse _ thenBody elseBody _ => by
    have hthen := symbols_sites thenBody
    have helse := symbols_sites elseBody
    simp only [Site.symbols] at hthen helse
    simp [parts, sites, slots, Site.symbols, hthen, helse]
  | .loop _ body _ => by simpa [parts, sites, slots] using symbols_sites body
  | .expr .. | .ret .. | .empty _ => by
    simp [parts, sites, slots, Site.symbols, VarSlot.symbols]

theorem symbols_allSites : ∀ body : List Stmt,
    Site.symbols ((allParts body).flatMap sites) = VarSlot.symbols (allSlots body)
  | [] => by simp [allParts, allSlots, Site.symbols, VarSlot.symbols]
  | stmt :: rest => by
    have hstmt := symbols_sites stmt
    have hrest := symbols_allSites rest
    simp only [Site.symbols] at hstmt hrest
    simp [allParts, allSlots, Site.symbols, hstmt, hrest]

end

end Stmt

namespace Registration

/-- The locals of a statement are bound in the scope of their method. -/
theorem Holds.afterLocals {s s' : State} {earlier : List Symbol} {slots : List VarSlot}
    (h : Holds s earlier) (hl : Lays .method s s' slots) :
    Holds s' (earlier ++ VarSlot.symbols slots) := by
  refine h.after hl.adds fun b hb => ?_
  obtain ⟨v, hv, hvb⟩ := List.mem_filterMap.mp hb
  exact (hl.placed.of_mem hv hvb).2.1

mutual

theorem registerStmt_walks {stmt stmt' : Stmt} {around : Option Symbol} {s s' : State}
    {earlier : List Symbol} (hs : s.table.Sound) (hb : Home.Is s.table .method)
    (hf : stmt.isFresh = true) (hholds : Holds s earlier) (ho : Opened s.table.current around)
    (h : registerStmt stmt s = ⟨stmt', .ok (), s'⟩) :
    Walks s s' (Site.candidates around earlier (stmt'.parts.flatMap Stmt.sites))
      (stmt'.parts.flatMap Stmt.reports) := by
  cases stmt with
  | block body span =>
    rw [registerStmt] at h
    obtain ⟨body', hbody, rfl⟩ := Visit.within_ok_iff.mp h
    rw [Stmt.isFresh] at hf
    simpa only [Stmt.parts, List.flatMap_cons, Stmt.sites, Stmt.reports, List.nil_append] using
      registerStmts_walks hs hb hf hholds ho hbody
  | locals d =>
    rw [registerStmt] at h
    obtain ⟨d', hd, rfl⟩ := Visit.within_ok_iff.mp h
    rw [Stmt.isFresh] at hf
    simpa only [Stmt.parts, List.flatMap_singleton, Stmt.sites, Stmt.reports] using
      registerLocals_walks hs hb hf hholds ho hd
  | ifThen cond thenBody span =>
    rw [registerStmt] at h
    obtain ⟨then', hthen, rfl⟩ := Visit.within_ok_iff.mp h
    rw [Stmt.isFresh, Bool.and_eq_true] at hf
    simpa only [Stmt.parts, List.flatMap_cons, Stmt.sites, Stmt.reports, List.nil_append] using
      registerStmt_walks hs hb hf.2 hholds ho hthen
  | ifElse cond thenBody elseBody span =>
    rw [registerStmt] at h
    obtain ⟨then', _, s1, hthen, h⟩ := Visit.part_ok_iff.mp h
    obtain ⟨else', helse, rfl⟩ := Visit.within_ok_iff.mp h
    rw [Stmt.isFresh, Bool.and_eq_true, Bool.and_eq_true] at hf
    obtain ⟨-, hl⟩ := registerStmt_lays hs hb hf.1.2 hthen
    have hholds1 := hholds.afterLocals hl
    rw [← Stmt.symbols_sites] at hholds1
    have hwalk := registerStmt_walks hs hb hf.1.2 hholds ho hthen
    have hwalk' := registerStmt_walks hl.adds.sound (hb.after hl.adds) hf.2 hholds1
      (hl.adds.current ▸ ho) helse
    simpa only [Stmt.parts, List.flatMap_cons, Stmt.sites, Stmt.reports, List.nil_append,
      List.flatMap_append, candidates_append] using hwalk.trans hwalk'
  | loop cond body span =>
    rw [registerStmt] at h
    obtain ⟨body', hbody, rfl⟩ := Visit.within_ok_iff.mp h
    rw [Stmt.isFresh, Bool.and_eq_true] at hf
    simpa only [Stmt.parts, List.flatMap_cons, Stmt.sites, Stmt.reports, List.nil_append] using
      registerStmt_walks hs hb hf.2 hholds ho hbody
  | expr value span type =>
    rw [registerStmt] at h
    · cases h
      exact .nil s
    all_goals simp
  | ret value span =>
    rw [registerStmt] at h
    · cases h
      exact .nil s
    all_goals simp
  | empty span =>
    rw [registerStmt] at h
    · cases h
      exact .nil s
    all_goals simp

theorem registerStmts_walks {body body' : List Stmt} {around : Option Symbol} {s s' : State}
    {earlier : List Symbol} (hs : s.table.Sound) (hb : Home.Is s.table .method)
    (hf : Stmt.allFresh body = true) (hholds : Holds s earlier)
    (ho : Opened s.table.current around) (h : registerStmts body s = ⟨body', .ok (), s'⟩) :
    Walks s s' (Site.candidates around earlier ((Stmt.allParts body').flatMap Stmt.sites))
      ((Stmt.allParts body').flatMap Stmt.reports) := by
  cases body with
  | nil =>
    rw [registerStmts] at h
    cases h
    exact .nil s
  | cons stmt rest =>
    rw [registerStmts] at h
    obtain ⟨stmt', _, s1, hstmt, h⟩ := Visit.part_ok_iff.mp h
    obtain ⟨rest', hrest, rfl⟩ := Visit.within_ok_iff.mp h
    rw [Stmt.allFresh, Bool.and_eq_true] at hf
    obtain ⟨-, hl⟩ := registerStmt_lays hs hb hf.1 hstmt
    have hholds1 := hholds.afterLocals hl
    rw [← Stmt.symbols_sites] at hholds1
    have hwalk := registerStmt_walks hs hb hf.1 hholds ho hstmt
    have hwalk' := registerStmts_walks hl.adds.sound (hb.after hl.adds) hf.2 hholds1
      (hl.adds.current ▸ ho) hrest
    simpa only [Stmt.allParts, List.flatMap_append, candidates_append] using hwalk.trans hwalk'

end

theorem registerParams_walks {around : Option Symbol} {params : List Param} :
    ∀ {index : UInt16} {params' : List Param} {s s' : State} {earlier : List Symbol},
    s.table.Sound → Home.Is s.table .method → (∀ p ∈ params, p.symbol = none) → Holds s earlier →
      Opened s.table.current around → registerParams index params s = ⟨params', .ok (), s'⟩ →
      Walks s s' (Site.candidates around earlier (params'.map Param.site))
        (Site.rejections (params'.map Param.site)) := by
  induction params with
  | nil =>
    intro index params' s s' earlier _ _ _ _ _ h
    cases h
    exact .nil s
  | cons p params ih =>
    intro index params' s s' earlier hs hb hp hholds ho h
    obtain ⟨p', _, s1, h1, h2⟩ := Visit.part_ok_iff.mp h
    obtain ⟨rest, hrest, rfl⟩ := Visit.within_ok_iff.mp h2
    rw [List.forall_mem_cons] at hp
    obtain ⟨-, ha, -, hplaced, -⟩ := registerParam_adds hs hb hp.1 h1
    have hholds1 : Holds s1 (earlier ++ p'.symbol.toList) :=
      hholds.after ha fun b hb' => (hplaced b (Option.mem_toList.mp hb')).2.1
    have hfirst : Walks s s1 [⟨around, earlier, p'.site⟩] _ :=
      (registerParam_decides hp.1 h1).walks hholds fun b hb' =>
        ⟨(hplaced b hb').1, (hplaced b hb').2.1 ▸ ho⟩
    rw [List.map_cons, rejections_cons]
    exact hfirst.trans (ih ha.sound (hb.after ha) hp.2 hholds1 (ha.current ▸ ho) hrest)

theorem registerMethodBody_walks {m m' : Method} {around : Option Symbol} {s s' : State}
    (hs : s.table.Sound) (hb : Home.Is s.table .method) (hp : ∀ p ∈ m.params, p.symbol = none)
    (hf : m.body.all Stmt.allFresh = true) (hholds : Holds s [])
    (ho : Opened s.table.current around) (h : registerMethodBody m s = ⟨m', .ok (), s'⟩) :
    Walks s s' (Site.candidates around [] m'.varSites) m'.varReports := by
  obtain ⟨params, _, s1, hparams, hrest⟩ := Visit.part_ok_iff.mp h
  obtain ⟨-, ha, -, hplaced, -⟩ := registerParams_adds hs hb hp hparams
  have hwalk := registerParams_walks hs hb hp hholds ho hparams
  have hholds1 : Holds s1 ([] ++ Site.symbols (params.map Param.site)) := by
    have hsymbols : Site.symbols (params.map Param.site) = params.filterMap Param.symbol := by
      simp only [Site.symbols, List.filterMap_map]
      rfl
    rw [hsymbols]
    refine hholds.after ha fun b hbm => ?_
    obtain ⟨p, hpm, hpb⟩ := List.mem_filterMap.mp hbm
    exact (hplaced.of_mem hpm hpb).2.1
  cases hbody : m.body with
  | none =>
    simp only [hbody] at hrest
    cases hrest
  | some body =>
    simp only [hbody] at hrest
    obtain ⟨body', hstmts, rfl⟩ := Visit.within_ok_iff.mp hrest
    rw [hbody] at hf
    have hwalk' := registerStmts_walks ha.sound (hb.after ha) hf hholds1 (ha.current ▸ ho) hstmts
    simpa only [Method.varSites, Method.varReports, Option.getD_some, candidates_append] using
      hwalk.trans hwalk'

/-- A method goes beside methods only, and only if none of them has its parameters. -/
theorem all_overloads_method (t : Table) (name : String) (params : List TypeExpr) :
    (t.members t.current name).all (SiteKind.method params).overloads =
      (!(t.localsOf name .method).any (sameParams params) &&
        (t.members t.current name).all Symbol.isMethod) := by
  rw [Bool.eq_iff_iff, Table.localsOf]
  simp only [SiteKind.overloads, List.all_eq_true, Bool.and_eq_true, Bool.not_eq_true',
    List.any_eq_false, List.mem_filter, Symbol.isMethod, Bool.not_eq_true, and_imp]
  constructor
  · intro h
    exact ⟨fun b hb _ => (h b hb).2, fun b hb => (h b hb).1⟩
  · intro h b hb
    exact ⟨h.2 b hb, h.1 b hb (h.2 b hb)⟩

/-- Once no method has its parameters, a method is bound exactly if only methods have its name. -/
theorem all_overloads_eq_admits {r : State} {m : Method} {path : List String}
    (h : ¬ (r.table.localsOf m.name.text .method).any (sameParams (m.params.map Param.type)) =
      true) :
    (r.table.members r.table.current m.name.text).all
        (SiteKind.method (m.params.map Param.type)).overloads =
      Table.admits ((r.table.openScope m.name.text).2.members r.table.current m.name.text)
        (made { r with table := (r.table.openScope m.name.text).2 } m.name
          (.method (m.params.map Param.type) m.returns m.modifiers path none)
          (some r.table.scopes.length)) := by
  rw [all_overloads_method, Bool.eq_false_iff.mpr h, Table.members_openScope]
  cases hm : r.table.members r.table.current m.name.text <;>
    simp [Table.admits, made, Table.newSymbol, Symbol.isMethod, Symbol.kind]

/-- A declaration that was admitted, and what was declared in its new scope after that. -/
theorem Opens.walks {r s s' : State} {details : Details} {b : Symbol} {x : Site}
    {around : Option Symbol} {earlier : List Symbol} {inner : List Candidate}
    {reports : List Diagnostic} {n : UInt16} (h : Opens r s x.name.text details b)
    (hx : x.symbol = some b)
    (hall : (r.table.members r.table.current x.name.text).all x.kind.overloads = true)
    (hd : s.diagnostics = r.diagnostics) (hholds : Holds r earlier)
    (hopen : Opened r.table.current around)
    (k : Walks { s.moveTo r.table.scopes.length with nextSlot := n } s' inner reports) :
    Walks r (s'.moveTo r.table.current) (⟨around, earlier, x⟩ :: inner) reports := by
  have hown : Walks r s [⟨around, earlier, x⟩] _ := (Decides.admitted hx hall hd).walks hholds (by
    rw [hx]
    rintro _ ⟨⟩
    exact ⟨h.name, h.declaredIn ▸ hopen⟩)
  have hboth : Walks r s' _ _ := hown.trans ⟨k.lawful, k.diagnostics⟩
  exact ⟨hboth.lawful, by simpa [Site.rejection, hx, State.moveTo] using hboth.diagnostics⟩

theorem registerMethod_walks {path : List String} {m m' : Method} {around : Option Symbol}
    {s s' : State} {earlier : List Symbol} (hs : s.table.Sound)
    (hp : s.table.PathOf s.table.current path) (hf : m.isFresh = true) (hholds : Holds s earlier)
    (hopen : Opened s.table.current around) (h : registerMethod path m s = ⟨m', .ok (), s'⟩) :
    Walks s s' (m'.candidates around earlier) m'.reports := by
  simp only [Method.isFresh, Bool.and_eq_true, Option.isNone_iff_eq_none, List.all_eq_true] at hf
  obtain ⟨⟨hsym, hparams⟩, hbody⟩ := hf
  unfold registerMethod at h
  dsimp only at h
  generalize hr : s.reportAll (modifierProblems m.name.text m.modifiers) m.name.span.start = r at h
  have htable : r.table = s.table := by rw [← hr]; rfl
  have hreported : r.diagnostics = s.diagnostics ++
      Diagnostic.allAt m.name.span.start (modifierProblems m.name.text m.modifiers) := by
    rw [← hr]
    rfl
  rw [← htable] at hs hp hopen
  replace hholds : Holds r earlier := fun x => by
    rw [htable]
    exact hholds x
  have hpassed : ∀ {s'}, Decides r s' m.site →
      Walks s s' (m.candidates around earlier) m.reports := by
    intro s' hdecides
    have hwalk : Walks r s' [⟨around, earlier, m.site⟩] _ :=
      hdecides.walks hholds (by simp [Method.site, hsym])
    simpa [Method.candidates, Method.reports, hsym] using hwalk.of_reports hreported
  split at h
  · next hsame =>
    cases h
    refine hpassed (Decides.rejected (s := r) (x := m.site) hsym ?_ rfl)
    refine (all_overloads_method r.table m.name.text (m.params.map Param.type)).trans ?_
    rw [hsame, Bool.not_true, Bool.false_and]
  · next hsame =>
    have hfit : (r.table.openScope m.name.text).2.Fits
        (made { r with table := (r.table.openScope m.name.text).2 } m.name
          (.method (m.params.map Param.type) m.returns m.modifiers path none)
          (some r.table.scopes.length)) := Table.PathOf.mono (by simp) hp
    split at h
    · next s1 hd =>
      cases h
      obtain ⟨hnone, hdiag⟩ := declare_decides hd
      exact hpassed (Decides.rejected (s := r) (x := m.site) hsym
        ((all_overloads_eq_admits hsame).trans hnone.symm) hdiag)
    · next s1 b hd =>
      obtain ⟨hsome, hdiag⟩ := declare_decides hd
      obtain ⟨-, ho⟩ := declare_opened hs (hp.not_isBody hs) hfit (unlike_of_localsOf hsame) hd
      replace ho := ho b rfl
      rw [hsym] at h
      obtain ⟨m1, _, s2, h1, h2⟩ := Visit.part_ok_iff.mp h
      cases h2
      have hin : (s1.moveTo r.table.scopes.length).table.Sound := ho.adds.sound.moveTo ho.inside
      have hbod : Home.Is (s1.moveTo r.table.scopes.length).table .method :=
        ⟨b, (ho.adds.bound _).mpr (Or.inr List.mem_cons_self),
          by simp [Symbol.isMethod, Symbol.kind, ho.details], ho.scope⟩
      obtain ⟨he, hkeep, -⟩ := registerMethodBody_fills (m := { m with symbol := some b })
        (s := { s1.moveTo r.table.scopes.length with nextSlot := 0 }) hin hbod hparams hbody rfl h1
      have hinner : Walks _ s2 (Site.candidates (some b) [] m'.varSites) m'.varReports :=
        registerMethodBody_walks (m := { m with symbol := some b })
          (s := { s1.moveTo r.table.scopes.length with nextSlot := 0 }) hin hbod hparams hbody
          (fun x => ho.empty x) ho.scope h1
      have hkeep : m'.symbol = some b := hkeep
      obtain ⟨hname, -, hmods, htypes⟩ := erase_method_eq he
      have hsite : m'.site = ⟨.method (m.params.map Param.type), m.name, some b⟩ := by
        rw [Method.site, hkeep, hname, htypes]
      have hwalk : Walks r (s2.moveTo r.table.current)
          (⟨around, earlier, m'.site⟩ :: Site.candidates (some b) [] m'.varSites)
          m'.varReports := by
        rw [hsite]
        exact ho.walks rfl ((all_overloads_eq_admits hsame).trans hsome.symm) hdiag hholds hopen
          hinner
      simpa [Method.candidates, Method.reports, hkeep, hname, hmods, hsite, Site.rejection] using
        hwalk.of_reports hreported

theorem registerClassWith_walks {path : List String} {head : ClassHead} {members : List Member}
    {body : List String → Visit State (List Member) Unit} {c : ClassDecl} {around : Option Symbol}
    {s s' : State} {earlier : List Symbol} (hs : s.table.Sound)
    (hp : s.table.PathOf s.table.current path) (hf : head.isFresh = true)
    (hbody : ∀ {path members' b s s'}, s.table.Sound → s.table.PathOf s.table.current path →
      Holds s [] → Opened s.table.current (some b) → body path s = ⟨members', .ok (), s'⟩ →
        Walks s s' (Member.allCandidates (some b) [] members') (Member.allReports members'))
    (hholds : Holds s earlier) (hopen : Opened s.table.current around)
    (h : registerClassWith path head members body s = ⟨c, .ok (), s'⟩) :
    Walks s s' (Member.candidates around earlier (.nested c.head c.members))
      (Member.reports (.nested c.head c.members)) := by
  rw [ClassHead.isFresh, Option.isNone_iff_eq_none] at hf
  unfold registerClassWith at h
  dsimp only at h
  generalize hq : s.reportAll _ _ = q at h
  obtain ⟨table, reports, slot⟩ := q
  dsimp only at h
  generalize hr : reports ++ unsupportedHead head = reported at h
  have htable : table = s.table := (congrArg State.table hq).symm
  have hreported : reported = s.diagnostics ++ (Diagnostic.allAt head.name.span.start
      (modifierProblems head.name.text head.modifiers) ++ unsupportedHead head) := by
    have hreports : reports = s.diagnostics ++ _ := (congrArg State.diagnostics hq).symm
    rw [← hr, hreports, List.append_assoc]
  rw [← htable] at hs hp hopen
  replace hholds : Holds ⟨table, reported, slot⟩ earlier := fun x => by
    subst htable
    exact hholds x
  have hall := all_overloads_eq_isEmpty (k := .cls) (fun _ => rfl)
    (table.members table.current head.name.text)
  have hpassed : ∀ {s'}, Decides ⟨table, reported, slot⟩ s' head.site →
      Walks s s' (Member.candidates around earlier (.nested head members))
        (Member.reports (.nested head members)) := by
    intro s' hdecides
    have hwalk : Walks _ s' [⟨around, earlier, head.site⟩] _ :=
      hdecides.walks hholds (by simp [ClassHead.site, hf])
    simpa [Member.candidates, Member.reports, ClassHead.reports, hf] using
      hwalk.of_reports hreported
  split at h
  · next hfree =>
    have hfit : (table.openScope head.name.text).2.Fits
        (made ⟨(table.openScope head.name.text).2, reported, slot⟩ head.name
          (.cls (path ++ [head.name.text]) head.modifiers false) (some table.scopes.length)) :=
      ⟨rfl, path, Table.PathOf.mono (by simp) hp, rfl⟩
    split at h
    · next s1 hd =>
      refine absurd hd (declare_ne_none ?_)
      rw [Table.members_openScope]
      exact hfree
    · next s1 b hd =>
      obtain ⟨-, ho⟩ :=
        declare_opened (r := ⟨table, reported, slot⟩) hs (hp.not_isBody hs) hfit
          (.of_isMethod rfl) hd
      replace ho := ho b rfl
      rw [hf] at h
      obtain ⟨members', _, s2, h1, h2⟩ := Visit.part_ok_iff.mp h
      cases h2
      have hin : (s1.moveTo table.scopes.length).table.Sound := ho.adds.sound.moveTo ho.inside
      have hpath : (s1.moveTo table.scopes.length).table.PathOf
          (s1.moveTo table.scopes.length).table.current (path ++ [head.name.text]) :=
        Or.inr ⟨b, _, _, (ho.adds.bound _).mpr (Or.inr List.mem_cons_self), ho.scope, ho.details⟩
      have hinner := hbody (b := b) hin hpath (fun x => ho.empty x) ho.scope h1
      have hwalk : Walks ⟨table, reported, slot⟩ (s2.moveTo table.current)
          (⟨around, earlier, ClassHead.site { head with symbol := some b }⟩ ::
            Member.allCandidates (some b) [] members') (Member.allReports members') :=
        ho.walks (n := s1.nextSlot) (x := ClassHead.site { head with symbol := some b }) rfl
          (hall.trans hfree) (declare_decides hd).2 hholds hopen hinner
      simpa [Member.candidates, Member.reports, ClassHead.reports, ClassHead.site, unsupportedHead,
        Site.rejection] using hwalk.of_reports hreported
  · next htaken =>
    cases h
    exact hpassed (Decides.rejected (s := ⟨table, reported, slot⟩) (x := head.site) hf
      (hall.trans (Bool.eq_false_iff.mpr htaken)) rfl)

end Registration

theorem Member.named_eq {m : Member} {path : List String} (h : ∀ d ∈ m.decls path, d.Placed)
    (x : String) : m.named x = (Site.symbols m.sites).filter fun b => b.name == x := by
  cases m with
  | method m =>
    rw [decls, List.forall_mem_singleton, Decl.Placed] at h
    cases hb : m.symbol with
    | none => simp [named, sites, Site.symbols, Method.site, hb]
    | some b =>
      rw [hb] at h
      simp [named, sites, Site.symbols, Method.site, hb, h.1.1, List.filter_cons]
  | field d =>
    rw [decls, List.forall_mem_singleton, Decl.Placed] at h
    rw [named, sites, d.symbols_sites]
    exact VarSlot.symbols_filter fun v hv b hb => (h v hv b hb).1
  | nested head members =>
    rw [decls, List.forall_mem_cons, Decl.Placed] at h
    cases hb : head.symbol with
    | none => simp [named, sites, Site.symbols, ClassHead.site, hb]
    | some b =>
      simp [named, sites, Site.symbols, ClassHead.site, hb, (h.1 b hb).1, List.filter_cons]

namespace Registration

/-- After a member, the scope of its class binds what it declares besides. -/
theorem Holds.afterMember {s s' : State} {earlier : List Symbol} {m : Member} {path : List String}
    (h : Holds s earlier) (hr : Registers s s' (m.decls path)) (hset : Settles s s' [m]) :
    Holds s' (earlier ++ Site.symbols m.sites) := by
  intro x
  rw [hr.adds.current, hset.members, h x, List.filter_append, ← Member.named_eq hr.placed]
  simp [Member.allNamed]

mutual

theorem registerMember_walks {path : List String} {m m' : Member} {around : Option Symbol}
    {s s' : State} {earlier : List Symbol} (hs : s.table.Sound)
    (hp : s.table.PathOf s.table.current path) (hf : m.isFresh = true) (hholds : Holds s earlier)
    (hopen : Opened s.table.current around) (h : registerMember path m s = ⟨m', .ok (), s'⟩) :
    Walks s s' (m'.candidates around earlier) m'.reports := by
  cases m with
  | method m =>
    rw [registerMember] at h
    obtain ⟨m', hm, rfl⟩ := Visit.within_ok_iff.mp h
    rw [Member.isFresh] at hf
    rw [Member.candidates, Member.reports]
    exact registerMethod_walks hs hp hf hholds hopen hm
  | field d =>
    rw [registerMember] at h
    obtain ⟨d', hd, rfl⟩ := Visit.within_ok_iff.mp h
    rw [Member.isFresh] at hf
    rw [Member.candidates, Member.reports]
    exact registerField_walks hs hp hf hholds hopen hd
  | nested head members =>
    rw [registerMember] at h
    obtain ⟨c, hc, rfl⟩ := Visit.within_ok_iff.mp h
    rw [Member.isFresh, Bool.and_eq_true] at hf
    exact registerClassWith_walks hs hp hf.1
      (fun hs hp hh ho h => registerMembers_walks hs hp hf.2 hh ho h) hholds hopen hc

theorem registerMembers_walks {path : List String} {ms ms' : List Member} {around : Option Symbol}
    {s s' : State} {earlier : List Symbol} (hs : s.table.Sound)
    (hp : s.table.PathOf s.table.current path) (hf : Member.allFresh ms = true)
    (hholds : Holds s earlier) (hopen : Opened s.table.current around)
    (h : registerMembers path ms s = ⟨ms', .ok (), s'⟩) :
    Walks s s' (Member.allCandidates around earlier ms') (Member.allReports ms') := by
  cases ms with
  | nil =>
    rw [registerMembers] at h
    cases h
    rw [Member.allCandidates, Member.allReports]
    exact .nil s
  | cons m rest =>
    rw [registerMembers] at h
    obtain ⟨m', _, s1, hm, h⟩ := Visit.part_ok_iff.mp h
    obtain ⟨rest', hrest, rfl⟩ := Visit.within_ok_iff.mp h
    rw [Member.allFresh, Bool.and_eq_true] at hf
    obtain ⟨-, hr, hset⟩ := registerMember_registers hs hp hf.1 hm
    have hp' : s1.table.PathOf s1.table.current path := by
      rw [hr.adds.current]
      exact hp.mono fun b hb => hr.adds.keeps hb
    rw [Member.allCandidates, Member.allReports]
    exact (registerMember_walks hs hp hf.1 hholds hopen hm).trans
      (registerMembers_walks hr.adds.sound hp' hf.2 (hholds.afterMember hr hset)
        (hr.adds.current ▸ hopen) hrest)

end

theorem registerUnit_walks {u u' : CompilationUnit} {tag : Nat} {reports : List Diagnostic}
    {s : State} (hf : u.isFresh = true)
    (h : registerUnit u (.withSystem tag) reports = ⟨u', .ok (), s⟩) :
    Walks (.start (.withSystem tag) reports) s (u'.candidates tag) u'.reports := by
  obtain ⟨_ | c⟩ := u
  · cases h
  obtain ⟨c', _, s1, h1, h2⟩ := Visit.part_ok_iff.mp h
  cases h2
  rw [CompilationUnit.isFresh, Option.all_some, Bool.and_eq_true] at hf
  have hholds : Holds (.start (.withSystem tag) reports) [Table.systemClass tag] := fun x => by
    refine (Table.members_root_withSystem tag x).trans ?_
    simp [Table.systemClass, List.filter_cons, eq_comm (a := x)]
  have hopen : Opened Table.root none := rfl
  have hwalk := registerClassWith_walks (s := .start (.withSystem tag) reports)
    (Table.sound_withSystem tag) (Or.inl ⟨rfl, rfl⟩) hf.1
    (fun hs hp hh ho h => registerMembers_walks hs hp hf.2 hh ho h) hholds hopen h1
  exact ⟨hwalk.lawful, hwalk.diagnostics⟩

end Registration

namespace Candidate

def rejections (cs : List Candidate) : List Diagnostic := cs.filterMap (·.site.rejection)

def symbols (cs : List Candidate) : List Symbol := cs.filterMap (·.site.symbol)

theorem map_site (around : Option Symbol) (sites : List Site) : ∀ earlier : List Symbol,
    (Site.candidates around earlier sites).map site = sites := by
  induction sites with
  | nil => exact fun _ => rfl
  | cons x rest ih => exact fun _ => congrArg (x :: ·) (ih _)

theorem rejections_candidates (around : Option Symbol) (earlier : List Symbol) (sites : List Site) :
    rejections (Site.candidates around earlier sites) = Site.rejections sites := by
  have h : Site.rejections ((Site.candidates around earlier sites).map site) =
      rejections (Site.candidates around earlier sites) := List.filterMap_map
  rw [← h, map_site]

theorem symbols_candidates (around : Option Symbol) (earlier : List Symbol) (sites : List Site) :
    symbols (Site.candidates around earlier sites) = Site.symbols sites := by
  have h : Site.symbols ((Site.candidates around earlier sites).map site) =
      symbols (Site.candidates around earlier sites) := List.filterMap_map
  rw [← h, map_site]

theorem rejections_cons (c : Candidate) (cs : List Candidate) :
    rejections (c :: cs) = c.site.rejection.toList ++ rejections cs := by
  cases h : c.site.rejection <;> simp [rejections, h]

theorem symbols_cons (c : Candidate) (cs : List Candidate) :
    symbols (c :: cs) = c.site.symbol.toList ++ symbols cs := by
  cases h : c.site.symbol <;> simp [symbols, h]

end Candidate

def Diagnostic.rejections (ds : List Diagnostic) : List Diagnostic :=
  ds.filter fun d => d.problem.isRejection

namespace Diagnostic

@[simp] theorem rejections_append (a b : List Diagnostic) :
    rejections (a ++ b) = rejections a ++ rejections b := List.filter_append ..

@[simp] theorem rejections_modifiers (position : Position) (declared : String)
    (modifiers : List Modifier) :
    rejections (allAt position (modifierProblems declared modifiers)) = [] := by
  rw [rejections, List.filter_eq_nil_iff]
  intro d hd
  obtain ⟨p, hp, rfl⟩ := List.mem_map.mp hd
  unfold modifierProblems at hp
  rcases List.mem_append.mp hp with hp | hp
  · split at hp
    · rw [List.mem_singleton.mp hp]
      exact Bool.false_ne_true
    · cases hp
  · obtain ⟨m, -, rfl⟩ := List.mem_map.mp hp
    exact Bool.false_ne_true

@[simp] theorem rejections_unsupportedHead (head : ClassHead) :
    rejections (unsupportedHead head) = [] := by
  unfold unsupportedHead rejections
  cases head.base <;> cases head.typeParams.isEmpty <;> rfl

@[simp] theorem rejections_rejection (x : Site) :
    rejections x.rejection.toList = x.rejection.toList := by
  unfold Site.rejection
  split
  · rfl
  · unfold Site.problem
    cases x.kind <;> rfl

@[simp] theorem rejections_sites (sites : List Site) :
    rejections (Site.rejections sites) = Site.rejections sites := by
  induction sites with
  | nil => rfl
  | cons x rest ih => simp [Registration.rejections_cons, ih]

end Diagnostic

open Diagnostic (rejections)

theorem VarDecl.rejections_localReports (d : VarDecl) :
    rejections d.localReports = Site.rejections d.sites := by
  rw [localReports, Diagnostic.rejections_append, Diagnostic.rejections_sites]
  cases d.modifiers.isEmpty <;> rfl

theorem Stmt.rejections_reports (body : List Stmt) :
    rejections (body.flatMap reports) = Site.rejections (body.flatMap sites) := by
  induction body with
  | nil => rfl
  | cons stmt rest ih =>
    have hstmt : rejections stmt.reports = Site.rejections stmt.sites := by
      cases stmt <;> first | exact VarDecl.rejections_localReports _ | rfl
    simp [hstmt, ih]

theorem Method.rejections_reports (m : Method) (around : Option Symbol) (earlier : List Symbol) :
    rejections m.reports = Candidate.rejections (m.candidates around earlier) := by
  rw [reports, candidates, Candidate.rejections_cons]
  cases m.symbol with
  | none => simp [Candidate.rejections]
  | some b =>
    simp [varReports, varSites, Candidate.rejections_candidates, Stmt.rejections_reports]

namespace Member

mutual

theorem rejections_reports : ∀ (m : Member) (around : Option Symbol) (earlier : List Symbol),
    rejections m.reports = Candidate.rejections (m.candidates around earlier)
  | .method m, around, earlier => by
    rw [reports, candidates, m.rejections_reports]
  | .field d, around, earlier => by
    rw [reports, candidates, Candidate.rejections_candidates, VarDecl.fieldReports]
    simp
  | .nested head members, around, earlier => by
    rw [reports, candidates, Candidate.rejections_cons]
    cases head.symbol with
    | none => simp [ClassHead.reports, Candidate.rejections]
    | some b => simp [ClassHead.reports, rejections_allReports members (some b) []]

theorem rejections_allReports : ∀ (ms : List Member) (around : Option Symbol)
    (earlier : List Symbol),
    rejections (allReports ms) = Candidate.rejections (allCandidates around earlier ms)
  | [], around, earlier => by
    rw [allReports, allCandidates]
    rfl
  | m :: rest, around, earlier => by
    rw [allReports, allCandidates, Diagnostic.rejections_append,
      rejections_reports m around earlier, rejections_allReports rest around _,
      Candidate.rejections, Candidate.rejections, Candidate.rejections, List.filterMap_append]

end

end Member

theorem Method.symbols_varSites (m : Method) : Site.symbols m.varSites = m.vars := by
  have hbody := Stmt.symbols_allSites (m.body.getD [])
  simp only [Site.symbols] at hbody
  simp only [Site.symbols, varSites, List.filterMap_append, List.filterMap_map, hbody]
  rfl

namespace Member

mutual

theorem allSymbols_decls {t : Table} : ∀ {m : Member} {path : List String} {outer : ScopeId},
    (∀ d ∈ m.decls path, d.Placed) → m.Settled t outer →
      ∀ (around : Option Symbol) (earlier : List Symbol),
        Decl.allSymbols (m.decls path) = Candidate.symbols (m.candidates around earlier)
  | .method m, path, outer, hp, _, around, earlier => by
    rw [decls, List.forall_mem_singleton, Decl.Placed] at hp
    rw [decls, candidates, Method.candidates, Candidate.symbols_cons, Decl.allSymbols_cons,
      Decl.allSymbols_nil, Decl.symbols, List.append_nil]
    cases hb : m.symbol with
    | none =>
      rw [hb] at hp
      simp [Method.site, hb, show m.vars = [] from hp, Candidate.symbols]
    | some b => simp [Method.site, hb, Candidate.symbols_candidates, m.symbols_varSites]
  | .field d, path, outer, _, _, around, earlier => by
    rw [decls, candidates, Candidate.symbols_candidates, d.symbols_sites]
    simp [Decl.symbols]
  | .nested head members, path, outer, hp, hs, around, earlier => by
    rw [decls, List.forall_mem_cons] at hp
    rw [Settled] at hs
    rw [decls, candidates, Candidate.symbols_cons, Decl.allSymbols_cons, Decl.symbols]
    cases hb : head.symbol with
    | none =>
      rw [hb] at hs
      have hnone : Decl.allSymbols (allDecls (path ++ [head.name.text]) members) = [] := by
        rw [Decl.allSymbols, List.flatMap_eq_nil_iff]
        exact fun d hd => Decl.symbols_of_isFresh (isFresh_of_mem_allDecls hs hd)
      simp [ClassHead.site, hb, hnone, Candidate.symbols]
    | some b =>
      rw [hb] at hs
      obtain ⟨k, -, -, -, hall⟩ := hs
      simp [ClassHead.site, hb, allSymbols_allDecls hp.2 hall (some b) []]

theorem allSymbols_allDecls {t : Table} :
    ∀ {ms : List Member} {path : List String} {outer : ScopeId},
    (∀ d ∈ allDecls path ms, d.Placed) → AllSettled t outer ms →
      ∀ (around : Option Symbol) (earlier : List Symbol),
        Decl.allSymbols (allDecls path ms) = Candidate.symbols (allCandidates around earlier ms)
  | [], path, outer, _, _, around, earlier => by
    rw [allDecls, allCandidates]
    rfl
  | m :: rest, path, outer, hp, hs, around, earlier => by
    rw [allDecls, List.forall_mem_append] at hp
    rw [AllSettled] at hs
    rw [allDecls, allCandidates, Decl.allSymbols_append, allSymbols_decls hp.1 hs.1 around earlier,
      allSymbols_allDecls hp.2 hs.2 around _, Candidate.symbols, Candidate.symbols,
      Candidate.symbols, List.filterMap_append]

end

end Member

open Registration

/-- The law of registration. A declaration all around which was registered has a symbol exactly if
its name was free when its turn came, and its symbol is bound in the scope of the declaration around
it. The pass reports what there is to report on the tree and looks into nothing that it rejected;
each rejected declaration has one report of its kind that names it, and there are no others. -/
theorem registration_law {u u' : CompilationUnit} {tag : Nat} {reports : List Diagnostic}
    {s : State} (hf : u.isFresh = true)
    (h : registerUnit u (.withSystem tag) reports = ⟨u', .ok (), s⟩) :
    u'.erase = u.erase ∧
      (∀ c ∈ u'.candidates tag, c.site.symbol.isSome = c.site.isAdmitted c.earlier ∧
        ∀ b, c.site.symbol = some b → ∃ k, Opened k c.around ∧ b.declaredIn = k ∧
          b ∈ s.table.members k c.site.name.text) ∧
      s.diagnostics = reports ++ u'.reports ∧
      (u'.reports.filter fun d => d.problem.isRejection) =
        (u'.candidates tag).filterMap (fun c => c.site.rejection) ∧
      Decl.allSymbols u'.decls = (u'.candidates tag).filterMap fun c => c.site.symbol := by
  obtain ⟨herase, hreg⟩ := registerUnit_registers hf h
  have hwalk := registerUnit_walks hf h
  have hrejections : rejections u'.reports = Candidate.rejections (u'.candidates tag) := by
    obtain ⟨_ | c⟩ := u'
    · rfl
    · exact Member.rejections_reports _ _ _
  have hsymbols : Decl.allSymbols u'.decls = Candidate.symbols (u'.candidates tag) := by
    obtain ⟨_ | c⟩ := u'
    · rfl
    · have hset := (registerUnit_settles hf h rfl).settled
      rw [Member.AllSettled] at hset
      have hplaced : ∀ d ∈ Member.decls [] (.nested c.head c.members), d.Placed := by
        rw [Member.decls]
        exact hreg.placed
      have hall := Member.allSymbols_decls hplaced hset.1 none [Table.systemClass tag]
      rw [Member.decls] at hall
      exact hall
  refine ⟨herase, fun c hc => ?_, hwalk.diagnostics, hrejections, hsymbols⟩
  obtain ⟨hregistered, hplaced⟩ := hwalk.lawful c hc
  refine ⟨hregistered, fun b hb => ?_⟩
  obtain ⟨hname, hopen⟩ := hplaced b hb
  have hbound : s.table.Bound b := by
    refine (hreg.declares.bound b).mpr (Or.inr ?_)
    rw [hsymbols]
    exact List.mem_filterMap.mpr ⟨c, hc, hb⟩
  exact ⟨_, hopen, rfl, hname ▸ hbound⟩

/-- Names meet across kinds: a method after a field, a field and a class after methods, a second
method of one signature, and locals against parameters, some inside of nested statements. -/
def Sample.crowded : CompilationUnit :=
  ⟨some ⟨⟨.plain "Main", [], none, [], none⟩,
    [.field (decl [.static] (word .int) [("f", none), ("f", none)]),
     method [.static] (word .void) "f" [(word .int, "n"), (word .int, "n")] [],
     method [] (word .void) "g" [(word .int, "a"), (word .string, "a")]
       [.block [.locals (decl [] (word .int) [("a", none), ("b", none)])] .null,
        .loop (ref "b") (.locals (decl [.pub] (word .string) [("b", none), ("g", none)])) .null],
     method [] (word .int) "g" [(word .int, "x")] [],
     method [.pub] (word .int) "g" [(word .int, "x"), (word .string, "y")] [],
     .field (decl [] (word .int) [("g", none), ("h", none)]),
     .nested ⟨.plain "g", [.pub, .pub], none, ["T"], none⟩
       [.field (decl [.pub, .priv] (word .int) [("k", none), ("k", none)])],
     .nested ⟨.plain "Main", [], none, [], none⟩ [.field (decl [] (word .int) [("h", none)])]]⟩⟩

theorem registration_law_crowded : ∃ u' s,
    registerUnit Sample.crowded (.withSystem 3) [] = ⟨u', .ok (), s⟩ ∧
      (u'.candidates 3).map (fun c => (c.site.name.text, c.site.symbol.isSome)) =
        [("Main", true), ("f", true), ("f", false), ("f", false), ("g", true), ("a", true),
          ("a", false), ("a", false), ("b", true), ("b", false), ("g", true), ("g", true),
          ("x", true), ("g", false), ("g", false), ("h", true), ("g", false), ("Main", true),
          ("h", true)] ∧
      (∀ c ∈ u'.candidates 3, c.site.symbol.isSome = c.site.isAdmitted c.earlier ∧
        ∀ b, c.site.symbol = some b → ∃ k, Opened k c.around ∧ b.declaredIn = k ∧
          b ∈ s.table.members k c.site.name.text) ∧
      s.diagnostics = u'.reports ∧ u'.reports.length = 11 ∧
      (u'.reports.filter fun d => d.problem.isRejection) =
        (u'.candidates 3).filterMap (fun c => c.site.rejection) ∧
      Decl.allSymbols u'.decls = (u'.candidates 3).filterMap fun c => c.site.symbol := by
  have hrun : (registerUnit Sample.crowded (.withSystem 3) []).answer.isOk = true ∧
      ((registerUnit Sample.crowded (.withSystem 3) []).node.candidates 3).map
        (fun c => (c.site.name.text, c.site.symbol.isSome)) =
        [("Main", true), ("f", true), ("f", false), ("f", false), ("g", true), ("a", true),
          ("a", false), ("a", false), ("b", true), ("b", false), ("g", true), ("g", true),
          ("x", true), ("g", false), ("g", false), ("h", true), ("g", false), ("Main", true),
          ("h", true)] ∧
      (registerUnit Sample.crowded (.withSystem 3) []).node.reports.length = 11 := by
    decide +kernel
  generalize hr : registerUnit Sample.crowded (.withSystem 3) [] = r at hrun
  obtain ⟨u', _ | ⟨⟩, s⟩ := r
  · cases hrun.1
  obtain ⟨-, hlaw, hreports, hrejections, hsymbols⟩ := registration_law (by decide) hr
  exact ⟨u', s, rfl, hrun.2.1, hlaw, hreports, hrun.2.2, hrejections, hsymbols⟩

end ClassLang
