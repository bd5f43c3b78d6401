import ClassLang.Proofs.Linking

/-! Methods of one name in one class. Their parameters are compared as they are written, before
class names mean anything. So two methods may take parameters of the same types after all, but only
where they spell the name of a class in two ways. -/
namespace ClassLang

open Assembly Typing

/-- Two names that end alike and are spelled differently. -/
def TypeExpr.respells : TypeExpr → TypeExpr → Bool
  | .named a _, .named b _ =>
    a.getLast?.map Name.text == b.getLast?.map Name.text && !sameNames a b
  | _, _ => false

namespace Method

def types (m : Method) : List TypeExpr := m.params.map Param.type

def respells (m n : Method) : Bool := (m.types.zip n.types).any fun x => x.1.respells x.2

end Method

def Resolutions.paramsOf (r : Resolutions) (m : Method) : Option (List Ty) :=
  m.symbol.bind r.params?

namespace Table.Sound

variable {t : Table} {fallback : Position} {scope : ScopeId}

theorem name_of_resolveMembers (h : t.Sound) {rest : List Name} :
    ∀ {before : List Name} {owner b : Symbol},
      resolveMembers t fallback before owner rest = .ok b →
      b.name = (rest.getLast?.map Name.text).getD owner.name := by
  induction rest with
  | nil =>
    intro before owner b hr
    cases hr
    rfl
  | cons segment rest ih =>
    intro before owner b hr
    unfold resolveMembers at hr
    split at hr
    · cases hr
    · next k hk =>
      split at hr
      · next found hf =>
        have hname : found.name = segment.text :=
          (h.home k _ found (hf ▸ List.mem_singleton_self found)).1
        rw [ih hr, hname, List.getLast?_cons]
        cases rest.getLast? <;> rfl
      · cases hr

theorem name_of_resolvePath (h : t.Sound) {segments : List Name} {b : Symbol}
    (hr : resolvePath t scope fallback segments = some (.ok b)) :
    segments.getLast?.map Name.text = some b.name := by
  unfold resolvePath at hr
  cases segments with
  | nil => cases hr
  | cons segment rest =>
    dsimp only at hr
    split at hr
    · next found hf =>
      have hmem : found ∈ t.visibleFrom scope segment.text := hf ▸ List.mem_singleton_self found
      have hname : found.name = segment.text := by
        rcases visibleFrom_cases t scope segment.text with he | ⟨j, -, he⟩
        · rw [he] at hmem
          cases hmem
        · exact (h.home j _ found (he ▸ hmem)).1
      have hmembers : resolveMembers t fallback [segment] found rest = .ok b := Option.some.inj hr
      rw [h.name_of_resolveMembers hmembers, hname, List.getLast?_cons]
      cases rest.getLast? <;> rfl
    · cases hr

end Table.Sound

namespace Typing

variable {t : Table} {k : ScopeId}

theorem resolvePath_of_meaning {segments : List Name} {span : Span}
    (h : meaning t k (.named segments span) ≠ .error) :
    ∃ c, meaning t k (.named segments span) = .cls c ∧
      resolvePath t k span.start segments = some (.ok c) := by
  unfold meaning resolveType at h ⊢
  dsimp only at h ⊢
  split at h
  · exact absurd rfl h
  · exact absurd rfl h
  · next c hc =>
    split at h
    · next hk => exact ⟨c, by simp [hk], hc⟩
    · exact absurd rfl h

/-- Types that mean the same are written alike, up to the spelling of class names. -/
theorem same_or_respells (h : t.Sound) {a b : TypeExpr} (he : meaning t k a = meaning t k b)
    (hne : meaning t k a ≠ .error) : a.same b = true ∨ a.respells b = true := by
  have hne' : meaning t k b ≠ .error := he ▸ hne
  cases a with
  | array => exact absurd rfl hne
  | generic => exact absurd rfl hne
  | keyword v span =>
    cases b with
    | array => exact absurd rfl hne'
    | generic => exact absurd rfl hne'
    | keyword w span => cases v <;> cases w <;> first | exact Or.inl rfl | cases he
    | named segments span =>
      obtain ⟨c, hc, -⟩ := resolvePath_of_meaning hne'
      rw [hc] at he
      cases v <;> cases he
  | named as span =>
    obtain ⟨c, hc, hpath⟩ := resolvePath_of_meaning hne
    cases b with
    | array => exact absurd rfl hne'
    | generic => exact absurd rfl hne'
    | keyword w span =>
      rw [hc] at he
      cases w <;> cases he
    | named bs span' =>
      obtain ⟨d, hd, hpath'⟩ := resolvePath_of_meaning hne'
      obtain rfl : c = d := Ty.cls.inj (hc.symm.trans (he.trans hd))
      have hlast := (h.name_of_resolvePath hpath).trans (h.name_of_resolvePath hpath').symm
      cases hs : TypeExpr.sameNames as bs with
      | true => exact Or.inl (by rw [TypeExpr.same, hs])
      | false => exact Or.inr (by simp [TypeExpr.respells, hlast, hs])

theorem sameAll_or_respells (h : t.Sound) {xs : List TypeExpr} :
    ∀ {ys : List TypeExpr}, xs.map (meaning t k) = ys.map (meaning t k) →
      .error ∉ xs.map (meaning t k) →
      TypeExpr.sameAll xs ys = true ∨ ((xs.zip ys).any fun x => x.1.respells x.2) = true := by
  induction xs with
  | nil =>
    intro ys he _
    rw [List.map_eq_nil_iff.mp he.symm]
    exact Or.inl rfl
  | cons x xs ih =>
    intro ys he hne
    cases ys with
    | nil => cases he
    | cons y ys =>
      rw [List.map_cons, List.map_cons, List.cons.injEq] at he
      rw [List.map_cons, List.mem_cons, not_or] at hne
      rcases same_or_respells h he.1 (Ne.symm hne.1) with hs | hs
      · rcases ih he.2 hne.2 with hall | hall
        · exact Or.inl (by rw [TypeExpr.sameAll, hs, hall]; rfl)
        · exact Or.inr (by simp only [List.zip_cons_cons, List.any_cons, hall, Bool.or_true])
      · exact Or.inr (by simp only [List.zip_cons_cons, List.any_cons, hs, Bool.true_or])

end Typing

theorem Ty.sameList_refl (Ts : List Ty) : Ty.sameList Ts Ts = true := by
  induction Ts with
  | nil => rfl
  | cons T Ts ih => simp [Ty.sameList, Ty.same_refl, ih]

theorem ne_error_of_asmTypes {Ts : List Ty} :
    ∀ {as : List AsmType}, Lowering.asmTypes Ts = .ok as → .error ∉ Ts := by
  induction Ts with
  | nil => simp
  | cons T Ts ih =>
    intro as h hmem
    obtain ⟨a, rest, ha, hrest, -⟩ := asmTypes_cons_eq_ok h
    rcases List.mem_cons.mp hmem with rfl | hmem
    · cases ha
    · exact ih hrest hmem

namespace Accepted

variable {t : Table} {target : Lowering.Target} {ds : List Decl} {img : Image}

theorem head_types (h : Accepted t target ds img) {path : List String} {m : Method} {d : MethodDef}
    (hm : (path, m) ∈ Decl.methods ds) (hd : Compiled t target (path, m) d) :
    ∃ b, m.symbol = some b ∧ t.Bound b ∧ b.name = m.name.text ∧ t.PathOf b.declaredIn path ∧
      b.details = .method m.types m.returns m.modifiers path none ∧
      target.resolutions.paramsOf m = some (m.types.map (meaning t b.declaredIn)) ∧
      Lowering.asmTypes (m.types.map (meaning t b.declaredIn)) = .ok (d.params.map Prod.fst) := by
  have hmem := Decl.mem_methods.mp hm
  cases hd with
  | @intro _ _ b _ _ _ _ _ _ _ _ _ hb _ _ hp =>
    obtain ⟨hbound, -, hdet, -⟩ := method_declared h.declares hmem hb
    have hfits := h.declares.sound.fits b hbound
    simp only [Table.Fits, hdet] at hfits
    have hplaced := h.declares.placed _ hmem
    simp only [Decl.Placed, hb] at hplaced
    obtain ⟨Ts, hTs⟩ := Option.isSome_iff_exists.mp ((h.prepared _ hmem).checked b hb).1.1
    obtain ⟨s, hs, hf⟩ := h.faithful
    have hasm := h.asmTypes_params hmem hp hb hTs
    rw [← hs] at hTs
    obtain ⟨_, _, _, _, _, hdet', rfl, -⟩ := hf.params hbound hTs
    rw [hdet] at hdet'
    cases hdet'
    refine ⟨b, hb, hbound, hplaced.1.1, hfits, hdet, ?_, hasm⟩
    rw [Resolutions.paramsOf, hb, ← hs]
    exact hTs

/-- Two methods of a class that have one name. Those that come later have larger numbers, so that
they were compared with the earlier ones. -/
theorem signatures_of_lt (h : Accepted t target ds img) {path : List String} {m n : Method}
    {d e : MethodDef} (hm : (path, m) ∈ Decl.methods ds) (hn : (path, n) ∈ Decl.methods ds)
    (hd : Compiled t target (path, m) d) (he : Compiled t target (path, n) e)
    (hlt : ∀ b ∈ m.symbol, ∀ c ∈ n.symbol, b.id.number < c.id.number)
    (hname : m.name.text = n.name.text) :
    TypeExpr.sameAll m.types n.types = false ∧
      ∃ Ts Us, target.resolutions.paramsOf m = some Ts ∧ target.resolutions.paramsOf n = some Us ∧
        (Ty.sameList Ts Us = true ↔ d.params.map Prod.fst = e.params.map Prod.fst) ∧
        (Ty.sameList Ts Us = true → m.respells n = true) := by
  have hs := h.declares.sound
  obtain ⟨b, hb, hbb, hbn, hbp, hbd, hTs, hbasm⟩ := h.head_types hm hd
  obtain ⟨c, hc, hcb, hcn, hcp, hcd, hUs, hcasm⟩ := h.head_types hn he
  have hin : b.declaredIn = c.declaredIn := hbp.scope_unique hs hcp
  have hunlike : TypeExpr.sameAll m.types n.types = false := by
    have halike := hs.unlike b c hbb hcb (hlt b hb c hc) hin (by rw [hbn, hcn, hname])
    rwa [Symbol.alike, hbd, hcd] at halike
  rw [← hin] at hUs hcasm
  have heq : Ty.sameList (m.types.map (meaning t b.declaredIn))
      (n.types.map (meaning t b.declaredIn)) = true →
      m.types.map (meaning t b.declaredIn) = n.types.map (meaning t b.declaredIn) := by
    refine eq_of_sameList hs ?_ ?_
    all_goals
      intro T hT
      obtain ⟨type, -, rfl⟩ := List.mem_map.mp hT
      exact known_meaning hs _ type
  refine ⟨hunlike, _, _, hTs, hUs, ⟨fun hsame => ?_, fun hsame => ?_⟩, fun hsame => ?_⟩
  · rw [← heq hsame, hbasm] at hcasm
    exact Except.ok.inj hcasm
  · rw [← hsame] at hcasm
    rw [← asmTypes_meaning_inj hs hbasm hcasm]
    exact Ty.sameList_refl _
  · rcases sameAll_or_respells hs (heq hsame) (ne_error_of_asmTypes hbasm) with hall | hall
    · rw [hunlike] at hall
      cases hall
    · exact hall

end Accepted

/-- In an accepted unit, two methods of a class that have one name take different parameters as they
are written. Their parameters are of the same types, or of the same types in the assembly, only if
somewhere a class is named in two ways. -/
theorem signatures_differ {u : CompilationUnit} {options : Options} {listing : Listing}
    (hf : u.isFresh = true) (hc : (compile u options).result = .ok (some listing)) :
    ((Decl.methods (compile u options).unit.decls).zip listing.image.methods).Pairwise
      fun x y => x.1.1 = y.1.1 → x.1.2.name.text = y.1.2.name.text →
        TypeExpr.sameAll x.1.2.types y.1.2.types = false ∧
        ∃ Ts Us, (compile u options).resolutions.paramsOf x.1.2 = some Ts ∧
          (compile u options).resolutions.paramsOf y.1.2 = some Us ∧
          (Ty.sameList Ts Us = true ↔ x.2.params.map Prod.fst = y.2.params.map Prod.fst) ∧
          (Ty.sameList Ts Us = true → x.1.2.respells y.1.2 = true) := by
  obtain ⟨t, entry, hacc⟩ := accepted_of_compile hf hc
  obtain ⟨hlength, hcompiled⟩ := List.forall₂_iff_zip.mp hacc.methods
  have hordered := List.pairwise_filterMap.mp
    (hacc.declares.ordered.sublist (Decl.methodSymbols_sublist _))
  rw [← List.map_fst_zip (Nat.le_of_eq hlength), List.pairwise_map] at hordered
  refine hordered.imp_of_mem ?_
  rintro ⟨⟨path, m⟩, d⟩ ⟨⟨path', n⟩, e⟩ hx hy hlt hpath hname
  obtain rfl : path = path' := hpath
  exact hacc.signatures_of_lt (List.of_mem_zip hx).1 (List.of_mem_zip hy).1 (hcompiled hx)
    (hcompiled hy) hlt hname

theorem signatures_differ_sample : ∃ listing,
    (compile Sample.unit .default).result = .ok (some listing) ∧
      listing.image.methods.map MethodDef.name = ["main", "add", "add", "bump"] ∧
      ((Decl.methods (compile Sample.unit .default).unit.decls).zip listing.image.methods).Pairwise
        fun x y => x.1.1 = y.1.1 → x.1.2.name.text = y.1.2.name.text →
          TypeExpr.sameAll x.1.2.types y.1.2.types = false ∧
          ∃ Ts Us, (compile Sample.unit .default).resolutions.paramsOf x.1.2 = some Ts ∧
            (compile Sample.unit .default).resolutions.paramsOf y.1.2 = some Us ∧
            (Ty.sameList Ts Us = true ↔ x.2.params.map Prod.fst = y.2.params.map Prod.fst) ∧
            (Ty.sameList Ts Us = true → x.1.2.respells y.1.2 = true) := by
  have hnames : (compile Sample.unit .default).assembly.map (·.image.methods.map MethodDef.name) =
      some ["main", "add", "add", "bump"] := by decide +kernel
  obtain ⟨listing, hl, hmap⟩ := Option.map_eq_some_iff.mp hnames
  have hc := Compilation.result_of_assembly hl
  exact ⟨listing, hc, hmap, signatures_differ (by decide +kernel) hc⟩

def Sample.respelled : CompilationUnit :=
  ⟨some ⟨⟨.plain "Main", [], none, [], none⟩,
    [.nested ⟨.plain "C", [], none, [], none⟩ [],
     method [.static] (word .void) "f" [(.named [.plain "C"] .null, "a")] [],
     method [.static] (word .void) "f" [(.named [.plain "Main", .plain "C"] .null, "a")] []]⟩⟩

/-- A class may get two methods of one name that take parameters of the same types. -/
theorem respelled_methods_clash : ∃ listing,
    (compile Sample.respelled .default).result = .ok (some listing) ∧
      (∃ Ts Us, (Decl.methods (compile Sample.respelled .default).unit.decls).map
          (fun x => (compile Sample.respelled .default).resolutions.paramsOf x.2) =
            [some Ts, some Us] ∧ Ty.sameList Ts Us = true) ∧
      listing.image.methods.map (fun d => (d.owner, d.name, d.params.map Prod.fst)) =
        [(["Main"], "f", [.cls ["Main", "C"]]), (["Main"], "f", [.cls ["Main", "C"]])] := by
  have hheads : (compile Sample.respelled .default).assembly.map (fun listing =>
      listing.image.methods.map fun d => (d.owner, d.name, d.params.map Prod.fst)) =
        some [(["Main"], "f", [.cls ["Main", "C"]]), (["Main"], "f", [.cls ["Main", "C"]])] := by
    decide +kernel
  obtain ⟨listing, hl, hmap⟩ := Option.map_eq_some_iff.mp hheads
  refine ⟨listing, Compilation.result_of_assembly hl, ?_, hmap⟩
  generalize hT : (Decl.methods (compile Sample.respelled .default).unit.decls).map
    (fun x => (compile Sample.respelled .default).resolutions.paramsOf x.2) = types
  have htypes : types.length = 2 ∧
      (types[0]?.join.bind fun Ts => types[1]?.join.map (Ty.sameList Ts)) = some true := by
    subst hT
    decide +kernel
  obtain ⟨a, b, rfl⟩ := List.length_eq_two.mp htypes.1
  obtain ⟨Ts, ha, hrest⟩ := Option.bind_eq_some_iff.mp htypes.2
  obtain ⟨Us, hb, hsame⟩ := Option.map_eq_some_iff.mp hrest
  obtain rfl : a = some Ts := by simpa using ha
  obtain rfl : b = some Us := by simpa using hb
  exact ⟨Ts, Us, rfl, hsame⟩

end ClassLang
