import ClassLang.Proofs.Accepted
import ClassLang.Proofs.Names

/-! References in assembly. A reference is compared with a definition as the assembler compares
them, by the spelling of the class, of the name and, for methods, of the parameter types. In the
assembly of a unit every reference means exactly one definition, and that one has the type and the
binding that the reference gives. -/
namespace ClassLang

open Assembly Typing

namespace Assembly

def MethodDef.answers (d : MethodDef) (r : MethodRef) : Bool :=
  classToken d.owner == classToken r.owner && nameToken d.name == nameToken r.name &&
    d.params.map (fun p => p.1.text) == r.params.map AsmType.text

def FieldDef.answers (d : FieldDef) (r : FieldRef) : Bool :=
  classToken d.owner == classToken r.owner && nameToken d.name == nameToken r.name

theorem MethodDef.answers_iff {d : MethodDef} {r : MethodRef} :
    d.answers r = true ↔
      d.owner = r.owner ∧ d.name = r.name ∧ d.params.map Prod.fst = r.params := by
  have htypes : d.params.map (fun p => p.1.text) = r.params.map AsmType.text ↔
      d.params.map Prod.fst = r.params := by
    have hmap : d.params.map (fun p => p.1.text) = (d.params.map Prod.fst).map AsmType.text := by
      simp
    rw [hmap]
    exact ⟨fun h => (List.map_injective_iff.mpr fun _ _ => AsmType.text_injective) h,
      fun h => by rw [h]⟩
  simp only [answers, Bool.and_eq_true, beq_iff_eq, htypes, and_assoc]
  exact ⟨fun h => ⟨classToken_injective h.1, nameToken_injective h.2.1, h.2.2⟩,
    fun h => ⟨by rw [h.1], by rw [h.2.1], h.2.2⟩⟩

theorem FieldDef.answers_iff {d : FieldDef} {r : FieldRef} :
    d.answers r = true ↔ d.owner = r.owner ∧ d.name = r.name := by
  simp only [answers, Bool.and_eq_true, beq_iff_eq]
  exact ⟨fun h => ⟨classToken_injective h.1, nameToken_injective h.2⟩,
    fun h => ⟨by rw [h.1], by rw [h.2]⟩⟩

/-- Every reference means one definition of the same shape, and `this` is passed on only within a
class. -/
structure Image.Links (img : Image) : Prop where
  call : ∀ d ∈ img.bodies, ∀ r, .instr (.call r) ∈ d.code →
    ∃ m, img.methods.filter (·.answers r) = [m] ∧ m.returns = r.returns ∧ m.isStatic = r.isStatic
  ownCall : ∀ d ∈ img.bodies, ∀ r, .instr (.call r) ∈ d.code → r.isStatic = false →
    d.isStatic = false ∧ d.owner = r.owner
  ownField : ∀ d ∈ img.bodies, ∀ r, .instr (.ldfld r) ∈ d.code ∨ .instr (.stfld r) ∈ d.code →
    (∃ v, img.fields.filter (·.answers r) = [v] ∧ v.type = r.type ∧ v.isStatic = false) ∧
      d.isStatic = false ∧ d.owner = r.owner
  sharedField : ∀ d ∈ img.bodies, ∀ r,
    .instr (.ldsfld r) ∈ d.code ∨ .instr (.stsfld r) ∈ d.code →
    ∃ v, img.fields.filter (·.answers r) = [v] ∧ v.type = r.type ∧ v.isStatic = true
  create : ∀ d ∈ img.bodies, ∀ path, .instr (.newobj path) ∈ d.code →
    path ∈ img.classes ∧ ∃ c ∈ img.ctors, c.owner = path

end Assembly

namespace Lowering

def Refers (ctx : Context) (r : Resolutions) : Instr → Prop
  | .call ref => ∃ m Ts T before, ctx.table.Bound m ∧ m.isMethod = true ∧ r.params? m = some Ts ∧
      r.type? m = some T ∧ CallOf ctx m Ts T before (.call ref) ∧
      ∀ o, ctx.table.Bound o → o.isMethod = true → o.declaredIn = m.declaredIn →
        o.name = m.name → ∃ ps, r.params? o = some ps ∧ (ps = Ts → o = m)
  | .ldfld ref | .stfld ref => ∃ b T f, ctx.table.Bound b ∧ r.type? b = some T ∧
      PlaceOf ctx f b T (.own ref)
  | .ldsfld ref | .stsfld ref => ∃ b T f, ctx.table.Bound b ∧ r.type? b = some T ∧
      PlaceOf ctx f b T (.shared ref)
  | .newobj path => ∃ c modifiers, ctx.table.Bound c ∧ c.details = .cls path modifiers false ∧
      Modifier.isStatic modifiers = false
  | .callConsole routine params returns => ∃ m Ts T before, ctx.table.Bound m ∧
      r.params? m = some Ts ∧ r.type? m = some T ∧
      CallOf ctx m Ts T before (.callConsole routine params returns)
  | _ => True

def isPlain : Instr → Bool
  | .call _ | .ldfld _ | .stfld _ | .ldsfld _ | .stsfld _ | .newobj _ | .callConsole .. => false
  | _ => true

section

variable {ctx : Context} {r : Resolutions} {f : Frame}

theorem refers_of_isPlain {is : List Instr} (h : is.all isPlain = true) :
    ∀ i ∈ is, Refers ctx r i := by
  intro i hi
  have hplain := List.all_eq_true.mp h i hi
  cases i <;> trivial

theorem PlaceOf.load_refers {b : Symbol} {T : Ty} {p : Place} (hb : ctx.table.Bound b)
    (ht : r.type? b = some T) (hp : PlaceOf ctx f b T p) : ∀ i ∈ p.load, Refers ctx r i := by
  cases hp with
  | slot hd => exact refers_of_isPlain rfl
  | argument hd => exact refers_of_isPlain rfl
  | shared hd ha =>
    simp only [Place.load, List.forall_mem_singleton]
    exact ⟨b, T, f, hb, ht, .shared hd ha⟩
  | own hd ha hs ho =>
    simp only [Place.load, List.forall_mem_cons]
    exact ⟨trivial, ⟨b, T, f, hb, ht, .own hd ha hs ho⟩, by simp⟩

theorem PlaceOf.store_refers {b : Symbol} {T : Ty} {p : Place} {is : List Instr} (keep : Bool)
    (hb : ctx.table.Bound b) (ht : r.type? b = some T) (hp : PlaceOf ctx f b T p)
    (his : ∀ i ∈ is, Refers ctx r i) : ∀ i ∈ p.store is keep, Refers ctx r i := by
  have hdup : ∀ i ∈ if keep then [Instr.dup] else [], Refers ctx r i :=
    refers_of_isPlain (by cases keep <;> rfl)
  cases hp with
  | slot hd =>
    simp only [Place.store, List.forall_mem_append, List.forall_mem_singleton]
    exact ⟨⟨his, hdup⟩, trivial⟩
  | argument hd =>
    simp only [Place.store, List.forall_mem_append, List.forall_mem_singleton]
    exact ⟨⟨his, hdup⟩, trivial⟩
  | shared hd ha =>
    simp only [Place.store, List.forall_mem_append, List.forall_mem_singleton]
    exact ⟨⟨his, hdup⟩, b, T, f, hb, ht, .shared hd ha⟩
  | own hd ha hs ho =>
    have hown : Refers ctx r (.ldfld ⟨_, _, b.name⟩) := ⟨b, T, f, hb, ht, .own hd ha hs ho⟩
    simp only [Place.store, List.forall_mem_cons, List.forall_mem_append]
    refine ⟨trivial, his, hown, ?_⟩
    cases keep with
    | false => simp
    | true =>
      simp only [if_true, List.forall_mem_cons]
      exact ⟨trivial, hown, by simp⟩

theorem unaryCode_refers (op : UnaryOp) : ∀ i ∈ unaryCode op, Refers ctx r i :=
  refers_of_isPlain (by cases op <;> rfl)

theorem binaryCode_refers {op : BinaryOp} {T : Ty} {is : List Instr}
    (h : binaryCode op T = .of is) : ∀ i ∈ is, Refers ctx r i := by
  refine refers_of_isPlain ?_
  unfold binaryCode at h
  split at h
  · cases op <;> cases h <;> rfl
  · cases h
    cases op <;> rfl

theorem exists_mem_zip_zip {args : List Expr} {Ts : List Ty} {codes : List (List Instr)}
    (hl : args.length = Ts.length) (hc : codes.length = Ts.length) {is : List Instr}
    (h : is ∈ codes) : ∃ e T, (e, T, is) ∈ args.zip (Ts.zip codes) := by
  obtain ⟨i, hi, rfl⟩ := List.getElem_of_mem h
  have hi' : i < (args.zip (Ts.zip codes)).length := by
    simp only [List.length_zip]
    omega
  exact ⟨args[i], Ts[i], List.mem_iff_getElem.mpr ⟨i, hi', by simp⟩⟩

theorem Codes.refers {e : Expr} {T : Ty} {is : List Instr} (h : Codes ctx r f e T is) :
    ∀ i ∈ is, Refers ctx r i := by
  induction h with
  | @literal value note hn =>
    rw [List.forall_mem_singleton]
    rcases value with _ | _ | (_ | _) | _ <;> trivial
  | this => exact refers_of_isPlain rfl
  | var _ hr ht hp => exact hp.load_refers hr.1 ht
  | declaration => simp
  | @unary op _ _ _ _ _ ih => exact List.forall_mem_append.mpr ⟨ih, unaryCode_refers op⟩
  | binary _ _ _ hc _ ihl ihr =>
    exact List.forall_mem_append.mpr ⟨List.forall_mem_append.mpr ⟨ihl, ihr⟩, binaryCode_refers hc⟩
  | assign _ hr ht hp _ _ _ ih => exact hp.store_refers true hr.1 ht ih
  | @call n nameNote args note m Ts T codes before i hm hr hk hp ht ho hc hl hlc _ hn ih =>
    refine List.forall_mem_append.mpr ⟨List.forall_mem_append.mpr ⟨?_, ?_⟩, ?_⟩
    · exact refers_of_isPlain (by cases hc <;> rfl)
    · intro j hj
      obtain ⟨is, his, hj⟩ := List.mem_flatten.mp hj
      obtain ⟨e, U, hmem⟩ := exists_mem_zip_zip hl hlc his
      exact ih e U is hmem j hj
    · rw [List.forall_mem_singleton]
      cases hc with
      | console hd has ha => exact ⟨m, Ts, T, _, hr.1, hp, ht, .console hd has ha⟩
      | shared hd has ha hs => exact ⟨m, Ts, T, _, hr.1, hk, hp, ht, .shared hd has ha hs, ho⟩
      | own hd has ha hs hst hown =>
        exact ⟨m, Ts, T, _, hr.1, hk, hp, ht, .own hd has ha hs hst hown, ho⟩
  | create _ hb hd hs =>
    rw [List.forall_mem_singleton]
    exact ⟨_, _, hb, hd, hs⟩

theorem ValueCodes.refers {e : Expr} {is : List Instr} (h : ValueCodes ctx r f e is) :
    ∀ i ∈ is, Refers ctx r i := by
  cases h with
  | assign _ hr ht hp hv _ => exact hp.store_refers false hr.1 ht hv.refers
  | other he _ =>
    exact List.forall_mem_append.mpr ⟨he.refers, refers_of_isPlain (by split <;> rfl)⟩

theorem LocalsCodes.refers {vars : List Declarator} :
    ∀ {is : List Instr}, LocalsCodes ctx r f vars is → ∀ i ∈ is, Refers ctx r i := by
  induction vars with
  | nil =>
    rintro is rfl
    simp
  | cons v vars ih =>
    rintro is ⟨js, ks, hv, hrest, rfl⟩
    refine List.forall_mem_append.mpr ⟨?_, ih hrest⟩
    cases hv with
    | bare => simp
    | init _ _ _ _ _ hc =>
      exact List.forall_mem_append.mpr ⟨hc.refers, refers_of_isPlain rfl⟩

def ItemsRefer (ctx : Context) (r : Resolutions) (items : List Item) : Prop :=
  ∀ i, .instr i ∈ items → Refers ctx r i

theorem itemsRefer_append {xs ys : List Item} (hx : ItemsRefer ctx r xs)
    (hy : ItemsRefer ctx r ys) : ItemsRefer ctx r (xs ++ ys) :=
  fun i hi => (List.mem_append.mp hi).elim (hx i) (hy i)

theorem itemsRefer_map {is : List Instr} (h : ∀ i ∈ is, Refers ctx r i) :
    ItemsRefer ctx r (is.map .instr) := by
  intro i hi
  obtain ⟨j, hj, heq⟩ := List.mem_map.mp hi
  cases heq
  exact h i hj

theorem itemsRefer_instr {i : Instr} {xs : List Item} (hi : Refers ctx r i)
    (hx : ItemsRefer ctx r xs) : ItemsRefer ctx r (.instr i :: xs) := by
  intro j hj
  rcases List.mem_cons.mp hj with heq | hj
  · cases heq
    exact hi
  · exact hx j hj

theorem itemsRefer_label {l : Label} {xs : List Item} (hx : ItemsRefer ctx r xs) :
    ItemsRefer ctx r (.label l :: xs) := by
  intro j hj
  rcases List.mem_cons.mp hj with heq | hj
  · cases heq
  · exact hx j hj

theorem itemsRefer_nil : ItemsRefer ctx r [] := fun _ hi => by cases hi

mutual

theorem StmtCodes.refers : ∀ {stmt : Stmt} {n next : Nat} {items : List Item},
    StmtCodes ctx r f n stmt items next → ItemsRefer ctx r items
  | .block _ _, _, _, _, h => by
    rw [StmtCodes] at h
    exact StmtsCodes.refers h
  | .expr _ _ _, _, _, _, h => by
    rw [StmtCodes] at h
    obtain ⟨is, hv, rfl, -⟩ := h
    exact itemsRefer_map hv.refers
  | .locals _, _, _, _, h => by
    rw [StmtCodes] at h
    obtain ⟨is, hv, rfl, -⟩ := h
    exact itemsRefer_map hv.refers
  | .ifThen _ _ _, _, _, _, h => by
    rw [StmtCodes] at h
    obtain ⟨is, xs, hc, hx, rfl⟩ := h
    exact itemsRefer_append (itemsRefer_append (itemsRefer_map hc.refers)
      (itemsRefer_instr trivial (StmtCodes.refers hx))) (itemsRefer_label itemsRefer_nil)
  | .ifElse _ _ _ _, _, _, _, h => by
    rw [StmtCodes] at h
    obtain ⟨is, xs, ys, m, hc, hx, hy, rfl⟩ := h
    exact itemsRefer_append (itemsRefer_append (itemsRefer_append (itemsRefer_map hc.refers)
      (itemsRefer_instr trivial (StmtCodes.refers hx)))
      (itemsRefer_instr trivial (itemsRefer_label (StmtCodes.refers hy))))
      (itemsRefer_label itemsRefer_nil)
  | .loop _ _ _, _, _, _, h => by
    rw [StmtCodes] at h
    obtain ⟨is, xs, hc, hx, rfl⟩ := h
    exact itemsRefer_append (itemsRefer_append (itemsRefer_label (itemsRefer_map hc.refers))
      (itemsRefer_instr trivial (StmtCodes.refers hx)))
      (itemsRefer_instr trivial (itemsRefer_label itemsRefer_nil))
  | .ret value _, _, _, _, h => by
    rw [StmtCodes] at h
    obtain ⟨m, T, is, -, -, hv, rfl, -⟩ := h
    refine itemsRefer_append (itemsRefer_map ?_) (itemsRefer_instr trivial itemsRefer_nil)
    cases value with
    | none =>
      obtain ⟨-, rfl⟩ := hv
      simp
    | some e => exact Codes.refers hv
  | .empty _, _, _, _, h => by
    rw [StmtCodes] at h
    obtain ⟨rfl, -⟩ := h
    exact itemsRefer_nil

theorem StmtsCodes.refers : ∀ {body : List Stmt} {n next : Nat} {items : List Item},
    StmtsCodes ctx r f n body items next → ItemsRefer ctx r items
  | [], _, _, _, h => by
    rw [StmtsCodes] at h
    obtain ⟨rfl, -⟩ := h
    exact itemsRefer_nil
  | _ :: _, _, _, _, h => by
    rw [StmtsCodes] at h
    obtain ⟨xs, ys, m, hx, hy, rfl⟩ := h
    exact itemsRefer_append (StmtCodes.refers hx) (StmtsCodes.refers hy)

end

end

end Lowering

namespace Table.Sound

/-- Classes are told apart by their paths. -/
theorem eq_of_classPath {t : Table} (h : t.Sound) {c d : Symbol} {path : List String}
    {ms ns : List Modifier} {x y : Bool} (hc : t.Bound c) (hd : t.Bound d)
    (hcd : c.details = .cls path ms x) (hdd : d.details = .cls path ns y) : c = d := by
  have hscope : ∀ {s : Symbol} {ms : List Modifier} {x : Bool}, t.Bound s →
      s.details = .cls path ms x → ∃ k, s.scope = some k ∧ t.PathOf k path := by
    intro s ms x hs hdet
    have hfits := h.fits s hs
    simp only [Table.Fits, hdet] at hfits
    obtain ⟨k, hk⟩ := Option.isSome_iff_exists.mp hfits.1
    exact ⟨k, hk, Or.inr ⟨s, ms, x, hs, hk, hdet⟩⟩
  obtain ⟨k, hk, hpk⟩ := hscope hc hcd
  obtain ⟨l, hl, hpl⟩ := hscope hd hdd
  obtain rfl := hpk.scope_unique h hpl
  exact h.opener c d k hc hd hk hl

/-- Fields are told apart by the path of their class and their name. -/
theorem eq_of_field {t : Table} (h : t.Sound) {a b : Symbol} {owner : List String}
    {A B : TypeExpr} {x y : Bool} (ha : t.Bound a) (hb : t.Bound b)
    (had : a.details = .var A (.field x owner)) (hbd : b.details = .var B (.field y owner))
    (hn : a.name = b.name) : a = b := by
  have hfa := h.fits a ha
  have hfb := h.fits b hb
  simp only [Table.Fits, had] at hfa
  simp only [Table.Fits, hbd] at hfb
  exact h.alone a b ha hb (hfa.2.scope_unique h hfb.2) hn
    (by simp [Symbol.isMethod, Symbol.kind, had])

end Table.Sound

namespace Typing

theorem toAsm_cls_eq_ok {c : Symbol} {a : AsmType} (h : (Ty.cls c).toAsm = .ok a) :
    ∃ path ms x, c.details = .cls path ms x ∧ a = .cls path := by
  unfold Ty.toAsm Symbol.classPath at h
  dsimp only at h
  split at h
  · next path ms x hd =>
    cases h
    exact ⟨path, ms, x, hd, rfl⟩
  · cases h

/-- Only `this` shares its assembly type with another type. -/
theorem toAsm_inj {t : Table} (h : t.Sound) {A B : Ty} {a : AsmType} (hA : Known t A)
    (hB : Known t B) (hAt : A ≠ .this) (hBt : B ≠ .this) (ha : A.toAsm = .ok a)
    (hb : B.toAsm = .ok a) : A = B := by
  cases A with
  | cls c =>
    obtain ⟨path, ms, x, hc, rfl⟩ := toAsm_cls_eq_ok ha
    cases B with
    | cls d =>
      obtain ⟨_, _, _, hd, heq⟩ := toAsm_cls_eq_ok hb
      cases heq
      rw [h.eq_of_classPath (hA c rfl).1 (hB d rfl).1 hc hd]
    | _ => cases hb
  | this => exact absurd rfl hAt
  | _ =>
    cases ha
    all_goals
      cases B with
      | cls d =>
        obtain ⟨_, _, _, -, heq⟩ := toAsm_cls_eq_ok hb
        cases heq
      | this => exact absurd rfl hBt
      | _ => first | rfl | cases hb

theorem asmTypes_meaning_inj {t : Table} (h : t.Sound) {j k : ScopeId} {xs : List TypeExpr} :
    ∀ {ys : List TypeExpr} {as : List AsmType},
      Lowering.asmTypes (xs.map (meaning t j)) = .ok as →
      Lowering.asmTypes (ys.map (meaning t k)) = .ok as →
      xs.map (meaning t j) = ys.map (meaning t k) := by
  induction xs with
  | nil =>
    intro ys as hx hy
    cases hx
    cases ys with
    | nil => rfl
    | cons y ys =>
      obtain ⟨_, _, -, -, heq⟩ := asmTypes_cons_eq_ok hy
      cases heq
  | cons x xs ih =>
    intro ys as hx hy
    obtain ⟨a, rest, ha, hrest, rfl⟩ := asmTypes_cons_eq_ok hx
    cases ys with
    | nil => cases hy
    | cons y ys =>
      obtain ⟨_, _, hb, hys, heq⟩ := asmTypes_cons_eq_ok hy
      cases heq
      rw [List.map_cons, List.map_cons, ih hrest hys]
      rw [toAsm_inj h (known_meaning h j x) (known_meaning h k y) (meaning_ne_this t j x)
        (meaning_ne_this t k y) ha hb]

end Typing

namespace Decl

theorem filterMap_cons_toList {α β : Type} (f : α → Option β) (a : α) (l : List α) :
    (a :: l).filterMap f = (f a).toList ++ l.filterMap f := by
  cases h : f a <;> simp [h]

theorem methodSymbols_sublist (ds : List Decl) :
    ((methods ds).filterMap fun x => x.2.symbol).Sublist (allSymbols ds) := by
  induction ds with
  | nil => exact .slnil
  | cons d ds ih =>
    rw [allSymbols_cons]
    cases d with
    | method path m =>
      change (((path, m) :: methods ds).filterMap _).Sublist _
      rw [filterMap_cons_toList]
      exact List.Sublist.append (List.sublist_append_left _ _) ih
    | field path d => exact ih.trans (List.sublist_append_right _ _)
    | cls path head => exact ih.trans (List.sublist_append_right _ _)

theorem fieldSymbols_sublist (ds : List Decl) :
    ((fields ds).filterMap fun x => x.2.symbol).Sublist (allSymbols ds) := by
  induction ds with
  | nil => exact .slnil
  | cons d ds ih =>
    rw [allSymbols_cons]
    cases d with
    | field path d =>
      change ((d.vars.map (path, ·) ++ fields ds).filterMap _).Sublist _
      rw [List.filterMap_append]
      refine List.Sublist.append ?_ ih
      simp [symbols, VarSlot.symbols, VarDecl.slots, List.filterMap_map]
    | method path m => exact ih.trans (List.sublist_append_right _ _)
    | cls path head => exact ih.trans (List.sublist_append_right _ _)

/-- Symbols that stand in order are distinct. -/
theorem pairwise_symbol_ne {α : Type} {f : α → Option Symbol} {l : List α} {all : List Symbol}
    (hs : (l.filterMap f).Sublist all) (ha : all.Pairwise fun a b => a.id.number < b.id.number)
    (hf : ∀ x ∈ l, f x ≠ none) : l.Pairwise fun x y => f x ≠ f y := by
  have hp := List.pairwise_filterMap.mp (ha.sublist hs)
  refine hp.imp_of_mem fun {x y} hx _ hlt heq => ?_
  obtain ⟨b, hb⟩ := Option.ne_none_iff_exists'.mp (hf x hx)
  exact absurd (hlt b hb b (heq ▸ hb)) (Nat.lt_irrefl _)

end Decl

/-- If exactly the definitions with the key of `a` pass a test, then one definition does. -/
theorem filter_eq_singleton_of_key {α β κ : Type} {R : α → β → Prop} {key : α → κ} {p : β → Bool}
    {as : List α} {bs : List β} (h : List.Forall₂ R as bs)
    (hn : as.Pairwise fun x y => key x ≠ key y) {a : α} (ha : a ∈ as)
    (hp : ∀ x ∈ as, ∀ y, R x y → (p y = true ↔ key x = key a)) :
    ∃ b, bs.filter p = [b] ∧ R a b := by
  induction h with
  | nil => cases ha
  | @cons x y xs ys hxy hrest ih =>
    rw [List.pairwise_cons] at hn
    rcases List.mem_cons.mp ha with rfl | hmem
    · have hnone : ys.filter p = [] := by
        rw [List.filter_eq_nil_iff]
        intro z hz hpz
        obtain ⟨w, hw, hwz⟩ := Lowering.exists_of_forall₂_right hrest hz
        exact hn.1 w hw ((hp w (List.mem_cons_of_mem _ hw) z hwz).mp hpz).symm
      refine ⟨y, ?_, hxy⟩
      rw [List.filter_cons_of_pos ((hp _ List.mem_cons_self y hxy).mpr rfl), hnone]
    · have hno : ¬ p y = true := fun hpy =>
        hn.1 a hmem ((hp x List.mem_cons_self y hxy).mp hpy)
      rw [List.filter_cons_of_neg hno]
      exact ih hn.2 hmem fun z hz => hp z (List.mem_cons_of_mem _ hz)

section

variable {t : Table} {target : Lowering.Target} {ds : List Decl} {img : Image}
  (h : Accepted t target ds img)
include h

/-- A method that is no console routine is declared in the unit. -/
theorem Accepted.exists_method {b : Symbol} {ps : List TypeExpr} {ret : TypeExpr}
    {ms : List Modifier} {owner : List String} (hb : t.Bound b)
    (hd : b.details = .method ps ret ms owner none) :
    ∃ m, (owner, m) ∈ Decl.methods ds ∧ m.symbol = some b := by
  cases h.declares.declared hb with
  | method hm hs hd' =>
    rw [hd] at hd'
    cases hd'
    exact ⟨_, Decl.mem_methods.mpr hm, hs⟩
  | system hb =>
    subst hb
    cases hd
  | _ =>
    rename_i hd'
    rw [hd] at hd'
    cases hd'

theorem Accepted.exists_field {b : Symbol} {type : TypeExpr} {st : Bool} {owner : List String}
    (hb : t.Bound b) (hd : b.details = .var type (.field st owner)) :
    ∃ v, (owner, v) ∈ Decl.fields ds ∧ v.symbol = some b := by
  cases h.declares.declared hb with
  | field hf hv hs hd' =>
    rw [hd] at hd'
    cases hd'
    exact ⟨_, Decl.mem_fields.mpr ⟨_, hf, hv⟩, hs⟩
  | system hb =>
    subst hb
    cases hd
  | _ =>
    rename_i hd'
    rw [hd] at hd'
    cases hd'

theorem Accepted.exists_class {b : Symbol} {path : List String} {ms : List Modifier}
    (hb : t.Bound b) (hd : b.details = .cls path ms false) :
    ∃ head, .cls path head ∈ ds ∧ head.modifiers = ms := by
  cases h.declares.declared hb with
  | cls hc hs hd' =>
    rw [hd] at hd'
    cases hd'
    exact ⟨_, hc, rfl⟩
  | system hb =>
    subst hb
    cases hd
  | _ =>
    rename_i hd'
    rw [hd] at hd'
    cases hd'

omit h in
theorem asmTypes_of_entries {k : ScopeId} {params : List Param}
    {entries : List (AsmType × String)}
    (he : List.Forall₂ (fun p e => (meaning t k p.type).toAsm = .ok e.1) params entries) :
    Lowering.asmTypes ((params.map Param.type).map (meaning t k)) =
      .ok (entries.map Prod.fst) := by
  induction he with
  | nil => rfl
  | cons ha _ ih =>
    simp only [List.map_cons, Lowering.asmTypes, ha, ih, bind, Except.bind, pure, Except.pure]

/-- The head of a method gives the parameter types that were recorded for it. -/
theorem Accepted.asmTypes_params {path : List String} {m : Method}
    {entries : List (AsmType × String)} (hm : .method path m ∈ ds)
    (hp : target.paramEntries m.params = .ok entries) {b : Symbol} (hb : m.symbol = some b)
    {Ts : List Ty} (hTs : target.resolutions.params? b = some Ts) :
    Lowering.asmTypes Ts = .ok (entries.map Prod.fst) := by
  obtain ⟨s, hs, hf⟩ := h.faithful
  obtain ⟨hbound, -, hdet, k, -, hparams, -⟩ := method_declared h.declares hm hb
  rw [← hs] at hTs
  obtain ⟨ps, _, _, _, _, hdet', rfl, -⟩ := hf.params hbound hTs
  rw [hdet] at hdet'
  cases hdet'
  refine asmTypes_of_entries ?_
  refine Lowering.forall₂_imp_of_mem (Lowering.paramEntries_inv hp) fun p e hpm he => ?_
  obtain ⟨q, hq, ha, -⟩ := he
  obtain ⟨hqb, hqw⟩ := hparams p hpm q hq
  obtain ⟨U, hU, hasm⟩ := Lowering.symbolType_eq_ok_iff.mp ha
  rw [← hs] at hU
  obtain ⟨scope, written, hw, rfl, -⟩ := hf.types hqb hU
  obtain ⟨rfl, rfl⟩ := hw.unique h.declares.sound hqw
  exact hasm

/-- A call means one method, the one that typing chose. -/
theorem Accepted.call_links {b : Symbol} {ps : List TypeExpr} {ret : TypeExpr} {ms : List Modifier}
    {owner : List String} {Ts : List Ty} {T : Ty} {as : List AsmType} {a : AsmType}
    (hb : t.Bound b) (hd : b.details = .method ps ret ms owner none)
    (hTs : target.resolutions.params? b = some Ts) (has : Lowering.asmTypes Ts = .ok as)
    (hT : target.resolutions.type? b = some T) (ha : T.toAsm = .ok a)
    (ho : ∀ o, t.Bound o → o.isMethod = true → o.declaredIn = b.declaredIn →
      o.name = b.name → ∃ ps, target.resolutions.params? o = some ps ∧ (ps = Ts → o = b))
    (st : Bool) :
    ∃ d, img.methods.filter (·.answers ⟨st, a, owner, b.name, as⟩) = [d] ∧ d.returns = a ∧
      d.isStatic = runsStatic target.entry b := by
  have hsound := h.declares.sound
  obtain ⟨s, hs, hf⟩ := h.faithful
  obtain ⟨decl, hmem, hsym⟩ := h.exists_method hb hd
  have hfilled : ∀ x ∈ Decl.methods ds, x.2.symbol ≠ none := fun ⟨path, m⟩ hx =>
    (h.prepared _ (Decl.mem_methods.mp hx)).filled.1
  have hkeys := Decl.pairwise_symbol_ne (Decl.methodSymbols_sublist ds) h.declares.ordered hfilled
  have hone := filter_eq_singleton_of_key h.emits.methods hkeys hmem
    (p := (·.answers ⟨st, a, owner, b.name, as⟩)) ?_
  · obtain ⟨d, hfilter, hemits⟩ := hone
    refine ⟨d, hfilter, ?_⟩
    cases hemits with
    | intro hb' hr =>
      obtain rfl := Option.some.inj (hsym.symm.trans hb')
      rw [Lowering.symbolType_ok hT ha] at hr
      cases hr
      exact ⟨rfl, rfl⟩
  rintro ⟨path, m⟩ hx y hy
  obtain ⟨b', hb'⟩ := Option.ne_none_iff_exists'.mp (hfilled _ hx)
  obtain ⟨hbound', hmethod', hdet', -⟩ :=
    method_declared h.declares (Decl.mem_methods.mp hx) hb'
  obtain ⟨howner, hyname, hyparams⟩ : y.owner = path ∧ y.name = b'.name ∧
      target.paramEntries m.params = .ok y.params := by
    cases hy with
    | intro hb'' _ hp =>
      obtain rfl := Option.some.inj (hb'.symm.trans hb'')
      exact ⟨rfl, rfl, hp⟩
  have hxm := Decl.mem_methods.mp hx
  change _ ↔ m.symbol = decl.symbol
  rw [MethodDef.answers_iff, howner, hyname, hb', hsym, Option.some.injEq]
  constructor
  · rintro ⟨rfl, hname, hparams⟩
    -- Both are declared in the class at the path, so typing compared their parameters.
    have hfits := hsound.fits b hb
    have hfits' := hsound.fits b' hbound'
    simp only [Table.Fits, hd] at hfits
    simp only [Table.Fits, hdet'] at hfits'
    obtain ⟨qs, hqs, heq⟩ := ho b' hbound' hmethod' (hfits'.scope_unique hsound hfits) hname
    have hasm := h.asmTypes_params hxm hyparams hb' hqs
    rw [hparams] at hasm
    rw [← hs] at hTs hqs
    obtain ⟨_, _, _, _, _, -, rfl, -⟩ := hf.params hb hTs
    obtain ⟨_, _, _, _, _, -, rfl, -⟩ := hf.params hbound' hqs
    exact heq (asmTypes_meaning_inj hsound hasm has)
  · rintro rfl
    rw [hd] at hdet'
    cases hdet'
    have hasm := h.asmTypes_params hxm hyparams hb' hTs
    rw [has] at hasm
    exact ⟨rfl, rfl, (Except.ok.inj hasm).symm⟩

theorem Accepted.field_links {b : Symbol} {type : TypeExpr} {st : Bool} {owner : List String}
    {T : Ty} {a : AsmType} (hb : t.Bound b) (hd : b.details = .var type (.field st owner))
    (hT : target.resolutions.type? b = some T) (ha : T.toAsm = .ok a) :
    ∃ v, img.fields.filter (·.answers ⟨a, owner, b.name⟩) = [v] ∧ v.type = a ∧ v.isStatic = st := by
  have hsound := h.declares.sound
  obtain ⟨decl, hmem, hsym⟩ := h.exists_field hb hd
  obtain ⟨vars, hperm, hfields⟩ := h.emits.fields
  have hfilled : ∀ x ∈ Decl.fields ds, x.2.symbol ≠ none := by
    rintro ⟨path, v⟩ hx
    obtain ⟨d, hdm, hv⟩ := Decl.mem_fields.mp hx
    exact (h.prepared _ hdm).filled _ (List.mem_map_of_mem hv)
  have hkeys := Decl.pairwise_symbol_ne (Decl.fieldSymbols_sublist ds) h.declares.ordered hfilled
  have hkeys' := (hperm.pairwise_iff fun {x y} hne => Ne.symm hne).mpr hkeys
  have hone := filter_eq_singleton_of_key hfields hkeys' (hperm.mem_iff.mpr hmem)
    (p := (·.answers ⟨a, owner, b.name⟩)) ?_
  · obtain ⟨v, hfilter, hemits⟩ := hone
    refine ⟨v, hfilter, ?_⟩
    cases hemits with
    | intro hb' ht =>
      obtain rfl := Option.some.inj (hsym.symm.trans hb')
      rw [Lowering.symbolType_ok hT ha] at ht
      cases ht
      exact ⟨rfl, by simp [Lowering.isStaticField, hd]⟩
  rintro ⟨path, v⟩ hx y hy
  rw [hperm.mem_iff] at hx
  obtain ⟨d, hdm, hv⟩ := Decl.mem_fields.mp hx
  cases hy with
  | @intro _ _ b' _ hb' =>
    have hslot : (⟨v.name.text, d.type, v.symbol⟩ : VarSlot) ∈ d.slots := List.mem_map_of_mem hv
    have hdet' := (h.declares.placed _ hdm _ hslot b' hb').2
    have hbound' := h.declares.bound_of_mem hdm (List.mem_filterMap.mpr ⟨_, hslot, hb'⟩)
    change _ ↔ v.symbol = decl.symbol
    rw [FieldDef.answers_iff, hb', hsym, Option.some.injEq]
    constructor
    · rintro ⟨rfl, hname⟩
      exact hsound.eq_of_field hbound' hb hdet' hd hname
    · rintro rfl
      rw [hd] at hdet'
      cases hdet'
      exact ⟨rfl, rfl⟩

theorem Accepted.field_entry {b : Symbol} {type : TypeExpr} {st : Bool} {owner : List String}
    {T : Ty} (hb : t.Bound b) (hd : b.details = .var type (.field st owner))
    (hT : target.resolutions.type? b = some T) :
    ∃ f ∈ img.fields, f.isStatic = st ∧ f.owner = owner ∧ f.name = b.name ∧
      T.toAsm = .ok f.type := by
  obtain ⟨a, ha⟩ := h.writable.types hb hT
  obtain ⟨f, hfilter, rfl, hst⟩ := h.field_links hb hd hT ha
  have hmem : f ∈ img.fields.filter (·.answers ⟨f.type, owner, b.name⟩) := by
    rw [hfilter]
    exact List.mem_singleton_self f
  obtain ⟨hf, hanswers⟩ := List.mem_filter.mp hmem
  obtain ⟨howner, hname⟩ := FieldDef.answers_iff.mp hanswers
  exact ⟨f, hf, hst, howner, hname, ha⟩

theorem Accepted.field_symbol {f : FieldDef} (hf : f ∈ img.fields) :
    ∃ b type, t.Bound b ∧ b.details = .var type (.field f.isStatic f.owner) ∧ b.name = f.name ∧
      Lowering.symbolType target.resolutions b = .ok f.type := by
  obtain ⟨vars, hperm, hfields⟩ := h.emits.fields
  obtain ⟨⟨path, v⟩, hv, hemits⟩ := Lowering.exists_of_forall₂_right hfields hf
  obtain ⟨d, hd, hv⟩ := Decl.mem_fields.mp (hperm.mem_iff.mp hv)
  cases hemits with
  | @intro _ _ b _ hb ht =>
    have hslot : (⟨v.name.text, d.type, v.symbol⟩ : VarSlot) ∈ d.slots := List.mem_map_of_mem hv
    obtain ⟨-, hdet⟩ := h.declares.placed _ hd _ hslot b hb
    obtain ⟨hbound, -⟩ := field_declared h.declares hd v hv b hb
    exact ⟨b, d.type, hbound, by simp [Lowering.isStaticField, hdet], rfl, ht⟩

/-- What the code of a method refers to is declared, and may be used in that method. -/
theorem Accepted.refers {d : MethodDef} (hd : d ∈ img.bodies) {i : Instr}
    (hi : .instr i ∈ d.code) (hp : Lowering.isPlain i = false) :
    ∃ ctx : Context, ctx.table = t ∧ ctx.entry = target.entry ∧ ctx.isStatic = d.isStatic ∧
      ctx.owner? = some d.owner ∧ Lowering.Refers ctx target.resolutions i := by
  rcases List.mem_append.mp hd with hd | hd
  · obtain ⟨⟨path, m⟩, hm, hcompiled⟩ := Lowering.exists_of_forall₂_right h.methods hd
    cases hcompiled with
    | @intro _ _ b k _ _ _ _ _ items _ _ hb _ _ _ _ _ _ _ _ hcodes =>
      obtain ⟨-, -, hdet, -⟩ := method_declared h.declares (Decl.mem_methods.mp hm) hb
      refine ⟨⟨t, k, some b, target.entry⟩, rfl, rfl, rfl, ?_, ?_⟩
      · simp [Context.owner?, Symbol.methodOwner?, hdet]
      rcases List.mem_append.mp hi with hi | hi
      · exact hcodes.refers i hi
      · cases List.mem_singleton.mp hi
        cases hp
  · obtain ⟨_, _, -, -, rfl⟩ := (h.emits.ctors d).mp hd
    simp only [MethodDef.ctor, Lowering.ctorCode, List.mem_cons, Lowering.Item.instr.injEq,
      List.not_mem_nil, or_false] at hi
    rcases hi with rfl | rfl | rfl <;> cases hp

theorem Accepted.links : img.Links := by
  constructor
  · intro d hd r hr
    obtain ⟨ctx, rfl, hentry, -, -, b, Ts, T, _, hb, -, hTs, hT, hcall, ho⟩ := h.refers hd hr rfl
    cases hcall with
    | shared hdet has ha hs =>
      rw [← hs, hentry]
      exact h.call_links hb hdet hTs has hT ha ho _
    | own hdet has ha hs =>
      rw [← hs, hentry]
      exact h.call_links hb hdet hTs has hT ha ho _
  · intro d hd r hr hst
    obtain ⟨ctx, -, -, hstatic, howner, b, Ts, T, _, -, -, -, -, hcall, -⟩ := h.refers hd hr rfl
    cases hcall with
    | shared => cases hst
    | own _ _ _ _ hs ho => exact ⟨hstatic ▸ hs, Option.some.inj (howner.symm.trans ho)⟩
  · intro d hd r hr
    have hrefers : ∃ ctx : Context, ctx.table = t ∧ ctx.isStatic = d.isStatic ∧
        ctx.owner? = some d.owner ∧ Lowering.Refers ctx target.resolutions (.ldfld r) := by
      rcases hr with hr | hr
      all_goals
        obtain ⟨ctx, ht, -, hs, ho, hrefers⟩ := h.refers hd hr rfl
        exact ⟨ctx, ht, hs, ho, hrefers⟩
    obtain ⟨ctx, rfl, hstatic, howner, b, T, f, hb, hT, hplace⟩ := hrefers
    cases hplace with
    | own hdet ha hs ho =>
      exact ⟨h.field_links hb hdet hT ha, hstatic ▸ hs, Option.some.inj (howner.symm.trans ho)⟩
  · intro d hd r hr
    have hrefers : ∃ ctx : Context, ctx.table = t ∧
        Lowering.Refers ctx target.resolutions (.ldsfld r) := by
      rcases hr with hr | hr
      all_goals
        obtain ⟨ctx, ht, -, -, -, hrefers⟩ := h.refers hd hr rfl
        exact ⟨ctx, ht, hrefers⟩
    obtain ⟨ctx, rfl, b, T, f, hb, hT, hplace⟩ := hrefers
    cases hplace with
    | shared hdet ha => exact h.field_links hb hdet hT ha
  · intro d hd path hpath
    obtain ⟨ctx, rfl, -, -, -, c, ms, hc, hdet, hst⟩ := h.refers hd hpath rfl
    obtain ⟨head, hhead, rfl⟩ := h.exists_class hc hdet
    exact ⟨(h.emits.classes path).mpr ⟨head, hhead⟩, _,
      (h.emits.ctors _).mpr ⟨path, head, hhead, hst, rfl⟩, rfl⟩

end

/-- Every reference in the assembly of an accepted unit links to exactly one definition of the same
shape. -/
theorem references_link (u : CompilationUnit) (options : Options) (listing : Listing)
    (hf : u.isFresh = true) (hc : (compile u options).result = .ok (some listing)) :
    listing.image.Links := by
  obtain ⟨t, entry, h⟩ := accepted_of_compile hf hc
  exact h.links

theorem references_link_sample : ∃ listing,
    (compile Sample.unit .default).result = .ok (some listing) ∧
      listing.image.methods.length = 4 ∧ listing.image.Links := by
  obtain ⟨listing, hl, hcount⟩ := Sample.unit_accepted
  exact ⟨listing, hl, hcount, references_link Sample.unit .default listing (by decide) hl⟩

end ClassLang
