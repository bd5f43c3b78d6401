import ClassLang.Proofs.Interpreter
import ClassLang.Proofs.Simulation
import ClassLang.Proofs.Stripped
import ClassLang.Proofs.Wide

/-! Assembly means what its source means: a static method that runs to its end in the source runs to
the same result, the same static fields and the same output on the machine. Where positions run out,
a method may read another parameter than the one that is written. -/
namespace ClassLang

open Assembly

def Assembly.Image.Holds (img : Image) (w : World Value) : Prop :=
  ∀ f ∈ img.fields, f.isStatic = true → f.type.holds (w.statics f.owner f.name) = true

theorem Accepted.fits {t : Table} {target : Lowering.Target} {ds : List Decl} {img : Image}
    (h : Accepted t target ds img) {w : World Value} (hw : img.Holds w) :
    w.Fits t target.resolutions := by
  intro b type owner T hb hd hT
  obtain ⟨f, hf, hst, rfl, hname, hasm⟩ := h.field_entry hb hd hT
  rw [Ty.holds_of_toAsm hasm, ← hname]
  exact hw f hf hst

/-- What a static method of an accepted unit does in the source, its code does on the machine, if no
variable has the type `void` and positions and slots do not run out. The annotated unit that runs
is the given one but for its annotations. -/
theorem code_preserves_meaning (cmp : Comparison) {u : CompilationUnit} {options : Options}
    {listing : Listing} (hf : u.isFresh = true) (hv : u.isVoidFree = true) (hn : u.isNarrow = true)
    (hc : (compile u options).result = .ok (some listing)) :
    (compile u options).unit.strip = u ∧ List.Forall₂
      (fun x d => d.isStatic = true → ∀ args w r w',
        List.Forall₂ (fun p v => p.1.holds v = true) d.params args → listing.image.Holds w →
        Runs (Decl.methods (compile u options).unit.decls) x.2 args w r w' →
        Machine.Reaches cmp listing.image (.start d (args.map Value.cell) w.cells)
          (.halted (r.map Value.cell) w'.cells))
      (Decl.methods (compile u options).unit.decls) listing.image.methods := by
  refine ⟨(compile_strip u options).trans (CompilationUnit.strip_of_isFresh hf), ?_⟩
  obtain ⟨t, entry, hacc, hvoid, hnarrow⟩ := accepted_with_conditions hf hc
  refine Lowering.forall₂_imp_of_mem hacc.methods fun ⟨path, m⟩ d hm hd hs => ?_
  intro args w r w' hargs hw hrun
  obtain ⟨B, rfl, rfl, rfl, -, -⟩ := Accepted.exists_body hm hd hs
  have hanswers : B.Answers cmp _ args w r w' :=
    runs_answers ⟨hacc, hvoid hv, hnarrow hn⟩ hrun B rfl
  exact (hanswers hargs (hacc.fits hw)).2.2 []

/-- Counts to three in a loop, calling a method in each round, and writes a line. -/
theorem code_preserves_meaning_sample : ∃ listing,
    (compile Sample.unit .default).result = .ok (some listing) ∧
    (compile Sample.unit .default).unit.strip = Sample.unit ∧
    ∃ d ∈ listing.image.methods, ∃ w, Machine.Reaches .least listing.image
        (.start d [.word 3] (World.cells ⟨fun _ _ => .int 0, 0, []⟩)) (.halted (some (.word 6)) w) ∧
      w.objects = 1 ∧ w.output = [(.writeLine, "big")] := by
  have hlisting : (compile Sample.unit .default).assembly.map
      (fun l => (l.image.methods.map (fun d => (d.isStatic, d.params)),
        l.image.fields.all (fun f => !f.isStatic || f.type.holds (.int 0)))) =
      some ([(true, [(.int32, "n")]), (true, [(.int32, "a"), (.int32, "b")]),
        (true, [(.string, "a"), (.string, "b")]), (false, [(.string, "s")])], true) := by
    decide +kernel
  obtain ⟨listing, hl, heq⟩ := Option.map_eq_some_iff.mp hlisting
  obtain ⟨hmethods, hfields⟩ := Prod.ext_iff.mp heq
  have hrun : (Decl.methods (compile Sample.unit .default).unit.decls).head?.bind (fun x =>
      (Interpreter.run (Decl.methods (compile Sample.unit .default).unit.decls) 30 x.2 [.int 3]
        ⟨fun _ _ => .int 0, 0, []⟩).map fun r => (r.1, r.2.objects, r.2.output)) =
      some (some (.int 6), 1, [(.writeLine, "big")]) := by
    decide +kernel
  obtain ⟨x, hx, hrun⟩ := Option.bind_eq_some_iff.mp hrun
  obtain ⟨⟨r, w⟩, hr, hend⟩ := Option.map_eq_some_iff.mp hrun
  have hresult := Compilation.result_of_assembly hl
  obtain ⟨hstrip, hall⟩ :=
    code_preserves_meaning .least (by decide +kernel) (by decide +kernel) (by decide +kernel)
      hresult
  obtain ⟨rest, hrest⟩ := List.head?_eq_some_iff.mp hx
  generalize hP : Decl.methods (compile Sample.unit .default).unit.decls = P at *
  rw [hrest] at hall
  generalize hds : listing.image.methods = ds at *
  cases hall with
  | @cons _ d _ ds hfirst _ =>
    simp only [List.map_cons, List.cons.injEq, Prod.mk.injEq] at hmethods hend
    obtain ⟨rfl, hobjects, houtput⟩ := hend
    refine ⟨listing, hresult, hstrip, d, by rw [hds]; exact List.mem_cons_self, w.cells, ?_,
      hobjects, houtput⟩
    refine hfirst hmethods.1.1 [.int 3] _ _ _ ?_ ?_ (hrest ▸ Interpreter.run_sound hr)
    · rw [hmethods.1.2]
      exact .cons rfl .nil
    · intro f hf hs
      have := List.all_eq_true.mp hfields f hf
      simpa [hs] using this

namespace Wide

variable {front : List Param} {last : Param}

/-- A method starts with the last argument as its last parameter, if no other has its name. -/
theorem start_last {m : Method} {args : List Value} {v : Value}
    (he : m.params.map Param.erase = (front ++ [last]).map Param.erase)
    (hn : ((front ++ [last]).map fun p => p.name.text).Nodup)
    (hv : args[front.length]? = some v) : m.start args last.name.text = v := by
  have hnames : m.params.map (fun p => p.name.text) =
      (front ++ [last]).map fun p => p.name.text := by
    have hmap := congrArg (List.map fun p : Param => p.name.text) he
    simpa [List.map_map, Param.erase, Function.comp_def] using hmap
  have hlast : (m.params.map fun p => p.name.text)[front.length]? = some last.name.text := by
    rw [hnames]
    simp
  obtain ⟨p, hat, hname⟩ := Option.map_eq_some_iff.mp ((List.getElem?_map ..).symm.trans hlast)
  have hmem : (p, v) ∈ m.params.zip args :=
    List.mem_of_getElem? (List.getElem?_zip_eq_some.mpr ⟨hat, hv⟩)
  have hfind : (m.params.zip args).find? (fun x => x.1.name.text == last.name.text) =
      some (p, v) := by
    refine find?_eq_some_of_unique hmem (by simp [hname]) ?_
    rintro ⟨q, w⟩ hx hqname
    obtain ⟨j, hj⟩ := List.getElem?_of_mem hx
    obtain ⟨hjq, hjw⟩ := List.getElem?_zip_eq_some.mp hj
    have hj' : (m.params.map fun p => p.name.text)[j]? = some last.name.text := by
      rw [List.getElem?_map, hjq]
      simpa using hqname
    obtain rfl : j = front.length :=
      (List.getElem?_inj (List.getElem?_eq_some_iff.mp hj').1 (hnames ▸ hn)).mp
        (hj'.trans hlast.symm)
    exact Prod.ext (Option.some.inj (hjq.symm.trans hat)) (Option.some.inj (hjw.symm.trans hv))
  simp only [Method.start, hfind]

def args : List Value := List.replicate 65536 (.bool false) ++ [.str "last"]

theorem length_args : args.length = 65537 := by
  rw [args, List.length_append, List.length_replicate]
  rfl

theorem last_arg : args[65536]? = some (.str "last") := by
  rw [args, List.getElem?_append_right (Nat.le_of_eq List.length_replicate), List.length_replicate]
  rfl

theorem flag_arg {i : Nat} (h : i < 65536) : args[i]? = some (.bool false) := by
  rw [args, List.getElem?_append_left (by rw [List.length_replicate]; exact h),
    List.getElem?_replicate, if_pos h]

theorem holds_args {params : List (AsmType × String)}
    (hl : params.length = (flags ++ [text]).length)
    (hp : ∀ (i : Nat) (p : Param) word span, (flags ++ [text])[i]? = some p →
      p.type = .keyword word span →
      ∃ a name, params[i]? = some (a, name) ∧ (Ty.ofKeyword word).toAsm = .ok a) :
    List.Forall₂ (fun p v => p.1.holds v = true) params args := by
  have hlength : params.length = 65537 := by
    rw [hl, List.length_append, length_flags]
    rfl
  refine List.forall₂_iff_get.mpr ⟨hlength.trans length_args.symm, fun i h₁ h₂ => ?_⟩
  have hat := List.getElem?_eq_getElem h₁
  have harg := List.getElem?_eq_getElem h₂
  rw [List.get_eq_getElem, List.get_eq_getElem]
  by_cases hi : i < 65536
  · obtain ⟨a, name, ha, hasm⟩ := hp i _ .boolean .null (flag_at hi) rfl
    rw [← Option.some.inj (ha.symm.trans hat), ← Option.some.inj ((flag_arg hi).symm.trans harg)]
    cases hasm
    rfl
  · obtain rfl : i = 65536 := by omega
    obtain ⟨a, name, ha, hasm⟩ := hp 65536 _ .string .null text_at rfl
    rw [← Option.some.inj (ha.symm.trans hat), ← Option.some.inj (last_arg.symm.trans harg)]
    cases hasm
    rfl

end Wide

/-- A method that is too wide may give back another parameter on the machine than in the source,
though the unit is accepted. -/
theorem wide_run_differs : (Wide.unit Wide.flags Wide.text).isFresh = true ∧
    (Wide.unit Wide.flags Wide.text).isVoidFree = true ∧
    ∃ listing, (compile (Wide.unit Wide.flags Wide.text) .default).result = .ok (some listing) ∧
      ∀ cmp, ¬ List.Forall₂
        (fun x d => d.isStatic = true → ∀ args w r w',
          List.Forall₂ (fun p v => p.1.holds v = true) d.params args → listing.image.Holds w →
          Runs (Decl.methods (compile (Wide.unit Wide.flags Wide.text) .default).unit.decls)
            x.2 args w r w' →
          Machine.Reaches cmp listing.image (.start d (args.map Value.cell) w.cells)
            (.halted (r.map Value.cell) w'.cells))
        (Decl.methods (compile (Wide.unit Wide.flags Wide.text) .default).unit.decls)
        listing.image.methods := by
  obtain ⟨listing, m, d, q, T, hresult, hmethods, himg, hfields, he, hbody, hname, ⟨type, i, hd⟩,
    hstatic, hcode, hlength, hparams, hret⟩ :=
    Wide.compiled .default Wide.symbol_params Wide.names_nodup Wide.isKeyword_params
  refine ⟨Wide.isFresh_unit Wide.symbol_params, Wide.isVoidFree_unit, listing, hresult, ?_⟩
  intro cmp hall
  let w : World Value := ⟨fun _ _ => .null, 0, []⟩
  have hruns : Runs (Decl.methods (compile (Wide.unit Wide.flags Wide.text) .default).unit.decls)
      m Wide.args w (some (.str "last")) w := by
    have hstart := Wide.start_last he Wide.names_nodup (Wide.length_flags ▸ Wide.last_arg)
    refine .body (s := ⟨m.start Wide.args, w⟩) ?_ hbody (.stop (.ret (.var rfl ?_))) rfl
    · rw [Wide.length_args, ← List.length_map Param.erase, he, List.length_map, List.length_append,
        Wide.length_flags]
      rfl
    · simp [Store.get, hd, hname, hstart]
  -- The position of the last parameter, cut to 16 bits, is that of the first one.
  have hhalts : Machine.Reaches cmp listing.image (.start d (Wide.args.map Value.cell) w.cells)
      (.halted (some (.word 0)) w.cells) := by
    have hfirst : (Wide.args.map Value.cell)[0]? = some (.word 0) := by
      rw [List.getElem?_map, Wide.flag_arg (by decide)]
      rfl
    have hreturns := hret .string .null rfl
    injection hreturns with hreturns
    let vars := d.variables (Wide.args.map Value.cell)
    have hload : Machine.Reaches cmp listing.image (.start d (Wide.args.map Value.cell) w.cells)
        (.running ⟨d, [.instr .ret, .instr .ret], [.word 0], vars⟩ [] w.cells) := by
      rw [Machine.start, MethodDef.enter, hcode, Wide.length_flags]
      exact Machine.reaches_act (by simp [Instr.act.eq_def, MethodDef.variables, hfirst, vars])
    have hleave : Machine.Reaches cmp listing.image
        (.running ⟨d, [.instr .ret, .instr .ret], (some (.word 0)).toList, vars⟩ [] w.cells)
        (.back (some (.word 0)) [] w.cells) :=
      Machine.reaches_ret ⟨by simp, fun hvoid => by cases hreturns.trans hvoid⟩
    exact hload.trans hleave
  rw [hmethods, himg] at hall
  cases hall with
  | cons hfirst _ =>
    rw [hmethods] at hruns
    have hother := hfirst hstatic Wide.args w _ w (Wide.holds_args hlength hparams)
      (by simp [Image.Holds, hfields]) hruns
    cases (Machine.Reaches.halted_unique hhalts hother).1

end ClassLang
