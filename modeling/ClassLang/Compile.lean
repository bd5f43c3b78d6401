import ClassLang.Lowering.Unit
import ClassLang.Registration
import ClassLang.Typing.Unit

/-! A whole run: registration, typing and, if nothing was reported, lowering. -/
namespace ClassLang

structure Compilation where
  /-- The unit with its annotations, as far as the run came. -/
  unit : CompilationUnit
  resolutions : Resolutions
  diagnostics : List Diagnostic
  result : Except Fault (Option Assembly.Listing)

/-- A run with a table of its own, which makes its symbols under `tag`. -/
def compileFrom (resolutions : Resolutions) (tag : Nat) (u : CompilationUnit) (options : Options) :
    Compilation :=
  let registered := Registration.registerUnit u (.withSystem tag) []
  match registered.answer with
  | .error fault => ⟨registered.node, resolutions, registered.state.diagnostics, .error fault⟩
  | .ok _ =>
    let typed := Typing.annotateUnit registered.node registered.state.table options.entry
      ⟨resolutions, registered.state.diagnostics⟩
    let finish := Compilation.mk typed.node typed.state.resolutions typed.state.diagnostics
    match typed.answer with
    | .error fault => finish (.error fault)
    | .ok _ =>
      if typed.state.diagnostics.isEmpty then
        finish ((Lowering.assemble typed.node typed.state.resolutions options).map some)
      else finish (.ok none)

def compile (u : CompilationUnit) (options : Options) : Compilation :=
  compileFrom .empty 0 u options

end ClassLang
