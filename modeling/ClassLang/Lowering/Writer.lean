import ClassLang.Assembly.Line
import ClassLang.Lowering.Emission

/-! Writing lines. The pen keeps the depth of the blocks around, the first free label and whether
the method being written has `this`. A fault ends the writing; the lines before it stay, and so does
the pen. -/
namespace ClassLang.Lowering

open Assembly

structure Pen where
  depth : Nat
  nextLabel : Nat
  hasThis : Bool
  deriving DecidableEq

def Pen.start : Pen := ⟨0, 0, false⟩

structure Written where
  lines : List Placed
  pen : Pen
  fault : Option Fault
  deriving DecidableEq

abbrev Writer := Pen → Written

namespace Writer

def line (l : Line) : Writer := fun pen => ⟨[⟨pen.depth, l⟩], pen, none⟩

/-- Labels stand one step left of the instructions. -/
def label (l : Line) : Writer := fun pen => ⟨[⟨pen.depth - 1, l⟩], pen, none⟩

def move (f : Pen → Pen) : Writer := fun pen => ⟨[], f pen, none⟩

def fail (fault : Fault) : Writer := fun pen => ⟨[], pen, some fault⟩

def seq (a b : Writer) : Writer := fun pen =>
  match a pen with
  | ⟨xs, pen, none⟩ =>
    match b pen with
    | ⟨ys, pen, fault⟩ => ⟨xs ++ ys, pen, fault⟩
  | stopped => stopped

instance : Append Writer := ⟨seq⟩

def skip : Writer := move id

theorem append_whole_iff {a b : Writer} {pen after : Pen} {lines : List Placed} :
    (a ++ b) pen = ⟨lines, after, none⟩ ↔
      ∃ xs p ys, a pen = ⟨xs, p, none⟩ ∧ b p = ⟨ys, after, none⟩ ∧ lines = xs ++ ys := by
  change seq a b pen = _ ↔ _
  unfold seq
  rcases a pen with ⟨xs, p, _ | f⟩
  · dsimp only
    rcases h : b p with ⟨ys, q, g⟩
    constructor
    · intro hab
      cases hab
      exact ⟨xs, p, ys, rfl, h, rfl⟩
    · rintro ⟨_, _, _, ha, hb, rfl⟩
      cases ha
      rw [h] at hb
      cases hb
      rfl
  · simp

def need {α : Type} (value : Except Fault α) (rest : α → Writer) : Writer :=
  match value with
  | .ok a => rest a
  | .error fault => fail fault

def enter : Writer := line .openBrace ++ move fun pen => { pen with depth := pen.depth + 1 }

def leave : Writer := (move fun pen => { pen with depth := pen.depth - 1 }) ++ line .closeBrace

def block (body : Writer) : Writer := enter ++ body ++ leave

def place (depth : Nat) : Item → Placed
  | .instr i => ⟨depth, .instr i⟩
  | .label l => ⟨depth - 1, .label l⟩

def code (c : Code) : Writer := fun pen =>
  let b := c pen.nextLabel
  ⟨b.items.map (place pen.depth), { pen with nextLabel := b.nextLabel }, b.fault⟩

def instrs (is : List Instr) : Writer := code (.instrs is)

end Writer

end ClassLang.Lowering
