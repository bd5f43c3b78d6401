import ClassLang.Assembly.Instr

/-! Code on its way: what was written, and the fault that ended the writing. What was written before
a fault stays, and nothing follows it. An emission is a list of instructions; code also has labels
and numbers them from the first free number on. -/
namespace ClassLang.Lowering

open Assembly

structure Emission where
  instrs : List Instr
  fault : Option Fault
  deriving DecidableEq

namespace Emission

def of (instrs : List Instr) : Emission := ⟨instrs, none⟩

def fail (fault : Fault) : Emission := ⟨[], some fault⟩

def append (a b : Emission) : Emission :=
  match a.fault with
  | none => ⟨a.instrs ++ b.instrs, b.fault⟩
  | some _ => a

instance : Append Emission := ⟨append⟩

def need {α : Type} (value : Except Fault α) (rest : α → Emission) : Emission :=
  match value with
  | .ok a => rest a
  | .error fault => fail fault

@[simp] theorem of_append (is : List Instr) (e : Emission) :
    of is ++ e = ⟨is ++ e.instrs, e.fault⟩ := rfl

/-- Two emissions in a row are whole exactly if both are. -/
theorem append_eq_of_iff {a b : Emission} {is : List Instr} :
    a ++ b = of is ↔ ∃ js ks, a = of js ∧ b = of ks ∧ is = js ++ ks := by
  obtain ⟨js, _ | f⟩ := a
  · obtain ⟨ks, g⟩ := b
    constructor
    · intro h
      injection h with h k
      exact ⟨js, ks, rfl, by rw [show g = none from k]; rfl, h.symm⟩
    · rintro ⟨_, _, h, k, rfl⟩
      injection h with h
      injection k with k l
      subst h k l
      rfl
  · constructor
    · intro h
      injection h with _ h
      cases h
    · rintro ⟨_, _, h, _⟩
      injection h with _ h
      cases h

theorem need_eq_of_iff {α : Type} {value : Except Fault α} {rest : α → Emission} {is : List Instr} :
    need value rest = of is ↔ ∃ a, value = .ok a ∧ rest a = of is := by
  cases value with
  | ok a => simp [need]
  | error fault => simp [need, fail, of]

end Emission

inductive Item where
  | instr (i : Instr)
  | label (l : Label)
  deriving DecidableEq

structure Block where
  items : List Item
  nextLabel : Nat
  fault : Option Fault
  deriving DecidableEq

abbrev Code := Nat → Block

namespace Code

def skip : Code := fun n => ⟨[], n, none⟩

def of (e : Emission) : Code := fun n => ⟨e.instrs.map .instr, n, e.fault⟩

def instrs (is : List Instr) : Code := of (.of is)

def mark (l : Label) : Code := fun n => ⟨[.label l], n, none⟩

def seq (a b : Code) : Code := fun n =>
  match a n with
  | ⟨xs, m, none⟩ =>
    match b m with
    | ⟨ys, next, fault⟩ => ⟨xs ++ ys, next, fault⟩
  | stopped => stopped

instance : Append Code := ⟨seq⟩

def fresh (stem : String) (rest : Label → Code) : Code := fun n => rest ⟨stem, n⟩ (n + 1)

theorem append_whole_iff {a b : Code} {n next : Nat} {items : List Item} :
    (a ++ b) n = ⟨items, next, none⟩ ↔
      ∃ xs m ys, a n = ⟨xs, m, none⟩ ∧ b m = ⟨ys, next, none⟩ ∧ items = xs ++ ys := by
  change seq a b n = _ ↔ _
  unfold seq
  rcases a n with ⟨xs, m, _ | f⟩
  · dsimp only
    rcases h : b m with ⟨ys, l, g⟩
    constructor
    · intro hab
      cases hab
      exact ⟨xs, m, ys, rfl, h, rfl⟩
    · rintro ⟨_, _, _, ha, hb, rfl⟩
      cases ha
      rw [h] at hb
      cases hb
      rfl
  · simp

end Code

end ClassLang.Lowering
