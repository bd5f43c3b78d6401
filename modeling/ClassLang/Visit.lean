import ClassLang.Fault

/-! Visits. A pass rebuilds each node it visits with the annotations it makes, and threads a state.
A fault stops the visit: the nodes after it stay as they were, while the node and the state keep
what was done before it. -/
namespace ClassLang

structure Visited (σ ν α : Type) where
  node : ν
  answer : Except Fault α
  state : σ

abbrev Visit (σ ν α : Type) := σ → Visited σ ν α

namespace Visit

variable {σ ν μ α β : Type}

def done (node : ν) (answer : α) : Visit σ ν α := fun s => ⟨node, .ok answer, s⟩

def fail (node : ν) (fault : Fault) : Visit σ ν α := fun s => ⟨node, .error fault, s⟩

/-- Visits a part and goes on with the rest; after a fault, `put` gives back the whole. -/
def part (visit : Visit σ ν α) (put : ν → μ) (rest : ν → α → Visit σ μ β) : Visit σ μ β := fun s =>
  match visit s with
  | ⟨node, .ok answer, s⟩ => rest node answer s
  | ⟨node, .error fault, s⟩ => ⟨put node, .error fault, s⟩

/-- A visit succeeds exactly if its part and its rest do. -/
theorem part_ok_iff {visit : Visit σ ν α} {put : ν → μ} {rest : ν → α → Visit σ μ β} {s t : σ}
    {node : μ} {answer : β} :
    visit.part put rest s = ⟨node, .ok answer, t⟩ ↔
      ∃ n a u, visit s = ⟨n, .ok a, u⟩ ∧ rest n a u = ⟨node, .ok answer, t⟩ := by
  unfold part
  rcases visit s with ⟨n, _ | a, u⟩
  · simp
  · constructor
    · intro h
      exact ⟨n, a, u, rfl, h⟩
    · rintro ⟨_, _, _, h, k⟩
      cases h
      exact k

def within (visit : Visit σ ν α) (put : ν → μ) : Visit σ μ α :=
  visit.part put fun node answer => done (put node) answer

theorem within_ok_iff {visit : Visit σ ν α} {put : ν → μ} {s t : σ} {node : μ} {answer : α} :
    visit.within put s = ⟨node, .ok answer, t⟩ ↔
      ∃ n, visit s = ⟨n, .ok answer, t⟩ ∧ put n = node := by
  unfold within
  rw [part_ok_iff]
  constructor
  · rintro ⟨n, a, u, h, k⟩
    cases k
    exact ⟨n, h, rfl⟩
  · rintro ⟨n, h, rfl⟩
    exact ⟨n, answer, t, h, rfl⟩

def optional (visit : ν → Visit σ ν α) : Option ν → Visit σ (Option ν) (Option α)
  | none => done none none
  | some node => (visit node).part some fun node answer => done (some node) (some answer)

def each (visit : ν → Visit σ ν Unit) : List ν → Visit σ (List ν) Unit
  | [] => done [] ()
  | node :: rest =>
    (visit node).part (· :: rest) fun node _ => (each visit rest).within (node :: ·)

end Visit

def fillSlot (slot : Option Symbol) (symbol : Symbol) (what : Mark) (name : String) :
    Except Fault (Option Symbol) :=
  match slot with
  | none => .ok (some symbol)
  | some _ => .error (.annotatedTwice what name)

end ClassLang
