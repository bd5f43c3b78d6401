import ClassLang.Proofs.Semantics

/-! The meaning of programs, computed. An interpreter runs for a number of steps and gives up when
they are used; whatever it finds has a derivation. -/
namespace ClassLang

mutual

def TypeExpr.decEq : (a b : TypeExpr) → Decidable (a = b)
  | .keyword v s, .keyword w t => decidable_of_iff (v = w ∧ s = t) (by simp)
  | .named v s, .named w t => decidable_of_iff (v = w ∧ s = t) (by simp)
  | .array a s, .array b t =>
    have := TypeExpr.decEq a b
    decidable_of_iff (a = b ∧ s = t) (by simp)
  | .generic a as s, .generic b bs t =>
    have := TypeExpr.decEq a b
    have := TypeExpr.decEqAll as bs
    decidable_of_iff (a = b ∧ as = bs ∧ s = t) (by simp)
  | .keyword .., .named .. | .keyword .., .array .. | .keyword .., .generic .. => isFalse nofun
  | .named .., .keyword .. | .named .., .array .. | .named .., .generic .. => isFalse nofun
  | .array .., .keyword .. | .array .., .named .. | .array .., .generic .. => isFalse nofun
  | .generic .., .keyword .. | .generic .., .named .. | .generic .., .array .. => isFalse nofun

def TypeExpr.decEqAll : (as bs : List TypeExpr) → Decidable (as = bs)
  | [], [] => isTrue rfl
  | [], _ :: _ | _ :: _, [] => isFalse nofun
  | a :: as, b :: bs =>
    have := TypeExpr.decEq a b
    have := TypeExpr.decEqAll as bs
    decidable_of_iff (a = b ∧ as = bs) (by simp)

end

instance : DecidableEq TypeExpr := TypeExpr.decEq

deriving instance DecidableEq for Details, Symbol

namespace Interpreter

mutual

def eval (P : List (List String × Method)) : Nat → Store → Expr → Option (Option Value × Store)
  | 0, _, _ => none
  | n + 1, s, e =>
    match e with
    | .literal value _ => some (some value.value, s)
    | .name q _ => do
      let b ← q.symbol
      if b.kind = .var then return (some (← s.get b), s) else return (none, s)
    | .unary op operand _ => do
      let (v, s₁) ← eval P n s operand
      return (some (← op.apply (← v)), s₁)
    | .binary op left right _ => do
      let (v, s₁) ← eval P n s left
      let (w, s₂) ← eval P n s₁ right
      return (some (← op.apply (← v) (← w)), s₂)
    | .assign (.name q _) value _ => do
      let b ← q.symbol
      let (v, s₁) ← eval P n s value
      return (v, ← s₁.set b (← v))
    | .call (.name q _) args _ => do
      let m ← q.symbol
      let (vs, s₁) ← evalAll P n s args
      match m.details, vs with
      | .method _ _ _ _ (some routine), [v] =>
        return (none, { s₁ with world := s₁.world.print routine (← v.shown) })
      | .method _ _ _ _ none, vs => do
        let x ← P.find? fun x => x.2.symbol = some m
        let (r, w) ← run P n x.2 vs s₁.world
        return (r, { s₁ with world := w })
      | _, _ => none
    | .create q [] _ => do
      match (← q.symbol).details with
      | .cls _ _ false => return (some (.ref s.world.objects), { s with world := s.world.grow })
      | _ => none
    | _ => none

def evalAll (P : List (List String × Method)) :
    Nat → Store → List Expr → Option (List Value × Store)
  | 0, _, _ => none
  | _ + 1, s, [] => some ([], s)
  | n + 1, s, e :: rest => do
    let (v, s₁) ← eval P n s e
    let (vs, s₂) ← evalAll P n s₁ rest
    return ((← v) :: vs, s₂)

def initAll (P : List (List String × Method)) : Nat → Store → List Declarator → Option Store
  | 0, _, _ => none
  | _ + 1, s, [] => some s
  | n + 1, s, v :: rest =>
    match v.init with
    | none => initAll P n s rest
    | some e => do
      let b ← v.symbol
      let (x, s₁) ← eval P n s e
      initAll P n (← s₁.set b (← x)) rest

def exec (P : List (List String × Method)) : Nat → Store → Stmt → Option (Outcome × Store)
  | 0, _, _ => none
  | n + 1, s, stmt =>
    match stmt with
    | .block body _ => execAll P n s body
    | .expr value _ _ => do
      let (_, s₁) ← eval P n s value
      return (.normal, s₁)
    | .locals d => do return (.normal, ← initAll P n s d.vars)
    | .ifThen cond body _ => do
      match ← eval P n s cond with
      | (some (.bool true), s₁) => exec P n s₁ body
      | (some (.bool false), s₁) => return (.normal, s₁)
      | _ => none
    | .ifElse cond body other _ => do
      match ← eval P n s cond with
      | (some (.bool true), s₁) => exec P n s₁ body
      | (some (.bool false), s₁) => exec P n s₁ other
      | _ => none
    | .loop cond body _ => do
      match ← eval P n s cond with
      | (some (.bool true), s₁) =>
        match ← exec P n s₁ body with
        | (.normal, s₂) => exec P n s₂ stmt
        | (.returned v, s₂) => return (.returned v, s₂)
      | (some (.bool false), s₁) => return (.normal, s₁)
      | _ => none
    | .ret none _ => some (.returned none, s)
    | .ret (some e) _ => do
      let (v, s₁) ← eval P n s e
      return (.returned v, s₁)
    | .empty _ => some (.normal, s)

def execAll (P : List (List String × Method)) :
    Nat → Store → List Stmt → Option (Outcome × Store)
  | 0, _, _ => none
  | _ + 1, s, [] => some (.normal, s)
  | n + 1, s, stmt :: rest => do
    match ← exec P n s stmt with
    | (.normal, s₁) => execAll P n s₁ rest
    | (.returned v, s₁) => return (.returned v, s₁)

def run (P : List (List String × Method)) :
    Nat → Method → List Value → World Value → Option (Option Value × World Value)
  | 0, _, _, _ => none
  | n + 1, m, args, w => do
    if args.length = m.params.length then
      let (o, s) ← execAll P n ⟨m.start args, w⟩ (← m.body)
      return (← o.result m, s.world)
    else none

end

section Soundness

variable {P : List (List String × Method)}

mutual

theorem eval_sound : ∀ {n : Nat} {s s' : Store} {e : Expr} {r : Option Value},
    eval P n s e = some (r, s') → Evals P s e r s'
  | 0, _, _, _, _, h => by simp [eval] at h
  | n + 1, s, s', e, r, h => by
    cases e with
    | literal value note =>
      cases h
      exact .literal
    | name q note =>
      obtain ⟨b, hb, h⟩ := Option.bind_eq_some_iff.mp h
      split at h
      · obtain ⟨v, hv, h⟩ := Option.bind_eq_some_iff.mp h
        cases h
        exact .var hb hv
      · next hk =>
        cases h
        exact .declaration hb hk
    | unary op operand note =>
      obtain ⟨⟨r, s₁⟩, ho, h⟩ := Option.bind_eq_some_iff.mp h
      obtain ⟨v, hv, h⟩ := Option.bind_eq_some_iff.mp h
      obtain ⟨w, hw, h⟩ := Option.bind_eq_some_iff.mp h
      cases h
      cases hv
      exact .unary (eval_sound ho) hw
    | binary op left right note =>
      obtain ⟨⟨_, s₁⟩, hl, h⟩ := Option.bind_eq_some_iff.mp h
      obtain ⟨⟨_, s₂⟩, hr, h⟩ := Option.bind_eq_some_iff.mp h
      obtain ⟨v, hv, h⟩ := Option.bind_eq_some_iff.mp h
      obtain ⟨w, hw, h⟩ := Option.bind_eq_some_iff.mp h
      obtain ⟨x, hx, h⟩ := Option.bind_eq_some_iff.mp h
      cases h
      cases hv
      cases hw
      exact .binary (eval_sound hl) (eval_sound hr) hx
    | assign target value note =>
      cases target with
      | name q nameNote =>
        obtain ⟨b, hb, h⟩ := Option.bind_eq_some_iff.mp h
        obtain ⟨⟨_, s₁⟩, he, h⟩ := Option.bind_eq_some_iff.mp h
        obtain ⟨v, hv, h⟩ := Option.bind_eq_some_iff.mp h
        obtain ⟨s₂, hs, h⟩ := Option.bind_eq_some_iff.mp h
        cases h
        cases hv
        exact .assign hb (eval_sound he) hs
      | _ => cases h
    | call callee args note =>
      cases callee with
      | name q nameNote =>
        obtain ⟨m, hm, h⟩ := Option.bind_eq_some_iff.mp h
        obtain ⟨⟨vs, s₁⟩, ha, h⟩ := Option.bind_eq_some_iff.mp h
        dsimp only at h
        split at h
        · next hd =>
          obtain ⟨text, ht, h⟩ := Option.bind_eq_some_iff.mp h
          cases h
          exact .print hm hd (evalAll_sound ha) ht
        · next hd =>
          obtain ⟨⟨path, m'⟩, hx, h⟩ := Option.bind_eq_some_iff.mp h
          obtain ⟨⟨w, v⟩, hr, h⟩ := Option.bind_eq_some_iff.mp h
          cases h
          exact .call hm hd (evalAll_sound ha) (List.mem_of_find?_eq_some hx)
            (by simpa using List.find?_some hx) (run_sound hr)
        · cases h
      | _ => cases h
    | create q args note =>
      cases args with
      | nil =>
        obtain ⟨c, hc, h⟩ := Option.bind_eq_some_iff.mp h
        split at h
        · next hd =>
          cases h
          exact .create hc hd
        · cases h
      | cons => cases h
    | _ => cases h

theorem evalAll_sound : ∀ {n : Nat} {s s' : Store} {args : List Expr} {vs : List Value},
    evalAll P n s args = some (vs, s') → EvalsAll P s args vs s'
  | 0, _, _, _, _, h => by simp [evalAll] at h
  | n + 1, s, s', [], vs, h => by
    cases h
    exact .nil
  | n + 1, s, s', e :: rest, vs, h => by
    obtain ⟨⟨_, s₁⟩, he, h⟩ := Option.bind_eq_some_iff.mp h
    obtain ⟨⟨ws, s₂⟩, hr, h⟩ := Option.bind_eq_some_iff.mp h
    obtain ⟨v, hv, h⟩ := Option.bind_eq_some_iff.mp h
    cases h
    cases hv
    exact .cons (eval_sound he) (evalAll_sound hr)

theorem initAll_sound : ∀ {n : Nat} {s s' : Store} {vars : List Declarator},
    initAll P n s vars = some s' → Inits P s vars s'
  | 0, _, _, _, h => by simp [initAll] at h
  | n + 1, s, s', [], h => by
    cases h
    exact .nil
  | n + 1, s, s', v :: rest, h => by
    rw [initAll] at h
    split at h
    · next hi => exact .bare hi (initAll_sound h)
    · next hi =>
      obtain ⟨b, hb, h⟩ := Option.bind_eq_some_iff.mp h
      obtain ⟨⟨_, s₁⟩, he, h⟩ := Option.bind_eq_some_iff.mp h
      obtain ⟨x, hx, h⟩ := Option.bind_eq_some_iff.mp h
      obtain ⟨s₂, hs, hrest⟩ := Option.bind_eq_some_iff.mp h
      cases hx
      exact .init hi hb (eval_sound he) hs (initAll_sound hrest)

theorem exec_sound : ∀ {n : Nat} {s s' : Store} {stmt : Stmt} {o : Outcome},
    exec P n s stmt = some (o, s') → Execs P s stmt o s'
  | 0, _, _, _, _, h => by simp [exec] at h
  | n + 1, s, s', stmt, o, h => by
    cases stmt with
    | block body span => exact .block (execAll_sound h)
    | expr value span type =>
      obtain ⟨⟨v, s₁⟩, he, h⟩ := Option.bind_eq_some_iff.mp h
      cases h
      exact .expr (eval_sound he)
    | locals d =>
      obtain ⟨s₁, hi, h⟩ := Option.bind_eq_some_iff.mp h
      cases h
      exact .locals (initAll_sound hi)
    | ifThen cond body span =>
      obtain ⟨c, hc, h⟩ := Option.bind_eq_some_iff.mp h
      split at h
      · exact .thenTrue (eval_sound hc) (exec_sound h)
      · cases h
        exact .thenFalse (eval_sound hc)
      · cases h
    | ifElse cond body other span =>
      obtain ⟨c, hc, h⟩ := Option.bind_eq_some_iff.mp h
      split at h
      · exact .elseTrue (eval_sound hc) (exec_sound h)
      · exact .elseFalse (eval_sound hc) (exec_sound h)
      · cases h
    | loop cond body span =>
      obtain ⟨c, hc, h⟩ := Option.bind_eq_some_iff.mp h
      split at h
      · obtain ⟨b, hb, h⟩ := Option.bind_eq_some_iff.mp h
        split at h
        · exact .loopNext (eval_sound hc) (exec_sound hb) (exec_sound h)
        · cases h
          exact .loopReturn (eval_sound hc) (exec_sound hb)
      · cases h
        exact .loopEnd (eval_sound hc)
      · cases h
    | ret value span =>
      cases value with
      | none =>
        cases h
        exact .leave
      | some e =>
        obtain ⟨⟨v, s₁⟩, he, h⟩ := Option.bind_eq_some_iff.mp h
        cases h
        exact .ret (eval_sound he)
    | empty span =>
      cases h
      exact .empty

theorem execAll_sound : ∀ {n : Nat} {s s' : Store} {body : List Stmt} {o : Outcome},
    execAll P n s body = some (o, s') → ExecsAll P s body o s'
  | 0, _, _, _, _, h => by simp [execAll] at h
  | n + 1, s, s', [], o, h => by
    cases h
    exact .nil
  | n + 1, s, s', stmt :: rest, o, h => by
    obtain ⟨x, hs, h⟩ := Option.bind_eq_some_iff.mp h
    split at h
    · exact .cons (exec_sound hs) (execAll_sound h)
    · cases h
      exact .stop (exec_sound hs)

theorem run_sound : ∀ {n : Nat} {m : Method} {args : List Value} {w w' : World Value}
    {r : Option Value}, run P n m args w = some (r, w') → Runs P m args w r w'
  | 0, _, _, _, _, _, h => by simp [run] at h
  | n + 1, m, args, w, w', r, h => by
    rw [run] at h
    split at h
    · next hl =>
      obtain ⟨body, hb, h⟩ := Option.bind_eq_some_iff.mp h
      obtain ⟨⟨o, s⟩, he, h⟩ := Option.bind_eq_some_iff.mp h
      obtain ⟨r, hr, h⟩ := Option.bind_eq_some_iff.mp h
      cases h
      exact .body hl hb (execAll_sound he) hr
    · cases h

end

end Soundness

end Interpreter

end ClassLang
