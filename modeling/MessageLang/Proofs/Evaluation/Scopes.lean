import MessageLang.Proofs.Evaluation.Places
import MessageLang.Proofs.Syntax.Proper
/-!
# What an evaluation leaves of its environment

Names are set in the innermost scope only, so nothing is left of a scope of one's own: this holds of
all trees, those included that have a binding in the place of an expression. An expression without
bindings inside it leaves all of its environment as it is, also when it fails.

* `Evaluating.Confined`: evaluations that change the innermost scope at most; `Expr.confined_eval`:
  all are.
* `Evaluating.Confined.outcome_inScope`: an evaluation in a scope of its own.
* `Evaluating.Respects R`: evaluations with one result in environments that `R` relates, which leave
  both as they are.
* `Expr.IsProper.outcome_eval`: the evaluation of a proper tree leaves its environment.
-/
namespace MessageLang

/-- Above the bottom, two environments differ in their innermost scope at most. -/
def Environment.SameOuter (env env' : Environment) : Prop :=
  env.upper ≠ [] → env'.upper ≠ [] ∧ env'.leave = env.leave

namespace Evaluating

variable {α β : Type} {x : Evaluating α} {f : α → Evaluating β}

/-! ## Outcomes -/

theorem outcome_bind (x : Evaluating α) (f : α → Evaluating β) (env : Environment) :
    (x >>= f).outcome env =
      match x.outcome env with
      | (.ok a, env') => (f a).outcome env'
      | (.error failure, env') => (.error failure, env') := by
  simp only [outcome, bind, EStateM.bind]
  cases x env <;> rfl

theorem outcome_inScope (b : Bindings) (x : Evaluating α) (env : Environment) :
    (inScope b x).outcome env =
      ((x.outcome (env.push b)).1, (x.outcome (env.push b)).2.leave) := by
  simp only [outcome, inScope]
  cases x (env.push b) <;> rfl

/-! ## The innermost scope -/

/-- An evaluation that changes the innermost scope at most. -/
def Confined (x : Evaluating α) : Prop := ∀ env : Environment, env.SameOuter (x.outcome env).2

theorem confined_pure (a : α) : (pure a : Evaluating α).Confined := fun _ h => ⟨h, rfl⟩

theorem confined_throw (failure : Failure) : (throw failure : Evaluating α).Confined :=
  fun _ h => ⟨h, rfl⟩

theorem confined_ofExcept (r : Except Failure α) : (ofExcept r).Confined := by
  cases r with
  | ok a => exact confined_pure a
  | error failure => exact confined_throw failure

theorem confined_define (name : String) (v : Value) : (define name v).Confined := by
  intro env h
  obtain ⟨bottom, upper⟩ := env
  cases upper with
  | nil => exact absurd rfl h
  | cons scope rest => exact ⟨List.cons_ne_nil _ _, rfl⟩

theorem Confined.bind (hx : x.Confined) (hf : ∀ a, (f a).Confined) : (x >>= f).Confined := by
  intro env hne
  have hx := hx env hne
  rw [outcome_bind]
  generalize x.outcome env = outcome at hx ⊢
  obtain ⟨r, env'⟩ := outcome
  cases r with
  | ok a =>
    obtain ⟨hne', hl⟩ := hf a env' hx.1
    exact ⟨hne', hl.trans hx.2⟩
  | error failure => exact hx

theorem confined_lookup (name : String) (l : Option Location) : (lookup name l).Confined := by
  have hget : (get : Evaluating Environment).Confined := fun _ h => ⟨h, rfl⟩
  refine hget.bind fun env => ?_
  cases env.get? name with
  | some v => exact confined_pure v
  | none => exact confined_throw _

/-- Nothing is left of a scope of one's own, whether the evaluation in it succeeds or fails. -/
theorem Confined.outcome_inScope (h : x.Confined) (b : Bindings) (env : Environment) :
    (inScope b x).outcome env = ((x.outcome (env.push b)).1, env) := by
  rw [Evaluating.outcome_inScope, (h (env.push b) (List.cons_ne_nil _ _)).2]
  rfl

theorem Confined.inScope (h : x.Confined) (b : Bindings) : (inScope b x).Confined := by
  intro env hne
  rw [h.outcome_inScope]
  exact ⟨hne, rfl⟩

end Evaluating

open Evaluating

mutual
/-- No evaluation changes more than the innermost scope. -/
theorem Expr.confined_eval : (e : Expr) → e.eval.Confined
  | .constant c => confined_pure c.value
  | .identifier name l => confined_lookup name l
  | .apply f args l => f.confined_eval.bind fun v => confined_applyArguments l f.location args v
  | .constraint e _ _ => e.confined_eval
  | .extension _ _ _ => confined_throw _
  | .tuple es _ => (confined_evalAll es).bind fun _ => confined_pure _
  | .list es _ => (confined_evalAll es).bind fun _ => confined_pure _
  | .unit _ => confined_pure _
  | .binary left op right l =>
    left.confined_eval.bind fun a => right.confined_eval.bind fun b => confined_ofExcept _
  | .cons head tail _ => by
    refine head.confined_eval.bind fun v => tail.confined_eval.bind fun w => ?_
    split
    · exact confined_pure _
    · exact confined_throw _
  | .matching e arms l => e.confined_eval.bind fun v => confined_evalArms l v arms
  | .other n => n.confined_eval

theorem confined_evalAll : (es : List Expr) → (evalAll es).Confined
  | [] => confined_pure _
  | e :: es => e.confined_eval.bind fun _ => (confined_evalAll es).bind fun _ => confined_pure _

theorem confined_applyArguments (l fl : Option Location) :
    (args : List Argument) → ∀ f, (applyArguments l fl f args).Confined
  | [], f => confined_pure f
  | .mk label e :: rest, f => by
    have hrest := confined_applyArguments l fl rest
    by_cases hp : label = .positional
    · subst hp
      exact e.confined_eval.bind fun v => (confined_ofExcept _).bind hrest
    · obtain ⟨failure, hr⟩ := applyArguments_eq_throw hp e l fl f rest
      exact hr ▸ confined_throw failure
  | .other _ :: _, _ => confined_throw _

theorem confined_evalArms (l : Option Location) (v : Value) :
    (arms : List Arm) → (evalArms l v arms).Confined
  | [] => confined_throw _
  | .mk p body _ :: rest => by
    rw [evalArms]
    refine (confined_ofExcept _).bind fun (matched, b) => ?_
    cases matched with
    | true => exact body.confined_eval.inScope b
    | false => exact confined_evalArms l v rest
  | .other n :: rest => by
    have hrest := confined_evalArms l v rest
    unfold evalArms
    split
    case h_1 heq | h_2 heq => cases heq
    case h_3 heq =>
      cases heq
      refine (confined_ofExcept _).bind fun (matched, b) => ?_
      cases matched with
      | true => exact confined_throw _
      | false => exact hrest
    case h_4 => exact confined_throw _

theorem Statement.confined_eval : (s : Statement) → s.eval.Confined
  | .binding name e _ =>
    e.confined_eval.bind fun v => (confined_define name v).bind fun _ => confined_pure v
  | .expression e _ => e.confined_eval
  | .other n => n.confined_eval

theorem confined_runStatements : (ss : List Statement) → ∀ v, (runStatements ss v).Confined
  | [], v => confined_pure v
  | s :: rest, v => s.confined_eval.bind fun w => confined_runStatements rest (s.result v w)

theorem Node.confined_eval : (n : Node) → n.eval.Confined
  | .program ⟨statements, _⟩ => confined_runStatements statements .none
  | .statement s => s.confined_eval
  | .expr e => e.confined_eval
  | .arm (.mk _ body _) => body.confined_eval
  | .arm (.other n) => n.confined_eval
  | .pattern _ | .type _ => confined_pure _
  | .argument _ | .missing => confined_throw _
end

/-! ## Related environments -/

namespace Evaluating

variable {α β : Type} {x : Evaluating α} {f : α → Evaluating β}
  {R R' : Environment → Environment → Prop}

/-- Started in related environments, an evaluation has the same result, and leaves either as it
is. -/
def Respects (R : Environment → Environment → Prop) (x : Evaluating α) : Prop :=
  ∀ env env', R env env' → ∃ r, x.outcome env = (r, env) ∧ x.outcome env' = (r, env')

theorem respects_pure (a : α) : Respects R (pure a) := fun _ _ _ => ⟨.ok a, rfl, rfl⟩

theorem respects_throw (failure : Failure) : Respects R (throw failure : Evaluating α) :=
  fun _ _ _ => ⟨.error failure, rfl, rfl⟩

theorem respects_ofExcept (r : Except Failure α) : Respects R (ofExcept r) := by
  cases r with
  | ok a => exact respects_pure a
  | error failure => exact respects_throw failure

theorem Respects.bind (hx : Respects R x) (hf : ∀ a, Respects R (f a)) : Respects R (x >>= f) := by
  intro env env' hR
  obtain ⟨r, h, h'⟩ := hx env env' hR
  rw [outcome_bind, outcome_bind, h, h']
  cases r with
  | ok a => exact hf a env env' hR
  | error failure => exact ⟨.error failure, rfl, rfl⟩

theorem respects_lookup {name : String}
    (h : ∀ env env', R env env' → env.get? name = env'.get? name) (l : Option Location) :
    Respects R (lookup name l) := by
  intro env env' hR
  have hlookup : ∀ env : Environment, (lookup name l).outcome env =
      ((env.get? name).elim (.error (.reported (.unbound name) l)) .ok, env) := by
    intro env
    have hget : (get : Evaluating Environment).outcome env = (.ok env, env) := rfl
    rw [lookup, outcome_bind, hget]
    dsimp only
    cases env.get? name <;> rfl
  exact ⟨_, hlookup env, h env env' hR ▸ hlookup env'⟩

/-- A scope of one's own, where it relates environments that are related outside. -/
theorem Respects.inScope {b : Bindings} (h : Respects R' x)
    (hb : ∀ env env', R env env' → R' (env.push b) (env'.push b)) :
    Respects R (inScope b x) := by
  intro env env' hR
  obtain ⟨r, h, h'⟩ := h _ _ (hb env env' hR)
  refine ⟨r, ?_, ?_⟩
  · rw [outcome_inScope, h]
    rfl
  · rw [outcome_inScope, h']
    rfl

end Evaluating

section

variable {R : Environment → Environment → Prop}

theorem respects_evalAll {es : List Expr} (h : ∀ e ∈ es, e.eval.Respects R) :
    (evalAll es).Respects R := by
  induction es with
  | nil => exact respects_pure _
  | cons e es ih =>
    obtain ⟨h₁, h₂⟩ := List.forall_mem_cons.mp h
    exact h₁.bind fun v => (ih h₂).bind fun vs => respects_pure _

theorem respects_applyArguments {args : List Argument}
    (h : ∀ label e, .mk label e ∈ args → e.eval.Respects R) (l fl : Option Location) (f : Value) :
    (applyArguments l fl f args).Respects R := by
  induction args generalizing f with
  | nil => exact respects_pure f
  | cons a args ih =>
    have hrest := ih fun label e he => h label e (List.mem_cons_of_mem _ he)
    cases a with
    | other n => exact respects_throw _
    | mk label e =>
      by_cases hp : label = .positional
      · subst hp
        exact (h _ e List.mem_cons_self).bind fun v => (respects_ofExcept _).bind hrest
      · obtain ⟨failure, hr⟩ := applyArguments_eq_throw hp e l fl f args
        exact hr ▸ respects_throw failure

/-- The arms of a match, each of which respects the relation in the scope that its pattern makes. -/
theorem respects_evalArms {arms : List Arm} (ha : ∀ a ∈ arms, a.IsArm) (v : Value)
    (h : ∀ p body l, .mk p body l ∈ arms → ∀ b, p.match v [] = .ok (true, b) →
      (inScope b body.eval).Respects R) (l : Option Location) :
    (evalArms l v arms).Respects R := by
  induction arms with
  | nil => exact respects_throw _
  | cons a arms ih =>
    obtain ⟨ha₁, ha₂⟩ := List.forall_mem_cons.mp ha
    have hrest := ih ha₂ fun p body l hm => h p body l (List.mem_cons_of_mem _ hm)
    cases a with
    | other n => exact absurd ha₁ id
    | mk p body l' =>
      rw [evalArms]
      cases hp : p.match v [] with
      | error failure => exact respects_throw failure
      | ok x =>
        obtain ⟨matched, b⟩ := x
        cases matched with
        | true => exact h p body l' List.mem_cons_self b hp
        | false => exact hrest

end

/-- The evaluation of a proper tree leaves the environment, whatever comes of it. -/
theorem Expr.IsProper.respects_eq {e : Expr} (h : e.IsProper) : e.eval.Respects Eq := by
  induction h with
  | constant | unit => exact respects_pure _
  | identifier => exact respects_lookup (fun _ _ h => h ▸ rfl) _
  | apply _ _ _ ihf iha => exact ihf.bind fun v => respects_applyArguments iha _ _ v
  | constraint _ _ ih => exact ih
  | extension | payload => exact respects_throw _
  | tuple _ ih | list _ ih => exact (respects_evalAll ih).bind fun vs => respects_pure _
  | binary _ _ ihl ihr => exact ihl.bind fun a => ihr.bind fun b => respects_ofExcept _
  | cons _ _ ihh iht =>
    refine ihh.bind fun v => iht.bind fun w => ?_
    split
    · exact respects_pure _
    · exact respects_throw _
  | matching _ ha _ ihe ihb =>
    refine ihe.bind fun v => respects_evalArms ha v (fun p body l hm b _ => ?_) _
    exact (ihb p body l hm).inScope fun _ _ h => congrArg (·.push b) h

theorem Expr.IsProper.outcome_eval {e : Expr} (h : e.IsProper) (env : Environment) :
    e.eval.outcome env = ((e.eval.outcome env).1, env) := by
  obtain ⟨r, hr, -⟩ := h.respects_eq env env rfl
  rw [hr]

end MessageLang
