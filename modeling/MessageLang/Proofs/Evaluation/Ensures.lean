import MessageLang.Proofs.Evaluation.Yields
/-!
# What an evaluation ensures

`x.Ensures P`: whatever environment the evaluation `x` starts in, `P` holds of its value if it has
one, and if it fails then neither for want of an arm that matches nor at an extension that is left.
One lemma for each way to build evaluations.
-/
namespace MessageLang

/-- Whether a failure is one that only generated code can have: no arm matches, a constructor is
unknown, or an extension is left. -/
def Failure.isStuck : Failure → Bool
  | .reported error _ => error.code == .noMatch || error.code == .unexpanded
  | .defect _ => false

theorem CallFault.isStuck_failure (fault : CallFault) (l : Option Location) :
    (fault.failure l).isStuck = false := by
  cases fault <;> rfl

namespace Evaluating

variable {α β : Type} {x : Evaluating α} {f : α → Evaluating β} {P P' : α → Prop} {Q : β → Prop}

/-- An evaluation whose values satisfy `P` and which is never stuck. -/
def Ensures (x : Evaluating α) (P : α → Prop) : Prop :=
  ∀ env, match x env with
    | .ok a _ => P a
    | .error failure _ => failure.isStuck = false

theorem ensures_pure {a : α} (h : P a) : (pure a : Evaluating α).Ensures P := fun _ => h

theorem ensures_throw {failure : Failure} (h : failure.isStuck = false) :
    (throw failure : Evaluating α).Ensures P := fun _ => h

theorem ensures_fail {error : RuntimeError} {l : Option Location}
    (h : (Failure.reported error l).isStuck = false) :
    (fail error l : Evaluating α).Ensures P :=
  ensures_throw h

theorem ensures_ofExcept {r : Except Failure α} (hok : ∀ a, r = .ok a → P a)
    (herr : ∀ failure, r = .error failure → failure.isStuck = false) : (ofExcept r).Ensures P := by
  cases r with
  | ok a => exact ensures_pure (hok a rfl)
  | error failure => exact ensures_throw (herr failure rfl)

theorem Ensures.mono (hx : x.Ensures P) (h : ∀ a, P a → P' a) : x.Ensures P' := by
  intro env
  have hx := hx env
  split at hx
  · exact h _ hx
  · exact hx

theorem Ensures.bind (hx : x.Ensures P) (hf : ∀ a, P a → (f a).Ensures Q) :
    (x >>= f).Ensures Q := by
  intro env
  have hx := hx env
  cases h : x env with
  | ok a env' =>
    rw [h] at hx
    rw [bind_of_ok h]
    exact hf a hx env'
  | error failure env' =>
    rw [h] at hx
    rw [bind_of_error h]
    exact hx

theorem ensures_lookup (name : String) (l : Option Location) :
    (lookup name l).Ensures fun _ => True := by
  have hget : (get : Evaluating Environment).Ensures fun _ => True := fun _ => trivial
  refine hget.bind fun env _ => ?_
  cases env.get? name with
  | some v => exact ensures_pure trivial
  | none => exact ensures_fail rfl

theorem ensures_define (name : String) (v : Value) : (define name v).Ensures fun _ => True :=
  fun _ => trivial

theorem Ensures.inScope (hx : x.Ensures P) (b : Bindings) : (inScope b x).Ensures P := by
  intro env
  have hx := hx (env.push b)
  unfold Evaluating.inScope
  cases h : x (env.push b) with
  | ok a env' =>
    rw [h] at hx
    exact hx
  | error failure env' =>
    rw [h] at hx
    exact hx

/-- A variable of the scope that an evaluation runs in. -/
theorem ensures_inScope_lookup {b : Bindings} {name : String} {v : Value} {P : Value → Prop}
    (hb : b.get? name = some v) (hv : P v) (l : Option Location) :
    (inScope b (lookup name l)).Ensures P := by
  intro env
  have hname : List.lookup name b = some v := hb
  have hget : (env.push b).get? name = some v := by
    simp [Environment.get?, Environment.push, Table.get?, hname]
  have hrun : Yields (env.push b) (lookup name l) ((env.push b).get? name) := yields_lookup name l
  rw [hget] at hrun
  have hrun : inScope b (lookup name l) env = .ok v env := yields_inScope hrun
  rw [hrun]
  exact hv

end Evaluating
end MessageLang
