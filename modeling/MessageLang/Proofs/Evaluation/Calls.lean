import MessageLang.Proofs.Evaluation.Yields
import MessageLang.Proofs.Meaning.Environment
/-!
# Calls of built-in functions

* `Environment.HasBuiltins`: every name that all programs can refer to still has its first value.
* `hasBuiltins_withInputs`: inputs with other names rebind none of these.
* `eval_identifier`, `eval_call`: a name and the call of a function at one argument.
-/
namespace MessageLang

namespace Environment

variable {env : Environment}

/-- No name that every program can refer to is rebound. -/
def HasBuiltins (env : Environment) : Prop :=
  ∀ name v, Builtin.bindings.get? name = some v → env.get? name = some v

theorem hasBuiltins_initial : initial.HasBuiltins := by
  intro name v h
  simpa [get?, initial, onTopOf] using h

/-- The names that messages refer to are among those of the built-in functions. -/
theorem HasBuiltins.isStandard (h : env.HasBuiltins) : env.IsStandard where
  atom := h _ _ rfl
  list := h _ _ rfl
  constant k := h _ _ (by rcases k with ⟨_ | _ | _ | _⟩ | _ | _ | _ <;> rfl)
  tuple := h _ _ rfl

end Environment

open Evaluating

section

variable {env env' : Environment} {f e : Expr} {g v : Value}

theorem eval_identifier {name : String} {l : Option Location} (h : env.get? name = some v) :
    (Expr.identifier name l).eval env = .ok v env := by
  have hy : Yields env (lookup name l) (env.get? name) := yields_lookup name l
  rw [h] at hy
  exact hy

/-- The value of a call, or the failure of the application. -/
theorem eval_call (hf : f.eval env = .ok g env) (he : e.eval env = .ok v env')
    (l : Option Location) :
    (Expr.call f [e] l).eval env = Evaluating.ofExcept (applyValue l f.location g v) env' := by
  have hargs : applyArguments l f.location g [.mk .positional e] env =
      Evaluating.ofExcept (applyValue l f.location g v) env' := by
    rw [applyArguments, bind_of_ok he]
    cases h : applyValue l f.location g v with
    | ok r =>
      have hr : (Evaluating.ofExcept (.ok r) : Evaluating Value) env' = .ok r env' := rfl
      rw [bind_of_ok hr]
      rfl
    | error failure =>
      have hr : (Evaluating.ofExcept (.error failure) : Evaluating Value) env' =
          .error failure env' := rfl
      rw [bind_of_error hr]
      rfl
  rw [Expr.call, List.map_singleton, Expr.eval, bind_of_ok hf]
  exact hargs

/-- The call of a function that takes its argument. -/
theorem eval_call_of_ok {r : Value} (hf : f.eval env = .ok g env) (he : e.eval env = .ok v env')
    (hg : g.isFunction = true) (hr : g.call v = .ok r) (l : Option Location) :
    (Expr.call f [e] l).eval env = .ok r env' := by
  rw [eval_call hf he, applyValue, if_pos hg, hr]
  rfl

end

end MessageLang
