import MessageLang.Evaluation.Eval
/-!
# What an evaluation yields

`x.Yields env m`: started in `env`, the evaluation `x` has the value `m` and leaves the environment
as it is, or it fails if `m` is none. One lemma for each way to build evaluations.
-/
namespace MessageLang.Evaluating

variable {α β : Type} {env : Environment} {x : Evaluating α} {m : Option α}

/-- An evaluation with the value that an option holds, which sets no names, or one that fails. -/
def Yields (env : Environment) (x : Evaluating α) : Option α → Prop
  | some a => x env = .ok a env
  | none => ∃ failure env', x env = .error failure env'

theorem yields_pure (a : α) : Yields env (pure a) (some a) := rfl

theorem yields_throw (failure : Failure) : Yields env (throw failure : Evaluating α) none :=
  ⟨failure, env, rfl⟩

theorem yields_fail (error : RuntimeError) (l : Option Location) :
    Yields env (fail error l : Evaluating α) none :=
  ⟨_, env, rfl⟩

theorem bind_of_ok {f : α → Evaluating β} {a : α} {env' : Environment} (h : x env = .ok a env') :
    (x >>= f) env = f a env' := by
  show EStateM.bind x f env = _
  rw [EStateM.bind, h]

theorem bind_of_error {f : α → Evaluating β} {failure : Failure} {env' : Environment}
    (h : x env = .error failure env') : (x >>= f) env = .error failure env' := by
  show EStateM.bind x f env = _
  rw [EStateM.bind, h]

theorem Yields.bind {f : α → Evaluating β} {k : α → Option β} (hx : Yields env x m)
    (hf : ∀ a, m = some a → Yields env (f a) (k a)) : Yields env (x >>= f) (m.bind k) := by
  cases m with
  | some a =>
    have hf := hf a rfl
    have hrun : (x >>= f) env = f a env := bind_of_ok hx
    rw [Option.bind_some]
    cases hk : k a with
    | some b =>
      rw [hk] at hf
      exact hrun.trans hf
    | none =>
      rw [hk] at hf
      obtain ⟨failure, env', hf⟩ := hf
      exact ⟨failure, env', hrun.trans hf⟩
  | none =>
    obtain ⟨failure, env', hx⟩ := hx
    exact ⟨failure, env', bind_of_error hx⟩

theorem yields_ofExcept (r : Except Failure α) : Yields env (ofExcept r) r.toOption := by
  cases r with
  | ok a => exact yields_pure a
  | error failure => exact yields_throw failure

theorem yields_lookup (name : String) (l : Option Location) :
    Yields env (lookup name l) (env.get? name) := by
  have hget : Yields env (get : Evaluating Environment) (some env) := rfl
  have h : Yields env (lookup name l) ((some env).bind fun env => env.get? name) := by
    refine hget.bind fun env' he => ?_
    cases he
    cases hn : env.get? name with
    | some v => exact yields_pure v
    | none => exact yields_fail _ l
  exact h

/-- Nothing is left of a scope of one's own. -/
theorem yields_inScope {b : Bindings} (hx : Yields (env.push b) x m) :
    Yields env (inScope b x) m := by
  cases m with
  | some a =>
    have hx : x (env.push b) = .ok a (env.push b) := hx
    show inScope b x env = .ok a env
    rw [inScope, hx]
    rfl
  | none =>
    obtain ⟨failure, env', hx⟩ := hx
    refine ⟨failure, env'.leave, ?_⟩
    rw [inScope, hx]

end MessageLang.Evaluating
