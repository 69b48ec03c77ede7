import MessageLang.Evaluation.Eval
import MessageLang.Proofs.Tables
/-!
# Names in environments

What a name stands for in an environment that was built from another one.

* `Environment.get?_push`, `Environment.get?_set`, `Environment.get?_setAll`: behind a scope, behind
  a name that is set, and behind entries; each with its case for the names that are not among them.
* `Environment.setAll_cons`: entries go to the innermost scope.
* `Environment.withInputs_eq`, `Environment.get?_withInputs`: the environment of a program.
-/
namespace MessageLang.Environment

variable {env : Environment} {name : String}

theorem get?_push (env : Environment) (b : Bindings) (name : String) :
    (env.push b).get? name = (b.get? name).or (env.get? name) := by
  rw [get?, push, List.findSome?_cons]
  cases b.get? name <;> rfl

theorem get?_push_of_notMem {b : Bindings} (h : name ∉ b.keys) :
    (env.push b).get? name = env.get? name := by
  rw [get?_push, Table.get?_eq_none h, Option.none_or]

theorem get?_set (env : Environment) (k name : String) (v : Value) :
    (env.set k v).get? name = if name == k then some v else env.get? name := by
  obtain ⟨bottom, upper⟩ := env
  cases upper with
  | nil => exact Table.get?_set bottom k name v
  | cons scope rest =>
    simp only [get?, set, List.findSome?_cons, Table.get?_set]
    cases name == k <;> rfl

theorem get?_set_of_ne {k : String} (h : name ≠ k) (v : Value) :
    (env.set k v).get? name = env.get? name := by
  rw [get?_set, beq_eq_false_iff_ne.mpr h]
  rfl

theorem get?_setAll (env : Environment) (entries : List (String × Value)) (name : String) :
    (env.setAll entries).get? name = (Table.last? entries name).or (env.get? name) := by
  induction entries generalizing env with
  | nil => rfl
  | cons e entries ih =>
    show ((env.set e.1 e.2).setAll entries).get? name = _
    rw [ih, get?_set, Table.last?_cons, Option.or_assoc]
    cases name == e.1 <;> rfl

theorem get?_setAll_of_notMem {entries : List (String × Value)} (h : name ∉ Table.keys entries) :
    (env.setAll entries).get? name = env.get? name := by
  rw [get?_setAll, Table.last?_eq_none h, Option.none_or]

theorem setAll_append (env : Environment) (entries more : List (String × Value)) :
    env.setAll (entries ++ more) = (env.setAll entries).setAll more :=
  List.foldl_append

/-- Entries are set in the innermost scope. -/
theorem setAll_cons (bottom scope : Bindings) (rest : List Bindings)
    (entries : List (String × Value)) :
    (Environment.mk bottom (scope :: rest)).setAll entries =
      ⟨bottom, scope.update entries :: rest⟩ := by
  induction entries generalizing scope with
  | nil => rfl
  | cons e entries ih => exact ih (scope.set e.1 e.2)

theorem withInputs_eq (inputs : Bindings) :
    withInputs inputs = ⟨Builtin.bindings, [Table.ofEntries inputs]⟩ :=
  setAll_cons Builtin.bindings [] [] inputs

/-- In the environment of a program a name stands for the last input with that name, or for what it
stands for initially. -/
theorem get?_withInputs (inputs : Bindings) (name : String) :
    (withInputs inputs).get? name = (Table.last? inputs name).or (initial.get? name) :=
  get?_setAll initial inputs name

end MessageLang.Environment
