import MessageLang.Proofs.Evaluation.Lookups
import MessageLang.Proofs.Evaluation.Scopes
import MessageLang.Proofs.Expansion.Accounts
/-!
# The outputs of a run

Statements run one after the other. Each that comes to a value binds its name, if it is a binding,
and leaves everything else as it is; the first that fails ends the run and binds nothing. After a
success the outputs are the names bound, without those of the inputs. After a failure they are the
names bound so far, and the inputs are among them.

* `Completes`: statements that come to values, and what they bind.
* `Statement.IsProper.outcome_eval`, `outcome_runStatements`: one statement, all statements.
* `execute_outputs`: the outputs of compiled programs.
-/
namespace MessageLang

open Evaluating

/-- What a statement binds once its expression has come to a value. -/
def Statement.entries : Statement → Value → List (String × Value)
  | .binding name _ _, v => [(name, v)]
  | _, _ => []

/-- Started in an environment, the statements come to values one after the other, and bind the
entries. -/
inductive Completes : Environment → List Statement → List (String × Value) → Prop where
  | nil {env : Environment} : Completes env [] []
  | cons {env : Environment} {s : Statement} {v : Value} {rest : List Statement}
    {entries : List (String × Value)} :
    s.eval.outcome env = (.ok v, env.setAll (s.entries v)) →
    Completes (env.setAll (s.entries v)) rest entries →
    Completes env (s :: rest) (s.entries v ++ entries)

/-- A statement comes to a value and binds its name to it, or it fails and changes nothing. -/
theorem Statement.IsProper.outcome_eval {s : Statement} (h : s.IsProper) (env : Environment) :
    (∃ v, s.eval.outcome env = (.ok v, env.setAll (s.entries v))) ∨
      ∃ failure, s.eval.outcome env = (.error failure, env) := by
  cases h with
  | @expression e l he =>
    rw [Statement.eval, he.outcome_eval]
    cases (e.eval.outcome env).1 with
    | ok v => exact .inl ⟨v, rfl⟩
    | error failure => exact .inr ⟨failure, rfl⟩
  | @binding name e l he =>
    rw [Statement.eval, outcome_bind, he.outcome_eval]
    cases (e.eval.outcome env).1 with
    | ok v => exact .inl ⟨v, rfl⟩
    | error failure => exact .inr ⟨failure, rfl⟩

/-- The statements before the one that fails come to values, or all of them do. -/
theorem outcome_runStatements {ss : List Statement} (h : ∀ s ∈ ss, s.IsProper) (value : Value)
    (env : Environment) : ∃ done rest entries r, ss = done ++ rest ∧ Completes env done entries ∧
      (runStatements ss value).outcome env = (r, env.setAll entries) ∧
      match r with
      | .ok _ => rest = []
      | .error failure => ∃ s rest', rest = s :: rest' ∧
        (s.eval.outcome (env.setAll entries)).1 = .error failure := by
  induction ss generalizing value env with
  | nil => exact ⟨[], [], [], .ok value, rfl, .nil, rfl, rfl⟩
  | cons s ss ih =>
    obtain ⟨hs, hss⟩ := List.forall_mem_cons.mp h
    rcases hs.outcome_eval env with ⟨v, hv⟩ | ⟨failure, hv⟩
    · obtain ⟨done, rest, entries, r, rfl, hc, ho, hr⟩ :=
        ih hss (s.result value v) (env.setAll (s.entries v))
      refine ⟨s :: done, rest, s.entries v ++ entries, r, rfl, .cons hv hc, ?_, ?_⟩
      · rw [runStatements, outcome_bind, hv, Environment.setAll_append]
        exact ho
      · rw [Environment.setAll_append]
        exact hr
    · refine ⟨[], s :: ss, [], .error failure, rfl, .nil, ?_, s, ss, rfl, ?_⟩
      · rw [runStatements, outcome_bind, hv]
        rfl
      · show (s.eval.outcome env).1 = _
        rw [hv]

/-- The global names after entries have been set in the environment of a program. -/
theorem Environment.global?_setAll_withInputs (inputs : Bindings)
    (entries : List (String × Value)) :
    ((withInputs inputs).setAll entries).global? =
      some ((Table.ofEntries inputs).update entries) := by
  rw [withInputs_eq, setAll_cons]
  rfl

/-- Running a compiled program: the statements up to the failing one, or all of them, come to
values. The outputs have each name once. After a success they are the last values bound for the
names that are no inputs, after a failure the last values of all names bound so far, and the
inputs. -/
theorem execute_outputs {file source : String} {q : Program}
    (hq : compile .standard file source = .ok q) (inputs : Bindings) :
    ∃ done rest entries, q.statements = done ++ rest ∧
      Completes (.withInputs inputs) done entries ∧ (q.execute inputs).outputs.keys.Nodup ∧
      match (q.execute inputs).result with
      | .ok _ => rest = [] ∧ ∀ name, (q.execute inputs).outputs.get? name =
        if inputs.has name then none else Table.last? entries name
      | .error failure =>
        (∃ s rest', rest = s :: rest' ∧
          (s.eval.outcome ((Environment.withInputs inputs).setAll entries)).1 = .error failure) ∧
        ∀ name, (q.execute inputs).outputs.get? name =
          (Table.last? entries name).or (Table.last? inputs name) := by
  have hproper : ∀ s ∈ q.statements, s.IsProper := fun s hs => ((compile_isCode hq).1 s hs).isProper
  obtain ⟨done, rest, entries, r, hss, hc, ho, hr⟩ :=
    outcome_runStatements hproper .none (.withInputs inputs)
  have hnodup : ((Table.ofEntries inputs).update entries).keys.Nodup :=
    Table.nodup_keys_update (Table.nodup_keys_ofEntries inputs) entries
  have hget : ∀ name, ((Table.ofEntries inputs).update entries).get? name =
      (Table.last? entries name).or (Table.last? inputs name) := by
    intro name
    rw [Table.get?_update, Table.get?_ofEntries]
  refine ⟨done, rest, entries, hss, hc, ?_⟩
  cases r with
  | ok v =>
    have hexec : q.execute inputs =
        ⟨.ok v, ((Table.ofEntries inputs).update entries).without inputs⟩ := by
      simp only [Program.execute, ho, Environment.global?_setAll_withInputs, Option.getD_some]
    rw [hexec]
    refine ⟨Table.nodup_keys_without hnodup inputs, hr, fun name => ?_⟩
    rw [Table.get?_without, hget]
    cases hi : inputs.has name with
    | true => rfl
    | false =>
      have hn : name ∉ inputs.keys := by rwa [← Table.has_eq_true_iff, Bool.not_eq_true]
      rw [Table.last?_eq_none hn, Option.or_none]
  | error failure =>
    have hexec : q.execute inputs =
        ⟨.error failure, (Table.ofEntries inputs).update entries⟩ := by
      simp only [Program.execute, ho, Environment.global?_setAll_withInputs, Option.getD_some]
    rw [hexec]
    exact ⟨hnodup, hr, hget⟩

/-- A name that is bound twice, and an input. -/
theorem execute_outputs_rebound : ∃ q v entries,
    compile .standard "a.ml" "let m = x; let m = 2;" = .ok q ∧
      (q.execute [("x", .str "b")]).result = .ok v ∧
      Completes (.withInputs [("x", .str "b")]) q.statements entries ∧
      ∀ name, (q.execute [("x", .str "b")]).outputs.get? name =
        if Table.has [("x", Value.str "b")] name then none else Table.last? entries name := by
  have hcheck : ((compile .standard "a.ml" "let m = x; let m = 2;").toOption.any fun q =>
      (q.execute [("x", .str "b")]).result.toOption.isSome) = true := by
    decide +kernel
  obtain ⟨q, hq, hok⟩ := exists_ok_of_any hcheck
  obtain ⟨done, rest, entries, hss, hc, -, hm⟩ := execute_outputs hq [("x", .str "b")]
  cases hrun : (q.execute [("x", .str "b")]).result with
  | error failure =>
    rw [hrun] at hok
    cases hok
  | ok v =>
    rw [hrun] at hm
    obtain ⟨rfl, hget⟩ := hm
    rw [List.append_nil] at hss
    exact ⟨q, v, entries, hq, hrun, hss ▸ hc, hget⟩

/-- After a failure there are more outputs than the names bound: an input is among them. -/
theorem execute_outputs_after_failure : ∃ q error l,
    compile .standard "main.sxm" "let m = x; n;" = .ok q ∧
      (q.execute [("x", .int 1)]).result = .error (.reported error l) ∧
      (q.execute [("x", .int 1)]).outputs.keys = ["x", "m"] := by
  have hcheck : ((compile .standard "main.sxm" "let m = x; n;").toOption.any fun q =>
      (q.execute [("x", .int 1)]).outputs.keys == ["x", "m"] &&
        match (q.execute [("x", .int 1)]).result with
        | .error (.reported _ _) => true
        | .error (.defect _) => false
        | .ok _ => false) = true := by
    decide +kernel
  obtain ⟨q, hq, hfails⟩ := exists_ok_of_any hcheck
  rw [Bool.and_eq_true, beq_iff_eq] at hfails
  obtain ⟨hkeys, hfails⟩ := hfails
  split at hfails
  · rename_i error l hrun
    exact ⟨q, error, l, hq, hrun, hkeys⟩
  · cases hfails
  · cases hfails

end MessageLang
