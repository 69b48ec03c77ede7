import MessageLang.Proofs.Evaluation.Places
import MessageLang.Proofs.Evaluation.Yields
import MessageLang.Proofs.Expansion.Accounts
import MessageLang.Proofs.Meaning.Messages
/-!
# Expanded programs mean what programs mean

Evaluating an expanded tree yields its direct meaning, by induction on how often expansions follow
one another and on the tree. Expansion is outermost first: the code of a message is expanded in its
turn, and means what the message means before it is.

* `Expr.Agrees`: the evaluation of an expanded tree yields the meaning of the tree.
* `Expr.IsCode.agrees`: the induction on the tree; `Setting.agrees_siteWithin`: that on the depth.
* `execute_eq_meaning`: whole programs.
-/
namespace MessageLang

open Evaluating

/-- The evaluation of what becomes of a use without a failure yields the meaning of the use. -/
def Site.Agrees (site : Site) : Prop :=
  ∀ name payload l, (Expr.extension name payload l).IsReadable →
    (site name payload l).failures = [] → ∀ env : Environment, env.IsStandard →
      Yields env (site name payload l).value.eval ((Expr.extension name payload l).meaning env)

/-- The evaluation of a tree that is expanded without a failure yields the meaning of the tree. -/
def Expr.Agrees (site : Site) (e : Expr) : Prop :=
  (e.replaceExtensions site).failures = [] → ∀ env : Environment, env.IsStandard →
    Yields env (e.replaceExtensions site).value.eval (e.meaning env)

/-! ## Calls and operations -/

theorem toOption_applyValue (l fl : Option Location) (f v : Value) :
    (applyValue l fl f v).toOption = f.call? v := by
  unfold applyValue Value.call?
  cases f.isFunction with
  | false => rfl
  | true => cases f.call v <;> rfl

theorem toOption_eval (op : Operator) (l : Option Location) (a b : Value) :
    (op.eval l a b).toOption = (op.eval none a b).toOption := by
  unfold Operator.eval
  split <;> rfl

/-- A label is refused, or its argument is no expression. -/
theorem yields_labelled {env : Environment} {label : Label} (hl : label ≠ .positional) (e : Expr)
    (l fl : Option Location) (f : Value) (rest : List Argument) :
    Yields env (applyArguments l fl f (.mk label e :: rest)) none := by
  obtain ⟨failure, h⟩ := applyArguments_eq_throw hl e l fl f rest
  exact h ▸ yields_throw failure

section

variable {site : Site} {env : Environment}

theorem yields_evalAll {es : List Expr} (h : ∀ e ∈ es, e.Agrees site) (henv : env.IsStandard)
    (hf : (replaceInExprs site es).failures = []) :
    Yields env (evalAll (replaceInExprs site es).value) (meanings env es) := by
  induction es with
  | nil => exact yields_pure _
  | cons e es ih =>
    obtain ⟨h₁, h₂⟩ := List.forall_mem_cons.mp h
    simp only [replaceInExprs, Expansion.bind_failures, List.append_eq_nil_iff] at hf
    obtain ⟨hf₁, hf₂, -⟩ := hf
    exact (h₁ hf₁ env henv).bind fun v _ => (ih h₂ hf₂).bind fun vs _ => yields_pure _

theorem yields_applyArguments {args : List Argument} (hl : ∀ a ∈ args, a.IsLabelled)
    (h : ∀ label e, .mk label e ∈ args → e.Agrees site) (henv : env.IsStandard)
    (hf : (replaceInArguments site args).failures = []) (l fl : Option Location) (f : Value) :
    Yields env (applyArguments l fl f (replaceInArguments site args).value)
      (meaningOfArguments env f args) := by
  induction args generalizing f with
  | nil => exact yields_pure _
  | cons a args ih =>
    obtain ⟨hl₁, hl₂⟩ := List.forall_mem_cons.mp hl
    cases a with
    | other n => exact absurd hl₁ id
    | mk label e =>
      simp only [replaceInArguments, Expansion.bind_failures, List.append_eq_nil_iff] at hf
      obtain ⟨hf₁, hf₂, -⟩ := hf
      have hrest := ih hl₂ (fun label e he => h label e (List.mem_cons_of_mem _ he)) hf₂
      have he := h label e List.mem_cons_self hf₁ env henv
      cases label with
      | positional =>
        refine he.bind fun v _ => ?_
        have hcall : Yields env (Evaluating.ofExcept (applyValue l fl f v))
            (applyValue l fl f v).toOption := yields_ofExcept _
        rw [toOption_applyValue] at hcall
        exact hcall.bind fun f' _ => hrest f'
      | labelled name =>
        have hne : Label.labelled name ≠ .positional := nofun
        exact yields_labelled hne _ l fl f _
      | optional name =>
        have hne : Label.optional name ≠ .positional := nofun
        exact yields_labelled hne _ l fl f _

theorem yields_evalArms {arms : List Arm} (ha : ∀ a ∈ arms, a.BindsWords)
    (h : ∀ p body l, .mk p body l ∈ arms → body.Agrees site) (henv : env.IsStandard)
    (hf : (replaceInArms site arms).failures = []) (l : Option Location) (v : Value) :
    Yields env (evalArms l v (replaceInArms site arms).value) (meaningOfArms env v arms) := by
  induction arms with
  | nil => exact yields_fail _ _
  | cons a arms ih =>
    obtain ⟨ha₁, ha₂⟩ := List.forall_mem_cons.mp ha
    cases a with
    | other n => exact absurd ha₁ id
    | mk p body l' =>
      simp only [replaceInArms, Arm.replaceExtensions, Expansion.bind_failures,
        Expansion.pure_failures, List.append_nil, List.append_eq_nil_iff] at hf
      obtain ⟨hf₁, hf₂⟩ := hf
      have hrest := ih ha₂ (fun p body l hb => h p body l (List.mem_cons_of_mem _ hb)) hf₂
      have hbody := h p body l' List.mem_cons_self hf₁
      have hmatch : Yields env (Evaluating.ofExcept (p.match v [])) (p.match v []).toOption :=
        yields_ofExcept _
      have hmeaning : meaningOfArms env v (.mk p body l' :: arms) =
          (p.match v []).toOption.bind fun r =>
            if r.1 then body.meaning (env.push r.2) else meaningOfArms env v arms := by
        rw [meaningOfArms]
        rcases p.match v [] with _ | ⟨_ | _, b⟩ <;> rfl
      rw [hmeaning]
      refine hmatch.bind fun r hr => ?_
      obtain ⟨matched, b⟩ := r
      cases matched with
      | false => exact hrest
      | true =>
        have hp : p.match v [] = .ok (true, b) := by
          cases hp : p.match v [] with
          | error failure =>
            rw [hp] at hr
            cases hr
          | ok r =>
            rw [hp] at hr
            cases hr
            rfl
        refine yields_inScope (hbody (env.push b) (henv.push fun key hk => ?_))
        exact ha₁ key (Pattern.mem_names_of_match hp hk)

end

/-! ## Trees -/

/-- Where what becomes of uses agrees with what they mean, the evaluation of expanded code does. -/
theorem Expr.IsCode.agrees {site : Site} (hs : site.Agrees) {inArm : Bool} {e : Expr}
    (h : e.IsCode inArm) : e.Agrees site := by
  induction h with
  | constant => exact fun _ _ _ => yields_pure _
  | identifier => exact fun _ _ _ => yields_lookup _ _
  | unit => exact fun _ _ _ => yields_pure _
  | extension he => exact fun hf env henv => hs _ _ _ he hf env henv
  | apply _ _ hl _ ihf iha =>
    intro hf env henv
    simp only [Expr.replaceExtensions, Expansion.bind_failures, List.append_eq_nil_iff] at hf
    exact (ihf hf.1 env henv).bind fun v _ =>
      yields_applyArguments hl iha henv hf.2.1 _ _ v
  | constraint _ _ ih =>
    intro hf env henv
    simp only [Expr.replaceExtensions, Expansion.bind_failures, List.append_eq_nil_iff] at hf
    exact ih hf.1 env henv
  | tuple _ _ ih =>
    intro hf env henv
    simp only [Expr.replaceExtensions, Expansion.bind_failures, List.append_eq_nil_iff] at hf
    exact (yields_evalAll ih henv hf.1).bind fun vs _ => yields_pure _
  | list _ ih =>
    intro hf env henv
    simp only [Expr.replaceExtensions, Expansion.bind_failures, List.append_eq_nil_iff] at hf
    exact (yields_evalAll ih henv hf.1).bind fun vs _ => yields_pure _
  | @binary _ left right op l _ _ ihl ihr =>
    intro hf env henv
    simp only [Expr.replaceExtensions, Expansion.bind_failures, List.append_eq_nil_iff] at hf
    refine (ihl hf.1 env henv).bind fun a _ => (ihr hf.2.1 env henv).bind fun b _ => ?_
    rw [← toOption_eval op l]
    exact yields_ofExcept _
  | cons _ _ _ ihh iht =>
    intro hf env henv
    simp only [Expr.replaceExtensions, Expansion.bind_failures, List.append_eq_nil_iff] at hf
    refine (ihh hf.1 env henv).bind fun v _ => (iht hf.2.1 env henv).bind fun t _ => ?_
    cases t with
    | list vs => exact yields_pure _
    | _ => exact yields_fail _ _
  | matching _ ha _ ihe ihb =>
    intro hf env henv
    simp only [Expr.replaceExtensions, Expansion.bind_failures, List.append_eq_nil_iff] at hf
    exact (ihe hf.1 env henv).bind fun v _ => yields_evalArms ha ihb henv hf.2.1 _ v

/-- Expansions that may follow one another any number of times agree with what the uses mean. -/
theorem Setting.agrees_siteWithin (depth : Nat) : (Setting.standard.siteWithin depth).Agrees := by
  -- the code of a use is expanded again, so it must agree whatever is nested in it
  induction depth with
  | zero => exact fun _ _ _ _ hf => by cases hf
  | succ depth ih =>
    intro name payload l h hf env henv
    unfold siteWithin site at hf ⊢
    cases hx : standard.registry.find? name with
    | none =>
      simp only [hx] at hf
      cases hf
    | some x =>
      simp only [hx] at hf ⊢
      have hcode : IsExpansion false payload (x.expand .standard l payload) :=
        isExpansion_of_find? hx h
      cases he : x.expand standard.conventions l payload with
      | error failure =>
        simp only [he] at hf
        cases hf
      | ok code =>
        simp only [he] at hf ⊢
        have he : x.expand .standard l payload = .ok code := he
        rw [he] at hcode
        rw [← meaning_expand henv hx h he]
        exact hcode.1.agrees ih hf env henv

/-! ## Programs -/

/-- The evaluation ends with the value and in the environment that an option holds, or it fails. -/
def Results (env : Environment) (x : Evaluating Value) : Option (Value × Environment) → Prop
  | some (v, env') => x env = .ok v env'
  | none => ∃ failure env', x env = .error failure env'

theorem results_bind {env : Environment} {x : Evaluating Value} {f : Value → Evaluating Value}
    {m : Option Value} {k : Value → Option (Value × Environment)} (hx : Yields env x m)
    (hf : ∀ v, m = some v → Results env (f v) (k v)) : Results env (x >>= f) (m.bind k) := by
  cases m with
  | some v =>
    have hx : x env = .ok v env := hx
    have hfv := hf v rfl
    rw [Option.bind_some]
    unfold Results at hfv ⊢
    rw [bind_of_ok hx]
    exact hfv
  | none =>
    obtain ⟨failure, env', hx⟩ := hx
    exact ⟨failure, env', bind_of_error hx⟩

/-- The statements of an expanded program end as the statements of the program mean. -/
theorem results_runStatements {site : Site} (hs : site.Agrees) {ss : List Statement}
    (h : ∀ s ∈ ss, s.IsCode) (hf : (replaceInStatements site ss).failures = []) (v : Value)
    {env : Environment} (henv : env.IsStandard) :
    Results env (runStatements (replaceInStatements site ss).value v)
      (meaningOfStatements ss v env) := by
  induction ss generalizing v env with
  | nil => rfl
  | cons s ss ih =>
    obtain ⟨h₁, h₂⟩ := List.forall_mem_cons.mp h
    simp only [replaceInStatements, Expansion.bind_failures, List.append_eq_nil_iff] at hf
    obtain ⟨hf₁, hf₂, -⟩ := hf
    cases h₁ with
    | @binding name e l hn he =>
      simp only [Statement.replaceExtensions, Expansion.bind_failures,
        List.append_eq_nil_iff] at hf₁
      have hrun : runStatements (replaceInStatements site (.binding name e l :: ss)).value v =
          (e.replaceExtensions site).value.eval >>= fun w => define name w >>= fun _ =>
            runStatements (replaceInStatements site ss).value v := by
        simp only [replaceInStatements, Statement.replaceExtensions, Expansion.bind_value,
          Expansion.pure_value, runStatements, Statement.eval, bind_assoc, pure_bind,
          Statement.result]
      rw [hrun]
      refine results_bind (he.agrees hs hf₁.1 env henv) fun w _ => ?_
      exact ih h₂ hf₂ v (henv.set hn w)
    | @expression e l he =>
      simp only [Statement.replaceExtensions, Expansion.bind_failures,
        List.append_eq_nil_iff] at hf₁
      exact results_bind (he.agrees hs hf₁.1 env henv) fun w _ => ih h₂ hf₂ w henv

/-- Whatever program was read from a text that compiles, and whatever its inputs bind but the names
that messages refer to: the expanded program succeeds exactly when the program has a direct meaning,
and then with the same value and the same bindings. -/
theorem execute_eq_meaning {file source : String} {p q : Program}
    (hp : Program.parse file source = .ok p) (hq : compile .standard file source = .ok q)
    {inputs : Bindings} (hinputs : ∀ name ∈ inputs.keys, ¬ IsReserved name) (v : Value)
    (outputs : Bindings) :
    q.execute inputs = ⟨.ok v, outputs⟩ ↔ p.meaning inputs = some (v, outputs) := by
  obtain ⟨p', hp', hf, rfl⟩ := compile_eq_ok.mp hq
  cases hp.symm.trans hp'
  have hcode : ∀ s ∈ p.statements, s.IsCode := fun s hs => (Program.parse_isReadable hp s hs).isCode
  have hnone := (List.append_eq_nil_iff.mp hf).1
  have hrun := results_runStatements (Setting.agrees_siteWithin _) hcode hnone .none
    (Environment.isStandard_withInputs hinputs)
  unfold Program.execute Program.meaning outcome
  cases hm : meaningOfStatements p.statements .none (.withInputs inputs) with
  | none =>
    rw [hm] at hrun
    obtain ⟨failure, env', hrun⟩ := hrun
    have hrun : runStatements (p.expand .standard).value.statements .none (.withInputs inputs) =
      .error failure env' := hrun
    rw [hrun]
    exact ⟨nofun, nofun⟩
  | some r =>
    obtain ⟨w, env'⟩ := r
    rw [hm] at hrun
    have hrun : runStatements (p.expand .standard).value.statements .none (.withInputs inputs) =
      .ok w env' := hrun
    rw [hrun]
    simp

/-- A message inside another and an option that is looked into, with inputs named as the variables
of generated matches. -/
theorem execute_eq_meaning_option : ∃ p q v outputs,
    Program.parse "a.ml"
        "let x = v; [%message \"m\" (x : int sexp_option) tl ([%message 1] : Sexp.t)];" = .ok p ∧
      compile .standard "a.ml"
        "let x = v; [%message \"m\" (x : int sexp_option) tl ([%message 1] : Sexp.t)];" = .ok q ∧
      q.execute [("v", .int 1), ("tl", .str "a")] = ⟨.ok v, outputs⟩ ∧
      p.meaning [("v", .int 1), ("tl", .str "a")] = some (v, outputs) := by
  have hinputs : ∀ name ∈ Table.keys [("v", Value.int 1), ("tl", .str "a")],
      ¬ IsReserved name := by
    intro name hm hr
    have hpoint : ∀ name ∈ ["v", "tl"], '.' ∉ name.toList := by decide
    exact hpoint name hm hr.mem_point
  have hcheck : ((compile .standard "a.ml"
      "let x = v; [%message \"m\" (x : int sexp_option) tl ([%message 1] : Sexp.t)];").toOption.any
        fun q => (q.execute [("v", .int 1), ("tl", .str "a")]).result.toOption.isSome) = true := by
    decide +kernel
  obtain ⟨q, hq, hsome⟩ := exists_ok_of_any hcheck
  obtain ⟨p, hp, -⟩ := compile_eq_ok.mp hq
  obtain ⟨v, outputs, hrun⟩ : ∃ v outputs,
      q.execute [("v", .int 1), ("tl", .str "a")] = ⟨.ok v, outputs⟩ := by
    generalize q.execute [("v", .int 1), ("tl", .str "a")] = x at hsome
    obtain ⟨_ | v, outputs⟩ := x
    · cases hsome
    · exact ⟨v, outputs, rfl⟩
  exact ⟨p, q, v, outputs, hp, hq, hrun, (execute_eq_meaning hp hq hinputs v outputs).mp hrun⟩

end MessageLang
