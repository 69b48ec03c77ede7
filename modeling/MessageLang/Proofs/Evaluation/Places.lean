import MessageLang.Evaluation.Eval
import MessageLang.Proofs.Syntax.Bare
import MessageLang.Proofs.Syntax.Readable
/-!
# Evaluation without places

Where a part stands, and whether applications are flat, has no effect on evaluation but for the
place at which a failure is reported.

* `Evaluating.Same`: evaluations that differ in the places of failures only.
* `Expr.IsReadable.same_bare`, `Expr.IsReadable.same_flatten`: an expression without its places and
  with flat applications.
* `execute_same`: programs that are the same but for places and flat applications.
-/
namespace MessageLang

/-- A failure with no word about its place. -/
def Failure.unplaced : Failure → Failure
  | .reported error _ => .reported error none
  | .defect d => .defect d

namespace Evaluating

variable {α β : Type} {x y z : Evaluating α} {f g : α → Evaluating β}

/-- The evaluation with no word about the places of failures. -/
def unplaced (x : Evaluating α) : Evaluating α := fun env =>
  match x env with
  | .ok a env => .ok a env
  | .error failure env => .error failure.unplaced env

/-- The same evaluations, but for the places of failures. -/
def Same (x y : Evaluating α) : Prop := x.unplaced = y.unplaced

theorem Same.refl (x : Evaluating α) : x.Same x := rfl

theorem Same.symm (h : x.Same y) : y.Same x := Eq.symm h

theorem Same.trans (h : x.Same y) (h' : y.Same z) : x.Same z := Eq.trans h h'

theorem unplaced_bind (x : Evaluating α) (f : α → Evaluating β) :
    (x >>= f).unplaced = x.unplaced >>= fun a => (f a).unplaced := by
  funext env
  simp only [unplaced, bind, EStateM.bind]
  cases x env <;> rfl

theorem Same.bind (h : x.Same y) (hf : ∀ a, (f a).Same (g a)) : (x >>= f).Same (y >>= g) := by
  have hfg : (fun a => (f a).unplaced) = fun a => (g a).unplaced := funext hf
  rw [Same, unplaced_bind, unplaced_bind, h, hfg]

theorem same_fail (error : RuntimeError) (l l' : Option Location) :
    (fail error l : Evaluating α).Same (fail error l') := rfl

theorem same_ofExcept {a b : Except Failure α}
    (h : a.mapError Failure.unplaced = b.mapError Failure.unplaced) :
    (ofExcept a).Same (ofExcept b) := by
  cases a with
  | ok a =>
    cases b with
    | ok b =>
      cases h
      rfl
    | error failure => cases h
  | error failure =>
    cases b with
    | ok b => cases h
    | error failure' =>
      have hf : failure.unplaced = failure'.unplaced := Except.error.inj h
      funext env
      exact congrArg (EStateM.Result.error · env) hf

theorem same_lookup (name : String) (l l' : Option Location) :
    (lookup name l).Same (lookup name l') := by
  refine Same.bind (Same.refl _) fun env => ?_
  cases env.get? name <;> rfl

end Evaluating

open Evaluating

theorem unplaced_applyValue (f v : Value) (l fl l' fl' : Option Location) :
    (applyValue l fl f v).mapError Failure.unplaced =
      (applyValue l' fl' f v).mapError Failure.unplaced := by
  unfold applyValue
  cases f.isFunction with
  | false => rfl
  | true =>
    simp only [if_true]
    cases f.call v with
    | ok w => rfl
    | error fault => cases fault <;> rfl

theorem unplaced_eval (op : Operator) (a b : Value) (l l' : Option Location) :
    (op.eval l a b).mapError Failure.unplaced = (op.eval l' a b).mapError Failure.unplaced := by
  unfold Operator.eval
  split <;> rfl

/-! ## Lists of parts -/

section

variable {t : Expr → Expr}

theorem same_evalAll {es : List Expr} (h : ∀ e ∈ es, (t e).eval.Same e.eval) :
    (evalAll (es.map t)).Same (evalAll es) := by
  induction es with
  | nil => exact Same.refl _
  | cons e es ih =>
    obtain ⟨h₁, h₂⟩ := List.forall_mem_cons.mp h
    exact h₁.bind fun v => (ih h₂).bind fun vs => Same.refl _

/-- A label is refused before its expression is evaluated. -/
theorem applyArguments_labelled {label : Label} (hl : label ≠ .positional) {e : Expr}
    (he : e ≠ .other .missing) (l fl : Option Location) (f : Value) (rest : List Argument) :
    applyArguments l fl f (.mk label e :: rest) =
      .fail (.labelledArgument label) e.location := by
  unfold applyArguments
  split
  · rename_i heq
    cases heq
  · rename_i heq
    cases heq
    exact absurd rfl hl
  · rename_i heq
    cases heq
    exact absurd rfl he
  · rename_i heq
    cases heq
    rfl
  · rename_i heq
    cases heq

/-- A label is refused, or what stands behind it is no expression. -/
theorem applyArguments_eq_throw {label : Label} (hl : label ≠ .positional) (e : Expr)
    (l fl : Option Location) (f : Value) (rest : List Argument) :
    ∃ failure, applyArguments l fl f (.mk label e :: rest) = throw failure := by
  by_cases he : e = .other .missing
  · subst he
    cases label with
    | positional => exact absurd rfl hl
    | labelled name => exact ⟨_, rfl⟩
    | optional name => exact ⟨_, rfl⟩
  · rw [applyArguments_labelled hl he]
    exact ⟨_, rfl⟩

/-- Arguments are applied the same way wherever the application and its function stand. -/
theorem same_applyArguments {args : List Argument} (hl : ∀ a ∈ args, a.IsLabelled)
    (hn : ∀ label e, .mk label e ∈ args → (∀ n, e ≠ .other n) ∧ ∀ n, t e ≠ .other n)
    (h : ∀ label e, .mk label e ∈ args → (t e).eval.Same e.eval) {u : Argument → Argument}
    (hu : ∀ label e, u (.mk label e) = .mk label (t e)) (l fl l' fl' : Option Location)
    (f : Value) :
    (applyArguments l fl f (args.map u)).Same (applyArguments l' fl' f args) := by
  induction args generalizing f with
  | nil => exact Same.refl _
  | cons a args ih =>
    obtain ⟨hl₁, hl₂⟩ := List.forall_mem_cons.mp hl
    have hrest : ∀ f, (applyArguments l fl f (args.map u)).Same (applyArguments l' fl' f args) :=
      ih hl₂ (fun label e he => hn label e (List.mem_cons_of_mem _ he))
        fun label e he => h label e (List.mem_cons_of_mem _ he)
    cases a with
    | other n => exact absurd hl₁ id
    | mk label e =>
      rw [List.map_cons, hu]
      obtain ⟨he, hte⟩ := hn label e List.mem_cons_self
      by_cases hp : label = .positional
      · subst hp
        refine (h _ e List.mem_cons_self).bind fun v => ?_
        exact (same_ofExcept (unplaced_applyValue f v l fl l' fl')).bind hrest
      · rw [applyArguments_labelled hp (hte _), applyArguments_labelled hp (he _)]
        exact same_fail _ _ _

/-- Where the application and its function stand has no effect but for the places of failures. -/
theorem same_applyArguments_place (args : List Argument) (l fl l' fl' : Option Location)
    (f : Value) : (applyArguments l fl f args).Same (applyArguments l' fl' f args) := by
  induction args generalizing f with
  | nil => exact Same.refl _
  | cons a args ih =>
    cases a with
    | other n => exact Same.refl _
    | mk label e =>
      by_cases hp : label = .positional
      · subst hp
        refine (Same.refl _).bind fun v => ?_
        exact (same_ofExcept (unplaced_applyValue f v l fl l' fl')).bind ih
      · by_cases he : e = .other .missing
        · subst he
          cases label with
          | positional => exact absurd rfl hp
          | labelled name => exact Same.refl _
          | optional name => exact Same.refl _
        · rw [applyArguments_labelled hp he, applyArguments_labelled hp he]
          exact Same.refl _

/-- Applying to some arguments and then to others is applying to all of them. -/
theorem applyArguments_append (args args' : List Argument) (l fl : Option Location) (f : Value) :
    applyArguments l fl f (args ++ args') =
      applyArguments l fl f args >>= fun f => applyArguments l fl f args' := by
  induction args generalizing f with
  | nil => rfl
  | cons a args ih =>
    cases a with
    | other n => rfl
    | mk label e =>
      by_cases hp : label = .positional
      · subst hp
        simp only [List.cons_append, applyArguments, ih, bind_assoc]
      · by_cases he : e = .other .missing
        · subst he
          cases label with
          | positional => exact absurd rfl hp
          | labelled name => rfl
          | optional name => rfl
        · rw [List.cons_append, applyArguments_labelled hp he, applyArguments_labelled hp he]
          rfl

end

/-! ## Trees -/

theorem Expr.IsReadable.ne_other {e : Expr} (h : e.IsReadable) (n : Node) : e ≠ .other n := by
  intro heq
  subst heq
  cases h

theorem Expr.IsReadable.bare_ne_other {e : Expr} (h : e.IsReadable) (n : Node) :
    e.bare ≠ .other n := by
  cases h <;> exact nofun

/-- Where a part stands has no effect but for the places of failures. -/
theorem Expr.IsReadable.same_bare {e : Expr} (h : e.IsReadable) : e.bare.eval.Same e.eval := by
  induction h with
  | constant | unit => exact Same.refl _
  | identifier => exact same_lookup _ _ _
  | @apply f args l _ _ hl ha ihf iha =>
    rw [Expr.bare, bareArguments_eq_map]
    exact ihf.bind fun v => same_applyArguments hl
      (fun label e he => ⟨(ha label e he).ne_other, (ha label e he).bare_ne_other⟩) iha
      (fun _ _ => rfl) _ _ _ _ v
  | constraint _ _ ih => exact ih
  | extension | payload => exact same_fail _ _ _
  | tuple _ _ ih =>
    rw [Expr.bare, bareExprs_eq_map]
    exact (same_evalAll ih).bind fun vs => Same.refl _
  | list _ ih =>
    rw [Expr.bare, bareExprs_eq_map]
    exact (same_evalAll ih).bind fun vs => Same.refl _
  | @binary left right op l _ _ ihl ihr =>
    exact ihl.bind fun a => ihr.bind fun b => same_ofExcept (unplaced_eval op a b _ _)

theorem Expr.IsReadable.applied {f : Expr} {args : List Argument} {l : Option Location}
    (hf : f.IsReadable) (hne : args ≠ []) (hl : ∀ a ∈ args, a.IsLabelled)
    (ha : ∀ label e, .mk label e ∈ args → e.IsReadable) : (f.applied args l).IsReadable := by
  cases hf with
  | apply hg _ hb he =>
    refine .apply hg (by simp [hne]) (List.forall_mem_append.mpr ⟨hb, hl⟩) fun label e hm => ?_
    rcases List.mem_append.mp hm with hm | hm
    · exact he label e hm
    · exact ha label e hm
  | constant hc => exact .apply (.constant hc) hne hl ha
  | identifier hn => exact .apply (.identifier hn) hne hl ha
  | constraint he ht => exact .apply (.constraint he ht) hne hl ha
  | extension hn => exact .apply (.extension hn) hne hl ha
  | payload hn he => exact .apply (.payload hn he) hne hl ha
  | tuple hlen he => exact .apply (.tuple hlen he) hne hl ha
  | list he => exact .apply (.list he) hne hl ha
  | unit => exact .apply .unit hne hl ha
  | binary hleft hright => exact .apply (.binary hleft hright) hne hl ha

theorem isLabelled_flatten {args : List Argument} (hl : ∀ a ∈ args, a.IsLabelled) :
    ∀ a ∈ args.map Argument.flatten, a.IsLabelled := by
  intro a ha
  obtain ⟨a', ha', rfl⟩ := List.mem_map.mp ha
  have h := hl a' ha'
  cases a' <;> exact h

theorem exists_of_mk_mem_flatten {args : List Argument} {label : Label} {e : Expr}
    (h : .mk label e ∈ args.map Argument.flatten) :
    ∃ e', .mk label e' ∈ args ∧ e = e'.flatten := by
  obtain ⟨a, ha, he⟩ := List.mem_map.mp h
  cases a with
  | mk label' e' =>
    cases he
    exact ⟨e', ha, rfl⟩
  | other n => cases he

/-- Flat applications could be read, too. -/
theorem Expr.IsReadable.flatten {e : Expr} (h : e.IsReadable) : e.flatten.IsReadable := by
  induction h with
  | constant hc => exact .constant hc
  | identifier hn => exact .identifier hn
  | @apply f args l _ hne hl _ ihf iha =>
    rw [Expr.flatten, flattenArguments_eq_map]
    refine ihf.applied (by simpa using hne) (isLabelled_flatten hl) fun label e he => ?_
    obtain ⟨e', he', rfl⟩ := exists_of_mk_mem_flatten he
    exact iha label e' he'
  | constraint _ ht ih => exact .constraint ih ht
  | extension hn => exact .extension hn
  | payload hn _ ih => exact .payload hn ih
  | tuple hlen _ ih =>
    rw [Expr.flatten, flattenExprs_eq_map]
    refine .tuple (by simpa using hlen) fun e he => ?_
    obtain ⟨e', he', rfl⟩ := List.mem_map.mp he
    exact ih e' he'
  | list _ ih =>
    rw [Expr.flatten, flattenExprs_eq_map]
    refine .list fun e he => ?_
    obtain ⟨e', he', rfl⟩ := List.mem_map.mp he
    exact ih e' he'
  | unit => exact .unit
  | binary _ _ ihl ihr => exact .binary ihl ihr

/-- An application that takes the arguments of its function in front of its own. -/
theorem Expr.same_applied (f : Expr) (args : List Argument) (l : Option Location) :
    (f.applied args l).eval.Same (Expr.apply f args l).eval := by
  cases f with
  | apply g before l' =>
    rw [Expr.applied, Expr.eval, Expr.eval, Expr.eval, bind_assoc]
    refine (Same.refl _).bind fun v => ?_
    rw [applyArguments_append]
    exact (same_applyArguments_place before _ _ _ _ v).bind fun v' =>
      same_applyArguments_place args _ _ _ _ v'
  | _ => exact Same.refl _

/-- Flat applications have no effect but for the places of failures. -/
theorem Expr.IsReadable.same_flatten {e : Expr} (h : e.IsReadable) :
    e.flatten.eval.Same e.eval := by
  induction h with
  | constant | identifier | extension | payload | unit => exact Same.refl _
  | @apply f args l hf _ hl ha ihf iha =>
    rw [Expr.flatten, flattenArguments_eq_map]
    refine (Expr.same_applied _ _ l).trans (ihf.bind fun v => ?_)
    exact same_applyArguments hl
      (fun label e he => ⟨(ha label e he).ne_other, (ha label e he).flatten.ne_other⟩) iha
      (fun _ _ => rfl) _ _ _ _ v
  | constraint _ _ ih => exact ih
  | tuple _ _ ih =>
    rw [Expr.flatten, flattenExprs_eq_map]
    exact (same_evalAll ih).bind fun vs => Same.refl _
  | list _ ih =>
    rw [Expr.flatten, flattenExprs_eq_map]
    exact (same_evalAll ih).bind fun vs => Same.refl _
  | @binary left right op l _ _ ihl ihr =>
    exact ihl.bind fun a => ihr.bind fun b => Same.refl _

/-- Expressions that are the same but for places and flat applications. -/
theorem Expr.IsReadable.same_of_bare {e e' : Expr} (h : e.IsReadable) (h' : e'.IsReadable)
    (hb : e'.bare = e.flatten.bare) : e'.eval.Same e.eval :=
  h'.same_bare.symm.trans (hb ▸ h.flatten.same_bare.trans h.same_flatten)

/-! ## Programs -/

/-- Statements that are the same but for places and flat applications. -/
theorem same_runStatements {ss ss' : List Statement} (h : ∀ s ∈ ss, s.IsReadable)
    (h' : ∀ s ∈ ss', s.IsReadable)
    (hb : ss'.map Statement.bare = ss.map fun s => s.flatten.bare) (v : Value) :
    (runStatements ss' v).Same (runStatements ss v) := by
  induction ss generalizing ss' v with
  | nil =>
    rw [List.map_eq_nil_iff.mp hb]
    exact Same.refl _
  | cons s ss ih =>
    obtain ⟨s', ss'', rfl, hs, hss⟩ := List.map_eq_cons_iff.mp hb
    obtain ⟨h₁, h₂⟩ := List.forall_mem_cons.mp h
    obtain ⟨h₁', h₂'⟩ := List.forall_mem_cons.mp h'
    have hrest := ih h₂ h₂' hss
    cases h₁ with
    | binding hn he =>
      cases h₁' with
      | binding hn' he' =>
        obtain ⟨rfl, hbare, -⟩ := Statement.binding.inj hs
        refine Same.bind ((he.same_of_bare he' hbare).bind fun w => Same.refl _) fun w => ?_
        exact hrest v
      | expression => cases hs
    | expression he =>
      cases h₁' with
      | binding => cases hs
      | expression he' =>
        have hbare := (Statement.expression.inj hs).1
        exact (he.same_of_bare he' hbare).bind fun w => hrest w

/-- Programs whose statements run the same but for the places of failures have the same value, or
fail for the same cause, and bind the same names to the same values. -/
theorem execute_of_same {p q : Program}
    (h : (runStatements q.statements .none).Same (runStatements p.statements .none))
    (inputs : Bindings) :
    (q.execute inputs).result.mapError Failure.unplaced =
        (p.execute inputs).result.mapError Failure.unplaced ∧
      (q.execute inputs).outputs = (p.execute inputs).outputs := by
  have h := congrFun h (.withInputs inputs)
  unfold Program.execute outcome
  unfold Evaluating.unplaced at h
  cases hq' : runStatements q.statements .none (.withInputs inputs) with
  | ok v env =>
    cases hp' : runStatements p.statements .none (.withInputs inputs) with
    | ok v' env' =>
      rw [hq', hp'] at h
      cases h
      exact ⟨rfl, rfl⟩
    | error failure env' =>
      rw [hq', hp'] at h
      cases h
  | error failure env =>
    cases hp' : runStatements p.statements .none (.withInputs inputs) with
    | ok v' env' =>
      rw [hq', hp'] at h
      cases h
    | error failure' env' =>
      rw [hq', hp'] at h
      obtain ⟨hf, rfl⟩ := EStateM.Result.error.inj h
      exact ⟨congrArg Except.error hf, rfl⟩

/-- Programs that are the same but for places and flat applications have the same value, or fail for
the same cause, and bind the same names to the same values. -/
theorem execute_same {p q : Program} (hp : p.IsReadable) (hq : q.IsReadable)
    (hb : q.statements.map Statement.bare = p.statements.map fun s => s.flatten.bare)
    (inputs : Bindings) :
    (q.execute inputs).result.mapError Failure.unplaced =
        (p.execute inputs).result.mapError Failure.unplaced ∧
      (q.execute inputs).outputs = (p.execute inputs).outputs :=
  execute_of_same (same_runStatements hp hq hb .none) inputs

end MessageLang
