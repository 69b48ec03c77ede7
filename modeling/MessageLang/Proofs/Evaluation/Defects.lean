import MessageLang.Proofs.Evaluation.Ensures
import MessageLang.Proofs.Evaluation.Misuses
import MessageLang.Proofs.Evaluation.Places
import MessageLang.Proofs.Evaluation.WellFormed
/-!
# Defects of running programs

A run goes through calls: functions of expressions applied to their arguments, one after the other,
until one of them fails. All failures of a run are reported, but for those of calls that are
misuses.

* `Expr.Calls`, `Program.Calls`: the calls that an evaluation comes to.
* `Evaluating.Blames`: an evaluation that ends in a defect exactly where it comes to a misuse.
* `Expr.IsWellFormed.blames`: the induction on the tree.
* `execute_eq_defect_iff`: whole programs.
-/
namespace MessageLang

/-! ## The calls of a run -/

/-- An evaluation ends well, and `P` holds of its value and of the environment at its end. -/
def Evaluating.Then {α : Type} (x : Evaluating α) (env : Environment)
    (P : α → Environment → Prop) : Prop :=
  ∃ a env', x env = .ok a env' ∧ P a env'

/-- Calls, by the environment that an evaluation starts in: of a function with a value. -/
abbrev CallsFrom := Environment → Value → Value → Prop

mutual
/-- The calls that the evaluation of an expression comes to. -/
def Expr.Calls : Expr → CallsFrom
  | .apply e args _, env, f, v =>
    e.Calls env f v ∨ e.eval.Then env fun g env' => ArgumentsCall args g env' f v
  | .constraint e _ _, env, f, v => e.Calls env f v
  | .tuple es _, env, f, v | .list es _, env, f, v => ExprsCall es env f v
  | .binary left _ right _, env, f, v =>
    left.Calls env f v ∨ left.eval.Then env fun _ env' => right.Calls env' f v
  | .cons head tail _, env, f, v =>
    head.Calls env f v ∨ head.eval.Then env fun _ env' => tail.Calls env' f v
  | .matching e arms _, env, f, v =>
    e.Calls env f v ∨ e.eval.Then env fun w env' => ArmsCall arms w env' f v
  | _, _, _, _ => False

def ExprsCall : List Expr → CallsFrom
  | [], _, _, _ => False
  | e :: rest, env, f, v =>
    e.Calls env f v ∨ e.eval.Then env fun _ env' => ExprsCall rest env' f v

/-- The calls of applying a value to arguments: that of its own comes behind those of the argument,
and what it returns is applied to the others. A value that is no function is not called. -/
def ArgumentsCall : List Argument → Value → CallsFrom
  | .mk .positional e :: rest, g, env, f, v =>
    e.Calls env f v ∨ e.eval.Then env fun w env' => g.isFunction = true ∧
      ((f = g ∧ v = w) ∨ ∃ r, g.call w = .ok r ∧ ArgumentsCall rest r env' f v)
  | _, _, _, _, _ => False

/-- The calls of the first arm that matches a value. -/
def ArmsCall : List Arm → Value → CallsFrom
  | .mk p body _ :: rest, w, env, f, v =>
    (∃ b, p.match w [] = .ok (true, b) ∧ body.Calls (env.push b) f v) ∨
      ∃ b, p.match w [] = .ok (false, b) ∧ ArmsCall rest w env f v
  | _, _, _, _, _ => False
end

def Statement.Calls : Statement → CallsFrom
  | .binding _ e _ | .expression e _ => e.Calls
  | .other _ => fun _ _ _ => False

def StatementsCall : List Statement → CallsFrom
  | [], _, _, _ => False
  | s :: rest, env, f, v =>
    s.Calls env f v ∨ s.eval.Then env fun _ env' => StatementsCall rest env' f v

/-- The run of a program with inputs comes to the call of `f` with `v`. -/
def Program.Calls (p : Program) (inputs : Bindings) (f v : Value) : Prop :=
  StatementsCall p.statements (.withInputs inputs) f v

/-! ## Building evaluations -/

namespace Evaluating

variable {α β : Type} {x : Evaluating α} {k : α → Evaluating β} {C C' : CallsFrom}
  {D : α → CallsFrom} {env env' : Environment} {failure : Failure} {d : Defect}

/-- Started in an environment, the evaluation ends in a defect. -/
def EndsIn (x : Evaluating α) (env : Environment) (d : Defect) : Prop :=
  ∃ env', x env = .error (.defect d) env'

theorem not_endsIn_of_ok {a : α} (h : x env = .ok a env') : ¬ x.EndsIn env d := by
  rintro ⟨env₁, he⟩
  cases h.symm.trans he

theorem endsIn_of_error (h : x env = .error failure env') :
    x.EndsIn env d ↔ failure = .defect d := by
  refine ⟨fun ⟨env₁, he⟩ => ?_, fun hf => ⟨env', hf ▸ h⟩⟩
  cases h.symm.trans he
  rfl

theorem endsIn_bind_of_ok {a : α} (h : x env = .ok a env') :
    (x >>= k).EndsIn env d ↔ (k a).EndsIn env' d := by
  rw [EndsIn, bind_of_ok h, EndsIn]

theorem endsIn_bind_of_error (h : x env = .error failure env') :
    (x >>= k).EndsIn env d ↔ x.EndsIn env d := by
  rw [endsIn_of_error h, endsIn_of_error (bind_of_error h)]

theorem then_of_ok {a : α} {P : α → Environment → Prop} (h : x env = .ok a env') :
    x.Then env P ↔ P a env' := by
  refine ⟨fun ⟨a', env₁, h', hP⟩ => ?_, fun hP => ⟨a, env', h, hP⟩⟩
  cases h.symm.trans h'
  exact hP

theorem not_then_of_error {P : α → Environment → Prop} (h : x env = .error failure env') :
    ¬ x.Then env P := by
  rintro ⟨a, env₁, h', -⟩
  cases h.symm.trans h'

/-- An evaluation that ends in a defect exactly if one of its calls is a misuse. -/
def Blames (x : Evaluating α) (C : CallsFrom) : Prop :=
  ∀ env d, x.EndsIn env d ↔ ∃ f v, C env f v ∧ f.Misuses v d

/-- An evaluation that never ends in a defect. -/
def NeverDefect (x : Evaluating α) : Prop := ∀ env d, ¬ x.EndsIn env d

theorem neverDefect_pure (a : α) : (pure a : Evaluating α).NeverDefect :=
  fun _ _ => not_endsIn_of_ok rfl

theorem neverDefect_fail (error : RuntimeError) (l : Option Location) :
    (fail error l : Evaluating α).NeverDefect := by
  intro env d
  rw [endsIn_of_error (x := fail error l) rfl]
  exact nofun

theorem endsIn_ofExcept {r : Except Failure α} :
    (ofExcept r).EndsIn env d ↔ r = .error (.defect d) := by
  cases r with
  | ok a => exact iff_of_false (not_endsIn_of_ok rfl) nofun
  | error failure =>
    rw [endsIn_of_error (x := ofExcept (.error failure)) rfl, Except.error.injEq]

theorem neverDefect_ofExcept {r : Except Failure α} (h : Harmless r) :
    (ofExcept r).NeverDefect :=
  fun _ d he => h d (endsIn_ofExcept.mp he)

theorem NeverDefect.bind (hx : x.NeverDefect) (hk : ∀ a, (k a).NeverDefect) :
    (x >>= k).NeverDefect := by
  intro env d
  cases h : x env with
  | ok a env' =>
    rw [endsIn_bind_of_ok h]
    exact hk a env' d
  | error failure env' =>
    rw [endsIn_bind_of_error h]
    exact hx env d

theorem neverDefect_lookup (name : String) (l : Option Location) :
    (lookup name l).NeverDefect := by
  have hget : (get : Evaluating Environment).NeverDefect := fun _ _ => not_endsIn_of_ok rfl
  refine hget.bind fun env => ?_
  cases env.get? name with
  | some v => exact neverDefect_pure v
  | none => exact neverDefect_fail _ l

theorem neverDefect_define (name : String) (v : Value) : (define name v).NeverDefect :=
  fun _ _ => not_endsIn_of_ok rfl

theorem NeverDefect.blames (h : x.NeverDefect) : x.Blames fun _ _ _ => False :=
  fun env d => iff_of_false (h env d) fun ⟨_, _, hc, _⟩ => hc

theorem Blames.congr (h : x.Blames C) (hC : ∀ env f v, C env f v ↔ C' env f v) : x.Blames C' := by
  intro env d
  simp only [h env d, hC]

/-- One evaluation and then, if it ends well, another. -/
theorem Blames.bind (hx : x.Blames C) (hk : ∀ a, (k a).Blames (D a)) :
    (x >>= k).Blames fun env f v => C env f v ∨ x.Then env fun a env' => D a env' f v := by
  intro env d
  cases h : x env with
  | ok a env' =>
    -- what ends well comes to no misuse
    have hnone := not_endsIn_of_ok (d := d) h
    rw [hx env d] at hnone
    rw [endsIn_bind_of_ok h, hk a env' d]
    simp only [then_of_ok h]
    constructor
    · rintro ⟨f, v, hc, hm⟩
      exact ⟨f, v, .inr hc, hm⟩
    · rintro ⟨f, v, hc | hc, hm⟩
      · exact absurd ⟨f, v, hc, hm⟩ hnone
      · exact ⟨f, v, hc, hm⟩
  | error failure env' =>
    simp only [not_then_of_error h, or_false]
    rw [endsIn_bind_of_error h, hx]

/-- Whatever follows that never ends in a defect. -/
theorem Blames.bind_neverDefect (hx : x.Blames C) (hk : ∀ a, (k a).NeverDefect) :
    (x >>= k).Blames C := by
  refine (hx.bind fun a => (hk a).blames).congr fun env f v => ?_
  exact or_iff_left fun ⟨_, _, _, hc⟩ => hc

theorem Blames.inScope (hx : x.Blames C) (b : Bindings) :
    (inScope b x).Blames fun env => C (env.push b) := by
  intro env d
  rw [← hx (env.push b) d]
  cases h : x (env.push b) with
  | ok a env' =>
    have hrun : Evaluating.inScope b x env = .ok a env'.leave := by rw [Evaluating.inScope, h]
    exact iff_of_false (not_endsIn_of_ok hrun) (not_endsIn_of_ok h)
  | error failure env' =>
    have hrun : Evaluating.inScope b x env = .error failure env'.leave := by
      rw [Evaluating.inScope, h]
    rw [endsIn_of_error hrun, endsIn_of_error h]

end Evaluating

open Evaluating

/-! ## Calls and operations -/

theorem harmless_eval (op : Operator) (l : Option Location) (a b : Value) :
    Harmless (op.eval l a b) := by
  intro d h
  unfold Operator.eval at h
  split at h <;> cases h

theorem applyValue_eq_defect_iff {l fl : Option Location} {g w : Value} {d : Defect} :
    applyValue l fl g w = .error (.defect d) ↔
      g.isFunction = true ∧ g.call w = .error (.defect d) := by
  unfold applyValue
  cases g.isFunction with
  | false => simp
  | true =>
    rw [if_pos rfl]
    cases g.call w with
    | ok r => simp [Except.mapError]
    | error fault => cases fault <;> simp [Except.mapError, CallFault.failure]

theorem applyValue_eq_ok_iff {l fl : Option Location} {g w r : Value} :
    applyValue l fl g w = .ok r ↔ g.isFunction = true ∧ g.call w = .ok r := by
  unfold applyValue
  cases g.isFunction with
  | false => simp
  | true =>
    rw [if_pos rfl]
    cases g.call w <;> simp [Except.mapError]

/-- A function that is applied is called. -/
theorem blames_applyValue (l fl : Option Location) (g w : Value) :
    (Evaluating.ofExcept (applyValue l fl g w)).Blames
      fun _ f v => g.isFunction = true ∧ f = g ∧ v = w := by
  intro env d
  rw [endsIn_ofExcept, applyValue_eq_defect_iff, Value.call_eq_defect_iff]
  constructor
  · rintro ⟨hg, hm⟩
    exact ⟨g, w, ⟨hg, rfl, rfl⟩, hm⟩
  · rintro ⟨f, v, ⟨hg, rfl, rfl⟩, hm⟩
    exact ⟨hg, hm⟩

theorem then_applyValue {l fl : Option Location} {g w : Value} {env : Environment}
    {P : Value → Environment → Prop} :
    (Evaluating.ofExcept (applyValue l fl g w)).Then env P ↔
      g.isFunction = true ∧ ∃ r, g.call w = .ok r ∧ P r env := by
  cases h : applyValue l fl g w with
  | ok r =>
    obtain ⟨hg, hr⟩ := applyValue_eq_ok_iff.mp h
    rw [then_of_ok (x := Evaluating.ofExcept (.ok r)) rfl]
    simp [hg, hr]
  | error failure =>
    refine iff_of_false (not_then_of_error (x := Evaluating.ofExcept (.error failure)) rfl) ?_
    rintro ⟨hg, r, hr, -⟩
    cases h.symm.trans (applyValue_eq_ok_iff.mpr ⟨hg, hr⟩)

/-! ## Trees -/

theorem blames_evalAll {es : List Expr} (h : ∀ e ∈ es, e.eval.Blames e.Calls) :
    (evalAll es).Blames (ExprsCall es) := by
  induction es with
  | nil => exact (neverDefect_pure _).blames
  | cons e es ih =>
    obtain ⟨he, hes⟩ := List.forall_mem_cons.mp h
    exact he.bind fun v => (ih hes).bind_neverDefect fun vs => neverDefect_pure _

theorem blames_applyArguments {args : List Argument} (hl : ∀ a ∈ args, a.IsLabelled)
    (hn : ∀ label e, .mk label e ∈ args → e ≠ .other .missing)
    (h : ∀ label e, .mk label e ∈ args → e.eval.Blames e.Calls) (l fl : Option Location)
    (g : Value) : (applyArguments l fl g args).Blames (ArgumentsCall args g) := by
  induction args generalizing g with
  | nil => exact (neverDefect_pure _).blames
  | cons a args ih =>
    obtain ⟨hl₁, hl₂⟩ := List.forall_mem_cons.mp hl
    cases a with
    | other n => exact absurd hl₁ id
    | mk label e =>
      have hrest := ih hl₂ (fun label e he => hn label e (List.mem_cons_of_mem _ he))
        fun label e he => h label e (List.mem_cons_of_mem _ he)
      by_cases hp : label = .positional
      · subst hp
        have hcall := fun w => (blames_applyValue l fl g w).bind hrest
        refine ((h _ e List.mem_cons_self).bind hcall).congr fun env f v => ?_
        simp only [then_applyValue, ← and_or_left]
        rfl
      · rw [applyArguments_labelled hp (hn _ e List.mem_cons_self)]
        refine (neverDefect_fail _ _).blames.congr fun env f v => ?_
        cases label with
        | positional => exact absurd rfl hp
        | labelled | optional => exact Iff.rfl

theorem blames_evalArms {arms : List Arm} (ha : ∀ a ∈ arms, a.HasPattern)
    (h : ∀ p body l, .mk p body l ∈ arms → body.eval.Blames body.Calls) (l : Option Location)
    (w : Value) : (evalArms l w arms).Blames (ArmsCall arms w) := by
  induction arms with
  | nil => exact (neverDefect_fail _ _).blames
  | cons a arms ih =>
    obtain ⟨ha₁, ha₂⟩ := List.forall_mem_cons.mp ha
    cases a with
    | other n => exact absurd ha₁ id
    | mk p body l' =>
      have hrest := ih ha₂ fun p body l hb => h p body l (List.mem_cons_of_mem _ hb)
      cases hm : p.match w [] with
      | error failure =>
        have harms : evalArms l w (.mk p body l' :: arms) = throw failure := by
          rw [evalArms, hm]
          rfl
        have hnever : (throw failure : Evaluating Value).NeverDefect := by
          intro env d
          rw [endsIn_of_error (x := throw failure) rfl]
          rintro rfl
          exact p.harmless_match ha₁ w [] d hm
        rw [harms]
        refine hnever.blames.congr fun env f v => ?_
        simp [ArmsCall, hm]
      | ok result =>
        obtain ⟨matched, b⟩ := result
        cases matched with
        | true =>
          have harms : evalArms l w (.mk p body l' :: arms) = inScope b body.eval := by
            rw [evalArms, hm]
            rfl
          rw [harms]
          refine ((h p body l' List.mem_cons_self).inScope b).congr fun env f v => ?_
          simp [ArmsCall, hm]
        | false =>
          have harms : evalArms l w (.mk p body l' :: arms) = evalArms l w arms := by
            rw [evalArms, hm]
            rfl
          rw [harms]
          refine hrest.congr fun env f v => ?_
          simp [ArmsCall, hm]

/-- A well-formed expression ends in a defect exactly if it comes to a misuse. -/
theorem Expr.IsWellFormed.blames {e : Expr} (h : e.IsWellFormed) : e.eval.Blames e.Calls := by
  induction h with
  | constant => exact (neverDefect_pure _).blames
  | identifier => exact (neverDefect_lookup _ _).blames
  | unit => exact (neverDefect_pure _).blames
  | extension => exact (neverDefect_fail _ _).blames
  | apply hf hl ha ihf iha =>
    exact ihf.bind fun g =>
      blames_applyArguments hl (fun label e he => (ha label e he).ne_other _) iha _ _ g
  | constraint _ ih => exact ih
  | tuple _ ih => exact (blames_evalAll ih).bind_neverDefect fun vs => neverDefect_pure _
  | list _ ih => exact (blames_evalAll ih).bind_neverDefect fun vs => neverDefect_pure _
  | binary _ _ ihl ihr =>
    exact ihl.bind fun a => ihr.bind_neverDefect fun b =>
      neverDefect_ofExcept (harmless_eval _ _ a b)
  | cons _ _ ihh iht =>
    refine ihh.bind fun v => iht.bind_neverDefect fun t => ?_
    cases t with
    | list vs => exact neverDefect_pure _
    | _ => exact neverDefect_fail _ _
  | matching _ ha _ ihe ihb => exact ihe.bind fun w => blames_evalArms ha ihb _ w

/-! ## Programs -/

theorem Statement.IsWellFormed.blames {s : Statement} (h : s.IsWellFormed) :
    s.eval.Blames s.Calls := by
  cases h with
  | binding he =>
    exact he.blames.bind_neverDefect fun v =>
      (neverDefect_define _ v).bind fun _ => neverDefect_pure v
  | expression he => exact he.blames

end MessageLang
