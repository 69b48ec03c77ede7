import Mathlib.Data.List.Forall2
import MessageLang.Proofs.Evaluation.Places
import MessageLang.Proofs.Expansion.Accounts
/-!
# Code that is alike

Two trees are alike if, whenever the first is expanded without a failure, so is the second, and what
they become does the same but for the places of failures. Trees are alike if their parts are, one by
one.

* `Expr.Alike site e e'`, `Argument.Alike site a a'`.
* `alike_apply`, `alike_applied`, `alike_list`, ...: one lemma for each kind of tree.
-/
namespace MessageLang

open Evaluating

/-- Expressions that do the same, but for the places of failures. -/
structure Expr.DoesSame (e e' : Expr) : Prop where
  ne_other : ∀ n, e ≠ .other n
  ne_other' : ∀ n, e' ≠ .other n
  same : e'.eval.Same e.eval

/-- Where the first tree is expanded without a failure, so is the second, and they become
expressions that do the same. -/
def Expr.Alike (site : Site) (e e' : Expr) : Prop :=
  (e.replaceExtensions site).failures = [] →
    (e'.replaceExtensions site).failures = [] ∧
      (e.replaceExtensions site).value.DoesSame (e'.replaceExtensions site).value

/-- Arguments with the same label whose expressions are alike. -/
def Argument.Alike (site : Site) : Argument → Argument → Prop
  | .mk label e, .mk label' e' => label = label' ∧ e.Alike site e'
  | _, _ => False

namespace Evaluating

variable {α : Type} {x y : Evaluating α}

theorem unplaced_inScope (b : Bindings) (x : Evaluating α) :
    (inScope b x).unplaced = inScope b x.unplaced := by
  funext env
  simp only [unplaced, inScope]
  cases x (env.push b) <;> rfl

theorem Same.inScope (h : x.Same y) (b : Bindings) :
    (Evaluating.inScope b x).Same (Evaluating.inScope b y) := by
  rw [Same, unplaced_inScope, unplaced_inScope, h]

end Evaluating

section

variable {site : Site} {l l' : Option Location}

/-! ## Leaves -/

theorem alike_identifier (name : String) :
    (Expr.identifier name l).Alike site (.identifier name l') :=
  fun _ => ⟨rfl, nofun, nofun, same_lookup name l' l⟩

theorem alike_constant {c c' : Constant} (h : c'.value = c.value) :
    (Expr.constant c).Alike site (.constant c') := by
  refine fun _ => ⟨rfl, nofun, nofun, ?_⟩
  show (pure c'.value : Evaluating Value).Same (pure c.value)
  rw [h]
  exact Same.refl _

theorem alike_unit : (Expr.unit l).Alike site (.unit l') :=
  fun _ => ⟨rfl, nofun, nofun, Same.refl _⟩

/-! ## Lists of parts -/

theorem alike_exprs {es es' : List Expr} (h : List.Forall₂ (Expr.Alike site) es es')
    (hf : (replaceInExprs site es).failures = []) :
    (replaceInExprs site es').failures = [] ∧
      (evalAll (replaceInExprs site es').value).Same (evalAll (replaceInExprs site es).value) := by
  induction h with
  | nil => exact ⟨rfl, Same.refl _⟩
  | cons he _ ih =>
    simp only [replaceInExprs, Expansion.bind_failures, Expansion.pure_failures, List.append_nil,
      List.append_eq_nil_iff] at hf ⊢
    obtain ⟨hf', hsame⟩ := he hf.1
    obtain ⟨hfs, hall⟩ := ih hf.2
    exact ⟨⟨hf', hfs⟩, hsame.same.bind fun v => hall.bind fun vs => Same.refl _⟩

theorem alike_arguments {args args' : List Argument}
    (h : List.Forall₂ (Argument.Alike site) args args')
    (hf : (replaceInArguments site args).failures = []) :
    (replaceInArguments site args').failures = [] ∧ ∀ l fl l' fl' f,
      (applyArguments l' fl' f (replaceInArguments site args').value).Same
        (applyArguments l fl f (replaceInArguments site args).value) := by
  induction h with
  | nil => exact ⟨rfl, fun _ _ _ _ _ => Same.refl _⟩
  | @cons a a' args args' ha _ ih =>
    cases a with
    | other n => exact absurd ha id
    | mk label e =>
      cases a' with
      | other n => exact absurd ha id
      | mk label' e' =>
        obtain ⟨rfl, he⟩ := ha
        simp only [replaceInArguments, Expansion.bind_failures, Expansion.pure_failures,
          List.append_nil, List.append_eq_nil_iff] at hf ⊢
        obtain ⟨hf', hsame⟩ := he hf.1
        obtain ⟨hfs, hall⟩ := ih hf.2
        refine ⟨⟨hf', hfs⟩, fun l fl l' fl' f => ?_⟩
        by_cases hp : label = .positional
        · subst hp
          refine hsame.same.bind fun v => ?_
          exact (same_ofExcept (unplaced_applyValue f v l' fl' l fl)).bind (hall l fl l' fl')
        · have h' := applyArguments_labelled hp (hsame.ne_other' _) l' fl' f
            (replaceInArguments site args').value
          have h := applyArguments_labelled hp (hsame.ne_other _) l fl f
            (replaceInArguments site args).value
          show (applyArguments l' fl' f (.mk label _ :: _)).Same
            (applyArguments l fl f (.mk label _ :: _))
          rw [h, h']
          exact same_fail _ _ _

/-! ## Trees -/

theorem alike_apply {f f' : Expr} {args args' : List Argument} (hfun : f.Alike site f')
    (hargs : List.Forall₂ (Argument.Alike site) args args') :
    (Expr.apply f args l).Alike site (.apply f' args' l') := by
  intro hf
  simp only [Expr.replaceExtensions, Expansion.bind_failures, Expansion.pure_failures,
    List.append_nil, List.append_eq_nil_iff] at hf ⊢
  obtain ⟨hf', hsame⟩ := hfun hf.1
  obtain ⟨hfs, hall⟩ := alike_arguments hargs hf.2
  exact ⟨⟨hf', hfs⟩, nofun, nofun, hsame.same.bind fun v => hall _ _ _ _ v⟩

theorem alike_call {f f' x x' : Expr} (hfun : f.Alike site f') (hx : x.Alike site x') :
    (Expr.call f [x] l).Alike site (.call f' [x'] l') :=
  alike_apply hfun (.cons ⟨rfl, hx⟩ .nil)

theorem replaceInArguments_append (site : Site) {args : List Argument}
    (hl : ∀ a ∈ args, a.IsLabelled) (args' : List Argument) :
    (replaceInArguments site (args ++ args')).failures =
        (replaceInArguments site args).failures ++ (replaceInArguments site args').failures ∧
      (replaceInArguments site (args ++ args')).value =
        (replaceInArguments site args).value ++ (replaceInArguments site args').value := by
  induction args with
  | nil => exact ⟨rfl, rfl⟩
  | cons a args ih =>
    obtain ⟨hl₁, hl₂⟩ := List.forall_mem_cons.mp hl
    cases a with
    | other n => exact absurd hl₁ id
    | mk label e =>
      obtain ⟨hf, hv⟩ := ih hl₂
      simp only [List.cons_append, replaceInArguments, Expansion.bind_failures,
        Expansion.pure_failures, Expansion.bind_value, Expansion.pure_value, List.append_nil, hf,
        hv, List.append_assoc, and_self]

/-- An application may be alike to one whose function takes the arguments behind its own. -/
theorem alike_applied {f f' : Expr} {args args' : List Argument} (hf' : f'.IsReadable)
    (hfun : f.Alike site f') (hargs : List.Forall₂ (Argument.Alike site) args args') :
    (Expr.apply f args l).Alike site (f'.applied args' l') := by
  have hplain : (Expr.apply f args l).Alike site (.apply f' args' l') := alike_apply hfun hargs
  cases hf' with
  | @apply g before m _ _ hl _ =>
    intro hf
    obtain ⟨hnone, hsame⟩ := hplain hf
    obtain ⟨hfailures, hvalue⟩ := replaceInArguments_append site hl args'
    simp only [Expr.applied, Expr.replaceExtensions, Expansion.bind_failures,
      Expansion.pure_failures, List.append_nil, List.append_eq_nil_iff, Expansion.bind_value,
      Expansion.pure_value] at hnone hsame ⊢
    obtain ⟨⟨hg, hbefore⟩, hrest⟩ := hnone
    refine ⟨⟨hg, by rw [hfailures, hbefore, hrest]; rfl⟩, fun _ => Expr.noConfusion,
      fun _ => Expr.noConfusion, ?_⟩
    rw [hvalue]
    exact (Expr.same_applied (.apply (g.replaceExtensions site).value
      (replaceInArguments site before).value m) _ l').trans hsame.same
  | _ => exact hplain

theorem alike_constraint {e e' : Expr} {t t' : TypeExpr} (he : e.Alike site e') :
    (Expr.constraint e t l).Alike site (.constraint e' t' l') := by
  intro hf
  simp only [Expr.replaceExtensions, Expansion.bind_failures, Expansion.pure_failures,
    List.append_nil] at hf ⊢
  obtain ⟨hf', hsame⟩ := he hf
  exact ⟨hf', nofun, nofun, hsame.same⟩

theorem alike_tuple {es es' : List Expr} (h : List.Forall₂ (Expr.Alike site) es es') :
    (Expr.tuple es l).Alike site (.tuple es' l') := by
  intro hf
  simp only [Expr.replaceExtensions, Expansion.bind_failures, Expansion.pure_failures,
    List.append_nil] at hf ⊢
  obtain ⟨hf', hall⟩ := alike_exprs h hf
  exact ⟨hf', nofun, nofun, hall.bind fun vs => Same.refl _⟩

theorem alike_list {es es' : List Expr} (h : List.Forall₂ (Expr.Alike site) es es') :
    (Expr.list es l).Alike site (.list es' l') := by
  intro hf
  simp only [Expr.replaceExtensions, Expansion.bind_failures, Expansion.pure_failures,
    List.append_nil] at hf ⊢
  obtain ⟨hf', hall⟩ := alike_exprs h hf
  exact ⟨hf', nofun, nofun, hall.bind fun vs => Same.refl _⟩

theorem alike_binary {left left' right right' : Expr} {op : Operator} (hl : left.Alike site left')
    (hr : right.Alike site right') :
    (Expr.binary left op right l).Alike site (.binary left' op right' l') := by
  intro hf
  simp only [Expr.replaceExtensions, Expansion.bind_failures, Expansion.pure_failures,
    List.append_nil, List.append_eq_nil_iff] at hf ⊢
  obtain ⟨hfl, hleft⟩ := hl hf.1
  obtain ⟨hfr, hright⟩ := hr hf.2
  refine ⟨⟨hfl, hfr⟩, nofun, nofun, ?_⟩
  exact hleft.same.bind fun a => hright.same.bind fun b =>
    same_ofExcept (unplaced_eval op a b l' l)

theorem alike_cons {head head' tail tail' : Expr} (hh : head.Alike site head')
    (ht : tail.Alike site tail') :
    (Expr.cons head tail l).Alike site (.cons head' tail' l') := by
  intro hf
  simp only [Expr.replaceExtensions, Expansion.bind_failures, Expansion.pure_failures,
    List.append_nil, List.append_eq_nil_iff] at hf ⊢
  obtain ⟨hfh, hhead⟩ := hh hf.1
  obtain ⟨hft, htail⟩ := ht hf.2
  refine ⟨⟨hfh, hft⟩, nofun, nofun, ?_⟩
  refine hhead.same.bind fun v => htail.same.bind fun t => ?_
  cases t with
  | list vs => exact Same.refl _
  | _ => exact same_fail _ _ _

/-- Arms with the same pattern, and with bodies that are alike. -/
def Arm.Alike (site : Site) : Arm → Arm → Prop
  | .mk p e _, .mk p' e' _ => p = p' ∧ e.Alike site e'
  | _, _ => False

theorem alike_matching {e e' : Expr} {arms arms' : List Arm} (he : e.Alike site e')
    (harms : List.Forall₂ (Arm.Alike site) arms arms') :
    (Expr.matching e arms l).Alike site (.matching e' arms' l') := by
  have hall : (replaceInArms site arms).failures = [] →
      (replaceInArms site arms').failures = [] ∧ ∀ v,
        (evalArms l' v (replaceInArms site arms').value).Same
          (evalArms l v (replaceInArms site arms).value) := by
    clear he
    induction harms with
    | nil => exact fun _ => ⟨rfl, fun v => same_fail _ _ _⟩
    | @cons a a' arms arms' ha _ ih =>
      cases a with
      | other n => exact absurd ha id
      | mk p body m =>
        cases a' with
        | other n => exact absurd ha id
        | mk p' body' m' =>
          obtain ⟨rfl, hbody⟩ := ha
          intro hf
          simp only [replaceInArms, Arm.replaceExtensions, Expansion.bind_failures,
            Expansion.pure_failures, List.append_nil, List.append_eq_nil_iff] at hf ⊢
          obtain ⟨hfb, hsame⟩ := hbody hf.1
          obtain ⟨hfs, hrest⟩ := ih hf.2
          refine ⟨⟨hfb, hfs⟩, fun v => Same.bind (Same.refl _) fun r => ?_⟩
          obtain ⟨matched, b⟩ := r
          cases matched with
          | true => exact hsame.same.inScope b
          | false => exact hrest v
  intro hf
  simp only [Expr.replaceExtensions, Expansion.bind_failures, Expansion.pure_failures,
    List.append_nil, List.append_eq_nil_iff] at hf ⊢
  obtain ⟨hfe, hsame⟩ := he hf.1
  obtain ⟨hfs, hrest⟩ := hall hf.2
  exact ⟨⟨hfe, hfs⟩, nofun, nofun, hsame.same.bind fun v => hrest v⟩

end
end MessageLang
