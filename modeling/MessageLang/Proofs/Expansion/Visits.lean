import MessageLang.Proofs.Syntax.Proper
/-!
# Replacing the uses of a tree

The uses that stand in no payload are replaced one after the other, from left to right, and nothing
else changes. So what is true of the single uses and goes along with `pure` and `bind` is true of
the tree.

* `Expansion.Threads`: a relation between an expansion, the uses it leaves and the uses it starts
  from that goes along with `pure` and `bind`.
* `Expr.IsProper.threads`, `threads_statements`: such a relation holds of a tree if it holds of its
  uses.
* `Expr.IsProper.replaceExtensions_congr`: what a tree becomes depends on its uses only.
* `Expr.IsCode.value_eq_self`: a tree whose uses stay stays.
-/
namespace MessageLang

/-- What the uses an expansion starts from and the ones it leaves have to do with it, put together
from one part of a tree to the next. -/
structure Expansion.Threads (R : (α : Type) → Expansion α → List Expr → List Expr → Prop) :
    Prop where
  pure : ∀ {α : Type} (a : α), R α (pure a) [] []
  bind : ∀ {α β : Type} {x : Expansion α} {f : α → Expansion β} {left left' uses uses' : List Expr},
    R α x left uses → R β (f x.value) left' uses' → R β (x >>= f) (left ++ left') (uses ++ uses')

namespace Expansion.Threads

variable {R : (α : Type) → Expansion α → List Expr → List Expr → Prop}

theorem map (hR : Threads R) {α β : Type} {x : Expansion α} {left uses : List Expr}
    (h : R α x left uses) (g : α → β) : R β (x >>= fun a => Pure.pure (g a)) left uses := by
  have hbind := hR.bind (f := fun a => Pure.pure (g a)) h (hR.pure (g x.value))
  rwa [List.append_nil, List.append_nil] at hbind

end Expansion.Threads

section

variable {R : (α : Type) → Expansion α → List Expr → List Expr → Prop} {site : Site}

/-- The relation holds of replacing the uses of an expression. -/
def Expr.Threads (R : (α : Type) → Expansion α → List Expr → List Expr → Prop) (site : Site)
    (e : Expr) : Prop :=
  R Expr (e.replaceExtensions site) (e.replaceExtensions site).value.outermost e.outermost

theorem threads_exprs (hR : Expansion.Threads R) {es : List Expr}
    (h : ∀ e ∈ es, e.Threads R site) :
    R _ (replaceInExprs site es) (outermostOfExprs (replaceInExprs site es).value)
      (outermostOfExprs es) := by
  induction es with
  | nil => exact hR.pure _
  | cons e es ih =>
    obtain ⟨he, hes⟩ := List.forall_mem_cons.mp h
    exact hR.bind he (hR.map (ih hes) _)

theorem threads_arguments (hR : Expansion.Threads R) {args : List Argument}
    (hl : ∀ a ∈ args, a.IsArgument) (h : ∀ label e, .mk label e ∈ args → e.Threads R site) :
    R _ (replaceInArguments site args) (outermostOfArguments (replaceInArguments site args).value)
      (outermostOfArguments args) := by
  induction args with
  | nil => exact hR.pure _
  | cons a args ih =>
    obtain ⟨hl₁, hl₂⟩ := List.forall_mem_cons.mp hl
    cases a with
    | other n => exact absurd hl₁ id
    | mk label e =>
      have hargs := ih hl₂ fun label e he => h label e (List.mem_cons_of_mem _ he)
      exact hR.bind (h label e List.mem_cons_self) (hR.map hargs _)

theorem threads_arms (hR : Expansion.Threads R) {arms : List Arm} (ha : ∀ a ∈ arms, a.IsArm)
    (h : ∀ p body l, .mk p body l ∈ arms → body.Threads R site) :
    R _ (replaceInArms site arms) (outermostOfArms (replaceInArms site arms).value)
      (outermostOfArms arms) := by
  induction arms with
  | nil => exact hR.pure _
  | cons a arms ih =>
    obtain ⟨ha₁, ha₂⟩ := List.forall_mem_cons.mp ha
    cases a with
    | other n => exact absurd ha₁ id
    | mk p body l =>
      have harms := ih ha₂ fun p body l hb => h p body l (List.mem_cons_of_mem _ hb)
      exact hR.bind (hR.map (h p body l List.mem_cons_self) _) (hR.map harms _)

/-- What holds of replacing each use of a tree holds of replacing them all. -/
theorem Expr.IsProper.threads (hR : Expansion.Threads R) {e : Expr} (h : e.IsProper)
    (hs : ∀ x ∈ e.outermost, x.Threads R site) : e.Threads R site := by
  induction h with
  | constant | identifier | unit => exact hR.pure _
  | extension | payload => exact hs _ (List.mem_singleton_self _)
  | @apply f args l _ hl _ ihf iha =>
    rw [outermost, outermostOfArguments_eq_flatMap, List.forall_mem_append,
      List.forall_mem_flatMap] at hs
    have hargs := threads_arguments hR hl fun label e he => iha label e he (hs.2 _ he)
    exact hR.bind (ihf hs.1) (hR.map hargs _)
  | constraint _ _ ih => exact hR.map (ih hs) _
  | tuple _ ih =>
    rw [outermost, outermostOfExprs_eq_flatMap, List.forall_mem_flatMap] at hs
    exact hR.map (threads_exprs hR fun e he => ih e he (hs e he)) _
  | list _ ih =>
    rw [outermost, outermostOfExprs_eq_flatMap, List.forall_mem_flatMap] at hs
    exact hR.map (threads_exprs hR fun e he => ih e he (hs e he)) _
  | binary _ _ ihl ihr =>
    rw [outermost, List.forall_mem_append] at hs
    exact hR.bind (ihl hs.1) (hR.map (ihr hs.2) _)
  | cons _ _ ihh iht =>
    rw [outermost, List.forall_mem_append] at hs
    exact hR.bind (ihh hs.1) (hR.map (iht hs.2) _)
  | matching _ ha _ ihe ihb =>
    rw [outermost, outermostOfArms_eq_flatMap, List.forall_mem_append,
      List.forall_mem_flatMap] at hs
    have harms := threads_arms hR ha fun p body l hb => ihb p body l hb (hs.2 _ hb)
    exact hR.bind (ihe hs.1) (hR.map harms _)

theorem threads_statements (hR : Expansion.Threads R) {ss : List Statement}
    (h : ∀ s ∈ ss, s.IsProper) (hs : ∀ x ∈ outermostOfStatements ss, x.Threads R site) :
    R _ (replaceInStatements site ss) (outermostOfStatements (replaceInStatements site ss).value)
      (outermostOfStatements ss) := by
  induction ss with
  | nil => exact hR.pure _
  | cons s ss ih =>
    obtain ⟨h₁, h₂⟩ := List.forall_mem_cons.mp h
    rw [outermostOfStatements, List.forall_mem_append] at hs
    have hrest := ih h₂ hs.2
    cases h₁ with
    | binding he => exact hR.bind (hR.map (he.threads hR hs.1) _) (hR.map hrest _)
    | expression he => exact hR.bind (hR.map (he.threads hR hs.1) _) (hR.map hrest _)

end

/-! ## Trees whose uses become the same -/

section

variable {site site' : Site}

theorem replaceInExprs_congr {es : List Expr}
    (h : ∀ e ∈ es, e.replaceExtensions site = e.replaceExtensions site') :
    replaceInExprs site es = replaceInExprs site' es := by
  induction es with
  | nil => rfl
  | cons e es ih =>
    obtain ⟨he, hes⟩ := List.forall_mem_cons.mp h
    rw [replaceInExprs, replaceInExprs, he, ih hes]

theorem replaceInArguments_congr {args : List Argument} (hl : ∀ a ∈ args, a.IsArgument)
    (h : ∀ label e, .mk label e ∈ args → e.replaceExtensions site = e.replaceExtensions site') :
    replaceInArguments site args = replaceInArguments site' args := by
  induction args with
  | nil => rfl
  | cons a args ih =>
    obtain ⟨hl₁, hl₂⟩ := List.forall_mem_cons.mp hl
    cases a with
    | other n => exact absurd hl₁ id
    | mk label e =>
      have hargs := ih hl₂ fun label e he => h label e (List.mem_cons_of_mem _ he)
      rw [replaceInArguments, replaceInArguments, h label e List.mem_cons_self, hargs]

theorem replaceInArms_congr {arms : List Arm} (ha : ∀ a ∈ arms, a.IsArm)
    (h : ∀ p body l, .mk p body l ∈ arms →
      body.replaceExtensions site = body.replaceExtensions site') :
    replaceInArms site arms = replaceInArms site' arms := by
  induction arms with
  | nil => rfl
  | cons a arms ih =>
    obtain ⟨ha₁, ha₂⟩ := List.forall_mem_cons.mp ha
    cases a with
    | other n => exact absurd ha₁ id
    | mk p body l =>
      have harms := ih ha₂ fun p body l hb => h p body l (List.mem_cons_of_mem _ hb)
      rw [replaceInArms, replaceInArms, Arm.replaceExtensions, Arm.replaceExtensions,
        h p body l List.mem_cons_self, harms]

/-- A tree whose uses become the same becomes the same. -/
theorem Expr.IsProper.replaceExtensions_congr {e : Expr} (h : e.IsProper)
    (hs : ∀ x ∈ e.outermost, x.replaceExtensions site = x.replaceExtensions site') :
    e.replaceExtensions site = e.replaceExtensions site' := by
  induction h with
  | constant | identifier | unit => rfl
  | extension | payload => exact hs _ (List.mem_singleton_self _)
  | apply _ hl _ ihf iha =>
    rw [outermost, outermostOfArguments_eq_flatMap, List.forall_mem_append,
      List.forall_mem_flatMap] at hs
    have hargs := replaceInArguments_congr hl fun label e he => iha label e he (hs.2 _ he)
    rw [replaceExtensions, replaceExtensions, ihf hs.1, hargs]
  | constraint _ _ ih => rw [replaceExtensions, replaceExtensions, ih hs]
  | tuple _ ih | list _ ih =>
    rw [outermost, outermostOfExprs_eq_flatMap, List.forall_mem_flatMap] at hs
    rw [replaceExtensions, replaceExtensions,
      replaceInExprs_congr fun e he => ih e he (hs e he)]
  | binary _ _ ihl ihr =>
    rw [outermost, List.forall_mem_append] at hs
    rw [replaceExtensions, replaceExtensions, ihl hs.1, ihr hs.2]
  | cons _ _ ihh iht =>
    rw [outermost, List.forall_mem_append] at hs
    rw [replaceExtensions, replaceExtensions, ihh hs.1, iht hs.2]
  | matching _ ha _ ihe ihb =>
    rw [outermost, outermostOfArms_eq_flatMap, List.forall_mem_append,
      List.forall_mem_flatMap] at hs
    have harms := replaceInArms_congr ha fun p body l hb => ihb p body l hb (hs.2 _ hb)
    rw [replaceExtensions, replaceExtensions, ihe hs.1, harms]

theorem replaceInStatements_congr {ss : List Statement} (h : ∀ s ∈ ss, s.IsProper)
    (hs : ∀ x ∈ outermostOfStatements ss, x.replaceExtensions site = x.replaceExtensions site') :
    replaceInStatements site ss = replaceInStatements site' ss := by
  induction ss with
  | nil => rfl
  | cons s ss ih =>
    obtain ⟨h₁, h₂⟩ := List.forall_mem_cons.mp h
    rw [outermostOfStatements, List.forall_mem_append] at hs
    have hsame : s.replaceExtensions site = s.replaceExtensions site' := by
      cases h₁ with
      | binding he =>
        rw [Statement.replaceExtensions, Statement.replaceExtensions,
          he.replaceExtensions_congr hs.1]
      | expression he =>
        rw [Statement.replaceExtensions, Statement.replaceExtensions,
          he.replaceExtensions_congr hs.1]
    rw [replaceInStatements, replaceInStatements, hsame, ih h₂ hs.2]

end

/-! ## Trees that stay -/

section

variable {site : Site} {inArm : Bool}

theorem value_exprs {es : List Expr} (h : ∀ e ∈ es, (e.replaceExtensions site).value = e) :
    (replaceInExprs site es).value = es := by
  induction es with
  | nil => rfl
  | cons e es ih =>
    obtain ⟨he, hes⟩ := List.forall_mem_cons.mp h
    simp [replaceInExprs, he, ih hes]

theorem value_arguments {args : List Argument} (hl : ∀ a ∈ args, a.IsLabelled)
    (h : ∀ label e, .mk label e ∈ args → (e.replaceExtensions site).value = e) :
    (replaceInArguments site args).value = args := by
  induction args with
  | nil => rfl
  | cons a args ih =>
    obtain ⟨hl₁, hl₂⟩ := List.forall_mem_cons.mp hl
    cases a with
    | other n => exact absurd hl₁ id
    | mk label e =>
      have he := h label e List.mem_cons_self
      have hargs := ih hl₂ fun label e he => h label e (List.mem_cons_of_mem _ he)
      simp [replaceInArguments, he, hargs]

theorem value_arms {arms : List Arm} (ha : ∀ a ∈ arms, a.BindsWords)
    (h : ∀ p body l, .mk p body l ∈ arms → (body.replaceExtensions site).value = body) :
    (replaceInArms site arms).value = arms := by
  induction arms with
  | nil => rfl
  | cons a arms ih =>
    obtain ⟨ha₁, ha₂⟩ := List.forall_mem_cons.mp ha
    cases a with
    | other n => exact absurd ha₁ id
    | mk p body l =>
      have hbody := h p body l List.mem_cons_self
      have harms := ih ha₂ fun p body l hb => h p body l (List.mem_cons_of_mem _ hb)
      simp [replaceInArms, Arm.replaceExtensions, hbody, harms]

/-- A tree whose uses stay stays. -/
theorem Expr.IsCode.value_eq_self {e : Expr} (h : e.IsCode inArm)
    (hs : ∀ x ∈ e.outermost, (x.replaceExtensions site).value = x) :
    (e.replaceExtensions site).value = e := by
  induction h with
  | constant | identifier | unit => rfl
  | extension => exact hs _ (List.mem_singleton_self _)
  | apply _ _ hl _ ihf iha =>
    rw [outermost, outermostOfArguments_eq_flatMap, List.forall_mem_append,
      List.forall_mem_flatMap] at hs
    have hargs := value_arguments hl fun label e he => iha label e he (hs.2 _ he)
    simp [replaceExtensions, ihf hs.1, hargs]
  | constraint _ _ ih => simp [replaceExtensions, ih hs]
  | tuple _ _ ih =>
    rw [outermost, outermostOfExprs_eq_flatMap, List.forall_mem_flatMap] at hs
    simp [replaceExtensions, value_exprs fun e he => ih e he (hs e he)]
  | list _ ih =>
    rw [outermost, outermostOfExprs_eq_flatMap, List.forall_mem_flatMap] at hs
    simp [replaceExtensions, value_exprs fun e he => ih e he (hs e he)]
  | binary _ _ ihl ihr =>
    rw [outermost, List.forall_mem_append] at hs
    simp [replaceExtensions, ihl hs.1, ihr hs.2]
  | cons _ _ _ ihh iht =>
    rw [outermost, List.forall_mem_append] at hs
    simp [replaceExtensions, ihh hs.1, iht hs.2]
  | matching _ ha _ ihe ihb =>
    rw [outermost, outermostOfArms_eq_flatMap, List.forall_mem_append,
      List.forall_mem_flatMap] at hs
    have harms := value_arms ha fun p body l hb => ihb p body l hb (hs.2 _ hb)
    simp [replaceExtensions, ihe hs.1, harms]

end
end MessageLang
