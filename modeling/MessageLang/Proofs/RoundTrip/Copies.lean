import MessageLang.Proofs.RoundTrip.Alike
import MessageLang.Proofs.Syntax.SameText
/-!
# Copies of what was read

A copy of a tree is what its text is read back as: the same tree but for places, with flat
applications. A tree is alike to its copies as far as the uses of extensions in it are alike to
theirs.

* `Expr.Keeps`: the uses whose text has the payload that they have, and that do not hang on places.
* `Expr.IsReadable.alike`: the induction on the tree.
-/
namespace MessageLang

/-- Whether a part that is the use of an extension keeps what it stands for in its copies: `[%here]`
stands for its place, and the arguments of a message are others if the function of its payload is
itself an application. -/
def Expr.Keeps : Expr → Prop
  | .extension name payload _ => name ≠ "here" ∧
    ∀ f args l, name = "message" → payload = some (.apply f args l) → f.isApply = false
  | _ => True

/-- Uses of extensions are alike to their copies. -/
def Site.Copies (site : Site) : Prop :=
  ∀ name payload payload' l l', (Expr.extension name payload l).IsReadable →
    (Expr.extension name payload' l').IsReadable → (Expr.extension name payload l).All Expr.Keeps →
    (Expr.extension name payload' l').bare = (Expr.extension name payload l).flatten.bare →
    (Expr.extension name payload l).Alike site (.extension name payload' l')

section

variable {site : Site}

theorem forall₂_alike_exprs {es es' : List Expr}
    (h : ∀ e ∈ es, ∀ e' ∈ es', e'.bare = e.flatten.bare → e.Alike site e')
    (hb : es'.map Expr.bare = es.map fun e => e.flatten.bare) :
    List.Forall₂ (Expr.Alike site) es es' := by
  induction es generalizing es' with
  | nil =>
    rw [List.map_eq_nil_iff.mp hb]
    exact .nil
  | cons e es ih =>
    obtain ⟨e', es'', rfl, he, hes⟩ := List.map_eq_cons_iff.mp hb
    refine .cons (h e List.mem_cons_self e' List.mem_cons_self he) (ih (fun x hx x' hx' => ?_) hes)
    exact h x (List.mem_cons_of_mem _ hx) x' (List.mem_cons_of_mem _ hx')

theorem forall₂_alike_arguments {args args' : List Argument} (hl : ∀ a ∈ args, a.IsLabelled)
    (hl' : ∀ a ∈ args', a.IsLabelled)
    (h : ∀ label e, .mk label e ∈ args → ∀ label' e', .mk label' e' ∈ args' →
      e'.bare = e.flatten.bare → e.Alike site e')
    (hb : args'.map Argument.bare = args.map fun a => a.flatten.bare) :
    List.Forall₂ (Argument.Alike site) args args' := by
  induction args generalizing args' with
  | nil =>
    rw [List.map_eq_nil_iff.mp hb]
    exact .nil
  | cons a args ih =>
    obtain ⟨a', args'', rfl, ha, hargs⟩ := List.map_eq_cons_iff.mp hb
    obtain ⟨hl₁, hl₂⟩ := List.forall_mem_cons.mp hl
    obtain ⟨hl₁', hl₂'⟩ := List.forall_mem_cons.mp hl'
    have hrest : List.Forall₂ (Argument.Alike site) args args'' :=
      ih hl₂ hl₂' (fun label e he label' e' he' =>
        h label e (List.mem_cons_of_mem _ he) label' e' (List.mem_cons_of_mem _ he')) hargs
    cases a with
    | other n => exact absurd hl₁ id
    | mk label e =>
      cases a' with
      | other n => exact absurd hl₁' id
      | mk label' e' =>
        obtain ⟨rfl, hbare⟩ := Argument.mk.inj ha
        exact .cons ⟨rfl, h _ e List.mem_cons_self _ e' List.mem_cons_self hbare⟩ hrest

end

/-! ## Applications -/

/-- What is the same as a function applied to arguments, but for places: it takes the copies of the
arguments behind those of a copy of the function. -/
theorem Expr.IsReadable.exists_of_bare_applied {f e' : Expr} (hf : f.IsReadable)
    (h' : e'.IsReadable) {args : List Argument} (hb : e'.bare = f.bare.applied args none) :
    ∃ (f' : Expr) (args' : List Argument) (l' : Option Location), e' = f'.applied args' l' ∧
      f'.IsReadable ∧ f'.bare = f.bare ∧ (∀ a ∈ args', a.IsReadable) ∧
      args'.map Argument.bare = args := by
  cases hfa : f.isApply with
  | false =>
    have hbare : f.bare.isApply = false := by rwa [Expr.isApply_bare]
    rw [Expr.applied_of_isApply_eq_false hbare] at hb
    cases h' with
    | @apply f' args' l' hf' _ hl' ha' =>
      rw [Expr.bare, bareArguments_eq_map] at hb
      obtain ⟨hfun, hargs, -⟩ := Expr.apply.inj hb
      have hplain : f'.isApply = false := by rwa [← Expr.isApply_bare, hfun]
      refine ⟨f', args', l', (Expr.applied_of_isApply_eq_false hplain args' l').symm, hf', hfun,
        fun a hm => ⟨hl' a hm, fun label e he => ha' label e (he ▸ hm)⟩, hargs⟩
    | _ => cases hb
  | true =>
    cases hf with
    | @apply g before m _ hne _ _ =>
      rw [Expr.bare, bareArguments_eq_map, Expr.applied] at hb
      cases h' with
      | @apply g' args' l' hg' _ hl' ha' =>
        rw [Expr.bare, bareArguments_eq_map] at hb
        obtain ⟨hfun, hargs, -⟩ := Expr.apply.inj hb
        obtain ⟨before', after', rfl, hbefore, hafter⟩ := List.map_eq_append_iff.mp hargs
        obtain ⟨hlb, hla⟩ := List.forall_mem_append.mp hl'
        have hne' : before' ≠ [] := by
          intro hnil
          subst hnil
          exact hne (List.map_eq_nil_iff.mp hbefore.symm)
        refine ⟨.apply g' before' l', after', l', rfl, .apply hg' hne' hlb fun label e he =>
          ha' label e (List.mem_append_left _ he), ?_, fun a hm => ⟨hla a hm, fun label e he =>
            ha' label e (he ▸ List.mem_append_right _ hm)⟩, hafter⟩
        rw [Expr.bare, Expr.bare, bareArguments_eq_map, bareArguments_eq_map, hfun, hbefore]
      | _ => cases hb
    | _ => cases hfa

/-! ## Trees -/

/-- What could be read is alike to its copies, as far as the uses of extensions in it are. -/
theorem Expr.IsReadable.alike {site : Site} (hs : site.Copies) {e : Expr} (h : e.IsReadable)
    (hk : e.All Keeps) {e' : Expr} (h' : e'.IsReadable) (hb : e'.bare = e.flatten.bare) :
    e.Alike site e' := by
  induction h generalizing e' with
  | constant =>
    cases h' with
    | constant =>
      have hvalue := congrArg Constant.value (Expr.constant.inj hb)
      exact alike_constant hvalue
    | _ => cases hb
  | identifier =>
    cases h' with
    | identifier =>
      obtain ⟨rfl, -⟩ := Expr.identifier.inj hb
      exact alike_identifier _
    | _ => cases hb
  | unit =>
    cases h' with
    | unit => exact alike_unit
    | _ => cases hb
  | extension hn =>
    cases h' with
    | extension =>
      obtain ⟨rfl, -⟩ := Expr.extension.inj hb
      exact hs _ _ _ _ _ (.extension hn) (.extension hn) hk rfl
    | _ => cases hb
  | payload hn he _ =>
    cases h' with
    | payload _ he' =>
      obtain ⟨rfl, -⟩ := Expr.extension.inj hb
      exact hs _ _ _ _ _ (.payload hn he) (.payload hn he') hk hb
    | _ => cases hb
  | constraint _ _ ih =>
    cases h' with
    | constraint he' _ =>
      exact alike_constraint (ih (all_constraint.mp hk).2 he' (Expr.constraint.inj hb).1)
    | _ => cases hb
  | tuple _ _ ih =>
    rw [Expr.flatten, flattenExprs_eq_map, Expr.bare, bareExprs_eq_map, List.map_map] at hb
    cases h' with
    | tuple _ hes' =>
      rw [Expr.bare, bareExprs_eq_map] at hb
      exact alike_tuple (forall₂_alike_exprs
        (fun x hx x' hx' => ih x hx ((all_tuple.mp hk).2 x hx) (hes' x' hx'))
        (Expr.tuple.inj hb).1)
    | _ => cases hb
  | list _ ih =>
    rw [Expr.flatten, flattenExprs_eq_map, Expr.bare, bareExprs_eq_map, List.map_map] at hb
    cases h' with
    | list hes' =>
      rw [Expr.bare, bareExprs_eq_map] at hb
      exact alike_list (forall₂_alike_exprs
        (fun x hx x' hx' => ih x hx ((all_list.mp hk).2 x hx) (hes' x' hx'))
        (Expr.list.inj hb).1)
    | _ => cases hb
  | binary _ _ ihl ihr =>
    cases h' with
    | binary hl' hr' =>
      obtain ⟨hleft, rfl, hright, -⟩ := Expr.binary.inj hb
      obtain ⟨-, hkl, hkr⟩ := all_binary.mp hk
      exact alike_binary (ihl hkl hl' hleft) (ihr hkr hr' hright)
    | _ => cases hb
  | apply hf _ hl _ ihf iha =>
    obtain ⟨-, hkf, hka⟩ := all_apply.mp hk
    rw [Expr.flatten, flattenArguments_eq_map, Expr.bare_applied, bareArguments_eq_map,
      List.map_map] at hb
    obtain ⟨f', args', l', rfl, hf', hbf, ha', hba⟩ :=
      hf.flatten.exists_of_bare_applied h' hb
    refine alike_applied hf' (ihf hkf hf' hbf) (forall₂_alike_arguments hl
      (fun a hm => (ha' a hm).1) (fun label x hx label' x' hx' => ?_) hba)
    exact iha label x hx (hka _ hx) ((ha' _ hx').2 label' x' rfl)

end MessageLang
