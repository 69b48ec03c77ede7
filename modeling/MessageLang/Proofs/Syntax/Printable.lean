import MessageLang.Proofs.Syntax.Readable
import MessageLang.Syntax.Print
/-!
# Readable trees have texts

Printing an expression that could be read meets no fault, so its text can tag it.
-/
namespace MessageLang

theorem Constant.IsLiteral.noText?_eq_none {c : Constant} (h : c.IsLiteral) :
    c.noText? = none := by
  cases h with
  | integer _ hc =>
    obtain ⟨kind, n, he, -⟩ := Literal.integer_ok hc
    rw [he]
    rfl
  | float => rfl
  | string => rfl
  | char => rfl

theorem TypeExpr.IsReadable.hasText {t : TypeExpr} (h : t.IsReadable) :
    t.toNode.hasText .type = true := by
  cases h <;> rfl

theorem Expr.IsReadable.toNode_eq {e : Expr} (h : e.IsReadable) : e.toNode = .expr e := by
  cases h <;> rfl

theorem Expr.IsReadable.hasText {e : Expr} (h : e.IsReadable) : e.hasText = true := by
  rw [Expr.hasText, h.toNode_eq]
  cases h <;> rfl

theorem typesNoText?_eq_none {ts : List TypeExpr}
    (h : ∀ t ∈ ts, t.noText? .type = none) : typesNoText? .type ts = none := by
  induction ts with
  | nil => rfl
  | cons t ts ih =>
    obtain ⟨h₁, h₂⟩ := List.forall_mem_cons.mp h
    rw [typesNoText?, h₁, ih h₂]
    rfl

theorem TypeExpr.IsReadable.noText?_eq_none {t : TypeExpr} (h : t.IsReadable) :
    t.noText? .type = none := by
  induction h with
  | name => rfl
  | applied _ _ ih =>
    rw [TypeExpr.noText?]
    exact ih
  | @tuple ts l _ hts ih =>
    have hall : (ts.all fun t => t.toNode.hasText .type) = true :=
      List.all_eq_true.mpr fun t ht => (hts t ht).hasText
    rw [TypeExpr.noText?, typesNoText?_eq_none ih, hall]
    rfl

theorem exprsNoText?_eq_none {es : List Expr} (hr : ∀ e ∈ es, e.IsReadable)
    (h : ∀ e ∈ es, e.noText? .expression = none) : exprsNoText? .expression es = none := by
  induction es with
  | nil => rfl
  | cons e es ih =>
    obtain ⟨h₁, h₂⟩ := List.forall_mem_cons.mp h
    obtain ⟨hr₁, hr₂⟩ := List.forall_mem_cons.mp hr
    rw [exprsNoText?, hr₁.toNode_eq, h₁, ih hr₂ h₂]
    rfl

theorem argumentsNoText?_eq_none {args : List Argument} (hl : ∀ a ∈ args, a.IsLabelled)
    (hr : ∀ label e, .mk label e ∈ args → e.IsReadable)
    (h : ∀ label e, .mk label e ∈ args → e.noText? .expression = none) :
    argumentsNoText? .expression args = none := by
  induction args with
  | nil => rfl
  | cons a args ih =>
    obtain ⟨hl₁, hl₂⟩ := List.forall_mem_cons.mp hl
    cases a with
    | other n => exact absurd hl₁ id
    | mk label e =>
      rw [argumentsNoText?, Argument.noText?, (hr label e List.mem_cons_self).toNode_eq,
        h label e List.mem_cons_self,
        ih hl₂ (fun l x hx => hr l x (List.mem_cons_of_mem _ hx))
          fun l x hx => h l x (List.mem_cons_of_mem _ hx)]
      rfl

/-- An expression that could be read has a text. -/
theorem Expr.IsReadable.noText?_eq_none {e : Expr} (h : e.IsReadable) :
    e.noText? .expression = none := by
  induction h with
  | constant hc => exact hc.noText?_eq_none
  | identifier | extension | unit => rfl
  | @apply f args l hf hne hl ha ihf iha =>
    have hall : args.all Argument.hasText = true := by
      refine List.all_eq_true.mpr fun a hm => ?_
      cases a with
      | other n => exact absurd (hl _ hm) id
      | mk label e =>
        cases label with
        | positional => exact (ha _ e hm).hasText
        | labelled name => rfl
        | optional name => rfl
    rw [Expr.noText?, ihf, argumentsNoText?_eq_none hl ha iha, hf.hasText, hall]
    rfl
  | constraint _ ht ih =>
    rw [Expr.noText?, ih]
    exact ht.noText?_eq_none
  | payload _ _ ih =>
    rw [Expr.noText?]
    exact ih
  | @tuple es l _ he ih =>
    have hall : es.all Expr.hasText = true := List.all_eq_true.mpr fun e hm => (he e hm).hasText
    rw [Expr.noText?, exprsNoText?_eq_none he ih, hall]
    rfl
  | @list es l he ih =>
    have hall : es.all Expr.hasText = true := List.all_eq_true.mpr fun e hm => (he e hm).hasText
    rw [Expr.noText?, exprsNoText?_eq_none he ih, hall]
    rfl
  | binary _ _ ihl ihr =>
    rw [Expr.noText?, ihl, ihr]
    rfl

end MessageLang
