import MessageLang.Proofs.Evaluation.Places
import MessageLang.Proofs.Syntax.Text
/-!
# Trees with the same text

The text of a tree hangs neither on its places nor on how applications are nested, so what a text is
read back as has the text that it was read from.

* `Expr.IsReadable.print_bare`, `Expr.IsReadable.print_flatten`.
* `Expr.IsReadable.toText_of_bare`.
-/
namespace MessageLang

theorem TypeExpr.IsReadable.print_bare {t : TypeExpr} (h : t.IsReadable) (level : Nat) :
    t.bare.print level = t.print level := by
  induction h generalizing level with
  | name => rfl
  | applied _ _ ih =>
    simp only [TypeExpr.bare, bareTypes, TypeExpr.print, ih]
  | @tuple ts l _ _ ih =>
    have hts : printTypes 1 (ts.map TypeExpr.bare) = printTypes 1 ts := by
      rw [printTypes_eq_map, printTypes_eq_map, List.map_map]
      exact List.map_congr_left fun t ht => ih t ht 1
    rw [TypeExpr.bare, bareTypes_eq_map, TypeExpr.print, TypeExpr.print, hts]

section

variable {t : Expr → Expr}

theorem printExprs_map {es : List Expr}
    (h : ∀ e ∈ es, ∀ level, (t e).print level = e.print level) :
    printExprs (es.map t) = printExprs es := by
  rw [printExprs_eq_map, printExprs_eq_map, List.map_map]
  exact List.map_congr_left fun e he => h e he _

/-- The name that a label repeats is the same wherever it stands. -/
theorem labelledText_bare (label : Label) (e : Expr) (text : String) :
    labelledText label e.bare text = labelledText label e text := by
  cases e with
  | extension name payload l => cases payload <;> rfl
  | _ => rfl

theorem Expr.flatten_eq_identifier {e : Expr} {name : String} {l : Option Location} :
    e.flatten = .identifier name l ↔ e = .identifier name l := by
  cases e with
  | extension name payload l => cases payload <;> simp [Expr.flatten]
  | apply f args l =>
    constructor
    · intro h
      rw [Expr.flatten] at h
      unfold Expr.applied at h
      split at h <;> cases h
    · intro h
      cases h
  | _ => simp [Expr.flatten]

theorem labelledText_flatten (label : Label) (e : Expr) (text : String) :
    labelledText label e.flatten text = labelledText label e text := by
  by_cases h : ∃ name l, e = .identifier name l
  · obtain ⟨name, l, rfl⟩ := h
    rfl
  · have hflat : ∀ name l, e.flatten ≠ .identifier name l := fun name l he =>
      h ⟨name, l, Expr.flatten_eq_identifier.mp he⟩
    unfold labelledText
    split
    · rfl
    · split
      · exact absurd ‹_› (hflat _ _)
      · split
        · exact absurd ⟨_, _, rfl⟩ h
        · rfl
    · split
      · exact absurd ‹_› (hflat _ _)
      · split
        · exact absurd ⟨_, _, rfl⟩ h
        · rfl

theorem printArguments_map {args : List Argument} (hl : ∀ a ∈ args, a.IsLabelled)
    (h : ∀ label e, .mk label e ∈ args → ∀ level, (t e).print level = e.print level)
    (ht : ∀ label e text, labelledText label (t e) text = labelledText label e text)
    {u : Argument → Argument} (hu : ∀ label e, u (.mk label e) = .mk label (t e)) :
    printArguments (args.map u) = printArguments args := by
  rw [printArguments_eq_map, printArguments_eq_map, List.map_map]
  refine List.map_congr_left fun a ha => ?_
  cases a with
  | other n => exact absurd (hl _ ha) id
  | mk label e =>
    show (u (.mk label e)).toText = _
    rw [hu, Argument.toText, Argument.toText, h label e ha, ht]

end

theorem Constant.print_bare (c : Constant) (isArgument : Bool) :
    c.bare.print isArgument = c.print isArgument := rfl

/-- The text of an expression does not hang on its places. -/
theorem Expr.IsReadable.print_bare {e : Expr} (h : e.IsReadable) (level : Nat) :
    e.bare.print level = e.print level := by
  induction h generalizing level with
  | constant | identifier | extension | unit => rfl
  | apply _ _ hl _ ihf iha =>
    rw [Expr.bare, bareArguments_eq_map, Expr.print, Expr.print, ihf,
      printArguments_map hl iha labelledText_bare fun _ _ => rfl]
  | constraint _ ht ih => rw [Expr.bare, Expr.print, Expr.print, ih, ht.print_bare]
  | payload _ _ ih => rw [Expr.bare, Expr.print, Expr.print, ih]
  | tuple _ _ ih => rw [Expr.bare, bareExprs_eq_map, Expr.print, Expr.print, printExprs_map ih]
  | list _ ih => rw [Expr.bare, bareExprs_eq_map, Expr.print, Expr.print, printExprs_map ih]
  | binary _ _ ihl ihr => rw [Expr.bare, Expr.print, Expr.print, ihl, ihr]

/-- Texts that are joined, and then joined with others. -/
theorem String.intercalate_append_cons (sep x : String) (xs ys : List String) :
    sep.intercalate (x :: (xs ++ ys)) = sep.intercalate (sep.intercalate (x :: xs) :: ys) := by
  induction xs generalizing x with
  | nil => rw [List.nil_append, String.intercalate_singleton]
  | cons z zs ih =>
    rw [List.cons_append, String.intercalate_cons_cons, ih z, String.intercalate_cons_cons]
    cases ys with
    | nil => rw [String.intercalate_singleton, String.intercalate_singleton]
    | cons y ys => simp only [String.intercalate_cons_cons, String.append_assoc]

/-- An application in the place of a function is written without parentheses. -/
theorem Expr.print_applied (f : Expr) (args : List Argument) (l : Option Location) (level : Nat) :
    (f.applied args l).print level = (Expr.apply f args l).print level := by
  cases f with
  | apply g before l' =>
    have hinner : (Expr.apply g before l').print Expr.applyLevel =
        " ".intercalate (g.print Expr.applyLevel :: printArguments before) := by
      rw [Expr.print]
      rfl
    have htext : " ".intercalate
        (g.print Expr.applyLevel :: printArguments (before ++ args)) =
          " ".intercalate (" ".intercalate (g.print Expr.applyLevel :: printArguments before) ::
            printArguments args) := by
      rw [printArguments_eq_map, List.map_append, ← printArguments_eq_map,
        ← printArguments_eq_map, String.intercalate_append_cons]
    rw [Expr.applied, Expr.print, htext, Expr.print, hinner]
  | _ => rfl

/-- The text of an expression does not hang on how applications are nested. -/
theorem Expr.IsReadable.print_flatten {e : Expr} (h : e.IsReadable) (level : Nat) :
    e.flatten.print level = e.print level := by
  induction h generalizing level with
  | constant | identifier | extension | unit => rfl
  | apply _ _ hl _ ihf iha =>
    rw [Expr.flatten, flattenArguments_eq_map, Expr.print_applied, Expr.print, Expr.print, ihf,
      printArguments_map hl iha labelledText_flatten fun _ _ => rfl]
  | constraint _ _ ih => rw [Expr.flatten, Expr.print, Expr.print, ih]
  | payload _ _ ih => rw [Expr.flatten, Expr.print, Expr.print, ih]
  | tuple _ _ ih =>
    rw [Expr.flatten, flattenExprs_eq_map, Expr.print, Expr.print, printExprs_map ih]
  | list _ ih => rw [Expr.flatten, flattenExprs_eq_map, Expr.print, Expr.print, printExprs_map ih]
  | binary _ _ ihl ihr => rw [Expr.flatten, Expr.print, Expr.print, ihl, ihr]

/-- Expressions that are the same but for places and flat applications have the same text. -/
theorem Expr.IsReadable.toText_of_bare {e e' : Expr} (h : e.IsReadable) (h' : e'.IsReadable)
    (hb : e'.bare = e.flatten.bare) : e'.toText = e.toText := by
  rw [Expr.toText, Expr.toText, ← h'.print_bare, hb, h.flatten.print_bare, h.print_flatten]

end MessageLang
