import MessageLang.Proofs.RoundTrip.Listings
import MessageLang.Proofs.RoundTrip.Messages
/-!
# Printing programs before they are expanded

The text of a program that compiles compiles again, and both programs do the same. Four things must
not stand in the program: `[%here]`, which stands for its place; a message whose payload is an
application of an application, since its text has the payload of a flat one; a negative number that
is applied to arguments; and a statement whose text starts with the name `let`.

* `alike_statements`: statements and their copies.
* `compile_toText_source`: programs.
* `compile_toText_flattens`: a message that becomes another one.
-/
namespace MessageLang

open Evaluating

/-- Statements and their copies do the same once they are expanded. -/
theorem alike_statements {site : Site} (hs : site.Copies) {ss ss' : List Statement}
    (h : ∀ s ∈ ss, s.IsReadable) (h' : ∀ s ∈ ss', s.IsReadable)
    (hk : ∀ s ∈ ss, ∀ x ∈ s.parts, x.Keeps)
    (hb : ss'.map Statement.bare = ss.map fun s => s.flatten.bare)
    (hf : (replaceInStatements site ss).failures = []) :
    (replaceInStatements site ss').failures = [] ∧ ∀ v,
      (runStatements (replaceInStatements site ss').value v).Same
        (runStatements (replaceInStatements site ss).value v) := by
  induction ss generalizing ss' with
  | nil =>
    rw [List.map_eq_nil_iff.mp hb]
    exact ⟨rfl, fun v => Same.refl _⟩
  | cons s ss ih =>
    obtain ⟨s', ss'', rfl, hsb, hssb⟩ := List.map_eq_cons_iff.mp hb
    obtain ⟨h₁, h₂⟩ := List.forall_mem_cons.mp h
    obtain ⟨h₁', h₂'⟩ := List.forall_mem_cons.mp h'
    obtain ⟨hk₁, hk₂⟩ := List.forall_mem_cons.mp hk
    simp only [replaceInStatements, Expansion.bind_failures, Expansion.pure_failures,
      List.append_nil, List.append_eq_nil_iff] at hf ⊢
    obtain ⟨hfs, hrest⟩ := ih h₂ h₂' hk₂ hssb hf.2
    cases h₁ with
    | binding hn he =>
      cases h₁' with
      | expression => cases hsb
      | binding hn' he' =>
        obtain ⟨rfl, hbare, -⟩ := Statement.binding.inj hsb
        simp only [Statement.replaceExtensions, Expansion.bind_failures, Expansion.pure_failures,
          List.append_nil] at hf ⊢
        obtain ⟨hfe, hsame⟩ := he.alike hs hk₁ he' hbare hf.1
        refine ⟨⟨hfe, hfs⟩, fun v => Same.bind ?_ fun w => hrest v⟩
        exact hsame.same.bind fun w => Same.refl _
    | expression he =>
      cases h₁' with
      | binding => cases hsb
      | expression he' =>
        have hbare := (Statement.expression.inj hsb).1
        simp only [Statement.replaceExtensions, Expansion.bind_failures, Expansion.pure_failures,
          List.append_nil] at hf ⊢
        obtain ⟨hfe, hsame⟩ := he.alike hs hk₁ he' hbare hf.1
        exact ⟨⟨hfe, hfs⟩, fun v => hsame.same.bind fun w => hrest w⟩

theorem statementsExtensionCount_of_bare {ss ss' : List Statement} (h : ∀ s ∈ ss, s.IsReadable)
    (h' : ∀ s ∈ ss', s.IsReadable)
    (hb : ss'.map Statement.bare = ss.map fun s => s.flatten.bare) :
    statementsExtensionCount ss' = statementsExtensionCount ss := by
  induction ss generalizing ss' with
  | nil => rw [List.map_eq_nil_iff.mp hb]
  | cons s ss ih =>
    obtain ⟨s', ss'', rfl, hsb, hssb⟩ := List.map_eq_cons_iff.mp hb
    obtain ⟨h₁, h₂⟩ := List.forall_mem_cons.mp h
    obtain ⟨h₁', h₂'⟩ := List.forall_mem_cons.mp h'
    rw [statementsExtensionCount, statementsExtensionCount, ih h₂ h₂' hssb]
    cases h₁ with
    | binding _ he =>
      cases h₁' with
      | expression => cases hsb
      | binding _ he' =>
        rw [Statement.extensionCount, Statement.extensionCount,
          he.extensionCount_of_bare he' (Statement.binding.inj hsb).2.1]
    | expression he =>
      cases h₁' with
      | binding => cases hsb
      | expression he' =>
        rw [Statement.extensionCount, Statement.extensionCount,
          he.extensionCount_of_bare he' (Statement.expression.inj hsb).1]

/-- Without negative numbers that are applied, and unless their texts start with `let`, statements
can be reread. -/
theorem isRereadable_of_startsWithLet {p : Program} (hr : p.IsReadable)
    (hneg : ∀ f args l, .apply f args l ∈ p.parts → f.isNegative = false)
    (hlet : ∀ e l, .expression e l ∈ p.statements → startsWithLet e.toText = false) :
    ∀ s ∈ p.statements, s.IsRereadable := by
  intro s hs
  have hall : ∀ x ∈ s.parts, x.AppliesNoNegative := by
    intro x hx
    cases x with
    | apply f args l => exact hneg f args l (mem_partsOfStatements.mpr ⟨s, hs, hx⟩)
    | _ => trivial
  cases hr s hs with
  | binding => exact hall
  | @expression e l =>
    refine ⟨hall, fun hname => ?_⟩
    have hstarts := hlet e l hs
    rw [startsWithLet_of_leadingName? hname] at hstarts
    cases hstarts

/-- The text of a program that compiles compiles again, and with the same inputs both programs have
the same value or fail for the same cause, and bind the same names to the same values; whatever the
inputs rebind. -/
theorem compile_toText_source {file file' source : String} {p q : Program}
    (hp : Program.parse file source = .ok p) (hq : compile .standard file source = .ok q)
    (hhere : ∀ payload l, .extension "here" payload l ∉ p.parts)
    (hmessage : ∀ f args l l',
      .extension "message" (some (.apply f args l)) l' ∈ p.parts → f.isApply = false)
    (hneg : ∀ f args l, .apply f args l ∈ p.parts → f.isNegative = false)
    (hlet : ∀ e l, .expression e l ∈ p.statements → startsWithLet e.toText = false)
    (hfile : file'.isEmpty = false) :
    ∃ q', compile .standard file' p.toText = .ok q' ∧ ∀ inputs,
      (q'.execute inputs).result.mapError Failure.unplaced =
          (q.execute inputs).result.mapError Failure.unplaced ∧
        (q'.execute inputs).outputs = (q.execute inputs).outputs := by
  obtain ⟨p₁, hp₁, hf, rfl⟩ := compile_eq_ok.mp hq
  cases hp.symm.trans hp₁
  have hr := Program.parse_isReadable hp
  obtain ⟨p', hp', hb⟩ := hr.exists_parse (isRereadable_of_startsWithLet hr hneg hlet) hfile
  have hr' := Program.parse_isReadable hp'
  have hk : ∀ s ∈ p.statements, ∀ x ∈ s.parts, x.Keeps := by
    intro s hs x hx
    have hmem : x ∈ p.parts := mem_partsOfStatements.mpr ⟨s, hs, hx⟩
    cases x with
    | extension name payload l =>
      refine ⟨fun hname => ?_, fun f args m hname hpayload => ?_⟩
      · subst hname
        exact hhere payload l hmem
      · subst hname
        subst hpayload
        exact hmessage f args m l hmem
    | _ => trivial
  have hcount := statementsExtensionCount_of_bare hr hr' hb
  obtain ⟨hf', hsame⟩ := alike_statements (Setting.copies_siteWithin (Setting.standard.depth
    (statementsExtensionCount p.statements))) hr hr' hk hb (List.append_eq_nil_iff.mp hf).1
  refine ⟨(p'.expand .standard).value, compile_eq_ok.mpr ⟨p', hp', ?_, rfl⟩,
    fun inputs => execute_of_same ?_ inputs⟩
  · simp only [Program.expand, hcount, Expansion.bind_failures, hf']
    rfl
  · simp only [Program.expand, hcount, Expansion.bind_value]
    exact hsame .none

/-- Whether an expression is a message whose payload is an application of an application. -/
def Expr.isCurriedMessage : Expr → Bool
  | .extension name (some (.apply f _ _)) _ => name == "message" && f.isApply
  | _ => false

/-- Whether a statement is an expression whose text starts with the word `let`. -/
def Statement.readsAsBinding : Statement → Bool
  | .expression e _ => startsWithLet e.toText
  | _ => false

/-- A converter of a parametrised type, an option, and a message that stands in another. -/
theorem compile_toText_source_nested : ∃ p q q',
    Program.parse "a.ml"
        "let f = x; [%message \"m\" ((f 1) 2 : t M.s) ~a:(y : int sexp_option) [%message]];" =
      .ok p ∧
    compile .standard "a.ml"
        "let f = x; [%message \"m\" ((f 1) 2 : t M.s) ~a:(y : int sexp_option) [%message]];" =
      .ok q ∧
    compile .standard "b.ml" p.toText = .ok q' ∧ ∀ inputs,
      (q'.execute inputs).result.mapError Failure.unplaced =
          (q.execute inputs).result.mapError Failure.unplaced ∧
        (q'.execute inputs).outputs = (q.execute inputs).outputs := by
  have hcompiles : (compile .standard "a.ml"
      "let f = x; [%message \"m\" ((f 1) 2 : t M.s) ~a:(y : int sexp_option) [%message]];"
        |>.toOption.any fun _ => true) = true := by
    decide +kernel
  have hcheck : (Program.parse "a.ml"
      "let f = x; [%message \"m\" ((f 1) 2 : t M.s) ~a:(y : int sexp_option) [%message]];"
        |>.toOption.any fun p =>
          (p.parts.all fun x => !x.isHere && !x.isCurriedMessage && !x.appliesNegative) &&
            p.statements.all fun s => !s.readsAsBinding) = true := by
    decide +kernel
  obtain ⟨q, hq, -⟩ := exists_ok_of_any hcompiles
  obtain ⟨p, hp, htested⟩ := exists_ok_of_any hcheck
  simp only [Bool.and_eq_true, List.all_eq_true, Bool.not_eq_true'] at htested
  obtain ⟨hparts, hstatements⟩ := htested
  have hhere : ∀ payload l, .extension "here" payload l ∉ p.parts := by
    intro payload l hm
    cases (hparts _ hm).1.1
  have hmessage : ∀ f args l l',
      .extension "message" (some (.apply f args l)) l' ∈ p.parts → f.isApply = false := by
    intro f args l l' hm
    simpa [Expr.isCurriedMessage] using (hparts _ hm).1.2
  have hneg : ∀ f args l, .apply f args l ∈ p.parts → f.isNegative = false := by
    intro f args l hm
    exact (hparts _ hm).2
  have hlet : ∀ e l, .expression e l ∈ p.statements → startsWithLet e.toText = false := by
    intro e l hm
    exact hstatements _ hm
  obtain ⟨q', hq', hsame⟩ : ∃ q', compile .standard "b.ml" p.toText = .ok q' ∧ _ :=
    compile_toText_source hp hq hhere hmessage hneg hlet rfl
  exact ⟨p, q, q', hp, hq, hq', hsame⟩

/-- A message whose payload is an application of an application: its text is that of a message with
more arguments, the first of which is a function. -/
theorem compile_toText_flattens : ∃ p q q' v,
    Program.parse "main.sxm" "[%message (string_of_int 1) \"b\"];" = .ok p ∧
      compile .standard "main.sxm" "[%message (string_of_int 1) \"b\"];" = .ok q ∧
      compile .standard "main.sxm" p.toText = .ok q' ∧
      (q.execute []).result = .ok v ∧ (q'.execute []).result.toOption.isSome = false := by
  have hcheck : ((Program.parse "main.sxm"
      "[%message (string_of_int 1) \"b\"];").toOption.any fun p =>
        (compile .standard "main.sxm" p.toText).toOption.any fun q' =>
          !(q'.execute []).result.toOption.isSome) = true := by
    decide +kernel
  have hsource : ((compile .standard "main.sxm"
      "[%message (string_of_int 1) \"b\"];").toOption.any fun q =>
        (q.execute []).result.toOption.isSome) = true := by
    decide +kernel
  obtain ⟨p, hp, hcopy⟩ := exists_ok_of_any hcheck
  obtain ⟨q', hq', hfails⟩ := exists_ok_of_any hcopy
  obtain ⟨q, hq, hruns⟩ := exists_ok_of_any hsource
  cases hr : (q.execute []).result with
  | error failure =>
    rw [hr] at hruns
    cases hruns
  | ok v => exact ⟨p, q, q', v, hp, hq, hq', hr, by simpa using hfails⟩

end MessageLang
