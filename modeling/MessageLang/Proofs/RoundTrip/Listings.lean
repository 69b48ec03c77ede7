import MessageLang.Proofs.Evaluation.Places
import MessageLang.Proofs.Expansion.Accounts
import MessageLang.Proofs.RoundTrip.Programs
/-!
# Listings of expanded programs

The text of an expanded program without matches is a program that does the same as the expanded one:
it can be read, holds no extensions, and has the same value or fails for the same cause.

* `Expr.IsReadable.replaceExtensions_eq_pure`: a tree without extensions is its own expansion.
* `compile_isCode`: what a text compiles to.
* `compile_toText`: the text of a compiled program compiles again.
-/
namespace MessageLang

/-! ## Trees without extensions -/

section

variable {t : Expr → Expr}

theorem exprsExtensionCount_map {es : List Expr}
    (h : ∀ e ∈ es, (t e).extensionCount = e.extensionCount) :
    exprsExtensionCount (es.map t) = exprsExtensionCount es := by
  induction es with
  | nil => rfl
  | cons e es ih =>
    obtain ⟨h₁, h₂⟩ := List.forall_mem_cons.mp h
    rw [List.map_cons, exprsExtensionCount, exprsExtensionCount, h₁, ih h₂]

theorem argumentsExtensionCount_map {args : List Argument} (hl : ∀ a ∈ args, a.IsLabelled)
    (h : ∀ label e, .mk label e ∈ args → (t e).extensionCount = e.extensionCount)
    {u : Argument → Argument} (hu : ∀ label e, u (.mk label e) = .mk label (t e)) :
    argumentsExtensionCount (args.map u) = argumentsExtensionCount args := by
  induction args with
  | nil => rfl
  | cons a args ih =>
    obtain ⟨hl₁, hl₂⟩ := List.forall_mem_cons.mp hl
    cases a with
    | other n => exact absurd hl₁ id
    | mk label e =>
      rw [List.map_cons, hu, argumentsExtensionCount, argumentsExtensionCount,
        h label e List.mem_cons_self,
        ih hl₂ fun label e he => h label e (List.mem_cons_of_mem _ he)]

theorem argumentsExtensionCount_append (args args' : List Argument) :
    argumentsExtensionCount (args ++ args') =
      argumentsExtensionCount args + argumentsExtensionCount args' := by
  induction args with
  | nil => exact (Nat.zero_add _).symm
  | cons a args ih =>
    cases a with
    | mk label e =>
      rw [List.cons_append, argumentsExtensionCount, argumentsExtensionCount, ih, Nat.add_assoc]
    | other n => exact ih

end

theorem Expr.extensionCount_applied (f : Expr) (args : List Argument) (l : Option Location) :
    (f.applied args l).extensionCount = f.extensionCount + argumentsExtensionCount args := by
  cases f with
  | apply g before l' =>
    rw [applied, extensionCount, extensionCount, argumentsExtensionCount_append, Nat.add_assoc]
  | _ => rfl

theorem Expr.IsReadable.extensionCount_bare {e : Expr} (h : e.IsReadable) :
    e.bare.extensionCount = e.extensionCount := by
  induction h with
  | constant | identifier | extension | unit => rfl
  | apply _ _ hl _ ihf iha =>
    rw [Expr.bare, bareArguments_eq_map, Expr.extensionCount, Expr.extensionCount, ihf,
      argumentsExtensionCount_map hl iha fun _ _ => rfl]
  | constraint _ _ ih => exact ih
  | payload _ _ ih => exact congrArg (· + 1) ih
  | tuple _ _ ih =>
    rw [Expr.bare, bareExprs_eq_map]
    exact exprsExtensionCount_map ih
  | list _ ih =>
    rw [Expr.bare, bareExprs_eq_map]
    exact exprsExtensionCount_map ih
  | binary _ _ ihl ihr => rw [Expr.bare, Expr.extensionCount, Expr.extensionCount, ihl, ihr]

theorem Expr.IsReadable.extensionCount_flatten {e : Expr} (h : e.IsReadable) :
    e.flatten.extensionCount = e.extensionCount := by
  induction h with
  | constant | identifier | extension | unit => rfl
  | apply _ _ hl _ ihf iha =>
    rw [Expr.flatten, flattenArguments_eq_map, Expr.extensionCount_applied, Expr.extensionCount,
      ihf, argumentsExtensionCount_map hl iha fun _ _ => rfl]
  | constraint _ _ ih => exact ih
  | payload _ _ ih => exact congrArg (· + 1) ih
  | tuple _ _ ih =>
    rw [Expr.flatten, flattenExprs_eq_map]
    exact exprsExtensionCount_map ih
  | list _ ih =>
    rw [Expr.flatten, flattenExprs_eq_map]
    exact exprsExtensionCount_map ih
  | binary _ _ ihl ihr => rw [Expr.flatten, Expr.extensionCount, Expr.extensionCount, ihl, ihr]

/-- Trees that are the same but for places and flat applications hold as many extensions. -/
theorem Expr.IsReadable.extensionCount_of_bare {e e' : Expr} (h : e.IsReadable)
    (h' : e'.IsReadable) (hb : e'.bare = e.flatten.bare) :
    e'.extensionCount = e.extensionCount := by
  rw [← h'.extensionCount_bare, hb, h.flatten.extensionCount_bare, h.extensionCount_flatten]

namespace Expansion

theorem pure_bind {α β : Type} (a : α) (f : α → Expansion β) : (pure a >>= f) = f a := by
  show (⟨(f a).value, 0 + (f a).expanded, 0 + (f a).failedCount, [] ++ (f a).failures⟩ :
    Expansion β) = f a
  rw [Nat.zero_add, Nat.zero_add, List.nil_append]

end Expansion

section

variable {site : Site}

theorem replaceInExprs_eq_pure {es : List Expr}
    (h : ∀ e ∈ es, e.replaceExtensions site = pure e) : replaceInExprs site es = pure es := by
  induction es with
  | nil => rfl
  | cons e es ih =>
    obtain ⟨h₁, h₂⟩ := List.forall_mem_cons.mp h
    rw [replaceInExprs, h₁, Expansion.pure_bind, ih h₂, Expansion.pure_bind]

theorem replaceInArguments_eq_pure {args : List Argument} (hl : ∀ a ∈ args, a.IsLabelled)
    (h : ∀ label e, .mk label e ∈ args → e.replaceExtensions site = pure e) :
    replaceInArguments site args = pure args := by
  induction args with
  | nil => rfl
  | cons a args ih =>
    obtain ⟨hl₁, hl₂⟩ := List.forall_mem_cons.mp hl
    cases a with
    | other n => exact absurd hl₁ id
    | mk label e =>
      rw [replaceInArguments, h label e List.mem_cons_self, Expansion.pure_bind,
        ih hl₂ fun label e he => h label e (List.mem_cons_of_mem _ he), Expansion.pure_bind]

theorem eq_zero_of_flatMap {α : Type} {a : α} {as : List α} {f : α → List Expr}
    (h : (as.flatMap f).length = 0) (ha : a ∈ as) : (f a).length = 0 :=
  Nat.eq_zero_of_le_zero (h ▸ length_le_flatMap ha f)

/-- A tree without extensions is its own expansion. -/
theorem Expr.IsReadable.replaceExtensions_eq_pure {e : Expr} (h : e.IsReadable)
    (hn : e.extensions.length = 0) : e.replaceExtensions site = pure e := by
  induction h with
  | constant | identifier | unit => rfl
  | extension | payload => cases hn
  | apply _ _ hl _ ihf iha =>
    rw [Expr.extensions_apply, List.length_append, Nat.add_eq_zero_iff] at hn
    rw [Expr.replaceExtensions, ihf hn.1, Expansion.pure_bind,
      replaceInArguments_eq_pure hl fun label e he =>
        iha label e he (eq_zero_of_flatMap (f := Argument.extensions) hn.2 he),
      Expansion.pure_bind]
  | constraint _ _ ih => rw [Expr.replaceExtensions, ih hn, Expansion.pure_bind]
  | tuple _ _ ih =>
    rw [Expr.extensions_tuple] at hn
    rw [Expr.replaceExtensions,
      replaceInExprs_eq_pure fun e he => ih e he (eq_zero_of_flatMap hn he), Expansion.pure_bind]
  | list _ ih =>
    rw [Expr.extensions_list] at hn
    rw [Expr.replaceExtensions,
      replaceInExprs_eq_pure fun e he => ih e he (eq_zero_of_flatMap hn he), Expansion.pure_bind]
  | binary _ _ ihl ihr =>
    rw [Expr.extensions_binary, List.length_append, Nat.add_eq_zero_iff] at hn
    rw [Expr.replaceExtensions, ihl hn.1, Expansion.pure_bind, ihr hn.2, Expansion.pure_bind]

end

/-- A statement without extensions is its own expansion, but for its place. -/
theorem Statement.IsReadable.exists_replaceExtensions {site : Site} {s : Statement}
    (h : s.IsReadable) (hn : s.extensions.length = 0) :
    ∃ s', s.replaceExtensions site = pure s' ∧ s'.IsReadable ∧ s'.bare = s.bare := by
  cases h with
  | binding hname he =>
    refine ⟨_, ?_, .binding hname he, rfl⟩
    rw [Statement.replaceExtensions, he.replaceExtensions_eq_pure hn, Expansion.pure_bind]
  | @expression e l he =>
    refine ⟨.ofExpr e l, ?_, .expression he, rfl⟩
    rw [Statement.replaceExtensions, he.replaceExtensions_eq_pure hn, Expansion.pure_bind]

theorem exists_replaceInStatements {site : Site} {ss : List Statement}
    (h : ∀ s ∈ ss, s.IsReadable) (hn : ∀ s ∈ ss, s.extensions.length = 0) :
    ∃ ss', replaceInStatements site ss = pure ss' ∧ (∀ s ∈ ss', s.IsReadable) ∧
      ss'.map Statement.bare = ss.map Statement.bare := by
  induction ss with
  | nil => exact ⟨[], rfl, h, rfl⟩
  | cons s ss ih =>
    obtain ⟨h₁, h₂⟩ := List.forall_mem_cons.mp h
    obtain ⟨hn₁, hn₂⟩ := List.forall_mem_cons.mp hn
    obtain ⟨s', hs, hr, hb⟩ : ∃ s', s.replaceExtensions site = pure s' ∧ _ :=
      h₁.exists_replaceExtensions hn₁
    obtain ⟨ss', hss, hrs, hbs⟩ := ih h₂ hn₂
    refine ⟨s' :: ss', ?_, List.forall_mem_cons.mpr ⟨hr, hrs⟩, ?_⟩
    · rw [replaceInStatements, hs, Expansion.pure_bind, hss, Expansion.pure_bind]
    · rw [List.map_cons, List.map_cons, hb, hbs]

/-- Statements that are the same but for places and flat applications hold no extensions if the
others do not. -/
theorem extensions_of_bare {ss ss' : List Statement} (h : ∀ s ∈ ss, s.IsReadable)
    (h' : ∀ s ∈ ss', s.IsReadable)
    (hb : ss'.map Statement.bare = ss.map fun s => s.flatten.bare)
    (hn : ∀ s ∈ ss, s.extensions.length = 0) : ∀ s ∈ ss', s.extensions.length = 0 := by
  intro s' hs'
  obtain ⟨s, hs, hsb⟩ := List.mem_map.mp (hb ▸ List.mem_map_of_mem hs')
  have hr := h s hs
  have hr' := h' s' hs'
  rw [← Nat.le_zero, ← hn s hs, ← hr'.isCode.isProper.extensionCount_eq,
    ← hr.isCode.isProper.extensionCount_eq]
  cases hr with
  | binding _ he =>
    cases hr' with
    | binding _ he' =>
      have hbare := (Statement.binding.inj hsb).2.1
      exact Nat.le_of_eq (he.extensionCount_of_bare he' hbare.symm)
    | expression => cases hsb
  | expression he =>
    cases hr' with
    | binding => cases hsb
    | expression he' =>
      exact Nat.le_of_eq (he.extensionCount_of_bare he' (Statement.expression.inj hsb).1.symm)

/-! ## Programs that compile -/

/-- The name that the text of an expression starts with stands in it. -/
theorem Expr.exists_mem_of_leadingName? {e : Expr} {level : Nat} {name : String}
    (h : e.leadingName? level = some name) : ∃ l, .identifier name l ∈ e.parts := by
  induction level, e using Expr.leadingName?.induct with
  | case1 level n l =>
    cases h
    exact ⟨l, Expr.mem_parts_self _⟩
  | case2 level f args l hlt =>
    rw [leadingName?, if_pos hlt] at h
    cases h
  | case3 level f args l hlt ih =>
    rw [leadingName?, if_neg hlt] at h
    obtain ⟨l', hm⟩ := ih h
    exact ⟨l', List.mem_cons_of_mem _ (List.mem_append_left _ hm)⟩
  | case4 level left op right l hlt =>
    rw [leadingName?, if_pos hlt] at h
    cases h
  | case5 level left op right l hlt ih =>
    rw [leadingName?, if_neg hlt] at h
    obtain ⟨l', hm⟩ := ih h
    exact ⟨l', List.mem_cons_of_mem _ (List.mem_append_left _ hm)⟩
  | case6 level e hid hap hbin =>
    rw [leadingName?] at h
    · cases h
    all_goals assumption

section

variable {q : Program}

/-- Code without matches could be read. -/
theorem isReadable_of_isCode (hc : ∀ s ∈ q.statements, s.IsCode)
    (hm : ∀ x ∈ q.parts, x.isMatching = false) : q.IsReadable := by
  intro s hs
  have hs' : ∀ x ∈ s.parts, x.isMatching = false := fun x hx =>
    hm x (mem_partsOfStatements.mpr ⟨s, hs, hx⟩)
  cases hc s hs with
  | binding hn he => exact .binding hn (he.isReadable hs')
  | expression he => exact .expression (he.isReadable hs')

/-- Without negative numbers that are applied and without the name `let`, statements can be
reread. -/
theorem isRereadable_of_parts (hr : q.IsReadable)
    (hneg : ∀ f args l, .apply f args l ∈ q.parts → f.isNegative = false)
    (hlet : ∀ l, .identifier "let" l ∉ q.parts) : ∀ s ∈ q.statements, s.IsRereadable := by
  intro s hs
  have hmem : ∀ x ∈ s.parts, x ∈ q.parts := fun x hx => mem_partsOfStatements.mpr ⟨s, hs, hx⟩
  have hall : ∀ x ∈ s.parts, x.AppliesNoNegative := by
    intro x hx
    cases x with
    | apply f args l => exact hneg f args l (hmem _ hx)
    | _ => trivial
  cases hr s hs with
  | binding => exact hall
  | expression =>
    refine ⟨hall, fun hname => ?_⟩
    obtain ⟨l, hl⟩ := Expr.exists_mem_of_leadingName? hname
    exact hlet l (hmem _ hl)

end

/-- The text of a compiled program without matches, without negative numbers that are applied and
without the name `let` compiles again. With the same inputs, both programs have the same value or
fail for the same cause, and they bind the same names to the same values. -/
theorem compile_toText {file file' source : String} {q : Program}
    (h : compile .standard file source = .ok q)
    (hm : ∀ x ∈ q.parts, x.isMatching = false)
    (hneg : ∀ f args l, .apply f args l ∈ q.parts → f.isNegative = false)
    (hlet : ∀ l, .identifier "let" l ∉ q.parts) (hfile : file'.isEmpty = false) :
    ∃ q', compile .standard file' q.toText = .ok q' ∧ ∀ inputs,
      (q'.execute inputs).result.mapError Failure.unplaced =
          (q.execute inputs).result.mapError Failure.unplaced ∧
        (q'.execute inputs).outputs = (q.execute inputs).outputs := by
  obtain ⟨hcode, hnone⟩ := compile_isCode h
  have hr := isReadable_of_isCode hcode hm
  obtain ⟨q₁, hparse, hbare⟩ := hr.exists_parse (isRereadable_of_parts hr hneg hlet) hfile
  have hr₁ := Program.parse_isReadable hparse
  have hext : ∀ s ∈ q.statements, s.extensions.length = 0 := by
    intro s hs
    rw [Program.extensions_eq_flatMap, List.flatMap_eq_nil_iff] at hnone
    rw [hnone s hs]
    rfl
  have hext₁ := extensions_of_bare hr hr₁ hbare hext
  obtain ⟨ss', hpure, hrs, hbs⟩ : ∃ ss', replaceInStatements (Setting.standard.siteWithin
      (Setting.standard.depth (statementsExtensionCount q₁.statements))) q₁.statements = pure ss' ∧
        (∀ s ∈ ss', s.IsReadable) ∧ ss'.map Statement.bare = q₁.statements.map Statement.bare :=
    exists_replaceInStatements hr₁ hext₁
  have hexpand : q₁.expand .standard = pure ⟨ss', q₁.location⟩ := by
    rw [Program.expand, hpure]
    rfl
  refine ⟨⟨ss', q₁.location⟩, compile_eq_ok.mpr ⟨q₁, hparse, ?_, ?_⟩, ?_⟩
  · rw [hexpand]
    rfl
  · rw [hexpand]
    rfl
  · exact execute_same hr hrs (hbs.trans hbare)

/-- A tag, a place, a converter of a parametrised type and a use that stands in another. -/
theorem compile_toText_message : ∃ q q',
    compile .standard "a.ml" "let x = 2; [%message \"m\" (f x : t M.s) ~here:[%here] [%message]];" =
      .ok q ∧ compile .standard "b.ml" q.toText = .ok q' ∧ ∀ inputs,
      (q'.execute inputs).result.mapError Failure.unplaced =
          (q.execute inputs).result.mapError Failure.unplaced ∧
        (q'.execute inputs).outputs = (q.execute inputs).outputs := by
  have hcheck : ((compile .standard "a.ml"
      "let x = 2; [%message \"m\" (f x : t M.s) ~here:[%here] [%message]];").toOption.any fun q =>
        q.parts.all fun x => !x.isMatching && !x.appliesNegative &&
          x.leadingName? Expr.topLevel != some "let") = true := by
    decide +kernel
  obtain ⟨q, hq, htested⟩ := exists_ok_of_any hcheck
  simp only [List.all_eq_true, Bool.and_eq_true, Bool.not_eq_true', bne_iff_ne] at htested
  have hm : ∀ x ∈ q.parts, x.isMatching = false := fun x hx => (htested x hx).1.1
  have hneg : ∀ f args l, .apply f args l ∈ q.parts → f.isNegative = false := by
    intro f args l hl
    exact (htested _ hl).1.2
  have hlet : ∀ l, .identifier "let" l ∉ q.parts := by
    intro l hl
    exact (htested _ hl).2 rfl
  have hrun : ∃ q', compile .standard "b.ml" q.toText = .ok q' ∧ _ :=
    compile_toText hq hm hneg hlet rfl
  obtain ⟨q', hq', hrun⟩ := hrun
  exact ⟨q, q', hq, hq', hrun⟩

end MessageLang
