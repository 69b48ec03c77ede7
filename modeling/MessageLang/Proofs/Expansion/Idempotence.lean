import MessageLang.Proofs.Expansion.Failing
/-!
# Expanding twice

What is left of the uses in an expanded program are those that failed. A second expansion comes to
the same ones, in the same order, and they fail as before; nothing else is there to be expanded, so
the program stays as it is.

* `FailingSites.left`: what fails fails again.
* `Program.expand_expand`: the second expansion.
-/
namespace MessageLang

/-- What fails fails again where it is left. -/
theorem FailingSites.left {xs : List Expr} {sites : List (Expr × ExpansionFailure)}
    (h : FailingSites xs sites) : FailingSites (sites.map Prod.fst) sites := by
  induction h with
  | nil => exact .nil
  | failed hx _ ih => exact .failed hx ih
  | expanded _ _ _ ihp ih =>
    rw [List.map_append]
    exact ihp.append ih

/-! ## Uses that all fail -/

/-- An expansion that only reports failures. -/
def Expansion.OnlyReports (α : Type) (r : Expansion α) (left uses : List Expr) : Prop :=
  Reports α r left uses ∧ r.expanded = 0 ∧ r.failedCount = r.failures.length

theorem Expansion.threads_onlyReports : Threads OnlyReports where
  pure a := ⟨threads_reports.pure a, rfl, rfl⟩
  bind := by
    rintro α β x f left left' uses uses' ⟨hr, he, hc⟩ ⟨hr', he', hc'⟩
    refine ⟨threads_reports.bind hr hr', ?_, ?_⟩
    · rw [bind_expanded, he, he']
    · rw [bind_failedCount, bind_failures, List.length_append, hc, hc']

section

variable {x : Expr} {failure : ExpansionFailure} {depth : Nat}

theorem Expr.IsUse.threads_onlyReports (h : x.IsUse)
    (hx : Setting.standard.code x = .error failure) :
    x.Threads Expansion.OnlyReports (Setting.standard.siteWithin (depth + 1)) := by
  obtain ⟨h, -⟩ := h
  cases x with
  | extension name payload l =>
    unfold Threads
    rw [Setting.replaceExtensions_of_error hx]
    exact ⟨⟨[(_, failure)], .failed hx .nil, rfl, rfl⟩, rfl, rfl⟩
  | _ => cases h

theorem Expr.IsUse.value_eq_self (h : x.IsUse) (hx : Setting.standard.code x = .error failure) :
    (x.replaceExtensions (Setting.standard.siteWithin (depth + 1))).value = x := by
  obtain ⟨h, -⟩ := h
  cases x with
  | extension name payload l => rw [Setting.replaceExtensions_of_error hx, Expansion.failed]
  | _ => cases h

end

/-! ## Statements -/

/-- An expression statement that is where its expression is, if nothing else is known. -/
def Statement.IsPlaced : Statement → Prop
  | .expression e l => l.or e.location = l
  | _ => True

section

variable {site : Site} {s : Statement} {ss : List Statement}

/-- Expansions leave statements that have a place. -/
theorem Statement.IsCode.isPlaced (h : s.IsCode) : (s.replaceExtensions site).value.IsPlaced := by
  cases h with
  | binding => trivial
  | @expression e l _ =>
    cases l <;> simp [replaceExtensions, ofExpr, IsPlaced]

theorem isPlaced_statements (h : ∀ s ∈ ss, s.IsCode) :
    ∀ s ∈ (replaceInStatements site ss).value, s.IsPlaced := by
  induction ss with
  | nil => exact nofun
  | cons s ss ih =>
    obtain ⟨h₁, h₂⟩ := List.forall_mem_cons.mp h
    exact List.forall_mem_cons.mpr ⟨h₁.isPlaced, ih h₂⟩

theorem Statement.IsCode.value_eq_self (h : s.IsCode) (hp : s.IsPlaced)
    (hs : ∀ x ∈ s.outermost, (x.replaceExtensions site).value = x) :
    (s.replaceExtensions site).value = s := by
  cases h with
  | binding _ he => simp [replaceExtensions, he.value_eq_self hs]
  | expression he =>
    have hl : Option.or _ _ = _ := hp
    simp [replaceExtensions, he.value_eq_self hs, ofExpr, hl]

theorem value_statements (h : ∀ s ∈ ss, s.IsCode) (hp : ∀ s ∈ ss, s.IsPlaced)
    (hs : ∀ x ∈ outermostOfStatements ss, (x.replaceExtensions site).value = x) :
    (replaceInStatements site ss).value = ss := by
  induction ss with
  | nil => rfl
  | cons s ss ih =>
    obtain ⟨h₁, h₂⟩ := List.forall_mem_cons.mp h
    obtain ⟨hp₁, hp₂⟩ := List.forall_mem_cons.mp hp
    rw [outermostOfStatements, List.forall_mem_append] at hs
    simp [replaceInStatements, h₁.value_eq_self hp₁ hs.1, ih h₂ hp₂ hs.2]

end

/-! ## Programs -/

variable {file source : String} {p : Program}

/-- A program all of whose uses fail stays as it is: they are only reported. -/
theorem Program.expand_of_failing (hc : ∀ s ∈ p.statements, s.IsCode)
    (hp : ∀ s ∈ p.statements, s.IsPlaced)
    (hx : ∀ x ∈ p.outermost, ∃ failure, Setting.standard.code x = .error failure) :
    (p.expand .standard).value = p ∧
      Expansion.OnlyReports _ (p.expand .standard) p.outermost p.outermost := by
  have huse := isUse_of_mem_outermost hc
  obtain ⟨depth, hdepth⟩ : ∃ depth,
      Setting.standard.depth (statementsExtensionCount p.statements) = depth + 1 := ⟨_, rfl⟩
  have hvalue : (replaceInStatements (Setting.standard.siteWithin (depth + 1)) p.statements).value =
      p.statements := value_statements hc hp fun x hm => by
    obtain ⟨failure, hfails⟩ := hx x hm
    exact (huse x hm).value_eq_self hfails
  have heach : ∀ x ∈ outermostOfStatements p.statements,
      x.Threads Expansion.OnlyReports (Setting.standard.siteWithin (depth + 1)) := by
    intro x hm
    obtain ⟨failure, hfails⟩ := hx x hm
    exact (huse x hm).threads_onlyReports hfails
  have honly := threads_statements Expansion.threads_onlyReports
    (fun s hs => (hc s hs).isProper) heach
  rw [hvalue, ← hdepth] at honly
  refine ⟨?_, Expansion.threads_onlyReports.map honly _⟩
  obtain ⟨ss, l⟩ := p
  simp [Program.expand, hdepth, hvalue]

/-- Expanding an expanded program changes nothing, expands nothing and reports the same failures
once more. -/
theorem Program.expand_expand (h : Program.parse file source = .ok p) :
    (p.expand .standard).value.expand .standard = { p.expand .standard with expanded := 0 } := by
  have hread := Program.parse_isReadable h
  obtain ⟨hcounts, hcode⟩ := hread.accounts
  obtain ⟨sites, hsites, hleft, hfail⟩ := hread.reports
  have hplaced : ∀ s ∈ (p.expand .standard).value.statements, s.IsPlaced :=
    isPlaced_statements fun s hs => (hread s hs).isCode
  have hfails : ∀ x ∈ (p.expand .standard).value.outermost,
      ∃ failure, Setting.standard.code x = .error failure := by
    rw [hleft, List.forall_mem_map]
    exact fun s hs => ⟨s.2, hsites.code_eq_error s hs⟩
  obtain ⟨hvalue, ⟨sites', hsites', -, hfail'⟩, hexpanded, hcount⟩ :=
    Program.expand_of_failing hcode hplaced hfails
  rw [hleft] at hsites'
  -- the uses that are left fail as they did before
  obtain rfl := hsites.left.unique hsites'
  have hfailures := hfail'.trans hfail.symm
  have hcounted := hcount.trans (congrArg List.length hfailures)
  rw [hcounts.length_failures] at hcounted
  generalize (p.expand .standard).value.expand .standard = r at hvalue hfailures hcounted hexpanded
  obtain ⟨value, expanded, failedCount, failures⟩ := r
  dsimp only at hvalue hfailures hcounted hexpanded
  rw [hvalue, hfailures, hcounted, hexpanded]

/-- Uses that fail beside a match that their message became, in the payload of a use that fails,
and inside a list. -/
theorem Program.expand_expand_nested : ∃ p, Program.parse "a.ml"
      "[%message (f [%foo 1] : int sexp_option) [%here 2]]; [%bar [%foo]]; [[%message f ?x]];" =
        .ok p ∧
    (p.expand .standard).failures.length = 4 ∧ (p.expand .standard).expanded = 1 ∧
    (p.expand .standard).value.expand .standard = { p.expand .standard with expanded := 0 } := by
  have hcheck : ((Program.parse "a.ml"
      "[%message (f [%foo 1] : int sexp_option) [%here 2]]; [%bar [%foo]]; [[%message f ?x]];"
        ).toOption.any fun p => (p.expand .standard).failures.length == 4 &&
          (p.expand .standard).expanded == 1) = true := by
    decide +kernel
  obtain ⟨p, hp, hboth⟩ := exists_ok_of_any hcheck
  rw [Bool.and_eq_true, beq_iff_eq, beq_iff_eq] at hboth
  exact ⟨p, hp, hboth.1, hboth.2, Program.expand_expand hp⟩

end MessageLang
