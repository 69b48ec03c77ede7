import MessageLang.Proofs.Evaluation.Ensures
import MessageLang.Proofs.Expansion.Guarded
import MessageLang.Proofs.Meaning.Expansion
/-!
# Generated code does not get stuck

Whatever the inputs bind, the names of generated code included: every match of an expanded program
has an arm for each value that it comes to, and no extension is left in it.

* `Expr.IsSettled`: the evaluation of an expanded tree is not stuck, and that of code of a list has
  a list for a value.
* `Expr.IsGuarded.isSettled`: the induction on the tree; `Setting.settles_siteWithin`: that on the
  depth.
* `execute_not_stuck`: whole programs.
-/
namespace MessageLang

open Evaluating Omittable

/-- The evaluation of what becomes of a use without a failure is not stuck. -/
def Site.Settles (site : Site) : Prop :=
  ∀ name payload l, (Expr.extension name payload l).IsReadable →
    (site name payload l).failures = [] → (site name payload l).value.eval.Ensures fun _ => True

/-- Whether a value may come out of code, of a list or any other. -/
def Value.Fits (listed : Bool) (v : Value) : Prop := listed = true → ∃ vs, v = .list vs

theorem Value.fits_false (v : Value) : v.Fits false := by
  intro h
  cases h

theorem Value.fits_list {listed : Bool} (vs : List Value) : (Value.list vs).Fits listed :=
  fun _ => ⟨vs, rfl⟩

/-- The evaluation of a tree that is expanded without a failure is not stuck, and ends as the code
should. -/
def Expr.IsSettled (site : Site) (listed : Bool) (e : Expr) : Prop :=
  (e.replaceExtensions site).failures = [] →
    (e.replaceExtensions site).value.eval.Ensures (Value.Fits listed)

/-! ## Calls and operations -/

theorem isStuck_applyValue {l fl : Option Location} {f v : Value} {failure : Failure}
    (h : applyValue l fl f v = .error failure) : failure.isStuck = false := by
  unfold applyValue at h
  split at h
  · cases hc : f.call v with
    | ok w =>
      rw [hc] at h
      cases h
    | error fault =>
      rw [hc] at h
      cases h
      exact fault.isStuck_failure l
  · cases h
    rfl

theorem isStuck_eval {op : Operator} {l : Option Location} {a b : Value} {failure : Failure}
    (h : op.eval l a b = .error failure) : failure.isStuck = false := by
  unfold Operator.eval at h
  split at h <;> cases h <;> rfl

theorem ensures_labelled {label : Label} (hl : label ≠ .positional) (e : Expr)
    (l fl : Option Location) (f : Value) (rest : List Argument) :
    (applyArguments l fl f (.mk label e :: rest)).Ensures fun _ => True := by
  by_cases he : e = .other .missing
  · subst he
    cases label with
    | positional => exact absurd rfl hl
    | labelled name => exact ensures_throw rfl
    | optional name => exact ensures_throw rfl
  · rw [applyArguments_labelled hl he]
    exact ensures_fail rfl

section

variable {site : Site}

theorem ensures_evalAll {es : List Expr} (h : ∀ e ∈ es, e.IsSettled site false)
    (hf : (replaceInExprs site es).failures = []) :
    (evalAll (replaceInExprs site es).value).Ensures fun _ => True := by
  induction es with
  | nil => exact ensures_pure trivial
  | cons e es ih =>
    obtain ⟨h₁, h₂⟩ := List.forall_mem_cons.mp h
    simp only [replaceInExprs, Expansion.bind_failures, List.append_eq_nil_iff] at hf
    obtain ⟨hf₁, hf₂, -⟩ := hf
    exact (h₁ hf₁).bind fun v _ => (ih h₂ hf₂).bind fun vs _ => ensures_pure trivial

theorem ensures_applyArguments {args : List Argument} (hl : ∀ a ∈ args, a.IsLabelled)
    (h : ∀ label e, .mk label e ∈ args → e.IsSettled site false)
    (hf : (replaceInArguments site args).failures = []) (l fl : Option Location) (f : Value) :
    (applyArguments l fl f (replaceInArguments site args).value).Ensures fun _ => True := by
  induction args generalizing f with
  | nil => exact ensures_pure trivial
  | cons a args ih =>
    obtain ⟨hl₁, hl₂⟩ := List.forall_mem_cons.mp hl
    cases a with
    | other n => exact absurd hl₁ id
    | mk label e =>
      simp only [replaceInArguments, Expansion.bind_failures, List.append_eq_nil_iff] at hf
      obtain ⟨hf₁, hf₂, -⟩ := hf
      have hrest := ih hl₂ (fun label e he => h label e (List.mem_cons_of_mem _ he)) hf₂
      cases label with
      | positional =>
        refine (h .positional e List.mem_cons_self hf₁).bind fun v _ => ?_
        have hcall : (Evaluating.ofExcept (applyValue l fl f v)).Ensures fun _ => True :=
          ensures_ofExcept (fun _ _ => trivial) fun _ herr => isStuck_applyValue herr
        exact hcall.bind fun f' _ => hrest f'
      | labelled name =>
        exact ensures_labelled Label.noConfusion _ l fl f _
      | optional name =>
        exact ensures_labelled Label.noConfusion _ l fl f _

end

/-! ## Matches -/

/-- An option is either empty or full, and a list is behind it. -/
theorem ensures_evalArms_onto {empty full : Expr} {le lf l : Option Location}
    (hempty : ∀ vs, (inScope [(tailName, .list vs)] empty.eval).Ensures (Value.Fits true))
    (hfull : full.eval.Ensures (Value.Fits true)) (v : Value) (vs : List Value) :
    (evalArms l (.tuple [v, .list vs])
      [.mk emptyPattern empty le, .mk fullPattern full lf]).Ensures (Value.Fits true) := by
  cases hv : v.content? with
  | none =>
    have harms : evalArms l (.tuple [v, .list vs]) [.mk emptyPattern empty le,
        .mk fullPattern full lf] = inScope [(tailName, .list vs)] empty.eval := by
      rw [evalArms, match_emptyPattern hv]
      rfl
    rw [harms]
    exact hempty vs
  | some w =>
    have harms : evalArms l (.tuple [v, .list vs]) [.mk emptyPattern empty le,
        .mk fullPattern full lf] =
          inScope [(contentName, w), (tailName, .list vs)] full.eval := by
      rw [evalArms, not_match_emptyPattern hv]
      show evalArms l (.tuple [v, .list vs]) [.mk fullPattern full lf] = _
      rw [evalArms, match_fullPattern hv]
      rfl
    rw [harms]
    exact hfull.inScope _

/-- A list has a single item or another number of them. -/
theorem ensures_evalArms_collapse {single many : Expr} {ls lm l : Option Location}
    (hsingle : single.eval.Ensures fun _ => True) (hmany : many.eval.Ensures fun _ => True)
    (vs : List Value) :
    (evalArms l (.list vs)
      [.mk (.list [.var headName none] none) single ls,
        .mk (.aliased (.alternatives [.list [] none, .cons (.wildcard none)
          (.cons (.wildcard none) (.wildcard none) none) none] none) resultName none)
          many lm]).Ensures fun _ => True := by
  rcases vs with _ | ⟨v, _ | ⟨w, vs⟩⟩
  · exact hmany.inScope [(resultName, .list [])]
  · exact hsingle.inScope [(headName, v)]
  · exact hmany.inScope [(resultName, .list (v :: w :: vs))]

section

variable {site : Site}

theorem isSettled_identifier (name : String) (l : Option Location) :
    (Expr.identifier name l).IsSettled site false :=
  fun _ => (ensures_lookup name l).mono fun v _ => v.fits_false

theorem isSettled_apply {f : Expr} {args : List Argument} {l : Option Location}
    (hfun : f.IsSettled site false) (hl : ∀ a ∈ args, a.IsLabelled)
    (ha : ∀ label e, .mk label e ∈ args → e.IsSettled site false) :
    (Expr.apply f args l).IsSettled site false := by
  intro hf
  simp only [Expr.replaceExtensions, Expansion.bind_failures, List.append_eq_nil_iff] at hf
  refine (hfun hf.1).bind fun v _ => ?_
  exact (ensures_applyArguments hl ha hf.2.1 _ _ v).mono fun w _ => w.fits_false

/-- An item in front of what has to be a list. -/
theorem isSettled_cons {head tail : Expr} {l : Option Location}
    (hh : head.IsSettled site false) (ht : tail.IsSettled site false) :
    (Expr.cons head tail l).IsSettled site true := by
  intro hf
  simp only [Expr.replaceExtensions, Expansion.bind_failures, List.append_eq_nil_iff] at hf
  refine (hh hf.1).bind fun v _ => (ht hf.2.1).bind fun t _ => ?_
  cases t with
  | list vs => exact ensures_pure (Value.fits_list _)
  | _ => exact ensures_fail rfl

/-- A contribution in front of a list. -/
theorem isSettled_onto {e tail : Expr} {l l' : Option Location} {wrap : Expr → Expr}
    (he : e.IsSettled site false) (ht : tail.IsSettled site true)
    (hw : (wrap (.identifier contentName l)).IsSettled site false) :
    ((optional l' e wrap).onto l tail).IsSettled site true := by
  have hempty : ∀ vs, (inScope [(tailName, .list vs)]
      (Expr.identifier tailName l).eval).Ensures (Value.Fits true) := fun vs =>
    ensures_inScope_lookup rfl (Value.fits_list vs) l
  have hfull := isSettled_cons (l := l) hw (isSettled_identifier tailName l)
  intro hf
  simp only [Omittable.onto, Expr.replaceExtensions, replaceInExprs, replaceInArms,
    Arm.replaceExtensions, Expansion.bind_failures, Expansion.pure_failures, List.append_nil,
    List.nil_append, List.append_eq_nil_iff] at hf
  obtain ⟨⟨hfe, hft⟩, hfw⟩ := hf
  have hscrutinee : (Expr.tuple [(e.replaceExtensions site).value,
      (tail.replaceExtensions site).value] l).eval.Ensures
        fun v => ∃ w vs, v = .tuple [w, .list vs] := by
    have hall : (evalAll [(e.replaceExtensions site).value,
        (tail.replaceExtensions site).value]).Ensures fun ws => ∃ w vs, ws = [w, .list vs] := by
      refine (he hfe).bind fun w _ => ?_
      have hone : (evalAll [(tail.replaceExtensions site).value]).Ensures
          fun ws => ∃ vs, ws = [.list vs] := by
        refine (ht hft).bind fun t hlist => ?_
        obtain ⟨vs, rfl⟩ := hlist rfl
        exact ensures_pure ⟨vs, rfl⟩
      refine hone.bind fun ws hws => ?_
      obtain ⟨vs, rfl⟩ := hws
      exact ensures_pure ⟨w, vs, rfl⟩
    refine hall.bind fun ws hws => ?_
    obtain ⟨w, vs, rfl⟩ := hws
    exact ensures_pure ⟨w, vs, rfl⟩
  refine hscrutinee.bind fun v hv => ?_
  obtain ⟨w, vs, rfl⟩ := hv
  refine ensures_evalArms_onto hempty (hfull ?_) w vs
  simpa [Expr.replaceExtensions] using hfw

/-- A list that is told from those of other lengths. -/
theorem isSettled_collapse {e : Expr} {l : Option Location}
    (he : e.IsSettled site true) : (collapse l e).IsSettled site false := by
  have hhead : (Expr.identifier headName l).eval.Ensures fun _ => True := ensures_lookup _ _
  have hlist : (Code.list l (.identifier resultName l)).IsSettled site false :=
    isSettled_apply (isSettled_identifier "Sexp.List" l) isLabelled_positional fun _ x hx => by
      cases List.mem_singleton.mp hx
      exact isSettled_identifier resultName l
  intro hf
  simp only [Omittable.collapse, Expr.replaceExtensions, Expansion.bind_failures,
    List.append_eq_nil_iff] at hf
  refine (he hf.1).bind fun v hv => ?_
  obtain ⟨vs, rfl⟩ := hv rfl
  have hmany := (hlist rfl).mono fun _ _ => trivial
  exact (ensures_evalArms_collapse hhead hmany vs).mono fun v _ => v.fits_false

end

/-! ## Trees -/

/-- Where what becomes of uses is not stuck, guarded code is not stuck. -/
theorem Expr.IsGuarded.isSettled {site : Site} (hs : site.Settles) {listed : Bool} {e : Expr}
    (h : e.IsGuarded listed) : e.IsSettled site listed := by
  induction h with
  | constant => exact fun _ => ensures_pure (Value.fits_false _)
  | identifier => exact isSettled_identifier _ _
  | unit => exact fun _ => ensures_pure (Value.fits_false _)
  | extension he => exact fun hf => (hs _ _ _ he hf).mono fun v _ => v.fits_false
  | apply _ hl _ ihf iha => exact isSettled_apply ihf hl iha
  | constraint _ ih =>
    intro hf
    simp only [Expr.replaceExtensions, Expansion.bind_failures, List.append_eq_nil_iff] at hf
    exact ih hf.1
  | tuple _ ih =>
    intro hf
    simp only [Expr.replaceExtensions, Expansion.bind_failures, List.append_eq_nil_iff] at hf
    exact (ensures_evalAll ih hf.1).bind fun vs _ => ensures_pure (Value.fits_false _)
  | list _ ih =>
    intro hf
    simp only [Expr.replaceExtensions, Expansion.bind_failures, List.append_eq_nil_iff] at hf
    exact (ensures_evalAll ih hf.1).bind fun vs _ => ensures_pure (Value.fits_list vs)
  | binary _ _ ihl ihr =>
    intro hf
    simp only [Expr.replaceExtensions, Expansion.bind_failures, List.append_eq_nil_iff] at hf
    refine (ihl hf.1).bind fun a _ => (ihr hf.2.1).bind fun b _ => ?_
    exact ensures_ofExcept (fun v _ => v.fits_false) fun _ herr => isStuck_eval herr
  | cons _ _ ihh iht => exact fun hf => (isSettled_cons ihh iht hf).mono fun v hv _ => hv rfl
  | onto _ _ _ ihe iht ihw =>
    exact fun hf => (isSettled_onto ihe iht ihw hf).mono fun v hv _ => hv rfl
  | collapse _ ih => exact isSettled_collapse ih

/-- Expansions that may follow one another any number of times leave code that is not stuck. -/
theorem Setting.settles_siteWithin (depth : Nat) : (Setting.standard.siteWithin depth).Settles := by
  induction depth with
  | zero => exact fun _ _ _ _ hf => by cases hf
  | succ depth ih =>
    intro name payload l h hf
    unfold siteWithin site at hf ⊢
    cases hx : standard.registry.find? name with
    | none =>
      simp only [hx] at hf
      cases hf
    | some x =>
      simp only [hx] at hf ⊢
      cases he : x.expand standard.conventions l payload with
      | error failure =>
        simp only [he] at hf
        cases hf
      | ok code =>
        simp only [he] at hf ⊢
        have he : x.expand .standard l payload = .ok code := he
        -- the code of a use is guarded, and expanding it keeps it so
        exact ((isGuarded_expand hx h he).isSettled ih hf).mono fun _ _ => trivial

/-! ## Programs -/

theorem ensures_runStatements {site : Site} (hs : site.Settles) {ss : List Statement}
    (h : ∀ s ∈ ss, s.IsReadable) (hf : (replaceInStatements site ss).failures = []) (v : Value) :
    (runStatements (replaceInStatements site ss).value v).Ensures fun _ => True := by
  induction ss generalizing v with
  | nil => exact ensures_pure trivial
  | cons s ss ih =>
    obtain ⟨h₁, h₂⟩ := List.forall_mem_cons.mp h
    simp only [replaceInStatements, Expansion.bind_failures, List.append_eq_nil_iff] at hf
    obtain ⟨hf₁, hf₂, -⟩ := hf
    have hstatement : (s.replaceExtensions site).value.eval.Ensures fun _ => True := by
      cases h₁ with
      | binding hn he =>
        simp only [Statement.replaceExtensions, Expansion.bind_failures,
          List.append_eq_nil_iff] at hf₁
        refine (he.isGuarded.isSettled hs hf₁.1).bind fun w _ => ?_
        exact (ensures_define _ w).bind fun _ _ => ensures_pure trivial
      | expression he =>
        simp only [Statement.replaceExtensions, Expansion.bind_failures,
          List.append_eq_nil_iff] at hf₁
        exact (he.isGuarded.isSettled hs hf₁.1).mono fun _ _ => trivial
    exact hstatement.bind fun w _ => ih h₂ hf₂ _

/-- Whatever text compiles and whatever its inputs bind: running the program ends with a value, or
fails for a cause that is neither a match without an arm for its value, an unknown constructor, nor
an extension that is left. -/
theorem execute_not_stuck {file source : String} {q : Program}
    (hq : compile .standard file source = .ok q) (inputs : Bindings) (error : RuntimeError)
    (l : Option Location) (h : (q.execute inputs).result = .error (.reported error l)) :
    error.code ≠ .noMatch ∧ error.code ≠ .unexpanded := by
  obtain ⟨p, hp, hf, rfl⟩ := compile_eq_ok.mp hq
  have hrun := ensures_runStatements (Setting.settles_siteWithin _) (Program.parse_isReadable hp)
    (List.append_eq_nil_iff.mp hf).1 .none (.withInputs inputs)
  have hstuck : (Failure.reported error l).isStuck = false := by
    unfold Program.execute outcome at h
    have hvalue : (p.expand .standard).value.statements = (replaceInStatements
        (Setting.standard.siteWithin (Setting.standard.depth
          (statementsExtensionCount p.statements))) p.statements).value := rfl
    rw [hvalue] at h
    split at hrun
    · rename_i heq
      rw [heq] at h
      cases h
    · rename_i heq
      rw [heq] at h
      cases h
      exact hrun
  simpa [Failure.isStuck] using hstuck

/-- An option that a message looks into, with an input that its converter refuses. -/
theorem execute_not_stuck_option : ∃ q error l,
    compile .standard "a.ml" "[%message \"m\" ~x:(x : int sexp_option)];" = .ok q ∧
      (q.execute [("x", .str "a"), ("v", .none), ("tl", .none)]).result =
        .error (.reported error l) ∧
      error.code ≠ .noMatch ∧ error.code ≠ .unexpanded := by
  have hcheck : ((compile .standard "a.ml"
      "[%message \"m\" ~x:(x : int sexp_option)];").toOption.any fun q =>
        match (q.execute [("x", .str "a"), ("v", .none), ("tl", .none)]).result with
        | .error (.reported _ _) => true
        | .error (.defect _) => false
        | .ok _ => false) = true := by
    decide +kernel
  obtain ⟨q, hq, hfails⟩ := exists_ok_of_any hcheck
  split at hfails
  · rename_i error l hrun
    exact ⟨q, error, l, hq, hrun, execute_not_stuck hq _ error l hrun⟩
  · cases hfails
  · cases hfails

end MessageLang
