import MessageLang.Compilation
import MessageLang.Proofs.Expansion.Messages
import MessageLang.Proofs.Grammar.Trees
import MessageLang.Proofs.Syntax.Proper
/-!
# Expansions keep account

A use of an extension that fails is reported, counted and left as it was written; every other one is
gone. So the reports, the count and the uses that are left agree, however failing and succeeding
uses stand in one another.

* `Expansion.Accounts`: the invariant.
* `Expr.IsCode.accounts`: expanding a tree keeps account, as long as the expansion of a single use
  does.
* `Setting.accounts_siteWithin`: it does, and there is always enough depth.
* `compile_isCode`, `compile_accounting`: nothing is left of the extensions in a text that compiles.
-/
namespace MessageLang

/-- What an expansion keeps account of: the uses that are `left` are as many as it reports and
counts, and stand in `source` in the same order. -/
structure Expansion.Accounts {α : Type} (r : Expansion α) (left source : List Expr) : Prop where
  length_failures : r.failures.length = r.failedCount
  length_left : left.length = r.failedCount
  sublist : left.Sublist source
  reported : ∀ f ∈ r.failures, f.IsReported

namespace Expansion

variable {α β : Type} {x : Expansion α} {f : α → Expansion β}
  {left left' source source' : List Expr}

theorem accounts_pure (a : α) : (pure a : Expansion α).Accounts [] source :=
  ⟨rfl, rfl, List.nil_sublist _, fun _ h => absurd h List.not_mem_nil⟩

theorem Accounts.bind (hx : x.Accounts left source) (hf : (f x.value).Accounts left' source') :
    (x >>= f).Accounts (left ++ left') (source ++ source') := by
  refine ⟨?_, ?_, hx.sublist.append hf.sublist, ?_⟩
  · rw [bind_failures, List.length_append, hx.length_failures, hf.length_failures]
    rfl
  · rw [List.length_append, hx.length_left, hf.length_left]
    rfl
  · rw [bind_failures]
    exact List.forall_mem_append.mpr ⟨hx.reported, hf.reported⟩

theorem Accounts.map (hx : x.Accounts left source) (g : α → β) :
    (x >>= fun a => pure (g a)).Accounts left source := by
  have hg : (pure (g x.value) : Expansion β).Accounts [] [] := accounts_pure _
  have h : (x >>= fun a => pure (g a)).Accounts (left ++ []) (source ++ []) := hx.bind hg
  rwa [List.append_nil, List.append_nil] at h

theorem Accounts.counted (hx : x.Accounts left source) : x.counted.Accounts left source :=
  ⟨hx.length_failures, hx.length_left, hx.sublist, hx.reported⟩

theorem Accounts.mono (hx : x.Accounts left source) (h : source.Sublist source') :
    x.Accounts left source' :=
  ⟨hx.length_failures, hx.length_left, hx.sublist.trans h, hx.reported⟩

end Expansion

/-- What becomes of the uses with fewer than `depth` extensions in their payloads keeps account. -/
def Site.Accounts (site : Site) (depth : Nat) : Prop :=
  ∀ inArm name payload l, (Expr.extension name payload l).IsReadable →
    (payloadExtensions payload).length < depth →
    (site name payload l).Accounts (site name payload l).value.outermost
        (Expr.extension name payload l).extensions ∧
      (site name payload l).value.IsCode inArm

/-- Expanding the tree keeps account, and leaves code. -/
def Expr.Accounts (site : Site) (inArm : Bool) (e : Expr) : Prop :=
  (e.replaceExtensions site).Accounts (e.replaceExtensions site).value.outermost e.extensions ∧
    (e.replaceExtensions site).value.IsCode inArm

section

variable {site : Site} {depth : Nat} {inArm : Bool}

theorem accounts_exprs {es : List Expr} (h : ∀ e ∈ es, e.Accounts site inArm) :
    (replaceInExprs site es).Accounts (outermostOfExprs (replaceInExprs site es).value)
        (es.flatMap Expr.extensions) ∧
      (replaceInExprs site es).value.length = es.length ∧
      ∀ e ∈ (replaceInExprs site es).value, e.IsCode inArm := by
  induction es with
  | nil => exact ⟨Expansion.accounts_pure _, rfl, nofun⟩
  | cons e es ih =>
    obtain ⟨⟨ha, hc⟩, hes⟩ := List.forall_mem_cons.mp h
    obtain ⟨has, hlen, hcs⟩ := ih hes
    exact ⟨ha.bind (has.map _), congrArg (· + 1) hlen, List.forall_mem_cons.mpr ⟨hc, hcs⟩⟩

theorem accounts_arguments {args : List Argument} (hl : ∀ a ∈ args, a.IsLabelled)
    (h : ∀ label e, .mk label e ∈ args → e.Accounts site inArm) :
    (replaceInArguments site args).Accounts
        (outermostOfArguments (replaceInArguments site args).value)
        (args.flatMap Argument.extensions) ∧
      (replaceInArguments site args).value.length = args.length ∧
      (∀ a ∈ (replaceInArguments site args).value, a.IsLabelled) ∧
      ∀ label e, .mk label e ∈ (replaceInArguments site args).value → e.IsCode inArm := by
  induction args with
  | nil => exact ⟨Expansion.accounts_pure _, rfl, nofun, nofun⟩
  | cons a args ih =>
    obtain ⟨hl₁, hl₂⟩ := List.forall_mem_cons.mp hl
    cases a with
    | other n => exact absurd hl₁ id
    | mk label e =>
      obtain ⟨ha, hc⟩ := h label e List.mem_cons_self
      obtain ⟨has, hlen, hls, hcs⟩ := ih hl₂ fun l x hx => h l x (List.mem_cons_of_mem _ hx)
      refine ⟨ha.bind (has.map _), congrArg (· + 1) hlen, List.forall_mem_cons.mpr ⟨hl₁, hls⟩,
        fun l x hx => ?_⟩
      rcases List.mem_cons.mp hx with hx | hx
      · cases hx
        exact hc
      · exact hcs l x hx

theorem accounts_arms {arms : List Arm} (ha : ∀ a ∈ arms, a.BindsWords)
    (h : ∀ p body l, .mk p body l ∈ arms → body.Accounts site true) :
    (replaceInArms site arms).Accounts (outermostOfArms (replaceInArms site arms).value)
        (arms.flatMap Arm.extensions) ∧
      (∀ a ∈ (replaceInArms site arms).value, a.BindsWords) ∧
      ∀ p body l, .mk p body l ∈ (replaceInArms site arms).value → body.IsCode true := by
  induction arms with
  | nil => exact ⟨Expansion.accounts_pure _, nofun, nofun⟩
  | cons a arms ih =>
    obtain ⟨ha₁, ha₂⟩ := List.forall_mem_cons.mp ha
    cases a with
    | other n => exact absurd ha₁ id
    | mk p body l =>
      obtain ⟨hb, hc⟩ := h p body l List.mem_cons_self
      obtain ⟨has, harms, hcs⟩ := ih ha₂ fun p x l hx => h p x l (List.mem_cons_of_mem _ hx)
      refine ⟨(hb.map _).bind (has.map _), List.forall_mem_cons.mpr ⟨ha₁, harms⟩,
        fun p' x l' hx => ?_⟩
      rcases List.mem_cons.mp hx with hx | hx
      · cases hx
        exact hc
      · exact hcs p' x l' hx

theorem isGenerated_replaceExtensions {e : Expr} (h : e.isGenerated = true) :
    (e.replaceExtensions site).value.isGenerated = true := by
  cases e <;> first | exact h | rfl | cases h

/-- Expanding code keeps account, as long as what becomes of a single use does. -/
theorem Expr.IsCode.accounts (hs : site.Accounts depth) {e : Expr} (h : e.IsCode inArm)
    (hd : e.extensions.length ≤ depth) : e.Accounts site inArm := by
  induction h with
  | constant hc => exact ⟨Expansion.accounts_pure _, .constant hc⟩
  | identifier hn => exact ⟨Expansion.accounts_pure _, .identifier hn⟩
  | unit => exact ⟨Expansion.accounts_pure _, .unit⟩
  | extension he =>
    rw [Expr.extensions_extension] at hd
    exact hs _ _ _ _ he hd
  | @apply inArm f args l _ hne hl _ ihf iha =>
    rw [Expr.extensions_apply, List.length_append] at hd
    have hargs : ∀ label e, .mk label e ∈ args → e.Accounts site inArm := fun label e he =>
      iha label e he (Nat.le_trans (length_le_flatMap he Argument.extensions) (by omega))
    obtain ⟨hf, hcf⟩ := ihf (by omega)
    obtain ⟨ha, hlen, hls, hcs⟩ := accounts_arguments hl hargs
    refine ⟨?_, .apply hcf ?_ hls hcs⟩
    · rw [Expr.extensions_apply]
      exact hf.bind (ha.map _)
    · rwa [← List.length_pos_iff, hlen, List.length_pos_iff]
  | constraint _ ht ih =>
    obtain ⟨ha, hc⟩ := ih hd
    exact ⟨ha.map _, .constraint hc ht⟩
  | @tuple _ es l hlen _ ih =>
    rw [Expr.extensions_tuple] at hd
    obtain ⟨ha, hn, hcs⟩ := accounts_exprs fun e he =>
      ih e he (Nat.le_trans (length_le_flatMap he Expr.extensions) hd)
    refine ⟨?_, .tuple (hn ▸ hlen) hcs⟩
    rw [Expr.extensions_tuple]
    exact ha.map _
  | @list _ es l _ ih =>
    rw [Expr.extensions_list] at hd
    obtain ⟨ha, -, hcs⟩ := accounts_exprs fun e he =>
      ih e he (Nat.le_trans (length_le_flatMap he Expr.extensions) hd)
    refine ⟨?_, .list hcs⟩
    rw [Expr.extensions_list]
    exact ha.map _
  | binary _ _ ihl ihr =>
    rw [Expr.extensions_binary, List.length_append] at hd
    obtain ⟨hl, hcl⟩ := ihl (by omega)
    obtain ⟨hr, hcr⟩ := ihr (by omega)
    refine ⟨?_, .binary hcl hcr⟩
    rw [Expr.extensions_binary]
    exact hl.bind (hr.map _)
  | cons hg _ _ ihh iht =>
    rw [Expr.extensions_cons, List.length_append] at hd
    obtain ⟨hh, hch⟩ := ihh (by omega)
    obtain ⟨ht, hct⟩ := iht (by omega)
    refine ⟨?_, .cons (hg.imp_right isGenerated_replaceExtensions) hch hct⟩
    rw [Expr.extensions_cons]
    exact hh.bind (ht.map _)
  | @matching _ e arms l _ ha _ ihe ihb =>
    rw [Expr.extensions_matching, List.length_append] at hd
    have hbodies : ∀ p body l, .mk p body l ∈ arms → body.Accounts site true := fun p body l hb =>
      ihb p body l hb (Nat.le_trans (length_le_flatMap hb Arm.extensions) (by omega))
    obtain ⟨he, hce⟩ := ihe (by omega)
    obtain ⟨hr, harms, hcs⟩ := accounts_arms ha hbodies
    refine ⟨?_, .matching hce harms hcs⟩
    rw [Expr.extensions_matching]
    exact he.bind (hr.map _)

end

/-! ## Uses of extensions -/

/-- A use that is reported and stays. -/
theorem accounts_failed {name : String} {payload : Option Expr} {l : Option Location}
    {failure : ExpansionFailure} (h : failure.IsReported) :
    (Expansion.failed (Expr.extension name payload l) failure).Accounts
      (Expr.extension name payload l).outermost (Expr.extension name payload l).extensions := by
  refine ⟨rfl, rfl, ?_, fun f hf => ?_⟩
  · rw [Expr.extensions_extension]
    exact List.cons_sublist_cons.mpr (List.nil_sublist _)
  · rw [List.mem_singleton.mp hf]
    exact h

namespace Setting

/-- Where the expansion of the code that uses stand for keeps account, the uses do. -/
theorem accounts_site {next : Expr → Expansion Expr} {depth : Nat}
    (hn : ∀ inArm e, e.IsCode inArm → e.extensions.length ≤ depth →
      (next e).Accounts (next e).value.outermost e.extensions ∧ (next e).value.IsCode inArm) :
    (standard.site next).Accounts (depth + 1) := by
  intro inArm name payload l h hd
  unfold site
  split
  · exact ⟨accounts_failed ⟨rfl, nofun⟩, .extension h⟩
  · rename_i x hx
    have hcode : IsExpansion inArm payload (x.expand standard.conventions l payload) :=
      isExpansion_of_find? hx h
    split
    · rename_i failure herr
      rw [herr] at hcode
      exact ⟨accounts_failed hcode, .extension h⟩
    · rename_i code hok
      rw [hok] at hcode
      obtain ⟨hc, hs⟩ := hcode
      obtain ⟨ha, hv⟩ := hn inArm code hc (Nat.le_trans hs.length_le (Nat.le_of_lt_succ hd))
      refine ⟨ha.counted.mono ?_, hv⟩
      rw [Expr.extensions_extension]
      exact hs.cons _

/-- Expansions that may follow one another as often as there are extensions keep account. -/
theorem accounts_siteWithin (depth : Nat) : (standard.siteWithin depth).Accounts depth := by
  -- the code of a use holds fewer uses than the use, which is one itself
  induction depth with
  | zero => exact fun _ _ _ _ _ hd => absurd hd (Nat.not_lt_zero _)
  | succ depth ih => exact accounts_site fun inArm e he hd => he.accounts ih hd

end Setting

/-! ## Programs -/

section

variable {site : Site} {depth : Nat}

theorem Statement.IsCode.accounts (hs : site.Accounts depth) {s : Statement} (h : s.IsCode)
    (hd : s.extensions.length ≤ depth) :
    (s.replaceExtensions site).Accounts (s.replaceExtensions site).value.outermost s.extensions ∧
      (s.replaceExtensions site).value.IsCode := by
  cases h with
  | binding hn he =>
    obtain ⟨ha, hc⟩ := he.accounts hs hd
    exact ⟨ha.map _, .binding hn hc⟩
  | expression he =>
    obtain ⟨ha, hc⟩ := he.accounts hs hd
    exact ⟨ha.map _, .expression hc⟩

theorem accounts_statements (hs : site.Accounts depth) {ss : List Statement}
    (h : ∀ s ∈ ss, s.IsCode) (hd : (ss.flatMap Statement.extensions).length ≤ depth) :
    (replaceInStatements site ss).Accounts
        (outermostOfStatements (replaceInStatements site ss).value)
        (ss.flatMap Statement.extensions) ∧
      ∀ s ∈ (replaceInStatements site ss).value, s.IsCode := by
  induction ss with
  | nil => exact ⟨Expansion.accounts_pure _, nofun⟩
  | cons s ss ih =>
    rw [List.flatMap_cons, List.length_append] at hd
    obtain ⟨h₁, h₂⟩ := List.forall_mem_cons.mp h
    obtain ⟨ha, hc⟩ := h₁.accounts hs (by omega)
    obtain ⟨has, hcs⟩ := ih h₂ (by omega)
    exact ⟨ha.bind (has.map _), List.forall_mem_cons.mpr ⟨hc, hcs⟩⟩

end

/-- Expanding a program that could be read keeps account, and leaves code. -/
theorem Program.IsReadable.accounts {p : Program} (h : p.IsReadable) :
    (p.expand .standard).Accounts (p.expand .standard).value.outermost p.extensions ∧
      ∀ s ∈ (p.expand .standard).value.statements, s.IsCode := by
  have hcount := statementsExtensionCount_eq h.isProper
  have hdepth : statementsExtensionCount p.statements ≤
      Setting.standard.depth (statementsExtensionCount p.statements) := by
    show _ ≤ (_ + 1) * 3
    omega
  have hs := Setting.accounts_siteWithin
    (Setting.standard.depth (statementsExtensionCount p.statements))
  obtain ⟨ha, hc⟩ := accounts_statements hs (fun s hm => (h s hm).isCode) (hcount ▸ hdepth)
  rw [Program.extensions_eq_flatMap]
  exact ⟨ha.map _, hc⟩

/-- Code that leaves no extension outside of payloads leaves none at all. -/
theorem Program.extensions_eq_nil {p : Program} (h : ∀ s ∈ p.statements, s.IsCode)
    (ho : p.outermost = []) : p.extensions = [] := by
  rw [Program.outermost, outermostOfStatements_eq_flatMap, List.flatMap_eq_nil_iff] at ho
  rw [Program.extensions_eq_flatMap, List.flatMap_eq_nil_iff]
  intro s hs
  have hs' := ho s hs
  cases h s hs with
  | binding _ he => exact he.extensions_eq_nil hs'
  | expression he => exact he.extensions_eq_nil hs'

theorem compile_eq_ok {setting : Setting} {file source : String} {q : Program} :
    compile setting file source = .ok q ↔ ∃ p, Program.parse file source = .ok p ∧
      (p.expand setting).failures = [] ∧ (p.expand setting).value = q := by
  unfold compile
  cases Program.parse file source with
  | error err => exact ⟨nofun, nofun⟩
  | ok p =>
    dsimp only
    refine ⟨fun h => ?_, fun ⟨p', hp, hf, hq⟩ => ?_⟩
    · split at h
      · rename_i hf
        exact ⟨p, rfl, hf, Except.ok.inj h⟩
      · cases h
    · cases hp
      rw [hf]
      exact congrArg Except.ok hq

/-- What a text compiles to is code without extensions. -/
theorem compile_isCode {file source : String} {q : Program}
    (h : compile .standard file source = .ok q) :
    (∀ s ∈ q.statements, s.IsCode) ∧ q.extensions = [] := by
  obtain ⟨p, hp, hnone, rfl⟩ := compile_eq_ok.mp h
  obtain ⟨ha, hc⟩ := (Program.parse_isReadable hp).accounts
  refine ⟨hc, Program.extensions_eq_nil hc ?_⟩
  rw [← List.length_eq_zero_iff, ha.length_left, ← ha.length_failures, hnone]
  rfl

/-- The errors that a compilation reports. -/
def reported (file : String) : Except CompileError Program → List Diagnostic
  | .ok _ => []
  | .error e => e.diagnostics file

/-- Whatever text was read: expanding it reports as many errors as it counts failures and as it
leaves uses outside of payloads, and these are uses of the text, as they were written and in their
order. So a text compiles to a program exactly when no error is reported, and no use of an extension
is left anywhere in that program. -/
theorem compile_accounting (file source : String) :
    (∀ p, Program.parse file source = .ok p →
      (p.expand .standard).failures.length = (p.expand .standard).failedCount ∧
        (p.expand .standard).value.outermost.length = (p.expand .standard).failedCount ∧
        (p.expand .standard).value.outermost.Sublist p.extensions ∧
        ∀ f ∈ (p.expand .standard).failures, f.IsReported) ∧
      ((compile .standard file source).toOption.isSome = true ↔
        reported file (compile .standard file source) = []) ∧
      ∀ q, compile .standard file source = .ok q → ∀ x ∈ q.parts, x.isExtension = false := by
  refine ⟨fun p hp => ?_, ?_, fun q hq => ?_⟩
  · obtain ⟨ha, -⟩ := (Program.parse_isReadable hp).accounts
    exact ⟨ha.length_failures, ha.length_left, ha.sublist, ha.reported⟩
  · unfold compile
    split
    · simp [Except.toOption, reported, CompileError.diagnostics]
    · dsimp only
      split
      · simp [Except.toOption, reported]
      · rename_i hne
        simpa [Except.toOption, reported, CompileError.diagnostics] using hne
  · obtain ⟨-, hnil⟩ := compile_isCode hq
    intro x hx
    cases hext : x.isExtension with
    | false => rfl
    | true =>
      have hmem : x ∈ q.extensions := List.mem_filter.mpr ⟨hx, hext⟩
      rw [hnil] at hmem
      cases hmem

/-- A use that fails inside a message, and one that fails with what stands in its payload. -/
theorem expand_accounting_nested : ∃ p, Program.parse "a.ml"
      "[%message (f [%foo 1]) ~x:[%here]]; [%bar [%message]];" = .ok p ∧
    (p.expand .standard).failures.length = 2 ∧
    (p.expand .standard).value.outermost.length = 2 ∧
    (p.expand .standard).value.outermost.Sublist p.extensions := by
  have hcheck : ((Program.parse "a.ml"
      "[%message (f [%foo 1]) ~x:[%here]]; [%bar [%message]];").toOption.any fun p =>
        (p.expand .standard).failedCount == 2) = true := by
    decide +kernel
  obtain ⟨p, hp, htwo⟩ := exists_ok_of_any hcheck
  have hcount : (p.expand .standard).failedCount = 2 := by simpa using htwo
  obtain ⟨hfailures, hleft, hsub, -⟩ := (compile_accounting _ _).1 p hp
  exact ⟨p, hp, hfailures.trans hcount, hleft.trans hcount, hsub⟩

end MessageLang
