import Mathlib.Data.List.Basic
import MessageLang.Proofs.Expansion.Accounts
import MessageLang.Proofs.Expansion.Visits
/-!
# The uses that fail

A use of an extension fails if it stands for no code. What stands in the payload of a use that fails
is not looked at; what stands in the payload of any other use goes over into its code, and is looked
at there.

* `FailingSites`: the uses of a tree that fail, each with its failure, read off the tree itself.
* `FailingSites.of_code`: those of the code of a use are those of its payload.
* `Program.IsReadable.reports`: expanding a program reports the uses that fail, in their order, and
  leaves them where they are.
-/
namespace MessageLang

/-- The code that the use of an extension stands for, or why it stands for none. What is no use
stands for itself. -/
def Setting.code (s : Setting) : Expr → Expanding Expr
  | .extension name payload l =>
    match s.registry.find? name with
    | none => .error ⟨.unknownExtension name s.registry.sortedNames, l⟩
    | some x => x.expand s.conventions l payload
  | e => .ok e

/-- A use that stands for code is a message, or a place without a payload. -/
theorem Setting.code_cases {name : String} {payload : Option Expr} {l : Option Location}
    {code : Expr} (h : standard.code (.extension name payload l) = .ok code) :
    name = "message" ∧ Message.expand .standard l payload = .ok code ∨
      name = "here" ∧ payload = none ∧ Here.lift l = .ok code := by
  unfold Setting.code at h
  dsimp only at h
  split at h
  · cases h
  · rename_i x hx
    rcases Registry.find?_standard hx with ⟨rfl, rfl⟩ | ⟨rfl, rfl⟩
    · exact .inl ⟨rfl, h⟩
    · cases payload with
      | none => exact .inr ⟨rfl, rfl, h⟩
      | some e => cases h

/-- The uses in a payload that stand in no other one. -/
def payloadOutermost (payload : Option Expr) : List Expr := payload.elim [] Expr.outermost

/-- Of uses that stand side by side, and of those in their payloads: the ones that fail, with their
failures, but none that stands in the payload of one that fails. -/
inductive FailingSites : List Expr → List (Expr × ExpansionFailure) → Prop where
  | nil : FailingSites [] []
  | failed {name : String} {payload : Option Expr} {l : Option Location}
    {failure : ExpansionFailure} {xs : List Expr} {sites : List (Expr × ExpansionFailure)} :
    Setting.standard.code (.extension name payload l) = .error failure → FailingSites xs sites →
    FailingSites (.extension name payload l :: xs) ((.extension name payload l, failure) :: sites)
  | expanded {name : String} {payload : Option Expr} {l : Option Location} {code : Expr}
    {xs : List Expr} {inner sites : List (Expr × ExpansionFailure)} :
    Setting.standard.code (.extension name payload l) = .ok code →
    FailingSites (payloadOutermost payload) inner → FailingSites xs sites →
    FailingSites (.extension name payload l :: xs) (inner ++ sites)

/-! ## Failing uses -/

namespace FailingSites

variable {x : Expr} {xs ys : List Expr} {sites sites' : List (Expr × ExpansionFailure)}
  {failure : ExpansionFailure}

theorem append (h : FailingSites xs sites) (h' : FailingSites ys sites') :
    FailingSites (xs ++ ys) (sites ++ sites') := by
  induction h with
  | nil => exact h'
  | failed hx _ ih => exact .failed hx ih
  | expanded hx hp _ _ ih =>
    rw [List.append_assoc]
    exact .expanded hx hp ih

theorem exists_of_append (h : FailingSites (xs ++ ys) sites) :
    ∃ s s', sites = s ++ s' ∧ FailingSites xs s ∧ FailingSites ys s' := by
  induction xs generalizing sites with
  | nil => exact ⟨[], sites, rfl, .nil, h⟩
  | cons x xs ih =>
    cases h with
    | failed hx h =>
      obtain ⟨s, s', rfl, hs, hs'⟩ := ih h
      exact ⟨_ :: s, s', rfl, .failed hx hs, hs'⟩
    | expanded hx hp h =>
      obtain ⟨s, s', rfl, hs, hs'⟩ := ih h
      exact ⟨_ ++ s, s', (List.append_assoc ..).symm, .expanded hx hp hs, hs'⟩

/-- There is one list of failing uses only. -/
theorem unique (h : FailingSites xs sites) (h' : FailingSites xs sites') : sites' = sites := by
  induction h generalizing sites' with
  | nil =>
    cases h'
    rfl
  | failed hx _ ih =>
    cases h' with
    | failed hx' h' =>
      cases hx.symm.trans hx'
      rw [ih h']
    | expanded hx' => cases hx.symm.trans hx'
  | expanded hx _ _ ihp ih =>
    cases h' with
    | failed hx' => cases hx.symm.trans hx'
    | expanded _ hp' h' => rw [ihp hp', ih h']

theorem code_eq_error (h : FailingSites xs sites) :
    ∀ s ∈ sites, Setting.standard.code s.1 = .error s.2 := by
  induction h with
  | nil => simp
  | failed hx _ ih => exact List.forall_mem_cons.mpr ⟨hx, ih⟩
  | expanded _ _ _ ihp ih => exact List.forall_mem_append.mpr ⟨ihp, ih⟩

end FailingSites

/-! ## The uses of code -/

/-- The use of an extension that could be read. -/
def Expr.IsUse (x : Expr) : Prop := x.isExtension = true ∧ x.IsReadable

section

variable {inArm : Bool} {e x : Expr}

theorem Expr.IsCode.isUse (h : e.IsCode inArm) : ∀ x ∈ e.outermost, x.IsUse := by
  induction h with
  | constant | identifier | unit => exact nofun
  | extension he => exact List.forall_mem_singleton.mpr ⟨rfl, he⟩
  | @apply _ _ args _ _ _ hl _ ihf iha =>
    rw [outermost, outermostOfArguments_eq_flatMap, List.forall_mem_append,
      List.forall_mem_flatMap]
    refine ⟨ihf, fun a ha => ?_⟩
    cases a with
    | mk label e => exact iha label e ha
    | other n => exact absurd (hl _ ha) id
  | constraint _ _ ih => exact ih
  | tuple _ _ ih | list _ ih =>
    rw [outermost, outermostOfExprs_eq_flatMap, List.forall_mem_flatMap]
    exact ih
  | binary _ _ ihl ihr => exact List.forall_mem_append.mpr ⟨ihl, ihr⟩
  | cons _ _ _ ihh iht => exact List.forall_mem_append.mpr ⟨ihh, iht⟩
  | matching _ ha _ ihe ihb =>
    rw [outermost, outermostOfArms_eq_flatMap, List.forall_mem_append, List.forall_mem_flatMap]
    refine ⟨ihe, fun a hm => ?_⟩
    cases a with
    | mk p body l => exact ihb p body l hm
    | other n => exact absurd (ha _ hm) id

/-- Uses are listed with what stands in their payloads behind them, so the whole list tells which
of them stand in no payload. -/
theorem flatMap_extensions_inj {xs ys : List Expr} (hx : ∀ x ∈ xs, x.IsUse)
    (hy : ∀ y ∈ ys, y.IsUse) (h : xs.flatMap Expr.extensions = ys.flatMap Expr.extensions) :
    xs = ys := by
  have hcons {x : Expr} (hx : x.IsUse) : ∃ inner, x.extensions = x :: inner := by
    obtain ⟨hx, -⟩ := hx
    cases x with
    | extension name payload l => exact ⟨_, Expr.extensions_extension name payload l⟩
    | _ => cases hx
  induction xs generalizing ys with
  | nil =>
    cases ys with
    | nil => rfl
    | cons y ys =>
      obtain ⟨inner, hinner⟩ := hcons (hy y List.mem_cons_self)
      simp [hinner] at h
  | cons x xs ih =>
    obtain ⟨hx₁, hx₂⟩ := List.forall_mem_cons.mp hx
    obtain ⟨inner, hinner⟩ := hcons hx₁
    cases ys with
    | nil => simp [hinner] at h
    | cons y ys =>
      obtain ⟨hy₁, hy₂⟩ := List.forall_mem_cons.mp hy
      obtain ⟨inner', hinner'⟩ := hcons hy₁
      obtain rfl : x = y := by
        simp only [List.flatMap_cons, hinner, hinner', List.cons_append] at h
        exact (List.cons.inj h).1
      rw [List.flatMap_cons, List.flatMap_cons] at h
      rw [ih hx₂ hy₂ (List.append_cancel_left h)]

end

/-! ## The uses of contributions -/

/-- The uses in what is contributed that stand in no payload. -/
def Omittable.outermost : Omittable → List Expr
  | present e => e.outermost
  | optional _ e _ => e.outermost
  | absent => []

section

variable {inArm : Bool} {item : Omittable} {items : List Omittable}

theorem Omittable.IsCode.isUse (h : item.IsCode inArm) : ∀ x ∈ item.outermost, x.IsUse := by
  cases item with
  | present e => exact Expr.IsCode.isUse h
  | optional l e wrap => exact h.1.isUse
  | absent => exact nofun

theorem Omittable.IsCode.extensions_eq_flatMap (h : item.IsCode inArm) :
    item.extensions = item.outermost.flatMap Expr.extensions := by
  cases item with
  | present e => exact (Expr.IsCode.isProper h).extensions_eq_flatMap
  | optional l e wrap => exact h.1.isProper.extensions_eq_flatMap
  | absent => rfl

/-- The uses of assembled contributions are those of the contributions, in their order. -/
theorem outermost_assemble {l : Option Location} (h : ∀ item ∈ items, item.IsCode inArm) :
    (Omittable.assemble l items).outermost = items.flatMap Omittable.outermost := by
  obtain ⟨hc, he⟩ := isCode_assemble (l := l) h
  refine flatMap_extensions_inj hc.isUse ?_ ?_
  · exact List.forall_mem_flatMap.mpr fun item hi => (h item hi).isUse
  · rw [← hc.isProper.extensions_eq_flatMap, he, List.flatMap_assoc]
    exact List.flatMap_congr fun item hi => (h item hi).extensions_eq_flatMap

end

/-- The uses in an argument go over into what it contributes; only `[%here]` does not, where it is
the argument itself. -/
theorem Argument.IsReadable.outermost_cases {a : Argument} {item : Omittable} (h : a.IsReadable)
    (hc : a.contribution .standard = .ok item) : item.outermost = a.outermost ∨
      item.outermost = [] ∧ ∃ l, a.outermost = [.extension "here" none (some l)] := by
  have hitem : item.IsCode true := (h.isCode_contribution hc).1
  obtain ⟨-, hext⟩ := Argument.extensions_contribution hc
  cases a with
  | other n => exact absurd h.1 id
  | mk label e =>
    have he : e.IsReadable := h.2 label e rfl
    have hcode : e.IsCode true := he.isCode
    rw [Argument.isPlace] at hext
    cases hplace : e.isPlace with
    | false =>
      rw [hplace] at hext
      refine .inl (flatMap_extensions_inj hitem.isUse hcode.isUse ?_)
      rw [← hitem.extensions_eq_flatMap, hext]
      exact hcode.isProper.extensions_eq_flatMap
    | true =>
      rw [hplace] at hext
      obtain ⟨l, rfl⟩ := Expr.exists_of_isPlace hplace
      have hnone : ∀ y ∈ ([] : List Expr), y.IsUse := nofun
      have hnil : item.outermost = [] := by
        refine flatMap_extensions_inj hitem.isUse hnone ?_
        rw [← hitem.extensions_eq_flatMap, hext]
        rfl
      cases he with
      | extension => exact .inr ⟨hnil, _, rfl⟩

theorem flatMap_outermost_arguments (e : Expr) :
    (Message.arguments e).flatMap Argument.outermost = e.outermost := by
  cases e with
  | apply f args l =>
    rw [Expr.outermost, outermostOfArguments_eq_flatMap]
    rfl
  | _ => exact List.append_nil _

namespace FailingSites

variable {sites : List (Expr × ExpansionFailure)}

/-- A place never fails. -/
theorem here (l : Location) : FailingSites [.extension "here" none (some l)] [] := by
  have hcode : Setting.standard.code (.extension "here" none (some l)) =
      .ok (.constant (.ofString l.positionText (some l))) := rfl
  exact .expanded hcode .nil .nil

theorem of_contributions {args : List Argument} {items : List Omittable}
    (h : ∀ a ∈ args, a.IsReadable) (hm : args.mapM (·.contribution .standard) = .ok items)
    (hf : FailingSites (items.flatMap Omittable.outermost) sites) :
    FailingSites (args.flatMap Argument.outermost) sites := by
  induction args generalizing items sites with
  | nil =>
    cases hm
    exact hf
  | cons a args ih =>
    obtain ⟨item, items', rfl, ha, hargs⟩ := exists_of_mapM_cons hm
    obtain ⟨h₁, h₂⟩ := List.forall_mem_cons.mp h
    rw [List.flatMap_cons] at hf ⊢
    obtain ⟨s, s', rfl, hs, hs'⟩ := hf.exists_of_append
    refine append ?_ (ih h₂ hargs hs')
    rcases h₁.outermost_cases ha with heq | ⟨hnil, l, heq⟩
    · rwa [← heq]
    · rw [hnil] at hs
      cases hs
      rw [heq]
      exact here l

/-- What fails in the code of a use is what fails in its payload. -/
theorem of_code {name : String} {payload : Option Expr} {l : Option Location} {code : Expr}
    (h : (Expr.extension name payload l).IsReadable)
    (hc : Setting.standard.code (.extension name payload l) = .ok code)
    (hf : FailingSites code.outermost sites) : FailingSites (payloadOutermost payload) sites := by
  rcases Setting.code_cases hc with ⟨rfl, hc⟩ | ⟨rfl, rfl, hc⟩
  · cases payload with
    | none =>
      cases hc
      exact hf
    | some e =>
      have hargs : ∀ a ∈ Message.arguments e, a.IsReadable := by
        cases h with
        | payload _ he => exact isReadable_arguments he
      obtain ⟨items, hm, hc⟩ := exists_of_bind_eq_ok hc
      cases hc
      obtain ⟨hcode, -⟩ := isCode_contributions true hargs hm
      have hf' : FailingSites (items.flatMap Omittable.outermost) sites :=
        outermost_assemble hcode ▸ hf
      rw [payloadOutermost, Option.elim_some, ← flatMap_outermost_arguments]
      exact of_contributions hargs hm hf'
  · cases h with
    | extension =>
      cases hc
      exact hf

end FailingSites

/-! ## Expansions report the uses that fail -/

/-- An expansion reports the uses that fail, and leaves them. -/
def Expansion.Reports (α : Type) (r : Expansion α) (left uses : List Expr) : Prop :=
  ∃ sites, FailingSites uses sites ∧ left = sites.map Prod.fst ∧ r.failures = sites.map Prod.snd

namespace Expansion

theorem threads_reports : Threads Reports where
  pure _ := ⟨[], .nil, rfl, rfl⟩
  bind := by
    rintro α β x f left left' uses uses' ⟨s, hs, rfl, hf⟩ ⟨s', hs', rfl, hf'⟩
    exact ⟨s ++ s', hs.append hs', (List.map_append ..).symm, by simp [hf, hf']⟩

end Expansion

namespace Setting

variable {s : Setting} {name : String} {payload : Option Expr} {l : Option Location}
  {depth : Nat}

theorem site_eq (next : Expr → Expansion Expr) :
    s.site next name payload l = match s.code (.extension name payload l) with
      | .error failure => .failed (.extension name payload l) failure
      | .ok code => (next code).counted := by
  simp only [site, code]
  cases s.registry.find? name <;> rfl

theorem replaceExtensions_of_error {failure : ExpansionFailure}
    (h : s.code (.extension name payload l) = .error failure) :
    (Expr.extension name payload l).replaceExtensions (s.siteWithin (depth + 1)) =
      .failed (.extension name payload l) failure := by
  rw [Expr.replaceExtensions, siteWithin, site_eq, h]

theorem replaceExtensions_of_ok {code : Expr} (h : s.code (.extension name payload l) = .ok code) :
    (Expr.extension name payload l).replaceExtensions (s.siteWithin (depth + 1)) =
      (code.replaceExtensions (s.siteWithin depth)).counted := by
  rw [Expr.replaceExtensions, siteWithin, site_eq, h]

theorem isExpansion_code {inArm : Bool} (h : (Expr.extension name payload l).IsReadable) :
    IsExpansion inArm payload (standard.code (.extension name payload l)) := by
  unfold code
  dsimp only
  split
  · exact ⟨rfl, nofun⟩
  · rename_i x hx
    exact isExpansion_of_find? hx h

/-- Expansions that may follow one another as often as there are uses report those that fail. -/
theorem reports_siteWithin (depth : Nat) {x : Expr} (hx : x.IsUse)
    (hd : x.extensions.length ≤ depth) :
    x.Threads Expansion.Reports (standard.siteWithin depth) := by
  induction depth generalizing x with
  | zero =>
    obtain ⟨hx, -⟩ := hx
    cases x with
    | extension name payload l =>
      rw [Expr.extensions_extension] at hd
      cases hd
    | _ => cases hx
  | succ depth ih =>
    obtain ⟨hx, hread⟩ := hx
    cases x with
    | extension name payload l =>
      have hexpansion : IsExpansion true payload (standard.code (.extension name payload l)) :=
        isExpansion_code hread
      unfold Expr.Threads
      cases hc : standard.code (.extension name payload l) with
      | error failure =>
        rw [replaceExtensions_of_error hc]
        exact ⟨[(_, failure)], .failed hc .nil, rfl, rfl⟩
      | ok code =>
        rw [hc] at hexpansion
        obtain ⟨hcode, hsub⟩ := hexpansion
        have hlen := hsub.length_le
        rw [Expr.extensions_extension, List.length_cons] at hd
        have huses : ∀ y ∈ code.outermost,
            y.Threads Expansion.Reports (standard.siteWithin depth) := by
          intro y hy
          have hinner := length_le_flatMap hy Expr.extensions
          rw [← hcode.isProper.extensions_eq_flatMap] at hinner
          exact ih (hcode.isUse y hy) (by omega)
        obtain ⟨sites, hs, hleft, hfail⟩ :=
          hcode.isProper.threads Expansion.threads_reports huses
        rw [replaceExtensions_of_ok hc]
        have hpayload := FailingSites.of_code hread hc hs
        have huse := FailingSites.expanded hc hpayload .nil
        rw [List.append_nil] at huse
        exact ⟨sites, huse, hleft, hfail⟩
    | _ => cases hx

end Setting

/-! ## Programs -/

theorem Statement.IsCode.isUse {s : Statement} (h : s.IsCode) : ∀ x ∈ s.outermost, x.IsUse := by
  cases h with
  | binding _ he => exact he.isUse
  | expression he => exact he.isUse

section

variable {p : Program}

theorem Program.isUse_of_mem_outermost (h : ∀ s ∈ p.statements, s.IsCode) :
    ∀ x ∈ p.outermost, x.IsUse := by
  rw [outermost, outermostOfStatements_eq_flatMap, List.forall_mem_flatMap]
  exact fun s hs => (h s hs).isUse

theorem Program.extensions_eq_flatMap_outermost (h : ∀ s ∈ p.statements, s.IsCode) :
    p.extensions = p.outermost.flatMap Expr.extensions :=
  IsProper.extensions_eq_flatMap_outermost fun s hs => (h s hs).isProper

/-- Expanding a program reports the uses that fail, in their order, and leaves them. -/
theorem Program.IsReadable.reports (h : p.IsReadable) :
    Expansion.Reports _ (p.expand .standard) (p.expand .standard).value.outermost p.outermost := by
  have hcode : ∀ s ∈ p.statements, s.IsCode := fun s hs => (h s hs).isCode
  have hcount := h.isProper.extensionCount_eq
  have huses : ∀ x ∈ outermostOfStatements p.statements,
      x.Threads Expansion.Reports (Setting.standard.siteWithin
        (Setting.standard.depth (statementsExtensionCount p.statements))) := by
    intro x hx
    refine Setting.reports_siteWithin _ (isUse_of_mem_outermost hcode x hx) ?_
    have hlen := length_le_flatMap hx Expr.extensions
    rw [← Program.outermost, ← h.isProper.extensions_eq_flatMap_outermost, ← hcount] at hlen
    show _ ≤ (_ + 1) * 3
    omega
  have hstatements := threads_statements Expansion.threads_reports h.isProper huses
  exact Expansion.threads_reports.map hstatements _

end
end MessageLang
