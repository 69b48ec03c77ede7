import MessageLang.Proofs.Expansion.ProperCode
/-!
# How often extensions are asked for code

The code of a use may be larger than the use, and is expanded in its turn. But the uses in it are
those of its payload, each of them once, so there is one use less with every expansion. Hence
expansions end, and there are no more of them than uses in the program.

* `Setting.length_extensions_code`: one expansion takes one use away, and the places that it fills
  in.
* `Expr.IsProper.use_induction`: what holds of a use if it holds of those in its code.
* `Expr.IsProper.acc_arisesFrom`: no use leads to further ones without end.
* `Setting.invokes_siteWithin`: how often extensions are asked for code on account of a use.
* `expansion_uses_once`: how often they are asked on account of a program.
-/
namespace MessageLang

/-! ## Places that messages fill in -/

/-- The arguments of a use of `[%message]`. -/
def Expr.messageArguments : Expr → List Argument
  | .extension "message" payload _ => Message.payloadArguments payload
  | _ => []

/-- The arguments of messages that are `[%here]` themselves. No extension is asked for these places:
the messages fill them in. -/
def filledPlaces (xs : List Expr) : List Argument :=
  (xs.flatMap Expr.messageArguments).filter Argument.isPlace

theorem filledPlaces_cons (x : Expr) (xs : List Expr) :
    filledPlaces (x :: xs) = x.messageArguments.filter Argument.isPlace ++ filledPlaces xs := by
  simp [filledPlaces]

theorem filledPlaces_append (xs ys : List Expr) :
    filledPlaces (xs ++ ys) = filledPlaces xs ++ filledPlaces ys := by
  simp [filledPlaces]

theorem Argument.extensions_of_isPlace {a : Argument} (h : a.isPlace = true) :
    ∃ l, a.extensions = [.extension "here" none l] := by
  cases a with
  | other n => cases h
  | mk label e =>
    obtain ⟨l, rfl⟩ := Expr.exists_of_isPlace h
    exact ⟨l, rfl⟩

theorem length_carried (args : List Argument) :
    ((args.filter fun a => !a.isPlace).flatMap Argument.extensions).length +
      (args.filter Argument.isPlace).length = (args.flatMap Argument.extensions).length := by
  induction args with
  | nil => rfl
  | cons a args ih =>
    rw [List.flatMap_cons, List.length_append, ← ih]
    cases hplace : a.isPlace with
    | true =>
      obtain ⟨l, hl⟩ := Argument.extensions_of_isPlace hplace
      simp [hplace, hl]
      omega
    | false => simp [hplace, Nat.add_assoc]

/-- A place is no message. -/
theorem filledPlaces_carried (args : List Argument) :
    filledPlaces ((args.filter fun a => !a.isPlace).flatMap Argument.extensions) =
      filledPlaces (args.flatMap Argument.extensions) := by
  induction args with
  | nil => rfl
  | cons a args ih =>
    rw [List.flatMap_cons, filledPlaces_append, ← ih]
    cases hplace : a.isPlace with
    | true =>
      obtain ⟨l, hl⟩ := Argument.extensions_of_isPlace hplace
      have hnone : filledPlaces a.extensions = [] := by
        rw [hl]
        rfl
      simp [hplace, hnone]
    | false => simp [hplace, filledPlaces_append]

/-! ## One expansion -/

namespace Setting

variable {name : String} {payload : Option Expr} {l : Option Location} {code : Expr}

/-- The extensions of a use that stands for code, and those of the code. -/
theorem extensions_code (h : standard.code (.extension name payload l) = .ok code) :
    payloadExtensions payload =
        (Expr.extension name payload l).messageArguments.flatMap Argument.extensions ∧
      code.extensions = ((Expr.extension name payload l).messageArguments.filter
        fun a => !a.isPlace).flatMap Argument.extensions := by
  rcases code_cases h with ⟨rfl, hc⟩ | ⟨rfl, rfl, hc⟩
  · refine ⟨?_, Message.extensions_expand hc⟩
    cases payload with
    | none => rfl
    | some e => exact (flatMap_arguments e).symm
  · cases l with
    | none => cases hc
    | some l =>
      cases hc
      exact ⟨rfl, rfl⟩

/-- One expansion takes one use away, and the places that it fills in. -/
theorem length_extensions_code (h : standard.code (.extension name payload l) = .ok code) :
    code.extensions.length + 1 +
        ((Expr.extension name payload l).messageArguments.filter Argument.isPlace).length =
      (Expr.extension name payload l).extensions.length := by
  obtain ⟨hpayload, hcode⟩ := extensions_code h
  rw [Expr.extensions_extension, List.length_cons, hpayload, ← length_carried, hcode]
  omega

theorem filledPlaces_code (h : standard.code (.extension name payload l) = .ok code) :
    filledPlaces (Expr.extension name payload l).extensions =
      (Expr.extension name payload l).messageArguments.filter Argument.isPlace ++
        filledPlaces code.extensions := by
  obtain ⟨hpayload, hcode⟩ := extensions_code h
  rw [Expr.extensions_extension, filledPlaces_cons, hpayload, hcode, filledPlaces_carried]

end Setting

/-! ## Expansions end -/

theorem Expr.exists_of_isExtension {x : Expr} (h : x.isExtension = true) :
    ∃ name payload l, x = .extension name payload l := by
  cases x with
  | extension name payload l => exact ⟨name, payload, l, rfl⟩
  | _ => cases h

/-- What holds of a use whenever it holds of the uses in its code holds of every proper use. The
uses in the code have no more extensions than the payload. -/
theorem Expr.IsProper.use_induction {motive : Expr → Prop}
    (step : ∀ name payload l, (Expr.extension name payload l).IsProper →
      (∀ code, Setting.standard.code (.extension name payload l) = .ok code →
        ∀ y ∈ code.outermost,
          y.extensions.length ≤ (payloadExtensions payload).length ∧ motive y) →
      motive (.extension name payload l))
    {x : Expr} (h : x.IsProper) (hx : x.isExtension = true) : motive x := by
  induction hn : x.extensions.length using Nat.strongRecOn generalizing x with
  | ind n ih =>
    obtain ⟨name, payload, l, rfl⟩ := Expr.exists_of_isExtension hx
    refine step name payload l h fun code hc y hy => ?_
    have hcode : code.IsProper := Setting.isProper_code h hc
    obtain ⟨hyext, hyproper⟩ := hcode.of_mem_outermost y hy
    have hlen := length_le_flatMap hy Expr.extensions
    rw [← hcode.extensions_eq_flatMap] at hlen
    have hcount := Setting.length_extensions_code hc
    rw [Expr.extensions_extension, List.length_cons] at hn hcount
    exact ⟨by omega, ih _ (by omega) hyproper hyext rfl⟩

/-- `y` is a use in the code that the use `x` stands for. It is expanded after `x`. -/
def Expr.ArisesFrom (y x : Expr) : Prop :=
  x.isExtension = true ∧ ∃ code, Setting.standard.code x = .ok code ∧ y ∈ code.outermost

/-- No proper use leads to further ones without end. -/
theorem Expr.IsProper.acc_arisesFrom {x : Expr} (h : x.IsProper) (hx : x.isExtension = true) :
    Acc Expr.ArisesFrom x := by
  refine h.use_induction (fun name payload l _ ih => .intro _ fun y hy => ?_) hx
  obtain ⟨-, code, hc, hy⟩ := hy
  exact (ih code hc y hy).2

/-! ## The number of expansions -/

/-- How often an expansion asks extensions for code: at most as often as there are extensions, and
if all goes well once for each of them that is not filled in. It never fails for want of an end. -/
structure Expansion.Invokes (α : Type) (r : Expansion α) (_left uses : List Expr) : Prop where
  le : r.expanded + r.failedCount ≤ (uses.flatMap Expr.extensions).length
  eq : r.failures = [] → r.expanded + r.failedCount +
    (filledPlaces (uses.flatMap Expr.extensions)).length = (uses.flatMap Expr.extensions).length
  ends : ∀ f ∈ r.failures, ∀ name, f.error ≠ .endless name

namespace Expansion

@[simp] theorem counted_expanded {α : Type} (x : Expansion α) :
    x.counted.expanded = x.expanded + 1 := rfl

@[simp] theorem counted_failedCount {α : Type} (x : Expansion α) :
    x.counted.failedCount = x.failedCount := rfl

theorem threads_invokes : Threads Invokes where
  pure _ := ⟨Nat.le_refl 0, fun _ => rfl, fun _ h => absurd h List.not_mem_nil⟩
  bind := by
    intro α β x f left left' uses uses' h h'
    refine ⟨?_, fun hnone => ?_, ?_⟩
    · have hle := h.le
      have hle' := h'.le
      rw [bind_expanded, bind_failedCount, List.flatMap_append, List.length_append]
      omega
    · rw [bind_failures, List.append_eq_nil_iff] at hnone
      have heq := h.eq hnone.1
      have heq' := h'.eq hnone.2
      rw [bind_expanded, bind_failedCount, List.flatMap_append, filledPlaces_append,
        List.length_append, List.length_append]
      omega
    · rw [bind_failures]
      exact List.forall_mem_append.mpr ⟨h.ends, h'.ends⟩

end Expansion

namespace Setting

variable {x : Expr}

/-- An expansion may still follow where as many may as a use has extensions. -/
theorem exists_depth {name : String} {payload : Option Expr} {l : Option Location} {depth : Nat}
    (h : (Expr.extension name payload l).extensions.length ≤ depth) :
    ∃ d, depth = d + 1 ∧ (payloadExtensions payload).length ≤ d := by
  rw [Expr.extensions_extension, List.length_cons] at h
  obtain ⟨d, rfl⟩ := Nat.exists_eq_add_one.mpr (Nat.lt_of_lt_of_le (Nat.zero_lt_succ _) h)
  exact ⟨d, rfl, Nat.le_of_succ_le_succ h⟩

/-- Expansions that may follow one another as often as there are extensions ask once for each. -/
theorem invokes_siteWithin (h : x.IsProper) (hx : x.isExtension = true) :
    ∀ depth, x.extensions.length ≤ depth →
      x.Threads Expansion.Invokes (standard.siteWithin depth) := by
  refine h.use_induction (motive := fun x => ∀ depth, x.extensions.length ≤ depth →
    x.Threads Expansion.Invokes (standard.siteWithin depth)) ?_ hx
  intro name payload l hp ih depth hd
  have hself : [Expr.extension name payload l].flatMap Expr.extensions =
      (Expr.extension name payload l).extensions := List.flatMap_singleton ..
  obtain ⟨depth, rfl, hpayload⟩ := exists_depth hd
  unfold Expr.Threads
  cases hc : standard.code (.extension name payload l) with
  | error failure =>
    rw [replaceExtensions_of_error hc]
    refine ⟨?_, nofun, List.forall_mem_singleton.mpr (terminates_code hp failure hc)⟩
    rw [Expr.outermost, hself, Expr.extensions_extension]
    exact Nat.succ_le_succ (Nat.zero_le _)
  | ok code =>
    have hcode : code.IsProper := isProper_code hp hc
    have huses : ∀ y ∈ code.outermost,
        y.Threads Expansion.Invokes (standard.siteWithin depth) := by
      intro y hy
      obtain ⟨hle, hy⟩ := ih code hc y hy
      exact hy depth (Nat.le_trans hle hpayload)
    obtain ⟨hle, heq, hends⟩ := hcode.threads Expansion.threads_invokes huses
    rw [← hcode.extensions_eq_flatMap] at hle heq
    have hlength := length_extensions_code hc
    have hplaces := congrArg List.length (filledPlaces_code hc)
    rw [List.length_append] at hplaces
    rw [replaceExtensions_of_ok hc]
    refine ⟨?_, fun hnone => ?_, hends⟩
    · rw [Expr.outermost, hself, Expansion.counted_expanded, Expansion.counted_failedCount]
      omega
    · have hcount := heq hnone
      rw [Expr.outermost, hself, Expansion.counted_expanded, Expansion.counted_failedCount]
      omega

/-- What becomes of a use does not depend on how many expansions may follow one another, as long as
that are enough. -/
theorem replaceExtensions_siteWithin (h : x.IsProper) (hx : x.isExtension = true) :
    ∀ depth depth', x.extensions.length ≤ depth → x.extensions.length ≤ depth' →
      x.replaceExtensions (standard.siteWithin depth) =
        x.replaceExtensions (standard.siteWithin depth') := by
  refine h.use_induction (motive := fun x => ∀ depth depth', x.extensions.length ≤ depth →
    x.extensions.length ≤ depth' → x.replaceExtensions (standard.siteWithin depth) =
      x.replaceExtensions (standard.siteWithin depth')) ?_ hx
  intro name payload l hp ih depth depth' hd hd'
  obtain ⟨depth, rfl, hpayload⟩ := exists_depth hd
  obtain ⟨depth', rfl, hpayload'⟩ := exists_depth hd'
  cases hc : standard.code (.extension name payload l) with
  | error failure => rw [replaceExtensions_of_error hc, replaceExtensions_of_error hc]
  | ok code =>
    have hcode : code.IsProper := isProper_code hp hc
    rw [replaceExtensions_of_ok hc, replaceExtensions_of_ok hc]
    refine congrArg Expansion.counted (hcode.replaceExtensions_congr fun y hy => ?_)
    obtain ⟨hle, hy⟩ := ih code hc y hy
    exact hy depth depth' (Nat.le_trans hle hpayload) (Nat.le_trans hle hpayload')

end Setting

/-! ## Programs -/

/-- The program with its extensions expanded, where expansions may follow one another up to `depth`
times. -/
def Program.expandWithin (s : Setting) (depth : Nat) (p : Program) : Expansion Program := do
  return ⟨← replaceInStatements (s.siteWithin depth) p.statements, p.location⟩

section

variable {p : Program}

theorem Program.IsProper.length_le (h : p.IsProper) {x : Expr} (hx : x ∈ p.outermost) :
    x.extensions.length ≤ p.extensions.length := by
  rw [h.extensions_eq_flatMap_outermost]
  exact length_le_flatMap hx Expr.extensions

theorem Program.IsProper.length_le_depth (h : p.IsProper) :
    p.extensions.length ≤ Setting.standard.depth (statementsExtensionCount p.statements) := by
  rw [h.extensionCount_eq]
  show _ ≤ (_ + 1) * 3
  omega

theorem Program.IsProper.expandWithin_eq (h : p.IsProper) {depth : Nat}
    (hd : p.extensions.length ≤ depth) : p.expandWithin .standard depth = p.expand .standard := by
  have hsame : replaceInStatements (Setting.standard.siteWithin depth) p.statements =
      replaceInStatements (Setting.standard.siteWithin
        (Setting.standard.depth (statementsExtensionCount p.statements))) p.statements := by
    refine replaceInStatements_congr h fun x hx => ?_
    obtain ⟨hext, hproper⟩ := h.of_mem_outermost x hx
    have hlen := h.length_le hx
    exact Setting.replaceExtensions_siteWithin hproper hext _ _ (Nat.le_trans hlen hd)
      (Nat.le_trans hlen h.length_le_depth)
  unfold Program.expandWithin Program.expand
  rw [hsame]

theorem Program.IsProper.invokes (h : p.IsProper) :
    Expansion.Invokes _ (p.expand .standard) (p.expand .standard).value.outermost p.outermost := by
  have huses : ∀ x ∈ outermostOfStatements p.statements,
      x.Threads Expansion.Invokes (Setting.standard.siteWithin
        (Setting.standard.depth (statementsExtensionCount p.statements))) := by
    intro x hx
    obtain ⟨hext, hproper⟩ := h.of_mem_outermost x hx
    exact Setting.invokes_siteWithin hproper hext _
      (Nat.le_trans (h.length_le hx) h.length_le_depth)
  exact Expansion.threads_invokes.map (threads_statements Expansion.threads_invokes h huses) _

end

/-- Whatever payload a message has, and wherever it stands: its code holds the extensions of its
arguments in their order, each once, but for `[%here]` where that is an argument itself. So a
program with a part of the right sort in every place is expanded to the end: no use leads to further
ones for ever, any number of expansions that may follow one another is enough that is no less than
the number of extensions in the program, and no failure is for want of an end. Extensions are asked
for code at most as often as the program holds extensions, and if all goes well once for each that
is not such an argument. -/
theorem expansion_uses_once :
    (∀ l payload code, Message.expand .standard l payload = .ok code → code.extensions =
      ((Message.payloadArguments payload).filter fun a => !a.isPlace).flatMap
        Argument.extensions) ∧
    ∀ p : Program, p.IsProper →
      (∀ x ∈ p.outermost, Acc Expr.ArisesFrom x) ∧
      (∀ depth, p.extensions.length ≤ depth →
        p.expandWithin .standard depth = p.expand .standard) ∧
      (∀ f ∈ (p.expand .standard).failures, ∀ name, f.error ≠ .endless name) ∧
      (p.expand .standard).expanded + (p.expand .standard).failedCount ≤ p.extensions.length ∧
      ((p.expand .standard).failures = [] →
        (p.expand .standard).expanded + (p.expand .standard).failedCount +
          (filledPlaces p.extensions).length = p.extensions.length) := by
  refine ⟨fun l payload code h => Message.extensions_expand h, fun p hp => ?_⟩
  obtain ⟨hle, heq, hends⟩ := hp.invokes
  rw [← hp.extensions_eq_flatMap_outermost] at hle heq
  refine ⟨fun x hx => ?_, fun depth => hp.expandWithin_eq, hends, hle, heq⟩
  obtain ⟨hext, hproper⟩ := hp.of_mem_outermost x hx
  exact hproper.acc_arisesFrom hext

/-- Of the places, only the one that is an argument of `g` is expanded. -/
theorem expansion_uses_once_nested :
    (∃ code, Message.expand .standard none (some (.apply (.extension "message" none none)
        [.mk (.labelled "x") (.extension "here" none (some ⟨"a.ml", 1, 1, 0, 0, 0, 0⟩))] none)) =
          .ok code ∧ code.extensions = [.extension "message" none none]) ∧
    ∃ p, Program.parse "a.ml"
        "[%message (f [%message [%here] 1]) ~x:[%here] ~y:(g [%here])];" = .ok p ∧
      p.extensions.length = 5 ∧ p.expandWithin .standard 5 = p.expand .standard ∧
      (p.expand .standard).failures = [] ∧
      (p.expand .standard).expanded + (p.expand .standard).failedCount + 2 = 5 := by
  have hcode : ∃ code, Message.expand .standard none (some (.apply (.extension "message" none none)
      [.mk (.labelled "x") (.extension "here" none (some ⟨"a.ml", 1, 1, 0, 0, 0, 0⟩))] none)) =
        .ok code := ⟨_, rfl⟩
  obtain ⟨code, hcode⟩ := hcode
  refine ⟨⟨code, hcode, expansion_uses_once.1 _ _ _ hcode⟩, ?_⟩
  have hcheck : ((Program.parse "a.ml"
      "[%message (f [%message [%here] 1]) ~x:[%here] ~y:(g [%here])];").toOption.any fun p =>
        p.extensions.length == 5 && (filledPlaces p.extensions).length == 2 &&
          (p.expand .standard).failures.isEmpty) = true := by
    decide +kernel
  obtain ⟨p, hp, hcheck⟩ := exists_ok_of_any hcheck
  simp only [Bool.and_eq_true, beq_iff_eq, List.isEmpty_iff] at hcheck
  obtain ⟨⟨hfive, htwo⟩, hnone⟩ := hcheck
  obtain ⟨-, hdepth, -, -, hcount⟩ :=
    expansion_uses_once.2 p (Program.parse_isReadable hp).isProper
  have hall := hcount hnone
  rw [htwo, hfive] at hall
  exact ⟨p, hp, hfive, hdepth 5 (Nat.le_of_eq hfive), hnone, hall⟩

end MessageLang
