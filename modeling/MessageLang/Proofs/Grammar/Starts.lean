import MessageLang.Grammar.State
/-!
# Where expressions start and end

Expressions start in a few modes only, and end in two, where the operand that is complete waits for
what follows it.

* `State.OpensSimple`, `State.OpensExpression`: where a simple expression, an expression may start.
* `State.operand?`: the operand that is complete but for what follows it.
* `State.endExpression_congr`: what follows an operand is the same where the same is left of it once
  the open operators are closed.
-/
namespace MessageLang

namespace State

variable {file : String} {s : State} {fs : List Frame} {word : Option String} {t : Token}

/-! ## Starts -/

/-- An expression may start, over the open constructs `fs`. A statement does not start with the name
`let`. -/
def OpensExpression (s : State) (word : Option String) (fs : List Frame) : Prop :=
  match s.mode with
  | .statement => fs = .statement :: s.frames ∧ word ≠ some "let"
  | .expression => fs = s.frames
  | _ => False

/-- A simple expression may start, over the open constructs `fs`. -/
def OpensSimple (s : State) (word : Option String) (fs : List Frame) : Prop :=
  match s.mode with
  | .statement => fs = .statement :: s.frames ∧ word ≠ some "let"
  | .expression | .simple => fs = s.frames
  | .applied f args _ => fs = .argument f args .positional :: s.frames
  | _ => False

theorem OpensExpression.opensSimple (h : s.OpensExpression word fs) : s.OpensSimple word fs := by
  unfold OpensExpression at h
  unfold OpensSimple
  split at h <;> rename_i hm
  · rw [hm]
    exact h
  · rw [hm]
    exact h
  · exact h.elim

theorem startsArgument_of_startsSimple {k : Terminal} (h : startsSimple k = true) :
    startsArgument k = true := by
  unfold startsArgument
  split
  all_goals first
    | rfl
    | exact h

theorem OpensSimple.expects {k : Terminal} (h : s.OpensSimple word fs)
    (hk : startsSimple k = true) : s.expects k = true := by
  unfold OpensSimple at h
  unfold State.expects
  split at h <;> rename_i hm
  · rw [hm, hk, Bool.or_true]
  · rw [hm, hk, Bool.or_true, Bool.true_or]
  · rw [hm, hk]
  · rw [hm]
    rw [startsArgument_of_startsSimple hk, Bool.true_or]
  · exact h.elim

theorem exists_startSimple (ht : startsSimple t.terminal = true) :
    ∃ s', s.startSimple file t fs = some s' := by
  unfold startSimple
  split
  all_goals first
    | exact ⟨_, rfl⟩
    | skip
  rename_i h₁ h₂ h₃ h₄ h₅ h₆ h₇ h₈
  unfold startsSimple at ht
  split at ht
  all_goals contradiction

/-- The first token of a simple expression. -/
theorem OpensSimple.shift (h : s.OpensSimple word fs) (ht : startsSimple t.terminal = true)
    (hw : t.terminal = .longName → word = some (String.ofList t.text)) :
    s.shift file t = s.startSimple file t fs := by
  have hstart : ∃ s', s.startSimple file t fs = some s' := exists_startSimple ht
  obtain ⟨s', hs⟩ := hstart
  have hexpr : s.startExpression file t fs = s.startSimple file t fs := by
    unfold startExpression
    split
    · rename_i hk
      rw [hk] at ht
      cases ht
    · rfl
  unfold OpensSimple at h
  unfold State.shift
  split at h <;> rename_i hm
  · obtain ⟨rfl, hlet⟩ := h
    rw [hm]
    have hnot : (t.terminal == .longName && t.text == ['l', 'e', 't']) = false := by
      rw [Bool.and_eq_false_imp]
      intro hk
      rw [hw (beq_iff_eq.mp hk)] at hlet
      rw [beq_eq_false_iff_ne]
      intro he
      rw [he] at hlet
      exact hlet rfl
    simp only [hnot, Bool.false_eq_true, if_false, hexpr]
  · subst h
    rw [hm]
    simp only [hexpr, hs]
  · subst h
    rw [hm]
  · subst h
    rw [hm]
    unfold continueApplication
    dsimp only
    split
    all_goals first
      | (rename_i hk; rw [hk] at ht; cases ht)
      | rw [hs]
  · exact h.elim

/-- The first token of an expression, if it is a sign. -/
theorem OpensExpression.shift_sign (h : s.OpensExpression word fs) (ht : t.terminal = .sign) :
    s.shift file t =
      some { s with frames := fs, mode := .signed t.first (t.text == ['-']) } := by
  unfold OpensExpression at h
  unfold State.shift
  split at h <;> rename_i hm
  · obtain ⟨rfl, -⟩ := h
    rw [hm]
    simp only [startExpression, ht]
    rfl
  · subst h
    rw [hm]
    simp only [startExpression, ht]
  · exact h.elim

theorem OpensExpression.expects_sign (h : s.OpensExpression word fs) :
    s.expects .sign = true := by
  unfold OpensExpression at h
  unfold State.expects
  split at h <;> rename_i hm
  · rw [hm]
    rfl
  · rw [hm]
    rfl
  · exact h.elim

/-! ## Complete expressions -/

theorem complete_congr {b : State} (hs : s.statements = b.statements) (hf : s.fault = b.fault)
    (e : Spanned Expr) (fs : List Frame) : s.complete e fs = b.complete e fs := by
  unfold complete
  split <;> rw [hs, hf]

/-- The operand that is complete but for what follows it. -/
def operand? (file : String) (s : State) : Option (Spanned Expr) :=
  match s.mode with
  | .applied f args last => some (application file f args last)
  | .number e => some e
  | _ => none

theorem endsOperand_of_operator? {op : Operator} (h : operator? t = some op) :
    endsOperand t.terminal = true := by
  unfold operator? at h
  split at h
  all_goals first
    | (rename_i hk; rw [hk]; rfl)
    | cases h

theorem expects_of_operand? {o : Spanned Expr} {k : Terminal} (h : s.operand? file = some o)
    (hk : endsOperand k = true) : s.expects k = true := by
  unfold operand? at h
  unfold State.expects
  split at h <;> rename_i hm
  · rw [hm, hk, Bool.or_true]
  · rw [hm, hk]
  · cases h

theorem shift_of_operand? {o : Spanned Expr} (h : s.operand? file = some o)
    (ht : endsOperand t.terminal = true) : s.shift file t = s.endExpression file t o := by
  unfold operand? at h
  unfold State.shift
  split at h <;> rename_i hm
  · cases h
    rw [hm]
    have hnone : ∀ frames, s.startSimple file t frames = none := by
      intro frames
      unfold startSimple
      split
      all_goals first
        | rfl
        | (rename_i hk; rw [hk] at ht; cases ht)
    unfold continueApplication
    dsimp only
    split
    all_goals first
      | (rename_i hk; rw [hk] at ht; cases ht)
      | rw [hnone]
  · cases h
    rw [hm]
  · cases h

/-- What follows an operand finds the same, if closing the open operators leaves the same. -/
theorem endExpression_congr {b : State} {t : Token} {o e : Spanned Expr} {fs : List Frame}
    (hs : s.statements = b.statements) (hf : s.fault = b.fault)
    (hop : ∀ op, operator? t = some op →
      settle file (closingLevel op) o s.frames =
        settle file (closingLevel op) e fs)
    (hend : settle file 1 o s.frames = settle file 1 e fs) :
    s.endExpression file t o = { b with frames := fs }.endExpression file t e := by
  unfold endExpression
  split
  · rename_i op hop'
    rw [hop op hop']
    simp only [hs, hf]
  · simp only [hend, hs, hf]
    split <;> first
      | rfl
      | (congr 1; exact complete_congr hs hf _ _)

end State
end MessageLang
