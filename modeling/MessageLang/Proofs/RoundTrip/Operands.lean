import MessageLang.Proofs.Grammar.Reading
import MessageLang.Proofs.Grammar.Starts
import MessageLang.Proofs.Syntax.Bare
import MessageLang.Proofs.Syntax.Text
/-!
# What expressions leave

Where an expression ends, all the rest of the state is what it was: the places aside, the state
holds the expression over the constructs that were open before it.

* `Holds`: what an expression leaves. Operators of it may still be open, but they are closed before
  what was open below them is touched.
* `Holds.shift`: the next token finds the expression complete.
-/
namespace MessageLang

namespace Reads

variable {file : String} {s : State} {P Q : State → Prop} {stop : List Char → Prop}
  {v w : List Char}

/-- A blank before a text that starts with none. -/
theorem cons_blank {b c : Char} (hb : Terminal.isBlank b = true)
    (h : Reads file (c :: w) stop s P) (hc : Terminal.isBlank c = false) :
    Reads file (b :: c :: w) stop s P := by
  refine (blank (P := fun s' => s' = s) hb rfl).append (fun s' hs => hs ▸ h) fun rest _ d hd => ?_
  cases hd
  exact hc

theorem cons_space {c : Char} (h : Reads file (c :: w) stop s P)
    (hc : Terminal.isBlank c = false) : Reads file (' ' :: c :: w) stop s P :=
  cons_blank rfl h hc

/-- A space before a text with a plain start. -/
theorem cons_space_plain (h : Reads file w stop s P) (hw : StartsPlain w) :
    Reads file (' ' :: w) stop s P := by
  obtain ⟨c, tail, rfl, hc, -⟩ := hw
  exact h.cons_space hc

/-- A token before a text. -/
theorem cons_token {t : Terminal} (hv : t.IsLexeme v) (ha : s.expects t = true)
    (hs : ∀ p q, ∃ s', s.shift file ⟨t, v, p, q⟩ = some s' ∧ Q s')
    (h : ∀ s', Q s' → Reads file w stop s' P) (hf : ∀ rest, stop rest → t.Follows (w ++ rest)) :
    Reads file (v ++ w) stop s P :=
  (token hv ha hs).append h hf

end Reads

/-! ## Levels -/

/-- Closing from level `k` on closes all operators that need no parentheses at a print level. -/
def Closes (level k : Nat) : Prop := ∀ op : Operator, level ≤ op.printLevel → k ≤ op.level

/-- An operator of a print level closes none of the open constructs, and neither is one of these an
argument that waits. -/
def IsClear (level : Nat) : List Frame → Prop
  | .argument _ _ _ :: _ => False
  | .binary _ op :: _ =>
    ∀ op' : Operator, level ≤ op'.printLevel → op.level < State.closingLevel op'
  | _ => True

theorem closes_one (level : Nat) : Closes level 1 := by
  intro op _
  cases op <;> decide

theorem Closes.mono {level level' k : Nat} (h : Closes level k) (hle : level ≤ level') :
    Closes level' k := fun op hop => h op (Nat.le_trans hle hop)

theorem IsClear.mono {level level' : Nat} {fs : List Frame} (h : IsClear level fs)
    (hle : level ≤ level') : IsClear level' fs := by
  unfold IsClear at h ⊢
  split at h
  · exact h
  · exact fun op hop => h op (Nat.le_trans hle hop)
  · trivial

/-- On the right of an operator only operators stand that bind tighter, or as tight if it associates
to the right. -/
theorem isClear_binary (left : Spanned Expr) (op : Operator) (fs : List Frame) :
    IsClear op.rightLevel (.binary left op :: fs) := by
  intro op' h
  cases op <;> cases op' <;> revert h <;> decide

/-- The left operand of an operator is complete before the operator is read. -/
theorem closes_closingLevel (op : Operator) : Closes op.leftLevel (State.closingLevel op) := by
  intro op' h
  cases op <;> cases op' <;> revert h <;> decide

theorem printLevel_le_leftLevel (op : Operator) : op.printLevel ≤ op.leftLevel := by
  cases op <;> decide

theorem printLevel_le_rightLevel (op : Operator) : op.printLevel ≤ op.rightLevel := by
  cases op <;> decide

theorem rightLevel_le_applyLevel (op : Operator) : op.rightLevel ≤ Expr.applyLevel := by
  cases op <;> decide

theorem leftLevel_le_applyLevel (op : Operator) : op.leftLevel ≤ Expr.applyLevel := by
  cases op <;> decide

/-- An operator of a print level leaves what is open as it is. -/
theorem IsClear.settle {file : String} {level : Nat} {fs : List Frame} (h : IsClear level fs)
    {op : Operator} (hop : level ≤ op.printLevel) (e : Spanned Expr) :
    State.settle file (State.closingLevel op) e fs = (e, fs) := by
  unfold State.settle
  split
  · rw [if_neg]
    exact Nat.not_le_of_lt (h op hop)
  · rfl

/-- What is open holds no operator on top. -/
def IsBracket : List Frame → Prop
  | .binary _ _ :: _ | .argument _ _ _ :: _ => False
  | _ => True

theorem IsBracket.isClear {fs : List Frame} (h : IsBracket fs) (level : Nat) :
    IsClear level fs := by
  unfold IsClear
  split
  · exact h
  · exact h.elim
  · trivial

/-! ## What an expression leaves -/

/-- The state `s'` holds the operand `node` over the open constructs `fs`, and for the rest what the
state `s` held: closing the operators of a print level leaves `node`. -/
structure Holds (file : String) (level : Nat) (fs : List Frame) (node : Expr) (s s' : State) :
    Prop where
  statements : s'.statements = s.statements
  fault : s'.fault = s.fault
  operand : ∃ o e, s'.operand? file = some o ∧ e.node.bare = node ∧
    ∀ k, Closes level k → State.settle file k o s'.frames = State.settle file k e fs

section Holds

variable {file : String} {level : Nat} {fs : List Frame} {node : Expr} {s s' : State}

theorem Holds.expects (h : Holds file level fs node s s') {k : Terminal}
    (hk : State.endsOperand k = true) : s'.expects k = true := by
  obtain ⟨o, e, ho, -⟩ := h.operand
  exact State.expects_of_operand? ho hk

/-- The next token finds the expression complete. -/
theorem Holds.shift (h : Holds file level fs node s s') :
    ∃ e : Spanned Expr, e.node.bare = node ∧ ∀ t : Token, State.endsOperand t.terminal = true →
      (∀ op, State.operator? t = some op → Closes level (State.closingLevel op)) →
      s'.shift file t = { s with frames := fs }.endExpression file t e := by
  obtain ⟨o, e, ho, he, hclose⟩ := h.operand
  refine ⟨e, he, fun t ht hop => ?_⟩
  rw [State.shift_of_operand? ho ht]
  exact State.endExpression_congr h.statements h.fault (fun op hop' => hclose _ (hop op hop'))
    (hclose 1 (closes_one level))

end Holds
end MessageLang
