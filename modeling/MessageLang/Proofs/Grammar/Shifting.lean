import MessageLang.Proofs.Grammar.Derivation
import MessageLang.Proofs.Grammar.Starts
/-!
# Shifting lists of tokens

What the two directions share: the state after a list of tokens, the bad literals it remembers, and
the levels of the expressions that may stand over what is open.

* `State.shiftAll`: the state after a list of tokens.
* `State.blamed`: a state that has met bad literals.
* `Takes`: an expression of a level may stand over the open constructs.
-/
namespace MessageLang

variable {file : String} {t : Token} {l : Nat} {fs : List Frame}

/-! ## Levels -/

/-- An expression of a level may stand over the open constructs; simple ones have level 6. -/
def Takes (l : Nat) : List Frame → Prop
  | .binary _ op :: _ => op.rightOperand ≤ l
  | .argument _ _ _ :: _ => 6 ≤ l
  | .constraint _ _ :: _ | .typeParen _ :: _ | .typeTuple _ _ :: _ | [] => False
  | _ => 1 ≤ l

theorem Takes.mono {l' : Nat} (h : Takes l fs) (hl : l ≤ l') : Takes l' fs := by
  unfold Takes at h ⊢
  split at h
  · exact Nat.le_trans h hl
  · exact Nat.le_trans h hl
  · exact h
  · exact h
  · exact h
  · exact h
  · exact Nat.le_trans h hl

theorem Operator.level_le_rightOperand (op : Operator) : op.level ≤ op.rightOperand := by
  cases op <;> decide

theorem Operator.level_le_leftOperand (op : Operator) : op.level ≤ op.leftOperand := by
  cases op <;> decide

theorem Operator.rightOperand_le (op : Operator) : op.rightOperand ≤ 4 := by
  cases op <;> decide

theorem Operator.leftOperand_le (op : Operator) : op.leftOperand ≤ 3 := by
  cases op <;> decide

theorem Operator.one_le_level (op : Operator) : 1 ≤ op.level := by
  cases op <;> decide

/-- An operator stands in the operand of another exactly if it does not close it. -/
theorem Operator.rightOperand_le_level_iff (op op' : Operator) :
    op.rightOperand ≤ op'.level ↔ op.level < op'.leftOperand := by
  cases op <;> cases op' <;> decide

/-- A derivation at a level is one at every lower level. -/
theorem Derives.mono {l' : Nat} {e : Spanned Expr} {ts : List Token} {bad : List BadLiteral}
    (h : Derives file (.expr l' e) ts bad) (hl : l ≤ l') : Derives file (.expr l e) ts bad := by
  induction hl with
  | refl => exact h
  | step _ ih => exact ih h.level

namespace State

variable {s : State}

theorem closingLevel_eq (op : Operator) : closingLevel op = op.leftOperand := by
  cases op <;> rfl

/-- An operator that may stand over the open constructs closes none of them. -/
theorem settle_of_takes {op : Operator} (h : Takes op.level fs) (e : Spanned Expr) :
    settle file op.leftOperand e fs = (e, fs) := by
  unfold settle
  split
  · rw [if_neg]
    exact Nat.not_le_of_lt ((Operator.rightOperand_le_level_iff _ _).mp h)
  · rfl

/-! ## Bad literals -/

/-- A state that has met bad literals: the first of them all counts. -/
def blamed (s : State) (bad : List BadLiteral) : State := { s with fault := s.fault.or bad.head? }

theorem blamed_nil (s : State) : s.blamed [] = s := by
  simp only [blamed, List.head?_nil, Option.or_none]

theorem blamed_append (s : State) (bad bad' : List BadLiteral) :
    s.blamed (bad ++ bad') = (s.blamed bad).blamed bad' := by
  simp only [blamed, List.head?_append, Option.or_assoc]

/-- Decoding a literal leaves the state with the faults of the literal. -/
theorem decoded_fst (s : State) (location : Location) (decode : Literal.Decoder) :
    (s.decoded location (decode (some location))).1 =
      s.blamed (Literal.faults decode location) := by
  unfold Literal.faults
  cases decode (some location) with
  | ok c =>
    rw [blamed_nil]
    rfl
  | error e =>
    simp only [decoded, blame, blamed, List.head?_cons]
    cases s.fault <;> rfl

/-- Decoding a literal gives the constant that stands for it. -/
theorem decoded_snd (s : State) (location : Location) (decode : Literal.Decoder) :
    (s.decoded location (decode (some location))).2 = Literal.standing decode location := by
  unfold Literal.standing
  cases decode (some location) <;> rfl

/-! ## Lists of tokens -/

/-- The state after a list of tokens. -/
def shiftAll (file : String) (s : State) (ts : List Token) : Option State :=
  ts.foldlM (shift file) s

theorem shiftAll_cons (s : State) (t : Token) (ts : List Token) :
    shiftAll file s (t :: ts) = (s.shift file t).bind fun s' => shiftAll file s' ts := rfl

theorem shiftAll_append (s : State) (ts ts' : List Token) :
    shiftAll file s (ts ++ ts') = (shiftAll file s ts).bind fun s' => shiftAll file s' ts' :=
  List.foldlM_append

/-- One token more at the start. -/
theorem shiftAll_cons_of {s' : State} {ts : List Token} (h : s.shift file t = some s') :
    shiftAll file s (t :: ts) = shiftAll file s' ts := by
  rw [shiftAll_cons, h, Option.bind_some]

theorem shiftAll_append_of {s' : State} {ts ts' : List Token} (h : shiftAll file s ts = some s') :
    shiftAll file s (ts ++ ts') = shiftAll file s' ts' := by
  rw [shiftAll_append, h, Option.bind_some]

theorem shiftAll_singleton (s : State) (t : Token) : shiftAll file s [t] = s.shift file t := by
  rw [shiftAll_cons]
  cases s.shift file t <;> rfl

/-! ## Literals -/

theorem startsSimple_of_literal? {decode : Literal.Decoder}
    (h : t.literal? = some decode) : startsSimple t.terminal = true ∧ t.terminal ≠ .longName := by
  unfold Token.literal? Token.number? at h
  split at h
  · rename_i hk
    rw [hk]
    decide
  · rename_i hk
    rw [hk]
    decide
  · split at h
    · rename_i hk
      rw [hk]
      decide
    · rename_i hk
      rw [hk]
      decide
    · cases h

/-- A token that is a literal is a simple expression. -/
theorem startSimple_literal {decode : Literal.Decoder}
    (h : t.literal? = some decode) :
    s.startSimple file t fs =
      some ((s.blamed (Literal.faults decode (t.region file))).complete
        ⟨Literal.standing decode (t.region file), t.first, t.last⟩ fs) := by
  rw [← decoded_fst s, ← decoded_snd s]
  unfold Token.literal? Token.number? at h
  unfold startSimple
  split at h
  · rename_i hk
    cases h
    rw [hk]
    rfl
  · rename_i hk
    cases h
    rw [hk]
    rfl
  · split at h
    · rename_i hk
      cases h
      rw [hk]
      rfl
    · rename_i hk
      cases h
      rw [hk]
      rfl
    · cases h

/-- After a sign only a number is taken. -/
theorem signedNumber_eq (first : Position) (negative : Bool) :
    s.signedNumber file t first negative = (t.number? negative).map fun decode =>
      let location := Location.between file first t.last
      { s.blamed (Literal.faults decode location) with
        mode := .number ⟨Literal.standing decode location, first, t.last⟩ } := by
  unfold signedNumber Token.number?
  simp only [← decoded_fst s, ← decoded_snd s]
  cases t.terminal <;> rfl

end State
end MessageLang
