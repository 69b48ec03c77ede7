import MessageLang.Proofs.Evaluation.Conversions
import MessageLang.Proofs.Grammar.Trees
import MessageLang.Proofs.Syntax.Code
/-!
# Literals are converted

Every literal has a value that the converter of its kind takes: what the lexer and the decoding of
literals let through is what conversion asks for.

Results:
* `Constant.IsLiteral.exists_hasText`: the value of a literal and the text that it is converted to.
* `Constant.HasText.eval_converted`: the code that converts such a constant has this text as an
  atom.
* `constant_converted`: this for every literal of a text that is read.
-/
namespace MessageLang

/-- A text is what a constant is converted to: the decimal numeral of an integer in the range of its
kind, the one character of a character literal, the decoded text of a string, the digits of a
double. -/
inductive Constant.HasText : Constant → String → Prop where
  | integer {k : IntegerKind} {n : Int} {spelling : Option String} {l : Option Location} :
    k.least ≤ n → n ≤ k.greatest →
    HasText ⟨.int n, some (.integer k), spelling, l⟩ (decimalInt n)
  | char {c : Char} {spelling : Option String} {l : Option Location} :
    HasText ⟨.str (String.ofList [c]), some .char, spelling, l⟩ (String.ofList [c])
  | string {text : String} {spelling : Option String} {l : Option Location} :
    HasText ⟨.str text, some .string, spelling, l⟩ text
  | float {x : Double} {spelling : Option String} {l : Option Location} :
    HasText ⟨.float x, some .float, spelling, l⟩ x.toExactText

namespace Literal

/-- What a kind takes of a number is in its range. -/
theorem holds_of_inKind {k : IntegerKind} {radix : Nat} {n m : Int}
    (h : inKind k radix n = .ok m) : k.least ≤ m ∧ m ≤ k.greatest := by
  simp only [inKind] at h
  split at h
  · rename_i hholds
    cases h
    simpa [IntegerKind.holds] using hholds
  · cases h

/-- The value of an integer lexeme is one that its kind takes. -/
theorem exists_inKind {negative : Bool} {text : List Char} {k : IntegerKind} {n : Int}
    (h : integerValue negative text = .ok (k, n)) : ∃ radix m, inKind k radix m = .ok n := by
  simp only [integerValue, bind, Except.bind, pure, Except.pure] at h
  split at h
  · cases h
  · split at h
    · cases h
    · rename_i hk
      cases h
      exact ⟨_, _, hk⟩

end Literal

namespace Constant

variable {c : Constant} {text : String} {env : Environment}

/-- A literal has a text that it is converted to. -/
theorem IsLiteral.exists_hasText (h : c.IsLiteral) : ∃ text, c.HasText text := by
  cases h with
  | integer _ hc =>
    obtain ⟨k, n, heq, hv⟩ := Literal.integer_ok hc
    obtain ⟨radix, m, hk⟩ := Literal.exists_inKind hv
    obtain ⟨hleast, hgreatest⟩ := Literal.holds_of_inKind hk
    rw [heq]
    exact ⟨_, .integer hleast hgreatest⟩
  | float => exact ⟨_, .float⟩
  | string => exact ⟨_, .string⟩
  | char => exact ⟨_, .char⟩

/-- The converter of a constant's kind takes its value. -/
theorem HasText.convert_eq (h : c.HasText text) :
    ∃ k, c.kind = some k ∧ k.scalar.convert c.value = .ok (.atom text) := by
  cases h with
  | @integer k n _ _ hleast hgreatest =>
    exact ⟨.integer k, rfl, ((Scalar.integer k).decides_convert (.int n) trivial).1
      ⟨hleast, hgreatest⟩⟩
  | @char c =>
    have hone : (String.ofList [c]).length = 1 := by
      rw [String.length_ofList, List.length_singleton]
    exact ⟨.char, rfl, (Scalar.char.decides_convert (.str _) trivial).1 hone⟩
  | string => exact ⟨.string, rfl, rfl⟩
  | float => exact ⟨.float, rfl, rfl⟩

/-- The code that converts a constant with a text has this text as an atom. -/
theorem HasText.eval_converted (h : c.HasText text) (henv : env.HasBuiltins)
    (l : Option Location) :
    ∃ code, c.converted l = .ok code ∧ code.eval env = .ok (.atom text) env := by
  obtain ⟨k, hk, hcall⟩ := h.convert_eq
  have hconstant : (Expr.constant c).eval env = .ok c.value env := rfl
  refine ⟨_, by rw [converted, hk], eval_call_of_ok
    (eval_identifier (henv.isStandard.constant k)) hconstant rfl hcall l⟩

end Constant

/-- Every literal of a text that is read, as a program or as a single expression, is converted to
the atom of its text. -/
theorem constant_converted {file source : String} {c : Constant}
    (h : (∃ p, Program.parse file source = .ok p ∧ .constant c ∈ p.parts) ∨
      ∃ e, Expr.parse file source = .ok e ∧ .constant c ∈ e.parts)
    {env : Environment} (henv : env.HasBuiltins) (l : Option Location) :
    ∃ code text, c.converted l = .ok code ∧ code.eval env = .ok (.atom text) env ∧
      c.HasText text := by
  have hread : (Expr.constant c).IsReadable := by
    rcases h with ⟨p, hp, hc⟩ | ⟨e, he, hc⟩
    · exact (Program.parse_isReadable hp).of_mem_parts hc
    · exact (Expr.parse_isReadable he).all _ hc
  cases hread with
  | constant hliteral =>
    obtain ⟨text, htext⟩ := hliteral.exists_hasText
    obtain ⟨code, hcode, heval⟩ := htext.eval_converted henv l
    exact ⟨code, text, hcode, heval, htext⟩

/-- The constant that an expression is. -/
def Expr.constant? : Expr → Option Constant
  | .constant c => some c
  | _ => none

theorem Expr.eq_of_constant? {e : Expr} {c : Constant} (h : e.constant? = some c) :
    e = .constant c := by
  unfold Expr.constant? at h
  split at h
  · rw [Option.some.inj h]
  · cases h

/-- A hexadecimal literal behind a minus sign fills the width of its kind, and is converted as the
number that it wraps around to. -/
theorem constant_converted_wrapped : ∃ p c code,
    Program.parse "a.ml" "f (-0xFFFF_FFFFl);" = .ok p ∧ .constant c ∈ p.parts ∧
      c.converted none = .ok code ∧
      code.eval Environment.initial = .ok (.atom "1") Environment.initial := by
  have hok : (Program.parse "a.ml" "f (-0xFFFF_FFFFl);").toOption.any (fun p =>
      (p.parts.filterMap Expr.constant?).any fun c =>
        c.kind == some (.integer .int32) && c.value.integral? == some 1) = true := by
    decide +kernel
  obtain ⟨p, hp, hany⟩ := exists_ok_of_any hok
  simp only [List.any_eq_true, Bool.and_eq_true, beq_iff_eq] at hany
  obtain ⟨c, hc, hkind, hvalue⟩ := hany
  obtain ⟨e, he, hconstant⟩ := List.mem_filterMap.mp hc
  have hmem : .constant c ∈ p.parts := Expr.eq_of_constant? hconstant ▸ he
  obtain ⟨code, text, hcode, heval, htext⟩ :=
    constant_converted (.inl ⟨p, hp, hmem⟩) Environment.hasBuiltins_initial none
  cases htext with
  | integer =>
    cases hvalue
    exact ⟨p, _, code, hp, hmem, hcode, heval⟩
  | char | string | float => cases hkind

end MessageLang
