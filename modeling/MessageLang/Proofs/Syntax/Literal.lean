import MessageLang.Proofs.Text.Escape
import MessageLang.Syntax.Literal
/-!
# Literals and their constants

* `Constant.IsLiteral`: the constants that literals stand for.
* `Literal.integer_ok`, `Literal.quoted_ok`: what the constant of a lexeme is.
* `Literal.integer_move`: it hangs on the place in nothing but its location.
-/
namespace MessageLang

/-- A constant that a literal stands for at the constant's place. -/
inductive Constant.IsLiteral : Constant → Prop where
  | integer {c : Constant} {negative : Bool} {text : List Char} :
    Terminal.IsInteger text → Literal.integer negative text c.location = .ok c → IsLiteral c
  | float {negative : Bool} {text : List Char} {l : Option Location} :
    Terminal.IsFloat text → IsLiteral (Literal.float negative text l)
  | string {text : String} {l : Option Location} : IsLiteral ⟨.str text, some .string, none, l⟩
  | char {c : Char} {l : Option Location} :
    IsLiteral ⟨.str (String.ofList [c]), some .char, none, l⟩

namespace Literal

section

variable {negative : Bool} {text : List Char} {l : Option Location} {c : Constant}

theorem integer_ok (h : integer negative text l = .ok c) :
    ∃ kind n, c = ⟨.int n, some (.integer kind), some (spelling negative text), l⟩ ∧
      integerValue negative text = .ok (kind, n) := by
  unfold integer at h
  cases hv : integerValue negative text with
  | error e =>
    rw [hv] at h
    cases h
  | ok v =>
    rw [hv] at h
    cases h
    exact ⟨v.1, v.2, rfl, rfl⟩

/-- A literal is read at one place as at any other. -/
theorem integer_move {l' : Option Location} (h : integer negative text l = .ok c) :
    integer negative text l' = .ok { c with location := l' } := by
  obtain ⟨kind, n, rfl, hv⟩ := integer_ok h
  unfold integer
  rw [hv]
  rfl

theorem isLiteral_of_integer (ht : Terminal.IsInteger text)
    (h : integer negative text l = .ok c) : c.IsLiteral := by
  have hl : integer negative text c.location = .ok c := by
    obtain ⟨kind, n, rfl, -⟩ := integer_ok h
    exact h
  exact .integer ht hl

end

theorem quoted_ok {kind : LiteralKind} {text : List Char} {l : Option Location} {c : Constant}
    (h : quoted kind text l = .ok c) :
    ∃ chars, Text.Escape.decode (between text) = .ok chars ∧
      c = ⟨.str (String.ofList chars), some kind, none, l⟩ := by
  unfold quoted at h
  split at h
  · rename_i chars hd
    cases h
    exact ⟨chars, hd, rfl⟩
  · cases h

theorem between_quotes (q : Char) (body : List Char) : between (q :: (body ++ [q])) = body := by
  rw [between, List.drop_succ_cons, List.drop_zero, List.dropLast_concat]

end Literal
end MessageLang
