import MessageLang.Proofs.Grammar.Reading
import MessageLang.Proofs.Syntax.Literal
/-!
# Texts between quotes are literals

A text that is escaped and put between quotes is one lexeme, whatever follows, and its literal
stands for the text.

* `Literal.quote`: a text between quotes.
* `Terminal.IsLexeme.width_append_of_starts`: a lexeme whose first character no other class starts
  with.
* `Literal.quotes_undone`: every string between double quotes, every character between single ones.
-/
namespace MessageLang

/-- A closed lexeme is one of its own class only, if its first character starts no other. -/
theorem Terminal.IsLexeme.width_append_of_starts {t : Terminal} {c : Char} {w : List Char}
    (h : t.IsLexeme (c :: w)) (ht : t.isClosed = true) (hs : ∀ s, s.starts c = true → s = t)
    (rest : List Char) (s : Terminal) :
    s.width (c :: w ++ rest) = if s = t then (c :: w).length else 0 := by
  split
  · rename_i heq
    subst heq
    exact h.width_append_of_isClosed ht rest
  · rename_i hne
    exact width_eq_zero (Bool.eq_false_iff.mpr fun hc => hne (hs s hc))

namespace Literal

/-- A text as it is written between quotes. -/
def quote (q : Char) (text : String) : List Char :=
  q :: ((Text.Escape.encode q text).toList ++ [q])

theorem isLexeme_quote_string (text : String) : Terminal.string.IsLexeme (quote '"' text) :=
  ⟨_, rfl, Text.Escape.isStringRest_encode text⟩

theorem isLexeme_quote_char (c : Char) :
    Terminal.char.IsLexeme (quote '\'' (String.ofList [c])) := by
  refine ⟨_, rfl, ?_⟩
  rw [Text.Escape.toList_encode_singleton]
  exact Text.Escape.isCharBody_encodeChar c

/-- What stands between quotes is decoded to the text that was written there. -/
theorem quoted_quote {q : Char} (hq : q = '"' ∨ q = '\'') (kind : LiteralKind) (text : String)
    (l : Option Location) : quoted kind (quote q text) l = .ok ⟨.str text, some kind, none, l⟩ := by
  rw [quoted, quote, between_quotes, Text.Escape.decode_encode hq]
  simp only [String.ofList_toList]

/-- A string between double quotes is a string lexeme and no other, whatever follows, and stands for
itself; so is a character between single quotes. -/
theorem quotes_undone (rest : List Char) (l : Option Location) :
    (∀ text : String,
      (∀ t : Terminal, t.width (quote '"' text ++ rest) =
        if t = .string then (quote '"' text).length else 0) ∧
      quoted .string (quote '"' text) l = .ok ⟨.str text, some .string, none, l⟩) ∧
    ∀ c : Char,
      (∀ t : Terminal, t.width (quote '\'' (String.ofList [c]) ++ rest) =
        if t = .char then (quote '\'' (String.ofList [c])).length else 0) ∧
      quoted .char (quote '\'' (String.ofList [c])) l =
        .ok ⟨.str (String.ofList [c]), some .char, none, l⟩ := by
  have hstring : ∀ s : Terminal, s.starts '"' = true → s = .string := by
    intro s
    cases s <;> decide
  have hchar : ∀ s : Terminal, s.starts '\'' = true → s = .char := by
    intro s
    cases s <;> decide
  constructor
  · intro text
    exact ⟨(isLexeme_quote_string text).width_append_of_starts rfl hstring rest,
      quoted_quote (.inl rfl) .string text l⟩
  · intro c
    exact ⟨(isLexeme_quote_char c).width_append_of_starts rfl hchar rest,
      quoted_quote (.inr rfl) .char (String.ofList [c]) l⟩

example : quote '"' "a\"\\1\n\x01" = "\"a\\\"\\\\1\\n\\001\"".toList := by decide +kernel

end Literal
end MessageLang
