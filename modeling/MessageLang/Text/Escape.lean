import MessageLang.Decimal.Digits
/-!
# Escapes in string and character literals

* `Escape.encode quote`: how the characters of a literal are written between quotes.
* `Escape.decode`: what the characters between the quotes of a literal stand for. A decimal escape
  above 255 is refused; an unknown escape stands for itself.
-/
namespace MessageLang.Text.Escape

/-- A character as it is written in a literal with the given quote. -/
def encodeChar (quote c : Char) : List Char :=
  if c == quote then ['\\', c]
  else match c with
    | '\\' => ['\\', '\\']
    | '\n' => ['\\', 'n']
    | '\t' => ['\\', 't']
    | '\r' => ['\\', 'r']
    | '\x08' => ['\\', 'b']
    | _ =>
      if c.toNat < 32 || c.toNat == 127 then '\\' :: (paddedNat 3 c.toNat).toList else [c]

/-- The characters of a literal, without the quotes around them. -/
def encode (quote : Char) (text : String) : String :=
  String.ofList (text.toList.flatMap (encodeChar quote))

/-- The escapes of one letter. -/
def letter? : Char → Option Char
  | '\\' => some '\\'
  | '"' => some '"'
  | '\'' => some '\''
  | 'n' => some '\n'
  | 't' => some '\t'
  | 'b' => some '\x08'
  | 'r' => some '\r'
  | ' ' => some ' '
  | _ => none

/-- The value of a hexadecimal digit. -/
def hexValue? (c : Char) : Option Nat :=
  if '0' ≤ c && c ≤ '9' then some (c.toNat - '0'.toNat)
  else if 'a' ≤ c && c ≤ 'f' then some (c.toNat - 'a'.toNat + 10)
  else if 'A' ≤ c && c ≤ 'F' then some (c.toNat - 'A'.toNat + 10)
  else none

/-- The value of a decimal digit. -/
def digitValue? (c : Char) : Option Nat :=
  if '0' ≤ c && c ≤ '9' then some (c.toNat - '0'.toNat) else none

/-- `\ddd` at the head of the text behind a backslash. -/
def decimal? : List Char → Option (Nat × List Char)
  | a :: b :: c :: rest => do
    let x ← digitValue? a
    let y ← digitValue? b
    let z ← digitValue? c
    return (100 * x + 10 * y + z, rest)
  | _ => none

/-- `\xhh` at the head of the text behind a backslash. -/
def hexadecimal? : List Char → Option (Nat × List Char)
  | 'x' :: a :: b :: rest => do
    let x ← hexValue? a
    let y ← hexValue? b
    return (16 * x + y, rest)
  | _ => none

/-- Whether a character is skipped at the start of a line behind a backslash and a line break. -/
def isIndent (c : Char) : Bool := c == ' ' || c == '\t'

/-- One escape, at the head of the text behind its backslash: what it stands for and the text that
follows. The failure is a decimal escape above 255, as it is written. -/
def step (c : Char) (rest : List Char) : Except String (List Char × List Char) :=
  if c == '\n' then .ok ([], rest.dropWhile isIndent)
  else match decimal? (c :: rest) with
    | some (code, after) =>
      if code ≤ 255 then .ok ([Char.ofNat code], after) else .error (paddedNat 3 code)
    | none => match hexadecimal? (c :: rest) with
      | some (code, after) => .ok ([Char.ofNat code], after)
      | none => match letter? c with
        | some d => .ok ([d], rest)
        | none => .ok (['\\', c], rest)

theorem length_decimal?_lt {cs rest : List Char} {n : Nat} (h : decimal? cs = some (n, rest)) :
    rest.length < cs.length := by
  unfold decimal? at h
  split at h <;> simp [bind, Option.bind] at h
  repeat' split at h <;> simp at h
  obtain ⟨-, rfl⟩ := h
  simp only [List.length_cons]; omega

theorem length_hexadecimal?_lt {cs rest : List Char} {n : Nat}
    (h : hexadecimal? cs = some (n, rest)) : rest.length < cs.length := by
  unfold hexadecimal? at h
  split at h <;> simp [bind, Option.bind] at h
  repeat' split at h <;> simp at h
  obtain ⟨-, rfl⟩ := h
  simp only [List.length_cons]; omega

/-- An escape is used up: what follows it is no longer than the text behind its first character. -/
theorem length_step_le {c : Char} {rest out after : List Char}
    (h : step c rest = .ok (out, after)) : after.length ≤ rest.length := by
  unfold step at h
  split at h
  · cases h; exact (List.dropWhile_suffix _).length_le
  · split at h
    · rename_i hd
      split at h <;> cases h
      exact Nat.le_of_lt_succ (length_decimal?_lt hd)
    · split at h
      · rename_i hx
        cases h
        exact Nat.le_of_lt_succ (length_hexadecimal?_lt hx)
      · split at h <;> cases h <;> exact Nat.le_refl _

/-- The text that stands between the quotes of a literal, decoded; a backslash at its very end
stands for itself. -/
def decode : List Char → Except String (List Char)
  | [] => .ok []
  | ['\\'] => .ok ['\\']
  | '\\' :: c :: rest =>
    match h : step c rest with
    | .ok (out, after) =>
      have : after.length ≤ rest.length := length_step_le h
      return out ++ (← decode after)
    | .error digits => .error digits
  | c :: rest => return c :: (← decode rest)
termination_by cs => cs.length
decreasing_by all_goals simp only [List.length_cons]; omega

end MessageLang.Text.Escape
