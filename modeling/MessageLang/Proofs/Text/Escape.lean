import MessageLang.Proofs.Grammar.Lexeme
import MessageLang.Text.Escape
/-!
# Escapes are undone

What `encode` writes between quotes is a lexeme there, and `decode` reads it back.

* `decode_encode`: an encoded text stands for the text.
* `isStringRest_encode`, `isCharBody_encodeChar`: it is a lexeme between its quotes.
* `decode_charBody`: what stands between the quotes of a character literal is one character.
* `decode_eq_error_iff`: the texts that are refused.
-/
namespace MessageLang.Text.Escape

/-! ## One step of decoding -/

theorem decode_plain {c : Char} (hc : c ≠ '\\') (rest : List Char) :
    decode (c :: rest) = (do return c :: (← decode rest)) := by
  rw [decode]
  · exact fun h _ => hc h
  · exact fun _ _ h _ => hc h

theorem decode_escape {c : Char} {rest out after : List Char}
    (h : step c rest = .ok (out, after)) :
    decode ('\\' :: c :: rest) = (do return out ++ (← decode after)) := by
  rw [decode]
  split
  · rename_i heq
    rw [h] at heq
    cases heq
    rfl
  · rename_i heq
    rw [h] at heq
    cases heq

theorem decode_escape_error {c : Char} {rest : List Char} {digits : String}
    (h : step c rest = .error digits) : decode ('\\' :: c :: rest) = .error digits := by
  rw [decode]
  split
  · rename_i heq
    rw [h] at heq
    cases heq
  · rename_i heq
    rw [h] at heq
    cases heq
    rfl

theorem decimal?_eq_none {c : Char} (h : digitValue? c = none) (rest : List Char) :
    decimal? (c :: rest) = none := by
  unfold decimal?
  split
  · rename_i heq
    cases heq
    rw [h]
    rfl
  · rfl

theorem hexadecimal?_eq_none {c : Char} (h : c ≠ 'x') (rest : List Char) :
    hexadecimal? (c :: rest) = none := by
  unfold hexadecimal?
  split
  · rename_i heq
    cases heq
    exact absurd rfl h
  · rfl

/-- A letter that is no digit and no mark is an escape by itself. -/
theorem step_letter {c d : Char} (h : letter? c = some d) (rest : List Char) :
    step c rest = .ok ([d], rest) := by
  have hc : c ≠ '\n' ∧ digitValue? c = none ∧ c ≠ 'x' := by
    unfold letter? at h
    split at h
    case h_9 => cases h
    all_goals decide
  obtain ⟨hn, hd, hx⟩ := hc
  simp only [step, beq_iff_eq, hn, if_false, decimal?_eq_none hd, hexadecimal?_eq_none hx, h]

/-! ## Control characters -/

/-- The three decimal digits of a number. -/
theorem paddedNat_three : ∀ n < 256, (paddedNat 3 n).toList =
    [Nat.digitChar (n / 100), Nat.digitChar (n / 10 % 10), Nat.digitChar (n % 10)] := by
  decide +kernel

theorem digitValue?_digitChar : ∀ d < 10, digitValue? (Nat.digitChar d) = some d := by decide

theorem step_decimal {n : Nat} (h : n < 128) (rest : List Char) :
    step (Nat.digitChar (n / 100))
        (Nat.digitChar (n / 10 % 10) :: Nat.digitChar (n % 10) :: rest) =
      .ok ([Char.ofNat n], rest) := by
  have hd : decimal? (Nat.digitChar (n / 100) :: Nat.digitChar (n / 10 % 10) ::
      Nat.digitChar (n % 10) :: rest) = some (n, rest) := by
    simp only [decimal?, digitValue?_digitChar _ (show n / 100 < 10 by omega),
      digitValue?_digitChar _ (show n / 10 % 10 < 10 by omega),
      digitValue?_digitChar _ (show n % 10 < 10 by omega)]
    have hn : 100 * (n / 100) + 10 * (n / 10 % 10) + n % 10 = n := by omega
    simp [hn]
  have hc : ∀ d < 10, Nat.digitChar d ≠ '\n' := by decide
  simp only [step, beq_iff_eq, hc _ (show n / 100 < 10 by omega), if_false, hd]
  rw [if_pos (by omega)]

/-! ## The round trip -/

section
variable {quote : Char} (hq : quote = '"' ∨ quote = '\'')
include hq

/-- An encoded character is a plain one or an escape. -/
theorem encodeChar_cases (c : Char) :
    (encodeChar quote c = [c] ∧ c ≠ quote ∧ c ≠ '\\' ∧ c ≠ '\n') ∨
      (∃ d, encodeChar quote c = ['\\', d] ∧ letter? d = some c) ∨
      ∃ n < 128, c = Char.ofNat n ∧ encodeChar quote c = ['\\', Nat.digitChar (n / 100),
        Nat.digitChar (n / 10 % 10), Nat.digitChar (n % 10)] := by
  unfold encodeChar
  split
  · rename_i h
    rw [beq_iff_eq] at h
    refine .inr (.inl ⟨c, rfl, ?_⟩)
    rcases hq with rfl | rfl <;> rw [h] <;> rfl
  · rename_i h
    rw [beq_iff_eq] at h
    split
    · exact .inr (.inl ⟨_, rfl, rfl⟩)
    · exact .inr (.inl ⟨_, rfl, rfl⟩)
    · exact .inr (.inl ⟨_, rfl, rfl⟩)
    · exact .inr (.inl ⟨_, rfl, rfl⟩)
    · exact .inr (.inl ⟨_, rfl, rfl⟩)
    · rename_i hb hn _ _ _
      split
      · rename_i hc
        simp only [Bool.or_eq_true, decide_eq_true_eq, beq_iff_eq] at hc
        have hlt : c.toNat < 128 := by omega
        refine .inr (.inr ⟨c.toNat, hlt, (Char.ofNat_toNat c).symm, ?_⟩)
        rw [paddedNat_three c.toNat (by omega)]
      · exact .inl ⟨rfl, h, hb, hn⟩

theorem decode_encodeChar (c : Char) (rest : List Char) :
    decode (encodeChar quote c ++ rest) = (do return c :: (← decode rest)) := by
  rcases encodeChar_cases hq c with ⟨he, -, hb, -⟩ | ⟨d, he, hd⟩ | ⟨n, hn, rfl, he⟩
  · rw [he, List.singleton_append, decode_plain hb]
  · rw [he]
    exact decode_escape (step_letter hd rest)
  · rw [he]
    exact decode_escape (step_decimal hn rest)

theorem decode_flatMap_encodeChar (cs : List Char) :
    decode (cs.flatMap (encodeChar quote)) = .ok cs := by
  induction cs with
  | nil => rw [List.flatMap_nil, decode]
  | cons c cs ih =>
    rw [List.flatMap_cons, decode_encodeChar hq, ih]
    rfl

/-- An encoded text stands for the text. -/
theorem decode_encode (text : String) :
    decode (encode quote text).toList = .ok text.toList := by
  rw [encode, String.toList_ofList, decode_flatMap_encodeChar hq]

end

/-! ## Lexemes -/

theorem isStringRest_encodeChar (c : Char) {rest : List Char} (h : Terminal.IsStringRest rest) :
    Terminal.IsStringRest (encodeChar '"' c ++ rest) := by
  have hdigit : ∀ d < 10, Nat.digitChar d ≠ '"' ∧ Nat.digitChar d ≠ '\\' := by decide
  rcases encodeChar_cases (.inl rfl) c with ⟨he, hq, hb, -⟩ | ⟨d, he, -⟩ | ⟨n, hn, -, he⟩
  · rw [he]
    exact .plain hq hb h
  · rw [he]
    exact .escape h
  · rw [he]
    obtain ⟨hq, hb⟩ := hdigit (n / 10 % 10) (by omega)
    obtain ⟨hq', hb'⟩ := hdigit (n % 10) (by omega)
    exact .escape (.plain hq hb (.plain hq' hb' h))

/-- An encoded text is a lexeme between double quotes. -/
theorem isStringRest_encode (text : String) :
    Terminal.IsStringRest ((encode '"' text).toList ++ ['"']) := by
  rw [encode, String.toList_ofList]
  induction text.toList with
  | nil => exact .close
  | cons c cs ih =>
    rw [List.flatMap_cons, List.append_assoc]
    exact isStringRest_encodeChar c ih

/-- An encoded character is a lexeme between single quotes. -/
theorem isCharBody_encodeChar (c : Char) : Terminal.IsCharBody (encodeChar '\'' c) := by
  rcases encodeChar_cases (.inr rfl) c with ⟨he, hq, hb, hn⟩ | ⟨d, he, hd⟩ | ⟨n, hn, -, he⟩
  · exact .inl ⟨c, he, hq, hb, hn⟩
  · refine .inr ⟨[d], he, .inl ⟨d, rfl, ?_⟩⟩
    unfold letter? at hd
    split at hd
    case h_9 => cases hd
    all_goals rfl
  · have hdigit : ∀ d < 10, (Nat.digitChar d).isDigit = true ∧
        Terminal.isEscapable (Nat.digitChar d) = false := by decide
    obtain ⟨h₁, he₁⟩ := hdigit (n / 100) (by omega)
    obtain ⟨h₂, -⟩ := hdigit (n / 10 % 10) (by omega)
    obtain ⟨h₃, -⟩ := hdigit (n % 10) (by omega)
    refine .inr ⟨_, he, .inr ⟨_, _, _, rfl, he₁, ?_⟩⟩
    simp [h₁, h₂, h₃]

theorem toList_encode_singleton (quote c : Char) :
    (encode quote (String.ofList [c])).toList = encodeChar quote c := by
  rw [encode, String.toList_ofList, String.toList_ofList, List.flatMap_singleton]

/-! ## Character literals -/

theorem exists_digitValue? {c : Char} (h : c.isDigit = true) : ∃ n, digitValue? c = some n := by
  refine ⟨c.toNat - '0'.toNat, ?_⟩
  rw [digitValue?, if_pos]
  simp only [Char.isDigit, Bool.and_eq_true, decide_eq_true_eq] at h ⊢
  exact h

theorem exists_hexValue? {c : Char} (h : Terminal.isHexDigit c = true) :
    ∃ n, hexValue? c = some n := by
  unfold hexValue?
  split
  · exact ⟨_, rfl⟩
  · split
    · exact ⟨_, rfl⟩
    · split
      · exact ⟨_, rfl⟩
      · rename_i h₀ h₁ h₂
        have hd : c.isDigit = false := by
          rw [← Bool.not_eq_true]
          intro hd
          simp only [Char.isDigit, Bool.and_eq_true, decide_eq_true_eq] at hd h₀
          exact h₀ hd
        simp only [Terminal.isHexDigit, hd, Bool.false_or, Bool.or_eq_true] at h
        exact absurd h (not_or.mpr ⟨h₁, h₂⟩)

/-- An escape in a character literal stands for one character, unless it is refused. -/
theorem step_charEscape {a : Char} {rest : List Char} (h : Terminal.IsCharEscape (a :: rest)) :
    (∃ c, step a rest = .ok ([c], [])) ∨ ∃ digits, step a rest = .error digits := by
  rcases h with ⟨c, he, hc⟩ | ⟨a', b, c, he, -, hd⟩ <;> cases he
  · have hl : ∃ d, letter? a = some d := by
      simp only [Terminal.isEscapable, List.contains_iff_mem, List.mem_cons, List.not_mem_nil,
        or_false] at hc
      rcases hc with rfl | rfl | rfl | rfl | rfl | rfl | rfl | rfl <;> exact ⟨_, rfl⟩
    obtain ⟨d, hd⟩ := hl
    exact .inl ⟨d, step_letter hd []⟩
  · simp only [Bool.or_eq_true, Bool.and_eq_true, beq_iff_eq] at hd
    rcases hd with ⟨⟨ha, hb⟩, hc⟩ | ⟨⟨rfl, hb⟩, hc⟩
    · obtain ⟨x, hx⟩ := exists_digitValue? ha
      obtain ⟨y, hy⟩ := exists_digitValue? hb
      obtain ⟨z, hz⟩ := exists_digitValue? hc
      have hn : a ≠ '\n' := by
        intro heq
        subst heq
        cases ha
      have hdec : decimal? [a, b, c] = some (100 * x + 10 * y + z, []) := by
        simp [decimal?, hx, hy, hz]
      simp only [step, beq_iff_eq, hn, if_false, hdec]
      split
      · exact .inl ⟨_, rfl⟩
      · exact .inr ⟨_, rfl⟩
    · obtain ⟨x, hx⟩ := exists_hexValue? hb
      obtain ⟨y, hy⟩ := exists_hexValue? hc
      have hhex : hexadecimal? ['x', b, c] = some (16 * x + y, []) := by
        simp [hexadecimal?, hx, hy]
      have hdec : decimal? ['x', b, c] = none := decimal?_eq_none rfl _
      exact .inl ⟨Char.ofNat (16 * x + y), by simp [step, hdec, hhex]⟩

/-- What stands between the quotes of a character literal is one character. -/
theorem decode_charBody {b chars : List Char} (h : Terminal.IsCharBody b)
    (hd : decode b = .ok chars) : ∃ c, chars = [c] := by
  rcases h with ⟨c, rfl, -, hb, -⟩ | ⟨e, rfl, he⟩
  · rw [decode_plain hb, decode] at hd
    cases hd
    exact ⟨c, rfl⟩
  · cases e with
    | nil => rcases he with ⟨c, he, -⟩ | ⟨a, b, c, he, -⟩ <;> cases he
    | cons a rest =>
      rcases step_charEscape he with ⟨c, hs⟩ | ⟨digits, hs⟩
      · rw [decode_escape hs, decode] at hd
        cases hd
        exact ⟨c, rfl⟩
      · rw [decode_escape_error hs] at hd
        cases hd

/-! ## Escapes that are refused -/

/-- A text has a decimal escape above 255. The character behind a backslash belongs to it, so that
it starts no other escape. -/
inductive HasLargeEscape : List Char → Prop where
  | here {n : Nat} {rest : List Char} : 255 < n → n < 1000 →
    HasLargeEscape ('\\' :: Nat.digitChar (n / 100) :: Nat.digitChar (n / 10 % 10) ::
      Nat.digitChar (n % 10) :: rest)
  | escape {c : Char} {rest : List Char} : HasLargeEscape rest → HasLargeEscape ('\\' :: c :: rest)
  | plain {c : Char} {rest : List Char} :
    c ≠ '\\' → HasLargeEscape rest → HasLargeEscape (c :: rest)

theorem eq_digitChar_of_digitValue? {c : Char} {d : Nat} (h : digitValue? c = some d) :
    d < 10 ∧ c = Nat.digitChar d := by
  have hall : ∀ k < 10, Char.ofNat (k + 48) = Nat.digitChar k := by decide
  simp only [digitValue?, Bool.and_eq_true, decide_eq_true_eq, Terminal.le_iff_toNat,
    Char.reduceToNat] at h
  split at h
  · cases h
    refine ⟨by omega, ?_⟩
    rw [← hall _ (by omega), Nat.sub_add_cancel (by omega), Char.ofNat_toNat]
  · cases h

/-- What is read as three decimal digits. -/
theorem decimal?_eq_some {cs rest : List Char} {n : Nat} : decimal? cs = some (n, rest) ↔
    n < 1000 ∧ cs = Nat.digitChar (n / 100) :: Nat.digitChar (n / 10 % 10) ::
      Nat.digitChar (n % 10) :: rest := by
  constructor
  · intro h
    unfold decimal? at h
    split at h
    case h_2 => cases h
    case h_1 a b c rest' =>
      simp only [bind, Option.bind_eq_some_iff, pure, Option.some.injEq, Prod.mk.injEq] at h
      obtain ⟨x, hx, y, hy, z, hz, rfl, rfl⟩ := h
      obtain ⟨hx, rfl⟩ := eq_digitChar_of_digitValue? hx
      obtain ⟨hy, rfl⟩ := eq_digitChar_of_digitValue? hy
      obtain ⟨hz, rfl⟩ := eq_digitChar_of_digitValue? hz
      have h₁ : (100 * x + 10 * y + z) / 100 = x := by omega
      have h₂ : (100 * x + 10 * y + z) / 10 % 10 = y := by omega
      have h₃ : (100 * x + 10 * y + z) % 10 = z := by omega
      rw [h₁, h₂, h₃]
      exact ⟨by omega, rfl⟩
  · rintro ⟨hn, rfl⟩
    have hsum : 100 * (n / 100) + 10 * (n / 10 % 10) + n % 10 = n := by omega
    simp only [decimal?, digitValue?_digitChar _ (show n / 100 < 10 by omega),
      digitValue?_digitChar _ (show n / 10 % 10 < 10 by omega),
      digitValue?_digitChar _ (show n % 10 < 10 by omega), bind, pure, Option.bind_some, hsum]

/-- An escape is refused if it is a number above 255. -/
theorem exists_of_step_eq_error {c : Char} {rest : List Char} {digits : String}
    (h : step c rest = .error digits) : ∃ n after, 255 < n ∧ n < 1000 ∧
      c :: rest = Nat.digitChar (n / 100) :: Nat.digitChar (n / 10 % 10) ::
        Nat.digitChar (n % 10) :: after := by
  unfold step at h
  split at h
  · cases h
  · split at h
    · rename_i code after hd
      split at h
      · cases h
      · obtain ⟨hlt, heq⟩ := decimal?_eq_some.mp hd
        exact ⟨code, after, by omega, hlt, heq⟩
    · split at h
      · cases h
      · split at h <;> cases h

theorem ne_backslash_of_hexValue? {c : Char} {d : Nat} (h : hexValue? c = some d) : c ≠ '\\' := by
  rintro rfl
  cases h

/-- An escape that is not refused is no number above 255, and what it takes besides the character
behind the backslash is no backslash. -/
theorem exists_of_step_eq_ok {c : Char} {rest out after : List Char}
    (h : step c rest = .ok (out, after)) :
    (∃ skipped, rest = skipped ++ after ∧ ∀ d ∈ skipped, d ≠ '\\') ∧
      ∀ n rest', 255 < n → n < 1000 → c :: rest ≠ Nat.digitChar (n / 100) ::
        Nat.digitChar (n / 10 % 10) :: Nat.digitChar (n % 10) :: rest' := by
  have hdigit : ∀ d < 10, Nat.digitChar d ≠ '\n' ∧ Nat.digitChar d ≠ '\\' := by decide
  unfold step at h
  split at h
  · rename_i hc
    cases h
    refine ⟨⟨rest.takeWhile isIndent, List.takeWhile_append_dropWhile.symm, fun d hd => ?_⟩,
      fun n rest' _ _ he => ?_⟩
    · rintro rfl
      have := List.all_eq_true.mp List.all_takeWhile _ hd
      cases this
    · rw [(List.cons.inj he).1, beq_iff_eq] at hc
      exact (hdigit _ (by omega)).1 hc
  · split at h
    · rename_i code after' hd
      split at h
      · rename_i hle
        cases h
        obtain ⟨hlt, heq⟩ := decimal?_eq_some.mp hd
        obtain ⟨rfl, rfl⟩ := List.cons.inj heq
        refine ⟨⟨[_, _], rfl, ?_⟩, fun n rest' hn hlt' he => ?_⟩
        · simp [hdigit (code / 10 % 10) (by omega), hdigit (code % 10) (by omega)]
        · rw [decimal?_eq_some.mpr ⟨hlt', he⟩] at hd
          cases hd
          omega
      · cases h
    · rename_i hd
      have hsmall : ∀ n rest', 255 < n → n < 1000 → c :: rest ≠ Nat.digitChar (n / 100) ::
          Nat.digitChar (n / 10 % 10) :: Nat.digitChar (n % 10) :: rest' := by
        intro n rest' _ hlt he
        rw [decimal?_eq_some.mpr ⟨hlt, he⟩] at hd
        cases hd
      refine ⟨?_, hsmall⟩
      split at h
      · rename_i code after' hx
        cases h
        unfold hexadecimal? at hx
        split at hx
        · rename_i a b rest' he
          simp only [bind, Option.bind_eq_some_iff, pure, Option.some.injEq, Prod.mk.injEq] at hx
          obtain ⟨x, hx, y, hy, -, rfl⟩ := hx
          obtain ⟨-, rfl⟩ := List.cons.inj he
          refine ⟨[a, b], rfl, ?_⟩
          simp [ne_backslash_of_hexValue? hx, ne_backslash_of_hexValue? hy]
        · cases hx
      · split at h <;> cases h <;> exact ⟨[], rfl, by simp⟩

namespace HasLargeEscape

variable {c : Char} {cs rest skipped : List Char}

theorem plain_iff (hc : c ≠ '\\') : HasLargeEscape (c :: rest) ↔ HasLargeEscape rest := by
  refine ⟨fun h => ?_, .plain hc⟩
  generalize he : c :: rest = cs at h
  cases h with
  | here => exact absurd (List.cons.inj he).1 hc
  | escape => exact absurd (List.cons.inj he).1 hc
  | plain _ h =>
    rw [(List.cons.inj he).2]
    exact h

theorem append_iff (h : ∀ d ∈ skipped, d ≠ '\\') :
    HasLargeEscape (skipped ++ rest) ↔ HasLargeEscape rest := by
  induction skipped with
  | nil => rfl
  | cons d skipped ih =>
    obtain ⟨hd, h⟩ := List.forall_mem_cons.mp h
    rw [List.cons_append, plain_iff hd, ih h]

/-- Behind an escape that is no number above 255 the text goes on. -/
theorem escape_iff (h : ∀ n after, 255 < n → n < 1000 → c :: rest ≠ Nat.digitChar (n / 100) ::
    Nat.digitChar (n / 10 % 10) :: Nat.digitChar (n % 10) :: after) :
    HasLargeEscape ('\\' :: c :: rest) ↔ HasLargeEscape rest := by
  refine ⟨fun hlarge => ?_, .escape⟩
  generalize he : '\\' :: c :: rest = cs at hlarge
  cases hlarge with
  | here hn hlt => exact absurd (List.cons.inj he).2 (h _ _ hn hlt)
  | escape hrest =>
    cases he
    exact hrest
  | plain hc => exact absurd (List.cons.inj he).1.symm hc

end HasLargeEscape

/-- A text is refused exactly if it has a decimal escape above 255. -/
theorem decode_eq_error_iff (cs : List Char) :
    (∃ digits, decode cs = .error digits) ↔ HasLargeEscape cs := by
  have hbind (out : List Char) (r : Except String (List Char)) :
      (∃ digits, (do return out ++ (← r)) = Except.error digits) ↔
        ∃ digits, r = .error digits := by
    cases r with
    | ok => exact ⟨nofun, nofun⟩
    | error e => exact ⟨fun _ => ⟨e, rfl⟩, fun _ => ⟨e, rfl⟩⟩
  induction cs using decode.induct with
  | case1 =>
    rw [decode]
    exact ⟨nofun, nofun⟩
  | case2 =>
    rw [decode]
    refine ⟨nofun, fun h => ?_⟩
    cases h with
    | plain hc => exact absurd rfl hc
  | case3 c rest out after hs _ ih =>
    obtain ⟨⟨skipped, rfl, hskip⟩, hsmall⟩ := exists_of_step_eq_ok hs
    rw [decode_escape hs, hbind, HasLargeEscape.escape_iff hsmall, HasLargeEscape.append_iff hskip]
    exact ih
  | case4 c rest digits hs =>
    obtain ⟨n, after, hn, hlt, he⟩ := exists_of_step_eq_error hs
    rw [decode_escape_error hs, he]
    exact ⟨fun _ => .here hn hlt, fun _ => ⟨digits, rfl⟩⟩
  | case5 c rest hnil hcons ih =>
    have hc : c ≠ '\\' := by
      rintro rfl
      cases rest with
      | nil => exact hnil rfl rfl
      | cons d rest => exact hcons d rest rfl rfl
    rw [decode_plain hc, HasLargeEscape.plain_iff hc]
    exact (hbind [c] _).trans ih

end MessageLang.Text.Escape
