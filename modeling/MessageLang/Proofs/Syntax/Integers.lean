import Mathlib.Data.Int.ModEq
import Mathlib.Data.Nat.Digits.Defs
import MessageLang.Grammar.Parse
import MessageLang.Proofs.Text.Escape
import MessageLang.Syntax.Literal.Free
/-!
# The numbers that integer literals write

What an integer lexeme writes is said with the digits of core and the value that the library gives
to lists of digits. Reading a lexeme is then a matter of the digits, the number that they form and
the width of the kind. Decimal digits must not be too many, whatever number they form.

Results:
* `Writes`: a lexeme writes digits in a radix, under the suffix of a kind.
* `exists_writes`: every lexeme writes digits.
* `Writes.integer_eq`, `Writes.unique`: what is read hangs on the digits, the radix and the kind
  only, and these are fixed by the lexeme.
* `Writes.freeInteger_eq`: a lexeme is read as a text that is free to be none.
* `inKind_decimal`, `inKind_marked`: the numbers that a kind takes, without and with a radix mark.
* `HasTooManyDigits`, `OutOfRange`, `integer_cases`: the lexemes that are refused.
* `integer_exact`: all of this for every lexeme and either sign.
* `integer_limited`: what the limit on digits does to a number that is out of range, and to one that
  is in range.
-/
namespace MessageLang.Literal

/-! ## What a lexeme writes -/

/-- The radices with their marks. Decimal numbers have none. -/
def radixMarks : List (Nat × List Char) :=
  [(10, []), (16, ['0', 'x']), (16, ['0', 'X']), (8, ['0', 'o']), (8, ['0', 'O']),
    (2, ['0', 'b']), (2, ['0', 'B'])]

/-- A character is the digit `d`, in either case. -/
def IsDigit (c : Char) (d : Nat) : Prop := c = Nat.digitChar d ∨ c = (Nat.digitChar d).toUpper

instance (c : Char) (d : Nat) : Decidable (IsDigit c d) := inferInstanceAs (Decidable (_ ∨ _))

/-- A text spells digits of a radix, the most significant first; underscores do not count. -/
inductive Spells (radix : Nat) : List Char → List Nat → Prop where
  | nil : Spells radix [] []
  | digit {c : Char} {d : Nat} {cs : List Char} {ds : List Nat} :
    d < radix → IsDigit c d → Spells radix cs ds → Spells radix (c :: cs) (d :: ds)
  | underscore {cs : List Char} {ds : List Nat} : Spells radix cs ds → Spells radix ('_' :: cs) ds

/-- A text writes digits in a radix, the most significant first, with the suffix of a kind. -/
def Writes (text : List Char) (kind : IntegerKind) (radix : Nat) (ds : List Nat) : Prop :=
  ∃ mark c cs, text = mark ++ c :: cs ++ kind.suffix.toList ∧ (radix, mark) ∈ radixMarks ∧
    c ≠ '_' ∧ Spells radix (c :: cs) ds

/-- The range of a width in two's complement. -/
def InRange (kind : IntegerKind) (n : Int) : Prop :=
  -2 ^ (kind.width - 1) ≤ n ∧ n ≤ 2 ^ (kind.width - 1) - 1

instance (kind : IntegerKind) (n : Int) : Decidable (InRange kind n) :=
  inferInstanceAs (Decidable (_ ∧ _))

/-- The number that digits form, the most significant first. -/
def number (radix : Nat) (ds : List Nat) : Nat := Nat.ofDigits radix ds.reverse

/-- The number that digits form behind the sign. -/
def signed (negative : Bool) (radix : Nat) (ds : List Nat) : Int :=
  if negative then -number radix ds else number radix ds

/-- The constant of a kind that is spelled as a lexeme behind the sign. -/
def written (negative : Bool) (text : List Char) (kind : IntegerKind) (n : Int)
    (l : Option Location) : Constant :=
  ⟨.int n, some (.integer kind), some ((if negative then "-" else "") ++ String.ofList text), l⟩

theorem le_sixteen_of_mem {radix : Nat} {mark : List Char} (h : (radix, mark) ∈ radixMarks) :
    radix ≤ 16 := by
  simp only [radixMarks, List.mem_cons, Prod.mk.injEq, List.not_mem_nil, or_false] at h
  omega

/-! ## Digits -/

section Digits

variable {c : Char} {d radix : Nat} {cs : List Char} {ds : List Nat}

theorem hexValue?_of_isDigit (h : IsDigit c d) (hd : d < 16) :
    Text.Escape.hexValue? c = some d := by
  have hall : ∀ d < 16, Text.Escape.hexValue? (Nat.digitChar d) = some d ∧
      Text.Escape.hexValue? (Nat.digitChar d).toUpper = some d := by decide
  rcases h with rfl | rfl
  · exact (hall d hd).1
  · exact (hall d hd).2

theorem IsDigit.ne_underscore (h : IsDigit c d) (hd : d < 16) : c ≠ '_' := by
  rintro rfl
  cases hexValue?_of_isDigit h hd

/-- Whether the characters of a class of words are digits is a matter of ASCII. -/
theorem exists_isDigit_of_ascii {p : Char → Bool}
    (hname : ∀ c, p c = true → Terminal.isNameChar c = true)
    (h : ∀ n < 128, p (Char.ofNat n) = true → ∃ d < radix, IsDigit (Char.ofNat n) d)
    (hc : p c = true) : ∃ d < radix, IsDigit c d := by
  have hlt : c.toNat < 128 := by
    rcases Terminal.isNameChar_iff.mp (hname c hc) with h | h | h | rfl | rfl <;>
      first | omega | decide
  have hall := h c.toNat hlt
  rw [Char.ofNat_toNat] at hall
  exact hall hc

theorem exists_isDigit (hc : c.isDigit = true) : ∃ d < 10, IsDigit c d :=
  exists_isDigit_of_ascii (fun _ h => Terminal.isNameChar_of_isDecimal
    (Terminal.isDecimal_of_isDigit h)) (by decide +kernel) hc

/-- A radix mark asks for the digits of its radix. -/
theorem exists_radix {mark : Char} {digit : Char → Bool}
    (h : Terminal.radixDigit? mark = some digit) :
    ∃ radix, (radix, ['0', mark]) ∈ radixMarks ∧
      ∀ c, digit c = true → ∃ d < radix, IsDigit c d := by
  unfold Terminal.radixDigit? at h
  split at h <;> cases h
  case h_1 | h_2 =>
    exact ⟨16, by decide, fun _ => exists_isDigit_of_ascii
      (fun _ => Terminal.isNameChar_of_isHexDigit) (by decide +kernel)⟩
  case h_3 | h_4 =>
    exact ⟨8, by decide, fun _ => exists_isDigit_of_ascii
      (fun _ => Terminal.isNameChar_of_isOctalDigit) (by decide +kernel)⟩
  case h_5 | h_6 =>
    exact ⟨2, by decide, fun _ => exists_isDigit_of_ascii
      (fun _ => Terminal.isNameChar_of_isBinaryDigit) (by decide +kernel)⟩

/-- Digits and underscores spell digits. -/
theorem exists_spells {p : Char → Bool} (hp : ∀ c, p c = true → ∃ d < radix, IsDigit c d)
    (h : ∀ c ∈ cs, (p c || c == '_') = true) : ∃ ds, Spells radix cs ds := by
  induction cs with
  | nil => exact ⟨[], .nil⟩
  | cons c cs ih =>
    obtain ⟨ds, hds⟩ := ih fun c hc => h c (List.mem_cons_of_mem _ hc)
    have hc := h c List.mem_cons_self
    rw [Bool.or_eq_true, beq_iff_eq] at hc
    rcases hc with hc | rfl
    · obtain ⟨d, hd, hdigit⟩ := hp c hc
      exact ⟨d :: ds, .digit hd hdigit hds⟩
    · exact ⟨ds, .underscore hds⟩

/-- The characters behind a radix mark without the underscores, each with its value. -/
theorem Spells.map_hexValue? (h : Spells radix cs ds) (hr : radix ≤ 16) :
    (cs.filter (· != '_')).map Text.Escape.hexValue? = ds.map some := by
  induction h with
  | nil => rfl
  | digit hd hc _ ih =>
    have hlt := Nat.lt_of_lt_of_le hd hr
    rw [List.filter_cons, if_pos (bne_iff_ne.mpr (hc.ne_underscore hlt)), List.map_cons, ih,
      hexValue?_of_isDigit hc hlt, List.map_cons]
  | underscore _ ih => rw [List.filter_cons_of_neg (by decide), ih]

theorem Spells.lt (h : Spells radix cs ds) : ∀ d ∈ ds, d < radix := by
  induction h with
  | nil => exact fun d hd => absurd hd List.not_mem_nil
  | digit hd _ _ ih => exact List.forall_mem_cons.mpr ⟨hd, ih⟩
  | underscore _ ih => exact ih

end Digits

/-! ## Digits without underscores -/

/-- A text of digits of a radix. -/
def AreDigits (radix : Nat) (text : List Char) : Prop :=
  ∀ c ∈ text, ∃ d < radix, Text.Escape.hexValue? c = some d

section Text

variable {radix : Nat} {cs text : List Char} {ds : List Nat}

theorem Spells.areDigits (h : Spells radix cs ds) (hr : radix ≤ 16) :
    AreDigits radix (cs.filter (· != '_')) := by
  intro c hc
  have hmem : Text.Escape.hexValue? c ∈ ds.map some := by
    rw [← h.map_hexValue? hr]
    exact List.mem_map_of_mem hc
  obtain ⟨d, hd, he⟩ := List.mem_map.mp hmem
  exact ⟨d, h.lt d hd, he.symm⟩

/-- The digits read so far count once more for each digit behind them. -/
theorem foldl_hexValue? (h : text.map Text.Escape.hexValue? = ds.map some) (n : Nat) :
    text.foldl (fun n c => radix * n + (Text.Escape.hexValue? c).getD 0) n =
      ds.foldl (fun n d => d + radix * n) n := by
  induction ds generalizing text n with
  | nil =>
    rw [List.map_nil, List.map_eq_nil_iff] at h
    rw [h]
    rfl
  | cons d ds ih =>
    cases text with
    | nil => cases h
    | cons c text =>
      rw [List.map_cons, List.map_cons, List.cons.injEq] at h
      rw [List.foldl_cons, List.foldl_cons, h.1, Option.getD_some, Nat.add_comm]
      exact ih h.2 _

/-- Digits are read as the number that they form. -/
theorem digitsValue_eq (h : text.map Text.Escape.hexValue? = ds.map some) :
    digitsValue radix text = number radix ds := by
  rw [number, Nat.ofDigits_eq_foldr, List.foldr_reverse]
  exact foldl_hexValue? h 0

theorem length_eq_of_map_hexValue? (h : text.map Text.Escape.hexValue? = ds.map some) :
    text.length = ds.length := by
  have hlength := congrArg List.length h
  rwa [List.length_map, List.length_map] at hlength

theorem magnitude_of_tooMany (h : text.map Text.Escape.hexValue? = ds.map some)
    (hlong : maxDecimalDigits < ds.length) : magnitude 10 text = .error .tooManyDigits := by
  rw [magnitude, length_eq_of_map_hexValue? h, decide_eq_true hlong]
  rfl

theorem magnitude_eq (h : text.map Text.Escape.hexValue? = ds.map some)
    (hfew : radix = 10 → ds.length ≤ maxDecimalDigits) :
    magnitude radix text = .ok (number radix ds) := by
  rw [magnitude, length_eq_of_map_hexValue? h, digitsValue_eq h]
  refine if_neg fun hmany => ?_
  rw [Bool.and_eq_true, beq_iff_eq, decide_eq_true_eq] at hmany
  exact Nat.not_lt.mpr (hfew hmany.1) hmany.2

/-! ## Radix marks -/

/-- A radix mark is read where it stands. -/
theorem splitRadix_cases (text : List Char) : splitRadix text = (10, text) ∨
    ∃ radix mark ds, (radix, ['0', mark]) ∈ radixMarks ∧ text = '0' :: mark :: ds ∧
      splitRadix text = (radix, ds) := by
  unfold splitRadix
  split
  case h_7 => exact .inl rfl
  all_goals exact .inr ⟨_, _, _, by decide, rfl, rfl⟩

/-- A radix mark is no digit, neither of its own radix nor a decimal one. -/
theorem le_of_mark {mark : Char} {d : Nat} (h : (radix, ['0', mark]) ∈ radixMarks)
    (hd : Text.Escape.hexValue? mark = some d) : radix ≤ d ∧ 10 ≤ d := by
  simp only [radixMarks, List.mem_cons, Prod.mk.injEq, List.cons.injEq, List.not_mem_nil,
    or_false, reduceCtorEq, and_false, and_true, true_and, false_or] at h
  rcases h with ⟨rfl, rfl⟩ | ⟨rfl, rfl⟩ | ⟨rfl, rfl⟩ | ⟨rfl, rfl⟩ | ⟨rfl, rfl⟩ | ⟨rfl, rfl⟩ <;>
    cases hd <;> decide

theorem AreDigits.splitRadix_eq (h : AreDigits 10 text) : splitRadix text = (10, text) := by
  rcases splitRadix_cases text with hs | ⟨radix, mark, ds, hm, rfl, -⟩
  · exact hs
  · obtain ⟨d, hlt, hd⟩ := h mark (List.mem_cons_of_mem _ List.mem_cons_self)
    have := (le_of_mark hm hd).2
    omega

/-- Digits behind a radix mark are found. -/
theorem AreDigits.splitRadix_append {mark : List Char} (h : AreDigits radix text)
    (hm : (radix, mark) ∈ radixMarks) : splitRadix (mark ++ text) = (radix, text) := by
  simp only [radixMarks, List.mem_cons, Prod.mk.injEq, List.not_mem_nil, or_false] at hm
  rcases hm with ⟨rfl, rfl⟩ | ⟨rfl, rfl⟩ | ⟨rfl, rfl⟩ | ⟨rfl, rfl⟩ | ⟨rfl, rfl⟩ | ⟨rfl, rfl⟩ |
    ⟨rfl, rfl⟩
  · exact h.splitRadix_eq
  all_goals rfl

/-- The digits behind a radix mark do not have the mark once more. -/
theorem AreDigits.markedDigits_eq (h : AreDigits radix text) : markedDigits radix text = text := by
  unfold markedDigits
  rcases splitRadix_cases text with hs | ⟨radix', mark, ds, hm, rfl, hs⟩
  · rw [hs]
    exact ite_self text
  · rw [hs]
    refine if_neg fun hr => ?_
    obtain rfl := beq_iff_eq.mp hr
    obtain ⟨d, hlt, hd⟩ := h mark (List.mem_cons_of_mem _ List.mem_cons_self)
    have := (le_of_mark hm hd).1
    omega

/-! ## Suffixes -/

/-- The suffix of a kind is found behind a text that ends in none. -/
theorem splitSuffix_append (kind : IntegerKind)
    (h : ∀ c, text.getLast? = some c → c ≠ 'l' ∧ c ≠ 'L' ∧ c ≠ 'n') :
    splitSuffix (text ++ kind.suffix.toList) = (kind, text) := by
  cases kind
  case int =>
    have hnil : IntegerKind.int.suffix.toList = [] := by decide
    rw [hnil, List.append_nil, splitSuffix]
    split
    case h_1 he => exact absurd rfl (h _ he).1
    case h_2 he => exact absurd rfl (h _ he).2.1
    case h_3 he => exact absurd rfl (h _ he).2.2
    case h_4 => rfl
  case int32 | int64 | nativeint =>
    simp [IntegerKind.suffix, splitSuffix]

/-- Digits and underscores end in no suffix. -/
theorem Spells.getLast_ne (h : Spells radix cs ds) (hr : radix ≤ 16) :
    ∀ c ∈ cs, c ≠ 'l' ∧ c ≠ 'L' ∧ c ≠ 'n' := by
  induction h with
  | nil => exact fun c hc => absurd hc List.not_mem_nil
  | @digit c d _ _ hd hc _ ih =>
    refine List.forall_mem_cons.mpr ⟨?_, ih⟩
    have hx := hexValue?_of_isDigit hc (Nat.lt_of_lt_of_le hd hr)
    refine ⟨?_, ?_, ?_⟩ <;> rintro rfl <;> cases hx
  | underscore _ ih => exact List.forall_mem_cons.mpr ⟨by decide, ih⟩

end Text

/-! ## Kinds -/

section Kind

variable {kind : IntegerKind} {radix : Nat} {m n : Int}

theorem holds_iff : kind.holds n = true ↔ InRange kind n := by
  simp [IntegerKind.holds, InRange, IntegerKind.least, IntegerKind.greatest,
    powerOfTwo]

theorem cast_powerOfTwo (k : Nat) : (powerOfTwo k : Int) = 2 ^ k := by
  simp [powerOfTwo]

/-- The top bit doubles the range. -/
theorem two_pow_width (kind : IntegerKind) :
    (2 : Int) ^ kind.width = 2 * 2 ^ (kind.width - 1) := by
  cases kind <;> rfl

/-- A number that is wrapped around is in the range, and the same modulo the width. -/
theorem wrap_spec (kind : IntegerKind) (n : Int) :
    kind.holds (wrap kind n) = true ∧ wrap kind n ≡ n [ZMOD 2 ^ kind.width] := by
  have hpos : (0 : Int) < 2 ^ kind.width := by positivity
  have hleast : kind.least = -2 ^ (kind.width - 1) := by
    rw [IntegerKind.least, cast_powerOfTwo]
  rw [wrap, cast_powerOfTwo]
  refine ⟨?_, ?_⟩
  · have hlow := Int.emod_nonneg (n - kind.least) hpos.ne'
    have hhigh := Int.emod_lt_of_pos (n - kind.least) hpos
    have htwo := two_pow_width kind
    rw [holds_iff, InRange]
    omega
  · calc (n - kind.least) % 2 ^ kind.width + kind.least
        ≡ n - kind.least + kind.least [ZMOD 2 ^ kind.width] := (Int.mod_modEq _ _).add_right _
      _ = n := Int.sub_add_cancel n kind.least

/-- Numbers of a kind that are the same modulo its width are the same. -/
theorem eq_of_modEq (hm : kind.holds m = true) (hn : kind.holds n = true)
    (h : m ≡ n [ZMOD 2 ^ kind.width]) : m = n := by
  rw [holds_iff, InRange] at hm hn
  have htwo := two_pow_width kind
  have hlt : |n - m| < 2 ^ kind.width := abs_lt.mpr (by omega)
  have := Int.eq_zero_of_abs_lt_dvd h.dvd hlt
  omega

/-- With a radix mark a number may fill the width of its kind. -/
theorem fits_iff : (radix != 10 && n.natAbs ≤ powerOfTwo kind.width - 1) = true ↔
    radix ≠ 10 ∧ |n| ≤ 2 ^ kind.width - 1 := by
  have hcast := cast_powerOfTwo kind.width
  have hpos : (0 : Int) < 2 ^ kind.width := by positivity
  rw [Bool.and_eq_true, bne_iff_ne, decide_eq_true_eq, Int.abs_eq_natAbs]
  refine and_congr_right fun _ => ?_
  omega

theorem inKind_decimal (kind : IntegerKind) (n : Int) : inKind kind 10 n =
    if kind.holds n then .ok n else .error (.outOfRange kind) := rfl

theorem inKind_marked (hr : radix ≠ 10) (h : |n| ≤ 2 ^ kind.width - 1) :
    inKind kind radix n = .ok (wrap kind n) := by
  rw [inKind, wrapped, if_pos (fits_iff.mpr ⟨hr, h⟩)]
  exact if_pos (wrap_spec kind n).1

/-- A number that does not fit the width is in no range. -/
theorem inKind_beyond (h : ¬ |n| ≤ 2 ^ kind.width - 1) :
    inKind kind radix n = .error (.outOfRange kind) := by
  rw [inKind, wrapped, if_neg fun hf => h (fits_iff.mp hf).2]
  refine if_neg fun hn => h ?_
  rw [holds_iff, InRange] at hn
  have htwo := two_pow_width kind
  exact abs_le.mpr (by omega)

end Kind

/-! ## Lexemes -/

section Lexeme

variable {text : List Char} {kind : IntegerKind} {radix : Nat} {ds : List Nat}

/-- What a lexeme is cut into, and the digits behind its mark. -/
theorem Writes.parts (h : Writes text kind radix ds) :
    ∃ body digits, splitSuffix text = (kind, body) ∧
      splitRadix (body.filter (· != '_')) = (radix, digits) ∧ AreDigits radix digits ∧
      digits ≠ [] ∧ digits.map Text.Escape.hexValue? = ds.map some := by
  obtain ⟨mark, c, cs, rfl, hm, hc, hs⟩ := h
  have hr := le_sixteen_of_mem hm
  have hmark : ∀ p ∈ radixMarks, p.2.filter (· != '_') = p.2 := by decide
  have hd := hs.areDigits hr
  refine ⟨mark ++ c :: cs, (c :: cs).filter (· != '_'), splitSuffix_append kind ?_, ?_, hd, ?_,
    hs.map_hexValue? hr⟩
  · intro d hlast
    have hne := List.cons_ne_nil c cs
    rw [List.getLast?_append, List.getLast?_eq_some_getLast hne, Option.some_or] at hlast
    cases hlast
    exact hs.getLast_ne hr _ (List.getLast_mem hne)
  · rw [List.filter_append, hmark _ hm]
    exact hd.splitRadix_append hm
  · rw [List.filter_cons, if_pos (bne_iff_ne.mpr hc)]
    exact List.cons_ne_nil _ _

/-- A text writes digits in one way at most. -/
theorem Writes.unique {kind' : IntegerKind} {radix' : Nat} {ds' : List Nat}
    (h : Writes text kind radix ds) (h' : Writes text kind' radix' ds') :
    kind' = kind ∧ radix' = radix ∧ ds' = ds := by
  obtain ⟨body, digits, hs, hr, -, -, hd⟩ := h.parts
  obtain ⟨body', digits', hs', hr', -, -, hd'⟩ := h'.parts
  rw [hs] at hs'
  cases hs'
  rw [hr] at hr'
  cases hr'
  have heq : ds'.map some = ds.map some := hd'.symm.trans hd
  exact ⟨rfl, rfl, (List.map_inj_right fun _ _ => Option.some.inj).mp heq⟩

theorem exists_suffix {w : List Char} (h : Terminal.IsSuffix w) :
    ∃ kind : IntegerKind, w = kind.suffix.toList := by
  rcases h with rfl | rfl | rfl | rfl
  · exact ⟨.int, by decide⟩
  · exact ⟨.int32, by decide⟩
  · exact ⟨.int64, by decide⟩
  · exact ⟨.nativeint, by decide⟩

/-- Every lexeme writes digits. -/
theorem exists_writes (h : Terminal.IsInteger text) :
    ∃ kind radix ds, Writes text kind radix ds := by
  obtain ⟨w, suffix, rfl, hw, hsuffix⟩ := h
  obtain ⟨kind, rfl⟩ := exists_suffix hsuffix
  rcases hw with ⟨c, body, rfl, hc, hb⟩ | ⟨mark, digit, w, rfl, hmark, c, body, rfl, hc, hb⟩
  · have hrun : ∀ d ∈ c :: body, Terminal.isDecimal d = true :=
      List.forall_mem_cons.mpr ⟨Terminal.isDecimal_of_isDigit hc, hb⟩
    obtain ⟨ds, hds⟩ := exists_spells (fun _ => exists_isDigit) hrun
    have hne : c ≠ '_' := by
      rintro rfl
      cases hc
    exact ⟨kind, 10, ds, [], c, body, rfl, by decide, hne, hds⟩
  · obtain ⟨radix, hm, hdigit⟩ := exists_radix hmark
    have hrun : ∀ d ∈ c :: body, (digit d || d == '_') = true :=
      List.forall_mem_cons.mpr ⟨by rw [hc, Bool.true_or], hb⟩
    obtain ⟨ds, hds⟩ := exists_spells hdigit hrun
    obtain ⟨d, hd, hcd⟩ := hdigit c hc
    have hne := hcd.ne_underscore (Nat.lt_of_lt_of_le hd (le_sixteen_of_mem hm))
    exact ⟨kind, radix, ds, ['0', mark], c, body, rfl, hm, hne, hds⟩

theorem spelling_eq (negative : Bool) (text : List Char) :
    spelling negative text = (if negative then "-" else "") ++ String.ofList text := by
  cases negative <;> simp [spelling]

/-- Decimal digits that are too many are refused before the number that they form is looked at. -/
theorem Writes.integer_of_tooMany (h : Writes text kind 10 ds)
    (hlong : maxDecimalDigits < ds.length) (negative : Bool) (l : Option Location) :
    integer negative text l = .error .tooManyDigits := by
  obtain ⟨body, digits, hs, hr, -, -, hd⟩ := h.parts
  simp only [integer, integerValue, hs, hr, magnitude_of_tooMany hd hlong]
  rfl

/-- What a lexeme stands for hangs on the number that its digits form, its radix and its kind. The
constant keeps the spelling behind the sign. -/
theorem Writes.integer_eq (h : Writes text kind radix ds)
    (hfew : radix = 10 → ds.length ≤ maxDecimalDigits) (negative : Bool) (l : Option Location) :
    integer negative text l =
      (inKind kind radix (signed negative radix ds)).map (written negative text kind · l) := by
  obtain ⟨body, digits, hs, hr, -, -, hd⟩ := h.parts
  simp only [integer, integerValue, hs, hr, magnitude_eq hd hfew, spelling_eq, signed, bind,
    Except.bind, pure, Except.pure]
  cases inKind kind radix _ <;> rfl

/-- A lexeme has more decimal digits than an integer is read from. Zeros at the front count,
underscores do not. -/
def HasTooManyDigits (text : List Char) : Prop :=
  ∃ kind ds, Writes text kind 10 ds ∧ maxDecimalDigits < ds.length

/-- A number is out of the range of its kind, and does not fill its width behind a radix mark. -/
def OutOfRange (negative : Bool) (text : List Char) : Prop :=
  ∃ kind radix ds, Writes text kind radix ds ∧ ¬ InRange kind (signed negative radix ds) ∧
    ¬ (radix ≠ 10 ∧ |signed negative radix ds| ≤ 2 ^ kind.width - 1)

theorem Writes.hasTooManyDigits_iff (h : Writes text kind radix ds) :
    HasTooManyDigits text ↔ radix = 10 ∧ maxDecimalDigits < ds.length := by
  constructor
  · rintro ⟨kind', ds', h', hlong⟩
    obtain ⟨-, hradix, rfl⟩ := h.unique h'
    exact ⟨hradix.symm, hlong⟩
  · rintro ⟨rfl, hlong⟩
    exact ⟨kind, ds, h, hlong⟩

theorem Writes.outOfRange_iff (h : Writes text kind radix ds) (negative : Bool) :
    OutOfRange negative text ↔ ¬ InRange kind (signed negative radix ds) ∧
      ¬ (radix ≠ 10 ∧ |signed negative radix ds| ≤ 2 ^ kind.width - 1) := by
  refine ⟨fun ⟨kind', radix', ds', h', hout⟩ => ?_, fun hout => ⟨kind, radix, ds, h, hout⟩⟩
  obtain ⟨rfl, rfl, rfl⟩ := h.unique h'
  exact hout

/-- A lexeme is refused if it has too many digits, or else if it is out of range, and has a constant
if neither is so. -/
theorem integer_cases (h : Terminal.IsInteger text) (negative : Bool) (l : Option Location) :
    (HasTooManyDigits text ∧ integer negative text l = .error .tooManyDigits) ∨
      (¬ HasTooManyDigits text ∧ OutOfRange negative text ∧
        ∃ kind, integer negative text l = .error (.outOfRange kind)) ∨
      (¬ HasTooManyDigits text ∧ ¬ OutOfRange negative text ∧
        ∃ c, integer negative text l = .ok c) := by
  obtain ⟨kind, radix, ds, hw⟩ := exists_writes h
  by_cases hmany : HasTooManyDigits text
  · obtain ⟨rfl, hlong⟩ := hw.hasTooManyDigits_iff.mp hmany
    exact .inl ⟨hmany, hw.integer_of_tooMany hlong negative l⟩
  have hfew : radix = 10 → ds.length ≤ maxDecimalDigits := fun hradix =>
    Nat.not_lt.mp fun hlong => hmany (hw.hasTooManyDigits_iff.mpr ⟨hradix, hlong⟩)
  refine .inr ?_
  rw [hw.outOfRange_iff, hw.integer_eq hfew]
  by_cases hfits : radix ≠ 10 ∧ |signed negative radix ds| ≤ 2 ^ kind.width - 1
  · rw [inKind_marked hfits.1 hfits.2]
    exact .inr ⟨hmany, fun hout => hout.2 hfits, _, rfl⟩
  · rw [inKind, wrapped, if_neg fun hf => hfits (fits_iff.mp hf), ← holds_iff]
    by_cases hholds : kind.holds (signed negative radix ds) = true
    · rw [if_pos hholds]
      exact .inr ⟨hmany, fun hout => hout.1 hholds, _, rfl⟩
    · rw [if_neg hholds]
      exact .inl ⟨hmany, ⟨hholds, hfits⟩, kind, rfl⟩

/-! ## Lexemes among the texts that may be none -/

/-- A digit is a character of ASCII that stands for itself and neither a margin nor a sign. -/
theorem plain_of_hexValue? {c : Char} {d : Nat} (h : Text.Escape.hexValue? c = some d) :
    isMargin c = false ∧ Text.asciiDigit c = c ∧ c ≠ '-' ∧ c ≠ '+' := by
  have hall : ∀ k < 128, (Text.Escape.hexValue? (Char.ofNat k)).isSome = true →
      isMargin (Char.ofNat k) = false ∧ Text.asciiDigit (Char.ofNat k) = Char.ofNat k ∧
        Char.ofNat k ≠ '-' ∧ Char.ofNat k ≠ '+' := by
    decide +kernel
  have hlt : c.toNat < 128 := by
    simp only [Text.Escape.hexValue?, Bool.and_eq_true, decide_eq_true_eq,
      Terminal.le_iff_toNat, Char.reduceToNat] at h
    split_ifs at h <;> omega
  have hc := hall c.toNat hlt
  rw [Char.ofNat_toNat] at hc
  exact hc (by rw [h, Option.isSome_some])

/-- Digits are read as the number that they form, unless they are too many. -/
theorem AreDigits.readInteger_eq {digits : List Char} (h : AreDigits radix digits)
    (hn : digits ≠ []) : readInteger radix digits =
      ((magnitude radix digits).map Nat.cast).mapError .literal := by
  have hplain : ∀ c ∈ digits, isMargin c = false ∧ Text.asciiDigit c = c ∧ c ≠ '-' ∧ c ≠ '+' := by
    intro c hc
    obtain ⟨d, -, hd⟩ := h c hc
    exact plain_of_hexValue? hd
  have hdrop : ∀ ds : List Char, (∀ c ∈ ds, isMargin c = false) → ds.dropWhile isMargin = ds := by
    intro ds hds
    cases ds with
    | nil => rfl
    | cons c ds => exact List.dropWhile_cons_of_neg (by simp [hds c List.mem_cons_self])
  have hmargin : plain digits = digits := by
    rw [plain, hdrop digits fun c hc => (hplain c hc).1,
      hdrop digits.reverse fun c hc => (hplain c (List.mem_reverse.mp hc)).1, List.reverse_reverse]
    exact (List.map_congr_left fun c hc => (hplain c hc).2.1).trans (List.map_id digits)
  have hsign : splitSign digits = (false, digits) := by
    unfold splitSign
    split
    case h_1 => exact absurd rfl (hplain _ List.mem_cons_self).2.2.1
    case h_2 => exact absurd rfl (hplain _ List.mem_cons_self).2.2.2
    case h_3 => rfl
  have hare : areDigits radix digits = true := by
    rw [areDigits, Bool.and_eq_true, List.all_eq_true]
    refine ⟨by simp [hn], fun c hc => ?_⟩
    obtain ⟨d, hlt, hd⟩ := h c hc
    rw [hd]
    exact decide_eq_true hlt
  simp only [readInteger, hmargin, hsign, h.markedDigits_eq, hare, if_true, Bool.false_eq_true,
    if_false]
  cases magnitude radix digits <;> rfl

/-- A lexeme is read alike where the text need not be one. -/
theorem Writes.freeInteger_eq (h : Writes text kind radix ds) (negative : Bool)
    (l : Option Location) :
    freeInteger negative text l = (integer negative text l).mapError .literal := by
  obtain ⟨body, digits, hs, hr, hd, hn, -⟩ := h.parts
  have hne : text.isEmpty = false := by
    cases text with
    | nil =>
      cases hs
      cases hr
      exact absurd rfl hn
    | cons => rfl
  simp only [freeInteger, integer, integerValue, hne, hs, hr, hd.readInteger_eq hn,
    Bool.false_eq_true, if_false]
  cases magnitude radix digits with
  | error e => rfl
  | ok n =>
    simp only [Except.map, Except.mapError, bind, Except.bind, pure, Except.pure]
    cases inKind kind radix _ <;> rfl

end Lexeme

/-! ## Exactness -/

/-- A lexeme writes digits in one way. Decimal digits over the limit are refused by an exception that
escapes. Up to the limit a number without a radix mark is read as itself, if the kind has it; with
one the number may fill the width of the kind, and is read as the one number of the kind that is the
same modulo the width. All other lexemes are out of range. -/
theorem integer_exact {text : List Char} (ht : Terminal.IsLexeme .integer text) (negative : Bool)
    (l : Option Location) :
    ∃ (kind : IntegerKind) (radix : Nat) (ds : List Nat) (n : Int), Writes text kind radix ds ∧
      (∀ kind' radix' ds', Writes text kind' radix' ds' →
        kind' = kind ∧ radix' = radix ∧ ds' = ds) ∧
      n = signed negative radix ds ∧
      (kind, kind.width) ∈ [(.int, 63), (.int32, 32), (.int64, 64), (.nativeint, 64)] ∧
      (radix = 10 → 4300 < ds.length → integer negative text l = .error .tooManyDigits) ∧
      (radix = 10 → ds.length ≤ 4300 → integer negative text l =
        if InRange kind n then .ok (written negative text kind n l)
        else .error (.outOfRange kind)) ∧
      (radix ≠ 10 → |n| ≤ 2 ^ kind.width - 1 → ∃ m,
        (∀ m', InRange kind m' ∧ m' ≡ n [ZMOD 2 ^ kind.width] ↔ m' = m) ∧
          integer negative text l = .ok (written negative text kind m l)) ∧
      (radix ≠ 10 → ¬ |n| ≤ 2 ^ kind.width - 1 →
        integer negative text l = .error (.outOfRange kind)) ∧
      (∀ place, (ParseError.badLiteral ⟨.outOfRange kind, place⟩).escapes = false ∧
        (ParseError.badLiteral ⟨.outOfRange kind, place⟩).code.toText = "E0002") ∧
      (∀ place, (ParseError.badLiteral ⟨.tooManyDigits, place⟩).escapes = true) ∧
      freeInteger negative text l = (integer negative text l).mapError .literal := by
  obtain ⟨kind, radix, ds, hw⟩ := exists_writes ht
  have hwidth : ∀ k : IntegerKind,
      (k, k.width) ∈ [(.int, 63), (.int32, 32), (.int64, 64), (.nativeint, 64)] := by
    rintro (_ | _ | _ | _) <;> decide
  have hmarked (hr : radix ≠ 10) := hw.integer_eq (fun h => absurd h hr) negative l
  refine ⟨kind, radix, ds, signed negative radix ds, hw, fun _ _ _ => hw.unique, rfl, hwidth kind,
    ?many, ?decimal, ?marked, ?beyond, fun _ => ⟨rfl, rfl⟩, fun _ => rfl,
    hw.freeInteger_eq negative l⟩
  case many =>
    rintro rfl hlong
    exact hw.integer_of_tooMany hlong negative l
  case decimal =>
    rintro rfl hfew
    rw [hw.integer_eq (fun _ => hfew), inKind_decimal]
    simp only [holds_iff]
    by_cases hrange : InRange kind (signed negative 10 ds)
    · rw [if_pos hrange, if_pos hrange]
      rfl
    · rw [if_neg hrange, if_neg hrange]
      rfl
  case marked =>
    intro hr hfits
    obtain ⟨hrange, hmod⟩ := wrap_spec kind (signed negative radix ds)
    refine ⟨wrap kind (signed negative radix ds), fun m => ⟨?_, ?_⟩, ?_⟩
    · rintro ⟨hm, hmn⟩
      exact eq_of_modEq (holds_iff.mpr hm) hrange (hmn.trans hmod.symm)
    · rintro rfl
      exact ⟨holds_iff.mp hrange, hmod⟩
    · rw [hmarked hr, inKind_marked hr hfits]
      rfl
  case beyond =>
    intro hr hfits
    rw [hmarked hr, inKind_beyond hfits]
    rfl

/-- The lexeme `0xFFFF_FFFFl` behind a minus sign is read as 1. -/
theorem integer_exact_negated_mask :
    Terminal.IsLexeme .integer "0xFFFF_FFFFl".toList ∧
      integer true "0xFFFF_FFFFl".toList none =
        .ok ⟨.int 1, some (.integer .int32), some "-0xFFFF_FFFFl", none⟩ := by
  have hlexeme : Terminal.IsLexeme .integer "0xFFFF_FFFFl".toList :=
    ⟨"0xFFFF_FFFF".toList, ['l'], by decide, .inr ⟨'x', _, "FFFF_FFFF".toList, by decide, rfl,
      .of_all 'F' "FFF_FFFF".toList (by decide) (by decide)⟩, .inr (.inl rfl)⟩
  have hspells : Spells 16 "FFFF_FFFF".toList (List.replicate 8 15) := by
    repeat' first
      | exact .nil
      | refine .underscore ?_
      | refine .digit (by decide) (by decide) ?_
  have hwrites : Writes "0xFFFF_FFFFl".toList .int32 16 (List.replicate 8 15) :=
    ⟨['0', 'x'], 'F', "FFF_FFFF".toList, by decide, by decide, by decide, hspells⟩
  obtain ⟨kind, radix, ds, n, -, hunique, hn, -, -, -, hmarked, -⟩ :=
    integer_exact hlexeme true none
  obtain ⟨rfl, rfl, rfl⟩ := hunique _ _ _ hwrites
  subst hn
  obtain ⟨m, hm, hread⟩ := hmarked (by decide) (by decide)
  have hone : (1 : Int) = m := (hm 1).mp (by decide)
  subst hone
  exact ⟨hlexeme, hread⟩

/-! ## The limit on digits -/

/-- A digit as often as digits are read, and one more behind it. -/
def overlong (c : Char) : List Char := List.replicate maxDecimalDigits c ++ ['1']

theorem Spells.replicate {radix d : Nat} {c : Char} {cs : List Char} {ds : List Nat}
    (hd : d < radix) (hc : IsDigit c d) (hs : Spells radix cs ds) (n : Nat) :
    Spells radix (List.replicate n c ++ cs) (List.replicate n d ++ ds) := by
  induction n with
  | zero => exact hs
  | succ n ih =>
    rw [List.replicate_succ, List.replicate_succ]
    exact .digit hd hc ih

section

variable {c : Char} {d : Nat}

theorem overlong_cons (c : Char) :
    overlong c = c :: (List.replicate (maxDecimalDigits - 1) c ++ ['1']) := rfl

theorem isInteger_overlong (hc : c.isDigit = true) : Terminal.IsInteger (overlong c) := by
  refine ⟨overlong c, [], (List.append_nil _).symm, .inl ?_, .inl rfl⟩
  refine ⟨c, _, overlong_cons c, hc, List.forall_mem_append.mpr ⟨fun x hx => ?_, ?_⟩⟩
  · rw [List.eq_of_mem_replicate hx]
    exact Terminal.isDecimal_of_isDigit hc
  · exact List.forall_mem_singleton.mpr rfl

theorem writes_overlong (hd : d < 10) (hc : IsDigit c d) :
    Writes (overlong c) .int 10 (List.replicate maxDecimalDigits d ++ [1]) := by
  have hone : Spells 10 ['1'] [1] := .digit (by decide) (by decide) .nil
  have hall : Spells 10 (overlong c) (List.replicate maxDecimalDigits d ++ [1]) :=
    hone.replicate hd hc maxDecimalDigits
  have hnil : IntegerKind.int.suffix.toList = [] := by decide
  rw [overlong_cons] at hall ⊢
  exact ⟨[], c, _, by rw [hnil, List.append_nil, List.nil_append], by decide,
    hc.ne_underscore (by omega), hall⟩

theorem lt_length_overlong (d : Nat) :
    maxDecimalDigits < (List.replicate maxDecimalDigits d ++ [1]).length := by
  rw [List.length_append, List.length_replicate]
  exact Nat.lt_succ_self _

/-- Ones over the limit form a number that is in no range. -/
theorem outOfRange_overlong : OutOfRange false (overlong '1') := by
  have hones := writes_overlong (c := '1') (d := 1) (by decide) (by decide)
  refine ⟨_, _, _, hones, fun hrange => ?_, fun h => h.1 rfl⟩
  have hsplit : (List.replicate maxDecimalDigits 1 ++ [1]).reverse =
      List.replicate 20 1 ++ List.replicate (maxDecimalDigits - 19) 1 := by
    rw [← List.replicate_succ', List.reverse_replicate, List.replicate_append_replicate]
    rfl
  have hfirst : Nat.ofDigits 10 (List.replicate 20 1) = 11111111111111111111 := by decide
  have hlarge : 11111111111111111111 ≤ number 10 (List.replicate maxDecimalDigits 1 ++ [1]) := by
    rw [number, hsplit, Nat.ofDigits_append, hfirst]
    exact Nat.le_add_right _ _
  have hle : (number 10 (List.replicate maxDecimalDigits 1 ++ [1]) : Int) ≤ 2 ^ 62 - 1 := hrange.2
  omega

/-- Zeros at the front do not change the number. -/
theorem inRange_overlong :
    InRange .int (signed false 10 (List.replicate maxDecimalDigits 0 ++ [1])) := by
  have hone : number 10 (List.replicate maxDecimalDigits 0 ++ [1]) = 1 := by
    rw [number, List.reverse_append, List.reverse_replicate, Nat.ofDigits_append_replicate_zero]
    rfl
  rw [signed, hone]
  decide

end

/-- One digit over the limit an integer is refused by an exception that escapes, be it out of range
as ones are or in range as zeros with a one behind them. -/
theorem integer_limited :
    (Terminal.IsLexeme .integer (overlong '1') ∧ OutOfRange false (overlong '1') ∧
      integer false (overlong '1') none = .error .tooManyDigits) ∧
    (Terminal.IsLexeme .integer (overlong '0') ∧
      (∃ ds, Writes (overlong '0') .int 10 ds ∧ InRange .int (signed false 10 ds)) ∧
      integer false (overlong '0') none = .error .tooManyDigits) ∧
    ∀ place, (ParseError.badLiteral ⟨.tooManyDigits, place⟩).escapes = true := by
  have hones := writes_overlong (c := '1') (d := 1) (by decide) (by decide)
  have hzeros := writes_overlong (c := '0') (d := 0) (by decide) (by decide)
  refine ⟨⟨isInteger_overlong rfl, outOfRange_overlong, ?_⟩,
    ⟨isInteger_overlong rfl, ⟨_, hzeros, inRange_overlong⟩, ?_⟩, fun _ => rfl⟩
  · exact hones.integer_of_tooMany (lt_length_overlong 1) false none
  · exact hzeros.integer_of_tooMany (lt_length_overlong 0) false none

end MessageLang.Literal
