import MessageLang.Grammar.Terminal
/-!
# Lexemes

The lexemes of each class as a predicate on texts of its own. The widths of lexemes at the head of a
text are the lengths of these: what is cut off is a lexeme, and a lexeme is cut off whole before any
text that does not go on with a word.

* `Terminal.IsLexeme t w`: `w` is a lexeme of class `t`.
* `exists_isLexeme`: what is cut off is a lexeme.
* `width_append`: a lexeme is cut off whole.
-/
namespace MessageLang.Terminal

/-! ## The lexemes of the classes -/

/-- A character of one class and then characters of another. -/
def IsRun (first more : Char → Bool) (w : List Char) : Prop :=
  ∃ c body, w = c :: body ∧ first c = true ∧ ∀ d ∈ body, more d = true

/-- A name behind any number of capitalised names with points. -/
inductive IsLongName : List Char → Prop where
  | word {w : List Char} : IsRun isLetter isNameChar w → IsLongName w
  | path {m n : List Char} :
    IsRun Char.isUpper isNameChar m → IsLongName n → IsLongName (m ++ '.' :: n)

/-- Words joined by points. -/
inductive IsDotted : List Char → Prop where
  | word {w : List Char} : IsRun isLower isWord w → IsDotted w
  | path {m n : List Char} : IsRun isLower isWord m → IsDotted n → IsDotted (m ++ '.' :: n)

/-- A mark, a sign perhaps, and digits. -/
def IsExponent (w : List Char) : Prop :=
  ∃ mark sign ds, w = mark :: (sign ++ ds) ∧ (mark = 'e' ∨ mark = 'E') ∧
    (sign = [] ∨ sign = ['+'] ∨ sign = ['-']) ∧ IsRun Char.isDigit isDecimal ds

/-- Digits with a point, an exponent or both. -/
def IsFloat (w : List Char) : Prop :=
  ∃ ds, IsRun Char.isDigit isDecimal ds ∧
    ((∃ es x, w = ds ++ '.' :: (es ++ x) ∧ (∀ c ∈ es, isDecimal c = true) ∧
        (x = [] ∨ IsExponent x)) ∨
      ∃ x, w = ds ++ x ∧ IsExponent x)

/-- Digits, or a radix mark and the digits it asks for. -/
def IsMagnitude (w : List Char) : Prop :=
  IsRun Char.isDigit isDecimal w ∨
    ∃ mark digit ds, w = '0' :: mark :: ds ∧ radixDigit? mark = some digit ∧
      IsRun digit (fun c => digit c || c == '_') ds

/-- The suffixes of integers. -/
def IsSuffix (w : List Char) : Prop := w = [] ∨ w = ['l'] ∨ w = ['L'] ∨ w = ['n']

def IsInteger (w : List Char) : Prop :=
  ∃ ds suffix, w = ds ++ suffix ∧ IsMagnitude ds ∧ IsSuffix suffix

/-- A string behind its opening quote. -/
inductive IsStringRest : List Char → Prop where
  | close : IsStringRest ['"']
  | escape {c : Char} {w : List Char} : IsStringRest w → IsStringRest ('\\' :: c :: w)
  | plain {c : Char} {w : List Char} :
    c ≠ '"' → c ≠ '\\' → IsStringRest w → IsStringRest (c :: w)

/-- What a backslash escapes in a character literal. -/
def IsCharEscape (w : List Char) : Prop :=
  (∃ c, w = [c] ∧ isEscapable c = true) ∨
    ∃ a b c, w = [a, b, c] ∧ isEscapable a = false ∧
      ((a.isDigit && b.isDigit && c.isDigit) || (a == 'x' && isHexDigit b && isHexDigit c)) = true

/-- What stands between the quotes of a character literal. -/
def IsCharBody (w : List Char) : Prop :=
  (∃ c, w = [c] ∧ c ≠ '\'' ∧ c ≠ '\\' ∧ c ≠ '\n') ∨ ∃ e, w = '\\' :: e ∧ IsCharEscape e

/-- The lexemes of a class; layout has none. -/
def IsLexeme : Terminal → List Char → Prop
  | float, w => IsFloat w
  | optionalLabel, w => ∃ n, w = '?' :: (n ++ [':']) ∧ IsRun isLower isNameChar n
  | label, w => ∃ n, w = '~' :: (n ++ [':']) ∧ IsRun isLower isNameChar n
  | integer, w => IsInteger w
  | longName, w => IsLongName w
  | extensionName, w => IsDotted w
  | optionalName, w => ∃ n, w = '?' :: n ∧ IsRun isLower isNameChar n
  | labelledName, w => ∃ n, w = '~' :: n ∧ IsRun isLower isNameChar n
  | name, w => IsRun isLower isNameChar w
  | string, w => ∃ r, w = '"' :: r ∧ IsStringRest r
  | comment, _ | blank, _ => False
  | char, w => ∃ b, w = '\'' :: (b ++ ['\'']) ∧ IsCharBody b
  | openExtension, w => w = ['[', '%']
  | sign, w => w = ['+'] ∨ w = ['-']
  | colon, w => w = [':']
  | comma, w => w = [',']
  | caret, w => w = ['^']
  | equals, w => w = ['=']
  | openParen, w => w = ['(']
  | openBracket, w => w = ['[']
  | star, w => w = ['*']
  | closeParen, w => w = [')']
  | closeBracket, w => w = [']']
  | semicolon, w => w = [';']

/-- A text that does not go on with a word: it is empty or starts with a character that words do
not hold. -/
def Apart (rest : List Char) : Prop := ∀ c, rest.head? = some c → isNameChar c = false ∧ c ≠ '.'

/-! ## Classes of characters -/

section Classes

variable {c : Char}

theorem isAlpha_eq (c : Char) : c.isAlpha = (c.isUpper || c.isLower) := rfl

theorem isUpper_iff : c.isUpper = true ↔ 0x41 ≤ c.toNat ∧ c.toNat ≤ 0x5a := by
  show decide (_ ∧ _) = true ↔ _
  rw [decide_eq_true_iff]
  exact Iff.rfl

theorem isLower_iff : c.isLower = true ↔ 0x61 ≤ c.toNat ∧ c.toNat ≤ 0x7a := by
  show (decide _ && decide _) = true ↔ _
  rw [Bool.and_eq_true, decide_eq_true_iff, decide_eq_true_iff]
  exact Iff.rfl

theorem isDigit_iff : c.isDigit = true ↔ 0x30 ≤ c.toNat ∧ c.toNat ≤ 0x39 := by
  show (decide _ && decide _) = true ↔ _
  rw [Bool.and_eq_true, decide_eq_true_iff, decide_eq_true_iff]
  exact Iff.rfl

theorem le_iff_toNat {c d : Char} : c ≤ d ↔ c.toNat ≤ d.toNat := Iff.rfl

theorem isLetter_iff : isLetter c = true ↔ 0x41 ≤ c.toNat ∧ c.toNat ≤ 0x5a ∨
    0x61 ≤ c.toNat ∧ c.toNat ≤ 0x7a ∨ c = '_' := by
  simp only [isLetter, isAlpha_eq, Bool.or_eq_true, isUpper_iff, isLower_iff, beq_iff_eq, or_assoc]

theorem isNameChar_iff : isNameChar c = true ↔ 0x41 ≤ c.toNat ∧ c.toNat ≤ 0x5a ∨
    0x61 ≤ c.toNat ∧ c.toNat ≤ 0x7a ∨ 0x30 ≤ c.toNat ∧ c.toNat ≤ 0x39 ∨ c = '_' ∨ c = '\'' := by
  simp only [isNameChar, isWord, Char.isAlphanum, isAlpha_eq, Bool.or_eq_true, isUpper_iff,
    isLower_iff, isDigit_iff, beq_iff_eq, or_assoc]

theorem isNameChar_of_isWord (h : isWord c = true) : isNameChar c = true := by
  simp [isNameChar, h]

theorem isNameChar_of_isHexDigit (h : isHexDigit c = true) : isNameChar c = true := by
  simp only [isHexDigit, Bool.or_eq_true, Bool.and_eq_true, decide_eq_true_iff, isDigit_iff,
    le_iff_toNat, Char.reduceToNat] at h
  rw [isNameChar_iff]
  omega

theorem isNameChar_of_isOctalDigit (h : isOctalDigit c = true) : isNameChar c = true := by
  simp only [isOctalDigit, Bool.and_eq_true, decide_eq_true_iff, le_iff_toNat,
    Char.reduceToNat] at h
  rw [isNameChar_iff]
  omega

theorem isNameChar_of_isBinaryDigit (h : isBinaryDigit c = true) : isNameChar c = true := by
  simp only [isBinaryDigit, Bool.or_eq_true, beq_iff_eq] at h
  rcases h with rfl | rfl <;> decide

theorem isNameChar_of_isDecimal (h : isDecimal c = true) : isNameChar c = true := by
  simp only [isDecimal, Bool.or_eq_true] at h
  simp only [isNameChar, isWord, Char.isAlphanum, Bool.or_eq_true]
  rcases h with h | h <;> simp [h]

theorem isNameChar_of_isLetter (h : isLetter c = true) : isNameChar c = true := by
  simp only [isLetter, Bool.or_eq_true] at h
  simp only [isNameChar, isWord, Char.isAlphanum, Bool.or_eq_true]
  rcases h with h | h <;> simp [h]

theorem isLetter_of_isLower (h : isLower c = true) : isLetter c = true := by
  simp only [isLower, Bool.or_eq_true] at h
  simp only [isLetter, isAlpha_eq, Bool.or_eq_true]
  rcases h with h | h <;> simp [h]

theorem isDecimal_of_isDigit (h : c.isDigit = true) : isDecimal c = true := by
  simp [isDecimal, h]

end Classes

/-- No class of characters of words holds what comes after a word. -/
theorem Apart.not_mem {rest : List Char} (h : Apart rest) {p : Char → Bool}
    (hp : ∀ c, p c = true → isNameChar c = true) : ∀ c, rest.head? = some c → p c = false := by
  intro c hc
  cases hpc : p c with
  | false => rfl
  | true => rw [← (h c hc).1, hp c hpc]

/-! ## Runs -/

/-- A run goes on to the first character that is not in the class. -/
theorem takeWhile_append_stop {p : Char → Bool} {body rest : List Char}
    (hb : ∀ c ∈ body, p c = true) (hr : ∀ c, rest.head? = some c → p c = false) :
    (body ++ rest).takeWhile p = body := by
  rw [List.takeWhile_append_of_pos hb]
  cases rest with
  | nil => simp
  | cons c rest => rw [List.takeWhile_cons_of_neg (by simp [hr c rfl]), List.append_nil]

/-- A text is a run and what does not go on with it. -/
theorem exists_takeWhile (p : Char → Bool) (cs : List Char) :
    ∃ body rest, cs = body ++ rest ∧ cs.takeWhile p = body ∧ (∀ c ∈ body, p c = true) ∧
      ∀ c, rest.head? = some c → p c = false := by
  refine ⟨cs.takeWhile p, cs.dropWhile p, List.takeWhile_append_dropWhile.symm, rfl, ?_, ?_⟩
  · intro c hc
    exact List.all_eq_true.mp List.all_takeWhile c hc
  · intro c hc
    have := List.head?_dropWhile_not p cs
    rw [hc] at this
    simpa using this

section Run

variable {first more : Char → Bool} {w rest : List Char}

theorem IsRun.of_all (c : Char) (body : List Char) (hc : first c = true)
    (hb : body.all more = true) : IsRun first more (c :: body) :=
  ⟨c, body, rfl, hc, List.all_eq_true.mp hb⟩

theorem IsRun.ne_nil (h : IsRun first more w) : w ≠ [] := by
  obtain ⟨c, body, rfl, -, -⟩ := h
  exact List.cons_ne_nil c body

theorem IsRun.first_head {c : Char} {v : List Char} (h : IsRun first more w)
    (he : w ++ rest = c :: v) : first c = true := by
  obtain ⟨d, body, rfl, hd, -⟩ := h
  rw [List.cons_append] at he
  cases he
  exact hd

/-- A run is taken up whole before a text that does not go on with it. -/
theorem IsRun.run_append (h : IsRun first more w)
    (hr : ∀ d, rest.head? = some d → more d = false) : run first more (w ++ rest) = w.length := by
  obtain ⟨c, body, rfl, hc, hb⟩ := h
  simp only [List.cons_append, run, hc, if_true, takeWhile_append_stop hb hr, List.length_cons]

/-- What a run takes up, and what does not go on with it. -/
theorem exists_of_run_ne_zero {cs : List Char} (h : run first more cs ≠ 0) :
    ∃ w rest, cs = w ++ rest ∧ IsRun first more w ∧ run first more cs = w.length ∧
      ∀ d, rest.head? = some d → more d = false := by
  cases cs with
  | nil => exact absurd rfl h
  | cons c cs =>
    have hc : first c = true := by
      cases hc : first c with
      | true => rfl
      | false => simp [run, hc] at h
    obtain ⟨body, rest, rfl, -, hb, hr⟩ := exists_takeWhile more cs
    have hw : IsRun first more (c :: body) := ⟨c, body, rfl, hc, hb⟩
    exact ⟨c :: body, rest, rfl, hw, hw.run_append hr, hr⟩

end Run

/-! ## Names -/


theorem isRun_isNameChar {first : Char → Bool} {w rest : List Char}
    (h : IsRun first isNameChar w) (hr : Apart rest) :
    run first isNameChar (w ++ rest) = w.length :=
  h.run_append (hr.not_mem fun _ h => h)

theorem marked_append {mark : Char} {n rest : List Char} (h : IsRun isLower isNameChar n)
    (hr : ∀ c, rest.head? = some c → isNameChar c = false) :
    marked mark (mark :: (n ++ rest)) = n.length + 1 := by
  have hn : n.length ≠ 0 := fun e => h.ne_nil (List.eq_nil_of_length_eq_zero e)
  simp only [marked, beq_self_eq_true, if_true, h.run_append hr, behind, beq_iff_eq, if_neg hn]
  omega

theorem exists_of_marked_ne_zero {mark : Char} {cs : List Char} (h : marked mark cs ≠ 0) :
    ∃ n rest, cs = mark :: (n ++ rest) ∧ IsRun isLower isNameChar n ∧
      (∀ c, rest.head? = some c → isNameChar c = false) := by
  cases cs with
  | nil => exact absurd rfl h
  | cons c cs =>
    simp only [marked, behind] at h
    split at h
    · rename_i hc
      rw [beq_iff_eq] at hc
      subst hc
      split at h
      · exact absurd rfl h
      · rename_i hn
        obtain ⟨n, rest, rfl, hn, -, hr⟩ := exists_of_run_ne_zero (by simpa using hn)
        exact ⟨n, rest, rfl, hn, hr⟩
    · exact absurd rfl h

theorem only_ne_zero {c : Char} {cs : List Char} (h : only c cs ≠ 0) : ∃ rest, cs = c :: rest := by
  cases cs with
  | nil => exact absurd rfl h
  | cons d cs =>
    simp only [only] at h
    split at h
    · rename_i hd
      rw [beq_iff_eq] at hd
      exact ⟨cs, by rw [hd]⟩
    · exact absurd rfl h

theorem only_cons (c : Char) (rest : List Char) : only c (c :: rest) = 1 := by simp [only]

theorem colon_stop (rest : List Char) :
    ∀ c, (':' :: rest).head? = some c → isNameChar c = false := by
  intro c hc
  cases hc
  decide

theorem point_stop (rest : List Char) {more : Char → Bool}
    (h : ∀ c, more c = true → isNameChar c = true) :
    ∀ c, ('.' :: rest).head? = some c → more c = false := by
  intro c hc
  cases hc
  cases hp : more '.' with
  | false => rfl
  | true => exact absurd (h '.' hp) (by decide)

theorem markedColon_append {mark : Char} {n : List Char} (h : IsRun isLower isNameChar n)
    (rest : List Char) : markedColon mark (mark :: (n ++ ':' :: rest)) = n.length + 2 := by
  have hm : marked mark (mark :: (n ++ ':' :: rest)) = n.length + 1 :=
    marked_append h (colon_stop rest)
  have hd : (mark :: (n ++ ':' :: rest)).drop (n.length + 1) = ':' :: rest := by
    rw [List.drop_succ_cons, List.drop_left]
  simp only [markedColon, hm, hd, only_cons, behind]
  simp

theorem exists_of_markedColon_ne_zero {mark : Char} {cs : List Char} (h : markedColon mark cs ≠ 0) :
    ∃ n rest, cs = mark :: (n ++ ':' :: rest) ∧ IsRun isLower isNameChar n := by
  have hm : marked mark cs ≠ 0 := by
    intro e
    simp [markedColon, e] at h
  obtain ⟨n, rest, rfl, hn, hr⟩ := exists_of_marked_ne_zero hm
  have hd : (mark :: (n ++ rest)).drop (n.length + 1) = rest := by
    rw [List.drop_succ_cons, List.drop_left]
  have ho : only ':' rest ≠ 0 := by
    intro e
    simp [markedColon, marked_append hn hr, hd, e, behind] at h
  obtain ⟨rest, rfl⟩ := only_ne_zero ho
  exact ⟨n, rest, rfl, hn⟩

/-- A name that no point follows is a word. -/
theorem longNameWidth_of_no_point {cs : List Char}
    (h : ∀ rest, cs.drop (run isLetter isNameChar cs) ≠ '.' :: rest) :
    longNameWidth cs = run isLetter isNameChar cs := by
  rw [longNameWidth]
  split
  · rename_i rest hd
    exact absurd hd (h rest)
  · rfl

theorem longNameWidth_of_point {cs rest : List Char}
    (h : cs.drop (run isLetter isNameChar cs) = '.' :: rest) :
    longNameWidth cs =
      if cs.head?.any Char.isUpper && longNameWidth rest != 0 then
        run isLetter isNameChar cs + 1 + longNameWidth rest
      else run isLetter isNameChar cs := by
  rw [longNameWidth]
  split
  · rename_i rest' hd
    rw [h] at hd
    cases hd
    rfl
  · rename_i hd
    exact absurd h (hd rest)

theorem IsRun.mono {first first' more : Char → Bool} {w : List Char} (h : IsRun first more w)
    (hf : ∀ c, first c = true → first' c = true) : IsRun first' more w := by
  obtain ⟨c, body, rfl, hc, hb⟩ := h
  exact ⟨c, body, rfl, hf c hc, hb⟩

/-- What holds of both classes of characters holds of all in a run. -/
theorem IsRun.forall_mem {first more : Char → Bool} {w : List Char} {P : Char → Prop}
    (h : IsRun first more w) (hf : ∀ c, first c = true → P c) (hm : ∀ c, more c = true → P c) :
    ∀ c ∈ w, P c := by
  obtain ⟨c, body, rfl, hc, hb⟩ := h
  exact List.forall_mem_cons.mpr ⟨hf c hc, fun d hd => hm d (hb d hd)⟩

theorem isLetter_of_isUpper {c : Char} (h : c.isUpper = true) : isLetter c = true := by
  simp [isLetter, isAlpha_eq, h]

theorem IsLongName.ne_nil {w : List Char} (h : IsLongName w) : w ≠ [] := by
  cases h with
  | word h => exact h.ne_nil
  | path h _ => exact List.append_ne_nil_of_left_ne_nil h.ne_nil _

theorem IsLongName.width_append {w rest : List Char} (h : IsLongName w) (hr : Apart rest) :
    longNameWidth (w ++ rest) = w.length := by
  induction h with
  | @word w h =>
    have e := isRun_isNameChar h hr
    rw [longNameWidth_of_no_point, e]
    intro tail hd
    rw [e, List.drop_left] at hd
    subst hd
    exact (hr '.' rfl).2 rfl
  | @path m n hm hn ih =>
    have e : run isLetter isNameChar (m ++ '.' :: (n ++ rest)) = m.length :=
      (hm.mono fun c => isLetter_of_isUpper).run_append (point_stop _ fun _ h => h)
    have hu : ((m ++ '.' :: (n ++ rest)).head?.any Char.isUpper) = true := by
      obtain ⟨c, body, rfl, hc, -⟩ := hm
      exact hc
    have hl : longNameWidth (n ++ rest) ≠ 0 := by
      rw [ih]
      exact fun e => hn.ne_nil (List.eq_nil_of_length_eq_zero e)
    have hdrop : (m ++ '.' :: (n ++ rest)).drop
        (run isLetter isNameChar (m ++ '.' :: (n ++ rest))) = '.' :: (n ++ rest) := by
      rw [e, List.drop_left]
    rw [ih] at hl
    have hpos : (n.length != 0) = true := by simpa using hl
    rw [List.append_assoc, List.cons_append, longNameWidth_of_point hdrop, e, ih, hu, hpos]
    rw [Bool.true_and, if_pos rfl]
    simp only [List.length_append, List.length_cons]
    omega

/-- Where no word starts, no long name does. -/
theorem longNameWidth_eq_zero {cs : List Char}
    (h : run isLetter isNameChar cs = 0) : longNameWidth cs = 0 := by
  rw [longNameWidth]
  split
  · rename_i rest hd
    rw [h, List.drop_zero] at hd
    subst hd
    simpa using h
  · exact h

theorem exists_of_longNameWidth_ne_zero {cs : List Char} (h : longNameWidth cs ≠ 0) :
    ∃ w rest, cs = w ++ rest ∧ IsLongName w ∧ longNameWidth cs = w.length := by
  -- on the length of the text, as what is behind a point is no direct part of it
  induction hk : cs.length using Nat.strongRecOn generalizing cs with
  | ind k ih =>
    have hrun : run isLetter isNameChar cs ≠ 0 :=
      fun e => h (longNameWidth_eq_zero e)
    obtain ⟨w, rest, rfl, hw, e, -⟩ := exists_of_run_ne_zero hrun
    have hd : (w ++ rest).drop (run isLetter isNameChar (w ++ rest)) = rest := by
      rw [e, List.drop_left]
    by_cases hp : ∃ tail, rest = '.' :: tail
    · obtain ⟨tail, rfl⟩ := hp
      have hl := longNameWidth_of_point hd
      by_cases hc : ((w ++ '.' :: tail).head?.any Char.isUpper && longNameWidth tail != 0) = true
      · rw [if_pos hc, e] at hl
        simp only [Bool.and_eq_true, bne_iff_ne] at hc
        obtain ⟨n, rest, rfl, hn, en⟩ := ih tail.length
          (by rw [← hk]; simp only [List.length_append, List.length_cons]; omega) hc.2 rfl
        obtain ⟨c, body, rfl, -, hb⟩ := hw
        refine ⟨(c :: body) ++ '.' :: n, rest, by simp, .path ⟨c, body, rfl, hc.1, hb⟩ hn, ?_⟩
        rw [hl, en]
        simp only [List.length_append, List.length_cons]
        omega
      · rw [if_neg hc, e] at hl
        exact ⟨w, _, rfl, .word hw, hl⟩
    · have hl : longNameWidth (w ++ rest) = run isLetter isNameChar (w ++ rest) :=
        longNameWidth_of_no_point fun tail ht => hp ⟨tail, by rw [← ht, hd]⟩
      exact ⟨w, rest, rfl, .word hw, by rw [hl, e]⟩

theorem dottedWidth_of_no_point {cs : List Char}
    (h : ∀ rest, cs.drop (run isLower isWord cs) ≠ '.' :: rest) :
    dottedWidth cs = run isLower isWord cs := by
  rw [dottedWidth]
  split
  · rename_i hn
    rw [beq_iff_eq] at hn
    exact hn.symm
  · split
    · rename_i rest hd
      exact absurd hd (h rest)
    · rfl

theorem dottedWidth_of_point {cs rest : List Char} (hn : run isLower isWord cs ≠ 0)
    (h : cs.drop (run isLower isWord cs) = '.' :: rest) :
    dottedWidth cs =
      if dottedWidth rest != 0 then run isLower isWord cs + 1 + dottedWidth rest
      else run isLower isWord cs := by
  rw [dottedWidth, if_neg (by simpa using hn)]
  split
  · rename_i rest' hd
    rw [h] at hd
    cases hd
    rfl
  · rename_i hd
    exact absurd h (hd rest)

theorem IsDotted.ne_nil {w : List Char} (h : IsDotted w) : w ≠ [] := by
  cases h with
  | word h => exact h.ne_nil
  | path h _ => exact List.append_ne_nil_of_left_ne_nil h.ne_nil _

theorem IsRun.length_ne_zero {first more : Char → Bool} {w : List Char} (h : IsRun first more w) :
    w.length ≠ 0 :=
  fun e => h.ne_nil (List.eq_nil_of_length_eq_zero e)

theorem IsDotted.width_append {w rest : List Char} (h : IsDotted w) (hr : Apart rest) :
    dottedWidth (w ++ rest) = w.length := by
  induction h with
  | @word w h =>
    have e : run isLower isWord (w ++ rest) = w.length :=
      h.run_append (hr.not_mem fun _ => isNameChar_of_isWord)
    rw [dottedWidth_of_no_point, e]
    intro tail hd
    rw [e, List.drop_left] at hd
    subst hd
    exact (hr '.' rfl).2 rfl
  | @path m n hm hn ih =>
    have e : run isLower isWord (m ++ '.' :: (n ++ rest)) = m.length :=
      hm.run_append (point_stop _ fun _ => isNameChar_of_isWord)
    have hl : n.length ≠ 0 := fun e => hn.ne_nil (List.eq_nil_of_length_eq_zero e)
    have hdrop : (m ++ '.' :: (n ++ rest)).drop (run isLower isWord (m ++ '.' :: (n ++ rest))) =
        '.' :: (n ++ rest) := by
      rw [e, List.drop_left]
    rw [List.append_assoc, List.cons_append,
      dottedWidth_of_point (by rw [e]; exact hm.length_ne_zero) hdrop, e, ih,
      if_pos (by simpa using hl)]
    simp only [List.length_append, List.length_cons]
    omega

theorem exists_of_dottedWidth_ne_zero {cs : List Char} (h : dottedWidth cs ≠ 0) :
    ∃ w rest, cs = w ++ rest ∧ IsDotted w ∧ dottedWidth cs = w.length := by
  induction hk : cs.length using Nat.strongRecOn generalizing cs with
  | ind k ih =>
    have hrun : run isLower isWord cs ≠ 0 := by
      intro e
      rw [dottedWidth, if_pos (by rw [e]; rfl)] at h
      exact h rfl
    obtain ⟨w, rest, rfl, hw, e, -⟩ := exists_of_run_ne_zero hrun
    have hd : (w ++ rest).drop (run isLower isWord (w ++ rest)) = rest := by
      rw [e, List.drop_left]
    by_cases hp : ∃ tail, rest = '.' :: tail
    · obtain ⟨tail, rfl⟩ := hp
      have hl := dottedWidth_of_point hrun hd
      by_cases hc : dottedWidth tail = 0
      · rw [if_neg (by simpa using hc), e] at hl
        exact ⟨w, _, rfl, .word hw, hl⟩
      · rw [if_pos (by simpa using hc), e] at hl
        obtain ⟨n, rest, rfl, hn, en⟩ := ih tail.length
          (by rw [← hk]; simp only [List.length_append, List.length_cons]; omega) hc rfl
        refine ⟨w ++ '.' :: n, rest, by simp, .path hw hn, ?_⟩
        rw [hl, en]
        simp only [List.length_append, List.length_cons]
        omega
    · have hl : dottedWidth (w ++ rest) = run isLower isWord (w ++ rest) :=
        dottedWidth_of_no_point fun tail ht => hp ⟨tail, by rw [← ht, hd]⟩
      exact ⟨w, rest, rfl, .word hw, by rw [hl, e]⟩

/-! ## Numbers -/

theorem behind_ne_zero {k n : Nat} (h : behind k n ≠ 0) : n ≠ 0 := by
  intro e
  simp [behind, e] at h

theorem behind_of_ne_zero {k n : Nat} (h : n ≠ 0) : behind k n = k + n := by simp [behind, h]

/-- Digits are taken up whole. -/
theorem IsRun.digits_append {ds rest : List Char} (h : IsRun Char.isDigit isDecimal ds)
    (hr : ∀ c, rest.head? = some c → isDecimal c = false) :
    run Char.isDigit isDecimal (ds ++ rest) = ds.length := h.run_append hr

theorem IsRun.head?_digits {ds : List Char} (h : IsRun Char.isDigit isDecimal ds) :
    ∃ d body, ds = d :: body ∧ d.isDigit = true := by
  obtain ⟨d, body, rfl, hd, -⟩ := h
  exact ⟨d, body, rfl, hd⟩

theorem exponentWidth_append {x rest : List Char} (h : IsExponent x) (hr : Apart rest) :
    exponentWidth (x ++ rest) = x.length := by
  obtain ⟨mark, sign, ds, rfl, hm, hs, hd⟩ := h
  have e : run Char.isDigit isDecimal (ds ++ rest) = ds.length :=
    hd.run_append (hr.not_mem fun _ => isNameChar_of_isDecimal)
  have hb : (mark == 'e' || mark == 'E') = true := by rcases hm with rfl | rfl <;> rfl
  rcases hs with rfl | rfl | rfl
  · obtain ⟨d, body, rfl, hd'⟩ := hd.head?_digits
    simp only [List.nil_append, List.cons_append, exponentWidth, hb, if_true]
    have hplus : d ≠ '+' := by intro heq; subst heq; cases hd'
    have hminus : d ≠ '-' := by intro heq; subst heq; cases hd'
    split
    · rename_i e; cases e; exact absurd rfl hplus
    · rename_i e; cases e; exact absurd rfl hminus
    · rw [List.cons_append] at e
      rw [e, behind_of_ne_zero (by simp)]
      simp only [List.length_cons]
      omega
  all_goals
    simp only [List.cons_append, List.nil_append, exponentWidth, hb, if_true, e,
      behind_of_ne_zero hd.length_ne_zero, List.length_cons]
    omega

theorem exponentWidth_eq_zero {c : Char} {rest : List Char} (h : isNameChar c = false) :
    exponentWidth (c :: rest) = 0 := by
  have hb : (c == 'e' || c == 'E') = false := by
    cases hb : c == 'e' || c == 'E' with
    | false => rfl
    | true =>
      simp only [Bool.or_eq_true, beq_iff_eq] at hb
      rcases hb with rfl | rfl <;> cases h
  simp [exponentWidth, hb]

theorem exponentWidth_eq_zero_of_apart {rest : List Char} (h : Apart rest) :
    exponentWidth rest = 0 := by
  cases rest with
  | nil => rfl
  | cons c rest => exact exponentWidth_eq_zero (h c rfl).1

theorem exists_of_exponentWidth_ne_zero {cs : List Char} (h : exponentWidth cs ≠ 0) :
    ∃ x rest, cs = x ++ rest ∧ IsExponent x ∧ exponentWidth cs = x.length := by
  cases cs with
  | nil => exact absurd rfl h
  | cons mark cs =>
    simp only [exponentWidth] at h ⊢
    by_cases hb : (mark == 'e' || mark == 'E') = true
    · have hm : mark = 'e' ∨ mark = 'E' := by simpa using hb
      simp only [hb, if_true] at h ⊢
      split at h
      all_goals
        obtain ⟨ds, rest, hcs, hd, e, -⟩ := exists_of_run_ne_zero (behind_ne_zero h)
        rw [e, behind_of_ne_zero hd.length_ne_zero]
      · exact ⟨mark :: ('+' :: ds), rest, by rw [hcs]; rfl, ⟨mark, ['+'], ds, rfl, hm, by simp, hd⟩,
          by simp only [List.length_cons]; omega⟩
      · exact ⟨mark :: ('-' :: ds), rest, by rw [hcs]; rfl, ⟨mark, ['-'], ds, rfl, hm, by simp, hd⟩,
          by simp only [List.length_cons]; omega⟩
      · exact ⟨mark :: ds, rest, by rw [hcs]; rfl, ⟨mark, [], ds, rfl, hm, by simp, hd⟩,
          by simp only [List.length_cons]; omega⟩
    · simp [hb] at h

/-- Digits and a point are a float, with as many digits behind the point as there are. -/
theorem floatWidth_of_point {ds es rest : List Char} (hd : IsRun Char.isDigit isDecimal ds)
    (he : ∀ c ∈ es, isDecimal c = true) (hr : ∀ c, rest.head? = some c → isDecimal c = false) :
    floatWidth (ds ++ '.' :: (es ++ rest)) = ds.length + 1 + es.length + exponentWidth rest := by
  have e : run Char.isDigit isDecimal (ds ++ '.' :: (es ++ rest)) = ds.length :=
    hd.digits_append (point_stop _ fun _ => isNameChar_of_isDecimal)
  simp only [floatWidth, e, beq_iff_eq, hd.length_ne_zero, if_false, List.drop_left,
    takeWhile_append_stop he hr]

/-- Digits that no point follows are a float if an exponent does. -/
theorem floatWidth_of_no_point {ds rest : List Char} (hd : IsRun Char.isDigit isDecimal ds)
    (hr : ∀ c, rest.head? = some c → isDecimal c = false) (hp : ∀ tail, rest ≠ '.' :: tail) :
    floatWidth (ds ++ rest) = behind ds.length (exponentWidth rest) := by
  simp only [floatWidth, hd.digits_append hr, beq_iff_eq, hd.length_ne_zero, if_false,
    List.drop_left]

theorem IsExponent.head? {x : List Char} (h : IsExponent x) :
    ∃ mark tail, x = mark :: tail ∧ isDecimal mark = false ∧ mark ≠ '.' := by
  obtain ⟨mark, sign, ds, rfl, hm, -, -⟩ := h
  rcases hm with rfl | rfl <;> exact ⟨_, _, rfl, by decide, by decide⟩

theorem IsExponent.length_ne_zero {x : List Char} (h : IsExponent x) : x.length ≠ 0 := by
  obtain ⟨mark, tail, rfl, -⟩ := h.head?
  simp

theorem IsFloat.width_append {w rest : List Char} (h : IsFloat w) (hr : Apart rest) :
    floatWidth (w ++ rest) = w.length := by
  have hr' := hr.not_mem fun _ => isNameChar_of_isDecimal
  obtain ⟨ds, hd, ⟨es, x, rfl, he, hx⟩ | ⟨x, rfl, hx⟩⟩ := h
  · rcases hx with rfl | hx
    · rw [List.append_nil, List.append_assoc, List.cons_append, floatWidth_of_point hd he hr',
        exponentWidth_eq_zero_of_apart hr]
      simp only [List.length_append, List.length_cons]
      omega
    · obtain ⟨mark, tail, rfl, hm, -⟩ := hx.head?
      have hs : ∀ c, ((mark :: tail) ++ rest).head? = some c → isDecimal c = false := by
        intro c hc
        cases hc
        exact hm
      rw [List.append_assoc, List.cons_append, List.append_assoc, floatWidth_of_point hd he hs,
        exponentWidth_append hx hr]
      simp only [List.length_append, List.length_cons]
      omega
  · have hne := hx.length_ne_zero
    have ex := exponentWidth_append hx hr
    obtain ⟨mark, tail, rfl, hm, hp⟩ := hx.head?
    have hs : ∀ c, ((mark :: tail) ++ rest).head? = some c → isDecimal c = false := by
      intro c hc
      cases hc
      exact hm
    have hn : ∀ t, (mark :: tail) ++ rest ≠ '.' :: t := fun t e => hp (List.cons.inj e).1
    rw [List.append_assoc, floatWidth_of_no_point hd hs hn, ex, behind_of_ne_zero hne,
      List.length_append]

theorem exists_of_floatWidth_ne_zero {cs : List Char} (h : floatWidth cs ≠ 0) :
    ∃ w rest, cs = w ++ rest ∧ IsFloat w ∧ floatWidth cs = w.length := by
  have hrun : run Char.isDigit isDecimal cs ≠ 0 := by
    intro e
    simp [floatWidth, e] at h
  obtain ⟨ds, rest, rfl, hd, -, hr⟩ := exists_of_run_ne_zero hrun
  by_cases hp : ∃ tail, rest = '.' :: tail
  · obtain ⟨tail, rfl⟩ := hp
    obtain ⟨es, rest, rfl, -, he, hs⟩ := exists_takeWhile isDecimal tail
    rw [floatWidth_of_point hd he hs]
    by_cases hx : exponentWidth rest = 0
    · refine ⟨ds ++ '.' :: (es ++ []), rest, by simp,
        ⟨ds, hd, .inl ⟨es, [], rfl, he, .inl rfl⟩⟩, ?_⟩
      rw [hx]
      simp only [List.length_append, List.length_cons, List.length_nil]
      omega
    · obtain ⟨x, rest, rfl, hx, ex⟩ := exists_of_exponentWidth_ne_zero hx
      refine ⟨ds ++ '.' :: (es ++ x), rest, by simp, ⟨ds, hd, .inl ⟨es, x, rfl, he, .inr hx⟩⟩, ?_⟩
      rw [ex]
      simp only [List.length_append, List.length_cons]
      omega
  · have hp' : ∀ tail, rest ≠ '.' :: tail := fun tail e => hp ⟨tail, e⟩
    rw [floatWidth_of_no_point hd hr hp'] at h ⊢
    obtain ⟨x, rest, rfl, hx, ex⟩ := exists_of_exponentWidth_ne_zero (behind_ne_zero h)
    refine ⟨ds ++ x, rest, by simp, ⟨ds, hd, .inr ⟨x, rfl, hx⟩⟩, ?_⟩
    rw [ex, behind_of_ne_zero hx.length_ne_zero, List.length_append]

/-! ## Integers -/

theorem isNameChar_of_radixDigit? {mark : Char} {digit : Char → Bool}
    (h : radixDigit? mark = some digit) :
    ∀ c, (digit c || c == '_') = true → isNameChar c = true := by
  intro c hc
  simp only [Bool.or_eq_true, beq_iff_eq] at hc
  rcases hc with hc | rfl
  · simp only [radixDigit?] at h
    split at h <;> cases h
    · exact isNameChar_of_isHexDigit hc
    · exact isNameChar_of_isHexDigit hc
    · exact isNameChar_of_isOctalDigit hc
    · exact isNameChar_of_isOctalDigit hc
    · exact isNameChar_of_isBinaryDigit hc
    · exact isNameChar_of_isBinaryDigit hc
  · decide

/-- A radix mark is a letter, and none that ends an integer. -/
theorem of_radixDigit?_ne_none {mark : Char} (h : radixDigit? mark ≠ none) :
    isNameChar mark = true ∧ isDecimal mark = false ∧ mark ≠ '.' ∧ mark ≠ 'e' ∧ mark ≠ 'E' ∧
      mark ≠ 'l' ∧ mark ≠ 'L' ∧ mark ≠ 'n' := by
  unfold radixDigit? at h
  split at h
  all_goals first
    | decide
    | exact absurd rfl h

/-- Digits that no radix mark follows. -/
theorem magnitudeWidth_digits {ds rest : List Char} (hd : IsRun Char.isDigit isDecimal ds)
    (hr : ∀ c, rest.head? = some c → isDecimal c = false)
    (hm : ∀ c, rest.head? = some c → radixDigit? c = none) :
    magnitudeWidth (ds ++ rest) = ds.length := by
  unfold magnitudeWidth
  split
  · rename_i mark digits e
    have hz : radixWidth mark digits = 0 := by
      unfold radixWidth
      obtain ⟨d, body, rfl, -, hb⟩ := hd
      cases body with
      | nil =>
        simp only [List.cons_append, List.nil_append, List.cons.injEq] at e
        rw [hm mark (by rw [e.2]; rfl)]
      | cons b body =>
        simp only [List.cons_append, List.cons.injEq] at e
        have hb' : isDecimal mark = true := by rw [← e.2.1]; exact hb b (by simp)
        cases hmark : radixDigit? mark with
        | none => rfl
        | some digit =>
          have hne : radixDigit? mark ≠ none := by simp [hmark]
          have hdec := (of_radixDigit?_ne_none hne).2.1
          rw [hb'] at hdec
          cases hdec
    rw [hz]
    exact hd.digits_append hr
  · exact hd.digits_append hr

theorem magnitudeWidth_radix {mark : Char} {digit : Char → Bool} {ds rest : List Char}
    (h : radixDigit? mark = some digit) (hd : IsRun digit (fun c => digit c || c == '_') ds)
    (hr : ∀ c, rest.head? = some c → (digit c || c == '_') = false) :
    magnitudeWidth ('0' :: mark :: (ds ++ rest)) = ds.length + 2 := by
  have e : radixWidth mark (ds ++ rest) = ds.length := by
    simp only [radixWidth, h]
    exact hd.run_append hr
  simp only [magnitudeWidth, e]
  rw [if_pos (by simpa using hd.length_ne_zero)]
  omega

theorem isSuffix_head? {suffix rest : List Char} (h : IsSuffix suffix) (hr : Apart rest) :
    ∀ c, (suffix ++ rest).head? = some c → isDecimal c = false ∧ radixDigit? c = none ∧
      c ≠ '.' ∧ c ≠ 'e' ∧ c ≠ 'E' := by
  intro c hc
  rcases h with rfl | rfl | rfl | rfl
  · have hn := hr c hc
    have hd := hr.not_mem (fun _ => isNameChar_of_isDecimal) c hc
    refine ⟨hd, ?_, hn.2, ?_, ?_⟩
    · cases hm : radixDigit? c with
      | none => rfl
      | some digit =>
        have hne : radixDigit? c ≠ none := by simp [hm]
        have hname := (of_radixDigit?_ne_none hne).1
        rw [hn.1] at hname
        cases hname
    · intro heq
      subst heq
      exact absurd hn.1 (by decide)
    · intro heq
      subst heq
      exact absurd hn.1 (by decide)
  all_goals
    cases hc
    decide

theorem IsMagnitude.width_append {ds suffix rest : List Char} (h : IsMagnitude ds)
    (hs : IsSuffix suffix) (hr : Apart rest) :
    magnitudeWidth (ds ++ (suffix ++ rest)) = ds.length := by
  have hh := isSuffix_head? hs hr
  rcases h with hd | ⟨mark, digit, ds, rfl, hm, hd⟩
  · exact magnitudeWidth_digits hd (fun c hc => (hh c hc).1) fun c hc => (hh c hc).2.1
  · refine magnitudeWidth_radix hm hd fun c hc => ?_
    rcases hs with rfl | rfl | rfl | rfl
    · exact hr.not_mem (isNameChar_of_radixDigit? hm) c hc
    all_goals
      cases hc
      simp only [radixDigit?] at hm
      split at hm <;> cases hm <;> rfl

theorem IsMagnitude.length_ne_zero {ds : List Char} (h : IsMagnitude ds) : ds.length ≠ 0 := by
  rcases h with hd | ⟨mark, digit, ds, rfl, -, -⟩
  · exact hd.length_ne_zero
  · simp

theorem IsInteger.width_append {w rest : List Char} (h : IsInteger w) (hr : Apart rest) :
    integerWidth (w ++ rest) = w.length := by
  obtain ⟨ds, suffix, rfl, hd, hs⟩ := h
  have hn := hd.length_ne_zero
  rw [List.append_assoc]
  simp only [integerWidth, hd.width_append hs hr, beq_iff_eq, hn, if_false, List.drop_left]
  rcases hs with rfl | rfl | rfl | rfl
  · rw [List.nil_append, List.append_nil]
    split
    · rename_i c tail
      rw [if_neg]
      have hc := (hr c rfl).1
      intro hsuffix
      simp only [Bool.or_eq_true, beq_iff_eq] at hsuffix
      rcases hsuffix with (rfl | rfl) | rfl <;> exact absurd hc (by decide)
    · rfl
  all_goals simp

theorem exists_of_magnitudeWidth_ne_zero {cs : List Char} (h : magnitudeWidth cs ≠ 0) :
    ∃ ds rest, cs = ds ++ rest ∧ IsMagnitude ds ∧ magnitudeWidth cs = ds.length := by
  have digits (h : run Char.isDigit isDecimal cs ≠ 0) :
      ∃ ds rest, cs = ds ++ rest ∧ IsMagnitude ds ∧ run Char.isDigit isDecimal cs = ds.length := by
    obtain ⟨ds, rest, hcs, hd, e, -⟩ := exists_of_run_ne_zero h
    exact ⟨ds, rest, hcs, .inl hd, e⟩
  unfold magnitudeWidth at h ⊢
  split at h
  · rename_i mark ds
    split at h
    · rename_i hr
      rw [if_pos hr]
      have hr' : radixWidth mark ds ≠ 0 := by simpa using hr
      simp only [radixWidth] at hr' ⊢
      split at hr'
      · rename_i digit hm
        obtain ⟨ds, rest, rfl, hd, e, -⟩ := exists_of_run_ne_zero hr'
        refine ⟨'0' :: mark :: ds, rest, rfl, .inr ⟨mark, digit, ds, rfl, hm, hd⟩, ?_⟩
        simp only [e, List.length_cons]
        omega
      · exact absurd rfl hr'
    · rename_i hr
      rw [if_neg hr]
      exact digits h
  · exact digits h

theorem exists_of_integerWidth_ne_zero {cs : List Char} (h : integerWidth cs ≠ 0) :
    ∃ w rest, cs = w ++ rest ∧ IsInteger w ∧ integerWidth cs = w.length := by
  have hm : magnitudeWidth cs ≠ 0 := by
    intro e
    simp [integerWidth, e] at h
  obtain ⟨ds, rest, rfl, hd, e⟩ := exists_of_magnitudeWidth_ne_zero hm
  simp only [integerWidth, e, beq_iff_eq, hd.length_ne_zero, if_false, List.drop_left]
  split
  · rename_i c rest
    by_cases hc : (c == 'l' || c == 'L' || c == 'n') = true
    · rw [if_pos hc]
      refine ⟨ds ++ [c], rest, by simp, ⟨ds, [c], rfl, hd, ?_⟩, by simp⟩
      simp only [Bool.or_eq_true, beq_iff_eq] at hc
      rcases hc with (rfl | rfl) | rfl <;> simp [IsSuffix]
    · rw [if_neg hc]
      exact ⟨ds, c :: rest, rfl, ⟨ds, [], by simp, hd, .inl rfl⟩, rfl⟩
  · exact ⟨ds, [], rfl, ⟨ds, [], by simp, hd, .inl rfl⟩, rfl⟩

/-- An integer is no float, whatever it is followed by. -/
theorem IsInteger.floatWidth_eq_zero {w rest : List Char} (h : IsInteger w) (hr : Apart rest) :
    floatWidth (w ++ rest) = 0 := by
  obtain ⟨ds, suffix, rfl, hd, hs⟩ := h
  have hh := isSuffix_head? hs hr
  -- behind the digits comes neither a point nor an exponent
  have digits {ds tail : List Char} (hd : IsRun Char.isDigit isDecimal ds)
      (ht : ∀ c, tail.head? = some c → isDecimal c = false ∧ c ≠ '.' ∧ c ≠ 'e' ∧ c ≠ 'E') :
      floatWidth (ds ++ tail) = 0 := by
    rw [floatWidth_of_no_point hd (fun c hc => (ht c hc).1)]
    · cases tail with
      | nil => rfl
      | cons c tail =>
        obtain ⟨-, -, h1, h2⟩ := ht c rfl
        simp [exponentWidth, h1, h2, behind]
    · intro tail' heq
      subst heq
      exact (ht '.' rfl).2.1 rfl
  rw [List.append_assoc]
  rcases hd with hd | ⟨mark, digit, ds, rfl, hm, -⟩
  · exact digits hd fun c hc =>
      ⟨(hh c hc).1, (hh c hc).2.2.1, (hh c hc).2.2.2.1, (hh c hc).2.2.2.2⟩
  · have hz : IsRun Char.isDigit isDecimal ['0'] := ⟨'0', [], rfl, by decide, by simp⟩
    have hne : radixDigit? mark ≠ none := by simp [hm]
    obtain ⟨-, h1, h2, h3, h4, -⟩ := of_radixDigit?_ne_none hne
    have htail : ∀ c, (mark :: (ds ++ (suffix ++ rest))).head? = some c →
        isDecimal c = false ∧ c ≠ '.' ∧ c ≠ 'e' ∧ c ≠ 'E' := by
      intro c hc
      cases hc
      exact ⟨h1, h2, h3, h4⟩
    have hfloat : floatWidth (['0'] ++ mark :: (ds ++ (suffix ++ rest))) = 0 := digits hz htail
    simpa using hfloat

/-! ## Strings and characters -/

theorem stringRest_escape (c : Char) (rest : List Char) :
    stringRest ('\\' :: c :: rest) = behind 2 (stringRest rest) := by
  rw [stringRest]

theorem stringRest_plain {c : Char} (rest : List Char) (hq : c ≠ '"') (hb : c ≠ '\\') :
    stringRest (c :: rest) = behind 1 (stringRest rest) := by
  rw [stringRest]
  · intro heq
    subst heq
    exact absurd rfl hq
  · intro heq
    subst heq
    exact absurd rfl hb
  · intro _ _ heq
    subst heq
    exact absurd rfl hb

theorem IsStringRest.length_ne_zero {w : List Char} (h : IsStringRest w) : w.length ≠ 0 := by
  cases h <;> simp

theorem IsStringRest.width_append {w : List Char} (h : IsStringRest w) (rest : List Char) :
    stringRest (w ++ rest) = w.length := by
  induction h with
  | close => rfl
  | escape hw ih =>
    rw [List.cons_append, List.cons_append, stringRest_escape, ih,
      behind_of_ne_zero hw.length_ne_zero]
    simp only [List.length_cons]
    omega
  | plain hq hb hw ih =>
    rw [List.cons_append, stringRest_plain _ hq hb, ih, behind_of_ne_zero hw.length_ne_zero]
    simp only [List.length_cons]
    omega

theorem exists_of_stringRest_ne_zero {cs : List Char} (h : stringRest cs ≠ 0) :
    ∃ w rest, cs = w ++ rest ∧ IsStringRest w := by
  fun_induction stringRest cs with
  | case1 => exact absurd rfl h
  | case2 rest => exact ⟨['"'], rest, rfl, .close⟩
  | case3 => exact absurd rfl h
  | case4 c rest ih =>
    obtain ⟨w, rest, rfl, hw⟩ := ih (behind_ne_zero h)
    exact ⟨'\\' :: c :: w, rest, rfl, .escape hw⟩
  | case5 c rest hq hb1 hb2 ih =>
    obtain ⟨w, rest, rfl, hw⟩ := ih (behind_ne_zero h)
    refine ⟨c :: w, rest, rfl, .plain hq ?_ hw⟩
    intro heq
    subst heq
    cases hwr : w ++ rest with
    | nil => exact hb1 rfl hwr
    | cons d tail => exact hb2 d tail rfl hwr

theorem charEscapeWidth_append {e : List Char} (h : IsCharEscape e) (rest : List Char) :
    charEscapeWidth (e ++ rest) = e.length := by
  rcases h with ⟨c, rfl, hc⟩ | ⟨a, b, c, rfl, ha, habc⟩
  · simp [charEscapeWidth, hc]
  · simp only [List.cons_append, List.nil_append, charEscapeWidth, ha, habc]
    rfl

theorem exists_of_charEscapeWidth_ne_zero {cs : List Char} (h : charEscapeWidth cs ≠ 0) :
    ∃ e rest, cs = e ++ rest ∧ IsCharEscape e := by
  cases cs with
  | nil => exact absurd rfl h
  | cons a cs =>
    simp only [charEscapeWidth] at h
    split at h
    · rename_i ha
      exact ⟨[a], cs, rfl, .inl ⟨a, rfl, ha⟩⟩
    · rename_i ha
      split at h
      · rename_i b c rest
        split at h
        · rename_i habc
          exact ⟨[a, b, c], rest, rfl, .inr ⟨a, b, c, rfl, by simpa using ha, habc⟩⟩
        · exact absurd rfl h
      · exact absurd rfl h

theorem IsCharEscape.length_ne_zero {e : List Char} (h : IsCharEscape e) : e.length ≠ 0 := by
  rcases h with ⟨c, rfl, -⟩ | ⟨a, b, c, rfl, -⟩ <;> simp

theorem charRest_escape {e : List Char} (h : IsCharEscape e) (rest : List Char) :
    charRest ('\\' :: (e ++ rest)) = behind (1 + e.length) (only '\'' rest) := by
  simp only [charRest, charEscapeWidth_append h, beq_iff_eq, h.length_ne_zero, if_false,
    List.drop_left]

theorem charRest_plain {c : Char} (rest : List Char) (hq : c ≠ '\'') (hb : c ≠ '\\')
    (hn : c ≠ '\n') : charRest (c :: rest) = behind 1 (only '\'' rest) := by
  rw [charRest]
  · exact hb
  · exact hq
  · exact hn

theorem charWidth_append {b : List Char} (h : IsCharBody b) (rest : List Char) :
    charWidth ('\'' :: (b ++ '\'' :: rest)) = b.length + 2 := by
  rcases h with ⟨c, rfl, hq, hb, hn⟩ | ⟨e, rfl, he⟩
  · simp only [charWidth, List.singleton_append, charRest_plain _ hq hb hn, only_cons]
    rfl
  · simp only [charWidth, List.cons_append, charRest_escape he, only_cons]
    rw [behind_of_ne_zero Nat.one_ne_zero, behind_of_ne_zero (by omega), List.length_cons]
    omega

theorem exists_of_charWidth_ne_zero {cs : List Char} (h : charWidth cs ≠ 0) :
    ∃ b rest, cs = '\'' :: (b ++ '\'' :: rest) ∧ IsCharBody b := by
  unfold charWidth at h
  split at h
  · rename_i cs
    have hr := behind_ne_zero h
    unfold charRest at hr
    split at hr
    · rename_i rest
      dsimp only at hr
      split at hr
      · exact absurd rfl hr
      · rename_i hn
        obtain ⟨e, rest, rfl, he⟩ := exists_of_charEscapeWidth_ne_zero (by simpa using hn)
        rw [charEscapeWidth_append he, List.drop_left] at hr
        obtain ⟨rest, rfl⟩ := only_ne_zero (behind_ne_zero hr)
        exact ⟨'\\' :: e, rest, rfl, .inr ⟨e, rfl, he⟩⟩
    · exact absurd rfl hr
    · exact absurd rfl hr
    · rename_i c rest hb hq hn
      obtain ⟨rest, rfl⟩ := only_ne_zero (behind_ne_zero hr)
      exact ⟨[c], rest, rfl, .inl ⟨c, rfl, hq, hb, hn⟩⟩
    · exact absurd rfl hr
  · exact absurd rfl h

/-! ## All classes -/

/-- The classes whose lexemes show by themselves where they end. -/
def isClosed : Terminal → Bool
  | float | integer | longName | extensionName | optionalName | labelledName | name => false
  | _ => true

theorem IsLexeme.ne_nil {t : Terminal} {w : List Char} (h : t.IsLexeme w) : w ≠ [] := by
  cases t <;> simp only [IsLexeme] at h
  case float =>
    obtain ⟨ds, hd, ⟨es, x, rfl, -⟩ | ⟨x, rfl, -⟩⟩ := h
    all_goals exact List.append_ne_nil_of_left_ne_nil hd.ne_nil _
  case integer =>
    obtain ⟨ds, suffix, rfl, hd, -⟩ := h
    exact List.append_ne_nil_of_left_ne_nil
      (fun e => hd.length_ne_zero (by rw [e]; rfl)) _
  case longName => exact h.ne_nil
  case extensionName => exact h.ne_nil
  case name => exact h.ne_nil
  case optionalLabel | label | optionalName | labelledName | string | char =>
    obtain ⟨n, rfl, -⟩ := h
    exact List.cons_ne_nil _ _
  case sign => rcases h with rfl | rfl <;> exact List.cons_ne_nil _ _
  all_goals
    subst h
    exact List.cons_ne_nil _ _

/-- A lexeme that shows where it ends is cut off whole. -/
theorem IsLexeme.width_append_of_isClosed {t : Terminal} {w : List Char} (h : t.IsLexeme w)
    (ht : t.isClosed = true) (rest : List Char) : t.width (w ++ rest) = w.length := by
  cases t <;> simp only [IsLexeme, isClosed, Bool.false_eq_true] at h ht
  case label | optionalLabel =>
    obtain ⟨n, rfl, hn⟩ := h
    simp only [width, List.cons_append, List.append_assoc, markedColon_append hn,
      List.length_cons, List.length_append, List.length_nil]
  case string =>
    obtain ⟨r, rfl, hr⟩ := h
    simp only [width, List.cons_append, stringWidth, hr.width_append,
      behind_of_ne_zero hr.length_ne_zero, List.length_cons]
    omega
  case char =>
    obtain ⟨b, rfl, hb⟩ := h
    simp only [width, List.cons_append, List.append_assoc, charWidth_append hb,
      List.length_cons, List.length_append, List.length_nil]
  case sign => rcases h with rfl | rfl <;> rfl
  all_goals
    subst h
    rfl

/-- A lexeme is cut off whole before a text that does not go on with a word. -/
theorem IsLexeme.width_append {t : Terminal} {w rest : List Char} (h : t.IsLexeme w)
    (hr : Apart rest) : t.width (w ++ rest) = w.length := by
  cases t <;> simp only [IsLexeme] at h
  case float => exact IsFloat.width_append h hr
  case integer => exact IsInteger.width_append h hr
  case longName => exact IsLongName.width_append h hr
  case extensionName => exact IsDotted.width_append h hr
  case name => exact isRun_isNameChar h hr
  case labelledName | optionalName =>
    obtain ⟨n, rfl, hn⟩ := h
    simp only [width, List.cons_append, List.length_cons]
    exact marked_append hn (hr.not_mem fun _ h => h)
  all_goals exact IsLexeme.width_append_of_isClosed (by simpa only [IsLexeme] using h) rfl rest

/-- What is cut off the head of a text is a lexeme, layout aside. -/
theorem exists_isLexeme {t : Terminal} {cs : List Char} (hl : t.isLayout = false)
    (h : t.width cs ≠ 0) :
    ∃ w rest, cs = w ++ rest ∧ t.IsLexeme w ∧ t.width cs = w.length := by
  cases t <;> simp only [isLayout, Bool.true_eq_false] at hl
  case openExtension =>
    unfold width at h
    split at h
    all_goals first | contradiction | skip
    exact ⟨['[', '%'], _, rfl, rfl, rfl⟩
  all_goals simp only [width] at h
  case float => exact exists_of_floatWidth_ne_zero h
  case integer => exact exists_of_integerWidth_ne_zero h
  case longName => exact exists_of_longNameWidth_ne_zero h
  case extensionName => exact exists_of_dottedWidth_ne_zero h
  case name =>
    obtain ⟨w, rest, hcs, hw, e, -⟩ := exists_of_run_ne_zero h
    exact ⟨w, rest, hcs, hw, e⟩
  case labelledName | optionalName =>
    obtain ⟨n, rest, rfl, hn, hr⟩ := exists_of_marked_ne_zero h
    refine ⟨_ :: n, rest, rfl, ⟨n, rfl, hn⟩, ?_⟩
    simp only [width, List.length_cons]
    exact marked_append hn hr
  case label | optionalLabel =>
    obtain ⟨n, rest, rfl, hn⟩ := exists_of_markedColon_ne_zero h
    exact ⟨_ :: (n ++ [':']), rest, by simp, ⟨n, rfl, hn⟩, by
      simp only [width, markedColon_append hn, List.length_cons, List.length_append,
        List.length_nil]⟩
  case string =>
    unfold stringWidth at h
    split at h
    · obtain ⟨w, rest, rfl, hw⟩ := exists_of_stringRest_ne_zero (behind_ne_zero h)
      have hq : IsLexeme string ('"' :: w) := ⟨w, rfl, hw⟩
      exact ⟨'"' :: w, rest, rfl, hq, hq.width_append_of_isClosed rfl rest⟩
    · exact absurd rfl h
  case char =>
    obtain ⟨b, rest, rfl, hb⟩ := exists_of_charWidth_ne_zero h
    have hq : IsLexeme char ('\'' :: (b ++ ['\''])) := ⟨b, rfl, hb⟩
    refine ⟨'\'' :: (b ++ ['\'']), rest, by simp, hq, ?_⟩
    have := hq.width_append_of_isClosed rfl rest
    simpa using this
  case sign =>
    cases cs with
    | nil => exact absurd rfl h
    | cons c cs =>
      dsimp only at h
      split at h
      · rename_i hc
        simp only [Bool.or_eq_true, beq_iff_eq] at hc
        rcases hc with rfl | rfl
        · exact ⟨['+'], cs, rfl, .inl rfl, rfl⟩
        · exact ⟨['-'], cs, rfl, .inr rfl, rfl⟩
      · exact absurd rfl h
  all_goals
    obtain ⟨rest, rfl⟩ := only_ne_zero h
    exact ⟨[_], rest, rfl, rfl, rfl⟩

end MessageLang.Terminal
