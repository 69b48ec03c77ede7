import MessageLang.Proofs.Syntax.Parts
import MessageLang.Proofs.Syntax.Readable
import MessageLang.Syntax.Print
import MessageLang.Text.Blank
/-!
# The ends of printed texts

A printed text starts with no blank and ends with no white space, and its ends are no characters
that would be read together with the brackets around it.

* `print_of_spelling`, `Constant.IsLiteral.isPlain_print`: the texts of literals.
* `Expr.IsReadable.isPlain_print`: the ends of an expression's text.
* `Expr.leadingName?`: the name that an expression's text starts with.
-/
namespace MessageLang

/-! ## The texts of literals -/

/-- A number that is written with a minus sign. -/
def Constant.isNegative (c : Constant) : Bool :=
  match c.kind with
  | some .string | some .char => false
  | _ => c.numberText.toList.head? == some '-'

def Expr.isNegative : Expr → Bool
  | .constant c => c.isNegative
  | _ => false

/-- The lexemes of numbers. -/
def IsNumeral (text : List Char) : Prop := Terminal.IsInteger text ∨ Terminal.IsFloat text

theorem IsNumeral.exists_head {text : List Char} (h : IsNumeral text) :
    ∃ c rest, text = c :: rest ∧ c.isDigit = true := by
  rcases h with ⟨ds, suffix, rfl, ⟨c, body, rfl, hc, -⟩ | ⟨mark, digit, ds, rfl, -⟩, -⟩ |
    ⟨ds, ⟨c, body, rfl, hc, -⟩, ⟨es, x, rfl, -⟩ | ⟨x, rfl, -⟩⟩
  · exact ⟨c, _, rfl, hc⟩
  · exact ⟨'0', _, rfl, rfl⟩
  · exact ⟨c, _, rfl, hc⟩
  · exact ⟨c, _, rfl, hc⟩

/-- A number has the text that it was spelled with, and is negative if that has a sign. -/
theorem print_of_spelling {c : Constant} {negative : Bool} {text : List Char}
    (hk : c.kind ≠ some .string ∧ c.kind ≠ some .char) (ht : IsNumeral text)
    (hs : c.spelling = some (Literal.spelling negative text)) :
    c.isNegative = negative ∧
      ∀ arg, c.print arg = parenthesized (arg && negative)
        (String.ofList (if negative then '-' :: text else text)) := by
  obtain ⟨d, rest, rfl, hd⟩ := ht.exists_head
  have htext : c.numberText = Literal.spelling negative (d :: rest) := by
    simp only [Constant.numberText, hs]
  have hhead : (c.numberText.toList.head? == some '-') = negative := by
    rw [htext, Literal.spelling, String.toList_ofList]
    cases negative with
    | true => rfl
    | false =>
      have hne : d ≠ '-' := by
        intro heq
        subst heq
        cases hd
      simpa using hne
  constructor
  · unfold Constant.isNegative
    split
    · rename_i h
      exact absurd h hk.1
    · rename_i h
      exact absurd h hk.2
    · exact hhead
  · intro arg
    unfold Constant.print
    split
    · rename_i h
      exact absurd h hk.1
    · rename_i h
      exact absurd h hk.2
    · dsimp only
      rw [hhead, htext]
      rfl

/-! ## Plain ends -/

/-- The first character of a text is no blank, and none that makes a comment or an extension of the
bracket before it. -/
def StartsPlain (w : List Char) : Prop :=
  ∃ c rest, w = c :: rest ∧ Terminal.isBlank c = false ∧ c ≠ '*' ∧ c ≠ '%'

/-- The last character of a text is no white space and no semicolon. -/
def EndsPlain (w : List Char) : Prop :=
  ∃ c body, w = body ++ [c] ∧ Text.isSpace c = false ∧ c ≠ ';'

theorem StartsPlain.append {w : List Char} (h : StartsPlain w) (v : List Char) :
    StartsPlain (w ++ v) := by
  obtain ⟨c, rest, rfl, hc⟩ := h
  exact ⟨c, rest ++ v, rfl, hc⟩

theorem EndsPlain.append {w : List Char} (h : EndsPlain w) (v : List Char) :
    EndsPlain (v ++ w) := by
  obtain ⟨c, body, rfl, hc⟩ := h
  exact ⟨c, v ++ body, by rw [List.append_assoc], hc⟩

/-- A text with plain ends. -/
def IsPlain (w : List Char) : Prop := StartsPlain w ∧ EndsPlain w

/-- A character that does no harm at either end. -/
def isPlainChar (c : Char) : Bool :=
  !Terminal.isBlank c && !Text.isSpace c && c != '*' && c != '%' && c != ';'

theorem isPlain_of_forall {w : List Char} (hn : w ≠ []) (h : ∀ c ∈ w, isPlainChar c = true) :
    IsPlain w := by
  simp only [isPlainChar, Bool.and_eq_true, Bool.not_eq_true', bne_iff_ne, ne_eq] at h
  constructor
  · cases w with
    | nil => exact absurd rfl hn
    | cons c rest =>
      obtain ⟨⟨⟨⟨hb, -⟩, hs⟩, hp⟩, -⟩ := h c List.mem_cons_self
      exact ⟨c, rest, rfl, hb, hs, hp⟩
  · have hl : w.getLast hn ∈ w := List.getLast_mem hn
    obtain ⟨⟨⟨⟨-, hw⟩, -⟩, -⟩, hc⟩ := h _ hl
    exact ⟨w.getLast hn, w.dropLast, (List.dropLast_concat_getLast hn).symm, hw, hc⟩

/-- A text between two characters. -/
theorem isPlain_between {c d : Char} (body : List Char) (hc : isPlainChar c = true)
    (hd : isPlainChar d = true) : IsPlain (c :: (body ++ [d])) := by
  simp only [isPlainChar, Bool.and_eq_true, Bool.not_eq_true', bne_iff_ne, ne_eq] at hc hd
  obtain ⟨⟨⟨⟨hb, -⟩, hs⟩, hp⟩, -⟩ := hc
  obtain ⟨⟨⟨⟨-, hw⟩, -⟩, -⟩, hn⟩ := hd
  exact ⟨⟨c, _, rfl, hb, hs, hp⟩, ⟨d, c :: body, rfl, hw, hn⟩⟩

theorem isPlainChar_of_isNameChar {c : Char} (h : Terminal.isNameChar c = true) :
    isPlainChar c = true := by
  have hn : (0x30 ≤ c.toNat ∧ c.toNat ≤ 0x39) ∨ (0x41 ≤ c.toNat ∧ c.toNat ≤ 0x5a) ∨
      (0x61 ≤ c.toNat ∧ c.toNat ≤ 0x7a) ∨ c.toNat = 0x5f ∨ c.toNat = 0x27 := by
    rcases Terminal.isNameChar_iff.mp h with h | h | h | rfl | rfl
    · omega
    · omega
    · omega
    · decide
    · decide
  have hne : ∀ d : Char, (d.toNat < 0x30 ∧ d.toNat ≠ 0x27 ∨ d.toNat = 0x3b) → c ≠ d := by
    intro d hd heq
    subst heq
    omega
  simp only [isPlainChar, Bool.and_eq_true, Bool.not_eq_true', bne_iff_ne, ne_eq,
    Terminal.isBlank, Text.isSpace, Bool.or_eq_false_iff, Bool.and_eq_false_imp,
    beq_eq_false_iff_ne, decide_eq_true_eq, decide_eq_false_iff_not]
  refine ⟨⟨⟨⟨?_, ?_⟩, hne _ (by decide)⟩, hne _ (by decide)⟩, hne _ (by decide)⟩
  · exact ⟨⟨⟨⟨hne _ (by decide), hne _ (by decide)⟩, hne _ (by decide)⟩, hne _ (by decide)⟩,
      hne _ (by decide)⟩
  · omega

section Lexemes

variable {w : List Char}

theorem isPlainChar_of_isRun {first more : Char → Bool} (h : Terminal.IsRun first more w)
    (hf : ∀ c, first c = true → Terminal.isNameChar c = true)
    (hm : ∀ c, more c = true → Terminal.isNameChar c = true) : ∀ c ∈ w, isPlainChar c = true :=
  h.forall_mem (fun c hc => isPlainChar_of_isNameChar (hf c hc))
    fun c hc => isPlainChar_of_isNameChar (hm c hc)

theorem IsWordName.isPlainChar {name : String} (h : IsWordName name) :
    ∀ c ∈ name.toList, isPlainChar c = true :=
  fun c hc => isPlainChar_of_isNameChar (h.isNameChar c hc)

theorem isPlainChar_of_isLongName (h : Terminal.IsLongName w) :
    ∀ c ∈ w, isPlainChar c = true := by
  induction h with
  | word h => exact isPlainChar_of_isRun h (fun _ => Terminal.isNameChar_of_isLetter) fun _ h => h
  | path hm hn ih =>
    have hm' := isPlainChar_of_isRun hm
      (fun _ hc => Terminal.isNameChar_of_isLetter (Terminal.isLetter_of_isUpper hc)) fun _ h => h
    intro c hc
    rcases List.mem_append.mp hc with hc | hc
    · exact hm' c hc
    · rcases List.mem_cons.mp hc with rfl | hc
      · decide
      · exact ih c hc

theorem isPlainChar_of_isDigits (h : Terminal.IsRun Char.isDigit Terminal.isDecimal w) :
    ∀ c ∈ w, isPlainChar c = true :=
  isPlainChar_of_isRun h
    (fun _ hc => Terminal.isNameChar_of_isDecimal (Terminal.isDecimal_of_isDigit hc))
    fun _ => Terminal.isNameChar_of_isDecimal

theorem isPlainChar_of_isExponent (h : Terminal.IsExponent w) :
    ∀ c ∈ w, isPlainChar c = true := by
  obtain ⟨mark, sign, ds, rfl, hm, hs, hd⟩ := h
  intro c hc
  rcases List.mem_cons.mp hc with rfl | hc
  · rcases hm with rfl | rfl <;> decide
  · rcases List.mem_append.mp hc with hc | hc
    · rcases hs with rfl | rfl | rfl
      · cases hc
      · cases List.mem_singleton.mp hc
        decide
      · cases List.mem_singleton.mp hc
        decide
    · exact isPlainChar_of_isDigits hd c hc

theorem isPlainChar_of_isFloat (h : Terminal.IsFloat w) : ∀ c ∈ w, isPlainChar c = true := by
  obtain ⟨ds, hd, ⟨es, x, rfl, he, hx⟩ | ⟨x, rfl, hx⟩⟩ := h
  · intro c hc
    rcases List.mem_append.mp hc with hc | hc
    · exact isPlainChar_of_isDigits hd c hc
    · rcases List.mem_cons.mp hc with rfl | hc
      · decide
      · rcases List.mem_append.mp hc with hc | hc
        · exact isPlainChar_of_isNameChar (Terminal.isNameChar_of_isDecimal (he c hc))
        · rcases hx with rfl | hx
          · cases hc
          · exact isPlainChar_of_isExponent hx c hc
  · intro c hc
    rcases List.mem_append.mp hc with hc | hc
    · exact isPlainChar_of_isDigits hd c hc
    · exact isPlainChar_of_isExponent hx c hc

theorem isPlainChar_of_isInteger (h : Terminal.IsInteger w) : ∀ c ∈ w, isPlainChar c = true := by
  obtain ⟨ds, suffix, rfl, hd, hs⟩ := h
  intro c hc
  rcases List.mem_append.mp hc with hc | hc
  · rcases hd with hd | ⟨mark, digit, ds, rfl, hm, hd⟩
    · exact isPlainChar_of_isDigits hd c hc
    · have hmark := (Terminal.of_radixDigit?_ne_none (by rw [hm]; exact Option.some_ne_none _)).1
      have hdigit := Terminal.isNameChar_of_radixDigit? hm
      rcases List.mem_cons.mp hc with rfl | hc
      · decide
      · rcases List.mem_cons.mp hc with rfl | hc
        · exact isPlainChar_of_isNameChar hmark
        · have hfirst : ∀ c, digit c = true → Terminal.isNameChar c = true := fun c hc =>
            hdigit c (by rw [hc, Bool.true_or])
          exact isPlainChar_of_isRun hd hfirst hdigit c hc
  · rcases hs with rfl | rfl | rfl | rfl
    · cases hc
    all_goals
      cases List.mem_singleton.mp hc
      decide

theorem IsNumeral.isPlainChar (h : IsNumeral w) : ∀ c ∈ w, isPlainChar c = true := by
  rcases h with h | h
  · exact isPlainChar_of_isInteger h
  · exact isPlainChar_of_isFloat h

end Lexemes

/-! ## The texts of expressions -/

theorem isPlain_parenthesized {text : String} (h : IsPlain text.toList) (needed : Bool) :
    IsPlain (parenthesized needed text).toList := by
  unfold parenthesized
  split
  · rw [String.toList_append, String.toList_append]
    exact isPlain_between text.toList rfl rfl
  · exact h

/-- A number, a string and a character have texts with plain ends. -/
theorem Constant.IsLiteral.isPlain_print {c : Constant} (h : c.IsLiteral) (arg : Bool) :
    IsPlain (c.print arg).toList := by
  have number {negative : Bool} {text : List Char} (ht : IsNumeral text)
      (hk : c.kind ≠ some .string ∧ c.kind ≠ some .char)
      (hs : c.spelling = some (Literal.spelling negative text)) :
      IsPlain (c.print arg).toList := by
    obtain ⟨d, rest, he, -⟩ := ht.exists_head
    have hplain : IsPlain text :=
      isPlain_of_forall (by rw [he]; exact List.cons_ne_nil _ _) ht.isPlainChar
    rw [(print_of_spelling hk ht hs).2]
    refine isPlain_parenthesized ?_ _
    rw [String.toList_ofList]
    split
    · exact ⟨⟨'-', text, rfl, by decide⟩, hplain.2.append ['-']⟩
    · exact hplain
  cases h with
  | integer ht hc =>
    obtain ⟨kind, n, he, -⟩ := Literal.integer_ok hc
    refine number (.inl ht) ?_ (by rw [he])
    rw [he]
    exact ⟨nofun, nofun⟩
  | float ht => exact number (.inr ht) ⟨nofun, nofun⟩ rfl
  | string =>
    rw [Constant.print, String.toList_append, String.toList_append]
    exact isPlain_between _ rfl rfl
  | char =>
    rw [Constant.print, String.toList_append, String.toList_append]
    exact isPlain_between _ rfl rfl

theorem startsPlain_intercalate {x : String} (h : StartsPlain x.toList) (sep : String)
    (xs : List String) : StartsPlain (sep.intercalate (x :: xs)).toList := by
  cases xs with
  | nil => rwa [String.intercalate_singleton]
  | cons y ys =>
    rw [String.intercalate_cons_cons, String.toList_append, String.toList_append]
    exact (h.append _).append _

/-- Texts with plain ends, joined by spaces. -/
theorem isPlain_intercalate {x : String} {xs : List String} (hx : IsPlain x.toList)
    (hxs : ∀ y ∈ xs, IsPlain y.toList) : IsPlain (" ".intercalate (x :: xs)).toList := by
  induction xs generalizing x with
  | nil => rwa [String.intercalate_singleton]
  | cons y ys ih =>
    obtain ⟨hy, hys⟩ := List.forall_mem_cons.mp hxs
    rw [String.intercalate_cons_cons, String.toList_append, String.toList_append]
    obtain ⟨-, he⟩ := ih hy hys
    exact ⟨(hx.1.append _).append _, he.append _⟩

theorem printArguments_eq_map (args : List Argument) :
    printArguments args = args.map Argument.toText := by
  induction args with
  | nil => rfl
  | cons a args ih => rw [printArguments, ih, List.map_cons]

theorem printExprs_eq_map (es : List Expr) :
    printExprs es = es.map (Expr.print Expr.elementLevel) := by
  induction es with
  | nil => rfl
  | cons e es ih => rw [printExprs, ih, List.map_cons]

theorem isPlain_name {mark : Char} {name : String} (hm : isPlainChar mark = true)
    (hn : IsWordName name) : IsPlain (mark :: name.toList) := by
  refine isPlain_of_forall (List.cons_ne_nil _ _) fun c hc => ?_
  rcases List.mem_cons.mp hc with rfl | hc
  · exact hm
  · exact hn.isPlainChar c hc

/-- An argument with a label is the label alone if it is the name that the label repeats, or stands
behind the label. -/
theorem labelledText_cases {label : Label} {name : String}
    (hl : label = .labelled name ∨ label = .optional name) (e : Expr) (text : String) :
    (∃ l, e = .identifier name l ∧ labelledText label e text = label.toText) ∨
      labelledText label e text = label.toText ++ ":" ++ text := by
  cases e with
  | identifier x l =>
    have htext : labelledText label (.identifier x l) text =
        if x == name then label.toText else label.toText ++ ":" ++ text := by
      rcases hl with rfl | rfl <;> rfl
    rw [htext]
    split
    · rename_i hx
      rw [beq_iff_eq] at hx
      exact .inl ⟨l, by rw [hx], rfl⟩
    · exact .inr rfl
  | _ => exact .inr (by rcases hl with rfl | rfl <;> rfl)

theorem isPlain_labelledText {label : Label} {e : Expr} {text : String} (hl : label.IsReadable)
    (ht : IsPlain text.toList) : IsPlain (labelledText label e text).toList := by
  have marked {name : String} (hname : label = .labelled name ∨ label = .optional name)
      (hm : IsPlain label.toText.toList) : IsPlain (labelledText label e text).toList := by
    rcases labelledText_cases hname e text with ⟨l, -, he⟩ | he
    · rwa [he]
    · rw [he, String.toList_append, String.toList_append]
      exact ⟨(hm.1.append _).append _, ht.2.append _⟩
  cases label with
  | positional => exact ht
  | labelled name =>
    refine marked (.inl rfl) ?_
    rw [Label.toText, String.toList_append]
    exact isPlain_name rfl hl
  | optional name =>
    refine marked (.inr rfl) ?_
    rw [Label.toText, String.toList_append]
    exact isPlain_name rfl hl

/-- A readable expression has a text with plain ends. -/
theorem Expr.IsReadable.isPlain_print {e : Expr} (h : e.IsReadable) (level : Nat) :
    IsPlain (e.print level).toList := by
  induction h generalizing level with
  | constant hc => exact hc.isPlain_print _
  | identifier hn => exact isPlain_of_forall hn.ne_nil (isPlainChar_of_isLongName hn)
  | apply hf hne hl ha ihf iha =>
    rw [Expr.print, printArguments_eq_map]
    refine isPlain_parenthesized (isPlain_intercalate (ihf _) fun y hy => ?_) _
    obtain ⟨a, hmem, rfl⟩ := List.mem_map.mp hy
    cases a with
    | mk label e => exact isPlain_labelledText (hl _ hmem) (iha label e hmem _)
    | other n => exact (hl _ hmem).elim
  | constraint he ht ih =>
    simp only [Expr.print, String.toList_append]
    exact isPlain_between _ rfl rfl
  | extension hn | payload hn he ih | tuple hlen hes ih | list hes ih =>
    simp only [Expr.print, String.toList_append]
    exact isPlain_between _ rfl rfl
  | unit =>
    rw [Expr.print]
    exact isPlain_between (c := '(') (d := ')') [] rfl rfl
  | @binary left right op l hleft hright ihl ihr =>
    rw [Expr.print]
    refine isPlain_parenthesized ?_ _
    simp only [String.toList_append, List.append_assoc]
    refine ⟨(ihl _).1.append _, ?_⟩
    rw [← List.append_assoc, ← List.append_assoc, ← List.append_assoc]
    exact (ihr _).2.append _

theorem printTypes_eq_map (level : Nat) (ts : List TypeExpr) :
    printTypes level ts = ts.map (TypeExpr.print level) := by
  induction ts with
  | nil => rfl
  | cons t ts ih => rw [printTypes, ih, List.map_cons]

theorem startsPlain_parenthesized {text : String} (h : StartsPlain text.toList) (needed : Bool) :
    StartsPlain (parenthesized needed text).toList := by
  unfold parenthesized
  split
  · exact ⟨'(', _, by rw [String.toList_append, String.toList_append]; rfl, by decide⟩
  · exact h

/-- The text of a readable type starts with no blank. -/
theorem TypeExpr.IsReadable.startsPlain_print {t : TypeExpr} (h : t.IsReadable) (level : Nat) :
    StartsPlain (t.print level).toList := by
  induction h generalizing level with
  | name hn => exact (isPlain_of_forall hn.ne_nil (isPlainChar_of_isLongName hn)).1
  | applied hn ht ih =>
    rw [TypeExpr.print, String.toList_append, String.toList_append]
    exact ((ih 1).append _).append _
  | @tuple ts l hlen hts ih =>
    rw [TypeExpr.print, printTypes_eq_map]
    refine startsPlain_parenthesized ?_ _
    cases ts with
    | nil => simp at hlen
    | cons t rest => exact startsPlain_intercalate (ih t List.mem_cons_self 1) _ _

/-! ## The first name of a text -/

/-- The name that the text of an expression starts with, in a place of the given level. -/
def Expr.leadingName? (level : Nat) : Expr → Option String
  | .identifier name _ => some name
  | .apply f _ _ => if Expr.applyLevel < level then none else f.leadingName? Expr.applyLevel
  | .binary left op _ _ => if op.printLevel < level then none else left.leadingName? op.leftLevel
  | _ => none

theorem String.toList_intercalate_cons (x : String) (xs : List String) :
    ∃ tail, (" ".intercalate (x :: xs)).toList = x.toList ++ tail ∧
      (tail = [] ∨ ∃ rest, tail = ' ' :: rest) := by
  cases xs with
  | nil => exact ⟨[], by rw [String.intercalate_singleton, List.append_nil], .inl rfl⟩
  | cons y ys =>
    refine ⟨' ' :: (" ".intercalate (y :: ys)).toList, ?_, .inr ⟨_, rfl⟩⟩
    rw [String.intercalate_cons_cons, String.toList_append, String.toList_append,
      List.append_assoc]
    rfl

/-- The leading name is all of the text, or a space follows it. -/
theorem Expr.exists_of_leadingName? {e : Expr} {level : Nat} {name : String}
    (h : e.leadingName? level = some name) :
    ∃ tail, (e.print level).toList = name.toList ++ tail ∧
      (tail = [] ∨ ∃ rest, tail = ' ' :: rest) := by
  have behind {tail tail' : List Char} (ht : tail = [] ∨ ∃ rest, tail = ' ' :: rest)
      (ht' : tail' = [] ∨ ∃ rest, tail' = ' ' :: rest) :
      tail ++ tail' = [] ∨ ∃ rest, tail ++ tail' = ' ' :: rest := by
    rcases ht with rfl | ⟨rest, rfl⟩
    · exact ht'
    · exact .inr ⟨rest ++ tail', rfl⟩
  induction level, e using Expr.leadingName?.induct with
  | case1 level n l =>
    cases h
    exact ⟨[], (List.append_nil _).symm, .inl rfl⟩
  | case2 level f args l hlt =>
    rw [leadingName?, if_pos hlt] at h
    cases h
  | case3 level f args l hlt ih =>
    rw [leadingName?, if_neg hlt] at h
    obtain ⟨tail, he, ht⟩ := ih h
    obtain ⟨tail', he', ht'⟩ :=
      String.toList_intercalate_cons (f.print applyLevel) (printArguments args)
    refine ⟨tail ++ tail', ?_, behind ht ht'⟩
    rw [print, parenthesized, decide_eq_false hlt, if_neg Bool.false_ne_true, he', he,
      List.append_assoc]
  | case4 level left op right l hlt =>
    rw [leadingName?, if_pos hlt] at h
    cases h
  | case5 level left op right l hlt ih =>
    rw [leadingName?, if_neg hlt] at h
    obtain ⟨tail, he, ht⟩ := ih h
    refine ⟨tail ++ ' ' :: (op.symbol.toList ++ ' ' :: (right.print op.rightLevel).toList), ?_,
      behind ht (.inr ⟨_, rfl⟩)⟩
    rw [print, parenthesized, decide_eq_false hlt, if_neg Bool.false_ne_true]
    simp only [String.toList_append, he, List.append_assoc]
    rfl
  | case6 level e hid hap hbin =>
    rw [leadingName?] at h
    · cases h
    all_goals assumption

end MessageLang
