import MessageLang.Dump
import MessageLang.Proofs.Syntax.Readable
import MessageLang.Proofs.Text.Nested
/-!
# The words of a dump

A form on one line is written as nested words: symbols and numbers bare, strings between quotes. So
a form can be read back from its text up to what its words stand for, and a symbol, a string and an
integer are determined by their words.

* `IsBareText`, `IsNumeralText`: texts of the characters of words and of numbers.
* `Form.nested`, `Form.text_nested`: a form as nested words.
* `Form.IsPlain`: forms of bare symbols, strings and numbers, which have such a text.
* `symbolText_injective`, `quoteText_injective`, `decimalInt_injective`.
-/
namespace MessageLang

open Nested (isBare IsWord)

/-! ## Bare texts -/

/-- A text of bare characters only. -/
def IsBareText (text : String) : Prop := ∀ c ∈ text.toList, isBare c = true

instance (text : String) : Decidable (IsBareText text) :=
  List.decidableBAll (fun c => isBare c = true) text.toList

section

variable {text text' : String}

theorem IsBareText.append (h : IsBareText text) (h' : IsBareText text') :
    IsBareText (text ++ text') := by
  unfold IsBareText
  rw [String.toList_append]
  exact List.forall_mem_append.mpr ⟨h, h'⟩

theorem isBare_of_isNameChar {c : Char} (h : Terminal.isNameChar c = true) :
    isBare c = true := by
  simp only [isBare, Bool.and_eq_true, bne_iff_ne]
  refine ⟨⟨⟨?_, ?_⟩, ?_⟩, ?_⟩
  all_goals
    intro heq
    subst heq
    revert h
    decide

theorem isBareText_of_isWordName (h : IsWordName text) : IsBareText text := by
  obtain ⟨c, body, hlist, hc, hbody⟩ := h
  unfold IsBareText
  rw [hlist]
  have hletter := Terminal.isNameChar_of_isLetter (Terminal.isLetter_of_isLower hc)
  exact List.forall_mem_cons.mpr
    ⟨isBare_of_isNameChar hletter, fun d hd => isBare_of_isNameChar (hbody d hd)⟩

theorem append_ne_empty_left (h : text ≠ "") : text ++ text' ≠ "" :=
  fun heq => h (String.append_eq_empty_iff.mp heq).1

theorem append_ne_empty_right (h : text' ≠ "") : text ++ text' ≠ "" :=
  fun heq => h (String.append_eq_empty_iff.mp heq).2

end

/-! ## Numerals -/

/-- The characters that numbers are written with. -/
def isNumeral (c : Char) : Bool := c.isDigit || ['+', '-', '.', 'e', 'i', 'n', 'f', 'a'].contains c

/-- A text of the characters that numbers are written with. -/
def IsNumeralText (text : String) : Prop := ∀ c ∈ text.toList, isNumeral c = true

instance (text : String) : Decidable (IsNumeralText text) :=
  List.decidableBAll (fun c => isNumeral c = true) text.toList

theorem isNumeral_of_isDigit {c : Char} (h : c.isDigit = true) : isNumeral c = true := by
  simp [isNumeral, h]

/-- The characters of numbers are bare, and none breaks a line. -/
theorem isBare_of_isNumeral {c : Char} (h : isNumeral c = true) : isBare c = true ∧ c ≠ '\n' := by
  simp only [isBare, Bool.and_eq_true, bne_iff_ne]
  refine ⟨⟨⟨⟨?_, ?_⟩, ?_⟩, ?_⟩, ?_⟩
  all_goals
    intro heq
    subst heq
    revert h
    decide

section

variable {text text' : String}

theorem IsNumeralText.append (h : IsNumeralText text) (h' : IsNumeralText text') :
    IsNumeralText (text ++ text') := by
  unfold IsNumeralText
  rw [String.toList_append]
  exact List.forall_mem_append.mpr ⟨h, h'⟩

theorem isNumeralText_ofList {cs : List Char} (h : ∀ c ∈ cs, isNumeral c = true) :
    IsNumeralText (String.ofList cs) := by
  unfold IsNumeralText
  rwa [String.toList_ofList]

theorem IsNumeralText.isBareText (h : IsNumeralText text) : IsBareText text :=
  fun c hc => (isBare_of_isNumeral (h c hc)).1

theorem IsNumeralText.no_break (h : IsNumeralText text) : '\n' ∉ text.toList :=
  fun hc => (isBare_of_isNumeral (h _ hc)).2 rfl

end

/-! ## Integers -/

theorem isDigit_toDigits {n : Nat} : ∀ c ∈ Nat.toDigits 10 n, c.isDigit = true :=
  fun _ hc => Nat.isDigit_of_mem_toDigits (by decide) (by decide) hc

theorem toDigits_injective {m n : Nat} (h : Nat.toDigits 10 m = Nat.toDigits 10 n) : m = n := by
  rw [← Nat.ofDigitChars_ten_toDigits (n := m), h, Nat.ofDigitChars_ten_toDigits]

theorem decimalNat_injective {m n : Nat} (h : decimalNat m = decimalNat n) : m = n :=
  toDigits_injective (String.ofList_inj.mp h)

/-- The numeral of a number does not start with a minus sign. -/
theorem decimalNat_ne_minus {m : Nat} {text : String} : decimalNat m ≠ "-" ++ text := by
  intro heq
  have hlist := congrArg String.toList heq
  rw [decimalNat, String.toList_ofList, String.toList_append] at hlist
  have hminus : '-' ∈ Nat.toDigits 10 m := by
    rw [hlist]
    exact List.mem_cons_self
  have hdigit := isDigit_toDigits _ hminus
  cases hdigit

theorem decimalInt_injective {m n : Int} (h : decimalInt m = decimalInt n) : m = n := by
  unfold decimalInt at h
  split at h <;> split at h
  · have hlist := congrArg String.toList h
    rw [String.toList_append, String.toList_append] at hlist
    have habs := decimalNat_injective (String.toList_inj.mp (List.append_cancel_left hlist))
    omega
  · exact absurd h.symm decimalNat_ne_minus
  · exact absurd h decimalNat_ne_minus
  · have habs := decimalNat_injective h
    omega

theorem isNumeralText_toDigits (n : Nat) : IsNumeralText (String.ofList (Nat.toDigits 10 n)) :=
  isNumeralText_ofList fun c hc => isNumeral_of_isDigit (isDigit_toDigits c hc)

theorem decimalNat_ne_empty (n : Nat) : decimalNat n ≠ "" := by
  intro heq
  have hlist := congrArg String.toList heq
  rw [decimalNat, String.toList_ofList] at hlist
  exact Nat.toDigits_ne_nil hlist

theorem isNumeralText_decimalInt (n : Int) :
    decimalInt n ≠ "" ∧ IsNumeralText (decimalInt n) := by
  unfold decimalInt
  split
  · exact ⟨append_ne_empty_left (by decide), .append (by decide) (isNumeralText_toDigits _)⟩
  · exact ⟨decimalNat_ne_empty _, isNumeralText_toDigits _⟩

/-! ## Doubles -/

theorem isDigit_digits_ofNat (n : Nat) (power : Int) :
    ∀ c ∈ (Digits.ofNat n power).digits, c.isDigit = true := by
  intro c hc
  rw [Digits.ofNat, List.mem_reverse] at hc
  exact isDigit_toDigits c (List.mem_reverse.mp ((List.dropWhile_sublist _).mem hc))

theorem isDigit_digits_shortest (m : Nat) (e : Int) :
    ∀ c ∈ (Double.shortest m e).digits, c.isDigit = true := by
  unfold Double.shortest
  dsimp only
  cases hfound : (List.range 17).findSome? _ with
  | none => exact List.forall_mem_singleton.mpr rfl
  | some d =>
    obtain ⟨k, -, hk⟩ := List.exists_of_findSome?_eq_some hfound
    obtain ⟨c, -, rfl⟩ := Option.map_eq_some_iff.mp hk
    exact isDigit_digits_ofNat _ _

namespace NumberStyle

variable {ds : List Char} {wholeEnd : String}

theorem isNumeralText_pointed (hds : ∀ c ∈ ds, c.isDigit = true) (k : Nat)
    (hend : IsNumeralText wholeEnd) : IsNumeralText (pointed ds k wholeEnd) := by
  have hwhole :
      IsNumeralText (String.ofList (ds.take k ++ List.replicate (k - ds.length) '0')) := by
    refine isNumeralText_ofList (List.forall_mem_append.mpr ⟨fun c hc => ?_, fun c hc => ?_⟩)
    · exact isNumeral_of_isDigit (hds c (List.mem_of_mem_take hc))
    · rw [List.eq_of_mem_replicate hc]
      rfl
  unfold pointed
  dsimp only
  split
  · exact hwhole.append hend
  · refine (hwhole.append (by decide)).append (isNumeralText_ofList fun c hc => ?_)
    exact isNumeral_of_isDigit (hds c (List.mem_of_mem_drop hc))

theorem pointed_ne_empty (h : wholeEnd ≠ "") (k : Nat) : pointed ds k wholeEnd ≠ "" := by
  unfold pointed
  dsimp only
  split
  · exact append_ne_empty_right h
  · exact append_ne_empty_left (append_ne_empty_right (by decide))

end NumberStyle

theorem isNumeralText_paddedNat (width n : Nat) : IsNumeralText (paddedNat width n) := by
  refine isNumeralText_ofList (List.forall_mem_append.mpr ⟨fun c hc => ?_, fun c hc => ?_⟩)
  · rw [List.eq_of_mem_replicate hc]
    rfl
  · exact isNumeral_of_isDigit (isDigit_toDigits c hc)

theorem isNumeralText_write {d : Digits} (hd : ∀ c ∈ d.digits, c.isDigit = true) :
    Double.plainStyle.write d ≠ "" ∧ IsNumeralText (Double.plainStyle.write d) := by
  unfold NumberStyle.write
  split
  · have hpointed : IsNumeralText (NumberStyle.pointed d.digits 1 "") :=
      NumberStyle.isNumeralText_pointed hd 1 (by decide)
    have hmark : IsNumeralText (String.singleton Double.plainStyle.mark) := by decide
    have hsign : IsNumeralText (if d.exponent < 0 then "-" else "+") := by split <;> decide
    refine ⟨append_ne_empty_left (append_ne_empty_left (append_ne_empty_right (by decide))), ?_⟩
    exact ((hpointed.append hmark).append hsign).append (isNumeralText_paddedNat _ _)
  · split
    · refine ⟨append_ne_empty_left (by decide), .append (by decide) (isNumeralText_ofList ?_)⟩
      refine List.forall_mem_append.mpr ⟨fun c hc => ?_, fun c hc => isNumeral_of_isDigit (hd c hc)⟩
      rw [List.eq_of_mem_replicate hc]
      rfl
    · exact ⟨NumberStyle.pointed_ne_empty (by decide) _,
        NumberStyle.isNumeralText_pointed hd _ (by decide)⟩

theorem isNumeralText_toText (x : Double) : x.toText ≠ "" ∧ IsNumeralText x.toText := by
  unfold Double.toText NumberStyle.render
  split
  · decide
  · split <;> decide
  · rename_i negative m e
    have hdigits : ∀ c ∈ (if m == 0 then ⟨['0'], 0⟩ else Double.shortest m e : Digits).digits,
        c.isDigit = true := by
      split
      · exact List.forall_mem_singleton.mpr rfl
      · exact isDigit_digits_shortest m e
    obtain ⟨hne, hnumeral⟩ := isNumeralText_write hdigits
    have hsign : IsNumeralText (if negative then "-" else "") := by split <;> decide
    exact ⟨append_ne_empty_right hne, hsign.append hnumeral⟩

namespace Form

/-! ## Symbols -/

/-- A character of a symbol. -/
def symbolChar (c : Char) : List Char := if isSpecial c then ['\\', c] else [c]

theorem isPrefixCode_symbolChar : IsPrefixCode symbolChar := by
  intro c d u v h
  have hback : isSpecial '\\' = true := by decide
  unfold symbolChar at h
  split at h <;> split at h
  · obtain ⟨rfl, rfl⟩ := List.cons.inj (List.cons.inj h).2
    exact ⟨rfl, rfl⟩
  · rename_i hd
    rw [← (List.cons.inj h).1] at hd
    exact absurd hback hd
  · rename_i hc _
    rw [(List.cons.inj h).1] at hc
    exact absurd hback hc
  · exact List.cons.inj h

theorem symbolText_injective {name name' : String} (h : symbolText name = symbolText name') :
    name = name' :=
  String.toList_inj.mp (isPrefixCode_symbolChar.flatMap_injective (String.ofList_inj.mp h))

/-- A symbol of bare characters is a word. -/
theorem isWord_symbolText {name : String} (hne : name ≠ "") (hbare : IsBareText name) :
    IsWord (symbolText name).toList := by
  rw [symbolText, String.toList_ofList]
  refine .inl ⟨?_, fun x hx => ?_⟩
  · intro hnil
    rw [List.flatMap_eq_nil_iff] at hnil
    refine hne (String.toList_eq_nil_iff.mp (List.eq_nil_iff_forall_not_mem.mpr fun c hc => ?_))
    exact isPrefixCode_symbolChar.ne_nil c (hnil c hc)
  · obtain ⟨c, hc, hx⟩ := List.mem_flatMap.mp hx
    split at hx
    · rcases List.mem_cons.mp hx with rfl | hx
      · rfl
      · exact List.mem_singleton.mp hx ▸ hbare c hc
    · exact List.mem_singleton.mp hx ▸ hbare c hc

/-! ## Strings -/

/-- The characters that are written as a letter behind a backslash, with these letters. -/
def textEscapes : List (Char × Char) :=
  [('\\', '\\'), ('"', '"'), ('\x08', 'b'), ('\x0c', 'f'), ('\n', 'n'), ('\r', 'r'), ('\t', 't')]

theorem textChar_cases (c : Char) :
    (textChar c = [c] ∧ c ≠ '"' ∧ c ≠ '\\') ∨
      ∃ d, textChar c = ['\\', d] ∧ (c, d) ∈ textEscapes := by
  unfold textChar
  split
  case h_8 hback hquote _ _ _ _ _ => exact .inl ⟨rfl, hquote, hback⟩
  all_goals exact .inr ⟨_, rfl, by decide⟩

theorem isPrefixCode_textChar : IsPrefixCode textChar := by
  intro c d u v h
  have hletters : ∀ p ∈ textEscapes, ∀ q ∈ textEscapes, p.2 = q.2 → p.1 = q.1 := by decide
  rcases textChar_cases c with ⟨hc, -, hback⟩ | ⟨x, hc, hx⟩ <;>
    rcases textChar_cases d with ⟨hd, -, hback'⟩ | ⟨y, hd, hy⟩ <;> rw [hc, hd] at h
  · exact List.cons.inj h
  · exact absurd (List.cons.inj h).1 hback
  · exact absurd (List.cons.inj h).1.symm hback'
  · obtain ⟨hxy, huv⟩ := List.cons.inj (List.cons.inj h).2
    exact ⟨hletters _ hx _ hy hxy, huv⟩

theorem toList_quoteText (text : String) :
    (quoteText text).toList = '"' :: (text.toList.flatMap textChar ++ ['"']) := by
  simp only [quoteText, String.toList_append, String.toList_ofList]
  rfl

theorem quoteText_injective {text text' : String} (h : quoteText text = quoteText text') :
    text = text' := by
  have hlist := congrArg String.toList h
  rw [toList_quoteText, toList_quoteText] at hlist
  have hbody := List.append_cancel_right (List.cons.inj hlist).2
  exact String.toList_inj.mp (isPrefixCode_textChar.flatMap_injective hbody)

theorem isWord_quoteText (text : String) : IsWord (quoteText text).toList := by
  refine .inr ⟨_, toList_quoteText text, ?_⟩
  induction text.toList with
  | nil => exact .close
  | cons c cs ih =>
    rw [List.flatMap_cons, List.append_assoc]
    rcases textChar_cases c with ⟨hc, hquote, hback⟩ | ⟨d, hc, -⟩
    · rw [hc]
      exact .plain hquote hback ih
    · rw [hc]
      exact .escape ih

/-! ## Forms -/

mutual
/-- A form as nested words. -/
def nested : Form → Nested
  | .symbol name => .word (symbolText name).toList
  | .text t => .word (quoteText t).toList
  | .value v => .word (compactValue v).toList
  | .items fs => .items (nestedItems fs)
  | .missing => .word []

def nestedItems : List Form → List Nested
  | [] => []
  | f :: rest => f.nested :: nestedItems rest
end

mutual
theorem text_nested : ∀ f : Form, f.nested.text = f.compact.toList
  | .symbol name => rfl
  | .text t => rfl
  | .value v => rfl
  | .items fs => by
    simp only [nested, Nested.text, compact, texts_nestedItems fs, String.toList_append,
      String.toList_intercalate]
    rfl
  | .missing => rfl

theorem texts_nestedItems :
    ∀ fs : List Form, Nested.texts (nestedItems fs) = (compactItems fs).map String.toList
  | [] => rfl
  | f :: rest => by
    rw [nestedItems, Nested.texts, compactItems, List.map_cons, text_nested f,
      texts_nestedItems rest]
end

/-- Forms of bare symbols, strings and numbers. -/
inductive IsPlain : Form → Prop where
  | symbol {name : String} : name ≠ "" → IsBareText name → IsPlain (.symbol name)
  | text {t : String} : IsPlain (.text t)
  | integer {n : Int} : IsPlain (.value (.int n))
  | float {x : Double} : IsPlain (.value (.float x))
  | string {t : String} : IsPlain (.value (.str t))
  | items {fs : List Form} : (∀ f ∈ fs, f.IsPlain) → IsPlain (.items fs)

theorem nestedItems_eq_map (fs : List Form) : nestedItems fs = fs.map nested := by
  induction fs with
  | nil => rfl
  | cons f rest ih => rw [nestedItems, ih, List.map_cons]

theorem isWord_of_isNumeralText {text : String} (h : text ≠ "" ∧ IsNumeralText text) :
    IsWord text.toList :=
  .inl ⟨fun hnil => h.1 (String.toList_eq_nil_iff.mp hnil), h.2.isBareText⟩

theorem IsPlain.isWritten_nested {f : Form} (h : f.IsPlain) : f.nested.IsWritten := by
  induction h with
  | symbol hne hbare => exact .word (isWord_symbolText hne hbare)
  | text => exact .word (isWord_quoteText _)
  | integer => exact .word (isWord_of_isNumeralText (isNumeralText_decimalInt _))
  | float => exact .word (isWord_of_isNumeralText (isNumeralText_toText _))
  | string => exact .word (isWord_quoteText _)
  | items _ ih =>
    refine .items fun a ha => ?_
    rw [nestedItems_eq_map] at ha
    obtain ⟨f, hf, rfl⟩ := List.mem_map.mp ha
    exact ih f hf

theorem areComplete_of_forall {fs : List Form} (h : ∀ f ∈ fs, f.isComplete = true) :
    areComplete fs = true := by
  induction fs with
  | nil => rfl
  | cons f fs ih =>
    obtain ⟨hf, hfs⟩ := List.forall_mem_cons.mp h
    rw [areComplete, hf, ih hfs]
    rfl

theorem allItemValues_of_forall {writable : Value → Bool} {fs : List Form}
    (h : ∀ f ∈ fs, f.allValues writable = true) : allItemValues writable fs = true := by
  induction fs with
  | nil => rfl
  | cons f fs ih =>
    obtain ⟨hf, hfs⟩ := List.forall_mem_cons.mp h
    rw [allItemValues, hf, ih hfs]
    rfl

/-- Plain forms can be written on one line. -/
theorem IsPlain.isComplete {f : Form} (h : f.IsPlain) :
    f.isComplete = true ∧ f.allValues isCompactValue = true := by
  induction h with
  | symbol | text | integer | float | string => exact ⟨rfl, rfl⟩
  | items _ ih =>
    exact ⟨areComplete_of_forall fun f hf => (ih f hf).1,
      allItemValues_of_forall fun f hf => (ih f hf).2⟩

/-- Plain forms with the same text are the same nested words. -/
theorem IsPlain.nested_eq {f g : Form} (hf : f.IsPlain) (hg : g.IsPlain)
    (h : f.compact = g.compact) : f.nested = g.nested := by
  refine hf.isWritten_nested.eq_of_text hg.isWritten_nested ?_
  rw [text_nested, text_nested, h]

end Form
end MessageLang
