import MessageLang.Proofs.Text.Escape
import MessageLang.Proofs.Text.Nested
import MessageLang.Sexp
/-!
# The machine form can be read back

The machine form of an S-expression holds printable ASCII characters only, and no two S-expressions
share one. Between quotes a character is a plain one, a letter behind a backslash or its UTF-8 bytes
in decimal, and these can be told apart whatever follows; the rest is that of all nested lists of
words.

* `escapeChar_cases`, `isPrefixCode_escapeChar`: the characters between quotes.
* `atomText_injective`: atoms.
* `Sexp.nested`, `text_nested`: an S-expression as nested words.
* `Sexp.toText_unambiguous`: the machine form is printable, and determines the S-expression.
-/
namespace MessageLang.Sexp

open Text.Escape (letter? paddedNat_three)

/-- A printable ASCII character. -/
def IsPrintable (c : Char) : Prop := 32 ≤ c.toNat ∧ c.toNat ≤ 126

instance (c : Char) : Decidable (IsPrintable c) := inferInstanceAs (Decidable (_ ∧ _))

/-! ## Bytes -/

/-- A byte as an escape: three decimal digits behind a backslash. -/
def escapeByte (b : UInt8) : List Char := '\\' :: (paddedNat 3 b.toNat).toList

theorem escapeByte_eq (b : UInt8) :
    escapeByte b = ['\\', Nat.digitChar (b.toNat / 100), Nat.digitChar (b.toNat / 10 % 10),
      Nat.digitChar (b.toNat % 10)] := by
  rw [escapeByte, paddedNat_three _ b.toNat_lt]

theorem digitChar_inj : ∀ d < 10, ∀ e < 10, Nat.digitChar d = Nat.digitChar e → d = e := by decide

theorem escapeByte_injective {b b' : UInt8} (h : escapeByte b = escapeByte b') : b = b' := by
  rw [escapeByte_eq, escapeByte_eq] at h
  simp only [List.cons.injEq, and_true, true_and] at h
  obtain ⟨h₁, h₂, h₃⟩ := h
  have hb := b.toNat_lt
  have hb' := b'.toNat_lt
  have hundreds := digitChar_inj _ (by omega) _ (by omega) h₁
  have htens := digitChar_inj _ (by omega) _ (by omega) h₂
  have hones := digitChar_inj _ (by omega) _ (by omega) h₃
  exact UInt8.toNat_inj.mp (by omega)

/-- Escapes of bytes that are the same as far as they both reach stand for bytes of which one list
goes on where the other ends. -/
theorem exists_of_escapeByte_append {bs bs' : List UInt8} {u v : List Char}
    (h : bs.flatMap escapeByte ++ u = bs'.flatMap escapeByte ++ v) :
    ∃ r r', bs ++ r = bs' ++ r' := by
  induction bs generalizing bs' with
  | nil => exact ⟨bs', [], (List.append_nil _).symm⟩
  | cons b bs ih =>
    cases bs' with
    | nil => exact ⟨[], b :: bs, List.append_nil _⟩
    | cons b' bs' =>
      rw [List.flatMap_cons, List.flatMap_cons, List.append_assoc, List.append_assoc] at h
      have hlen : (escapeByte b).length = (escapeByte b').length := by
        rw [escapeByte_eq, escapeByte_eq]
        rfl
      obtain ⟨hb, hrest⟩ := List.append_inj h hlen
      obtain ⟨r, r', hr⟩ := ih hrest
      exact ⟨r, r', by rw [escapeByte_injective hb, List.cons_append, List.cons_append, hr]⟩

/-- The bytes of a character do not go on as those of another. -/
theorem eq_of_utf8EncodeChar_append {c d : Char} {r r' : List UInt8}
    (h : String.utf8EncodeChar c ++ r = String.utf8EncodeChar d ++ r') : c = d := by
  have hbytes := congrArg List.toByteArray h
  rw [List.toByteArray_append, List.toByteArray_append] at hbytes
  have hdecode := congrArg (ByteArray.utf8DecodeChar? · 0) hbytes
  simp only [ByteArray.utf8DecodeChar?_utf8EncodeChar_append] at hdecode
  exact Option.some.inj hdecode

/-! ## Characters between quotes -/

/-- A character between quotes is a plain one, a letter behind a backslash, or its bytes. -/
theorem escapeChar_cases (c : Char) :
    (escapeChar c = [c] ∧ c ≠ '"' ∧ c ≠ '\\' ∧ IsPrintable c) ∨
      (∃ d, escapeChar c = ['\\', d] ∧ letter? d = some c) ∨
      escapeChar c = (String.utf8EncodeChar c).flatMap escapeByte := by
  unfold escapeChar
  split
  · exact .inr (.inl ⟨_, rfl, rfl⟩)
  · exact .inr (.inl ⟨_, rfl, rfl⟩)
  · exact .inr (.inl ⟨_, rfl, rfl⟩)
  · exact .inr (.inl ⟨_, rfl, rfl⟩)
  · exact .inr (.inl ⟨_, rfl, rfl⟩)
  · exact .inr (.inl ⟨_, rfl, rfl⟩)
  · rename_i hquote hback _ _ _ _
    split
    · rename_i hplain
      simp only [Bool.and_eq_true, decide_eq_true_eq] at hplain
      exact .inl ⟨rfl, hquote, hback, hplain.1, by omega⟩
    · exact .inr (.inr rfl)

/-- A letter that is an escape is printable and no digit. -/
theorem of_letter? {c d : Char} (h : letter? d = some c) : IsPrintable d ∧ d.isDigit = false := by
  unfold letter? at h
  split at h
  case h_9 => cases h
  all_goals decide

theorem isDigit_digitChar : ∀ d < 10, (Nat.digitChar d).isDigit = true := by decide

/-- The bytes of a character start with a backslash and a digit. -/
theorem exists_flatMap_escapeByte (c : Char) :
    ∃ d rest, (String.utf8EncodeChar c).flatMap escapeByte = '\\' :: d :: rest ∧
      d.isDigit = true := by
  obtain ⟨b, bs, hb⟩ := List.exists_cons_of_ne_nil (String.utf8EncodeChar_ne_nil (c := c))
  have hlt := b.toNat_lt
  rw [hb, List.flatMap_cons, escapeByte_eq]
  exact ⟨_, _, rfl, isDigit_digitChar _ (by omega)⟩

/-- A character between quotes and what follows it can be told apart. -/
theorem isPrefixCode_escapeChar : IsPrefixCode escapeChar := by
  intro c d u v h
  have plain_ne_escape {c x : Char} {y z : List Char} (hc : c ≠ '\\') :
      [c] ++ y ≠ '\\' :: x :: z := fun heq => hc (List.cons.inj heq).1
  have letter_ne_bytes {c d e : Char} {y z : List Char} (hd : letter? e = some d) :
      ['\\', e] ++ y ≠ (String.utf8EncodeChar c).flatMap escapeByte ++ z := by
    intro heq
    obtain ⟨x, rest, hbytes, hdigit⟩ := exists_flatMap_escapeByte c
    rw [hbytes] at heq
    have hx : e = x := (List.cons.inj (List.cons.inj heq).2).1
    rw [← hx, (of_letter? hd).2] at hdigit
    cases hdigit
  rcases escapeChar_cases c with ⟨hc, -, hback, -⟩ | ⟨x, hc, hx⟩ | hc <;>
    rcases escapeChar_cases d with ⟨hd, -, hback', -⟩ | ⟨y, hd, hy⟩ | hd <;> rw [hc, hd] at h
  · exact ⟨(List.cons.inj h).1, (List.cons.inj h).2⟩
  · exact absurd h (plain_ne_escape hback)
  · obtain ⟨x, rest, hbytes, -⟩ := exists_flatMap_escapeByte d
    rw [hbytes] at h
    exact absurd h (plain_ne_escape hback)
  · exact absurd h.symm (plain_ne_escape hback')
  · obtain ⟨rfl, rfl⟩ := List.cons.inj (List.cons.inj h).2
    exact ⟨Option.some.inj (hx.symm.trans hy), rfl⟩
  · exact absurd h (letter_ne_bytes hx)
  · obtain ⟨x, rest, hbytes, -⟩ := exists_flatMap_escapeByte c
    rw [hbytes] at h
    exact absurd h.symm (plain_ne_escape hback')
  · exact absurd h.symm (letter_ne_bytes hy)
  · obtain ⟨r, r', hr⟩ := exists_of_escapeByte_append h
    obtain rfl := eq_of_utf8EncodeChar_append hr
    exact ⟨rfl, List.append_cancel_left h⟩

theorem isPrintable_digitChar : ∀ d < 10, IsPrintable (Nat.digitChar d) := by decide

theorem isPrintable_escapeChar (c : Char) : ∀ x ∈ escapeChar c, IsPrintable x := by
  rcases escapeChar_cases c with ⟨hc, -, -, hp⟩ | ⟨d, hc, hd⟩ | hc
  · rw [hc]
    exact List.forall_mem_singleton.mpr hp
  · rw [hc]
    exact List.forall_mem_cons.mpr ⟨by decide, List.forall_mem_singleton.mpr (of_letter? hd).1⟩
  · rw [hc]
    intro x hx
    obtain ⟨b, -, hx⟩ := List.mem_flatMap.mp hx
    have hlt := b.toNat_lt
    rw [escapeByte_eq] at hx
    simp only [List.mem_cons, List.not_mem_nil, or_false] at hx
    rcases hx with rfl | rfl | rfl | rfl
    · decide
    all_goals exact isPrintable_digitChar _ (by omega)

/-- A character between quotes does not end the quotes. -/
theorem isStringRest_escapeChar (c : Char) {rest : List Char} (h : Terminal.IsStringRest rest) :
    Terminal.IsStringRest (escapeChar c ++ rest) := by
  have hdigit : ∀ d < 10, Nat.digitChar d ≠ '"' ∧ Nat.digitChar d ≠ '\\' := by decide
  rcases escapeChar_cases c with ⟨hc, hq, hb, -⟩ | ⟨d, hc, -⟩ | hc
  · rw [hc]
    exact .plain hq hb h
  · rw [hc]
    exact .escape h
  · rw [hc]
    induction String.utf8EncodeChar c with
    | nil => exact h
    | cons b bs ih =>
      have hlt := b.toNat_lt
      obtain ⟨hq, hb⟩ := hdigit (b.toNat / 10 % 10) (by omega)
      obtain ⟨hq', hb'⟩ := hdigit (b.toNat % 10) (by omega)
      rw [List.flatMap_cons, List.append_assoc, escapeByte_eq]
      exact .escape (.plain hq hb (.plain hq' hb' ih))

/-! ## Atoms -/

/-- An atom without quotes is bare and printable. -/
theorem of_needsQuotes_eq_false {text : String} (h : needsQuotes text = false) :
    text.toList ≠ [] ∧ ∀ c ∈ text.toList, Nested.isBare c = true ∧ IsPrintable c := by
  simp only [needsQuotes, Bool.or_eq_false_iff, List.any_eq_false] at h
  obtain ⟨⟨hempty, -⟩, hreserved⟩ := h
  refine ⟨fun hnil => ?_, fun c hc => ?_⟩
  · rw [String.toList_eq_nil_iff.mp hnil] at hempty
    cases hempty
  · have hr := hreserved c hc
    simp only [isReserved, Bool.or_eq_true, beq_iff_eq, decide_eq_true_eq, not_or] at hr
    obtain ⟨⟨⟨⟨⟨⟨hopen, hclose⟩, hquote⟩, -⟩, -⟩, hlow⟩, hhigh⟩ := hr
    have hspace : c ≠ ' ' := by
      intro heq
      subst heq
      exact hlow (by decide)
    refine ⟨?_, by omega, by omega⟩
    simp only [Nested.isBare, Bool.and_eq_true, bne_iff_ne]
    exact ⟨⟨⟨hspace, hopen⟩, hclose⟩, hquote⟩

theorem toList_atomText (text : String) :
    (needsQuotes text = false ∧ (atomText text).toList = text.toList) ∨
      (atomText text).toList = '"' :: (text.toList.flatMap escapeChar ++ ['"']) := by
  unfold atomText
  split
  · refine .inr ?_
    simp only [String.toList_append, escape, String.toList_ofList]
    rfl
  · rename_i h
    exact .inl ⟨by simpa using h, rfl⟩

theorem isWord_atomText (text : String) : Nested.IsWord (atomText text).toList := by
  rcases toList_atomText text with ⟨hbare, he⟩ | he
  · obtain ⟨hne, hchars⟩ := of_needsQuotes_eq_false hbare
    rw [he]
    exact .inl ⟨hne, fun c hc => (hchars c hc).1⟩
  · refine .inr ⟨_, he, ?_⟩
    induction text.toList with
    | nil => exact .close
    | cons c cs ih =>
      rw [List.flatMap_cons, List.append_assoc]
      exact isStringRest_escapeChar c ih

theorem isPrintable_atomText (text : String) : ∀ c ∈ (atomText text).toList, IsPrintable c := by
  rcases toList_atomText text with ⟨hbare, he⟩ | he
  · rw [he]
    exact fun c hc => ((of_needsQuotes_eq_false hbare).2 c hc).2
  · rw [he]
    refine List.forall_mem_cons.mpr ⟨by decide, List.forall_mem_append.mpr ⟨fun c hc => ?_, ?_⟩⟩
    · obtain ⟨x, -, hx⟩ := List.mem_flatMap.mp hc
      exact isPrintable_escapeChar x c hx
    · exact List.forall_mem_singleton.mpr (by decide)

/-- Atoms with the same machine form are the same. -/
theorem atomText_injective {text text' : String} (h : atomText text = atomText text') :
    text = text' := by
  have bare_ne_quoted {x y : String} {r : List Char} (hx : needsQuotes x = false) :
      x.toList ≠ '"' :: r := by
    intro heq
    have hquote := ((of_needsQuotes_eq_false hx).2 '"' (by rw [heq]; exact List.mem_cons_self)).1
    cases hquote
  rcases toList_atomText text with ⟨hb, he⟩ | he <;>
    rcases toList_atomText text' with ⟨hb', he'⟩ | he' <;> rw [h] at he
  · exact String.toList_inj.mp (he.symm.trans he')
  · exact absurd (he.symm.trans he') (bare_ne_quoted (y := "") hb)
  · exact absurd (he'.symm.trans he) (bare_ne_quoted (y := "") hb')
  · have hbody := (List.cons.inj (he.symm.trans he')).2
    have hchars := List.append_cancel_right hbody
    exact String.toList_inj.mp (isPrefixCode_escapeChar.flatMap_injective hchars)

/-! ## Lists -/

mutual
/-- An S-expression as nested words. -/
def nested : Sexp → Nested
  | .atom text => .word (atomText text).toList
  | .list items => .items (nestedItems items)

def nestedItems : List Sexp → List Nested
  | [] => []
  | s :: rest => s.nested :: nestedItems rest
end

theorem itemsText_cons_cons (s t : Sexp) (rest : List Sexp) :
    itemsText (s :: t :: rest) = s.toText ++ " " ++ itemsText (t :: rest) := rfl

mutual
theorem text_nested : ∀ s : Sexp, s.nested.text = s.toText.toList
  | .atom text => rfl
  | .list items => by
    rw [nested, Nested.text, intercalate_nestedItems items, toText, String.toList_append,
      String.toList_append]
    rfl

theorem intercalate_nestedItems :
    ∀ items : List Sexp, [' '].intercalate (Nested.texts (nestedItems items)) =
      (itemsText items).toList
  | [] => rfl
  | [s] => by
    rw [nestedItems, nestedItems, Nested.texts, Nested.texts, List.intercalate_singleton, itemsText,
      text_nested s]
  | s :: t :: rest => by
    rw [nestedItems, Nested.texts, nestedItems, Nested.texts, List.intercalate_cons_cons,
      ← Nested.texts, ← nestedItems, intercalate_nestedItems (t :: rest), itemsText_cons_cons,
      String.toList_append, String.toList_append, text_nested s]
    rfl
end

mutual
theorem isWritten_nested : ∀ s : Sexp, s.nested.IsWritten
  | .atom text => .word (isWord_atomText text)
  | .list items => .items (isWritten_nestedItems items)

theorem isWritten_nestedItems : ∀ items : List Sexp, ∀ a ∈ nestedItems items, a.IsWritten
  | [] => nofun
  | s :: rest => List.forall_mem_cons.mpr ⟨isWritten_nested s, isWritten_nestedItems rest⟩
end

mutual
theorem nested_injective : ∀ s t : Sexp, s.nested = t.nested → s = t
  | .atom text, .atom text', h => by
    have htext : (atomText text).toList = (atomText text').toList := Nested.word.inj h
    rw [atomText_injective (String.toList_inj.mp htext)]
  | .list items, .list items', h => by
    rw [nestedItems_injective items items' (Nested.items.inj h)]
  | .atom _, .list _, h => nomatch h
  | .list _, .atom _, h => nomatch h

theorem nestedItems_injective :
    ∀ items items' : List Sexp, nestedItems items = nestedItems items' → items = items'
  | [], [], _ => rfl
  | s :: rest, t :: rest', h => by
    obtain ⟨hs, hrest⟩ := List.cons.inj h
    rw [nested_injective s t hs, nestedItems_injective rest rest' hrest]
  | [], _ :: _, h => nomatch h
  | _ :: _, [], h => nomatch h
end

mutual
theorem isPrintable_toText : ∀ s : Sexp, ∀ c ∈ s.toText.toList, IsPrintable c
  | .atom text => isPrintable_atomText text
  | .list items => by
    rw [toText, String.toList_append, String.toList_append]
    refine List.forall_mem_append.mpr ⟨List.forall_mem_append.mpr ⟨?_, ?_⟩, ?_⟩
    · exact List.forall_mem_singleton.mpr (by decide)
    · exact isPrintable_itemsText items
    · exact List.forall_mem_singleton.mpr (by decide)

theorem isPrintable_itemsText : ∀ items : List Sexp, ∀ c ∈ (itemsText items).toList, IsPrintable c
  | [] => nofun
  | [s] => isPrintable_toText s
  | s :: t :: rest => by
    rw [itemsText_cons_cons, String.toList_append, String.toList_append]
    refine List.forall_mem_append.mpr ⟨List.forall_mem_append.mpr ⟨?_, ?_⟩, ?_⟩
    · exact isPrintable_toText s
    · exact List.forall_mem_singleton.mpr (by decide)
    · exact isPrintable_itemsText (t :: rest)
end

/-- The machine form is a single line of printable ASCII, and no two S-expressions share one. -/
theorem toText_unambiguous :
    (∀ s : Sexp, ∀ c ∈ s.toText.toList, 32 ≤ c.toNat ∧ c.toNat ≤ 126) ∧
      Function.Injective toText := by
  refine ⟨isPrintable_toText, fun s t h => nested_injective s t ?_⟩
  refine (isWritten_nested s).eq_of_text (isWritten_nested t) ?_
  rw [text_nested, text_nested, h]

end MessageLang.Sexp
