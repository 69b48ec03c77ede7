import MessageLang.Grammar.Parse
import MessageLang.Proofs.Grammar.Lexeme
/-!
# Reading a text piece by piece

`Reads file w stop s P`: from the state `s`, reading goes over the text `w` to a state that `P`
holds of, whatever follows `w`, as long as `stop` holds of it. The places of the tokens are left
open.

* `Reads.token`, `Reads.blank`: one token, one blank.
* `Reads.append`: one piece of text after the other.
* `Terminal.first?_eq_some`: the class of the lexeme at the head of a text, found by its first
  character.
-/
namespace MessageLang

namespace Terminal

/-- Whether lexemes of a class may start with a character. -/
def starts : Terminal → Char → Bool
  | float, c | integer, c => c.isDigit
  | optionalLabel, c | optionalName, c => c == '?'
  | label, c | labelledName, c => c == '~'
  | longName, c => isLetter c
  | extensionName, c | name, c => isLower c
  | string, c => c == '"'
  | comment, c | openParen, c => c == '('
  | blank, c => isBlank c
  | char, c => c == '\''
  | openExtension, c | openBracket, c => c == '['
  | sign, c => c == '+' || c == '-'
  | colon, c => c == ':'
  | comma, c => c == ','
  | caret, c => c == '^'
  | equals, c => c == '='
  | star, c => c == '*'
  | closeParen, c => c == ')'
  | closeBracket, c => c == ']'
  | semicolon, c => c == ';'

theorem run_eq_zero {first more : Char → Bool} {c : Char} {cs : List Char}
    (h : first c = false) : run first more (c :: cs) = 0 := by
  simp only [run, h, Bool.false_eq_true, if_false]

theorem marked_eq_zero {mark c : Char} {cs : List Char} (h : (c == mark) = false) :
    marked mark (c :: cs) = 0 := by
  simp only [marked, h, Bool.false_eq_true, if_false]

theorem markedColon_eq_zero {mark c : Char} {cs : List Char} (h : (c == mark) = false) :
    markedColon mark (c :: cs) = 0 := by
  simp only [markedColon, marked_eq_zero h, beq_self_eq_true, if_true]

theorem only_eq_zero {d c : Char} {cs : List Char} (h : (c == d) = false) :
    only d (c :: cs) = 0 := by
  simp only [only, h, Bool.false_eq_true, if_false]

/-- A class whose lexemes do not start with a character has none at the head of a text that does. -/
theorem width_eq_zero {t : Terminal} {c : Char} {cs : List Char} (h : t.starts c = false) :
    t.width (c :: cs) = 0 := by
  cases t <;> simp only [starts] at h
  case float => simp only [width, floatWidth, run_eq_zero h, beq_self_eq_true, if_true]
  case integer =>
    have hm : magnitudeWidth (c :: cs) = 0 := by
      unfold magnitudeWidth
      split
      · rename_i heq
        cases heq
        simp at h
      · exact run_eq_zero h
    simp only [width, integerWidth, hm, beq_self_eq_true, if_true]
  case longName =>
    have hr : run isLetter isNameChar (c :: cs) = 0 := run_eq_zero h
    have hu : c.isUpper = false := by
      simp only [isLetter, isAlpha_eq, Bool.or_eq_false_iff] at h
      exact h.1.1
    simp only [width]
    rw [longNameWidth]
    simp only [hr]
    split
    · simp [hu]
    · rfl
  case extensionName =>
    simp only [width]
    rw [dottedWidth]
    simp only [run_eq_zero h, beq_self_eq_true, if_true]
  case name => exact run_eq_zero h
  case optionalLabel | label => exact markedColon_eq_zero h
  case optionalName | labelledName => exact marked_eq_zero h
  case string =>
    simp only [width]
    unfold stringWidth
    split
    · rename_i heq
      cases heq
      simp at h
    · rfl
  case comment =>
    simp only [width]
    unfold commentWidth
    split
    · rename_i heq
      cases heq
      simp at h
    · rfl
  case char =>
    simp only [width]
    unfold charWidth
    split
    · rename_i heq
      cases heq
      simp at h
    · rfl
  case blank =>
    simp only [width, List.takeWhile_cons, h, Bool.false_eq_true, if_false, List.length_nil]
  case openExtension =>
    simp only [beq_eq_false_iff_ne, ne_eq] at h
    unfold width
    split
    all_goals simp_all
  case sign => simp only [width, h, Bool.false_eq_true, if_false]
  all_goals
    simp only [width]
    exact only_eq_zero h

/-- The classes that come before a class and may start with the same character. -/
def rivals (t : Terminal) (c : Char) : List Terminal :=
  (all.takeWhile (· != t)).filter (·.starts c)

/-- The class of the lexeme at the head of a text: none of its rivals that are allowed has one. -/
theorem first?_eq_some {allowed : Terminal → Bool} {t : Terminal} {c : Char} {cs : List Char}
    (ha : allowed t = true) (hw : t.width (c :: cs) ≠ 0)
    (hr : ∀ s ∈ rivals t c, allowed s = true → s.width (c :: cs) = 0) :
    first? allowed (c :: cs) = some t := by
  have hsplit : ∃ after, all = all.takeWhile (· != t) ++ t :: after := by
    cases t <;> exact ⟨_, rfl⟩
  obtain ⟨after, hall⟩ := hsplit
  refine List.find?_eq_some_iff_append.mpr ⟨?_, _, after, hall, ?_⟩
  · simp only [ha, Bool.true_and, bne_iff_ne, ne_eq]
    exact hw
  · intro s hs
    cases has : allowed s with
    | false => rfl
    | true =>
      have hzero : s.width (c :: cs) = 0 := by
        cases hst : s.starts c with
        | false => exact width_eq_zero hst
        | true => exact hr s (List.mem_filter.mpr ⟨hs, hst⟩) has
      simp [hzero]

/-- A letter starts no lexeme with a mark and no number. -/
theorem of_isLetter {c : Char} (h : isLetter c = true) :
    c.isDigit = false ∧ (c == '?') = false ∧ (c == '~') = false := by
  refine ⟨?_, ?_, ?_⟩
  · rw [← Bool.not_eq_true, isDigit_iff]
    rcases isLetter_iff.mp h with h | h | rfl
    · omega
    · omega
    · decide
  all_goals
    rw [beq_eq_false_iff_ne]
    intro heq
    subst heq
    cases h

theorem eq_float_of_mem_rivals {s : Terminal} {c : Char} (hc : c.isDigit = true)
    (hs : s ∈ rivals integer c) : s = float := by
  obtain ⟨hm, hst⟩ := List.mem_filter.mp hs
  have hall : all.takeWhile (· != integer) = [float, optionalLabel, label] := rfl
  simp only [hall, List.mem_cons, List.not_mem_nil, or_false] at hm
  rcases hm with rfl | rfl | rfl
  · rfl
  all_goals
    simp only [starts, beq_iff_eq] at hst
    subst hst
    cases hc

theorem rivals_longName {c : Char} (hc : isLetter c = true) : rivals longName c = [] := by
  obtain ⟨hd, hq, ht⟩ := of_isLetter hc
  refine List.filter_eq_nil_iff.mpr fun s hs hst => ?_
  have hall : all.takeWhile (· != longName) = [float, optionalLabel, label, integer] := rfl
  simp only [hall, List.mem_cons, List.not_mem_nil, or_false] at hs
  rcases hs with rfl | rfl | rfl | rfl <;>
    simp only [starts, hd, hq, ht, Bool.false_eq_true] at hst

theorem mem_rivals_of_isLower {t s : Terminal} {c : Char} (ht : t = extensionName ∨ t = name)
    (hc : isLower c = true) (hs : s ∈ rivals t c) : s = longName ∨ s = extensionName := by
  obtain ⟨hd, hq, hm⟩ := of_isLetter (isLetter_of_isLower hc)
  obtain ⟨hs, hst⟩ := List.mem_filter.mp hs
  have hall : ∀ s ∈ all.takeWhile (· != t), s = longName ∨ s = extensionName ∨
      s ∈ [float, optionalLabel, label, integer, optionalName, labelledName] := by
    rcases ht with rfl | rfl <;> decide
  rcases hall s hs with rfl | rfl | h
  · exact .inl rfl
  · exact .inr rfl
  · simp only [List.mem_cons, List.not_mem_nil, or_false] at h
    rcases h with rfl | rfl | rfl | rfl | rfl | rfl <;>
      simp only [starts, hd, hq, hm, Bool.false_eq_true] at hst

/-! ## What may follow a lexeme -/

/-- What may follow a lexeme of a class, so that it is cut off whole and as one of that class. -/
def Follows : Terminal → List Char → Prop
  | float, rest | integer, rest | longName, rest | extensionName, rest | name, rest => Apart rest
  | labelledName, rest | optionalName, rest => Apart rest ∧ rest.head? ≠ some ':'
  | openParen, rest => rest.head? ≠ some '*'
  | openBracket, rest => rest.head? ≠ some '%'
  | _, _ => True

/-- Whether a class is allowed, and no other that takes its lexemes before it. -/
def IsSought (allowed : Terminal → Bool) (t : Terminal) : Prop :=
  allowed t = true ∧
    (t = extensionName → allowed longName = false) ∧
    (t = name → allowed longName = false ∧ allowed extensionName = false)

theorem IsLexeme.width_append_of_follows {t : Terminal} {w rest : List Char} (h : t.IsLexeme w)
    (hr : t.Follows rest) : t.width (w ++ rest) = w.length := by
  cases hc : t.isClosed with
  | true => exact h.width_append_of_isClosed hc rest
  | false =>
    refine h.width_append ?_
    cases t <;> simp only [isClosed, Bool.true_eq_false] at hc
    case optionalName | labelledName => exact hr.1
    all_goals exact hr

theorem IsInteger.head_isDigit {c : Char} {w : List Char} (h : IsInteger (c :: w)) :
    c.isDigit = true := by
  obtain ⟨ds, suffix, he, hd, -⟩ := h
  rcases hd with hd | ⟨mark, digit, ds', rfl, -⟩
  · exact hd.first_head he.symm
  · rw [List.cons_append] at he
    cases he
    rfl

theorem IsLongName.head_isLetter {c : Char} {w : List Char} (h : IsLongName (c :: w)) :
    isLetter c = true := by
  generalize hv : c :: w = v at h
  cases h with
  | word hr =>
    subst hv
    exact hr.first_head (List.append_nil _)
  | path hr => exact isLetter_of_isUpper (hr.first_head hv.symm)

theorem IsDotted.head_isLower {c : Char} {w : List Char} (h : IsDotted (c :: w)) :
    isLower c = true := by
  generalize hv : c :: w = v at h
  cases h with
  | word hr =>
    subst hv
    exact hr.first_head (List.append_nil _)
  | path hr => exact hr.first_head hv.symm

/-- A marked name is none with a colon, unless a colon follows. -/
theorem markedColon_of_no_colon {mark : Char} {n rest : List Char}
    (hn : IsRun isLower isNameChar n) (hr : Apart rest) (hc : rest.head? ≠ some ':') :
    markedColon mark (mark :: (n ++ rest)) = 0 := by
  have hm : marked mark (mark :: (n ++ rest)) = n.length + 1 :=
    marked_append hn (hr.not_mem fun _ h => h)
  simp only [markedColon, hm, Nat.add_eq_zero_iff, Nat.one_ne_zero, and_false, beq_iff_eq,
    if_false, List.drop_succ_cons, List.drop_left]
  cases rest with
  | nil => rfl
  | cons d rest =>
    have hd : (d == ':') = false := by
      rw [beq_eq_false_iff_ne]
      intro heq
      subst heq
      exact hc rfl
    rw [only_eq_zero hd]
    rfl

theorem commentWidth_eq_zero {rest : List Char} (h : rest.head? ≠ some '*') :
    commentWidth ('(' :: rest) = 0 := by
  unfold commentWidth
  split
  · rename_i he
    cases he
    exact absurd rfl h
  · rfl

theorem eq_of_mem_rivals {t s u : Terminal} {c : Char} (hs : s ∈ rivals t c)
    (h : rivals t c = [u]) : s = u := by
  rw [h] at hs
  exact List.mem_singleton.mp hs

theorem openExtension_width_eq_zero {rest : List Char} (h : rest.head? ≠ some '%') :
    openExtension.width ('[' :: rest) = 0 := by
  rw [width]
  intro tail he
  cases he
  exact h rfl

/-- The class that takes its lexemes before another class does, where both have one. -/
def rival? : Terminal → Option Terminal
  | integer => some float
  | labelledName => some label
  | optionalName => some optionalLabel
  | openBracket => some openExtension
  | _ => none

/-- A lexeme stands in front of a text as one of its class: it is cut off whole, its rival has no
lexeme there, and an opening bracket does not open a comment. -/
structure Stands (t : Terminal) (w rest : List Char) : Prop where
  isLexeme : t.IsLexeme w
  width_eq : t.width (w ++ rest) = w.length
  rival : ∀ s, t.rival? = some s → s.width (w ++ rest) = 0
  no_comment : t = openParen → rest.head? ≠ some '*'

/-- A lexeme stands in front of a text that may follow it. -/
theorem IsLexeme.stands {t : Terminal} {w rest : List Char} (h : t.IsLexeme w)
    (hr : t.Follows rest) : t.Stands w rest := by
  refine ⟨h, h.width_append_of_follows hr, fun s hs => ?_, fun ht => by subst ht; exact hr⟩
  cases t <;> simp only [rival?, reduceCtorEq, Option.some.injEq] at hs <;> subst hs <;>
    simp only [IsLexeme] at h
  case integer => exact h.floatWidth_eq_zero hr
  case labelledName | optionalName =>
    obtain ⟨n, rfl, hn⟩ := h
    exact markedColon_of_no_colon hn hr.1 hr.2
  case openBracket =>
    cases h
    exact openExtension_width_eq_zero hr

/-- The lexeme that stands at the head of a text is of the class that is sought. -/
theorem Stands.first?_append {allowed : Terminal → Bool} {t : Terminal} {w rest : List Char}
    (h : t.Stands w rest) (hs : IsSought allowed t) : first? allowed (w ++ rest) = some t := by
  obtain ⟨h, hlen, hrival, hcomment⟩ := h
  have hw : t.width (w ++ rest) ≠ 0 := by
    rw [hlen]
    exact fun e => h.ne_nil (List.length_eq_zero_iff.mp e)
  obtain ⟨ha, hx, hn⟩ := hs
  cases w with
  | nil => exact absurd rfl h.ne_nil
  | cons c w =>
    refine first?_eq_some ha hw fun s hs hal => ?_
    cases t <;> simp only [IsLexeme] at h
    case float => cases hs
    case integer =>
      rw [eq_float_of_mem_rivals h.head_isDigit hs]
      exact hrival float rfl
    case longName =>
      rw [rivals_longName h.head_isLetter] at hs
      cases hs
    case extensionName =>
      rcases mem_rivals_of_isLower (.inl rfl) h.head_isLower hs with rfl | rfl
      · exact absurd hal (by rw [hx rfl]; decide)
      · have hne : extensionName ∉ all.takeWhile (· != extensionName) := by decide
        exact absurd (List.mem_filter.mp hs).1 hne
    case name =>
      obtain ⟨d, body, he, hd, -⟩ := h
      cases he
      obtain ⟨hn₁, hn₂⟩ := hn rfl
      rcases mem_rivals_of_isLower (.inr rfl) hd hs with rfl | rfl
      · exact absurd hal (by rw [hn₁]; decide)
      · exact absurd hal (by rw [hn₂]; decide)
    case labelledName =>
      obtain ⟨n, he, -⟩ := h
      cases he
      exact hrival s (by rw [eq_of_mem_rivals hs rfl]; rfl)
    case optionalName =>
      obtain ⟨n, he, -⟩ := h
      cases he
      exact hrival s (by rw [eq_of_mem_rivals hs rfl]; rfl)
    case openParen =>
      cases h
      rw [eq_of_mem_rivals hs rfl]
      exact commentWidth_eq_zero (hcomment rfl)
    case openBracket =>
      cases h
      exact hrival s (by rw [eq_of_mem_rivals hs rfl]; rfl)
    case optionalLabel | label | string | char =>
      obtain ⟨n, he, -⟩ := h
      cases he
      exact absurd hs List.not_mem_nil
    case sign =>
      rcases h with h | h
      all_goals
        cases h
        exact absurd hs List.not_mem_nil
    all_goals
      cases h
      exact absurd hs List.not_mem_nil

/-- The lexeme at the head of a text that may follow it is of the class that is sought. -/
theorem IsLexeme.first?_append {allowed : Terminal → Bool} {t : Terminal} {w rest : List Char}
    (h : t.IsLexeme w) (hr : t.Follows rest) (hs : IsSought allowed t) :
    first? allowed (w ++ rest) = some t :=
  (h.stands hr).first?_append hs

end Terminal

/-- A state that looks for a class looks for no other that takes its lexemes before it. -/
theorem State.isSought_of_expects {s : State} {t : Terminal} (h : s.expects t = true) :
    Terminal.IsSought s.accepts t := by
  refine ⟨by simp [accepts, h], ?_, ?_⟩
  all_goals
    intro heq
    subst heq
    cases hm : s.mode <;>
      simp [accepts, expects, hm, startsSimple, startsArgument, endsOperand, mayClose,
        Terminal.isLayout] at h ⊢

theorem Terminal.IsLexeme.isLayout_eq_false {t : Terminal} {w : List Char} (h : t.IsLexeme w) :
    t.isLayout = false := by
  cases t
  case comment | blank => exact h.elim
  all_goals rfl

/-! ## Steps of reading -/

variable {file : String}

/-- Reading over one token. -/
theorem readFrom_token {s s' : State} {last p : Position} {t : Terminal} {w rest : List Char}
    (hw : w ≠ []) (hf : Terminal.first? s.accepts (w ++ rest) = some t)
    (hn : t.width (w ++ rest) = w.length) (hl : t.isLayout = false)
    (hs : s.shift file ⟨t, w, p, p.advance w⟩ = some s') :
    readFrom file s last p (w ++ rest) = readFrom file s' p (p.advance w) rest := by
  obtain ⟨c, tail, he⟩ : ∃ c tail, w ++ rest = c :: tail := by
    cases w with
    | nil => exact absurd rfl hw
    | cons c w => exact ⟨c, w ++ rest, rfl⟩
  have htake : (c :: tail).take (t.width (c :: tail)) = w := by
    rw [← he, hn, List.take_left]
  have hdrop : (c :: tail).drop (t.width (c :: tail)) = rest := by
    rw [← he, hn, List.drop_left]
  rw [he] at hf ⊢
  rw [readFrom]
  split
  · rename_i t' hf'
    rw [hf] at hf'
    cases hf'
    simp only [hl, Bool.false_eq_true, if_false, htake, hdrop, hs]
  · rename_i hf'
    rw [hf] at hf'
    cases hf'

/-- Reading over a blank. -/
theorem readFrom_blank {s : State} {last p : Position} {c : Char} {rest : List Char}
    (hc : Terminal.isBlank c = true) (hr : ∀ d, rest.head? = some d → Terminal.isBlank d = false) :
    readFrom file s last p (c :: rest) = readFrom file s last (p.advance [c]) rest := by
  have hw : Terminal.blank.width (c :: rest) = 1 := by
    simp only [Terminal.width, List.takeWhile_cons, hc, if_true, List.length_cons]
    cases rest with
    | nil => rfl
    | cons d rest => simp [hr d rfl]
  have hf : Terminal.first? s.accepts (c :: rest) = some .blank := by
    refine Terminal.first?_eq_some rfl (by rw [hw]; decide) fun t ht _ => ?_
    simp only [Terminal.isBlank, Bool.or_eq_true, beq_iff_eq] at hc
    rcases hc with (((rfl | rfl) | rfl) | rfl) | rfl <;> exact absurd ht List.not_mem_nil
  rw [readFrom]
  split
  · rename_i t hf'
    rw [hf] at hf'
    cases hf'
    simp only [Terminal.isLayout, if_true, hw]
    rfl
  · rename_i hf'
    rw [hf] at hf'
    cases hf'

/-- From a state, reading goes over a text to a state that `P` holds of, if `stop` holds of what
follows the text. -/
def Reads (file : String) (w : List Char) (stop : List Char → Prop) (s : State)
    (P : State → Prop) : Prop :=
  ∀ last p rest, stop rest →
    ∃ s' last' p', P s' ∧ readFrom file s last p (w ++ rest) = readFrom file s' last' p' rest

/-- What ends every part of an expression or a type: a space, a bracket or a separator. -/
def Ends (rest : List Char) : Prop :=
  ∀ c, rest.head? = some c → c ∈ [' ', ')', ']', ',', ';']

theorem ends_cons {c : Char} {rest : List Char} (h : c ∈ [' ', ')', ']', ',', ';']) :
    Ends (c :: rest) := by
  intro d hd
  rw [List.head?_cons, Option.some.injEq] at hd
  exact hd ▸ h

theorem Ends.head?_ne {rest : List Char} (h : Ends rest) {c : Char}
    (hc : c ∉ [' ', ')', ']', ',', ';']) : rest.head? ≠ some c :=
  fun e => hc (h c e)

theorem Ends.apart {rest : List Char} (h : Ends rest) : Terminal.Apart rest := by
  intro c hc
  have hm := h c hc
  simp only [List.mem_cons, List.not_mem_nil, or_false] at hm
  rcases hm with rfl | rfl | rfl | rfl | rfl <;> decide

theorem Ends.follows {rest : List Char} (h : Ends rest) (t : Terminal) : t.Follows rest := by
  cases t
  case optionalName | labelledName => exact ⟨h.apart, h.head?_ne (by decide)⟩
  case openParen | openBracket => exact h.head?_ne (by decide)
  case float | integer | longName | extensionName | name => exact h.apart
  all_goals trivial

namespace Reads

variable {s : State} {P Q : State → Prop} {stop stop' : List Char → Prop} {w w' : List Char}

theorem mono (h : Reads file w stop s Q) (hs : ∀ rest, stop' rest → stop rest)
    (hp : ∀ s', Q s' → P s') : Reads file w stop' s P := by
  intro last p rest hr
  obtain ⟨s', last', p', hq, e⟩ := h last p rest (hs rest hr)
  exact ⟨s', last', p', hp s' hq, e⟩

/-- One piece of text after the other. -/
theorem append (h : Reads file w stop s Q) (h' : ∀ s', Q s' → Reads file w' stop' s' P)
    (hs : ∀ rest, stop' rest → stop (w' ++ rest)) : Reads file (w ++ w') stop' s P := by
  intro last p rest hr
  obtain ⟨s₁, last₁, p₁, hq, e₁⟩ := h last p (w' ++ rest) (hs rest hr)
  obtain ⟨s₂, last₂, p₂, hp, e₂⟩ := h' s₁ hq last₁ p₁ rest hr
  exact ⟨s₂, last₂, p₂, hp, by rw [List.append_assoc, e₁, e₂]⟩

/-- One token. -/
theorem token {t : Terminal} (h : t.IsLexeme w) (ha : s.expects t = true)
    (hs : ∀ p q, ∃ s', s.shift file ⟨t, w, p, q⟩ = some s' ∧ P s') :
    Reads file w t.Follows s P := by
  intro last p rest hr
  obtain ⟨s', e, hp⟩ := hs p (p.advance w)
  exact ⟨s', _, _, hp,
    readFrom_token h.ne_nil (h.first?_append hr (State.isSought_of_expects ha))
      (h.width_append_of_follows hr) h.isLayout_eq_false e⟩

/-- One blank. -/
theorem blank {c : Char} (hc : Terminal.isBlank c = true) (hp : P s) :
    Reads file [c] (fun rest => ∀ d, rest.head? = some d → Terminal.isBlank d = false) s P :=
  fun _ _ _ hr => ⟨s, _, _, hp, readFrom_blank hc hr⟩

end Reads
end MessageLang
