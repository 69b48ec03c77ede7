import MessageLang.Proofs.Grammar.Reading
/-!
# The longest lexeme

What is cut off the head of a text is the longest lexeme of its class there. Names, labels and
numbers hold no blank, no bracket and no semicolon, so what is cut off as one of them hangs on the
text up to the next of these only.

* `Terminal.IsLexeme.length_le_width`: no lexeme at the head of a text is longer than what is cut
  off.
* `Terminal.width_append_congr`: a lexeme that ends before a break does not hang on what comes
  behind it.
* `Terminal.Stands.congr`: the same for a lexeme that stands in front of a text.
-/
namespace MessageLang.Terminal

variable {w rest : List Char}

/-! ## No lexeme is longer -/

theorem IsRun.length_le_run {first more : Char → Bool} (h : IsRun first more w)
    (rest : List Char) : w.length ≤ run first more (w ++ rest) := by
  obtain ⟨c, body, rfl, hc, hb⟩ := h
  simp only [List.cons_append, run, hc, if_true, List.takeWhile_append_of_pos hb,
    List.length_append, List.length_cons]
  omega

theorem run_le_longNameWidth (cs : List Char) : run isLetter isNameChar cs ≤ longNameWidth cs := by
  by_cases hp : ∃ rest, cs.drop (run isLetter isNameChar cs) = '.' :: rest
  · obtain ⟨rest, hd⟩ := hp
    rw [longNameWidth_of_point hd]
    split <;> omega
  · exact Nat.le_of_eq (longNameWidth_of_no_point fun rest hd => hp ⟨rest, hd⟩).symm

theorem IsLongName.length_le_width (h : IsLongName w) (rest : List Char) :
    w.length ≤ longNameWidth (w ++ rest) := by
  induction h with
  | word h => exact Nat.le_trans (h.length_le_run rest) (run_le_longNameWidth _)
  | @path m n hm hn ih =>
    have e : run isLetter isNameChar (m ++ '.' :: (n ++ rest)) = m.length :=
      (hm.mono fun c => isLetter_of_isUpper).run_append (point_stop _ fun _ h => h)
    have hu : ((m ++ '.' :: (n ++ rest)).head?.any Char.isUpper) = true := by
      obtain ⟨c, body, rfl, hc, -⟩ := hm
      exact hc
    have hpos : 0 < n.length := List.length_pos_iff.mpr hn.ne_nil
    have hl : (longNameWidth (n ++ rest) != 0) = true := by
      rw [bne_iff_ne]
      omega
    have hdrop : (m ++ '.' :: (n ++ rest)).drop
        (run isLetter isNameChar (m ++ '.' :: (n ++ rest))) = '.' :: (n ++ rest) := by
      rw [e, List.drop_left]
    rw [List.append_assoc, List.cons_append, longNameWidth_of_point hdrop, hu, hl, Bool.true_and,
      if_pos rfl, e]
    simp only [List.length_append, List.length_cons]
    omega

theorem run_le_dottedWidth (cs : List Char) : run isLower isWord cs ≤ dottedWidth cs := by
  by_cases hn : run isLower isWord cs = 0
  · omega
  by_cases hp : ∃ rest, cs.drop (run isLower isWord cs) = '.' :: rest
  · obtain ⟨rest, hd⟩ := hp
    rw [dottedWidth_of_point hn hd]
    split <;> omega
  · exact Nat.le_of_eq (dottedWidth_of_no_point fun rest hd => hp ⟨rest, hd⟩).symm

theorem IsDotted.length_le_width (h : IsDotted w) (rest : List Char) :
    w.length ≤ dottedWidth (w ++ rest) := by
  induction h with
  | word h => exact Nat.le_trans (h.length_le_run rest) (run_le_dottedWidth _)
  | @path m n hm hn ih =>
    have e : run isLower isWord (m ++ '.' :: (n ++ rest)) = m.length :=
      hm.run_append (point_stop _ fun _ => isNameChar_of_isWord)
    have hpos : 0 < n.length := List.length_pos_iff.mpr hn.ne_nil
    have hl : (dottedWidth (n ++ rest) != 0) = true := by
      rw [bne_iff_ne]
      omega
    have hdrop : (m ++ '.' :: (n ++ rest)).drop
        (run isLower isWord (m ++ '.' :: (n ++ rest))) = '.' :: (n ++ rest) := by
      rw [e, List.drop_left]
    rw [List.append_assoc, List.cons_append,
      dottedWidth_of_point (by rw [e]; exact hm.length_ne_zero) hdrop, if_pos hl, e]
    simp only [List.length_append, List.length_cons]
    omega

theorem length_le_marked {mark : Char} {n : List Char} (h : IsRun isLower isNameChar n)
    (rest : List Char) : n.length + 1 ≤ marked mark (mark :: (n ++ rest)) := by
  have hle := h.length_le_run rest
  have hpos := h.length_ne_zero
  simp only [marked, beq_self_eq_true, if_true]
  rw [behind_of_ne_zero (by omega)]
  omega

theorem IsExponent.length_le_width {x : List Char} (h : IsExponent x) (rest : List Char) :
    x.length ≤ exponentWidth (x ++ rest) := by
  obtain ⟨mark, sign, ds, rfl, hm, hs, hd⟩ := h
  have hb : (mark == 'e' || mark == 'E') = true := by rcases hm with rfl | rfl <;> rfl
  have hle := hd.length_le_run rest
  have hpos := hd.length_ne_zero
  have hne : run Char.isDigit isDecimal (ds ++ rest) ≠ 0 := by omega
  rcases hs with rfl | rfl | rfl
  · obtain ⟨d, body, rfl, hd'⟩ := hd.head?_digits
    simp only [List.nil_append, List.cons_append, exponentWidth, hb, if_true] at hne hle ⊢
    split
    · rename_i heq
      cases heq
      cases hd'
    · rename_i heq
      cases heq
      cases hd'
    · rw [behind_of_ne_zero hne]
      simp only [List.length_cons] at hle ⊢
      omega
  all_goals
    simp only [List.cons_append, List.nil_append, exponentWidth, hb, if_true,
      behind_of_ne_zero hne, List.length_cons]
    omega

theorem IsFloat.length_le_width (h : IsFloat w) (rest : List Char) :
    w.length ≤ floatWidth (w ++ rest) := by
  obtain ⟨ds, hd, ⟨es, x, rfl, he, rfl | hx⟩ | ⟨x, rfl, hx⟩⟩ := h
  · obtain ⟨body, tail, rfl, -, hb, ht⟩ := exists_takeWhile isDecimal rest
    have hes : ∀ c ∈ es ++ body, isDecimal c = true := List.forall_mem_append.mpr ⟨he, hb⟩
    have htext : ds ++ '.' :: (es ++ []) ++ (body ++ tail) =
        ds ++ '.' :: ((es ++ body) ++ tail) := by simp
    rw [htext, floatWidth_of_point hd hes ht]
    simp only [List.length_append, List.length_cons, List.length_nil]
    omega
  · have hle := hx.length_le_width rest
    obtain ⟨mark, tail, rfl, hm, -⟩ := hx.head?
    have hs : ∀ c, ((mark :: tail) ++ rest).head? = some c → isDecimal c = false := by
      intro c hc
      cases hc
      exact hm
    rw [List.append_assoc, List.cons_append, List.append_assoc, floatWidth_of_point hd he hs]
    simp only [List.length_append, List.length_cons] at hle ⊢
    omega
  · have hle := hx.length_le_width rest
    have hpos := hx.length_ne_zero
    obtain ⟨mark, tail, rfl, hm, hp⟩ := hx.head?
    have hs : ∀ c, ((mark :: tail) ++ rest).head? = some c → isDecimal c = false := by
      intro c hc
      cases hc
      exact hm
    have hn : ∀ t, (mark :: tail) ++ rest ≠ '.' :: t := fun t e => hp (List.cons.inj e).1
    rw [List.append_assoc, floatWidth_of_no_point hd hs hn, behind_of_ne_zero (by omega),
      List.length_append]
    omega

theorem IsMagnitude.length_le_width {ds : List Char} (h : IsMagnitude ds) (rest : List Char) :
    ds.length ≤ magnitudeWidth (ds ++ rest) := by
  rcases h with hd | ⟨mark, digit, ds, rfl, hm, hd⟩
  · have hle := hd.length_le_run rest
    unfold magnitudeWidth
    split
    · rename_i mark digits heq
      split
      · rename_i hradix
        -- a radix mark is no digit, so the digits end in front of it
        have hmark : isDecimal mark = false := by
          refine (of_radixDigit?_ne_none fun hnone => ?_).2.1
          rw [radixWidth, hnone] at hradix
          cases hradix
        obtain ⟨d, body, rfl, -, hb⟩ := hd
        cases body with
        | nil =>
          simp only [List.length_cons, List.length_nil]
          omega
        | cons b body =>
          simp only [List.cons_append, List.cons.injEq] at heq
          have hdecimal := hb b List.mem_cons_self
          rw [heq.2.1, hmark] at hdecimal
          cases hdecimal
      · exact hle
    · exact hle
  · have hle := hd.length_le_run rest
    have hpos := hd.length_ne_zero
    have hne : (radixWidth mark (ds ++ rest) != 0) = true := by
      simp only [radixWidth, hm, bne_iff_ne]
      omega
    simp only [List.cons_append, magnitudeWidth]
    rw [if_pos hne]
    simp only [radixWidth, hm, List.length_cons]
    omega

theorem IsInteger.length_le_width (h : IsInteger w) (rest : List Char) :
    w.length ≤ integerWidth (w ++ rest) := by
  obtain ⟨ds, suffix, rfl, hd, hs⟩ := h
  have hle := hd.length_le_width (suffix ++ rest)
  have hpos := hd.length_ne_zero
  have hsuffix : suffix.length ≤ 1 := by
    rcases hs with rfl | rfl | rfl | rfl <;> simp
  have hmagnitude : magnitudeWidth (ds ++ (suffix ++ rest)) ≤
      integerWidth (ds ++ (suffix ++ rest)) := by
    simp only [integerWidth, beq_iff_eq]
    split
    · omega
    · split
      · split <;> omega
      · omega
  rw [List.append_assoc, List.length_append]
  by_cases heq : magnitudeWidth (ds ++ (suffix ++ rest)) = ds.length
  · simp only [integerWidth, heq, beq_iff_eq, if_neg hpos, List.drop_left]
    rcases hs with rfl | rfl | rfl | rfl
    · simp only [List.nil_append, List.length_nil]
      split
      · split <;> omega
      · omega
    all_goals simp
  · omega

/-- No lexeme at the head of a text is longer than the one that is cut off. -/
theorem IsLexeme.length_le_width {t : Terminal} (h : t.IsLexeme w) (rest : List Char) :
    w.length ≤ t.width (w ++ rest) := by
  cases hc : t.isClosed with
  | true => exact Nat.le_of_eq (h.width_append_of_isClosed hc rest).symm
  | false =>
    cases t <;> simp only [isClosed, Bool.true_eq_false] at hc <;> simp only [IsLexeme] at h
    case float => exact h.length_le_width rest
    case integer => exact h.length_le_width rest
    case longName => exact h.length_le_width rest
    case extensionName => exact h.length_le_width rest
    case name => exact h.length_le_run rest
    case optionalName | labelledName =>
      obtain ⟨n, rfl, hn⟩ := h
      simp only [width, List.cons_append, List.length_cons]
      exact length_le_marked hn rest

/-! ## Breaks -/

/-- Blanks, opening brackets and semicolons: no name, label or number holds one. -/
def isBreak (c : Char) : Bool := isBlank c || c == '(' || c == ';'

/-- A text that starts with a break, if it does not end. -/
def Breaks (rest : List Char) : Prop := ∀ c, rest.head? = some c → isBreak c = true

theorem breaks_cons {c : Char} (h : isBreak c = true) : Breaks (c :: rest) := by
  intro d hd
  cases hd
  exact h

/-- The classes of names, labels and numbers. -/
def isWordy : Terminal → Bool
  | float | optionalLabel | label | integer | longName | extensionName | optionalName
  | labelledName | name => true
  | _ => false

theorem isBreak_cases {c : Char} (h : isBreak c = true) :
    c = ' ' ∨ c = '\t' ∨ c = '\x0c' ∨ c = '\r' ∨ c = '\n' ∨ c = '(' ∨ c = ';' := by
  simpa only [isBreak, isBlank, Bool.or_eq_true, beq_iff_eq, or_assoc] using h

theorem isBreak_of_isNameChar {c : Char} (h : isNameChar c = true) : isBreak c = false := by
  cases hb : isBreak c with
  | false => rfl
  | true =>
    rcases isBreak_cases hb with rfl | rfl | rfl | rfl | rfl | rfl | rfl <;> cases h

theorem IsRun.isBreak_eq_false {first more : Char → Bool} (h : IsRun first more w)
    (hf : ∀ c, first c = true → isNameChar c = true)
    (hm : ∀ c, more c = true → isNameChar c = true) : ∀ c ∈ w, isBreak c = false :=
  h.forall_mem (fun c hc => isBreak_of_isNameChar (hf c hc))
    fun c hc => isBreak_of_isNameChar (hm c hc)

theorem isBreak_eq_false_append {v : List Char} (hw : ∀ c ∈ w, isBreak c = false)
    (hv : ∀ c ∈ v, isBreak c = false) : ∀ c ∈ w ++ v, isBreak c = false :=
  List.forall_mem_append.mpr ⟨hw, hv⟩

theorem isBreak_eq_false_cons {d : Char} (hd : isBreak d = false)
    (hw : ∀ c ∈ w, isBreak c = false) : ∀ c ∈ d :: w, isBreak c = false :=
  List.forall_mem_cons.mpr ⟨hd, hw⟩

theorem isNameChar_of_isLower {c : Char} (h : isLower c = true) : isNameChar c = true :=
  isNameChar_of_isLetter (isLetter_of_isLower h)

theorem isNameChar_of_isDigit {c : Char} (h : c.isDigit = true) : isNameChar c = true :=
  isNameChar_of_isDecimal (isDecimal_of_isDigit h)

/-- A name is unbroken, and so are digits. -/
theorem IsRun.unbroken_name (h : IsRun isLower isNameChar w) : ∀ c ∈ w, isBreak c = false :=
  h.isBreak_eq_false (fun _ => isNameChar_of_isLower) fun _ h => h

theorem IsRun.unbroken_digits (h : IsRun Char.isDigit isDecimal w) :
    ∀ c ∈ w, isBreak c = false :=
  h.isBreak_eq_false (fun _ => isNameChar_of_isDigit) fun _ => isNameChar_of_isDecimal

theorem IsLongName.unbroken (h : IsLongName w) : ∀ c ∈ w, isBreak c = false := by
  induction h with
  | word h => exact h.isBreak_eq_false (fun _ => isNameChar_of_isLetter) fun _ h => h
  | path hm _ ih =>
    refine isBreak_eq_false_append ?_ (isBreak_eq_false_cons rfl ih)
    exact hm.isBreak_eq_false (fun _ h => isNameChar_of_isLetter (isLetter_of_isUpper h))
      fun _ h => h

theorem IsDotted.unbroken (h : IsDotted w) : ∀ c ∈ w, isBreak c = false := by
  have word {v : List Char} (hv : IsRun isLower isWord v) : ∀ c ∈ v, isBreak c = false :=
    hv.isBreak_eq_false (fun _ => isNameChar_of_isLower) fun _ => isNameChar_of_isWord
  induction h with
  | word h => exact word h
  | path hm _ ih => exact isBreak_eq_false_append (word hm) (isBreak_eq_false_cons rfl ih)

theorem IsExponent.unbroken (h : IsExponent w) : ∀ c ∈ w, isBreak c = false := by
  obtain ⟨mark, sign, ds, rfl, hm, hs, hd⟩ := h
  refine isBreak_eq_false_cons ?_ (isBreak_eq_false_append ?_ hd.unbroken_digits)
  · rcases hm with rfl | rfl <;> rfl
  · rcases hs with rfl | rfl | rfl <;> simp [isBreak, isBlank]

theorem IsFloat.unbroken (h : IsFloat w) : ∀ c ∈ w, isBreak c = false := by
  obtain ⟨ds, hd, ⟨es, x, rfl, he, hx⟩ | ⟨x, rfl, hx⟩⟩ := h
  · refine isBreak_eq_false_append hd.unbroken_digits (isBreak_eq_false_cons rfl ?_)
    refine isBreak_eq_false_append
      (fun c hc => isBreak_of_isNameChar (isNameChar_of_isDecimal (he c hc))) ?_
    rcases hx with rfl | hx
    · exact nofun
    · exact hx.unbroken
  · exact isBreak_eq_false_append hd.unbroken_digits hx.unbroken

theorem IsInteger.unbroken (h : IsInteger w) : ∀ c ∈ w, isBreak c = false := by
  obtain ⟨ds, suffix, rfl, hd, hs⟩ := h
  refine isBreak_eq_false_append ?_ ?_
  · rcases hd with hd | ⟨mark, digit, ds, rfl, hm, hd⟩
    · exact hd.unbroken_digits
    · have hname := isNameChar_of_radixDigit? hm
      have hmark : radixDigit? mark ≠ none := by simp [hm]
      refine isBreak_eq_false_cons rfl (isBreak_eq_false_cons ?_ ?_)
      · exact isBreak_of_isNameChar (of_radixDigit?_ne_none hmark).1
      · exact hd.isBreak_eq_false (fun c hc => hname c (by simp [hc])) hname
  · rcases hs with rfl | rfl | rfl | rfl <;> simp [isBreak, isBlank]

/-- No name, label or number holds a break. -/
theorem IsLexeme.unbroken {t : Terminal} (h : t.IsLexeme w) (ht : t.isWordy = true) :
    ∀ c ∈ w, isBreak c = false := by
  cases t <;> simp only [isWordy, Bool.false_eq_true] at ht <;> simp only [IsLexeme] at h
  case float => exact h.unbroken
  case integer => exact h.unbroken
  case longName => exact h.unbroken
  case extensionName => exact h.unbroken
  case name => exact h.unbroken_name
  case optionalLabel | label =>
    obtain ⟨n, rfl, hn⟩ := h
    exact isBreak_eq_false_cons rfl
      (isBreak_eq_false_append hn.unbroken_name
        (isBreak_eq_false_cons rfl (List.forall_mem_nil _)))
  case optionalName | labelledName =>
    obtain ⟨n, rfl, hn⟩ := h
    exact isBreak_eq_false_cons rfl hn.unbroken_name

/-! ## What is cut off hangs on the text up to the next break -/

section

variable {t : Terminal} {x r r' : List Char}

/-- An unbroken lexeme at the head of a text ends before the first break. -/
theorem IsLexeme.exists_of_append_eq {tail : List Char} (h : t.IsLexeme w)
    (ht : t.isWordy = true) (hr : Breaks r') (he : x ++ r' = w ++ tail) :
    ∃ v, x = w ++ v := by
  rcases List.append_eq_append_iff.mp he with ⟨v, rfl, rfl⟩ | ⟨v, rfl, -⟩
  · cases v with
    | nil => exact ⟨[], by simp⟩
    | cons c v =>
      have hbreak := hr c rfl
      have hwhole := h.unbroken ht c (by simp)
      rw [hbreak] at hwhole
      cases hwhole
  · exact ⟨v, rfl⟩

/-- A name, a label or a number that ends before a break is cut off whatever stands behind it. -/
theorem width_append_congr (ht : t.isWordy = true) (hx : t.width (x ++ r) ≤ x.length)
    (hr : Breaks r') : t.width (x ++ r') = t.width (x ++ r) := by
  have hl : t.isLayout = false := by
    cases t <;> first | rfl | cases ht
  refine Nat.le_antisymm ?_ ?_
  · by_cases hzero : t.width (x ++ r') = 0
    · omega
    · obtain ⟨w, tail, he, hw, hlen⟩ := exists_isLexeme hl hzero
      obtain ⟨v, rfl⟩ := hw.exists_of_append_eq ht hr he
      rw [hlen, List.append_assoc]
      exact hw.length_le_width _
  · by_cases hzero : t.width (x ++ r) = 0
    · omega
    · obtain ⟨w, tail, he, hw, hlen⟩ := exists_isLexeme hl hzero
      obtain ⟨v, rfl⟩ : ∃ v, x = w ++ v := by
        rcases List.append_eq_append_iff.mp he with ⟨v, rfl, -⟩ | ⟨v, rfl, -⟩
        · rw [hlen, List.length_append] at hx
          obtain rfl : v = [] := List.length_eq_zero_iff.mp (by omega)
          exact ⟨[], by simp⟩
        · exact ⟨v, rfl⟩
      rw [hlen, List.append_assoc]
      exact hw.length_le_width _

/-- Whether a lexeme stands in front of a text hangs on that text up to the next break only. -/
theorem Stands.congr (h : t.Stands w (x ++ r)) (hr : Breaks r') : t.Stands w (x ++ r') := by
  have wordy {s : Terminal} (hs : s.isWordy = true) (hle : s.width (w ++ (x ++ r)) ≤ w.length) :
      s.width (w ++ (x ++ r')) = s.width (w ++ (x ++ r)) := by
    rw [← List.append_assoc] at hle ⊢
    rw [← List.append_assoc]
    exact width_append_congr hs (by rw [List.length_append]; omega) hr
  have head {c : Char} (hc : isBreak c = false) (hne : (x ++ r).head? ≠ some c) :
      (x ++ r').head? ≠ some c := by
    intro heq
    cases x with
    | nil =>
      have hbreak := hr c heq
      rw [hc] at hbreak
      cases hbreak
    | cons d x => exact hne heq
  refine ⟨h.isLexeme, ?_, fun s hs => ?_, fun ht => head rfl (h.no_comment ht)⟩
  · cases hc : t.isClosed with
    | true => exact h.isLexeme.width_append_of_isClosed hc _
    | false =>
      have hwordy : t.isWordy = true := by
        cases t <;> first | rfl | cases hc
      rw [wordy hwordy (Nat.le_of_eq h.width_eq), h.width_eq]
  · have hzero := h.rival s hs
    cases t <;> simp only [rival?, reduceCtorEq, Option.some.injEq] at hs
    case openBracket =>
      subst hs
      obtain rfl : w = ['['] := h.isLexeme
      refine openExtension_width_eq_zero (head rfl fun heq => ?_)
      cases hxr : x ++ r with
      | nil =>
        rw [hxr] at heq
        cases heq
      | cons d tail =>
        rw [hxr] at heq hzero
        cases heq
        cases hzero
    all_goals
      subst hs
      rw [wordy rfl (by omega), hzero]

end
end MessageLang.Terminal
