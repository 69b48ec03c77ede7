import MessageLang.Proofs.Grammar.Viable
import MessageLang.Proofs.Source.Lines
/-!
# Where texts cannot be read

A text is refused at the first place where it cannot be the start of a program. The tokens before
that place can go on to one; with the token that is blamed they cannot, or there is none: what
stands there is neither a lexeme nor layout, or the text ends.

* `Terminal.IsLexeme.exists_width_ne_zero`, `Terminal.IsLayout.exists_width_ne_zero`: where a lexeme
  or layout stands, something is found.
* `Lexes`: the tokens that are cut off a text, up to a place.
* `Stops`, `exists_stops_of_readFrom`: a text that is refused is read up to a place where the state
  that is reached cannot go on.
* `Unexpected.Blames`, `Program.parse_unexpected`: what an error says about that place, and that it
  is so.
-/
namespace MessageLang

/-! ## Texts without lexemes -/

namespace Terminal

/-- Where no class that is allowed is found, none has a lexeme. -/
theorem width_eq_zero_of_first? {allowed : Terminal → Bool} {cs : List Char} {k : Terminal}
    (h : first? allowed cs = none) (hk : allowed k = true) : k.width cs = 0 := by
  have hmem : k ∈ all := by cases k <;> decide
  have hnone := List.find?_eq_none.mp h k hmem
  simpa [hk] using hnone

theorem run_ne_zero {first more : Char → Bool} {c : Char} {cs : List Char} (h : first c = true) :
    run first more (c :: cs) ≠ 0 := by
  simp only [run, h, if_true]
  exact Nat.succ_ne_zero _

/-- A text that starts with a digit starts with an integer. -/
theorem integerWidth_ne_zero {c : Char} {cs : List Char} (h : c.isDigit = true) :
    integerWidth (c :: cs) ≠ 0 := by
  have hrun : run Char.isDigit isDecimal (c :: cs) ≠ 0 := run_ne_zero h
  have hmagnitude : magnitudeWidth (c :: cs) ≠ 0 := by
    unfold magnitudeWidth
    split
    · split
      · omega
      · exact hrun
    · exact hrun
  unfold integerWidth
  simp only [beq_iff_eq, hmagnitude, if_false]
  split
  · split <;> omega
  · exact hmagnitude

/-- A text that starts with a letter starts with a name. -/
theorem longNameWidth_ne_zero {c : Char} {cs : List Char} (h : isLetter c = true) :
    longNameWidth (c :: cs) ≠ 0 := by
  have hrun : run isLetter isNameChar (c :: cs) ≠ 0 := run_ne_zero h
  rw [longNameWidth]
  split
  · dsimp only
    split
    · omega
    · exact hrun
  · exact hrun

/-- A mark and a name behind it are found. -/
theorem marked_ne_zero (mark : Char) {n : List Char} (h : IsRun isLower isNameChar n)
    (rest : List Char) : marked mark (mark :: (n ++ rest)) ≠ 0 := by
  obtain ⟨c, body, rfl, hc, -⟩ := h
  have hrun : run isLower isNameChar (c :: body ++ rest) ≠ 0 := run_ne_zero hc
  simp only [marked, beq_self_eq_true, if_true, behind_of_ne_zero hrun]
  omega

/-- Where a lexeme stands, one is found, though perhaps a longer one or one of another class. -/
theorem IsLexeme.exists_width_ne_zero {t : Terminal} {w : List Char} (h : t.IsLexeme w)
    (rest : List Char) : ∃ k : Terminal, k.width (w ++ rest) ≠ 0 := by
  have digit {c : Char} {v : List Char} (hc : c.isDigit = true) :
      ∃ k : Terminal, k.width (c :: v ++ rest) ≠ 0 := ⟨integer, integerWidth_ne_zero hc⟩
  have letter {c : Char} {v : List Char} (hc : isLetter c = true) :
      ∃ k : Terminal, k.width (c :: v ++ rest) ≠ 0 := ⟨longName, longNameWidth_ne_zero hc⟩
  cases hclosed : t.isClosed with
  | true =>
    refine ⟨t, ?_⟩
    rw [h.width_append_of_isClosed hclosed]
    exact fun hlen => h.ne_nil (List.length_eq_zero_iff.mp hlen)
  | false =>
    obtain ⟨c, v, rfl⟩ := List.exists_cons_of_ne_nil h.ne_nil
    cases t <;> simp only [IsLexeme, isClosed, Bool.true_eq_false] at h hclosed
    case float =>
      obtain ⟨ds, hds, ⟨es, x, he, -⟩ | ⟨x, he, -⟩⟩ := h
      · exact digit (hds.first_head he.symm)
      · exact digit (hds.first_head he.symm)
    case integer => exact digit h.head_isDigit
    case longName => exact letter h.head_isLetter
    case extensionName => exact letter (isLetter_of_isLower h.head_isLower)
    case name => exact letter (isLetter_of_isLower (h.first_head (List.append_nil _)))
    case optionalName =>
      obtain ⟨n, heq, hn⟩ := h
      rw [heq]
      exact ⟨optionalName, marked_ne_zero '?' hn rest⟩
    case labelledName =>
      obtain ⟨n, heq, hn⟩ := h
      rw [heq]
      exact ⟨labelledName, marked_ne_zero '~' hn rest⟩

theorem IsCommentRest.commentRest_ne_zero {w : List Char} (h : IsCommentRest w)
    (rest : List Char) : commentRest (w ++ rest) ≠ 0 := by
  induction h with
  | close => exact Nat.succ_ne_zero 1
  | char _ _ ih =>
    rw [List.cons_append]
    unfold commentRest
    split
    · exact Nat.succ_ne_zero 1
    · rename_i heq
      cases heq
      rw [behind_of_ne_zero ih]
      omega
    · rename_i heq
      cases heq

/-- Where layout stands, it is found. -/
theorem IsLayout.exists_width_ne_zero {w : List Char} (h : IsLayout w) (rest : List Char) :
    ∃ k : Terminal, k.width (w ++ rest) ≠ 0 := by
  rcases h with ⟨hne, hblank⟩ | ⟨r, rfl, hr⟩
  · obtain ⟨c, v, rfl⟩ := List.exists_cons_of_ne_nil hne
    refine ⟨blank, ?_⟩
    simp only [width, List.cons_append, List.takeWhile_cons, hblank c List.mem_cons_self, if_true,
      List.length_cons]
    exact Nat.succ_ne_zero _
  · refine ⟨comment, ?_⟩
    simp only [width, List.cons_append, commentWidth,
      behind_of_ne_zero (hr.commentRest_ne_zero rest)]
    omega

end Terminal

/-! ## Tokens that are cut off -/

/-- From a state and a place on, the text is layout and these tokens, each of the first class that
is looked for and has a lexeme there, up to another place. -/
inductive Lexes (file : String) : State → Position → List Char → List Token → State → Position →
    List Char → Prop where
  | nil {s p cs} : Lexes file s p cs [] s p cs
  | layout {s p w rest ts s' p' rest'} {k : Terminal} :
    Terminal.first? s.accepts (w ++ rest) = some k → k.width (w ++ rest) = w.length →
    k.isLayout = true → Lexes file s (p.advance w) rest ts s' p' rest' →
    Lexes file s p (w ++ rest) ts s' p' rest'
  | token {s s₁ p w rest ts s' p' rest'} {k : Terminal} :
    Terminal.first? s.accepts (w ++ rest) = some k → k.width (w ++ rest) = w.length →
    k.isLayout = false → s.shift file ⟨k, w, p, p.advance w⟩ = some s₁ →
    Lexes file s₁ (p.advance w) rest ts s' p' rest' →
    Lexes file s p (w ++ rest) (⟨k, w, p, p.advance w⟩ :: ts) s' p' rest'

namespace Lexes

variable {file : String} {s s' : State} {p p' : Position} {cs rest : List Char} {ts : List Token}

/-- The tokens leave the state in which the text is read on. -/
theorem shiftAll (h : Lexes file s p cs ts s' p' rest) : s.shiftAll file ts = some s' := by
  induction h with
  | nil => rfl
  | layout _ _ _ _ ih => exact ih
  | token _ _ _ hs _ ih => rw [State.shiftAll_cons_of hs, ih]

theorem areLexemes (h : Lexes file s p cs ts s' p' rest) : AreLexemes ts := by
  induction h with
  | nil => exact nofun
  | layout _ _ _ _ ih => exact ih
  | @token s _ p w rest _ _ _ _ k hf hw hl _ _ ih =>
    refine List.forall_mem_cons.mpr ⟨?_, ih⟩
    have hpos := Terminal.width_pos_of_first? hf
    obtain ⟨v, rest', heq, hv, hlen⟩ := Terminal.exists_isLexeme hl (Nat.pos_iff_ne_zero.mp hpos)
    rwa [(List.append_inj heq (hw.symm.trans hlen)).1]

/-- The place up to which a text has been read is where the rest of it starts. -/
theorem exists_place {text : List Char} (h : Lexes file s p cs ts s' p' rest) (pre : List Char)
    (htext : text = pre ++ cs) (hp : p = positionAt text pre.length) :
    ∃ pre', text = pre' ++ rest ∧ p' = positionAt text pre'.length := by
  induction h generalizing pre with
  | nil => exact ⟨pre, htext, hp⟩
  | @layout _ _ w _ _ _ _ _ _ _ _ _ _ ih
  | @token _ _ _ w _ _ _ _ _ _ _ _ _ _ _ ih =>
    refine ih (pre ++ w) (by rw [htext, List.append_assoc]) ?_
    rw [hp, htext, ← List.append_assoc, advance_positionAt, List.length_append]

end Lexes

/-! ## Where reading stops -/

/-- The class of the lexeme that is cut off: the first of those that are looked for, or of all where
none of those has a lexeme. -/
def State.class? (s : State) (cs : List Char) : Option Terminal :=
  (Terminal.first? s.accepts cs).or (Terminal.first? (fun _ => true) cs)

/-- Why a state cannot go on with a text from a place, and the place that is reported; `last` is
where the token before it starts. -/
inductive Stops (file : String) (s : State) (last p : Position) :
    List Char → Unexpected → Position → Prop where
  | endOfInput : s.mode ≠ .statement → Stops file s last p [] .endOfInput last
  | token {k w rest} :
    s.class? (w ++ rest) = some k → k.width (w ++ rest) = w.length → k.IsLexeme w →
    s.shift file ⟨k, w, p, p.advance w⟩ = none →
    Stops file s last p (w ++ rest) (.token (String.ofList w)) p
  | character {c rest} :
    (∀ k : Terminal, k.width (c :: rest) = 0) → Stops file s last p (c :: rest) (.character c) p

section

variable {file : String} {s : State} {last p : Position} {cs : List Char}

/-- A text that is refused is read up to a place where the state that is reached cannot go on. -/
theorem exists_stops_of_readFrom {e : ParseError} (hr : readFrom file s last p cs = .error e) :
    ∃ what ts s' p' rest place, e = .unexpected what place.line place.column ∧
      Lexes file s p cs ts s' p' rest ∧
      Stops file s' ((ts.getLast?.map Token.first).getD last) p' rest what place := by
  -- a token drops a lexeme of any width, so the induction is on the length of the text
  generalize hn : cs.length = n
  induction n using Nat.strongRecOn generalizing s last p cs with
  | _ n ih =>
    cases cs with
    | nil =>
      rw [readFrom] at hr
      split at hr
      · cases hr
      · rename_i hm
        cases hr
        exact ⟨_, [], s, p, [], last, rfl, .nil, .endOfInput hm⟩
    | cons c cs =>
      rw [readFrom] at hr
      split at hr
      · rename_i k hf
        have hpos := Terminal.width_pos_of_first? hf
        have hlt : ((c :: cs).drop (k.width (c :: cs))).length < n := by
          rw [← hn, List.length_drop, List.length_cons]
          omega
        cases hl : k.isLayout with
        | true =>
          simp only [hl, if_true] at hr
          obtain ⟨what, ts, s', p', rest', place, he, hts, hstop⟩ := ih _ hlt hr rfl
          obtain ⟨w, rest, heq, hw, hlen⟩ :=
            Terminal.exists_isLayout hl (Nat.pos_iff_ne_zero.mp hpos)
          rw [hlen, heq, List.take_left, List.drop_left] at hts
          rw [heq] at hf hlen ⊢
          exact ⟨what, ts, s', p', rest', place, he, .layout hf hlen hl hts, hstop⟩
        | false =>
          simp only [hl, Bool.false_eq_true, if_false] at hr
          obtain ⟨w, rest, heq, hw, hlen⟩ :=
            Terminal.exists_isLexeme hl (Nat.pos_iff_ne_zero.mp hpos)
          split at hr
          · rename_i s₁ hs
            obtain ⟨what, ts, s', p', rest', place, he, hts, hstop⟩ := ih _ hlt hr rfl
            rw [hlen, heq, List.take_left] at hs
            rw [hlen, heq, List.take_left, List.drop_left] at hts
            rw [heq] at hf hlen ⊢
            refine ⟨what, _, s', p', rest', place, he, .token hf hlen hl hs hts, ?_⟩
            rw [List.getLast?_cons, Option.map_some, Option.getD_some]
            cases hlast : ts.getLast? <;> rw [hlast] at hstop <;> exact hstop
          · rename_i hs
            cases hr
            rw [hlen, heq, List.take_left] at hs
            rw [hlen, heq, List.take_left]
            rw [heq] at hf hlen
            refine ⟨_, [], s, p, w ++ rest, p, rfl, .nil, .token ?_ hlen hw hs⟩
            rw [State.class?, hf, Option.some_or]
      · rename_i hf
        split at hr
        · rename_i k hall
          cases hr
          have hpos := Nat.pos_iff_ne_zero.mp (Terminal.width_pos_of_first? hall)
          have hunsought : s.accepts k = false := by
            rw [← Bool.not_eq_true]
            exact fun hk => hpos (Terminal.width_eq_zero_of_first? hf hk)
          obtain ⟨hl, hunexpected⟩ := Bool.or_eq_false_iff.mp hunsought
          obtain ⟨w, rest, heq, hw, hlen⟩ := Terminal.exists_isLexeme hl hpos
          rw [hlen, heq, List.take_left]
          rw [heq] at hf hall hlen
          refine ⟨_, [], s, p, w ++ rest, p, rfl, .nil, .token ?_ hlen hw ?_⟩
          · rw [State.class?, hf, hall, Option.none_or]
          · cases hs : s.shift file ⟨k, w, p, p.advance w⟩ with
            | none => rfl
            | some s₁ =>
              rw [show s.expects k = true from State.expects_of_shift hs] at hunexpected
              cases hunexpected
        · rename_i hall
          cases hr
          refine ⟨_, [], s, p, c :: cs, p, rfl, .nil, .character fun k => ?_⟩
          exact Terminal.width_eq_zero_of_first? hall rfl

end

/-! ## Errors -/

/-- What an error says about a text that has been read up to the place `p`, by tokens `ts` that have
left the state `s`, and that goes on with `rest` there; `place` is the place that is reported.

* A token that is blamed is the one that is cut off there, and no program goes on with it.
* A character is blamed where no lexeme and no layout stands.
* The end is blamed where the tokens are no program; it is reported at the last of them. -/
def Unexpected.Blames (file : String) (ts : List Token) (s : State) (p : Position)
    (rest : List Char) (place : Position) : Unexpected → Prop
  | token text =>
    place = p ∧ ∃ t rest', rest = t.text ++ rest' ∧ text = String.ofList t.text ∧ t.first = p ∧
      t.terminal.IsLexeme t.text ∧ s.class? rest = some t.terminal ∧
      t.terminal.width rest = t.text.length ∧
      ∀ more q bad, ¬ Derives file (.program q) (ts ++ t :: more) bad
  | character c =>
    place = p ∧ rest.head? = some c ∧
      ∀ w rest', rest = w ++ rest' → ¬ Terminal.IsLayout w ∧ ∀ k : Terminal, ¬ k.IsLexeme w
  | endOfInput =>
    rest = [] ∧ (∀ q bad, ¬ Derives file (.program q) ts bad) ∧
      ∃ t, ts.getLast? = some t ∧ place = t.first

section

variable {file : String} {what : Unexpected} {s : State} {p last place : Position}
  {rest : List Char} {ts : List Token} {t : Token}

/-- No program goes on with a token that the state behind the tokens before it refuses. -/
theorem not_derives_of_shift (hs : State.initial.shiftAll file ts = some s)
    (ht : s.shift file t = none) (more : List Token) (p : Program) (bad : List BadLiteral) :
    ¬ Derives file (.program p) (ts ++ t :: more) bad := by
  intro h
  have hrun := h.shiftAll
  rw [State.shiftAll_append_of hs, State.shiftAll_cons, ht] at hrun
  cases hrun

/-- Tokens are no program if a program may not end in the state behind them. -/
theorem not_derives_of_mode (hs : State.initial.shiftAll file ts = some s)
    (hm : s.mode ≠ .statement) (p : Program) (bad : List BadLiteral) :
    ¬ Derives file (.program p) ts bad := by
  intro h
  rw [h.shiftAll] at hs
  cases hs
  exact hm rfl

/-- What reading stops at is to blame. -/
theorem Stops.blames (h : Stops file s ((ts.getLast?.map Token.first).getD last) p rest what place)
    (hs : State.initial.shiftAll file ts = some s) : what.Blames file ts s p rest place := by
  cases h with
  | endOfInput hm =>
    refine ⟨rfl, not_derives_of_mode hs hm, ?_⟩
    cases hlast : ts.getLast? with
    | none =>
      rw [List.getLast?_eq_none_iff.mp hlast] at hs
      cases hs
      exact absurd rfl hm
    | some t => exact ⟨t, rfl, rfl⟩
  | @token k w rest hk hw hlexeme ht =>
    exact ⟨rfl, ⟨k, w, p, p.advance w⟩, rest, rfl, rfl, rfl, hlexeme, hk, hw,
      not_derives_of_shift hs ht⟩
  | character hnone =>
    refine ⟨rfl, rfl, fun w rest' heq => ⟨fun hw => ?_, fun k hw => ?_⟩⟩
    all_goals
      obtain ⟨k, hk⟩ := hw.exists_width_ne_zero rest'
      rw [← heq] at hk
      exact hk (hnone k)

end

/-- A text that is refused has been read up to a place by tokens that can go on to a program. The
error says why they cannot with what stands at that place. -/
theorem Program.parse_unexpected {file source : String} {what : Unexpected} {line column : Nat}
    (h : Program.parse file source = .error (.unexpected what line column)) :
    ∃ ts s pre rest place, source.toList = pre ++ rest ∧
      Lexes file .initial .start source.toList ts s (positionAt source.toList pre.length) rest ∧
      AreLexemes ts ∧ IsViable file ts ∧ line = place.line ∧ column = place.column ∧
      what.Blames file ts s (positionAt source.toList pre.length) rest place := by
  unfold Program.parse at h
  cases hr : readFrom file .initial .start .start source.toList with
  | error e =>
    rw [hr] at h
    cases h
    obtain ⟨what', ts, s, p, rest, place, he, hlexes, hstop⟩ := exists_stops_of_readFrom hr
    cases he
    obtain ⟨pre, htext, rfl⟩ := hlexes.exists_place [] rfl rfl
    exact ⟨ts, s, pre, rest, place, htext, hlexes, hlexes.areLexemes,
      isViable_iff.mpr ⟨s, hlexes.shiftAll⟩, rfl, rfl, hstop.blames hlexes.shiftAll⟩
  | ok s =>
    rw [hr] at h
    simp only [bind, Except.bind] at h
    split at h
    · cases h
    · split at h <;> cases h

/-- A list that the wrong bracket closes: the lexer looks for it, as it might close another one. -/
theorem Program.parse_unexpected_bracket :
    Program.parse "a.ml" "let x = [1; 2);" = .error (.unexpected (.token ")") 1 14) ∧
      ∃ ts s pre rest place, "let x = [1; 2);".toList = pre ++ rest ∧
        IsViable "a.ml" ts ∧ 1 = place.line ∧ 14 = place.column ∧
        (Unexpected.token ")").Blames "a.ml" ts s
          (positionAt "let x = [1; 2);".toList pre.length) rest place := by
  have hcheck : (match Program.parse "a.ml" "let x = [1; 2);" with
      | .error (.unexpected what line column) =>
        what == .token ")" && line == 1 && column == 14
      | _ => false) = true := by
    decide +kernel
  split at hcheck
  · rename_i what line column heq
    simp only [Bool.and_eq_true, beq_iff_eq] at hcheck
    obtain ⟨⟨rfl, rfl⟩, rfl⟩ := hcheck
    obtain ⟨ts, s, pre, rest, place, htext, -, -, hviable, hline, hcolumn, hblames⟩ :=
      parse_unexpected heq
    exact ⟨heq, ts, s, pre, rest, place, htext, hviable, hline, hcolumn, hblames⟩
  · cases hcheck

end MessageLang
