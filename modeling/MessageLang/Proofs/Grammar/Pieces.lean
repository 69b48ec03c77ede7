import MessageLang.Proofs.Grammar.Errors
import MessageLang.Proofs.Grammar.Exactness
import MessageLang.Proofs.Grammar.Longest
import MessageLang.Proofs.Source.Shifts
/-!
# Texts in pieces

A text that is read as a program is lexemes and layout, one behind the other. Which pieces these are
does not hang on the state that reads them: each lexeme stands in front of what follows it. So a
text is read as a program exactly if it can be cut into such pieces and their tokens derive it, and
what follows some pieces may be exchanged for any text that starts with a break.

* `textOf`, `tokensAt`: the text of some pieces, and their tokens from a place on.
* `Cuts`: pieces that a text starts with, in front of the rest of it.
* `Cuts.congr`: pieces stay so in front of any text that starts with a break.
* `readFrom_cuts`: reading goes over pieces by their tokens.
* `Lexes.exists_cuts`, `exists_cuts_of_readFrom`: what is read is cut into pieces.
* `Program.exists_cuts_of_parse`, `Program.parse_of_cuts`: programs, both ways.
-/
namespace MessageLang

/-- A lexeme or layout, with its class. -/
abbrev Piece : Type := Terminal × List Char

/-- The text of some pieces. -/
def textOf (ps : List Piece) : List Char := ps.flatMap Prod.snd

@[simp] theorem textOf_nil : textOf [] = [] := rfl

@[simp] theorem textOf_cons (x : Piece) (ps : List Piece) :
    textOf (x :: ps) = x.2 ++ textOf ps := rfl

@[simp] theorem textOf_append (ps qs : List Piece) : textOf (ps ++ qs) = textOf ps ++ textOf qs :=
  List.flatMap_append

/-- The tokens of some pieces, from a place on. -/
def tokensAt : Position → List Piece → List Token
  | _, [] => []
  | p, (k, w) :: ps =>
    if k.isLayout then tokensAt (p.advance w) ps
    else ⟨k, w, p, p.advance w⟩ :: tokensAt (p.advance w) ps

theorem tokensAt_append (p : Position) (ps qs : List Piece) :
    tokensAt p (ps ++ qs) = tokensAt p ps ++ tokensAt (p.advance (textOf ps)) qs := by
  induction ps generalizing p with
  | nil => rfl
  | cons x ps ih =>
    obtain ⟨k, w⟩ := x
    simp only [List.cons_append, tokensAt, ih, textOf_cons, Position.advance_append]
    split <;> rfl

/-- A piece stands in front of a text. -/
def Piece.Fits (x : Piece) (rest : List Char) : Prop :=
  (x.1.isLayout = true ∧ Terminal.IsLayout x.2) ∨ x.1.Stands x.2 rest

/-- Each of the pieces stands in front of those behind it and the rest of the text. -/
def Cuts : List Piece → List Char → Prop
  | [], _ => True
  | x :: ps, rest => x.Fits (textOf ps ++ rest) ∧ Cuts ps rest

section

variable {ps qs : List Piece} {rest rest' : List Char} {k : Terminal} {w : List Char}

theorem cuts_append : Cuts (ps ++ qs) rest ↔ Cuts ps (textOf qs ++ rest) ∧ Cuts qs rest := by
  induction ps with
  | nil => simp only [List.nil_append, Cuts, true_and]
  | cons x ps ih =>
    simp only [List.cons_append, Cuts, ih, textOf_append, List.append_assoc, and_assoc]

/-- Pieces stay so in front of any text that starts with a break. -/
theorem Cuts.congr (h : Cuts ps rest) (hr : Terminal.Breaks rest') : Cuts ps rest' := by
  induction ps with
  | nil => trivial
  | cons x ps ih =>
    obtain ⟨hx | hx, hps⟩ := h
    · exact ⟨.inl hx, ih hps⟩
    · exact ⟨.inr (hx.congr hr), ih hps⟩

/-! ## Layout -/

theorem Terminal.IsLayout.ne_nil (h : Terminal.IsLayout w) : w ≠ [] := by
  rcases h with ⟨hne, -⟩ | ⟨r, rfl, -⟩
  · exact hne
  · exact List.cons_ne_nil _ _

/-- Layout is a break. -/
theorem Terminal.IsLayout.breaks (h : Terminal.IsLayout w) (rest : List Char) :
    Terminal.Breaks (w ++ rest) := by
  rcases h with ⟨hne, hw⟩ | ⟨r, rfl, -⟩
  · obtain ⟨c, v, rfl⟩ := List.exists_cons_of_ne_nil hne
    refine Terminal.breaks_cons ?_
    simp only [Terminal.isBreak, hw c List.mem_cons_self, Bool.true_or]
  · exact Terminal.breaks_cons rfl

/-- A comment ends where it does, whatever follows it. -/
theorem Terminal.IsCommentRest.commentRest_append (h : Terminal.IsCommentRest w)
    (rest : List Char) : Terminal.commentRest (w ++ rest) = w.length := by
  induction h with
  | close => rfl
  | @char c w hc hw ih =>
    rw [List.cons_append]
    unfold Terminal.commentRest
    split
    · rename_i heq
      -- the comment does not end in front of its last two characters
      cases w with
      | nil => cases hw
      | cons d w =>
        simp only [List.cons_append, List.cons.injEq] at heq
        exact absurd ⟨heq.1, by rw [heq.2.1]; rfl⟩ hc
    · rename_i heq
      cases heq
      have hne : w.length ≠ 0 := by cases hw <;> simp
      rw [ih, Terminal.behind_of_ne_zero hne, List.length_cons]
      omega
    · rename_i heq
      cases heq

theorem Terminal.first?_of_no_rivals {allowed : Terminal → Bool} {c : Char} {cs : List Char}
    (ha : allowed k = true) (hw : k.width (c :: cs) ≠ 0) (hr : Terminal.rivals k c = []) :
    Terminal.first? allowed (c :: cs) = some k :=
  Terminal.first?_eq_some ha hw fun s hs _ => by rw [hr] at hs; cases hs

variable {file : String} {s s' : State} {last p p' : Position}

/-- Reading over layout that is cut off. -/
theorem readFrom_layout_of_width (hw : w ≠ [])
    (hf : Terminal.first? s.accepts (w ++ rest) = some k)
    (hn : k.width (w ++ rest) = w.length) (hl : k.isLayout = true) :
    readFrom file s last p (w ++ rest) = readFrom file s last (p.advance w) rest := by
  obtain ⟨c, v, rfl⟩ := List.exists_cons_of_ne_nil hw
  simp only [List.cons_append] at hf hn ⊢
  rw [readFrom]
  split
  · rename_i t hf'
    rw [hf] at hf'
    cases hf'
    have htake : (c :: (v ++ rest)).take (c :: v).length = c :: v := List.take_left
    have hdrop : (c :: (v ++ rest)).drop (c :: v).length = rest := List.drop_left
    simp only [hl, if_true, hn, htake, hdrop]
  · rename_i hf'
    rw [hf] at hf'
    cases hf'

/-- Reading over all the blanks of a text. -/
theorem readFrom_all_blanks (hw : ∀ c ∈ w, Terminal.isBlank c = true)
    (hr : ∀ c, rest.head? = some c → Terminal.isBlank c = false) :
    readFrom file s last p (w ++ rest) = readFrom file s last (p.advance w) rest := by
  cases w with
  | nil => rfl
  | cons c v =>
    have hwidth : Terminal.blank.width (c :: v ++ rest) = (c :: v).length := by
      rw [Terminal.width, List.takeWhile_append_of_pos hw]
      cases rest with
      | nil => simp
      | cons d rest => simp [hr d rfl]
    have hrivals : Terminal.rivals .blank c = [] := by
      have hc := hw c List.mem_cons_self
      simp only [Terminal.isBlank, Bool.or_eq_true, beq_iff_eq] at hc
      rcases hc with (((rfl | rfl) | rfl) | rfl) | rfl <;> rfl
    have hf : Terminal.first? s.accepts (c :: (v ++ rest)) = some .blank := by
      refine Terminal.first?_of_no_rivals rfl ?_ hrivals
      rw [← List.cons_append, hwidth]
      exact Nat.succ_ne_zero _
    exact readFrom_layout_of_width (List.cons_ne_nil _ _) hf hwidth rfl

/-- Reading over layout. -/
theorem readFrom_layout (h : Terminal.IsLayout w) :
    readFrom file s last p (w ++ rest) = readFrom file s last (p.advance w) rest := by
  rcases h with ⟨-, hw⟩ | ⟨r, rfl, hr⟩
  · -- more blanks may follow, and all of them are cut off at once
    obtain ⟨b, tail, rfl, -, hb, htail⟩ := Terminal.exists_takeWhile Terminal.isBlank rest
    rw [← List.append_assoc, readFrom_all_blanks (List.forall_mem_append.mpr ⟨hw, hb⟩) htail,
      readFrom_all_blanks hb htail, Position.advance_append]
  · have hne : r.length ≠ 0 := by cases hr <;> simp
    have hwidth : Terminal.comment.width ('(' :: '*' :: r ++ rest) = ('(' :: '*' :: r).length := by
      simp only [List.cons_append, Terminal.width, Terminal.commentWidth, hr.commentRest_append,
        Terminal.behind_of_ne_zero hne, List.length_cons]
      omega
    have hf : Terminal.first? s.accepts ('(' :: '*' :: (r ++ rest)) = some .comment := by
      refine Terminal.first?_of_no_rivals rfl ?_ rfl
      rw [← List.cons_append, ← List.cons_append, hwidth]
      exact Nat.succ_ne_zero _
    exact readFrom_layout_of_width (List.cons_ne_nil _ _) hf hwidth rfl

/-! ## Reading over pieces -/

/-- Reading goes over pieces by their tokens. -/
theorem readFrom_cuts (h : Cuts ps rest) (hs : s.shiftAll file (tokensAt p ps) = some s') :
    ∃ last', readFrom file s last p (textOf ps ++ rest) =
      readFrom file s' last' (p.advance (textOf ps)) rest := by
  induction ps generalizing s last p with
  | nil =>
    cases hs
    exact ⟨last, rfl⟩
  | cons x ps ih =>
    obtain ⟨k, w⟩ := x
    obtain ⟨⟨hk, hw⟩ | hx, hps⟩ := h
    · dsimp only at hk hw
      simp only [tokensAt, hk, if_true] at hs
      obtain ⟨last', e⟩ : ∃ last', readFrom file s last (p.advance w) (textOf ps ++ rest) =
          readFrom file s' last' _ rest := ih hps hs
      refine ⟨last', ?_⟩
      rw [textOf_cons, List.append_assoc, readFrom_layout hw, Position.advance_append]
      exact e
    · dsimp only at hx
      have hl := hx.isLexeme.isLayout_eq_false
      simp only [tokensAt, hl, Bool.false_eq_true, if_false, State.shiftAll_cons] at hs
      obtain ⟨s₁, h₁, h₂⟩ := Option.bind_eq_some_iff.mp hs
      obtain ⟨last', e⟩ : ∃ last', readFrom file s₁ p (p.advance w) (textOf ps ++ rest) =
          readFrom file s' last' _ rest := ih hps h₂
      refine ⟨last', ?_⟩
      have hf := hx.first?_append (State.isSought_of_expects (State.expects_of_shift h₁))
      rw [textOf_cons, List.append_assoc, readFrom_token hx.isLexeme.ne_nil hf hx.width_eq hl h₁,
        Position.advance_append]
      exact e

/-- Pieces whose tokens end where a program may end are read as these tokens. -/
theorem readFrom_cuts_nil (h : Cuts ps []) (hs : s.shiftAll file (tokensAt p ps) = some s')
    (hm : s'.mode = .statement) : readFrom file s last p (textOf ps) = .ok s' := by
  obtain ⟨last', e⟩ : ∃ last', readFrom file s last p (textOf ps ++ []) =
      readFrom file s' last' _ [] := readFrom_cuts h hs
  rw [List.append_nil] at e
  rw [e, readFrom, hm]

/-! ## Cutting what is read -/

/-- Where a class is looked for, so is its rival. -/
theorem State.expects_rival {t : Terminal} (h : s.expects k = true) (ht : k.rival? = some t) :
    s.expects t = true := by
  cases k <;> simp only [Terminal.rival?, reduceCtorEq, Option.some.injEq] at ht <;> subst ht
  all_goals
    revert h
    unfold State.expects State.mayClose
    cases s.mode <;> simp [State.startsSimple, State.startsArgument, State.endsOperand]

theorem Terminal.mem_takeWhile_of_rival {t : Terminal} (h : k.rival? = some t) :
    t ∈ Terminal.all.takeWhile (· != k) := by
  cases k <;> simp only [Terminal.rival?, reduceCtorEq, Option.some.injEq] at h <;> subst h <;>
    decide

/-- A class that is tried before the one that is found has no lexeme. -/
theorem Terminal.width_eq_zero_of_earlier {allowed : Terminal → Bool} {cs : List Char}
    {t : Terminal} (hf : Terminal.first? allowed cs = some k)
    (ht : t ∈ Terminal.all.takeWhile (· != k)) (ha : allowed t = true) : t.width cs = 0 := by
  obtain ⟨-, before, after, hall, hbefore⟩ := List.find?_eq_some_iff_append.mp hf
  have hmem : t ∈ before := by
    have hk : k ∉ before := fun hk => by
      have hn : Terminal.all.Nodup := by decide
      rw [hall] at hn
      exact (List.nodup_append.mp hn).2.2 k hk k List.mem_cons_self rfl
    rw [hall, List.takeWhile_append_of_pos] at ht
    · simpa [List.takeWhile_cons] using ht
    · exact fun a h => bne_iff_ne.mpr fun heq => hk (heq ▸ h)
  simpa [ha] using hbefore t hmem

/-- Behind an opening bracket stands an expression or a type. -/
theorem State.mode_of_shift_openParen {t : Token} {s₁ : State} (hs : s.shift file t = some s₁)
    (ht : t.terminal = .openParen) : s₁.mode = .expression ∨ s₁.mode = .type := by
  have simple (fs : List Frame) : s.startSimple file t fs =
      some { s with frames := .paren t.first :: fs, mode := .expression } := by
    rw [State.startSimple, ht]
  have expression (fs : List Frame) : s.startExpression file t fs = s.startSimple file t fs := by
    rw [State.startExpression, ht]
  unfold State.shift at hs
  cases hm : s.mode <;> simp only [hm, ht, expression, simple, reduceCtorEq, Option.some.injEq,
    beq_eq_false_iff_ne.mpr, ne_eq, not_false_eq_true, Bool.false_and, Bool.false_eq_true,
    if_false] at hs
  case statement | expression | simple =>
    subst hs
    exact .inl rfl
  case signed =>
    rw [State.signedNumber, ht] at hs
    cases hs
  case applied =>
    simp only [State.continueApplication, ht, simple, Option.some.injEq] at hs
    subst hs
    exact .inl rfl
  case number =>
    have hends := State.endsOperand_of_endExpression hs
    rw [ht] at hends
    cases hends
  case type =>
    subst hs
    exact .inr rfl
  case typed =>
    rw [State.continueType, ht] at hs
    cases hs

/-- Behind an opening bracket no star is read. -/
theorem head?_ne_star {t : Token} {s₁ : State} (hs : s.shift file t = some s₁)
    (ht : t.terminal = .openParen) (hr : readFrom file s₁ last p rest = .ok s') :
    rest.head? ≠ some '*' := by
  have hrefuses : s₁.accepts .star = false := by
    unfold State.accepts State.expects
    rcases State.mode_of_shift_openParen hs ht with hm | hm
    · rw [hm]
      rfl
    · rw [hm]
      rfl
  intro hstar
  obtain ⟨tail, rfl⟩ := List.head?_eq_some_iff.mp hstar
  have hnone : Terminal.first? s₁.accepts ('*' :: tail) = none := by
    refine List.find?_eq_none.mpr fun k _ hk => ?_
    rw [Bool.and_eq_true, bne_iff_ne] at hk
    have hstarts : k.starts '*' = true := by
      rw [← Bool.not_eq_false]
      exact fun h => hk.2 (Terminal.width_eq_zero h)
    have hstar : k = .star := by cases k <;> first | rfl | cases hstarts
    rw [hstar, hrefuses] at hk
    cases hk.1
  rw [readFrom] at hr
  split at hr
  · rename_i hf
    rw [hnone] at hf
    cases hf
  · split at hr <;> cases hr

/-- Reading goes over the tokens that are cut off. -/
theorem Lexes.readFrom_eq {cs : List Char} {ts : List Token}
    (h : Lexes file s p cs ts s' p' rest) :
    ∃ last', readFrom file s last p cs = readFrom file s' last' p' rest := by
  induction h generalizing last with
  | nil => exact ⟨last, rfl⟩
  | layout hf hw hl _ ih =>
    have hpos := Terminal.width_pos_of_first? hf
    rw [hw] at hpos
    rw [readFrom_layout_of_width (List.length_pos_iff.mp hpos) hf hw hl]
    exact ih
  | token hf hw hl hs _ ih =>
    have hpos := Terminal.width_pos_of_first? hf
    rw [hw] at hpos
    rw [readFrom_token (List.length_pos_iff.mp hpos) hf hw hl hs]
    exact ih

/-- A text that is read is cut off whole. -/
theorem exists_lexes_of_readFrom {cs : List Char} (hr : readFrom file s last p cs = .ok s') :
    ∃ ts p', Lexes file s p cs ts s' p' [] ∧ s'.mode = .statement := by
  -- a token drops a lexeme of any width, so the induction is on the length of the text
  generalize hn : cs.length = n
  induction n using Nat.strongRecOn generalizing s last p cs with
  | _ n ih =>
    cases cs with
    | nil =>
      rw [readFrom] at hr
      split at hr
      · rename_i hm
        cases hr
        exact ⟨[], p, .nil, hm⟩
      · cases hr
    | cons c cs =>
      rw [readFrom] at hr
      split at hr
      · rename_i k hf
        have hpos := Terminal.width_pos_of_first? hf
        have hlt : ((c :: cs).drop (k.width (c :: cs))).length < n := by
          rw [← hn, List.length_drop, List.length_cons]
          omega
        cases hl : k.isLayout with
        | true =>
          simp only [hl, if_true] at hr
          obtain ⟨w, rest, he, -, hlen⟩ :=
            Terminal.exists_isLayout hl (Nat.pos_iff_ne_zero.mp hpos)
          obtain ⟨ts, p', hts, hm⟩ := ih _ hlt hr rfl
          rw [hlen, he, List.take_left, List.drop_left] at hts
          rw [he] at hf hlen ⊢
          exact ⟨ts, p', .layout hf hlen hl hts, hm⟩
        | false =>
          simp only [hl, Bool.false_eq_true, if_false] at hr
          obtain ⟨w, rest, he, -, hlen⟩ :=
            Terminal.exists_isLexeme hl (Nat.pos_iff_ne_zero.mp hpos)
          split at hr
          · rename_i s₁ hs
            obtain ⟨ts, p', hts, hm⟩ := ih _ hlt hr rfl
            rw [hlen, he, List.take_left] at hs
            rw [hlen, he, List.take_left, List.drop_left] at hts
            rw [he] at hf hlen ⊢
            exact ⟨_, p', .token hf hlen hl hs hts, hm⟩
          · cases hr
      · split at hr <;> cases hr

/-- What is cut off a text that is read is pieces of it. -/
theorem Lexes.exists_cuts {cs : List Char} {ts : List Token} {s₁ : State}
    (h : Lexes file s p cs ts s₁ p' rest) (hr : readFrom file s last p cs = .ok s') :
    ∃ ps, cs = textOf ps ++ rest ∧ Cuts ps rest ∧ ts = tokensAt p ps ∧
      p' = p.advance (textOf ps) := by
  induction h generalizing last with
  | nil => exact ⟨[], rfl, trivial, rfl, rfl⟩
  | @layout s p w rest ts s₁ p' rest' k hf hw hl _ ih =>
    have hpos := Nat.pos_iff_ne_zero.mp (Terminal.width_pos_of_first? hf)
    obtain ⟨v, rest'', he, hv, hlen⟩ := Terminal.exists_isLayout hl hpos
    obtain ⟨rfl, rfl⟩ := List.append_inj he (hw.symm.trans hlen)
    rw [readFrom_layout hv] at hr
    obtain ⟨ps, rfl, hps, rfl, rfl⟩ := ih hr
    refine ⟨(k, w) :: ps, ?_, ⟨.inl ⟨hl, hv⟩, hps⟩, ?_, ?_⟩
    · rw [textOf_cons, List.append_assoc]
    · simp only [tokensAt, hl, if_true]
    · rw [textOf_cons, Position.advance_append]
  | @token s s₂ p w rest ts s₁ p' rest' k hf hw hl hs _ ih =>
    have hpos := Nat.pos_iff_ne_zero.mp (Terminal.width_pos_of_first? hf)
    obtain ⟨v, rest'', he, hv, hlen⟩ := Terminal.exists_isLexeme hl hpos
    obtain ⟨rfl, rfl⟩ := List.append_inj he (hw.symm.trans hlen)
    rw [readFrom_token hv.ne_nil hf hw hl hs] at hr
    have hstands : k.Stands w rest := by
      refine ⟨hv, hw, fun t ht => ?_, fun hk => ?_⟩
      · refine Terminal.width_eq_zero_of_earlier hf (Terminal.mem_takeWhile_of_rival ht) ?_
        rw [State.accepts, State.expects_rival (State.expects_of_shift hs) ht, Bool.or_true]
      · exact head?_ne_star hs hk hr
    obtain ⟨ps, rfl, hps, rfl, rfl⟩ := ih hr
    refine ⟨(k, w) :: ps, ?_, ⟨.inr hstands, hps⟩, ?_, ?_⟩
    · rw [textOf_cons, List.append_assoc]
    · simp only [tokensAt, hl, Bool.false_eq_true, if_false]
    · rw [textOf_cons, Position.advance_append]

/-- A text that is read is cut into pieces whose tokens leave the state that is reached. -/
theorem exists_cuts_of_readFrom {cs : List Char} (hr : readFrom file s last p cs = .ok s') :
    ∃ ps, cs = textOf ps ∧ Cuts ps [] ∧ s.shiftAll file (tokensAt p ps) = some s' ∧
      s'.mode = .statement := by
  obtain ⟨ts, p', hts, hm⟩ := exists_lexes_of_readFrom hr
  obtain ⟨ps, he, hps, rfl, -⟩ := hts.exists_cuts hr
  rw [List.append_nil] at he
  exact ⟨ps, he, hps, hts.shiftAll, hm⟩

end

/-! ## Programs -/

variable {file source : String} {p : Program} {ps : List Piece}

/-- What reading has left where a program has been read. -/
theorem Program.readFrom_of_parse (h : Program.parse file source = .ok p) :
    file.isEmpty = false ∧ p.location = some (Program.region file p.statements) ∧
      ∃ s, readFrom file .initial .start .start source.toList = .ok s ∧
        s.statements.reverse = p.statements ∧ s.fault = none := by
  unfold Program.parse at h
  cases hr : readFrom file .initial .start .start source.toList with
  | error e =>
    rw [hr] at h
    cases h
  | ok s =>
    rw [hr] at h
    simp only [bind, Except.bind] at h
    split at h
    · cases h
    · rename_i hfile
      split at h
      · cases h
      · rename_i hfault
        cases h
        exact ⟨by simpa using hfile, rfl, s, rfl, rfl, hfault⟩

/-- A program that is read derives from tokens that leave the state that is reached. -/
theorem Program.derives_of_readFrom {s : State} {ts : List Token}
    (h : Program.parse file source = .ok p)
    (hr : readFrom file .initial .start .start source.toList = .ok s)
    (hs : State.initial.shiftAll file ts = some s) : Derives file (.program p) ts [] := by
  obtain ⟨-, hregion, s', hr', hstatements, hfault⟩ := Program.readFrom_of_parse h
  cases hr.symm.trans hr'
  obtain ⟨_, _, -, hm⟩ := exists_lexes_of_readFrom hr
  obtain ⟨bad, hd, hbad⟩ := derives_of_shiftAll hs hm
  rw [hfault] at hbad
  obtain rfl := List.head?_eq_none_iff.mp hbad.symm
  obtain ⟨statements, location⟩ := p
  dsimp only at hregion hstatements
  subst hstatements hregion
  exact .program hd

/-- A program that is read derives from the tokens of the pieces of its text. -/
theorem Program.exists_cuts_of_parse (h : Program.parse file source = .ok p) :
    file.isEmpty = false ∧ ∃ ps, source.toList = textOf ps ∧ Cuts ps [] ∧
      Derives file (.program p) (tokensAt .start ps) [] := by
  obtain ⟨hfile, -, s, hr, -⟩ := Program.readFrom_of_parse h
  obtain ⟨ps, he, hps, hrun, -⟩ := exists_cuts_of_readFrom hr
  exact ⟨hfile, ps, he, hps, Program.derives_of_readFrom h hr hrun⟩

/-- A program that derives from the tokens of pieces is read from their text. -/
theorem Program.parse_of_cuts (hfile : file.isEmpty = false) (hc : Cuts ps [])
    (h : Derives file (.program p) (tokensAt .start ps) []) :
    Program.parse file (String.ofList (textOf ps)) = .ok p := by
  have hread : readFrom file .initial .start .start (textOf ps) =
      .ok ⟨p.statements.reverse, [], .statement, none⟩ := readFrom_cuts_nil hc h.shiftAll rfl
  cases h with
  | program =>
    simp only [Program.parse, String.toList_ofList, hread, bind, Except.bind, hfile,
      Bool.false_eq_true, if_false, List.reverse_reverse]
    rfl

end MessageLang
