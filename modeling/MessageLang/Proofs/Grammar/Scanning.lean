import MessageLang.Proofs.Grammar.Reading
import MessageLang.Proofs.Grammar.Shifting
/-!
# Texts and their tokens

A text that is read is layout and lexemes, and what is read is what the tokens leave. The other way
round, lexemes with a space between each two are read as these tokens: every state looks for the
classes of the tokens it can shift.

* `Scans`: a text is layout and tokens, from a place on.
* `scans_of_readFrom`: what is read is so.
* `State.expects_of_shift`: a token that is shifted is looked for.
* `readFrom_spaced`: spaced lexemes are read as their tokens.
-/
namespace MessageLang

namespace Terminal

/-! ## Layout -/

/-- A comment behind its opening: it ends with the first `*)`. -/
inductive IsCommentRest : List Char → Prop where
  | close : IsCommentRest ['*', ')']
  | char {c : Char} {w : List Char} :
    ¬ (c = '*' ∧ w.head? = some ')') → IsCommentRest w → IsCommentRest (c :: w)

/-- Blanks, or a comment. -/
def IsLayout (w : List Char) : Prop :=
  (w ≠ [] ∧ ∀ c ∈ w, isBlank c = true) ∨ ∃ r, w = '(' :: '*' :: r ∧ IsCommentRest r

theorem exists_of_commentRest_ne_zero {cs : List Char} (h : commentRest cs ≠ 0) :
    ∃ w rest, cs = w ++ rest ∧ IsCommentRest w ∧ commentRest cs = w.length := by
  fun_induction commentRest cs with
  | case1 rest => exact ⟨['*', ')'], rest, rfl, .close, rfl⟩
  | case2 c cs hne ih =>
    have hrest := behind_ne_zero h
    obtain ⟨w, rest, rfl, hw, hlen⟩ := ih hrest
    refine ⟨c :: w, rest, rfl, .char ?_ hw, ?_⟩
    · intro hend
      obtain ⟨hc, hhead⟩ := hend
      obtain ⟨v, rfl⟩ := List.head?_eq_some_iff.mp hhead
      exact hne _ hc rfl
    · rw [behind_of_ne_zero hrest, hlen, List.length_cons, Nat.add_comm]
  | case3 => exact absurd rfl h

/-- What is cut off as layout is layout. -/
theorem exists_isLayout {t : Terminal} {cs : List Char} (hl : t.isLayout = true)
    (h : t.width cs ≠ 0) :
    ∃ w rest, cs = w ++ rest ∧ IsLayout w ∧ t.width cs = w.length := by
  cases t <;> cases hl
  case comment =>
    simp only [width] at h ⊢
    unfold commentWidth at h ⊢
    split at h
    · rename_i rest
      have hrest := behind_ne_zero h
      obtain ⟨w, rest', he, hw, hlen⟩ := exists_of_commentRest_ne_zero hrest
      refine ⟨'(' :: '*' :: w, rest', by rw [he]; rfl, .inr ⟨w, rfl, hw⟩, ?_⟩
      rw [behind_of_ne_zero hrest, hlen, List.length_cons, List.length_cons, Nat.add_comm]
    · exact absurd rfl h
  case blank =>
    obtain ⟨w, rest, rfl, he, hw, -⟩ := exists_takeWhile isBlank cs
    simp only [width, he] at h ⊢
    exact ⟨w, rest, rfl, .inl ⟨fun hnil => h (by rw [hnil]; rfl), hw⟩, rfl⟩

/-- A lexeme is cut off whole at the end of a text. -/
theorem IsLexeme.width_eq {t : Terminal} {w : List Char} (h : t.IsLexeme w) :
    t.width w = w.length := by
  have hfollows : t.Follows [] := Ends.follows (fun _ h => by cases h) t
  simpa only [List.append_nil] using h.width_append_of_follows hfollows

/-- The lexemes of a class are the texts that are cut off whole. -/
theorem isLexeme_iff {t : Terminal} {w : List Char} :
    t.IsLexeme w ↔ t.isLayout = false ∧ w ≠ [] ∧ t.width w = w.length := by
  constructor
  · intro h
    exact ⟨h.isLayout_eq_false, h.ne_nil, h.width_eq⟩
  · intro h
    obtain ⟨hl, hne, hwidth⟩ := h
    have hpos : t.width w ≠ 0 := by
      rw [hwidth]
      exact fun h => hne (List.length_eq_zero_iff.mp h)
    obtain ⟨v, rest, he, hv, hlen⟩ := exists_isLexeme hl hpos
    have hrest : rest = [] := by
      have hlength := congrArg List.length he
      rw [List.length_append, ← hwidth, hlen] at hlength
      exact List.length_eq_zero_iff.mp (by omega)
    rw [he, hrest, List.append_nil]
    exact hv

instance (t : Terminal) (w : List Char) : Decidable (t.IsLexeme w) :=
  decidable_of_iff _ isLexeme_iff.symm

/-- No lexeme starts with a blank. -/
theorem IsLexeme.isBlank_head {t : Terminal} {c : Char} {w : List Char} (h : t.IsLexeme (c :: w)) :
    isBlank c = false := by
  have hwidth := h.width_eq
  cases hc : isBlank c with
  | false => rfl
  | true =>
    have hstarts : t.starts c = false := by
      simp only [isBlank, Bool.or_eq_true, beq_iff_eq] at hc
      cases t
      case comment | blank => exact h.elim
      all_goals
        rcases hc with (((rfl | rfl) | rfl) | rfl) | rfl
        all_goals rfl
    rw [width_eq_zero hstarts] at hwidth
    cases hwidth

end Terminal

/-! ## Tokens of a text -/

/-- From a place on, the text is layout and the tokens. -/
inductive Scans : Position → List Char → List Token → Prop where
  | nil {p} : Scans p [] []
  | layout {p w rest ts} :
    Terminal.IsLayout w → Scans (p.advance w) rest ts → Scans p (w ++ rest) ts
  | token {p w rest ts} {t : Terminal} :
    t.IsLexeme w → Scans (p.advance w) rest ts →
    Scans p (w ++ rest) (⟨t, w, p, p.advance w⟩ :: ts)

variable {file : String} {s s' : State} {fs : List Frame} {t : Token}

/-- A text that is read is layout and tokens, and these leave what is read. -/
theorem scans_of_readFrom {last p : Position} {cs : List Char}
    (hr : readFrom file s last p cs = .ok s') :
    ∃ ts, Scans p cs ts ∧ s.shiftAll file ts = some s' ∧ s'.mode = .statement := by
  -- a token drops a lexeme of any width, so the induction is on the length of the text
  generalize hn : cs.length = n
  induction n using Nat.strongRecOn generalizing s last p cs with
  | _ n ih =>
    cases cs with
    | nil =>
      rw [readFrom] at hr
      split at hr
      · rename_i hm
        cases hr
        exact ⟨[], .nil, rfl, hm⟩
      · cases hr
    | cons c cs =>
      rw [readFrom] at hr
      split at hr
      · rename_i t hf
        have hpos := Terminal.width_pos_of_first? hf
        have hlt : ((c :: cs).drop (t.width (c :: cs))).length < n := by
          rw [← hn, List.length_drop, List.length_cons]
          omega
        cases hl : t.isLayout with
        | true =>
          simp only [hl, if_true] at hr
          obtain ⟨ts, hts, hrun⟩ := ih _ hlt hr rfl
          obtain ⟨w, rest, he, hw, hlen⟩ :=
            Terminal.exists_isLayout hl (Nat.pos_iff_ne_zero.mp hpos)
          rw [hlen, he, List.take_left, List.drop_left] at hts
          rw [he]
          exact ⟨ts, .layout hw hts, hrun⟩
        | false =>
          simp only [hl, Bool.false_eq_true, if_false] at hr
          obtain ⟨w, rest, he, hw, hlen⟩ :=
            Terminal.exists_isLexeme hl (Nat.pos_iff_ne_zero.mp hpos)
          split at hr
          · rename_i s₁ hs
            obtain ⟨ts, hts, hrun, hm⟩ := ih _ hlt hr rfl
            rw [hlen, he, List.take_left] at hs
            rw [hlen, he, List.take_left, List.drop_left] at hts
            rw [he]
            exact ⟨_, .token hw hts, by rw [State.shiftAll_cons_of hs, hrun], hm⟩
          · cases hr
      · split at hr <;> cases hr

/-! ## What is looked for -/

namespace State

theorem startsSimple_of_startSimple (h : s.startSimple file t fs = some s') :
    startsSimple t.terminal = true := by
  unfold startSimple at h
  split at h
  all_goals first
    | (rename_i hk; rw [hk]; rfl)
    | cases h

theorem starts_of_startExpression (h : s.startExpression file t fs = some s') :
    (t.terminal == .sign || startsSimple t.terminal) = true := by
  unfold startExpression at h
  split at h
  · rename_i hk
    rw [hk]
    rfl
  · rw [startsSimple_of_startSimple h, Bool.or_true]

theorem endsOperand_of_endExpression {e : Spanned Expr}
    (h : s.endExpression file t e = some s') : endsOperand t.terminal = true := by
  unfold endExpression at h
  split at h
  · rename_i hop
    exact endsOperand_of_operator? hop
  · dsimp only at h
    split at h
    case h_11 => cases h
    all_goals
      rename_i hk _
      rw [hk]
      rfl

theorem mayClose_of_closeEmpty (h : s.closeEmpty file t = some s') :
    mayClose s.frames t.terminal = true := by
  unfold closeEmpty at h
  split at h
  case h_4 => cases h
  all_goals
    rename_i hk hframes
    rw [hk, hframes]
    rfl

theorem startsArgument_or_of_continueApplication {f : Spanned Expr} {args : List Argument}
    {last : Position} (h : s.continueApplication file t f args last = some s') :
    (startsArgument t.terminal || endsOperand t.terminal) = true := by
  unfold continueApplication at h
  dsimp only at h
  split at h
  · rename_i hk
    rw [hk]
    rfl
  · rename_i hk
    rw [hk]
    rfl
  · rename_i hk
    rw [hk]
    rfl
  · rename_i hk
    rw [hk]
    rfl
  · split at h
    · rename_i hs
      rw [startsArgument_of_startsSimple (startsSimple_of_startSimple hs), Bool.true_or]
    · rw [endsOperand_of_endExpression h, Bool.or_true]

/-- A token that is shifted is looked for. -/
theorem expects_of_shift (h : s.shift file t = some s') : s.expects t.terminal = true := by
  unfold shift at h
  unfold expects
  split at h
  · split at h
    · rename_i hlet
      rw [Bool.and_eq_true, beq_iff_eq] at hlet
      rw [hlet.1]
      rfl
    · exact starts_of_startExpression h
  · split at h
    · rename_i hk
      rw [hk]
      rfl
    · cases h
  · split at h
    · rename_i hk
      rw [hk]
      rfl
    · cases h
  · split at h
    · rename_i hs
      rw [starts_of_startExpression hs, Bool.true_or]
    · rw [mayClose_of_closeEmpty h, Bool.or_true]
  · exact startsSimple_of_startSimple h
  · unfold signedNumber at h
    dsimp only at h
    split at h <;> rename_i hk
    · rw [hk]
      rfl
    · rw [hk]
      rfl
    · cases h
  · exact startsArgument_or_of_continueApplication h
  · exact endsOperand_of_endExpression h
  · split at h
    · rename_i hk
      rw [hk]
      rfl
    · cases h
  · split at h
    all_goals first
      | (rename_i hk; rw [hk]; rfl)
      | cases h
  · unfold continueType at h
    split at h
    all_goals first
      | (rename_i hk; rw [hk]; rfl)
      | cases h

end State

/-! ## Spaced lexemes -/

/-- Lexemes with a space between each two. -/
def spaced (ls : List (Terminal × List Char)) : List Char := [' '].intercalate (ls.map Prod.snd)

theorem spaced_singleton (x : Terminal × List Char) : spaced [x] = x.2 :=
  List.intercalate_singleton

theorem spaced_cons_cons (x y : Terminal × List Char) (ls : List (Terminal × List Char)) :
    spaced (x :: y :: ls) = x.2 ++ ' ' :: spaced (y :: ls) := by
  simp only [spaced, List.map_cons, List.intercalate_cons_cons, List.append_assoc,
    List.singleton_append]

/-- Spaced lexemes start with no blank. -/
theorem isBlank_head_spaced {ls : List (Terminal × List Char)}
    (hls : ∀ x ∈ ls, x.1.IsLexeme x.2) :
    ∀ c, (spaced ls).head? = some c → Terminal.isBlank c = false := by
  intro c hc
  cases ls with
  | nil => cases hc
  | cons x ls =>
    obtain ⟨t, w⟩ := x
    obtain ⟨hw, -⟩ := List.forall_mem_cons.mp hls
    cases w with
    | nil => exact absurd rfl hw.ne_nil
    | cons d w =>
      have hd : (spaced ((t, d :: w) :: ls)).head? = some d := by
        cases ls with
        | nil => rw [spaced_singleton, List.head?_cons]
        | cons y ls => rw [spaced_cons_cons, List.cons_append, List.head?_cons]
      rw [hd] at hc
      cases hc
      exact hw.isBlank_head

/-- The tokens of spaced lexemes, from a place on. -/
def tokensFrom : Position → List (Terminal × List Char) → List Token
  | _, [] => []
  | p, (t, w) :: ls => ⟨t, w, p, p.advance w⟩ :: tokensFrom ((p.advance w).advance [' ']) ls

/-- Spaced lexemes whose tokens end where a program may end are read as these tokens. -/
theorem readFrom_spaced {ls : List (Terminal × List Char)} {last p : Position}
    (hls : ∀ x ∈ ls, x.1.IsLexeme x.2) (hs : s.shiftAll file (tokensFrom p ls) = some s')
    (hm : s'.mode = .statement) : readFrom file s last p (spaced ls) = .ok s' := by
  induction ls generalizing s last p with
  | nil =>
    cases hs
    rw [spaced, List.map_nil, List.intercalate_nil, readFrom]
    split
    · rfl
    · rename_i hne
      exact absurd hm hne
  | cons x ls ih =>
    obtain ⟨t, w⟩ := x
    obtain ⟨hw, hls⟩ := List.forall_mem_cons.mp hls
    rw [tokensFrom, State.shiftAll_cons] at hs
    obtain ⟨s₁, h₁, h₂⟩ := Option.bind_eq_some_iff.mp hs
    have token {rest : List Char} (hrest : Ends rest) :
        readFrom file s last p (w ++ rest) = readFrom file s₁ p (p.advance w) rest :=
      readFrom_token hw.ne_nil
        (hw.first?_append (hrest.follows t) (State.isSought_of_expects (State.expects_of_shift h₁)))
        (hw.width_append_of_follows (hrest.follows t)) hw.isLayout_eq_false h₁
    cases ls with
    | nil =>
      have hlast : readFrom file s₁ p (p.advance w) (spaced []) = .ok s' := ih hls h₂
      rw [spaced_singleton, ← List.append_nil w, token (fun _ h => by cases h)]
      exact hlast
    | cons y ls =>
      rw [spaced_cons_cons, token (ends_cons (by decide)),
        readFrom_blank rfl (isBlank_head_spaced hls)]
      exact ih hls h₂

end MessageLang
