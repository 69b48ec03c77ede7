import MessageLang.Proofs.Grammar.Moving
import MessageLang.Proofs.Grammar.Trees
/-!
# Programs one behind the other

A program ends with a semicolon, and behind it with layout, so nothing of it hangs on what follows.
A text that is put behind another has its tokens at other places only.

* `Cuts.of_semicolon`: the pieces of a complete program stay so in front of any text.
* `Derives.append`: statements behind other statements.
* `Program.parse_append`: two programs are read as one, the second with its places moved.
-/
namespace MessageLang

variable {file : String} {ts ts' : List Token} {bad bad' : List BadLiteral} {ps qs : List Piece}

/-! ## Complete programs -/

/-- The last token of statements is a semicolon. -/
theorem Derives.last_semicolon {ss : List Statement} {t : Token}
    (h : Derives file (.statements ss) ts bad) (ht : ts.getLast? = some t) :
    t.terminal = .semicolon := by
  cases h with
  | noStatement => cases ht
  | nextStatement _ hs =>
    cases hs with
    | @binding a n q z e us bad ha hn hq he hz =>
      have heq : ∀ pre : List Token, pre ++ a :: n :: q :: (us ++ [z]) =
          (pre ++ a :: n :: q :: us) ++ [z] := by simp
      rw [heq, List.getLast?_concat] at ht
      cases ht
      exact hz
    | expression _ _ hz =>
      rw [← List.append_assoc, List.getLast?_concat] at ht
      cases ht
      exact hz

/-- The text of a token is in the text of its piece. -/
theorem exists_of_mem_tokensAt {p : Position} {t : Token} (h : t ∈ tokensAt p ps) :
    ∃ x y, textOf ps = x ++ (t.text ++ y) := by
  induction ps generalizing p with
  | nil => cases h
  | cons x ps ih =>
    obtain ⟨k, w⟩ := x
    have later (h : t ∈ tokensAt (p.advance w) ps) :
        ∃ x y, textOf ((k, w) :: ps) = x ++ (t.text ++ y) := by
      obtain ⟨x, y, he⟩ := ih h
      exact ⟨w ++ x, y, by rw [textOf_cons, he, List.append_assoc]⟩
    simp only [tokensAt] at h
    split at h
    · exact later h
    · rcases List.mem_cons.mp h with rfl | h
      · exact ⟨[], textOf ps, rfl⟩
      · exact later h

/-- Tokens of pieces are lexemes. -/
theorem Cuts.isLexeme {rest : List Char} {p : Position} (h : Cuts ps rest) :
    ∀ t ∈ tokensAt p ps, t.terminal.IsLexeme t.text := by
  induction ps generalizing p with
  | nil => exact nofun
  | cons x ps ih =>
    obtain ⟨k, w⟩ := x
    obtain ⟨hx, hps⟩ := h
    simp only [tokensAt]
    split
    · exact ih hps
    · rename_i hl
      refine List.forall_mem_cons.mpr ⟨?_, ih hps⟩
      rcases hx with ⟨hk, -⟩ | hx
      · exact absurd hk hl
      · exact hx.isLexeme

/-- Pieces whose last token is a semicolon stay so in front of any text. -/
theorem Cuts.of_semicolon {rest : List Char} {p : Position} (h : Cuts ps rest)
    (ht : ∀ t, (tokensAt p ps).getLast? = some t → t.terminal = .semicolon) (rest' : List Char) :
    Cuts ps rest' := by
  induction ps generalizing p with
  | nil => trivial
  | cons x ps ih =>
    obtain ⟨k, w⟩ := x
    obtain ⟨⟨hk, hw⟩ | hx, hps⟩ := h
    · dsimp only at hk
      simp only [tokensAt, hk, if_true] at ht
      exact ⟨.inl ⟨hk, hw⟩, ih hps ht⟩
    · dsimp only at hx
      have hl := hx.isLexeme.isLayout_eq_false
      simp only [tokensAt, hl, Bool.false_eq_true, if_false] at ht
      cases hlast : (tokensAt (p.advance w) ps).getLast? with
      | none =>
        -- only layout is left, so the lexeme is the semicolon
        obtain rfl : k = .semicolon := by
          have := ht ⟨k, w, p, p.advance w⟩
          rw [List.getLast?_eq_none_iff.mp hlast] at this
          exact this rfl
        refine ⟨.inr (hx.isLexeme.stands trivial), ih hps (p := p.advance w) fun t h => ?_⟩
        rw [hlast] at h
        cases h
      | some z =>
        -- the semicolon that comes is a break
        have hlater : ∀ t, (tokensAt (p.advance w) ps).getLast? = some t →
            t.terminal = .semicolon := by
          intro t h
          refine ht t ?_
          rw [List.getLast?_cons, h]
          rfl
        have hmem := List.mem_of_getLast? hlast
        have hz := hps.isLexeme z hmem
        rw [hlater z hlast] at hz
        obtain ⟨x, y, he⟩ := exists_of_mem_tokensAt hmem
        have htext (r : List Char) : textOf ps ++ r = x ++ (';' :: (y ++ r)) := by
          rw [he, hz]
          simp
        refine ⟨.inr ?_, ih hps hlater⟩
        rw [htext] at hx ⊢
        exact hx.congr (Terminal.breaks_cons rfl)

/-- Statements behind other statements. -/
theorem Derives.append {ss ss' : List Statement} (h : Derives file (.statements ss) ts bad)
    (h' : Derives file (.statements ss') ts' bad') :
    Derives file (.statements (ss ++ ss')) (ts ++ ts') (bad ++ bad') := by
  generalize hφ : Phrase.statements ss' = φ at h'
  induction h' generalizing ss' with
  | noStatement =>
    cases hφ
    simpa using h
  | nextStatement hss hs ih _ =>
    cases hφ
    have := Derives.nextStatement (ih rfl) hs
    simpa only [List.append_assoc] using this
  | _ => cases hφ

/-! ## Two programs -/

theorem Derives.statements_of_program {p : Program} (h : Derives file (.program p) ts bad) :
    Derives file (.statements p.statements) ts bad := by
  cases h with
  | program h => exact h

/-- Two programs, one behind the other, are read as one: its statements are those of the first and
those of the second, these with their places moved behind the first text. -/
theorem Program.parse_append {source₁ source₂ : String} {p₁ p₂ : Program}
    (h₁ : Program.parse file source₁ = .ok p₁) (h₂ : Program.parse file source₂ = .ok p₂) :
    ∃ p, Program.parse file (source₁ ++ source₂) = .ok p ∧
      p.statements = p₁.statements ++
        p₂.statements.map (Statement.relocate (Location.behind source₁.toList)) ∧
      p.statements.map Statement.bare = (p₁.statements ++ p₂.statements).map Statement.bare := by
  obtain ⟨hfile, ps₁, htext₁, hps₁, hd₁⟩ := exists_cuts_of_parse h₁
  obtain ⟨-, ps₂, htext₂, hps₂, hd₂⟩ := exists_cuts_of_parse h₂
  have hd₁ := hd₁.statements_of_program
  have hcuts : Cuts (ps₁ ++ ps₂) [] := by
    refine cuts_append.mpr ⟨?_, hps₂⟩
    exact hps₁.of_semicolon (p := .start) (fun _ => hd₁.last_semicolon) _
  have htokens : tokensAt .start (ps₁ ++ ps₂) = tokensAt .start ps₁ ++
      (tokensAt .start ps₂).map (Token.move (.behind source₁.toList) (.behind source₁.toList)) := by
    rw [tokensAt_append, ← htext₁]
    congr 1
    refine tokensAt_eq_map_move hps₂.ne_nil (fun u v _ _ => ?_) fun u v _ _ => ?_
    all_goals rw [Position.behind_advance, Position.advance_append]
  have hmoved := hd₂.statements_of_program.move (f := Location.behind source₁.toList)
    (fun p q => Location.behind_between p q source₁.toList)
  have hd := hd₁.append hmoved
  rw [← htokens] at hd
  have hparse := parse_of_cuts hfile hcuts hd.program
  rw [textOf_append, ← htext₁, ← htext₂, String.ofList_append, String.ofList_toList,
    String.ofList_toList] at hparse
  refine ⟨_, hparse, rfl, ?_⟩
  have hbare : Statement.bare ∘ Statement.relocate (Location.behind source₁.toList) =
      Statement.bare := funext fun s => s.bare_relocate _
  rw [List.map_append, List.map_map, hbare, List.map_append]

/-- A text that ends within a line, with a comment behind its last statement, and one that goes on
with two lines: the first of its statements stands on the line that the first text ends in. -/
theorem Program.parse_append_lines : ∃ p₁ p₂ p,
    Program.parse "a.ml" "f ~a;\n\"b\"; (* ; *)" = .ok p₁ ∧
      Program.parse "a.ml" "let x = 1;\n[%here];" = .ok p₂ ∧
      Program.parse "a.ml" ("f ~a;\n\"b\"; (* ; *)" ++ "let x = 1;\n[%here];") = .ok p ∧
      p.statements = p₁.statements ++ p₂.statements.map
        (Statement.relocate (Location.behind "f ~a;\n\"b\"; (* ; *)".toList)) ∧
      p.statements.map Statement.location =
        [some ⟨"a.ml", 1, 1, 0, 5, 1, 6⟩, some ⟨"a.ml", 2, 1, 6, 10, 2, 5⟩,
          some ⟨"a.ml", 2, 13, 18, 28, 2, 23⟩, some ⟨"a.ml", 3, 1, 29, 37, 3, 9⟩] := by
  have h₁ : (Program.parse "a.ml" "f ~a;\n\"b\"; (* ; *)").toOption.any (fun p =>
      p.statements.map Statement.location =
        [some ⟨"a.ml", 1, 1, 0, 5, 1, 6⟩, some ⟨"a.ml", 2, 1, 6, 10, 2, 5⟩]) = true := by
    decide +kernel
  have h₂ : (Program.parse "a.ml" "let x = 1;\n[%here];").toOption.any (fun p =>
      (p.statements.map (Statement.relocate
        (Location.behind "f ~a;\n\"b\"; (* ; *)".toList))).map Statement.location =
        [some ⟨"a.ml", 2, 13, 18, 28, 2, 23⟩, some ⟨"a.ml", 3, 1, 29, 37, 3, 9⟩]) = true := by
    decide +kernel
  obtain ⟨p₁, hp₁, hl₁⟩ := exists_ok_of_any h₁
  obtain ⟨p₂, hp₂, hl₂⟩ := exists_ok_of_any h₂
  obtain ⟨p, hp, hs, -⟩ := Program.parse_append hp₁ hp₂
  refine ⟨p₁, p₂, p, hp₁, hp₂, hp, hs, ?_⟩
  rw [hs, List.map_append, of_decide_eq_true hl₁, of_decide_eq_true hl₂]
  rfl

end MessageLang
