import MessageLang.Proofs.Grammar.Completeness
import MessageLang.Proofs.Grammar.Scanning
import MessageLang.Proofs.Grammar.Soundness
/-!
# Programs are read exactly by the grammar

What is read as a program is layout and lexemes that derive it, and lexemes that derive a program
are read as it when they stand a space apart.

* `Program.derives_of_parse`: a program that is read derives from the tokens of its text.
* `Program.parse_of_derives`: a program that derives from lexemes is read from them.
* `Program.parse_exact`: both, and lexemes derive one program only.
-/
namespace MessageLang

variable {file source : String} {p : Program}

/-- A program may end between statements only. -/
theorem State.mode_of_end? {s : State} (h : s.end?.isSome = true) : s.mode = .statement := by
  unfold State.end? at h
  split at h
  · assumption
  · cases h

/-- A program that is read derives from the tokens of its text, none of them a bad literal. -/
theorem Program.derives_of_parse (h : Program.parse file source = .ok p) :
    ∃ ts, Scans .start source.toList ts ∧ Derives file (.program p) ts [] := by
  unfold Program.parse at h
  cases hr : readFrom file .initial .start .start source.toList with
  | error e =>
    rw [hr] at h
    cases h
  | ok s =>
    rw [hr] at h
    simp only [bind, Except.bind] at h
    split at h
    · cases h
    · split at h
      · cases h
      · rename_i hfault
        cases h
        obtain ⟨ts, hts, hrun, hm⟩ := scans_of_readFrom hr
        obtain ⟨bad, hd, hbad⟩ := derives_of_shiftAll hrun hm
        rw [hfault] at hbad
        obtain rfl := List.head?_eq_none_iff.mp hbad.symm
        exact ⟨ts, hts, .program hd⟩

/-- A program that derives from lexemes, none of them a bad literal, is read from them. -/
theorem Program.parse_of_derives {ls : List (Terminal × List Char)} (hfile : file.isEmpty = false)
    (hls : ∀ x ∈ ls, x.1.IsLexeme x.2)
    (h : Derives file (.program p) (tokensFrom .start ls) []) :
    Program.parse file (String.ofList (spaced ls)) = .ok p := by
  have hread : readFrom file .initial .start .start (spaced ls) =
      .ok ⟨p.statements.reverse, [], .statement, none⟩ := readFrom_spaced hls h.shiftAll rfl
  cases h with
  | program =>
    simp only [Program.parse, String.toList_ofList, hread, bind, Except.bind, hfile,
      Bool.false_eq_true, if_false, List.reverse_reverse]
    rfl

/-- Programs are read exactly by the grammar. -/
theorem Program.parse_exact (file : String) :
    (∀ source p, Program.parse file source = .ok p →
      ∃ ts, Scans .start source.toList ts ∧ Derives file (.program p) ts []) ∧
    (∀ ls p, file.isEmpty = false → (∀ x ∈ ls, x.1.IsLexeme x.2) →
      Derives file (.program p) (tokensFrom .start ls) [] →
      Program.parse file (String.ofList (spaced ls)) = .ok p) ∧
    ∀ ts p p' bad bad', Derives file (.program p) ts bad → Derives file (.program p') ts bad' →
      p = p' :=
  ⟨fun _ _ => derives_of_parse, fun _ _ => parse_of_derives, fun _ _ _ _ _ => Derives.unique⟩

/-- The lexemes of a program with a binding, labels, operators and a type. -/
def Program.lexemesOfBinding : List (Terminal × List Char) :=
  [(.longName, ['l', 'e', 't']), (.name, ['x']), (.equals, ['=']), (.longName, ['f']),
    (.label, ['~', 'a', ':']), (.openParen, ['(']), (.longName, ['y']), (.colon, [':']),
    (.longName, ['t']), (.closeParen, [')']), (.labelledName, ['~', 'b']), (.sign, ['-']),
    (.integer, ['1']), (.semicolon, [';'])]

/-- Both directions at a program with a binding, labels, operators and a type. -/
theorem Program.parse_exact_binding : ∃ p,
    Program.parse "a.ml" "let x = f ~a: ( y : t ) ~b - 1 ;" = .ok p ∧
      Derives "a.ml" (.program p) (tokensFrom .start lexemesOfBinding) [] ∧
      ∃ ts, Scans .start "let x = f ~a: ( y : t ) ~b - 1 ;".toList ts ∧
        Derives "a.ml" (.program p) ts [] := by
  have hlexemes : ∀ x ∈ lexemesOfBinding, x.1.IsLexeme x.2 := by
    decide +kernel
  have hruns : (State.shiftAll "a.ml" .initial (tokensFrom .start lexemesOfBinding)).any
      (fun s => s.end?.isSome && s.fault.isNone) = true := by
    decide +kernel
  have htext : String.ofList (spaced lexemesOfBinding) = "let x = f ~a: ( y : t ) ~b - 1 ;" := by
    decide +kernel
  cases hs : State.shiftAll "a.ml" .initial (tokensFrom .start lexemesOfBinding) with
  | none =>
    rw [hs] at hruns
    cases hruns
  | some s =>
    rw [hs, Option.any_some, Bool.and_eq_true] at hruns
    obtain ⟨hend, hfault⟩ := hruns
    obtain ⟨bad, hd, hbad⟩ := derives_of_shiftAll hs (State.mode_of_end? hend)
    rw [Option.isNone_iff_eq_none.mp hfault] at hbad
    obtain rfl := List.head?_eq_none_iff.mp hbad.symm
    have hparse := (Program.parse_exact "a.ml").2.1 _ _ rfl hlexemes hd.program
    rw [htext] at hparse
    exact ⟨_, hparse, hd.program, (Program.parse_exact "a.ml").1 _ _ hparse⟩

end MessageLang
