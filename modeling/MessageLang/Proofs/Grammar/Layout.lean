import MessageLang.Proofs.Expansion.Relocation
import MessageLang.Proofs.Grammar.Moving
/-!
# Layout does not matter

More layout between two tokens of a text leaves the tokens as they are, but for their places. So the
text is read as the same program, and compiles to the same one unless it asks for places.

* `IsSeam`: the places of a text that are between tokens.
* `Program.parse_insert`: what a text with more layout is read as, and what it compiles to.
-/
namespace MessageLang

/-- Layout, any number of times. -/
inductive AreLayouts : List Char → Prop where
  | nil : AreLayouts []
  | append {w rest : List Char} : Terminal.IsLayout w → AreLayouts rest → AreLayouts (w ++ rest)

/-- The end of `before` is between two tokens of a text, in front of the first or behind the last:
tokens are cut off the text up to layout that ends there. -/
def IsSeam (file : String) (before after : List Char) : Prop :=
  ∃ ts s p gap, Lexes file .initial .start (before ++ after) ts s p (gap ++ after) ∧ AreLayouts gap

section

variable {gap w rest : List Char} {file : String} {s : State} {last p : Position}

/-- Layout is pieces without tokens. -/
theorem AreLayouts.exists_cuts (h : AreLayouts gap) :
    ∃ ps, gap = textOf ps ∧ (∀ rest, Cuts ps rest) ∧ ∀ p, tokensAt p ps = [] := by
  induction h with
  | nil => exact ⟨[], rfl, fun _ => trivial, fun _ => rfl⟩
  | @append w rest hw _ ih =>
    obtain ⟨ps, rfl, hps, hts⟩ := ih
    exact ⟨(.blank, w) :: ps, rfl, fun rest => ⟨.inl ⟨rfl, hw⟩, hps rest⟩, fun p => hts _⟩

theorem AreLayouts.breaks (h : AreLayouts gap) (hw : Terminal.IsLayout w) :
    Terminal.Breaks (gap ++ (w ++ rest)) := by
  cases h with
  | nil => exact hw.breaks rest
  | append hv _ =>
    rw [List.append_assoc]
    exact hv.breaks _

theorem AreLayouts.readFrom_eq (h : AreLayouts gap) :
    readFrom file s last p (gap ++ rest) = readFrom file s last (p.advance gap) rest := by
  induction h generalizing p with
  | nil => rfl
  | append hw _ ih => rw [List.append_assoc, readFrom_layout hw, ih, Position.advance_append]

end

/-! ## Cutting a text at a seam -/

section

variable {file : String} {before after w : List Char} {p : Program}

/-- A text that is read is cut into pieces on both sides of a seam; more layout may stand there. -/
theorem IsSeam.exists_cuts {source : String} (hs : IsSeam file before after)
    (h : Program.parse file source = .ok p) (htext : source.toList = before ++ after) :
    ∃ ps qs, before = textOf ps ∧ after = textOf qs ∧ Cuts qs [] ∧
      (∀ w, Terminal.IsLayout w → Cuts ps (w ++ after)) ∧
      Derives file (.program p) (tokensAt .start (ps ++ qs)) [] := by
  obtain ⟨ts, s, q, gap, hlexes, hgap⟩ := hs
  obtain ⟨-, -, s', hr, -⟩ := Program.readFrom_of_parse h
  have hr' := hr
  rw [htext] at hr'
  obtain ⟨ps, he, hps, rfl, rfl⟩ := hlexes.exists_cuts hr'
  obtain ⟨last, hread⟩ : ∃ last, readFrom file .initial .start .start (before ++ after) =
      readFrom file s last _ _ := hlexes.readFrom_eq
  rw [hr', hgap.readFrom_eq] at hread
  obtain ⟨qs, hafter, hqs, hrun, -⟩ := exists_cuts_of_readFrom hread.symm
  obtain ⟨gs, hgs, hcuts, hnone⟩ := hgap.exists_cuts
  have hbefore : before = textOf (ps ++ gs) := by
    rw [← List.append_assoc] at he
    rw [textOf_append, ← hgs, List.append_cancel_right he]
  refine ⟨ps ++ gs, qs, hbefore, hafter, hqs, fun w hw => ?_, ?_⟩
  · refine cuts_append.mpr ⟨?_, hcuts _⟩
    rw [← hgs]
    exact hps.congr (hgap.breaks hw)
  · subst hgs
    refine Program.derives_of_readFrom h hr ?_
    rw [tokensAt_append, tokensAt_append, hnone, List.append_nil,
      State.shiftAll_append_of hlexes.shiftAll, textOf_append, Position.advance_append]
    exact hrun

end

/-! ## The tokens of a text with more layout -/

/-- Where a place is in `text` that `n` characters in front of it were put into. -/
def Position.pushed (text : List Char) (n : Nat) (p : Position) : Position :=
  Position.start.advance (text.take (p.offset + n))

theorem Position.pushed_advance (u w v rest : List Char) :
    ((start.advance u).advance v).pushed (u ++ (w ++ (v ++ rest))) w.length =
      ((start.advance u).advance w).advance v := by
  have hlength : ((start.advance u).advance v).offset + w.length = (u ++ (w ++ v)).length := by
    simp only [advance_offset, start, List.length_append]
    omega
  have htext : u ++ (w ++ (v ++ rest)) = (u ++ (w ++ v)) ++ rest := by
    simp only [List.append_assoc]
  rw [pushed, hlength, htext, List.take_left, advance_append, advance_append]

/-- The tokens in front of more layout stay where they are, those behind it are pushed. A token that
ends where the layout starts stays, one that starts there is pushed. -/
theorem tokensAt_layout {ps qs : List Piece} {w : List Char} (hne : ∀ x ∈ ps ++ qs, x.2 ≠ []) :
    ∃ mf ml, tokensAt .start (ps ++ (.blank, w) :: qs) =
      (tokensAt .start (ps ++ qs)).map (Token.move mf ml) := by
  let push := Position.pushed (textOf ps ++ (w ++ textOf qs)) w.length
  let k := (textOf ps).length
  refine ⟨fun p => if p.offset < k then p else push p,
    fun p => if p.offset ≤ k then p else push p, ?_⟩
  obtain ⟨hps, hqs⟩ := List.forall_mem_append.mp hne
  have hpush (u v : List Char) (he : textOf qs = u ++ v) :
      push ((Position.start.advance (textOf ps)).advance u) =
        ((Position.start.advance (textOf ps)).advance w).advance u := by
    simp only [push, he]
    exact Position.pushed_advance _ w u v
  rw [tokensAt_append, tokensAt_append, List.map_append]
  congr 1
  · refine tokensAt_eq_map_move hps (fun u v he hv => if_pos ?_) fun u v he _ => if_pos ?_
    · have := List.length_pos_iff.mpr hv
      simp only [k, he, Position.advance_offset, Position.start, List.length_append]
      omega
    · simp only [k, he, Position.advance_offset, Position.start, List.length_append]
      omega
  · refine tokensAt_eq_map_move hqs (fun u v he _ => ?_) fun u v he hu => ?_
    · rw [if_neg, hpush u v he]
      simp only [k, Position.advance_offset, Position.start]
      omega
    · rw [if_neg, hpush u v he]
      have := List.length_pos_iff.mpr hu
      simp only [k, Position.advance_offset, Position.start]
      omega

/-! ## More layout -/

theorem Statement.map_bare_relocate (f : Location → Location) (ss : List Statement) :
    (ss.map (Statement.relocate f)).map Statement.bare = ss.map Statement.bare := by
  rw [List.map_map]
  exact List.map_congr_left fun s _ => s.bare_relocate f

/-- A text with more layout between two tokens is read as the program that the text is read as,
moved. -/
theorem IsSeam.parse_eq {file before after w : String} {p : Program}
    (hs : IsSeam file before.toList after.toList) (hw : Terminal.IsLayout w.toList)
    (h : Program.parse file (before ++ after) = .ok p) :
    ∃ p' f, Program.parse file (before ++ w ++ after) = .ok p' ∧
      p'.statements = p.statements.map (Statement.relocate f) := by
  obtain ⟨ps, qs, hbefore, hafter, hqs, hps, hd⟩ := hs.exists_cuts h String.toList_append
  have hne : ∀ x ∈ ps ++ qs, x.2 ≠ [] :=
    List.forall_mem_append.mpr ⟨(hps _ hw).ne_nil, hqs.ne_nil⟩
  obtain ⟨mf, ml, htokens⟩ := tokensAt_layout (w := w.toList) hne
  have hcuts : Cuts (ps ++ (.blank, w.toList) :: qs) [] := by
    refine cuts_append.mpr ⟨?_, .inl ⟨rfl, hw⟩, hqs⟩
    rw [textOf_cons, ← hafter, List.append_assoc, List.append_nil]
    exact hps _ hw
  have hmoved := hd.move fun p q => Location.move_between p q mf ml
  rw [← htokens] at hmoved
  have hparse := Program.parse_of_cuts (Program.exists_cuts_of_parse h).1 hcuts hmoved
  rw [textOf_append, textOf_cons, ← hbefore, ← hafter] at hparse
  rw [String.ofList_append, String.ofList_append, String.ofList_toList, String.ofList_toList,
    String.ofList_toList, ← String.append_assoc] at hparse
  exact ⟨_, Location.move mf ml, hparse, rfl⟩

/-- Layout does not matter: with more of it between two tokens, in front of the first or behind the
last one, a text is read as the same program. A text that asks for no place and compiles still
compiles, to the same program. -/
theorem Program.parse_insert {file before after w : String} {p : Program}
    (h : Program.parse file (before ++ after) = .ok p)
    (hs : IsSeam file before.toList after.toList) (hw : Terminal.IsLayout w.toList) :
    ∃ p', Program.parse file (before ++ w ++ after) = .ok p' ∧
      p'.statements.map Statement.bare = p.statements.map Statement.bare ∧
      (NoPlaces p.extensions → ∀ q, compile .standard file (before ++ after) = .ok q →
        ∃ q', compile .standard file (before ++ w ++ after) = .ok q' ∧
          q'.statements.map Statement.bare = q.statements.map Statement.bare) := by
  obtain ⟨p', f, hp', he⟩ := hs.parse_eq hw h
  refine ⟨p', hp', ?_, fun hk q hq => ?_⟩
  · rw [he, Statement.map_bare_relocate]
  · obtain ⟨p₀, hp₀, hfailures, rfl⟩ := compile_eq_ok.mp hq
    obtain rfl := Except.ok.inj (h.symm.trans hp₀)
    obtain ⟨hvalue, hfail⟩ := (Program.parse_isReadable h).expand_relocate hk he
    rw [hfailures] at hfail
    exact ⟨_, compile_eq_ok.mpr ⟨p', hp', hfail, rfl⟩, by
      rw [hvalue, Statement.map_bare_relocate]⟩

/-- A comment that holds what would be a token, put behind the name of a call whose arguments are a
list and a message. -/
theorem Program.parse_insert_comment : ∃ p' q q',
    Program.parse "a.ml" ("f " ++ "(* [% *)" ++ "[1] [%message \"m\" ~x:(1 : int)];") = .ok p' ∧
      compile .standard "a.ml" ("f " ++ "[1] [%message \"m\" ~x:(1 : int)];") = .ok q ∧
      compile .standard "a.ml" ("f " ++ "(* [% *)" ++ "[1] [%message \"m\" ~x:(1 : int)];") =
        .ok q' ∧
      q'.statements.map Statement.bare = q.statements.map Statement.bare := by
  have hparse : (Program.parse "a.ml" ("f " ++ "[1] [%message \"m\" ~x:(1 : int)];")).toOption.any
      (fun p => p.extensions.all fun e => !e.isHere) = true := by
    decide +kernel
  have hcompile : (compile .standard "a.ml"
      ("f " ++ "[1] [%message \"m\" ~x:(1 : int)];")).toOption.any (fun _ => true) = true := by
    decide +kernel
  obtain ⟨p, hp, hk⟩ := exists_ok_of_any hparse
  obtain ⟨q, hq, -⟩ := exists_ok_of_any hcompile
  have hplaces : NoPlaces p.extensions := by
    intro payload l hx
    have hnot := List.all_eq_true.mp hk _ hx
    cases hnot
  have hseam : IsSeam "a.ml" "f ".toList "[1] [%message \"m\" ~x:(1 : int)];".toList :=
    ⟨_, _, _, [' '],
      .token (w := ['f']) (k := .longName) (by decide +kernel) (by decide +kernel) rfl rfl .nil,
      .append (w := [' ']) (.inl ⟨List.cons_ne_nil _ _, List.forall_mem_singleton.mpr rfl⟩) .nil⟩
  have hlayout : Terminal.IsLayout "(* [% *)".toList := by
    refine .inr ⟨[' ', '[', '%', ' ', '*', ')'], rfl, ?_⟩
    exact .char (by simp) (.char (by simp) (.char (by simp) (.char (by simp) .close)))
  obtain ⟨p', hp', -, hq'⟩ := Program.parse_insert hp hseam hlayout
  obtain ⟨q', hq', hbare⟩ := hq' hplaces q hq
  exact ⟨p', q, q', hp', hq, hq', hbare⟩

end MessageLang
