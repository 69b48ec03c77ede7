import MessageLang.Proofs.Expansion.Firsts
import MessageLang.Proofs.Grammar.BadLiterals
/-!
# Errors are shown with their lines

Each error of a compilation is at a region that starts where a token starts, or at a character where
none does. So it is shown with a line of the text, and carets under characters of that line.

* `ParseError.exists_isMarkable`: where a text is refused.
* `Program.exists_isMarkable_of_mem_failures`: where the extensions of a text fail.
* `compile_shows`: what is shown for the errors of a text.
-/
namespace MessageLang

variable {file source : String} {text : List Char}

/-! ## Texts that are refused -/

/-- A text is refused at a character of it: the start of what is not expected, or of the last
token. -/
theorem Stops.isMarkable {s : State} {q : Position} {rest : List Char} {ts : List Token}
    {what : Unexpected} {place : Position} {pre : List Char}
    (h : Stops file s ((ts.getLast?.map Token.first).getD .start) q rest what place)
    (htext : text = pre ++ rest) (hq : q = positionAt text pre.length)
    (hts : ∀ t ∈ ts, t.StandsIn text) (hs : State.initial.shiftAll file ts = some s) :
    place.IsMarkable text := by
  cases h with
  | endOfInput hm =>
    cases hlast : ts.getLast? with
    | none =>
      rw [List.getLast?_eq_none_iff.mp hlast] at hs
      cases hs
      exact absurd rfl hm
    | some t => exact (hts t (List.mem_of_getLast? hlast)).first
  | token _ _ hw _ =>
    obtain ⟨c, hc, hne⟩ := hw.exists_getElem?
    exact ⟨_, c, hq, htext ▸ hc, hne⟩
  | @character c rest hnone =>
    refine ⟨_, c, hq, by simp [htext], ?_⟩
    rintro rfl
    have := hnone .blank
    cases this

/-- A bad literal is at its tokens. -/
theorem BadLiteral.isMarkable_of_shiftAll {s : State} {ts : List Token} {b : BadLiteral}
    (h : State.initial.shiftAll file ts = some s) (hb : s.fault = some b)
    (hts : ∀ t ∈ ts, t.StandsIn text) : b.location.IsMarkable file text := by
  have hfault : s.fault = ((literalsOf none false ts).flatMap (·.faults file)).head? :=
    State.fault_of_shiftAll h (show State.initial.Awaits none false from ⟨rfl, rfl⟩)
  rw [hb] at hfault
  obtain ⟨o, ho, hbo⟩ := List.mem_flatMap.mp (List.mem_of_head? hfault.symm)
  rw [Literal.Occurrence.location_of_mem_faults hbo]
  obtain ⟨htoken, -, hsign⟩ := mem_of_mem_literalsOf o ho
  obtain ⟨j, hlast⟩ := (hts _ htoken).last
  rw [Literal.Occurrence.region, hlast]
  refine Location.isMarkable_between ?_
  cases hz : o.sign with
  | none => exact (hts _ htoken).first
  | some z =>
    rcases hsign z hz with heq | hmem
    · cases heq
    · exact (hts z hmem).first

theorem ParseError.exists_isMarkable {e : ParseError} (hfile : file.isEmpty = false)
    (h : Program.parse file source = .error e) :
    ∃ l, e.location file = some l ∧ l.IsMarkable file source.toList := by
  unfold Program.parse at h
  cases hr : readFrom file .initial .start .start source.toList with
  | error e' =>
    rw [hr] at h
    cases h
    obtain ⟨what, ts, s, q, rest, place, rfl, hlexes, hstop⟩ := exists_stops_of_readFrom hr
    obtain ⟨pre, htext, rfl⟩ := hlexes.exists_place [] rfl rfl
    refine ⟨_, rfl, Location.isMarkable_point ?_⟩
    exact hstop.isMarkable htext rfl (hlexes.standsIn [] rfl rfl) hlexes.shiftAll
  | ok s =>
    rw [hr] at h
    simp only [bind, Except.bind, hfile, Bool.false_eq_true, if_false] at h
    split at h
    · rename_i b hb
      cases h
      obtain ⟨ts, q, hlexes, -⟩ := exists_lexes_of_readFrom hr
      exact ⟨_, rfl, BadLiteral.isMarkable_of_shiftAll hlexes.shiftAll hb
        (hlexes.standsIn [] rfl rfl)⟩
    · cases h

/-! ## Extensions that fail -/

/-- The region of a part that starts at a character. -/
theorem Node.Spans.isMarkable {n : Node} {l : Location} (h : n.Spans file text l)
    (hfirst : l.first.IsMarkable text) : l.IsMarkable file text := by
  obtain ⟨i, c, hi, hc, hne⟩ := hfirst
  have hoffset : l.start.toNat = i := congrArg Position.offset hi
  refine ⟨h.file_eq, ⟨i, c, hc, hne, ?_, ?_⟩, fun _ => ⟨_, h.endLine_eq, h.endColumn_eq⟩⟩
  · rw [h.line_eq, hoffset]
  · rw [h.column_eq, hoffset]

/-- The name of an option stands behind the carets, without a caret of its own. -/
theorem ExpansionError.not_mem_label {option label : String} (h : IsWordName option)
    (hlabel : (optionalLabel option).label = some label) :
    '^' ∉ label.toList ∧ '\n' ∉ label.toList := by
  have hname {c : Char} (hc : Terminal.isNameChar c = false) : c ∉ option.toList :=
    fun hm => absurd ((h.isNameChar c hm).symm.trans hc) nofun
  cases hlabel
  simp only [String.toList_append, List.mem_append, not_or]
  exact ⟨⟨⟨by decide, hname (by decide)⟩, by decide⟩, ⟨by decide, hname (by decide)⟩, by decide⟩

section

variable {p : Program} {ts : List Token}

/-- The failures of a text that was read are at parts of it that start where tokens start, and no
caret and no line feed stands behind the underline. -/
theorem Program.exists_isMarkable_of_mem_failures (h : Program.parse file source = .ok p) :
    ∀ failure ∈ (p.expand .standard).failures,
      (∃ l, failure.location = some l ∧ l.IsMarkable file source.toList) ∧
        ∀ label, failure.error.label = some label →
          '^' ∉ label.toList ∧ '\n' ∉ label.toList := by
  have hread := Program.parse_isReadable h
  obtain ⟨-, -, s, hr, -⟩ := Program.readFrom_of_parse h
  obtain ⟨ts, q, hlexes, -⟩ := exists_lexes_of_readFrom hr
  have hself := (Program.derives_of_readFrom h hr hlexes.shiftAll).relocate_eq_self hread
  obtain ⟨sites, hsites, hleft, hfail⟩ := hread.reports
  have hsub : (sites.map Prod.fst).Sublist p.extensions := hleft ▸ hread.accounts.1.sublist
  have hrow := hsites.row (Program.row_outermost h)
  rw [hfail]
  intro failure hf
  obtain ⟨⟨x, failure⟩, hs, rfl⟩ := List.mem_map.mp hf
  obtain ⟨hx, hext⟩ := List.mem_filter.mp (hsub.subset (List.mem_map_of_mem hs))
  have huse : x.IsUse := ⟨hext, hread.of_mem_parts hx⟩
  have hnode : Node.expr x ∈ sites.map fun s => Node.expr s.1 := List.mem_map_of_mem hs
  -- a part of the use spans a piece of the text, and starts where a token starts
  have hpart {e : Expr} (hc : (Node.expr x).Contains (.expr e)) (he : e.IsReadable)
      (hself : e.relocate (Location.keep ts) = e) :
      ∃ l, e.location = some l ∧ l.IsMarkable file source.toList := by
    obtain ⟨l, hspans⟩ := hrow.spans _ hnode _ hc
    obtain ⟨t, ht, hfirst⟩ := he.exists_first hself hspans.location
    have hmark := (hlexes.standsIn [] rfl rfl t ht).first
    rw [hfirst] at hmark
    exact ⟨l, hspans.location, hspans.isMarkable hmark⟩
  rcases Setting.code_error_cases huse (hsites.code_eq_error _ hs) with
    ⟨hl, hnone⟩ | ⟨name, payload, m, option, e, rfl, hpayload, ha, rfl⟩
  · obtain ⟨l, hl', hm⟩ := hpart .self huse.2 (hself x hx)
    exact ⟨⟨l, hl.trans hl', hm⟩, fun label hlabel => absurd (hnone.symm.trans hlabel) nofun⟩
  · have hpayloadSelf := hself _ hx
    rw [Expr.relocate, Expr.extension.injEq, Option.some.injEq] at hpayloadSelf
    have harg := isReadable_arguments hpayload _ ha
    obtain ⟨l, hl, hm⟩ := hpart (.child (List.mem_singleton_self _)
      (Message.contains_of_mem_arguments ha)) (harg.2 _ _ rfl)
      (Message.relocate_eq_self_of_mem_arguments hpayloadSelf.2.1 ha)
    exact ⟨⟨l, hl, hm⟩, fun label hlabel => ExpansionError.not_mem_label harg.1 hlabel⟩

end

/-! ## The errors of a text -/

/-- Each error of a text is shown with a line of the text and with carets under it. The first caret
stands under the character at the column of the error, and none stands in front of it or past the
end of the line. -/
theorem compile_shows (file source : String) (hfile : file.isEmpty = false) :
    ∀ d ∈ reported file (compile .standard file source),
      ∃ l line marks, d.Shows file source l line marks := by
  intro d hd
  cases h : Program.parse file source with
  | error e =>
    have hreported : reported file (compile .standard file source) = [e.diagnostic file] := by
      rw [compile, h]
      rfl
    rw [hreported] at hd
    obtain rfl := List.mem_singleton.mp hd
    obtain ⟨l, hl, hm⟩ := ParseError.exists_isMarkable hfile h
    exact ⟨l, Diagnostic.shows_of_isMarkable hl hm fun label hlabel => absurd hlabel nofun⟩
  | ok p =>
    rw [reported_of_parse h] at hd
    obtain ⟨failure, hf, rfl⟩ := List.mem_map.mp hd
    obtain ⟨⟨l, hl, hm⟩, hlabel⟩ := Program.exists_isMarkable_of_mem_failures h failure hf
    exact ⟨l, Diagnostic.shows_of_isMarkable hl hm hlabel⟩

/-- Two extensions that fail in lines of their own, one at an option and one with its payload over
two lines. -/
theorem compile_shows_two :
    (reported "a.ml" (compile .standard "a.ml" "[%message f\n  ?x];\n[%foo (1,\n  2)];")).length =
        2 ∧
      ∀ d ∈ reported "a.ml" (compile .standard "a.ml" "[%message f\n  ?x];\n[%foo (1,\n  2)];"),
        ∃ l line marks, d.Shows "a.ml" "[%message f\n  ?x];\n[%foo (1,\n  2)];" l line marks :=
  ⟨by decide +kernel, compile_shows _ _ (by decide)⟩

end MessageLang
