import MessageLang.Proofs.Source.Splitting
/-!
# Snippets under errors

An error that is shown with its source has the line that it is at, and under it a line with carets.
The caret line has as many characters in front of the carets as there are in front of the characters
of the line that they stand under.

* `Location.IsMarkable`: the regions that start at a character of a text.
* `Diagnostic.Shows`: what is shown for an error.
* `Diagnostic.shows_of_isMarkable`: an error at such a region is shown so.
-/
namespace MessageLang

/-! ## Regions with a character -/

/-- A position at a character of a text that is no line feed. -/
def Position.IsMarkable (text : List Char) (p : Position) : Prop :=
  ∃ i c, p = positionAt text i ∧ text[i]? = some c ∧ c ≠ '\n'

/-- A region starts at a character of a text that is no line feed. If it ends on the same line, it
ends at a place of the text. -/
structure Location.IsMarkable (file : String) (text : List Char) (l : Location) : Prop where
  file_eq : l.file = file
  first : ∃ i c, text[i]? = some c ∧ c ≠ '\n' ∧ l.line = lineAt text i ∧ l.column = columnAt text i
  last : l.endLine = l.line → ∃ j, l.endLine = lineAt text j ∧ l.endColumn = columnAt text j

section

variable {file : String} {text : List Char} {p : Position}

theorem Location.isMarkable_between {j : Nat} (hp : p.IsMarkable text) :
    (Location.between file p (positionAt text j)).IsMarkable file text := by
  obtain ⟨i, c, rfl, hc, hne⟩ := hp
  exact ⟨rfl, ⟨i, c, hc, hne, rfl, rfl⟩, fun _ => ⟨j, rfl, rfl⟩⟩

theorem Location.isMarkable_point (hp : p.IsMarkable text) :
    (Location.point file p.line p.column).IsMarkable file text := by
  obtain ⟨i, c, rfl, hc, hne⟩ := hp
  refine ⟨rfl, ⟨i, c, hc, hne, rfl, rfl⟩, fun hend => ?_⟩
  have hzero : (0 : Int) = (lineAt text i : Nat) := hend
  rw [lineAt] at hzero
  omega

end

/-- How many characters stand in front of a source line where it is shown. -/
def Location.gutter (l : Location) : Nat := (decimalInt l.line ++ " | ").length

/-- What is shown for an error at a region: the line of the text that it is at, and under it a line
with carets. The first caret is under the character at the column, and all of them are under
characters of the line. -/
structure Diagnostic.Shows (file source : String) (d : Diagnostic) (l : Location)
    (line marks : List Char) : Prop where
  location : d.location = some l
  file_eq : l.file = file
  isLine : ∃ n : Nat, l.line = n ∧ IsLine source.toList n line
  render_eq : ∃ head arrow bar notes, d.render [(file, source)] false =
    "\n".intercalate (head :: arrow :: bar :: (decimalInt l.line ++ " | " ++ String.ofList line) ::
      String.ofList marks :: notes)
  not_mem : '\n' ∉ marks
  column_pos : 1 ≤ l.column
  first_caret : marks[l.gutter + (l.column.toNat - 1)]? = some '^'
  carets : ∀ i, marks[i]? = some '^' →
    l.gutter + (l.column.toNat - 1) ≤ i ∧ i < l.gutter + line.length

/-! ## Underlines -/

section

variable {file : String} {text line : List Char} {l : Location}

/-- The line that a region starts in, with the character at the column. -/
theorem Location.IsMarkable.exists_line (h : l.IsMarkable file text) :
    ∃ n line, l.line = (n : Nat) ∧ 1 ≤ n ∧ (splitLines text)[n - 1]? = some line ∧ 1 ≤ l.column ∧
      l.column.toNat - 1 < line.length ∧
      (l.endLine = l.line → l.endColumn.toNat - 1 ≤ line.length) := by
  obtain ⟨i, c, hc, hne, hline, hcolumn⟩ := h.first
  obtain ⟨line, hget, -, hat⟩ := exists_getElem?_lineAt text i
  refine ⟨lineAt text i, line, hline, Nat.succ_pos _, hget, ?_, ?_, fun hend => ?_⟩
  · rw [hcolumn, columnAt]
    omega
  · obtain ⟨hlt, -⟩ := List.getElem?_eq_some_iff.mp (hat c hc hne)
    rwa [hcolumn, Int.toNat_natCast]
  · obtain ⟨j, hendLine, hendColumn⟩ := h.last hend
    obtain ⟨line', hget', hle, -⟩ := exists_getElem?_lineAt text j
    have hsame : lineAt text j = lineAt text i := by omega
    rw [hsame, hget, Option.some.injEq] at hget'
    rw [hendColumn, Int.toNat_natCast, hget']
    exact hle

/-- An underline starts within the line and does not go past its end. -/
theorem Diagnostic.add_underline_le (column : Nat) (hcolumn : l.column = (column + 1 : Nat))
    (hlt : column < line.length) (hend : l.endLine = l.line → l.endColumn.toNat - 1 ≤ line.length) :
    0 < underline l line column ∧ column + underline l line column ≤ line.length := by
  unfold underline
  split
  · rename_i h
    simp only [Bool.and_eq_true, beq_iff_eq, decide_eq_true_eq] at h
    have := hend h.1
    omega
  · have hle := (List.takeWhile_prefix (fun c => !endsWord c) (l := line.drop column)).length_le
    rw [List.length_drop] at hle
    omega

end

/-! ## Caret lines -/

/-- The carets of a line that has them at one stretch. -/
theorem getElem?_caret {pad tail : List Char} {n : Nat} (hpad : '^' ∉ pad) (htail : '^' ∉ tail)
    (hn : 0 < n) : (pad ++ (List.replicate n '^' ++ tail))[pad.length]? = some '^' ∧
      ∀ i, (pad ++ (List.replicate n '^' ++ tail))[i]? = some '^' →
        pad.length ≤ i ∧ i < pad.length + n := by
  constructor
  · rw [List.getElem?_append_right (Nat.le_refl _), Nat.sub_self, List.getElem?_append_left]
    · simp [hn]
    · simpa using hn
  · intro i hi
    by_cases hlt : i < pad.length
    · rw [List.getElem?_append_left hlt] at hi
      exact absurd (List.mem_of_getElem? hi) hpad
    · refine ⟨by omega, ?_⟩
      by_contra hge
      rw [List.getElem?_append_right (by omega), List.getElem?_append_right (by simp; omega)] at hi
      exact htail (List.mem_of_getElem? hi)

/-- What stands behind the carets. -/
def Diagnostic.tail (d : Diagnostic) : String :=
  match given d.label with
  | some label => " " ++ label
  | none => ""

/-- What stands in front of the carets. -/
def Location.indent (l : Location) : List Char :=
  List.replicate ((decimalInt l.line).length + 1) ' ' ++ ['|', ' '] ++
    List.replicate (l.column.toNat - 1) ' '

theorem Location.length_indent (l : Location) :
    l.indent.length = l.gutter + (l.column.toNat - 1) := by
  have hbar : " | ".length = 3 := by decide
  simp only [indent, gutter, String.length_append, hbar, List.length_append, List.length_replicate,
    List.length_cons, List.length_nil]

/-- The caret line of an error at a region of a line. -/
def Diagnostic.marks (d : Diagnostic) (l : Location) (line : List Char) : List Char :=
  l.indent ++ (List.replicate (underline l line (l.column.toNat - 1)) '^' ++ d.tail.toList)

section

variable {file source : String} {d : Diagnostic} {l : Location} {line : List Char}

theorem Diagnostic.render_eq (hl : d.location = some l) (hfile : l.file = file)
    (hline : 1 ≤ l.line) (hget : (splitLines source.toList)[(l.line - 1).toNat]? = some line)
    (hcolumn : 1 ≤ l.column) :
    ∃ head arrow bar notes, d.render [(file, source)] false = "\n".intercalate
      (head :: arrow :: bar :: (decimalInt l.line ++ " | " ++ String.ofList line) ::
        String.ofList (d.marks l line) :: notes) := by
  have hsource : [(file, source)].lookup l.file = some source := by
    rw [hfile]
    simp
  have hsourceLine : sourceLine source l.line = line := by
    rw [sourceLine, if_neg (by omega), hget]
    rfl
  have hmax : (max l.column 1 - 1).toNat = l.column.toNat - 1 := by omega
  have hmarks : spaces ((decimalInt l.line).length + 1) ++ "| " ++ (spaces (l.column.toNat - 1) ++
      String.ofList (List.replicate (underline l line (l.column.toNat - 1)) '^') ++ d.tail) =
        String.ofList (d.marks l line) := by
    rw [marks, Location.indent, ← String.toList_inj]
    simp [spaces]
  refine ⟨d.headline false, spaces (decimalInt l.line).length ++ "--> " ++ l.toText,
    spaces ((decimalInt l.line).length + 1) ++ "|",
    d.annotations (decimalInt l.line).length false, ?_⟩
  simp only [render, lines, hl, hsource, snippetLines, hsourceLine, hmax, Paint.apply,
    Bool.false_eq_true, if_false, List.cons_append, List.nil_append]
  rw [← hmarks]
  rfl

/-- What stands behind the carets has the characters of the label only, and a space. -/
theorem Diagnostic.mem_label_of_mem_tail {c : Char} (h : c ∈ d.tail.toList) (hc : c ≠ ' ') :
    ∃ label, d.label = some label ∧ c ∈ label.toList := by
  unfold tail at h
  split at h
  · rename_i label hlabel
    have hmem := (Option.filter_eq_some_iff.mp hlabel).1
    rw [String.toList_append] at h
    refine ⟨label, hmem, (List.mem_append.mp h).resolve_left fun hspace => ?_⟩
    exact hc (List.mem_singleton.mp hspace)
  · cases h

end

/-- An error at a region that starts at a character is shown with the line of this character. -/
theorem Diagnostic.shows_of_isMarkable {file source : String} {d : Diagnostic} {l : Location}
    (hl : d.location = some l) (h : l.IsMarkable file source.toList)
    (hlabel : ∀ label, d.label = some label → '^' ∉ label.toList ∧ '\n' ∉ label.toList) :
    ∃ line marks, d.Shows file source l line marks := by
  obtain ⟨n, line, hline, hn, hget, hcolumn, hlt, hend⟩ := h.exists_line
  have hindex : (l.line - 1).toNat = n - 1 := by omega
  obtain ⟨hpos, hle⟩ := add_underline_le (l := l) (l.column.toNat - 1) (by omega) hlt hend
  have htail : '^' ∉ d.tail.toList ∧ '\n' ∉ d.tail.toList := by
    refine ⟨fun hm => ?_, fun hm => ?_⟩
    · obtain ⟨label, hd, hm⟩ := mem_label_of_mem_tail hm (by decide)
      exact (hlabel label hd).1 hm
    · obtain ⟨label, hd, hm⟩ := mem_label_of_mem_tail hm (by decide)
      exact (hlabel label hd).2 hm
  have hindent : '^' ∉ l.indent ∧ '\n' ∉ l.indent := by simp [Location.indent]
  obtain ⟨hfirst, hcarets⟩ := getElem?_caret hindent.1 htail.1 hpos
  rw [l.length_indent] at hfirst hcarets
  refine ⟨line, d.marks l line, hl, h.file_eq, ⟨n, hline, isLine_of_getElem? hn hget⟩,
    render_eq hl h.file_eq (by omega) (hindex ▸ hget) hcolumn, ?_, hcolumn, hfirst,
    fun i hi => ?_⟩
  · simp [marks, hindent.2, htail.2]
  · obtain ⟨hge, hlt⟩ := hcarets i hi
    exact ⟨hge, by omega⟩

end MessageLang
