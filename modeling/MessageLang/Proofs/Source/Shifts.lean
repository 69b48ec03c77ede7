import Mathlib.Data.List.Induction
import MessageLang.Proofs.Source.Lines
/-!
# Texts put behind other texts

The place behind a text hangs on the place in front of it: the offset and the line grow by what the
text has of characters and line feeds, and the column on the first line by its characters.

* `Position.advance_offset`, `Position.advance_line`, `Position.advance_column`: the place behind a
  text.
* `Position.behind`, `Location.behind`: places of a text when another text stands in front of it.
* `Location.move`: a region with its ends moved.
-/
namespace MessageLang

namespace Position

variable (p : Position) (u v : List Char)

theorem advance_append : p.advance (u ++ v) = (p.advance u).advance v :=
  List.foldl_append

theorem advance_concat (c : Char) : p.advance (u ++ [c]) = (p.advance u).next c :=
  List.foldl_append

theorem advance_offset : (p.advance u).offset = p.offset + u.length := by
  induction u using List.reverseRecOn with
  | nil => rfl
  | append_singleton u c ih =>
    rw [advance_concat, next, List.length_append, List.length_singleton, ← Nat.add_assoc, ← ih]
    split <;> rfl

theorem advance_line : (p.advance u).line = p.line + u.count '\n' := by
  induction u using List.reverseRecOn with
  | nil => rfl
  | append_singleton u c ih =>
    rw [advance_concat, next, List.count_append, ← Nat.add_assoc, ← ih]
    by_cases hc : c = '\n'
    · simp [hc]
    · simp [hc]

/-- On its line a text goes on with columns; behind a line feed they start anew. -/
theorem advance_column :
    (p.advance u).column =
      (if '\n' ∈ u then 1 else p.column) + (u.reverse.takeWhile (· != '\n')).length := by
  induction u using List.reverseRecOn with
  | nil => rfl
  | append_singleton u c ih =>
    rw [advance_concat, next]
    by_cases hc : c = '\n'
    · simp [hc]
    · simp [hc, ih, Ne.symm hc, Nat.add_assoc]

/-- Where a place of a text is when another text stands in front: offsets grow by its length, lines
by its line feeds, and columns on the first line by the length of its last line. -/
def behind (text : List Char) (p : Position) : Position :=
  ⟨p.offset + text.length, p.line + text.count '\n',
    if p.line = 1 then p.column + (text.reverse.takeWhile (· != '\n')).length else p.column⟩

theorem behind_advance : (start.advance v).behind u = start.advance (u ++ v) := by
  have hcount : v.count '\n' = 0 ↔ '\n' ∉ v := List.count_eq_zero
  have hoffset : ((start.advance v).behind u).offset = (start.advance (u ++ v)).offset := by
    simp only [behind, advance_offset, List.length_append]
    omega
  have hline : ((start.advance v).behind u).line = (start.advance (u ++ v)).line := by
    simp only [behind, advance_line, List.count_append]
    omega
  have hcolumn : ((start.advance v).behind u).column = (start.advance (u ++ v)).column := by
    rw [advance_append, advance_column (start.advance u)]
    simp only [behind, advance_line, advance_column, start]
    by_cases hv : '\n' ∈ v
    · have hne : v.count '\n' ≠ 0 := fun h => hcount.mp h hv
      rw [if_neg (by omega), if_pos hv, if_pos hv]
    · have hzero := hcount.mpr hv
      rw [if_pos (by omega), if_neg hv, if_neg hv, ite_self]
      omega
  calc (start.advance v).behind u
      = ⟨(start.advance (u ++ v)).offset, (start.advance (u ++ v)).line,
          (start.advance (u ++ v)).column⟩ := by rw [← hoffset, ← hline, ← hcolumn]
    _ = start.advance (u ++ v) := rfl

end Position

namespace Location

/-- Where a region starts. -/
def first (l : Location) : Position := ⟨l.start.toNat, l.line.toNat, l.column.toNat⟩

/-- Where a region ends. -/
def last (l : Location) : Position := ⟨l.stop.toNat, l.endLine.toNat, l.endColumn.toNat⟩

variable {file : String} (p q : Position)

@[simp] theorem first_between : (between file p q).first = p := rfl

@[simp] theorem last_between : (between file p q).last = q := rfl

/-- The region with its start and its end moved. -/
def move (mf ml : Position → Position) (l : Location) : Location :=
  .between l.file (mf l.first) (ml l.last)

theorem move_between (mf ml : Position → Position) :
    (between file p q).move mf ml = between file (mf p) (ml q) := rfl

/-- Where a region of a text is when another text stands in front: offsets grow by its length, lines
by its line feeds, and columns on the first line by the length of its last line. -/
def behind (text : List Char) (l : Location) : Location where
  file := l.file
  line := l.line + text.count '\n'
  column :=
    if l.line = 1 then l.column + (text.reverse.takeWhile (· != '\n')).length else l.column
  start := l.start + text.length
  stop := l.stop + text.length
  endLine := l.endLine + text.count '\n'
  endColumn :=
    if l.endLine = 1 then l.endColumn + (text.reverse.takeWhile (· != '\n')).length
    else l.endColumn

theorem behind_between (text : List Char) :
    (between file p q).behind text = between file (p.behind text) (q.behind text) := by
  have hone (n : Nat) : (n : Int) = 1 ↔ n = 1 := by omega
  simp only [behind, between, Position.behind, hone, Int.natCast_add, apply_ite Nat.cast]

end Location
end MessageLang
