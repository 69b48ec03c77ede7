import MessageLang.Source.Location
/-!
# Lines and columns

The line and the column of an offset in a text, both counted from 1. Only a line feed starts a new
line.

* `lineAt`, `columnAt`, `positionAt`: where an offset is, by the text before it.
* `advance_positionAt`: reading on leads from one place of a text to another.
* `IsPiece`: what lies between two places.
-/
namespace MessageLang

/-- The line of an offset: one more than there are line feeds before it. -/
def lineAt (text : List Char) (i : Nat) : Nat := (text.take i).count '\n' + 1

/-- The column of an offset: one more than there are characters between it and the last line feed
before it. -/
def columnAt (text : List Char) (i : Nat) : Nat :=
  ((text.take i).reverse.takeWhile (· != '\n')).length + 1

def positionAt (text : List Char) (i : Nat) : Position := ⟨i, lineAt text i, columnAt text i⟩

@[simp] theorem positionAt_offset (text : List Char) (i : Nat) :
    (positionAt text i).offset = i := rfl

theorem positionAt_zero (text : List Char) : positionAt text 0 = .start := rfl

section

variable (pre : List Char) (c : Char) (post : List Char)

theorem take_length_succ : (pre ++ c :: post).take (pre.length + 1) = pre ++ [c] := by
  have h : pre ++ c :: post = (pre ++ [c]) ++ post := by simp
  have hlen : pre.length + 1 = (pre ++ [c]).length := by simp
  rw [h, hlen, List.take_left]

/-- One more character leads to the next offset. -/
theorem next_positionAt :
    (positionAt (pre ++ c :: post) pre.length).next c =
      positionAt (pre ++ c :: post) (pre.length + 1) := by
  unfold Position.next positionAt lineAt columnAt
  rw [take_length_succ, List.take_left]
  by_cases hc : c = '\n'
  · simp [hc]
  · simp [hc, List.count_append]

end

/-- Reading `w` leads from the offset in front of it to the one behind it. -/
theorem advance_positionAt (pre w post : List Char) :
    (positionAt (pre ++ w ++ post) pre.length).advance w =
      positionAt (pre ++ w ++ post) (pre.length + w.length) := by
  induction w generalizing pre with
  | nil => rfl
  | cons c w ih =>
    have htext : pre ++ c :: w ++ post = pre ++ [c] ++ w ++ post := by simp
    have hnext : (positionAt (pre ++ c :: w ++ post) pre.length).next c =
        positionAt (pre ++ c :: w ++ post) (pre.length + 1) := by
      simpa using next_positionAt pre c (w ++ post)
    have hlen : (pre ++ [c]).length = pre.length + 1 := by simp
    calc (positionAt (pre ++ c :: w ++ post) pre.length).advance (c :: w)
        = ((positionAt (pre ++ c :: w ++ post) pre.length).next c).advance w := rfl
      _ = (positionAt (pre ++ [c] ++ w ++ post) (pre ++ [c]).length).advance w := by
          rw [hnext, htext, hlen]
      _ = positionAt (pre ++ [c] ++ w ++ post) ((pre ++ [c]).length + w.length) := ih _
      _ = positionAt (pre ++ c :: w ++ post) (pre.length + (c :: w).length) := by
          rw [htext, hlen, List.length_cons, Nat.add_assoc, Nat.add_comm 1]

/-- A place of a text, its end included. -/
def IsPlace (text : List Char) (p : Position) : Prop :=
  p = positionAt text p.offset ∧ p.offset ≤ text.length

theorem isPlace_positionAt {text : List Char} {i : Nat} (h : i ≤ text.length) :
    IsPlace text (positionAt text i) :=
  ⟨rfl, h⟩

/-- From one place of a text to a later one. -/
structure IsPiece (text : List Char) (p q : Position) : Prop where
  first : IsPlace text p
  last : IsPlace text q
  lt : p.offset < q.offset

theorem IsPiece.trans {text : List Char} {p q p' q' : Position} (h : IsPiece text p q)
    (hle : q.offset ≤ p'.offset) (h' : IsPiece text p' q') : IsPiece text p q' where
  first := h.first
  last := h'.last
  lt := by
    have := h.lt
    have := h'.lt
    omega

end MessageLang
