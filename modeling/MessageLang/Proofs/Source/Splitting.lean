import Mathlib.Data.List.TakeWhile
import MessageLang.Diagnostic.Render
import MessageLang.Proofs.Source.Shifts
/-!
# The lines of a text

A text is its lines with line feeds between them. A place is in the line whose number is the line of
the place, behind as many characters of it as the column says.

* `intercalate_splitLines`, `not_mem_of_mem_splitLines`: what the lines are.
* `exists_splitLines_append`: the line that a place is in, and where it is there.
* `IsLine`: a numbered line of a text.
-/
namespace MessageLang

/-! ## Cutting at line feeds -/

theorem splitLines_eq (text : List Char) : splitLines text = text.splitOn '\n' := by
  induction text with
  | nil => rfl
  | cons c text ih =>
    rw [List.splitOn_eq_splitOnP] at ih ⊢
    rw [List.splitOnP_cons_eq_if_modifyHead, splitLines, ih]
    obtain ⟨line, lines, h⟩ :=
      List.exists_cons_of_ne_nil (List.splitOnP_ne_nil (· == '\n') text)
    rw [h]
    rfl

/-- The lines with line feeds between them are the text. -/
theorem intercalate_splitLines (text : List Char) :
    ['\n'].intercalate (splitLines text) = text := by
  rw [splitLines_eq, List.intercalate_splitOn]

theorem not_mem_of_mem_splitLines {text line : List Char} (h : line ∈ splitLines text) :
    '\n' ∉ line := by
  induction text generalizing line with
  | nil =>
    rw [List.mem_singleton.mp h]
    exact List.not_mem_nil
  | cons c text ih =>
    unfold splitLines at h
    split at h
    · rcases List.mem_cons.mp h with rfl | h
      · exact List.not_mem_nil
      · exact ih h
    · rename_i hc
      have hc : '\n' ≠ c := fun he => hc (beq_iff_eq.mpr he.symm)
      split at h
      · rename_i first lines heq
        rw [heq] at ih
        rcases List.mem_cons.mp h with rfl | h
        · exact List.not_mem_cons_of_ne_of_not_mem hc (ih List.mem_cons_self)
        · exact ih (List.mem_cons_of_mem _ h)
      · rw [List.mem_singleton.mp h]
        exact List.not_mem_cons_of_ne_of_not_mem hc List.not_mem_nil

/-! ## Places in lines -/

/-- What stands in a text behind its last line feed. -/
def lastLine (text : List Char) : List Char := (text.reverse.takeWhile (· != '\n')).reverse

theorem lastLine_of_not_mem {text : List Char} (h : '\n' ∉ text) : lastLine text = text := by
  have hall : ∀ c ∈ text.reverse, (c != '\n') = true := by
    intro c hc
    rw [bne_iff_ne]
    rintro rfl
    exact h (List.mem_reverse.mp hc)
  rw [lastLine, List.takeWhile_eq_self_iff.mpr hall, List.reverse_reverse]

theorem lastLine_cons {c : Char} {text : List Char} (h : '\n' ∈ c :: text) :
    lastLine (c :: text) = lastLine text := by
  rw [lastLine, List.reverse_cons, List.takeWhile_append]
  split
  · rename_i hlen
    have hself := List.IsPrefix.eq_of_length (List.takeWhile_prefix _) hlen
    have hmem : '\n' ∉ text := fun hm => by
      have := List.takeWhile_eq_self_iff.mp hself '\n' (List.mem_reverse.mpr hm)
      cases this
    obtain rfl : '\n' = c := (List.mem_cons.mp h).resolve_right hmem
    rw [lastLine_of_not_mem hmem]
    simp
  · rfl

/-- The first line goes up to the first line feed. -/
theorem exists_splitLines (text : List Char) :
    ∃ after, splitLines text = text.takeWhile (· != '\n') :: after := by
  induction text with
  | nil => exact ⟨[], rfl⟩
  | cons c text ih =>
    obtain ⟨after, ih⟩ := ih
    rw [splitLines, ih, List.takeWhile_cons]
    by_cases hc : c = '\n'
    · exact ⟨text.takeWhile (· != '\n') :: after, by simp [hc]⟩
    · exact ⟨after, by simp [hc]⟩

/-- The line that the end of `text` is in, in front of `rest`: as many lines are before it as there
are line feeds in `text`. -/
theorem exists_splitLines_append (text rest : List Char) :
    ∃ before after, splitLines (text ++ rest) =
        before ++ (lastLine text ++ rest.takeWhile (· != '\n')) :: after ∧
      before.length = text.count '\n' := by
  induction text with
  | nil =>
    obtain ⟨after, h⟩ := exists_splitLines rest
    exact ⟨[], after, h, rfl⟩
  | cons c text ih =>
    obtain ⟨before, after, h, hlen⟩ := ih
    rw [List.cons_append, splitLines, h]
    by_cases hc : c = '\n'
    · have hlast : lastLine (c :: text) = lastLine text := lastLine_cons (by simp [hc])
      exact ⟨[] :: before, after, by simp [hc, ← hlast], by simp [hc, hlen]⟩
    · cases before with
      | nil =>
        have hmem : '\n' ∉ text := List.count_eq_zero.mp hlen.symm
        have hlast : lastLine (c :: text) = c :: lastLine text := by
          rw [lastLine_of_not_mem hmem, lastLine_of_not_mem]
          simp [hmem, Ne.symm hc]
        exact ⟨[], after, by simp [hc, hlast], by simpa [hc] using hlen⟩
      | cons first before =>
        have hmem : '\n' ∈ text := by
          rw [← List.count_pos_iff, ← hlen]
          exact Nat.succ_pos _
        have hlast : lastLine (c :: text) = lastLine text :=
          lastLine_cons (List.mem_cons_of_mem c hmem)
        exact ⟨(c :: first) :: before, after, by simp [hc, hlast], by simpa [hc] using hlen⟩

/-- The line with a number, counted from 1, among the lines that a text consists of. -/
def IsLine (text : List Char) (n : Nat) (line : List Char) : Prop :=
  ∃ before after, text = ['\n'].intercalate (before ++ line :: after) ∧
    (∀ w ∈ before ++ line :: after, '\n' ∉ w) ∧ before.length + 1 = n

section

variable {text line : List Char} {n : Nat}

theorem isLine_of_getElem? (hn : 1 ≤ n) (h : (splitLines text)[n - 1]? = some line) :
    IsLine text n line := by
  obtain ⟨hlt, heq⟩ := List.getElem?_eq_some_iff.mp h
  have hsplit : splitLines text =
      (splitLines text).take (n - 1) ++ line :: (splitLines text).drop (n - 1 + 1) := by
    rw [← heq, ← List.drop_eq_getElem_cons hlt, List.take_append_drop]
  refine ⟨(splitLines text).take (n - 1), (splitLines text).drop (n - 1 + 1), ?_, ?_, ?_⟩
  · rw [← hsplit, intercalate_splitLines]
  · rw [← hsplit]
    exact fun w => not_mem_of_mem_splitLines
  · rw [List.length_take]
    omega

/-- A place is in the line that its line numbers, behind as many characters as its column says. -/
theorem exists_getElem?_lineAt (text : List Char) (i : Nat) :
    ∃ chars, (splitLines text)[lineAt text i - 1]? = some chars ∧
      columnAt text i - 1 ≤ chars.length ∧
      ∀ c, text[i]? = some c → c ≠ '\n' → chars[columnAt text i - 1]? = some c := by
  obtain ⟨before, after, hsplit, hlen⟩ := exists_splitLines_append (text.take i) (text.drop i)
  have hcolumn : columnAt text i - 1 = (lastLine (text.take i)).length := by
    rw [lastLine, List.length_reverse]
    rfl
  have hline : lineAt text i - 1 = before.length := by
    rw [hlen]
    rfl
  rw [List.take_append_drop] at hsplit
  refine ⟨lastLine (text.take i) ++ (text.drop i).takeWhile (· != '\n'), ?_, ?_,
    fun c hc hne => ?_⟩
  · rw [hsplit, hline, List.getElem?_append_right (Nat.le_refl _), Nat.sub_self]
    rfl
  · rw [hcolumn, List.length_append]
    omega
  · obtain ⟨hlt, rfl⟩ := List.getElem?_eq_some_iff.mp hc
    rw [hcolumn, List.getElem?_append_right (Nat.le_refl _), Nat.sub_self,
      List.drop_eq_getElem_cons hlt, List.takeWhile_cons, if_pos (bne_iff_ne.mpr hne)]
    rfl

end
end MessageLang
