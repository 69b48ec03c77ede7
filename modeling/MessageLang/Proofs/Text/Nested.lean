import MessageLang.Proofs.Grammar.Lexeme
/-!
# Nested lists of words

S-expressions and dumps of trees are written in the same way: as words in parentheses, with a single
space between each two. A word is bare or stands between double quotes. Such a text can be taken
apart in one way only, whatever follows it.

* `IsPrefixCode`: characters that are written one by one and can be told from what follows them.
* `Nested.text`: how nested words are written.
* `Nested.IsWord`, `Nested.IsWritten`: the words that can be told from what follows them.
* `IsWord.eq_of_append`, `IsWritten.eq_of_text_append`: a word, a nested list at the head of a text.
-/
namespace MessageLang

/-! ## Texts written character by character -/

/-- Codes of characters that can be told from what follows them. -/
def IsPrefixCode (code : Char → List Char) : Prop :=
  ∀ c d u v, code c ++ u = code d ++ v → c = d ∧ u = v

section

variable {code : Char → List Char}

/-- An empty code could be read as that of any other character. -/
theorem IsPrefixCode.ne_nil (h : IsPrefixCode code) (c : Char) : code c ≠ [] := by
  intro hnil
  have heq (d : Char) : c = d := (h c d (code d) [] (by rw [hnil, List.append_nil]; rfl)).1
  exact absurd ((heq 'a').symm.trans (heq 'b')) (by decide)

/-- Texts that are written the same are the same. -/
theorem IsPrefixCode.flatMap_injective (h : IsPrefixCode code) {cs ds : List Char}
    (heq : cs.flatMap code = ds.flatMap code) : cs = ds := by
  induction cs generalizing ds with
  | nil =>
    cases ds with
    | nil => rfl
    | cons d ds =>
      rw [List.flatMap_nil, List.flatMap_cons] at heq
      exact absurd (List.append_eq_nil_iff.mp heq.symm).1 (h.ne_nil d)
  | cons c cs ih =>
    cases ds with
    | nil =>
      rw [List.flatMap_nil, List.flatMap_cons] at heq
      exact absurd (List.append_eq_nil_iff.mp heq).1 (h.ne_nil c)
    | cons d ds =>
      rw [List.flatMap_cons, List.flatMap_cons] at heq
      obtain ⟨rfl, hrest⟩ := h _ _ _ _ heq
      rw [ih hrest]

end

/-! ## Nested words -/

/-- A word, as it is written, or a list of such. -/
inductive Nested where
  | word (text : List Char)
  | items (parts : List Nested)

namespace Nested

mutual
def text : Nested → List Char
  | .word w => w
  | .items parts => '(' :: ([' '].intercalate (texts parts) ++ [')'])

def texts : List Nested → List (List Char)
  | [] => []
  | a :: rest => a.text :: texts rest
end

/-! ## Words -/

/-- A character that neither ends a bare word nor starts anything else. -/
def isBare (c : Char) : Bool := c != ' ' && c != '(' && c != ')' && c != '"'

/-- A bare word, or a text between double quotes. -/
def IsWord (w : List Char) : Prop :=
  (w ≠ [] ∧ ∀ c ∈ w, isBare c = true) ∨ ∃ r, w = '"' :: r ∧ Terminal.IsStringRest r

/-- What may stand behind a word. -/
def EndsWord (u : List Char) : Prop := ∀ c, u.head? = some c → isBare c = false

theorem endsWord_cons {c : Char} (h : isBare c = false) (u : List Char) : EndsWord (c :: u) :=
  fun _ hd => Option.some.inj hd ▸ h

variable {w w' u v : List Char}

/-- A word starts as no list does and no list goes on. -/
theorem IsWord.exists_head (h : IsWord w) :
    ∃ c rest, w = c :: rest ∧ c ≠ '(' ∧ c ≠ ')' ∧ c ≠ ' ' := by
  rcases h with ⟨hne, hbare⟩ | ⟨r, rfl, -⟩
  · obtain ⟨c, rest, rfl⟩ := List.exists_cons_of_ne_nil hne
    have hc := hbare c List.mem_cons_self
    simp only [isBare, Bool.and_eq_true, bne_iff_ne] at hc
    obtain ⟨⟨⟨hspace, hopen⟩, hclose⟩, -⟩ := hc
    exact ⟨c, rest, rfl, hopen, hclose, hspace⟩
  · exact ⟨'"', r, rfl, by decide, by decide, by decide⟩

/-- A bare word reaches as far as there are bare characters. -/
theorem takeWhile_isBare (h : ∀ c ∈ w, isBare c = true) (hu : EndsWord u) :
    (w ++ u).takeWhile isBare = w :=
  Terminal.takeWhile_append_stop h hu

/-- A word and what follows it can be told apart. -/
theorem IsWord.eq_of_append (hw : IsWord w) (hw' : IsWord w') (hu : EndsWord u) (hv : EndsWord v)
    (h : w ++ u = w' ++ v) : w = w' ∧ u = v := by
  have quoted_ne_bare {x y r s : List Char} (hne : x ≠ []) (hx : ∀ c ∈ x, isBare c = true) :
      x ++ y ≠ '"' :: r ++ s := by
    intro heq
    obtain ⟨c, rest, rfl⟩ := List.exists_cons_of_ne_nil hne
    have hc : c = '"' := (List.cons.inj heq).1
    rw [hc] at hx
    exact absurd (hx _ List.mem_cons_self) (by decide)
  rcases hw with ⟨hne, hbare⟩ | ⟨r, rfl, hr⟩ <;> rcases hw' with ⟨hne', hbare'⟩ | ⟨r', rfl, hr'⟩
  · have hww : w = w' := by
      rw [← takeWhile_isBare hbare hu, ← takeWhile_isBare hbare' hv, h]
    subst hww
    exact ⟨rfl, List.append_cancel_left h⟩
  · exact absurd h (quoted_ne_bare hne hbare)
  · exact absurd h.symm (quoted_ne_bare hne' hbare')
  · have hrest : r ++ u = r' ++ v := (List.cons.inj h).2
    have hlen : r.length = r'.length := by
      rw [← hr.width_append u, ← hr'.width_append v, hrest]
    obtain ⟨rfl, rfl⟩ := List.append_inj hrest hlen
    exact ⟨rfl, rfl⟩

/-! ## Lists -/

/-- Nested lists of words that can be told from what follows them. -/
inductive IsWritten : Nested → Prop where
  | word {w : List Char} : IsWord w → IsWritten (.word w)
  | items {parts : List Nested} : (∀ a ∈ parts, a.IsWritten) → IsWritten (.items parts)

theorem IsWritten.exists_head {a : Nested} (h : a.IsWritten) :
    ∃ c rest, a.text = c :: rest ∧ c ≠ ')' ∧ c ≠ ' ' := by
  cases h with
  | word hw =>
    obtain ⟨c, rest, rfl, -, hclose, hspace⟩ := hw.exists_head
    exact ⟨c, rest, rfl, hclose, hspace⟩
  | items => exact ⟨'(', _, rfl, by decide, by decide⟩

/-- What stands behind a part of a list: the other parts, and what follows the list. -/
def behindPart (rest : List Nested) (u : List Char) : List Char :=
  match rest with
  | [] => ')' :: u
  | a :: rest => ' ' :: ([' '].intercalate (texts (a :: rest)) ++ ')' :: u)

theorem intercalate_texts_cons (a : Nested) (rest : List Nested) (u : List Char) :
    [' '].intercalate (texts (a :: rest)) ++ ')' :: u = a.text ++ behindPart rest u := by
  cases rest with
  | nil => rw [texts, texts, List.intercalate_singleton, behindPart]
  | cons b rest =>
    rw [texts, texts, List.intercalate_cons_cons, ← texts, behindPart]
    simp only [List.append_assoc, List.cons_append, List.nil_append]

theorem endsWord_behindPart (rest : List Nested) (u : List Char) :
    EndsWord (behindPart rest u) := by
  cases rest with
  | nil => exact endsWord_cons (by decide) _
  | cons a rest => exact endsWord_cons (by decide) _

/-- A nested list and what follows it can be told apart. -/
def IsTold (a : Nested) : Prop :=
  ∀ b u v, b.IsWritten → EndsWord u → EndsWord v → a.text ++ u = b.text ++ v → a = b ∧ u = v

/-- The parts of a list, up to its end. -/
theorem eq_of_parts_append {as bs : List Nested} (has : ∀ a ∈ as, a.IsWritten ∧ a.IsTold)
    (hbs : ∀ b ∈ bs, b.IsWritten)
    (h : [' '].intercalate (texts as) ++ ')' :: u = [' '].intercalate (texts bs) ++ ')' :: v) :
    as = bs ∧ u = v := by
  -- a part does not start as a list ends
  have ends_ne {x y : List Char} {a : Nested} {rest : List Nested} (ha : a.IsWritten) :
      ')' :: x ≠ [' '].intercalate (texts (a :: rest)) ++ ')' :: y := by
    intro heq
    obtain ⟨c, tail, hc, hclose, -⟩ := ha.exists_head
    rw [intercalate_texts_cons, hc] at heq
    exact hclose (List.cons.inj heq).1.symm
  induction as generalizing bs with
  | nil =>
    cases bs with
    | nil => exact ⟨rfl, (List.cons.inj h).2⟩
    | cons b bs => exact absurd h (ends_ne (hbs b List.mem_cons_self))
  | cons a as ih =>
    obtain ⟨⟨ha, htold⟩, has⟩ := List.forall_mem_cons.mp has
    cases bs with
    | nil => exact absurd h.symm (ends_ne ha)
    | cons b bs =>
      obtain ⟨hb, hbs'⟩ := List.forall_mem_cons.mp hbs
      rw [intercalate_texts_cons, intercalate_texts_cons] at h
      obtain ⟨rfl, hrest⟩ :=
        htold b _ _ hb (endsWord_behindPart as u) (endsWord_behindPart bs v) h
      cases as with
      | nil =>
        cases bs with
        | nil => exact ⟨rfl, (List.cons.inj hrest).2⟩
        | cons => exact absurd (List.cons.inj hrest).1 (by decide)
      | cons =>
        cases bs with
        | nil => exact absurd (List.cons.inj hrest).1 (by decide)
        | cons =>
          obtain ⟨hparts, huv⟩ := ih has hbs' (List.cons.inj hrest).2
          exact ⟨congrArg (a :: ·) hparts, huv⟩

theorem IsWritten.isTold {a : Nested} (h : a.IsWritten) : a.IsTold := by
  induction h with
  | word hw =>
    intro b u v hb hu hv heq
    cases hb with
    | word hw' =>
      obtain ⟨rfl, rfl⟩ := hw.eq_of_append hw' hu hv heq
      exact ⟨rfl, rfl⟩
    | items =>
      obtain ⟨c, rest, rfl, hopen, -⟩ := hw.exists_head
      exact absurd (List.cons.inj heq).1 hopen
  | items has ih =>
    intro b u v hb hu hv heq
    cases hb with
    | word hw' =>
      obtain ⟨c, rest, rfl, hopen, -⟩ := hw'.exists_head
      exact absurd (List.cons.inj heq).1.symm hopen
    | items hbs =>
      rw [text, text, List.cons_append, List.cons_append, List.append_assoc,
        List.append_assoc] at heq
      obtain ⟨rfl, rfl⟩ :=
        eq_of_parts_append (fun a ha => ⟨has a ha, ih a ha⟩) hbs (List.cons.inj heq).2
      exact ⟨rfl, rfl⟩

/-- Nested lists with the same text are the same. -/
theorem IsWritten.eq_of_text {a b : Nested} (ha : a.IsWritten) (hb : b.IsWritten)
    (h : a.text = b.text) : a = b := by
  have hnil : EndsWord [] := fun _ h => nomatch h
  exact (ha.isTold b [] [] hb hnil hnil (by rw [h])).1

end Nested
end MessageLang
