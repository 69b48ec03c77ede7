import Mathlib.Logic.Basic
import MessageLang.Proofs.Dump.Words
/-!
# The layout of a dump

A form that is broken into lines is the form on one line, with line breaks and indentation for some
of the blanks and in front of some of the closing parentheses. The lists that are broken are those
that are longer on one line than a line may be: a part that is broken is too long, and so is what it
is a part of.

* `withoutLayout`: a text without its line breaks and indentation.
* `Form.IsTidy`: forms of symbols without line breaks, strings and numbers.
* `Form.LaysOut`: a text is a form but for its layout, and broken exactly if it has to be.
* `Form.IsTidy.laysOut`: so is the text that a tidy form is laid out as.
* `Form.HasPart`, `Form.IsTidy.exists_part`: where a part stands in the form on one line, and that
  its text stands at the same place of the laid out text.
-/
namespace MessageLang

/-! ## Texts without their layout -/

/-- A text without its layout. A line break goes, and the indentation behind it: they leave nothing
in front of a closing parenthesis and a blank elsewhere. -/
def withoutLayout : List Char → List Char
  | [] => []
  | c :: rest =>
    if c = '\n' then
      let next := rest.dropWhile (· = ' ')
      if next.head? = some ')' then withoutLayout next else ' ' :: withoutLayout next
    else c :: withoutLayout rest
termination_by cs => cs.length
decreasing_by
  all_goals
    have := (List.dropWhile_sublist (l := rest) (· = ' ')).length_le
    simp only [List.length_cons]
    omega

/-- Neither a blank nor a closing parenthesis stands in front. -/
def Opens (cs : List Char) : Prop := cs.head? ≠ some ' ' ∧ cs.head? ≠ some ')'

theorem opens_cons {c : Char} {cs : List Char} (h : c ≠ ' ') (h' : c ≠ ')') : Opens (c :: cs) :=
  ⟨by simpa using h, by simpa using h'⟩

/-- A separator leaves a blank between two parts. -/
def SeparatesParts (sep : List Char) : Prop :=
  ∀ ds, Opens ds → withoutLayout (sep ++ ds) = ' ' :: withoutLayout ds

/-- The end of a list leaves its closing parenthesis. -/
def ClosesList (close : List Char) : Prop :=
  ∀ ds, withoutLayout (close ++ ds) = ')' :: withoutLayout ds

section

variable {cs ds : List Char}

@[simp] theorem withoutLayout_nil : withoutLayout [] = [] := by rw [withoutLayout]

theorem withoutLayout_cons {c : Char} (h : c ≠ '\n') :
    withoutLayout (c :: cs) = c :: withoutLayout cs := by
  rw [withoutLayout, if_neg h]

theorem withoutLayout_append (h : '\n' ∉ cs) :
    withoutLayout (cs ++ ds) = cs ++ withoutLayout ds := by
  induction cs with
  | nil => rfl
  | cons c cs ih =>
    obtain ⟨hc, hcs⟩ := List.ne_and_not_mem_of_not_mem_cons h
    rw [List.cons_append, withoutLayout_cons hc.symm, ih hcs, List.cons_append]

/-- What stands behind a line break and indentation. -/
theorem withoutLayout_break {k : Nat} (h : ds.head? ≠ some ' ') :
    withoutLayout ('\n' :: (List.replicate k ' ' ++ ds)) =
      if ds.head? = some ')' then withoutLayout ds else ' ' :: withoutLayout ds := by
  have hnext : (List.replicate k ' ' ++ ds).dropWhile (· = ' ') = ds := by
    rw [List.dropWhile_append_of_pos (by simp)]
    cases ds with
    | nil => rfl
    | cons d ds => exact List.dropWhile_cons_of_neg (by simpa using h)
  rw [withoutLayout, if_pos rfl]
  dsimp only
  rw [hnext]

theorem separatesParts_blank : SeparatesParts [' '] := fun _ _ => withoutLayout_append (by decide)

theorem separatesParts_break (k : Nat) : SeparatesParts ('\n' :: List.replicate k ' ') := by
  intro ds h
  rw [List.cons_append, withoutLayout_break h.1, if_neg h.2]

theorem closesList_parenthesis : ClosesList [')'] := fun _ => withoutLayout_append (by decide)

theorem closesList_break (k : Nat) : ClosesList ('\n' :: (List.replicate k ' ' ++ [')'])) := by
  intro ds
  have hparen : withoutLayout (')' :: ds) = ')' :: withoutLayout ds := closesList_parenthesis ds
  rw [List.cons_append, List.append_assoc, withoutLayout_break (by simp), if_pos (by simp)]
  exact hparen

end

section

variable {α : Type} (sep t : List α)

theorem intercalate_cons (us : List (List α)) :
    sep.intercalate (t :: us) = t ++ us.flatMap (sep ++ ·) := by
  induction us generalizing t with
  | nil => simp [List.intercalate]
  | cons u us ih =>
    have hcons : sep.intercalate (t :: u :: us) = t ++ (sep ++ sep.intercalate (u :: us)) := by
      simp [List.intercalate]
    rw [hcons, ih, List.flatMap_cons, List.append_assoc]

/-- Items with a separator between them, seen from one of them. -/
theorem intercalate_append_cons (ts us : List (List α)) :
    sep.intercalate (ts ++ t :: us) = ts.flatMap (· ++ sep) ++ (t ++ us.flatMap (sep ++ ·)) := by
  induction ts with
  | nil => exact intercalate_cons sep t us
  | cons v ts ih =>
    have hcons : sep.intercalate (v :: (ts ++ t :: us)) =
        v ++ (sep ++ sep.intercalate (ts ++ t :: us)) := by
      cases ts <;> simp [List.intercalate]
    rw [List.cons_append, hcons, ih, List.flatMap_cons, List.append_assoc, List.append_assoc]

end

namespace Form

/-! ## Tidy forms -/

/-- Forms of symbols without line breaks, strings and numbers. -/
inductive IsTidy : Form → Prop where
  | symbol {name : String} : name ≠ "" → '\n' ∉ name.toList → IsTidy (.symbol name)
  | text {t : String} : IsTidy (.text t)
  | integer {n : Int} : IsTidy (.value (.int n))
  | float {x : Double} : IsTidy (.value (.float x))
  | string {t : String} : IsTidy (.value (.str t))
  | items {fs : List Form} : (∀ f ∈ fs, f.IsTidy) → IsTidy (.items fs)

/-- Tidy forms can be written, on one line and broken. -/
theorem IsTidy.isComplete {f : Form} (h : f.IsTidy) : f.isComplete = true ∧
    f.allValues isCompactValue = true ∧ f.allValues isPrettyValue = true := by
  induction h with
  | symbol | text | integer | float | string => exact ⟨rfl, rfl, rfl⟩
  | items _ ih =>
    exact ⟨areComplete_of_forall fun f hf => (ih f hf).1,
      allItemValues_of_forall fun f hf => (ih f hf).2.1,
      allItemValues_of_forall fun f hf => (ih f hf).2.2⟩

/-- A text is a form but for its layout, and broken exactly if the form is a list that is too long
for a line. -/
structure LaysOut (maxLine : Nat) (f : Form) (t : List Char) : Prop where
  opens : ∀ rest, Opens (t ++ rest)
  withoutLayout_append :
    ∀ rest, withoutLayout (t ++ rest) = f.compact.toList ++ withoutLayout rest
  broken_iff : '\n' ∈ t ↔ (∃ fs, f = .items fs) ∧ maxLine < f.compact.length

section

variable {maxLine : Nat} {f : Form} {t : List Char}

theorem LaysOut.withoutLayout_eq (h : f.LaysOut maxLine t) :
    withoutLayout t = f.compact.toList := by
  simpa using h.withoutLayout_append []

/-- What is not broken is the form on one line. -/
theorem LaysOut.eq_compact (h : f.LaysOut maxLine t) (hbreak : '\n' ∉ t) :
    t = f.compact.toList := by
  have hlaid := h.withoutLayout_append []
  rw [MessageLang.withoutLayout_append hbreak] at hlaid
  simpa using hlaid

/-! ## Words -/

/-- A word is not broken. -/
theorem laysOut_word (hf : ∀ fs, f ≠ .items fs) (hbreak : '\n' ∉ f.compact.toList)
    (hopens : ∀ rest, Opens (f.compact.toList ++ rest)) : f.LaysOut maxLine f.compact.toList :=
  ⟨hopens, fun _ => MessageLang.withoutLayout_append hbreak,
    fun h => absurd h hbreak, fun ⟨⟨fs, h⟩, _⟩ => absurd h (hf fs)⟩

theorem laysOut_symbol {name : String} (hne : name ≠ "") (hbreak : '\n' ∉ name.toList) :
    (symbol name).LaysOut maxLine (symbolText name).toList := by
  have hlist : (symbolText name).toList = name.toList.flatMap symbolChar := String.toList_ofList
  refine laysOut_word nofun ?_ fun rest => ?_
  · rw [compact, hlist, List.mem_flatMap]
    rintro ⟨c, hc, hbreak'⟩
    have hself : '\n' = c := by
      unfold symbolChar at hbreak'
      split at hbreak' <;> simpa using hbreak'
    exact hbreak (hself ▸ hc)
  · obtain ⟨c, cs, hcs⟩ := List.exists_cons_of_ne_nil (mt String.toList_eq_nil_iff.mp hne)
    rw [compact, hlist, hcs, List.flatMap_cons, symbolChar]
    split
    · exact opens_cons (by decide) (by decide)
    · rename_i hc
      refine opens_cons (fun h => ?_) (fun h => ?_)
      all_goals
        subst h
        exact absurd rfl hc

theorem laysOut_text {f : Form} {text : String} (hf : ∀ fs, f ≠ .items fs)
    (hcompact : f.compact = quoteText text) : f.LaysOut maxLine (quoteText text).toList := by
  have hescaped : ∀ c, '\n' ∉ textChar c := by
    intro c
    unfold textChar
    split
    case h_8 => simpa using Ne.symm ‹c ≠ '\n'›
    all_goals decide
  rw [← hcompact]
  refine laysOut_word hf ?_ fun rest => ?_
  · rw [hcompact, toList_quoteText]
    simpa using fun c _ => hescaped c
  · rw [hcompact, toList_quoteText]
    exact opens_cons (by decide) (by decide)

theorem laysOut_numeral {v : Value} {text : String} (hcompact : compactValue v = text)
    (h : text ≠ "" ∧ IsNumeralText text) : (value v).LaysOut maxLine text.toList := by
  rw [← hcompact] at h ⊢
  refine laysOut_word nofun h.2.no_break fun rest => ?_
  obtain ⟨c, cs, hcs⟩ := List.exists_cons_of_ne_nil (mt String.toList_eq_nil_iff.mp h.1)
  have hc : isNumeral c = true := h.2 c (hcs ▸ List.mem_cons_self)
  rw [compact, hcs]
  refine opens_cons (fun heq => ?_) (fun heq => ?_)
  all_goals
    subst heq
    revert hc
    decide

end

/-! ## Lists -/

theorem compactItems_eq_map (fs : List Form) : compactItems fs = fs.map compact := by
  induction fs with
  | nil => rfl
  | cons f fs ih => rw [compactItems, ih, List.map_cons]

theorem prettyItems_eq_map (maxLine : Nat) (indent : Int) (fs : List Form) :
    prettyItems maxLine indent fs = fs.map (pretty maxLine indent) := by
  induction fs with
  | nil => rfl
  | cons f fs ih => rw [prettyItems, ih, List.map_cons]

/-- A list of nothing fits on a line. -/
theorem pretty_items {maxLine : Nat} (hmax : 2 ≤ maxLine) (indent : Int) (fs : List Form) :
    (items fs).pretty maxLine indent =
      layOut maxLine indent (fs.map (pretty maxLine (indent + 1))) := by
  cases fs with
  | nil =>
    have hline : "(" ++ " ".intercalate [] ++ ")" = "()" := by decide
    have hlength : "()".length = 2 := by decide
    rw [pretty, List.map_nil, layOut, hline, hlength]
    simp [hmax]
  | cons f fs =>
    rw [pretty, prettyItems_eq_map]
    exact nofun

theorem toList_line (parts : List String) : ("(" ++ " ".intercalate parts ++ ")").toList =
    '(' :: ([' '].intercalate (parts.map String.toList) ++ [')']) := by
  simp [String.toList_intercalate]

theorem toList_compact_items (fs : List Form) : (items fs).compact.toList =
    '(' :: ([' '].intercalate (fs.map fun f => f.compact.toList) ++ [')']) := by
  rw [compact, compactItems_eq_map, toList_line, List.map_map]
  rfl

theorem mem_line {c : Char} (hc : c ≠ ' ' ∧ c ≠ '(' ∧ c ≠ ')') (parts : List String) :
    c ∈ ("(" ++ " ".intercalate parts ++ ")").toList ↔ ∃ part ∈ parts, c ∈ part.toList := by
  rw [toList_line]
  cases parts with
  | nil => simp [hc]
  | cons part parts =>
    rw [List.map_cons, intercalate_cons, List.flatMap_map]
    simp [hc]

/-- A list is laid out with a separator between its parts and an end behind them. -/
theorem toList_layOut (maxLine : Nat) (indent : Int) (parts : List String) :
    ∃ sep close, SeparatesParts sep ∧ ClosesList close ∧ (layOut maxLine indent parts).toList =
      '(' :: (sep.intercalate (parts.map String.toList) ++ close) := by
  unfold layOut
  dsimp only
  split
  · exact ⟨_, _, separatesParts_blank, closesList_parenthesis, toList_line parts⟩
  · refine ⟨_, _, separatesParts_break (2 * (indent + 1)).toNat,
      closesList_break (2 * indent).toNat, ?_⟩
    simp [indentation, String.toList_intercalate]

/-- A list is broken if one of its parts is or if they do not fit on a line together. -/
theorem mem_layOut (maxLine : Nat) (indent : Int) (parts : List String) :
    '\n' ∈ (layOut maxLine indent parts).toList ↔ (∃ part ∈ parts, '\n' ∈ part.toList) ∨
      maxLine < ("(" ++ " ".intercalate parts ++ ")").length := by
  rw [← mem_line (by decide)]
  unfold layOut
  simp only [Bool.and_eq_true, decide_eq_true_eq, Bool.not_eq_true', List.contains_eq_mem,
    decide_eq_false_iff_not]
  split
  · rename_i hfits
    exact ⟨.inl, fun h => h.elim id fun h => absurd h (Nat.not_lt.mpr hfits.1)⟩
  · rename_i hfits
    refine ⟨fun _ => ?_, fun _ => by simp⟩
    by_cases hbreak : '\n' ∈ ("(" ++ " ".intercalate parts ++ ")").toList
    · exact .inl hbreak
    · exact .inr (Nat.lt_of_not_le fun hle => hfits ⟨hle, hbreak⟩)

section

variable {maxLine : Nat} {sep : List Char} {text : Form → String} {fs : List Form}

/-- The parts in front of what is laid out. -/
theorem withoutLayout_front (hsep : SeparatesParts sep)
    (h : ∀ f ∈ fs, f.LaysOut maxLine (text f).toList) {ds : List Char} (hds : Opens ds) :
    withoutLayout ((fs.map fun f => (text f).toList).flatMap (· ++ sep) ++ ds) =
      (fs.map fun f => f.compact.toList).flatMap (· ++ [' ']) ++ withoutLayout ds := by
  suffices Opens ((fs.map fun f => (text f).toList).flatMap (· ++ sep) ++ ds) ∧ _ from this.2
  induction fs with
  | nil => exact ⟨hds, rfl⟩
  | cons f fs ih =>
    obtain ⟨hf, hfs⟩ := List.forall_mem_cons.mp h
    obtain ⟨hopens, hrest⟩ := ih hfs
    simp only [List.map_cons, List.flatMap_cons, List.append_assoc]
    refine ⟨hf.opens _, ?_⟩
    rw [hf.withoutLayout_append, hsep _ hopens, hrest]
    rfl

/-- The parts behind what is laid out. -/
theorem withoutLayout_back (hsep : SeparatesParts sep)
    (h : ∀ f ∈ fs, f.LaysOut maxLine (text f).toList) (ds : List Char) :
    withoutLayout ((fs.map fun f => (text f).toList).flatMap (sep ++ ·) ++ ds) =
      (fs.map fun f => f.compact.toList).flatMap ([' '] ++ ·) ++ withoutLayout ds := by
  induction fs with
  | nil => rfl
  | cons f fs ih =>
    obtain ⟨hf, hfs⟩ := List.forall_mem_cons.mp h
    simp only [List.map_cons, List.flatMap_cons, List.append_assoc]
    rw [hsep _ (hf.opens _), hf.withoutLayout_append, ih hfs]
    rfl

theorem withoutLayout_parts (hsep : SeparatesParts sep)
    (h : ∀ f ∈ fs, f.LaysOut maxLine (text f).toList) (ds : List Char) :
    withoutLayout (sep.intercalate (fs.map fun f => (text f).toList) ++ ds) =
      [' '].intercalate (fs.map fun f => f.compact.toList) ++ withoutLayout ds := by
  cases fs with
  | nil => rfl
  | cons f fs =>
    obtain ⟨hf, hfs⟩ := List.forall_mem_cons.mp h
    rw [List.map_cons, List.map_cons, intercalate_cons, intercalate_cons, List.append_assoc,
      hf.withoutLayout_append, withoutLayout_back hsep hfs, List.append_assoc]

/-- The parts of a list are not longer on one line than the list. -/
theorem length_compact_le {f : Form} (h : f ∈ fs) :
    f.compact.length ≤ (items fs).compact.length := by
  obtain ⟨gs, hs, rfl⟩ := List.append_of_mem h
  have hlist := congrArg List.length (toList_compact_items (gs ++ f :: hs))
  rw [List.map_append, List.map_cons, intercalate_append_cons] at hlist
  simp only [String.length_toList, List.length_cons, List.length_append] at hlist
  omega

end

/-- A list of parts that are laid out. -/
theorem laysOut_items {maxLine : Nat} {indent : Int} {fs : List Form} (hmax : 2 ≤ maxLine)
    (h : ∀ f ∈ fs, f.LaysOut maxLine (f.pretty maxLine (indent + 1)).toList) :
    (items fs).LaysOut maxLine ((items fs).pretty maxLine indent).toList := by
  rw [pretty_items hmax]
  obtain ⟨sep, close, hsep, hclose, hlist⟩ :=
    toList_layOut maxLine indent (fs.map (pretty maxLine (indent + 1)))
  refine ⟨fun rest => ?_, fun rest => ?_, ?_⟩
  · rw [hlist]
    exact opens_cons (by decide) (by decide)
  · rw [hlist, List.map_map, toList_compact_items, List.cons_append,
      withoutLayout_cons (by decide), List.append_assoc]
    have hparts := withoutLayout_parts hsep h (close ++ rest)
    rw [hclose] at hparts
    simpa [Function.comp_def] using hparts
  · have hmap : (∃ part ∈ fs.map (pretty maxLine (indent + 1)), '\n' ∈ part.toList) ↔
        ∃ f ∈ fs, '\n' ∈ (f.pretty maxLine (indent + 1)).toList := by simp
    rw [mem_layOut, hmap]
    by_cases hbroken : ∃ f ∈ fs, '\n' ∈ (f.pretty maxLine (indent + 1)).toList
    · -- A broken part is too long for a line, and so is the list.
      obtain ⟨f, hf, hbreak⟩ := hbroken
      have hlong := Nat.lt_of_lt_of_le ((h f hf).broken_iff.mp hbreak).2 (length_compact_le hf)
      exact ⟨fun _ => ⟨⟨fs, rfl⟩, hlong⟩, fun _ => .inl ⟨f, hf, hbreak⟩⟩
    · have hsame : fs.map (pretty maxLine (indent + 1)) = compactItems fs := by
        rw [compactItems_eq_map]
        refine List.map_congr_left fun f hf => String.toList_inj.mp ?_
        exact (h f hf).eq_compact fun hbreak => hbroken ⟨f, hf, hbreak⟩
      rw [hsame, ← compact]
      exact ⟨fun hlong => ⟨⟨fs, rfl⟩, hlong.resolve_left hbroken⟩, fun hlong => .inr hlong.2⟩

/-- A tidy form is laid out. -/
theorem IsTidy.laysOut {maxLine : Nat} (hmax : 2 ≤ maxLine) {f : Form} (h : f.IsTidy)
    (indent : Int) : f.LaysOut maxLine (f.pretty maxLine indent).toList := by
  induction h generalizing indent with
  | symbol hne hbreak => exact laysOut_symbol hne hbreak
  | text | string => exact laysOut_text nofun rfl
  | integer => exact laysOut_numeral rfl (isNumeralText_decimalInt _)
  | float => exact laysOut_numeral rfl (isNumeralText_toText _)
  | items _ ih => exact laysOut_items hmax fun f hf => ih f hf _

/-! ## Parts of forms -/

/-- `f.HasPart before g after`: on one line, the form `f` has the form `g` between the texts
`before` and `after`. -/
inductive HasPart : Form → List Char → Form → List Char → Prop where
  | self {f : Form} : HasPart f [] f []
  | item {fs gs : List Form} {f g : Form} {before after : List Char} :
    HasPart f before g after →
    HasPart (.items (fs ++ f :: gs))
      ('(' :: ((fs.map fun f => f.compact.toList).flatMap (· ++ [' ']) ++ before)) g
      (after ++ ((gs.map fun f => f.compact.toList).flatMap ([' '] ++ ·) ++ [')']))

theorem HasPart.compact_eq {f g : Form} {before after : List Char} (h : f.HasPart before g after) :
    f.compact.toList = before ++ g.compact.toList ++ after := by
  induction h with
  | self => simp
  | item _ ih =>
    rw [toList_compact_items, List.map_append, List.map_cons, intercalate_append_cons, ih]
    simp

/-- The text of each part of a tidy form stands in the text of the form, between what stands around
it on one line, with a layout. -/
theorem IsTidy.exists_part {maxLine : Nat} (hmax : 2 ≤ maxLine) {f g : Form}
    {before after : List Char} (h : f.IsTidy) (hpart : f.HasPart before g after) (indent : Int) :
    ∃ above text below, (f.pretty maxLine indent).toList = above ++ text ++ below ∧
      Opens above ∧ withoutLayout above = before ∧ g.LaysOut maxLine text ∧
      ∀ rest, withoutLayout (below ++ rest) = after ++ withoutLayout rest := by
  induction hpart generalizing indent with
  | self =>
    exact ⟨[], _, [], by simp, ⟨nofun, nofun⟩, withoutLayout_nil, h.laysOut hmax indent,
      fun _ => rfl⟩
  | @item fs gs f g before after _ ih =>
    obtain ⟨hfs, hf, hgs⟩ : (∀ x ∈ fs, x.IsTidy) ∧ f.IsTidy ∧ ∀ x ∈ gs, x.IsTidy := by
      cases h with
      | items h =>
        obtain ⟨hfs, hrest⟩ := List.forall_mem_append.mp h
        exact ⟨hfs, List.forall_mem_cons.mp hrest⟩
    obtain ⟨above, text, below, htext, hopens, habove, hlaid, hbelow⟩ := ih hf (indent + 1)
    obtain ⟨sep, close, hsep, hclose, hlist⟩ :=
      toList_layOut maxLine indent ((fs ++ f :: gs).map (pretty maxLine (indent + 1)))
    let texts (fs : List Form) := fs.map fun f => (f.pretty maxLine (indent + 1)).toList
    refine ⟨'(' :: ((texts fs).flatMap (· ++ sep) ++ above), text,
      below ++ ((texts gs).flatMap (sep ++ ·) ++ close), ?_, opens_cons (by decide) (by decide),
      ?_, hlaid, fun rest => ?_⟩
    · rw [pretty_items hmax, hlist, List.map_map, List.map_append, List.map_cons,
        intercalate_append_cons, Function.comp_apply, htext]
      simp [texts, Function.comp_def]
    · rw [withoutLayout_cons (by decide),
        withoutLayout_front hsep (fun x hx => (hfs x hx).laysOut hmax _) hopens, habove]
    · rw [List.append_assoc, List.append_assoc, hbelow,
        withoutLayout_back hsep (fun x hx => (hgs x hx).laysOut hmax _), hclose]
      simp

end Form
end MessageLang
