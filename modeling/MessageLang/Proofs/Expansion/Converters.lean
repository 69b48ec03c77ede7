import MessageLang.Expansion.Converter
import MessageLang.Proofs.Syntax.Code
/-!
# Converters can be read

Every type that was read has a converter, and it is a tree that could have been read, without
extensions.

* `Converter.isLongName_name`: the name of a converter is a name.
* `TypeExpr.IsReadable.exists_converter`: the converter of a type.
-/
namespace MessageLang

open Terminal

namespace Converter

/-- A name is a path, which is empty or ends in a point, and a word. -/
theorem exists_of_isLongName {n : List Char} (h : IsLongName n) :
    ∃ path base, n = path ++ base ∧ IsRun isLetter isNameChar base ∧
      (path = [] ∨ path.getLast? = some '.') ∧ ∀ w, IsLongName w → IsLongName (path ++ w) := by
  induction h with
  | @word w hw => exact ⟨[], w, rfl, hw, .inl rfl, fun _ h => h⟩
  | @path m n hm hn ih =>
    obtain ⟨path, base, rfl, hb, hpath, hw⟩ := ih
    refine ⟨m ++ '.' :: path, base, by simp, hb, .inr ?_, fun w h => ?_⟩
    · rcases hpath with rfl | hlast
      · rw [List.getLast?_concat]
      · have hne : path ≠ [] := fun h => by simp [h] at hlast
        rw [List.getLast?_append, List.getLast?_cons, hlast]
        rfl
    · rw [List.append_assoc, List.cons_append]
      exact .path hm (hw w h)

theorem ne_point_of_isNameChar {c : Char} (h : isNameChar c = true) : (c != '.') = true := by
  rw [bne_iff_ne]
  intro heq
  subst heq
  exact absurd h (by decide)

/-- The characters of a word. -/
theorem isNameChar_of_isRun {w : List Char} (h : IsRun isLetter isNameChar w) :
    ∀ c ∈ w, isNameChar c = true := by
  obtain ⟨c, body, rfl, hc, hb⟩ := h
  exact List.forall_mem_cons.mpr ⟨isNameChar_of_isLetter hc, hb⟩

section

variable {path base : List Char}

theorem baseOf_append (hb : IsRun isLetter isNameChar base)
    (hp : path = [] ∨ path.getLast? = some '.') : baseOf (path ++ base) = base := by
  have hall : ∀ c ∈ base.reverse, (c != '.') = true := fun c hc =>
    ne_point_of_isNameChar (isNameChar_of_isRun hb c (List.mem_reverse.mp hc))
  have hstop : path.reverse.takeWhile (· != '.') = [] := by
    rcases hp with rfl | hp
    · rfl
    · obtain ⟨rest, rfl⟩ := List.getLast?_eq_some_iff.mp hp
      simp
  rw [baseOf, List.reverse_append, List.takeWhile_append_of_pos hall, hstop, List.append_nil,
    List.reverse_reverse]

theorem pathOf_append (hb : IsRun isLetter isNameChar base)
    (hp : path = [] ∨ path.getLast? = some '.') : pathOf (path ++ base) = path := by
  have hall : ∀ c ∈ base.reverse, (c != '.') = true := fun c hc =>
    ne_point_of_isNameChar (isNameChar_of_isRun hb c (List.mem_reverse.mp hc))
  have hstop : path.reverse.dropWhile (· != '.') = path.reverse := by
    rcases hp with rfl | hp
    · rfl
    · obtain ⟨rest, rfl⟩ := List.getLast?_eq_some_iff.mp hp
      simp
  rw [pathOf, List.reverse_append, List.dropWhile_append_of_pos hall, hstop, List.reverse_reverse]

end

/-- The prefix of the names of converters, in front of a word. -/
theorem isRun_converter {w : List Char} (h : ∀ c ∈ w, isNameChar c = true) :
    IsRun isLetter isNameChar ("sexp_of_".toList ++ w) := by
  have hprefix : ("exp_of_".toList).all isNameChar = true := rfl
  refine .of_all 's' ("exp_of_".toList ++ w) rfl ?_
  rw [List.all_append, hprefix, Bool.true_and]
  exact List.all_eq_true.mpr h

theorem isNameChar_unmarked {base : String} (h : ∀ c ∈ base.toList, isNameChar c = true) :
    ∀ c ∈ (unmarked base).toList, isNameChar c = true := by
  unfold unmarked
  split
  · exact List.all_eq_true.mp rfl
  · split
    · exact List.all_eq_true.mp rfl
    · exact h

theorem isLongName_name {n : String} (h : IsLongName n.toList) : IsLongName (name n).toList := by
  obtain ⟨path, base, hn, hb, hp, hw⟩ := exists_of_isLongName h
  unfold name
  rw [hn, baseOf_append hb hp, pathOf_append hb hp]
  have hbase : ∀ c ∈ (String.ofList base).toList, isNameChar c = true := by
    rw [String.toList_ofList]
    exact isNameChar_of_isRun hb
  simp only [String.toList_append, String.toList_ofList, List.append_assoc]
  refine hw _ (.word (isRun_converter ?_))
  split
  · exact isNameChar_unmarked hbase
  · exact hbase

end Converter

/-- What the code of an extension must be for a tree of names: code that could be read, without
extensions. -/
def Expr.IsConverter (e : Expr) : Prop := e.IsReadable ∧ e.extensions = []

theorem Expr.isConverter_identifier {name : String} (h : IsLongName name.toList)
    (l : Option Location) : (Expr.identifier name l).IsConverter :=
  ⟨.identifier h, rfl⟩

theorem isLabelled_positional {es : List Expr} :
    ∀ a ∈ es.map (Argument.mk .positional), a.IsLabelled := by
  intro a ha
  obtain ⟨e, -, rfl⟩ := List.mem_map.mp ha
  trivial

theorem Expr.isConverter_call {f : Expr} {es : List Expr} {l : Option Location}
    (hf : f.IsConverter) (hne : es ≠ []) (he : ∀ e ∈ es, e.IsConverter) :
    (Expr.call f es l).IsConverter := by
  refine ⟨.apply hf.1 (by simpa using hne) isLabelled_positional fun label e ha => ?_, ?_⟩
  · obtain ⟨e', he', h⟩ := List.mem_map.mp ha
    cases h
    exact (he e he').1
  · rw [Expr.call, Expr.extensions_apply, hf.2, List.nil_append, List.flatMap_map,
      List.flatMap_eq_nil_iff]
    exact fun e h => (he e h).2

theorem Expr.isConverter_list {es : List Expr} {l : Option Location}
    (he : ∀ e ∈ es, e.IsConverter) : (Expr.list es l).IsConverter :=
  ⟨.list fun e h => (he e h).1, by
    rw [Expr.extensions_list, List.flatMap_eq_nil_iff]
    exact fun e h => (he e h).2⟩

theorem isShortTuple_eq_false {ts : List TypeExpr} (h : 2 ≤ ts.length) :
    isShortTuple ts = false := by
  unfold isShortTuple
  rw [decide_eq_false_iff_not]
  omega

/-- Types with converters have converters one by one. -/
theorem exists_typeConverters {ts : List TypeExpr}
    (h : ∀ t ∈ ts, ∃ f, t.converter = .ok f ∧ f.IsConverter) :
    ∃ fs, typeConverters ts = .ok fs ∧ fs.length = ts.length ∧ ∀ f ∈ fs, f.IsConverter := by
  induction ts with
  | nil => exact ⟨[], rfl, rfl, fun _ h => by cases h⟩
  | cons t ts ih =>
    obtain ⟨ht, hts⟩ := List.forall_mem_cons.mp h
    obtain ⟨f, hf, hc⟩ := ht
    obtain ⟨fs, hfs, hlen, hall⟩ := ih hts
    refine ⟨f :: fs, ?_, by simp [hlen], List.forall_mem_cons.mpr ⟨hc, hall⟩⟩
    rw [typeConverters, hf, hfs]
    rfl

/-- Every type that could be read has a converter. -/
theorem TypeExpr.IsReadable.exists_converter {t : TypeExpr} (h : t.IsReadable) :
    ∃ f, t.converter = .ok f ∧ f.IsConverter := by
  induction h with
  | @name name l hn =>
    exact ⟨_, rfl, Expr.isConverter_identifier (Converter.isLongName_name hn) l⟩
  | @applied name t l hn _ ih =>
    have hf := Expr.isConverter_identifier (Converter.isLongName_name hn) l
    obtain ⟨f, ht, hc⟩ := ih
    unfold TypeExpr.converter
    split
    · exact ⟨_, rfl, hf⟩
    · rw [typeConverters, ht]
      exact ⟨_, rfl, Expr.isConverter_call hf (List.cons_ne_nil _ _) (by simpa using hc)⟩
  | @tuple ts l hlen _ ih =>
    obtain ⟨fs, hfs, -, hall⟩ := exists_typeConverters ih
    have hshort := isShortTuple_eq_false hlen
    have htuple : IsLongName Converter.tupleName.toList :=
      .path (.of_all 'C' "onv".toList rfl rfl)
        (.word (.of_all 's' "exp_of_tuple".toList rfl rfl))
    rw [TypeExpr.converter, if_neg (by simp [hshort]), hfs]
    refine ⟨_, rfl, Expr.isConverter_call (Expr.isConverter_identifier htuple l)
      (List.cons_ne_nil _ _) ?_⟩
    intro e he
    rw [List.mem_singleton.mp he]
    exact Expr.isConverter_list hall

end MessageLang
