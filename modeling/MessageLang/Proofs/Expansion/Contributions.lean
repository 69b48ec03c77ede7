import MessageLang.Expansion.Message
import MessageLang.Proofs.Expansion.Converters
import MessageLang.Proofs.Syntax.Printable
/-!
# What the arguments of a message contribute

* `Expr.Contributes e item`: what the expression of an argument contributes, by the kind of the
  expression.
* `Argument.IsReadable.contribution_cases`: what an argument contributes, and why it may not.
* `Omittable.IsCode`: contributions whose code is as expansions have it.
-/
namespace MessageLang

/-! ## The code of contributions -/

/-- A function that puts code around an expression, without extensions of its own. -/
structure IsWrapper (wrap : Expr → Expr) : Prop where
  isCode : ∀ {inArm : Bool} {x : Expr}, x.IsCode inArm → (wrap x).IsCode inArm
  extensions : ∀ x, (wrap x).extensions = x.extensions

theorem IsWrapper.comp {f g : Expr → Expr} (hf : IsWrapper f) (hg : IsWrapper g) :
    IsWrapper fun x => f (g x) :=
  ⟨fun h => hf.isCode (hg.isCode h), fun x => by rw [hf.extensions, hg.extensions]⟩

/-- The name of a function of a module, both of letters. -/
theorem isLongName_member {m n : List Char} (hm : Terminal.IsRun Char.isUpper Terminal.isNameChar m)
    (hn : Terminal.IsRun Terminal.isLetter Terminal.isNameChar n) :
    Terminal.IsLongName (m ++ '.' :: n) :=
  .path hm (.word hn)

theorem isLongName_atom : Terminal.IsLongName "Sexp.Atom".toList :=
  isLongName_member (.of_all 'S' "exp".toList rfl rfl)
    (.of_all 'A' "tom".toList rfl rfl)

theorem isLongName_list : Terminal.IsLongName "Sexp.List".toList :=
  isLongName_member (.of_all 'S' "exp".toList rfl rfl)
    (.of_all 'L' "ist".toList rfl rfl)

/-- The name of the converter of a kind of constants. -/
theorem isLongName_constantConverter (k : LiteralKind) :
    Terminal.IsLongName ("Conv.sexp_of_" ++ k.name).toList := by
  have hname : ∀ c ∈ k.name.toList, Terminal.isNameChar c = true := by
    rcases k with ⟨_ | _ | _ | _⟩ | _ | _ | _ <;> exact List.all_eq_true.mp rfl
  rw [String.toList_append]
  exact isLongName_member (.of_all 'C' "onv".toList rfl rfl)
    (Converter.isRun_converter hname)

theorem isLongName_stringConverter : Terminal.IsLongName "Conv.sexp_of_string".toList :=
  isLongName_constantConverter .string

section

variable {inArm : Bool} {x : Expr} {l : Option Location}

theorem isCode_atom (h : x.IsCode inArm) : (Code.atom l x).IsCode inArm :=
  .call (.identifier isLongName_atom) (List.cons_ne_nil _ _) (by simpa using h)

theorem isCode_list (h : x.IsCode inArm) : (Code.list l x).IsCode inArm :=
  .call (.identifier isLongName_list) (List.cons_ne_nil _ _) (by simpa using h)

@[simp] theorem Expr.extensions_call (f : Expr) (es : List Expr) :
    (Expr.call f es l).extensions = f.extensions ++ es.flatMap Expr.extensions := by
  rw [Expr.call, Expr.extensions_apply, List.flatMap_map]
  rfl

@[simp] theorem extensions_atom : (Code.atom l x).extensions = x.extensions := by
  simp [Code.atom]

@[simp] theorem extensions_list : (Code.list l x).extensions = x.extensions := by
  simp [Code.list]

end

/-- A tag is put in front without harm. -/
theorem isWrapper_tagged (l : Option Location) (tag : String) :
    IsWrapper (Code.tagged l (some tag)) := by
  refine ⟨fun {inArm x} h => ?_, fun x => ?_⟩
  · have htag : (Expr.constant (.ofString tag l)).IsCode inArm := .constant .string
    exact isCode_list (.list (List.forall_mem_cons.mpr ⟨isCode_atom htag, by simpa using h⟩))
  · simp [Code.tagged, Code.inlined]

theorem Expr.IsConverter.isWrapper {f : Expr} (h : f.IsConverter) (l : Option Location) :
    IsWrapper fun x => .call f [x] l :=
  ⟨fun hx => .call h.1.isCode (List.cons_ne_nil _ _) (by simpa using hx), fun x => by
    simp [h.2]⟩

namespace Omittable

def IsCode (inArm : Bool) : Omittable → Prop
  | present e => e.IsCode inArm
  | optional _ e wrap => e.IsCode inArm ∧ IsWrapper wrap
  | absent => True

/-- The extensions in what is contributed. -/
def extensions : Omittable → List Expr
  | present e => e.extensions
  | optional _ e _ => e.extensions
  | absent => []

theorem IsCode.map {inArm : Bool} {item : Omittable} {f : Expr → Expr} (hf : IsWrapper f)
    (h : item.IsCode inArm) : (item.map f).IsCode inArm := by
  cases item with
  | present e => exact hf.isCode h
  | optional l e wrap => exact ⟨h.1, hf.comp h.2⟩
  | absent => trivial

theorem extensions_map {item : Omittable} {f : Expr → Expr} (hf : IsWrapper f) :
    (item.map f).extensions = item.extensions := by
  cases item with
  | present e => exact hf.extensions e
  | optional l e wrap => rfl
  | absent => rfl

end Omittable

theorem IsWrapper.isCode_present {f : Expr → Expr} (hf : IsWrapper f) {inArm : Bool} {x : Expr}
    (hx : x.IsCode inArm) : (Omittable.present (f x)).IsCode inArm ∧
      (Omittable.present (f x)).extensions.Sublist x.extensions := by
  have he : (Omittable.present (f x)).extensions = x.extensions := hf.extensions x
  exact ⟨hf.isCode hx, he ▸ List.Sublist.refl _⟩

/-! ## The contributions of expressions -/

/-- What an expression contributes, not yet tagged. -/
inductive Expr.Contributes : Expr → Omittable → Prop where
  | here {l : Location} : Contributes (.extension "here" none (some l)) (.present
      (.call (.identifier "Conv.sexp_of_string" (some l))
        [.constant (.ofString l.positionText (some l))] (some l)))
  | empty {c : Constant} : c.isEmptyString = true → Contributes (.constant c) .absent
  | constant {c : Constant} {k : LiteralKind} : c.isEmptyString = false → c.kind = some k →
    Contributes (.constant c) (.present
      (.call (.identifier ("Conv.sexp_of_" ++ k.name) c.location) [.constant c] c.location))
  | optional {e f : Expr} {t : TypeExpr} {l l' : Option Location} : t.converter = .ok f →
    Contributes (.constraint e (.named Converter.optionType [t] l') l)
      (.optional l e fun v => .call f [v] l)
  | annotated {e f : Expr} {t : TypeExpr} {l : Option Location} : t.optional? = none →
    t.converter = .ok f → Contributes (.constraint e t l) (.present (.call f [e] l))
  | text {e : Expr} : (∀ c, e ≠ .constant c) → (∀ e' t l, e ≠ .constraint e' t l) →
    (∀ l, e ≠ .extension "here" none l) →
    Contributes e (.present (.call (.identifier "Conv.sexp_of_string" e.location) [e] e.location))

theorem Constant.IsLiteral.exists_kind {c : Constant} (h : c.IsLiteral) :
    ∃ k, c.kind = some k := by
  cases h with
  | integer _ hc =>
    obtain ⟨kind, n, he, -⟩ := Literal.integer_ok hc
    exact ⟨.integer kind, by rw [he]⟩
  | float => exact ⟨.float, rfl⟩
  | string => exact ⟨.string, rfl⟩
  | char => exact ⟨.char, rfl⟩

/-- A place is not the empty text. -/
theorem Location.isEmptyString_positionText (l : Location) (l' : Option Location) :
    (Constant.ofString l.positionText l').isEmptyString = false := by
  show l.positionText.isEmpty = false
  rw [Bool.eq_false_iff]
  intro h
  have hlen := congrArg String.length (String.isEmpty_iff.mp h)
  simp [Location.positionText, String.length_append] at hlen

theorem TypeExpr.exists_of_optional? {t u : TypeExpr} (h : t.optional? = some u) :
    ∃ l, t = .named Converter.optionType [u] l := by
  unfold TypeExpr.optional? at h
  split at h
  · rename_i name t' l
    split at h
    · rename_i hn
      cases h
      exact ⟨l, by rw [beq_iff_eq.mp hn]⟩
    · cases h
  · cases h

/-- Only `[%here]` is replaced by its place. -/
theorem Expr.placed_eq_self {e : Expr} {conventions : Conventions}
    (hh : ∀ l, e ≠ .extension "here" none l) : e.placed conventions = .ok e := by
  unfold Expr.placed
  split
  · rename_i l
    exact absurd rfl (hh l)
  · rfl

/-- What is no constant, annotation or place contributes itself as a string. -/
theorem Expr.contribution_of_text {e : Expr} {conventions : Conventions}
    (hn : ∀ n, e ≠ .other n) (hc : ∀ c, e ≠ .constant c) (ht : ∀ e' t l, e ≠ .constraint e' t l)
    (hh : ∀ l, e ≠ .extension "here" none l) :
    e.contribution conventions =
      .ok (.present (.call (.identifier "Conv.sexp_of_string" e.location) [e] e.location)) := by
  unfold Expr.contribution
  rw [Expr.placed_eq_self hh]
  simp only [bind, Except.bind]
  split
  · exact absurd rfl (hn _)
  · exact absurd rfl (hc _)
  · exact absurd rfl (ht _ _ _)
  · rfl

/-- The place of `[%here]` is converted as the string that it is. -/
theorem Expr.contribution_here (l : Location) :
    (Expr.extension "here" none (some l)).contribution .standard = .ok (.present
      (.call (.identifier "Conv.sexp_of_string" (some l))
        [.constant (.ofString l.positionText (some l))] (some l))) := by
  have hplaced : (Expr.extension "here" none (some l)).placed .standard =
      .ok (.constant (.ofString l.positionText (some l))) := rfl
  unfold Expr.contribution
  rw [hplaced]
  simp only [bind, Except.bind, l.isEmptyString_positionText, Bool.false_eq_true, if_false]
  rfl

section

variable {e : Expr} {t u : TypeExpr} {f : Expr} {l : Option Location}

theorem annotated_of_optional? (ho : t.optional? = some u) (hf : u.converter = .ok f) :
    annotated .standard l e t = .ok (.optional l e fun v => .call f [v] l) := by
  have hu : Conventions.standard.converter u = .ok f := hf
  unfold annotated
  rw [ho]
  simp only [hu]
  rfl

theorem annotated_of_optional?_eq_none (ho : t.optional? = none) (hf : t.converter = .ok f) :
    annotated .standard l e t = .ok (.present (.call f [e] l)) := by
  have ht : Conventions.standard.converter t = .ok f := hf
  unfold annotated
  rw [ho]
  simp only [ht]
  rfl

end

/-- Every expression that could be read contributes something. -/
theorem Expr.IsReadable.exists_contribution {e : Expr} (h : e.IsReadable) :
    ∃ item, e.contribution .standard = .ok item ∧ e.Contributes item := by
  by_cases hc : ∃ c, e = .constant c
  · obtain ⟨c, rfl⟩ := hc
    cases h with
    | constant hl =>
      obtain ⟨k, hk⟩ := hl.exists_kind
      have hconverted : c.converted c.location = .ok (.call
          (.identifier ("Conv.sexp_of_" ++ k.name) c.location) [.constant c] c.location) := by
        unfold Constant.converted
        rw [hk]
      unfold Expr.contribution
      simp only [Expr.placed, bind, Except.bind, hconverted]
      cases hempty : c.isEmptyString with
      | true => exact ⟨.absent, rfl, .empty hempty⟩
      | false => exact ⟨_, rfl, .constant hempty hk⟩
  by_cases ht : ∃ e' t l, e = .constraint e' t l
  · obtain ⟨e', t, l, rfl⟩ := ht
    cases h with
    | constraint _ ht =>
      cases ho : t.optional? with
      | some u =>
        obtain ⟨l', rfl⟩ := TypeExpr.exists_of_optional? ho
        cases ht with
        | applied _ hu =>
          obtain ⟨f, hf, -⟩ := hu.exists_converter
          exact ⟨_, annotated_of_optional? ho hf, .optional hf⟩
      | none =>
        obtain ⟨f, hf, -⟩ := ht.exists_converter
        exact ⟨_, annotated_of_optional?_eq_none ho hf, .annotated ho hf⟩
  by_cases hh : ∃ l, e = .extension "here" none l
  · obtain ⟨l, rfl⟩ := hh
    cases h with
    | extension => exact ⟨_, Expr.contribution_here _, .here⟩
  have hc' : ∀ c, e ≠ .constant c := fun c he => hc ⟨c, he⟩
  have ht' : ∀ e' t l, e ≠ .constraint e' t l := fun e' t l he => ht ⟨e', t, l, he⟩
  have hh' : ∀ l, e ≠ .extension "here" none l := fun l he => hh ⟨l, he⟩
  have hn : ∀ n, e ≠ .other n := by
    intro n heq
    subst heq
    cases h
  exact ⟨_, Expr.contribution_of_text hn hc' ht' hh', .text hc' ht' hh'⟩

/-- What an expression contributes is code, with extensions of the expression only. -/
theorem Expr.Contributes.isCode {e : Expr} {item : Omittable} {inArm : Bool}
    (h : e.Contributes item) (he : e.IsReadable) :
    item.IsCode inArm ∧ item.extensions.Sublist e.extensions := by
  have hstring {l : Option Location} :
      IsWrapper fun x => .call (.identifier "Conv.sexp_of_string" l) [x] l :=
    (Expr.isConverter_identifier isLongName_stringConverter l).isWrapper l
  cases h with
  | here =>
    obtain ⟨hcode, hsub⟩ := hstring.isCode_present (.constant .string)
    exact ⟨hcode, hsub.trans (List.nil_sublist _)⟩
  | empty => exact ⟨trivial, List.nil_sublist _⟩
  | @constant c k _ hk =>
    have hkind := Expr.isConverter_identifier (isLongName_constantConverter k) c.location
    exact (hkind.isWrapper _).isCode_present he.isCode
  | optional hf =>
    cases he with
    | constraint he ht =>
      cases ht with
      | applied _ ht =>
        obtain ⟨f', hf', hconv⟩ := ht.exists_converter
        cases hf.symm.trans hf'
        exact ⟨⟨he.isCode, hconv.isWrapper _⟩, List.Sublist.refl _⟩
  | annotated _ hf =>
    cases he with
    | constraint he ht =>
      obtain ⟨f', hf', hconv⟩ := ht.exists_converter
      cases hf.symm.trans hf'
      exact (hconv.isWrapper _).isCode_present he.isCode
  | text => exact hstring.isCode_present he.isCode

/-! ## The contributions of arguments -/

/-- The tag of an argument and its place: an annotated expression is tagged by its text, any other
argument by its label, unless that is `_`. -/
def Argument.tag? : Argument → Option (Option Location × String)
  | .mk .positional (.constraint e _ l) => some (l, e.toText)
  | .mk (.labelled name) e => if name == "_" then none else some (e.location, name)
  | _ => none

/-- A contribution behind a tag, if there is one. -/
def Omittable.behind (tag? : Option (Option Location × String)) (item : Omittable) : Omittable :=
  match tag? with
  | some (l, tag) => item.map (Code.tagged l (some tag))
  | none => item

theorem Expr.IsReadable.printed_eq {e : Expr} (h : e.IsReadable) :
    Conventions.standard.tag e = .ok (some e.toText) := by
  show Conventions.printed e = _
  rw [Conventions.printed, h.noText?_eq_none]
  simp [h.hasText]

theorem Argument.contribution_positional {e : Expr} (h : ∀ e' t l, e ≠ .constraint e' t l)
    (hn : ∀ n, e ≠ .other n) :
    (Argument.mk .positional e).contribution .standard = e.contribution .standard ∧
      (Argument.mk .positional e).tag? = none := by
  cases e with
  | constraint e' t l => exact absurd rfl (h e' t l)
  | other n => exact absurd rfl (hn n)
  | _ => exact ⟨rfl, rfl⟩

theorem Argument.contribution_optional {name : String} {e : Expr} (hn : ∀ n, e ≠ .other n) :
    (Argument.mk (.optional name) e).contribution .standard =
      .error ⟨.optionalLabel name, e.location⟩ := by
  cases e with
  | other n => exact absurd rfl (hn n)
  | _ => rfl

theorem Argument.contribution_labelled {name : String} {e : Expr} (hn : ∀ n, e ≠ .other n) :
    (Argument.mk (.labelled name) e).contribution .standard = (do
      let item ← e.contribution .standard
      return if name == "_" then item else item.map (Code.tagged e.location (some name))) := by
  cases e with
  | other n => exact absurd rfl (hn n)
  | _ => rfl

/-- An argument that could be read has an optional label, or contributes what its expression does,
behind its tag. -/
theorem Argument.IsReadable.contribution_cases {a : Argument} (h : a.IsReadable) :
    (∃ name e, a = .mk (.optional name) e ∧
      a.contribution .standard = .error ⟨.optionalLabel name, e.location⟩) ∨
    ∃ label e item, a = .mk label e ∧ (∀ name, label ≠ .optional name) ∧ e.IsReadable ∧
      e.Contributes item ∧ a.contribution .standard = .ok (item.behind a.tag?) := by
  cases a with
  | other n => exact absurd h.1 id
  | mk label e =>
    have he : e.IsReadable := h.2 label e rfl
    have hn : ∀ n, e ≠ .other n := by
      intro n hboth
      subst hboth
      cases he
    obtain ⟨item, hitem, hc⟩ := he.exists_contribution
    cases label with
    | optional name =>
      exact .inl ⟨name, e, rfl, Argument.contribution_optional hn⟩
    | positional =>
      refine .inr ⟨_, e, item, rfl, nofun, he, hc, ?_⟩
      by_cases hcon : ∃ e' t l, e = .constraint e' t l
      · obtain ⟨e', t, l, rfl⟩ := hcon
        have htag : Conventions.standard.tag e' = .ok (some e'.toText) := by
          cases he with
          | constraint he' _ => exact he'.printed_eq
        unfold Argument.contribution
        simp only [htag, hitem]
        rfl
      · obtain ⟨hsame, hnone⟩ :=
          Argument.contribution_positional (fun e' t l h => hcon ⟨e', t, l, h⟩) hn
        rw [hsame, hnone]
        exact hitem
    | labelled name =>
      refine .inr ⟨_, e, item, rfl, nofun, he, hc, ?_⟩
      rw [Argument.contribution_labelled hn, hitem]
      simp only [Argument.tag?]
      cases name == "_" <;> rfl

/-- What an argument contributes is code, with extensions of the argument only. -/
theorem Argument.IsReadable.isCode_contribution {a : Argument} {item : Omittable} {inArm : Bool}
    (h : a.IsReadable) (hc : a.contribution .standard = .ok item) :
    item.IsCode inArm ∧ item.extensions.Sublist a.extensions := by
  rcases h.contribution_cases with ⟨name, e, -, herr⟩ | ⟨label, e, item', rfl, -, he, hcon, hok⟩
  · cases hc.symm.trans herr
  · cases hc.symm.trans hok
    have hitem : item'.IsCode inArm ∧ item'.extensions.Sublist e.extensions := hcon.isCode he
    unfold Omittable.behind
    split
    · rename_i l tag _
      exact ⟨hitem.1.map (isWrapper_tagged l tag),
        by rw [Omittable.extensions_map (isWrapper_tagged l tag)]; exact hitem.2⟩
    · exact hitem

end MessageLang
