import MessageLang.Proofs.Expansion.Contributions
/-!
# What the code of a message carries over

The code of a message is made of names, constants and the expressions of its arguments. Every
argument goes over into it once, whole and in its turn. The exception is `[%here]` where it is an
argument itself: its place is filled in at once.

* `TypeExpr.extensions_converter`: converters hold no extensions.
* `Omittable.extensions_assemble`: assembled contributions hold those of the contributions, in
  their order.
* `Argument.extensions_contribution`: what an argument contributes holds those of the argument.
* `Message.extensions_expand`: the code of a message holds those of the payload's arguments.
-/
namespace MessageLang

theorem exists_of_bind_eq_ok {α β ε : Type} {x : Except ε α} {f : α → Except ε β} {b : β}
    (h : x >>= f = .ok b) : ∃ a, x = .ok a ∧ f a = .ok b := by
  cases x with
  | error err => cases h
  | ok a => exact ⟨a, rfl, h⟩

theorem exists_of_mapM_cons {α β ε : Type} {f : α → Except ε β} {a : α} {as : List α}
    {bs : List β} (h : (a :: as).mapM f = .ok bs) :
    ∃ b bs', bs = b :: bs' ∧ f a = .ok b ∧ as.mapM f = .ok bs' := by
  rw [List.mapM_cons] at h
  obtain ⟨b, hb, h⟩ := exists_of_bind_eq_ok h
  obtain ⟨bs', hbs, h⟩ := exists_of_bind_eq_ok h
  cases h
  exact ⟨b, bs', rfl, hb, hbs⟩

/-! ## Converters -/

mutual
/-- Converters are built of names. -/
theorem TypeExpr.extensions_converter (t : TypeExpr) {f : Expr} (h : t.converter = .ok f) :
    f.extensions = [] := by
  match t with
  | .named name args l =>
    unfold TypeExpr.converter at h
    split at h
    · cases h
      rfl
    · obtain ⟨fs, hfs, h⟩ := exists_of_bind_eq_ok h
      cases h
      simp [extensions_typeConverters args hfs]
  | .tuple ts l =>
    unfold TypeExpr.converter at h
    split at h
    · cases h
    · obtain ⟨fs, hfs, h⟩ := exists_of_bind_eq_ok h
      cases h
      simp [extensions_typeConverters ts hfs]
  | .other n =>
    unfold TypeExpr.converter at h
    split at h
    · cases h
    · cases h
      rfl

theorem extensions_typeConverters (ts : List TypeExpr) {fs : List Expr}
    (h : typeConverters ts = .ok fs) : fs.flatMap Expr.extensions = [] := by
  match ts with
  | [] =>
    cases h
    rfl
  | t :: rest =>
    unfold typeConverters at h
    obtain ⟨f, hf, h⟩ := exists_of_bind_eq_ok h
    obtain ⟨fs, hfs, h⟩ := exists_of_bind_eq_ok h
    cases h
    rw [List.flatMap_cons, t.extensions_converter hf, extensions_typeConverters rest hfs]
    rfl
end

/-! ## Assembling contributions -/

theorem Code.extensions_tagged (l : Option Location) (tag : Option String) (e : Expr) :
    (Code.tagged l tag e).extensions = e.extensions := by
  simp [Code.tagged, Code.inlined]

theorem Code.extensions_prepend (l : Option Location) (head tail : Expr) :
    (Code.prepend l head tail).extensions = head.extensions ++ tail.extensions := by
  unfold Code.prepend
  split <;> simp

namespace Omittable

/-- What is put around the value of an option holds no extensions. -/
def IsLinear : Omittable → Prop
  | optional _ _ wrap => ∀ x, (wrap x).extensions = x.extensions
  | _ => True

section

variable {item : Omittable} {items : List Omittable} {l : Option Location}

/-- Nor does it with a tag in front, and the tag is no extension either. -/
theorem IsLinear.map_tagged (h : item.IsLinear) (l : Option Location) (tag : Option String) :
    (item.map (Code.tagged l tag)).IsLinear ∧
      (item.map (Code.tagged l tag)).extensions = item.extensions := by
  cases item with
  | present e => exact ⟨trivial, Code.extensions_tagged l tag e⟩
  | optional l' e wrap => exact ⟨fun x => (Code.extensions_tagged l tag _).trans (h x), rfl⟩
  | absent => exact ⟨trivial, rfl⟩

theorem IsLinear.extensions_onto (h : item.IsLinear) (tail : Expr) :
    (item.onto l tail).extensions = item.extensions ++ tail.extensions := by
  cases item with
  | present e => exact Code.extensions_prepend l e tail
  | absent => rfl
  | optional l' e wrap =>
    -- the arms hold names and the code around one of them
    have hfull : (Expr.cons (wrap (.identifier contentName l)) (.identifier tailName l)
        l).extensions = [] := by
      rw [Expr.extensions_cons, h]
      rfl
    have hnone : (Arm.mk (.tuple [.variant "None" none none, .var tailName none] none)
        (.identifier tailName l) l).extensions = [] := rfl
    have hsome : (Arm.mk (.tuple [.variant "Some" (some (.var contentName none)) none,
        .var tailName none] none) (.cons (wrap (.identifier contentName l))
          (.identifier tailName l) l) l).extensions = [] := hfull
    simp [onto, hnone, hsome, Omittable.extensions]

theorem extensions_foldr (l : Option Location) (h : ∀ item ∈ items, item.IsLinear) :
    (items.foldr (fun item tail => item.onto l tail) (Expr.list [] l)).extensions =
      items.flatMap Omittable.extensions := by
  induction items with
  | nil => rfl
  | cons item items ih =>
    obtain ⟨h₁, h₂⟩ := List.forall_mem_cons.mp h
    rw [List.foldr_cons, h₁.extensions_onto, ih h₂, List.flatMap_cons]

theorem extensions_collapse (e : Expr) : (collapse l e).extensions = e.extensions := by
  rw [collapse, Expr.extensions_matching]
  simp [Arm.extensions, Arm.parts, Code.list, Expr.call, Expr.inner, partsOfArguments,
    Argument.parts, Expr.isExtension]

/-- Assembled contributions hold the extensions of the contributions, in their order. -/
theorem extensions_assemble (h : ∀ item ∈ items, item.IsLinear) :
    (assemble l items).extensions = items.flatMap Omittable.extensions := by
  have hfold := extensions_foldr l h
  unfold assemble
  split
  · exact (extensions_collapse _).trans hfold
  · generalize items.foldr (fun item tail => item.onto l tail) (.list [] l) = e at hfold
    rw [← hfold]
    dsimp only
    split <;> simp

end
end Omittable

/-! ## What arguments contribute -/

/-- Whether an expression is `[%here]`. -/
def Expr.isPlace : Expr → Bool
  | .extension "here" none _ => true
  | _ => false

/-- Whether an argument is `[%here]`, with a label or without. -/
def Argument.isPlace : Argument → Bool
  | .mk _ e => e.isPlace
  | .other _ => false

theorem Expr.exists_of_isPlace {e : Expr} (h : e.isPlace = true) :
    ∃ l, e = .extension "here" none l := by
  unfold Expr.isPlace at h
  split at h
  · exact ⟨_, rfl⟩
  · cases h

section

variable {e : Expr} {item : Omittable}

theorem Expr.contributes_of_annotated {t : TypeExpr} {l : Option Location}
    (h : annotated .standard l e t = .ok item) : (Expr.constraint e t l).Contributes item := by
  unfold annotated at h
  split at h
  · rename_i hoption
    obtain ⟨l', rfl⟩ := TypeExpr.exists_of_optional? hoption
    obtain ⟨f, hf, h⟩ := exists_of_bind_eq_ok h
    cases h
    exact .optional hf
  · rename_i hoption
    obtain ⟨f, hf, h⟩ := exists_of_bind_eq_ok h
    cases h
    exact .annotated hoption hf

theorem Constant.exists_of_converted {c : Constant} {l : Option Location} {code : Expr}
    (h : c.converted l = .ok code) : ∃ k, c.kind = some k ∧
      code = .call (.identifier ("Conv.sexp_of_" ++ k.name) l) [.constant c] l := by
  unfold Constant.converted at h
  split at h
  · rename_i k hk
    exact ⟨k, hk, (Except.ok.inj h).symm⟩
  · cases h

/-- An expression that contributes something does so as its kind says. -/
theorem Expr.contributes_of_contribution (h : e.contribution .standard = .ok item) :
    e.Contributes item := by
  by_cases hplace : ∃ l, e = .extension "here" none l
  · obtain ⟨l, rfl⟩ := hplace
    cases l with
    | none => cases h
    | some l =>
      cases (Expr.contribution_here l).symm.trans h
      exact .here
  have hh : ∀ l, e ≠ .extension "here" none l := fun l hl => hplace ⟨l, hl⟩
  unfold Expr.contribution at h
  obtain ⟨e', he, h⟩ := exists_of_bind_eq_ok h
  cases (Expr.placed_eq_self hh).symm.trans he
  split at h
  · cases h
  · split at h
    · rename_i hempty
      cases h
      exact .empty hempty
    · rename_i hempty
      obtain ⟨code, hcode, h⟩ := exists_of_bind_eq_ok h
      cases h
      obtain ⟨k, hk, rfl⟩ := Constant.exists_of_converted hcode
      exact .constant (Bool.eq_false_iff.mpr hempty) hk
  · exact Expr.contributes_of_annotated h
  · rename_i hc ht
    cases h
    exact .text hc ht hh

end

/-- An argument contributes what its expression does, behind a tag or without one. -/
theorem Argument.exists_contributes {a : Argument} {item : Omittable}
    (h : a.contribution .standard = .ok item) :
    ∃ label e item', a = .mk label e ∧ e.Contributes item' ∧
      (item = item' ∨ ∃ l tag, item = item'.map (Code.tagged l tag)) := by
  unfold Argument.contribution at h
  split at h
  · cases h
  · cases h
  · cases h
  · rename_i e t l
    obtain ⟨tag, -, h⟩ := exists_of_bind_eq_ok h
    obtain ⟨item', hitem, h⟩ := exists_of_bind_eq_ok h
    cases h
    exact ⟨_, _, item', rfl, Expr.contributes_of_contribution hitem, .inr ⟨l, tag, rfl⟩⟩
  · exact ⟨_, _, item, rfl, Expr.contributes_of_contribution h, .inl rfl⟩
  · rename_i name e _
    obtain ⟨item', hitem, h⟩ := exists_of_bind_eq_ok h
    cases h
    refine ⟨_, _, item', rfl, Expr.contributes_of_contribution hitem, ?_⟩
    split
    · exact .inl rfl
    · exact .inr ⟨_, _, rfl⟩

/-- What an expression contributes holds the extensions of the expression, unless that is a place
itself. -/
theorem Expr.Contributes.extensions {e : Expr} {item : Omittable} (h : e.Contributes item) :
    item.IsLinear ∧ item.extensions = if e.isPlace then [] else e.extensions := by
  have hcall {t : TypeExpr} {f : Expr} (hf : t.converter = .ok f) (x : Expr)
      (l : Option Location) : (Expr.call f [x] l).extensions = x.extensions := by
    simp [t.extensions_converter hf]
  cases h with
  | here => exact ⟨trivial, by simp [Omittable.extensions, Expr.isPlace]⟩
  | empty => exact ⟨trivial, rfl⟩
  | constant => exact ⟨trivial, by simp [Omittable.extensions, Expr.isPlace]⟩
  | optional hf => exact ⟨fun x => hcall hf x _, rfl⟩
  | annotated _ hf => exact ⟨trivial, hcall hf _ _⟩
  | text _ _ hh =>
    refine ⟨trivial, ?_⟩
    cases hplace : e.isPlace with
    | true =>
      obtain ⟨l, hl⟩ := Expr.exists_of_isPlace hplace
      exact absurd hl (hh l)
    | false => simp [Omittable.extensions]

/-- What an argument contributes holds the extensions of its expression, unless that is a place
itself. -/
theorem Argument.extensions_contribution {a : Argument} {item : Omittable}
    (h : a.contribution .standard = .ok item) :
    item.IsLinear ∧ item.extensions = if a.isPlace then [] else a.extensions := by
  obtain ⟨label, e, item', rfl, hitem, hbehind⟩ := Argument.exists_contributes h
  obtain ⟨hlinear, hext⟩ := hitem.extensions
  rcases hbehind with rfl | ⟨l, tag, rfl⟩
  · exact ⟨hlinear, hext⟩
  · obtain ⟨hlinear', hext'⟩ := hlinear.map_tagged l tag
    exact ⟨hlinear', hext'.trans hext⟩

/-! ## Messages -/

/-- The arguments of a message with or without a payload. -/
def Message.payloadArguments (payload : Option Expr) : List Argument :=
  payload.elim [] Message.arguments

namespace Message

theorem extensions_contributions {args : List Argument} {items : List Omittable}
    (h : args.mapM (·.contribution .standard) = .ok items) :
    (∀ item ∈ items, item.IsLinear) ∧ items.flatMap Omittable.extensions =
      (args.filter fun a => !a.isPlace).flatMap Argument.extensions := by
  induction args generalizing items with
  | nil =>
    cases h
    exact ⟨nofun, rfl⟩
  | cons a args ih =>
    obtain ⟨item, items', rfl, ha, hargs⟩ := exists_of_mapM_cons h
    obtain ⟨hlinear, hext⟩ := Argument.extensions_contribution ha
    obtain ⟨hlinears, hexts⟩ := ih hargs
    refine ⟨List.forall_mem_cons.mpr ⟨hlinear, hlinears⟩, ?_⟩
    rw [List.flatMap_cons, hext, hexts]
    cases hplace : a.isPlace <;> simp [hplace]

/-- The code of a message holds the extensions of the payload's arguments, each once and in their
order, without the places that are filled in. -/
theorem extensions_expand {l : Option Location} {payload : Option Expr} {code : Expr}
    (h : expand .standard l payload = .ok code) : code.extensions =
      ((payloadArguments payload).filter fun a => !a.isPlace).flatMap Argument.extensions := by
  cases payload with
  | none =>
    cases h
    simp [payloadArguments]
  | some e =>
    obtain ⟨items, hitems, h⟩ := exists_of_bind_eq_ok h
    cases h
    obtain ⟨hlinear, hext⟩ := extensions_contributions hitems
    exact (Omittable.extensions_assemble hlinear).trans hext

end Message
end MessageLang
