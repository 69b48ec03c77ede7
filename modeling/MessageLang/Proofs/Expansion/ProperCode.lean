import MessageLang.Proofs.Expansion.Failing
/-!
# The code of proper uses

Whatever stands in its payload, the code of a use is a proper tree if the use is one, and a use
that stands for no code has a reason other than an expansion without end.

* `Omittable.IsProper`: contributions whose code is proper.
* `Setting.isProper_code`: the code of a proper use is proper.
* `Setting.terminates_code`: no extension says of a proper use that its expansion does not end.
-/
namespace MessageLang

/-! ## Converters -/

section

variable {t : TypeExpr} {ts : List TypeExpr} {f : Expr} {fs : List Expr}

theorem isProper_typeConverters
    (h : ∀ t ∈ ts, ∀ f, t.converter = .ok f → f.IsProper) (hc : typeConverters ts = .ok fs) :
    ∀ f ∈ fs, f.IsProper := by
  induction ts generalizing fs with
  | nil =>
    cases hc
    exact nofun
  | cons t ts ih =>
    obtain ⟨h₁, h₂⟩ := List.forall_mem_cons.mp h
    unfold typeConverters at hc
    obtain ⟨f, hf, hc⟩ := exists_of_bind_eq_ok hc
    obtain ⟨fs, hfs, hc⟩ := exists_of_bind_eq_ok hc
    cases hc
    exact List.forall_mem_cons.mpr ⟨h₁ f hf, ih h₂ hfs⟩

theorem TypeExpr.IsProper.isProper_converter (h : t.IsProper) (hf : t.converter = .ok f) :
    f.IsProper := by
  induction h generalizing f with
  | named _ ih =>
    unfold TypeExpr.converter at hf
    split at hf
    · cases hf
      exact .identifier
    · obtain ⟨fs, hfs, hf⟩ := exists_of_bind_eq_ok hf
      cases hf
      exact .call .identifier (isProper_typeConverters ih hfs)
  | tuple _ ih =>
    unfold TypeExpr.converter at hf
    split at hf
    · cases hf
    · obtain ⟨fs, hfs, hf⟩ := exists_of_bind_eq_ok hf
      cases hf
      exact .call .identifier
        (List.forall_mem_singleton.mpr (.list (isProper_typeConverters ih hfs)))

end

/-! ## Contributions -/

section

variable {x head tail : Expr} {l : Option Location}

theorem Code.isProper_atom (h : x.IsProper) : (Code.atom l x).IsProper :=
  .call .identifier (List.forall_mem_singleton.mpr h)

theorem Code.isProper_list (h : x.IsProper) : (Code.list l x).IsProper :=
  .call .identifier (List.forall_mem_singleton.mpr h)

theorem Code.isProper_tagged (tag : Option String) (h : x.IsProper) :
    (Code.tagged l tag x).IsProper :=
  isProper_list (.list (List.forall_mem_cons.mpr
    ⟨isProper_atom .constant, List.forall_mem_singleton.mpr h⟩))

theorem Code.isProper_prepend (hh : head.IsProper) (ht : tail.IsProper) :
    (Code.prepend l head tail).IsProper := by
  unfold Code.prepend
  split
  · cases ht with
    | list hes => exact .list (List.forall_mem_cons.mpr ⟨hh, hes⟩)
  · exact .cons hh ht

end

namespace Omittable

/-- What is contributed is proper, and stays so with what is put around it. -/
def IsProper : Omittable → Prop
  | present e => e.IsProper
  | optional _ e wrap => e.IsProper ∧ ∀ x, x.IsProper → (wrap x).IsProper
  | absent => True

section

variable {item : Omittable} {items : List Omittable} {tail e : Expr} {l : Option Location}

theorem IsProper.map_tagged (h : item.IsProper) (l : Option Location) (tag : Option String) :
    (item.map (Code.tagged l tag)).IsProper := by
  cases item with
  | present e => exact Code.isProper_tagged tag h
  | optional l' e wrap => exact ⟨h.1, fun x hx => Code.isProper_tagged tag (h.2 x hx)⟩
  | absent => trivial

theorem IsProper.onto (h : item.IsProper) (ht : tail.IsProper) : (item.onto l tail).IsProper := by
  cases item with
  | present e => exact Code.isProper_prepend h ht
  | absent => exact ht
  | optional l' e wrap =>
    obtain ⟨he, hw⟩ := h
    refine .matching (.tuple (List.forall_mem_cons.mpr ⟨he, List.forall_mem_singleton.mpr ht⟩))
      ?_ fun p body l'' ha => ?_
    · exact List.forall_mem_cons.mpr ⟨trivial, List.forall_mem_singleton.mpr trivial⟩
    · rcases List.mem_cons.mp ha with ha | ha
      · cases ha
        exact .identifier
      · cases List.mem_singleton.mp ha
        exact .cons (hw _ .identifier) .identifier

theorem isProper_collapse (h : e.IsProper) : (collapse l e).IsProper := by
  refine .matching h ?_ fun p body l' ha => ?_
  · exact List.forall_mem_cons.mpr ⟨trivial, List.forall_mem_singleton.mpr trivial⟩
  · rcases List.mem_cons.mp ha with ha | ha
    · cases ha
      exact .identifier
    · cases List.mem_singleton.mp ha
      exact Code.isProper_list .identifier

theorem isProper_assemble (h : ∀ item ∈ items, item.IsProper) : (assemble l items).IsProper := by
  have hfold : (items.foldr (fun item tail => item.onto l tail) (Expr.list [] l)).IsProper := by
    induction items with
    | nil => exact .list nofun
    | cons item items ih =>
      obtain ⟨h₁, h₂⟩ := List.forall_mem_cons.mp h
      exact h₁.onto (ih h₂)
  unfold assemble
  split
  · exact isProper_collapse hfold
  · generalize items.foldr (fun item tail => item.onto l tail) (.list [] l) = e at hfold
    dsimp only
    split
    · cases hfold with
      | list hes => exact hes _ List.mem_cons_self
    · exact Code.isProper_list hfold

end
end Omittable

/-- What a proper expression contributes is proper. -/
theorem Expr.Contributes.isProper {e : Expr} {item : Omittable} (h : e.Contributes item)
    (he : e.IsProper) : item.IsProper := by
  have hcall {f x : Expr} {l : Option Location} (hf : f.IsProper) (hx : x.IsProper) :
      (Expr.call f [x] l).IsProper :=
    .call hf (List.forall_mem_singleton.mpr hx)
  cases h with
  | here => exact hcall .identifier .constant
  | empty => trivial
  | constant => exact hcall .identifier .constant
  | @optional e f t _ _ hf =>
    cases he with
    | constraint he ht =>
      cases ht with
      | named hargs =>
        have hconverter := (hargs t (List.mem_singleton_self t)).isProper_converter hf
        exact ⟨he, fun x hx => hcall hconverter hx⟩
  | annotated _ hf =>
    cases he with
    | constraint he ht => exact hcall (ht.isProper_converter hf) he
  | text => exact hcall .identifier he

/-- An argument with a proper expression. -/
def Argument.IsProper : Argument → Prop
  | .mk _ e => e.IsProper
  | .other _ => False

theorem Argument.IsProper.isProper_contribution {a : Argument} {item : Omittable} (h : a.IsProper)
    (hc : a.contribution .standard = .ok item) : item.IsProper := by
  obtain ⟨label, e, item', rfl, hitem, hbehind⟩ := Argument.exists_contributes hc
  rcases hbehind with rfl | ⟨l, tag, rfl⟩
  · exact hitem.isProper h
  · exact (hitem.isProper h).map_tagged l tag

theorem isProper_contributions {args : List Argument} {items : List Omittable}
    (h : ∀ a ∈ args, a.IsProper) (hc : args.mapM (·.contribution .standard) = .ok items) :
    ∀ item ∈ items, item.IsProper := by
  induction args generalizing items with
  | nil =>
    cases hc
    exact nofun
  | cons a args ih =>
    obtain ⟨item, items', rfl, ha, hargs⟩ := exists_of_mapM_cons hc
    obtain ⟨h₁, h₂⟩ := List.forall_mem_cons.mp h
    exact List.forall_mem_cons.mpr ⟨h₁.isProper_contribution ha, ih h₂ hargs⟩

theorem Expr.IsProper.isProper_arguments {e : Expr} (h : e.IsProper) :
    ∀ a ∈ Message.arguments e, a.IsProper := by
  cases h with
  | apply hf hl ha =>
    refine List.forall_mem_cons.mpr ⟨hf, fun a hm => ?_⟩
    cases a with
    | mk label e => exact ha label e hm
    | other n => exact hl _ hm
  | _ =>
    refine List.forall_mem_singleton.mpr ?_
    constructor <;> assumption

/-- The code of a proper use is proper. -/
theorem Setting.isProper_code {name : String} {payload : Option Expr} {l : Option Location}
    {code : Expr} (h : (Expr.extension name payload l).IsProper)
    (hc : standard.code (.extension name payload l) = .ok code) : code.IsProper := by
  rcases Setting.code_cases hc with ⟨-, hc⟩ | ⟨-, -, hc⟩
  · cases h with
    | extension =>
      cases hc
      exact Code.isProper_list (.list nofun)
    | payload he =>
      obtain ⟨items, hitems, hc⟩ := exists_of_bind_eq_ok hc
      cases hc
      exact Omittable.isProper_assemble (isProper_contributions he.isProper_arguments hitems)
  · cases l with
    | none => cases hc
    | some l =>
      cases hc
      exact .constant

/-! ## Uses that stand for no code -/

/-- What fails has a reason other than an expansion without end. -/
def Terminates {α : Type} (r : Expanding α) : Prop :=
  ∀ f, r = .error f → ∀ name, f.error ≠ .endless name

section

variable {α β : Type}

theorem terminates_ok (a : α) : Terminates (.ok a) := by
  rintro f ⟨⟩

theorem terminates_error {f : ExpansionFailure} (h : ∀ name, f.error ≠ .endless name) :
    Terminates (.error f : Expanding α) := by
  rintro _ ⟨⟩
  exact h

theorem Terminates.bind {x : Expanding α} {f : α → Expanding β} (hx : Terminates x)
    (hf : ∀ a, x = .ok a → Terminates (f a)) : Terminates (x >>= f) := by
  cases x with
  | error err => exact terminates_error (hx err rfl)
  | ok a => exact hf a rfl

theorem terminates_mapM {f : α → Expanding β} {as : List α} (h : ∀ a ∈ as, Terminates (f a)) :
    Terminates (as.mapM f) := by
  intro err herr
  obtain ⟨a, ha, herr⟩ := exists_of_mapM_eq_error herr
  exact h a ha err herr

end

theorem terminates_typeConverters {ts : List TypeExpr} (h : ∀ t ∈ ts, Terminates t.converter) :
    Terminates (typeConverters ts) := by
  induction ts with
  | nil => exact terminates_ok _
  | cons t ts ih =>
    obtain ⟨h₁, h₂⟩ := List.forall_mem_cons.mp h
    exact h₁.bind fun f _ => (ih h₂).bind fun fs _ => terminates_ok _

theorem TypeExpr.IsProper.terminates_converter {t : TypeExpr} (h : t.IsProper) :
    Terminates t.converter := by
  induction h with
  | named _ ih =>
    unfold TypeExpr.converter
    split
    · exact terminates_ok _
    · exact (terminates_typeConverters ih).bind fun fs _ => terminates_ok _
  | tuple _ ih =>
    unfold TypeExpr.converter
    split
    · exact terminates_error nofun
    · exact (terminates_typeConverters ih).bind fun fs _ => terminates_ok _

theorem terminates_lift (l : Option Location) : Terminates (Here.lift l) := by
  cases l with
  | none => exact terminates_error nofun
  | some l => exact terminates_ok _

theorem terminates_printed (e : Expr) : Terminates (Conventions.printed e) := by
  unfold Conventions.printed
  split
  · exact terminates_error nofun
  · exact terminates_ok _

theorem terminates_annotated {e : Expr} {t : TypeExpr} (ht : t.IsProper) (l : Option Location) :
    Terminates (annotated .standard l e t) := by
  unfold annotated
  split
  · rename_i u hu
    obtain ⟨l', rfl⟩ := TypeExpr.exists_of_optional? hu
    cases ht with
    | named hargs =>
      have hu := hargs u (List.mem_singleton_self u)
      exact hu.terminates_converter.bind fun f _ => terminates_ok _
  · exact ht.terminates_converter.bind fun f _ => terminates_ok _

theorem terminates_converted (c : Constant) (l : Option Location) :
    Terminates (c.converted l) := by
  unfold Constant.converted
  split
  · exact terminates_ok _
  · exact terminates_error nofun

theorem Expr.IsProper.terminates_contribution {e : Expr} (h : e.IsProper) :
    Terminates (e.contribution .standard) := by
  have hplaced : Terminates (e.placed .standard) := by
    unfold Expr.placed
    split
    · exact terminates_lift _
    · exact terminates_ok _
  unfold Expr.contribution
  refine hplaced.bind fun e' he => ?_
  have hproper : e'.IsProper := by
    unfold Expr.placed at he
    split at he
    · rename_i l
      cases l with
      | none => cases he
      | some l =>
        cases he
        exact .constant
    · cases he
      exact h
  split
  · exact terminates_error nofun
  · split
    · exact terminates_ok _
    · exact (terminates_converted _ _).bind fun x _ => terminates_ok _
  · cases hproper with
    | constraint _ ht => exact terminates_annotated ht _
  · exact terminates_ok _

theorem Argument.IsProper.terminates_contribution {a : Argument} (h : a.IsProper) :
    Terminates (a.contribution .standard) := by
  unfold Argument.contribution
  split
  · exact terminates_error nofun
  · exact terminates_error nofun
  · exact terminates_error nofun
  · have hitem := Expr.IsProper.terminates_contribution h
    exact (terminates_printed _).bind fun tag _ => hitem.bind fun item _ => terminates_ok _
  · exact Expr.IsProper.terminates_contribution h
  · exact (Expr.IsProper.terminates_contribution h).bind fun item _ => terminates_ok _

/-- No extension says of a proper use that its expansion does not end. -/
theorem Setting.terminates_code {name : String} {payload : Option Expr} {l : Option Location}
    (h : (Expr.extension name payload l).IsProper) :
    Terminates (standard.code (.extension name payload l)) := by
  unfold Setting.code
  dsimp only
  split
  · exact terminates_error nofun
  · rename_i x hx
    rcases Registry.find?_standard hx with ⟨rfl, rfl⟩ | ⟨rfl, rfl⟩
    · show Terminates (Message.expand .standard l payload)
      cases h with
      | extension => exact terminates_ok _
      | payload he =>
        have hargs := terminates_mapM fun a ha =>
          (he.isProper_arguments a ha).terminates_contribution
        exact hargs.bind fun items _ => terminates_ok _
    · cases payload with
      | none => exact terminates_lift l
      | some e => exact terminates_error nofun

end MessageLang
