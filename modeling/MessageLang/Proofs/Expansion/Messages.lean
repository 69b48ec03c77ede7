import MessageLang.Expansion.Registry
import MessageLang.Proofs.Expansion.Carried
/-!
# The code of messages

* `isCode_assemble`: assembled contributions are code, which holds their extensions in order.
* `isExpansion_of_find?`: what the extensions make of a payload that was read.
-/
namespace MessageLang

open Omittable

/-! ## Assembling contributions -/

/-- What the lists that are built up can be: list literals, and `::` or matches. -/
def Expr.isTail : Expr → Bool
  | .list _ _ => true
  | e => e.isGenerated

section

variable {inArm : Bool} {tail : Expr} {l : Option Location}

/-- The variables of generated matches are words. -/
theorem isWordName_contentName : IsWordName contentName := .of_all 'v' [] rfl rfl

theorem isWordName_tailName : IsWordName tailName := .of_all 't' ['l'] rfl rfl

theorem isWordName_headName : IsWordName headName := .of_all 'h' [] rfl rfl

theorem isWordName_resultName : IsWordName resultName :=
  .of_all 'r' ['e', 's'] rfl rfl

theorem isLongName_of_isWordName {name : String} (h : IsWordName name) :
    Terminal.IsLongName name.toList := by
  obtain ⟨c, w, he, hc, hw⟩ := h
  exact .word ⟨c, w, he, Terminal.isLetter_of_isLower hc, hw⟩

theorem isCode_prepend {head : Expr} (hh : head.IsCode inArm) (ht : tail.IsCode inArm)
    (htail : tail.isTail = true) :
    (Code.prepend l head tail).IsCode inArm ∧ (Code.prepend l head tail).isTail = true := by
  unfold Code.prepend
  split
  · rename_i es l'
    cases ht with
    | list hes =>
      exact ⟨.list (List.forall_mem_cons.mpr ⟨hh, hes⟩), rfl⟩
  · rename_i hlist
    refine ⟨.cons (.inr ?_) hh ht, rfl⟩
    cases tail with
    | list es l' => exact absurd rfl (hlist es l')
    | _ => exact htail

/-- One more contribution in front. -/
theorem isCode_onto {item : Omittable} (hi : item.IsCode inArm) (ht : tail.IsCode inArm)
    (htail : tail.isTail = true) :
    (item.onto l tail).IsCode inArm ∧ (item.onto l tail).isTail = true := by
  cases item with
  | present e => exact isCode_prepend hi ht htail
  | absent => exact ⟨ht, htail⟩
  | optional l' e wrap =>
    obtain ⟨he, hw⟩ := hi
    have hrest : (Expr.identifier tailName l).IsCode true :=
      .identifier (isLongName_of_isWordName isWordName_tailName)
    have hfull : (wrap (.identifier contentName l)).IsCode true :=
      hw.isCode (.identifier (isLongName_of_isWordName isWordName_contentName))
    refine ⟨.matching (.tuple (Nat.le_refl 2) ?_) ?_ ?_, rfl⟩
    · simpa using ⟨he, ht⟩
    · simpa [Arm.BindsWords, Pattern.names, namesOfPatterns] using
        ⟨isWordName_tailName, isWordName_contentName, isWordName_tailName⟩
    · intro p body l'' ha
      rcases List.mem_cons.mp ha with h | ha
      · cases h
        exact hrest
      · cases List.mem_singleton.mp ha
        exact .cons (.inl rfl) hfull hrest

/-- All contributions in front of the empty list. -/
theorem isCode_foldr {items : List Omittable} (h : ∀ item ∈ items, item.IsCode inArm) :
    let e := items.foldr (fun item tail => item.onto l tail) (.list [] l)
    e.IsCode inArm ∧ e.isTail = true := by
  induction items with
  | nil => exact ⟨.list nofun, rfl⟩
  | cons item items ih =>
    obtain ⟨h₁, h₂⟩ := List.forall_mem_cons.mp h
    obtain ⟨hc, ht⟩ := ih h₂
    exact isCode_onto h₁ hc ht

theorem isCode_collapse {e : Expr} (h : e.IsCode inArm) : (collapse l e).IsCode inArm := by
  have hhead : (Expr.identifier headName l).IsCode true :=
    .identifier (isLongName_of_isWordName isWordName_headName)
  have hres : (Code.list l (.identifier resultName l)).IsCode true :=
    isCode_list (.identifier (isLongName_of_isWordName isWordName_resultName))
  refine .matching h ?_ ?_
  · simpa [Arm.BindsWords, Pattern.names, namesOfPatterns] using
      ⟨isWordName_headName, isWordName_resultName⟩
  · intro p body l' ha
    rcases List.mem_cons.mp ha with h | ha
    · cases h
      exact hhead
    · cases List.mem_singleton.mp ha
      exact hres

theorem Omittable.IsCode.isLinear {item : Omittable} (h : item.IsCode inArm) : item.IsLinear := by
  cases item with
  | present e => trivial
  | optional l' e wrap => exact h.2.extensions
  | absent => trivial

/-- Assembled contributions are code, and hold their extensions in order. -/
theorem isCode_assemble {items : List Omittable} (h : ∀ item ∈ items, item.IsCode inArm) :
    (assemble l items).IsCode inArm ∧
      (assemble l items).extensions = items.flatMap Omittable.extensions := by
  refine ⟨?_, extensions_assemble fun item hi => (h item hi).isLinear⟩
  obtain ⟨hc, -⟩ := isCode_foldr (l := l) h
  unfold assemble
  split
  · exact isCode_collapse hc
  · generalize items.foldr (fun item tail => item.onto l tail) (.list [] l) = e at hc
    dsimp only
    split
    · cases hc with
      | list hes => exact hes _ List.mem_cons_self
    · exact isCode_list hc

end

/-! ## The arguments of a payload -/

theorem isReadable_arguments {e : Expr} (h : e.IsReadable) :
    ∀ a ∈ Message.arguments e, a.IsReadable := by
  cases h with
  | apply hf _ hl ha =>
    refine List.forall_mem_cons.mpr ⟨Argument.isReadable_mk trivial hf, fun a hm => ?_⟩
    exact ⟨hl a hm, fun label e he => ha label e (he ▸ hm)⟩
  | _ =>
    intro a hm
    rw [List.mem_singleton.mp hm]
    refine Argument.isReadable_mk trivial ?_
    constructor <;> assumption

theorem flatMap_arguments (e : Expr) :
    (Message.arguments e).flatMap Argument.extensions = e.extensions := by
  cases e with
  | apply f args l =>
    rw [Expr.extensions_apply]
    rfl
  | _ => exact List.append_nil _

theorem exists_of_mapM_eq_error {α β ε : Type} {f : α → Except ε β} {as : List α} {err : ε}
    (h : as.mapM f = .error err) : ∃ a ∈ as, f a = .error err := by
  induction as with
  | nil => cases h
  | cons a as ih =>
    rw [List.mapM_cons] at h
    cases ha : f a with
    | error err' =>
      rw [ha] at h
      cases h
      exact ⟨a, List.mem_cons_self, ha⟩
    | ok b =>
      cases has : as.mapM f with
      | error err' =>
        rw [ha, has] at h
        cases h
        obtain ⟨a', hm, he⟩ := ih has
        exact ⟨a', List.mem_cons_of_mem _ hm, he⟩
      | ok bs =>
        rw [ha, has] at h
        cases h

/-- What arguments contribute is code, with extensions of the arguments only, in their order. -/
theorem isCode_contributions (inArm : Bool) {args : List Argument} {items : List Omittable}
    (h : ∀ a ∈ args, a.IsReadable) (hm : args.mapM (·.contribution .standard) = .ok items) :
    (∀ item ∈ items, item.IsCode inArm) ∧
      (items.flatMap Omittable.extensions).Sublist (args.flatMap Argument.extensions) := by
  induction args generalizing items with
  | nil =>
    cases hm
    exact ⟨nofun, List.nil_sublist _⟩
  | cons a args ih =>
    obtain ⟨item, items', rfl, ha, hargs⟩ := exists_of_mapM_cons hm
    obtain ⟨h₁, h₂⟩ := List.forall_mem_cons.mp h
    have hitem : item.IsCode inArm ∧ item.extensions.Sublist a.extensions :=
      h₁.isCode_contribution ha
    obtain ⟨hcodes, hsubs⟩ := ih h₂ hargs
    exact ⟨List.forall_mem_cons.mpr ⟨hitem.1, hcodes⟩, hitem.2.append hsubs⟩

/-! ## The extensions -/

/-- There are two extensions. -/
theorem Registry.find?_standard {name : String} {x : ExtensionPoint}
    (h : Registry.standard.find? name = some x) :
    name = "message" ∧ x = Registry.message ∨ name = "here" ∧ x = Registry.here := by
  have h : ([("message", Registry.message), ("here", Registry.here)] : Table _).lookup name =
    some x := h
  rw [List.lookup_cons] at h
  split at h
  · rename_i hn
    cases h
    exact .inl ⟨beq_iff_eq.mp hn, rfl⟩
  · rw [List.lookup_cons] at h
    split at h
    · rename_i hn
      cases h
      exact .inr ⟨beq_iff_eq.mp hn, rfl⟩
    · cases h

/-- A failure that is reported as an error: neither a defect, nor an expansion without end. -/
def ExpansionFailure.IsReported (f : ExpansionFailure) : Prop :=
  f.isDefect = false ∧ ∀ name, f.error ≠ .endless name

/-- The extensions in a payload. -/
def payloadExtensions (payload : Option Expr) : List Expr := payload.elim [] Expr.extensions

theorem Expr.extensions_extension (name : String) (payload : Option Expr) (l : Option Location) :
    (Expr.extension name payload l).extensions =
      .extension name payload l :: payloadExtensions payload := by
  cases payload <;> rfl

/-- What an extension makes of a payload that was read: code with extensions of the payload only, or
a failure that is reported. -/
def IsExpansion (inArm : Bool) (payload : Option Expr) : Expanding Expr → Prop
  | .ok code => code.IsCode inArm ∧ code.extensions.Sublist (payloadExtensions payload)
  | .error failure => failure.IsReported

section

variable {inArm : Bool} {name : String} {payload : Option Expr} {l : Option Location}

theorem isExpansion_message (h : (Expr.extension name payload l).IsReadable) :
    IsExpansion inArm payload (Registry.message.expand .standard l payload) := by
  show IsExpansion inArm payload (Message.expand .standard l payload)
  cases payload with
  | none => exact ⟨isCode_list (.list nofun), by simp⟩
  | some e =>
    have he : e.IsReadable := by
      cases h with
      | payload _ he => exact he
    have hargs := isReadable_arguments he
    simp only [Message.expand, Message.assemble]
    cases hm : (Message.arguments e).mapM (Argument.contribution .standard) with
    | error err =>
      obtain ⟨a, ha, herr⟩ := exists_of_mapM_eq_error hm
      rcases (hargs a ha).contribution_cases with ⟨name, x, -, hx⟩ | ⟨_, _, _, _, _, _, _, hok⟩
      · cases hx.symm.trans herr
        exact ⟨rfl, nofun⟩
      · cases hok.symm.trans herr
    | ok items =>
      obtain ⟨hcode, hext⟩ := isCode_contributions inArm hargs hm
      obtain ⟨hc, he⟩ := isCode_assemble (l := e.location) hcode
      refine ⟨hc, ?_⟩
      rw [he]
      rwa [flatMap_arguments] at hext

theorem isExpansion_here (h : (Expr.extension name payload l).IsReadable) :
    IsExpansion inArm payload (Registry.here.expand .standard l payload) := by
  cases h with
  | extension => exact ⟨.constant .string, List.nil_sublist _⟩
  | payload => exact ⟨rfl, nofun⟩

/-- What the extensions make of a payload that was read. -/
theorem isExpansion_of_find? {x : ExtensionPoint} (hx : Registry.standard.find? name = some x)
    (h : (Expr.extension name payload l).IsReadable) :
    IsExpansion inArm payload (x.expand .standard l payload) := by
  rcases Registry.find?_standard hx with ⟨rfl, rfl⟩ | ⟨rfl, rfl⟩
  · exact isExpansion_message h
  · exact isExpansion_here h

end

end MessageLang
