import Mathlib.Data.List.Forall2
import MessageLang.Proofs.Expansion.Invocations
import MessageLang.Proofs.Syntax.Relocate
import MessageLang.Proofs.Syntax.SameText
/-!
# Expanding moved programs

The code of an extension hangs on places only where it is `[%here]`. So a program without it that is
moved expands to what it expands to, moved in the same way, and its failures are moved with it.

* `TypeExpr.IsReadable.exists_converter_relocate`, `Argument.IsReadable.contribution_relocate`,
  `Setting.code_relocate`: what the extensions make of payloads.
* `Expr.IsCode.replaceExtensions_relocate`: trees, as far as the uses in them are moved.
* `Setting.movesAt_siteWithin`: uses.
* `Program.expand_relocate`: programs.
-/
namespace MessageLang

variable {f : Location → Location}

/-! ## Trees that were read -/

theorem Constant.IsLiteral.relocate {c : Constant} (h : c.IsLiteral) :
    (c.relocate f).IsLiteral := by
  cases h with
  | integer ht hc => exact .integer ht (Literal.integer_move hc)
  | float ht => exact .float ht
  | string => exact .string
  | char => exact .char

theorem TypeExpr.IsReadable.relocate {t : TypeExpr} (h : t.IsReadable) :
    (t.relocate f).IsReadable := by
  induction h with
  | name hn => exact .name hn
  | applied hn _ ih => exact .applied hn ih
  | tuple hlen _ ih =>
    rw [TypeExpr.relocate, relocateTypes_eq_map]
    exact .tuple (by simpa using hlen) (List.forall_mem_map.mpr ih)

theorem Expr.IsReadable.relocate {e : Expr} (h : e.IsReadable) : (e.relocate f).IsReadable := by
  induction h with
  | constant hc => exact .constant hc.relocate
  | identifier hn => exact .identifier hn
  | @apply g args l _ hne hl _ ihg iha =>
    rw [Expr.relocate, relocateArguments_eq_map]
    refine .apply ihg (by simpa using hne) (List.forall_mem_map.mpr fun a ha => ?_) ?_
    · have hla := hl a ha
      cases a <;> exact hla
    · intro label e he
      obtain ⟨a, ha, heq⟩ := List.mem_map.mp he
      cases a with
      | other n => cases heq
      | mk label' e' =>
        cases heq
        exact iha _ _ ha
  | constraint _ ht ih => exact .constraint ih ht.relocate
  | extension hn => exact .extension hn
  | payload hn _ ih => exact .payload hn ih
  | tuple hlen _ ih =>
    rw [Expr.relocate, relocateExprs_eq_map]
    exact .tuple (by simpa using hlen) (List.forall_mem_map.mpr ih)
  | list _ ih =>
    rw [Expr.relocate, relocateExprs_eq_map]
    exact .list (List.forall_mem_map.mpr ih)
  | unit => exact .unit
  | binary _ _ ihl ihr => exact .binary ihl ihr

theorem Expr.IsReadable.location_relocate {e : Expr} (h : e.IsReadable) :
    (e.relocate f).location = e.location.map f := by
  cases h <;> rfl

/-- The text of what was read does not hang on its places. -/
theorem Expr.IsReadable.toText_relocate {e : Expr} (h : e.IsReadable) :
    (e.relocate f).toText = e.toText := by
  rw [Expr.toText, Expr.toText, ← h.relocate.print_bare, e.bare_relocate, h.print_bare]

theorem Argument.IsReadable.relocate {a : Argument} (h : a.IsReadable) :
    (a.relocate f).IsReadable := by
  cases a with
  | other n => exact absurd h.1 id
  | mk label e => exact Argument.isReadable_mk h.1 (h.2 label e rfl).relocate

@[simp] theorem Expr.relocate_call (g : Expr) (es : List Expr) (l : Option Location) :
    (Expr.call g es l).relocate f = .call (g.relocate f) (es.map (Expr.relocate f)) (l.map f) := by
  simp [Expr.call, Expr.relocate, relocateArguments_eq_map, Argument.relocate]

/-! ## Converters -/

theorem exists_typeConverters_relocate {ts : List TypeExpr}
    (h : ∀ t ∈ ts, ∃ g, t.converter = .ok g ∧ (t.relocate f).converter = .ok (g.relocate f)) :
    ∃ gs, typeConverters ts = .ok gs ∧
      typeConverters (ts.map (TypeExpr.relocate f)) = .ok (gs.map (Expr.relocate f)) := by
  induction ts with
  | nil => exact ⟨[], rfl, rfl⟩
  | cons t ts ih =>
    obtain ⟨⟨g, hg, hg'⟩, hts⟩ := List.forall_mem_cons.mp h
    obtain ⟨gs, hgs, hgs'⟩ := ih hts
    refine ⟨g :: gs, ?_, ?_⟩
    · rw [typeConverters, hg, hgs]
      rfl
    · rw [List.map_cons, typeConverters, hg', hgs']
      rfl

/-- The converter of a type that is moved is the converter of the type, moved. -/
theorem TypeExpr.IsReadable.exists_converter_relocate {t : TypeExpr} (h : t.IsReadable) :
    ∃ g, t.converter = .ok g ∧ (t.relocate f).converter = .ok (g.relocate f) := by
  induction h with
  | name => exact ⟨_, rfl, rfl⟩
  | @applied name t l _ _ ih =>
    obtain ⟨g, hg, hg'⟩ := ih
    have hone : typeConverters [t] = .ok [g] := by
      rw [typeConverters, hg]
      rfl
    have hone' : typeConverters [t.relocate f] = .ok [g.relocate f] := by
      rw [typeConverters, hg']
      rfl
    simp only [TypeExpr.relocate, relocateTypes, TypeExpr.converter, List.isEmpty_cons,
      Bool.false_or, hone, hone']
    cases name == Converter.hiddenType with
    | true => exact ⟨_, rfl, rfl⟩
    | false => exact ⟨_, rfl, rfl⟩
  | @tuple ts l hlen _ ih =>
    obtain ⟨gs, hgs, hgs'⟩ := exists_typeConverters_relocate ih
    have hshort := isShortTuple_eq_false hlen
    have hshort' : isShortTuple (ts.map (TypeExpr.relocate f)) = false :=
      isShortTuple_eq_false (by simpa using hlen)
    rw [TypeExpr.relocate, relocateTypes_eq_map]
    unfold TypeExpr.converter
    rw [hshort, hshort', hgs, hgs']
    refine ⟨_, rfl, ?_⟩
    simp [Expr.relocate, relocateExprs_eq_map, bind, Except.bind, pure, Except.pure]

/-! ## Contributions -/

/-- A failure elsewhere. -/
def ExpansionFailure.relocate (f : Location → Location) (failure : ExpansionFailure) :
    ExpansionFailure :=
  { failure with location := failure.location.map f }

/-- The second result is the first one moved: a result that `R` relates to it, or the failure
elsewhere. -/
def Expanding.Moved {α β : Type} (f : Location → Location) (R : α → β → Prop) :
    Expanding α → Expanding β → Prop
  | .ok a, .ok b => R a b
  | .error e, .error e' => e' = e.relocate f
  | _, _ => False

theorem Expanding.Moved.bind {α β γ δ : Type} {R : α → β → Prop} {S : γ → δ → Prop}
    {x : Expanding α} {y : Expanding β} {k : α → Expanding γ} {k' : β → Expanding δ}
    (h : Expanding.Moved f R x y) (hk : ∀ a b, R a b → Expanding.Moved f S (k a) (k' b)) :
    Expanding.Moved f S (x >>= k) (y >>= k') := by
  cases x with
  | error e =>
    cases y with
    | error e' => exact h
    | ok b => exact absurd h id
  | ok a =>
    cases y with
    | error e' => exact absurd h id
    | ok b => exact hk a b h

/-- The second contribution is the first one moved, also around the content of an option. -/
def Omittable.Moved (f : Location → Location) : Omittable → Omittable → Prop
  | .present e, item => item = .present (e.relocate f)
  | .optional l e wrap, item => ∃ wrap', item = .optional (l.map f) (e.relocate f) wrap' ∧
    ∀ v, wrap' (v.relocate f) = (wrap v).relocate f
  | .absent, item => item = .absent

section

variable {e : Expr} {item item' : Omittable} {items items' : List Omittable}
  {l : Option Location}

theorem relocate_tagged (tag : String) :
    (Code.tagged l (some tag) e).relocate f = Code.tagged (l.map f) (some tag) (e.relocate f) :=
  rfl

theorem Omittable.Moved.map_tagged (h : item.Moved f item') (tag : String) :
    (item.map (Code.tagged l (some tag))).Moved f
      (item'.map (Code.tagged (l.map f) (some tag))) := by
  cases item with
  | present e =>
    cases h
    rfl
  | optional m e wrap =>
    obtain ⟨wrap', rfl, hw⟩ := h
    refine ⟨_, rfl, fun v => ?_⟩
    rw [relocate_tagged, ← hw]
  | absent =>
    cases h
    rfl

/-- What an expression contributes, moved. -/
theorem Expr.Contributes.exists_relocate (h : e.Contributes item) (he : e.IsReadable)
    (hk : ∀ l, e ≠ .extension "here" none l) :
    ∃ item', (e.relocate f).Contributes item' ∧ item.Moved f item' := by
  cases h with
  | here => exact absurd rfl (hk _)
  | empty hc => exact ⟨_, .empty hc, rfl⟩
  | constant hc hkind => exact ⟨_, .constant hc hkind, rfl⟩
  | optional hg =>
    cases he with
    | constraint _ ht =>
      cases ht with
      | applied _ ht =>
        obtain ⟨g, hg', hmoved⟩ := ht.exists_converter_relocate (f := f)
        cases hg.symm.trans hg'
        exact ⟨_, .optional hmoved, _, rfl, fun v => rfl⟩
  | @annotated e g t l ho hg =>
    cases he with
    | constraint _ ht =>
      obtain ⟨g', hg', hmoved⟩ := ht.exists_converter_relocate (f := f)
      cases hg.symm.trans hg'
      have ho' : (t.relocate f).optional? = none := by
        cases ht with
        | applied =>
          unfold TypeExpr.optional? at ho ⊢
          simpa [TypeExpr.relocate, relocateTypes] using ho
        | _ => rfl
      exact ⟨_, .annotated ho' hmoved, rfl⟩
  | text hc ht hh =>
    refine ⟨_, .text ?_ ?_ ?_, ?_⟩
    · intro c heq
      cases he <;> first | exact hc _ rfl | cases heq
    · intro x t m heq
      cases he <;> first | exact ht _ _ _ rfl | cases heq
    · intro m heq
      cases he <;> first | (cases heq; exact hh _ rfl) | cases heq
    · rw [he.location_relocate]
      rfl

/-- An expression contributes one thing only. -/
theorem Expr.Contributes.contribution_eq (h : e.Contributes item) (he : e.IsReadable) :
    e.contribution .standard = .ok item := by
  cases h with
  | here => exact Expr.contribution_here _
  | empty hc =>
    unfold Expr.contribution
    simp only [Expr.placed, bind, Except.bind, hc, if_true]
    rfl
  | @constant c k hc hkind =>
    have hconverted : c.converted c.location = .ok (.call
        (.identifier ("Conv.sexp_of_" ++ k.name) c.location) [.constant c] c.location) := by
      unfold Constant.converted
      rw [hkind]
    unfold Expr.contribution
    simp only [Expr.placed, bind, Except.bind, hconverted, hc, Bool.false_eq_true, if_false]
    rfl
  | @optional e g t l l' hg =>
    have ho : (TypeExpr.named Converter.optionType [t] l').optional? = some t := by
      simp [TypeExpr.optional?]
    exact annotated_of_optional? ho hg
  | annotated ho hg => exact annotated_of_optional?_eq_none ho hg
  | text hc ht hh =>
    refine Expr.contribution_of_text (fun n heq => ?_) hc ht hh
    subst heq
    cases he

/-- A contribution behind the tag of its argument, moved. -/
theorem Omittable.Moved.behind (h : item.Moved f item') (label : Label) (he : e.IsReadable) :
    (item.behind (Argument.mk label e).tag?).Moved f
      (item'.behind (Argument.mk label (e.relocate f)).tag?) := by
  cases label with
  | optional name => exact h
  | labelled name =>
    simp only [Argument.tag?, he.location_relocate]
    split
    · exact h
    · exact h.map_tagged name
  | positional =>
    cases he with
    | constraint hx _ =>
      simp only [Expr.relocate, Argument.tag?, hx.toText_relocate]
      exact h.map_tagged _
    | _ => exact h

/-- What an argument contributes, moved. -/
theorem Argument.IsReadable.contribution_relocate {a : Argument} (h : a.IsReadable)
    (hk : ∀ l, Expr.extension "here" none l ∉ a.extensions) :
    Expanding.Moved f (Omittable.Moved f) (a.contribution .standard)
      ((a.relocate f).contribution .standard) := by
  have h' := h.relocate (f := f)
  rcases h.contribution_cases with ⟨name, e, rfl, herr⟩ | ⟨label, e, item, rfl, hl, he, hc, hok⟩
  · have he : e.IsReadable := h.2 _ e rfl
    rcases h'.contribution_cases with ⟨name', e', heq, herr'⟩ | ⟨_, _, _, heq, hl', -⟩
    · cases heq
      rw [herr, herr']
      show _ = ExpansionFailure.relocate f _
      rw [he.location_relocate]
      rfl
    · cases heq
      exact absurd rfl (hl' name)
  · rcases h'.contribution_cases with ⟨name, e', heq, -⟩ | ⟨_, e', item₁, heq, -, he', hc', hok'⟩
    · cases heq
      exact absurd rfl (hl name)
    · cases heq
      obtain ⟨item', hitem, hmoved⟩ := hc.exists_relocate (f := f) he fun l hheq =>
        hk l (by rw [hheq]; exact List.mem_singleton_self _)
      cases (hc'.contribution_eq he').symm.trans (hitem.contribution_eq he')
      rw [hok, hok']
      exact hmoved.behind label he

/-! ## Messages -/

theorem relocate_prepend (head tail : Expr) :
    (Code.prepend l head tail).relocate f =
      Code.prepend (l.map f) (head.relocate f) (tail.relocate f) := by
  cases tail with
  | extension name payload m => cases payload <;> rfl
  | _ => rfl

theorem Omittable.Moved.onto (h : item.Moved f item') (tail : Expr) :
    item'.onto (l.map f) (tail.relocate f) = (item.onto l tail).relocate f := by
  cases item with
  | present e =>
    cases h
    exact (relocate_prepend e tail).symm
  | optional m e wrap =>
    obtain ⟨wrap', rfl, hw⟩ := h
    have hcontent : wrap' (.identifier Omittable.contentName (l.map f)) =
        (wrap (.identifier Omittable.contentName l)).relocate f :=
      hw (.identifier Omittable.contentName l)
    simp only [Omittable.onto, hcontent]
    rfl
  | absent =>
    cases h
    rfl

theorem any_isOptional_of_moved (h : List.Forall₂ (Omittable.Moved f) items items') :
    items'.any Omittable.isOptional = items.any Omittable.isOptional := by
  induction h with
  | nil => rfl
  | @cons item item' items items' hi _ ih =>
    rw [List.any_cons, List.any_cons, ih]
    cases item with
    | optional m e wrap =>
      obtain ⟨wrap', rfl, -⟩ := hi
      rfl
    | _ =>
      cases hi
      rfl

/-- What is assembled from contributions that are moved. -/
theorem assemble_relocate (h : List.Forall₂ (Omittable.Moved f) items items') :
    Omittable.assemble (l.map f) items' = (Omittable.assemble l items).relocate f := by
  have hfold :
      items'.foldr (fun item tail => Omittable.onto (l.map f) tail item) (.list [] (l.map f)) =
        (items.foldr (fun item tail => Omittable.onto l tail item) (.list [] l)).relocate f := by
    induction h with
    | nil => rfl
    | cons hi _ ih => rw [List.foldr_cons, List.foldr_cons, ih, hi.onto]
  unfold Omittable.assemble
  dsimp only
  rw [any_isOptional_of_moved h, hfold]
  generalize items.foldr (fun item tail => Omittable.onto l tail item) (.list [] l) = e
  split
  · rfl
  · cases e with
    | list es m =>
      rcases es with _ | ⟨a, _ | ⟨b, es⟩⟩ <;> rfl
    | extension name payload m => cases payload <;> rfl
    | _ => rfl

theorem mapM_contribution_relocate {args : List Argument} (h : ∀ a ∈ args, a.IsReadable)
    (hk : ∀ a ∈ args, ∀ l, Expr.extension "here" none l ∉ a.extensions) :
    Expanding.Moved f (List.Forall₂ (Omittable.Moved f)) (args.mapM (·.contribution .standard))
      ((args.map (Argument.relocate f)).mapM (·.contribution .standard)) := by
  induction args with
  | nil => exact .nil
  | cons a args ih =>
    obtain ⟨h₁, h₂⟩ := List.forall_mem_cons.mp h
    obtain ⟨hk₁, hk₂⟩ := List.forall_mem_cons.mp hk
    rw [List.map_cons, List.mapM_cons, List.mapM_cons]
    refine (h₁.contribution_relocate hk₁).bind fun item item' hitem => ?_
    exact (ih h₂ hk₂).bind fun items items' hitems => .cons hitem hitems

theorem Message.arguments_relocate (e : Expr) :
    Message.arguments (e.relocate f) = (Message.arguments e).map (Argument.relocate f) := by
  cases e with
  | apply g args m =>
    rw [Expr.relocate, Message.arguments, Message.arguments, relocateArguments_eq_map]
    rfl
  | extension name payload m => cases payload <;> rfl
  | _ => rfl

/-- The code of a message that is moved. -/
theorem Message.expand_relocate {payload : Option Expr} (h : ∀ e, payload = some e → e.IsReadable)
    (hk : ∀ l, Expr.extension "here" none l ∉ payloadExtensions payload) :
    Expanding.Moved f (fun code code' => code' = code.relocate f)
      (Message.expand .standard l payload)
      (Message.expand .standard (l.map f) (payload.map (Expr.relocate f))) := by
  cases payload with
  | none => rfl
  | some e =>
    have he := h e rfl
    have hargs : ∀ a ∈ Message.arguments e, ∀ l, Expr.extension "here" none l ∉ a.extensions := by
      intro a ha l hl
      refine hk l ?_
      show _ ∈ e.extensions
      rw [← flatMap_arguments]
      exact List.mem_flatMap.mpr ⟨a, ha, hl⟩
    simp only [Option.map_some, Message.expand, Message.assemble, Message.arguments_relocate,
      he.location_relocate]
    refine (mapM_contribution_relocate (isReadable_arguments he) hargs).bind ?_
    exact fun items items' hitems => assemble_relocate hitems

end

/-! ## Uses -/

/-- No place is asked for in a tree. -/
def NoPlaces (xs : List Expr) : Prop := ∀ payload l, Expr.extension "here" payload l ∉ xs

section

variable {name : String} {payload : Option Expr} {l : Option Location}

/-- The code of a use that is moved. -/
theorem Setting.code_relocate (h : (Expr.extension name payload l).IsReadable)
    (hk : NoPlaces (Expr.extension name payload l).extensions) :
    Expanding.Moved f (fun code code' => code' = code.relocate f)
      (standard.code (.extension name payload l))
      (standard.code (.extension name (payload.map (Expr.relocate f)) (l.map f))) := by
  simp only [code]
  cases hx : standard.registry.find? name with
  | none => rfl
  | some x =>
    rcases Registry.find?_standard hx with ⟨rfl, rfl⟩ | ⟨rfl, rfl⟩
    · refine Message.expand_relocate (fun e he => ?_) fun l' hl' => hk none l' ?_
      · subst he
        cases h with
        | payload _ he => exact he
      · rw [Expr.extensions_extension]
        exact List.mem_cons_of_mem _ hl'
    · refine absurd ?_ (hk payload l)
      rw [Expr.extensions_extension]
      exact List.mem_cons_self

end

/-! ## Trees -/

/-- The expansion moved: its value by `g`, and its failures. -/
def Expansion.moved {α β : Type} (f : Location → Location) (g : α → β) (x : Expansion α) :
    Expansion β :=
  ⟨g x.value, x.expanded, x.failedCount, x.failures.map (ExpansionFailure.relocate f)⟩

theorem Expansion.moved_bind {α β γ δ : Type} {g : α → β} {h : γ → δ} {x : Expansion α}
    {k : α → Expansion γ} {k' : β → Expansion δ} (hk : k' (g x.value) = (k x.value).moved f h) :
    (x.moved f g >>= k') = (x >>= k).moved f h := by
  simp only [bind, moved, hk, List.map_append]

/-- A use that is moved becomes what it becomes, moved. -/
def Site.MovesAt (site : Site) (f : Location → Location) (x : Expr) : Prop :=
  (x.relocate f).replaceExtensions site = (x.replaceExtensions site).moved f (Expr.relocate f)

section

variable {site : Site}

theorem replaceInExprs_relocate {es : List Expr} (h : ∀ e ∈ es, site.MovesAt f e) :
    replaceInExprs site (es.map (Expr.relocate f)) =
      (replaceInExprs site es).moved f (List.map (Expr.relocate f)) := by
  induction es with
  | nil => rfl
  | cons e es ih =>
    obtain ⟨he, hes⟩ := List.forall_mem_cons.mp h
    rw [List.map_cons, replaceInExprs, replaceInExprs, he]
    refine Expansion.moved_bind ?_
    rw [ih hes]
    exact Expansion.moved_bind rfl

theorem replaceInArguments_relocate {args : List Argument} (hl : ∀ a ∈ args, a.IsLabelled)
    (h : ∀ label e, .mk label e ∈ args → site.MovesAt f e) :
    replaceInArguments site (args.map (Argument.relocate f)) =
      (replaceInArguments site args).moved f (List.map (Argument.relocate f)) := by
  induction args with
  | nil => rfl
  | cons a args ih =>
    obtain ⟨hl₁, hl₂⟩ := List.forall_mem_cons.mp hl
    cases a with
    | other n => exact absurd hl₁ id
    | mk label e =>
      have he := h label e List.mem_cons_self
      rw [List.map_cons, Argument.relocate, replaceInArguments, replaceInArguments, he]
      refine Expansion.moved_bind ?_
      rw [ih hl₂ fun label e he => h label e (List.mem_cons_of_mem _ he)]
      exact Expansion.moved_bind rfl

theorem replaceInArms_relocate {arms : List Arm} (ha : ∀ a ∈ arms, a.BindsWords)
    (h : ∀ p body l, .mk p body l ∈ arms → site.MovesAt f body) :
    replaceInArms site (arms.map (Arm.relocate f)) =
      (replaceInArms site arms).moved f (List.map (Arm.relocate f)) := by
  induction arms with
  | nil => rfl
  | cons a arms ih =>
    obtain ⟨ha₁, ha₂⟩ := List.forall_mem_cons.mp ha
    cases a with
    | other n => exact absurd ha₁ id
    | mk p body l =>
      have hbody := h p body l List.mem_cons_self
      have harm : ((Arm.mk p body l).relocate f).replaceExtensions site =
          ((Arm.mk p body l).replaceExtensions site).moved f (Arm.relocate f) := by
        rw [Arm.relocate, Arm.replaceExtensions, Arm.replaceExtensions, hbody]
        exact Expansion.moved_bind rfl
      rw [List.map_cons, replaceInArms, replaceInArms, harm]
      refine Expansion.moved_bind ?_
      rw [ih ha₂ fun p body l hm => h p body l (List.mem_cons_of_mem _ hm)]
      exact Expansion.moved_bind rfl

/-- A tree that is moved becomes what it becomes, moved, as far as the uses in it do. -/
theorem Expr.IsCode.movesAt {inArm : Bool} {e : Expr} (h : e.IsCode inArm)
    (hs : ∀ x ∈ e.outermost, site.MovesAt f x) : site.MovesAt f e := by
  induction h with
  | constant | identifier | unit => rfl
  | apply _ _ hl _ ihg iha =>
    rw [Expr.outermost, outermostOfArguments_eq_flatMap, List.forall_mem_append,
      List.forall_mem_flatMap] at hs
    rw [Site.MovesAt, Expr.relocate, relocateArguments_eq_map, Expr.replaceExtensions,
      Expr.replaceExtensions, ihg hs.1]
    refine Expansion.moved_bind ?_
    rw [replaceInArguments_relocate hl fun label e he => iha label e he (hs.2 _ he)]
    exact Expansion.moved_bind <| by
      rw [← relocateArguments_eq_map]
      rfl
  | constraint _ _ ih =>
    rw [Site.MovesAt, Expr.relocate, Expr.replaceExtensions, Expr.replaceExtensions, ih hs]
    exact Expansion.moved_bind rfl
  | extension => exact hs _ (List.mem_singleton_self _)
  | tuple _ _ ih =>
    rw [Expr.outermost, outermostOfExprs_eq_flatMap, List.forall_mem_flatMap] at hs
    rw [Site.MovesAt, Expr.relocate, relocateExprs_eq_map, Expr.replaceExtensions,
      Expr.replaceExtensions, replaceInExprs_relocate fun e he => ih e he (hs e he)]
    exact Expansion.moved_bind <| by
      rw [← relocateExprs_eq_map]
      rfl
  | list _ ih =>
    rw [Expr.outermost, outermostOfExprs_eq_flatMap, List.forall_mem_flatMap] at hs
    rw [Site.MovesAt, Expr.relocate, relocateExprs_eq_map, Expr.replaceExtensions,
      Expr.replaceExtensions, replaceInExprs_relocate fun e he => ih e he (hs e he)]
    exact Expansion.moved_bind <| by
      rw [← relocateExprs_eq_map]
      rfl
  | binary _ _ ihl ihr =>
    rw [Expr.outermost, List.forall_mem_append] at hs
    rw [Site.MovesAt, Expr.relocate, Expr.replaceExtensions, Expr.replaceExtensions, ihl hs.1]
    refine Expansion.moved_bind ?_
    rw [ihr hs.2]
    exact Expansion.moved_bind rfl
  | cons _ _ _ ihh iht =>
    rw [Expr.outermost, List.forall_mem_append] at hs
    rw [Site.MovesAt, Expr.relocate, Expr.replaceExtensions, Expr.replaceExtensions, ihh hs.1]
    refine Expansion.moved_bind ?_
    rw [iht hs.2]
    exact Expansion.moved_bind rfl
  | matching _ ha _ ihe ihb =>
    rw [Expr.outermost, outermostOfArms_eq_flatMap, List.forall_mem_append,
      List.forall_mem_flatMap] at hs
    rw [Site.MovesAt, Expr.relocate, relocateArms_eq_map, Expr.replaceExtensions,
      Expr.replaceExtensions, ihe hs.1]
    refine Expansion.moved_bind ?_
    rw [replaceInArms_relocate ha fun p body l hm => ihb p body l hm (hs.2 _ hm)]
    exact Expansion.moved_bind <| by
      rw [← relocateArms_eq_map]
      rfl

end

/-- The uses in the code of a use ask for no place where there is none in its payload. -/
theorem NoPlaces.sublist {xs ys : List Expr} (h : NoPlaces ys) (hs : xs.Sublist ys) : NoPlaces xs :=
  fun payload l hx => h payload l (hs.subset hx)

/-- The uses that stand in no payload are among the extensions of a tree. -/
theorem Expr.IsCode.extensions_of_outermost {inArm : Bool} {e x : Expr} (h : e.IsCode inArm)
    (hx : x ∈ e.outermost) : x.IsUse ∧ x.extensions.Sublist e.extensions := by
  rw [h.isProper.extensions_eq_flatMap]
  exact ⟨h.isUse x hx, List.sublist_flatten_of_mem (List.mem_map_of_mem hx)⟩

theorem Expr.IsUse.exists_eq {x : Expr} (h : x.IsUse) :
    ∃ name payload l, x = .extension name payload l ∧
      (Expr.extension name payload l).IsReadable := by
  obtain ⟨hx, hr⟩ := h
  obtain ⟨name, payload, l, rfl⟩ := Expr.exists_of_isExtension hx
  exact ⟨name, payload, l, rfl, hr⟩

theorem Expr.relocate_extension (name : String) (payload : Option Expr) (l : Option Location) :
    (Expr.extension name payload l).relocate f =
      .extension name (payload.map (Expr.relocate f)) (l.map f) := by
  cases payload <;> rfl

/-- A use that is moved becomes what it becomes, moved, however often expansions may follow one
another. -/
theorem Setting.movesAt_siteWithin (depth : Nat) {x : Expr} (hx : x.IsUse)
    (hk : NoPlaces x.extensions) : (standard.siteWithin depth).MovesAt f x := by
  -- the code of a use has uses of its payload only, so the induction is on the number of expansions
  induction depth generalizing x with
  | zero =>
    obtain ⟨name, payload, l, rfl, hr⟩ := hx.exists_eq
    rw [Site.MovesAt, Expr.relocate_extension]
    simp only [Expr.replaceExtensions, siteWithin]
    rw [← Expr.relocate_extension]
    rfl
  | succ depth ih =>
    obtain ⟨name, payload, l, rfl, hr⟩ := hx.exists_eq
    have hcode := code_relocate (f := f) hr hk
    rw [Site.MovesAt, Expr.relocate_extension]
    cases hc : standard.code (.extension name payload l) with
    | error failure =>
      cases hc' : standard.code (.extension name (payload.map (Expr.relocate f)) (l.map f)) with
      | ok code' =>
        rw [hc, hc'] at hcode
        exact absurd hcode id
      | error failure' =>
        rw [hc, hc'] at hcode
        rw [replaceExtensions_of_error hc, replaceExtensions_of_error hc', hcode,
          ← Expr.relocate_extension]
        rfl
    | ok code =>
      cases hc' : standard.code (.extension name (payload.map (Expr.relocate f)) (l.map f)) with
      | error failure' =>
        rw [hc, hc'] at hcode
        exact absurd hcode id
      | ok code' =>
        rw [hc, hc'] at hcode
        have hexpansion : IsExpansion false payload (standard.code (.extension name payload l)) :=
          isExpansion_code hr
        rw [hc] at hexpansion
        obtain ⟨hcodeIs, hsub⟩ := hexpansion
        have hpayload : (payloadExtensions payload).Sublist
            (Expr.extension name payload l).extensions := by
          rw [Expr.extensions_extension]
          exact List.sublist_cons_self _ _
        have hmoves : (standard.siteWithin depth).MovesAt f code := by
          refine hcodeIs.movesAt fun y hy => ?_
          obtain ⟨huse, hysub⟩ := hcodeIs.extensions_of_outermost hy
          exact ih huse (hk.sublist ((hysub.trans hsub).trans hpayload))
        rw [replaceExtensions_of_ok hc, replaceExtensions_of_ok hc', hcode, hmoves]
        rfl

/-! ## Programs -/

theorem Expr.IsCode.location_relocate {inArm : Bool} {e : Expr} (h : e.IsCode inArm) :
    (e.relocate f).location = e.location.map f := by
  cases h with
  | @extension _ name payload l _ => cases payload <;> rfl
  | _ => rfl

section

variable {site : Site} {depth : Nat}

theorem Statement.IsReadable.replaceExtensions_relocate (ha : site.Accounts depth) {s : Statement}
    (h : s.IsReadable) (hd : s.extensions.length ≤ depth)
    (hs : ∀ x ∈ s.outermost, site.MovesAt f x) :
    (s.relocate f).replaceExtensions site =
      (s.replaceExtensions site).moved f (Statement.relocate f) := by
  cases h with
  | binding _ he =>
    have hcode : Expr.IsCode false _ := he.isCode
    rw [Statement.relocate, Statement.replaceExtensions, Statement.replaceExtensions,
      hcode.movesAt hs]
    exact Expansion.moved_bind rfl
  | @expression e l he =>
    have hcode : e.IsCode false := he.isCode
    obtain ⟨-, hvalue⟩ := hcode.accounts ha hd
    rw [Statement.relocate, Statement.replaceExtensions, Statement.replaceExtensions,
      hcode.movesAt hs]
    refine Expansion.moved_bind ?_
    -- a statement without a location is where its expression is
    have hlocation : (l.map f <|> ((e.replaceExtensions site).value.relocate f).location) =
        (l <|> (e.replaceExtensions site).value.location).map f := by
      rw [hvalue.location_relocate]
      cases l <;> rfl
    rw [Statement.ofExpr, hlocation]
    rfl

theorem replaceInStatements_relocate (ha : site.Accounts depth) {ss : List Statement}
    (h : ∀ s ∈ ss, s.IsReadable) (hd : (ss.flatMap Statement.extensions).length ≤ depth)
    (hs : ∀ s ∈ ss, ∀ x ∈ s.outermost, site.MovesAt f x) :
    replaceInStatements site (ss.map (Statement.relocate f)) =
      (replaceInStatements site ss).moved f (List.map (Statement.relocate f)) := by
  induction ss with
  | nil => rfl
  | cons s ss ih =>
    rw [List.flatMap_cons, List.length_append] at hd
    obtain ⟨h₁, h₂⟩ := List.forall_mem_cons.mp h
    obtain ⟨hs₁, hs₂⟩ := List.forall_mem_cons.mp hs
    rw [List.map_cons, replaceInStatements, replaceInStatements,
      h₁.replaceExtensions_relocate ha (by omega) hs₁]
    refine Expansion.moved_bind ?_
    rw [ih h₂ (by omega) hs₂]
    exact Expansion.moved_bind rfl

end

theorem argumentsExtensionCount_relocate {args : List Argument} (hl : ∀ a ∈ args, a.IsLabelled)
    (h : ∀ label e, .mk label e ∈ args → (e.relocate f).extensionCount = e.extensionCount) :
    argumentsExtensionCount (args.map (Argument.relocate f)) = argumentsExtensionCount args := by
  induction args with
  | nil => rfl
  | cons a args ih =>
    obtain ⟨hl₁, hl₂⟩ := List.forall_mem_cons.mp hl
    cases a with
    | other n => exact absurd hl₁ id
    | mk label e =>
      rw [List.map_cons, Argument.relocate, argumentsExtensionCount, argumentsExtensionCount,
        h label e List.mem_cons_self,
        ih hl₂ fun label e he => h label e (List.mem_cons_of_mem _ he)]

theorem exprsExtensionCount_relocate {es : List Expr}
    (h : ∀ e ∈ es, (e.relocate f).extensionCount = e.extensionCount) :
    exprsExtensionCount (es.map (Expr.relocate f)) = exprsExtensionCount es := by
  induction es with
  | nil => rfl
  | cons e es ih =>
    obtain ⟨he, hes⟩ := List.forall_mem_cons.mp h
    rw [List.map_cons, exprsExtensionCount, exprsExtensionCount, he, ih hes]

theorem Expr.IsReadable.extensionCount_relocate {e : Expr} (h : e.IsReadable) :
    (e.relocate f).extensionCount = e.extensionCount := by
  induction h with
  | constant | identifier | extension | unit => rfl
  | apply _ _ hl _ ihg iha =>
    rw [Expr.relocate, relocateArguments_eq_map, extensionCount, extensionCount, ihg,
      argumentsExtensionCount_relocate hl iha]
  | constraint _ _ ih => rw [Expr.relocate, extensionCount, extensionCount, ih]
  | payload _ _ ih => rw [Expr.relocate, extensionCount, extensionCount, ih]
  | tuple _ _ ih =>
    rw [Expr.relocate, relocateExprs_eq_map, extensionCount, extensionCount,
      exprsExtensionCount_relocate ih]
  | list _ ih =>
    rw [Expr.relocate, relocateExprs_eq_map, extensionCount, extensionCount,
      exprsExtensionCount_relocate ih]
  | binary _ _ ihl ihr => rw [Expr.relocate, extensionCount, extensionCount, ihl, ihr]

theorem statementsExtensionCount_relocate {ss : List Statement} (h : ∀ s ∈ ss, s.IsReadable) :
    statementsExtensionCount (ss.map (Statement.relocate f)) = statementsExtensionCount ss := by
  induction ss with
  | nil => rfl
  | cons s ss ih =>
    obtain ⟨h₁, h₂⟩ := List.forall_mem_cons.mp h
    have hs : (s.relocate f).extensionCount = s.extensionCount := by
      cases h₁ with
      | binding _ he => exact he.extensionCount_relocate
      | expression he => exact he.extensionCount_relocate
    rw [List.map_cons, statementsExtensionCount, statementsExtensionCount, hs, ih h₂]

/-- A program without `[%here]` that is moved expands to what it expands to, moved, and fails where
it does. -/
theorem Program.IsReadable.expand_relocate {p p' : Program} (h : p.IsReadable)
    (hk : NoPlaces p.extensions) (hp : p'.statements = p.statements.map (Statement.relocate f)) :
    (p'.expand .standard).value.statements =
        (p.expand .standard).value.statements.map (Statement.relocate f) ∧
      (p'.expand .standard).failures =
        (p.expand .standard).failures.map (ExpansionFailure.relocate f) := by
  have hcount := h.isProper.extensionCount_eq
  have hdepth : (p.statements.flatMap Statement.extensions).length ≤
      Setting.standard.depth (statementsExtensionCount p.statements) := by
    rw [hcount, ← extensions_eq_flatMap]
    show _ ≤ (_ + 1) * 3
    omega
  have hmoves : ∀ s ∈ p.statements, ∀ x ∈ s.outermost,
      (Setting.standard.siteWithin
        (Setting.standard.depth (statementsExtensionCount p.statements))).MovesAt f x := by
    intro s hs x hx
    have hcode : ∀ s ∈ p.statements, s.IsCode := fun s hs => (h s hs).isCode
    have hmem : x ∈ p.outermost := by
      rw [outermost, outermostOfStatements_eq_flatMap]
      exact List.mem_flatMap.mpr ⟨s, hs, hx⟩
    have hsub : x.extensions.Sublist p.extensions := by
      rw [extensions_eq_flatMap_outermost hcode]
      exact List.sublist_flatten_of_mem (List.mem_map_of_mem hmem)
    exact Setting.movesAt_siteWithin _ ((hcode s hs).isUse x hx) (hk.sublist hsub)
  have hvalue := replaceInStatements_relocate (f := f) (Setting.accounts_siteWithin _) h hdepth
    hmoves
  simp only [Program.expand, hp, statementsExtensionCount_relocate h, hvalue]
  exact ⟨rfl, by simp [Expansion.moved]⟩

end MessageLang
