import MessageLang.Proofs.Expansion.Accounts
import MessageLang.Proofs.Meaning.Messages
/-!
# The matches of generated code

Programs hold no matches; those that expansions put into them are of two kinds. One matches an
option and a list together, and puts the content of the option in front of the list; the other
tells the list of a single item from all others. So what is matched as a list is code that a list
comes out of.

* `Expr.IsGuarded listed e`: all matches in `e` are of these kinds, and if `listed` then `e` is code
  of a list.
* `Expr.IsReadable.isGuarded`: what is read is such code.
* `isGuarded_expand`: so is what the extensions make of a payload that was read.
* `Expr.IsGuarded.replaceExtensions`: code stays guarded where its extensions are replaced by such
  code.
* `compile_isGuarded`: compiled programs.
-/
namespace MessageLang

open Omittable

/-- Code in which all matches are as expansions put them together; if `listed`, code of a list. -/
inductive Expr.IsGuarded : (listed : Bool) → Expr → Prop where
  | constant {c : Constant} : IsGuarded false (.constant c)
  | identifier {name : String} {l : Option Location} : IsGuarded false (.identifier name l)
  | apply {f : Expr} {args : List Argument} {l : Option Location} :
    IsGuarded false f → (∀ a ∈ args, a.IsLabelled) →
    (∀ label e, .mk label e ∈ args → IsGuarded false e) → IsGuarded false (.apply f args l)
  | constraint {e : Expr} {t : TypeExpr} {l : Option Location} :
    IsGuarded false e → IsGuarded false (.constraint e t l)
  | extension {name : String} {payload : Option Expr} {l : Option Location} :
    (Expr.extension name payload l).IsReadable → IsGuarded false (.extension name payload l)
  | tuple {es : List Expr} {l : Option Location} :
    (∀ e ∈ es, IsGuarded false e) → IsGuarded false (.tuple es l)
  | list {listed : Bool} {es : List Expr} {l : Option Location} :
    (∀ e ∈ es, IsGuarded false e) → IsGuarded listed (.list es l)
  | unit {l : Option Location} : IsGuarded false (.unit l)
  | binary {left right : Expr} {op : Operator} {l : Option Location} :
    IsGuarded false left → IsGuarded false right → IsGuarded false (.binary left op right l)
  | cons {listed : Bool} {head tail : Expr} {l : Option Location} :
    IsGuarded false head → IsGuarded false tail → IsGuarded listed (.cons head tail l)
  | onto {listed : Bool} {e tail : Expr} {l l' : Option Location} {wrap : Expr → Expr} :
    IsGuarded false e → IsGuarded true tail → IsGuarded false (wrap (.identifier contentName l)) →
    IsGuarded listed ((optional l' e wrap).onto l tail)
  | collapse {e : Expr} {l : Option Location} :
    IsGuarded true e → IsGuarded false (collapse l e)

namespace Expr

variable {listed : Bool} {e f x tail : Expr} {l : Option Location}

/-- Code of a list is code. -/
theorem IsGuarded.code (h : e.IsGuarded true) : e.IsGuarded false := by
  cases h with
  | list hes => exact .list hes
  | cons hh ht => exact .cons hh ht
  | onto he ht hw => exact .onto he ht hw

theorem IsReadable.isGuarded (h : e.IsReadable) : e.IsGuarded false := by
  induction h with
  | constant => exact .constant
  | identifier => exact .identifier
  | apply _ _ hl _ ihf iha => exact .apply ihf hl iha
  | constraint _ _ ih => exact .constraint ih
  | extension hn => exact .extension (.extension hn)
  | payload hn he => exact .extension (.payload hn he)
  | tuple _ _ ih => exact .tuple ih
  | list _ ih => exact .list ih
  | unit => exact .unit
  | binary _ _ ihl ihr => exact .binary ihl ihr

theorem IsGuarded.call (hf : f.IsGuarded false) (hx : x.IsGuarded false) :
    (Expr.call f [x] l).IsGuarded false := by
  refine .apply hf isLabelled_positional fun label e he => ?_
  cases List.mem_singleton.mp he
  exact hx

theorem IsGuarded.tagged (hx : x.IsGuarded false) (tag : Option String) :
    (Code.tagged l tag x).IsGuarded false := by
  have htag : (Code.atom l (.constant (Code.tagConstant l tag))).IsGuarded false :=
    .call .identifier .constant
  exact .call .identifier (.list (List.forall_mem_cons.mpr ⟨htag, by simpa using hx⟩))

end Expr

/-! ## Contributions -/

/-- A contribution whose code is guarded, also around the content of an option. -/
def Omittable.IsGuarded : Omittable → Prop
  | present e => e.IsGuarded false
  | optional _ e wrap => e.IsGuarded false ∧ ∀ l, (wrap (.identifier contentName l)).IsGuarded false
  | absent => True

theorem TypeExpr.IsReadable.isGuarded_converter {t : TypeExpr} (h : t.IsReadable) {f : Expr}
    (hf : t.converter = .ok f) : f.IsGuarded false := by
  obtain ⟨f', hf', hconv⟩ := h.exists_converter
  cases hf.symm.trans hf'
  exact hconv.1.isGuarded

/-- What an expression contributes is guarded. -/
theorem Expr.Contributes.isGuarded {e : Expr} {item : Omittable} (h : e.Contributes item)
    (he : e.IsReadable) : item.IsGuarded := by
  cases h with
  | here => exact .call .identifier .constant
  | empty => trivial
  | constant => exact .call .identifier .constant
  | optional hf =>
    cases he with
    | constraint he ht =>
      cases ht with
      | applied _ ht => exact ⟨he.isGuarded, fun l => .call (ht.isGuarded_converter hf) .identifier⟩
  | annotated _ hf =>
    cases he with
    | constraint he ht => exact .call (ht.isGuarded_converter hf) he.isGuarded
  | text => exact .call .identifier he.isGuarded

theorem Omittable.IsGuarded.behind {item : Omittable} (h : item.IsGuarded)
    (tag? : Option (Option Location × String)) : (item.behind tag?).IsGuarded := by
  cases tag? with
  | none => exact h
  | some tag =>
    cases item with
    | present e => exact Expr.IsGuarded.tagged h _
    | optional l e wrap => exact ⟨h.1, fun l => (h.2 l).tagged _⟩
    | absent => trivial

/-- What arguments contribute is guarded. -/
theorem isGuarded_contributions {args : List Argument} {items : List Omittable}
    (h : ∀ a ∈ args, a.IsReadable) (hm : args.mapM (·.contribution .standard) = .ok items) :
    ∀ item ∈ items, item.IsGuarded := by
  induction args generalizing items with
  | nil =>
    cases hm
    exact nofun
  | cons a args ih =>
    obtain ⟨item, items', rfl, ha, hargs⟩ := exists_of_mapM_cons hm
    obtain ⟨h₁, h₂⟩ := List.forall_mem_cons.mp h
    refine List.forall_mem_cons.mpr ⟨?_, ih h₂ hargs⟩
    rcases h₁.contribution_cases with ⟨_, _, -, herr⟩ | ⟨_, _, item', -, -, he, hcon, hok⟩
    · cases ha.symm.trans herr
    · cases ha.symm.trans hok
      exact (hcon.isGuarded he).behind _

/-! ## Assembling contributions -/

section

variable {items : List Omittable} {tail : Expr} {l : Option Location}

theorem Omittable.IsGuarded.onto {item : Omittable} (hi : item.IsGuarded)
    (ht : tail.IsGuarded true) : (item.onto l tail).IsGuarded true := by
  cases item with
  | absent => exact ht
  | optional l' e wrap => exact .onto hi.1 ht (hi.2 l)
  | present e =>
    show (Code.prepend l e tail).IsGuarded true
    unfold Code.prepend
    split
    · cases ht with
      | list hes => exact .list (List.forall_mem_cons.mpr ⟨hi, hes⟩)
    · exact .cons hi ht.code

theorem isGuarded_foldr (h : ∀ item ∈ items, item.IsGuarded) :
    (items.foldr (fun item tail => onto l tail item) (Expr.list [] l)).IsGuarded true := by
  induction items with
  | nil => exact .list nofun
  | cons item items ih =>
    obtain ⟨h₁, h₂⟩ := List.forall_mem_cons.mp h
    exact h₁.onto (ih h₂)

/-- Assembled contributions are guarded: only the code of a list is matched as one. -/
theorem isGuarded_assemble (h : ∀ item ∈ items, item.IsGuarded) :
    (assemble l items).IsGuarded false := by
  have hfold := isGuarded_foldr (l := l) h
  unfold assemble
  dsimp only
  split
  · exact .collapse hfold
  · split
    · rename_i item l' heq
      rw [heq] at hfold
      cases hfold with
      | list hes => exact hes _ List.mem_cons_self
    · exact .call .identifier hfold.code

end

/-- What the extensions make of a payload that was read is guarded. -/
theorem isGuarded_expand {name : String} {payload : Option Expr} {l : Option Location}
    {x : ExtensionPoint} (hx : Registry.standard.find? name = some x)
    (h : (Expr.extension name payload l).IsReadable) {code : Expr}
    (hcode : x.expand .standard l payload = .ok code) : code.IsGuarded false := by
  rcases Registry.find?_standard hx with ⟨rfl, rfl⟩ | ⟨rfl, rfl⟩
  · have hcode : Message.expand .standard l payload = .ok code := hcode
    cases payload with
    | none =>
      cases hcode
      exact .call .identifier (.list nofun)
    | some e =>
      have he : e.IsReadable := by
        cases h with
        | payload _ he => exact he
      simp only [Message.expand, Message.assemble] at hcode
      cases hm : (Message.arguments e).mapM (Argument.contribution .standard) with
      | error err =>
        rw [hm] at hcode
        cases hcode
      | ok items =>
        rw [hm] at hcode
        cases hcode
        exact isGuarded_assemble (isGuarded_contributions (isReadable_arguments he) hm)
  · cases h with
    | extension =>
      cases hcode
      exact .constant
    | payload => cases hcode

/-! ## Expansion -/

/-- What becomes of a use is guarded. -/
def Site.LeavesGuarded (site : Site) : Prop :=
  ∀ name payload l, (Expr.extension name payload l).IsReadable →
    (site name payload l).value.IsGuarded false

section

variable {site : Site}

theorem isGuarded_replaceInExprs {es : List Expr}
    (h : ∀ e ∈ es, (e.replaceExtensions site).value.IsGuarded false) :
    ∀ e ∈ (replaceInExprs site es).value, e.IsGuarded false := by
  induction es with
  | nil => exact nofun
  | cons e es ih =>
    obtain ⟨he, hes⟩ := List.forall_mem_cons.mp h
    exact List.forall_mem_cons.mpr ⟨he, ih hes⟩

theorem isGuarded_replaceInArguments {args : List Argument} (hl : ∀ a ∈ args, a.IsLabelled)
    (h : ∀ label e, .mk label e ∈ args → (e.replaceExtensions site).value.IsGuarded false) :
    (∀ a ∈ (replaceInArguments site args).value, a.IsLabelled) ∧
      ∀ label e, .mk label e ∈ (replaceInArguments site args).value → e.IsGuarded false := by
  induction args with
  | nil => exact ⟨nofun, nofun⟩
  | cons a args ih =>
    obtain ⟨hl₁, hl₂⟩ := List.forall_mem_cons.mp hl
    cases a with
    | other n => exact absurd hl₁ id
    | mk label e =>
      obtain ⟨hls, hes⟩ := ih hl₂ fun label e he => h label e (List.mem_cons_of_mem _ he)
      refine ⟨List.forall_mem_cons.mpr ⟨hl₁, hls⟩, fun label' e' he => ?_⟩
      rcases List.mem_cons.mp he with he | he
      · cases he
        exact h label e List.mem_cons_self
      · exact hes label' e' he

/-- Where what becomes of uses is guarded, so is what guarded code expands to. -/
theorem Expr.IsGuarded.replaceExtensions (hs : site.LeavesGuarded) {listed : Bool} {e : Expr}
    (h : e.IsGuarded listed) : (e.replaceExtensions site).value.IsGuarded listed := by
  induction h with
  | constant => exact .constant
  | identifier => exact .identifier
  | unit => exact .unit
  | extension he => exact hs _ _ _ he
  | apply _ hl _ ihf iha =>
    obtain ⟨hls, hes⟩ := isGuarded_replaceInArguments hl iha
    exact .apply ihf hls hes
  | constraint _ ih => exact .constraint ih
  | tuple _ ih => exact .tuple (isGuarded_replaceInExprs ih)
  | list _ ih => exact .list (isGuarded_replaceInExprs ih)
  | binary _ _ ihl ihr => exact .binary ihl ihr
  | cons _ _ ihh iht => exact .cons ihh iht
  | onto _ _ _ ihe iht ihw =>
    -- What is wrapped around the content is used only once, so it may ignore its argument.
    exact @Expr.IsGuarded.onto _ _ _ _ none (fun _ => _) ihe iht ihw
  | collapse _ ih => exact .collapse ih

/-- A statement of guarded code. -/
inductive Statement.IsGuarded : Statement → Prop where
  | binding {name : String} {e : Expr} {l : Option Location} :
    e.IsGuarded false → IsGuarded (.binding name e l)
  | expression {e : Expr} {l : Option Location} : e.IsGuarded false → IsGuarded (.expression e l)

theorem isGuarded_replaceInStatements (hs : site.LeavesGuarded) {ss : List Statement}
    (h : ∀ s ∈ ss, s.IsReadable) :
    ∀ s ∈ (replaceInStatements site ss).value, s.IsGuarded := by
  induction ss with
  | nil => exact nofun
  | cons s ss ih =>
    obtain ⟨h₁, h₂⟩ := List.forall_mem_cons.mp h
    refine List.forall_mem_cons.mpr ⟨?_, ih h₂⟩
    cases h₁ with
    | binding _ he => exact .binding (he.isGuarded.replaceExtensions hs)
    | expression he => exact .expression (he.isGuarded.replaceExtensions hs)

end

/-- Expansions that may follow one another any number of times leave guarded code, also where they
fail. -/
theorem Setting.leavesGuarded_siteWithin (depth : Nat) :
    (Setting.standard.siteWithin depth).LeavesGuarded := by
  induction depth with
  | zero => exact fun _ _ _ h => .extension h
  | succ depth ih =>
    intro name payload l h
    unfold siteWithin site
    cases hx : standard.registry.find? name with
    | none => exact .extension h
    | some x =>
      dsimp only
      cases he : x.expand standard.conventions l payload with
      | error failure => exact .extension h
      | ok code => exact (isGuarded_expand hx h he).replaceExtensions ih

/-- What a text compiles to is guarded. -/
theorem compile_isGuarded {file source : String} {q : Program}
    (h : compile .standard file source = .ok q) : ∀ s ∈ q.statements, s.IsGuarded := by
  obtain ⟨p, hp, -, rfl⟩ := compile_eq_ok.mp h
  exact isGuarded_replaceInStatements (Setting.leavesGuarded_siteWithin _)
    (Program.parse_isReadable hp)

end MessageLang
