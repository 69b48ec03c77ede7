import Mathlib.Data.List.Basic
import MessageLang.Expansion.Expand
import MessageLang.Proofs.Syntax.Code
/-!
# Proper trees

`Expr.IsProper e` holds of the trees in which every part that expansion enters is of the sort that
its place calls for. These are the trees that texts are read as, the code that they expand to, and
all that can be built by hand of the same constructors, whatever names, constants and patterns they
hold.

* `Expr.IsReadable.isProper`, `Expr.IsCode.isProper`: what is read, and code, is proper.
* `Expr.IsProper.of_mem_outermost`: so are the uses of extensions in a proper tree.
* `Expr.IsProper.extensions_eq_flatMap`: its extensions are those that stand in no payload, with
  what stands in theirs behind each of them.
* `Program.IsProper.extensionCount_eq`: the expansion counts all extensions of a proper program.
-/
namespace MessageLang

/-- Names, tuples and applications of types. -/
inductive TypeExpr.IsProper : TypeExpr → Prop where
  | named {name : String} {args : List TypeExpr} {l : Option Location} :
    (∀ t ∈ args, IsProper t) → IsProper (.named name args l)
  | tuple {ts : List TypeExpr} {l : Option Location} :
    (∀ t ∈ ts, IsProper t) → IsProper (.tuple ts l)

/-- An argument, and nothing else in its place. -/
def Argument.IsArgument : Argument → Prop
  | .mk _ _ => True
  | .other _ => False

/-- An arm, and nothing else in its place. -/
def Arm.IsArm : Arm → Prop
  | .mk _ _ _ => True
  | .other _ => False

/-- A tree of expressions, arguments, arms and types that stand where these have a meaning. -/
inductive Expr.IsProper : Expr → Prop where
  | constant {c : Constant} : IsProper (.constant c)
  | identifier {name : String} {l : Option Location} : IsProper (.identifier name l)
  | apply {f : Expr} {args : List Argument} {l : Option Location} :
    IsProper f → (∀ a ∈ args, a.IsArgument) → (∀ label e, .mk label e ∈ args → IsProper e) →
    IsProper (.apply f args l)
  | constraint {e : Expr} {t : TypeExpr} {l : Option Location} :
    IsProper e → t.IsProper → IsProper (.constraint e t l)
  | extension {name : String} {l : Option Location} : IsProper (.extension name none l)
  | payload {name : String} {e : Expr} {l : Option Location} :
    IsProper e → IsProper (.extension name (some e) l)
  | tuple {es : List Expr} {l : Option Location} : (∀ e ∈ es, IsProper e) → IsProper (.tuple es l)
  | list {es : List Expr} {l : Option Location} : (∀ e ∈ es, IsProper e) → IsProper (.list es l)
  | unit {l : Option Location} : IsProper (.unit l)
  | binary {left right : Expr} {op : Operator} {l : Option Location} :
    IsProper left → IsProper right → IsProper (.binary left op right l)
  | cons {head tail : Expr} {l : Option Location} :
    IsProper head → IsProper tail → IsProper (.cons head tail l)
  | matching {e : Expr} {arms : List Arm} {l : Option Location} :
    IsProper e → (∀ a ∈ arms, a.IsArm) → (∀ p body l, .mk p body l ∈ arms → IsProper body) →
    IsProper (.matching e arms l)

inductive Statement.IsProper : Statement → Prop where
  | binding {name : String} {e : Expr} {l : Option Location} :
    e.IsProper → IsProper (.binding name e l)
  | expression {e : Expr} {l : Option Location} : e.IsProper → IsProper (.expression e l)

def Program.IsProper (p : Program) : Prop := ∀ s ∈ p.statements, s.IsProper

/-! ## What is proper -/

theorem TypeExpr.IsReadable.isProper {t : TypeExpr} (h : t.IsReadable) : t.IsProper := by
  induction h with
  | name => exact .named nofun
  | applied _ _ ih => exact .named (List.forall_mem_singleton.mpr ih)
  | tuple _ _ ih => exact .tuple ih

theorem Argument.IsLabelled.isArgument {a : Argument} (h : a.IsLabelled) : a.IsArgument := by
  cases a with
  | mk label e => trivial
  | other n => exact h

theorem Arm.BindsWords.isArm {a : Arm} (h : a.BindsWords) : a.IsArm := by
  cases a with
  | mk p body l => trivial
  | other n => exact h

theorem Expr.IsReadable.isProper {e : Expr} (h : e.IsReadable) : e.IsProper := by
  induction h with
  | constant => exact .constant
  | identifier => exact .identifier
  | apply _ _ hl _ ihf iha => exact .apply ihf (fun a ha => (hl a ha).isArgument) iha
  | constraint _ ht ih => exact .constraint ih ht.isProper
  | extension => exact .extension
  | payload _ _ ih => exact .payload ih
  | tuple _ _ ih => exact .tuple ih
  | list _ ih => exact .list ih
  | unit => exact .unit
  | binary _ _ ihl ihr => exact .binary ihl ihr

theorem Expr.IsCode.isProper {inArm : Bool} {e : Expr} (h : e.IsCode inArm) : e.IsProper := by
  induction h with
  | constant => exact .constant
  | identifier => exact .identifier
  | apply _ _ hl _ ihf iha => exact .apply ihf (fun a ha => (hl a ha).isArgument) iha
  | constraint _ ht ih => exact .constraint ih ht.isProper
  | extension he => exact he.isProper
  | tuple _ _ ih => exact .tuple ih
  | list _ ih => exact .list ih
  | unit => exact .unit
  | binary _ _ ihl ihr => exact .binary ihl ihr
  | cons _ _ _ ihh iht => exact .cons ihh iht
  | matching _ ha _ ihe ihb => exact .matching ihe (fun a hm => (ha a hm).isArm) ihb

theorem Statement.IsCode.isProper {s : Statement} (h : s.IsCode) : s.IsProper := by
  cases h with
  | binding _ he => exact .binding he.isProper
  | expression he => exact .expression he.isProper

theorem Program.IsReadable.isProper {p : Program} (h : p.IsReadable) : p.IsProper :=
  fun s hs => (h s hs).isCode.isProper

/-! ## The extensions of proper trees -/

namespace Expr

variable {e f x : Expr} {es : List Expr} {l : Option Location}

theorem IsProper.call (hf : f.IsProper) (he : ∀ e ∈ es, e.IsProper) :
    (Expr.call f es l).IsProper := by
  refine .apply hf (fun a ha => ?_) fun label e ha => ?_
  · obtain ⟨e, -, rfl⟩ := List.mem_map.mp ha
    trivial
  · obtain ⟨e', he', h⟩ := List.mem_map.mp ha
    cases h
    exact he e he'

/-- The uses of extensions in a proper tree are proper uses. -/
theorem IsProper.of_mem_outermost (h : e.IsProper) :
    ∀ x ∈ e.outermost, x.isExtension = true ∧ x.IsProper := by
  induction h with
  | constant | identifier | unit => exact nofun
  | extension => exact List.forall_mem_singleton.mpr ⟨rfl, .extension⟩
  | payload he => exact List.forall_mem_singleton.mpr ⟨rfl, .payload he⟩
  | apply _ hl _ ihf iha =>
    rw [outermost, outermostOfArguments_eq_flatMap, List.forall_mem_append,
      List.forall_mem_flatMap]
    refine ⟨ihf, fun a ha => ?_⟩
    cases a with
    | mk label e => exact iha label e ha
    | other n => exact absurd (hl _ ha) id
  | constraint _ _ ih => exact ih
  | tuple _ ih | list _ ih =>
    rw [outermost, outermostOfExprs_eq_flatMap, List.forall_mem_flatMap]
    exact ih
  | binary _ _ ihl ihr => exact List.forall_mem_append.mpr ⟨ihl, ihr⟩
  | cons _ _ ihh iht => exact List.forall_mem_append.mpr ⟨ihh, iht⟩
  | matching _ ha _ ihe ihb =>
    rw [outermost, outermostOfArms_eq_flatMap, List.forall_mem_append, List.forall_mem_flatMap]
    refine ⟨ihe, fun a hm => ?_⟩
    cases a with
    | mk p body l => exact ihb p body l hm
    | other n => exact absurd (ha _ hm) id

/-- The extensions of a tree are the uses that stand in no payload, and the ones in their
payloads. -/
theorem IsProper.extensions_eq_flatMap (h : e.IsProper) :
    e.extensions = e.outermost.flatMap Expr.extensions := by
  induction h with
  | constant | identifier | unit => rfl
  | extension | payload => simp [outermost]
  | apply _ hl _ ihf iha =>
    rw [outermost, outermostOfArguments_eq_flatMap, List.flatMap_append, ← ihf, extensions_apply,
      List.flatMap_assoc]
    refine congrArg _ (List.flatMap_congr fun a ha => ?_)
    cases a with
    | mk label e => exact iha label e ha
    | other n => exact absurd (hl _ ha) id
  | constraint _ _ ih => exact ih
  | tuple _ ih =>
    rw [outermost, outermostOfExprs_eq_flatMap, extensions_tuple, List.flatMap_assoc]
    exact List.flatMap_congr ih
  | list _ ih =>
    rw [outermost, outermostOfExprs_eq_flatMap, extensions_list, List.flatMap_assoc]
    exact List.flatMap_congr ih
  | binary _ _ ihl ihr =>
    rw [outermost, extensions_binary, List.flatMap_append, ← ihl, ← ihr]
  | cons _ _ ihh iht =>
    rw [outermost, extensions_cons, List.flatMap_append, ← ihh, ← iht]
  | matching _ ha _ ihe ihb =>
    rw [outermost, outermostOfArms_eq_flatMap, List.flatMap_append, ← ihe, extensions_matching,
      List.flatMap_assoc]
    refine congrArg _ (List.flatMap_congr fun a hm => ?_)
    cases a with
    | mk p body l => exact ihb p body l hm
    | other n => exact absurd (ha _ hm) id

end Expr

/-! ## Their number -/

theorem exprsExtensionCount_eq {es : List Expr}
    (h : ∀ e ∈ es, e.extensionCount = e.extensions.length) :
    exprsExtensionCount es = (es.flatMap Expr.extensions).length := by
  induction es with
  | nil => rfl
  | cons e es ih =>
    obtain ⟨h₁, h₂⟩ := List.forall_mem_cons.mp h
    rw [exprsExtensionCount, h₁, ih h₂, List.flatMap_cons, List.length_append]

theorem argumentsExtensionCount_eq {args : List Argument} (hl : ∀ a ∈ args, a.IsArgument)
    (h : ∀ label e, .mk label e ∈ args → e.extensionCount = e.extensions.length) :
    argumentsExtensionCount args = (args.flatMap Argument.extensions).length := by
  induction args with
  | nil => rfl
  | cons a args ih =>
    obtain ⟨hl₁, hl₂⟩ := List.forall_mem_cons.mp hl
    cases a with
    | other n => exact absurd hl₁ id
    | mk label e =>
      have hrest := ih hl₂ fun l x hx => h l x (List.mem_cons_of_mem _ hx)
      rw [argumentsExtensionCount, h label e List.mem_cons_self, hrest, List.flatMap_cons,
        List.length_append]
      rfl

theorem armsExtensionCount_eq {arms : List Arm} (ha : ∀ a ∈ arms, a.IsArm)
    (h : ∀ p body l, .mk p body l ∈ arms → body.extensionCount = body.extensions.length) :
    armsExtensionCount arms = (arms.flatMap Arm.extensions).length := by
  induction arms with
  | nil => rfl
  | cons a arms ih =>
    obtain ⟨ha₁, ha₂⟩ := List.forall_mem_cons.mp ha
    cases a with
    | other n => exact absurd ha₁ id
    | mk p body l =>
      have hrest := ih ha₂ fun p x l hx => h p x l (List.mem_cons_of_mem _ hx)
      rw [armsExtensionCount, Arm.extensionCount, h p body l List.mem_cons_self, hrest,
        List.flatMap_cons, List.length_append]
      rfl

/-- The expansion counts the uses of extensions before it starts. -/
theorem Expr.IsProper.extensionCount_eq {e : Expr} (h : e.IsProper) :
    e.extensionCount = e.extensions.length := by
  induction h with
  | constant | identifier | unit | extension => rfl
  | apply _ hl _ ihf iha =>
    rw [Expr.extensionCount, ihf, argumentsExtensionCount_eq hl iha, Expr.extensions_apply,
      List.length_append]
  | constraint _ _ ih => exact ih
  | payload _ ih =>
    rw [Expr.extensionCount, ih]
    rfl
  | tuple _ ih =>
    rw [Expr.extensionCount, exprsExtensionCount_eq ih, Expr.extensions_tuple]
  | list _ ih =>
    rw [Expr.extensionCount, exprsExtensionCount_eq ih, Expr.extensions_list]
  | binary _ _ ihl ihr =>
    rw [Expr.extensionCount, ihl, ihr, Expr.extensions_binary, List.length_append]
  | cons _ _ ihh iht =>
    rw [Expr.extensionCount, ihh, iht, Expr.extensions_cons, List.length_append]
  | matching _ ha _ ihe ihb =>
    rw [Expr.extensionCount, ihe, armsExtensionCount_eq ha ihb, Expr.extensions_matching,
      List.length_append]

theorem Statement.IsProper.extensionCount_eq {s : Statement} (h : s.IsProper) :
    s.extensionCount = s.extensions.length := by
  cases h with
  | binding he => exact he.extensionCount_eq
  | expression he => exact he.extensionCount_eq

theorem statementsExtensionCount_eq {ss : List Statement} (h : ∀ s ∈ ss, s.IsProper) :
    statementsExtensionCount ss = (ss.flatMap Statement.extensions).length := by
  induction ss with
  | nil => rfl
  | cons s ss ih =>
    obtain ⟨h₁, h₂⟩ := List.forall_mem_cons.mp h
    rw [statementsExtensionCount, h₁.extensionCount_eq, ih h₂, List.flatMap_cons,
      List.length_append]

theorem Program.IsProper.extensionCount_eq {p : Program} (h : p.IsProper) :
    statementsExtensionCount p.statements = p.extensions.length := by
  rw [statementsExtensionCount_eq h, Program.extensions_eq_flatMap]

/-- The extensions of a proper program are the uses that stand in no payload, and the ones in their
payloads. -/
theorem Program.IsProper.extensions_eq_flatMap_outermost {p : Program} (h : p.IsProper) :
    p.extensions = p.outermost.flatMap Expr.extensions := by
  rw [Program.extensions_eq_flatMap, outermost, outermostOfStatements_eq_flatMap,
    List.flatMap_assoc]
  refine List.flatMap_congr fun s hs => ?_
  cases h s hs with
  | binding he => exact he.extensions_eq_flatMap
  | expression he => exact he.extensions_eq_flatMap

theorem Program.IsProper.of_mem_outermost {p : Program} (h : p.IsProper) :
    ∀ x ∈ p.outermost, x.isExtension = true ∧ x.IsProper := by
  rw [outermost, outermostOfStatements_eq_flatMap, List.forall_mem_flatMap]
  intro s hs
  cases h s hs with
  | binding he => exact he.of_mem_outermost
  | expression he => exact he.of_mem_outermost

end MessageLang
