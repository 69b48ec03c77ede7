import MessageLang.Proofs.Syntax.Extensions
import MessageLang.Proofs.Syntax.Readable
/-!
# Code

`Expr.IsCode inArm e` holds of the trees that programs and expansions consist of: those that texts
can be read as, with matches and `::` in the places where expansions put them. Outside the arms of
matches, the tail of a `::` is a match or another `::`. Patterns bind words only. Payloads are as
they were read.

* `Expr.IsReadable.isCode`: what is read is code.
* `Expr.IsCode.isReadable`: code that holds no match could be read.
* `Expr.IsReadable.all`: so could every part of what could be read.
* `Expr.IsCode.extensions_eq_nil`: code without outermost extensions has none at all.
-/
namespace MessageLang

/-- Whether an expression is of a kind that occurs in generated code only. -/
def Expr.isGenerated : Expr → Bool
  | .cons _ _ _ | .matching _ _ _ => true
  | _ => false

def Expr.isMatching : Expr → Bool
  | .matching _ _ _ => true
  | _ => false

mutual
/-- The variables of a pattern. -/
def Pattern.names : Pattern → List String
  | .wildcard _ | .variant _ none _ | .other _ => []
  | .var name _ => [name]
  | .variant _ (some p) _ => p.names
  | .tuple ps _ | .list ps _ | .alternatives ps _ => namesOfPatterns ps
  | .cons head tail _ => head.names ++ tail.names
  | .aliased p name _ => name :: p.names

def namesOfPatterns : List Pattern → List String
  | [] => []
  | p :: rest => p.names ++ namesOfPatterns rest
end

/-- An arm whose pattern binds words only. -/
def Arm.BindsWords : Arm → Prop
  | .mk p _ _ => ∀ name ∈ p.names, IsWordName name
  | .other _ => False

inductive Expr.IsCode : Bool → Expr → Prop where
  | constant {inArm : Bool} {c : Constant} : c.IsLiteral → IsCode inArm (.constant c)
  | identifier {inArm : Bool} {name : String} {l : Option Location} :
    Terminal.IsLongName name.toList → IsCode inArm (.identifier name l)
  | apply {inArm : Bool} {f : Expr} {args : List Argument} {l : Option Location} :
    IsCode inArm f → args ≠ [] → (∀ a ∈ args, a.IsLabelled) →
    (∀ label e, .mk label e ∈ args → IsCode inArm e) → IsCode inArm (.apply f args l)
  | constraint {inArm : Bool} {e : Expr} {t : TypeExpr} {l : Option Location} :
    IsCode inArm e → t.IsReadable → IsCode inArm (.constraint e t l)
  | extension {inArm : Bool} {name : String} {payload : Option Expr} {l : Option Location} :
    (Expr.extension name payload l).IsReadable → IsCode inArm (.extension name payload l)
  | tuple {inArm : Bool} {es : List Expr} {l : Option Location} :
    2 ≤ es.length → (∀ e ∈ es, IsCode inArm e) → IsCode inArm (.tuple es l)
  | list {inArm : Bool} {es : List Expr} {l : Option Location} :
    (∀ e ∈ es, IsCode inArm e) → IsCode inArm (.list es l)
  | unit {inArm : Bool} {l : Option Location} : IsCode inArm (.unit l)
  | binary {inArm : Bool} {left right : Expr} {op : Operator} {l : Option Location} :
    IsCode inArm left → IsCode inArm right → IsCode inArm (.binary left op right l)
  | cons {inArm : Bool} {head tail : Expr} {l : Option Location} :
    (inArm = true ∨ tail.isGenerated = true) → IsCode inArm head → IsCode inArm tail →
    IsCode inArm (.cons head tail l)
  | matching {inArm : Bool} {e : Expr} {arms : List Arm} {l : Option Location} :
    IsCode inArm e → (∀ a ∈ arms, a.BindsWords) →
    (∀ p body l, .mk p body l ∈ arms → IsCode true body) → IsCode inArm (.matching e arms l)

/-- A statement that consists of code. -/
inductive Statement.IsCode : Statement → Prop where
  | binding {name : String} {e : Expr} {l : Option Location} :
    IsWordName name → e.IsCode false → IsCode (.binding name e l)
  | expression {e : Expr} {l : Option Location} : e.IsCode false → IsCode (.expression e l)

theorem Expr.IsReadable.isCode {inArm : Bool} {e : Expr} (h : e.IsReadable) : e.IsCode inArm := by
  induction h with
  | constant hc => exact .constant hc
  | identifier hn => exact .identifier hn
  | apply _ hne hl _ ihf iha => exact .apply ihf hne hl iha
  | constraint _ ht ih => exact .constraint ih ht
  | extension hn => exact .extension (.extension hn)
  | payload hn he => exact .extension (.payload hn he)
  | tuple hlen _ ih => exact .tuple hlen ih
  | list _ ih => exact .list ih
  | unit => exact .unit
  | binary _ _ ihl ihr => exact .binary ihl ihr

theorem Statement.IsReadable.isCode {s : Statement} (h : s.IsReadable) : s.IsCode := by
  cases h with
  | binding hn he => exact .binding hn he.isCode
  | expression he => exact .expression he.isCode

namespace Expr

variable {inArm : Bool} {e : Expr}

theorem IsCode.call {f : Expr} {es : List Expr} {l : Option Location} (hf : f.IsCode inArm)
    (hne : es ≠ []) (he : ∀ e ∈ es, e.IsCode inArm) : (Expr.call f es l).IsCode inArm := by
  refine .apply hf (by simpa using hne) (fun a ha => ?_) fun label e ha => ?_
  · obtain ⟨e, -, rfl⟩ := List.mem_map.mp ha
    trivial
  · obtain ⟨e', he', h⟩ := List.mem_map.mp ha
    cases h
    exact he e he'

/-- Outside the arms of matches, what only generated code has does not occur without a match. -/
theorem IsCode.isReadable (h : e.IsCode false) (hm : e.All fun x => x.isMatching = false) :
    e.IsReadable := by
  generalize hb : false = inArm at h
  induction h with
  | constant hc => exact .constant hc
  | identifier hn => exact .identifier hn
  | apply _ hne hl _ ihf iha =>
    obtain ⟨-, hf, ha⟩ := all_apply.mp hm
    exact .apply (ihf hf hb) hne hl fun label e he => iha label e he (ha _ he) hb
  | constraint _ ht ih => exact .constraint (ih (all_constraint.mp hm).2 hb) ht
  | extension he => exact he
  | tuple hlen _ ih => exact .tuple hlen fun e he => ih e he ((all_tuple.mp hm).2 e he) hb
  | list _ ih => exact .list fun e he => ih e he ((all_list.mp hm).2 e he) hb
  | unit => exact .unit
  | binary _ _ ihl ihr =>
    obtain ⟨-, hl, hr⟩ := all_binary.mp hm
    exact .binary (ihl hl hb) (ihr hr hb)
  | @cons _ head tail l hg _ htail _ iht =>
    subst hb
    rcases hg with hg | hg
    · cases hg
    have ht := iht (fun x hx => hm x (List.mem_cons_of_mem _ (List.mem_append_right _ hx))) rfl
    cases ht <;> cases hg
  | matching => exact absurd hm.self (by simp [isMatching])

/-- The parts of what could be read could be read. -/
theorem IsReadable.all (h : e.IsReadable) : e.All IsReadable := by
  induction h with
  | constant hc => exact List.forall_mem_singleton.mpr (.constant hc)
  | identifier hn => exact List.forall_mem_singleton.mpr (.identifier hn)
  | apply hf hne hl ha ihf iha =>
    refine all_apply.mpr ⟨.apply hf hne hl ha, ihf, fun a hm => ?_⟩
    cases a with
    | mk label e => exact iha label e hm
    | other n => exact absurd (hl _ hm) id
  | constraint he ht ih => exact all_constraint.mpr ⟨.constraint he ht, ih⟩
  | extension hn => exact List.forall_mem_singleton.mpr (.extension hn)
  | payload hn he ih => exact all_extension.mpr ⟨.payload hn he, ih⟩
  | tuple hlen hes ih => exact all_tuple.mpr ⟨.tuple hlen hes, ih⟩
  | list hes ih => exact all_list.mpr ⟨.list hes, ih⟩
  | unit => exact List.forall_mem_singleton.mpr .unit
  | binary hl hr ihl ihr => exact all_binary.mpr ⟨.binary hl hr, ihl, ihr⟩

/-- Code in which no extension stands outside of payloads holds none at all. -/
theorem IsCode.extensions_eq_nil (h : e.IsCode inArm) (ho : e.outermost = []) :
    e.extensions = [] := by
  induction h with
  | constant | identifier | unit => rfl
  | @apply _ f args l _ _ hl _ ihf iha =>
    rw [outermost, outermostOfArguments_eq_flatMap, List.append_eq_nil_iff,
      List.flatMap_eq_nil_iff] at ho
    rw [extensions_apply, ihf ho.1, List.nil_append, List.flatMap_eq_nil_iff]
    intro a ha
    cases a with
    | mk label e => exact iha label e ha (ho.2 _ ha)
    | other n => exact absurd (hl _ ha) id
  | constraint _ _ ih => exact ih ho
  | extension => cases ho
  | tuple _ _ ih =>
    rw [outermost, outermostOfExprs_eq_flatMap, List.flatMap_eq_nil_iff] at ho
    rw [extensions_tuple, List.flatMap_eq_nil_iff]
    exact fun e he => ih e he (ho e he)
  | list _ ih =>
    rw [outermost, outermostOfExprs_eq_flatMap, List.flatMap_eq_nil_iff] at ho
    rw [extensions_list, List.flatMap_eq_nil_iff]
    exact fun e he => ih e he (ho e he)
  | binary _ _ ihl ihr =>
    rw [outermost, List.append_eq_nil_iff] at ho
    rw [extensions_binary, ihl ho.1, ihr ho.2, List.append_nil]
  | cons _ _ _ ihh iht =>
    rw [outermost, List.append_eq_nil_iff] at ho
    rw [extensions_cons, ihh ho.1, iht ho.2, List.append_nil]
  | matching _ ha _ ihe ihb =>
    rw [outermost, outermostOfArms_eq_flatMap, List.append_eq_nil_iff,
      List.flatMap_eq_nil_iff] at ho
    rw [extensions_matching, ihe ho.1, List.nil_append, List.flatMap_eq_nil_iff]
    intro a hm
    cases a with
    | mk p body l => exact ihb p body l hm (ho.2 _ hm)
    | other n => exact absurd (ha _ hm) id

end Expr

theorem Program.IsReadable.of_mem_parts {p : Program} (h : p.IsReadable) {x : Expr}
    (hx : x ∈ p.parts) : x.IsReadable := by
  obtain ⟨s, hs, hx⟩ := mem_partsOfStatements.mp hx
  cases h s hs with
  | binding _ he => exact he.all x hx
  | expression he => exact he.all x hx

end MessageLang
