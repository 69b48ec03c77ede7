import MessageLang.Proofs.Evaluation.Lookups
import MessageLang.Proofs.Evaluation.Patterns
import MessageLang.Proofs.Meaning.Basic
/-!
# The names that messages refer to

The code of a message refers to `Sexp.Atom`, `Sexp.List` and the converters of the module `Conv`. No
binding of a program and no variable of a generated match has such a name, since words have no
points; only the inputs of a program can rebind them.

* `IsReserved`: these names.
* `Environment.IsStandard`: an environment in which they have the values that they have initially.
* `Environment.IsStandard.push`, `Environment.IsStandard.set`: words do not hide them.
* `isStandard_withInputs`: nor do inputs with other names.
-/
namespace MessageLang

/-- The names of what S-expressions are built with, and of the converters of `Conv`. -/
def IsReserved (name : String) : Prop :=
  name = "Sexp.Atom" ∨ name = "Sexp.List" ∨ "Conv.sexp_of_".toList <+: name.toList

theorem IsReserved.mem_point {name : String} (h : IsReserved name) : '.' ∈ name.toList := by
  rcases h with rfl | rfl | ⟨rest, h⟩
  · decide
  · decide
  · rw [← h]
    exact List.mem_append_left _ (by decide)

theorem isReserved_converter (k : LiteralKind) : IsReserved ("Conv.sexp_of_" ++ k.name) :=
  .inr (.inr ⟨k.name.toList, by rw [String.toList_append]⟩)

theorem isReserved_tupleName : IsReserved Converter.tupleName :=
  .inr (.inr ⟨"tuple".toList, rfl⟩)

theorem IsWordName.not_mem_point {name : String} (h : IsWordName name) : '.' ∉ name.toList :=
  fun hm => absurd (h.isNameChar _ hm) (by decide)

namespace Environment

variable {env env' : Environment} {name : String}

/-- An environment in which the names that messages refer to have their initial values. -/
structure IsStandard (env : Environment) : Prop where
  atom : env.get? "Sexp.Atom" = some (.builtin .makeAtom)
  list : env.get? "Sexp.List" = some (.builtin .makeList)
  constant : ∀ k : LiteralKind,
    env.get? ("Conv.sexp_of_" ++ k.name) = some (.builtin (.scalar k.scalar))
  tuple : env.get? Converter.tupleName = some (.builtin (.family .tuple))

theorem IsStandard.of_get? (h : env.IsStandard)
    (he : ∀ name, IsReserved name → env'.get? name = env.get? name) : env'.IsStandard where
  atom := (he _ (.inl rfl)).trans h.atom
  list := (he _ (.inr (.inl rfl))).trans h.list
  constant k := (he _ (isReserved_converter k)).trans (h.constant k)
  tuple := (he _ isReserved_tupleName).trans h.tuple

/-- Words do not hide names with points. -/
theorem get?_push_of_words {b : Bindings} (hb : ∀ key ∈ b.keys, IsWordName key)
    (hn : '.' ∈ name.toList) : (env.push b).get? name = env.get? name :=
  get?_push_of_notMem fun hk => (hb name hk).not_mem_point hn

theorem IsStandard.push (h : env.IsStandard) {b : Bindings}
    (hb : ∀ key ∈ b.keys, IsWordName key) : (env.push b).IsStandard :=
  h.of_get? fun _ hn => get?_push_of_words hb hn.mem_point

theorem IsStandard.set (h : env.IsStandard) {k : String} (hk : IsWordName k) (v : Value) :
    (env.set k v).IsStandard := by
  refine h.of_get? fun name hn => get?_set_of_ne ?_ v
  intro heq
  subst heq
  exact hk.not_mem_point hn.mem_point

theorem isStandard_initial : Environment.initial.IsStandard where
  atom := rfl
  list := rfl
  constant k := by rcases k with ⟨_ | _ | _ | _⟩ | _ | _ | _ <;> rfl
  tuple := rfl

/-- Inputs with other names leave the environment standard. -/
theorem isStandard_withInputs {inputs : Bindings}
    (h : ∀ name ∈ inputs.keys, ¬ IsReserved name) : (withInputs inputs).IsStandard :=
  isStandard_initial.of_get? fun name hn => get?_setAll_of_notMem fun hm => h name hm hn

end Environment

/-! ## The converters of types -/

/-- The names of converters are longer than those of generated variables. -/
theorem Converter.length_name (n : String) : 8 ≤ (Converter.name n).length := by
  have hprefix : "sexp_of_".length = 8 := rfl
  unfold Converter.name
  simp only [String.length_append, hprefix]
  omega

mutual
/-- The value of a type's converter hangs on the names of converters only. -/
theorem TypeExpr.conversion?_congr {env env' : Environment}
    (hn : ∀ name, env'.get? (Converter.name name) = env.get? (Converter.name name)) :
    (t : TypeExpr) → t.conversion? env' = t.conversion? env
  | .named name args _ => by
    rw [TypeExpr.conversion?, TypeExpr.conversion?, hn, conversions?_congr hn args]
  | .tuple ts _ => by rw [TypeExpr.conversion?, TypeExpr.conversion?, conversions?_congr hn ts]
  | .other _ => rfl

theorem conversions?_congr {env env' : Environment}
    (hn : ∀ name, env'.get? (Converter.name name) = env.get? (Converter.name name)) :
    (ts : List TypeExpr) → conversions? env' ts = conversions? env ts
  | [] => rfl
  | t :: ts => by
    rw [conversions?, conversions?, t.conversion?_congr hn, conversions?_congr hn ts]
end

end MessageLang
