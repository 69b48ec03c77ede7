import MessageLang.Syntax.Basic
/-!
# The parts of a tree

`Expr.parts e` are the expressions that stand in `e`, outermost first and from left to right, `e`
itself at their head. Patterns and types are not entered.

* `Expr.All p e`: every part of `e` is one that `p` holds of.
-/
namespace MessageLang

mutual
/-- The expressions that stand below the root of an expression. -/
def Expr.inner : Expr → List Expr
  | .constant _ | .identifier _ _ | .unit _ | .extension _ none _ => []
  | .apply f args _ => f :: f.inner ++ partsOfArguments args
  | .constraint e _ _ | .extension _ (some e) _ => e :: e.inner
  | .tuple es _ | .list es _ => partsOfExprs es
  | .binary left _ right _ => left :: left.inner ++ right :: right.inner
  | .cons head tail _ => head :: head.inner ++ tail :: tail.inner
  | .matching e arms _ => e :: e.inner ++ partsOfArms arms
  | .other n => n.parts

def partsOfExprs : List Expr → List Expr
  | [] => []
  | e :: rest => e :: e.inner ++ partsOfExprs rest

def Argument.parts : Argument → List Expr
  | .mk _ e => e :: e.inner
  | .other n => n.parts

def partsOfArguments : List Argument → List Expr
  | [] => []
  | a :: rest => a.parts ++ partsOfArguments rest

def Arm.parts : Arm → List Expr
  | .mk _ body _ => body :: body.inner
  | .other n => n.parts

def partsOfArms : List Arm → List Expr
  | [] => []
  | a :: rest => a.parts ++ partsOfArms rest

def Statement.parts : Statement → List Expr
  | .binding _ e _ | .expression e _ => e :: e.inner
  | .other n => n.parts

def partsOfStatements : List Statement → List Expr
  | [] => []
  | s :: rest => s.parts ++ partsOfStatements rest

/-- The expressions that stand in a part of a program. -/
def Node.parts : Node → List Expr
  | .program ⟨statements, _⟩ => partsOfStatements statements
  | .statement s => s.parts
  | .expr e => e :: e.inner
  | .argument a => a.parts
  | .arm a => a.parts
  | .pattern _ | .type _ | .missing => []
end

/-- The expression and those that stand in it. -/
def Expr.parts (e : Expr) : List Expr := e :: e.inner

/-- The expressions that stand in a program. -/
def Program.parts (p : Program) : List Expr := partsOfStatements p.statements

theorem Expr.mem_parts_self (e : Expr) : e ∈ e.parts := List.mem_cons_self

theorem mem_partsOfExprs {x : Expr} {es : List Expr} :
    x ∈ partsOfExprs es ↔ ∃ e ∈ es, x ∈ e.parts := by
  induction es with
  | nil => simp [partsOfExprs]
  | cons e es ih =>
    rw [partsOfExprs, List.mem_append, ih]
    simp only [List.mem_cons, exists_eq_or_imp, Expr.parts]

theorem mem_partsOfArguments {x : Expr} {args : List Argument} :
    x ∈ partsOfArguments args ↔ ∃ a ∈ args, x ∈ a.parts := by
  induction args with
  | nil => simp [partsOfArguments]
  | cons a args ih =>
    rw [partsOfArguments, List.mem_append, ih]
    simp only [List.mem_cons, exists_eq_or_imp]

theorem mem_partsOfStatements {x : Expr} {ss : List Statement} :
    x ∈ partsOfStatements ss ↔ ∃ s ∈ ss, x ∈ s.parts := by
  induction ss with
  | nil => simp [partsOfStatements]
  | cons s ss ih =>
    rw [partsOfStatements, List.mem_append, ih]
    simp only [List.mem_cons, exists_eq_or_imp]

namespace Expr

/-- Every part of an expression is one that `p` holds of. -/
def All (p : Expr → Prop) (e : Expr) : Prop := ∀ x ∈ e.parts, p x

section All

variable {p : Expr → Prop} {e f t left right : Expr} {es : List Expr} {args : List Argument}
  {arms : List Arm} {name : String} {ty : TypeExpr} {op : Operator} {l : Option Location}

theorem All.self (h : e.All p) : p e := h e e.mem_parts_self

theorem all_apply :
    (Expr.apply f args l).All p ↔
      p (.apply f args l) ∧ f.All p ∧ ∀ a ∈ args, ∀ x ∈ a.parts, p x := by
  show (∀ x ∈ Expr.apply f args l :: (f.parts ++ partsOfArguments args), p x) ↔ _
  rw [List.forall_mem_cons, List.forall_mem_append]
  refine and_congr_right fun _ => and_congr_right fun _ => ⟨fun h a ha x hx => ?_, fun h x hx => ?_⟩
  · exact h x (mem_partsOfArguments.mpr ⟨a, ha, hx⟩)
  · obtain ⟨a, ha, hx⟩ := mem_partsOfArguments.mp hx
    exact h a ha x hx

theorem all_constraint :
    (Expr.constraint e ty l).All p ↔ p (.constraint e ty l) ∧ e.All p :=
  List.forall_mem_cons

theorem all_extension :
    (Expr.extension name (some e) l).All p ↔ p (.extension name (some e) l) ∧ e.All p :=
  List.forall_mem_cons

theorem forall_partsOfExprs : (∀ x ∈ partsOfExprs es, p x) ↔ ∀ e ∈ es, e.All p := by
  refine ⟨fun h e he x hx => h x (mem_partsOfExprs.mpr ⟨e, he, hx⟩), fun h x hx => ?_⟩
  obtain ⟨e, he, hx⟩ := mem_partsOfExprs.mp hx
  exact h e he x hx

theorem all_tuple : (Expr.tuple es l).All p ↔ p (.tuple es l) ∧ ∀ e ∈ es, e.All p := by
  rw [← forall_partsOfExprs]
  exact List.forall_mem_cons

theorem all_list : (Expr.list es l).All p ↔ p (.list es l) ∧ ∀ e ∈ es, e.All p := by
  rw [← forall_partsOfExprs]
  exact List.forall_mem_cons

theorem all_binary :
    (Expr.binary left op right l).All p ↔
      p (.binary left op right l) ∧ left.All p ∧ right.All p := by
  show (∀ x ∈ Expr.binary left op right l :: (left.parts ++ right.parts), p x) ↔ _
  rw [List.forall_mem_cons, List.forall_mem_append]
  rfl

end All
end Expr
end MessageLang
