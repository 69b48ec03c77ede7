import MessageLang.Proofs.Syntax.Bare
/-!
# Moving trees

A text that is put elsewhere leaves the same trees at other places.

* `Expr.relocate f`: the tree with every place of it moved by `f`.
* `Expr.bare_relocate`: nothing but the places is moved.
-/
namespace MessageLang

/-! ## Trees -/

variable (f : Location → Location)

def Constant.relocate (c : Constant) : Constant := { c with location := c.location.map f }

mutual
/-- The type with its places moved. What is no type stays as it is. -/
def TypeExpr.relocate : TypeExpr → TypeExpr
  | .named name args l => .named name (relocateTypes args) (l.map f)
  | .tuple ts l => .tuple (relocateTypes ts) (l.map f)
  | .other n => .other n

def relocateTypes : List TypeExpr → List TypeExpr
  | [] => []
  | t :: rest => t.relocate :: relocateTypes rest
end

mutual
/-- The pattern with its places moved. What is no pattern stays as it is. -/
def Pattern.relocate : Pattern → Pattern
  | .wildcard l => .wildcard (l.map f)
  | .var name l => .var name (l.map f)
  | .variant name none l => .variant name none (l.map f)
  | .variant name (some p) l => .variant name (some p.relocate) (l.map f)
  | .tuple ps l => .tuple (relocatePatterns ps) (l.map f)
  | .list ps l => .list (relocatePatterns ps) (l.map f)
  | .cons head tail l => .cons head.relocate tail.relocate (l.map f)
  | .alternatives ps l => .alternatives (relocatePatterns ps) (l.map f)
  | .aliased p name l => .aliased p.relocate name (l.map f)
  | .other n => .other n

def relocatePatterns : List Pattern → List Pattern
  | [] => []
  | p :: rest => p.relocate :: relocatePatterns rest
end

mutual
/-- The expression with its places moved. What is no expression stays as it is. -/
def Expr.relocate : Expr → Expr
  | .constant c => .constant (c.relocate f)
  | .identifier name l => .identifier name (l.map f)
  | .apply g args l => .apply g.relocate (relocateArguments args) (l.map f)
  | .constraint e t l => .constraint e.relocate (t.relocate f) (l.map f)
  | .extension name none l => .extension name none (l.map f)
  | .extension name (some e) l => .extension name (some e.relocate) (l.map f)
  | .tuple es l => .tuple (relocateExprs es) (l.map f)
  | .list es l => .list (relocateExprs es) (l.map f)
  | .unit l => .unit (l.map f)
  | .binary left op right l => .binary left.relocate op right.relocate (l.map f)
  | .cons head tail l => .cons head.relocate tail.relocate (l.map f)
  | .matching e arms l => .matching e.relocate (relocateArms arms) (l.map f)
  | .other n => .other n

def relocateExprs : List Expr → List Expr
  | [] => []
  | e :: rest => e.relocate :: relocateExprs rest

def Argument.relocate : Argument → Argument
  | .mk label e => .mk label e.relocate
  | .other n => .other n

def relocateArguments : List Argument → List Argument
  | [] => []
  | a :: rest => a.relocate :: relocateArguments rest

def Arm.relocate : Arm → Arm
  | .mk p body l => .mk (p.relocate f) body.relocate (l.map f)
  | .other n => .other n

def relocateArms : List Arm → List Arm
  | [] => []
  | a :: rest => a.relocate :: relocateArms rest
end

def Statement.relocate : Statement → Statement
  | .binding name e l => .binding name (e.relocate f) (l.map f)
  | .expression e l => .expression (e.relocate f) (l.map f)
  | .other n => .other n

theorem relocateTypes_eq_map (ts : List TypeExpr) :
    relocateTypes f ts = ts.map (TypeExpr.relocate f) := by
  induction ts with
  | nil => rfl
  | cons t ts ih => rw [relocateTypes, ih, List.map_cons]

theorem relocateExprs_eq_map (es : List Expr) : relocateExprs f es = es.map (Expr.relocate f) := by
  induction es with
  | nil => rfl
  | cons e es ih => rw [relocateExprs, ih, List.map_cons]

theorem relocateArguments_eq_map (args : List Argument) :
    relocateArguments f args = args.map (Argument.relocate f) := by
  induction args with
  | nil => rfl
  | cons a args ih => rw [relocateArguments, ih, List.map_cons]

theorem relocateArms_eq_map (arms : List Arm) :
    relocateArms f arms = arms.map (Arm.relocate f) := by
  induction arms with
  | nil => rfl
  | cons a arms ih => rw [relocateArms, ih, List.map_cons]

/-! ## Nothing but places is moved -/

theorem Constant.bare_relocate (c : Constant) : (c.relocate f).bare = c.bare := rfl

mutual
theorem TypeExpr.bare_relocate : ∀ t : TypeExpr, (t.relocate f).bare = t.bare
  | .named name args l => by
    rw [TypeExpr.relocate, TypeExpr.bare, bareTypes_relocate args, TypeExpr.bare]
  | .tuple ts l => by
    rw [TypeExpr.relocate, TypeExpr.bare, bareTypes_relocate ts, TypeExpr.bare]
  | .other n => rfl

theorem bareTypes_relocate : ∀ ts : List TypeExpr, bareTypes (relocateTypes f ts) = bareTypes ts
  | [] => rfl
  | t :: rest => by
    rw [relocateTypes, bareTypes, t.bare_relocate, bareTypes_relocate rest, bareTypes]
end

mutual
theorem Pattern.bare_relocate : ∀ p : Pattern, (p.relocate f).bare = p.bare
  | .wildcard l => rfl
  | .var name l => rfl
  | .variant name none l => rfl
  | .variant name (some p) l => by
    rw [Pattern.relocate, Pattern.bare, p.bare_relocate, Pattern.bare]
  | .tuple ps l => by
    rw [Pattern.relocate, Pattern.bare, barePatterns_relocate ps, Pattern.bare]
  | .list ps l => by
    rw [Pattern.relocate, Pattern.bare, barePatterns_relocate ps, Pattern.bare]
  | .cons head tail l => by
    rw [Pattern.relocate, Pattern.bare, head.bare_relocate, tail.bare_relocate, Pattern.bare]
  | .alternatives ps l => by
    rw [Pattern.relocate, Pattern.bare, barePatterns_relocate ps, Pattern.bare]
  | .aliased p name l => by
    rw [Pattern.relocate, Pattern.bare, p.bare_relocate, Pattern.bare]
  | .other n => rfl

theorem barePatterns_relocate :
    ∀ ps : List Pattern, barePatterns (relocatePatterns f ps) = barePatterns ps
  | [] => rfl
  | p :: rest => by
    rw [relocatePatterns, barePatterns, p.bare_relocate, barePatterns_relocate rest, barePatterns]
end

mutual
/-- A tree that has been moved is the same but for its places. -/
theorem Expr.bare_relocate : ∀ e : Expr, (e.relocate f).bare = e.bare
  | .constant c => rfl
  | .identifier name l => rfl
  | .apply g args l => by
    rw [Expr.relocate, Expr.bare, g.bare_relocate, bareArguments_relocate args, Expr.bare]
  | .constraint e t l => by
    rw [Expr.relocate, Expr.bare, e.bare_relocate, t.bare_relocate, Expr.bare]
  | .extension name none l => rfl
  | .extension name (some e) l => by
    rw [Expr.relocate, Expr.bare, e.bare_relocate, Expr.bare]
  | .tuple es l => by
    rw [Expr.relocate, Expr.bare, bareExprs_relocate es, Expr.bare]
  | .list es l => by
    rw [Expr.relocate, Expr.bare, bareExprs_relocate es, Expr.bare]
  | .unit l => rfl
  | .binary left op right l => by
    rw [Expr.relocate, Expr.bare, left.bare_relocate, right.bare_relocate, Expr.bare]
  | .cons head tail l => by
    rw [Expr.relocate, Expr.bare, head.bare_relocate, tail.bare_relocate, Expr.bare]
  | .matching e arms l => by
    rw [Expr.relocate, Expr.bare, e.bare_relocate, bareArms_relocate arms, Expr.bare]
  | .other n => rfl

theorem bareExprs_relocate : ∀ es : List Expr, bareExprs (relocateExprs f es) = bareExprs es
  | [] => rfl
  | e :: rest => by
    rw [relocateExprs, bareExprs, e.bare_relocate, bareExprs_relocate rest, bareExprs]

theorem Argument.bare_relocate : ∀ a : Argument, (a.relocate f).bare = a.bare
  | .mk label e => by
    rw [Argument.relocate, Argument.bare, e.bare_relocate, Argument.bare]
  | .other n => rfl

theorem bareArguments_relocate :
    ∀ args : List Argument, bareArguments (relocateArguments f args) = bareArguments args
  | [] => rfl
  | a :: rest => by
    rw [relocateArguments, bareArguments, a.bare_relocate, bareArguments_relocate rest,
      bareArguments]

theorem Arm.bare_relocate : ∀ a : Arm, (a.relocate f).bare = a.bare
  | .mk p body l => by
    rw [Arm.relocate, Arm.bare, p.bare_relocate, body.bare_relocate, Arm.bare]
  | .other n => rfl

theorem bareArms_relocate : ∀ arms : List Arm, bareArms (relocateArms f arms) = bareArms arms
  | [] => rfl
  | a :: rest => by
    rw [relocateArms, bareArms, a.bare_relocate, bareArms_relocate rest, bareArms]
end

theorem Statement.bare_relocate (s : Statement) : (s.relocate f).bare = s.bare := by
  cases s with
  | binding name e l => rw [relocate, bare, e.bare_relocate, bare]
  | expression e l => rw [relocate, bare, e.bare_relocate, bare]
  | other n => rfl

end MessageLang
