import MessageLang.Syntax.Print
/-!
# Trees without their places, and flat applications

* `Expr.bare`: the tree with no place in it. Two trees with the same bare one differ in places only:
  numbers have the same spelling in both.
* `Expr.flatten`: the tree with one application for an application of an application.
-/
namespace MessageLang

/-! ## Bare trees -/

def Constant.bare (c : Constant) : Constant := { c with location := none }

mutual
/-- The type without its places. What is no type stays as it is. -/
def TypeExpr.bare : TypeExpr → TypeExpr
  | .named name args _ => .named name (bareTypes args) none
  | .tuple ts _ => .tuple (bareTypes ts) none
  | .other n => .other n

def bareTypes : List TypeExpr → List TypeExpr
  | [] => []
  | t :: rest => t.bare :: bareTypes rest
end

mutual
/-- The pattern without its places. What is no pattern stays as it is. -/
def Pattern.bare : Pattern → Pattern
  | .wildcard _ => .wildcard none
  | .var name _ => .var name none
  | .variant name none _ => .variant name none none
  | .variant name (some p) _ => .variant name (some p.bare) none
  | .tuple ps _ => .tuple (barePatterns ps) none
  | .list ps _ => .list (barePatterns ps) none
  | .cons head tail _ => .cons head.bare tail.bare none
  | .alternatives ps _ => .alternatives (barePatterns ps) none
  | .aliased p name _ => .aliased p.bare name none
  | .other n => .other n

def barePatterns : List Pattern → List Pattern
  | [] => []
  | p :: rest => p.bare :: barePatterns rest
end

mutual
/-- The expression without its places. What is no expression stays as it is. -/
def Expr.bare : Expr → Expr
  | .constant c => .constant c.bare
  | .identifier name _ => .identifier name none
  | .apply f args _ => .apply f.bare (bareArguments args) none
  | .constraint e t _ => .constraint e.bare t.bare none
  | .extension name none _ => .extension name none none
  | .extension name (some e) _ => .extension name (some e.bare) none
  | .tuple es _ => .tuple (bareExprs es) none
  | .list es _ => .list (bareExprs es) none
  | .unit _ => .unit none
  | .binary left op right _ => .binary left.bare op right.bare none
  | .cons head tail _ => .cons head.bare tail.bare none
  | .matching e arms _ => .matching e.bare (bareArms arms) none
  | .other n => .other n

def bareExprs : List Expr → List Expr
  | [] => []
  | e :: rest => e.bare :: bareExprs rest

def Argument.bare : Argument → Argument
  | .mk label e => .mk label e.bare
  | .other n => .other n

def bareArguments : List Argument → List Argument
  | [] => []
  | a :: rest => a.bare :: bareArguments rest

def Arm.bare : Arm → Arm
  | .mk p body _ => .mk p.bare body.bare none
  | .other n => .other n

def bareArms : List Arm → List Arm
  | [] => []
  | a :: rest => a.bare :: bareArms rest
end

def Statement.bare : Statement → Statement
  | .binding name e _ => .binding name e.bare none
  | .expression e _ => .expression e.bare none
  | .other n => .other n

theorem bareTypes_eq_map (ts : List TypeExpr) : bareTypes ts = ts.map TypeExpr.bare := by
  induction ts with
  | nil => rfl
  | cons t ts ih => rw [bareTypes, ih, List.map_cons]

theorem bareExprs_eq_map (es : List Expr) : bareExprs es = es.map Expr.bare := by
  induction es with
  | nil => rfl
  | cons e es ih => rw [bareExprs, ih, List.map_cons]

theorem bareArguments_eq_map (args : List Argument) :
    bareArguments args = args.map Argument.bare := by
  induction args with
  | nil => rfl
  | cons a args ih => rw [bareArguments, ih, List.map_cons]

/-! ## Flat applications -/

/-- Whether an expression is an application. -/
def Expr.isApply : Expr → Bool
  | .apply _ _ _ => true
  | _ => false

theorem Expr.isApply_bare (e : Expr) : e.bare.isApply = e.isApply := by
  cases e with
  | extension name payload l => cases payload <;> rfl
  | _ => rfl

/-- The application of a function to arguments. What is already applied to some takes the others
behind them. -/
def Expr.applied (f : Expr) (args : List Argument) (location : Option Location) : Expr :=
  match f with
  | .apply g before _ => .apply g (before ++ args) location
  | f => .apply f args location

theorem Expr.applied_of_isApply_eq_false {f : Expr} (h : f.isApply = false)
    (args : List Argument) (l : Option Location) : f.applied args l = .apply f args l := by
  cases f with
  | apply g before l' => cases h
  | _ => rfl

mutual
/-- The expression with flat applications all over. What is no expression stays as it is. -/
def Expr.flatten : Expr → Expr
  | .constant c => .constant c
  | .identifier name l => .identifier name l
  | .apply f args l => f.flatten.applied (flattenArguments args) l
  | .constraint e t l => .constraint e.flatten t l
  | .extension name none l => .extension name none l
  | .extension name (some e) l => .extension name (some e.flatten) l
  | .tuple es l => .tuple (flattenExprs es) l
  | .list es l => .list (flattenExprs es) l
  | .unit l => .unit l
  | .binary left op right l => .binary left.flatten op right.flatten l
  | .cons head tail l => .cons head.flatten tail.flatten l
  | .matching e arms l => .matching e.flatten (flattenArms arms) l
  | .other n => .other n

def flattenExprs : List Expr → List Expr
  | [] => []
  | e :: rest => e.flatten :: flattenExprs rest

def Argument.flatten : Argument → Argument
  | .mk label e => .mk label e.flatten
  | .other n => .other n

def flattenArguments : List Argument → List Argument
  | [] => []
  | a :: rest => a.flatten :: flattenArguments rest

def Arm.flatten : Arm → Arm
  | .mk p body l => .mk p body.flatten l
  | .other n => .other n

def flattenArms : List Arm → List Arm
  | [] => []
  | a :: rest => a.flatten :: flattenArms rest
end

def Statement.flatten : Statement → Statement
  | .binding name e l => .binding name e.flatten l
  | .expression e l => .expression e.flatten l
  | .other n => .other n

theorem flattenExprs_eq_map (es : List Expr) : flattenExprs es = es.map Expr.flatten := by
  induction es with
  | nil => rfl
  | cons e es ih => rw [flattenExprs, ih, List.map_cons]

theorem flattenArguments_eq_map (args : List Argument) :
    flattenArguments args = args.map Argument.flatten := by
  induction args with
  | nil => rfl
  | cons a args ih => rw [flattenArguments, ih, List.map_cons]

/-- A bare application of what is itself one. -/
theorem Expr.bare_applied (f : Expr) (args : List Argument) (l : Option Location) :
    (f.applied args l).bare = f.bare.applied (bareArguments args) none := by
  cases f with
  | apply g before l' =>
    simp only [applied, bare, bareArguments_eq_map, List.map_append]
  | extension name payload l' => cases payload <;> rfl
  | _ => rfl

end MessageLang
