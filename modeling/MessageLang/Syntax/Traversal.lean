import MessageLang.Syntax.Basic
/-!
# Walking over trees

* `Node.leaves`: the constants and names of a tree, from left to right. Patterns and types are not
  entered, but a part of another sort in the place of one is.
* `Node.rename`: the tree with other names for the free-standing ones; locations stay.
* `Node.isWalkable`: whether there is a part in every place that a walk comes to.
-/
namespace MessageLang

inductive Leaf where
  | constant (constant : Constant)
  | identifier (name : String) (location : Option Location)

mutual
def TypeExpr.leaves : TypeExpr → List Leaf
  | .other n => n.leaves
  | _ => []

def Pattern.leaves : Pattern → List Leaf
  | .other n => n.leaves
  | _ => []

def Expr.leaves : Expr → List Leaf
  | .constant c => [.constant c]
  | .identifier name l => [.identifier name l]
  | .apply f args _ => f.leaves ++ argumentLeaves args
  | .constraint e t _ => e.leaves ++ t.leaves
  | .extension _ none _ => []
  | .extension _ (some e) _ => e.leaves
  | .tuple es _ | .list es _ => exprLeaves es
  | .unit _ => []
  | .binary left _ right _ => left.leaves ++ right.leaves
  | .cons head tail _ => head.leaves ++ tail.leaves
  | .matching e arms _ => e.leaves ++ armLeaves arms
  | .other n => n.leaves

def exprLeaves : List Expr → List Leaf
  | [] => []
  | e :: rest => e.leaves ++ exprLeaves rest

/-- The leaves of the expression that an argument holds, or what stands in its place. -/
def Argument.leaves : Argument → List Leaf
  | .mk _ e | .other (.statement (.expression e _)) | .other (.expr (.constraint e _ _)) => e.leaves
  | .other _ => []

def argumentLeaves : List Argument → List Leaf
  | [] => []
  | a :: rest => a.leaves ++ argumentLeaves rest

def Arm.leaves : Arm → List Leaf
  | .mk p body _ => p.leaves ++ body.leaves
  | .other n => n.leaves

def armLeaves : List Arm → List Leaf
  | [] => []
  | a :: rest => a.leaves ++ armLeaves rest

def Statement.leaves : Statement → List Leaf
  | .binding _ e _ | .expression e _ => e.leaves
  | .other n => n.leaves

def statementLeaves : List Statement → List Leaf
  | [] => []
  | s :: rest => s.leaves ++ statementLeaves rest

/-- The constants and names of a part, from left to right. -/
def Node.leaves : Node → List Leaf
  | .program ⟨statements, _⟩ => statementLeaves statements
  | .statement s => s.leaves
  | .expr e => e.leaves
  | .argument a => a.leaves
  | .arm a => a.leaves
  | .pattern p => p.leaves
  | .type t => t.leaves
  | .missing => []
end

variable (names : String → Option String)

mutual
/-- The expression with the names that `names` gives new ones for. -/
def Expr.rename : Expr → Expr
  | .constant c => .constant c
  | .identifier name l => .identifier ((names name).getD name) l
  | .apply f args l => .apply f.rename (renameArguments args) l
  | .constraint e t l => .constraint e.rename t l
  | .extension name none l => .extension name none l
  | .extension name (some e) l => .extension name (some e.rename) l
  | .tuple es l => .tuple (renameExprs es) l
  | .list es l => .list (renameExprs es) l
  | .unit l => .unit l
  | .binary left op right l => .binary left.rename op right.rename l
  | .cons head tail l => .cons head.rename tail.rename l
  | .matching e arms l => .matching e.rename (renameArms arms) l
  | .other n => .other n.rename

def renameExprs : List Expr → List Expr
  | [] => []
  | e :: rest => e.rename :: renameExprs rest

def Argument.rename : Argument → Argument
  | .mk label e => .mk label e.rename
  | .other n => .other n

def renameArguments : List Argument → List Argument
  | [] => []
  | a :: rest => a.rename :: renameArguments rest

def Arm.rename : Arm → Arm
  | .mk p body l => .mk p body.rename l
  | .other n => .other n.rename

def renameArms : List Arm → List Arm
  | [] => []
  | a :: rest => a.rename :: renameArms rest

def Statement.rename : Statement → Statement
  | .binding name e l => .binding name e.rename l
  | .expression e l => .ofExpr e.rename l
  | .other n => .other n.rename

def renameStatements : List Statement → List Statement
  | [] => []
  | s :: rest => s.rename :: renameStatements rest

/-- The part with the names that `names` gives new ones for; patterns and types stay. -/
def Node.rename : Node → Node
  | .program ⟨statements, l⟩ => .program ⟨renameStatements statements, l⟩
  | .statement s => .statement s.rename
  | .expr e => .expr e.rename
  | .argument a => .argument a.rename
  | .arm a => .arm a.rename
  | .pattern p => .pattern p
  | .type t => .type t
  | .missing => .missing
end

/-- Whether renaming leaves the node itself in place: constants, the unit, patterns and types have
nothing below them that could change, and a name is replaced only where names are looked up. -/
def Node.isKept (lookup : Bool) : Node → Bool
  | .expr (.constant _) | .expr (.unit _) => true
  | .expr (.identifier _ _) => !lookup
  | .pattern _ | .type _ => true
  | _ => false

/-! ## Trees with empty places -/

/-- The two ways to walk over a tree. Reading passes over empty places in lists, and looks at what
stands in the place of a pattern or type; rebuilding does neither. -/
inductive Walk where
  | reading
  | rebuilding
deriving DecidableEq, Repr

/-- Whether a walk passes over an item of a list. -/
def Walk.skips (walk : Walk) : Node → Bool
  | .missing => walk == .reading
  | _ => false

mutual
/-- Whether there is a part in every place of a type that a walk comes to. -/
def TypeExpr.isWalkable (walk : Walk) : TypeExpr → Bool
  | .other n => walk == .rebuilding || n.isWalkable walk
  | _ => true

/-- Whether there is a part in every place of a pattern that a walk comes to. -/
def Pattern.isWalkable (walk : Walk) : Pattern → Bool
  | .other n => walk == .rebuilding || n.isWalkable walk
  | _ => true

/-- Whether there is a part in every place of an expression that a walk comes to. -/
def Expr.isWalkable (walk : Walk) : Expr → Bool
  | .constant _ | .identifier _ _ | .unit _ | .extension _ none _ => true
  | .apply f args _ => f.isWalkable walk && argumentsWalkable walk args
  | .constraint e t _ => e.isWalkable walk && t.isWalkable walk
  | .extension _ (some e) _ => e.isWalkable walk
  | .tuple es _ | .list es _ => exprsWalkable walk es
  | .binary left _ right _ => left.isWalkable walk && right.isWalkable walk
  | .cons head tail _ => head.isWalkable walk && tail.isWalkable walk
  | .matching e arms _ => e.isWalkable walk && armsWalkable walk arms
  | .other n => n.isWalkable walk

def exprsWalkable (walk : Walk) : List Expr → Bool
  | [] => true
  | e :: rest => (walk.skips e.toNode || e.isWalkable walk) && exprsWalkable walk rest

/-- Whether a walk can go on at an argument. Reading makes do with any part that holds an expression
as an argument does. -/
def Argument.isWalkable (walk : Walk) : Argument → Bool
  | .mk _ e => walk.skips e.toNode || e.isWalkable walk
  | .other (.statement (.expression e _)) | .other (.expr (.constraint e _ _)) =>
    walk == .reading && (walk.skips e.toNode || e.isWalkable walk)
  | .other _ => false

def argumentsWalkable (walk : Walk) : List Argument → Bool
  | [] => true
  | a :: rest => a.isWalkable walk && argumentsWalkable walk rest

def Arm.isWalkable (walk : Walk) : Arm → Bool
  | .mk p body _ => p.isWalkable walk && body.isWalkable walk
  | .other n => n.isWalkable walk

def armsWalkable (walk : Walk) : List Arm → Bool
  | [] => true
  | a :: rest => (walk.skips a.toNode || a.isWalkable walk) && armsWalkable walk rest

def Statement.isWalkable (walk : Walk) : Statement → Bool
  | .binding _ e _ | .expression e _ => e.isWalkable walk
  | .other n => n.isWalkable walk

def statementsWalkable (walk : Walk) : List Statement → Bool
  | [] => true
  | s :: rest => (walk.skips s.toNode || s.isWalkable walk) && statementsWalkable walk rest

/-- Whether there is a part in every place that a walk comes to. An argument by itself is none. -/
def Node.isWalkable (walk : Walk) : Node → Bool
  | .program ⟨statements, _⟩ => statementsWalkable walk statements
  | .statement s => s.isWalkable walk
  | .expr e => e.isWalkable walk
  | .argument _ | .missing => false
  | .arm a => a.isWalkable walk
  | .pattern p => p.isWalkable walk
  | .type t => t.isWalkable walk
end

end MessageLang
