import MessageLang.Source.Location
import MessageLang.Value.Basic
/-!
# Syntax trees

The trees of the message language: programs as they are read, and the code that extensions expand
to. Patterns, matches and `::` occur in generated code only. Every node may carry a location.

A tree that was read from a text has an expression wherever one is expected, and so for the other
sorts. A tree that was built by hand may have a part of another sort there: every sort has a
constructor `other` for these, and the functions on trees say what they make of them.
-/
namespace MessageLang

/-- The kinds of literals. -/
inductive LiteralKind where
  | integer (kind : IntegerKind)
  | char
  | string
  | float
deriving DecidableEq, Repr

def LiteralKind.name : LiteralKind → String
  | integer k => k.name
  | char => "char"
  | string => "string"
  | float => "float"

/-- The label of an argument: none, `~name` or `?name`. -/
inductive Label where
  | positional
  | labelled (name : String)
  | optional (name : String)
deriving DecidableEq, Repr

def Label.toText : Label → String
  | positional => ""
  | labelled name => "~" ++ name
  | optional name => "?" ++ name

inductive Operator where
  | concat
  | add
  | sub
  | mul
deriving DecidableEq, Repr

namespace Operator

def symbol : Operator → String
  | concat => "^"
  | add => "+"
  | sub => "-"
  | mul => "*"

/-- How tightly an operator binds: a larger level binds tighter. -/
def level : Operator → Nat
  | concat => 1
  | add => 2
  | sub => 2
  | mul => 3

/-- Whether `a op b op c` is read as `a op (b op c)`. -/
def isRightAssociative : Operator → Bool
  | concat => true
  | _ => false

end Operator

/-- A literal. Numbers that were read keep their spelling. -/
structure Constant where
  value : Value
  kind : Option LiteralKind
  spelling : Option String
  location : Option Location

namespace Constant

/-- A string constant. -/
def ofString (text : String) (location : Option Location) : Constant :=
  ⟨.str text, some .string, none, location⟩

/-- Whether the constant is the literal `""`. -/
def isEmptyString (c : Constant) : Bool :=
  match c.kind, c.value with
  | some .string, .str text => text.isEmpty
  | _, _ => false

end Constant

mutual
/-- Type expressions. -/
inductive TypeExpr where
  /-- A type constructor and its arguments, which are written before it. -/
  | named (name : String) (arguments : List TypeExpr) (location : Option Location)
  | tuple (elements : List TypeExpr) (location : Option Location)
  /-- What is no type, in the place of one. -/
  | other (node : Node)

/-- Patterns of generated matches. -/
inductive Pattern where
  | wildcard (location : Option Location)
  | var (name : String) (location : Option Location)
  /-- A constructor, `None` or `Some p`. -/
  | variant (name : String) (argument : Option Pattern) (location : Option Location)
  | tuple (elements : List Pattern) (location : Option Location)
  | list (elements : List Pattern) (location : Option Location)
  | cons (head tail : Pattern) (location : Option Location)
  | alternatives (patterns : List Pattern) (location : Option Location)
  | aliased (pattern : Pattern) (name : String) (location : Option Location)
  /-- What is no pattern, in the place of one. -/
  | other (node : Node)

/-- Expressions. -/
inductive Expr where
  | constant (constant : Constant)
  | identifier (name : String) (location : Option Location)
  | apply (function : Expr) (arguments : List Argument) (location : Option Location)
  /-- `(e : t)` -/
  | constraint (expr : Expr) (type : TypeExpr) (location : Option Location)
  /-- `[%name]` or `[%name payload]` -/
  | extension (name : String) (payload : Option Expr) (location : Option Location)
  | tuple (elements : List Expr) (location : Option Location)
  | list (elements : List Expr) (location : Option Location)
  | unit (location : Option Location)
  | binary (left : Expr) (operator : Operator) (right : Expr) (location : Option Location)
  | cons (head tail : Expr) (location : Option Location)
  | matching (scrutinee : Expr) (arms : List Arm) (location : Option Location)
  /-- What is no expression, in the place of one. -/
  | other (node : Node)

/-- An argument of an application. -/
inductive Argument where
  | mk (label : Label) (expr : Expr)
  /-- What is no argument, in the place of one. -/
  | other (node : Node)

/-- An arm of a match. -/
inductive Arm where
  | mk (pattern : Pattern) (body : Expr) (location : Option Location)
  /-- What is no arm, in the place of one. -/
  | other (node : Node)

inductive Statement where
  /-- `let name = value;` -/
  | binding (name : String) (value : Expr) (location : Option Location)
  | expression (expr : Expr) (location : Option Location)
  /-- What is no statement, in the place of one. -/
  | other (node : Node)

structure Program where
  statements : List Statement
  location : Option Location

/-- Any part of a program. -/
inductive Node where
  | program (program : Program)
  | statement (statement : Statement)
  | expr (expr : Expr)
  | argument (argument : Argument)
  | arm (arm : Arm)
  | pattern (pattern : Pattern)
  | type (type : TypeExpr)
  /-- Nothing, in a place that is to be filled. -/
  | missing
end

/-! ## Parts in the place of others -/

/-- A type as a part of any sort. -/
def TypeExpr.toNode : TypeExpr → Node
  | other n => n
  | t => .type t

/-- A pattern as a part of any sort. -/
def Pattern.toNode : Pattern → Node
  | other n => n
  | p => .pattern p

/-- An expression as a part of any sort. -/
def Expr.toNode : Expr → Node
  | other n => n
  | e => .expr e

/-- An argument as a part of any sort. -/
def Argument.toNode : Argument → Node
  | other n => n
  | a => .argument a

/-- An arm as a part of any sort. -/
def Arm.toNode : Arm → Node
  | other n => n
  | a => .arm a

/-- A statement as a part of any sort. -/
def Statement.toNode : Statement → Node
  | other n => n
  | s => .statement s

/-- A part in the place of a type. -/
def Node.asType : Node → TypeExpr
  | type t => t
  | n => .other n

/-- A part in the place of a pattern. -/
def Node.asPattern : Node → Pattern
  | pattern p => p
  | n => .other n

/-- A part in the place of an expression. -/
def Node.asExpr : Node → Expr
  | expr e => e
  | n => .other n

/-- A part in the place of an argument. -/
def Node.asArgument : Node → Argument
  | argument a => a
  | n => .other n

/-- A part in the place of an arm. -/
def Node.asArm : Node → Arm
  | arm a => a
  | n => .other n

/-- A part in the place of a statement. -/
def Node.asStatement : Node → Statement
  | statement s => s
  | n => .other n

/-! ## Locations -/

mutual
def TypeExpr.location : TypeExpr → Option Location
  | .named _ _ l | .tuple _ l => l
  | .other n => n.location

def Pattern.location : Pattern → Option Location
  | .wildcard l | .var _ l | .variant _ _ l | .tuple _ l | .list _ l | .cons _ _ l
  | .alternatives _ l | .aliased _ _ l => l
  | .other n => n.location

def Expr.location : Expr → Option Location
  | .constant c => c.location
  | .identifier _ l | .apply _ _ l | .constraint _ _ l | .extension _ _ l | .tuple _ l | .list _ l
  | .unit l | .binary _ _ _ l | .cons _ _ l | .matching _ _ l => l
  | .other n => n.location

def Arm.location : Arm → Option Location
  | .mk _ _ l => l
  | .other n => n.location

def Statement.location : Statement → Option Location
  | .binding _ _ l | .expression _ l => l
  | .other n => n.location

/-- An argument is where its expression is. -/
def Argument.location : Argument → Option Location
  | .mk _ e => e.location
  | .other n => n.location

/-- Where a part is. -/
def Node.location : Node → Option Location
  | .program p => p.location
  | .statement s => s.location
  | .expr e => e.location
  | .argument a => a.location
  | .arm a => a.location
  | .pattern p => p.location
  | .type t => t.location
  | .missing => none
end

/-- The expression that a part holds in the way an argument does. -/
def Argument.expr? : Argument → Option Expr
  | mk _ e => some e
  | other (.statement (.expression e _)) => some e
  | other (.expr (.constraint e _ _)) => some e
  | other _ => none

instance : Inhabited TypeExpr := ⟨.tuple [] none⟩

instance : Inhabited Pattern := ⟨.wildcard none⟩

instance : Inhabited Expr := ⟨.unit none⟩

instance : Inhabited Statement := ⟨.expression (.unit none) none⟩

instance : Inhabited Node := ⟨.missing⟩

/-! ## Building trees -/

/-- The application of a function to arguments without labels. -/
def Expr.call (function : Expr) (arguments : List Expr) (location : Option Location) : Expr :=
  .apply function (arguments.map (.mk .positional)) location

/-- An expression as a statement; without a location of its own it is where its expression is. -/
def Statement.ofExpr (expr : Expr) (location : Option Location) : Statement :=
  .expression expr (location <|> expr.location)

end MessageLang
