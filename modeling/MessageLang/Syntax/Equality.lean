import MessageLang.Syntax.Basic
/-!
# Structural equality of trees

Two trees are equal when they differ in locations and spellings at most. Which constants count as
equal is a parameter of `Node.equalBy`; `Node.equal` compares them by `Constant.equal`.
-/
namespace MessageLang

/-- Equal kinds and equal values. -/
def Constant.equal (a b : Constant) : Bool := a.kind == b.kind && a.value.equal b.value

variable (eq : Constant → Constant → Bool)

mutual
def TypeExpr.equalBy : TypeExpr → TypeExpr → Bool
  | .named n as _, .named m bs _ => n == m && typesEqualBy as bs
  | .tuple as _, .tuple bs _ => typesEqualBy as bs
  | .other n, .other m => n.equalBy m
  | _, _ => false
termination_by structural a => a

def typesEqualBy : List TypeExpr → List TypeExpr → Bool
  | [], [] => true
  | a :: as, b :: bs => a.equalBy b && typesEqualBy as bs
  | _, _ => false
termination_by structural a => a

def Pattern.equalBy : Pattern → Pattern → Bool
  | .wildcard _, .wildcard _ => true
  | .var n _, .var m _ => n == m
  | .variant n none _, .variant m none _ => n == m
  | .variant n (some p) _, .variant m (some q) _ => n == m && p.equalBy q
  | .tuple as _, .tuple bs _ => patternsEqualBy as bs
  | .list as _, .list bs _ => patternsEqualBy as bs
  | .cons a b _, .cons c d _ => a.equalBy c && b.equalBy d
  | .alternatives as _, .alternatives bs _ => patternsEqualBy as bs
  | .aliased p n _, .aliased q m _ => p.equalBy q && n == m
  | .other n, .other m => n.equalBy m
  | _, _ => false
termination_by structural a => a

def patternsEqualBy : List Pattern → List Pattern → Bool
  | [], [] => true
  | a :: as, b :: bs => a.equalBy b && patternsEqualBy as bs
  | _, _ => false
termination_by structural a => a

def Expr.equalBy : Expr → Expr → Bool
  | .constant c, .constant d => eq c d
  | .identifier n _, .identifier m _ => n == m
  | .apply f as _, .apply g bs _ => f.equalBy g && argumentsEqualBy as bs
  | .constraint e t _, .constraint f u _ => e.equalBy f && t.equalBy u
  | .extension n none _, .extension m none _ => n == m
  | .extension n (some e) _, .extension m (some f) _ => n == m && e.equalBy f
  | .tuple as _, .tuple bs _ => exprsEqualBy as bs
  | .list as _, .list bs _ => exprsEqualBy as bs
  | .unit _, .unit _ => true
  | .binary a o b _, .binary c p d _ => a.equalBy c && o == p && b.equalBy d
  | .cons a b _, .cons c d _ => a.equalBy c && b.equalBy d
  | .matching e as _, .matching f bs _ => e.equalBy f && armsEqualBy as bs
  | .other n, .other m => n.equalBy m
  | _, _ => false
termination_by structural a => a

def exprsEqualBy : List Expr → List Expr → Bool
  | [], [] => true
  | a :: as, b :: bs => a.equalBy b && exprsEqualBy as bs
  | _, _ => false
termination_by structural a => a

def Argument.equalBy : Argument → Argument → Bool
  | .mk l a, .mk m b => l == m && a.equalBy b
  | .other n, .other m => n.equalBy m
  | _, _ => false
termination_by structural a => a

def argumentsEqualBy : List Argument → List Argument → Bool
  | [], [] => true
  | a :: as, b :: bs => a.equalBy b && argumentsEqualBy as bs
  | _, _ => false
termination_by structural a => a

def Arm.equalBy : Arm → Arm → Bool
  | .mk p a _, .mk q b _ => p.equalBy q && a.equalBy b
  | .other n, .other m => n.equalBy m
  | _, _ => false
termination_by structural a => a

def armsEqualBy : List Arm → List Arm → Bool
  | [], [] => true
  | a :: as, b :: bs => a.equalBy b && armsEqualBy as bs
  | _, _ => false
termination_by structural a => a

def Statement.equalBy : Statement → Statement → Bool
  | .binding n e _, .binding m f _ => n == m && e.equalBy f
  | .expression e _, .expression f _ => e.equalBy f
  | .other n, .other m => n.equalBy m
  | _, _ => false
termination_by structural a => a

def statementsEqualBy : List Statement → List Statement → Bool
  | [], [] => true
  | a :: as, b :: bs => a.equalBy b && statementsEqualBy as bs
  | _, _ => false
termination_by structural a => a

def Node.equalBy : Node → Node → Bool
  | .program ⟨as, _⟩, .program ⟨bs, _⟩ => statementsEqualBy as bs
  | .statement s, .statement t => s.equalBy t
  | .expr e, .expr f => e.equalBy f
  | .argument a, .argument b => a.equalBy b
  | .arm a, .arm b => a.equalBy b
  | .pattern p, .pattern q => p.equalBy q
  | .type t, .type u => t.equalBy u
  | .missing, .missing => true
  | _, _ => false
termination_by structural a => a
end

/-- Equality of programs, given that of constants. -/
def Program.equalBy (p q : Program) : Bool := statementsEqualBy eq p.statements q.statements

/-- Equality up to locations and spellings. -/
def Node.equal (a b : Node) : Bool := a.equalBy Constant.equal b

end MessageLang
