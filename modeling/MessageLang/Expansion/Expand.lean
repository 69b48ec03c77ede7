import MessageLang.Expansion.Registry
/-!
# Expanding programs

Every extension of a tree is replaced by the code it stands for, outermost first; the extensions in
that code are expanded in turn. A use that fails is reported and stays as it is, and the others are
still expanded.

* `Expr.replaceExtensions`: a tree with its outermost extensions replaced.
* `Setting.siteWithin`: what a use is replaced by, the extensions in that code expanded in turn.
* `Expr.expand`, `Program.expand`, `Node.expand`: trees with all extensions expanded.
-/
namespace MessageLang

/-- A result, with the numbers of uses that were expanded and that failed, and the failures, in
order. -/
structure Expansion (α : Type) where
  value : α
  expanded : Nat
  failedCount : Nat
  failures : List ExpansionFailure

namespace Expansion

instance : Monad Expansion where
  pure a := ⟨a, 0, 0, []⟩
  bind x f :=
    let y := f x.value
    ⟨y.value, x.expanded + y.expanded, x.failedCount + y.failedCount, x.failures ++ y.failures⟩

/-- A use that was expanded. -/
def counted {α : Type} (x : Expansion α) : Expansion α := { x with expanded := x.expanded + 1 }

/-- A use that failed, and what it leaves. -/
def failed {α : Type} (value : α) (failure : ExpansionFailure) : Expansion α :=
  ⟨value, 0, 1, [failure]⟩

@[simp] theorem pure_value {α : Type} (a : α) : (pure a : Expansion α).value = a := rfl

@[simp] theorem pure_failedCount {α : Type} (a : α) : (pure a : Expansion α).failedCount = 0 := rfl

@[simp] theorem pure_failures {α : Type} (a : α) : (pure a : Expansion α).failures = [] := rfl

@[simp] theorem bind_value {α β : Type} (x : Expansion α) (f : α → Expansion β) :
    (x >>= f).value = (f x.value).value := rfl

@[simp] theorem bind_failures {α β : Type} (x : Expansion α) (f : α → Expansion β) :
    (x >>= f).failures = x.failures ++ (f x.value).failures := rfl

@[simp] theorem bind_failedCount {α β : Type} (x : Expansion α) (f : α → Expansion β) :
    (x >>= f).failedCount = x.failedCount + (f x.value).failedCount := rfl

@[simp] theorem bind_expanded {α β : Type} (x : Expansion α) (f : α → Expansion β) :
    (x >>= f).expanded = x.expanded + (f x.value).expanded := rfl

end Expansion

/-- What becomes of a use of an extension: its name, payload and place. -/
abbrev Site := String → Option Expr → Option Location → Expansion Expr

section
variable (site : Site)

mutual
/-- The tree with its outermost extensions replaced, from left to right. -/
def Expr.replaceExtensions : Expr → Expansion Expr
  | .constant c => pure (.constant c)
  | .identifier name l => pure (.identifier name l)
  | .apply f args l => do
    let f ← f.replaceExtensions
    return .apply f (← replaceInArguments args) l
  | .constraint e t l => return .constraint (← e.replaceExtensions) t l
  | .extension name payload l => site name payload l
  | .tuple es l => return .tuple (← replaceInExprs es) l
  | .list es l => return .list (← replaceInExprs es) l
  | .unit l => pure (.unit l)
  | .binary left op right l => do
    let left ← left.replaceExtensions
    return .binary left op (← right.replaceExtensions) l
  | .cons head tail l => do
    let head ← head.replaceExtensions
    return .cons head (← tail.replaceExtensions) l
  | .matching e arms l => do
    let e ← e.replaceExtensions
    return .matching e (← replaceInArms arms) l
  | .other n => return (← n.replaceExtensions).asExpr

def replaceInExprs : List Expr → Expansion (List Expr)
  | [] => pure []
  | e :: rest => do
    let e ← e.replaceExtensions
    return e :: (← replaceInExprs rest)

def replaceInArguments : List Argument → Expansion (List Argument)
  | [] => pure []
  | .mk label e :: rest => do
    let e ← e.replaceExtensions
    return .mk label e :: (← replaceInArguments rest)
  | .other n :: rest => .failed (.other n :: rest) ⟨.missing, none⟩

def Arm.replaceExtensions : Arm → Expansion Arm
  | .mk p body l => return .mk p (← body.replaceExtensions) l
  | .other n => return (← n.replaceExtensions).asArm

def replaceInArms : List Arm → Expansion (List Arm)
  | [] => pure []
  | a :: rest => do
    let a ← a.replaceExtensions
    return a :: (← replaceInArms rest)

def Statement.replaceExtensions : Statement → Expansion Statement
  | .binding name e l => return .binding name (← e.replaceExtensions) l
  | .expression e l => return .ofExpr (← e.replaceExtensions) l
  | .other n => return (← n.replaceExtensions).asStatement

def replaceInStatements : List Statement → Expansion (List Statement)
  | [] => pure []
  | s :: rest => do
    let s ← s.replaceExtensions
    return s :: (← replaceInStatements rest)

/-- The part with its outermost extensions replaced. Patterns and types are not entered. -/
def Node.replaceExtensions : Node → Expansion Node
  | .program ⟨statements, l⟩ => return .program ⟨← replaceInStatements statements, l⟩
  | .statement s => return .statement (← s.replaceExtensions)
  | .expr e => return (← e.replaceExtensions).toNode
  | .arm a => return .arm (← a.replaceExtensions)
  | .pattern p => pure (.pattern p)
  | .type t => pure (.type t)
  | .argument a => .failed (.argument a) ⟨.missing, none⟩
  | .missing => .failed .missing ⟨.missing, none⟩
end
end

/-- How programs are expanded: with which extensions, and by which conventions. -/
structure Setting where
  registry : Registry
  conventions : Conventions

namespace Setting

def standard : Setting := ⟨.standard, .standard⟩

/-- What becomes of a use of an extension, where `next` expands the code it stands for. -/
def site (s : Setting) (next : Expr → Expansion Expr) : Site := fun name payload location =>
  let kept := Expr.extension name payload location
  match s.registry.find? name with
  | none => .failed kept ⟨.unknownExtension name s.registry.sortedNames, location⟩
  | some x =>
    match x.expand s.conventions location payload with
    | .error failure => .failed kept failure
    | .ok code => (next code).counted

/-- What becomes of a use of an extension where expansions whose code holds further uses may follow
one another up to `depth` times. -/
def siteWithin (s : Setting) : (depth : Nat) → Site
  | 0 => fun name payload location =>
    .failed (.extension name payload location) ⟨.endless name, location⟩
  | depth + 1 => s.site (Expr.replaceExtensions (s.siteWithin depth))

end Setting

/-- Expands a tree. Expansions whose code holds further uses may follow one another up to `depth`
times. -/
def Expr.expandWith (s : Setting) (depth : Nat) (e : Expr) : Expansion Expr :=
  e.replaceExtensions (s.siteWithin depth)

mutual
/-- The number of extensions in a tree. -/
def Expr.extensionCount : Expr → Nat
  | .apply f args _ => f.extensionCount + argumentsExtensionCount args
  | .constraint e _ _ => e.extensionCount
  | .extension _ none _ => 1
  | .extension _ (some e) _ => e.extensionCount + 1
  | .tuple es _ | .list es _ => exprsExtensionCount es
  | .binary left _ right _ => left.extensionCount + right.extensionCount
  | .cons head tail _ => head.extensionCount + tail.extensionCount
  | .matching e arms _ => e.extensionCount + armsExtensionCount arms
  | .other n => n.extensionCount
  | _ => 0

def exprsExtensionCount : List Expr → Nat
  | [] => 0
  | e :: rest => e.extensionCount + exprsExtensionCount rest

def argumentsExtensionCount : List Argument → Nat
  | [] => 0
  | .mk _ e :: rest => e.extensionCount + argumentsExtensionCount rest
  | .other _ :: rest => argumentsExtensionCount rest

def Arm.extensionCount : Arm → Nat
  | .mk _ body _ => body.extensionCount
  | .other n => n.extensionCount

def armsExtensionCount : List Arm → Nat
  | [] => 0
  | a :: rest => a.extensionCount + armsExtensionCount rest

def Statement.extensionCount : Statement → Nat
  | .binding _ e _ | .expression e _ => e.extensionCount
  | .other n => n.extensionCount

def statementsExtensionCount : List Statement → Nat
  | [] => 0
  | s :: rest => s.extensionCount + statementsExtensionCount rest

/-- The number of extensions in a part, as far as it is expanded. -/
def Node.extensionCount : Node → Nat
  | .program ⟨statements, _⟩ => statementsExtensionCount statements
  | .statement s => s.extensionCount
  | .expr e => e.extensionCount
  | .arm a => a.extensionCount
  | .argument _ | .pattern _ | .type _ | .missing => 0
end

/-- How often expansions may follow one another in a tree with so many extensions: each use may pass
through every extension of the registry once. -/
def Setting.depth (s : Setting) (count : Nat) : Nat :=
  (count + 1) * (s.registry.extensions.length + 1)

/-- The tree with its extensions expanded. -/
def Expr.expand (s : Setting) (e : Expr) : Expansion Expr :=
  e.expandWith s (s.depth e.extensionCount)

/-- The program with its extensions expanded. -/
def Program.expand (s : Setting) (p : Program) : Expansion Program :=
  let site := s.siteWithin (s.depth (statementsExtensionCount p.statements))
  return ⟨← replaceInStatements site p.statements, p.location⟩

/-- The part with its extensions expanded. -/
def Node.expand (s : Setting) (n : Node) : Expansion Node :=
  n.replaceExtensions (s.siteWithin (s.depth n.extensionCount))

end MessageLang
