import MessageLang.Proofs.Syntax.Parts
/-!
# The extensions in a tree

* `Expr.extensions`, `Program.extensions`: the uses of extensions in a tree, outermost first and
  from left to right.
* `Expr.outermost`, `Program.outermost`: those that stand in no payload.
-/
namespace MessageLang

/-- Whether an expression is the use of an extension. -/
def Expr.isExtension : Expr → Bool
  | .extension _ _ _ => true
  | _ => false

/-- Whether an expression is `[%here]`. -/
def Expr.isHere : Expr → Bool
  | .extension name _ _ => name == "here"
  | _ => false

def Expr.extensions (e : Expr) : List Expr := e.parts.filter Expr.isExtension

def Argument.extensions (a : Argument) : List Expr := a.parts.filter Expr.isExtension

def Arm.extensions (a : Arm) : List Expr := a.parts.filter Expr.isExtension

def Statement.extensions (s : Statement) : List Expr := s.parts.filter Expr.isExtension

/-- The uses of extensions in a program. -/
def Program.extensions (p : Program) : List Expr := p.parts.filter Expr.isExtension

mutual
/-- The uses of extensions in an expression that stand in no payload. -/
def Expr.outermost : Expr → List Expr
  | .constant _ | .identifier _ _ | .unit _ => []
  | .apply f args _ => f.outermost ++ outermostOfArguments args
  | .constraint e _ _ => e.outermost
  | .extension name payload l => [.extension name payload l]
  | .tuple es _ | .list es _ => outermostOfExprs es
  | .binary left _ right _ => left.outermost ++ right.outermost
  | .cons head tail _ => head.outermost ++ tail.outermost
  | .matching e arms _ => e.outermost ++ outermostOfArms arms
  | .other n => n.outermost

def outermostOfExprs : List Expr → List Expr
  | [] => []
  | e :: rest => e.outermost ++ outermostOfExprs rest

def Argument.outermost : Argument → List Expr
  | .mk _ e => e.outermost
  | .other n => n.outermost

def outermostOfArguments : List Argument → List Expr
  | [] => []
  | a :: rest => a.outermost ++ outermostOfArguments rest

def Arm.outermost : Arm → List Expr
  | .mk _ body _ => body.outermost
  | .other n => n.outermost

def outermostOfArms : List Arm → List Expr
  | [] => []
  | a :: rest => a.outermost ++ outermostOfArms rest

def Statement.outermost : Statement → List Expr
  | .binding _ e _ | .expression e _ => e.outermost
  | .other n => n.outermost

def outermostOfStatements : List Statement → List Expr
  | [] => []
  | s :: rest => s.outermost ++ outermostOfStatements rest

/-- The uses of extensions in a part of a program that stand in no payload. -/
def Node.outermost : Node → List Expr
  | .program ⟨statements, _⟩ => outermostOfStatements statements
  | .statement s => s.outermost
  | .expr e => e.outermost
  | .argument a => a.outermost
  | .arm a => a.outermost
  | .pattern _ | .type _ | .missing => []
end

/-- The uses of extensions in a program that stand in no payload. -/
def Program.outermost (p : Program) : List Expr := outermostOfStatements p.statements

/-! ## The extensions of each kind of tree -/

namespace Expr

section

variable {e f left right head tail : Expr} {es : List Expr} {args : List Argument}
  {arms : List Arm} {name : String} {ty : TypeExpr} {op : Operator} {l : Option Location}

theorem filter_partsOfExprs :
    (partsOfExprs es).filter isExtension = es.flatMap Expr.extensions := by
  induction es with
  | nil => rfl
  | cons e es ih =>
    rw [partsOfExprs, List.filter_append, ih]
    rfl

theorem filter_partsOfArguments :
    (partsOfArguments args).filter isExtension = args.flatMap Argument.extensions := by
  induction args with
  | nil => rfl
  | cons a args ih =>
    rw [partsOfArguments, List.filter_append, ih]
    rfl

theorem filter_partsOfArms :
    (partsOfArms arms).filter isExtension = arms.flatMap Arm.extensions := by
  induction arms with
  | nil => rfl
  | cons a arms ih =>
    rw [partsOfArms, List.filter_append, ih]
    rfl

@[simp] theorem extensions_constant (c : Constant) : (Expr.constant c).extensions = [] := rfl

@[simp] theorem extensions_identifier : (Expr.identifier name l).extensions = [] := rfl

@[simp] theorem extensions_unit : (Expr.unit l).extensions = [] := rfl

@[simp] theorem extensions_apply :
    (Expr.apply f args l).extensions = f.extensions ++ args.flatMap Argument.extensions := by
  show ((f.parts ++ partsOfArguments args).filter isExtension) = _
  rw [List.filter_append, filter_partsOfArguments]
  rfl

@[simp] theorem extensions_constraint : (Expr.constraint e ty l).extensions = e.extensions := rfl

@[simp] theorem extensions_extension_none :
    (Expr.extension name none l).extensions = [.extension name none l] := rfl

@[simp] theorem extensions_extension_some :
    (Expr.extension name (some e) l).extensions =
      .extension name (some e) l :: e.extensions := rfl

@[simp] theorem extensions_tuple : (Expr.tuple es l).extensions = es.flatMap extensions :=
  filter_partsOfExprs

@[simp] theorem extensions_list : (Expr.list es l).extensions = es.flatMap extensions :=
  filter_partsOfExprs

@[simp] theorem extensions_binary :
    (Expr.binary left op right l).extensions = left.extensions ++ right.extensions :=
  List.filter_append ..

@[simp] theorem extensions_cons :
    (Expr.cons head tail l).extensions = head.extensions ++ tail.extensions :=
  List.filter_append ..

@[simp] theorem extensions_matching :
    (Expr.matching e arms l).extensions = e.extensions ++ arms.flatMap Arm.extensions := by
  show ((e.parts ++ partsOfArms arms).filter isExtension) = _
  rw [List.filter_append, filter_partsOfArms]
  rfl

end
end Expr

theorem length_le_flatMap {α : Type} {a : α} {as : List α} (h : a ∈ as) (f : α → List Expr) :
    (f a).length ≤ (as.flatMap f).length := by
  obtain ⟨as₁, as₂, rfl⟩ := List.append_of_mem h
  simp only [List.flatMap_append, List.flatMap_cons, List.length_append]
  omega

theorem Program.extensions_eq_flatMap (p : Program) :
    p.extensions = p.statements.flatMap Statement.extensions := by
  obtain ⟨ss, l⟩ := p
  show (partsOfStatements ss).filter Expr.isExtension = ss.flatMap Statement.extensions
  induction ss with
  | nil => rfl
  | cons s ss ih =>
    rw [partsOfStatements, List.filter_append, ih]
    rfl

theorem outermostOfExprs_eq_flatMap (es : List Expr) :
    outermostOfExprs es = es.flatMap Expr.outermost := by
  induction es with
  | nil => rfl
  | cons e es ih => rw [outermostOfExprs, ih, List.flatMap_cons]

theorem outermostOfArguments_eq_flatMap (args : List Argument) :
    outermostOfArguments args = args.flatMap Argument.outermost := by
  induction args with
  | nil => rfl
  | cons a args ih => rw [outermostOfArguments, ih, List.flatMap_cons]

theorem outermostOfArms_eq_flatMap (arms : List Arm) :
    outermostOfArms arms = arms.flatMap Arm.outermost := by
  induction arms with
  | nil => rfl
  | cons a arms ih => rw [outermostOfArms, ih, List.flatMap_cons]

theorem outermostOfStatements_eq_flatMap (ss : List Statement) :
    outermostOfStatements ss = ss.flatMap Statement.outermost := by
  induction ss with
  | nil => rfl
  | cons s ss ih => rw [outermostOfStatements, ih, List.flatMap_cons]

end MessageLang
