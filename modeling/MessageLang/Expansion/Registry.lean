import MessageLang.Expansion.Message
import MessageLang.Table
/-!
# Registries of extensions

A registry holds extensions in groups. Group names are unique, and an extension that is already
there in another group is refused, so that no registration changes what a name stands for.

* `Registry.register?`: the registry with one more group.
* `Registry.standard`: the groups of `[%message]` and `[%here]`.
-/
namespace MessageLang

/-- What an extension makes of its place and its payload. -/
abbrev Expander := Conventions → Option Location → Option Expr → Expanding Expr

/-- The payloads that an extension accepts. -/
inductive PayloadShape where
  | optionalExpression
  | empty
deriving DecidableEq, Repr

structure ExtensionPoint where
  name : String
  shape : PayloadShape
  expander : Expander

namespace ExtensionPoint

/-- Expands a use of the extension, if its payload is one that it accepts. -/
def expand (x : ExtensionPoint) (conventions : Conventions) (location : Option Location)
    (payload : Option Expr) : Expanding Expr :=
  match x.shape, payload with
  | .empty, some _ => .error ⟨.unwantedPayload x.name, location⟩
  | _, _ => x.expander conventions location payload

end ExtensionPoint

/-- Why a group is refused. -/
inductive RegistrationError where
  | groupExists (name : String)
  | extensionExists (name : String)
deriving DecidableEq, Repr

def RegistrationError.message : RegistrationError → String
  | groupExists name => "transformation '" ++ name ++ "' is already registered"
  | extensionExists name =>
    "extension '" ++ name ++ "' is already registered by another transformation"

structure Registry where
  /-- The groups and the names of their extensions. -/
  groups : Table (List String)
  extensions : Table ExtensionPoint

namespace Registry

def empty : Registry := ⟨[], []⟩

def find? (r : Registry) (name : String) : Option ExtensionPoint := r.extensions.get? name

/-- The registry with one more group of extensions. -/
def register? (r : Registry) (group : String) (points : List ExtensionPoint) :
    Except RegistrationError Registry :=
  if r.groups.has group then .error (.groupExists group)
  else match points.find? fun x => r.extensions.has x.name with
    | some x => .error (.extensionExists x.name)
    | none => .ok
      ⟨r.groups.set group (points.map (·.name)),
        r.extensions.update (points.map fun x => (x.name, x))⟩

/-- The extension `[%message]`. -/
def message : ExtensionPoint := ⟨"message", .optionalExpression, Message.expand⟩

/-- The extension `[%here]`. -/
def here : ExtensionPoint := ⟨"here", .empty, Here.expand⟩

/-- The registry that programs are expanded with. -/
def standard : Registry :=
  ⟨[("sexp_message", ["message"]), ("here", ["here"])], [("message", message), ("here", here)]⟩

/-- The names of the extensions, sorted. -/
def sortedNames (r : Registry) : List String := r.extensions.keys.mergeSort (· ≤ ·)

end Registry

namespace Expander

/-- The same constant for every use, at its place. -/
def integer (n : Int) : Expander := fun _ location _ =>
  .ok (.constant ⟨.int n, some (.integer .int), none, location⟩)

/-- The payload itself, or the unit. -/
def echo : Expander := fun _ location payload => .ok (payload.getD (.unit location))

/-- A use of another extension with the same payload. -/
def delegate (name : String) : Expander := fun _ location payload =>
  .ok (.extension name payload location)

/-- The payload, or the unit, beside the place. -/
def withPlace : Expander := fun _ location payload =>
  .ok (.tuple [payload.getD (.unit location), .extension "here" none location] location)

end Expander
end MessageLang
