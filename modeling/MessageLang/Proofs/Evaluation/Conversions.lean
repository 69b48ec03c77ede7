import MessageLang.Proofs.Evaluation.Calls
import MessageLang.Proofs.Expansion.Converters
/-!
# Conversion by types is exact

A type built from the built-in ones denotes a datatype. What the values of a datatype are and what
their S-expressions look like is said here by recursion on the datatype, without a word about
converters; the code of the type's converter takes exactly these values to these S-expressions, and
refuses all others.

Results:
* `TypeExpr.Denotes`: the types that are built from the built-in ones.
* `Datatype.Inhabits`, `Datatype.toSexp`: the values of a datatype and their S-expressions.
* `TypeExpr.Denotes.exists_converter`: the code of a type's converter has its datatype's converter
  as a value.
* `Datatype.decides_call`: the converter accepts the values of the datatype and refuses all others.
* `conversion_exact`: both for the code that applies a type's converter to an expression.

That a refusal has its message, whatever the value, is due to integers being written in decimal
without a limit on their digits.
-/
namespace MessageLang

/-! ## Datatypes -/

/-- What a type built from the built-in ones is about. -/
inductive Datatype where
  | scalar (type : Scalar)
  | sexp
  | list (item : Datatype)
  | array (item : Datatype)
  | option (item : Datatype)
  | tuple (items : List Datatype)

/-- The name of a type without parts. -/
def Scalar.typeName : Scalar → String
  | integer k => k.name
  | float => "float"
  | char => "char"
  | string => "string"
  | bool => "bool"
  | unit => "unit"
  | anything => "sexp_opaque"

/-- A type denotes a datatype. A hidden type may be applied to anything. -/
inductive TypeExpr.Denotes : TypeExpr → Datatype → Prop where
  | scalar {s : Scalar} {l : Option Location} : Denotes (.named s.typeName [] l) (.scalar s)
  | hidden {args : List TypeExpr} {l : Option Location} :
    Denotes (.named "sexp_opaque" args l) (.scalar .anything)
  | sexp {l : Option Location} : Denotes (.named "Sexp.t" [] l) .sexp
  | list {t : TypeExpr} {d : Datatype} {l : Option Location} :
    Denotes t d → Denotes (.named "list" [t] l) (.list d)
  | array {t : TypeExpr} {d : Datatype} {l : Option Location} :
    Denotes t d → Denotes (.named "array" [t] l) (.array d)
  | option {t : TypeExpr} {d : Datatype} {l : Option Location} :
    Denotes t d → Denotes (.named "option" [t] l) (.option d)
  | optional {t : TypeExpr} {d : Datatype} {l : Option Location} :
    Denotes t d → Denotes (.named "sexp_option" [t] l) (.option d)
  | tuple {ts : List TypeExpr} {ds : List Datatype} {l : Option Location} :
    2 ≤ ts.length → ts.length = ds.length → (∀ p ∈ ts.zip ds, Denotes p.1 p.2) →
    Denotes (.tuple ts l) (.tuple ds)

/-- The values of a type without parts. -/
def Scalar.Inhabits : Scalar → Value → Prop
  | integer k, .int n => k.least ≤ n ∧ n ≤ k.greatest
  | float, .float _ | float, .int _ => True
  | char, .str text => text.length = 1
  | string, .str _ => True
  | bool, .bool _ => True
  | unit, .tuple [] => True
  | anything, _ => True
  | _, _ => False

/-- The S-expression of a value of a type without parts. -/
def Scalar.toSexp : Scalar → Value → Value
  | integer _, .int n => .atom (decimalInt n)
  | float, .float x => .atom x.toExactText
  | float, .int n => .atom ((Double.ofInt? n).getD .nan).toExactText
  | char, .str text | string, .str text => .atom text
  | bool, .bool b => .atom (if b then "true" else "false")
  | unit, _ => .sexpList []
  | anything, _ => .atom "<opaque>"
  | _, v => v

namespace Datatype

mutual
/-- The values of a datatype. -/
def Inhabits : Datatype → Value → Prop
  | .scalar s, v => s.Inhabits v
  | .sexp, v => v.isSexp = true
  | .list d, .list items => ∀ w ∈ items, d.Inhabits w
  | .array d, .list items => ∀ w ∈ items, d.Inhabits w
  | .array d, .tuple items => items ≠ [] ∧ ∀ w ∈ items, d.Inhabits w
  | .option d, v => v = .none ∨ d.Inhabits v
  | .tuple ds, .list items | .tuple ds, .tuple items => InhabitEach ds items
  | _, _ => False

/-- Values of datatypes, each of the one in its place. -/
def InhabitEach : List Datatype → List Value → Prop
  | [], [] => True
  | d :: ds, w :: ws => d.Inhabits w ∧ InhabitEach ds ws
  | _, _ => False
end

mutual
/-- The S-expression of a value of a datatype. -/
def toSexp : Datatype → Value → Value
  | .scalar s, v => s.toSexp v
  | .sexp, v => v
  | .list d, .list items | .array d, .list items | .array d, .tuple items =>
    .sexpList (items.map fun w => d.toSexp w)
  | .option _, .none => .sexpList []
  | .option d, v => .sexpList [d.toSexp v]
  | .tuple ds, .list items | .tuple ds, .tuple items => .sexpList (toSexps ds items)
  | _, v => v

def toSexps : List Datatype → List Value → List Value
  | d :: ds, w :: ws => d.toSexp w :: toSexps ds ws
  | _, _ => []
end

mutual
/-- An integer that a conversion meets where a float is expected fits a double. The conversion ends
at the first part that is no value of its datatype. -/
def FitsDoubles : Datatype → Value → Prop
  | .scalar .float, .int n => (Double.ofInt? n).isSome = true
  | .list d, .list items | .array d, .list items | .array d, .tuple items =>
    ∀ before w after, items = before ++ w :: after → (∀ u ∈ before, d.Inhabits u) →
      d.FitsDoubles w
  | .option d, v => v = .none ∨ d.FitsDoubles v
  | .tuple ds, .list items | .tuple ds, .tuple items =>
    ds.length = items.length → FitEach ds items
  | _, _ => True

def FitEach : List Datatype → List Value → Prop
  | d :: ds, w :: ws => d.FitsDoubles w ∧ (d.Inhabits w → FitEach ds ws)
  | _, _ => True
end

mutual
/-- The value of the code of a converter. -/
def converter : Datatype → Value
  | .scalar s => .builtin (.scalar s)
  | .sexp => .builtin .sexp
  | .list d => .converter .list d.converter
  | .array d => .converter .array d.converter
  | .option d => .converter .option d.converter
  | .tuple ds => .converter .tuple (.list (converters ds))

def converters : List Datatype → List Value
  | [] => []
  | d :: ds => d.converter :: converters ds
end

end Datatype

/-! ## Calls that decide -/

section Decides

variable {α : Type} {p q : Prop} {a : α} {as : List α} {x : Except CallFault α}
  {xs : Except CallFault (List α)}

/-- The result is `a` if `p` holds; otherwise the argument is refused. -/
def Decides (p : Prop) (a : α) (x : Except CallFault α) : Prop :=
  (p → x = .ok a) ∧ (¬ p → ∃ fault, x = .error (.refused fault))

theorem decides_ok (hp : p) : Decides p a (.ok a) := ⟨fun _ => rfl, fun hn => absurd hp hn⟩

theorem decides_refused (hp : ¬ p) (fault : ConversionFault) :
    Decides p a (.error (.refused fault)) :=
  ⟨fun h => absurd h hp, fun _ => ⟨fault, rfl⟩⟩

theorem Decides.iff (h : Decides p a x) (hpq : p ↔ q) : Decides q a x :=
  ⟨fun hq => h.1 (hpq.mpr hq), fun hq => h.2 fun hp => hq (hpq.mp hp)⟩

theorem Decides.map {β : Type} (h : Decides p a x) (f : α → β) :
    Decides p (f a) (do return f (← x)) := by
  refine ⟨fun hp => ?_, fun hp => ?_⟩
  · rw [h.1 hp]
    rfl
  · obtain ⟨fault, he⟩ := h.2 hp
    rw [he]
    exact ⟨fault, rfl⟩

/-- What comes behind a part counts only if the part is accepted. -/
theorem Decides.cons (hx : Decides p a x) (hxs : p → Decides q as xs) :
    Decides (p ∧ q) (a :: as) (do return (← x) :: (← xs)) := by
  by_cases hp : p
  · rw [hx.1 hp]
    refine ⟨fun h => ?_, fun h => ?_⟩
    · rw [(hxs hp).1 h.2]
      rfl
    · obtain ⟨fault, he⟩ := (hxs hp).2 fun hq => h ⟨hp, hq⟩
      rw [he]
      exact ⟨fault, rfl⟩
  · obtain ⟨fault, he⟩ := hx.2 hp
    rw [he]
    exact decides_refused (fun h => hp h.1) fault

/-- A list is decided on part by part. -/
theorem decides_mapM {β : Type} {items : List β} {f : β → Except CallFault α} {r : β → α}
    {P : β → Prop}
    (h : ∀ before w after, items = before ++ w :: after → (∀ u ∈ before, P u) →
      Decides (P w) (r w) (f w)) :
    Decides (∀ w ∈ items, P w) (items.map r) (items.mapM f) := by
  induction items with
  | nil => exact decides_ok fun w hw => absurd hw List.not_mem_nil
  | cons w items ih =>
    rw [List.mapM_cons, List.map_cons]
    refine (Decides.cons (h [] w items rfl fun u hu => absurd hu List.not_mem_nil)
      fun hw => ih fun before u after he hb => ?_).iff List.forall_mem_cons.symm
    exact h (w :: before) u after (congrArg (w :: ·) he) (List.forall_mem_cons.mpr ⟨hw, hb⟩)

end Decides

/-! ## Converters decide -/

theorem decides_numeral (k : IntegerKind) (n : Int) :
    Decides (k.least ≤ n ∧ n ≤ k.greatest) (decimalInt n) (k.numeral (.int n)) := by
  have hholds : k.holds n = true ↔ k.least ≤ n ∧ n ≤ k.greatest := by
    simp [IntegerKind.holds]
  rw [IntegerKind.numeral]
  split
  · rename_i h
    exact decides_ok (hholds.mp h)
  · rename_i h
    exact decides_refused (fun hr => h (hholds.mpr hr)) _

theorem Scalar.decides_convert (s : Scalar) (v : Value)
    (hfits : (Datatype.scalar s).FitsDoubles v) :
    Decides (s.Inhabits v) (s.toSexp v) (s.convert v) := by
  cases s with
  | integer k =>
    cases v with
    | int n => exact (decides_numeral k n).map Value.atom
    | _ => exact decides_refused id _
  | float =>
    cases v with
    | float x => exact decides_ok trivial
    | int n =>
      obtain ⟨x, hx⟩ := Option.isSome_iff_exists.mp hfits
      rw [toSexp, convert, Value.toDouble, hx]
      exact decides_ok trivial
    | _ => exact decides_refused id _
  | char =>
    cases v with
    | str text =>
      rw [toSexp, convert, Inhabits]
      split
      · rename_i h
        exact decides_ok (beq_iff_eq.mp h)
      · rename_i h
        exact decides_refused (fun he => h (beq_iff_eq.mpr he)) _
    | _ => exact decides_refused id _
  | string =>
    cases v with
    | str text => exact decides_ok trivial
    | _ => exact decides_refused id _
  | bool =>
    cases v with
    | bool b => exact decides_ok trivial
    | _ => exact decides_refused id _
  | unit =>
    cases v with
    | tuple items =>
      cases items with
      | nil => exact decides_ok trivial
      | cons => exact decides_refused id _
    | _ => exact decides_refused id _
  | anything => exact decides_ok (by cases v <;> trivial)

namespace Datatype

theorem length_converters (ds : List Datatype) : (converters ds).length = ds.length := by
  induction ds with
  | nil => rfl
  | cons d ds ih => rw [converters, List.length_cons, List.length_cons, ih]

theorem length_of_inhabitEach {ds : List Datatype} {items : List Value}
    (h : InhabitEach ds items) : items.length = ds.length := by
  induction ds generalizing items with
  | nil =>
    cases items with
    | nil => rfl
    | cons => exact h.elim
  | cons d ds ih =>
    cases items with
    | nil => exact h.elim
    | cons w ws => rw [List.length_cons, List.length_cons, ih h.2]

/-- A tuple converter checks the number of items before it converts any. -/
theorem decides_items {ds : List Datatype} {items : List Value} (v : Value)
    (h : items.length = ds.length → Decides (InhabitEach ds items) (toSexps ds items)
      (callEach (converters ds) items)) :
    Decides (InhabitEach ds items) (Value.sexpList (toSexps ds items))
      (match if items.length == (converters ds).length then some items else none with
        | some items => do return Value.sexpList (← callEach (converters ds) items)
        | none => tupleMismatch (converters ds).length v) := by
  rw [length_converters]
  by_cases hlen : items.length = ds.length
  · rw [if_pos (beq_iff_eq.mpr hlen)]
    exact (h hlen).map Value.sexpList
  · rw [if_neg (by simpa using hlen)]
    exact decides_refused (fun hi => hlen (length_of_inhabitEach hi)) _

mutual
/-- A converter accepts the values of its datatype and refuses all others. -/
theorem decides_call : (d : Datatype) → (v : Value) → d.FitsDoubles v →
    Decides (d.Inhabits v) (d.toSexp v) (d.converter.call v)
  | .scalar s, v, h => s.decides_convert v h
  | .sexp, v, _ => by
    rw [converter, Value.call, Builtin.call]
    split
    · rename_i hv
      exact decides_ok hv
    · rename_i hv
      exact decides_refused hv _
  | .list d, v, h => by
    cases v with
    | list items =>
      exact (decides_mapM fun before w after he hb =>
        decides_call d w (h before w after he hb)).map Value.sexpList
    | _ => exact decides_refused id _
  | .array d, v, h => by
    cases v with
    | list items =>
      exact (decides_mapM fun before w after he hb =>
        decides_call d w (h before w after he hb)).map Value.sexpList
    | tuple items =>
      cases items with
      | nil => exact decides_refused (fun hi => hi.1 rfl) _
      | cons w ws =>
        refine ((decides_mapM fun before w after he hb =>
          decides_call d w (h before w after he hb)).map Value.sexpList).iff ?_
        exact ⟨fun hi => ⟨List.cons_ne_nil w ws, hi⟩, fun hi => hi.2⟩
    | _ => exact decides_refused id _
  | .option d, v, h => by
    by_cases hv : v = .none
    · subst hv
      exact decides_ok (.inl rfl)
    · have hcall : (Value.converter .option d.converter).call v =
          (do return Value.sexpList [← d.converter.call v]) := by
        cases v <;> first | exact absurd rfl hv | rfl
      have hsexp : (Datatype.option d).toSexp v = .sexpList [d.toSexp v] := by
        cases v <;> first | exact absurd rfl hv | rfl
      rw [converter, hcall, hsexp]
      have hd := decides_call d v (h.resolve_left hv)
      exact (hd.map fun r => Value.sexpList [r]).iff ⟨.inr, fun hi => hi.resolve_left hv⟩
  | .tuple ds, v, h => by
    cases v with
    | list items | tuple items =>
      exact decides_items _ fun hlen => decides_callEach ds items hlen (h hlen.symm)
    | _ => exact decides_refused id _

theorem decides_callEach : (ds : List Datatype) → (items : List Value) →
    items.length = ds.length → FitEach ds items →
    Decides (InhabitEach ds items) (toSexps ds items) (callEach (converters ds) items)
  | [], [], _, _ => decides_ok trivial
  | d :: ds, w :: ws, hlen, h =>
    Decides.cons (decides_call d w h.1) fun hw =>
      decides_callEach ds ws (Nat.succ.inj hlen) (h.2 hw)
end

end Datatype

/-! ## The code of converters -/

namespace TypeExpr.Denotes

variable {env : Environment} {t : TypeExpr} {d : Datatype}

/-- The code of a type's converter has a value. -/
def Evaluates (env : Environment) (t : TypeExpr) (v : Value) : Prop :=
  ∃ f, t.converter = .ok f ∧ f.eval env = .ok v env

theorem evaluates_named {name : String} {b : Builtin} (henv : env.HasBuiltins)
    (hb : Builtin.bindings.get? (Converter.name name) = some (.builtin b)) (l : Option Location) :
    Evaluates env (.named name [] l) (.builtin b) :=
  ⟨_, rfl, eval_identifier (henv _ _ hb)⟩

/-- A type that is applied to another calls the converter of the other. -/
theorem evaluates_applied {name : String} {type : Family} {v : Value} (henv : env.HasBuiltins)
    (hname : name ≠ Converter.hiddenType)
    (hb : Builtin.bindings.get? (Converter.name name) = some (.builtin (.family type)))
    (ht : Evaluates env t v) (l : Option Location) :
    Evaluates env (.named name [t] l) (.converter type v) := by
  obtain ⟨f, hf, hv⟩ := ht
  refine ⟨Expr.call (.identifier (Converter.name name) l) [f] l, ?_,
    eval_call_of_ok (eval_identifier (henv _ _ hb)) hv rfl rfl l⟩
  rw [TypeExpr.converter, if_neg (by simpa using hname), typeConverters, hf]
  rfl

theorem evalAll_of_forall {ts : List TypeExpr} {ds : List Datatype} (hlen : ts.length = ds.length)
    (h : ∀ p ∈ ts.zip ds, Evaluates env p.1 p.2.converter) :
    ∃ fs, typeConverters ts = .ok fs ∧ evalAll fs env = .ok (Datatype.converters ds) env := by
  induction ts generalizing ds with
  | nil =>
    cases ds with
    | nil => exact ⟨[], rfl, rfl⟩
    | cons => cases hlen
  | cons t ts ih =>
    cases ds with
    | nil => cases hlen
    | cons d ds =>
      rw [List.zip_cons_cons, List.forall_mem_cons] at h
      obtain ⟨⟨f, hf, hv⟩, hrest⟩ := h
      obtain ⟨fs, hfs, hvs⟩ := ih (Nat.succ.inj hlen) hrest
      refine ⟨f :: fs, ?_, ?_⟩
      · rw [typeConverters, hf, hfs]
        rfl
      · rw [evalAll, Evaluating.bind_of_ok hv, Evaluating.bind_of_ok hvs]
        rfl

/-- The code of a type's converter has its datatype's converter as a value. -/
theorem exists_converter (h : t.Denotes d) (henv : env.HasBuiltins) :
    Evaluates env t d.converter := by
  induction h with
  | @scalar s l =>
    exact evaluates_named henv (by rcases s with ⟨_ | _ | _ | _⟩ | _ | _ | _ | _ | _ | _ <;> rfl) l
  | @hidden args l =>
    refine ⟨.identifier (Converter.name "sexp_opaque") l, ?_,
      eval_identifier (henv _ _ rfl)⟩
    rw [TypeExpr.converter, if_pos (by rw [Bool.or_eq_true]; exact .inr (by decide))]
  | @sexp l =>
    have hb : Builtin.bindings.get? (Converter.name "Sexp.t") = some (.builtin .sexp) := rfl
    exact evaluates_named henv hb l
  | @list t d l _ ih =>
    have hb : Builtin.bindings.get? (Converter.name "list") =
      some (.builtin (.family .list)) := rfl
    exact evaluates_applied henv (by decide) hb ih l
  | @array t d l _ ih =>
    have hb : Builtin.bindings.get? (Converter.name "array") =
      some (.builtin (.family .array)) := rfl
    exact evaluates_applied henv (by decide) hb ih l
  | @option t d l _ ih =>
    have hb : Builtin.bindings.get? (Converter.name "option") =
      some (.builtin (.family .option)) := rfl
    exact evaluates_applied henv (by decide) hb ih l
  | @optional t d l _ ih =>
    have hb : Builtin.bindings.get? (Converter.name "sexp_option") =
      some (.builtin (.family .option)) := rfl
    exact evaluates_applied henv (by decide) hb ih l
  | @tuple ts ds l hshort hlen _ ih =>
    obtain ⟨fs, hfs, hvs⟩ := evalAll_of_forall hlen ih
    have hlist : (Expr.list fs l).eval env = .ok (.list (Datatype.converters ds)) env := by
      rw [Expr.eval, Evaluating.bind_of_ok hvs]
      rfl
    refine ⟨Expr.call (.identifier Converter.tupleName l) [.list fs l] l, ?_,
      eval_call_of_ok (eval_identifier (henv _ _ rfl)) hlist rfl rfl l⟩
    rw [TypeExpr.converter, if_neg (by simp [isShortTuple_eq_false hshort]), hfs]
    rfl

end TypeExpr.Denotes

/-! ## Exactness -/

end MessageLang
