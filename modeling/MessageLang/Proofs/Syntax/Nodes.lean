import MessageLang.Proofs.Source.Lines
import MessageLang.Syntax.Basic
/-!
# The nodes of a tree and their regions

* `Node.children`: the parts right below a part, types and patterns among them.
* `Node.Contains n m`: `m` is `n` or stands somewhere below it.
* `Node.Spans`: the region of a part is a piece of the text, and those of its children are pieces of
  it, one behind the other.
* `Row`: parts that stand in a row in a text, with all that stands below them; the invariant that
  reading keeps. `Row.spans` reads the regions off.
-/
namespace MessageLang

/-- The part that an argument is in the place of: its expression. -/
def Argument.child : Argument → Node
  | .mk _ e => .expr e
  | .other n => n

/-- The parts right below a part, from left to right. -/
def Node.children : Node → List Node
  | .program p => p.statements.map .statement
  | .statement (.binding _ e _) | .statement (.expression e _) => [.expr e]
  | .statement (.other n) => [n]
  | .expr (.constant _) | .expr (.identifier _ _) | .expr (.unit _) => []
  | .expr (.apply f args _) => .expr f :: args.map Argument.child
  | .expr (.constraint e t _) => [.expr e, .type t]
  | .expr (.extension _ payload _) => payload.toList.map .expr
  | .expr (.tuple es _) | .expr (.list es _) => es.map .expr
  | .expr (.binary left _ right _) => [.expr left, .expr right]
  | .expr (.cons head tail _) => [.expr head, .expr tail]
  | .expr (.matching e arms _) => .expr e :: arms.map .arm
  | .expr (.other n) => [n]
  | .argument a => [a.child]
  | .arm (.mk p body _) => [.pattern p, .expr body]
  | .arm (.other n) => [n]
  | .pattern (.wildcard _) | .pattern (.var _ _) => []
  | .pattern (.variant _ p _) => p.toList.map .pattern
  | .pattern (.tuple ps _) | .pattern (.list ps _) | .pattern (.alternatives ps _) =>
    ps.map .pattern
  | .pattern (.cons head tail _) => [.pattern head, .pattern tail]
  | .pattern (.aliased p _ _) => [.pattern p]
  | .pattern (.other n) => [n]
  | .type (.named _ ts _) | .type (.tuple ts _) => ts.map .type
  | .type (.other n) => [n]
  | .missing => []

/-- A part, and the parts that stand below it. -/
inductive Node.Contains : Node → Node → Prop where
  | self {n : Node} : Contains n n
  | child {n c m : Node} : c ∈ n.children → Contains c m → Contains n m

/-- Whether a part is a name. -/
def Node.isName : Node → Bool
  | .expr (.identifier _ _) => true
  | _ => false

theorem Node.exists_of_isName {n : Node} (h : n.isName = true) :
    ∃ name l, n = .expr (.identifier name l) := by
  unfold Node.isName at h
  split at h
  · exact ⟨_, _, rfl⟩
  · cases h

/-- The region of one part ends before that of another starts. -/
def Node.Before (a b : Node) : Prop :=
  ∃ l m, a.location = some l ∧ b.location = some m ∧ l.stop ≤ m.start

/-- The region of a part is a piece of the text that is not empty, its lines and columns are those
of its ends, and its children take up pieces of it, in their order and apart from one another. -/
structure Node.Spans (file : String) (text : List Char) (n : Node) (l : Location) : Prop where
  location : n.location = some l
  file_eq : l.file = file
  start_nonneg : 0 ≤ l.start
  start_lt_stop : l.start < l.stop
  stop_le : l.stop ≤ text.length
  line_eq : l.line = lineAt text l.start.toNat
  column_eq : l.column = columnAt text l.start.toNat
  endLine_eq : l.endLine = lineAt text l.stop.toNat
  endColumn_eq : l.endColumn = columnAt text l.stop.toNat
  inside : ∀ c ∈ n.children, ∃ m, c.location = some m ∧ l.start ≤ m.start ∧ m.stop ≤ l.stop
  ordered : n.children.Pairwise Node.Before

/-! ## Parts in a row -/

/-- Between two offsets the parts stand one behind the other, each with its children in a row
between its own ends. -/
inductive Row (file : String) (text : List Char) : Nat → List Node → Nat → Prop where
  | nil {i j : Nat} : i ≤ j → Row file text i [] j
  | cons {i j : Nat} {p q : Position} {n : Node} {ns : List Node} :
    i ≤ p.offset → n.location = some (.between file p q) → IsPiece text p q →
    Row file text p.offset n.children q.offset → Row file text q.offset ns j →
    Row file text i (n :: ns) j

/-- The parts stand in a row in the piece from `p` to `q`, which lies between two offsets. -/
structure Stretch (file : String) (text : List Char) (i : Nat) (p : Position) (ns : List Node)
    (q : Position) (j : Nat) : Prop where
  le_first : i ≤ p.offset
  piece : IsPiece text p q
  last_le : q.offset ≤ j
  row : Row file text p.offset ns q.offset

namespace Row

variable {file : String} {text : List Char} {i i' j j' m : Nat} {p q : Position} {n : Node}
  {ns ns' : List Node}

theorem le (h : Row file text i ns j) : i ≤ j := by
  induction h with
  | nil h => exact h
  | cons _ _ hpq _ _ _ ih =>
    have := hpq.lt
    omega

theorem widen (h : Row file text i ns j) (hi : i' ≤ i) (hj : j ≤ j') :
    Row file text i' ns j' := by
  induction h generalizing i' with
  | nil h => exact .nil (by omega)
  | cons hip hl hpq hc _ _ ih => exact .cons (by omega) hl hpq hc (ih (Nat.le_refl _) hj)

theorem append (h : Row file text i ns m) (h' : Row file text m ns' j) :
    Row file text i (ns ++ ns') j := by
  induction h with
  | nil h => exact h'.widen h (Nat.le_refl _)
  | cons hip hl hpq hc _ _ ih => exact .cons hip hl hpq hc (ih h')

/-- A part whose children stand in a row between its ends. -/
theorem node (hl : n.location = some (.between file p q)) (hpq : IsPiece text p q)
    (hc : Row file text p.offset n.children q.offset) : Row file text p.offset [n] q.offset :=
  .cons (Nat.le_refl _) hl hpq hc (.nil (Nat.le_refl _))

/-- All that stands in a row is within its ends. -/
theorem within (h : Row file text i ns j) :
    ∀ n ∈ ns, ∀ x, n.Contains x →
      ∃ l, x.location = some l ∧ (i : Int) ≤ l.start ∧ l.start < l.stop ∧ l.stop ≤ j := by
  induction h with
  | nil => exact nofun
  | @cons i j p q n ns hip hl hpq _ hns ihc ih =>
    have hlt := hpq.lt
    have hqj := hns.le
    refine List.forall_mem_cons.mpr ⟨fun x hx => ?_, fun n hn x hx => ?_⟩
    · cases hx with
      | self =>
        refine ⟨_, hl, ?_⟩
        simp only [Location.between]
        omega
      | child hm hx =>
        obtain ⟨l, hl, hstart, hlt, hstop⟩ := ihc _ hm x hx
        exact ⟨l, hl, by omega, hlt, by omega⟩
    · obtain ⟨l, hl, hstart, hlt, hstop⟩ := ih n hn x hx
      exact ⟨l, hl, by omega, hlt, hstop⟩

/-- The parts of a row are apart and in order. -/
theorem pairwise (h : Row file text i ns j) : ns.Pairwise Node.Before := by
  induction h with
  | nil => exact .nil
  | cons _ hl _ _ hns _ ih =>
    refine List.pairwise_cons.mpr ⟨fun c hc => ?_, ih⟩
    obtain ⟨l, hl', hstart, -⟩ := hns.within c hc c .self
    exact ⟨_, l, hl, hl', hstart⟩

/-- All that stands in a row spans a piece of the text. -/
theorem spans (h : Row file text i ns j) :
    ∀ n ∈ ns, ∀ x, n.Contains x → ∃ l, x.Spans file text l := by
  induction h with
  | nil => exact nofun
  | @cons i j p q n ns _ hl hpq hc _ ihc ih =>
    refine List.forall_mem_cons.mpr ⟨fun x hx => ?_, ih⟩
    cases hx with
    | child hm hx => exact ihc _ hm x hx
    | self =>
      obtain ⟨⟨hp, -⟩, ⟨hq, hle⟩, hlt⟩ := hpq
      refine ⟨.between file p q, ⟨hl, rfl, ?_, ?_, ?_, ?_, ?_, ?_, ?_, fun c hm => ?_, hc.pairwise⟩⟩
      all_goals simp only [Location.between, Int.toNat_natCast]
      · omega
      · omega
      · omega
      · exact congrArg (fun p => (p.line : Int)) hp
      · exact congrArg (fun p => (p.column : Int)) hp
      · exact congrArg (fun p => (p.line : Int)) hq
      · exact congrArg (fun p => (p.column : Int)) hq
      · obtain ⟨m, hm, hstart, -, hstop⟩ := hc.within c hm c .self
        exact ⟨m, hm, hstart, hstop⟩

/-- Each part of a row has its children in a row between its ends. -/
theorem exists_of_mem (h : Row file text i ns j) (hn : n ∈ ns) :
    ∃ p q, n.location = some (.between file p q) ∧ Row file text p.offset [n] q.offset := by
  induction h with
  | nil => cases hn
  | cons _ hl hpq hc _ _ ih =>
    rcases List.mem_cons.mp hn with rfl | hn
    · exact ⟨_, _, hl, node hl hpq hc⟩
    · exact ih hn

/-- The ends of a row that is not empty are those of its first and its last part. -/
theorem exists_ends (h : Row file text i ns j) (hne : ns ≠ []) :
    ∃ p p' q' q, ns.head?.bind Node.location = some (.between file p q') ∧
      ns.getLast?.bind Node.location = some (.between file p' q) ∧
      Stretch file text i p ns q j := by
  induction h with
  | nil => exact absurd rfl hne
  | @cons i j p q n ns hip hl hpq hc hns _ ih =>
    cases ns with
    | nil => exact ⟨p, p, q, q, hl, hl, hip, hpq, hns.le, node hl hpq hc⟩
    | cons n' ns =>
      obtain ⟨_, p', _, q', -, hlast, hs⟩ := ih (List.cons_ne_nil n' ns)
      have hrow : Row file text q.offset (n' :: ns) q'.offset :=
        hs.row.widen hs.le_first (Nat.le_refl _)
      have hlast' : (n :: n' :: ns).getLast?.bind Node.location = some (.between file p' q') := by
        rw [List.getLast?_cons_cons, hlast]
      exact ⟨p, p', q, q', hl, hlast', hip, hpq.trans hs.le_first hs.piece, hs.last_le,
        .cons (Nat.le_refl _) hl hpq hc hrow⟩

end Row

namespace Stretch

variable {file : String} {text : List Char} {i j m : Nat} {p p' q q' : Position} {n : Node}
  {ns ns' : List Node}

/-- The parts stand in a row between the offsets. -/
theorem toRow (h : Stretch file text i p ns q j) : Row file text i ns j :=
  h.row.widen h.le_first h.last_le

/-- A part that is where its children are. -/
theorem node (h : Stretch file text i p n.children q j)
    (hl : n.location = some (.between file p q)) : Stretch file text i p [n] q j :=
  ⟨h.le_first, h.piece, h.last_le, .node hl h.piece h.row⟩

theorem append (h : Stretch file text i p ns q m) (h' : Stretch file text m p' ns' q' j) :
    Stretch file text i p (ns ++ ns') q' j := by
  have hqp : q.offset ≤ p'.offset := Nat.le_trans h.last_le h'.le_first
  have hrow : Row file text q.offset ns' q'.offset := h'.row.widen hqp (Nat.le_refl _)
  exact ⟨h.le_first, h.piece.trans hqp h'.piece, h'.last_le, h.row.append hrow⟩

end Stretch
end MessageLang
