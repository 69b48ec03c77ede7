import MessageLang.Proofs.Grammar.Pieces
import MessageLang.Proofs.Syntax.Relocate
/-!
# Tokens at other places

Tokens derive the same trees wherever they are. When the places where tokens start are moved by one
function and those where they end by another, the regions of the tree are moved by both.

* `Derives.move`: production by production.
* `tokensAt_eq_map_move`: the tokens of pieces that start elsewhere.
-/
namespace MessageLang

/-! ## Tokens -/

/-- The token with its ends moved. -/
def Token.move (mf ml : Position → Position) (t : Token) : Token :=
  { t with first := mf t.first, last := ml t.last }

variable {mf ml : Position → Position}

/-- The tokens of pieces that start elsewhere. -/
theorem tokensAt_eq_map_move {p p' : Position} {ps : List Piece} (hne : ∀ x ∈ ps, x.2 ≠ [])
    (hf : ∀ u v, textOf ps = u ++ v → v ≠ [] → mf (p.advance u) = p'.advance u)
    (hl : ∀ u v, textOf ps = u ++ v → u ≠ [] → ml (p.advance u) = p'.advance u) :
    tokensAt p' ps = (tokensAt p ps).map (Token.move mf ml) := by
  induction ps generalizing p p' with
  | nil => rfl
  | cons x ps ih =>
    obtain ⟨k, w⟩ := x
    obtain ⟨hw, hne⟩ := List.forall_mem_cons.mp hne
    dsimp only at hw
    have htail : tokensAt (p'.advance w) ps =
        (tokensAt (p.advance w) ps).map (Token.move mf ml) := by
      refine ih hne (fun u v he hv => ?_) fun u v he hu => ?_
      · rw [← Position.advance_append, ← Position.advance_append]
        exact hf (w ++ u) v (by rw [textOf_cons, he, List.append_assoc]) hv
      · rw [← Position.advance_append, ← Position.advance_append]
        refine hl (w ++ u) v (by rw [textOf_cons, he, List.append_assoc]) ?_
        exact List.append_ne_nil_of_left_ne_nil hw u
    have hfirst : mf p = p' := hf [] _ rfl (List.append_ne_nil_of_left_ne_nil hw _)
    have hlast : ml (p.advance w) = p'.advance w := hl w _ rfl hw
    simp only [tokensAt]
    split
    · exact htail
    · rw [List.map_cons, ← htail, Token.move, hfirst, hlast]

theorem Cuts.ne_nil {ps : List Piece} {rest : List Char} (h : Cuts ps rest) :
    ∀ x ∈ ps, x.2 ≠ [] := by
  induction ps with
  | nil => exact nofun
  | cons x ps ih =>
    obtain ⟨hx, hps⟩ := h
    refine List.forall_mem_cons.mpr ⟨?_, ih hps⟩
    rcases hx with ⟨-, hw⟩ | hw
    · exact hw.ne_nil
    · exact hw.isLexeme.ne_nil

/-! ## Literals -/

variable {f : Location → Location}

/-- The constant of a literal is the same at every place, and so is what is wrong with it. -/
def Literal.Decoder.IsUniform (decode : Literal.Decoder) : Prop :=
  ∀ (f : Location → Location) l, decode (some (f l)) = (decode (some l)).map (Constant.relocate f)

theorem Token.isUniform_of_number? {negative : Bool} {t : Token} {decode : Literal.Decoder}
    (h : t.number? negative = some decode) : decode.IsUniform := by
  intro f l
  unfold Token.number? at h
  split at h
  · cases h
    unfold Literal.integer
    cases Literal.integerValue negative t.text <;> rfl
  · cases h
    rfl
  · cases h

theorem Token.isUniform_of_literal? {t : Token} {decode : Literal.Decoder}
    (h : t.literal? = some decode) : decode.IsUniform := by
  have quoted (kind : LiteralKind) : Literal.Decoder.IsUniform (Literal.quoted kind t.text) := by
    intro f l
    unfold Literal.quoted
    cases Text.Escape.decode (Literal.between t.text) <;> rfl
  unfold Token.literal? at h
  split at h
  · cases h
    exact quoted .char
  · cases h
    exact quoted .string
  · exact Token.isUniform_of_number? h

/-- A bad literal elsewhere. -/
def BadLiteral.relocate (f : Location → Location) (b : BadLiteral) : BadLiteral :=
  { b with location := f b.location }

theorem Literal.standing_relocate {decode : Literal.Decoder} (h : decode.IsUniform)
    (l : Location) :
    (Literal.standing decode l).relocate f = Literal.standing decode (f l) := by
  unfold Literal.standing
  rw [h f l]
  cases decode (some l) <;> rfl

theorem Literal.faults_relocate {decode : Literal.Decoder} (h : decode.IsUniform) (l : Location) :
    (Literal.faults decode l).map (BadLiteral.relocate f) = Literal.faults decode (f l) := by
  unfold Literal.faults
  rw [h f l]
  cases decode (some l) <;> rfl

/-! ## Phrases -/

/-- The part with its places moved. -/
def Spanned.moveExpr (f : Location → Location) (mf ml : Position → Position) (e : Spanned Expr) :
    Spanned Expr :=
  ⟨e.node.relocate f, mf e.first, ml e.last⟩

def Spanned.moveType (f : Location → Location) (mf ml : Position → Position)
    (t : Spanned TypeExpr) : Spanned TypeExpr :=
  ⟨t.node.relocate f, mf t.first, ml t.last⟩

/-- The phrase with its places moved. The region of a program is that of its statements. -/
def Phrase.move (file : String) (f : Location → Location) (mf ml : Position → Position) :
    Phrase → Phrase
  | .program p =>
    let statements := p.statements.map (Statement.relocate f)
    .program ⟨statements, some (Program.region file statements)⟩
  | .statements ss => .statements (ss.map (Statement.relocate f))
  | .statement s => .statement (s.relocate f)
  | .expr l e => .expr l (e.moveExpr f mf ml)
  | .spine g args last => .spine (g.moveExpr f mf ml) (args.map (Argument.relocate f)) (ml last)
  | .argument a last => .argument (a.relocate f) (ml last)
  | .simple e => .simple (e.moveExpr f mf ml)
  | .series k init e => .series k (init.map (Expr.relocate f)) (e.moveExpr f mf ml)
  | .type t => .type (t.moveType f mf ml)
  | .typeSeries p init t =>
    .typeSeries (mf p) (init.map (TypeExpr.relocate f)) (t.moveType f mf ml)
  | .typeApp t => .typeApp (t.moveType f mf ml)
  | .typeAtom t => .typeAtom (t.moveType f mf ml)

section

variable {file : String} {φ : Phrase} {ts : List Token} {bad : List BadLiteral}

/-- Tokens elsewhere derive the tree elsewhere. -/
theorem Derives.move (hf : ∀ p q, f (.between file p q) = .between file (mf p) (ml q))
    (h : Derives file φ ts bad) :
    Derives file (φ.move file f mf ml) (ts.map (Token.move mf ml))
      (bad.map (BadLiteral.relocate f)) := by
  induction h with
  | program _ ih => exact .program ih
  | noStatement => exact .noStatement
  | nextStatement _ _ ih ih' =>
    simpa only [Phrase.move, List.map_append, List.map_cons, List.map_nil] using
      Derives.nextStatement ih ih'
  | @binding t n q z e ts bad ht hn hq _ hz ih =>
    have h := Derives.binding (t := t.move mf ml) (n := n.move mf ml) (q := q.move mf ml)
      (z := z.move mf ml) ht hn hq ih hz
    simpa [Phrase.move, Statement.relocate, Spanned.moveExpr, Token.move, hf] using h
  | @expression z e ts bad hlet _ hz ih =>
    have hlet' : ∀ t, (ts.map (Token.move mf ml)).head? = some t → t.isLet = false := by
      intro t ht
      rw [List.head?_map] at ht
      obtain ⟨t', ht', rfl⟩ := Option.map_eq_some_iff.mp ht
      exact hlet t' ht'
    have h := Derives.expression (z := z.move mf ml) hlet' ih hz
    simpa [Phrase.move, Statement.relocate, Spanned.moveExpr, Token.move, hf] using h
  | level _ ih => exact .level ih
  | @binary op t left right ts ts' bad bad' _ ht _ ih ih' =>
    have h := Derives.binary (t := t.move mf ml) ih ht ih'
    simpa [Phrase.move, Spanned.moveExpr, State.joined, Expr.relocate, hf] using h
  | @signed s t decode hs hd =>
    have h : Derives file _ _ _ := Derives.signed (s := s.move mf ml) (t := t.move mf ml) hs hd
    have hu := Token.isUniform_of_number? hd
    simpa [Phrase.move, Spanned.moveExpr, Token.move, Literal.standing_relocate hu,
      Literal.faults_relocate hu, hf] using h
  | alone _ ih => exact .alone ih
  | @application g args last ts bad hne _ ih =>
    have h := Derives.application (by simpa using hne) ih
    simpa [Phrase.move, Spanned.moveExpr, Expr.relocate, relocateArguments_eq_map, hf] using h
  | function _ ih => exact .function ih
  | nextArgument _ _ ih ih' =>
    simpa only [Phrase.move, List.map_append, List.map_cons, List.map_nil] using
      Derives.nextArgument ih ih'
  | positional _ ih => exact .positional ih
  | @labelled t label e ts bad hl _ ih => exact .labelled (t := t.move mf ml) hl ih
  | @punned t label hl =>
    have h : Derives file _ _ _ := Derives.punned (t := t.move mf ml) hl
    have hname : State.labelName false (t.move mf ml) = State.labelName false t := rfl
    rw [hname] at h
    simpa [Phrase.move, Argument.relocate, Expr.relocate, Token.region, Token.move, hf] using h
  | @constant t decode hd =>
    have h : Derives file _ _ _ := Derives.constant (t := t.move mf ml) hd
    have hu := Token.isUniform_of_literal? hd
    simpa [Phrase.move, Spanned.moveExpr, Token.move, Token.region,
      Literal.standing_relocate hu, Literal.faults_relocate hu, hf] using h
  | @identifier t ht =>
    have h : Derives file _ _ _ := Derives.identifier (t := t.move mf ml) ht
    simpa [Phrase.move, Spanned.moveExpr, Token.move, Token.region, Expr.relocate, hf] using h
  | @paren t z e ts bad ht _ hz ih =>
    have h := Derives.paren (t := t.move mf ml) (z := z.move mf ml) ht ih hz
    simpa [Phrase.move, Spanned.moveExpr, Token.move] using h
  | @constraint t c z e type ts ts' bad ht _ hc _ hz ih ih' =>
    have h := Derives.constraint (t := t.move mf ml) (c := c.move mf ml) (z := z.move mf ml)
      ht ih hc ih' hz
    simpa [Phrase.move, Spanned.moveExpr, Spanned.moveType, Token.move, Expr.relocate, hf] using h
  | @unit t z ht hz =>
    have h : Derives file _ _ _ := Derives.unit (t := t.move mf ml) (z := z.move mf ml) ht hz
    simpa [Phrase.move, Spanned.moveExpr, Token.move, Expr.relocate, hf] using h
  | @tuple t z init e ts bad ht _ hne hz ih =>
    have h := Derives.tuple (t := t.move mf ml) (z := z.move mf ml) ht ih (by simpa using hne) hz
    simpa [Phrase.move, Spanned.moveExpr, Token.move, Expr.relocate, relocateExprs_eq_map, hf]
      using h
  | @emptyList t z ht hz =>
    have h : Derives file _ _ _ := Derives.emptyList (t := t.move mf ml) (z := z.move mf ml) ht hz
    simpa [Phrase.move, Spanned.moveExpr, Token.move, Expr.relocate, relocateExprs_eq_map, hf]
      using h
  | @list t z init e ts bad ht _ hz ih =>
    have h := Derives.list (t := t.move mf ml) (z := z.move mf ml) ht ih hz
    simpa [Phrase.move, Spanned.moveExpr, Token.move, Expr.relocate, relocateExprs_eq_map, hf]
      using h
  | @listSemicolon t s z init e ts bad ht _ hs hz ih =>
    have h := Derives.listSemicolon (t := t.move mf ml) (s := s.move mf ml) (z := z.move mf ml)
      ht ih hs hz
    simpa [Phrase.move, Spanned.moveExpr, Token.move, Expr.relocate, relocateExprs_eq_map, hf]
      using h
  | @bareExtension t n z ht hn hz =>
    have h : Derives file _ _ _ := Derives.bareExtension (t := t.move mf ml) (n := n.move mf ml)
      (z := z.move mf ml) ht hn hz
    simpa [Phrase.move, Spanned.moveExpr, Token.move, Expr.relocate, hf] using h
  | @extension t n z e ts bad ht hn _ hz ih =>
    have h := Derives.extension (t := t.move mf ml) (n := n.move mf ml) (z := z.move mf ml)
      ht hn ih hz
    simpa [Phrase.move, Spanned.moveExpr, Token.move, Expr.relocate, hf] using h
  | element _ ih => exact .element ih
  | @nextElement separator t init e e' ts ts' bad bad' _ ht _ ih ih' =>
    have h := Derives.nextElement (t := t.move mf ml) ih ht ih'
    simpa [Phrase.move, Spanned.moveExpr] using h
  | type _ ih => exact .type ih
  | typeTuple _ hne ih =>
    have h := Derives.typeTuple ih (by simpa using hne)
    simpa [Phrase.move, Spanned.moveType, TypeExpr.relocate, relocateTypes_eq_map, hf] using h
  | component _ ih => exact .component ih
  | @nextComponent t first init type type' ts ts' _ ht _ ih ih' =>
    have h := Derives.nextComponent (t := t.move mf ml) ih ht ih'
    simpa [Phrase.move, Spanned.moveType] using h
  | typeAtom _ ih => exact .typeAtom ih
  | @typeApp t type ts _ ht ih =>
    have h := Derives.typeApp (t := t.move mf ml) ih ht
    simpa [Phrase.move, Spanned.moveType, Token.move, TypeExpr.relocate, relocateTypes_eq_map, hf]
      using h
  | @typeName t ht =>
    have h : Derives file _ _ _ := Derives.typeName (t := t.move mf ml) ht
    simpa [Phrase.move, Spanned.moveType, Token.move, Token.region, TypeExpr.relocate,
      relocateTypes_eq_map, hf] using h
  | @typeParen t z type ts ht _ hz ih =>
    have h := Derives.typeParen (t := t.move mf ml) (z := z.move mf ml) ht ih hz
    simpa [Phrase.move, Spanned.moveType, Token.move] using h

end
end MessageLang
