import MessageLang.Proofs.Grammar.Exactness
import MessageLang.Proofs.Grammar.Trees
import MessageLang.Proofs.Syntax.Literal
import MessageLang.Proofs.Syntax.Nodes
/-!
# The regions of a tree that was read

Tokens take up pieces of the text, one behind the other. A production puts the parts of a tree in a
row, and gives a part the region from its first token to its last; brackets that leave no node
behind only widen what stands around them.

* `Scans.inOrder`: the tokens of a text are pieces of it, in their order.
* `Phrase.Sits`: where the parts of a phrase stand; `Derives.sits` proves it production by
  production.
* `parse_spans`: the regions of a tree that was read.
-/
namespace MessageLang

variable {file source : String} {text : List Char} {i j : Nat} {ts ts' : List Token}

/-! ## Tokens -/

/-- Between two offsets, the tokens are pieces of the text, in their order. -/
def InOrder (text : List Char) : Nat → List Token → Nat → Prop
  | i, [], j => i ≤ j
  | i, t :: ts, j =>
    i ≤ t.first.offset ∧ IsPiece text t.first t.last ∧ InOrder text t.last.offset ts j

theorem inOrder_append :
    InOrder text i (ts ++ ts') j ↔ ∃ m, InOrder text i ts m ∧ InOrder text m ts' j := by
  induction ts generalizing i with
  | nil =>
    constructor
    · exact fun h => ⟨i, Nat.le_refl i, h⟩
    · rintro ⟨m, him, h⟩
      cases ts' with
      | nil => exact Nat.le_trans him h
      | cons t ts' => exact ⟨Nat.le_trans him h.1, h.2⟩
  | cons t ts ih =>
    constructor
    · rintro ⟨hi, ht, h⟩
      obtain ⟨m, hts, hts'⟩ := ih.mp h
      exact ⟨m, ⟨hi, ht, hts⟩, hts'⟩
    · rintro ⟨m, ⟨hi, ht, hts⟩, hts'⟩
      exact ⟨hi, ht, ih.mpr ⟨m, hts, hts'⟩⟩

theorem InOrder.sublist (h : InOrder text i ts j) (hs : ts'.Sublist ts) :
    InOrder text i ts' j := by
  induction hs generalizing i with
  | slnil => exact h
  | @cons ts' ts t _ ih =>
    obtain ⟨hi, ht, hts⟩ := h
    have := ht.lt
    have hgap : InOrder text i [] t.last.offset := by
      simp only [InOrder]
      omega
    exact inOrder_append.mpr ⟨_, hgap, ih hts⟩
  | cons_cons t _ ih =>
    obtain ⟨hi, ht, hts⟩ := h
    exact ⟨hi, ht, ih hts⟩

/-- The tokens of a text are pieces of it, in their order. -/
theorem Scans.inOrder {p : Position} {rest : List Char} (h : Scans p rest ts) (pre : List Char)
    (hp : p = positionAt (pre ++ rest) pre.length) :
    InOrder (pre ++ rest) pre.length ts (pre ++ rest).length := by
  -- a lexeme or layout goes over from the rest to what stands in front of it
  have hmove {w rest : List Char} {pre : List Char} :
      (positionAt (pre ++ (w ++ rest)) pre.length).advance w =
        positionAt (pre ++ w ++ rest) (pre ++ w).length := by
    rw [← List.append_assoc, advance_positionAt, List.length_append]
  induction h generalizing pre with
  | nil => simp [InOrder]
  | @layout p w rest ts _ _ ih =>
    subst hp
    have h := ih (pre ++ w) hmove
    rw [List.append_assoc] at h
    have hpre : InOrder (pre ++ (w ++ rest)) pre.length [] (pre ++ w).length := by
      simp [InOrder]
    exact inOrder_append.mpr ⟨_, hpre, h⟩
  | @token p w rest ts t hw _ ih =>
    subst hp
    have hlen : 0 < w.length := List.length_pos_iff.mpr hw.ne_nil
    have h := ih (pre ++ w) hmove
    rw [List.append_assoc] at h
    refine ⟨Nat.le_refl _, ⟨isPlace_positionAt (by simp), ?_, ?_⟩, ?_⟩
    · rw [hmove, List.append_assoc]
      exact isPlace_positionAt (by simp)
    · rw [hmove]
      simpa using hlen
    · rw [hmove]
      exact h

/-! ## Literals -/

theorem Token.location_of_number? {negative : Bool} {t : Token} {decode : Literal.Decoder}
    {l : Option Location} {c : Constant} (h : t.number? negative = some decode)
    (hc : decode l = .ok c) : c.location = l := by
  unfold Token.number? at h
  split at h
  · cases h
    obtain ⟨_, _, rfl, -⟩ := Literal.integer_ok hc
    rfl
  · cases h
    cases hc
    rfl
  · cases h

theorem Token.location_of_literal? {t : Token} {decode : Literal.Decoder} {l : Option Location}
    {c : Constant} (h : t.literal? = some decode) (hc : decode l = .ok c) : c.location = l := by
  unfold Token.literal? at h
  split at h
  · cases h
    obtain ⟨_, -, rfl⟩ := Literal.quoted_ok hc
    rfl
  · cases h
    obtain ⟨_, -, rfl⟩ := Literal.quoted_ok hc
    rfl
  · exact Token.location_of_number? h hc

/-! ## Productions -/

/-- A token leaves no parts. -/
theorem InOrder.stretch {t : Token} (h : InOrder text i [t] j) :
    Stretch file text i t.first [] t.last j := by
  obtain ⟨hi, ht, hj⟩ := h
  exact ⟨hi, ht, hj, .nil (Nat.le_of_lt ht.lt)⟩

/-- What stands between two tokens, with these around it. -/
theorem InOrder.exists_between {t z : Token} (ts : List Token)
    (h : InOrder text i (t :: (ts ++ [z])) j) :
    ∃ k l, InOrder text k ts l ∧
      ∀ ns, Row file text k ns l → Stretch file text i t.first ns z.last j := by
  obtain ⟨hi, ht, h⟩ := h
  obtain ⟨l, hts, hl, hz, hj⟩ := inOrder_append.mp h
  refine ⟨_, l, hts, fun ns hns => ?_⟩
  have hlt := ht.lt
  have hlt' := hz.lt
  have hle := hns.le
  exact ⟨hi, ht.trans (by omega) hz, hj, hns.widen (by omega) (by omega)⟩

/-- A literal, or what stands for a bad one, is where its tokens are. -/
theorem stretch_standing {decode : Literal.Decoder} {p q : Position}
    (h : Stretch file text i p [] q j)
    (hd : ∀ c, decode (some (.between file p q)) = .ok c →
      c.location = some (.between file p q)) :
    Stretch file text i p [.expr (Literal.standing decode (.between file p q))] q j := by
  unfold Literal.standing
  split
  · rename_i c hc
    exact .node h (hd c hc)
  · exact .node h rfl

/-- A program is where its statements are. -/
theorem Row.program {ss : List Statement} (h : Row file text i (ss.map .statement) j)
    (hne : ss ≠ []) : Row file text i [.program ⟨ss, some (Program.region file ss)⟩] j := by
  obtain ⟨p, p', q', q, hhead, hlast, hs⟩ := h.exists_ends (by simpa using hne)
  have hregion : Program.region file ss = .between file p q := by
    have hhead' : ss.head?.bind Statement.location = some (.between file p q') := by
      rw [← hhead, List.head?_map, Option.bind_map]
      rfl
    have hlast' : ss.getLast?.bind Statement.location = some (.between file p' q) := by
      rw [← hlast, List.getLast?_map, Option.bind_map]
      rfl
    rw [Program.region, hhead', hlast']
    rfl
  rw [hregion]
  exact (Stretch.node hs rfl).toRow

/-- Where the parts of a phrase stand whose tokens are between two offsets. -/
def Phrase.Sits (file : String) (text : List Char) (i j : Nat) : Phrase → Prop
  | .program p => p.statements ≠ [] → Row file text i [.program p] j
  | .statements ss => Row file text i (ss.map .statement) j
  | .statement s => Row file text i [.statement s] j
  | .expr _ e | .simple e => Stretch file text i e.first [.expr e.node] e.last j
  | .spine f args last =>
    Stretch file text i f.first (.expr f.node :: args.map Argument.child) last j
  | .argument a last => ∃ p, Stretch file text i p [a.child] last j
  | .series _ init e => Row file text i (init.map .expr ++ [.expr e.node]) j
  | .type t | .typeApp t | .typeAtom t => Stretch file text i t.first [.type t.node] t.last j
  | .typeSeries first init t =>
    Stretch file text i first (init.map .type ++ [.type t.node]) t.last j

/-- Each production puts its parts in a row. -/
theorem Derives.sits {φ : Phrase} {bad : List BadLiteral} (h : Derives file φ ts bad)
    (ho : InOrder text i ts j) : φ.Sits file text i j := by
  induction h generalizing i j with
  | program _ ih => exact Row.program (ih ho)
  | noStatement => exact .nil ho
  | nextStatement _ _ ih ih' =>
    obtain ⟨m, ho, ho'⟩ := inOrder_append.mp ho
    have hrow := (ih ho).append (ih' ho')
    simpa only [Phrase.Sits, List.map_append, List.map_cons, List.map_nil] using hrow
  | @binding t n q z e ts bad _ _ _ _ _ ih =>
    obtain ⟨k, l, ho, around⟩ := ho.exists_between (n :: q :: ts)
    have he := ih (ho.sublist (by simp))
    exact (Stretch.node (around _ he.toRow) rfl).toRow
  | expression _ _ _ ih =>
    obtain ⟨m, ho, hz⟩ := inOrder_append.mp ho
    exact (Stretch.node ((ih ho).append hz.stretch) rfl).toRow
  | level _ ih => exact ih ho
  | binary _ _ _ ih ih' =>
    obtain ⟨m, ho, ho'⟩ := inOrder_append.mp ho
    have hright := ih' (ho'.sublist (List.sublist_cons_self _ _))
    exact .node ((ih ho).append hright) rfl
  | @signed s t decode _ hd =>
    have ho : InOrder text i ([s] ++ [t]) j := ho
    obtain ⟨m, ho, ho'⟩ := inOrder_append.mp ho
    exact stretch_standing (ho.stretch.append ho'.stretch) fun _ => Token.location_of_number? hd
  | alone _ ih => exact ih ho
  | application _ _ ih => exact .node (ih ho) rfl
  | function _ ih => exact ih ho
  | nextArgument _ _ ih ih' =>
    obtain ⟨m, ho, ho'⟩ := inOrder_append.mp ho
    obtain ⟨p, ha⟩ := ih' ho'
    have hspine := (ih ho).append ha
    simpa only [Phrase.Sits, List.map_append, List.map_cons, List.map_nil, List.cons_append] using
      hspine
  | positional _ ih => exact ⟨_, ih ho⟩
  | labelled _ _ ih => exact ⟨_, ih (ho.sublist (List.sublist_cons_self _ _))⟩
  | punned _ => exact ⟨_, .node ho.stretch rfl⟩
  | constant hd => exact stretch_standing ho.stretch fun _ => Token.location_of_literal? hd
  | identifier _ => exact .node ho.stretch rfl
  | paren _ _ _ ih =>
    obtain ⟨k, l, ho, around⟩ := ho.exists_between _
    exact around _ (ih ho).toRow
  | @constraint t c z e type ts ts' bad _ _ _ _ _ ih ih' =>
    have ho : InOrder text i (t :: ((ts ++ c :: ts') ++ [z])) j := by
      simpa using ho
    obtain ⟨k, l, ho, around⟩ := ho.exists_between _
    obtain ⟨m, ho, ho'⟩ := inOrder_append.mp ho
    have htype := ih' (ho'.sublist (List.sublist_cons_self _ _))
    exact .node (around _ ((ih ho).toRow.append htype.toRow)) rfl
  | @unit t z _ _ =>
    obtain ⟨k, l, ho, around⟩ := ho.exists_between []
    exact .node (around _ (.nil ho)) rfl
  | tuple _ _ _ _ ih =>
    obtain ⟨k, l, ho, around⟩ := ho.exists_between _
    have hs := around _ (ih ho)
    exact .node (by simpa [Node.children] using hs) rfl
  | emptyList =>
    obtain ⟨k, l, ho, around⟩ := ho.exists_between []
    exact .node (around _ (.nil ho)) rfl
  | list _ _ _ ih =>
    obtain ⟨k, l, ho, around⟩ := ho.exists_between _
    have hs := around _ (ih ho)
    exact .node (by simpa [Node.children] using hs) rfl
  | @listSemicolon t s z init e ts bad _ _ _ _ ih =>
    have ho : InOrder text i (t :: ((ts ++ [s]) ++ [z])) j := by
      simpa using ho
    obtain ⟨k, l, ho, around⟩ := ho.exists_between _
    have hs := around _ (ih (ho.sublist (List.sublist_append_left _ _)))
    exact .node (by simpa [Node.children] using hs) rfl
  | bareExtension =>
    obtain ⟨k, l, ho, around⟩ := ho.exists_between [_]
    exact .node (around _ (.nil (ho.sublist (List.nil_sublist _)))) rfl
  | @extension t n z e ts bad _ _ _ _ ih =>
    obtain ⟨k, l, ho, around⟩ := ho.exists_between (n :: ts)
    exact .node (around _ (ih (ho.sublist (List.sublist_cons_self _ _))).toRow) rfl
  | element _ ih => exact (ih ho).toRow
  | nextElement _ _ _ ih ih' =>
    obtain ⟨m, ho, ho'⟩ := inOrder_append.mp ho
    have hlast := ih' (ho'.sublist (List.sublist_cons_self _ _))
    have hrow := (ih ho).append hlast.toRow
    simpa only [Phrase.Sits, List.map_append, List.map_cons, List.map_nil] using hrow
  | type _ ih => exact ih ho
  | typeTuple _ _ ih =>
    have hs := ih ho
    exact .node (by simpa [Phrase.Sits, Node.children] using hs) rfl
  | component _ ih => exact ih ho
  | nextComponent _ _ _ ih ih' =>
    obtain ⟨m, ho, ho'⟩ := inOrder_append.mp ho
    have hlast := ih' (ho'.sublist (List.sublist_cons_self _ _))
    have hs := (ih ho).append hlast
    simpa only [Phrase.Sits, List.map_append, List.map_cons, List.map_nil] using hs
  | typeAtom _ ih => exact ih ho
  | typeApp _ _ ih =>
    obtain ⟨m, ho, ht⟩ := inOrder_append.mp ho
    exact .node ((ih ho).append ht.stretch) rfl
  | typeName _ => exact .node ho.stretch rfl
  | typeParen _ _ _ ih =>
    obtain ⟨k, l, ho, around⟩ := ho.exists_between _
    exact around _ (ih ho).toRow

/-! ## Programs -/

/-- The tokens of a program that was read are in order in its text. -/
theorem Program.exists_inOrder_of_parse {p : Program} (h : Program.parse file source = .ok p) :
    ∃ ts, InOrder source.toList 0 ts source.toList.length ∧ Derives file (.program p) ts [] := by
  obtain ⟨ts, hts, hd⟩ := Program.derives_of_parse h
  exact ⟨ts, hts.inOrder [] (positionAt_zero _).symm, hd⟩

/-- The regions of a tree that was read: the region of every part is a piece of the text that is
not empty, its lines and columns are those of its ends, and the children of a part take up pieces
of it, apart from one another and in their order. -/
theorem parse_spans {p : Program} (h : Program.parse file source = .ok p)
    (hne : p.statements ≠ []) (n : Node) (hn : (Node.program p).Contains n) :
    ∃ l, n.Spans file source.toList l := by
  obtain ⟨ts, ho, hd⟩ := Program.exists_inOrder_of_parse h
  have hrow : Row file source.toList 0 [.program p] source.toList.length := hd.sits ho hne
  exact hrow.spans _ (List.mem_singleton_self _) n hn

/-- The region of an argument that is named like its label, in a text with a comment, two lines and
brackets around the application. -/
theorem parse_spans_punned : ∃ p x l,
    Program.parse "a.ml" "(* ; *) let x =\n (f ~a) ^ \"b\";" = .ok p ∧ p.statements ≠ [] ∧
      (Node.program p).Contains (.expr (.identifier x (some l))) ∧
      (Node.expr (.identifier x (some l))).Spans "a.ml"
        "(* ; *) let x =\n (f ~a) ^ \"b\";".toList l := by
  have hok : (Program.parse "a.ml" "(* ; *) let x =\n (f ~a) ^ \"b\";").toOption.any (fun p =>
      (Node.program p).children.any fun binding => binding.children.any fun operation =>
        operation.children.any fun application => application.children.any Node.isName) = true := by
    decide +kernel
  obtain ⟨p, hp, hany⟩ := exists_ok_of_any hok
  simp only [List.any_eq_true] at hany
  obtain ⟨s, hs, e, he, f, hf, n, hn, hname⟩ := hany
  obtain ⟨x, location, rfl⟩ := Node.exists_of_isName hname
  have hne : p.statements ≠ [] := by
    intro hnil
    rw [Node.children, hnil] at hs
    cases hs
  have hc : (Node.program p).Contains (.expr (.identifier x location)) :=
    .child hs (.child he (.child hf (.child hn .self)))
  obtain ⟨l, hl⟩ := parse_spans hp hne _ hc
  obtain rfl : location = some l := hl.location
  exact ⟨p, x, l, hp, hne, hc, hl⟩

end MessageLang
