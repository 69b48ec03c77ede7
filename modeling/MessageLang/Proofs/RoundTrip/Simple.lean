import MessageLang.Proofs.RoundTrip.Types
/-!
# Printed simple expressions are read back

Literals, names and brackets. What stands in a bracket is read as any expression; the lemmas here
take it as given that its text is.

* `ReadsSimple`, `ReadsSpine`, `ReadsExpr`: a text leaves a simple expression, an application to
  which arguments may be added, an expression.
* `ReadsExpr.parenthesized`: parentheses make any expression simple.
-/
namespace MessageLang

variable {file : String} {w : List Char} {word : Option String} {node : Expr} {level : Nat}

/-! ## What a text leaves -/

/-- A text leaves a simple expression. -/
def ReadsSimple (file : String) (w : List Char) (word : Option String) (node : Expr) : Prop :=
  ∀ (s : State) (fs : List Frame), s.OpensSimple word fs →
    Reads file w Ends s fun s' => ∃ e : Spanned Expr, e.node.bare = node ∧ s' = s.complete e fs

/-- A text leaves a function with arguments, perhaps none, to which more may be added. -/
def ReadsSpine (file : String) (w : List Char) (word : Option String) (node : Expr) : Prop :=
  ∀ (s : State) (fs : List Frame), s.OpensExpression word fs → IsClear Expr.applyLevel fs →
    Reads file w Ends s fun s' => ∃ (f : Spanned Expr) (args : List Argument) (last : Position),
      f.node.isApply = false ∧ (State.application file f args last).node.bare = node ∧
        s' = { s with frames := fs, mode := .applied f args last }

/-- A text leaves an expression of a level. -/
def ReadsExpr (file : String) (level : Nat) (w : List Char) (word : Option String)
    (node : Expr) : Prop :=
  ∀ (s : State) (fs : List Frame), s.OpensExpression word fs → IsClear level fs →
    Reads file w Ends s (Holds file level fs node s)

/-- Nothing waits for an argument where an operator may be read. -/
theorem IsClear.complete {s : State} {fs : List Frame} (h : IsClear level fs)
    (e : Spanned Expr) :
    s.complete e fs = { s with frames := fs, mode := .applied e [] e.last } := by
  unfold State.complete
  split
  · exact h.elim
  · rfl

theorem ReadsSimple.readsSpine (h : ReadsSimple file w word node) (hn : node.isApply = false) :
    ReadsSpine file w word node := by
  intro s fs hs hfs
  refine (h s fs hs.opensSimple).mono (fun _ hr => hr) ?_
  intro s' hend
  obtain ⟨e, he, rfl⟩ := hend
  exact ⟨e, [], e.last, by rw [← Expr.isApply_bare, he, hn], he, hfs.complete e⟩

theorem ReadsSpine.readsExpr (h : ReadsSpine file w word node) (hl : level ≤ Expr.applyLevel) :
    ReadsExpr file level w word node := by
  intro s fs hs hfs
  refine (h s fs hs (hfs.mono hl)).mono (fun _ hr => hr) ?_
  intro s' hend
  obtain ⟨f, args, last, -, he, rfl⟩ := hend
  exact ⟨rfl, rfl, _, _, rfl, he, fun _ _ => rfl⟩

/-! ## Single tokens -/

/-- A text that is one token, which is a simple expression by itself. -/
theorem readsSimple_token {t : Terminal} (hw : t.IsLexeme w)
    (ht : State.startsSimple t = true) (hword : t = .longName → word = some (String.ofList w))
    (h : ∀ (s : State) (fs : List Frame) p q, ∃ e : Spanned Expr, e.node.bare = node ∧
      s.startSimple file ⟨t, w, p, q⟩ fs = some (s.complete e fs)) :
    ReadsSimple file w word node := by
  intro s fs hs
  refine (Reads.token hw (hs.expects ht) fun p q => ?_).mono (fun _ hr => hr.follows t)
    fun _ hs => hs
  obtain ⟨e, he, hshift⟩ := h s fs p q
  exact ⟨_, (hs.shift ht hword).trans hshift, e, he, rfl⟩

theorem readsSimple_identifier {name : String} (h : Terminal.IsLongName name.toList) :
    ReadsSimple file name.toList (some name) (.identifier name none) := by
  refine readsSimple_token (t := .longName) h rfl (fun _ => by rw [String.ofList_toList])
    fun s fs p q => ⟨_, ?_, rfl⟩
  rw [Expr.bare, String.ofList_toList]

theorem readsSimple_integer {text : List Char} {c : Constant} (ht : Terminal.IsInteger text)
    (hc : Literal.integer false text c.location = .ok c) :
    ReadsSimple file text word (.constant c.bare) := by
  refine readsSimple_token (t := .integer) ht rfl nofun fun s fs p q =>
    ⟨⟨.constant { c with location := some (.between file p q) }, p, q⟩, rfl, ?_⟩
  simp only [State.startSimple, State.constant, Literal.integer_move hc, State.decoded]

theorem readsSimple_float {text : List Char} {l : Option Location} (ht : Terminal.IsFloat text) :
    ReadsSimple file text word (.constant (Literal.float false text l).bare) :=
  readsSimple_token (t := .float) ht rfl nofun fun _ _ p q =>
    ⟨⟨.constant (Literal.float false text (some (.between file p q))), p, q⟩, rfl, rfl⟩

theorem readsSimple_string (text : String) :
    ReadsSimple file ('"' :: ((Text.Escape.encode '"' text).toList ++ ['"'])) word
      (.constant ⟨.str text, some .string, none, none⟩) := by
  refine readsSimple_token (t := .string) ⟨_, rfl, Text.Escape.isStringRest_encode text⟩ rfl
    nofun fun s fs p q => ?_
  refine ⟨⟨.constant ⟨.str text, some .string, none, some (.between file p q)⟩, p, q⟩, rfl, ?_⟩
  simp only [State.startSimple, State.constant, Literal.quoted, Literal.between_quotes,
    Text.Escape.decode_encode (.inl rfl), String.ofList_toList, State.decoded]

theorem readsSimple_char (c : Char) :
    ReadsSimple file ('\'' :: ((Text.Escape.encode '\'' (String.ofList [c])).toList ++ ['\'']))
      word (.constant ⟨.str (String.ofList [c]), some .char, none, none⟩) := by
  refine readsSimple_token (t := .char) ⟨_, rfl, ?_⟩ rfl (fun h => by cases h)
    fun s fs p q => ?_
  · rw [Text.Escape.toList_encode_singleton]
    exact Text.Escape.isCharBody_encodeChar c
  · refine ⟨⟨.constant ⟨.str (String.ofList [c]), some .char, none, some (.between file p q)⟩,
      p, q⟩, rfl, ?_⟩
    simp only [State.startSimple, State.constant, Literal.quoted, Literal.between_quotes,
      Text.Escape.decode_encode (.inr rfl), String.ofList_toList, State.decoded]

/-! ## Brackets -/

/-- A simple expression that starts with a bracket, which leaves the state `opened`. -/
theorem readsSimple_bracket {t : Terminal} {v : List Char} (hv : t.IsLexeme v)
    (ht : State.startsSimple t = true) (hne : t ≠ .longName)
    (opened : Position → State → List Frame → State)
    (hs : ∀ (s : State) (fs : List Frame) p q,
      s.startSimple file ⟨t, v, p, q⟩ fs = some (opened p s fs))
    (h : ∀ (s : State) (fs : List Frame) p, Reads file w Ends (opened p s fs) fun s' =>
      ∃ e : Spanned Expr, e.node.bare = node ∧ s' = s.complete e fs)
    (hf : ∀ rest, Ends rest → t.Follows (w ++ rest)) : ReadsSimple file (v ++ w) word node := by
  intro s fs hso
  refine Reads.cons_token (Q := fun s' => ∃ p, s' = opened p s fs) hv (hso.expects ht)
    (fun p q => ⟨_, (hso.shift ht fun h => absurd h hne).trans (hs s fs p q), p, rfl⟩) ?_ hf
  intro s' hend
  obtain ⟨p, rfl⟩ := hend
  exact h s fs p

/-- The token that closes a bracket behind an expression. -/
theorem Holds.reads_close {s s' : State} {fs : List Frame} {t : Terminal} {v : List Char}
    {P : State → Prop} (h : Holds file level fs node s s') (hv : t.IsLexeme v)
    (ht : State.endsOperand t = true) (hop : ∀ p q, State.operator? ⟨t, v, p, q⟩ = none)
    (hs : ∀ (e : Spanned Expr), e.node.bare = node → ∀ p q, ∃ s'',
      { s with frames := fs }.endExpression file ⟨t, v, p, q⟩ e = some s'' ∧ P s'') :
    Reads file v t.Follows s' P := by
  obtain ⟨e, he, hshift⟩ := h.shift
  refine Reads.token hv (h.expects ht) fun p q => ?_
  obtain ⟨s'', hs, hp⟩ := hs e he p q
  refine ⟨s'', (hshift _ ht fun op hop' => ?_).trans hs, hp⟩
  rw [hop] at hop'
  cases hop'

theorem readsSimple_openParen (hw : StartsPlain w)
    (h : ∀ (s : State) (fs : List Frame) p, Reads file w Ends
      { s with frames := .paren p :: fs, mode := .expression } fun s' =>
        ∃ e : Spanned Expr, e.node.bare = node ∧ s' = s.complete e fs) :
    ReadsSimple file ('(' :: w) word node := by
  refine readsSimple_bracket (t := .openParen) (v := ['(']) rfl rfl nofun
    (fun p s fs => { s with frames := .paren p :: fs, mode := .expression })
    (fun _ _ _ _ => rfl) h fun rest _ => ?_
  obtain ⟨c, tail, rfl, -, hc, -⟩ := hw
  intro he
  cases he
  exact hc rfl

theorem readsSimple_openBracket (hw : StartsPlain w)
    (h : ∀ (s : State) (fs : List Frame) p, Reads file w Ends
      { s with frames := .list p [] :: fs, mode := .expression } fun s' =>
        ∃ e : Spanned Expr, e.node.bare = node ∧ s' = s.complete e fs) :
    ReadsSimple file ('[' :: w) word node := by
  refine readsSimple_bracket (t := .openBracket) (v := ['[']) rfl rfl nofun
    (fun p s fs => { s with frames := .list p [] :: fs, mode := .expression })
    (fun _ _ _ _ => rfl) h fun rest _ => ?_
  obtain ⟨c, tail, rfl, -, -, hc⟩ := hw
  intro he
  cases he
  exact hc rfl

/-- Parentheses make any expression simple. -/
theorem ReadsExpr.parenthesized {word' : Option String} (h : ReadsExpr file level w word' node)
    (hw : StartsPlain w) : ReadsSimple file ('(' :: (w ++ [')'])) word node := by
  refine readsSimple_openParen (hw.append _) fun s fs p => ?_
  refine (h { s with frames := .paren p :: fs, mode := .expression } (.paren p :: fs) rfl
    trivial).append ?_
    fun rest _ => ends_cons (by decide)
  intro s' hh
  refine (hh.reads_close (t := .closeParen) rfl rfl (fun _ _ => rfl) fun e he p' q =>
    ⟨_, rfl, ⟨e.node, p, q⟩, he, ?_⟩).mono (fun _ _ => trivial) fun _ hs => hs
  exact State.complete_congr rfl rfl _ _

theorem readsSimple_unit : ReadsSimple file ['(', ')'] word (.unit none) := by
  refine readsSimple_openParen ⟨')', [], rfl, by decide⟩ fun s fs p => ?_
  refine (Reads.token (t := .closeParen) rfl rfl fun p' q =>
    ⟨_, rfl, ⟨.unit (some (.between file p q)), p, q⟩, rfl, ?_⟩).mono
    (fun _ _ => trivial) fun _ hs => hs
  exact State.complete_congr rfl rfl _ _

/-- The name of an extension and what follows it. -/
theorem readsSimple_extensionName {name : String} (hn : Terminal.IsDotted name.toList)
    (h : ∀ (s : State) (fs : List Frame) p, Reads file w Ends
      { s with frames := .extension p name :: fs, mode := .expression } fun s' =>
        ∃ e : Spanned Expr, e.node.bare = node ∧ s' = s.complete e fs)
    (hw : ∀ rest, Ends (w ++ rest)) :
    ReadsSimple file ('[' :: '%' :: (name.toList ++ w)) word node := by
  refine readsSimple_bracket (t := .openExtension) (v := ['[', '%']) rfl rfl nofun
    (fun p s fs => { s with frames := fs, mode := .extensionName p })
    (fun _ _ _ _ => rfl) (fun s fs p => ?_) fun rest _ => trivial
  refine Reads.cons_token (t := .extensionName) hn rfl (Q := fun s' => s' =
    { s with frames := .extension p name :: fs, mode := .expression })
    (fun p' q => ⟨_, rfl, ?_⟩) (fun s' hs => hs ▸ h s fs p) fun rest _ => (hw rest).follows _
  rw [String.ofList_toList]

theorem readsSimple_extension {name : String} (hn : Terminal.IsDotted name.toList) :
    ReadsSimple file ('[' :: '%' :: (name.toList ++ [']'])) word (.extension name none none) := by
  refine readsSimple_extensionName hn (fun s fs p => ?_) fun rest => ends_cons (by decide)
  refine (Reads.token (t := .closeBracket) rfl rfl fun p' q =>
    ⟨_, rfl, ⟨.extension name none (some (.between file p q)), p, q⟩, rfl, ?_⟩).mono
    (fun _ _ => trivial) fun _ hs => hs
  exact State.complete_congr rfl rfl _ _

theorem ReadsExpr.payload {name : String} {word' : Option String}
    (hn : Terminal.IsDotted name.toList) (h : ReadsExpr file level w word' node)
    (hw : StartsPlain w) :
    ReadsSimple file ('[' :: '%' :: (name.toList ++ ' ' :: (w ++ [']']))) word
      (.extension name (some node) none) := by
  refine readsSimple_extensionName hn (fun s fs p => ?_) fun rest => ends_cons (by decide)
  refine Reads.cons_space_plain ?_ (hw.append _)
  refine (h { s with frames := .extension p name :: fs, mode := .expression }
    (.extension p name :: fs) rfl trivial).append ?_
    fun rest _ => ends_cons (by decide)
  intro s' hh
  refine (hh.reads_close (t := .closeBracket) rfl rfl (fun _ _ => rfl) fun e he p' q =>
    ⟨_, rfl, ⟨.extension name (some e.node) (some (.between file p q)), p, q⟩, ?_, ?_⟩).mono
    (fun _ _ => trivial) fun _ hs => hs
  · rw [Expr.bare, he]
  · exact State.complete_congr rfl rfl _ _

theorem ReadsExpr.constraint {word' : Option String} {v : List Char} {type : TypeExpr}
    (h : ReadsExpr file level w word' node) (hw : StartsPlain w)
    (ht : ReadsOpenType file v type) (hv : StartsPlain v) :
    ReadsSimple file ('(' :: (w ++ ' ' :: ':' :: ' ' :: (v ++ [')']))) word
      (.constraint node type none) := by
  refine readsSimple_openParen (hw.append _) fun s fs p => ?_
  refine (h { s with frames := .paren p :: fs, mode := .expression } (.paren p :: fs) rfl
    trivial).append ?_
    fun rest _ => ends_cons (by decide)
  intro s' hh
  refine Reads.cons_space (w := ' ' :: (v ++ [')'])) ?_ (by decide)
  refine Reads.append (w := [':']) (hh.reads_close (t := .colon) (P := fun s' =>
    ∃ e : Expr, e.bare = node ∧
      s' = { s with frames := .constraint p e :: fs, mode := .type }) rfl rfl
    (fun _ _ => rfl) fun e he p' q => ⟨_, rfl, e.node, he, rfl⟩) ?_ fun _ _ => trivial
  intro s' hend
  obtain ⟨e, he, rfl⟩ := hend
  refine Reads.cons_space_plain ?_ (hv.append _)
  refine (ht s (.constraint p e :: fs) trivial).append ?_ fun rest _ => ends_cons (by decide)
  intro s' hend
  obtain ⟨ty, ty', fs', hty, hclose, rfl⟩ := hend
  refine (Reads.token (t := .closeParen) rfl rfl fun p' q => ⟨_, ?_, ⟨.constraint e ty'.node
    (some (.between file p q)), p, q⟩, ?_, State.complete_congr (s := { s with
      frames := fs', mode := .typed ty }) rfl rfl _ _⟩).mono
    (fun _ _ => trivial) fun _ hs => hs
  · simp only [State.shift, State.continueType, hclose]
  · rw [Expr.bare, he, hty]

end MessageLang
