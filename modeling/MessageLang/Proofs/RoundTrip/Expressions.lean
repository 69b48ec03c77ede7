import MessageLang.Proofs.RoundTrip.Simple
/-!
# Printed expressions are read back

The text of a readable expression leaves the expression with flat applications, whatever the level
it is printed at, as long as no negative number is applied to arguments: its sign would be read as
that of the whole application.

* `reads_elements`, `reads_arguments`: the elements of a bracket, the arguments of an application.
* `ReadsExpr.binary`: an operator between two operands.
* `Expr.IsReadable.reads`: any expression.
-/
namespace MessageLang

variable {file : String} {w : List Char} {word : Option String} {node : Expr} {level : Nat}

/-! ## Negative numbers -/

/-- A number behind a minus sign. -/
theorem readsExpr_negative {t : Terminal} {c : Constant} (hw : t.IsLexeme w)
    (ht : t = .integer ∨ t = .float)
    (h : ∀ (s : State) p q start, ∃ l, s.signedNumber file ⟨t, w, p, q⟩ start true =
      some { s with mode := .number ⟨.constant { c with location := l }, start, q⟩ }) :
    ReadsExpr file level ('-' :: w) word (.constant c.bare) := by
  intro s fs hs hfs
  refine Reads.cons_token (t := .sign) (v := ['-']) (Q := fun s' => ∃ p, s' =
    { s with frames := fs, mode := .signed p true }) (.inr rfl) hs.expects_sign
    (fun p q => ⟨_, hs.shift_sign rfl, p, rfl⟩) ?_ fun _ _ => trivial
  intro s' hend
  obtain ⟨p, rfl⟩ := hend
  refine (Reads.token hw ?_ fun p' q => ?_).mono (fun _ hr => hr.follows t) fun _ hs => hs
  · rcases ht with rfl | rfl <;> rfl
  · obtain ⟨l, hshift⟩ := h { s with frames := fs, mode := .signed p true } p' q p
    exact ⟨_, hshift, rfl, rfl, _, _, rfl, rfl, fun _ _ => rfl⟩

theorem readsExpr_negativeInteger {c : Constant} (hw : Terminal.IsInteger w)
    (hc : Literal.integer true w c.location = .ok c) :
    ReadsExpr file level ('-' :: w) word (.constant c.bare) := by
  refine readsExpr_negative (t := .integer) hw (.inl rfl) fun s p q start =>
    ⟨some (.between file start q), ?_⟩
  simp only [State.signedNumber, Literal.integer_move hc, State.decoded]

theorem readsExpr_negativeFloat {l : Option Location} (hw : Terminal.IsFloat w) :
    ReadsExpr file level ('-' :: w) word (.constant (Literal.float true w l).bare) :=
  readsExpr_negative (t := .float) hw (.inr rfl) fun _ _ _ _ => ⟨_, rfl⟩

/-! ## Elements -/

/-- The separators of elements. -/
inductive IsSeparator : Terminal → Char → Prop where
  | comma : IsSeparator .comma ','
  | semicolon : IsSeparator .semicolon ';'

/-- A separator and a space behind an expression. -/
theorem Holds.reads_separator {s s' : State} {fs : List Frame} {sep : Terminal} {c : Char}
    {P Q : State → Prop} (h : Holds file level fs node s s') (hsep : IsSeparator sep c)
    (hs : ∀ (e : Spanned Expr), e.node.bare = node → ∀ t : Token, t.terminal = sep → ∃ s'',
      { s with frames := fs }.endExpression file t e = some s'' ∧ Q s'')
    (hnext : ∀ s'', Q s'' → Reads file w Ends s'' P) (hw : StartsPlain w) :
    Reads file (c :: ' ' :: w) Ends s' P := by
  have hclose : Reads file [c] (fun _ => True) s' Q := by
    cases hsep with
    | comma =>
      exact h.reads_close (t := .comma) rfl rfl (fun _ _ => rfl) fun e he p q => hs e he _ rfl
    | semicolon =>
      exact h.reads_close (t := .semicolon) rfl rfl (fun _ _ => rfl) fun e he p q =>
        hs e he _ rfl
  exact hclose.append (fun s'' hq => (hnext s'' hq).cons_space_plain hw) fun _ _ => trivial

/-- Elements between separators. Behind each of them the open bracket `collect` holds one more. -/
theorem reads_elements {sep : Terminal} {c : Char} {sepText : String} {fs : List Frame}
    (hsep : IsSeparator sep c) (htext : sepText.toList = [c, ' ']) (collect : List Expr → Frame)
    (hbracket : ∀ before, IsBracket (collect before :: fs))
    (hstep : ∀ (s : State) (e : Spanned Expr) (before : List Expr) (t : Token),
      t.terminal = sep → { s with frames := collect before :: fs }.endExpression file t e =
        some { s with frames := collect (e.node :: before) :: fs, mode := .expression })
    {x : Expr} {xs : List Expr}
    (hplain : ∀ y ∈ x :: xs, StartsPlain (y.print Expr.elementLevel).toList)
    (h : ∀ y ∈ x :: xs, ReadsExpr file Expr.elementLevel (y.print Expr.elementLevel).toList
      (y.leadingName? Expr.elementLevel) y.flatten.bare) (s : State) (before : List Expr) :
    Reads file (sepText.intercalate ((x :: xs).map (Expr.print Expr.elementLevel))).toList Ends
      { s with frames := collect before :: fs, mode := .expression } fun s' =>
        ∃ (last : Expr) (after : List Expr),
          Holds file Expr.elementLevel (collect after :: fs) last s s' ∧
            last :: after.map Expr.bare =
              ((x :: xs).map fun y => y.flatten.bare).reverse ++ before.map Expr.bare := by
  induction xs generalizing x before with
  | nil =>
    rw [List.map_cons, List.map_nil, String.intercalate_singleton]
    refine (h x List.mem_cons_self { s with frames := collect before :: fs, mode := .expression }
      _ rfl ((hbracket before).isClear _)).mono (fun _ hr => hr) fun s' hs => ?_
    exact ⟨_, before, ⟨hs.statements, hs.fault, hs.operand⟩, rfl⟩
  | cons y ys ih =>
    obtain ⟨hx, hys⟩ := List.forall_mem_cons.mp h
    obtain ⟨-, hplain⟩ := List.forall_mem_cons.mp hplain
    rw [List.map_cons, List.map_cons, String.intercalate_cons_cons, String.toList_append,
      String.toList_append, htext, List.append_assoc]
    refine (hx { s with frames := collect before :: fs, mode := .expression } _ rfl
      ((hbracket before).isClear _)).append ?_ fun rest _ => ends_cons ?_
    · intro s' hs
      refine hs.reads_separator hsep (Q := fun s'' => ∃ e : Expr, e.bare = x.flatten.bare ∧
        s'' = { s with frames := collect (e :: before) :: fs, mode := .expression })
        (fun e he t ht => ⟨_, hstep _ e before t ht, e.node, he, rfl⟩) ?_
        (startsPlain_intercalate (hplain y List.mem_cons_self) _ _)
      intro s' hend
      obtain ⟨e, he, rfl⟩ := hend
      refine (ih hplain hys (e :: before)).mono (fun _ hr => hr) ?_
      intro s' hend
      obtain ⟨last, after, hholds, hlist⟩ := hend
      refine ⟨last, after, hholds, ?_⟩
      simp [hlist, he]
    · cases hsep <;> decide

/-- The open bracket of a tuple: before the first comma it is one of any expression. -/
def tupleFrame (p : Position) : List Expr → Frame
  | [] => .paren p
  | es => .tuple p es

section Brackets

variable {es : List Expr}
  (hplain : ∀ y ∈ es, StartsPlain (y.print Expr.elementLevel).toList)
  (h : ∀ y ∈ es, ReadsExpr file Expr.elementLevel (y.print Expr.elementLevel).toList
    (y.leadingName? Expr.elementLevel) y.flatten.bare)
include hplain h

theorem readsSimple_tuple (hlen : 2 ≤ es.length) :
    ReadsSimple file
      ('(' :: ((", ".intercalate (es.map (Expr.print Expr.elementLevel))).toList ++ [')'])) word
      (.tuple (es.map fun y => y.flatten.bare) none) := by
  cases es with
  | nil => simp at hlen
  | cons x xs =>
    refine readsSimple_openParen
      ((startsPlain_intercalate (hplain x List.mem_cons_self) _ _).append _) fun s fs p => ?_
    refine (reads_elements .comma rfl (tupleFrame p) ?_ ?_ hplain h s []).append ?_
      fun rest _ => ends_cons (by decide)
    · intro before
      cases before <;> trivial
    · intro s e before t ht
      cases before <;> simp only [State.endExpression, State.operator?, ht] <;> rfl
    · intro s' hend
      obtain ⟨last, after, hholds, hlist⟩ := hend
      -- there are two elements at least, so a comma has been read
      cases after with
      | nil =>
        have hl := congrArg List.length hlist
        simp only [List.map_nil, List.append_nil, List.length_cons, List.length_nil,
          List.length_reverse, List.length_map] at hl hlen
        omega
      | cons y after =>
        refine (hholds.reads_close (t := .closeParen) rfl rfl (fun _ _ => rfl) fun e he p' q =>
          ⟨_, rfl, ⟨.tuple (e.node :: y :: after).reverse (some (.between file p q)), p, q⟩, ?_,
            ?_⟩).mono (fun _ _ => trivial) fun _ hs => hs
        · have hrev : (e.node :: y :: after).map Expr.bare =
              ((x :: xs).map fun y => y.flatten.bare).reverse := by
            rw [List.map_cons, he, hlist, List.map_nil, List.append_nil]
          rw [Expr.bare, bareExprs_eq_map, List.map_reverse, hrev, List.reverse_reverse]
        · exact State.complete_congr rfl rfl _ _

theorem readsSimple_list :
    ReadsSimple file
      ('[' :: (("; ".intercalate (es.map (Expr.print Expr.elementLevel))).toList ++ [']'])) word
      (.list (es.map fun y => y.flatten.bare) none) := by
  cases es with
  | nil =>
    refine readsSimple_openBracket ⟨']', [], rfl, by decide⟩ fun s fs p => ?_
    refine (Reads.token (t := .closeBracket) rfl rfl fun p' q =>
      ⟨_, rfl, ⟨.list [] (some (.between file p q)), p, q⟩, rfl, ?_⟩).mono
      (fun _ _ => trivial) fun _ hs => hs
    exact State.complete_congr rfl rfl _ _
  | cons x xs =>
    refine readsSimple_openBracket
      ((startsPlain_intercalate (hplain x List.mem_cons_self) _ _).append _) fun s fs p => ?_
    refine (reads_elements .semicolon rfl (Frame.list p) (fun _ => trivial) ?_ hplain h s
      []).append ?_ fun rest _ => ends_cons (by decide)
    · intro s e before t ht
      simp only [State.endExpression, State.operator?, ht]
      rfl
    · intro s' hend
      obtain ⟨last, after, hholds, hlist⟩ := hend
      refine (hholds.reads_close (t := .closeBracket) rfl rfl (fun _ _ => rfl) fun e he p' q =>
        ⟨_, rfl, ⟨.list (e.node :: after).reverse (some (.between file p q)), p, q⟩, ?_,
          ?_⟩).mono (fun _ _ => trivial) fun _ hs => hs
      · have hrev : (e.node :: after).map Expr.bare =
            ((x :: xs).map fun y => y.flatten.bare).reverse := by
          rw [List.map_cons, he, hlist, List.map_nil, List.append_nil]
        rw [Expr.bare, bareExprs_eq_map, List.map_reverse, hrev, List.reverse_reverse]
      · exact State.complete_congr rfl rfl _ _

end Brackets

/-! ## Applications -/

/-- An argument with a label behind an application: the label alone, or with an expression. -/
theorem reads_marked (alone waiting : Terminal) {label : Label} {name : String} {mark : Char}
    {e : Expr} {s : State} {fs : List Frame} {f : Spanned Expr} {before : List Argument}
    {last : Position} (hlabel : label = .labelled name ∨ label = .optional name)
    (htext : label.toText.toList = mark :: name.toList)
    (halone : alone.IsLexeme (mark :: name.toList))
    (hwaiting : waiting.IsLexeme (mark :: (name.toList ++ [':'])))
    (hstarts : State.startsArgument alone = true ∧ State.startsArgument waiting = true)
    (hfollows : ∀ rest, waiting.Follows rest)
    (hshift : ∀ (s : State) p q, ∃ l,
      s.continueApplication file ⟨alone, mark :: name.toList, p, q⟩ f before last =
        some { s with mode := .applied f (.mk label (.identifier name l) :: before) q })
    (hshift' : ∀ (s : State) p q,
      s.continueApplication file ⟨waiting, mark :: (name.toList ++ [':']), p, q⟩ f before last =
        some { s with frames := .argument f before label :: s.frames, mode := .simple })
    (h : ReadsSimple file (e.print Expr.atomLevel).toList word e.flatten.bare) :
    Reads file (labelledText label e (e.print Expr.atomLevel)).toList Ends
      { s with frames := fs, mode := .applied f before last } fun s' =>
        ∃ (a' : Argument) (last' : Position), a'.bare = .mk label e.flatten.bare ∧
          s' = { s with frames := fs, mode := .applied f (a' :: before) last' } := by
  have hexpects {t : Terminal} (ht : State.startsArgument t = true) :
      State.expects { s with frames := fs, mode := .applied f before last } t = true := by
    simp only [State.expects, ht, Bool.true_or]
  rcases labelledText_cases hlabel e (e.print Expr.atomLevel) with ⟨l, rfl, he⟩ | he
  · rw [he, htext]
    refine (Reads.token halone (hexpects hstarts.1) fun p q => ?_).mono
      (fun _ hr => hr.follows _) fun _ hs => hs
    obtain ⟨l', hs⟩ := hshift { s with frames := fs, mode := .applied f before last } p q
    exact ⟨_, hs, _, q, rfl, rfl⟩
  · have hsplit : (label.toText ++ ":" ++ e.print Expr.atomLevel).toList =
        mark :: (name.toList ++ [':']) ++ (e.print Expr.atomLevel).toList := by
      rw [String.toList_append, String.toList_append, htext]
      rfl
    rw [he, hsplit]
    refine Reads.cons_token (Q := fun s' => s' =
      { s with frames := .argument f before label :: fs, mode := .simple }) hwaiting
      (hexpects hstarts.2) (fun p q => ⟨_, hshift' _ p q, rfl⟩) ?_ fun rest _ => hfollows _
    intro s' heq
    subst heq
    refine (h { s with frames := .argument f before label :: fs, mode := .simple } _ rfl).mono
      (fun _ hr => hr) ?_
    intro s' hend
    obtain ⟨e', he', rfl⟩ := hend
    exact ⟨.mk label e'.node, e'.last, by rw [Argument.bare, he'], rfl⟩

/-- An argument behind an application. -/
theorem reads_argument {a : Argument} {s : State} {fs : List Frame} {f : Spanned Expr}
    {before : List Argument} {last : Position} (ha : a.IsLabelled)
    (h : ∀ label e, a = .mk label e → ReadsSimple file (e.print Expr.atomLevel).toList
      (e.leadingName? Expr.atomLevel) e.flatten.bare) :
    Reads file a.toText.toList Ends
      { s with frames := fs, mode := .applied f before last } fun s' =>
        ∃ (a' : Argument) (last' : Position), a'.bare = a.flatten.bare ∧
          s' = { s with frames := fs, mode := .applied f (a' :: before) last' } := by
  cases a with
  | other n => exact ha.elim
  | mk label e =>
    have he := h label e rfl
    cases label with
    | positional =>
      refine (he { s with frames := fs, mode := .applied f before last } _ rfl).mono
        (fun _ hr => hr) ?_
      intro s' hs
      obtain ⟨e', he', rfl⟩ := hs
      exact ⟨.mk .positional e'.node, e'.last,
        by rw [Argument.flatten, Argument.bare, Argument.bare, he'], rfl⟩
    | labelled name =>
      refine reads_marked .labelledName .label (.inl rfl) (String.toList_append) ⟨_, rfl, ha⟩
        ⟨_, rfl, ha⟩ ⟨rfl, rfl⟩ (fun _ => trivial)
        (fun s p q => ⟨some (.between file p q), ?_⟩) (fun s p q => ?_) he
      · simp only [State.continueApplication, State.labelName, Bool.false_eq_true, if_false,
          List.drop_succ_cons, List.drop_zero, String.ofList_toList]
      · simp only [State.continueApplication, State.labelName, if_true, List.drop_succ_cons,
          List.drop_zero, List.dropLast_concat, String.ofList_toList]
    | optional name =>
      refine reads_marked .optionalName .optionalLabel (.inr rfl) String.toList_append
        ⟨_, rfl, ha⟩ ⟨_, rfl, ha⟩ ⟨rfl, rfl⟩ (fun _ => trivial)
        (fun s p q => ⟨some (.between file p q), ?_⟩) (fun s p q => ?_) he
      · simp only [State.continueApplication, State.labelName, Bool.false_eq_true, if_false,
          List.drop_succ_cons, List.drop_zero, String.ofList_toList]
      · simp only [State.continueApplication, State.labelName, if_true, List.drop_succ_cons,
          List.drop_zero, List.dropLast_concat, String.ofList_toList]

/-- Arguments behind an application. -/
theorem reads_arguments {args : List Argument} {s : State} {fs : List Frame} {f : Spanned Expr}
    (h : ∀ a ∈ args, ∀ (before : List Argument) (last : Position), Reads file a.toText.toList Ends
      { s with frames := fs, mode := .applied f before last } fun s' =>
        ∃ (a' : Argument) (last' : Position), a'.bare = a.flatten.bare ∧
          s' = { s with frames := fs, mode := .applied f (a' :: before) last' })
    (hplain : ∀ a ∈ args, StartsPlain a.toText.toList)
    (before : List Argument) (last : Position) :
    Reads file (args.flatMap fun a => ' ' :: a.toText.toList) Ends
      { s with frames := fs, mode := .applied f before last } fun s' =>
        ∃ (after : List Argument) (last' : Position),
          after.map Argument.bare =
            (args.map fun a => a.flatten.bare).reverse ++ before.map Argument.bare ∧
          s' = { s with frames := fs, mode := .applied f after last' } := by
  induction args generalizing before last with
  | nil => exact fun _ p rest _ => ⟨_, _, p, ⟨before, last, rfl, rfl⟩, rfl⟩
  | cons a args ih =>
    obtain ⟨ha, hargs⟩ := List.forall_mem_cons.mp h
    obtain ⟨hplaina, hplain⟩ := List.forall_mem_cons.mp hplain
    rw [List.flatMap_cons]
    refine ((ha before last).cons_space_plain hplaina).append ?_ ?_
    · intro s' hs
      obtain ⟨a', last', ha', rfl⟩ := hs
      refine (ih hargs hplain (a' :: before) last').mono (fun _ hr => hr) ?_
      intro s' hs
      obtain ⟨after, last'', hlist, rfl⟩ := hs
      refine ⟨after, last'', ?_, rfl⟩
      simp [hlist, ha']
    · intro rest hr
      cases args with
      | nil => exact hr
      | cons b args => exact ends_cons (by decide)

theorem bare_application {f : Spanned Expr} {args : List Argument} {last : Position}
    (hne : args ≠ []) : (State.application file f args last).node.bare =
      .apply f.node.bare (args.map Argument.bare).reverse none := by
  cases args with
  | nil => exact absurd rfl hne
  | cons a args =>
    show Expr.bare (.apply f.node (a :: args).reverse _) = _
    rw [Expr.bare, bareArguments_eq_map, List.map_reverse]

/-- The arguments of an application are added to those of its function. -/
theorem application_append {f : Spanned Expr} {before after new : List Argument}
    {last last' : Position} (hf : f.node.isApply = false)
    (h : (State.application file f before last).node.bare = node) (hne : new ≠ [])
    (hafter : after.map Argument.bare = new.reverse ++ before.map Argument.bare) :
    (State.application file f after last').node.bare = node.applied new none := by
  have hafterne : after ≠ [] := by
    intro heq
    subst heq
    simp only [List.map_nil] at hafter
    have := List.append_eq_nil_iff.mp hafter.symm
    exact hne (List.reverse_eq_nil_iff.mp this.1)
  rw [bare_application hafterne, hafter, List.reverse_append, List.reverse_reverse, ← h]
  cases before with
  | nil =>
    have hn : f.node.bare.isApply = false := by rw [Expr.isApply_bare, hf]
    exact (Expr.applied_of_isApply_eq_false hn _ _).symm
  | cons b before => rw [bare_application (List.cons_ne_nil _ _), Expr.applied]

/-- The texts of arguments, each behind a space. -/
theorem toList_intercalate_space (x : String) (xs : List String) :
    (" ".intercalate (x :: xs)).toList = x.toList ++ xs.flatMap fun y => ' ' :: y.toList := by
  induction xs generalizing x with
  | nil => rw [String.intercalate_singleton, List.flatMap_nil, List.append_nil]
  | cons y ys ih =>
    rw [String.intercalate_cons_cons, String.toList_append, String.toList_append, ih,
      List.append_assoc, List.flatMap_cons]
    rfl

/-- Arguments behind a function, or behind its application to other arguments. -/
theorem ReadsSpine.apply {args : List Argument} (h : ReadsSpine file w word node)
    (hne : args ≠ []) (hlabel : ∀ a ∈ args, a.IsLabelled)
    (hplain : ∀ a ∈ args, StartsPlain a.toText.toList)
    (hargs : ∀ label e, .mk label e ∈ args → ReadsSimple file (e.print Expr.atomLevel).toList
      (e.leadingName? Expr.atomLevel) e.flatten.bare) :
    ReadsSpine file (w ++ args.flatMap fun a => ' ' :: a.toText.toList) word
      (node.applied (args.map fun a => a.flatten.bare) none) := by
  intro s fs hs hfs
  refine (h s fs hs hfs).append ?_ ?_
  · intro s' hend
    obtain ⟨f, before, last, hf, hnode, rfl⟩ := hend
    refine (reads_arguments (fun a ha before last => reads_argument (hlabel a ha) ?_) hplain
      before last).mono (fun _ hr => hr) ?_
    · intro label e heq
      subst heq
      exact hargs label e ha
    · intro s' hend
      obtain ⟨after, last', hlist, rfl⟩ := hend
      -- the arguments that were open before and those just read are one application
      have hmap : (args.map fun a => a.flatten.bare) ≠ [] := fun h => hne (List.map_eq_nil_iff.mp h)
      exact ⟨f, after, last', hf, application_append hf hnode hmap hlist, rfl⟩
  · intro rest hr
    cases args with
    | nil => exact hr
    | cons a args => exact ends_cons (by decide)

/-! ## Operators -/

/-- The class of an operator's lexeme. -/
def Operator.terminal : Operator → Terminal
  | concat => .caret
  | add | sub => .sign
  | mul => .star

/-- Reading an operator leaves it waiting for its right operand. -/
theorem Holds.reads_operator {op : Operator} {s s' : State} {fs : List Frame}
    (h : Holds file op.leftLevel fs node s s') (hfs : IsClear level fs)
    (hlevel : level ≤ op.printLevel) :
    Reads file op.symbol.toList (fun _ => True) s' fun s'' =>
      ∃ e : Spanned Expr, e.node.bare = node ∧
        s'' = { s with frames := .binary e op :: fs, mode := .expression } := by
  obtain ⟨e, he, hshift⟩ := h.shift
  have hlexeme : op.terminal.IsLexeme op.symbol.toList := by
    cases op
    case add => exact .inl rfl
    case sub => exact .inr rfl
    all_goals rfl
  have hends : State.endsOperand op.terminal = true := by cases op <;> rfl
  have hop (p q : Position) :
      State.operator? ⟨op.terminal, op.symbol.toList, p, q⟩ = some op := by cases op <;> rfl
  refine (Reads.token hlexeme (h.expects hends) fun p q =>
    ⟨{ s with frames := .binary e op :: fs, mode := .expression }, ?_, e, he, rfl⟩).mono
    (fun rest _ => by cases op <;> trivial) fun _ hs => hs
  refine (hshift _ hends fun op' hop' => ?_).trans ?_
  · rw [hop] at hop'
    cases hop'
    exact closes_closingLevel op
  · unfold State.endExpression
    simp only [hop, hfs.settle hlevel]

/-- An operator between two operands. It stays open until what follows the right one is read. -/
theorem ReadsExpr.binary {op : Operator} {v : List Char} {word' : Option String} {right : Expr}
    (hl : ReadsExpr file op.leftLevel w word node)
    (hr : ReadsExpr file op.rightLevel v word' right) (hlevel : level ≤ op.printLevel)
    (hv : StartsPlain v) :
    ReadsExpr file level (w ++ ' ' :: (op.symbol.toList ++ ' ' :: v)) word
      (.binary node op right none) := by
  intro s fs hs hfs
  refine (hl s fs hs (hfs.mono (Nat.le_trans hlevel (printLevel_le_leftLevel op)))).append ?_
    fun rest _ => ends_cons (by decide)
  intro s' hholds
  have hblank : ∃ c, op.symbol.toList = [c] ∧ Terminal.isBlank c = false := by
    cases op <;> exact ⟨_, rfl, by decide⟩
  obtain ⟨c, hc, hblank⟩ := hblank
  have hop := hholds.reads_operator hfs hlevel
  rw [hc] at hop ⊢
  refine Reads.cons_space (w := ' ' :: v) ?_ hblank
  refine Reads.append (w := [c]) hop ?_ fun _ _ => trivial
  intro s' hend
  obtain ⟨e, he, rfl⟩ := hend
  refine Reads.cons_space_plain ?_ hv
  refine (hr { s with frames := .binary e op :: fs, mode := .expression } _ rfl
    (isClear_binary e op fs)).mono (fun _ hr => hr) fun s' hs => ?_
  obtain ⟨o, e', ho, he', hclose⟩ := hs.operand
  refine ⟨hs.statements, hs.fault, o, State.joined file e op e', ho, ?_, fun k hk => ?_⟩
  · rw [State.joined, Expr.bare, he, he']
  · rw [hclose k (hk.mono (Nat.le_trans hlevel (printLevel_le_rightLevel op))), State.settle,
      if_pos (hk op hlevel)]

/-! ## Any expression -/

/-- No negative number is applied to arguments at the root of an expression. -/
def Expr.AppliesNoNegative : Expr → Prop
  | .apply f _ _ => f.isNegative = false
  | _ => True

/-- The text of an expression leaves the expression with flat applications: as an argument, as a
function unless it is a negative number, and as an operand of any level. -/
def ReadsBack (file : String) (e : Expr) : Prop :=
  ReadsSimple file (e.print Expr.atomLevel).toList (e.leadingName? Expr.atomLevel)
      e.flatten.bare ∧
    (e.isNegative = false → ReadsSpine file (e.print Expr.applyLevel).toList
      (e.leadingName? Expr.applyLevel) e.flatten.bare) ∧
    ∀ level ≤ Expr.applyLevel, ReadsExpr file level (e.print level).toList
      (e.leadingName? level) e.flatten.bare

/-- An expression that is simple wherever it stands. -/
theorem readsBack_of_simple {e : Expr} (hn : e.flatten.bare.isApply = false)
    (h : ∀ level, ReadsSimple file (e.print level).toList (e.leadingName? level) e.flatten.bare) :
    ReadsBack file e :=
  ⟨h _, fun _ => (h _).readsSpine hn, fun level hl => ((h level).readsSpine hn).readsExpr hl⟩

/-- Parentheses stand around an expression where its level is too low. -/
theorem readsSimple_of_parenthesized {e : Expr} {text : String} {needed : Bool}
    {word' : Option String} (hneeded : needed = true)
    (h : ReadsExpr file 0 text.toList word' node) (hplain : StartsPlain text.toList)
    (he : e.print level = parenthesized needed text) :
    ReadsSimple file (e.print level).toList word node := by
  rw [he, hneeded, parenthesized, if_pos rfl, String.toList_append, String.toList_append,
    List.append_assoc]
  exact h.parenthesized hplain

/-- A number without a sign is simple, one with a sign is so in parentheses. -/
theorem readsBack_number {c : Constant} (negative : Bool) {text : List Char}
    (hk : c.kind ≠ some .string ∧ c.kind ≠ some .char) (ht : IsNumeral text)
    (hs : c.spelling = some (Literal.spelling negative text))
    (hplus : negative = false → ∀ word, ReadsSimple file text word (.constant c.bare))
    (hminus : negative = true → ∀ level word,
      ReadsExpr file level ('-' :: text) word (.constant c.bare)) :
    ReadsBack file (.constant c) := by
  obtain ⟨hneg, hprint⟩ := print_of_spelling hk ht hs
  cases negative with
  | false =>
    refine readsBack_of_simple rfl fun level => ?_
    rw [Expr.print, hprint, Bool.and_false, parenthesized, if_neg Bool.false_ne_true,
      String.toList_ofList]
    exact hplus rfl _
  | true =>
    refine ⟨?_, fun h => ?_, fun level hl => ?_⟩
    · have hexpr : ReadsExpr file 0 (String.ofList ('-' :: text)).toList none
          (.constant c.bare) := by
        rw [String.toList_ofList]
        exact hminus rfl 0 none
      refine readsSimple_of_parenthesized rfl hexpr ?_ (hprint _)
      rw [String.toList_ofList]
      exact ⟨'-', text, rfl, by decide⟩
    · rw [Expr.isNegative, hneg] at h
      cases h
    · rw [Expr.print, hprint, Bool.and_true, parenthesized,
        decide_eq_false (Nat.not_lt_of_le hl), if_neg Bool.false_ne_true, String.toList_ofList]
      exact hminus rfl level _

theorem Constant.IsLiteral.readsBack {c : Constant} (h : c.IsLiteral) :
    ReadsBack file (.constant c) := by
  cases h with
  | @integer c negative text ht hc =>
    obtain ⟨kind, n, he, -⟩ := Literal.integer_ok hc
    refine readsBack_number negative (by rw [he]; exact ⟨nofun, nofun⟩) (.inl ht)
      (by rw [he]) ?_ ?_
    · intro heq word
      subst heq
      exact readsSimple_integer ht hc
    · intro heq level word
      subst heq
      exact readsExpr_negativeInteger ht hc
  | @float negative text l ht =>
    refine readsBack_number negative ⟨nofun, nofun⟩ (.inr ht) rfl ?_ ?_
    · intro heq word
      subst heq
      exact readsSimple_float ht
    · intro heq level word
      subst heq
      exact readsExpr_negativeFloat ht
  | @string text l =>
    refine readsBack_of_simple rfl fun level => ?_
    rw [Expr.print, Constant.print, String.toList_append, String.toList_append, List.append_assoc]
    exact readsSimple_string text
  | @char c l =>
    refine readsBack_of_simple rfl fun level => ?_
    have hchars : Constant.chars ⟨.str (String.ofList [c]), some .char, none, l⟩ =
        String.ofList [c] := rfl
    have hquote : ("'" : String).toList = ['\''] := rfl
    rw [Expr.print, Constant.print, String.toList_append, String.toList_append, List.append_assoc,
      hchars, hquote, List.singleton_append]
    exact readsSimple_char c

/-- An application stands for what its function and its arguments stand for. -/
theorem Expr.readsBack_apply {f : Expr} {args : List Argument} {l : Option Location}
    (hf : f.IsReadable) (hne : args ≠ []) (hlabel : ∀ a ∈ args, a.IsLabelled)
    (hargs : ∀ label e, .mk label e ∈ args → e.IsReadable) (hneg : f.isNegative = false)
    (hrf : ReadsBack file f) (hrargs : ∀ label e, .mk label e ∈ args → ReadsBack file e) :
    ReadsBack file (.apply f args l) := by
  have hspine : ReadsSpine file
      (" ".intercalate (f.print applyLevel :: printArguments args)).toList
      (f.leadingName? applyLevel) (Expr.apply f args l).flatten.bare := by
    rw [toList_intercalate_space, printArguments_eq_map, List.flatMap_map, Expr.flatten,
      Expr.bare_applied, bareArguments_eq_map, flattenArguments_eq_map, List.map_map]
    refine (hrf.2.1 hneg).apply hne hlabel (fun a ha => ?_) fun label e ha => ?_
    · cases a with
      | mk label e =>
        exact (isPlain_labelledText (hlabel _ ha) ((hargs label e ha).isPlain_print _)).1
      | other n => exact (hlabel _ ha).elim
    · exact (hrargs label e ha).1
  have hexpr {level : Nat} (hl : level ≤ applyLevel) := hspine.readsExpr hl
  have hplain : StartsPlain (" ".intercalate (f.print applyLevel :: printArguments args)).toList :=
    startsPlain_intercalate (hf.isPlain_print _).1 _ _
  have hlow {level : Nat} (hl : level ≤ applyLevel) :
      (Expr.apply f args l).print level =
        " ".intercalate (f.print applyLevel :: printArguments args) ∧
      (Expr.apply f args l).leadingName? level = f.leadingName? applyLevel := by
    rw [Expr.print, Expr.leadingName?, parenthesized, decide_eq_false (Nat.not_lt_of_le hl),
      if_neg Bool.false_ne_true, if_neg (Nat.not_lt_of_le hl)]
    exact ⟨rfl, rfl⟩
  refine ⟨?_, fun _ => ?_, fun level hl => ?_⟩
  · exact readsSimple_of_parenthesized rfl (hexpr (Nat.zero_le _)) hplain (by rw [Expr.print]; rfl)
  · rw [(hlow (Nat.le_refl _)).1, (hlow (Nat.le_refl _)).2]
    exact hspine
  · rw [(hlow hl).1, (hlow hl).2]
    exact hexpr hl

/-- An operator stands in parentheses where its level is too low. -/
theorem Expr.readsBack_binary {left right : Expr} {op : Operator} {l : Option Location}
    (hleft : left.IsReadable) (hright : right.IsReadable) (hl : ReadsBack file left)
    (hr : ReadsBack file right) : ReadsBack file (.binary left op right l) := by
  have htext : (left.print op.leftLevel ++ " " ++ op.symbol ++ " " ++
      right.print op.rightLevel).toList = (left.print op.leftLevel).toList ++
        ' ' :: (op.symbol.toList ++ ' ' :: (right.print op.rightLevel).toList) := by
    simp only [String.toList_append, List.append_assoc]
    rfl
  have hexpr {level : Nat} (hlow : level ≤ op.printLevel) : ReadsExpr file level
      (left.print op.leftLevel ++ " " ++ op.symbol ++ " " ++ right.print op.rightLevel).toList
      (left.leadingName? op.leftLevel) (Expr.binary left op right l).flatten.bare := by
    rw [htext]
    exact (hl.2.2 _ (leftLevel_le_applyLevel op)).binary
      (hr.2.2 _ (rightLevel_le_applyLevel op)) hlow (hright.isPlain_print _).1
  have hplain : StartsPlain (left.print op.leftLevel ++ " " ++ op.symbol ++ " " ++
      right.print op.rightLevel).toList := by
    rw [htext]
    exact (hleft.isPlain_print _).1.append _
  have hhigh {level : Nat} (hhi : op.printLevel < level) : ReadsSimple file
      ((Expr.binary left op right l).print level).toList
      ((Expr.binary left op right l).leadingName? level)
      (Expr.binary left op right l).flatten.bare :=
    readsSimple_of_parenthesized (decide_eq_true hhi) (hexpr (Nat.zero_le _)) hplain
      (by rw [Expr.print])
  have hbelow : op.printLevel < applyLevel := by cases op <;> decide
  refine ⟨hhigh (Nat.lt_trans hbelow (by decide)), fun _ => (hhigh hbelow).readsSpine rfl,
    fun level hle => ?_⟩
  -- above its level the operator is in parentheses, so it is as simple as a name
  by_cases hlevel : level ≤ op.printLevel
  · rw [Expr.print, Expr.leadingName?, parenthesized,
      decide_eq_false (Nat.not_lt_of_le hlevel), if_neg Bool.false_ne_true,
      if_neg (Nat.not_lt_of_le hlevel)]
    exact hexpr hlevel
  · exact ((hhigh (Nat.lt_of_not_le hlevel)).readsSpine rfl).readsExpr hle

/-- The text of a readable expression leaves the expression with flat applications. -/
theorem Expr.IsReadable.readsBack {e : Expr} (h : e.IsReadable) (hneg : e.All AppliesNoNegative) :
    ReadsBack file e := by
  induction h with
  | constant hc => exact hc.readsBack
  | identifier hn => exact readsBack_of_simple rfl fun _ => readsSimple_identifier hn
  | @apply f args l hf hne hlabel hargs ihf ihargs =>
    obtain ⟨hnf, hnegf, hnegargs⟩ := all_apply.mp hneg
    exact readsBack_apply hf hne hlabel hargs hnf (ihf hnegf) fun label e ha =>
      ihargs label e ha (hnegargs _ ha)
  | @constraint e t l he ht ih =>
    refine readsBack_of_simple rfl fun level => ?_
    simp only [Expr.print, String.toList_append, List.append_assoc]
    exact ((ih (all_constraint.mp hneg).2).2.2 elementLevel (by decide)).constraint
      (he.isPlain_print _).1 ht.reads.2 (ht.startsPlain_print 0)
  | extension hn =>
    refine readsBack_of_simple rfl fun level => ?_
    simp only [Expr.print, String.toList_append, List.append_assoc]
    exact readsSimple_extension hn
  | @payload name e l hn he ih =>
    refine readsBack_of_simple rfl fun level => ?_
    simp only [Expr.print, String.toList_append, List.append_assoc]
    exact ((ih (all_extension.mp hneg).2).2.2 elementLevel (by decide)).payload hn
      (he.isPlain_print _).1
  | @tuple es l hlen hes ih =>
    refine readsBack_of_simple rfl fun level => ?_
    simp only [Expr.print, printExprs_eq_map, String.toList_append, List.append_assoc, Expr.flatten,
      flattenExprs_eq_map, Expr.bare, bareExprs_eq_map, List.map_map]
    exact readsSimple_tuple (fun y hy => ((hes y hy).isPlain_print _).1)
      (fun y hy => (ih y hy ((all_tuple.mp hneg).2 y hy)).2.2 elementLevel (by decide)) hlen
  | @list es l hes ih =>
    refine readsBack_of_simple rfl fun level => ?_
    simp only [Expr.print, printExprs_eq_map, String.toList_append, List.append_assoc, Expr.flatten,
      flattenExprs_eq_map, Expr.bare, bareExprs_eq_map, List.map_map]
    exact readsSimple_list (fun y hy => ((hes y hy).isPlain_print _).1)
      fun y hy => (ih y hy ((all_list.mp hneg).2 y hy)).2.2 elementLevel (by decide)
  | unit =>
    refine readsBack_of_simple rfl fun level => ?_
    rw [Expr.print]
    exact readsSimple_unit
  | @binary left right op l hleft hright ihl ihr =>
    obtain ⟨-, hnegl, hnegr⟩ := all_binary.mp hneg
    exact readsBack_binary hleft hright (ihl hnegl) (ihr hnegr)

end MessageLang
