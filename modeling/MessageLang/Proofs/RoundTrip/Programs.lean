import MessageLang.Proofs.Grammar.Trees
import MessageLang.Proofs.RoundTrip.Expressions
/-!
# Printed programs are read back

The text of a readable program is a program again: the same one, but for the places in it and for
applications of applications, which are flat. The only exceptions are a negative number that is
applied to arguments and a statement that starts with the name `let`.

* `Statement.IsReadable.reads`: one statement.
* `Program.IsReadable.exists_parse`: a program.
* `Expr.parse_toText_eq_flatten`: an expression that was read is read again from its text.
-/
namespace MessageLang

variable {file : String}

/-- A statement without negative numbers that are applied, which does not start with `let`. -/
def Statement.IsRereadable : Statement → Prop
  | .binding _ e _ => e.All Expr.AppliesNoNegative
  | .expression e _ => e.All Expr.AppliesNoNegative ∧ e.leadingName? Expr.topLevel ≠ some "let"
  | .other _ => False

/-- The text of a statement starts with no blank. -/
theorem Statement.IsReadable.startsPlain_toText {x : Statement} (h : x.IsReadable) :
    StartsPlain x.toText.toList := by
  cases h with
  | binding hn he =>
    simp only [Statement.toText, String.toList_append, List.append_assoc]
    exact ⟨'l', _, rfl, by decide⟩
  | expression he =>
    rw [Statement.toText, String.toList_append]
    exact (he.isPlain_print _).1.append _

theorem isLongName_let : Terminal.IsLongName ['l', 'e', 't'] :=
  .word (.of_all 'l' ['e', 't'] rfl rfl)

/-- The text of a statement leaves the statement. -/
theorem Statement.IsReadable.reads {x : Statement} (h : x.IsReadable) (hx : x.IsRereadable)
    (s : State) : Reads file x.toText.toList (fun _ => True) { s with mode := .statement } fun s' =>
      ∃ y : Statement, y.bare = x.flatten.bare ∧
        s' = { s with statements := y :: s.statements, mode := .statement } := by
  cases h with
  | @binding name e l hn he =>
    have htext : (Statement.binding name e l).toText.toList = ['l', 'e', 't'] ++ ' ' ::
        (name.toList ++ ' ' :: '=' :: ' ' :: ((e.print Expr.topLevel).toList ++ [';'])) := by
      simp only [Statement.toText, String.toList_append, List.append_assoc]
      rfl
    rw [htext]
    refine Reads.cons_token (t := .longName) (Q := fun s' => ∃ p, s' =
      { s with mode := .bindingName p }) isLongName_let rfl (fun p q => ⟨_, rfl, p, rfl⟩) ?_
      fun rest _ => (ends_cons (by decide)).follows _
    intro s' hend
    obtain ⟨p, rfl⟩ := hend
    have hname : StartsPlain name.toList := (isPlain_of_forall hn.ne_nil hn.isPlainChar).1
    refine Reads.cons_space_plain ?_ (hname.append _)
    refine Reads.cons_token (t := .name) (Q := fun s' => s' =
      { s with mode := .bindingEquals p name }) hn rfl (fun p' q => ⟨_, rfl, ?_⟩) ?_
      fun rest _ => (ends_cons (by decide)).follows _
    · rw [String.ofList_toList]
    intro s' heq
    subst heq
    refine Reads.cons_space (w := ' ' :: _) ?_ (by decide)
    refine Reads.cons_token (t := .equals) (v := ['=']) (Q := fun s' => s' =
      { s with frames := .binding p name :: s.frames, mode := .expression }) rfl rfl
      (fun p' q => ⟨_, rfl, rfl⟩) ?_ fun _ _ => trivial
    intro s' heq
    subst heq
    refine Reads.cons_space_plain ?_ ((he.isPlain_print _).1.append _)
    refine ((he.readsBack hx).2.2 Expr.topLevel (Nat.zero_le _)
      { s with frames := .binding p name :: s.frames, mode := .expression } _ rfl trivial).append
      ?_ fun rest _ => ends_cons (by decide)
    intro s' hh
    refine (hh.reads_close (t := .semicolon) rfl rfl (fun _ _ => rfl) fun e' he' p' q =>
      ⟨_, rfl, .binding name e'.node (some (.between file p q)), ?_, rfl⟩).mono
      (fun _ _ => trivial) fun _ hs => hs
    rw [Statement.bare, he']
    rfl
  | @expression e l he =>
    rw [Statement.toText, String.toList_append]
    refine ((he.readsBack hx.1).2.2 Expr.topLevel (Nat.zero_le _) { s with mode := .statement }
      (.statement :: s.frames) ⟨rfl, hx.2⟩ trivial).append ?_ fun rest _ => ends_cons (by decide)
    intro s' hh
    refine (hh.reads_close (t := .semicolon) rfl rfl (fun _ _ => rfl) fun e' he' p' q =>
      ⟨_, rfl, .expression e'.node (some (.between file e'.first q)), ?_, rfl⟩).mono
      (fun _ _ => trivial) fun _ hs => hs
    rw [Statement.bare, he']
    rfl

theorem printStatements_eq_map (xs : List Statement) :
    printStatements xs = xs.map Statement.toText := by
  induction xs with
  | nil => rfl
  | cons x xs ih => rw [printStatements, ih, List.map_cons]

/-- The texts of statements, each on a line of its own, leave the statements. -/
theorem reads_statements {xs : List Statement} (h : ∀ x ∈ xs, x.IsReadable)
    (hx : ∀ x ∈ xs, x.IsRereadable) (s : State) :
    Reads file ("\n".intercalate (xs.map Statement.toText)).toList (fun rest => rest = [])
      { s with mode := .statement } fun s' => ∃ ys : List Statement,
        ys.map Statement.bare =
          (xs.map fun x => x.flatten.bare).reverse ++ s.statements.map Statement.bare ∧
        s' = { s with statements := ys, mode := .statement } := by
  induction xs generalizing s with
  | nil => exact fun last p rest _ => ⟨_, last, p, ⟨s.statements, rfl, rfl⟩, rfl⟩
  | cons x xs ih =>
    obtain ⟨hx₁, hx₂⟩ := List.forall_mem_cons.mp hx
    obtain ⟨h₁, h₂⟩ := List.forall_mem_cons.mp h
    cases xs with
    | nil =>
      rw [List.map_cons, List.map_nil, String.intercalate_singleton]
      refine (h₁.reads hx₁ s).mono (fun _ _ => trivial) ?_
      intro s' hs
      obtain ⟨y, hy, rfl⟩ := hs
      exact ⟨y :: s.statements, by rw [List.map_cons, hy]; rfl, rfl⟩
    | cons x' xs =>
      rw [List.map_cons, List.map_cons, String.intercalate_cons_cons, String.toList_append,
        String.toList_append, List.append_assoc]
      refine (h₁.reads hx₁ s).append ?_ fun _ _ => trivial
      intro s' hs
      obtain ⟨y, hy, rfl⟩ := hs
      have hrest := ih h₂ hx₂ { s with statements := y :: s.statements }
      obtain ⟨c, tail, htail, hc, -⟩ := startsPlain_intercalate
        (h₂ x' List.mem_cons_self).startsPlain_toText "\n" (xs.map Statement.toText)
      rw [List.map_cons, htail] at hrest ⊢
      refine (Reads.cons_blank (b := '\n') rfl hrest hc).mono (fun _ hr => hr) ?_
      intro s' hs
      obtain ⟨ys, hys, rfl⟩ := hs
      refine ⟨ys, ?_, rfl⟩
      simp [hys, hy]

/-- A text that leaves statements is the program of these. -/
theorem Program.parse_of_reads {source : String} {xs : List Statement}
    (hfile : file.isEmpty = false)
    (h : Reads file source.toList (fun rest => rest = []) .initial fun s' =>
      ∃ ys : List Statement, ys.map Statement.bare = xs.reverse ∧
        s' = { State.initial with statements := ys }) :
    ∃ p, Program.parse file source = .ok p ∧ p.statements.map Statement.bare = xs := by
  obtain ⟨s', last', p', ⟨ys, hys, rfl⟩, hread⟩ := h .start .start [] rfl
  rw [List.append_nil, readFrom] at hread
  refine ⟨⟨ys.reverse, some (Program.region file ys.reverse)⟩, ?_, ?_⟩
  · unfold Program.parse
    rw [hread]
    simp [State.initial, hfile]
    rfl
  · rw [List.map_reverse, hys, List.reverse_reverse]

/-- The text of a program is the program again, its applications flat. -/
theorem Program.IsReadable.exists_parse {p : Program} (h : p.IsReadable)
    (hp : ∀ x ∈ p.statements, x.IsRereadable) (hfile : file.isEmpty = false) :
    ∃ q, Program.parse file p.toText = .ok q ∧
      q.statements.map Statement.bare = p.statements.map fun x => x.flatten.bare := by
  refine Program.parse_of_reads hfile ?_
  rw [Program.toText, printStatements_eq_map]
  refine (reads_statements h hp .initial).mono (fun _ hr => hr) ?_
  intro s' hs
  obtain ⟨ys, hys, rfl⟩ := hs
  exact ⟨ys, by rw [hys]; simp [State.initial], rfl⟩

/-! ## A single expression -/

/-- Whether a text starts with the bare name `let`. -/
def startsWithLet (text : String) : Bool :=
  text.toList.takeWhile Terminal.isNameChar == ['l', 'e', 't']

theorem startsWithLet_of_leadingName? {e : Expr}
    (h : e.leadingName? Expr.topLevel = some "let") : startsWithLet e.toText = true := by
  obtain ⟨tail, he, ht⟩ := Expr.exists_of_leadingName? h
  rw [startsWithLet, Expr.toText, he, beq_iff_eq]
  rcases ht with rfl | ⟨rest, rfl⟩ <;> rfl

/-- A text with a plain end is only given a semicolon. -/
theorem toList_withSemicolon {text : String} (h : EndsPlain text.toList) :
    (withSemicolon text).toList = text.toList ++ [';'] := by
  obtain ⟨c, body, he, hc, hne⟩ := h
  have htrim : Text.trimEnd text.toList = text.toList := by
    rw [Text.trimEnd, he, List.reverse_append, List.reverse_singleton, List.singleton_append,
      List.dropWhile_cons, hc, if_neg Bool.false_ne_true, List.reverse_cons, List.reverse_reverse]
  have hlast : (text.toList.getLast? == some ';') = false := by
    rw [he, List.getLast?_concat]
    simpa using hne
  simp only [withSemicolon, htrim, hlast, Bool.false_eq_true, if_false, String.toList_ofList]

/-- Whether an expression is an application of a negative number. -/
def Expr.appliesNegative : Expr → Bool
  | .apply f _ _ => f.isNegative
  | _ => false

/-- Whatever expression was read: its text is read as the same expression with flat applications,
numbers spelled as they were. The text must not start with the bare name `let`, which starts a
binding, and no negative number may be applied to arguments. -/
theorem Expr.parse_toText_eq_flatten {file file' source : String} {e : Expr}
    (h : Expr.parse file source = .ok e)
    (hneg : ∀ f args l, .apply f args l ∈ e.parts → f.isNegative = false)
    (hlet : startsWithLet e.toText = false) (hfile : file'.isEmpty = false) :
    ∃ e', Expr.parse file' e.toText = .ok e' ∧ e'.bare = e.flatten.bare := by
  have hread := Expr.parse_isReadable h
  have hx : (Statement.expression e none).IsRereadable := by
    refine ⟨fun x hx => ?_, fun hname => ?_⟩
    · cases x with
      | apply f args l => exact hneg f args l hx
      | _ => trivial
    · rw [startsWithLet_of_leadingName? hname] at hlet
      cases hlet
  have hreads : Reads file' (withSemicolon e.toText).toList (fun rest => rest = []) .initial
      fun s' => ∃ ys : List Statement,
        ys.map Statement.bare = [(Statement.expression e none).flatten.bare].reverse ∧
          s' = { State.initial with statements := ys } := by
    have htext : (withSemicolon e.toText).toList = (Statement.expression e none).toText.toList := by
      have hends : EndsPlain e.toText.toList := (hread.isPlain_print _).2
      rw [toList_withSemicolon hends, Statement.toText, String.toList_append]
      rfl
    rw [htext]
    refine ((Statement.IsReadable.expression hread).reads hx .initial).mono (fun _ _ => trivial) ?_
    intro s' hs
    obtain ⟨y, hy, rfl⟩ := hs
    exact ⟨[y], by rw [List.map_cons, hy]; rfl, rfl⟩
  obtain ⟨p, hp, hstatements⟩ := Program.parse_of_reads hfile hreads
  obtain ⟨y, hy, hbare⟩ := List.map_eq_singleton_iff.mp hstatements
  cases y with
  | expression e' l =>
    refine ⟨e', ?_, ?_⟩
    · unfold Expr.parse
      rw [hp]
      simp only [bind, Except.bind, hy]
    · injection hbare
  | binding name e' l => cases hbare
  | other n => cases hbare

/-- An application of an application to a negative number. -/
theorem Expr.parse_toText_curried : ∃ e e', Expr.parse "a.ml" "(f x) ~y:(-1 * 2)" = .ok e ∧
    Expr.parse "b.ml" e.toText = .ok e' ∧ e'.bare = e.flatten.bare := by
  have hcheck : ((Expr.parse "a.ml" "(f x) ~y:(-1 * 2)").toOption.any fun e =>
      (e.parts.all fun x => !x.appliesNegative) && !startsWithLet e.toText) = true := by
    decide +kernel
  obtain ⟨e, he, htested⟩ := exists_ok_of_any hcheck
  simp only [Bool.and_eq_true, Bool.not_eq_true', List.all_eq_true] at htested
  obtain ⟨hall, hlet⟩ := htested
  have hneg : ∀ f args l, .apply f args l ∈ e.parts → f.isNegative = false := by
    intro f args l hm
    exact hall _ hm
  have hreread : ∃ e', Expr.parse "b.ml" e.toText = .ok e' ∧ e'.bare = e.flatten.bare :=
    Expr.parse_toText_eq_flatten he hneg hlet rfl
  obtain ⟨e', he', hbare⟩ := hreread
  exact ⟨e, e', he, he', hbare⟩

end MessageLang
