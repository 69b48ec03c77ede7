import MessageLang.Proofs.RoundTrip.Operands
/-!
# Printed types are read back

* `TypeExpr.IsReadable.reads`: the text of a type leaves the type, its places aside. A tuple type
  that needs no parentheses is still open at its end.
-/
namespace MessageLang

open State (closeTypeTuple)

variable {file : String} {s : State} {fs : List Frame}

/-- No tuple type is open on top. -/
def IsNoTuple : List Frame → Prop
  | .typeTuple _ _ :: _ => False
  | _ => True

theorem IsNoTuple.closeTypeTuple {fs : List Frame} (h : IsNoTuple fs) (ty : Spanned TypeExpr) :
    State.closeTypeTuple file ty fs = (ty, fs) := by
  unfold State.closeTypeTuple
  split
  · exact h.elim
  · rfl

/-- A text leaves a type complete. -/
def ReadsType (file : String) (w : List Char) (node : TypeExpr) : Prop :=
  ∀ (s : State) (fs : List Frame),
    Reads file w Ends { s with frames := fs, mode := .type } fun s' =>
      ∃ ty : Spanned TypeExpr, ty.node.bare = node ∧ s' = { s with frames := fs, mode := .typed ty }

/-- A text leaves a type that is complete once the open tuple type is closed. -/
def ReadsOpenType (file : String) (w : List Char) (node : TypeExpr) : Prop :=
  ∀ (s : State) (fs : List Frame), IsNoTuple fs →
    Reads file w Ends { s with frames := fs, mode := .type } fun s' =>
      ∃ (ty ty' : Spanned TypeExpr) (fs' : List Frame), ty'.node.bare = node ∧
        closeTypeTuple file ty fs' = (ty', fs) ∧ s' = { s with frames := fs', mode := .typed ty }

theorem ReadsType.readsOpenType {w : List Char} {node : TypeExpr} (h : ReadsType file w node) :
    ReadsOpenType file w node := by
  intro s fs hfs
  refine (h s fs).mono (fun _ hr => hr) ?_
  intro s' hs
  obtain ⟨ty, hty, rfl⟩ := hs
  exact ⟨ty, ty, fs, hty, hfs.closeTypeTuple ty, rfl⟩

theorem readsType_name {name : String} (h : Terminal.IsLongName name.toList) :
    ReadsType file name.toList (.named name [] none) := by
  intro s fs
  refine (Reads.token (t := .longName) h rfl fun p q => ⟨_, rfl, ?_⟩).mono
    (fun _ hr => hr.follows _) fun _ hs => hs
  refine ⟨_, ?_, rfl⟩
  simp only [TypeExpr.bare, bareTypes, String.ofList_toList]

theorem readsType_applied {name : String} {w : List Char} {node : TypeExpr}
    (hn : Terminal.IsLongName name.toList) (h : ReadsType file w node) :
    ReadsType file (w ++ ' ' :: name.toList) (.named name [node] none) := by
  intro s fs
  refine (h s fs).append ?_ fun rest _ => ends_cons (by decide)
  intro s' hend
  obtain ⟨ty, rfl, rfl⟩ := hend
  have hplain := isPlain_of_forall hn.ne_nil (isPlainChar_of_isLongName hn)
  refine Reads.cons_space_plain ?_ hplain.1
  refine (Reads.token (t := .longName) hn rfl fun p q => ⟨_, rfl, ?_⟩).mono
    (fun _ hr => hr.follows _) fun _ hs => hs
  refine ⟨_, ?_, rfl⟩
  simp only [TypeExpr.bare, bareTypes, String.ofList_toList]

/-- The star between two elements of a tuple type. -/
theorem reads_star {w : List Char} {s' : State} {P Q : State → Prop} (hw : StartsPlain w)
    (ha : s'.expects .star = true)
    (hs : ∀ p q, ∃ s'', s'.shift file ⟨.star, ['*'], p, q⟩ = some s'' ∧ Q s'')
    (h : ∀ s'', Q s'' → Reads file w Ends s'' P) :
    Reads file (' ' :: '*' :: ' ' :: w) Ends s' P := by
  refine Reads.cons_space ?_ (by decide)
  exact Reads.cons_token (t := .star) (v := ['*']) rfl ha hs
    (fun s'' hs => (h s'' hs).cons_space_plain hw) fun _ _ => trivial

/-- The elements of a tuple type behind a first one. -/
theorem reads_typeElements {t : TypeExpr} {ts : List TypeExpr}
    (hr : ∀ u ∈ t :: ts, u.IsReadable)
    (h : ∀ u ∈ t :: ts, ReadsType file (u.print 1).toList u.bare) (s : State) (fs : List Frame)
    (p : Position) (before : List TypeExpr) :
    Reads file (" * ".intercalate ((t :: ts).map (TypeExpr.print 1))).toList Ends
      { s with frames := .typeTuple p before :: fs, mode := .type } fun s' =>
        ∃ (ty : Spanned TypeExpr) (after : List TypeExpr),
          (ty.node :: after).map TypeExpr.bare =
            ((t :: ts).map TypeExpr.bare).reverse ++ before.map TypeExpr.bare ∧
          s' = { s with frames := .typeTuple p after :: fs, mode := .typed ty } := by
  induction ts generalizing t before with
  | nil =>
    rw [List.map_cons, List.map_nil, String.intercalate_singleton]
    refine (h t List.mem_cons_self s _).mono (fun _ hr => hr) ?_
    intro s' hs
    obtain ⟨ty, hty, rfl⟩ := hs
    exact ⟨ty, before, by rw [List.map_cons, hty]; rfl, rfl⟩
  | cons u ts ih =>
    obtain ⟨hr₁, hr₂⟩ := List.forall_mem_cons.mp hr
    obtain ⟨h₁, h₂⟩ := List.forall_mem_cons.mp h
    rw [List.map_cons, List.map_cons, String.intercalate_cons_cons, String.toList_append,
      String.toList_append, List.append_assoc]
    refine (h₁ s _).append ?_ fun rest _ => ends_cons (by decide)
    intro s' hs
    obtain ⟨ty, hty, rfl⟩ := hs
    have hplain : StartsPlain (" * ".intercalate ((u :: ts).map (TypeExpr.print 1))).toList :=
      startsPlain_intercalate ((hr₂ u List.mem_cons_self).startsPlain_print 1) _ _
    refine reads_star (Q := fun s'' => s'' =
      { s with frames := .typeTuple p (ty.node :: before) :: fs, mode := .type }) hplain rfl
      (fun p' q => ⟨_, rfl, rfl⟩) ?_
    intro s'' heq
    subst heq
    refine (ih hr₂ h₂ (ty.node :: before)).mono (fun _ hr => hr) ?_
    intro s' hs
    obtain ⟨ty', after, he, rfl⟩ := hs
    refine ⟨ty', after, ?_, rfl⟩
    simp [he, hty]

/-- The elements of a tuple type leave the tuple type open. -/
theorem readsOpenType_tuple {ts : List TypeExpr} (hlen : 2 ≤ ts.length)
    (hr : ∀ u ∈ ts, u.IsReadable)
    (h : ∀ u ∈ ts, ReadsType file (u.print 1).toList u.bare) :
    ReadsOpenType file (" * ".intercalate (ts.map (TypeExpr.print 1))).toList
      (.tuple (ts.map TypeExpr.bare) none) := by
  intro s fs hfs
  match ts, hlen with
  | t :: u :: ts, _ =>
    obtain ⟨hr₁, hr₂⟩ := List.forall_mem_cons.mp hr
    obtain ⟨h₁, h₂⟩ := List.forall_mem_cons.mp h
    rw [List.map_cons, List.map_cons, String.intercalate_cons_cons, String.toList_append,
      String.toList_append, List.append_assoc]
    refine (h₁ s fs).append ?_ fun rest _ => ends_cons (by decide)
    intro s' hs
    obtain ⟨ty, hty, rfl⟩ := hs
    have hplain : StartsPlain (" * ".intercalate ((u :: ts).map (TypeExpr.print 1))).toList :=
      startsPlain_intercalate ((hr₂ u List.mem_cons_self).startsPlain_print 1) _ _
    have hstar (p q : Position) : State.shift file
        { s with frames := fs, mode := .typed ty } ⟨.star, ['*'], p, q⟩ =
          some { s with frames := .typeTuple ty.first [ty.node] :: fs, mode := .type } := by
      simp only [State.shift, State.continueType]
      split
      · exact hfs.elim
      · rfl
    refine reads_star (Q := fun s'' => s'' =
      { s with frames := .typeTuple ty.first [ty.node] :: fs, mode := .type }) hplain rfl
      (fun p q => ⟨_, hstar p q, rfl⟩) ?_
    intro s'' heq
    subst heq
    refine (reads_typeElements hr₂ h₂ s fs ty.first [ty.node]).mono (fun _ hr => hr) ?_
    intro s' hs
    obtain ⟨ty', after, he, rfl⟩ := hs
    refine ⟨ty', _, _, ?_, rfl, rfl⟩
    have hrev : (ty'.node :: after).reverse.map TypeExpr.bare =
        (t :: u :: ts).map TypeExpr.bare := by
      rw [List.map_reverse, he]
      simp [hty]
    rw [TypeExpr.bare, bareTypes_eq_map, hrev]

/-- A type in parentheses. -/
theorem ReadsOpenType.parenthesized {w : List Char} {node : TypeExpr} (hw : StartsPlain w)
    (h : ReadsOpenType file w node) : ReadsType file ('(' :: (w ++ [')'])) node := by
  intro s fs
  refine Reads.cons_token (t := .openParen) (v := ['(']) (Q := fun s' => ∃ p, s' =
    { s with frames := .typeParen p :: fs, mode := .type }) rfl rfl (fun p q => ⟨_, rfl, p, rfl⟩)
    ?_ ?_
  · intro s' hend
    obtain ⟨p, rfl⟩ := hend
    refine (h s (.typeParen p :: fs) trivial).append ?_ fun rest _ => ends_cons (by decide)
    intro s' hend
    obtain ⟨ty, ty', fs', hnode, hclose, rfl⟩ := hend
    refine (Reads.token (t := .closeParen) rfl rfl fun p' q =>
      ⟨{ s with frames := fs, mode := .typed ⟨ty'.node, p, q⟩ }, ?_, ?_⟩).mono
      (fun _ _ => trivial) fun _ hs => hs
    · simp only [State.shift, State.continueType, hclose]
    · exact ⟨⟨ty'.node, p, q⟩, hnode, rfl⟩
  · obtain ⟨c, tail, rfl, -, hstar, -⟩ := hw
    intro rest _ he
    cases he
    exact hstar rfl

/-- The text of a type leaves the type. -/
theorem TypeExpr.IsReadable.reads {t : TypeExpr} (h : t.IsReadable) :
    ReadsType file (t.print 1).toList t.bare ∧ ReadsOpenType file (t.print 0).toList t.bare := by
  induction h with
  | name hn =>
    have hname : ReadsType file _ _ := readsType_name hn
    exact ⟨hname, hname.readsOpenType⟩
  | applied hn ht ih =>
    have happlied : ReadsType file _ _ := readsType_applied hn ih.1
    simp only [TypeExpr.print, TypeExpr.bare, bareTypes, String.toList_append, List.append_assoc]
    exact ⟨happlied, happlied.readsOpenType⟩
  | @tuple ts l hlen hts ih =>
    have htuple : ReadsOpenType file _ _ := readsOpenType_tuple hlen hts fun u hu => (ih u hu).1
    rw [TypeExpr.print, TypeExpr.print, printTypes_eq_map, TypeExpr.bare, bareTypes_eq_map]
    refine ⟨?_, htuple⟩
    have hplain : StartsPlain (" * ".intercalate (ts.map (TypeExpr.print 1))).toList := by
      cases ts with
      | nil => simp at hlen
      | cons t ts =>
        exact startsPlain_intercalate ((hts t List.mem_cons_self).startsPlain_print 1) _ _
    simp only [parenthesized, Nat.zero_lt_one, decide_true, if_true, String.toList_append,
      List.append_assoc]
    exact htuple.parenthesized hplain

end MessageLang
