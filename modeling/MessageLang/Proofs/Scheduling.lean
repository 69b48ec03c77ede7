import Mathlib.Data.Fintype.Card
import Mathlib.Data.List.Perm.Subperm
import Mathlib.Data.Set.Finite.List
import Mathlib.Logic.Relation
import Mathlib.Order.WellFounded
import MessageLang.Schedule
/-!
# Which jobs have an order

An agenda has an order exactly if no job is given twice, all that is required is given, and no job
requires itself over any number of steps. The order has each job once, behind all that it requires.

* `Agenda.Consistent`: at every time a job is done or ready, but not twice, if and only if none of
  its requirements is pending; this holds also of jobs that are given twice.
* `Agenda.Counted`: if no job is given twice, the requirements that are pending are those that are
  not done, and what is done is in order.
* `exists_transGen_self`: where each of finitely many elements has a successor there is a cycle.
* `Agenda.order_exact`: when there is an order, and which.
-/
namespace MessageLang

variable {α : Type}

/-- Every job comes after those that it requires. -/
def IsOrdered (requires : α → List α) (order : List α) : Prop :=
  ∀ before job after, order = before ++ job :: after → ∀ other ∈ requires job, other ∈ before

/-- A job that is given requires another job. -/
def Requires (jobs : List α) (requires : α → List α) (job other : α) : Prop :=
  job ∈ jobs ∧ other ∈ requires job

/-! ## Orders -/

theorem isOrdered_nil (requires : α → List α) : IsOrdered requires [] := by
  intro before job after h
  simp at h

theorem IsOrdered.append {requires : α → List α} {order : List α} (h : IsOrdered requires order)
    {job : α} (hjob : ∀ other ∈ requires job, other ∈ order) :
    IsOrdered requires (order ++ [job]) := by
  intro before job' after heq other hother
  rcases List.eq_nil_or_concat after with rfl | ⟨after, last, rfl⟩
  · obtain ⟨rfl, hlast⟩ := List.append_inj' heq rfl
    cases hlast
    exact hjob other hother
  · rw [List.concat_eq_append, ← List.cons_append, ← List.append_assoc] at heq
    exact h before job' after (List.append_inj' heq rfl).1 other hother

/-- In an order a job stands behind all that it requires over any number of steps. -/
theorem IsOrdered.mem_of_transGen {jobs : List α} {requires : α → List α} {order : List α}
    (h : IsOrdered requires order) {job other : α}
    (hr : Relation.TransGen (Requires jobs requires) job other) {before after : List α}
    (heq : order = before ++ job :: after) : other ∈ before := by
  induction hr using Relation.TransGen.head_induction_on generalizing before after with
  | single hr => exact h before _ after heq _ hr.2
  | head hr _ ih =>
    obtain ⟨first, last, rfl⟩ := List.append_of_mem (h before _ after heq _ hr.2)
    rw [List.append_assoc, List.cons_append] at heq
    exact List.mem_append_left _ (ih heq)

/-- Jobs that stand in an order do not require themselves. -/
theorem IsOrdered.acyclic {jobs : List α} {requires : α → List α} {order : List α}
    (h : IsOrdered requires order) (hnodup : order.Nodup) (hjobs : ∀ job ∈ jobs, job ∈ order)
    (job : α) : ¬ Relation.TransGen (Requires jobs requires) job job := by
  intro hcycle
  obtain ⟨_, hr, -⟩ := Relation.TransGen.head'_iff.mp hcycle
  obtain ⟨before, after, rfl⟩ := List.append_of_mem (hjobs job hr.1)
  have hbefore := h.mem_of_transGen hcycle rfl
  exact List.disjoint_of_nodup_append hnodup hbefore List.mem_cons_self

/-- Where each of finitely many elements has a successor among them there is a cycle. -/
theorem exists_transGen_self {r : α → α → Prop} {l : List α} (hne : l ≠ [])
    (h : ∀ a ∈ l, ∃ b ∈ l, r a b) : ∃ a, Relation.TransGen r a a := by
  by_contra hnone
  have hfinite : Finite {a // a ∈ l} := List.finite_toSet l
  let above (b a : {a // a ∈ l}) : Prop := Relation.TransGen r a.1 b.1
  have htrans : IsTrans {a // a ∈ l} above := ⟨fun _ _ _ hab hbc => hbc.trans hab⟩
  have hirrefl : Std.Irrefl above := ⟨fun a ha => hnone ⟨a.1, ha⟩⟩
  obtain ⟨a, l', rfl⟩ := List.exists_cons_of_ne_nil hne
  obtain ⟨⟨top, htop⟩, -, hmin⟩ := (Finite.wellFounded_of_trans_of_irrefl above).has_min
    Set.univ ⟨⟨a, List.mem_cons_self⟩, trivial⟩
  obtain ⟨b, hb, hr⟩ := h top htop
  exact hmin ⟨b, hb⟩ trivial (.single hr)

variable [DecidableEq α]

namespace Agenda

/-! ## Agendas -/

@[simp] theorem ofJobs_jobs (jobs : List α) (requires : α → List α) :
    (ofJobs jobs requires).jobs = jobs := by
  induction jobs using List.reverseRecOn with
  | nil => rfl
  | append_singleton jobs job ih => simpa [ofJobs, add] using ih

/-- A job that is given requires what it requires. -/
theorem mem_requires_ofJobs {jobs : List α} {requires : α → List α} {job other : α}
    (h : job ∈ jobs) : other ∈ (ofJobs jobs requires).requires job ↔ other ∈ requires job := by
  induction jobs using List.reverseRecOn with
  | nil => cases h
  | append_singleton jobs last ih =>
    have hadd : ofJobs (jobs ++ [last]) requires =
        (ofJobs jobs requires).add last (requires last) := by
      simp [ofJobs]
    rw [hadd]
    simp only [add]
    by_cases hlast : job = last
    · rw [if_pos hlast, hlast, List.mem_eraseDups]
    · rw [if_neg hlast]
      exact ih (by simpa [hlast] using h)

variable {a : Agenda α} {p : Progress α} {job other : α}

/-! ## Invariants of the loop -/

/-- What holds at the start and is kept by each job holds in the end, when no job is ready. -/
theorem drain_induction {P : Progress α → Prop}
    (hstep : ∀ p job ready, P p → p.ready = job :: ready → P (a.finish job { p with ready }))
    (h : P p) : P (a.drain p) ∧ (a.drain p).ready = [] := by
  fun_induction a.drain p with
  | case1 p hready => exact ⟨h, hready⟩
  | case2 p job ready hready _ ih => exact ih (hstep p job ready h hready)

/-- A job that is given is done or ready if and only if none of its requirements is pending, and
no job is done or ready twice. -/
structure Consistent (a : Agenda α) (p : Progress α) : Prop where
  nodup : (p.done ++ p.ready).Nodup
  subset : ∀ job ∈ p.done ++ p.ready, job ∈ a.jobs
  pending_le_iff : ∀ job ∈ a.jobs, p.pending job ≤ 0 ↔ job ∈ p.done ++ p.ready

theorem consistent_start (a : Agenda α) : a.Consistent a.start where
  nodup := by
    simp only [start, List.nil_append]
    exact (nodup_eraseDups a.jobs).filter _
  subset job h := by
    simp only [start, List.nil_append, List.mem_filter, List.mem_eraseDups] at h
    exact h.1
  pending_le_iff job h := by
    simp only [start, List.nil_append, List.mem_filter, List.mem_eraseDups, h, true_and,
      decide_eq_true_eq]
    omega

/-- A job gets ready when its last requirement is met, and only then. -/
theorem Consistent.meet (h : a.Consistent p) (hjob : job ∈ a.jobs) : a.Consistent (p.meet job) := by
  have hiff := h.pending_le_iff job hjob
  by_cases hlast : p.pending job = 1
  · have hnew : job ∉ p.done ++ p.ready := fun hmem => by
      have := hiff.mpr hmem
      omega
    have hready : (p.meet job).ready = p.ready ++ [job] := by simp [Progress.meet, hlast]
    have hdone : (p.meet job).done ++ (p.meet job).ready = (p.done ++ p.ready) ++ [job] := by
      rw [hready, List.append_assoc]
      rfl
    refine ⟨?_, ?_, fun other hother => ?_⟩
    · rw [hdone]
      exact h.nodup.append (List.nodup_singleton job) (by simpa using hnew)
    · rw [hdone]
      intro other hother
      rcases List.mem_append.mp hother with hother | hother
      · exact h.subset other hother
      · rwa [List.mem_singleton.mp hother]
    · rw [hdone, List.mem_append, List.mem_singleton]
      by_cases heq : other = job
      · simp [Progress.meet, heq, hlast]
      · simpa [Progress.meet, heq] using h.pending_le_iff other hother
  · have hready : (p.meet job).ready = p.ready := by
      simp only [Progress.meet]
      rw [if_neg (by omega)]
    have hdone : (p.meet job).done ++ (p.meet job).ready = p.done ++ p.ready := by
      rw [hready]
      rfl
    refine ⟨hdone ▸ h.nodup, hdone ▸ h.subset, fun other hother => ?_⟩
    rw [hdone]
    by_cases heq : other = job
    · subst heq
      rw [← hiff]
      simp only [Progress.meet, if_true]
      omega
    · simpa [Progress.meet, heq] using h.pending_le_iff other hother

theorem Consistent.foldl_release (h : a.Consistent p) {jobs : List α}
    (hjobs : ∀ other ∈ jobs, other ∈ a.jobs) : a.Consistent (jobs.foldl (a.release job) p) := by
  induction jobs generalizing p with
  | nil => exact h
  | cons other jobs ih =>
    obtain ⟨hother, hrest⟩ := List.forall_mem_cons.mp hjobs
    refine ih ?_ hrest
    unfold release
    split
    · exact h.meet hother
    · exact h

theorem Consistent.finish {ready : List α} (h : a.Consistent p) (hready : p.ready = job :: ready) :
    a.Consistent (a.finish job { p with ready }) := by
  have hsame : p.done ++ p.ready = (p.done ++ [job]) ++ ready := by
    rw [hready, List.append_assoc]
    rfl
  refine Consistent.foldl_release ⟨?_, ?_, ?_⟩ fun _ => id
  · exact hsame ▸ h.nodup
  · exact hsame ▸ h.subset
  · exact hsame ▸ h.pending_le_iff

/-! ## Jobs that are given once -/

/-- The jobs that require another are counted down when it is done, once for each time that they
are given. -/
theorem pending_foldl_release (jobs : List α) :
    (jobs.foldl (a.release job) p).pending other =
      p.pending other - if job ∈ a.requires other then (jobs.count other : Int) else 0 := by
  induction jobs generalizing p with
  | nil => simp
  | cons first jobs ih =>
    rw [List.foldl_cons, ih]
    unfold release
    by_cases heq : first = other
    · subst heq
      split
      · simp only [Progress.meet, if_true, List.count_cons_self]
        omega
      · rfl
    · rw [List.count_cons_of_ne heq]
      have hother : other ≠ first := fun h => heq h.symm
      split <;> simp [Progress.meet, hother]

theorem done_foldl_release (jobs : List α) :
    (jobs.foldl (a.release job) p).done = p.done := by
  induction jobs generalizing p with
  | nil => rfl
  | cons first jobs ih =>
    rw [List.foldl_cons, ih]
    unfold release
    split <;> rfl

/-- What is not in a list is not in a longer one, or it is the element that is added. -/
theorem countP_append_singleton {done : List α} (h : job ∉ done) (l : List α) :
    l.countP (· ∉ done) = l.countP (· ∉ done ++ [job]) + l.count job := by
  induction l with
  | nil => rfl
  | cons x l ih =>
    rw [List.countP_cons, List.countP_cons, List.count_cons, ih]
    by_cases hx : x = job
    · simp [hx, h]
      omega
    · simp [hx]
      omega

theorem pending_finish : (a.finish job p).pending other =
    p.pending other - if job ∈ a.requires other then (a.jobs.count other : Int) else 0 :=
  pending_foldl_release a.jobs

theorem done_finish : (a.finish job p).done = p.done ++ [job] := done_foldl_release a.jobs

/-- The requirements of a job that are pending are those that are not done, and what is done is in
order. -/
structure Counted (a : Agenda α) (p : Progress α) : Prop where
  consistent : a.Consistent p
  pending_eq : ∀ job ∈ a.jobs, p.pending job = (a.requires job).countP (· ∉ p.done)
  isOrdered : IsOrdered a.requires p.done

theorem counted_start (a : Agenda α) : a.Counted a.start where
  consistent := a.consistent_start
  pending_eq job _ := by simp [start]
  isOrdered := isOrdered_nil a.requires

/-- When nothing that a job requires is pending, all of it is done. -/
theorem Counted.mem_done (h : a.Counted p) (hjob : job ∈ p.done ++ p.ready)
    (hother : other ∈ a.requires job) : other ∈ p.done := by
  have hgiven := h.consistent.subset job hjob
  have hzero := (h.consistent.pending_le_iff job hgiven).mpr hjob
  rw [h.pending_eq job hgiven] at hzero
  have hnone : (a.requires job).countP (· ∉ p.done) = 0 := by omega
  simpa using List.countP_eq_zero.mp hnone other hother

theorem Counted.finish {ready : List α} (hnodup : a.jobs.Nodup) (h : a.Counted p)
    (hready : p.ready = job :: ready) : a.Counted (a.finish job { p with ready }) := by
  have hmem : job ∈ p.done ++ p.ready := by simp [hready]
  refine ⟨h.consistent.finish hready, fun other hother => ?_, ?_⟩
  · have hnew : job ∉ p.done := by
      have hnodup := h.consistent.nodup
      rw [hready] at hnodup
      exact fun hmem => List.disjoint_of_nodup_append hnodup hmem List.mem_cons_self
    have hcount := countP_append_singleton hnew (a.requires other)
    rw [pending_finish, done_finish, List.count_eq_one_of_mem hnodup hother,
      h.pending_eq other hother, hcount, (a.nodup_requires other).count]
    split <;> simp
  · rw [done_finish]
    exact h.isOrdered.append fun other hother => h.mem_done hmem hother

/-! ## The order -/

/-- When no job is ready any more, those that are done are jobs that were given, each of them
once. -/
theorem consistent_drain (a : Agenda α) :
    (a.drain a.start).done.Nodup ∧ ∀ job ∈ (a.drain a.start).done, job ∈ a.jobs := by
  obtain ⟨h, hready⟩ := drain_induction (P := a.Consistent)
    (fun _ _ _ h hready => h.finish hready) a.consistent_start
  have hnodup := h.nodup
  have hsubset := h.subset
  rw [hready, List.append_nil] at hnodup hsubset
  exact ⟨hnodup, hsubset⟩

/-- If no job is given twice, a job that is not done in the end requires one that is not done. -/
theorem counted_drain (hnodup : a.jobs.Nodup) : IsOrdered a.requires (a.drain a.start).done ∧
    ∀ job ∈ a.jobs, job ∉ (a.drain a.start).done →
      ∃ other ∈ a.requires job, other ∉ (a.drain a.start).done := by
  obtain ⟨h, hready⟩ := drain_induction (P := a.Counted)
    (fun _ _ _ h hready => h.finish hnodup hready) a.counted_start
  refine ⟨h.isOrdered, fun job hjob hopen => ?_⟩
  have hiff := h.consistent.pending_le_iff job hjob
  rw [hready, List.append_nil, h.pending_eq job hjob] at hiff
  have hpos : 0 < (a.requires job).countP (· ∉ (a.drain a.start).done) := by
    by_contra hzero
    exact hopen (hiff.mp (by omega))
  obtain ⟨other, hother, hnot⟩ := List.countP_pos_iff.mp hpos
  exact ⟨other, hother, by simpa using hnot⟩

/-- If all jobs get done, each was given once, and they are done in order. -/
theorem of_order_eq_ok {order : List α} (h : a.order = .ok order) :
    order.Perm a.jobs ∧ a.jobs.Nodup ∧ IsOrdered a.requires order := by
  unfold Agenda.order at h
  dsimp only at h
  split at h
  · rename_i hlength
    obtain rfl := Except.ok.inj h
    obtain ⟨hnodup, hsubset⟩ := a.consistent_drain
    have hperm := (hnodup.subperm hsubset).perm_of_length_le hlength.ge
    have hjobs := hperm.nodup_iff.mp hnodup
    exact ⟨hperm, hjobs, (counted_drain hjobs).1⟩
  · cases h

/-- Jobs of which none is given twice, none requires what is not given and none requires itself over
any number of steps all get done. -/
theorem exists_order {jobs : List α} {requires : α → List α} (hnodup : jobs.Nodup)
    (hclosed : ∀ job ∈ jobs, ∀ other ∈ requires job, other ∈ jobs)
    (hacyclic : ∀ job, ¬ Relation.TransGen (Requires jobs requires) job job) :
    ∃ order, (ofJobs jobs requires).order = .ok order := by
  obtain ⟨hdone, hsubset⟩ := (ofJobs jobs requires).consistent_drain
  obtain ⟨-, hstuck⟩ := counted_drain (a := ofJobs jobs requires) (by rwa [ofJobs_jobs])
  rw [ofJobs_jobs] at hsubset hstuck
  refine ⟨_, if_pos ?_⟩
  rw [ofJobs_jobs]
  generalize ((ofJobs jobs requires).drain (ofJobs jobs requires).start).done = done at *
  have hall : ∀ job ∈ jobs, job ∈ done := by
    by_contra hnot
    push Not at hnot
    obtain ⟨job, hjob, hopen⟩ := hnot
    -- Every job that is left over requires another one that is left over.
    obtain ⟨top, hcycle⟩ := exists_transGen_self (r := Requires jobs requires)
      (l := jobs.filter (· ∉ done))
      (List.ne_nil_of_mem (List.mem_filter.mpr ⟨hjob, by simpa using hopen⟩)) fun job hjob => by
        obtain ⟨hgiven, hopen⟩ := List.mem_filter.mp hjob
        obtain ⟨other, hother, hleft⟩ := hstuck job hgiven (by simpa using hopen)
        have hrequired := (mem_requires_ofJobs hgiven).mp hother
        refine ⟨other, List.mem_filter.mpr ⟨hclosed job hgiven other hrequired, ?_⟩,
          hgiven, hrequired⟩
        simpa using hleft
    exact hacyclic top hcycle
  exact ((List.perm_ext_iff_of_nodup hdone hnodup).mpr fun job =>
    ⟨hsubset job, hall job⟩).length_eq

/-- Jobs that are given one after the other have an order exactly if none is given twice, all that
is required is given, and none requires itself over any number of steps. The order has every job
once, behind all that it requires. Without one there is an error, and whatever doing a job
means, none is done. -/
theorem order_exact (jobs : List α) (requires : α → List α) :
    ((∃ order, (ofJobs jobs requires).order = .ok order) ↔
        jobs.Nodup ∧ (∀ job ∈ jobs, ∀ other ∈ requires job, other ∈ jobs) ∧
          ∀ job, ¬ Relation.TransGen (Requires jobs requires) job job) ∧
      (∀ order, (ofJobs jobs requires).order = .ok order →
        order.Perm jobs ∧ IsOrdered requires order) ∧
      ((∀ order, (ofJobs jobs requires).order ≠ .ok order) →
        (ofJobs jobs requires).order = .error .circular ∧
          ∀ {m : Type → Type} {σ : Type} [Monad m] [MonadExcept ScheduleError m]
            (run : α → σ → m σ) (s : σ),
            (ofJobs jobs requires).runAll run s = throw .circular) := by
  have hok : ∀ order, (ofJobs jobs requires).order = .ok order →
      jobs.Nodup ∧ order.Perm jobs ∧ IsOrdered requires order := by
    intro order h
    obtain ⟨hperm, hnodup, hordered⟩ := of_order_eq_ok h
    rw [ofJobs_jobs] at hperm hnodup
    refine ⟨hnodup, hperm, fun before job after heq other hother => ?_⟩
    have hjob : job ∈ jobs := hperm.mem_iff.mp (heq ▸ List.mem_append_right _ List.mem_cons_self)
    exact hordered before job after heq other ((mem_requires_ofJobs hjob).mpr hother)
  refine ⟨⟨fun ⟨order, h⟩ => ?_, fun ⟨hnodup, hclosed, hacyclic⟩ => ?_⟩,
    fun order h => (hok order h).2, fun hnone => ?_⟩
  · obtain ⟨hnodup, hperm, hordered⟩ := hok order h
    refine ⟨hnodup, fun job hjob other hother => ?_, ?_⟩
    · obtain ⟨before, after, heq⟩ := List.append_of_mem (hperm.mem_iff.mpr hjob)
      have hbefore := hordered before job after heq other hother
      exact hperm.mem_iff.mp (heq ▸ List.mem_append_left _ hbefore)
    · exact hordered.acyclic (hperm.nodup_iff.mpr hnodup) fun job => hperm.mem_iff.mpr
  · exact exists_order hnodup hclosed hacyclic
  · have herror : (ofJobs jobs requires).order = .error .circular := by
      cases h : (ofJobs jobs requires).order with
      | ok order => exact absurd h (hnone order)
      | error e => rfl
    refine ⟨herror, fun run s => ?_⟩
    rw [runAll, herror]

/-- Jobs that are given before what they require. -/
theorem order_exact_diamond :
    let requires (job : String) : List String :=
      if job = "d" then ["b", "c"] else if job = "a" then [] else ["a"]
    (ofJobs ["d", "c", "b", "a"] requires).order = .ok ["a", "c", "b", "d"] ∧
      ["a", "c", "b", "d"].Perm ["d", "c", "b", "a"] ∧
      IsOrdered requires ["a", "c", "b", "d"] := by
  intro requires
  have h : (ofJobs ["d", "c", "b", "a"] requires).order = .ok ["a", "c", "b", "d"] := by
    decide +kernel
  exact ⟨h, (order_exact _ _).2.1 _ h⟩

/-- A job that is given twice is counted down twice, and does not get ready. -/
example : schedule? ["a", "b", "b"] (fun job => if job = "b" then ["a"] else []) = none := by
  decide +kernel

end Agenda
end MessageLang
