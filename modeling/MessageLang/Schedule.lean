/-!
# Schedules

Jobs that require other jobs are put into an order in which every job comes after those it
requires. For each job the requirements that are still pending are counted. Jobs with none are
ready; they are done one after the other, and whatever requires a job that is done has one
requirement less, which may make it ready behind the others.

A job may be given more than once. What requires nothing is ready once all the same, and a job that
was given several times is counted down once for each time.

* `Agenda.order`: the order, or an error if not all jobs can be done.
* `Agenda.runAll`: does the jobs in their order.
-/
namespace MessageLang

/-- Jobs as they were given, one after the other, and the different jobs that each requires. -/
structure Agenda (α : Type) where
  jobs : List α
  requires : α → List α
  nodup_requires : ∀ job, (requires job).Nodup

/-- How far an agenda is done. -/
structure Progress (α : Type) where
  /-- The number of requirements of a job that are not done. -/
  pending : α → Int
  /-- The jobs that can be done next, in order. -/
  ready : List α
  /-- The jobs that are done, in order. -/
  done : List α

/-- Jobs that cannot all be done. -/
inductive ScheduleError where
  | circular
deriving DecidableEq, Repr

def ScheduleError.message : ScheduleError → String
  | circular => "Circular dependency detected in passes"

variable {α : Type} [DecidableEq α]

namespace Progress

/-- One requirement of a job less. With the last one the job gets ready. -/
def meet (p : Progress α) (job : α) : Progress α :=
  let left := p.pending job - 1
  { p with
    pending := fun other => if other = job then left else p.pending other
    ready := if left = 0 then p.ready ++ [job] else p.ready }

/-- The number of jobs, among those given, that are ready or still wait for others. -/
def work (jobs : List α) (p : Progress α) : Nat :=
  p.ready.length + jobs.countP fun job => 0 < p.pending job

/-- A job that gets ready does not wait any longer. -/
theorem work_meet_le {jobs : List α} {job : α} (h : job ∈ jobs) (p : Progress α) :
    (p.meet job).work jobs ≤ p.work jobs := by
  have hmono : ∀ other, 0 < (p.meet job).pending other → 0 < p.pending other := by
    intro other
    simp only [meet]
    split
    · rename_i heq
      subst heq
      omega
    · exact id
  have hcount (l : List α) : (l.countP fun other => 0 < (p.meet job).pending other) ≤
      l.countP fun other => 0 < p.pending other :=
    List.countP_mono_left fun other _ => by simpa using hmono other
  by_cases hlast : p.pending job = 1
  · have hready : (p.meet job).ready = p.ready ++ [job] := by simp [meet, hlast]
    have hleft : (p.meet job).pending job = 0 := by simp [meet, hlast]
    obtain ⟨before, after, rfl⟩ := List.append_of_mem h
    have hbefore := hcount before
    have hafter := hcount after
    simp only [work, hready, List.length_append, List.length_singleton, List.countP_append,
      List.countP_cons, hleft, hlast, Int.lt_irrefl, Int.zero_lt_one, decide_true, decide_false,
      if_true, Bool.false_eq_true, if_false]
    omega
  · have hready : (p.meet job).ready = p.ready := by
      simp only [meet]
      rw [if_neg (by omega)]
    have hjobs := hcount jobs
    simp only [work, hready]
    omega

end Progress

theorem nodup_eraseDups : ∀ l : List α, l.eraseDups.Nodup
  | [] => .nil
  | x :: l => by
    rw [List.eraseDups_cons]
    refine List.nodup_cons.mpr ⟨?_, nodup_eraseDups (l.filter fun y => !y == x)⟩
    simp
termination_by l => l.length
decreasing_by
  have := List.length_filter_le (fun y => !y == x) l
  simp only [List.length_cons]
  omega

namespace Agenda

def empty : Agenda α := ⟨[], fun _ => [], fun _ => .nil⟩

/-- One more job, with what it requires. -/
def add (a : Agenda α) (job : α) (required : List α) : Agenda α where
  jobs := a.jobs ++ [job]
  requires other := if other = job then required.eraseDups else a.requires other
  nodup_requires other := by
    split
    · exact nodup_eraseDups required
    · exact a.nodup_requires other

/-- The agenda of jobs that are given one after the other. -/
def ofJobs (jobs : List α) (requires : α → List α) : Agenda α :=
  jobs.foldl (fun a job => a.add job (requires job)) empty

/-- Nothing is done; what requires nothing is ready. -/
def start (a : Agenda α) : Progress α :=
  let pending job : Int := (a.requires job).length
  { pending, ready := a.jobs.eraseDups.filter fun job => pending job = 0, done := [] }

/-- A job that requires one that is done has one requirement less. -/
def release (a : Agenda α) (job : α) (p : Progress α) (other : α) : Progress α :=
  if job ∈ a.requires other then p.meet other else p

/-- A job is done: all that require it have one requirement less. -/
def finish (a : Agenda α) (job : α) (p : Progress α) : Progress α :=
  a.jobs.foldl (a.release job) { p with done := p.done ++ [job] }

theorem work_foldl_release_le {a : Agenda α} {job : α} {jobs : List α}
    (h : ∀ other ∈ jobs, other ∈ a.jobs) (p : Progress α) :
    (jobs.foldl (a.release job) p).work a.jobs ≤ p.work a.jobs := by
  induction jobs generalizing p with
  | nil => exact Nat.le_refl _
  | cons other jobs ih =>
    obtain ⟨hother, hjobs⟩ := List.forall_mem_cons.mp h
    have hrelease : (a.release job p other).work a.jobs ≤ p.work a.jobs := by
      unfold release
      split
      · exact p.work_meet_le hother
      · exact Nat.le_refl _
    exact Nat.le_trans (ih hjobs _) hrelease

/-- The work gets less with each job that is done. -/
theorem work_finish_lt (a : Agenda α) {p : Progress α} {job : α} {ready : List α}
    (h : p.ready = job :: ready) : (a.finish job { p with ready }).work a.jobs < p.work a.jobs := by
  have hle : (a.finish job { p with ready }).work a.jobs ≤ _ :=
    work_foldl_release_le (fun _ h => h) _
  have hlt : Progress.work a.jobs { p with ready, done := p.done ++ [job] } < p.work a.jobs := by
    simp [Progress.work, h]
  exact Nat.lt_of_le_of_lt hle hlt

/-- Does the jobs that are ready, one after the other, until none is. -/
def drain (a : Agenda α) (p : Progress α) : Progress α :=
  match h : p.ready with
  | [] => p
  | job :: ready =>
    have := a.work_finish_lt h
    a.drain (a.finish job { p with ready })
termination_by p.work a.jobs

/-- The order in which the jobs can be done, if all can. -/
def order (a : Agenda α) : Except ScheduleError (List α) :=
  let order := (a.drain a.start).done
  if order.length = a.jobs.length then .ok order else .error .circular

/-- Does all jobs in their order, each with what the one before it has left. -/
def runAll {m : Type → Type} {σ : Type} [Monad m] [MonadExcept ScheduleError m] (a : Agenda α)
    (run : α → σ → m σ) (s : σ) : m σ :=
  match a.order with
  | .ok order => order.foldlM (fun s job => run job s) s
  | .error e => throw e

end Agenda

/-- The order of jobs that are given one after the other, if all can be done. -/
def schedule? (jobs : List α) (requires : α → List α) : Option (List α) :=
  (Agenda.ofJobs jobs requires).order.toOption

end MessageLang
