import ByoRedis.Lib.Liveness
import Mathlib.Data.List.Forall2
import Mathlib.Data.List.Perm.Basic
import Mathlib.Data.Prod.Lex

/-!
Jobs that are handed to a pool of workers, or done by the one who hands them out.

The queue, its lock and its condition variable are seen from outside: a worker tests the queue in
one step, where it takes a job or begins to wait; a job is pushed and the workers are signalled in
one step; and a worker that waits may be woken at any time. No job is lost and none is done twice,
a job that is queued always has a worker that is not waiting, and where the workers go on, every job
is done in the end.
-/

namespace ByoRedis.Lib.WorkQueue

open ByoRedis.Lib.Liveness
open scoped List

variable {J : Type*}

inductive Worker (J : Type*)
  /-- About to test the queue. -/
  | ready
  | waiting
  | running (job : J)
  deriving DecidableEq

/-- The job a worker is running. -/
def Worker.job : Worker J → Option J
  | .running job => some job
  | _ => none

@[simp] lemma Worker.job_ready : (Worker.ready : Worker J).job = none := rfl

@[simp] lemma Worker.job_waiting : (Worker.waiting : Worker J).job = none := rfl

@[simp] lemma Worker.job_running (job : J) : (Worker.running job).job = some job := rfl

def running (ws : List (Worker J)) : List J := ws.filterMap Worker.job

/-- Some of the workers that wait are woken. -/
def Woken : List (Worker J) → List (Worker J) → Prop :=
  List.Forall₂ fun w w' => w' = w ∨ w = .waiting ∧ w' = .ready

/-- A signal wakes a worker that waits, and maybe more of them, where there is one. -/
def Signal (ws ws' : List (Worker J)) : Prop := Woken ws ws' ∧ (.waiting ∈ ws → ws' ≠ ws)

structure State (J : Type*) where
  queue : List J
  workers : List (Worker J)
  /-- The jobs ever given out. -/
  given : List J
  done : List J

inductive Step : State J → State J → Prop
  /-- A job is pushed and a worker is signalled. -/
  | push {s : State J} {ws : List (Worker J)} (job : J) (hs : Signal s.workers ws) :
    Step s { s with queue := s.queue ++ [job], workers := ws, given := s.given ++ [job] }
  /-- A job is done at once by the one who gives it out. -/
  | direct {s : State J} (job : J) :
    Step s { s with given := s.given ++ [job], done := s.done ++ [job] }
  | wait {s : State J} {i : ℕ} (hw : s.workers[i]? = some .ready) (hq : s.queue = []) :
    Step s { s with workers := s.workers.set i .waiting }
  | take {s : State J} {i : ℕ} {job : J} {rest : List J} (hw : s.workers[i]? = some .ready)
    (hq : s.queue = job :: rest) :
    Step s { s with queue := rest, workers := s.workers.set i (.running job) }
  /-- A worker that waits is woken without a signal. -/
  | wake {s : State J} {i : ℕ} (hw : s.workers[i]? = some .waiting) :
    Step s { s with workers := s.workers.set i .ready }
  | finish {s : State J} {i : ℕ} {job : J} (hw : s.workers[i]? = some (.running job)) :
    Step s { s with workers := s.workers.set i .ready, done := s.done ++ [job] }

/-! ### Workers -/

lemma running_cons (w : Worker J) (ws : List (Worker J)) :
    running (w :: ws) = w.job.toList ++ running ws := by
  cases h : w.job <;> simp [running, h]

lemma mem_running {ws : List (Worker J)} {job : J} : job ∈ running ws ↔ .running job ∈ ws := by
  rw [running, List.mem_filterMap]
  constructor
  · rintro ⟨w, hw, hj⟩
    cases w with
    | running j =>
      rw [Worker.job_running, Option.some.injEq] at hj
      rwa [← hj]
    | ready | waiting => simp at hj
  · exact fun hw => ⟨_, hw, rfl⟩

lemma running_set {ws : List (Worker J)} {i : ℕ} {w : Worker J} (hw : ws[i]? = some w)
    (w' : Worker J) : w.job.toList ++ running (ws.set i w') ~ w'.job.toList ++ running ws := by
  obtain ⟨hi, rfl⟩ := List.getElem?_eq_some_iff.mp hw
  have hset : ws.set i w' ~ w' :: ws.eraseIdx i := List.set_perm_cons_eraseIdx hi w'
  have hget : ws[i] :: ws.eraseIdx i ~ ws := List.getElem_cons_eraseIdx_perm hi
  calc ws[i].job.toList ++ running (ws.set i w')
    _ ~ ws[i].job.toList ++ running (w' :: ws.eraseIdx i) := (hset.filterMap _).append_left _
    _ = ws[i].job.toList ++ w'.job.toList ++ running (ws.eraseIdx i) := by
      rw [running_cons, List.append_assoc]
    _ ~ w'.job.toList ++ ws[i].job.toList ++ running (ws.eraseIdx i) :=
      List.perm_append_comm.append_right _
    _ = w'.job.toList ++ running (ws[i] :: ws.eraseIdx i) := by
      rw [running_cons, List.append_assoc]
    _ ~ w'.job.toList ++ running ws := (hget.filterMap _).append_left _

/-- A worker that waits runs nothing, and neither does one that was just woken. -/
lemma Woken.running {ws ws' : List (Worker J)} (h : Woken ws ws') : running ws' = running ws := by
  induction h with
  | nil => rfl
  | cons hw _ ih =>
    rw [running_cons, running_cons, ih]
    rcases hw with rfl | ⟨rfl, rfl⟩ <;> rfl

lemma Woken.eq_of_ready {ws ws' : List (Worker J)} (h : Woken ws ws')
    (hno : ∀ w ∈ ws', w = .waiting) : ws' = ws := by
  induction h with
  | nil => rfl
  | cons hw _ ih =>
    rcases hw with rfl | ⟨-, rfl⟩
    · rw [ih fun w hw => hno w (List.mem_cons_of_mem _ hw)]
    · exact absurd (hno _ List.mem_cons_self) (by simp)

/-- After a signal some worker is not waiting. -/
lemma Signal.awake {ws ws' : List (Worker J)} (h : Signal ws ws') (hne : ws ≠ []) :
    ∃ w ∈ ws', w ≠ .waiting := by
  by_contra hno
  push Not at hno
  have heq := h.1.eq_of_ready hno
  obtain ⟨w, hw⟩ := List.exists_mem_of_ne_nil ws hne
  have hwait : w = .waiting := hno w (heq ▸ hw)
  exact h.2 (hwait ▸ hw) heq

def Worker.woken : Worker J → Worker J
  | .waiting => .ready
  | w => w

lemma signal_all (ws : List (Worker J)) : Signal ws (ws.map Worker.woken) := by
  constructor
  · induction ws with
    | nil => exact .nil
    | cons w ws ih =>
      refine .cons ?_ ih
      cases w with
      | waiting => exact .inr ⟨rfl, rfl⟩
      | ready | running => exact .inl rfl
  · intro hw heq
    rw [← heq] at hw
    obtain ⟨w, -, h⟩ := List.mem_map.mp hw
    cases w <;> simp [Worker.woken] at h

/-! ### What holds of every run -/

structure Inv (s : State J) : Prop where
  /-- Every job is queued, is being run, or is done, each in as many places as it was given. -/
  split : s.given ~ s.queue ++ running s.workers ++ s.done
  staffed : s.workers ≠ []
  /-- No wake-up is lost. -/
  awake : s.queue ≠ [] → ∃ w ∈ s.workers, w ≠ .waiting

lemma awake_set {ws : List (Worker J)} {i : ℕ} {w w' : Worker J} (hw : ws[i]? = some w)
    (hne : w' ≠ .waiting) : ∃ v ∈ ws.set i w', v ≠ .waiting := by
  obtain ⟨hi, -⟩ := List.getElem?_eq_some_iff.mp hw
  exact ⟨w', List.mem_set hi w', hne⟩

theorem Step.inv {s s' : State J} (h : Step s s') (hi : Inv s) : Inv s' := by
  obtain ⟨hsplit, hne, hawake⟩ := hi
  cases h with
  | @push ws job hs =>
    refine ⟨?_, ?_, fun _ => hs.awake hne⟩
    · dsimp only
      rw [hs.1.running]
      calc s.given ++ [job]
        _ ~ s.queue ++ running s.workers ++ s.done ++ [job] := hsplit.append_right _
        _ = s.queue ++ (running s.workers ++ s.done ++ [job]) := by simp only [List.append_assoc]
        _ ~ s.queue ++ ([job] ++ (running s.workers ++ s.done)) :=
          List.perm_append_comm.append_left _
        _ = s.queue ++ [job] ++ running s.workers ++ s.done := by simp only [List.append_assoc]
    · intro hnil
      obtain ⟨w, hw, -⟩ := hs.awake hne
      dsimp only at hnil
      rw [hnil] at hw
      simp at hw
  | direct job =>
    refine ⟨?_, hne, hawake⟩
    dsimp only
    rw [← List.append_assoc]
    exact hsplit.append_right _
  | @wait i hw hq =>
    refine ⟨?_, by simpa using hne, fun hq' => absurd hq hq'⟩
    have hrun := running_set hw .waiting
    rw [Worker.job_ready, Worker.job_waiting] at hrun
    exact hsplit.trans ((hrun.symm.append_left _).append_right _)
  | @take i job rest hw hq =>
    refine ⟨?_, by simpa using hne, fun _ => awake_set hw (by simp)⟩
    have hrun := running_set hw (.running job)
    rw [Worker.job_ready, Worker.job_running] at hrun
    calc s.given
      _ ~ s.queue ++ running s.workers ++ s.done := hsplit
      _ = [job] ++ rest ++ (running s.workers ++ s.done) := by rw [hq]; simp
      _ ~ rest ++ [job] ++ (running s.workers ++ s.done) := List.perm_append_comm.append_right _
      _ = rest ++ ([job] ++ running s.workers) ++ s.done := by simp only [List.append_assoc]
      _ ~ rest ++ running (s.workers.set i (.running job)) ++ s.done :=
        (hrun.symm.append_left _).append_right _
  | @wake i hw =>
    refine ⟨?_, by simpa using hne, fun _ => awake_set hw (by simp)⟩
    have hrun := running_set hw .ready
    rw [Worker.job_ready, Worker.job_waiting] at hrun
    exact hsplit.trans ((hrun.symm.append_left _).append_right _)
  | @finish i job hw =>
    refine ⟨?_, by simpa using hne, fun _ => awake_set hw (by simp)⟩
    have hrun := running_set hw .ready
    rw [Worker.job_ready, Worker.job_running] at hrun
    calc s.given
      _ ~ s.queue ++ running s.workers ++ s.done := hsplit
      _ ~ s.queue ++ ([job] ++ running (s.workers.set i .ready)) ++ s.done :=
        (hrun.symm.append_left _).append_right _
      _ ~ s.queue ++ (running (s.workers.set i .ready) ++ [job]) ++ s.done :=
        (List.perm_append_comm.append_left _).append_right _
      _ = s.queue ++ running (s.workers.set i .ready) ++ ([job] ++ s.done) := by
        simp only [List.append_assoc]
      _ ~ s.queue ++ running (s.workers.set i .ready) ++ (s.done ++ [job]) :=
        List.perm_append_comm.append_left _

lemma inv_start {ws : List (Worker J)} (hne : ws ≠ []) (hready : ∀ w ∈ ws, w = .ready) :
    Inv ⟨[], ws, [], []⟩ := by
  have hrun : running ws = [] := by
    rw [running, List.filterMap_eq_nil_iff]
    intro w hw
    rw [hready w hw, Worker.job_ready]
  refine ⟨?_, hne, fun h => absurd rfl h⟩
  dsimp only
  rw [hrun]
  exact .nil

/-! ### Every job is done -/

/-- The worker does not wait to be woken. -/
def Awake (s : State J) (i : ℕ) : Prop := ∃ w, s.workers[i]? = some w ∧ w ≠ .waiting

/-- A step of this worker. -/
inductive Takes (s : State J) (i : ℕ) : State J → Prop
  | wait (hw : s.workers[i]? = some .ready) (hq : s.queue = []) :
    Takes s i { s with workers := s.workers.set i .waiting }
  | take {job : J} {rest : List J} (hw : s.workers[i]? = some .ready) (hq : s.queue = job :: rest) :
    Takes s i { s with queue := rest, workers := s.workers.set i (.running job) }
  | finish {job : J} (hw : s.workers[i]? = some (.running job)) :
    Takes s i { s with workers := s.workers.set i .ready, done := s.done ++ [job] }

lemma running_set_perm {ws : List (Worker J)} {i : ℕ} {w w' : Worker J} (hw : ws[i]? = some w)
    (hsame : w'.job = w.job) : running (ws.set i w') ~ running ws := by
  have h := running_set hw w'
  rw [hsame] at h
  exact (List.perm_append_left_iff _).mp h

lemma running_take {ws : List (Worker J)} {i : ℕ} (hw : ws[i]? = some .ready) (job : J) :
    running (ws.set i (.running job)) ~ job :: running ws := running_set hw (.running job)

lemma running_finish {ws : List (Worker J)} {i : ℕ} {job : J}
    (hw : ws[i]? = some (.running job)) : job :: running (ws.set i .ready) ~ running ws :=
  running_set hw .ready

lemma Woken.getElem? {ws ws' : List (Worker J)} (h : Woken ws ws') {i : ℕ} {w : Worker J}
    (hw : ws[i]? = some w) (hne : w ≠ .waiting) : ws'[i]? = some w := by
  induction h generalizing i with
  | nil => simp at hw
  | cons hv _ ih =>
    cases i with
    | zero =>
      rw [List.getElem?_cons_zero, Option.some.injEq] at hw ⊢
      subst hw
      exact hv.resolve_right fun hwait => hne hwait.1
    | succ i =>
      rw [List.getElem?_cons_succ] at hw ⊢
      exact ih hw

lemma getElem?_set_of_ne {ws : List (Worker J)} {i k : ℕ} {w v : Worker J} (hw : ws[i]? = some w)
    (hv : ws[k]? = some v) (hne : w ≠ v) (w' : Worker J) : (ws.set i w')[k]? = some v := by
  rw [List.getElem?_set_ne, hv]
  rintro rfl
  exact hne (Option.some.inj (hw.symm.trans hv))

variable {s s' : State J} {job j : J} {i : ℕ}

lemma Step.given (h : Step s s') (hg : job ∈ s.given) : job ∈ s'.given := by
  cases h <;> simp [hg]

/-- The workers that a job waits for: the one that runs it, or any that is awake. -/
def Helps (job : J) (s : State J) (i : ℕ) : Prop :=
  job ∉ s.done ∧ (s.workers[i]? = some (.running job) ∨
    job ∉ running s.workers ∧ job ∈ s.queue ∧ Awake s i)

/-- Somebody helps, until the job is done. -/
lemma Inv.exists_helps (hi : Inv s) (hg : job ∈ s.given) (hd : job ∉ s.done) :
    ∃ i, Helps job s i := by
  have hmem := hi.split.mem_iff.mp hg
  rw [List.mem_append, List.mem_append] at hmem
  by_cases hrun : job ∈ running s.workers
  · obtain ⟨i, hw⟩ := List.mem_iff_getElem?.mp (mem_running.mp hrun)
    exact ⟨i, hd, .inl hw⟩
  · have hq := (hmem.resolve_right hd).resolve_right hrun
    obtain ⟨w, hw, hne⟩ := hi.awake (List.ne_nil_of_mem hq)
    obtain ⟨i, hw⟩ := List.mem_iff_getElem?.mp hw
    exact ⟨i, hd, .inr ⟨hrun, hq, w, hw, hne⟩⟩

lemma Helps.awake (h : Helps job s i) : Awake s i := by
  obtain ⟨-, hw | ⟨-, -, hw⟩⟩ := h
  · exact ⟨_, hw, by simp⟩
  · exact hw

variable [DecidableEq J]

/-- How much is done before a job is: the jobs before it are taken, one after the other, by workers
that may have others to finish first. -/
def ahead (s : State J) (job : J) : ℕ ×ₗ ℕ :=
  if job ∈ s.done then toLex (0, 0)
  else if job ∈ running s.workers then toLex (1, 0)
  else toLex (s.queue.idxOf job + 2, (running s.workers).length)

lemma ahead_of_done (h : job ∈ s.done) : ahead s job = toLex (0, 0) := if_pos h

lemma ahead_of_running (hd : job ∉ s.done) (hr : job ∈ running s.workers) :
    ahead s job = toLex (1, 0) := by
  rw [ahead, if_neg hd, if_pos hr]

lemma ahead_of_queued (hd : job ∉ s.done) (hr : job ∉ running s.workers) :
    ahead s job = toLex (s.queue.idxOf job + 2, (running s.workers).length) := by
  rw [ahead, if_neg hd, if_neg hr]

lemma ahead_done_lt (hd : job ∉ s.done) (hd' : job ∈ s'.done) : ahead s' job < ahead s job := by
  rw [ahead_of_done hd', ahead, if_neg hd]
  split_ifs <;> simp [Prod.Lex.toLex_lt_toLex]

lemma ahead_congr (hq : job ∈ s.queue → s'.queue.idxOf job = s.queue.idxOf job)
    (hr : running s'.workers ~ running s.workers) (hd : job ∈ s'.done ↔ job ∈ s.done)
    (hi : Inv s) (hg : job ∈ s.given) : ahead s' job = ahead s job := by
  unfold ahead
  rw [hr.length_eq]
  simp only [hr.mem_iff, hd]
  split_ifs with hdone hrun
  · rfl
  · rfl
  · have hmem := hi.split.mem_iff.mp hg
    rw [hq (by simpa [hdone, hrun] using hmem)]

lemma ahead_take {rest : List J} (hw : s.workers[i]? = some .ready) (hq : s.queue = j :: rest) :
    let s' : State J := { s with queue := rest, workers := s.workers.set i (.running j) }
    (job ∈ s.done ∨ job ∈ running s.workers) ∧ ahead s' job = ahead s job ∨
      ahead s' job < ahead s job := by
  intro s'
  have hr := running_take hw j
  by_cases hd : job ∈ s.done
  · exact .inl ⟨.inl hd, (ahead_of_done (s := s') hd).trans (ahead_of_done hd).symm⟩
  by_cases hrun : job ∈ running s.workers
  · refine .inl ⟨.inr hrun, ?_⟩
    have hrun' : job ∈ running s'.workers := hr.mem_iff.mpr (List.mem_cons_of_mem _ hrun)
    exact (ahead_of_running (s := s') hd hrun').trans (ahead_of_running hd hrun).symm
  refine .inr ?_
  rw [ahead_of_queued hd hrun, hq]
  by_cases hj : j = job
  · rw [ahead_of_running (s := s') hd (hr.mem_iff.mpr (by simp [hj])), Prod.Lex.toLex_lt_toLex]
    exact .inl (Nat.succ_lt_succ (Nat.succ_pos _))
  · have hrun' : job ∉ running s'.workers := fun h => by
      have hmem := hr.mem_iff.mp h
      simp [Ne.symm hj, hrun] at hmem
    rw [ahead_of_queued (s := s') hd hrun', List.idxOf_cons_ne _ hj, Prod.Lex.toLex_lt_toLex]
    exact .inl (Nat.lt_succ_self _)

lemma ahead_finish (hw : s.workers[i]? = some (.running j)) :
    let s' : State J := { s with workers := s.workers.set i .ready, done := s.done ++ [j] }
    (job ∈ s.done ∨ job ∈ running s.workers) ∧ ahead s' job = ahead s job ∨
      ahead s' job < ahead s job := by
  intro s'
  have hr := running_finish hw
  by_cases hd : job ∈ s.done
  · refine .inl ⟨.inl hd, (ahead_of_done (s := s') ?_).trans (ahead_of_done hd).symm⟩
    exact List.mem_append_left _ hd
  by_cases hj : j = job
  · exact .inr (ahead_done_lt hd (List.mem_append_right _ (by simp [hj])))
  have hd' : job ∉ s'.done := by
    simp [s', hd, Ne.symm hj]
  have hmem : job ∈ running s.workers ↔ job ∈ running s'.workers := by
    rw [← hr.mem_iff, List.mem_cons]
    exact or_iff_right (Ne.symm hj)
  by_cases hrun : job ∈ running s.workers
  · refine .inl ⟨.inr hrun, ?_⟩
    exact (ahead_of_running hd' (hmem.mp hrun)).trans (ahead_of_running hd hrun).symm
  · refine .inr ?_
    rw [ahead_of_queued hd hrun, ahead_of_queued hd' (mt hmem.mpr hrun), Prod.Lex.toLex_lt_toLex]
    exact .inr ⟨rfl, (Nat.lt_succ_self _).trans_eq hr.length_eq⟩

/-- **Every step** does something before a job, or nothing. -/
lemma Step.ahead_le (h : Step s s') (hi : Inv s) (hg : job ∈ s.given) :
    ahead s' job ≤ ahead s job := by
  cases h with
  | @push ws j hs =>
    refine le_of_eq (ahead_congr (fun hq => ?_) ?_ Iff.rfl hi hg)
    · exact List.idxOf_append_of_mem hq
    · rw [hs.1.running]
  | direct j =>
    by_cases hd : job ∈ s.done
    · refine le_of_eq (ahead_congr (fun _ => rfl) (List.Perm.refl _) ?_ hi hg)
      simp [hd]
    · by_cases hj : j = job
      · exact (ahead_done_lt hd (by simp [hj])).le
      · refine le_of_eq (ahead_congr (fun _ => rfl) (List.Perm.refl _) ?_ hi hg)
        simp [Ne.symm hj]
  | @wait i hw hq =>
    exact le_of_eq (ahead_congr (fun _ => rfl) (running_set_perm hw rfl) Iff.rfl hi hg)
  | @wake i hw =>
    exact le_of_eq (ahead_congr (fun _ => rfl) (running_set_perm hw rfl) Iff.rfl hi hg)
  | @take i j rest hw hq => exact (ahead_take hw hq).elim (fun h => h.2.le) le_of_lt
  | @finish i j hw => exact (ahead_finish hw).elim (fun h => h.2.le) le_of_lt

lemma Helps.takes (h : Helps job s i) (ht : Takes s i s') : ahead s' job < ahead s job := by
  obtain ⟨hd, hrun | ⟨hrun, hq, -⟩⟩ := h
  · cases ht with
    | wait hw | take hw =>
      rw [hrun] at hw
      cases hw
    | finish hw =>
      rw [hrun, Option.some.injEq, Worker.running.injEq] at hw
      exact ahead_done_lt hd (by simp [hw])
  · have hnot : ¬ (job ∈ s.done ∨ job ∈ running s.workers) := not_or.mpr ⟨hd, hrun⟩
    cases ht with
    | wait hw hnil => simp [hnil] at hq
    | take hw hcons => exact (ahead_take hw hcons).resolve_left fun h => hnot h.1
    | finish hw => exact (ahead_finish hw).resolve_left fun h => hnot h.1

/-- **A helper is one** until something is done before the job. -/
lemma Helps.keep (h : Helps job s i) (hstep : Step s s') (heq : ahead s' job = ahead s job) :
    Helps job s' i := by
  obtain ⟨hd, hhelp⟩ := h
  have hd' : job ∉ s'.done := fun hd' => (ahead_done_lt hd hd').ne heq
  refine ⟨hd', ?_⟩
  cases hstep with
  | @push ws j hs =>
    refine hhelp.imp (fun hw => hs.1.getElem? hw (by simp)) fun ⟨hrun, hq, w, hw, hne⟩ => ?_
    refine ⟨?_, List.mem_append_left _ hq, w, hs.1.getElem? hw hne, hne⟩
    rwa [hs.1.running]
  | direct j => exact hhelp
  | @wait k hw hnil =>
    refine hhelp.imp (fun hv => getElem?_set_of_ne hw hv (by simp) _) fun ⟨_, hq, _⟩ => ?_
    simp [hnil] at hq
  | @wake k hw =>
    refine hhelp.imp (fun hv => getElem?_set_of_ne hw hv (by simp) _)
      fun ⟨hrun, hq, w, hv, hne⟩ => ⟨?_, hq, w, getElem?_set_of_ne hw hv hne.symm _, hne⟩
    have hsame : running (s.workers.set k .ready) ~ running s.workers := running_set_perm hw rfl
    exact fun h => hrun (hsame.mem_iff.mp h)
  | @take k j rest hw hcons =>
    refine hhelp.imp (fun hv => getElem?_set_of_ne hw hv (by simp) _) fun ⟨hrun, _⟩ => ?_
    refine absurd heq ((ahead_take hw hcons).resolve_left fun h => ?_).ne
    exact h.1.elim hd hrun
  | @finish k j hw =>
    refine hhelp.imp (fun hv => ?_) fun ⟨hrun, _⟩ => ?_
    · refine getElem?_set_of_ne hw hv ?_ _
      rintro hj
      rw [Worker.running.injEq] at hj
      exact hd' (by simp [hj])
    · refine absurd heq ((ahead_finish hw).resolve_left fun h => ?_).ne
      exact h.1.elim hd hrun

/-- **Every job is done.** Where no worker that is awake is put off for ever, a job that was given
out is done in the end, whatever is given out in the meantime. -/
theorem done_of_fair {run : ℕ → State J} (hi : Inv (run 0))
    (hstep : ∀ n, run (n + 1) = run n ∨ Step (run n) (run (n + 1))) (hfair : Fair Awake Takes run)
    (hg : job ∈ (run 0).given) : ∃ n, job ∈ (run n).done := by
  have hinv : ∀ n, Inv (run n) ∧ job ∈ (run n).given := by
    intro n
    induction n with
    | zero => exact ⟨hi, hg⟩
    | succ n ih =>
      rcases hstep n with heq | hs
      · rwa [heq]
      · exact ⟨hs.inv ih.1, hs.given ih.2⟩
  refine Fair.reaches (hfair.mono fun s k h => h.awake) (fun s => job ∈ s.done)
    (fun s => ahead s job) (fun n => ?_) (fun n k hk heq => ?_) (fun n k hk ht => hk.takes ht)
    fun n hd => (hinv n).1.exists_helps (hinv n).2 hd
  · rcases hstep n with heq | hs
    · rw [heq]
    · exact hs.ahead_le (hinv n).1 (hinv n).2
  · rcases hstep n with hsame | hs
    · rwa [hsame]
    · exact hk.keep hs heq

end ByoRedis.Lib.WorkQueue
