import Mathlib.Algebra.GroupWithZero.Nat
import Mathlib.Data.List.Perm.Basic
import PlanarJoin.Query.Crew

/-!
# The results of a crew do not depend on its schedule

Each number goes off the counter to one worker, who holds that unit until it is done.  So at any
time the units below the counter are done or held, each once and by one worker, whatever the
schedule.  A worker that has finished has seen the counter beyond the last unit and holds nothing;
once all have finished, every unit is done.

A worker is never kept waiting: each step of one that has not finished brings the crew nearer to its
end, so that any schedule that comes back to each worker often enough ends.

## Main definitions

* `Crew.Moves`: what one step of a worker that has not finished can do.
* `Crew.Account`: each unit below the counter is done or held by one worker.
* `Crew.due`: how many steps the workers have still to make.

## Main results

* `Crew.Account.step`, `Crew.account_run`: a step, and any schedule of steps, keep the account.
* `Crew.Account.gathered_perm`, `Crew.Account.results`: what a crew that has finished has done.
* `Crew.isFinished_rounds`: a schedule in rounds ends.
* `inParallel_eq`: taking turns is such a schedule.
-/

namespace PlanarJoin

variable {ρ : Type}

/-- A unit with its result. -/
def doneBy (work : Nat → ρ) (i : Nat) : Nat × ρ := (i, work i)

/-! ## Workers -/

namespace Worker

/-- The unit that a worker holds. -/
def held (w : Worker ρ) : List Nat :=
  match w.phase with
  | .holding i => [i]
  | _ => []

/-- The units that a worker has claimed. -/
def claimed (w : Worker ρ) : List Nat :=
  w.done.map (·.1) ++ w.held

/-- The steps that a worker makes without another claim of a unit. -/
def due (w : Worker ρ) : Nat :=
  match w.phase with
  | .claiming => 1
  | .holding _ => 2
  | .finished => 0

@[simp]
theorem claimed_claiming (done : List (Nat × ρ)) :
    claimed ⟨.claiming, done⟩ = done.map (·.1) := List.append_nil _

@[simp]
theorem claimed_holding (i : Nat) (done : List (Nat × ρ)) :
    claimed ⟨.holding i, done⟩ = done.map (·.1) ++ [i] := rfl

@[simp]
theorem claimed_finished (done : List (Nat × ρ)) :
    claimed ⟨.finished, done⟩ = done.map (·.1) := List.append_nil _

@[simp]
theorem due_eq_zero {w : Worker ρ} : w.due = 0 ↔ w.isFinished = true := by
  obtain ⟨phase, done⟩ := w
  cases phase <;> simp [due, isFinished]

end Worker

namespace Crew

variable {units workers : Nat} {work : Nat → ρ}

/-! ## Steps -/

/-- What one step of a worker that has not finished can do. -/
inductive Moves (units : Nat) (work : Nat → ρ) : Crew ρ → Crew ρ → Prop where
  | claim {next : Nat} {done : List (Nat × ρ)} (ws ws' : List (Worker ρ)) (h : next < units) :
    Moves units work ⟨next, ws ++ ⟨.claiming, done⟩ :: ws'⟩
      ⟨next + 1, ws ++ ⟨.holding next, done⟩ :: ws'⟩
  | finish {next : Nat} {done : List (Nat × ρ)} (ws ws' : List (Worker ρ)) (h : units ≤ next) :
    Moves units work ⟨next, ws ++ ⟨.claiming, done⟩ :: ws'⟩
      ⟨next + 1, ws ++ ⟨.finished, done⟩ :: ws'⟩
  | work {next i : Nat} {done : List (Nat × ρ)} (ws ws' : List (Worker ρ)) :
    Moves units work ⟨next, ws ++ ⟨.holding i, done⟩ :: ws'⟩
      ⟨next, ws ++ ⟨.claiming, done ++ [doneBy work i]⟩ :: ws'⟩

theorem exists_around {β : Type} {l : List β} {i : Nat} {x : β} (h : l[i]? = some x) :
    ∃ xs ys, l = xs ++ x :: ys ∧ ∀ y, l.set i y = xs ++ y :: ys := by
  obtain ⟨hi, rfl⟩ := List.getElem?_eq_some_iff.mp h
  refine ⟨l.take i, l.drop (i + 1), ?_, ?_⟩
  · rw [List.getElem_cons_drop, List.take_append_drop]
  · intro y
    rw [List.set_eq_take_append_cons_drop, if_pos hi]

/-- A worker that has not finished makes a move. -/
theorem moves_step {c : Crew ρ} {i : Nat} {w : Worker ρ} (hw : c.workers[i]? = some w)
    (hf : w.isFinished = false) : Moves units work c (c.step units work i) := by
  obtain ⟨next, all⟩ := c
  obtain ⟨ws, ws', rfl, hset⟩ := exists_around hw
  obtain ⟨phase, done⟩ := w
  cases phase with
  | claiming =>
    simp only [step, hw, hset]
    by_cases hlt : next < units
    · rw [if_pos hlt]
      exact .claim ws ws' hlt
    · rw [if_neg hlt]
      exact .finish ws ws' (Nat.not_lt.mp hlt)
  | holding j =>
    simp only [step, hw, hset]
    exact .work ws ws'
  | finished => cases hf

theorem step_of_isFinished {c : Crew ρ} {i : Nat}
    (h : ∀ w, c.workers[i]? = some w → w.isFinished = true) : c.step units work i = c := by
  cases hw : c.workers[i]? with
  | none => simp only [step, hw]
  | some w =>
    obtain ⟨phase, done⟩ := w
    have hphase : phase = .finished := of_decide_eq_true (h _ hw)
    subst hphase
    simp only [step, hw]

theorem step_cases (units : Nat) (work : Nat → ρ) (c : Crew ρ) (i : Nat) :
    c.step units work i = c ∨ Moves units work c (c.step units work i) := by
  by_cases h : ∀ w, c.workers[i]? = some w → w.isFinished = true
  · exact .inl (step_of_isFinished h)
  · push Not at h
    obtain ⟨w, hw, hf⟩ := h
    exact .inr (moves_step hw (Bool.eq_false_iff.mpr hf))

/-! ## What has been done -/

/-- The units below the counter have been claimed, each once and by one worker; each result is that
of its unit; and the counter has gone beyond the units once for each worker that has finished. -/
structure Account (units workers : Nat) (work : Nat → ρ) (c : Crew ρ) : Prop where
  size : c.workers.length = workers
  claimed : (c.workers.flatMap Worker.claimed).Perm (List.range (min c.next units))
  results : ∀ d ∈ c.gathered, d.2 = work d.1
  beyond : c.workers.countP Worker.isFinished = c.next - units

theorem account_ofWorkers : Account units workers work (ofWorkers workers) where
  size := List.length_replicate
  claimed := by
    have : (List.replicate workers Worker.fresh).flatMap (Worker.claimed (ρ := ρ)) = [] := by
      simp [Worker.fresh]
    rw [ofWorkers, this, Nat.zero_min]
    exact .rfl
  results := by simp [gathered, ofWorkers, Worker.fresh]
  beyond := by simp [ofWorkers, Worker.fresh, Worker.isFinished]

/-- A move takes the next unit off the counter, or does a unit that is held. -/
theorem Account.moves {c c' : Crew ρ} (h : Account units workers work c)
    (hm : Moves units work c c') : Account units workers work c' := by
  obtain ⟨hsize, hclaimed, hresults, hbeyond⟩ := h
  cases hm with
  | @claim next done ws ws' hlt =>
    refine ⟨by simpa using hsize, ?_, by simpa [gathered] using hresults, ?_⟩
    · simp only [List.flatMap_append, List.flatMap_cons, Worker.claimed_claiming,
        Worker.claimed_holding, Nat.min_eq_left (Nat.le_of_lt hlt)] at hclaimed ⊢
      rw [Nat.min_eq_left hlt, List.range_succ]
      have hlast : (ws.flatMap Worker.claimed ++ (done.map (·.1) ++ [next] ++
          ws'.flatMap Worker.claimed)).Perm (next :: (ws.flatMap Worker.claimed ++
            (done.map (·.1) ++ ws'.flatMap Worker.claimed))) := by
        rw [List.append_assoc, ← List.append_assoc, List.singleton_append,
          ← List.append_assoc (ws.flatMap _)]
        exact List.perm_middle
      exact hlast.trans ((hclaimed.cons next).trans (List.perm_append_singleton _ _).symm)
    · simp only [List.countP_append, List.countP_cons] at hbeyond ⊢
      rw [Nat.sub_eq_zero_of_le (Nat.le_of_lt hlt)] at hbeyond
      rw [Nat.sub_eq_zero_of_le hlt]
      exact hbeyond
  | @finish next done ws ws' hge =>
    refine ⟨by simpa using hsize, ?_, by simpa [gathered] using hresults, ?_⟩
    · rw [Nat.min_eq_right hge] at hclaimed
      rw [Nat.min_eq_right (Nat.le_succ_of_le hge)]
      simpa using hclaimed
    · simp only [List.countP_append, List.countP_cons] at hbeyond ⊢
      simp [Worker.isFinished] at hbeyond ⊢
      omega
  | @work next i done ws ws' =>
    refine ⟨by simpa using hsize, by simpa [doneBy] using hclaimed, ?_, ?_⟩
    · intro d hd
      rcases List.mem_flatMap.mp hd with ⟨w, hw, hd⟩
      rw [List.mem_append, List.mem_cons] at hw
      rcases hw with hw | rfl | hw
      · exact hresults d (List.mem_flatMap.mpr ⟨w, List.mem_append_left _ hw, hd⟩)
      · rcases List.mem_append.mp hd with hd | hd
        · exact hresults d
            (List.mem_flatMap.mpr ⟨_, List.mem_append_right _ List.mem_cons_self, hd⟩)
        · rw [List.mem_singleton.mp hd]
          rfl
      · exact hresults d (List.mem_flatMap.mpr
          ⟨w, List.mem_append_right _ (List.mem_cons_of_mem _ hw), hd⟩)
    · simpa [Worker.isFinished] using hbeyond

theorem Account.step {c : Crew ρ} (h : Account units workers work c) (i : Nat) :
    Account units workers work (c.step units work i) := by
  rcases step_cases units work c i with hc | hm
  · rwa [hc]
  · exact h.moves hm

theorem Account.foldl {c : Crew ρ} (h : Account units workers work c) (schedule : List Nat) :
    Account units workers work (schedule.foldl (Crew.step units work) c) := by
  induction schedule generalizing c with
  | nil => exact h
  | cons i schedule ih => exact ih (h.step i)

theorem account_run (units workers : Nat) (work : Nat → ρ) (schedule : List Nat) :
    Account units workers work (run units work workers schedule) :=
  account_ofWorkers.foldl schedule

/-- When a crew has finished, the counter has gone beyond the units once for each worker. -/
theorem Account.next_eq {c : Crew ρ} (h : Account units workers work c) (hw : 0 < workers)
    (hf : c.isFinished = true) : c.next = units + workers := by
  have hall : c.workers.countP Worker.isFinished = c.workers.length :=
    List.countP_eq_length.mpr (List.all_eq_true.mp hf)
  have := h.beyond
  have := h.size
  omega

/-- A crew that has finished has done each unit once. -/
theorem Account.gathered_perm {c : Crew ρ} (h : Account units workers work c) (hw : 0 < workers)
    (hf : c.isFinished = true) : c.gathered.Perm ((List.range units).map (doneBy work)) := by
  have hclaimed : c.workers.flatMap Worker.claimed = c.gathered.map (·.1) := by
    rw [gathered, List.map_flatMap]
    refine List.flatMap_congr ?_
    intro w hmem
    obtain ⟨phase, done⟩ := w
    have hphase : phase = .finished := of_decide_eq_true (List.all_eq_true.mp hf _ hmem)
    subst hphase
    exact Worker.claimed_finished done
  have hids : (c.gathered.map (·.1)).Perm (List.range units) := by
    have := h.claimed
    rwa [hclaimed, h.next_eq hw hf, Nat.min_eq_right (Nat.le_add_right _ _)] at this
  have hback : (c.gathered.map (·.1)).map (doneBy work) = c.gathered := by
    rw [List.map_map]
    refine (List.map_congr_left ?_).trans (List.map_id _)
    intro d hd
    exact Prod.ext rfl (h.results d hd).symm
  rw [← hback]
  exact hids.map _

/-! ## Putting results in order -/

/-- Filling slots with the results of some units. -/
theorem getElem?_fill {done : List (Nat × ρ)} (hdone : ∀ d ∈ done, d.2 = work d.1)
    (slots : List (Option ρ)) (j : Nat) :
    (done.foldl (fun slots (i, r) => slots.set i (some r)) slots)[j]? =
      if j < slots.length ∧ j ∈ done.map (·.1) then some (some (work j)) else slots[j]? := by
  induction done generalizing slots with
  | nil => simp
  | cons d done ih =>
    rw [List.foldl_cons, ih (fun d hd => hdone d (List.mem_cons_of_mem _ hd)), List.length_set,
      List.getElem?_set, hdone d List.mem_cons_self]
    simp only [List.map_cons, List.mem_cons]
    by_cases hj : j < slots.length
    · by_cases hd : d.1 = j
      · subst hd
        simp only [hj, true_and, true_or, if_true, ite_self]
      · simp only [hd, if_false, Ne.symm hd, false_or]
    · simp only [hj, false_and, if_false]
      split
      · next hd =>
        subst hd
        rw [if_neg hj, List.getElem?_eq_none (Nat.not_lt.mp hj)]
      · rfl

/-- The results of a crew that has finished are those of the units, in order. -/
theorem Account.results_eq {c : Crew ρ} (h : Account units workers work c) (hw : 0 < workers)
    (hf : c.isFinished = true) : c.results units = (List.range units).map work := by
  have hg := h.gathered_perm hw hf
  have hslots : c.gathered.foldl (fun slots (i, r) => slots.set i (some r))
      (List.replicate units none) = (List.range units).map fun i => some (work i) := by
    refine List.ext_getElem? ?_
    intro j
    rw [getElem?_fill h.results, List.length_replicate, List.getElem?_map]
    by_cases hj : j < units
    · have hmem : j ∈ c.gathered.map (·.1) :=
        List.mem_map.mpr ⟨doneBy work j,
          hg.symm.subset (List.mem_map_of_mem (List.mem_range.mpr hj)), rfl⟩
      rw [if_pos ⟨hj, hmem⟩, List.getElem?_range hj]
      rfl
    · rw [if_neg (fun h => hj h.1), List.getElem?_eq_none (by simpa using hj),
        List.getElem?_eq_none (by simpa using hj)]
      rfl
  simp only [Crew.results, hslots]
  rw [List.filterMap_map]
  exact congrFun List.filterMap_eq_map _

/-! ## Coming to an end -/

/-- The steps that the workers have still to make: two for each unit that is not claimed, and what
each worker has to do besides. -/
def due (units : Nat) (c : Crew ρ) : Nat :=
  2 * (units - c.next) + (c.workers.map Worker.due).sum

/-- Each move is one of the steps that are due. -/
theorem Moves.due_eq {c c' : Crew ρ} (h : Moves units work c c') :
    c.due units = c'.due units + 1 := by
  cases h with
  | claim ws ws' hlt =>
    simp only [due, List.map_append, List.map_cons, List.sum_append, List.sum_cons, Worker.due]
    omega
  | finish ws ws' hge =>
    simp only [due, List.map_append, List.map_cons, List.sum_append, List.sum_cons, Worker.due]
    omega
  | work ws ws' =>
    simp only [due, List.map_append, List.map_cons, List.sum_append, List.sum_cons, Worker.due]
    omega

theorem due_step_le (c : Crew ρ) (i : Nat) : (c.step units work i).due units ≤ c.due units := by
  rcases step_cases units work c i with hc | hm
  · exact Nat.le_of_eq (congrArg _ hc)
  · exact hm.due_eq ▸ Nat.le_succ _

theorem due_foldl_le (schedule : List Nat) (c : Crew ρ) :
    (schedule.foldl (step units work) c).due units ≤ c.due units := by
  induction schedule generalizing c with
  | nil => exact Nat.le_refl _
  | cons i schedule ih => exact Nat.le_trans (ih _) (due_step_le c i)

/-- A worker that has not finished when its turn is to come: by then a step has been made. -/
theorem due_foldl_lt {schedule : List Nat} {c : Crew ρ} {i : Nat} {w : Worker ρ}
    (hi : i ∈ schedule) (hw : c.workers[i]? = some w) (hf : w.isFinished = false) :
    (schedule.foldl (step units work) c).due units < c.due units := by
  induction schedule with
  | nil => cases hi
  | cons j schedule ih =>
    have hle : (schedule.foldl (step units work) (c.step units work j)).due units ≤
        (c.step units work j).due units := due_foldl_le schedule _
    rw [List.foldl_cons]
    rcases step_cases units work c j with hc | hm
    · rcases List.mem_cons.mp hi with rfl | hi
      · have hm : Moves units work c (c.step units work i) := moves_step hw hf
        have := hm.due_eq
        omega
      · rw [hc]
        exact ih hi
    · have := hm.due_eq
      omega

theorem isFinished_of_due {c : Crew ρ} (h : c.due units = 0) : c.isFinished = true := by
  have hsum : (c.workers.map Worker.due).sum = 0 := (Nat.add_eq_zero_iff.mp h).2
  rw [isFinished, List.all_eq_true]
  intro w hmem
  exact Worker.due_eq_zero.mp
    (List.sum_eq_zero_iff_forall_eq_nat.mp hsum _ (List.mem_map_of_mem hmem))

theorem due_ofWorkers : (ofWorkers workers : Crew ρ).due units = 2 * units + workers := by
  simp [due, ofWorkers, Worker.fresh, Worker.due]

theorem isFinished_foldl {c : Crew ρ} (h : c.isFinished = true) (schedule : List Nat) :
    (schedule.foldl (step units work) c).isFinished = true := by
  induction schedule with
  | nil => exact h
  | cons i schedule ih =>
    rw [List.foldl_cons, step_of_isFinished]
    · exact ih
    · exact fun w hw => List.all_eq_true.mp h w (List.mem_of_getElem? hw)

theorem Account.isFinished_foldl_rounds {c : Crew ρ} {rounds : List (List Nat)}
    (h : Account units workers work c) (hall : ∀ round ∈ rounds, ∀ i < workers, i ∈ round)
    (hn : c.due units ≤ rounds.length) :
    (rounds.flatten.foldl (Crew.step units work) c).isFinished = true := by
  induction rounds generalizing c with
  | nil => exact isFinished_of_due (Nat.le_zero.mp hn)
  | cons round rounds ih =>
    rw [List.flatten_cons, List.foldl_append]
    cases hf : c.isFinished with
    | true => exact isFinished_foldl (isFinished_foldl hf round) _
    | false =>
      -- somebody has not finished, and has a turn in this round
      obtain ⟨w, hw, hwf⟩ := List.all_eq_false.mp hf
      obtain ⟨i, hi, rfl⟩ := List.mem_iff_getElem.mp hw
      have hlt : (round.foldl (Crew.step units work) c).due units < c.due units :=
        due_foldl_lt (hall round List.mem_cons_self i (h.size ▸ hi)) (List.getElem?_eq_getElem hi)
          (Bool.eq_false_iff.mpr hwf)
      rw [List.length_cons] at hn
      exact ih (h.foldl round) (fun r hr => hall r (List.mem_cons_of_mem _ hr)) (by omega)

/-- A schedule that comes back to each worker as often as steps are due ends. -/
theorem isFinished_rounds {rounds : List (List Nat)}
    (hall : ∀ round ∈ rounds, ∀ i < workers, i ∈ round) (hn : 2 * units + workers ≤ rounds.length) :
    (run units work workers rounds.flatten).isFinished = true :=
  account_ofWorkers.isFinished_foldl_rounds hall (Nat.le_trans (Nat.le_of_eq due_ofWorkers) hn)

end Crew

theorem inParallel_eq {ρ : Type} {workers : Nat} (hw : 0 < workers) (units : Nat) (work : Nat → ρ) :
    inParallel workers units work = (List.range units).map work := by
  refine (Crew.account_run units workers work _).results_eq hw (Crew.isFinished_rounds ?_ ?_)
  · intro round hround i hi
    rw [List.eq_of_mem_replicate hround]
    exact List.mem_range.mpr hi
  · exact Nat.le_of_eq List.length_replicate.symm

end PlanarJoin
