import Radiance.Raster.Progress
import Radiance.Proofs.Render.Schedule

/-!
# Reports of several workers

Workers share a progress.  Each of them makes one call of `Progress.advance` after another, and a
call is two steps: the worker adds an amount, and later it offers the tenth that the sum came to.
Other workers may come between the two, so a tenth may be offered late, after larger ones.

## Main definitions

* `Progress.Caller`, `Progress.Crew`: a worker with the calls it has still to make, and the workers
  with the progress that they share.
* `Crew.Step`, `Crew.Run`: one step of some worker, and the steps from the start on, in any order.
* `Crew.added`, `Crew.reports`: the work added and the tenths reported in a run.
* `Crew.Consistent`: what holds after every run.

## Main statements

* `Crew.Run.consistent`: every run keeps the books of the crew.
* `Crew.Run.exists_finished`: every run can be gone on with until all calls are made.
* `Crew.reports_exact`: no tenth is reported twice, and in the end the right one has been reached.
-/

namespace Radiance.Progress

/-! ## Tenths -/

/-- The tenths that the finished work is. -/
def reached (p : Progress) : Nat := min 10 (10 * p.completed.toNat / p.total.toNat)

section Tenths

variable {p : Progress}

theorem toNat_tenths {done : UInt64} (h : 10 * done.toNat < 2 ^ 64) :
    (p.tenths done).toNat = min 10 (10 * done.toNat / p.total.toNat) := by
  have hten : (done * 10).toNat = 10 * done.toNat := by
    rw [UInt64.toNat_mul]
    change done.toNat * 10 % 2 ^ 64 = _
    rw [Nat.mod_eq_of_lt (by omega), Nat.mul_comm]
  have hdiv : (done * 10 / p.total).toNat = 10 * done.toNat / p.total.toNat := by
    rw [UInt64.toNat_div, hten]
  rw [tenths, ← hdiv]
  change (if done * 10 / p.total ≤ 10 then _ else _ : UInt64).toNat = _
  have hle : done * 10 / p.total ≤ 10 ↔ (done * 10 / p.total).toNat ≤ 10 := by
    rw [UInt64.le_iff_toNat_le, UInt64.toNat_ofNat]
  split
  next h => exact (Nat.min_eq_right (hle.1 h)).symm
  next h => exact (Nat.min_eq_left (Nat.le_of_not_le (mt hle.2 h))).symm

theorem toNat_max (s t : UInt64) : (max s t).toNat = max s.toNat t.toNat := by
  change (if s ≤ t then t else s).toNat = _
  have hle : s ≤ t ↔ s.toNat ≤ t.toNat := UInt64.le_iff_toNat_le
  grind

/-- What is finished only grows, and so does the tenth that it is. -/
theorem reached_le_add {amount : UInt64}
    (h : p.completed.toNat + amount.toNat < 2 ^ 64) : p.reached ≤ (p.add amount).2.reached := by
  have hsum : (p.completed + amount).toNat = p.completed.toNat + amount.toNat := by
    rw [UInt64.toNat_add, Nat.mod_eq_of_lt h]
  have hle : 10 * p.completed.toNat ≤ 10 * (p.completed + amount).toNat := by omega
  have hdiv := Nat.div_le_div_right (c := p.total.toNat) hle
  simp only [reached, add]
  omega

/-- A tenth is reported if it is larger than all before it; else the offer changes nothing. -/
theorem offer_cases (p : Progress) (tenth : UInt64) :
    (p.reported < tenth ∧ (p.offer tenth).1 = some tenth ∧ (p.offer tenth).2.reported = tenth) ∨
      (tenth ≤ p.reported ∧ (p.offer tenth).1 = none ∧
        (p.offer tenth).2.reported = p.reported) := by
  by_cases h : p.reported < tenth
  · refine .inl ⟨h, if_pos h, ?_⟩
    exact if_pos (UInt64.le_of_lt h)
  · have hle : tenth ≤ p.reported := UInt64.not_lt.1 h
    refine .inr ⟨hle, if_neg h, ?_⟩
    refine UInt64.toNat_inj.1 ((toNat_max ..).trans (Nat.max_eq_left ?_))
    exact UInt64.le_iff_toNat_le.1 hle

/-- Reports that grow go on growing with an offer, and none is above the reported tenth. -/
theorem pairwise_offer {l : List UInt64} (hsorted : l.Pairwise (· < ·))
    (hle : ∀ t ∈ l, t ≤ p.reported) (tenth : UInt64) :
    (l ++ (p.offer tenth).1.toList).Pairwise (· < ·) ∧
      ∀ t ∈ l ++ (p.offer tenth).1.toList, t ≤ (p.offer tenth).2.reported := by
  rcases p.offer_cases tenth with ⟨hgt, hreport, hafter⟩ | ⟨-, hreport, hafter⟩
  · have hlt (t : UInt64) (ht : t ∈ l) : t < tenth := UInt64.lt_of_le_of_lt (hle t ht) hgt
    rw [hreport, hafter]
    refine ⟨List.pairwise_append.2 ⟨hsorted, List.pairwise_singleton .., ?_⟩, ?_⟩
    · intro t ht t' ht'
      obtain rfl := List.mem_singleton.1 ht'
      exact hlt t ht
    · intro t ht
      rcases List.mem_append.1 ht with ht | ht
      · exact UInt64.le_of_lt (hlt t ht)
      · exact UInt64.le_of_eq (List.mem_singleton.1 ht)
  · rw [hreport, hafter, Option.toList_none, List.append_nil]
    exact ⟨hsorted, hle⟩

/-- The texts of different tenths are different. -/
theorem message_injOn : Set.InjOn message {t | t ≤ 10} := by
  have hcases (t : UInt64) (ht : t ≤ 10) : ∃ i : Fin 11, t = UInt64.ofNat i := by
    refine ⟨⟨t.toNat, ?_⟩, ?_⟩
    · have := UInt64.le_iff_toNat_le.1 ht
      exact Nat.lt_succ_of_le this
    · exact UInt64.toNat_inj.1 (by simp)
  have hall : ∀ i j : Fin 11,
      message (UInt64.ofNat i) = message (UInt64.ofNat j) → i = j := by decide +kernel
  intro s hs t ht h
  obtain ⟨i, rfl⟩ := hcases s hs
  obtain ⟨j, rfl⟩ := hcases t ht
  rw [hall i j h]

end Tenths

/-! ## Workers -/

/-- A worker, with the tenth that it has seen and not offered yet, and the amounts of the calls that
it has still to make. -/
structure Caller where
  seen : Option UInt64
  amounts : List UInt64

/-- What is seen of a step. -/
inductive Move
  | add (amount : UInt64)
  | offer (report : Option UInt64)

namespace Move

/-- The work that a step adds. -/
def added : Move → Nat
  | add amount => amount.toNat
  | offer _ => 0

/-- The tenths that a step reports. -/
def reports : Move → List UInt64
  | add _ => []
  | offer report => report.toList

end Move

namespace Caller

/-- The work that a worker has still to add. -/
def left (c : Caller) : Nat := (c.amounts.map UInt64.toNat).sum

/-- The steps that a worker has still to make. -/
def stepsLeft (c : Caller) : Nat := 2 * c.amounts.length + if c.seen.isSome then 1 else 0

theorem stepsLeft_eq_zero_iff {c : Caller} :
    c.stepsLeft = 0 ↔ c.seen = none ∧ c.amounts = [] := by
  obtain ⟨seen, amounts⟩ := c
  cases seen <;> simp [stepsLeft]

/-- One step of a worker, with the progress before and after it. -/
inductive Step : Progress → Caller → Move → Progress → Caller → Prop
  | add {p : Progress} {amount : UInt64} {rest : List UInt64} :
    Step p ⟨none, amount :: rest⟩ (.add amount) (p.add amount).2
      ⟨if p.total = 0 then none else some (p.tenths (p.add amount).1), rest⟩
  | offer {p : Progress} {tenth : UInt64} {rest : List UInt64} :
    Step p ⟨some tenth, rest⟩ (.offer (p.offer tenth).1) (p.offer tenth).2 ⟨none, rest⟩

namespace Step

variable {p p' : Progress} {c c' : Caller} {m : Move}

/-- Two steps of a worker that nothing comes between are a call of `advance`. -/
theorem advance (hp : p.total ≠ 0) (amount : UInt64) (rest : List UInt64) :
    ∃ between seen, Step p ⟨none, amount :: rest⟩ (.add amount) between ⟨some seen, rest⟩ ∧
      Step between ⟨some seen, rest⟩ (.offer (p.advance amount).1) (p.advance amount).2
        ⟨none, rest⟩ := by
  have hadd := @Step.add p amount rest
  rw [if_neg hp] at hadd
  have hcall : p.advance amount = (p.add amount).2.offer (p.tenths (p.add amount).1) := if_neg hp
  rw [hcall]
  exact ⟨_, _, hadd, .offer⟩

theorem total_eq (h : Step p c m p' c') : p'.total = p.total := by
  cases h <;> rfl

theorem stepsLeft_lt (h : Step p c m p' c') : c'.stepsLeft < c.stepsLeft := by
  cases h with
  | add =>
    simp only [stepsLeft, List.length_cons]
    grind
  | offer => simp [stepsLeft]

/-- A worker with a step left can make it. -/
theorem exists_of_stepsLeft (p : Progress) (hc : c.stepsLeft ≠ 0) :
    ∃ m p' c', Step p c m p' c' := by
  obtain ⟨seen, amounts⟩ := c
  cases seen with
  | some tenth => exact ⟨_, _, _, .offer⟩
  | none =>
    cases amounts with
    | nil => simp [stepsLeft] at hc
    | cons amount rest => exact ⟨_, _, _, .add⟩

end Step

end Caller

/-! ## Crews -/

/-- Workers, and the progress that they share. -/
structure Crew where
  progress : Progress
  callers : List Caller

namespace Crew

/-- A crew at its start: nothing is finished, and each worker has all its calls to make. -/
def initial (total : UInt64) (calls : List (List UInt64)) : Crew :=
  ⟨{ total }, calls.map fun amounts => ⟨none, amounts⟩⟩

/-- All calls have been made. -/
def IsFinished (crew : Crew) : Prop := ∀ c ∈ crew.callers, c.seen = none ∧ c.amounts = []

def left (crew : Crew) : Nat := (crew.callers.map Caller.left).sum

def stepsLeft (crew : Crew) : Nat := (crew.callers.map Caller.stepsLeft).sum

/-- The work added in a run. -/
def added (trace : List (Nat × Move)) : Nat := (trace.map fun move => move.2.added).sum

/-- The tenths reported in a run, in the order of the steps that report them. -/
def reports (trace : List (Nat × Move)) : List UInt64 := trace.flatMap fun move => move.2.reports

/-- One step of some worker. -/
inductive Step : Crew → Nat × Move → Crew → Prop
  | mk {p p' : Progress} {cs : List Caller} {i : Nat} {c c' : Caller} {m : Move}
    (hc : cs[i]? = some c) (hstep : Caller.Step p c m p' c') :
    Step ⟨p, cs⟩ (i, m) ⟨p', cs.set i c'⟩

/-- The steps of a crew from its start on. -/
inductive Run (start : Crew) : List (Nat × Move) → Crew → Prop
  | nil : Run start [] start
  | snoc {trace : List (Nat × Move)} {crew crew' : Crew} {move : Nat × Move}
    (hrun : Run start trace crew) (hstep : Step crew move crew') :
    Run start (trace ++ [move]) crew'

/-- The books of a crew whose workers have some work to add.  A tenth that has been seen is one that
the finished work has reached, and the tenth that the finished work is has been offered or is seen
by some worker. -/
structure Consistent (total : UInt64) (work : Nat) (trace : List (Nat × Move)) (crew : Crew) :
    Prop where
  total_eq : crew.progress.total = total
  completed_eq : crew.progress.completed.toNat = added trace
  work_eq : added trace + crew.left = work
  seen_le : ∀ c ∈ crew.callers, ∀ t ∈ c.seen, t.toNat ≤ crew.progress.reached
  reported_le : crew.progress.reported.toNat ≤ crew.progress.reached
  reached : crew.progress.reported.toNat = crew.progress.reached ∨
    ∃ c ∈ crew.callers, ∃ t ∈ c.seen, t.toNat = crew.progress.reached
  sorted : (reports trace).Pairwise (· < ·)
  reports_le : ∀ t ∈ reports trace, t ≤ crew.progress.reported

variable {total : UInt64} {calls : List (List UInt64)} {work : Nat}
variable {trace : List (Nat × Move)} {start crew crew' : Crew}

theorem isFinished_iff_stepsLeft : crew.IsFinished ↔ crew.stepsLeft = 0 := by
  simp [IsFinished, stepsLeft, List.sum_eq_zero_iff, Caller.stepsLeft_eq_zero_iff]

theorem added_snoc (i : Nat) (m : Move) : added (trace ++ [(i, m)]) = added trace + m.added := by
  simp [added]

theorem reports_snoc (i : Nat) (m : Move) :
    reports (trace ++ [(i, m)]) = reports trace ++ m.reports := by
  simp [reports]

/-- What the workers have to add at the start is all the amounts. -/
theorem left_initial : (initial total calls).left = (calls.flatten.map UInt64.toNat).sum := by
  simp [left, initial, Function.comp_def, Caller.left, List.map_flatten, List.sum_flatten]

theorem consistent_initial :
    Consistent total (calls.flatten.map UInt64.toNat).sum [] (initial total calls) where
  total_eq := rfl
  completed_eq := rfl
  work_eq := by simp [added, left_initial]
  seen_le c hc t ht := by
    obtain ⟨amounts, -, rfl⟩ := List.mem_map.1 hc
    nomatch ht
  reported_le := Nat.zero_le _
  reached := .inl (by simp [Progress.reached, initial])
  sorted := .nil
  reports_le := nofun

/-- After a worker's next amount the finished work has reached the tenth that this worker sees. -/
theorem Consistent.add {p : Progress} {cs : List Caller} {i : Nat} {amount : UInt64}
    {rest : List UInt64} (h : Consistent total work trace ⟨p, cs⟩)
    (hfits : 10 * work < 2 ^ 64) (hc : cs[i]? = some ⟨none, amount :: rest⟩) :
    Consistent total work (trace ++ [(i, .add amount)])
      ⟨(p.add amount).2, cs.set i ⟨some (p.tenths (p.add amount).1), rest⟩⟩ := by
  obtain ⟨htotal', hcompleted, hwork, hseen, hreported, -, hsorted, hreports⟩ := h
  simp only at htotal' hcompleted hseen hreported hreports
  have hleft := sum_map_set Caller.left ⟨some (p.tenths (p.add amount).1), rest⟩ hc
  simp only [Caller.left, List.map_cons, List.sum_cons] at hleft
  simp only [Crew.left] at hwork
  have hsum : (p.completed + amount).toNat = added trace + amount.toNat := by
    rw [UInt64.toNat_add, hcompleted]
    exact Nat.mod_eq_of_lt (by omega)
  have hmono : p.reached ≤ (p.add amount).2.reached := reached_le_add (by omega)
  have htenth : (p.tenths (p.add amount).1).toNat = (p.add amount).2.reached :=
    toNat_tenths (by simp only [Progress.add]; omega)
  have hlt : i < cs.length := (List.getElem?_eq_some_iff.1 hc).1
  refine ⟨htotal', ?_, ?_, fun c hmem t ht => ?_, hreported.trans hmono,
    .inr ⟨_, List.mem_set hlt _, _, rfl, htenth⟩, ?_, fun t ht => ?_⟩
  · rw [added_snoc]
    exact hsum
  · rw [added_snoc]
    simp only [Crew.left, Move.added]
    omega
  · rcases List.mem_or_eq_of_mem_set hmem with hmem | rfl
    · exact (hseen c hmem t ht).trans hmono
    · obtain rfl := Option.some.inj ht
      exact htenth.le
  · simpa [reports_snoc, Move.reports] using hsorted
  · exact hreports t (by simpa [reports_snoc, Move.reports] using ht)

/-- A worker may offer a tenth late: then a larger one has been reported, and nothing is. -/
theorem Consistent.offer {p : Progress} {cs : List Caller} {i : Nat} {tenth : UInt64}
    {rest : List UInt64} (h : Consistent total work trace ⟨p, cs⟩)
    (hc : cs[i]? = some ⟨some tenth, rest⟩) :
    Consistent total work (trace ++ [(i, .offer (p.offer tenth).1)])
      ⟨(p.offer tenth).2, cs.set i ⟨none, rest⟩⟩ := by
  obtain ⟨htotal, hcompleted, hwork, hseen, hreported, hreached, hsorted, hreports⟩ := h
  simp only at htotal hcompleted hseen hreported hreached hreports
  have hleft := sum_map_set Caller.left ⟨none, rest⟩ hc
  simp only [Caller.left] at hleft
  have htenth : tenth.toNat ≤ p.reached := hseen _ (List.mem_of_getElem? hc) tenth rfl
  have hmax : (max p.reported tenth).toNat = max p.reported.toNat tenth.toNat := toNat_max ..
  have hoffer := pairwise_offer hsorted hreports tenth
  rw [show (p.offer tenth).1.toList = (Move.offer (p.offer tenth).1).reports from rfl,
    ← reports_snoc i] at hoffer
  refine ⟨htotal, ?_, ?_, fun c hmem t ht => ?_, ?_, ?_, hoffer.1, hoffer.2⟩
  · rw [added_snoc]
    exact hcompleted
  · rw [added_snoc]
    simp only [Crew.left, Move.added] at hwork ⊢
    omega
  · rcases List.mem_or_eq_of_mem_set hmem with hmem | rfl
    · exact hseen c hmem t ht
    · nomatch ht
  · change (max p.reported tenth).toNat ≤ p.reached
    omega
  · change (max p.reported tenth).toNat = p.reached ∨ _
    rcases hreached with hreached | ⟨c, hmem, t, ht, hreached⟩
    · exact .inl (by omega)
    · obtain ⟨j, hj⟩ := List.mem_iff_getElem?.1 hmem
      by_cases hij : i = j
      · -- The worker that has seen the tenth reached is the one that offers it now.
        subst hij
        obtain rfl := Option.some.inj (hc.symm.trans hj)
        obtain rfl := Option.some.inj ht
        exact .inl (by omega)
      · refine .inr ⟨c, List.mem_iff_getElem?.2 ⟨j, ?_⟩, t, ht, hreached⟩
        rw [List.getElem?_set_ne hij, hj]

theorem Consistent.step {move : Nat × Move} (htotal : total ≠ 0) (hfits : 10 * work < 2 ^ 64)
    (h : Consistent total work trace crew) (hstep : Step crew move crew') :
    Consistent total work (trace ++ [move]) crew' := by
  obtain @⟨p, p', cs, i, c, c', m, hc, hstep⟩ := hstep
  cases hstep with
  | @add amount rest =>
    rw [if_neg (h.total_eq ▸ htotal)]
    exact h.add hfits hc
  | offer => exact h.offer hc

/-- Every run keeps the books. -/
theorem Run.consistent (htotal : total ≠ 0)
    (hfits : 10 * (calls.flatten.map UInt64.toNat).sum < 2 ^ 64)
    (hrun : Run (initial total calls) trace crew) :
    Consistent total (calls.flatten.map UInt64.toNat).sum trace crew := by
  induction hrun with
  | nil => exact consistent_initial
  | snoc _ hstep ih => exact ih.step htotal hfits hstep

/-- A crew with a step left can make it, and has fewer left then. -/
theorem exists_step (h : crew.stepsLeft ≠ 0) :
    ∃ move crew', Step crew move crew' ∧ crew'.stepsLeft < crew.stepsLeft := by
  obtain ⟨p, cs⟩ := crew
  have hmem : ∃ c ∈ cs, c.stepsLeft ≠ 0 := by
    simpa [stepsLeft, List.sum_eq_zero_iff] using h
  obtain ⟨c, hmem, hc⟩ := hmem
  obtain ⟨i, hi⟩ := List.mem_iff_getElem?.1 hmem
  obtain ⟨m, p', c', hstep⟩ := Caller.Step.exists_of_stepsLeft p hc
  refine ⟨_, _, .mk hi hstep, ?_⟩
  have hsum := sum_map_set Caller.stepsLeft c' hi
  have hlt := hstep.stepsLeft_lt
  simp only [stepsLeft]
  omega

/-- Every run can be gone on with until all calls are made. -/
theorem Run.exists_finished (hrun : Run start trace crew) :
    ∃ more crew', Run start (trace ++ more) crew' ∧ crew'.IsFinished := by
  induction h : crew.stepsLeft using Nat.strongRecOn generalizing trace crew with
  | ind n ih =>
    by_cases hzero : crew.stepsLeft = 0
    · exact ⟨[], crew, (List.append_nil trace).symm ▸ hrun, isFinished_iff_stepsLeft.2 hzero⟩
    · obtain ⟨move, crew', hstep, hlt⟩ := exists_step hzero
      obtain ⟨more, last, hlast, hfin⟩ := ih _ (h ▸ hlt) (hrun.snoc hstep) rfl
      exact ⟨move :: more, last, by simpa using hlast, hfin⟩

/-- When all calls are made, all work is added and the tenth that it is has been offered. -/
theorem Consistent.of_isFinished (h : Consistent total work trace crew) (hfin : crew.IsFinished) :
    added trace = work ∧ crew.progress.reported.toNat = crew.progress.reached := by
  have hleft : crew.left = 0 := by
    refine List.sum_eq_zero_iff.2 fun n hn => ?_
    obtain ⟨c, hc, rfl⟩ := List.mem_map.1 hn
    simp [Caller.left, (hfin c hc).2]
  refine ⟨by rw [← h.work_eq, hleft, Nat.add_zero], ?_⟩
  rcases h.reached with hreached | ⟨c, hc, t, ht, -⟩
  · exact hreached
  · rw [(hfin c hc).1] at ht
    nomatch ht

theorem Consistent.reports_le_ten (h : Consistent total work trace crew) :
    ∀ t ∈ reports trace, t ≤ 10 := by
  intro t ht
  have hle : crew.progress.reached ≤ 10 := Nat.min_le_left _ _
  have hreported := UInt64.le_iff_toNat_le.1 (h.reports_le t ht)
  exact UInt64.le_iff_toNat_le.2 (hreported.trans (h.reported_le.trans hle))

/-- The work added by all steps so far is finished, whatever their order; the tenths that are
reported grow from report to report, so that no text comes twice; and when all calls are made, the
last tenth is the one that the finished work is.  That point can be reached from everywhere. -/
theorem reports_exact (htotal : 0 < total)
    (hfits : 10 * (calls.flatten.map UInt64.toNat).sum < 2 ^ 64)
    (hrun : Run (initial total calls) trace crew) :
    crew.progress.completed.toNat = added trace ∧
      (reports trace).Pairwise (· < ·) ∧ ((reports trace).map message).Nodup ∧
      (crew.IsFinished →
        crew.progress.completed.toNat = (calls.flatten.map UInt64.toNat).sum ∧
        crew.progress.reported.toNat =
          min 10 (10 * crew.progress.completed.toNat / total.toNat)) ∧
      ∃ more crew', Run (initial total calls) (trace ++ more) crew' ∧ crew'.IsFinished := by
  have h := hrun.consistent (UInt64.ne_of_lt htotal).symm hfits
  refine ⟨h.completed_eq, h.sorted, ?_, fun hfin => ?_, hrun.exists_finished⟩
  · refine List.Nodup.map_on (fun s hs t ht heq => ?_) ?_
    · exact message_injOn (h.reports_le_ten s hs) (h.reports_le_ten t ht) heq
    · exact h.sorted.imp fun hlt => UInt64.ne_of_lt hlt
  · obtain ⟨hadded, hreported⟩ := h.of_isFinished hfin
    refine ⟨h.completed_eq.trans hadded, ?_⟩
    rw [hreported, Progress.reached, h.total_eq]

/-- One worker adds the first of four units and offers its tenth after another worker has reported
that all is finished. -/
theorem run_late :
    Run (initial 4 [[1], [3]])
      [(0, .add 1), (1, .add 3), (1, .offer (some 10)), (0, .offer none)]
      ⟨{ completed := 4, reported := 10, total := 4 }, [⟨none, []⟩, ⟨none, []⟩]⟩ := by
  have hfirst : Run (initial 4 [[1], [3]]) [(0, .add 1)]
      ⟨{ completed := 1, reported := 0, total := 4 }, [⟨some 2, []⟩, ⟨none, [3]⟩]⟩ :=
    .snoc .nil (.mk rfl .add)
  have hsecond : Run (initial 4 [[1], [3]]) [(0, .add 1), (1, .add 3)]
      ⟨{ completed := 4, reported := 0, total := 4 }, [⟨some 2, []⟩, ⟨some 10, []⟩]⟩ :=
    .snoc hfirst (.mk rfl .add)
  have hthird : Run (initial 4 [[1], [3]]) [(0, .add 1), (1, .add 3), (1, .offer (some 10))]
      ⟨{ completed := 4, reported := 10, total := 4 }, [⟨some 2, []⟩, ⟨none, []⟩]⟩ :=
    .snoc hsecond (.mk rfl .offer)
  exact .snoc hthird (.mk rfl .offer)

theorem reports_exact_late :
    reports [(0, .add 1), (1, .add 3), (1, .offer (some 10)), (0, .offer none)] = [10] ∧
      (4 : UInt64).toNat = 1 + 3 ∧ (10 : UInt64).toNat = min 10 (10 * 4 / 4) := by
  have h := reports_exact (by decide) (by decide) run_late
  have hfin : IsFinished
      ⟨{ completed := 4, reported := 10, total := 4 }, [⟨none, []⟩, ⟨none, []⟩]⟩ := by
    simp [IsFinished]
  exact ⟨rfl, (h.2.2.2.1 hfin).1, (h.2.2.2.1 hfin).2⟩

end Crew

end Radiance.Progress
