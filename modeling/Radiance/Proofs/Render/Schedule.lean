import Radiance.Proofs.Raster.Cover
import Radiance.Proofs.Raster.FrameBuffer
import Radiance.Proofs.Render.Pixel

/-!
# Workers that share a queue of buckets

Several workers render an image together.  Each one has a sampler of its own, takes the next bucket
of the queue, renders it, sends the result, and stops when the queue is empty.  The workers move one
at a time in any order, and all that they share is the queue and the list of results.

## Main definitions

* `Worker.Step`, `Pool.Step`: one step of a worker, and of some worker of a pool.
* `Pool.Run`: the steps of a pool from its start on.
* `Pool.popped`, `Pool.sent`: which worker took which bucket, and which one sent which result.
* `Pool.Consistent`: what holds after every run.

## Main statements

* `Pool.Run.consistent`: every run keeps the books of the pool.
* `Pool.exists_step`: a worker that has not stopped can move.
* `Pool.Consistent.existsUnique_worker`: when all workers have stopped, each bucket was taken once
  and sent once.
-/

namespace Radiance

variable {σ α : Type}

/-- What a worker does next. -/
inductive Task (α : Type)
  | pop
  | render (b : Bucket)
  | send (b : Bucket) (colors : List (Color α))
  | stopped

structure Worker (σ α : Type) where
  sampler : σ
  task : Task α

/-- What is seen of a step. -/
inductive Action (α : Type)
  | pop (b : Bucket)
  | close
  | render (b : Bucket)
  | send (b : Bucket) (colors : List (Color α))

/-- The workers and the queue that they share. -/
structure Pool (σ α : Type) where
  queue : BucketQueue
  workers : List (Worker σ α)

def Action.taken : Action α → List Bucket
  | pop b => [b]
  | _ => []

def Action.results : Action α → List (Bucket × List (Color α))
  | send b colors => [(b, colors)]
  | _ => []

/-- A sum over a list in which one entry is put in the place of another. -/
theorem sum_map_set {β : Type} (f : β → Nat) {xs : List β} {i : Nat} {x : β} (y : β)
    (hx : xs[i]? = some x) : ((xs.set i y).map f).sum + f x = (xs.map f).sum + f y := by
  induction xs generalizing i with
  | nil => nomatch hx
  | cons x' xs ih =>
    cases i with
    | zero =>
      obtain rfl : x' = x := by simpa using hx
      simp only [List.set_cons_zero, List.map_cons, List.sum_cons]
      omega
    | succ i =>
      have h := ih (i := i) (by simpa using hx)
      simp only [List.set_cons_succ, List.map_cons, List.sum_cons]
      omega

/-! ## Workers -/

namespace Worker

/-- The bucket that a worker has taken and not sent yet. -/
def held (w : Worker σ α) : List Bucket :=
  match w.task with
  | .render b => [b]
  | .send b _ => [b]
  | _ => []

/-- The steps that a worker still makes if it gets no further bucket. -/
def stepsLeft (w : Worker σ α) : Nat :=
  match w.task with
  | .pop => 1
  | .render _ => 3
  | .send _ _ => 2
  | .stopped => 0

/-- A worker has a sampler in one of some states, and what it is about to send shows the colors of
the pixels. -/
structure IsSound (states : σ → Prop) (color : Pixel → Color α) (w : Worker σ α) : Prop where
  sampler : states w.sampler
  result : ∀ b colors, w.task = .send b colors → colors = b.pixels.map color

variable [Scalar α] [Sampler σ α]

/-- One step of a worker, with the queue before and after it. -/
inductive Step (scene : Scene α) (integrator : Integrator α) :
    BucketQueue → Worker σ α → Action α → BucketQueue → Worker σ α → Prop
  | pop {q q' : BucketQueue} {s : σ} {b : Bucket} (h : q.pop = (some b, q')) :
    Step scene integrator q ⟨s, .pop⟩ (.pop b) q' ⟨s, .render b⟩
  | close {q q' : BucketQueue} {s : σ} (h : q.pop = (none, q')) :
    Step scene integrator q ⟨s, .pop⟩ .close q' ⟨s, .stopped⟩
  | render {q : BucketQueue} {s : σ} {b : Bucket} :
    Step scene integrator q ⟨s, .render b⟩ (.render b) q
      ⟨(renderBucket scene integrator b s).2, .send b (renderBucket scene integrator b s).1⟩
  | send {q : BucketQueue} {s : σ} {b : Bucket} {colors : List (Color α)} :
    Step scene integrator q ⟨s, .send b colors⟩ (.send b colors) q ⟨s, .pop⟩

end Worker

theorem BucketQueue.pop_cases {q q' : BucketQueue} {b? : Option Bucket} (h : q.pop = (b?, q')) :
    (q.buckets.size ≤ q.cursor ∧ b? = none ∧ q' = q) ∨
      ∃ b, b? = some b ∧ q.buckets[q.cursor]? = some b ∧
        q' = { q with cursor := q.cursor + 1 } := by
  rw [pop] at h
  split at h
  next hnone =>
    obtain ⟨rfl, rfl⟩ := Prod.mk.inj h
    exact .inl ⟨Array.getElem?_eq_none_iff.1 hnone, rfl, rfl⟩
  next b hsome =>
    obtain ⟨rfl, rfl⟩ := Prod.mk.inj h
    exact .inr ⟨b, rfl, hsome, rfl⟩

namespace Worker.Step

variable [Scalar α] [Sampler σ α] {scene : Scene α} {integrator : Integrator α}
variable {q q' : BucketQueue} {w w' : Worker σ α} {a : Action α}

theorem buckets_eq (h : Step scene integrator q w a q' w') : q'.buckets = q.buckets := by
  cases h with
  | pop h | close h => obtain ⟨-, -, rfl⟩ | ⟨_, -, -, rfl⟩ := BucketQueue.pop_cases h <;> rfl
  | render | send => rfl

theorem cursor_le (h : Step scene integrator q w a q' w') : q.cursor ≤ q'.cursor := by
  cases h with
  | pop h | close h =>
    obtain ⟨-, -, rfl⟩ | ⟨_, -, -, rfl⟩ := BucketQueue.pop_cases h
    · exact Nat.le_refl _
    · exact Nat.le_succ _
  | render | send => exact Nat.le_refl _

/-- What is taken in a step is the next bucket of the queue. -/
theorem take_eq (h : Step scene integrator q w a q' w') :
    q.buckets.toList.take q.cursor ++ a.taken = q'.buckets.toList.take q'.cursor := by
  cases h with
  | pop h =>
    obtain ⟨-, hnone, -⟩ | ⟨b, hb, hget, rfl⟩ := BucketQueue.pop_cases h
    · nomatch hnone
    · obtain rfl := Option.some.inj hb
      rw [← Array.getElem?_toList] at hget
      simp only [Action.taken, List.take_add_one, hget, Option.toList_some]
  | close h =>
    obtain ⟨-, -, rfl⟩ | ⟨b, hb, -⟩ := BucketQueue.pop_cases h
    · exact List.append_nil _
    · nomatch hb
  | render | send => exact List.append_nil _

/-- What a worker had and takes is what it sends and has then. -/
theorem held_eq (h : Step scene integrator q w a q' w') :
    w.held ++ a.taken = a.results.map Prod.fst ++ w'.held := by
  cases h <;> rfl

/-- Every step uses one of the steps left up. -/
theorem stepsLeft_eq (h : Step scene integrator q w a q' w') :
    3 * (q.buckets.size - q.cursor) + w.stepsLeft =
      3 * (q'.buckets.size - q'.cursor) + w'.stepsLeft + 1 := by
  cases h with
  | pop h =>
    obtain ⟨-, hnone, -⟩ | ⟨b, -, hget, rfl⟩ := BucketQueue.pop_cases h
    · nomatch hnone
    · have hlt := (Array.getElem?_eq_some_iff.1 hget).1
      simp only [stepsLeft]
      omega
  | close h =>
    obtain ⟨-, -, rfl⟩ | ⟨b, hb, -⟩ := BucketQueue.pop_cases h
    · rfl
    · nomatch hb
  | render | send => rfl

theorem size_le_of_stopped (h : Step scene integrator q w a q' w') (hstop : w'.task = .stopped) :
    q'.buckets.size ≤ q'.cursor := by
  cases h with
  | close h =>
    obtain ⟨hle, -, rfl⟩ | ⟨b, hb, -⟩ := BucketQueue.pop_cases h
    · exact hle
    · nomatch hb
  | pop | render | send => nomatch hstop

/-- A worker renders the colors of the pixels, whatever it has rendered before. -/
theorem isSound {states : σ → Prop} {s : σ} (hm : Sampler.Memoryless states) (hs : states s)
    (h : Step scene integrator q w a q' w')
    (hw : w.IsSound states (pixelColor scene integrator s)) :
    w'.IsSound states (pixelColor scene integrator s) ∧
      ∀ r ∈ a.results, r.2 = r.1.pixels.map (pixelColor scene integrator s) := by
  obtain ⟨hsampler, hresult⟩ := hw
  cases h with
  | pop | close => exact ⟨⟨hsampler, nofun⟩, nofun⟩
  | @render s' b =>
    refine ⟨⟨keeps_renderBucket hm scene integrator b s' hsampler, ?_⟩, nofun⟩
    rintro _ _ ⟨⟩
    exact renderBucket_fst hm scene integrator hs hsampler b
  | @send _ b colors =>
    refine ⟨⟨hsampler, nofun⟩, fun r hr => ?_⟩
    obtain rfl := List.mem_singleton.1 hr
    exact hresult b colors rfl

theorem exists_of_not_stopped (scene : Scene α) (integrator : Integrator α) (q : BucketQueue)
    (hw : w.task ≠ .stopped) : ∃ a q' w', Step scene integrator q w a q' w' := by
  obtain ⟨s, task⟩ := w
  cases task with
  | pop =>
    cases hpop : q.pop with
    | mk b? q' =>
      cases b? with
      | none => exact ⟨_, _, _, .close hpop⟩
      | some b => exact ⟨_, _, _, .pop hpop⟩
  | render b => exact ⟨_, _, _, .render⟩
  | send b colors => exact ⟨_, _, _, .send⟩
  | stopped => exact absurd rfl hw

end Worker.Step

/-! ## Pools -/

namespace Pool

/-- A pool at its start: all buckets are in the queue, and each worker has a copy of the sampler. -/
def initial (buckets : List Bucket) (count : Nat) (s : σ) : Pool σ α :=
  ⟨⟨buckets.toArray, 0⟩, List.replicate count ⟨s, .pop⟩⟩

def IsFinished (pool : Pool σ α) : Prop := ∀ w ∈ pool.workers, w.task = .stopped

/-- The steps that are left in a pool: three for each bucket of the queue, and those that the
workers make without it. -/
def stepsLeft (pool : Pool σ α) : Nat :=
  3 * (pool.queue.buckets.size - pool.queue.cursor) + (pool.workers.map Worker.stepsLeft).sum

/-- The buckets taken from the queue, each with the worker that took it. -/
def popped (trace : List (Nat × Action α)) : List (Nat × Bucket) :=
  trace.flatMap fun (i, a) => a.taken.map fun b => (i, b)

/-- The results sent, each with the worker that sent it. -/
def sent (trace : List (Nat × Action α)) : List (Nat × Bucket × List (Color α)) :=
  trace.flatMap fun (i, a) => a.results.map fun r => (i, r)

def sentBuckets (trace : List (Nat × Action α)) : List (Nat × Bucket) :=
  (sent trace).map fun r => (r.1, r.2.1)

/-- The bucket that the worker at a place has taken and not sent yet. -/
def heldBy (pool : Pool σ α) (i : Nat) : List (Nat × Bucket) :=
  ((pool.workers[i]?.map Worker.held).getD []).map fun b => (i, b)

section Logs

variable (trace : List (Nat × Action α)) (i j : Nat) (a : Action α)

theorem popped_snoc : popped (trace ++ [(i, a)]) = popped trace ++ a.taken.map fun b => (i, b) := by
  simp [popped]

theorem sent_snoc : sent (trace ++ [(i, a)]) = sent trace ++ a.results.map fun r => (i, r) := by
  simp [sent]

theorem sentBuckets_snoc :
    sentBuckets (trace ++ [(i, a)]) =
      sentBuckets trace ++ (a.results.map Prod.fst).map fun b => (i, b) := by
  simp [sentBuckets, sent_snoc]

theorem filter_map_pair (bs : List Bucket) :
    (bs.map fun b => (i, b)).filter (fun e => e.1 = j) =
      if i = j then bs.map fun b => (i, b) else [] := by
  split <;> simp_all [List.filter_map, Function.comp_def]

end Logs

section Workers

variable {ws : List (Worker σ α)} {i : Nat} {w : Worker σ α}

theorem heldBy_set {q q' : BucketQueue} {w' : Worker σ α} (hw : ws[i]? = some w) (j : Nat) :
    heldBy ⟨q', ws.set i w'⟩ j =
      if i = j then w'.held.map fun b => (i, b) else heldBy ⟨q, ws⟩ j := by
  have hlt : i < ws.length := (List.getElem?_eq_some_iff.1 hw).1
  by_cases hij : i = j
  · subst hij
    simp [heldBy, hlt]
  · simp [heldBy, hij]

end Workers

variable [Scalar α] [Sampler σ α]

/-- One step of some worker. -/
inductive Step (scene : Scene α) (integrator : Integrator α) :
    Pool σ α → Nat × Action α → Pool σ α → Prop
  | mk {q q' : BucketQueue} {ws : List (Worker σ α)} {i : Nat} {w w' : Worker σ α} {a : Action α}
    (hw : ws[i]? = some w) (hstep : Worker.Step scene integrator q w a q' w') :
    Step scene integrator ⟨q, ws⟩ (i, a) ⟨q', ws.set i w'⟩

/-- The steps of a pool from its start on. -/
inductive Run (scene : Scene α) (integrator : Integrator α) (start : Pool σ α) :
    List (Nat × Action α) → Pool σ α → Prop
  | nil : Run scene integrator start [] start
  | snoc {trace : List (Nat × Action α)} {pool pool' : Pool σ α} {move : Nat × Action α}
    (hrun : Run scene integrator start trace pool) (hstep : Step scene integrator pool move pool') :
    Run scene integrator start (trace ++ [move]) pool'

/-- The books of a pool: what was taken is the first part of the buckets, each worker has sent what
it took except for what it holds, and every step was one of those that were left. -/
structure Consistent (buckets : List Bucket) (count : Nat) (states : σ → Prop)
    (color : Pixel → Color α) (trace : List (Nat × Action α)) (pool : Pool σ α) : Prop where
  buckets_eq : pool.queue.buckets = buckets.toArray
  popped_eq : (popped trace).map Prod.snd = buckets.take pool.queue.cursor
  held_eq : ∀ i, (popped trace).filter (fun e => e.1 = i) =
    (sentBuckets trace).filter (fun e => e.1 = i) ++ pool.heldBy i
  length_eq : pool.workers.length = count
  steps_eq : trace.length + pool.stepsLeft = 3 * buckets.length + count
  isSound : ∀ w ∈ pool.workers, w.IsSound states color
  sent_eq : ∀ r ∈ sent trace, r.2.2 = r.2.1.pixels.map color
  drained : ∀ w ∈ pool.workers, w.task = .stopped → buckets.length ≤ pool.queue.cursor

variable {scene : Scene α} {integrator : Integrator α} {buckets : List Bucket} {count : Nat}
variable {states : σ → Prop} {s : σ} {trace : List (Nat × Action α)} {pool pool' : Pool σ α}

omit [Scalar α] [Sampler σ α] in
theorem consistent_initial (hs : states s) (color : Pixel → Color α) :
    Consistent buckets count states color [] (initial buckets count s) where
  buckets_eq := rfl
  popped_eq := by simp [popped, initial]
  held_eq i := by
    by_cases hi : i < count <;> simp [popped, sentBuckets, sent, heldBy, initial, hi, Worker.held]
  length_eq := by simp [initial]
  steps_eq := by simp [initial, stepsLeft, Worker.stepsLeft]
  isSound w hw := by
    obtain rfl := List.eq_of_mem_replicate hw
    exact ⟨hs, nofun⟩
  sent_eq := nofun
  drained w hw := by
    obtain rfl := List.eq_of_mem_replicate hw
    nofun

theorem Consistent.step {move : Nat × Action α} (hm : Sampler.Memoryless states) (hs : states s)
    (h : Consistent buckets count states (pixelColor scene integrator s) trace pool)
    (hstep : Step scene integrator pool move pool') :
    Consistent buckets count states (pixelColor scene integrator s) (trace ++ [move]) pool' := by
  obtain @⟨q, q', ws, i, w, w', a, hw, hstep⟩ := hstep
  obtain ⟨hbuckets, hpopped, hheld, hlength, hsteps, hsound, hsent, hdrained⟩ := h
  simp only at hbuckets hpopped hlength
  have hmem : w ∈ ws := List.mem_of_getElem? hw
  obtain ⟨hsound', hresults⟩ := hstep.isSound hm hs (hsound w hmem)
  have htake := hstep.take_eq
  have hq := hstep.buckets_eq
  refine ⟨hq.trans hbuckets, ?_, fun j => ?_, by simpa using hlength, ?_, fun v hv => ?_,
    fun r hr => ?_, fun v hv hstop => ?_⟩
  · rw [hq, hbuckets] at htake
    simpa [popped_snoc, hpopped, Function.comp_def] using htake
  · rw [popped_snoc, sentBuckets_snoc, List.filter_append, List.filter_append, hheld j,
      filter_map_pair, filter_map_pair, heldBy_set hw (q := q)]
    split
    next hij =>
      -- What the moving worker had and takes is what it sends and holds.
      subst hij
      have hbalance := congrArg (List.map fun b => (i, b)) hstep.held_eq
      simp only [List.map_append] at hbalance
      have hhere : heldBy ⟨q, ws⟩ i = w.held.map fun b => (i, b) := by simp [heldBy, hw]
      rw [List.append_assoc, List.append_assoc, hhere, hbalance]
    next => simp
  · have hleft := hstep.stepsLeft_eq
    have hsum := sum_map_set Worker.stepsLeft w' hw
    simp only [stepsLeft, List.length_append, List.length_singleton] at hsteps ⊢
    omega
  · obtain hv | rfl := List.mem_or_eq_of_mem_set hv
    · exact hsound v hv
    · exact hsound'
  · rw [sent_snoc, List.mem_append] at hr
    obtain hr | hr := hr
    · exact hsent r hr
    · obtain ⟨r', hr', rfl⟩ := List.mem_map.1 hr
      exact hresults r' hr'
  · obtain hv | rfl := List.mem_or_eq_of_mem_set hv
    · exact Nat.le_trans (hdrained v hv hstop) hstep.cursor_le
    · have hle := hstep.size_le_of_stopped hstop
      rwa [hq, hbuckets, List.size_toArray] at hle

/-- Every run keeps the books. -/
theorem Run.consistent (hm : Sampler.Memoryless states) (hs : states s)
    (hrun : Run scene integrator (initial buckets count s) trace pool) :
    Consistent buckets count states (pixelColor scene integrator s) trace pool := by
  induction hrun with
  | nil => exact consistent_initial hs _
  | snoc _ hstep ih => exact ih.step hm hs hstep

theorem exists_step (scene : Scene α) (integrator : Integrator α) {i : Nat} {w : Worker σ α}
    (hw : pool.workers[i]? = some w) (hstop : w.task ≠ .stopped) :
    ∃ a pool', Step scene integrator pool (i, a) pool' := by
  obtain ⟨a, q', w', hstep⟩ :=
    Worker.Step.exists_of_not_stopped scene integrator pool.queue hstop
  exact ⟨a, _, .mk hw hstep⟩

/-! ## Pools whose workers have stopped -/

omit [Scalar α] [Sampler σ α]

variable {color : Pixel → Color α}

theorem Consistent.popped_of_isFinished
    (h : Consistent buckets count states color trace pool) (hcount : 0 < count)
    (hfin : pool.IsFinished) : (popped trace).map Prod.snd = buckets := by
  have hpos : 0 < pool.workers.length := h.length_eq ▸ hcount
  have hmem := List.getElem_mem hpos
  rw [h.popped_eq, List.take_of_length_le (h.drained _ hmem (hfin _ hmem))]

theorem IsFinished.heldBy_eq_nil (hfin : pool.IsFinished) (i : Nat) : pool.heldBy i = [] := by
  cases hw : pool.workers[i]? with
  | none => simp [heldBy, hw]
  | some w => simp [heldBy, hw, Worker.held, hfin w (List.mem_of_getElem? hw)]

/-- When the workers have stopped, each one has sent what it took. -/
theorem Consistent.sentBuckets_perm
    (h : Consistent buckets count states color trace pool) (hfin : pool.IsFinished) :
    (sentBuckets trace).Perm (popped trace) := by
  refine List.perm_iff_count.2 fun (i, b) => ?_
  have hheld := h.held_eq i
  rw [hfin.heldBy_eq_nil, List.append_nil] at hheld
  have hcount (log : List (Nat × Bucket)) :
      (log.filter fun e => e.1 = i).count (i, b) = log.count (i, b) :=
    List.count_filter (by simp)
  rw [← hcount, ← hheld, hcount]

theorem Consistent.results_perm
    (h : Consistent buckets count states color trace pool) (hcount : 0 < count)
    (hfin : pool.IsFinished) :
    (((sent trace).map Prod.snd).map Prod.fst).Perm buckets := by
  have hperm := (h.sentBuckets_perm hfin).map Prod.snd
  rw [h.popped_of_isFinished hcount hfin, sentBuckets] at hperm
  simpa [Function.comp_def] using hperm

theorem filter_eq_singleton {log : List (Nat × Bucket)} (hnodup : (log.map Prod.snd).Nodup)
    {b : Bucket} (hb : b ∈ log.map Prod.snd) :
    ∃ i, log.filter (fun e => e.2 = b) = [(i, b)] := by
  obtain ⟨⟨i, b'⟩, hmem, hsnd⟩ := List.mem_map.1 hb
  obtain rfl : b' = b := hsnd
  refine ⟨i, ?_⟩
  have hsame : ∀ e ∈ log, decide (e.2 = b') = decide (e = (i, b')) := fun e he =>
    decide_eq_decide.2 ⟨fun h => List.inj_on_of_nodup_map hnodup he hmem h, fun h => by rw [h]⟩
  rw [List.filter_congr hsame, List.filter_eq, List.count_eq_one_of_mem (hnodup.of_map _) hmem]
  rfl

/-- When the workers have stopped, each bucket was taken once and sent once, by the same worker. -/
theorem Consistent.existsUnique_worker
    (h : Consistent buckets count states color trace pool) (hcount : 0 < count)
    (hfin : pool.IsFinished) (hnodup : buckets.Nodup) {b : Bucket} (hb : b ∈ buckets) :
    ∃ i, (popped trace).filter (fun e => e.2 = b) = [(i, b)] ∧
      ∃ colors, (sent trace).filter (fun e => e.2.1 = b) = [(i, b, colors)] := by
  have hpopped := h.popped_of_isFinished hcount hfin
  obtain ⟨i, hi⟩ := filter_eq_singleton (hpopped ▸ hnodup) (hpopped ▸ hb)
  refine ⟨i, hi, ?_⟩
  have hsent := (h.sentBuckets_perm hfin).filter (fun e => e.2 = b)
  rw [hi, List.perm_singleton, sentBuckets, List.filter_map] at hsent
  obtain ⟨⟨j, b', colors⟩, hfilter, hpair⟩ := List.map_eq_singleton_iff.1 hsent
  obtain ⟨rfl, rfl⟩ := Prod.mk.inj hpair
  exact ⟨colors, hfilter⟩

end Pool

end Radiance
