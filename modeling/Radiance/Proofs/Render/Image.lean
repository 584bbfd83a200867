import Radiance.Proofs.Render.Schedule

/-!
# The image does not depend on the schedule

The color of a pixel is the same whoever renders it and whatever was rendered before, and the
buckets cover the image.  So the results of all buckets make up one image, in whichever order they
arrive, by however many workers they were rendered, and whatever the size of the buckets is.

## Main statements

* `render_eq_ofPixels`: one worker that takes the buckets in order renders the colors of the pixels.
* `Pool.Consistent.writeAll?_eq`: so do the results of a pool, in any order.
* `Pool.Run.exists_finished`: every run can be continued until all workers have stopped.
* `image_eq_of_every_schedule`: the image is the same for all schedules.
-/

namespace Radiance

variable {σ α : Type} [Scalar α] [Sampler σ α]
variable {scene : Scene α} {integrator : Integrator α} {states : σ → Prop} {s s' : σ}
variable {size : UInt32}

/-! ## One worker -/

/-- A bucket rendered and written to the image. -/
def renderInto (scene : Scene α) (integrator : Integrator α) (state : FrameBuffer α × σ)
    (b : Bucket) : FrameBuffer α × σ :=
  let (colors, s) := renderBucket scene integrator b state.2
  ((state.1.writeBucket? b colors).getD state.1, s)

theorem renderInto_eq (f : FrameBuffer α) (s : σ) (b : Bucket) :
    renderInto scene integrator (f, s) b =
      ((f.writeBucket? b (renderBucket scene integrator b s).1).getD f,
        (renderBucket scene integrator b s).2) := rfl

theorem render_eq_foldl (scene : Scene α) (integrator : Integrator α) (s : σ) (size : UInt32) :
    render scene integrator s size =
      ((Bucket.generate scene.camera.width scene.camera.height size).foldl
        (renderInto scene integrator)
        (.black scene.camera.width scene.camera.height, s)).1 := rfl

theorem foldl_renderInto_painted (scene : Scene α) (integrator : Integrator α)
    (hm : Sampler.Memoryless states) (hs : states s) (hs' : states s') {f : FrameBuffer α}
    (hf : f.IsFull) {bs : List Bucket} (hbs : ∀ b ∈ bs, ∀ p ∈ b.pixels, f.Has p) :
    FrameBuffer.Painted (pixelColor scene integrator s) (bs.flatMap Bucket.pixels) f
      (bs.foldl (renderInto scene integrator) (f, s')).1 := by
  induction bs generalizing f s' with
  | nil => exact .nil _ f
  | cons b bs ih =>
    obtain ⟨g, hwrite, hg⟩ := FrameBuffer.writeBucket?_painted (pixelColor scene integrator s) hf
      (hbs b List.mem_cons_self)
    have hcolors := renderBucket_fst hm scene integrator hs hs' b
    rw [List.foldl_cons, List.flatMap_cons, renderInto_eq, hcolors, hwrite, Option.getD_some]
    refine hg.append (ih (keeps_renderBucket hm scene integrator b s' hs') (hg.isFull hf) ?_)
    exact fun c hc p hp => hg.has_iff.2 (hbs c (List.mem_cons_of_mem _ hc) p hp)

/-- One worker that takes the buckets in order renders the colors of the pixels. -/
theorem render_eq_ofPixels (hm : Sampler.Memoryless states) (hs : states s)
    (hwidth : IsExtent scene.camera.width) (hheight : IsExtent scene.camera.height)
    (hsize : IsExtent size) :
    render scene integrator s size =
      .ofPixels scene.camera.width scene.camera.height (pixelColor scene integrator s) := by
  have hcover {p : Pixel} := (Bucket.sound hwidth hheight hsize).exists_mem_pixels (p := p)
  have hfull : (FrameBuffer.black scene.camera.width scene.camera.height : FrameBuffer α).IsFull :=
    FrameBuffer.isFull_black _ _
  rw [render_eq_foldl]
  have hpainted := foldl_renderInto_painted scene integrator hm hs hs hfull
    fun b hb p hp => hcover.1 ⟨b, hb, hp⟩
  exact hpainted.eq_ofPixels hfull fun p hp => List.mem_flatMap.2 (hcover.2 hp)

/-! ## Many workers -/

namespace Pool

variable {count : Nat} {trace : List (Nat × Action α)} {pool : Pool σ α}

omit [Sampler σ α] in
/-- The results of a pool whose workers have stopped show the colors of the pixels, in whichever
order they arrive. -/
theorem Consistent.writeAll?_eq {width height : UInt32} {color : Pixel → Color α}
    (hwidth : IsExtent width) (hheight : IsExtent height) (hsize : IsExtent size)
    (h : Consistent (Bucket.generate width height size) count states color trace pool)
    (hcount : 0 < count) (hfin : pool.IsFinished) {results : List (Bucket × List (Color α))}
    (hresults : results.Perm ((sent trace).map Prod.snd)) :
    (FrameBuffer.black width height).writeAll? results = some (.ofPixels width height color) := by
  have hcover {p : Pixel} := (Bucket.sound hwidth hheight hsize).exists_mem_pixels (p := p)
  have hbuckets := h.results_perm hcount hfin
  have hshown : ∀ r ∈ results, r.2 = r.1.pixels.map color ∧
      ∀ p ∈ r.1.pixels, (FrameBuffer.black width height : FrameBuffer α).Has p := by
    intro r hr
    obtain ⟨e, he, rfl⟩ := List.mem_map.1 (hresults.mem_iff.1 hr)
    have hmem : e.2.1 ∈ Bucket.generate width height size :=
      hbuckets.mem_iff.1 (List.mem_map_of_mem (List.mem_map_of_mem he))
    exact ⟨h.sent_eq e he, fun p hp => hcover.1 ⟨e.2.1, hmem, hp⟩⟩
  have hfull : (FrameBuffer.black width height : FrameBuffer α).IsFull :=
    FrameBuffer.isFull_black _ _
  obtain ⟨g, hwrite, hg⟩ := FrameBuffer.writeAll?_painted hfull hshown
  rw [hwrite, hg.eq_ofPixels hfull fun p hp => ?_]
  · rfl
  · obtain ⟨b, hb, hp⟩ := hcover.2 hp
    obtain ⟨r, hr, rfl⟩ := List.mem_map.1 (hbuckets.mem_iff.2 hb)
    exact List.mem_flatMap.2 ⟨r, hresults.mem_iff.2 hr, hp⟩

/-- Every run can be continued until all workers have stopped. -/
theorem Run.exists_finished {buckets : List Bucket} (hm : Sampler.Memoryless states)
    (hs : states s) (hrun : Run scene integrator (initial buckets count s) trace pool) :
    ∃ rest pool', Run scene integrator (initial buckets count s) (trace ++ rest) pool' ∧
      pool'.IsFinished := by
  induction hleft : pool.stepsLeft using Nat.strongRecOn generalizing trace pool with
  | ind n ih =>
    by_cases hfin : pool.IsFinished
    · exact ⟨[], pool, by simpa using hrun, hfin⟩
    · simp only [IsFinished, not_forall] at hfin
      obtain ⟨w, hw, hstop⟩ := hfin
      obtain ⟨i, hi⟩ := List.mem_iff_getElem?.1 hw
      obtain ⟨a, next, hstep⟩ := exists_step scene integrator hi hstop
      have hrun' := hrun.snoc hstep
      have hsteps := (hrun.consistent hm hs).steps_eq
      have hsteps' := (hrun'.consistent hm hs).steps_eq
      rw [List.length_append, List.length_singleton] at hsteps'
      obtain ⟨rest, pool', hrest, hfin⟩ := ih next.stepsLeft (by omega) hrun' rfl
      exact ⟨(i, a) :: rest, pool', by simpa using hrest, hfin⟩

end Pool

/-! ## All schedules -/

/-- There is one image that shows at each pixel what a sampler of its own gives.  One worker renders
it, in buckets of any size, and so do any number of workers that take the buckets from a queue: they
never block, they stop after a bounded number of steps, each bucket is taken once and sent once by
the same worker, and the results make up the image in whichever order they arrive. -/
theorem image_eq_of_every_schedule (scene : Scene Float32) (integrator : Integrator Float32)
    (spec : SamplerSpec) (hwidth : IsExtent scene.camera.width)
    (hheight : IsExtent scene.camera.height) :
    ∃ image : FrameBuffer Float32,
      image.width = scene.camera.width ∧ image.height = scene.camera.height ∧
      image.pixels.size = scene.camera.width.toNat * scene.camera.height.toNat ∧
      (∀ p : Pixel, p.x < scene.camera.width → p.y < scene.camera.height →
        image.get? p = some (renderPixel scene integrator p spec.source).1) ∧
      ∀ size, IsExtent size →
        render scene integrator spec.source size = image ∧
        ∀ count, 1 ≤ count → ∀ trace pool,
          Pool.Run scene integrator
            (.initial (Bucket.generate scene.camera.width scene.camera.height size) count
              spec.source) trace pool →
          trace.length ≤
            3 * (Bucket.generate scene.camera.width scene.camera.height size).length + count ∧
          (∀ i w, pool.workers[i]? = some w → w.task ≠ .stopped →
            ∃ a pool', Pool.Step scene integrator pool (i, a) pool') ∧
          (pool.IsFinished →
            (∀ b ∈ Bucket.generate scene.camera.width scene.camera.height size,
              ∃ i, (Pool.popped trace).filter (fun e => e.2 = b) = [(i, b)] ∧
                ∃ colors, (Pool.sent trace).filter (fun e => e.2.1 = b) = [(i, b, colors)]) ∧
            ∀ results, results.Perm ((Pool.sent trace).map Prod.snd) →
              (FrameBuffer.black scene.camera.width scene.camera.height).writeAll? results =
                some image) := by
  have hm := spec.memoryless
  have hs := spec.states_source
  refine ⟨.ofPixels scene.camera.width scene.camera.height
    (pixelColor scene integrator spec.source), rfl, rfl, FrameBuffer.isFull_ofPixels _ _ _,
    fun p hx hy => FrameBuffer.get?_ofPixels _ hx hy, fun size hsize =>
      ⟨render_eq_ofPixels hm hs hwidth hheight hsize, fun count hcount trace pool hrun => ?_⟩⟩
  have hbooks := hrun.consistent hm hs
  refine ⟨by have := hbooks.steps_eq; omega, fun i w hw => Pool.exists_step scene integrator hw,
    fun hfin => ⟨fun b hb => ?_, fun results hresults => ?_⟩⟩
  · exact hbooks.existsUnique_worker hcount hfin (Bucket.nodup_generate hwidth hheight hsize) hb
  · exact hbooks.writeAll?_eq hwidth hheight hsize hcount hfin hresults

/-- A glowing matte sphere four units in front of the camera of a small image, under a blue sky. -/
def sphereScene : Scene Float32 where
  camera := .pinhole 3 2 40 .x .identity
  root := .placed .sphere
    { bsdf := some (.diffuse (.constant ⟨0.5, 0.5, 0.5⟩))
      emission := some (.constant ⟨2, 1, 0.5⟩)
      transform := some (.ofMatrix (.translate ⟨0, 0, 4⟩)) }
  background := some ⟨.constant ⟨0.25, 0.5, 1⟩, none⟩

/-- Two workers share the buckets of a small image until both have stopped, and the results make up
the image in the reverse order too. -/
theorem image_eq_of_every_schedule_sphere :
    let sampler := SamplerSpec.source ⟨.halton, 2, 7⟩
    ∃ image, render sphereScene (.pathTracer 3) sampler 2 = image ∧
      image.get? ⟨2, 1⟩ = some (renderPixel sphereScene (.pathTracer 3) ⟨2, 1⟩ sampler).1 ∧
      ∃ trace pool, Pool.Run sphereScene (.pathTracer 3)
          (.initial (Bucket.generate 3 2 2) 2 sampler) trace pool ∧ pool.IsFinished ∧
        (FrameBuffer.black 3 2).writeAll? ((Pool.sent trace).map Prod.snd).reverse =
          some image := by
  intro sampler
  have hwidth : IsExtent sphereScene.camera.width := by decide
  have hheight : IsExtent sphereScene.camera.height := by decide
  obtain ⟨image, -, -, -, hget, hall⟩ := image_eq_of_every_schedule sphereScene (.pathTracer 3)
    ⟨.halton, 2, 7⟩ hwidth hheight
  obtain ⟨hrender, hpools⟩ := hall 2 (by decide)
  have hstart : Pool.Run sphereScene (.pathTracer 3)
      (.initial (Bucket.generate 3 2 2) 2 sampler) [] _ := .nil
  obtain ⟨trace, pool, hrun, hfin⟩ := hstart.exists_finished (SamplerSpec.memoryless _)
    (SamplerSpec.states_source ⟨.halton, 2, 7⟩)
  obtain ⟨-, -, hfinished⟩ := hpools 2 (by decide) _ pool hrun
  exact ⟨image, hrender, hget ⟨2, 1⟩ (by decide) (by decide), trace, pool, hrun, hfin,
    (hfinished hfin).2 _ (List.reverse_perm _)⟩

end Radiance
