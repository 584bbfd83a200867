import Radiance.Integrator
import Radiance.Raster.FrameBuffer
import Radiance.Raster.Progress

/-!
# Rendering

From a scene to an image, pixel by pixel and bucket by bucket.

## Main definitions

* `renderPixel`: the mean of the samples of a pixel.
* `renderBucket`: the pixels of a bucket.
* `render`: the image of a scene.
-/

namespace Radiance

variable {α : Type} [Scalar α] {σ : Type} [Sampler σ α]

/-- The radiance of one sample of a pixel. -/
def renderSample (scene : Scene α) (integrator : Integrator α) (pixel : Pixel) (sample : Nat) :
    StateM σ (Color α) := do
  modify fun s => Sampler.seedPixel s pixel (UInt32.ofNat sample)
  let c ← scene.camera.sample pixel
  let radiance ← integrator.radiance scene c.ray
  return c.weight * radiance

/-- The mean of the samples of a pixel. -/
def renderPixel (scene : Scene α) (integrator : Integrator α) (pixel : Pixel) :
    StateM σ (Color α) := do
  let count := (Sampler.samplesPerPixel (← get)).toNat
  if count = 0 then return .zero
  else
    let sum ← (List.range count).foldlM
      (fun sum i => do return sum + (← renderSample scene integrator pixel i)) .zero
    return sum / (Scalar.ofNat count : α)

/-- The pixels of a bucket row by row. -/
def renderBucket (scene : Scene α) (integrator : Integrator α) (b : Bucket) :
    StateM σ (List (Color α)) :=
  b.pixels.mapM (renderPixel scene integrator)

/-- The image of a scene, rendered by one worker that takes the buckets in order. -/
def render (scene : Scene α) (integrator : Integrator α) (sampler : σ) (bucketSize : UInt32) :
    FrameBuffer α :=
  let width := scene.camera.width
  let height := scene.camera.height
  let step (state : FrameBuffer α × σ) (b : Bucket) : FrameBuffer α × σ :=
    let (colors, s) := renderBucket scene integrator b state.2
    ((state.1.writeBucket? b colors).getD state.1, s)
  ((Bucket.generate width height bucketSize).foldl step (.black width height, sampler)).1

end Radiance
