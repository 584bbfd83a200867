import Radiance.Assembly
import Radiance.Render

/-!
# Jobs

Everything that one image needs, from a scene file to the pixels.

## Main definitions

* `Job.ofDescription`: the job of a description, together with what was reported on the way.
* `Job.load`: the job of a scene file.
* `Job.image`: the image of a job.
-/

namespace Radiance

/-- Everything that one image needs. -/
structure Job (α : Type) where
  scene : Scene α
  integrator : Integrator α
  sampler : Source
  /-- The path of the image. -/
  output : String
  deriving Inhabited

/-- The description in a scene file, and what is reported of it. -/
def Description.load {α : Type} [Scalar α] [JsonScalar α] (assets : Assets α) (path : String) :
    Except (ConfigError α) (Description α × Event α) := do
  match assets.text path with
  | .error cause => throw (.unreadable path cause)
  | .ok text =>
    let d ← Description.parse text
    return (d, .sceneRead path d.instances.length d.lights.length d.shared.length)

namespace Job

variable {α : Type} [Scalar α]

/-- The directory that the file names of a scene file are read from. -/
def baseOf (path : String) : String := (PathName.parent? path).getD "."

/-- The steps that make a job of a description. -/
def assemble (assets : Assets α) (base : String) (d : Description α) : Assemble α (Job α) := do
  match d.validate with
  | .error e => throw (.config e)
  | .ok () =>
    match d.output with
    | none => throw (.config .missingOutput)
    | some output =>
      let scene ← (Plan.mk assets base d.shared).scene d
      let stock ← get
      Plan.note [.ready d.instances.length scene.lights.size stock.images.size stock.meshes.length]
      return { scene
               integrator := d.integrator
               sampler := d.sampler.source
               output := PathName.join base output }

/-- The job of a description, and what was reported while it was made. -/
def ofDescription (assets : Assets α) (base : String) (d : Description α) :
    Except (LoadError α) (Job α) × List (Event α) :=
  let (result, stock) := (assemble assets base d).run { images := { base := some base } }
  (result, stock.log)

/-- The job of a scene file, and what was reported while it was made. -/
def load [JsonScalar α] (assets : Assets α) (path : String) :
    Except (LoadError α) (Job α) × List (Event α) :=
  match Description.load assets path with
  | .error e => (.error (.config e), [])
  | .ok (d, event) =>
    let (result, events) := ofDescription assets (baseOf path) d
    (result, event :: events)

/-- The image of a job, rendered in buckets of a size. -/
def image [Sampler Source α] (job : Job α) (bucketSize : UInt32) : FrameBuffer α :=
  render job.scene job.integrator job.sampler bucketSize

end Job

end Radiance
