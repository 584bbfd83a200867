import Radiance.Geometry.Frame
import Radiance.Geometry.Ray
import Radiance.Light

/-!
# Hit records

What is known about the nearest surface along a ray.  A record is handed from surface to surface;
each replaces it only by a nearer hit.

## Main definitions

* `Surface`: a point of a surface.
* `Binding`: the material, emission and placement given to a shape.
* `Hit`: the record, with the light that leaves its surface.
-/

namespace Radiance

/-- A point of a surface. -/
structure Surface (α : Type) where
  position : Vec3 α
  uv : Vec2 α
  frame : Frame α
  /-- The density per area with which the point was chosen, for sampled points. -/
  pdf : α
  deriving Repr, DecidableEq, Inhabited

/-- What is bound to a shape when it is placed in a scene. -/
structure Binding (α : Type) where
  bsdf : Option (Bsdf (Texture α)) := none
  emission : Option (Texture α) := none
  transform : Option (Transform α) := none
  /-- A texture of normals in the tangent frame, with `[-1, 1]` mapped to `[0, 1]`. -/
  normalMap : Option (Texture α) := none
  deriving Repr, DecidableEq, Inhabited

/-- How much work a query has done, in counters that wrap around. -/
structure TraversalStats where
  nodes : UInt32 := 0
  primitives : UInt32 := 0
  deriving Repr, DecidableEq, Inhabited

/-- The nearest hit found so far along a ray; without a binding it is a miss. -/
structure Hit (α : Type) where
  surface : Surface α
  /-- The direction back along the ray. -/
  wo : Vec3 α
  /-- The distance along the ray; only nearer hits are accepted. -/
  t : α
  binding : Option (Binding α)
  stats : TraversalStats
  /-- Whether all normal maps looked up so far had a color, also those of hits given up since. -/
  isMapped : Bool := true
  deriving Repr, DecidableEq, Inhabited

variable {α : Type} [Scalar α]

/-- The point before any surface is found. -/
def Surface.origin : Surface α := ⟨.zero, .zero, .standard, 0⟩

/-- Whether the binding gives the shape a look of its own. -/
def Binding.hasMaterial (b : Binding α) : Bool := b.bsdf.isSome || b.emission.isSome

namespace Hit

/-- The record before a query that accepts hits nearer than a distance. -/
def within (wo : Vec3 α) (t : α) : Hit α := ⟨.origin, wo, t, none, {}, true⟩

/-- The record before a query without a limit. -/
def unbounded (wo : Vec3 α) : Hit α := within wo Scalar.infinity

def isHit (h : Hit α) : Bool := h.binding.isSome

def countNode (h : Hit α) : Hit α := { h with stats := { h.stats with nodes := h.stats.nodes + 1 } }

def countPrimitive (h : Hit α) : Hit α :=
  { h with stats := { h.stats with primitives := h.stats.primitives + 1 } }

/-- The material at the hit. -/
def bsdf? (h : Hit α) : Option (Bsdf (Texture α)) := h.binding.bind (·.bsdf)

/-- The direction back along the ray, in the frame of the surface. -/
def localWo (h : Hit α) : Vec3 α := h.surface.frame.toLocal h.wo

/-- The radiance emitted back along the ray. -/
def emission (h : Hit α) : Color α :=
  match h.binding.bind (·.emission) with
  | some texture => emittedRadiance texture h.surface.uv h.localWo
  | none => .zero

/-- Samples the direction of a bounce, in the space of the ray. -/
def sampleBsdf {σ : Type} [Sampler σ α] (h : Hit α) : StateM σ (BsdfSample α) :=
  match h.bsdf? with
  | none => return .invalid
  | some bsdf => do
    let s ← bsdf.sample h.surface.uv h.localWo
    if s.isInvalid then return .invalid
    else return { s with wi := (h.surface.frame.toWorld s.wi).normalize }

/-- The part of the light from a direction that leaves back along the ray. -/
def evaluateBsdf (h : Hit α) (wi : Vec3 α) : Color α :=
  match h.bsdf? with
  | none => .zero
  | some bsdf => bsdf.evaluate h.surface.uv h.localWo (h.surface.frame.toLocal wi)

/-- The plain color of the surface. -/
def albedo (h : Hit α) : Color α :=
  match h.bsdf? with
  | none => .zero
  | some bsdf => bsdf.albedo h.surface.uv

/-! ### Records whose textures lack a color -/

/-- Whether the normal maps, the plain color and the emission that the record shows had a color. -/
def isDefined (h : Hit α) : Bool :=
  let uv := h.surface.uv
  h.isMapped && h.bsdf?.all (fun bsdf => (bsdf.albedo? uv).isSome) &&
    (h.binding.bind (·.emission)).all (fun e => (emittedRadiance? e uv h.localWo).isSome)

/-- Samples the direction of a bounce, if the material has the colors for it. -/
def sampleBsdf? {σ : Type} [Sampler σ α] (h : Hit α) : StateM σ (Option (BsdfSample α)) := do
  let before ← get
  let s ← h.sampleBsdf
  let defined := h.bsdf?.all fun bsdf => (bsdf.sample? h.surface.uv h.localWo before).1.isSome
  return if defined then some s else none

/-- The part of the light from a direction that leaves back along the ray, if the material has the
colors for it. -/
def evaluateBsdf? (h : Hit α) (wi : Vec3 α) : Option (Color α) :=
  match h.bsdf? with
  | none => some .zero
  | some bsdf => bsdf.evaluate? h.surface.uv h.localWo (h.surface.frame.toLocal wi)

end Hit

end Radiance
