import Radiance.Description.Encode
import Radiance.Main
import Radiance.Proofs.Geometry.Slabs
import Radiance.Proofs.Hierarchy.Bounds
import Radiance.Proofs.Hierarchy.Layout
import Radiance.Proofs.Hierarchy.Nearest
import Radiance.Proofs.Integrator.Growth
import Radiance.Proofs.Integrator.Lights
import Radiance.Proofs.Integrator.Recursion
import Radiance.Proofs.Random.Draws
import Radiance.Proofs.Render.Image
import Radiance.Proofs.Scattering.Glass
import Radiance.Proofs.Scattering.Mixture
import Radiance.Proofs.Scattering.TwoSided
import Radiance.Proofs.Scene.Occlusion
import Radiance.Proofs.Shape.Nesting
import Radiance.Proofs.Shape.Orientation
import Radiance.Proofs.Json.Lexing
import Radiance.Proofs.Json.Reading
import Radiance.Proofs.Description.Recovery
import Radiance.Proofs.Assembly.Stack
import Radiance.Proofs.Description.RoundTrip
import Radiance.Proofs.Files.Agreement
import Radiance.Proofs.Assembly.Succession
import Radiance.Proofs.Raster.Range
import Radiance.Proofs.Shape.Density
import Radiance.Proofs.Texture.Lookup
import Radiance.Proofs.Texture.Places
import Radiance.Proofs.Mesh.Access
import Radiance.Proofs.Mesh.Merging
import Radiance.Proofs.Hierarchy.SurfaceArea
import Radiance.Proofs.Scalar.Rational
import Radiance.Proofs.Random.Digits
import Radiance.Proofs.Random.Range
import Radiance.Proofs.Geometry.Unions
import Radiance.Proofs.Random.Stratified
import Radiance.Proofs.Hierarchy.Cheapest
import Radiance.Proofs.Render.Reports
import Radiance.Proofs.Hierarchy.Traversal
import Radiance.Proofs.Geometry.Lens
import Radiance.Proofs.Assembly.Groups
import Radiance.Proofs.Hierarchy.Rows
