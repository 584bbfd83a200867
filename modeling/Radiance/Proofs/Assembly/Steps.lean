import Radiance.Assembly

/-!
# Steps of an assembly

An assembly is a sequence of steps that change the stock.  What a step keeps of the stock and what
is known of its result pass through the sequence.  Most steps read images and write to the log only,
so they keep whatever is said of the meshes and the shared shapes.

## Main definitions

* `Assemble.Yields`: a step keeps an invariant of the stock and gives results with a property.
* `Stock.OfShapes`: an invariant is about the meshes and the shared shapes alone.

## Main statements

* `Plan.yields_binding`, `Plan.yields_camera`, `Plan.yields_light`: steps that keep such invariants.
-/

namespace Radiance

/-! ## Steps of an assembly -/

/-- A step keeps an invariant of the stock, also if it fails, and its results have a property. -/
def Assemble.Yields {α β : Type} (inv : Stock α → Prop) (Q : β → Prop) (m : Assemble α β) : Prop :=
  ∀ stock, inv stock → inv (m.run stock).2 ∧ ∀ x, (m.run stock).1 = .ok x → Q x

namespace Assemble.Yields

variable {α β γ : Type} {inv : Stock α → Prop} {P : β → Prop} {Q : γ → Prop}

theorem pure {x : β} (hx : P x) : Yields inv P (Pure.pure x : Assemble α β) := by
  intro stock hstock
  refine ⟨hstock, fun y hy => ?_⟩
  cases hy
  exact hx

theorem bind {m : Assemble α β} {f : β → Assemble α γ} (hm : Yields inv P m)
    (hf : ∀ x, P x → Yields inv Q (f x)) : Yields inv Q (m >>= f) := by
  intro stock hstock
  obtain ⟨hafter, hresult⟩ := hm stock hstock
  have hrun : (m >>= f).run stock = ExceptT.bindCont f (m.run stock).1 (m.run stock).2 := rfl
  rw [hrun]
  generalize m.run stock = r at hafter hresult
  obtain ⟨x | x, after⟩ := r
  · exact ⟨hafter, fun _ hx => by cases hx⟩
  · exact hf x (hresult x rfl) after hafter

theorem mono {P' : β → Prop} {m : Assemble α β} (hm : Yields inv P m) (h : ∀ x, P x → P' x) :
    Yields inv P' m :=
  fun stock hstock => ⟨(hm stock hstock).1, fun x hx => h x ((hm stock hstock).2 x hx)⟩

theorem throw (e : LoadError α) : Yields inv P (throw e : Assemble α β) :=
  fun _ hstock => ⟨hstock, fun _ hx => by cases hx⟩

theorem get : Yields inv inv (get : Assemble α (Stock α)) := by
  intro stock hstock
  refine ⟨hstock, fun y hy => ?_⟩
  cases hy
  exact hstock

theorem modify {f : Stock α → Stock α} (hf : ∀ stock, inv stock → inv (f stock)) :
    Yields inv (fun _ => True) (modify f : Assemble α Unit) :=
  fun stock hstock => ⟨hf stock hstock, fun _ _ => trivial⟩

theorem foldlM {f : γ → β → Assemble α γ} (hf : ∀ c b, Q c → Yields inv Q (f c b)) (l : List β)
    {c : γ} (hc : Q c) : Yields inv Q (l.foldlM f c) := by
  induction l generalizing c with
  | nil => exact .pure hc
  | cons b l ih =>
    rw [List.foldlM_cons]
    exact (hf c b hc).bind fun _ h => ih h

end Assemble.Yields

/-! ## Invariants of the shapes -/

theorem exists_mem_of_lookup {κ β : Type} [BEq κ] {table : List (κ × β)} {k : κ} {x : β}
    (h : table.lookup k = some x) : ∃ key, (key, x) ∈ table := by
  induction table with
  | nil => cases h
  | cons entry rest ih =>
    rw [List.lookup_cons] at h
    split at h
    · cases h
      exact ⟨_, List.mem_cons_self⟩
    · obtain ⟨key, hmem⟩ := ih h
      exact ⟨key, List.mem_cons_of_mem _ hmem⟩

variable {α : Type}

/-- An invariant of the stock that is about its meshes and its shared shapes alone. -/
def Stock.OfShapes (inv : Stock α → Prop) : Prop :=
  ∀ s s' : Stock α, s'.meshes = s.meshes → s'.shared = s.shared → inv s → inv s'

namespace Plan

open Assemble (Yields)

section

variable {inv : Stock α → Prop} (hinv : Stock.OfShapes inv) {plan : Plan α}
include hinv

theorem yields_note (events : List (Event α)) : Yields inv (fun _ => True) (note events) :=
  .modify fun s h => hinv s _ rfl rfl h

theorem yields_image (filename : String) : Yields inv (fun _ => True) (plan.image filename) := by
  unfold image
  refine Yields.get.bind fun stock _ => ?_
  dsimp only
  split
  · exact .throw _
  next image cache _ =>
    have hkeep : Yields inv (fun _ => True)
        (do modify fun s : Stock α => { s with images := cache }; return image) :=
      (Yields.modify fun s h => hinv s { s with images := cache } rfl rfl h).bind
        fun _ _ => .pure trivial
    split
    · exact (yields_note hinv _).bind fun _ _ => hkeep
    · exact hkeep

theorem yields_texture (spec : TextureSpec α) :
    Yields inv (fun _ => True) (plan.texture spec) := by
  cases spec with
  | image filename exposure border filter =>
    exact (yields_image hinv filename).bind fun _ _ => .pure trivial
  | _ => exact .pure trivial

theorem yields_texture? (spec : Option (TextureSpec α)) :
    Yields inv (fun _ => True) (plan.texture? spec) := by
  cases spec with
  | none => exact .pure trivial
  | some spec => exact (yields_texture hinv spec).bind fun _ _ => .pure trivial

theorem yields_bsdf (bsdf : Bsdf (TextureSpec α)) :
    Yields inv (fun _ => True) (bsdf.mapM plan.texture) := by
  have h : ∀ spec, Yields inv (fun _ => True) (plan.texture spec) := yields_texture hinv
  cases bsdf with
  | diffuse albedo => exact (h _).bind fun _ _ => .pure trivial
  | roughConductor reflectance roughness =>
    exact (h _).bind fun _ _ => (h _).bind fun _ _ => .pure trivial
  | dielectric ior reflectance transmittance =>
    exact (h _).bind fun _ _ => (h _).bind fun _ _ => (h _).bind fun _ _ => .pure trivial
  | _ =>
    exact (h _).bind fun _ _ => (h _).bind fun _ _ => (h _).bind fun _ _ =>
      (h _).bind fun _ _ => .pure trivial

variable [Scalar α] {P : Transform α → Prop}

/-- A placement that is not refused is one that can be undone. -/
theorem yields_transform {steps : List (TransformStep α)} (owner : String)
    (hP : ∀ t, TransformStep.compose? steps = some t → t.isInvertible = true → P t) :
    Yields inv (fun placement => ∀ t ∈ placement, P t) (transform steps owner) := by
  unfold transform
  split
  · exact .pure (by simp)
  next t ht =>
    split
    next hinvertible =>
      refine .pure ?_
      rintro _ ⟨⟩
      exact hP t ht hinvertible
    · exact (yields_note hinv _).bind fun _ _ => .throw _

theorem yields_binding {spec : BindingSpec α} (owner : String)
    (hP : ∀ t, TransformStep.compose? spec.transform = some t → t.isInvertible = true → P t) :
    Yields inv (fun b => ∀ t ∈ b.transform, P t) (plan.binding spec owner) := by
  have hrest (bsdf : Option (Bsdf (Texture α))) :
      Yields inv (fun b => ∀ t ∈ b.transform, P t) (do
        let emission ← plan.texture? spec.emission
        let normalMap ← plan.texture? spec.normal
        let transform ← transform spec.transform owner
        return ({ bsdf, emission, transform, normalMap } : Binding α)) :=
    (yields_texture? hinv _).bind fun _ _ => (yields_texture? hinv _).bind fun _ _ =>
      (yields_transform hinv owner hP).bind fun _ h => .pure h
  unfold binding
  cases spec.bsdf with
  | none => exact hrest none
  | some b => exact (yields_bsdf hinv b).bind fun _ _ => hrest _

theorem yields_camera (spec : CameraSpec α) : Yields inv (fun _ => True) (camera spec) :=
  (yields_transform hinv (P := fun _ => True) "camera" fun _ _ _ => trivial).bind
    fun _ _ => .pure trivial

/-- Lights leave the geometry alone. -/
theorem yields_light (scene : Scene α) (spec : LightSpec α) :
    Yields inv (fun lit => lit.root = scene.root) (plan.light scene spec) := by
  cases spec with
  | envmap texture steps =>
    exact (yields_texture hinv texture).bind fun _ _ =>
      (yields_transform hinv (P := fun _ => True) "envmap" fun _ _ _ => trivial).bind
        fun _ _ => .pure rfl
  | _ => exact .pure rfl

end

end Plan

end Radiance
