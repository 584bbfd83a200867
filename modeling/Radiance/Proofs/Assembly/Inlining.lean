import Radiance.Proofs.Assembly.Afresh
import Radiance.Proofs.Assembly.References

/-!
# Shared shapes stand for their descriptions

An assembly keeps the shared shapes it has built.  It gives the same as building afresh from a
description in which all references are replaced by their shapes, and it fails with the same offence
if there is one.

A kept shape hides the references below it from the check for cycles.  No name on the way can be
below it: such a name would have been kept before it, and a name on the way is not kept.

## Main definitions

* `Stock.IsFaithful`: all shapes kept so far are built as if from scratch.
* `Assemble.Inlines`: a step gives what building afresh gives after references are replaced.

## Main statements

* `Plan.inlines_scene`: the scene of a description is built as if from scratch.
* `Plan.run_scene`: what the scene is without an offence, and which error there is with one.
-/

namespace Radiance

variable {α β γ δ : Type}

/-! ## Faithful stocks -/

namespace Stock

/-- The shapes of some names are not kept. -/
def Avoids (stock : Stock α) (names : List String) : Prop :=
  ∀ name ∈ names, stock.shared.lookup name = none

/-- Names whose shapes are not kept later are not kept now. -/
def Grows (stock after : Stock α) : Prop := ∀ names, after.Avoids names → stock.Avoids names

/-- The stock with the shape of one more name. -/
def keep (stock : Stock α) (id : String) (shape : Shape α) : Stock α :=
  { stock with shared := (id, shape) :: stock.shared }

theorem avoids_keep_iff {stock : Stock α} {id : String} {shape : Shape α} {names : List String} :
    (stock.keep id shape).Avoids names ↔ id ∉ names ∧ stock.Avoids names := by
  simp only [Avoids, keep, List.lookup_cons]
  grind

/-- On a way through names whose shapes are not kept: all shapes kept so far are what their
descriptions give afresh after references are replaced. -/
structure IsFaithful [Scalar α] (plan : Plan α) (way : List String) (stock : Stock α) : Prop where
  genuine : stock.IsGenuine plan
  avoids : stock.Avoids way
  shared : ∀ id shape, stock.shared.lookup id = some shape → ∃ flat,
    plan.freshShape flat = .ok shape ∧
      ∀ way, stock.Avoids way → plan.inline way (.ref id) = .ok flat

variable [Scalar α] {plan : Plan α} {way : List String} {stock : Stock α}

theorem IsFaithful.congr {after : Stock α} (h : stock.IsFaithful plan way)
    (hgenuine : after.IsGenuine plan) (hshared : after.shared = stock.shared) :
    after.IsFaithful plan way :=
  ⟨hgenuine, by simpa [Avoids, hshared] using h.avoids,
    by simpa [Avoids, hshared] using h.shared⟩

/-- The shape of a name may be kept once it has been built on the way through the name. -/
theorem IsFaithful.keep {id : String} {shape : Shape α} {spec flat : ShapeSpec α}
    (h : stock.IsFaithful plan (id :: way)) (hclosed : id ∉ way)
    (hfound : plan.shared.lookup id = some spec) (hflat : plan.freshShape flat = .ok shape)
    (hinline : ∀ way, stock.Avoids way → plan.inline way spec = .ok flat) :
    (stock.keep id shape).IsFaithful plan way where
  genuine := ⟨h.genuine.base, h.genuine.images, h.genuine.meshes⟩
  avoids := avoids_keep_iff.2 ⟨hclosed, fun name hname => h.avoids name (.tail _ hname)⟩
  shared := by
    intro name kept hkept
    rw [Stock.keep, List.lookup_cons] at hkept
    split at hkept
    next hname =>
      obtain rfl : name = id := by simpa using hname
      cases hkept
      -- A way that avoids the new stock does not go through the name, and may be made longer by it.
      refine ⟨flat, hflat, fun other hother => ?_⟩
      obtain ⟨hnew, hold⟩ := avoids_keep_iff.1 hother
      rw [Plan.inline_ref_of_lookup hnew hfound]
      exact hinline _ (List.forall_mem_cons.2 ⟨h.avoids name List.mem_cons_self, hold⟩)
    · obtain ⟨flat', hflat', hinline'⟩ := h.shared name kept hkept
      exact ⟨flat', hflat', fun other hother => hinline' other (avoids_keep_iff.1 hother).2⟩

end Stock

theorem Plan.isFaithful_start [Scalar α] (plan : Plan α) : plan.start.IsFaithful plan [] :=
  ⟨plan.isGenuine_start, by simp [Stock.Avoids], by simp [Plan.start]⟩

/-! ## Steps that build as if from scratch -/

/-- On a way through names, a step gives what building afresh gives after references are replaced,
or fails as replacing references does on this way. -/
def Assemble.Inlines [Scalar α] (plan : Plan α) (way : List String)
    (inline : List String → Except (ConfigError α) γ) (fresh : γ → Except (LoadError α) β)
    (m : Assemble α β) : Prop :=
  ∀ stock, stock.IsFaithful plan way → ∃ result after, m.run stock = (result, after) ∧
    after.IsFaithful plan way ∧ stock.Grows after ∧
    match result with
    | .ok x => ∃ flat, fresh flat = .ok x ∧ ∀ way, after.Avoids way → inline way = .ok flat
    | .error e => ∃ c, e = .config c ∧ inline way = .error c

namespace Assemble.Inlines

variable [Scalar α] {plan : Plan α} {way : List String}
  {inline : List String → Except (ConfigError α) γ} {fresh : γ → Except (LoadError α) β}
  {m : Assemble α β}

/-- A step without references. -/
theorem of_matches {flat : γ} (hm : Matches plan (fresh flat) m) (hshared : m.KeepsShared) :
    Inlines plan way (fun _ => .ok flat) fresh m := by
  obtain ⟨x, hfresh, hrun⟩ := hm
  intro stock hstock
  obtain ⟨after, hafter, hgenuine⟩ := hrun stock hstock.genuine
  have hsame : after.shared = stock.shared := by
    have := hshared.shared_run stock
    rwa [hafter] at this
  refine ⟨.ok x, after, hafter, hstock.congr hgenuine hsame, ?_, flat, hfresh, fun _ _ => rfl⟩
  intro names hnames
  simpa [Stock.Avoids, hsame] using hnames

/-- Two steps after each other.  Replacing references gives a description for each of them, and the
two are put together. -/
theorem bind {γ₁ γ₂ : Type} {inline₁ : List String → Except (ConfigError α) γ₁}
    {fresh₁ : β → γ₁ → Except (LoadError α) δ} {f : β → Assemble α δ}
    {inline₂ : List String → Except (ConfigError α) γ₂} {fresh₂ : γ₂ → Except (LoadError α) δ}
    (hm : Inlines plan way inline fresh m) (hf : ∀ x, Inlines plan way inline₁ (fresh₁ x) (f x))
    (join : γ → γ₁ → γ₂)
    (hinline : ∀ way, inline₂ way = do return join (← inline way) (← inline₁ way))
    (hfresh : ∀ a b, fresh₂ (join a b) = fresh a >>= fun x => fresh₁ x b) :
    Inlines plan way inline₂ fresh₂ (m >>= f) := by
  intro stock hstock
  obtain ⟨result, middle, hmiddle, hfaithful, hgrows, hresult⟩ := hm stock hstock
  cases result with
  | error e =>
    obtain ⟨c, rfl, hc⟩ := hresult
    refine ⟨_, middle, run_bind_of_error hmiddle, hfaithful, hgrows, c, rfl, ?_⟩
    rw [hinline, hc]
    rfl
  | ok x =>
    obtain ⟨a, ha, hresult⟩ := hresult
    obtain ⟨result, after, hafter, hfaithful', hgrows', hresult'⟩ := hf x middle hfaithful
    refine ⟨result, after, (run_bind_of_ok hmiddle).trans hafter, hfaithful',
      fun names h => hgrows names (hgrows' names h), ?_⟩
    cases result with
    | error e =>
      obtain ⟨c, rfl, hc⟩ := hresult'
      refine ⟨c, rfl, ?_⟩
      rw [hinline, hresult way hfaithful.avoids, hc]
      rfl
    | ok y =>
      obtain ⟨b, hb, hresult'⟩ := hresult'
      refine ⟨join a b, ?_, fun way hway => ?_⟩
      · rw [hfresh, ha]
        exact hb
      · rw [hinline, hresult way (hgrows' way hway), hresult' way hway]
        rfl

/-- A step followed by one without references. -/
theorem bind_matches {f : β → Assemble α δ} {g : β → Except (LoadError α) δ}
    (hm : Inlines plan way inline fresh m) (hf : ∀ x, Matches plan (g x) (f x))
    (hshared : ∀ x, (f x).KeepsShared) :
    Inlines plan way inline (fun flat => fresh flat >>= g) (m >>= f) := by
  have hrest (x : β) : Inlines plan way (fun _ => .ok ()) (fun _ => g x) (f x) :=
    of_matches (hf x) (hshared x)
  refine hm.bind hrest (fun flat _ => flat) (fun way => ?_) fun _ _ => rfl
  cases inline way <;> rfl

/-- A step whose description is part of another one. -/
theorem map {γ₁ : Type} {f : γ → γ₁} {fresh₁ : γ₁ → Except (LoadError α) β}
    (hm : Inlines plan way inline (fun flat => fresh₁ (f flat)) m) :
    Inlines plan way (fun way => do return f (← inline way)) fresh₁ m := by
  intro stock hstock
  obtain ⟨result, after, hafter, hfaithful, hgrows, hresult⟩ := hm stock hstock
  refine ⟨result, after, hafter, hfaithful, hgrows, ?_⟩
  cases result with
  | error e =>
    obtain ⟨c, rfl, hc⟩ := hresult
    refine ⟨c, rfl, ?_⟩
    dsimp only
    rw [hc]
    rfl
  | ok x =>
    obtain ⟨flat, hflat, hinline⟩ := hresult
    refine ⟨f flat, hflat, fun way hway => ?_⟩
    dsimp only
    rw [hinline way hway]
    rfl

/-- One instance after the other. -/
theorem cons {shape : ShapeSpec α} {binding : BindingSpec α} {rest : List (InstanceSpec α)}
    {owner : Nat → String} {i : Nat} {m₁ : Assemble α (Shape α)} {m₂ : Assemble α (List (Shape α))}
    (hfirst : Inlines plan way (plan.inline · shape) (fun flat => do
      plan.freshPlaced (← plan.freshShape flat) binding (owner i)) m₁)
    (hrest : Inlines plan way (plan.inlineAll · rest) (plan.freshShapes owner (i + 1)) m₂) :
    Inlines plan way (plan.inlineAll · (.mk shape binding :: rest)) (plan.freshShapes owner i)
      (do let first ← m₁; return first :: (← m₂)) := by
  refine hfirst.bind
    (fun first => hrest.bind_matches (fun shapes => .pure (first :: shapes)) fun _ => .pure _)
    (fun flat flats => .mk flat binding :: flats) (fun way => ?_) fun flat flats => ?_
  · rw [Plan.inlineAll]
  · rw [Plan.freshShapes, bind_assoc]

end Assemble.Inlines

namespace Plan

open Assemble (Inlines Matches KeepsShared)

variable [Scalar α] {plan : Plan α}

/-- Files agree, and all files of shared shapes can be read. -/
structure IsSupplied (plan : Plan α) : Prop where
  agree : plan.assets.Agree
  loads : ∀ entry ∈ plan.shared, plan.Loads entry.2

mutual

theorem inlines_shape (hplan : plan.IsSupplied) (way : List String) (spec : ShapeSpec α)
    (hspec : plan.Loads spec) :
    Inlines plan way (plan.inline · spec) plan.freshShape (plan.shape way spec) :=
  match spec with
  | .sphere => by
    simp only [Plan.shape, inline]
    exact .of_matches (by rw [freshShape]; exact .pure _) (.pure _)
  | .rectangle => by
    simp only [Plan.shape, inline]
    exact .of_matches (by rw [freshShape]; exact .pure _) (.pure _)
  | .mesh filename smooth => by
    simp only [Plan.shape, inline]
    exact .of_matches (by rw [freshShape]; exact matches_mesh hplan.agree hspec smooth)
      (plan.keepsShared_mesh filename smooth)
  | .group children => by
    simp only [Plan.shape, inline]
    have hgroup := (inlines_children hplan way 0 children hspec).bind_matches matches_group
      keepsShared_group
    exact hgroup.map
  | .ref id => by
    rw [Plan.shape]
    exact inlines_reference hplan way id
  termination_by ((plan.unopened way).length, sizeOf spec)

theorem inlines_placed (hplan : plan.IsSupplied) (way : List String) (spec : InstanceSpec α)
    (hspec : plan.Loads spec.shape ∧ plan.LoadsBinding spec.binding) (owner : String) :
    Inlines plan way (plan.inline · spec.shape)
      (fun flat => plan.freshShape flat >>= fun inner => plan.freshPlaced inner spec.binding owner)
      (plan.placed way spec owner) :=
  match spec with
  | .mk shapeSpec bindingSpec => by
    rw [Plan.placed]
    refine (inlines_shape hplan way shapeSpec hspec.1).bind_matches (fun inner => ?_)
      fun inner => (plan.keepsShared_binding bindingSpec owner).bind fun _ => .pure _
    exact (matches_binding hplan.agree hspec.2 owner).bind fun _ => .pure _
  termination_by ((plan.unopened way).length, sizeOf spec)

theorem inlines_children (hplan : plan.IsSupplied) (way : List String) (i : Nat)
    (specs : List (InstanceSpec α)) (hspecs : plan.LoadsAll specs) :
    Inlines plan way (plan.inlineAll · specs)
      (plan.freshShapes (fun i => s!"group child {i}") i) (plan.children way i specs) :=
  match specs with
  | [] => by
    simp only [Plan.children, inlineAll]
    exact .of_matches (by rw [freshShapes]; exact .pure _) (.pure _)
  | .mk shape binding :: rest => by
    rw [Plan.children]
    exact (inlines_placed hplan way (.mk shape binding) ⟨hspecs.1, hspecs.2.1⟩ _).cons
      (inlines_children hplan way (i + 1) rest hspecs.2.2)
  termination_by ((plan.unopened way).length, sizeOf specs)

theorem inlines_reference (hplan : plan.IsSupplied) (way : List String) (id : String) :
    Inlines plan way (plan.inline · (.ref id)) plan.freshShape (plan.reference way id) := by
  intro stock hstock
  rw [Plan.reference, Assemble.run_get_bind]
  split
  next shape hkept =>
    obtain ⟨flat, hflat, hinline⟩ := hstock.shared id shape hkept
    exact ⟨.ok shape, stock, rfl, hstock, fun _ h => h, flat, hflat, hinline⟩
  next hfresh =>
    split
    next hopen =>
      exact ⟨_, stock, rfl, hstock, fun _ h => h, _, rfl, inline_ref_of_mem hopen⟩
    next hclosed =>
      split
      next hmissing =>
        exact ⟨_, stock, rfl, hstock, fun _ h => h, _, rfl,
          inline_ref_of_missing hclosed hmissing⟩
      next spec hfound =>
        obtain ⟨key, hentry⟩ := exists_mem_of_lookup hfound
        have hless := length_unopened_cons hclosed hfound
        have hopened : stock.IsFaithful plan (id :: way) :=
          ⟨hstock.genuine, List.forall_mem_cons.2 ⟨hfresh, hstock.avoids⟩, hstock.shared⟩
        obtain ⟨result, middle, hmiddle, hfaithful, hgrows, hresult⟩ :=
          inlines_shape hplan (id :: way) spec (hplan.loads _ hentry) stock hopened
        cases result with
        | error e =>
          obtain ⟨c, rfl, hc⟩ := hresult
          exact ⟨_, middle, Assemble.run_bind_of_error hmiddle, ⟨hfaithful.genuine,
            fun name h => hfaithful.avoids name (.tail _ h), hfaithful.shared⟩, hgrows, c, rfl,
            (inline_ref_of_lookup hclosed hfound).trans hc⟩
        | ok shape =>
          obtain ⟨flat, hflat, hinline⟩ := hresult
          have hkept := hfaithful.keep hclosed hfound hflat hinline
          refine ⟨.ok shape, middle.keep id shape, Assemble.run_bind_of_ok hmiddle, hkept,
            fun names h => hgrows names (Stock.avoids_keep_iff.1 h).2, ?_⟩
          exact hkept.shared id shape List.lookup_cons_self
  termination_by ((plan.unopened way).length, 0)
  decreasing_by exact Prod.Lex.left _ _ (by assumption)

end

/-- The instances of a description are built as if from scratch. -/
theorem inlines_instances (hplan : plan.IsSupplied) (i : Nat) (specs : List (InstanceSpec α))
    (hspecs : plan.LoadsAll specs) :
    Inlines plan [] (plan.inlineAll · specs) (plan.freshShapes (fun i => s!"instance {i}") i)
      (plan.instances i specs) := by
  induction specs generalizing i with
  | nil =>
    simp only [inlineAll]
    exact .of_matches (by rw [freshShapes]; exact .pure _) (.pure _)
  | cons spec rest ih =>
    obtain ⟨shape, binding⟩ := spec
    exact (inlines_placed hplan [] (.mk shape binding) ⟨hspecs.1, hspecs.2.1⟩ _).cons
      (ih (i + 1) hspecs.2.2)

/-- The scene of a description is built as if from scratch. -/
theorem inlines_scene (hagree : plan.assets.Agree) {d : Description α}
    (hloads : plan.LoadsScene d) :
    Inlines plan [] (plan.inlineAll · d.instances) (plan.freshScene d) (plan.scene d) := by
  have hcamera : Inlines plan [] (fun _ => .ok ()) (fun _ => plan.afresh (camera d.camera))
      (camera d.camera) :=
    .of_matches (matches_camera hloads.camera) (keepsShared_camera d.camera)
  have hlights (bare : Scene α) :
      Matches plan (d.lights.foldlM plan.freshLight bare) (d.lights.foldlM plan.light bare) :=
    .foldlM (fun scene spec hspec => matches_light hagree (hloads.lights spec hspec) scene) bare
  have hkeeps (bare : Scene α) : KeepsShared (d.lights.foldlM plan.light bare) :=
    .foldlM plan.keepsShared_light d.lights bare
  refine hcamera.bind (fun camera => (inlines_instances ⟨hagree, hloads.shared⟩ 0 d.instances
    hloads.instances).bind_matches
      (g := fun shapes => d.lights.foldlM plan.freshLight (.ofShapes camera shapes.toArray))
      (fun shapes => ?_) fun shapes => ?_) (fun _ flats => flats) (fun way => ?_) fun _ _ => rfl
  · dsimp only
    split
    · exact (matches_note _).bind fun _ => hlights _
    · exact hlights _
  · dsimp only
    split
    · exact (keepsShared_note _).bind fun _ => hkeeps _
    · exact hkeeps _
  · cases plan.inlineAll way d.instances <;> rfl

/-- From the start, the scene of a description is the one built afresh after references are
replaced, unless there is an offence. -/
theorem run_scene (hagree : plan.assets.Agree) {d : Description α} (hloads : plan.LoadsScene d) :
    ∃ result after, (plan.scene d).run plan.start = (result, after) ∧ after.IsFaithful plan [] ∧
      match d.mentions.flatMap (plan.offences []) with
      | [] => ∃ flats made, plan.inlineAll [] d.instances = .ok flats ∧
          plan.freshScene d flats = .ok made ∧ result = .ok made
      | e :: _ => result = .error (.config e) := by
  obtain ⟨result, after, hrun, hfaithful, -, hresult⟩ :=
    inlines_scene hagree hloads plan.start plan.isFaithful_start
  refine ⟨result, after, hrun, hfaithful, ?_⟩
  have hstops : StopsAt _ (d.mentions.flatMap _) := plan.inlineAll_stopsAt [] d.instances
  cases result with
  | error e =>
    obtain ⟨c, rfl, hc⟩ := hresult
    have hhead := (hstops.eq_error_iff c).1 hc
    split <;> simp_all
  | ok made =>
    obtain ⟨flats, hflats, hinline⟩ := hresult
    have hflat := hinline [] hfaithful.avoids
    rw [hstops.exists_eq_ok_iff.1 ⟨flats, hflat⟩]
    exact ⟨flats, made, hflat, hflats, rfl⟩

end Plan

end Radiance
