import Radiance.Description.Validation
import Radiance.Proofs.Assembly.References
import Radiance.Proofs.Scalar.Order

/-!
# The checks of a description

What the checks ask for, as a property of the description alone, and which error they give: that of
the first check that fails.  The checks come in a fixed order, those of the instances one by one and
then those of the shared shapes in the order of their names.

## Main definitions

* `ShapeSpec.Occurs`: a shape occurs in another one, at any depth of groups.
* `Check`: the checks, with `Check.Before` for the order that they come in.
* `Description.Fault`: what makes a check fail, and its error.
* `Description.IsWellFormed`: all that the checks ask for.
* `Description.faults`: the checks that fail, in the order of the checks.

## Main statements

* `Description.hasEmptyGroup_iff`: the search for groups without children finds them at any depth.
* `Description.validate_stopsAt`: the error is that of the first check that fails.
* `Description.validate_eq_ok_iff`, `Description.validate_eq_error_iff`: which descriptions are
  accepted, and why the others are not.
-/

namespace Radiance

variable {α : Type}

/-! ## Groups without children -/

/-- A shape occurs in another one if it is that shape or occurs in a child of it.  References are
not followed. -/
inductive ShapeSpec.Occurs (part : ShapeSpec α) : ShapeSpec α → Prop
  | refl : Occurs part part
  | child {children : List (InstanceSpec α)} {child : InstanceSpec α} (hmem : child ∈ children)
    (hpart : Occurs part child.shape) : Occurs part (.group children)

namespace Description

theorem anyEmptyGroup_iff (specs : List (InstanceSpec α)) :
    anyEmptyGroup specs = true ↔ ∃ spec ∈ specs, hasEmptyGroup spec.shape = true := by
  induction specs with
  | nil => simp [anyEmptyGroup]
  | cons spec rest ih =>
    obtain ⟨shape, binding⟩ := spec
    simp [anyEmptyGroup, ih, InstanceSpec.shape]

/-- The search for groups without children finds them at any depth. -/
theorem hasEmptyGroup_iff (s : ShapeSpec α) :
    hasEmptyGroup s = true ↔ (ShapeSpec.group []).Occurs s := by
  induction s using ShapeSpec.induct with
  | group children ih =>
    cases children with
    | nil => exact iff_of_true rfl .refl
    | cons first rest =>
      rw [hasEmptyGroup, anyEmptyGroup_iff]
      · constructor
        · rintro ⟨spec, hmem, hspec⟩
          exact .child hmem ((ih spec hmem).1 hspec)
        · intro h
          cases h with
          | child hmem hpart => exact ⟨_, hmem, (ih _ hmem).2 hpart⟩
      · exact nofun
  | _ => exact iff_of_false (by simp [hasEmptyGroup]) nofun

end Description

/-! ## Checks and their order -/

/-- The checks of a description: one for each instance, by its number, and one for each shared
shape, by its name, beside those of the whole. -/
inductive Check
  | output
  | resolution
  | angle
  | sampleCount
  | depth
  | instanceAt (i : Nat)
  | sharedAt (id : String)
  | backgrounds

namespace Check

/-- The round of the checks that a check belongs to. -/
def round : Check → Nat
  | output => 0
  | resolution => 1
  | angle => 2
  | sampleCount => 3
  | depth => 4
  | instanceAt _ => 5
  | sharedAt _ => 6
  | backgrounds => 7

/-- A check comes before another one: in an earlier round, or in the same round at an earlier
instance or an earlier name. -/
inductive Before : Check → Check → Prop
  | round {a b : Check} (h : a.round < b.round) : Before a b
  | instances {i j : Nat} (h : i < j) : Before (instanceAt i) (instanceAt j)
  | shared {id id' : String} (h : id < id') : Before (sharedAt id) (sharedAt id')

theorem Before.asymm {a b : Check} (hab : a.Before b) (hba : b.Before a) : False := by
  cases hab with
  | round h =>
    cases hba with
    | round h' => exact absurd h (Nat.lt_asymm h')
    | _ => exact absurd h (Nat.lt_irrefl _)
  | instances h =>
    cases hba with
    | round h' => exact absurd h' (Nat.lt_irrefl _)
    | instances h' => exact absurd h (Nat.lt_asymm h')
  | shared h =>
    cases hba with
    | round h' => exact absurd h' (Nat.lt_irrefl _)
    | shared h' => exact lt_asymm h h'

end Check

namespace Description

variable [Scalar α]

/-- What makes a check fail, and its error.  The error of a group without children names the
instance or the shared shape that it occurs in, however deep. -/
inductive Fault (d : Description α) : Check → ConfigError α → Prop
  | output (h : d.output = none) : Fault d .output .missingOutput
  | resolution (h : d.camera.width = 0 ∨ d.camera.height = 0) :
    Fault d .resolution (.invalidResolution d.camera.width d.camera.height)
  | angle (h : ¬(0 < d.camera.fov ∧ d.camera.fov < 180)) :
    Fault d .angle (.invalidFov d.camera.fov)
  | sampleCount (h : d.sampler.count = 0) : Fault d .sampleCount .invalidSampleCount
  | depth (h : d.integrator = .pathTracer 0) : Fault d .depth .invalidDepth
  | instanceAt {i : Nat} {spec : InstanceSpec α} (hi : d.instances[i]? = some spec)
    (h : (ShapeSpec.group []).Occurs spec.shape) :
    Fault d (.instanceAt i) (.emptyGroup s!"instance {i}")
  | sharedAt {id : String} {shape : ShapeSpec α} (hid : (id, shape) ∈ d.shared)
    (h : (ShapeSpec.group []).Occurs shape) :
    Fault d (.sharedAt id) (.emptyGroup ("shared shape \"" ++ id ++ "\""))
  | backgrounds (h : 1 < d.backgroundCount) :
    Fault d .backgrounds (.multipleBackgrounds d.backgroundCount)

/-- All that the checks ask for. -/
structure IsWellFormed (d : Description α) : Prop where
  output : d.output ≠ none
  width_pos : 0 < d.camera.width
  height_pos : 0 < d.camera.height
  fov_pos : 0 < d.camera.fov
  fov_lt : d.camera.fov < 180
  count_pos : 0 < d.sampler.count
  depth_pos : ∀ depth, d.integrator = .pathTracer depth → 0 < depth
  instances : ∀ spec ∈ d.instances, ¬(ShapeSpec.group []).Occurs spec.shape
  shared : ∀ entry ∈ d.shared, ¬(ShapeSpec.group []).Occurs entry.2
  backgrounds : d.backgroundCount ≤ 1

theorem isWellFormed_iff {d : Description α} : d.IsWellFormed ↔ ∀ c e, ¬d.Fault c e := by
  constructor
  · intro h c e hfault
    cases hfault with
    | output hout => exact h.output hout
    | resolution hsize =>
      rcases hsize with hsize | hsize
      · exact absurd h.width_pos (hsize ▸ UInt32.lt_irrefl 0)
      · exact absurd h.height_pos (hsize ▸ UInt32.lt_irrefl 0)
    | angle hfov => exact hfov ⟨h.fov_pos, h.fov_lt⟩
    | sampleCount hcount => exact absurd h.count_pos (hcount ▸ UInt32.lt_irrefl 0)
    | depth hdepth => exact absurd (h.depth_pos 0 hdepth) (UInt32.lt_irrefl 0)
    | instanceAt hi hgroup => exact h.instances _ (List.mem_of_getElem? hi) hgroup
    | sharedAt hid hgroup => exact h.shared _ hid hgroup
    | backgrounds hcount => exact absurd h.backgrounds (Nat.not_le.2 hcount)
  · intro h
    have hfov : 0 < d.camera.fov ∧ d.camera.fov < 180 := by
      by_contra hfov
      exact h _ _ (.angle hfov)
    refine
      { output := fun hout => h _ _ (.output hout)
        width_pos := UInt32.pos_iff_ne_zero.2 fun hzero => h _ _ (.resolution (.inl hzero))
        height_pos := UInt32.pos_iff_ne_zero.2 fun hzero => h _ _ (.resolution (.inr hzero))
        fov_pos := hfov.1
        fov_lt := hfov.2
        count_pos := UInt32.pos_iff_ne_zero.2 fun hzero => h _ _ (.sampleCount hzero)
        depth_pos := ?_
        instances := fun spec hspec hgroup => ?_
        shared := fun entry hentry hgroup => h _ _ (.sharedAt hentry hgroup)
        backgrounds := Nat.not_lt.1 fun hcount => h _ _ (.backgrounds hcount) }
    · intro depth hdepth
      refine UInt32.pos_iff_ne_zero.2 fun hzero => ?_
      subst hzero
      exact h _ _ (.depth hdepth)
    · obtain ⟨i, hi⟩ := List.mem_iff_getElem?.1 hspec
      exact h _ _ (.instanceAt hi hgroup)

/-! ## The checks that fail -/

/-- A check that fails under a condition. -/
def faultIf (p : Prop) [Decidable p] (c : Check) (e : ConfigError α) :
    List (Check × ConfigError α) :=
  if p then [(c, e)] else []

/-- The instances with groups without children. -/
def instanceFaults (d : Description α) : List (Check × ConfigError α) :=
  d.instances.zipIdx.flatMap fun entry => faultIf (hasEmptyGroup entry.1.shape = true)
    (.instanceAt entry.2) (.emptyGroup s!"instance {entry.2}")

/-- The shared shapes with groups without children. -/
def sharedFaults (d : Description α) : List (Check × ConfigError α) :=
  d.shared.flatMap fun entry => faultIf (hasEmptyGroup entry.2 = true) (.sharedAt entry.1)
    (.emptyGroup ("shared shape \"" ++ entry.1 ++ "\""))

/-- The checks that fail, in the order of the checks, each with its error. -/
def faults (d : Description α) : List (Check × ConfigError α) :=
  faultIf (d.output.isNone = true) .output .missingOutput ++
  faultIf (d.camera.width = 0 ∨ d.camera.height = 0) .resolution
    (.invalidResolution d.camera.width d.camera.height) ++
  faultIf (¬(0 < d.camera.fov ∧ d.camera.fov < 180)) .angle (.invalidFov d.camera.fov) ++
  faultIf (d.sampler.count = 0) .sampleCount .invalidSampleCount ++
  (match d.integrator with
    | .pathTracer depth => faultIf (depth = 0) .depth .invalidDepth
    | _ => []) ++
  d.instanceFaults ++ d.sharedFaults ++
  faultIf (1 < d.backgroundCount) .backgrounds (.multipleBackgrounds d.backgroundCount)

omit [Scalar α] in
@[simp] theorem mem_faultIf {p : Prop} [Decidable p] {c c' : Check} {e e' : ConfigError α} :
    (c', e') ∈ faultIf p c e ↔ p ∧ c' = c ∧ e' = e := by
  rw [faultIf]
  split <;> simp_all

omit [Scalar α] in
theorem mem_instanceFaults_iff {d : Description α} {c : Check} {e : ConfigError α} :
    (c, e) ∈ d.instanceFaults ↔ ∃ i spec, d.instances[i]? = some spec ∧
      (ShapeSpec.group []).Occurs spec.shape ∧ c = .instanceAt i ∧
        e = .emptyGroup s!"instance {i}" := by
  simp only [instanceFaults, List.mem_flatMap, mem_faultIf, hasEmptyGroup_iff]
  constructor
  · rintro ⟨⟨spec, i⟩, hmem, hgroup, rfl, rfl⟩
    exact ⟨i, spec, List.mem_zipIdx_iff_getElem?.1 hmem, hgroup, rfl, rfl⟩
  · rintro ⟨i, spec, hi, hgroup, rfl, rfl⟩
    exact ⟨(spec, i), List.mem_zipIdx_iff_getElem?.2 hi, hgroup, rfl, rfl⟩

omit [Scalar α] in
theorem mem_sharedFaults_iff {d : Description α} {c : Check} {e : ConfigError α} :
    (c, e) ∈ d.sharedFaults ↔ ∃ id shape, (id, shape) ∈ d.shared ∧
      (ShapeSpec.group []).Occurs shape ∧ c = .sharedAt id ∧
        e = .emptyGroup ("shared shape \"" ++ id ++ "\"") := by
  simp only [sharedFaults, List.mem_flatMap, mem_faultIf, hasEmptyGroup_iff, Prod.exists]

theorem mem_faults_iff {d : Description α} {c : Check} {e : ConfigError α} :
    (c, e) ∈ d.faults ↔ d.Fault c e := by
  simp only [faults, List.mem_append, mem_faultIf, mem_instanceFaults_iff, mem_sharedFaults_iff]
  constructor
  · rintro (((((((h | h) | h) | h) | h) | h) | h) | h)
    · obtain ⟨hp, rfl, rfl⟩ := h
      exact .output (Option.isNone_iff_eq_none.1 hp)
    · obtain ⟨hp, rfl, rfl⟩ := h
      exact .resolution hp
    · obtain ⟨hp, rfl, rfl⟩ := h
      exact .angle hp
    · obtain ⟨hp, rfl, rfl⟩ := h
      exact .sampleCount hp
    · split at h
      next depth hdepth =>
        obtain ⟨rfl, rfl, rfl⟩ := mem_faultIf.1 h
        exact .depth hdepth
      · cases h
    · obtain ⟨i, spec, hi, hgroup, rfl, rfl⟩ := h
      exact .instanceAt hi hgroup
    · obtain ⟨id, shape, hid, hgroup, rfl, rfl⟩ := h
      exact .sharedAt hid hgroup
    · obtain ⟨hp, rfl, rfl⟩ := h
      exact .backgrounds hp
  · intro h
    cases h with
    | instanceAt hi hgroup => exact .inl (.inl (.inr ⟨_, _, hi, hgroup, rfl, rfl⟩))
    | sharedAt hid hgroup => exact .inl (.inr ⟨_, _, hid, hgroup, rfl, rfl⟩)
    | _ h => simp [h]

omit [Scalar α] in
/-- Failing checks of earlier rounds, in order, may be followed by some of the next round. -/
theorem pairwise_append_round {l l' : List (Check × ConfigError α)} {r : Nat}
    (hl : l.Pairwise (fun a b => a.1.Before b.1) ∧ ∀ a ∈ l, a.1.round < r)
    (hl' : l'.Pairwise (fun a b => a.1.Before b.1) ∧ ∀ a ∈ l', a.1.round = r) :
    (l ++ l').Pairwise (fun a b => a.1.Before b.1) ∧ ∀ a ∈ l ++ l', a.1.round < r + 1 := by
  refine ⟨List.pairwise_append.2 ⟨hl.1, hl'.1, fun a ha b hb => .round ?_⟩, fun a ha => ?_⟩
  · rw [hl'.2 b hb]
    exact hl.2 a ha
  · rcases List.mem_append.1 ha with ha | ha
    · exact Nat.lt_succ_of_lt (hl.2 a ha)
    · exact (hl'.2 a ha).le.trans_lt (Nat.lt_succ_self r)

omit [Scalar α] in
theorem pairwise_faultIf (p : Prop) [Decidable p] (c : Check) (e : ConfigError α) :
    (faultIf p c e).Pairwise (fun a b => a.1.Before b.1) ∧
      ∀ a ∈ faultIf p c e, a.1.round = c.round := by
  rw [faultIf]
  split <;> simp

omit [Scalar α] in
/-- One check for each entry of a list, in their order. -/
theorem pairwise_flatMap_faultIf {β : Type} {l : List β} (p : β → Prop) [DecidablePred p]
    {c : β → Check} (e : β → ConfigError α) {r : Nat} (hr : ∀ x, (c x).round = r)
    (hl : l.Pairwise fun x y => (c x).Before (c y)) :
    (l.flatMap fun x => faultIf (p x) (c x) (e x)).Pairwise (fun a b => a.1.Before b.1) ∧
      ∀ a ∈ l.flatMap fun x => faultIf (p x) (c x) (e x), a.1.round = r := by
  refine ⟨List.pairwise_flatMap.2 ⟨fun x _ => (pairwise_faultIf _ _ _).1, ?_⟩, fun a ha => ?_⟩
  · refine hl.imp fun h a ha b hb => ?_
    obtain ⟨-, hac, -⟩ := mem_faultIf.1 ha
    obtain ⟨-, hbc, -⟩ := mem_faultIf.1 hb
    rwa [hac, hbc]
  · obtain ⟨x, -, ha⟩ := List.mem_flatMap.1 ha
    rw [(mem_faultIf.1 ha).2.1, hr]

theorem pairwise_faults {d : Description α} (hsorted : d.shared.Pairwise fun a b => a.1 < b.1) :
    d.faults.Pairwise fun a b => a.1.Before b.1 := by
  rw [faults]
  refine (pairwise_append_round (r := 7) (pairwise_append_round (pairwise_append_round
    (pairwise_append_round (pairwise_append_round (pairwise_append_round (pairwise_append_round
      ?output ?resolution) ?angle) ?count) ?depth) ?instances) ?shared) ?backgrounds).1
  case output =>
    obtain ⟨hpairwise, hround⟩ :=
      pairwise_faultIf (d.output.isNone = true) .output (.missingOutput : ConfigError α)
    exact ⟨hpairwise, fun a ha => hround a ha ▸ Nat.zero_lt_one⟩
  case depth =>
    split
    · exact pairwise_faultIf _ _ _
    · simp
  case instances =>
    refine pairwise_flatMap_faultIf _ _ (fun _ => rfl) (List.pairwise_iff_getElem.2 ?_)
    intro i j _ _ hij
    simpa using Check.Before.instances hij
  case shared => exact pairwise_flatMap_faultIf _ _ (fun _ => rfl) (hsorted.imp .shared)
  all_goals exact pairwise_faultIf _ _ _

section Stops

variable {f : Unit → Except (ConfigError α) Unit} {rest : List (Check × ConfigError α)}

omit [Scalar α] in
/-- A check that is made before others. -/
theorem stopsAt_faultIf {p : Prop} [Decidable p] (c : Check) {e : ConfigError α}
    (h : StopsAt (f ()) (rest.map Prod.snd)) :
    StopsAt (if p then throw e >>= f else f ()) ((faultIf p c e ++ rest).map Prod.snd) := by
  rw [faultIf]
  split
  · rfl
  · exact h

omit [Scalar α] in
theorem stopsAt_faultIf_not {p : Prop} [Decidable p] (c : Check) {e : ConfigError α}
    (h : StopsAt (f ()) (rest.map Prod.snd)) :
    StopsAt (if p then f () else throw e >>= f) ((faultIf (¬p) c e ++ rest).map Prod.snd) := by
  rw [← ite_not]
  exact stopsAt_faultIf c h

omit [Scalar α] in
/-- A loop of checks for groups without children. -/
theorem stopsAt_forIn {β : Type} (l : List β) (shape : β → ShapeSpec α) (c : β → Check)
    (owner : β → String) :
    StopsAt (forIn l PUnit.unit fun x _ => do
        checkGroups (shape x) (owner x)
        pure (ForInStep.yield PUnit.unit))
      ((l.flatMap fun x => faultIf (hasEmptyGroup (shape x) = true) (c x)
        (.emptyGroup (owner x))).map Prod.snd) := by
  induction l with
  | nil => rfl
  | cons x l ih =>
    rw [List.forIn_cons, List.flatMap_cons, checkGroups, faultIf]
    split
    · rfl
    · exact ih

end Stops

omit [Scalar α] in
/-- The checks of groups without children and of the backgrounds. -/
theorem stopsAt_groups (d : Description α) : StopsAt (do
      for (instance_, i) in d.instances.zipIdx do
        checkGroups instance_.shape s!"instance {i}"
      for (id, shape) in d.shared do
        checkGroups shape ("shared shape \"" ++ id ++ "\"")
      if 1 < d.backgroundCount then throw (.multipleBackgrounds d.backgroundCount))
    ((d.instanceFaults ++ (d.sharedFaults ++
      faultIf (1 < d.backgroundCount) .backgrounds (.multipleBackgrounds d.backgroundCount))).map
        Prod.snd) := by
  rw [List.map_append, List.map_append]
  refine (stopsAt_forIn _ _ _ _).bind fun _ => (stopsAt_forIn _ _ _ _).bind fun _ => ?_
  rw [faultIf]
  split <;> rfl

/-- The error of a description is that of the first check that fails. -/
theorem validate_stopsAt (d : Description α) : StopsAt d.validate (d.faults.map Prod.snd) := by
  rw [validate, faults]
  simp only [List.append_assoc]
  refine stopsAt_faultIf .output ?_
  refine stopsAt_faultIf .resolution ?_
  refine stopsAt_faultIf_not .angle ?_
  refine stopsAt_faultIf .sampleCount ?_
  -- Only some integrators have a depth; the groups and the backgrounds are checked after it.
  cases d.integrator with
  | pathTracer depth => exact stopsAt_faultIf (p := depth = 0) .depth d.stopsAt_groups
  | _ => exact d.stopsAt_groups

/-! ## The outcome of the checks -/

variable {d : Description α}

/-- A description is accepted if it is all that the checks ask for. -/
theorem validate_eq_ok_iff : d.validate = .ok () ↔ d.IsWellFormed := by
  have hnone : d.validate = .ok () ↔ d.faults = [] := by
    rw [← List.map_eq_nil_iff (f := Prod.snd), ← d.validate_stopsAt.exists_eq_ok_iff]
    exact ⟨fun h => ⟨(), h⟩, fun ⟨_, h⟩ => h⟩
  rw [hnone, isWellFormed_iff, List.eq_nil_iff_forall_not_mem]
  constructor
  · intro h c e hfault
    exact h (c, e) (mem_faults_iff.2 hfault)
  · rintro h ⟨c, e⟩ hmem
    exact h c e (mem_faults_iff.1 hmem)

omit [Scalar α] in
/-- The head of a list in order is the entry that no other comes before. -/
theorem head?_eq_some_iff_first {l : List (Check × ConfigError α)} {x : Check × ConfigError α}
    (hl : l.Pairwise fun a b => a.1.Before b.1) :
    l.head? = some x ↔ x ∈ l ∧ ∀ y ∈ l, ¬y.1.Before x.1 := by
  cases l with
  | nil => simp
  | cons first rest =>
    obtain ⟨hfirst, -⟩ := List.pairwise_cons.1 hl
    constructor
    · rintro ⟨⟩
      refine ⟨List.mem_cons_self, fun y hy hbefore => ?_⟩
      rcases List.mem_cons.1 hy with rfl | hy
      · exact hbefore.asymm hbefore
      · exact hbefore.asymm (hfirst y hy)
    · rintro ⟨hx, hnone⟩
      rcases List.mem_cons.1 hx with rfl | hx
      · rfl
      · exact absurd (hfirst x hx) (hnone first List.mem_cons_self)

/-- A description is refused with the error of the first check that fails. -/
theorem validate_eq_error_iff (hsorted : d.shared.Pairwise fun a b => a.1 < b.1)
    (e : ConfigError α) :
    d.validate = .error e ↔ ∃ c, d.Fault c e ∧ ∀ c' e', c'.Before c → ¬d.Fault c' e' := by
  rw [d.validate_stopsAt.eq_error_iff, List.head?_map, Option.map_eq_some_iff]
  simp only [head?_eq_some_iff_first (pairwise_faults hsorted), Prod.exists, Prod.forall,
    mem_faults_iff]
  constructor
  · rintro ⟨c, _, ⟨hfault, hfirst⟩, rfl⟩
    exact ⟨c, hfault, fun c' e' hbefore hfault' => hfirst c' e' hfault' hbefore⟩
  · rintro ⟨c, hfault, hfirst⟩
    exact ⟨c, e, ⟨hfault, fun c' e' hfault' hbefore => hfirst c' e' hbefore hfault'⟩, rfl⟩

end Description

end Radiance
