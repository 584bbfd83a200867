import Mathlib.Logic.Relation
import Radiance.Assembly

/-!
# References to shared shapes

What it means that references can be resolved, as a property of the shared table alone.  A walk goes
from name to name, depth first and in the order of the description, and lists the references it
cannot follow: those to no shape, and those back to a name on its way.  It finds one exactly if a
name without a shape or a cycle can be reached, and the first one is what replacing all references
by their shapes stops at.

## Main definitions

* `ShapeSpec.mentions`, `Description.mentions`: the names that are referred to.
* `Plan.offences`: the references from a name that cannot be followed, in depth-first order.
* `Plan.Refers`, `Plan.ReachesBad`: the graph of references, and what is wrong with it.
* `Plan.inline`: a shape with all references replaced by their shapes.

## Main statements

* `Plan.offences_ne_nil_iff`: there is an offence exactly if a bad name can be reached.
* `Plan.inlineAll_stopsAt`: replacing references fails with the first offence.
-/

namespace Radiance

variable {α : Type}

/-! ## The first of some errors -/

/-- A computation fails with the first of some errors, and does not fail if there are none. -/
def StopsAt {ε β : Type} (x : Except ε β) (errors : List ε) : Prop :=
  match x with
  | .ok _ => errors = []
  | .error e => errors.head? = some e

namespace StopsAt

variable {ε β γ : Type} {x : Except ε β} {errors errors' : List ε}

theorem bind {f : β → Except ε γ} (hx : StopsAt x errors) (hf : ∀ b, StopsAt (f b) errors') :
    StopsAt (x >>= f) (errors ++ errors') := by
  cases x with
  | error e => simp_all [StopsAt, Bind.bind, Except.bind]
  | ok b =>
    obtain rfl : errors = [] := hx
    exact hf b

theorem map {f : β → γ} (hx : StopsAt x errors) :
    StopsAt (x >>= fun b => pure (f b)) errors := by
  cases x with
  | error e => exact hx
  | ok b => exact hx

theorem eq_error_iff (h : StopsAt x errors) (e : ε) : x = .error e ↔ errors.head? = some e := by
  cases x <;> simp_all [StopsAt]

theorem exists_eq_ok_iff (h : StopsAt x errors) : (∃ b, x = .ok b) ↔ errors = [] := by
  cases x with
  | error e => cases errors <;> simp_all [StopsAt]
  | ok b => simp_all [StopsAt]

end StopsAt

/-! ## Walks through the table -/

mutual

/-- The names that a shape refers to, in the order of the description. -/
def ShapeSpec.mentions : ShapeSpec α → List String
  | .group children => InstanceSpec.allMentions children
  | .ref id => [id]
  | _ => []

def InstanceSpec.allMentions : List (InstanceSpec α) → List String
  | [] => []
  | .mk shape _ :: rest => shape.mentions ++ InstanceSpec.allMentions rest

end

/-- The names that the instances of a description refer to. -/
def Description.mentions (d : Description α) : List String := InstanceSpec.allMentions d.instances

namespace Plan

variable {plan : Plan α}

/-- The references from a name on that cannot be followed, in depth-first order, on a way through
other names. -/
def offences (plan : Plan α) (way : List String) (id : String) : List (ConfigError α) :=
  if _closed : id ∈ way then [.cyclicReference id]
  else
    match _found : plan.shared.lookup id with
    | none => [.unknownReference id]
    | some spec => spec.mentions.flatMap (plan.offences (id :: way))
  termination_by (plan.unopened way).length
  decreasing_by exact length_unopened_cons _closed _found

theorem offences_of_lookup {way : List String} {id : String} {spec : ShapeSpec α}
    (hclosed : id ∉ way) (hfound : plan.shared.lookup id = some spec) :
    plan.offences way id = spec.mentions.flatMap (plan.offences (id :: way)) := by
  rw [offences, dif_neg hclosed]
  split
  · simp_all
  next spec' hfound' =>
    obtain rfl : spec = spec' := Option.some.inj (hfound.symm.trans hfound')
    rfl

/-- The shape of a name refers to another name. -/
def Refers (plan : Plan α) (id next : String) : Prop :=
  ∃ spec, plan.shared.lookup id = some spec ∧ next ∈ spec.mentions

/-- A name that has no shape, or from which references lead back to it. -/
def IsBad (plan : Plan α) (id : String) : Prop :=
  plan.shared.lookup id = none ∨ Relation.TransGen plan.Refers id id

/-- References lead from one of some names to a bad name. -/
def ReachesBad (plan : Plan α) (roots : List String) : Prop :=
  ∃ root ∈ roots, ∃ name, Relation.ReflTransGen plan.Refers root name ∧ plan.IsBad name

/-- The name that an offence is about, and what is wrong with it. -/
theorem isBad_of_mem_offences {way : List String} {id : String}
    (hway : ∀ name ∈ way, Relation.TransGen plan.Refers name id) {e : ConfigError α}
    (he : e ∈ plan.offences way id) : ∃ name, Relation.ReflTransGen plan.Refers id name ∧
      (e = .unknownReference name ∧ plan.shared.lookup name = none ∨
        e = .cyclicReference name ∧ Relation.TransGen plan.Refers name name) := by
  fun_induction offences plan way id with
  | case1 way id closed =>
    obtain rfl := List.mem_singleton.1 he
    exact ⟨id, .refl, .inr ⟨rfl, hway id closed⟩⟩
  | case2 way id closed found =>
    obtain rfl := List.mem_singleton.1 he
    exact ⟨id, .refl, .inl ⟨rfl, found⟩⟩
  | case3 way id closed spec found ih =>
    obtain ⟨next, hnext, hmem⟩ := List.mem_flatMap.1 he
    have hrefers : plan.Refers id next := ⟨spec, found, hnext⟩
    have hlonger : ∀ name ∈ id :: way, Relation.TransGen plan.Refers name next := by
      rintro name (_ | ⟨_, hname⟩)
      · exact .single hrefers
      · exact (hway name hname).tail hrefers
    obtain ⟨name, hreach, hbad⟩ := ih next hlonger hmem
    exact ⟨name, hreach.head hrefers, hbad⟩

/-- A walk without offences reaches only names with shapes, and does not come back to a name on its
way. -/
theorem not_isBad_of_offences_eq_nil {way : List String} {id : String}
    (h : plan.offences way id = []) {name : String}
    (hreach : Relation.ReflTransGen plan.Refers id name) :
    name ∉ way ∧ plan.shared.lookup name ≠ none ∧ ¬ Relation.TransGen plan.Refers name name := by
  fun_induction offences plan way id generalizing name with
  | case1 => cases h
  | case2 => cases h
  | case3 way id closed spec found ih =>
    -- What can be reached in one step or more avoids the way, and the name itself as well.
    have hnext : ∀ {name}, Relation.TransGen plan.Refers id name → name ∉ id :: way ∧
        plan.shared.lookup name ≠ none ∧ ¬ Relation.TransGen plan.Refers name name := by
      intro name hreach
      obtain ⟨next, ⟨spec', found', hmem⟩, hrest⟩ := Relation.TransGen.head'_iff.1 hreach
      obtain rfl : spec = spec' := Option.some.inj (found.symm.trans found')
      exact ih next (List.flatMap_eq_nil_iff.1 h next hmem) hrest
    obtain rfl | hreach := Relation.reflTransGen_iff_eq_or_transGen.1 hreach
    · refine ⟨closed, by simp [found], fun hcycle => (hnext hcycle).1 List.mem_cons_self⟩
    · obtain ⟨havoids, hgood⟩ := hnext hreach
      exact ⟨fun hmem => havoids (List.mem_cons_of_mem _ hmem), hgood⟩

/-- Offences are references to no shape and references that lead back. -/
theorem exists_eq_of_mem_offences {roots : List String} {e : ConfigError α}
    (he : e ∈ roots.flatMap (plan.offences [])) :
    ∃ name, e = .unknownReference name ∨ e = .cyclicReference name := by
  obtain ⟨root, -, hmem⟩ := List.mem_flatMap.1 he
  obtain ⟨name, -, ⟨rfl, -⟩ | ⟨rfl, -⟩⟩ := isBad_of_mem_offences (by simp) hmem
  · exact ⟨name, .inl rfl⟩
  · exact ⟨name, .inr rfl⟩

/-- A walk from some names finds an offence exactly if a bad name can be reached from them. -/
theorem offences_ne_nil_iff (roots : List String) :
    roots.flatMap (plan.offences []) ≠ [] ↔ plan.ReachesBad roots := by
  constructor
  · intro h
    obtain ⟨e, he⟩ := List.exists_mem_of_ne_nil _ h
    obtain ⟨root, hroot, hmem⟩ := List.mem_flatMap.1 he
    obtain ⟨name, hreach, ⟨-, hbad⟩ | ⟨-, hbad⟩⟩ := isBad_of_mem_offences (by simp) hmem
    · exact ⟨root, hroot, name, hreach, .inl hbad⟩
    · exact ⟨root, hroot, name, hreach, .inr hbad⟩
  · rintro ⟨root, hroot, name, hreach, hbad⟩ hnil
    obtain ⟨-, hdefined, hacyclic⟩ :=
      not_isBad_of_offences_eq_nil (List.flatMap_eq_nil_iff.1 hnil root hroot) hreach
    exact hbad.elim hdefined hacyclic

/-! ## Replacing references -/

mutual

/-- The shape with all references replaced by their shapes, on a way through other names. -/
def inline (plan : Plan α) (way : List String) (spec : ShapeSpec α) :
    Except (ConfigError α) (ShapeSpec α) :=
  match spec with
  | .sphere => return .sphere
  | .rectangle => return .rectangle
  | .mesh filename smooth => return .mesh filename smooth
  | .group children => do return .group (← plan.inlineAll way children)
  | .ref id =>
    if _closed : id ∈ way then throw (.cyclicReference id)
    else
      match _found : plan.shared.lookup id with
      | none => throw (.unknownReference id)
      | some spec => plan.inline (id :: way) spec
  termination_by ((plan.unopened way).length, sizeOf spec)
  decreasing_by
    · exact Prod.Lex.right _ (by simp)
    · exact Prod.Lex.left _ _ (length_unopened_cons _closed _found)

/-- The instances with all references replaced by their shapes. -/
def inlineAll (plan : Plan α) (way : List String) (specs : List (InstanceSpec α)) :
    Except (ConfigError α) (List (InstanceSpec α)) :=
  match specs with
  | [] => return []
  | .mk shape binding :: rest => do
    let shape ← plan.inline way shape
    return .mk shape binding :: (← plan.inlineAll way rest)
  termination_by ((plan.unopened way).length, sizeOf specs)

end

theorem inline_ref_of_mem {way : List String} {id : String} (hopen : id ∈ way) :
    plan.inline way (.ref id) = .error (.cyclicReference id) := by
  rw [inline, dif_pos hopen]
  rfl

theorem inline_ref_of_missing {way : List String} {id : String} (hclosed : id ∉ way)
    (hmissing : plan.shared.lookup id = none) :
    plan.inline way (.ref id) = .error (.unknownReference id) := by
  rw [inline, dif_neg hclosed]
  split
  · rfl
  · simp_all

theorem inline_ref_of_lookup {way : List String} {id : String} {spec : ShapeSpec α}
    (hclosed : id ∉ way) (hfound : plan.shared.lookup id = some spec) :
    plan.inline way (.ref id) = plan.inline (id :: way) spec := by
  rw [inline, dif_neg hclosed]
  split
  · simp_all
  next spec' hfound' =>
    obtain rfl : spec = spec' := Option.some.inj (hfound.symm.trans hfound')
    rfl

mutual

theorem inline_stopsAt (plan : Plan α) (way : List String) (spec : ShapeSpec α) :
    StopsAt (plan.inline way spec) (spec.mentions.flatMap (plan.offences way)) :=
  match spec with
  | .sphere => by
    rw [inline]
    rfl
  | .rectangle => by
    rw [inline]
    rfl
  | .mesh filename smooth => by
    rw [inline]
    rfl
  | .group children => by
    rw [inline, ShapeSpec.mentions]
    exact (inlineAll_stopsAt plan way children).map
  | .ref id => by
    rw [ShapeSpec.mentions, List.flatMap_singleton, offences]
    split
    next hopen =>
      rw [inline_ref_of_mem hopen]
      rfl
    next hclosed =>
      split
      next hmissing =>
        rw [inline_ref_of_missing hclosed hmissing]
        rfl
      next spec hfound =>
        have hless := length_unopened_cons hclosed hfound
        rw [inline_ref_of_lookup hclosed hfound]
        exact inline_stopsAt plan (id :: way) spec
  termination_by ((plan.unopened way).length, sizeOf spec)
  decreasing_by
    · exact Prod.Lex.right _ (by simp)
    · exact Prod.Lex.left _ _ (by assumption)

/-- Replacing the references of some instances stops at the first offence. -/
theorem inlineAll_stopsAt (plan : Plan α) (way : List String) (specs : List (InstanceSpec α)) :
    StopsAt (plan.inlineAll way specs)
      ((InstanceSpec.allMentions specs).flatMap (plan.offences way)) :=
  match specs with
  | [] => by
    rw [inlineAll]
    rfl
  | .mk shape binding :: rest => by
    rw [inlineAll, InstanceSpec.allMentions, List.flatMap_append]
    exact (inline_stopsAt plan way shape).bind fun _ => (inlineAll_stopsAt plan way rest).map
  termination_by ((plan.unopened way).length, sizeOf specs)

end

end Plan

end Radiance
