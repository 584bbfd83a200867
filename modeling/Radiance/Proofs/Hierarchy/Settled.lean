import Radiance.Proofs.Hierarchy.Sequence
import Radiance.Proofs.Shape.Surfaces

/-!
# Queries that do not depend on the limit

What a ray sees of a shape is settled before the record is looked at: the record only decides
whether it is near enough.  A hierarchy keeps this, although it visits other nodes for other
records.  A box is entered in front of everything that is seen inside it, or it hides all of it
from every record alike, and the order of the visits does not depend on the record.

## Main definitions

* `Sight`: what a ray sees, with the binding that is shown with it.
* `Look`: whether a shape shows its own binding, leaves the one it finds, or does both.
* `Settles`: a query accepts a sight exactly if it is nearer than the record.
* `Hierarchy.Sees`: a query settles on one of the nearest sights of some items.

## Main statements

* `Settles.seq`: one query after another settles on the nearer sight.
* `Hierarchy.exists_sees_build`: a built hierarchy settles if its items do.
-/

namespace Radiance

variable {α : Type}

/-- What a ray sees of a shape, and the binding that is shown with it. -/
structure Sight (α : Type) extends Encounter α where
  binding : Option (Binding α)

/-- What a hit does to the binding of the record. -/
inductive Look
  /-- Shapes alone leave the binding that they find. -/
  | bare
  /-- Instances show their own. -/
  | bound
  /-- Groups of both do either. -/
  | mixed
  deriving Repr, DecidableEq

/-- The binding of a record after a sight has been accepted. -/
def Look.Shows : Look → Sight α → Hit α → Hit α → Prop
  | bare, _, before, after => after.binding = before.binding
  | bound, e, _, after => e.binding.isSome ∧ after.binding = e.binding
  | mixed, _, _, _ => True

open Hierarchy (Untouched)

/-- The answer to a record in front of which a sight lies, or nothing. -/
def Look.Outcome (look : Look) : Option (Sight α) → Hit α → Bool × Hit α → Prop
  | none, before, result => result.1 = false ∧ Untouched before result.2
  | some e, before, result => result.1 = true ∧ result.2.t = e.t ∧ result.2.surface = e.surface ∧
      look.Shows e before result.2

namespace Look

variable {look : Look} {d e : Option (Sight α)} {a b : Sight α} {before after : Hit α}
  {r s : Bool × Hit α}

theorem Shows.of_untouched (hsame : Untouched before after) (h : look.Shows a after r.2) :
    look.Shows a before r.2 := by
  cases look with
  | bare => exact Eq.trans h hsame.binding
  | bound => exact h
  | mixed => trivial

/-- Only the hit of the record counts, not its statistics. -/
theorem Outcome.of_untouched (hsame : Untouched before after) (h : look.Outcome d after r) :
    look.Outcome d before r := by
  cases d with
  | none => exact ⟨h.1, hsame.trans h.2⟩
  | some a => exact ⟨h.1, h.2.1, h.2.2.1, h.2.2.2.of_untouched hsame⟩

theorem Outcome.seq_none (hr : look.Outcome (some a) before r) (hs : look.Outcome none r.2 s) :
    look.Outcome (some a) before (r.1 || s.1, s.2) := by
  obtain ⟨hfound, ht, hsurface, hshows⟩ := hr
  obtain ⟨hnone, hkept⟩ := hs
  refine ⟨by simp [hfound], hkept.t.trans ht, hkept.surface.trans hsurface, ?_⟩
  cases look with
  | bare => exact hkept.binding.trans hshows
  | bound => exact ⟨hshows.1, hkept.binding.trans hshows.2⟩
  | mixed => trivial

theorem Outcome.none_seq (hr : look.Outcome none before r) (hs : look.Outcome d r.2 s) :
    look.Outcome d before (r.1 || s.1, s.2) := by
  have h := hs.of_untouched hr.2
  rw [hr.1, Bool.false_or]
  exact h

theorem Outcome.seq_some (hr : look.Outcome (some a) before r)
    (hs : look.Outcome (some b) r.2 s) : look.Outcome (some b) before (r.1 || s.1, s.2) := by
  obtain ⟨hfound, ht, hsurface, hshows⟩ := hs
  refine ⟨by simp [hfound], ht, hsurface, ?_⟩
  cases look with
  | bare => exact Eq.trans hshows hr.2.2.2
  | bound => exact hshows
  | mixed => trivial

end Look

variable [Scalar α]

/-- A query accepts a sight exactly if it is nearer than the record. -/
def Settles (look : Look) (d : Option (Sight α)) (f : Hit α → Bool × Hit α) : Prop :=
  ∀ hit, Scalar.isNaN hit.t = false →
    look.Outcome (d.filter fun e => decide (e.t < hit.t)) hit (f hit)

/-- The nearer of two sights, the first one if they are level. -/
def Sight.nearer : Option (Sight α) → Option (Sight α) → Option (Sight α)
  | none, e => e
  | some a, none => some a
  | some a, some b => if b.t < a.t then some b else some a

namespace Sight

variable {d e : Option (Sight α)} {a b : Sight α}

theorem nearer_eq_or (d e : Option (Sight α)) : nearer d e = d ∨ nearer d e = e := by
  cases d with
  | none => exact .inr rfl
  | some a =>
    cases e with
    | none => exact .inl rfl
    | some b =>
      rw [nearer]
      split
      · exact .inr rfl
      · exact .inl rfl

variable [Scalar.IsOrdered α]

theorem exists_nearer_le_left (ha : a ∈ d) (hd : Scalar.isNaN a.t = false) :
    ∃ c ∈ nearer d e, c.t ≤ a.t := by
  obtain rfl : d = some a := ha
  cases e with
  | none => exact ⟨a, rfl, Scalar.le_refl hd⟩
  | some b =>
    rw [nearer]
    split
    next hlt => exact ⟨b, rfl, Scalar.le_of_lt hlt⟩
    · exact ⟨a, rfl, Scalar.le_refl hd⟩

theorem exists_nearer_le_right (hd : ∀ a ∈ d, Scalar.isNaN a.t = false) (hb : b ∈ e)
    (he : Scalar.isNaN b.t = false) : ∃ c ∈ nearer d e, c.t ≤ b.t := by
  obtain rfl : e = some b := hb
  cases d with
  | none => exact ⟨b, rfl, Scalar.le_refl he⟩
  | some a =>
    rw [nearer]
    split
    · exact ⟨b, rfl, Scalar.le_refl he⟩
    next hle => exact ⟨a, rfl, Scalar.le_of_not_lt (hd a rfl) he hle⟩

end Sight

theorem Encounter.settles_answer [Scalar.IsOrdered α] {e : Option (Encounter α)}
    (he : ∀ d ∈ e, Scalar.isNaN d.t = false) :
    Settles .bare (e.map fun d => ⟨d, none⟩) (answer e) := by
  intro hit ht
  cases e with
  | none => exact ⟨rfl, .refl hit⟩
  | some d =>
    by_cases hnear : d.t < hit.t
    · have hle : ¬hit.t ≤ d.t := fun hle => Scalar.not_lt_of_le hle hnear
      simp [Option.filter, answer, hnear, hle, Look.Outcome, Look.Shows]
    · have hle : hit.t ≤ d.t := Scalar.le_of_not_lt ht (he d rfl) hnear
      simpa [Option.filter, answer, hnear, hle, Look.Outcome] using Untouched.refl hit

namespace Settles

variable {look : Look} {d e : Option (Sight α)} {f g : Hit α → Bool × Hit α}

theorem skip : Settles look none fun hit : Hit α => (false, hit) :=
  fun hit _ => ⟨rfl, .refl hit⟩

theorem mixed (h : Settles look d f) : Settles .mixed d f := by
  intro hit ht
  have hit' := h hit ht
  cases hd : d.filter fun e => decide (e.t < hit.t) with
  | none =>
    rw [hd] at hit'
    exact hit'
  | some e =>
    rw [hd] at hit'
    exact ⟨hit'.1, hit'.2.1, hit'.2.2.1, trivial⟩

theorem countNode (h : Settles look d f) : Settles look d fun hit => f hit.countNode :=
  fun hit ht => (h hit.countNode ht).of_untouched (Hierarchy.untouched_countNode hit)

theorem countPrimitive (h : Settles look d f) : Settles look d fun hit => f hit.countPrimitive :=
  fun hit ht => (h hit.countPrimitive ht).of_untouched (Hierarchy.untouched_countPrimitive hit)

/-- A query can be left out for records that it would not change. -/
theorem skip_if (h : Settles look d f) {p : Hit α → Prop} [DecidablePred p]
    (hp : ∀ hit, p hit → ∀ a ∈ d, ¬a.t < hit.t) :
    Settles look d fun hit => if p hit then (false, hit) else f hit := by
  intro hit ht
  dsimp only
  split
  next hskip =>
    have hnone : d.filter (fun e => decide (e.t < hit.t)) = none := by
      rw [Option.filter_eq_none_iff]
      intro a ha hlt
      exact hp hit hskip a ha (by simpa using hlt)
    rw [hnone]
    exact ⟨rfl, .refl hit⟩
  · exact h hit ht

variable [Scalar.IsOrdered α]

/-- One query after another settles on the nearer sight. -/
theorem seq (hd : ∀ a ∈ d, Scalar.isNaN a.t = false) (he : ∀ b ∈ e, Scalar.isNaN b.t = false)
    (hf : Settles look d f) (hg : Settles look e g) :
    Settles look (Sight.nearer d e) fun hit => ((f hit).1 || (g (f hit).2).1, (g (f hit).2).2) := by
  intro hit ht
  have hfirst := hf hit ht
  cases d with
  | none =>
    have hkept := hfirst.2.t
    have hsecond := hg (f hit).2 (by rwa [hkept])
    rw [hkept] at hsecond
    exact hfirst.none_seq hsecond
  | some a =>
    by_cases ha : a.t < hit.t
    · -- The second query only has to look in front of the first sight.
      rw [Option.filter_some_pos (by simpa using ha)] at hfirst
      have hsecond := hg (f hit).2 (by rw [hfirst.2.1]; exact hd a rfl)
      rw [hfirst.2.1] at hsecond
      cases e with
      | none =>
        rw [Sight.nearer, Option.filter_some_pos (by simpa using ha)]
        exact hfirst.seq_none hsecond
      | some b =>
        by_cases hb : b.t < a.t
        · have hnear := Scalar.lt_trans hb ha
          rw [Sight.nearer, if_pos hb, Option.filter_some_pos (by simpa using hnear)]
          rw [Option.filter_some_pos (by simpa using hb)] at hsecond
          exact hfirst.seq_some hsecond
        · rw [Sight.nearer, if_neg hb, Option.filter_some_pos (by simpa using ha)]
          rw [Option.filter_some_neg (by simpa using hb)] at hsecond
          exact hfirst.seq_none hsecond
    · rw [Option.filter_some_neg (by simpa using ha)] at hfirst
      have hkept := hfirst.2.t
      have hsecond := hg (f hit).2 (by rwa [hkept])
      rw [hkept] at hsecond
      cases e with
      | none =>
        rw [Sight.nearer, Option.filter_some_neg (by simpa using ha)]
        exact hfirst.none_seq hsecond
      | some b =>
        by_cases hb : b.t < a.t
        · rw [Sight.nearer, if_pos hb]
          exact hfirst.none_seq hsecond
        · -- Neither sight is in front of the record.
          have hlate : ¬b.t < hit.t := fun hlt => ha (Scalar.lt_of_le_of_lt
            (Scalar.le_of_not_lt (hd a rfl) (he b rfl) hb) hlt)
          rw [Sight.nearer, if_neg hb, Option.filter_some_neg (by simpa using ha)]
          rw [Option.filter_some_neg (by simpa using hlate)] at hsecond
          exact hfirst.none_seq hsecond

end Settles

open Exact

variable {z : ZeroSign}

/-- Without a limit a sight at a real distance is accepted. -/
theorem Settles.unlimited {look : Look} {d : Option (Sight (Exact z))}
    {f : Hit (Exact z) → Bool × Hit (Exact z)} (h : Settles look d f)
    (hd : ∀ e ∈ d, ∃ τ : ℝ, e.t = number τ) (hit : Hit (Exact z)) (ht : hit.t = infinity) :
    look.Outcome d hit (f hit) := by
  have hfree := h hit (by simp [ht])
  cases d with
  | none => exact hfree
  | some e =>
    obtain ⟨τ, hτ⟩ := hd e rfl
    rwa [Option.filter_some_pos (by rw [hτ, ht]; exact decide_eq_true (lt_infinity τ))] at hfree

namespace Hierarchy

/-- What a ray sees of each item. -/
abbrev Sights (z : ZeroSign) := Nat → Option (Sight (Exact z))

/-- The sights of some items are at real distances. -/
def Sights.AreReal (sights : Sights z) (members : List Nat) : Prop :=
  ∀ i ∈ members, ∀ e ∈ sights i, ∃ τ : ℝ, e.t = number τ

/-- The box of a node is entered in front of all sights below it, or never. -/
def EntersBeforeOrNever (sights : Sights z) (entry : Exact z) (members : List Nat) : Prop :=
  entry = infinity ∨ ∀ i ∈ members, ∀ a ∈ sights i, entry ≤ a.t

/-- A query settles on a sight of some items, which no sight that counts is in front of. -/
structure Sees (look : Look) (sights : Sights z) (counts : Nat → Prop) (members : List Nat)
    (f : Hit (Exact z) → Bool × Hit (Exact z)) (d : Option (Sight (Exact z))) : Prop where
  settles : Settles look d f
  attained : ∀ a ∈ d, ∃ i ∈ members, sights i = some a
  covers : ∀ i ∈ members, counts i → ∀ a ∈ sights i, ∃ b ∈ d, b.t ≤ a.t

namespace Sees

variable {look : Look} {sights : Sights z} {counts : Nat → Prop} {xs ys : List Nat}
  {f g : Hit (Exact z) → Bool × Hit (Exact z)} {d e : Option (Sight (Exact z))}

theorem exists_number (h : Sees look sights counts xs f d) (hxs : sights.AreReal xs) :
    ∀ a ∈ d, ∃ τ : ℝ, a.t = number τ := by
  intro a ha
  obtain ⟨i, hi, hsight⟩ := h.attained a ha
  exact hxs i hi a hsight

theorem isNaN_eq_false (h : Sees look sights counts xs f d) (hxs : sights.AreReal xs) :
    ∀ a ∈ d, Scalar.isNaN a.t = false := by
  intro a ha
  obtain ⟨τ, hτ⟩ := h.exists_number hxs a ha
  simp [hτ]

theorem of_mem_iff (hmem : ∀ i, i ∈ xs ↔ i ∈ ys) (h : Sees look sights counts xs f d) :
    Sees look sights counts ys f d :=
  ⟨h.settles, by simpa only [hmem] using h.attained, by simpa only [hmem] using h.covers⟩

theorem seq (hf : Sees look sights counts xs f d) (hg : Sees look sights counts ys g e)
    (hxs : sights.AreReal xs) (hys : sights.AreReal ys) :
    Sees look sights counts (xs ++ ys)
      (fun hit => ((f hit).1 || (g (f hit).2).1, (g (f hit).2).2)) (Sight.nearer d e) := by
  have hd := hf.isNaN_eq_false hxs
  have he := hg.isNaN_eq_false hys
  refine ⟨hf.settles.seq hd he hg.settles, ?_, ?_⟩
  · intro a ha
    obtain h | h := Sight.nearer_eq_or d e <;> rw [h] at ha
    · obtain ⟨i, hi, hsight⟩ := hf.attained a ha
      exact ⟨i, List.mem_append_left _ hi, hsight⟩
    · obtain ⟨i, hi, hsight⟩ := hg.attained a ha
      exact ⟨i, List.mem_append_right _ hi, hsight⟩
  · intro i hi hcounts a ha
    obtain hi | hi := List.mem_append.1 hi
    · obtain ⟨b, hb, hle⟩ := hf.covers i hi hcounts a ha
      obtain ⟨c, hc, hcb⟩ := Sight.exists_nearer_le_left (e := e) hb (hd b hb)
      exact ⟨c, hc, Scalar.le_trans hcb hle⟩
    · obtain ⟨b, hb, hle⟩ := hg.covers i hi hcounts a ha
      obtain ⟨c, hc, hcb⟩ := Sight.exists_nearer_le_right hd hb (he b hb)
      exact ⟨c, hc, Scalar.le_trans hcb hle⟩

/-- A box that is entered in front of all sights inside it hides none of them, and one that is never
entered hides all of them. -/
theorem exists_skip_if (h : Sees look sights counts xs f d) (hxs : sights.AreReal xs)
    {entry : Exact z} (hentry : EntersBeforeOrNever sights entry xs)
    (hcounts : ∀ i ∈ xs, counts i → ∀ a ∈ sights i, entry ≤ a.t)
    {p : Hit (Exact z) → Prop} [DecidablePred p]
    (hnever : entry = infinity → ∀ hit, Scalar.isNaN hit.t = false → p hit)
    (hskips : ∀ hit, p hit → ¬entry < hit.t) :
    ∃ d, Sees look sights counts xs (fun hit => if p hit then (false, hit) else f hit) d := by
  obtain hinfinity | hentry := hentry
  · refine ⟨none, fun hit ht => ?_, by simp, fun i hi hcount a ha => ?_⟩
    · rw [if_pos (hnever hinfinity hit ht)]
      exact ⟨rfl, .refl hit⟩
    · obtain ⟨τ, hτ⟩ := hxs i hi a ha
      have hle := hcounts i hi hcount a ha
      rw [hτ, hinfinity] at hle
      exact absurd (lt_infinity τ) (Scalar.not_lt_of_le hle)
  · refine ⟨d, h.settles.skip_if fun hit hskip a ha hlt => ?_, h.attained, h.covers⟩
    obtain ⟨i, hi, hsight⟩ := h.attained a ha
    exact hskips hit hskip (Scalar.lt_of_le_of_lt (hentry i hi a hsight) hlt)

/-- A child is asked only if it is entered in front of the record. -/
theorem exists_gate (h : Sees look sights counts xs f d) (hxs : sights.AreReal xs)
    {entry : Exact z} (hentry : EntersBeforeOrNever sights entry xs)
    (hcounts : ∀ i ∈ xs, counts i → ∀ a ∈ sights i, entry ≤ a.t) :
    ∃ d, Sees look sights counts xs
      (fun hit => if entry < hit.t then f hit else (false, hit)) d := by
  have hgate := h.exists_skip_if hxs hentry hcounts (p := fun hit => ¬entry < hit.t)
    (by rintro rfl hit _; exact not_infinity_lt) fun _ hskip => hskip
  simpa only [ite_not] using hgate

end Sees

/-! ## Trees -/

variable {look : Look} {sights : Sights z} {counts : Nat → Prop} {q : Query (Exact z)}

theorem exists_sees_queryAll {members : List Nat}
    (hq : ∀ i ∈ members, Settles look (sights i) (q i)) (hreal : sights.AreReal members) :
    ∃ d, Sees look sights counts members (queryAll q members) d := by
  induction members with
  | nil => exact ⟨none, .skip, by simp, by simp⟩
  | cons i rest ih =>
    have hrest : sights.AreReal rest := fun j hj => hreal j (List.mem_cons_of_mem i hj)
    have hone : sights.AreReal [i] := fun j hj => hreal j (by simp_all)
    obtain ⟨e, he⟩ := ih (fun j hj => hq j (List.mem_cons_of_mem i hj)) hrest
    have hfirst : Sees look sights counts [i] (fun hit => q i hit.countPrimitive) (sights i) := by
      refine ⟨(hq i (by simp)).countPrimitive, by simp, ?_⟩
      intro j hj _ a ha
      obtain rfl := List.mem_singleton.1 hj
      obtain ⟨τ, hτ⟩ := hone j hj a ha
      exact ⟨a, ha, Scalar.le_refl (by simp [hτ])⟩
    have hboth := hfirst.seq he hone hrest
    simp only [← queryAll_cons] at hboth
    exact ⟨_, hboth⟩

theorem exists_sees_queryBoth {near far : Hit (Exact z) → Bool × Hit (Exact z)}
    {tNear tFar : Exact z} {xs ys : List Nat} {d e : Option (Sight (Exact z))}
    (hnear : Sees look sights counts xs near d) (hfar : Sees look sights counts ys far e)
    (hxs : sights.AreReal xs) (hys : sights.AreReal ys)
    (hxentry : EntersBeforeOrNever sights tNear xs) (hyentry : EntersBeforeOrNever sights tFar ys)
    (hxcounts : ∀ i ∈ xs, counts i → ∀ a ∈ sights i, tNear ≤ a.t)
    (hycounts : ∀ i ∈ ys, counts i → ∀ a ∈ sights i, tFar ≤ a.t) :
    ∃ d, Sees look sights counts (xs ++ ys) (queryBoth near far tNear tFar) d := by
  obtain ⟨d', hd'⟩ := hnear.exists_gate hxs hxentry hxcounts
  obtain ⟨e', he'⟩ := hfar.exists_gate hys hyentry hycounts
  exact ⟨_, hd'.seq he' hxs hys⟩

/-- A tree settles if the items below it do. -/
theorem Tree.exists_sees_query (indices : Array Nat) (ray : Ray (Exact z))
    (invDirection : Vec3 (Exact z)) (t : Tree (Exact z))
    (hq : ∀ i ∈ t.members indices, Settles look (sights i) (q i))
    (hreal : sights.AreReal (t.members indices))
    (hentry : ∀ s, IsSubtree t s →
      EntersBeforeOrNever sights (s.box.rayEntry ray invDirection) (s.members indices))
    (hcounts : ∀ s, IsSubtree t s → ∀ i ∈ s.members indices, counts i → ∀ a ∈ sights i,
      s.box.rayEntry ray invDirection ≤ a.t) :
    ∃ d, Sees look sights counts (t.members indices) (t.query indices ray invDirection q) d := by
  induction t with
  | leaf box first count =>
    obtain ⟨d, hd⟩ : ∃ d, Sees look sights counts _ _ d := exists_sees_queryAll hq hreal
    exact ⟨d, hd.settles.countNode, hd.attained, hd.covers⟩
  | branch box l r ihl ihr =>
    have hl : sights.AreReal (l.members indices) := fun i hi => hreal i (List.mem_append_left _ hi)
    have hr : sights.AreReal (r.members indices) := fun i hi => hreal i (List.mem_append_right _ hi)
    obtain ⟨d, hd⟩ := ihl (fun i hi => hq i (List.mem_append_left _ hi)) hl
      (fun s hs => hentry s ((IsSubtree.left .refl).trans hs))
      fun s hs => hcounts s ((IsSubtree.left .refl).trans hs)
    obtain ⟨e, he⟩ := ihr (fun i hi => hq i (List.mem_append_right _ hi)) hr
      (fun s hs => hentry s ((IsSubtree.right .refl).trans hs))
      fun s hs => hcounts s ((IsSubtree.right .refl).trans hs)
    have hlentry := hentry l (.left .refl)
    have hrentry := hentry r (.right .refl)
    have hlcounts := hcounts l (.left .refl)
    have hrcounts := hcounts r (.right .refl)
    by_cases horder : l.box.rayEntry ray invDirection ≤ r.box.rayEntry ray invDirection
    · obtain ⟨c, hc⟩ := exists_sees_queryBoth hd he hl hr hlentry hrentry hlcounts hrcounts
      have hnode := hc.settles.countNode
      refine ⟨c, ?_, hc.attained, hc.covers⟩
      simpa only [query, horder, if_true] using hnode
    · obtain ⟨c, hc⟩ := exists_sees_queryBoth he hd hr hl hrentry hlentry hrcounts hlcounts
      have hswap : Sees look sights counts (l.members indices ++ r.members indices) _ c :=
        hc.of_mem_iff fun i => by simp [or_comm]
      have hnode := hswap.settles.countNode
      refine ⟨c, ?_, hswap.attained, hswap.covers⟩
      simpa only [query, horder, if_false] using hnode

theorem IsSubtree.mem_members {α : Type} {s t : Tree α} {indices : Array Nat} {i : Nat}
    (h : IsSubtree t s) (hi : i ∈ s.members indices) : i ∈ t.members indices := by
  induction h with
  | refl => exact hi
  | left _ ih => exact ih (List.mem_append_left _ hi)
  | right _ ih => exact ih (List.mem_append_right _ hi)

/-- A built hierarchy settles if its items do and their sights lie on the ray and in their boxes.  A
sight counts if every box around the item is entered in front of it. -/
theorem exists_sees_build {method : SplitMethod} {items : Array (Item (Exact z))}
    {ray : Ray (Exact z)} (hray : ray.IsProper)
    (hq : ∀ i < items.size, Settles look (sights i) (q i))
    (hsights : ∀ i < items.size, ∀ a ∈ sights i,
      LiesOn ray (item items i).bounds a.t a.surface)
    (hcounts : ∀ i < items.size, counts i → ∀ a ∈ sights i, ∀ box : Box (Exact z),
      (∀ p, (item items i).bounds.HasPoint p → box.HasPoint p) →
        box.rayEntry ray ray.direction.recip ≤ a.t) :
    ∃ d, Sees look sights counts (List.range items.size)
      ((build method items).intersect ray q) d := by
  obtain hzero | hpos := Nat.eq_zero_or_pos items.size
  · obtain rfl : items = #[] := Array.eq_empty_of_size_eq_zero hzero
    exact ⟨none, .skip, by simp, by simp⟩
  have hmem : ∀ i, i ∈ (built items method).1.members (built items method).2 ↔ i < items.size :=
    mem_members_built hpos
  have hbelow {s : Tree (Exact z)} (hs : IsSubtree (built items method).1 s) {i : Nat}
      (hi : i ∈ s.members (built items method).2) : i < items.size :=
    (hmem i).1 (hs.mem_members hi)
  have hentry : ∀ s, IsSubtree (built items method).1 s →
      EntersBeforeOrNever sights (s.box.rayEntry ray ray.direction.recip)
        (s.members (built items method).2) := by
    intro s hs
    by_cases hnever : s.box.rayEntry ray ray.direction.recip = infinity
    · exact .inl hnever
    refine .inr fun i hi a ha => ?_
    obtain ⟨⟨τ, hτ⟩, hposition, hpoint⟩ := hsights i (hbelow hs hi) a ha
    rw [hposition, hτ] at hpoint
    rw [hτ]
    exact (Box.rayEntry_le_or_eq_infinity hray (hasPoint_box hs hi hpoint hpos)).resolve_left hnever
  have hcount : ∀ s, IsSubtree (built items method).1 s →
      ∀ i ∈ s.members (built items method).2, counts i → ∀ a ∈ sights i,
        s.box.rayEntry ray ray.direction.recip ≤ a.t := fun s hs i hi hc a ha =>
    hcounts i (hbelow hs hi) hc a ha s.box fun _ hp => hasPoint_box hs hi hp hpos
  have hreal : sights.AreReal ((built items method).1.members (built items method).2) :=
    fun i hi a ha => (hsights i ((hmem i).1 hi) a ha).1
  obtain ⟨d, hd⟩ := Tree.exists_sees_query (built items method).2 ray ray.direction.recip
    (built items method).1 (fun i hi => hq i ((hmem i).1 hi)) hreal hentry hcount
  obtain ⟨e, he⟩ := hd.exists_skip_if hreal (hentry _ .refl) (hcount _ .refl)
    (p := fun hit => hit.t ≤ (built items method).1.box.rayEntry ray ray.direction.recip)
    (fun hinfinity hit ht => by rw [hinfinity]; exact le_infinity (by simpa using ht))
    fun _ => Scalar.not_lt_of_le
  refine ⟨e, ?_⟩
  rw [build_of_pos method hpos]
  exact he.of_mem_iff fun i => (hmem i).trans List.mem_range.symm

end Hierarchy

end Radiance
