import Mathlib.Data.List.Chain
import SoundLaw.Proofs.Bounds

/-!
# The turns of a walk

A walk is over when its position is past the end of the word. Neither the position nor the length
is a measure of what there is still to do: the word grows under the walk, and a deletion leaves
the position where it is. But no turn touches what comes after the span it replaces, and each of
them leaves a segment or more of the old word behind, or the end of it. So there are no more turns
than there are positions in the word that the walk begins with.
-/

namespace SoundLaw
set_option autoImplicit false

/-! ### Chains that descend -/

section Descent
variable {α : Type} {R : α → α → Prop} {f : α → Nat} {x z : α} {points others : List α}

theorem length_le_of_descending (h : (x :: points).IsChain R) (hR : ∀ a b, R a b → f b < f a) :
    points.length ≤ f x := by
  induction points generalizing x with
  | nil => exact Nat.zero_le _
  | cons y points ih =>
    obtain ⟨hxy, hpoints⟩ := List.isChain_cons_cons.mp h
    exact Nat.le_trans (Nat.succ_le_succ (ih hpoints)) (hR x y hxy)

theorem countP_le_of_descending (h : (x :: points).IsChain R) (hR : ∀ a b, R a b → f b < f a)
    {p : α → Bool} (hp : ∀ a, p a = true → 0 < f a) : (x :: points).countP p ≤ f x := by
  have hhead : ∀ a, (if p a = true then 1 else 0) ≤ f a := by
    intro a
    split
    · exact hp a ‹_›
    · exact Nat.zero_le _
  induction points generalizing x with
  | nil =>
    rw [List.countP_cons, List.countP_nil, Nat.zero_add]
    exact hhead x
  | cons y points ih =>
    obtain ⟨hxy, hpoints⟩ := List.isChain_cons_cons.mp h
    have hrest := ih hpoints
    have hlt := hR x y hxy
    rw [List.countP_cons]
    split <;> omega

/-- Where every point leads to one other at most, a chain that cannot be continued contains
whatever else begins at the same point. -/
theorem prefix_of_isChain (hR : ∀ a b c, R a b → R a c → b = c)
    (h : (x :: points).IsChain R) (hlast : (x :: points).getLast? = some z) (hz : ∀ y, ¬ R z y)
    (hothers : (x :: others).IsChain R) : others <+: points := by
  induction points generalizing x others with
  | nil =>
    obtain rfl : x = z := Option.some.inj hlast
    cases others with
    | nil => exact List.prefix_refl _
    | cons y others => exact absurd (List.isChain_cons_cons.mp hothers).1 (hz y)
  | cons y points ih =>
    cases others with
    | nil => exact List.nil_prefix
    | cons y' others =>
      obtain ⟨hxy, hpoints⟩ := List.isChain_cons_cons.mp h
      obtain ⟨hxy', hothers⟩ := List.isChain_cons_cons.mp hothers
      obtain rfl := hR x y y' hxy hxy'
      rw [List.getLast?_cons_cons] at hlast
      exact List.cons_prefix_cons.mpr ⟨rfl, ih hpoints hlast hothers⟩

end Descent

/-! ### The turns -/

namespace Rule
variable {r : Rule} {m : FeatureModel} {x y z : List Segment × Nat}

def ahead (x : List Segment × Nat) : Nat := x.1.length + 1 - x.2

def replacesAt (r : Rule) (m : FeatureModel) (x : List Segment × Nat) : Bool :=
  x.2 ≤ x.1.length && (r.replacement? ⟨m, x.1⟩ x.2).isSome

theorem Turn.le_length (h : r.Turn m x y) : x.2 ≤ x.1.length := by
  cases h with
  | pass hpos | replace hpos => exact hpos

theorem Turn.eq (hy : r.Turn m x y) (hz : r.Turn m x z) : y = z := by
  cases hy with
  | pass _ hnone =>
    cases hz with
    | pass => rfl
    | replace _ hsome => cases hnone.symm.trans hsome
  | replace _ hsome =>
    cases hz with
    | pass _ hnone => cases hnone.symm.trans hsome
    | replace _ hsome' =>
      cases hsome.symm.trans hsome'
      rfl

/-- Whatever a turn does, the position does not run away from the word, and fewer positions are
left. -/
theorem Turn.ahead_lt (h : r.Turn m x y) : y.2 ≤ y.1.length + 1 ∧ ahead y < ahead x := by
  cases h with
  | pass hpos =>
    refine ⟨Nat.succ_le_succ hpos, ?_⟩
    simp only [ahead]
    omega
  | @replace segments pos x hpos hsome =>
    obtain ⟨hstop, hlast⟩ : pos ≤ x.stop ∧ x.stop ≤ segments.length :=
      replacement?_bounds hpos hsome
    have hlength : (Word.spliceRun segments pos x.stop x.run).length =
        pos + x.run.length + (segments.length - x.stop) := by
      simp only [Word.spliceRun, List.length_append, List.length_take, List.length_drop]
      omega
    simp only [ahead, hlength, stride]
    -- an insertion takes no segment away, but the walk goes past the next one
    split <;> omega

/-- All the turns of a walk from one point to another, at which it is past the end. There are no
other turns than these. -/
structure Course (r : Rule) (m : FeatureModel) (x : List Segment × Nat)
    (points : List (List Segment × Nat)) (z : List Segment × Nat) : Prop where
  turns : (x :: points).IsChain (r.Turn m)
  last : (x :: points).getLast? = some z
  past : z.1.length < z.2
  only : ∀ others, (x :: others).IsChain (r.Turn m) → others <+: points

theorem exists_course (r : Rule) (m : FeatureModel) (segments : List Segment) (pos : Nat) :
    ∃ points z, r.Course m (segments, pos) points z ∧ r.walk m segments pos = z.1 := by
  obtain ⟨z, hturns, hpast, hwalk⟩ := r.exists_turns m segments pos
  obtain ⟨points, hchain, hlast⟩ := List.exists_isChain_cons_of_relationReflTransGen hturns
  have hlast : ((segments, pos) :: points).getLast? = some z := by
    rw [List.getLast?_eq_some_getLast (List.cons_ne_nil _ _), hlast]
  have hstuck : ∀ y, ¬ r.Turn m z y := fun y hy => absurd hy.le_length (Nat.not_le_of_lt hpast)
  exact ⟨points, z, ⟨hchain, hlast, hpast,
    fun _ => prefix_of_isChain (fun _ _ _ => Turn.eq) hchain hlast hstuck⟩, hwalk⟩

/-- Applying a rule comes to an end. Every turn leaves fewer positions behind, so that there are
at most as many turns as the word has positions, and no more replacements than that. -/
theorem apply_turns {r : Rule} {w : Word} (hmodel : w.model.same r.model = true) :
    (∀ x y, r.Turn w.model x y → y.2 ≤ y.1.length + 1 ∧ ahead y < ahead x) ∧
    ∃ points z, r.Course w.model (w.segments, 0) points z ∧
      r.apply w = { w with segments := z.1 } ∧ points.length ≤ w.length + 1 ∧
      ((w.segments, 0) :: points).countP (r.replacesAt w.model) ≤ w.length + 1 := by
  have hdescends : ∀ x y, r.Turn w.model x y → ahead y < ahead x := fun _ _ h => h.ahead_lt.2
  obtain ⟨points, z, hcourse, hwalk⟩ := r.exists_course w.model w.segments 0
  refine ⟨fun _ _ h => h.ahead_lt, points, z, hcourse, by rw [apply, if_pos hmodel, hwalk],
    length_le_of_descending hcourse.turns hdescends,
    countP_le_of_descending hcourse.turns hdescends fun x hx => ?_⟩
  simp only [replacesAt, Bool.and_eq_true, decide_eq_true_eq] at hx
  simp only [ahead]
  omega

theorem apply_turns_growing :
    let w : Word := ⟨.empty, ["a", "p", "a"].map FeatureModel.empty.resolve⟩
    ∃ r, ofText (.empty .empty) "a p 0 > xyz 0 e / _ not _#" = .ok r ∧
      w.model.same r.model = true ∧
      (∀ x y, r.Turn w.model x y → y.2 ≤ y.1.length + 1 ∧ ahead y < ahead x) ∧
      ∃ points z, r.Course w.model (w.segments, 0) points z ∧
        r.apply w = { w with segments := z.1 } ∧ points.length ≤ w.length + 1 ∧
        ((w.segments, 0) :: points).countP (r.replacesAt w.model) ≤ w.length + 1 := by
  intro w
  have hok : ((ofText (.empty .empty) "a p 0 > xyz 0 e / _ not _#").toOption.any
      fun r => FeatureModel.empty.same r.model) = true := by decide +kernel
  obtain ⟨r, hr, hmodel⟩ := exists_ok_of_any hok
  exact ⟨r, hr, hmodel, apply_turns hmodel⟩

end Rule

end SoundLaw
