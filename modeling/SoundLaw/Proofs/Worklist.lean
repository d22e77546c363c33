import Mathlib.Data.Prod.Lex
import SoundLaw.Proofs.Meaning
import SoundLaw.Proofs.Search

/-!
# Worklists

The points of an area can also be searched one at a time, from a list of points that still wait
for their turn. A point may wait more than once, but it is expanded on its first turn only. Such
a search comes to an end in whatever order the turns are taken, also where steps lead in circles:
each turn adds to the points that have been expanded, of which the area has finitely many, or
shortens the list. What has been expanded in the end are the points that the search by layers
finds.
-/

namespace SoundLaw
set_option autoImplicit false

structure Worklist where
  /-- The points that have been expanded, in the order opposite to that of their turns. -/
  expanded : List Point
  waiting : List Point

namespace Worklist

def init (p : Point) : Worklist := ⟨[], [p]⟩

/-- One turn of a search, which any of the waiting points may have. It is over at once where the
point has been expanded before. -/
inductive Turn (next : Point → List Point) : Worklist → Worklist → Prop where
  | drop {p : Point} {expanded waiting rest : List Point} :
    waiting.Perm (p :: rest) → p ∈ expanded → Turn next ⟨expanded, waiting⟩ ⟨expanded, rest⟩
  | expand {p : Point} {expanded waiting rest : List Point} :
    waiting.Perm (p :: rest) → p ∉ expanded →
    Turn next ⟨expanded, waiting⟩ ⟨p :: expanded, next p ++ rest⟩

abbrev Course (next : Point → List Point) (p : Point) : Worklist → Prop :=
  Relation.ReflTransGen (Turn next) (init p)

/-- What a search from a point keeps up. -/
structure Follows (next : Point → List Point) (start : Point) (w : Worklist) : Prop where
  nodup : w.expanded.Nodup
  met : start ∈ w.expanded ∨ start ∈ w.waiting
  reached : ∀ p, p ∈ w.expanded ∨ p ∈ w.waiting →
    Relation.ReflTransGen (fun p q => q ∈ next p) start p
  followed : ∀ p ∈ w.expanded, ∀ q ∈ next p, q ∈ w.expanded ∨ q ∈ w.waiting

section Turns
variable {next : Point → List Point} {start p q : Point} {v w : Worklist} {a : Area}

theorem follows_init : (init start).Follows next start where
  nodup := .nil
  met := .inr List.mem_cons_self
  reached p hp := by
    rcases hp with hp | hp
    · cases hp
    · rw [List.mem_singleton.mp hp]
  followed := by simp [init]

theorem Turn.follows (h : Turn next w v) (hw : w.Follows next start) : v.Follows next start := by
  cases h with
  | @drop p expanded waiting rest hperm hp =>
    -- The point that is dropped still counts, as one that has been expanded.
    have hkeep : ∀ q, q ∈ expanded ∨ q ∈ waiting → q ∈ expanded ∨ q ∈ rest := by
      intro q hq
      rcases hq with hq | hq
      · exact .inl hq
      · rcases List.mem_cons.mp (hperm.mem_iff.mp hq) with rfl | hq
        · exact .inl hp
        · exact .inr hq
    refine ⟨hw.nodup, hkeep _ hw.met, fun q hq => hw.reached q (hq.imp_right fun hq => ?_), ?_⟩
    · exact hperm.mem_iff.mpr (List.mem_cons_of_mem _ hq)
    · exact fun o ho q hq => hkeep q (hw.followed o ho q hq)
  | @expand p expanded waiting rest hperm hp =>
    have hkeep : ∀ q, q ∈ expanded ∨ q ∈ waiting →
        q ∈ p :: expanded ∨ q ∈ next p ++ rest := by
      intro q hq
      rcases hq with hq | hq
      · exact .inl (List.mem_cons_of_mem _ hq)
      · rcases List.mem_cons.mp (hperm.mem_iff.mp hq) with rfl | hq
        · exact .inl List.mem_cons_self
        · exact .inr (List.mem_append_right _ hq)
    have hstart : Relation.ReflTransGen (fun p q => q ∈ next p) start p :=
      hw.reached p (.inr (hperm.mem_iff.mpr List.mem_cons_self))
    refine ⟨List.nodup_cons.mpr ⟨hp, hw.nodup⟩, hkeep _ hw.met, ?_, ?_⟩
    · intro q hq
      rcases hq with hq | hq
      · rcases List.mem_cons.mp hq with rfl | hq
        · exact hstart
        · exact hw.reached q (.inl hq)
      · rcases List.mem_append.mp hq with hq | hq
        · exact hstart.tail hq
        · exact hw.reached q (.inr (hperm.mem_iff.mpr (List.mem_cons_of_mem _ hq)))
    · intro o ho q hq
      rcases List.mem_cons.mp ho with rfl | ho
      · exact .inr (List.mem_append_left _ hq)
      · exact hkeep q (hw.followed o ho q hq)

theorem Course.follows (h : Course next start w) : w.Follows next start := by
  induction h with
  | refl => exact follows_init
  | tail _ hturn ih => exact hturn.follows ih

/-! ### Searches within an area -/

theorem unseen_cons_lt {seen : List Point} (ha : a.contains p = true) (hp : p ∉ seen) :
    unseen a (p :: seen) < unseen a seen := by
  refine countP_lt_countP (fun q hq => ?_) (Area.mem_points.mpr ha) ?_ ?_
  · simp only [Bool.not_eq_true', List.contains_eq_mem, List.mem_cons, decide_eq_false_iff_not,
      not_or] at hq ⊢
    exact hq.2
  · simp
  · simpa using hp

theorem Turn.lex (h : Turn next w v) (hw : ∀ p ∈ w.waiting, a.contains p = true) :
    Prod.Lex (· < ·) (· < ·) (unseen a v.expanded, v.waiting.length)
      (unseen a w.expanded, w.waiting.length) := by
  cases h with
  | drop hperm hp =>
    refine .right _ ?_
    rw [hperm.length_eq]
    exact Nat.lt_succ_self _
  | expand hperm hp =>
    exact .left _ _ (unseen_cons_lt (hw _ (hperm.mem_iff.mpr List.mem_cons_self)) hp)

variable (hclosed : ∀ p, a.contains p = true → ∀ q ∈ next p, a.contains q = true)
variable (ha : a.contains start = true)
include hclosed ha

theorem contains_of_reaches (h : Relation.ReflTransGen (fun p q => q ∈ next p) start p) :
    a.contains p = true := by
  induction h with
  | refl => exact ha
  | tail _ hpq ih => exact hclosed _ ih _ hpq

/-- A search comes to an end, whatever the order of the turns. -/
theorem Follows.acc {w : Worklist} (h : w.Follows next start) :
    Acc (fun v w => Turn next w v) w := by
  refine ⟨w, fun v hv => ?_⟩
  have hlex := hv.lex (a := a) fun p hp =>
    contains_of_reaches hclosed ha (h.reached p (.inr hp))
  exact Follows.acc (hv.follows h)
termination_by (unseen a w.expanded, w.waiting.length)
decreasing_by exact hlex

/-- In the end the points that can be reached have been expanded. -/
theorem Follows.mem_expanded_iff (h : w.Follows next start) (hdone : w.waiting = []) :
    p ∈ w.expanded ↔ p ∈ explore a next [] [start] := by
  have hnone : ∀ {q}, q ∈ w.expanded ∨ q ∈ w.waiting → q ∈ w.expanded := by
    intro q hq
    rcases hq with hq | hq
    · exact hq
    · rw [hdone] at hq
      cases hq
  rw [mem_explore_iff ha]
  constructor
  · intro hp
    have hreach := h.reached p (.inl hp)
    refine (reflTransGen_iff_of_invariant (P := fun q => a.contains q = true) ha
      (fun {q r} hq hqr => hclosed q hq r hqr) fun {q r} hq => ?_).mp hreach
    exact ⟨fun hqr => ⟨hqr, hclosed q hq r hqr⟩, And.left⟩
  · intro hreach
    induction hreach with
    | refl => exact hnone h.met
    | tail _ hqr ih => exact hnone (h.followed _ ih _ hqr.1)

end Turns

end Worklist

end SoundLaw
