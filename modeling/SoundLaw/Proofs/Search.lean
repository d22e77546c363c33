import Mathlib.Logic.Relation
import SoundLaw.Automaton.Run

/-!
# Exhaustive search

The search through an area finds exactly the points that can be reached within it. It keeps two
invariants: what it has seen can be reached, and a step from a seen point leads to a point that
has been seen or is about to be.
-/

namespace SoundLaw
set_option autoImplicit false

def Area.Leads (a : Area) (next : Point → List Point) (p q : Point) : Prop :=
  q ∈ next p ∧ a.contains q = true

section
variable {a : Area} {next : Point → List Point} {seen points : List Point} {p q : Point}

theorem mem_fresh :
    p ∈ fresh a seen points ↔ p ∈ points ∧ a.contains p = true ∧ p ∉ seen := by
  simp [fresh, List.mem_eraseDups, List.mem_filter]

theorem mem_explore_of_mem_seen (h : p ∈ seen) : p ∈ explore a next seen points := by
  fun_induction explore a next seen points with
  | case1 => exact h
  | case2 seen points _ _ ih => exact ih (List.mem_append_right _ h)

theorem mem_explore_of_mem_points (hp : p ∈ points) (ha : a.contains p = true) :
    p ∈ explore a next seen points := by
  by_cases hs : p ∈ seen
  · exact mem_explore_of_mem_seen hs
  · have hf := mem_fresh.mpr ⟨hp, ha, hs⟩
    rw [explore, dif_neg (List.ne_nil_of_mem hf)]
    exact mem_explore_of_mem_seen (List.mem_append_left _ hf)

theorem reaches_of_mem_explore (h : p ∈ explore a next seen points) :
    p ∈ seen ∨ ∃ q ∈ points, a.contains q = true ∧ Relation.ReflTransGen (a.Leads next) q p := by
  fun_induction explore a next seen points with
  | case1 => exact .inl h
  | case2 seen points _ _ ih =>
    rcases ih h with hs | ⟨q, hq, ha, hqp⟩
    · rcases List.mem_append.mp hs with hs | hs
      · have hf := mem_fresh.mp hs
        exact .inr ⟨p, hf.1, hf.2.1, .refl⟩
      · exact .inl hs
    · obtain ⟨o, ho, hoq⟩ := List.mem_flatMap.mp hq
      have hf := mem_fresh.mp ho
      exact .inr ⟨o, hf.1, hf.2.1, .head ⟨hoq, ha⟩ hqp⟩

theorem mem_explore_of_leads
    (hseen : ∀ p ∈ seen, ∀ q, a.Leads next p q → q ∈ seen ∨ q ∈ points)
    (hp : p ∈ explore a next seen points) (hpq : a.Leads next p q) :
    q ∈ explore a next seen points := by
  fun_induction explore a next seen points with
  | case1 seen points hnil =>
    rcases hseen p hp q hpq with hq | hq
    · exact hq
    · by_cases hs : q ∈ seen
      · exact hs
      · exact absurd hnil (List.ne_nil_of_mem (mem_fresh.mpr ⟨hq, hpq.2, hs⟩))
  | case2 seen points _ _ ih =>
    refine ih ?_ hp
    intro o ho q hoq
    rcases List.mem_append.mp ho with ho | ho
    · exact .inr (List.mem_flatMap.mpr ⟨o, ho, hoq.1⟩)
    · rcases hseen o ho q hoq with hq | hq
      · exact .inl (List.mem_append_right _ hq)
      · by_cases hs : q ∈ seen
        · exact .inl (List.mem_append_right _ hs)
        · exact .inl (List.mem_append_left _ (mem_fresh.mpr ⟨hq, hoq.2, hs⟩))

theorem nodup_eraseDups {α : Type} [BEq α] [LawfulBEq α] (xs : List α) : xs.eraseDups.Nodup := by
  match xs with
  | [] => exact .nil
  | x :: xs =>
    have hlength := List.length_filter_le (fun y => !y == x) xs
    rw [List.eraseDups_cons, List.nodup_cons]
    exact ⟨by simp [List.mem_eraseDups], nodup_eraseDups (xs.filter fun y => !y == x)⟩
termination_by xs.length
decreasing_by exact Nat.lt_succ_of_le hlength

theorem nodup_explore (h : seen.Nodup) : (explore a next seen points).Nodup := by
  fun_induction explore a next seen points with
  | case1 => exact h
  | case2 seen points _ _ ih =>
    refine ih (List.nodup_append.mpr ⟨nodup_eraseDups _, h, fun p hp q hq => ?_⟩)
    rintro rfl
    exact (mem_fresh.mp hp).2.2 hq

/-- A search from a point of the area finds exactly what can be reached from it. -/
theorem mem_explore_iff (ha : a.contains p = true) :
    q ∈ explore a next [] [p] ↔ Relation.ReflTransGen (a.Leads next) p q := by
  constructor
  · intro h
    rcases reaches_of_mem_explore h with hs | ⟨o, ho, -, hoq⟩
    · cases hs
    · rwa [List.mem_singleton.mp ho] at hoq
  · intro h
    induction h with
    | refl => exact mem_explore_of_mem_points List.mem_cons_self ha
    | tail _ hstep ih => exact mem_explore_of_leads (by simp) ih hstep

end

end SoundLaw
