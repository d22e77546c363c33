import SoundLaw.Proofs.Compilation
import SoundLaw.Proofs.Parsing

/-!
# Where automata match

The matches of an automaton are those of the pattern it was made from. The one condition on the
pattern is that its alternations have alternatives, and no other pattern can be written down.
-/

namespace SoundLaw
set_option autoImplicit false

namespace Automaton
variable {macros : MacroTable} {side : Side} {p : Pattern} {target : List Segment}
variable {first stop i j : Nat}

/-- The matches of the automaton, in ascending order, end where the pattern reads to. A boundary
is read behind the target, which has none at its end, but is not counted. -/
def Finds (a : Automaton) (macros : MacroTable) (side : Side) (p : Pattern) : Prop :=
  ∀ target first, (a.ends target first).Pairwise (· < ·) ∧
    ∀ stop, stop ∈ a.ends target first ↔ first ≤ target.length ∧
      ∃ j, p.Reads macros side (bounded macros.model target) first j ∧ stop = min j target.length

theorem length_le_length_bounded (m : FeatureModel) :
    target.length ≤ (bounded m target).length := by
  unfold bounded
  split
  · exact Nat.le_refl _
  · rw [List.length_append]
    exact Nat.le_add_right _ _

/-- A run of the whole automaton ends where the pattern reads to. -/
theorem mem_run_build_iff (hp : ∀ e ∈ p, e.Everywhere Expression.HasChoice)
    (hi : i ≤ target.length) :
    j ∈ run (build macros side p).graphs target root i ↔ p.Reads macros side target i j := by
  have hitems : ∀ e ∈ p, e.IsSound (build macros side p).graphs target macros side :=
    fun e he => isSound_of_hasChoice (hp e he)
  obtain ⟨hrow, hmeans⟩ := means_wireRow hitems 0 ⟨1, 1⟩ Nat.zero_lt_one
  have hbuilt := means_buildGraph (s := ⟨0, 0⟩) rfl hrow.closes
    (Nat.le_trans (Nat.zero_le 1) hrow.le) hmeans
  exact hbuilt.reads (List.prefix_refl _) (run (build macros side p).graphs target)
    (fun id _ _ => rfl) i hi j

theorem mem_ends_iff {a : Automaton} :
    stop ∈ a.ends target first ↔ first ≤ target.length ∧
      ∃ j ∈ run a.graphs (bounded a.model target) root first, stop = min j target.length := by
  unfold ends
  split
  · rename_i h
    simp [Nat.not_le_of_lt h]
  · rename_i h
    simp only [List.mem_filter, List.mem_range, List.contains_iff_mem, List.mem_map]
    constructor
    · intro ⟨_, j, hj, hstop⟩
      exact ⟨Nat.le_of_not_lt h, j, hj, hstop.symm⟩
    · intro ⟨_, j, hj, hstop⟩
      refine ⟨?_, j, hj, hstop.symm⟩
      rw [hstop]
      exact Nat.lt_succ_of_le (Nat.min_le_right _ _)

theorem pairwise_ends {a : Automaton} : (a.ends target first).Pairwise (· < ·) := by
  unfold ends
  split
  · exact .nil
  · exact List.pairwise_lt_range.filter _

theorem pairwise_run (graphs : List Graph) (target : List Segment) (id first : Nat) :
    (run graphs target id first).Pairwise (· < ·) := by
  rw [run]
  split
  · exact .nil
  · exact List.pairwise_lt_range.filter _

theorem finds_build (hp : ∀ e ∈ p, e.Everywhere Expression.HasChoice) :
    (build macros side p).Finds macros side p := by
  intro target first
  refine ⟨pairwise_ends, fun stop => ?_⟩
  rw [mem_ends_iff]
  refine and_congr_right fun hfirst => exists_congr fun j => and_congr_left fun _ => ?_
  exact mem_run_build_iff hp (Nat.le_trans hfirst (length_le_length_bounded _))

theorem ofPattern_eq_ok {p : Pattern} {a : Automaton} :
    ofPattern macros side p = .ok a ↔ p.check macros side = .ok () ∧ a = build macros side p := by
  unfold ofPattern
  rw [bind_eq_ok]
  constructor
  · intro ⟨_, hcheck, h⟩
    cases h
    exact ⟨hcheck, rfl⟩
  · intro ⟨hcheck, h⟩
    exact ⟨(), hcheck, by rw [h]; rfl⟩

theorem bounded_of_getLast? {m : FeatureModel} {target : List Segment}
    (h : target.getLast?.any Segment.isBoundary = true) : bounded m target = target :=
  if_pos h

/-- Where the target ends with a boundary, the matches end where the pattern reads to. -/
theorem Finds.mem_ends_iff {a : Automaton} (h : a.Finds macros side p)
    (hlast : target.getLast?.any Segment.isBoundary = true) (hi : i ≤ target.length) :
    j ∈ a.ends target i ↔ p.Reads macros side target i j := by
  rw [(h target i).2, bounded_of_getLast? hlast]
  constructor
  · intro ⟨_, k, hk, hj⟩
    have hle := (p.forward_reads hi hk).2
    rw [hj, Nat.min_eq_left hle]
    exact hk
  · intro hj
    have hle := (p.forward_reads hi hj).2
    exact ⟨hi, j, hj, (Nat.min_eq_left hle).symm⟩

theorem exists_build {text : String} {a : Automaton} (h : ofText macros side text = .ok a) :
    ∃ p, Pattern.ofText macros text = .ok p ∧ a = build macros side p := by
  obtain ⟨p, hp, h⟩ := bind_eq_ok.mp h
  exact ⟨p, hp, (ofPattern_eq_ok.mp (mapError_eq_ok.mp h)).2⟩

theorem exists_finds {text : String} {a : Automaton} (h : ofText macros side text = .ok a) :
    ∃ p, Pattern.ofText macros text = .ok p ∧ a.Finds macros side p := by
  obtain ⟨p, hp, rfl⟩ := exists_build h
  exact ⟨p, hp, finds_build (Pattern.hasChoice_of_ofText hp)⟩

/-- An automaton finds the matches of the pattern it was made from, which is one that its text
spells or any other whose alternations have alternatives. -/
theorem finds_pattern {a : Automaton} :
    (∀ p, (∀ e ∈ p, e.Everywhere Expression.HasChoice) →
      ofPattern macros side p = .ok a → a.Finds macros side p) ∧
    ∀ text, ofText macros side text = .ok a →
      ∃ p, Pattern.ofText macros text = .ok p ∧ a.Finds macros side p := by
  refine ⟨fun p hp h => ?_, fun text h => exists_finds h⟩
  rw [(ofPattern_eq_ok.mp h).2]
  exact finds_build hp

theorem finds_quantified :
    (∃ a, ofText (.empty .empty) .left "!a*({b c}#)?" = .ok a ∧
      ∃ p, Pattern.ofText (.empty .empty) "!a*({b c}#)?" = .ok p ∧
        a.Finds (.empty .empty) .left p) ∧
    (build (.empty .empty) .right [.terminal .wildcard ⟨.plus, true⟩]).Finds (.empty .empty) .right
      [.terminal .wildcard ⟨.plus, true⟩] := by
  constructor
  · have hok : (ofText (.empty .empty) .left "!a*({b c}#)?").isOk = true := by decide +kernel
    cases h : ofText (.empty .empty) .left "!a*({b c}#)?" with
    | error =>
      rw [h] at hok
      cases hok
    | ok a => exact ⟨a, rfl, finds_pattern.2 _ h⟩
  · refine finds_pattern.1 _ ?_ rfl
    intro e he
    obtain rfl := List.mem_singleton.mp he
    exact ⟨trivial, nofun⟩

end Automaton

end SoundLaw
