import SoundLaw.Automaton.Construction
import SoundLaw.Proofs.Meaning

/-!
# What elements read

The readings of an element are the ones that its leaf means. An alternative of a macro is found
at the index that it has in the list.
-/

namespace SoundLaw
set_option autoImplicit false

variable {target : List Segment} {i j : Nat}

theorem beginsWith_iff {segments run : List Segment} :
    beginsWith segments run = true ↔
      ∀ (k : Nat) (s : Segment), run[k]? = some s →
        ∃ x, segments[k]? = some x ∧ x.fits s = true := by
  induction run generalizing segments with
  | nil => simp [beginsWith]
  | cons t ts ih =>
    cases segments with
    | nil =>
      simp only [beginsWith, Bool.false_eq_true, false_iff]
      intro h
      obtain ⟨x, hx, -⟩ := h 0 t rfl
      cases hx
    | cons x xs =>
      rw [beginsWith, Bool.and_eq_true, ih]
      constructor
      · intro h k s hs
        cases k with
        | zero =>
          obtain rfl := Option.some.inj hs
          exact ⟨x, rfl, h.1⟩
        | succ k => exact h.2 k s hs
      · intro h
        refine ⟨?_, fun k s hs => h (k + 1) s hs⟩
        obtain ⟨y, hy, hfits⟩ := h 0 t rfl
        obtain rfl := Option.some.inj hy
        exact hfits

theorem matchesAt_iff {run : List Segment} :
    matchesAt target i run = true ↔ i ≤ target.length ∧ Stands target i run := by
  simp only [matchesAt, Bool.and_eq_true, decide_eq_true_eq, beginsWith_iff, Stands,
    List.getElem?_drop]

theorem mem_readingsOf {runs : List (List Segment)} {index : Nat} {r : Reading} :
    r ∈ Element.readingsOf target i index runs ↔ ∃ k run, runs[k]? = some run ∧
      matchesAt target i run = true ∧ r = ⟨i + run.length, some (index + k)⟩ := by
  induction runs generalizing index with
  | nil => simp [Element.readingsOf]
  | cons run runs ih =>
    have hsplit : r ∈ Element.readingsOf target i index (run :: runs) ↔
        (matchesAt target i run = true ∧ r = ⟨i + run.length, some index⟩) ∨
          r ∈ Element.readingsOf target i (index + 1) runs := by
      rw [Element.readingsOf]
      split
      · rename_i h
        simp [h]
      · rename_i h
        simp [h]
    rw [hsplit, ih]
    constructor
    · intro h
      rcases h with ⟨hm, rfl⟩ | ⟨k, run', hk, hm, rfl⟩
      · exact ⟨0, run, rfl, hm, rfl⟩
      · exact ⟨k + 1, run', hk, hm, by rw [Nat.add_assoc, Nat.add_comm 1 k]⟩
    · intro ⟨k, run', hk, hm, hr⟩
      subst hr
      cases k with
      | zero =>
        obtain rfl := Option.some.inj hk
        exact .inl ⟨hm, rfl⟩
      | succ k => exact .inr ⟨k, run', hk, hm, by rw [Nat.add_assoc, Nat.add_comm 1 k]⟩

theorem mem_literal_readings {s : Segment} (hi : i ≤ target.length) :
    j ∈ ((Element.literal s).readings target i).map Reading.stop ↔
      j = i + 1 ∧ ∃ x, target[i]? = some x ∧ x.fits s = true := by
  have hstands : Stands target i [s] ↔ ∃ x, target[i]? = some x ∧ x.fits s = true := by
    constructor
    · intro h
      exact h 0 s rfl
    · intro h k t ht
      cases k with
      | zero =>
        obtain rfl := Option.some.inj ht
        exact h
      | succ k => cases ht
  simp only [Element.readings]
  split
  · rename_i hm
    simp [hstands.mp (matchesAt_iff.mp hm).2]
  · rename_i hm
    simp only [List.map_nil, List.not_mem_nil, false_iff, not_and]
    intro _ h
    exact hm (matchesAt_iff.mpr ⟨hi, hstands.mpr h⟩)

/-- An element reads what its leaf means. -/
theorem mem_readings_element {macros : MacroTable} {side : Side} (t : Terminal)
    (hi : i ≤ target.length) :
    j ∈ ((t.element macros side).readings target i).map Reading.stop ↔
      t.Reads macros side target i j := by
  cases t with
  | literal s => exact mem_literal_readings hi
  | boundary => exact mem_literal_readings hi
  | wildcard =>
    simp only [Terminal.element, Element.readings, Terminal.Reads]
    cases hx : target[i]? with
    | none => simp
    | some x => cases hb : x.isBoundary <;> simp [hb]
  | reference name =>
    simp only [Terminal.element, Element.readings, Terminal.Reads, List.mem_map, mem_readingsOf]
    constructor
    · intro ⟨r, ⟨k, run, hk, hm, hr⟩, hj⟩
      subst hr hj
      rw [List.getElem?_map, Option.map_eq_some_iff] at hk
      obtain ⟨run', hk, rfl⟩ := hk
      cases hfind : macros.find? name with
      | none => simp [hfind] at hk
      | some alternatives =>
        rw [hfind, Option.getD_some] at hk
        exact ⟨alternatives, rfl, run', List.mem_of_getElem? hk, by simp,
          (matchesAt_iff.mp hm).2⟩
    · intro ⟨alternatives, hfind, run, hrun, hj, hstands⟩
      subst hj
      obtain ⟨k, hk⟩ := List.getElem?_of_mem hrun
      refine ⟨⟨i + (side.orient run).length, some (0 + k)⟩,
        ⟨k, side.orient run, ?_, ?_, rfl⟩, by simp⟩
      · rw [hfind, Option.getD_some, List.getElem?_map, hk, Option.map_some]
      · exact matchesAt_iff.mpr ⟨hi, hstands⟩

end SoundLaw
