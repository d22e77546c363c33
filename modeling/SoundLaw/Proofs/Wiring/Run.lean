import SoundLaw.Proofs.Search
import SoundLaw.Proofs.Wiring.Row
import SoundLaw.Rule.Application

/-!
# Runs of closed wirings

A graph is a wiring that has been closed. A run of it ends exactly where the wiring reads from
its start to its exit: the search finds what a path leads to, and no path ends in a state with
nowhere to go other than the exit.
-/

namespace SoundLaw
set_option autoImplicit false

section Bounds
variable {inner : Nat → Nat → List Nat} {target : List Segment} {i j : Nat}

theorem Graph.le_length_of_mem_run {g : Graph} (h : j ∈ g.run inner target i) :
    j ≤ target.length := by
  have hrange := (List.mem_filter.mp h).1
  exact Nat.le_of_lt_succ (List.mem_range.mp hrange)

theorem Automaton.le_length_of_mem_run {graphs : List Graph} {id : Nat}
    (h : j ∈ run graphs target id i) : j ≤ target.length := by
  rw [run] at h
  split at h
  · cases h
  · exact Graph.le_length_of_mem_run h

theorem Graph.le_length_of_mem_stops {label : Label} (hi : i ≤ target.length)
    (h : j ∈ stops inner target i label) : j ≤ target.length := by
  cases label with
  | nothing =>
    rw [mem_stops_nothing.mp h]
    exact hi
  | element e =>
    obtain ⟨r, hr, rfl⟩ := List.mem_map.mp h
    exact (Element.readings_bounds hr).2
  | absence graph =>
    simp only [stops] at h
    split at h
    · rename_i hseg
      obtain rfl := List.mem_singleton.mp h
      cases hget : target[i]? with
      | none => simp [hget] at hseg
      | some x => exact (List.getElem?_eq_some_iff.mp hget).1
    · cases h

end Bounds

namespace Wiring

/-- A run through the wiring, from its start on, can only end at its exit. -/
structure Closes (w : Wiring) (start : Nat) : Prop where
  unbound : w.bound.lookup w.exit = none
  live : ∀ s, (s = start ∨ ∃ t ∈ w.transitions, t.target = s) → s ≠ w.exit →
    ∃ t ∈ w.transitions, t.source = s

section Run
variable {inner : Nat → Nat → List Nat} {target : List Segment}
variable {w : Wiring} {start first i j : Nat} {p q : Point}

theorem IsRow.closes (h : w.IsRow start first) : w.Closes start := ⟨h.unbound, h.live⟩

theorem IsFan.closes_cons {rest : Wiring} {behind : Nat} (hw : w.IsRow start first)
    (hrest : rest.IsFan start behind w.supply.state) (hbehind : behind < first) :
    ((w.leadTo behind).join rest).Closes start where
  unbound := by
    have hfan : ((w.leadTo behind).join rest).IsFan start behind first := .cons hw hrest
    rw [hfan.exit]
    exact hfan.lookup_eq_none (.inl hbehind)
  live s hs hne := by
    have hfan : ((w.leadTo behind).join rest).IsFan start behind first := .cons hw hrest
    rw [hfan.exit] at hne
    rcases hs with rfl | hs
    · by_cases he : s = w.exit
      · exact ⟨skip w.exit behind, by simp [join, leadTo], he.symm⟩
      · obtain ⟨t, ht, hts⟩ := hw.live s (.inl rfl) he
        exact ⟨t, by simp [join, leadTo, ht], hts⟩
    · exact hfan.live s hs hne

/-- Only a bound state can have been entered. -/
def Proper (w : Wiring) (p : Point) : Prop :=
  p.entered = true → (w.bound.lookup p.state).isSome = true

theorem mem_taken_iff :
    q ∈ ((w.close start).transitionsOf p.state).flatMap (fun t =>
      (Graph.stops inner target p.position t.label).map fun stop => ⟨stop, t.target, false⟩) ↔
    ∃ t ∈ w.transitions, t.source = p.state ∧
      ∃ j ∈ Graph.stops inner target p.position t.label, q = ⟨j, t.target, false⟩ := by
  simp only [Graph.transitionsOf, close, List.mem_flatMap, List.mem_filter, beq_iff_eq,
    List.mem_map, and_assoc, eq_comm (b := q)]

theorem mem_next_close_iff (hp : w.Proper p) :
    q ∈ (w.close start).next inner target p ↔ w.Step inner target p q := by
  obtain ⟨i, s, entered⟩ := p
  have hnested : (w.close start).nested? s = w.bound.lookup s := rfl
  constructor
  · intro h
    unfold Graph.next at h
    split at h
    · rename_i graph hs he
      obtain ⟨j, hj, rfl⟩ := List.mem_map.mp h
      obtain rfl : entered = false := he
      exact .enter hs hj
    · rename_i hnot
      obtain ⟨t, ht, rfl, j, hj, rfl⟩ := mem_taken_iff.mp h
      have he : entered = (w.bound.lookup t.source).isSome := by
        cases hl : w.bound.lookup t.source with
        | none =>
          cases entered with
          | false => rfl
          | true => exact absurd (hp rfl) (by simp [hl])
        | some graph =>
          cases entered with
          | false => exact (hnot graph hl rfl).elim
          | true => rfl
      subst he
      exact .take ht hj
  · intro h
    unfold Graph.next
    cases h with
    | enter hl hj =>
      simp only [hnested, hl]
      exact List.mem_map_of_mem hj
    | @take t _ _ ht hj =>
      split
      · rename_i hs he
        simp only [hnested] at hs
        simp [hs] at he
      · exact mem_taken_iff.mpr ⟨t, ht, rfl, _, hj, rfl⟩

/-- A point that a run can meet. -/
def Meets (w : Wiring) (start : Nat) (target : List Segment) (p : Point) : Prop :=
  w.Proper p ∧ p.position ≤ target.length ∧
    (p.state = start ∨ ∃ t ∈ w.transitions, p.state = t.source ∨ p.state = t.target)

theorem Meets.contains (h : w.Meets start target p) :
    Area.contains ⟨target.length, (w.close start).states⟩ p = true := by
  simp only [Area.contains, Bool.and_eq_true, decide_eq_true_eq, List.contains_iff_mem,
    Graph.states, close, List.mem_eraseDups, List.mem_cons, List.mem_flatMap, List.not_mem_nil,
    or_false]
  refine ⟨h.2.1, ?_⟩
  rcases h.2.2 with hs | ht
  · exact .inl hs
  · exact .inr (.inr ht)

theorem mem_transitionsOf_close {t : Transition} {s : Nat} :
    t ∈ (w.close start).transitionsOf s ↔ t ∈ w.transitions ∧ t.source = s := by
  simp [Graph.transitionsOf, close]

theorem Closes.isEnd_iff (hw : w.Closes start) (hp : w.Meets start target p) :
    (w.close start).isEnd p = true ↔ p.state = w.exit ∧ p.entered = false := by
  have hnested : (w.close start).nested? p.state = w.bound.lookup p.state := rfl
  simp only [Graph.isEnd, Graph.isAccepting, hnested, Bool.and_eq_true, Bool.or_eq_true,
    beq_iff_eq, List.isEmpty_iff, Option.isNone_iff_eq_none]
  constructor
  · intro ⟨haccepts, _⟩
    rcases haccepts with hs | ⟨hempty, hfree⟩
    · refine ⟨hs, ?_⟩
      cases he : p.entered with
      | false => rfl
      | true =>
        have hbound := hp.1 he
        rw [show p.state = w.exit from hs, hw.unbound] at hbound
        cases hbound
    · have hnone : ∀ t ∈ w.transitions, t.source ≠ p.state := by
        intro t ht hs
        exact List.not_mem_nil (hempty ▸ mem_transitionsOf_close.mpr ⟨ht, hs⟩)
      by_cases hs : p.state = w.exit
      · refine ⟨hs, ?_⟩
        cases he : p.entered with
        | false => rfl
        | true => simpa [hfree] using hp.1 he
      · have hreached : p.state = start ∨ ∃ t ∈ w.transitions, t.target = p.state := by
          rcases hp.2.2 with hs | ⟨t, ht, hs | hs⟩
          · exact .inl hs
          · exact absurd hs.symm (hnone t ht)
          · exact .inr ⟨t, ht, hs.symm⟩
        obtain ⟨t, ht, hts⟩ := hw.live p.state hreached hs
        exact absurd hts (hnone t ht)
  · intro ⟨hs, he⟩
    exact ⟨.inl hs, .inr (by rw [hs, hw.unbound])⟩

variable (hinner : ∀ {graph i j}, j ∈ inner graph i → j ≤ target.length)
include hinner

theorem Meets.step (h : w.Meets start target p) (hpq : w.Step inner target p q) :
    w.Meets start target q := by
  cases hpq with
  | enter hl hj => exact ⟨fun _ => by simp [hl], hinner hj, h.2.2⟩
  | @take t _ _ ht hj =>
    exact ⟨by simp [Proper], Graph.le_length_of_mem_stops h.2.1 hj, .inr ⟨t, ht, .inr rfl⟩⟩

/-- A run ends where the wiring reads from its start to its exit. -/
theorem Closes.mem_run_iff (hw : w.Closes start) (hi : i ≤ target.length) :
    j ∈ (w.close start).run inner target i ↔ w.passage inner target start w.exit i j := by
  have hstart : w.Meets start target ⟨i, start, false⟩ := ⟨by simp [Proper], hi, .inl rfl⟩
  have hmet : ∀ p, p ∈ explore ⟨target.length, (w.close start).states⟩
      ((w.close start).next inner target) [] [⟨i, start, false⟩] ↔
      w.Path inner target ⟨i, start, false⟩ p := by
    intro p
    rw [mem_explore_iff hstart.contains]
    symm
    refine reflTransGen_iff_of_invariant hstart (fun h => h.step hinner) ?_
    intro p q hp
    constructor
    · intro hpq
      exact ⟨(mem_next_close_iff hp.1).mpr hpq, (hp.step hinner hpq).contains⟩
    · intro hpq
      exact (mem_next_close_iff hp.1).mp hpq.1
  have hmeets : ∀ {p}, w.Path inner target ⟨i, start, false⟩ p → w.Meets start target p :=
    fun h => h.keeps hstart fun hp hpq => hp.step hinner hpq
  unfold Graph.run
  simp only [List.mem_filter, List.mem_range, List.any_eq_true, beq_iff_eq]
  constructor
  · intro ⟨_, ⟨k, s, entered⟩, ⟨hmem, hend⟩, hk⟩
    subst hk
    have hpath := (hmet _).mp hmem
    obtain ⟨rfl, rfl⟩ := (hw.isEnd_iff (hmeets hpath)).mp hend
    exact hpath
  · intro hpath
    refine ⟨Nat.lt_succ_of_le (hmeets hpath).2.1, ⟨j, w.exit, false⟩, ⟨?_, ?_⟩, rfl⟩
    · exact (hmet _).mpr hpath
    · exact (hw.isEnd_iff (hmeets hpath)).mpr ⟨rfl, rfl⟩

end Run

end Wiring

end SoundLaw
