import SoundLaw.Proofs.Wiring.Item

/-!
# Rows and fans

Wirings drawn one behind the other make up a row and read one after the other. Wirings drawn side
by side, from one state to an exit that they share, make up a fan and read either. Every state
that they lead to leads on, except for the exit, so that a run can end nowhere else.
-/

namespace SoundLaw
set_option autoImplicit false

namespace Wiring

/-- The wiring of a row has its exit to itself, and every other state leads on. -/
structure IsRow (w : Wiring) (before first : Nat) : Prop
    extends w.Spans before first (fun _ => False) where
  exit : w.exit = before ∨ (first ≤ w.exit ∧ w.exit < w.supply.state)
  unbound : w.bound.lookup w.exit = none
  live : ∀ s, (s = before ∨ ∃ t ∈ w.transitions, t.target = s) → s ≠ w.exit →
    ∃ t ∈ w.transitions, t.source = s

/-- The wiring of alternatives leads to an exit that they share, and every other state that it
leads to leads on. -/
structure IsFan (w : Wiring) (before behind first : Nat) : Prop
    extends w.Spans before first (· = behind) where
  exit : w.exit = behind
  live : ∀ s, (∃ t ∈ w.transitions, t.target = s) → s ≠ behind →
    ∃ t ∈ w.transitions, t.source = s

section Rows
variable {inner : Nat → Nat → List Nat} {target : List Segment}
variable {a b w rest : Wiring} {before behind first i j : Nat} {s : Supply}

theorem isRow_stay : (stay before s).IsRow before s.state where
  source := by simp [stay]
  target := by simp [stay]
  bound := by simp [stay]
  le := Nat.le_refl _
  exit := .inl rfl
  unbound := rfl
  live := by simp [stay]

theorem path_stay {x y : Point} : (stay before s).Path inner target x y ↔ x = y := by
  constructor
  · intro h
    have hend := h.keeps (P := fun p => x = p) rfl (by
      intro p q _ hpq
      cases hpq with
      | enter hl => cases hl
      | take ht => cases ht)
    exact hend
  · intro h
    rw [h]

theorem IsRow.exit_lt (h : w.IsRow before first) (hb : before < first) :
    w.exit < w.supply.state := by
  have := h.le
  rcases h.exit with he | he <;> omega

theorem IsRow.mono {first' : Nat} (h : w.IsRow before first) (hle : first' ≤ first) :
    w.IsRow before first' where
  source t ht := (h.source t ht).imp_right fun hs => ⟨Nat.le_trans hle hs.1, hs.2⟩
  target t ht := (h.target t ht).imp_left fun hs => ⟨Nat.le_trans hle hs.1, hs.2⟩
  bound hl := ⟨Nat.le_trans hle (h.bound hl).1, (h.bound hl).2⟩
  le := Nat.le_trans hle h.le
  exit := h.exit.imp_right fun hs => ⟨Nat.le_trans hle hs.1, hs.2⟩
  unbound := h.unbound
  live := h.live

theorem IsRow.own_target (h : w.IsRow before first) {t : Transition} (ht : t ∈ w.transitions) :
    first ≤ t.target ∧ t.target < w.supply.state := by
  rcases h.target t ht with h | h
  · exact h
  · exact h.elim

theorem IsRow.join (ha : a.IsRow before first) (hb : b.IsRow a.exit a.supply.state) :
    (a.join b).IsRow before first where
  toSpans := ha.toSpans.join hb.toSpans ha.exit
  exit := by
    have hle := ha.le
    have hle' := hb.le
    have hexit := ha.exit
    have hexit' := hb.exit
    simp only [Wiring.join]
    omega
  unbound := by
    have hlookup : (a.join b).bound.lookup b.exit = _ := List.lookup_append
    have hle := ha.le
    refine hlookup.trans (Option.or_eq_none_iff.mpr ⟨?_, hb.unbound⟩)
    rcases hb.exit with he | he
    · rw [he]
      exact ha.unbound
    · exact ha.lookup_eq_none (.inr he.1)
  live s hs hne := by
    have hright : (s = a.exit ∨ ∃ t ∈ b.transitions, t.target = s) →
        ∃ t ∈ (a.join b).transitions, t.source = s := by
      intro h
      obtain ⟨t, ht, hts⟩ := hb.live s h hne
      exact ⟨t, List.mem_append_right _ ht, hts⟩
    have hleft : (s = before ∨ ∃ t ∈ a.transitions, t.target = s) →
        ∃ t ∈ (a.join b).transitions, t.source = s := by
      intro h
      by_cases he : s = a.exit
      · exact hright (.inl he)
      · obtain ⟨t, ht, hts⟩ := ha.live s h he
        exact ⟨t, List.mem_append_left _ ht, hts⟩
    rcases hs with rfl | ⟨t, ht, hts⟩
    · exact hleft (.inl rfl)
    · rcases List.mem_append.mp ht with ht | ht
      · exact hleft (.inr ⟨t, ht, hts⟩)
      · exact hright (.inr ⟨t, ht, hts⟩)

/-- Two rows, drawn one behind the other, read one after the other. -/
theorem IsRow.passage_join (ha : a.IsRow before first) (hb : b.IsRow a.exit a.supply.state)
    (hbefore : before < first) :
    (a.join b).passage inner target before b.exit i j ↔
      ∃ k, a.passage inner target before a.exit i k ∧ b.passage inner target a.exit b.exit k j := by
  refine (path_join_iff ha.toSpans hb.toSpans hbefore (ha.exit_lt hbefore) ha.unbound
    (by simp)).trans ⟨?_, .inr⟩
  intro h
  rcases h with h | h
  · have hle := ha.le
    have he : b.exit = a.exit := by
      rcases hb.exit with he | he
      · exact he
      · rcases ha.toSpans.state_of_path h with h | h | h
        · cases h
          omega
        · simp only at h
          omega
        · exact h.1.elim
    rw [he] at h ⊢
    exact ⟨j, h, .refl⟩
  · exact h

/-- The wiring of an alternative, led to the exit that the alternatives share. -/
def leadTo (w : Wiring) (behind : Nat) : Wiring :=
  { w with transitions := w.transitions ++ [skip w.exit behind] }

theorem isFan_stay : (stay behind s).IsFan before behind s.state where
  source := by simp [stay]
  target := by simp [stay]
  bound := by simp [stay]
  le := Nat.le_refl _
  exit := rfl
  live := by simp [stay]

theorem IsRow.spans_leadTo (h : w.IsRow before first) :
    (w.leadTo behind).Spans before first (· = behind) where
  source t ht := by
    rcases List.mem_append.mp ht with ht | ht
    · exact h.source t ht
    · obtain rfl := List.mem_singleton.mp ht
      exact h.exit
  target t ht := by
    rcases List.mem_append.mp ht with ht | ht
    · exact .inl (h.own_target ht)
    · obtain rfl := List.mem_singleton.mp ht
      exact .inr rfl
  bound := h.bound
  le := h.le

theorem IsFan.cons (hw : w.IsRow before first) (hrest : rest.IsFan before behind w.supply.state) :
    ((w.leadTo behind).join rest).IsFan before behind first where
  toSpans := hw.spans_leadTo.join hrest.toSpans (.inl rfl)
  exit := hrest.exit
  live s hs hne := by
    obtain ⟨t, ht, rfl⟩ := hs
    rcases List.mem_append.mp ht with ht | ht
    · rcases List.mem_append.mp ht with ht | ht
      · by_cases he : t.target = w.exit
        · exact ⟨skip w.exit behind, by simp [Wiring.join, leadTo], he.symm⟩
        · obtain ⟨t', ht', hs⟩ := hw.live _ (.inr ⟨t, ht, rfl⟩) he
          exact ⟨t', by simp [Wiring.join, leadTo, ht'], hs⟩
      · obtain rfl := List.mem_singleton.mp ht
        exact absurd rfl hne
    · obtain ⟨t', ht', hs⟩ := hrest.live _ ⟨t, ht, rfl⟩ hne
      exact ⟨t', List.mem_append_right _ ht', hs⟩

theorem shared_behind (hbehind : behind < first) (hne : behind ≠ before) :
    ∀ s, s = behind → s < first ∧ s ≠ before := by
  intro s hs
  rw [hs]
  exact ⟨hbehind, hne⟩

theorem passage_leadTo (hw : w.IsRow before first) (hbefore : before < first)
    (hbehind : behind < first) (hne : behind ≠ before) :
    (w.leadTo behind).passage inner target before behind i j ↔
      w.passage inner target before w.exit i j := by
  have hle := hw.le
  have hbridge : Spans ⟨behind, [skip w.exit behind], [], [], w.supply⟩ w.exit w.supply.state
      (· = behind) := by
    refine ⟨?_, ?_, ?_, Nat.le_refl _⟩ <;> simp [skip]
  have hspans : w.Spans before first (· = behind) :=
    ⟨hw.source, fun t ht => .inl (hw.own_target ht), hw.bound, hw.le⟩
  rw [passage_congr (w := w.leadTo behind)
    (v := w.join ⟨behind, [skip w.exit behind], [], [], w.supply⟩) rfl (List.append_nil _).symm]
  refine (path_join_iff hspans hbridge hbefore (hw.exit_lt hbefore) hw.unbound
    (shared_behind hbehind hne)).trans
    ⟨?_, ?_⟩
  · intro h
    rcases h with h | ⟨k, hik, hkj⟩
    · rcases hw.toSpans.state_of_path h with h | h | h
      · cases h
        exact absurd rfl hne
      · simp only at h
        omega
      · exact h.1.elim
    · have hend := hkj.keeps (P := fun p => p.position = k) rfl (by
        intro x y hx hxy
        cases hxy with
        | enter hl => cases hl
        | take ht hj =>
          obtain rfl := List.mem_singleton.mp ht
          exact (mem_stops_nothing.mp hj).trans hx)
      cases hend
      exact hik
  · intro h
    exact .inr ⟨j, h, .single (.skip (by simp) rfl j)⟩

/-- Alternatives, drawn side by side, read either. -/
theorem IsFan.passage_cons (hw : w.IsRow before first)
    (hrest : rest.IsFan before behind w.supply.state)
    (hbefore : before < first) (hbehind : behind < first) (hne : behind ≠ before) :
    ((w.leadTo behind).join rest).passage inner target before behind i j ↔
      w.passage inner target before w.exit i j ∨ rest.passage inner target before behind i j := by
  have hle := hw.le
  refine (path_join_iff (hw.spans_leadTo) hrest.toSpans hbefore (by simp [leadTo]; omega)
    (hw.lookup_eq_none (.inl hbefore)) (shared_behind hbehind hne)).trans
    (or_congr (passage_leadTo hw hbefore hbehind hne) ⟨?_, fun h => ⟨i, .refl, h⟩⟩)
  intro ⟨k, hik, hkj⟩
  rcases hw.spans_leadTo.state_of_path hik with h | h | h
  · cases h
    exact hkj
  · simp only [leadTo] at h
    omega
  · exact absurd h.1.symm hne

end Rows

end Wiring

/-! ### Parts as rows -/

section Part
variable {inner : Nat → Nat → List Nat} {target : List Segment}
variable {q : Quantifier} {before : Nat} {s : Supply}

theorem isRow_wireLabel (label : Label) : (wireLabel label q before s).IsRow before s.state := by
  cases q <;> refine ⟨⟨?_, ?_, ?_, ?_⟩, ?_, ?_, ?_⟩ <;> simp [wireLabel, skip] <;>
    intros <;> omega

theorem isRow_wireNested (graph : Nat) : (wireNested graph q before s).IsRow before s.state := by
  cases q <;> refine ⟨⟨?_, ?_, ?_, ?_⟩, ?_, ?_, ?_⟩ <;> simp [wireNested, skip] <;>
    intros <;> omega

theorem isRow_wirePart (b : Built) : (wirePart b q before).IsRow before b.supply.state := by
  obtain ⟨part, graphs, s⟩ := b
  cases part with
  | transition label =>
    have h : (wireLabel label q before s).IsRow before s.state := isRow_wireLabel label
    exact ⟨⟨h.source, h.target, h.bound, h.le⟩, h.exit, h.unbound, h.live⟩
  | nested graph =>
    have h : (wireNested graph q before s).IsRow before s.state := isRow_wireNested graph
    exact ⟨⟨h.source, h.target, h.bound, h.le⟩, h.exit, h.unbound, h.live⟩

theorem graphs_wirePart (b : Built) : (wirePart b q before).graphs = b.graphs := by
  obtain ⟨part, graphs, s⟩ := b
  cases part <;> cases q <;> exact List.append_nil graphs

theorem supply_graph_wirePart (b : Built) :
    (wirePart b q before).supply.graph = b.supply.graph := by
  obtain ⟨part, graphs, s⟩ := b
  cases part <;> cases q <;> rfl

/-- A wired part reads what the part reads, as often as the quantifier allows. -/
theorem passage_wirePart (b : Built) (hb : before < b.supply.state) {i j : Nat} :
    (wirePart b q before).passage inner target before (wirePart b q before).exit i j ↔
      q.repeated (b.part.passage inner target) i j := by
  obtain ⟨part, graphs, s⟩ := b
  cases part with
  | transition label =>
    have hexit : (wirePart ⟨.transition label, graphs, s⟩ q before).exit = s.state :=
      exit_wireLabel label
    rw [hexit,
      Wiring.passage_congr (w := wirePart ⟨.transition label, graphs, s⟩ q before)
        (v := wireLabel label q before s) rfl rfl]
    exact passage_wireLabel label hb
  | nested graph =>
    have hexit : (wirePart ⟨.nested graph, graphs, s⟩ q before).exit = s.state + 1 :=
      exit_wireNested graph
    rw [hexit,
      Wiring.passage_congr (w := wirePart ⟨.nested graph, graphs, s⟩ q before)
        (v := wireNested graph q before s) rfl rfl]
    exact passage_wireNested graph hb

end Part

end SoundLaw
