import SoundLaw.Proofs.Wiring.Path

/-!
# One item

An item reads what its part reads, as often as its quantifier allows. The quantifier joins three
states, those before and behind the item and the anchor, by transitions that read nothing; the
item itself leads from its entrance to its landing. This is all that the four ways to wire a
label and the four ways to wire a graph have to share: the invariant of a path says what may have
been read in each of the three states.
-/

namespace SoundLaw
set_option autoImplicit false

namespace Quantifier

/-- The state from which the item is read. -/
def entrance (before anchor : Nat) : Quantifier → Nat
  | one | optional => before
  | star | plus => anchor

/-- The state in which the item has been read. -/
def landing (next anchor : Nat) : Quantifier → Nat
  | one | optional | plus => next
  | star => anchor

/-- The pairs of states joined by transitions that read nothing. -/
def skips (before next anchor : Nat) : Quantifier → List (Nat × Nat)
  | one => []
  | optional => [(before, next)]
  | star => [(before, anchor), (anchor, next)]
  | plus => [(before, anchor), (next, anchor)]

/-- What may have been read when an item is about to be read. -/
def already (r : Passage) : Quantifier → Passage
  | one | optional => fun i j => i = j
  | star | plus => Relation.ReflTransGen r

/-- What may have been read in one of the three states. -/
def stage (r : Passage) (before next i s j : Nat) (q : Quantifier) : Prop :=
  if s = before then i = j else if s = next then q.repeated r i j else q.already r i j

variable {q : Quantifier} {r : Passage} {before next anchor i j k : Nat}

theorem repeated_of_already (h : q.already r i k) (hr : r k j) : q.repeated r i j := by
  cases q with
  | one => cases h; exact hr
  | optional => cases h; exact .inr hr
  | star => exact h.tail hr
  | plus => exact .tail' h hr

theorem stage_entrance (hb : before < next) (hn : next < anchor) :
    q.stage r before next i (q.entrance before anchor) j ↔ q.already r i j := by
  have hab : anchor ≠ before := by omega
  have han : anchor ≠ next := by omega
  cases q <;> simp [stage, entrance, already, hab, han]

theorem stage_landing (hb : before < next) (hn : next < anchor) (h : q.repeated r i j) :
    q.stage r before next i (q.landing next anchor) j := by
  have hnb : next ≠ before := by omega
  have hab : anchor ≠ before := by omega
  have han : anchor ≠ next := by omega
  cases q <;> simpa [stage, landing, already, repeated, hnb, hab, han] using h

theorem stage_skips (hb : before < next) (hn : next < anchor) {p : Nat × Nat}
    (hp : p ∈ q.skips before next anchor) (h : q.stage r before next i p.1 j) :
    q.stage r before next i p.2 j := by
  have hnb : next ≠ before := by omega
  have hab : anchor ≠ before := by omega
  have han : anchor ≠ next := by omega
  cases q with
  | one => cases hp
  | optional =>
    obtain rfl := List.mem_singleton.mp hp
    simp only [stage, if_true, hnb, if_false] at h ⊢
    exact .inl h
  | star =>
    simp only [skips, List.mem_cons, List.not_mem_nil, or_false] at hp
    rcases hp with rfl | rfl
    · simp only [stage, if_true, hab, han, if_false] at h ⊢
      exact h ▸ .refl
    · simp only [stage, if_true, hnb, hab, han, if_false] at h ⊢
      exact h
  | plus =>
    simp only [skips, List.mem_cons, List.not_mem_nil, or_false] at hp
    rcases hp with rfl | rfl
    · simp only [stage, if_true, hab, han, if_false] at h ⊢
      exact h ▸ .refl
    · simp only [stage, if_true, hnb, hab, han, if_false] at h ⊢
      exact h.to_reflTransGen

/-- What a quantifier allows to be read can be read along its transitions. -/
theorem passage_of_repeated {inner : Nat → Nat → List Nat} {target : List Segment} {w : Wiring}
    (hop : ∀ {i j}, r i j →
      w.passage inner target (q.entrance before anchor) (q.landing next anchor) i j)
    (hskip : ∀ p ∈ q.skips before next anchor, ∀ i, w.passage inner target p.1 p.2 i i)
    (h : q.repeated r i j) : w.passage inner target before next i j := by
  cases q with
  | one => exact hop h
  | optional =>
    rcases h with rfl | h
    · exact hskip (before, next) List.mem_cons_self i
    · exact hop h
  | star =>
    have hloop : w.passage inner target anchor anchor i j := by
      induction h with
      | refl => exact .refl
      | tail _ h ih => exact ih.trans (hop h)
    have hin := hskip (before, anchor) (by simp [skips]) i
    have hout := hskip (anchor, next) (by simp [skips]) j
    exact (hin.trans hloop).trans hout
  | plus =>
    have hin := hskip (before, anchor) (by simp [skips]) i
    induction h with
    | single h => exact hin.trans (hop h)
    | @tail k j _ h ih => exact (ih.trans (hskip (next, anchor) (by simp [skips]) k)).trans (hop h)

end Quantifier

section Item
variable {inner : Nat → Nat → List Nat} {target : List Segment}
variable {q : Quantifier} {before : Nat} {s : Supply} {t : Transition}

theorem mem_wireLabel {label : Label} :
    t ∈ (wireLabel label q before s).transitions ↔
      t = ⟨q.entrance before (s.state + 1), label, q.landing s.state (s.state + 1)⟩ ∨
      ∃ p ∈ q.skips before s.state (s.state + 1), t = skip p.1 p.2 := by
  cases q <;> simp [wireLabel, Quantifier.entrance, Quantifier.landing, Quantifier.skips]
  · exact or_left_comm
  · exact or_left_comm

theorem mem_wireNested {graph : Nat} :
    t ∈ (wireNested graph q before s).transitions ↔
      t = skip (q.entrance before (s.state + 2)) s.state ∨
      t = skip s.state (q.landing (s.state + 1) (s.state + 2)) ∨
      ∃ p ∈ q.skips before (s.state + 1) (s.state + 2), t = skip p.1 p.2 := by
  cases q <;> simp [wireNested, Quantifier.entrance, Quantifier.landing, Quantifier.skips]
  · grind
  · grind

theorem bound_wireLabel (label : Label) : (wireLabel label q before s).bound = [] := by
  cases q <;> rfl

theorem exit_wireLabel (label : Label) : (wireLabel label q before s).exit = s.state := by
  cases q <;> rfl

theorem bound_wireNested (graph : Nat) :
    (wireNested graph q before s).bound = [(s.state, graph)] := by
  cases q <;> rfl

theorem exit_wireNested (graph : Nat) :
    (wireNested graph q before s).exit = s.state + 1 := by
  cases q <;> rfl

theorem lookup_wireLabel {label : Label} (a : Nat) :
    (wireLabel label q before s).bound.lookup a = none := by
  rw [bound_wireLabel]
  rfl

theorem stage_step_wireLabel {label : Label} (hb : before < s.state) {i : Nat} {x y : Point}
    (hx : q.stage ((Part.transition label).passage inner target) before s.state i x.state
      x.position)
    (hxy : (wireLabel label q before s).Step inner target x y) :
    q.stage ((Part.transition label).passage inner target) before s.state i y.state
      y.position := by
  have hn : s.state < s.state + 1 := Nat.lt_succ_self _
  cases hxy with
  | enter hl hj =>
    rw [lookup_wireLabel] at hl
    cases hl
  | take ht hj =>
    rcases mem_wireLabel.mp ht with rfl | ⟨p, hp, rfl⟩
    · have halready := (Quantifier.stage_entrance hb hn).mp hx
      exact Quantifier.stage_landing hb hn (Quantifier.repeated_of_already halready hj)
    · obtain rfl := mem_stops_nothing.mp hj
      exact Quantifier.stage_skips hb hn hp hx

theorem passage_wireLabel (label : Label) (hb : before < s.state) {i j : Nat} :
    (wireLabel label q before s).passage inner target before s.state i j ↔
      q.repeated ((Part.transition label).passage inner target) i j := by
  constructor
  · intro h
    have hend := h.keeps (P := fun p =>
      q.stage ((Part.transition label).passage inner target) before s.state i p.state p.position)
      (by simp [Quantifier.stage]) (stage_step_wireLabel hb)
    simpa [Quantifier.stage, Nat.ne_of_gt hb] using hend
  · intro h
    have hskip : ∀ p ∈ q.skips before s.state (s.state + 1), ∀ i,
        (wireLabel label q before s).passage inner target p.1 p.2 i i := by
      intro p hp i
      exact .single (.skip (mem_wireLabel.mpr (.inr ⟨p, hp, rfl⟩)) (lookup_wireLabel _) i)
    refine Quantifier.passage_of_repeated ?_ hskip h
    intro i j hij
    have hstep := Wiring.Step.take (w := wireLabel label q before s)
      (mem_wireLabel.mpr (.inl rfl)) hij
    rw [lookup_wireLabel] at hstep
    exact .single hstep

/-- A state bound to a graph, between two others, reads what the graph reads. -/
theorem Wiring.passage_of_bound {w : Wiring} {a entry b graph i j : Nat}
    (hin : skip a entry ∈ w.transitions) (hout : skip entry b ∈ w.transitions)
    (ha : w.bound.lookup a = none) (hentry : w.bound.lookup entry = some graph)
    (h : j ∈ inner graph i) : w.passage inner target a b i j := by
  have hleave : w.Step inner target ⟨j, entry, (w.bound.lookup entry).isSome⟩ ⟨j, b, false⟩ :=
    .take hout (mem_stops_nothing.mpr rfl)
  rw [hentry] at hleave
  exact ((Relation.ReflTransGen.single (.skip hin ha i)).tail (.enter hentry h)).tail hleave

/-- What has been read at a point of a wired graph. -/
def nestedStage (q : Quantifier) (r : Passage) (before entry i : Nat) (p : Point) : Prop :=
  if p.state = entry then
    if p.entered then ∃ k, q.already r i k ∧ r k p.position else q.already r i p.position
  else q.stage r before (entry + 1) i p.state p.position

section Nested
variable {graph : Nat}

theorem lookup_wireNested_entry :
    (wireNested graph q before s).bound.lookup s.state = some graph := by
  simp [bound_wireNested]

theorem lookup_wireNested {a : Nat} (ha : a ≠ s.state) :
    (wireNested graph q before s).bound.lookup a = none := by
  simp [bound_wireNested, ha]

theorem entrance_ne_entry (hb : before < s.state) :
    q.entrance before (s.state + 2) ≠ s.state := by
  have hne : before ≠ s.state := Nat.ne_of_lt hb
  cases q <;> simp [Quantifier.entrance, hne]

theorem landing_ne_entry : q.landing (s.state + 1) (s.state + 2) ≠ s.state := by
  cases q <;> simp [Quantifier.landing]

theorem skips_ne_entry (hb : before < s.state) {p : Nat × Nat}
    (hp : p ∈ q.skips before (s.state + 1) (s.state + 2)) :
    p.1 ≠ s.state ∧ p.2 ≠ s.state := by
  have hne : before ≠ s.state := Nat.ne_of_lt hb
  revert p
  cases q <;> simp [Quantifier.skips, hne]

/-- A step keeps the invariant, in and around the state bound to the graph. -/
theorem nestedStage_step_wireNested (hb : before < s.state) {i : Nat} {x y : Point}
    (hx : nestedStage q ((Part.nested graph).passage inner target) before s.state i x)
    (hxy : (wireNested graph q before s).Step inner target x y) :
    nestedStage q ((Part.nested graph).passage inner target) before s.state i y := by
  have hb' : before < s.state + 1 := Nat.lt_succ_of_lt hb
  have hn : s.state + 1 < s.state + 2 := Nat.lt_succ_self _
  cases hxy with
  | @enter a sub k l hl hj =>
    by_cases ha : a = s.state
    · subst a
      obtain rfl := Option.some.inj (lookup_wireNested_entry.symm.trans hl)
      simp only [nestedStage, if_true, Bool.false_eq_true, if_false] at hx ⊢
      exact ⟨k, hx, hj⟩
    · rw [lookup_wireNested ha] at hl
      cases hl
  | take ht hj =>
    rcases mem_wireNested.mp ht with rfl | rfl | ⟨p, hp, rfl⟩
    · obtain rfl := mem_stops_nothing.mp hj
      simp only [nestedStage, skip, entrance_ne_entry hb, if_true, Bool.false_eq_true,
        if_false] at hx ⊢
      exact (Quantifier.stage_entrance hb' hn).mp hx
    · obtain rfl := mem_stops_nothing.mp hj
      simp only [nestedStage, skip, landing_ne_entry, lookup_wireNested_entry,
        Option.isSome_some, if_true, if_false] at hx ⊢
      obtain ⟨k, hk, hr⟩ := hx
      exact Quantifier.stage_landing hb' hn (Quantifier.repeated_of_already hk hr)
    · obtain rfl := mem_stops_nothing.mp hj
      obtain ⟨hfirst, hsecond⟩ := skips_ne_entry hb hp
      simp only [nestedStage, skip, hfirst, hsecond, if_false] at hx ⊢
      exact Quantifier.stage_skips hb' hn hp hx

/-- A wired graph reads what the graph reads, as often as the quantifier allows. -/
theorem passage_wireNested (graph : Nat) (hb : before < s.state) {i j : Nat} :
    (wireNested graph q before s).passage inner target before (s.state + 1) i j ↔
      q.repeated ((Part.nested graph).passage inner target) i j := by
  have hne : before ≠ s.state := Nat.ne_of_lt hb
  have hb' : before < s.state + 1 := Nat.lt_succ_of_lt hb
  constructor
  · intro h
    have hend := h.keeps
      (P := nestedStage q ((Part.nested graph).passage inner target) before s.state i)
      (by simp [nestedStage, Quantifier.stage, hne]) (nestedStage_step_wireNested hb)
    simpa [nestedStage, Quantifier.stage, Nat.ne_of_gt hb'] using hend
  · intro h
    have hskip : ∀ p ∈ q.skips before (s.state + 1) (s.state + 2), ∀ i,
        (wireNested graph q before s).passage inner target p.1 p.2 i i := by
      intro p hp i
      have hmem : skip p.1 p.2 ∈ (wireNested graph q before s).transitions :=
        mem_wireNested.mpr (.inr (.inr ⟨p, hp, rfl⟩))
      exact .single (.skip hmem (lookup_wireNested (skips_ne_entry hb hp).1) i)
    refine Quantifier.passage_of_repeated ?_ hskip h
    intro i j hij
    exact Wiring.passage_of_bound (mem_wireNested.mpr (.inl rfl))
      (mem_wireNested.mpr (.inr (.inl rfl))) (lookup_wireNested (entrance_ne_entry hb))
      lookup_wireNested_entry hij

end Nested

end Item

end SoundLaw
