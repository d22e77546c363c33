import SoundLaw.Automaton.Construction
import SoundLaw.Automaton.Run
import SoundLaw.Proofs.Meaning

/-!
# Paths through wirings

A wiring leads from the state that it is drawn behind to its exit. It reads between two positions
if some path leads from one state to the other, given where inner graphs can end.

States are numbered in the order in which they are drawn, so that a wiring spans states of its
own and nothing else leaves from them. This keeps a loop from reaching into what was drawn
before: of two wirings, a path stays in the first one or leaves it once and for all.
-/

namespace SoundLaw
set_option autoImplicit false

/-- What a part reads, given where inner graphs can end. -/
def Part.passage (inner : Nat → Nat → List Nat) (target : List Segment) : Part → Passage
  | .transition label => fun i j => j ∈ Graph.stops inner target i label
  | .nested graph => fun i j => j ∈ inner graph i

namespace Wiring

/-- A step from point to point. A bound state runs its graph first, and its transitions are only
taken once it has. -/
inductive Step (w : Wiring) (inner : Nat → Nat → List Nat) (target : List Segment) :
    Point → Point → Prop
  | enter {s graph i j : Nat} : w.bound.lookup s = some graph → j ∈ inner graph i →
      Step w inner target ⟨i, s, false⟩ ⟨j, s, true⟩
  | take {t : Transition} {i j : Nat} : t ∈ w.transitions →
      j ∈ Graph.stops inner target i t.label →
      Step w inner target ⟨i, t.source, (w.bound.lookup t.source).isSome⟩ ⟨j, t.target, false⟩

abbrev Path (w : Wiring) (inner : Nat → Nat → List Nat) (target : List Segment) :
    Point → Point → Prop :=
  Relation.ReflTransGen (w.Step inner target)

def passage (w : Wiring) (inner : Nat → Nat → List Nat) (target : List Segment)
    (before behind : Nat) : Passage :=
  fun i j => w.Path inner target ⟨i, before, false⟩ ⟨j, behind, false⟩

/-- The wiring is drawn behind a state with states of its own, which are numbered from `first`
on. Apart from them its transitions only lead to shared states. -/
structure Spans (w : Wiring) (before first : Nat) (shared : Nat → Prop) : Prop where
  source : ∀ t ∈ w.transitions,
    t.source = before ∨ (first ≤ t.source ∧ t.source < w.supply.state)
  target : ∀ t ∈ w.transitions,
    (first ≤ t.target ∧ t.target < w.supply.state) ∨ shared t.target
  bound : ∀ {s graph}, w.bound.lookup s = some graph → first ≤ s ∧ s < w.supply.state
  le : first ≤ w.supply.state

end Wiring

/-! ### Steps -/

section Steps
variable {inner : Nat → Nat → List Nat} {target : List Segment} {w : Wiring}

/-- What holds at the beginning of a path and is kept by every step holds at its end. -/
theorem Wiring.Path.keeps {p q : Point} (h : w.Path inner target p q) {P : Point → Prop}
    (hp : P p) (hstep : ∀ {p q}, P p → w.Step inner target p q → P q) : P q := by
  induction h with
  | refl => exact hp
  | tail _ hqr ih => exact hstep ih hqr

@[simp] theorem mem_stops_nothing {i j : Nat} :
    j ∈ Graph.stops inner target i .nothing ↔ j = i := List.mem_singleton

theorem Wiring.Step.skip {a b : Nat} (h : SoundLaw.skip a b ∈ w.transitions)
    (ha : w.bound.lookup a = none) (i : Nat) : w.Step inner target ⟨i, a, false⟩ ⟨i, b, false⟩ := by
  have hstep : w.Step inner target ⟨i, a, (w.bound.lookup a).isSome⟩ ⟨i, b, false⟩ :=
    .take h (mem_stops_nothing.mpr rfl)
  rwa [ha] at hstep

end Steps

/-! ### Two wirings -/

/-- A run of steps of two kinds falls apart, if the second kind only sets out from certain points
and the first kind never follows it elsewhere. -/
theorem reflTransGen_or {α : Type} {r s : α → α → Prop} {cut : α → Prop} {x y : α}
    (hrs : ∀ {p q}, Relation.ReflTransGen r x p → s p q → cut p)
    (hsr : ∀ {c p q}, cut c → Relation.ReflTransGen s c p → r p q → p = c)
    (h : Relation.ReflTransGen (fun p q => r p q ∨ s p q) x y) :
    Relation.ReflTransGen r x y ∨
      ∃ c, cut c ∧ Relation.ReflTransGen r x c ∧ Relation.ReflTransGen s c y := by
  induction h with
  | refl => exact .inl .refl
  | tail _ hpq ih =>
    rcases ih with hp | ⟨c, hc, hxc, hcp⟩
    · rcases hpq with hpq | hpq
      · exact .inl (hp.tail hpq)
      · exact .inr ⟨_, hrs hp hpq, hp, .single hpq⟩
    · rcases hpq with hpq | hpq
      · rw [hsr hc hcp hpq] at hpq
        exact .inl (hxc.tail hpq)
      · exact .inr ⟨c, hc, hxc, hcp.tail hpq⟩

namespace Wiring

section Spans
variable {inner : Nat → Nat → List Nat} {target : List Segment}
variable {a b w v : Wiring} {before behind first i : Nat} {shared : Nat → Prop} {x y : Point}

theorem Step.mono (h : w.Step inner target x y)
    (ht : ∀ t ∈ w.transitions, t ∈ v.transitions)
    (hl : v.bound.lookup x.state = w.bound.lookup x.state) : v.Step inner target x y := by
  cases h with
  | enter hs hj => exact .enter (hl.trans hs) hj
  | take h hj =>
    have hstep := Step.take (ht _ h) hj
    rwa [show v.bound.lookup _ = _ from hl] at hstep

theorem passage_congr (ht : w.transitions = v.transitions) (hb : w.bound = v.bound) :
    w.passage inner target = v.passage inner target := by
  have hstep : w.Step inner target = v.Step inner target := by
    funext x y
    exact propext ⟨fun h => h.mono (by simp [ht]) (by rw [hb]),
      fun h => h.mono (by simp [ht]) (by rw [hb])⟩
  unfold passage Path
  rw [hstep]

theorem Spans.lookup_eq_none (h : w.Spans before first shared) {s : Nat}
    (hs : s < first ∨ w.supply.state ≤ s) : w.bound.lookup s = none := by
  cases hl : w.bound.lookup s with
  | none => rfl
  | some graph =>
    have := h.bound hl
    omega

theorem Spans.state_of_step (h : w.Spans before first shared) (hb : before < first)
    (hxy : w.Step inner target x y) :
    (x.state = before ∧ x.entered = false) ∨ (first ≤ x.state ∧ x.state < w.supply.state) := by
  cases hxy with
  | enter hl => exact .inr (h.bound hl)
  | take ht =>
    rcases h.source _ ht with hs | hs
    · exact .inl ⟨hs, by simp [hs, h.lookup_eq_none (.inl hb)]⟩
    · exact .inr hs

theorem Spans.state_of_path (h : w.Spans before first shared) {p : Point}
    (hp : w.Path inner target x p) :
    p = x ∨ (first ≤ p.state ∧ p.state < w.supply.state) ∨
      (shared p.state ∧ p.entered = false) := by
  cases hp with
  | refl => exact .inl rfl
  | tail _ hstep =>
    cases hstep with
    | enter hl => exact .inr (.inl (h.bound hl))
    | take ht =>
      rcases h.target _ ht with hs | hs
      · exact .inr (.inl hs)
      · exact .inr (.inr ⟨hs, rfl⟩)

theorem Spans.join (ha : a.Spans before first shared)
    (hb : b.Spans behind a.supply.state shared)
    (hbehind : behind = before ∨ (first ≤ behind ∧ behind < a.supply.state)) :
    (a.join b).Spans before first shared where
  source t ht := by
    have hle := ha.le
    have hle' := hb.le
    rcases List.mem_append.mp ht with ht | ht
    · have := ha.source t ht
      simp only [Wiring.join]
      omega
    · have := hb.source t ht
      simp only [Wiring.join]
      omega
  target t ht := by
    have hle := ha.le
    have hle' := hb.le
    rcases List.mem_append.mp ht with ht | ht
    · refine (ha.target t ht).imp_left fun h => ?_
      exact ⟨h.1, Nat.lt_of_lt_of_le h.2 hle'⟩
    · refine (hb.target t ht).imp_left fun h => ?_
      exact ⟨Nat.le_trans hle h.1, h.2⟩
  bound {s graph} hl := by
    have hle := ha.le
    have hle' := hb.le
    rw [show (a.join b).bound.lookup s = _ from List.lookup_append, Option.or_eq_some_iff] at hl
    simp only [Wiring.join]
    rcases hl with hl | ⟨-, hl⟩
    · have := ha.bound hl
      omega
    · have := hb.bound hl
      omega
  le := Nat.le_trans ha.le hb.le

end Spans

/-! A second wiring, drawn behind a state of the first one or behind the same state. -/

section Join
variable {inner : Nat → Nat → List Nat} {target : List Segment}
variable {a b : Wiring} {before behind first i : Nat} {shared : Nat → Prop} {x y : Point}
variable (ha : a.Spans before first shared) (hb : b.Spans behind a.supply.state shared)
variable (hbefore : before < first) (hbehind : behind < a.supply.state)
variable (hfree : a.bound.lookup behind = none)
include ha hb hbefore hbehind hfree

theorem step_join_iff :
    (a.join b).Step inner target x y ↔ a.Step inner target x y ∨ b.Step inner target x y := by
  have hjoin : ∀ s, (a.join b).bound.lookup s = (a.bound.lookup s).or (b.bound.lookup s) :=
    fun s => List.lookup_append
  have hle := ha.le
  have hleft : ∀ s < a.supply.state, (a.join b).bound.lookup s = a.bound.lookup s := by
    intro s hs
    rw [hjoin, hb.lookup_eq_none (.inl hs), Option.or_none]
  have hright : ∀ s, s = behind ∨ a.supply.state ≤ s →
      (a.join b).bound.lookup s = b.bound.lookup s := by
    intro s hs
    rcases hs with rfl | hs
    · rw [hjoin, hfree, Option.none_or]
    · rw [hjoin, ha.lookup_eq_none (.inr hs), Option.none_or]
  constructor
  · intro h
    cases h with
    | enter hl hj =>
      rw [hjoin, Option.or_eq_some_iff] at hl
      rcases hl with hl | ⟨-, hl⟩
      · exact .inl (.enter hl hj)
      · exact .inr (.enter hl hj)
    | @take t _ _ ht hj =>
      rcases List.mem_append.mp ht with ht | ht
      · have hs : t.source < a.supply.state := by
          rcases ha.source t ht with hs | hs <;> omega
        rw [hleft _ hs]
        exact .inl (.take ht hj)
      · have hs : t.source = behind ∨ a.supply.state ≤ t.source := by
          rcases hb.source t ht with hs | hs
          · exact .inl hs
          · exact .inr hs.1
        rw [hright _ hs]
        exact .inr (.take ht hj)
  · intro h
    rcases h with h | h
    · refine h.mono (fun t ht => List.mem_append_left _ ht) (hleft _ ?_)
      rcases ha.state_of_step hbefore h with hs | hs <;> omega
    · refine h.mono (fun t ht => List.mem_append_right _ ht) (hright _ ?_)
      rcases hb.state_of_step hbehind h with hs | hs
      · exact .inl hs.1
      · exact .inr hs.1

/-- A path through both wirings stays in the first one, or it leaves it once and for all. -/
theorem path_join_iff (hshared : ∀ s, shared s → s < first ∧ s ≠ before) :
    (a.join b).Path inner target ⟨i, before, false⟩ y ↔
      a.Path inner target ⟨i, before, false⟩ y ∨
        ∃ k, a.Path inner target ⟨i, before, false⟩ ⟨k, behind, false⟩ ∧
          b.Path inner target ⟨k, behind, false⟩ y := by
  have hstep : (a.join b).Step inner target =
      fun x y => a.Step inner target x y ∨ b.Step inner target x y :=
    funext fun x => funext fun y => propext (step_join_iff ha hb hbefore hbehind hfree)
  have hle := ha.le
  unfold Path
  rw [hstep]
  constructor
  · intro h
    have hleave : ∀ {p q : Point}, a.Path inner target ⟨i, before, false⟩ p →
        b.Step inner target p q → p.state = behind ∧ p.entered = false := by
      intro p q hp hpq
      rcases hb.state_of_step hbehind hpq with hs | hs
      · exact hs
      · rcases ha.state_of_path hp with rfl | hp | hp
        · simp only at hs
          omega
        · omega
        · have := hshared _ hp.1
          omega
    have hstay : ∀ {c p q : Point}, c.state = behind ∧ c.entered = false →
        b.Path inner target c p → a.Step inner target p q → p = c := by
      intro c p q hc hcp hpq
      have hp := ha.state_of_step hbefore hpq
      rcases hb.state_of_path hcp with hs | hs | hs
      · exact hs
      · omega
      · have := hshared _ hs.1
        omega
    rcases reflTransGen_or hleave hstay h with h | ⟨⟨k, _, _⟩, ⟨rfl, rfl⟩, hac, hcb⟩
    · exact .inl h
    · exact .inr ⟨k, hac, hcb⟩
  · intro h
    rcases h with h | ⟨k, hak, hky⟩
    · exact Relation.ReflTransGen.mono (fun _ _ => .inl) _ _ h
    · exact (Relation.ReflTransGen.mono (fun _ _ => .inl) _ _ hak).trans
        (Relation.ReflTransGen.mono (fun _ _ => .inr) _ _ hky)

end Join

end Wiring

end SoundLaw
