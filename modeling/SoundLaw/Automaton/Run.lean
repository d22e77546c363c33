import SoundLaw.Automaton.Construction

/-!
# Running an automaton

A run of a graph is a search through the points that can be reached, each of which is expanded
once. A state that is bound to another graph is left behind a match of that graph, so every
point records whether the match has been made. Inner graphs have larger numbers than the graphs
that use them, which is why runs within runs come to an end.
-/

namespace SoundLaw
set_option autoImplicit false

/-- A position in the target, a state, and whether the graph bound to it has been run. -/
structure Point where
  position : Nat
  state : Nat
  entered : Bool
  deriving DecidableEq, Repr

structure Area where
  last : Nat
  states : List Nat

namespace Area

def contains (a : Area) (p : Point) : Bool := p.position ≤ a.last && a.states.contains p.state

def points (a : Area) : List Point :=
  (List.range (a.last + 1)).flatMap fun position =>
    a.states.flatMap fun state => [⟨position, state, false⟩, ⟨position, state, true⟩]

theorem mem_points {a : Area} {p : Point} : p ∈ a.points ↔ a.contains p = true := by
  obtain ⟨position, state, entered⟩ := p
  simp only [points, contains, List.mem_flatMap, List.mem_range, List.mem_cons, Point.mk.injEq,
    List.not_mem_nil, or_false, Bool.and_eq_true, decide_eq_true_eq, List.contains_iff_mem]
  constructor
  · rintro ⟨_, h, _, hs, ⟨rfl, rfl, _⟩ | ⟨rfl, rfl, _⟩⟩ <;> exact ⟨Nat.le_of_lt_succ h, hs⟩
  · rintro ⟨h, hs⟩
    refine ⟨position, Nat.lt_succ_of_le h, state, hs, ?_⟩
    cases entered <;> simp

end Area

def unseen (a : Area) (seen : List Point) : Nat := a.points.countP (!seen.contains ·)

theorem countP_lt_countP {α : Type} {p q : α → Bool} {xs : List α} {x : α}
    (h : ∀ y, p y = true → q y = true) (hx : x ∈ xs) (hp : p x = false) (hq : q x = true) :
    xs.countP p < xs.countP q := by
  have hle : ∀ ys : List α, ys.countP p ≤ ys.countP q := fun ys =>
    List.countP_mono_left fun y _ hy => h y hy
  induction xs with
  | nil => cases hx
  | cons y ys ih =>
    have := hle ys
    rcases List.mem_cons.mp hx with rfl | hx
    · simp only [List.countP_cons, hp, hq, if_true, Bool.false_eq_true, if_false]
      omega
    · have := ih hx
      have hone := hle [y]
      simp only [List.countP_cons, List.countP_nil] at this hone ⊢
      omega

def fresh (a : Area) (seen points : List Point) : List Point :=
  (points.filter fun p => a.contains p && !seen.contains p).eraseDups

theorem unseen_append_lt {a : Area} {seen points : List Point} (h : fresh a seen points ≠ []) :
    unseen a (fresh a seen points ++ seen) < unseen a seen := by
  obtain ⟨p, hp⟩ := List.exists_mem_of_ne_nil _ h
  have hmem := hp
  simp only [fresh, List.mem_eraseDups, List.mem_filter, Bool.and_eq_true] at hmem
  refine countP_lt_countP (fun q hq => ?_) (Area.mem_points.mpr hmem.2.1) ?_ hmem.2.2
  · simp only [Bool.not_eq_true', List.contains_eq_mem, List.mem_append, decide_eq_false_iff_not,
      not_or] at hq ⊢
    exact hq.2
  · simp only [Bool.not_eq_false', List.contains_eq_mem, decide_eq_true_eq]
    exact List.mem_append_left _ hp

/-- The points of an area that can be reached from some points of it, with those already seen.
Points at the same distance are expanded together. -/
def explore (a : Area) (next : Point → List Point) (seen points : List Point) : List Point :=
  if h : fresh a seen points = [] then seen
  else
    have := unseen_append_lt h
    explore a next (fresh a seen points ++ seen) ((fresh a seen points).flatMap next)
termination_by unseen a seen

namespace Graph

/-- The positions behind a label, given where inner graphs can end. -/
def stops (inner : Nat → Nat → List Nat) (target : List Segment) (position : Nat) :
    Label → List Nat
  | .absence sub =>
    if target[position]?.any (!·.isBoundary) && (inner sub position).isEmpty then [position + 1]
    else []
  | label => (label.readings target position).map Reading.stop

def next (g : Graph) (inner : Nat → Nat → List Nat) (target : List Segment) (p : Point) :
    List Point :=
  match g.nested? p.state, p.entered with
  | some sub, false => (inner sub p.position).map fun stop => ⟨stop, p.state, true⟩
  | _, _ =>
    (g.transitionsOf p.state).flatMap fun t =>
      (stops inner target p.position t.label).map fun stop => ⟨stop, t.target, false⟩

def isEnd (g : Graph) (p : Point) : Bool :=
  g.isAccepting p.state && (p.entered || (g.nested? p.state).isNone)

def run (g : Graph) (inner : Nat → Nat → List Nat) (target : List Segment) (first : Nat) :
    List Nat :=
  let met := explore ⟨target.length, g.states⟩ (g.next inner target) [] [⟨first, g.start, false⟩]
  let ends := met.filter g.isEnd
  (List.range (target.length + 1)).filter fun stop => ends.any (·.position == stop)

end Graph

namespace Automaton

def run (graphs : List Graph) (target : List Segment) (id first : Nat) : List Nat :=
  match graphs[id]? with
  | none => []
  | some g =>
    g.run
      (fun sub position =>
        if _h : id < sub ∧ sub < graphs.length then run graphs target sub position else [])
      target first
termination_by graphs.length - id
decreasing_by omega

def bounded (m : FeatureModel) (target : List Segment) : List Segment :=
  if target.getLast?.any Segment.isBoundary then target else target ++ [.boundary m]

/-- The positions at which a match that begins at a position can end, in ascending order. A
boundary is assumed behind the target, and a match of it ends with the target. -/
def ends (a : Automaton) (target : List Segment) (first : Nat) : List Nat :=
  if target.length < first then []
  else
    let stops := (run a.graphs (bounded a.model target) root first).map (min · target.length)
    (List.range (target.length + 1)).filter stops.contains

def isMatch (a : Automaton) (target : List Segment) (first : Nat) : Bool :=
  !(a.ends target first).isEmpty

end Automaton

end SoundLaw
