import SoundLaw.Element

/-!
# Graphs

An automaton is a list of graphs, which are known by their positions in it. The states of a
graph are joined by transitions, each of which reads something or nothing; a state can also be
bound to another graph, which runs before any transition of the state is taken. A graph has one
state marked as accepting. States are numbered throughout the automaton.
-/

namespace SoundLaw
set_option autoImplicit false

inductive Label where
  | nothing
  | element (e : Element)
  /-- A segment other than the boundary, where the graph has no match. -/
  | absence (graph : Nat)

namespace Label

def readings (target : List Segment) (pos : Nat) : Label → List Reading
  | nothing => [⟨pos, none⟩]
  | element e => e.readings target pos
  | absence _ => []

def text : Label → String
  | nothing => "ε"
  | element e => e.text
  | absence graph => s!"!<{graph}>"

end Label

structure Transition where
  source : Nat
  label : Label
  target : Nat

structure Graph where
  start : Nat
  accept : Nat
  transitions : List Transition
  /-- The states that are bound to a graph, with that graph. -/
  bound : List (Nat × Nat)

namespace Graph

def transitionsOf (g : Graph) (s : Nat) : List Transition := g.transitions.filter (·.source == s)

def nested? (g : Graph) (s : Nat) : Option Nat := g.bound.lookup s

/-- Whether a run may end in a state: in the one marked, or in one that leads nowhere. -/
def isAccepting (g : Graph) (s : Nat) : Bool :=
  s == g.accept || (g.transitionsOf s).isEmpty && (g.nested? s).isNone

def states (g : Graph) : List Nat :=
  (g.start :: g.accept :: g.transitions.flatMap fun t => [t.source, t.target]).eraseDups

end Graph

end SoundLaw
