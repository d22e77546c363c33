import SoundLaw.Automaton.Graph
import SoundLaw.Pattern.Legality

/-!
# Construction

Every item of a pattern becomes a few transitions in the graph of the row it stands in. Groups,
alternations and negated items get a graph of their own. Loops hang off an anchor, so that the
way back never reaches a state that something else leaves from. States and graphs are numbered
in the order in which they are met; each step returns the numbers that are free after it.
-/

namespace SoundLaw
set_option autoImplicit false

structure Supply where
  state : Nat
  graph : Nat

inductive Part where
  | transition (label : Label)
  | nested (graph : Nat)

/-- A part, the graphs it rests on in the order of their numbers, and the supply left. -/
structure Built where
  part : Part
  graphs : List Graph
  supply : Supply

/-- What wiring adds to a graph: transitions and bound states up to an exit. The graphs it rests
on come in the order of their numbers. -/
structure Wiring where
  exit : Nat
  transitions : List Transition
  bound : List (Nat × Nat)
  graphs : List Graph
  supply : Supply

namespace Wiring

def stay (s : Nat) (supply : Supply) : Wiring := ⟨s, [], [], [], supply⟩

def join (a b : Wiring) : Wiring :=
  ⟨b.exit, a.transitions ++ b.transitions, a.bound ++ b.bound, a.graphs ++ b.graphs, b.supply⟩

def close (w : Wiring) (start : Nat) : Graph := ⟨start, w.exit, w.transitions, w.bound⟩

end Wiring

def skip (a b : Nat) : Transition := ⟨a, .nothing, b⟩

def wireLabel (label : Label) (q : Quantifier) (before : Nat) (s : Supply) : Wiring :=
  let next := s.state
  let anchor := s.state + 1
  match q with
  | .one => ⟨next, [⟨before, label, next⟩], [], [], ⟨s.state + 1, s.graph⟩⟩
  | .optional =>
    ⟨next, [⟨before, label, next⟩, skip before next], [], [], ⟨s.state + 1, s.graph⟩⟩
  | .star =>
    ⟨next, [skip before anchor, ⟨anchor, label, anchor⟩, skip anchor next], [], [],
      ⟨s.state + 2, s.graph⟩⟩
  | .plus =>
    ⟨next, [skip before anchor, ⟨anchor, label, next⟩, skip next anchor], [], [],
      ⟨s.state + 2, s.graph⟩⟩

def wireNested (graph : Nat) (q : Quantifier) (before : Nat) (s : Supply) : Wiring :=
  let entry := s.state
  let exit := s.state + 1
  let anchor := s.state + 2
  let bound := [(entry, graph)]
  match q with
  | .one =>
    ⟨exit, [skip before entry, skip entry exit], bound, [], ⟨s.state + 2, s.graph⟩⟩
  | .optional =>
    ⟨exit, [skip before entry, skip entry exit, skip before exit], bound, [],
      ⟨s.state + 2, s.graph⟩⟩
  | .star =>
    ⟨exit, [skip before anchor, skip anchor entry, skip entry anchor, skip anchor exit], bound,
      [], ⟨s.state + 3, s.graph⟩⟩
  | .plus =>
    ⟨exit, [skip before anchor, skip anchor entry, skip entry exit, skip exit anchor], bound,
      [], ⟨s.state + 3, s.graph⟩⟩

def wirePart (b : Built) (q : Quantifier) (before : Nat) : Wiring :=
  let w := match b.part with
    | .transition label => wireLabel label q before b.supply
    | .nested graph => wireNested graph q before b.supply
  { w with graphs := b.graphs ++ w.graphs }

def buildGraph (wire : Nat → Supply → Wiring) (s : Supply) : Built :=
  let w := wire s.state ⟨s.state + 1, s.graph + 1⟩
  ⟨.nested s.graph, w.close s.state :: w.graphs, w.supply⟩

def wireItem (marks : Marks) (build : Supply → Built) (before : Nat) (s : Supply) : Wiring :=
  if marks.negative then
    let b := buildGraph (fun start s => wirePart (build s) .one start) s
    wirePart { b with part := .transition (.absence s.graph) } marks.quantifier before
  else wirePart (build s) marks.quantifier before

def Terminal.element (macros : MacroTable) (side : Side) : Terminal → Element
  | literal s => .literal s
  | boundary => .literal (.boundary macros.model)
  | wildcard => .wildcard
  | reference name => .named name (((macros.find? name).getD []).map side.orient)

mutual

def buildItem (macros : MacroTable) (side : Side) : Expression → Supply → Built
  | .terminal t _, s => ⟨.transition (.element (t.element macros side)), [], s⟩
  | .group children _, s => buildGraph (wireRow macros side children) s
  | .alternation alternatives _, s =>
    buildGraph
      (fun start s => wireEach macros side alternatives start s.state ⟨s.state + 1, s.graph⟩) s

/-- Wires the items of a row behind a state, in the order in which the side reads them. -/
def wireRow (macros : MacroTable) (side : Side) :
    List Expression → Nat → Supply → Wiring
  | [], before, s => .stay before s
  | e :: es, before, s =>
    match side with
    | .right =>
      let w := wireItem e.marks (buildItem macros side e) before s
      w.join (wireRow macros side es w.exit w.supply)
    | .left =>
      let w := wireRow macros side es before s
      w.join (wireItem e.marks (buildItem macros side e) w.exit w.supply)

def wireEach (macros : MacroTable) (side : Side) :
    List Expression → (start exit : Nat) → Supply → Wiring
  | [], _, exit, s => .stay exit s
  | e :: es, start, exit, s =>
    let w := wireItem e.marks (buildItem macros side e) start s
    let w := { w with transitions := w.transitions ++ [skip w.exit exit] }
    w.join (wireEach macros side es start exit w.supply)

end

structure Automaton where
  /-- The graphs by their numbers. The first one describes the whole pattern. -/
  graphs : List Graph
  side : Side
  model : FeatureModel
  text : String

namespace Automaton

def root : Nat := 0

def build (macros : MacroTable) (side : Side) (p : Pattern) : Automaton where
  graphs := (buildGraph (wireRow macros side p) ⟨0, 0⟩).graphs
  side := side
  model := macros.model
  text := p.text

/-- The automaton of a pattern. It keeps the alternatives that the macros have now. -/
def ofPattern (macros : MacroTable) (side : Side) (p : Pattern) :
    Except PatternFault Automaton := do
  p.check macros side
  return build macros side p

def ofText (macros : MacroTable) (side : Side) (text : String) : Except Fault Automaton := do
  let p ← Pattern.ofText macros text
  (ofPattern macros side p).mapError Fault.pattern

def isTrivial (a : Automaton) : Bool := a.text.isEmpty

def shownText (a : Automaton) : String := s!"{a.side.text}({a.text})"

end Automaton

end SoundLaw
