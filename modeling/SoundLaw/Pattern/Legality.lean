import SoundLaw.Pattern.Parsing

/-!
# Legality

Not every pattern that can be read makes sense. A word boundary cannot be repeated or left out,
nor can two of them follow each other, and a macro has to be defined. The items of a row are
looked at in the order in which a side reads them, which decides which of several faults is
reported.
-/

namespace SoundLaw
set_option autoImplicit false

namespace Pattern

/-- The first two neighbours that meet at a word boundary on either hand. -/
def touching? : Pattern → Option (Expression × Expression)
  | a :: b :: rest =>
    if a.edgeIsBoundary .left && b.edgeIsBoundary .right then some (a, b)
    else touching? (b :: rest)
  | _ => none

/-- Refuses neighbours that would both have to read the boundary between them. -/
def checkNeighbours (p : Pattern) : Except PatternFault Unit :=
  match p.touching? with
  | some (a, b) => .error (.adjacentBoundaries (a.text ++ b.text))
  | none => .ok ()

def checkQuantifier (e : Expression) : Except PatternFault Unit :=
  if e.isOnlyBoundary && e.quantifier != .one then .error (.boundaryQuantified e.text)
  else .ok ()

mutual

def checkItem (macros : MacroTable) (side : Side) (e : Expression) : Except PatternFault Unit := do
  checkQuantifier e
  match e with
  | .terminal (.reference name) _ => discard <| macros.alternatives name
  | .terminal _ _ => return ()
  | .group children _ =>
    checkNeighbours children
    checkRow macros side children
  | .alternation alternatives _ => checkEach macros side alternatives

def checkRow (macros : MacroTable) (side : Side) : List Expression → Except PatternFault Unit
  | [] => .ok ()
  | e :: es =>
    match side with
    | .right => do checkItem macros side e; checkRow macros side es
    | .left => do checkRow macros side es; checkItem macros side e

def checkEach (macros : MacroTable) (side : Side) : List Expression → Except PatternFault Unit
  | [] => .ok ()
  | e :: es => do checkItem macros side e; checkEach macros side es

end

def check (macros : MacroTable) (side : Side) (p : Pattern) : Except PatternFault Unit := do
  checkNeighbours p
  checkRow macros side p

end Pattern

end SoundLaw
