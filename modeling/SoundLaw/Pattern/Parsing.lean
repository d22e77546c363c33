import SoundLaw.Pattern.Expression

/-!
# Parsing

A row of lexemes is read from its end, so that a quantifier is seen before the item it belongs
to and a negation right after it. A closing bracket looks for its opener first, and what lies
between them is read as a row of its own. Lists called `before` hold the lexemes that are still
to be read, the nearest one first.
-/

namespace SoundLaw
set_option autoImplicit false

abbrev Pattern := List Expression

/-- Lexemes cut at a pair of brackets: what the brackets hold, and what stands before them. -/
structure Bracketed where
  bracket : Bracket
  inner : List Lexeme
  before : List Lexeme

/-- The nearest bracket that is still open where a closing one stands, of whatever kind. The
depth counts the brackets closed on the way, and the lexemes passed are collected. -/
def findOpening (depth : Nat) (passed : List Lexeme) : List Lexeme → Option Bracketed
  | [] => none
  | l :: before =>
    match l, depth with
    | .opening bracket, 0 => some ⟨bracket, passed, before⟩
    | .opening _, outer + 1 => findOpening outer (l :: passed) before
    | .closing _, _ => findOpening (depth + 1) (l :: passed) before
    | _, _ => findOpening depth (l :: passed) before

theorem length_of_findOpening {before : List Lexeme} :
    ∀ {depth : Nat} {passed : List Lexeme} {b : Bracketed},
      findOpening depth passed before = some b →
        b.inner.length + b.before.length + 1 = passed.length + before.length := by
  induction before with
  | nil => intro _ _ _ h; simp [findOpening] at h
  | cons l before ih =>
    intro depth passed b h
    unfold findOpening at h
    split at h
    · cases h; simp only [List.length_cons]; omega
    all_goals have := ih h; simp only [List.length_cons] at this ⊢; omega

/-- The number of brackets open behind a lexeme. A stray closing one leaves none open. -/
def depthBehind (depth : Nat) : Lexeme → Nat
  | .opening _ => depth + 1
  | .closing _ => depth - 1
  | _ => depth

def cutAtSpaces (depth : Nat) : List Lexeme → List (List Lexeme)
  | [] => [[]]
  | l :: rest =>
    if l = .space ∧ depth = 0 then [] :: cutAtSpaces depth rest
    else match cutAtSpaces (depthBehind depth l) rest with
      | [] => [[l]]
      | part :: parts => (l :: part) :: parts

def alternativesOf (inner : List Lexeme) : List (List Lexeme) :=
  (cutAtSpaces 0 inner).filter (!·.isEmpty)

def extent : List (List Lexeme) → Nat
  | [] => 0
  | row :: rows => row.length + 1 + extent rows

theorem extent_filter_le (p : List Lexeme → Bool) (rows : List (List Lexeme)) :
    extent (rows.filter p) ≤ extent rows := by
  induction rows with
  | nil => simp
  | cons row rows ih =>
    rw [List.filter_cons]
    split <;> simp only [extent] <;> omega

theorem extent_cutAtSpaces (lexemes : List Lexeme) :
    ∀ depth : Nat, extent (cutAtSpaces depth lexemes) = lexemes.length + 1 := by
  induction lexemes with
  | nil => intro _; rfl
  | cons l rest ih =>
    intro depth
    rw [cutAtSpaces]
    split
    · simp only [extent, ih, List.length_nil, List.length_cons]; omega
    · have h := ih (depthBehind depth l)
      split <;> rename_i heq <;> rw [heq] at h <;>
        simp only [extent, List.length_cons, List.length_nil] at h ⊢ <;> omega

theorem extent_alternativesOf_le (inner : List Lexeme) :
    extent (alternativesOf inner) ≤ inner.length + 1 :=
  extent_cutAtSpaces inner 0 ▸ extent_filter_le _ _

def takeNegation : List Lexeme → Bool × List Lexeme
  | .negation :: before => (true, before)
  | before => (false, before)

theorem length_takeNegation_le (before : List Lexeme) :
    (takeNegation before).2.length ≤ before.length := by
  unfold takeNegation
  split
  · exact Nat.le_succ _
  · exact Nat.le_refl _

def Terminal.ofAtom (m : FeatureModel) : Atom → Except Fault Terminal
  | .boundary => .ok .boundary
  | .wildcard => .ok .wildcard
  | .name name => .ok (.reference name)
  | .symbol symbol => .ok (.literal (m.resolve symbol))
  | .bundle descriptor => (m.resolveBundle descriptor).map .literal

namespace Pattern

def unify : Pattern → Expression
  | [e] => e
  | children => .group children {}

mutual

/-- Reads a row of lexemes towards its beginning, given the quantifier that waits for an item
and the expressions behind. Faults of the row as a whole show its text. -/
def readRow (m : FeatureModel) (row : List Lexeme) (before : List Lexeme)
    (waiting : Option Quantifier) (behind : Pattern) : Except Fault Pattern :=
  match before with
  | [] =>
    if waiting.isSome then .error (.pattern (.danglingMark (Lexeme.render row)))
    else .ok behind
  | .space :: before => readRow m row before waiting behind
  | .quantifier q :: before =>
    if waiting.isSome then .error (.pattern (.danglingMark (Lexeme.render row)))
    else readRow m row before (some q) behind
  | .negation :: _ => .error (.pattern (.danglingMark (Lexeme.render row)))
  | .opening _ :: _ => .error (.pattern (.unmatchedBracket (Lexeme.render row)))
  | .closing bracket :: before =>
    match h : findOpening 0 [] before with
    | none =>
      .error (.pattern (.unmatchedBracket (Lexeme.render (before.reverse ++ [.closing bracket]))))
    | some b =>
      have := length_of_findOpening h
      have := extent_alternativesOf_le b.inner
      have := length_takeNegation_le b.before
      let whole := Lexeme.render (.opening b.bracket :: b.inner ++ [.closing bracket])
      let marks : Marks := ⟨waiting.getD .one, (takeNegation b.before).1⟩
      if b.bracket ≠ bracket then .error (.pattern (.unmatchedBracket whole))
      else match bracket with
        | .round => do
          let children ← readRow m b.inner b.inner.reverse none []
          readRow m row (takeNegation b.before).2 none (.group children marks :: behind)
        | .curly =>
          if (alternativesOf b.inner).isEmpty then
            .error (.pattern (.emptyAlternation whole))
          else do
            let alternatives ← readAlternatives m (alternativesOf b.inner)
            readRow m row (takeNegation b.before).2 none
              (.alternation alternatives marks :: behind)
  | .atom a :: before => do
    let t ← Terminal.ofAtom m a
    have := length_takeNegation_le before
    let marks : Marks := ⟨waiting.getD .one, (takeNegation before).1⟩
    readRow m row (takeNegation before).2 none (.terminal t marks :: behind)
termination_by before.length
decreasing_by
  all_goals
    simp only [List.length_nil, List.length_cons, List.length_reverse] at *
    omega

def readAlternatives (m : FeatureModel) : List (List Lexeme) → Except Fault Pattern
  | [] => .ok []
  | row :: rows => do
    let children ← readRow m row row.reverse none []
    return unify children :: (← readAlternatives m rows)
termination_by rows => extent rows
decreasing_by all_goals simp only [extent, List.length_reverse]; omega

end

def ofLexemes (m : FeatureModel) (lexemes : List Lexeme) : Except Fault Pattern :=
  readRow m lexemes lexemes.reverse none []

def ofText (macros : MacroTable) (text : String) : Except Fault Pattern := do
  ofLexemes macros.model (← (Lexeme.ofText macros text).mapError Fault.pattern)

def text (p : Pattern) : String := Expression.sequenceText p

end Pattern

end SoundLaw
