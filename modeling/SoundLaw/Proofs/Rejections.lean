import SoundLaw.Proofs.Edges

/-!
# Why patterns are refused

A fault of the check is about an expression of the pattern: one that is nothing but a boundary and
carries a quantifier, or two neighbours that have boundaries where they meet. Both are told from
the shapes of the expressions. Where nothing is inverted they are right about what is read. A shape
says nothing about signs, so an inverted boundary is taken for a boundary, though it reads ordinary
segments; nor does it say how often an item inside is read, or whether it is read at all, so an
expression may be refused that reads nothing.
-/

namespace SoundLaw
set_option autoImplicit false

namespace Pattern
variable {macros : MacroTable} {side : Side} {fault : PatternFault} {p : Pattern}
variable {e : Expression}
open Expression

/-- What a fault says about a tree. -/
inductive Blames (macros : MacroTable) (e : Expression) : PatternFault → Prop
  | quantified {x : Expression} (hx : x.Occurs e) (honly : x.isOnlyBoundary = true)
    (hquantifier : x.quantifier ≠ .one) : Blames macros e (.boundaryQuantified x.text)
  | adjacent {before after : List Expression} {a b : Expression} {marks : Marks}
    (hrow : (group (before ++ a :: b :: after) marks).Occurs e)
    (ha : a.edgeIsBoundary .left = true) (hb : b.edgeIsBoundary .right = true) :
    Blames macros e (.adjacentBoundaries (a.text ++ b.text))
  | unknown {name : String} {marks : Marks}
    (hx : (terminal (.reference name) marks).Occurs e) (hnone : macros.find? name = none) :
    Blames macros e (.unknownMacro name)

theorem Blames.child {c : Expression} (h : Blames macros c fault) (hc : c ∈ e.children) :
    Blames macros e fault := by
  cases h with
  | quantified hx honly hquantifier => exact .quantified (.child hc hx) honly hquantifier
  | adjacent hrow ha hb => exact .adjacent (.child hc hrow) ha hb
  | unknown hx hnone => exact .unknown (.child hc hx) hnone

theorem touching?_eq_some {a b : Expression} (h : p.touching? = some (a, b)) :
    ∃ before after, p = before ++ a :: b :: after ∧
      a.edgeIsBoundary .left = true ∧ b.edgeIsBoundary .right = true := by
  fun_induction touching? p with
  | case1 a' b' rest hedges =>
    cases h
    exact ⟨[], rest, rfl, by simpa using hedges⟩
  | case2 a' b' rest _ ih =>
    obtain ⟨before, after, hrow, hedges⟩ := ih h
    exact ⟨a' :: before, after, by rw [hrow]; rfl, hedges⟩
  | case3 => cases h

theorem blames_of_checkNeighbours {marks : Marks} (h : checkNeighbours p = .error fault) :
    Blames macros (group p marks) fault := by
  unfold checkNeighbours at h
  split at h
  · rename_i a b htouching
    obtain ⟨before, after, rfl, ha, hb⟩ := touching?_eq_some htouching
    cases h
    exact .adjacent .here ha hb
  · cases h

theorem blames_of_checkQuantifier (h : checkQuantifier e = .error fault) :
    Blames macros e fault := by
  unfold checkQuantifier at h
  split at h
  · rename_i hrefused
    rw [Bool.and_eq_true, bne_iff_ne] at hrefused
    cases h
    exact .quantified .here hrefused.1 hrefused.2
  · cases h

theorem exists_of_checkRow {es : List Expression} (h : checkRow macros side es = .error fault) :
    ∃ e ∈ es, checkItem macros side e = .error fault := by
  rw [checkRow_eq_forM] at h
  obtain ⟨e, he, h⟩ := exists_of_forM_eq_error h
  exact ⟨e, Side.mem_orient.mp he, h⟩

theorem blames_of_alternatives {name : String} {marks : Marks}
    (h : (discard <| macros.alternatives name : Except PatternFault Unit) = .error fault) :
    Blames macros (terminal (.reference name) marks) fault := by
  unfold MacroTable.alternatives at h
  cases hfind : macros.find? name with
  | some runs =>
    rw [hfind] at h
    cases h
  | none =>
    rw [hfind] at h
    cases h
    exact .unknown .here hfind

/-- Whatever an item is refused for occurs in it. -/
theorem blames_of_checkItem (h : checkItem macros side e = .error fault) :
    Blames macros e fault := by
  induction e using Expression.induct with
  | terminal t m =>
    cases t with
    | literal | boundary | wildcard =>
      simp only [checkItem] at h
      rcases seq_eq_error h with h | h
      · exact blames_of_checkQuantifier h
      · cases h
    | reference name =>
      rw [checkItem] at h
      rcases seq_eq_error h with h | h
      · exact blames_of_checkQuantifier h
      · exact blames_of_alternatives h
  | group children m ih =>
    rw [checkItem] at h
    rcases seq_eq_error h with h | h
    · exact blames_of_checkQuantifier h
    · rcases seq_eq_error h with h | h
      · exact blames_of_checkNeighbours h
      · obtain ⟨c, hc, h⟩ := exists_of_checkRow h
        exact (ih c hc h).child hc
  | alternation alternatives m ih =>
    rw [checkItem] at h
    rcases seq_eq_error h with h | h
    · exact blames_of_checkQuantifier h
    · rw [checkEach_eq_forM] at h
      obtain ⟨c, hc, h⟩ := exists_of_forM_eq_error h
      exact (ih c hc h).child hc

theorem blames_of_check (h : p.check macros side = .error fault) :
    Blames macros (group p {}) fault := by
  rcases seq_eq_error h with h | h
  · exact blames_of_checkNeighbours h
  · obtain ⟨c, hc, h⟩ := exists_of_checkRow h
    exact (blames_of_checkItem h).child hc

end Pattern

namespace Automaton
variable {macros : MacroTable} {side : Side} {text : String} {p : Pattern} {fault : PatternFault}
open Expression

theorem blames_of_ofText (hp : Pattern.ofText macros text = .ok p)
    (h : ofText macros side text = .error (.pattern fault)) :
    Pattern.Blames macros (group p {}) fault := by
  rw [ofText, hp] at h
  obtain ⟨fault', hcheck, hfault⟩ := mapError_eq_error.mp h
  cases hfault
  rcases bind_eq_error.mp hcheck with hcheck | ⟨_, _, hbuild⟩
  · exact Pattern.blames_of_check hcheck
  · cases hbuild

/-- The expression has a boundary at an edge, and reads one there if nothing is inverted around it
and the items on its other side can be read next to a boundary; in particular if nothing is inverted
at all, and no macro without alternatives is named. If it is inverted itself it reads none. -/
structure MeetsBoundary (macros : MacroTable) (edge : Side) (e : Expression) : Prop where
  borders : ∃ around row, e.Borders edge around row
  reads : ∀ read around row, e.Borders edge around row → (∀ x ∈ around, x.isNegative = false) →
    IsReadNextTo macros read edge row → e.ReadsBoundaryAt macros read edge
  plain : ∀ read, e.Everywhere (IsPlain macros) → e.ReadsBoundaryAt macros read edge
  inverted : ∀ read, e.isNegative = true → ¬ e.ReadsBoundaryAt macros read edge

theorem meetsBoundary_of_edgeIsBoundary {e : Expression} {edge : Side}
    (hchoice : e.Everywhere HasChoice) (hedge : e.edgeIsBoundary edge = true) :
    MeetsBoundary macros edge e where
  borders := exists_borders hedge
  reads _ _ _ h hsign hrow := h.readsBoundaryAt hsign hrow
  plain _ he := readsBoundaryAt_of_isPlain he hchoice hedge
  inverted _ he := not_readsBoundaryAt_of_isNegative he

/-- What an expression that is nothing but a boundary by its shape reads once: boundaries only, if
nothing in it is inverted, and ordinary segments only, if it is inverted itself. It reads the same
as one boundary or as any ordinary segment if nothing inside is inverted or quantified. -/
structure ShapedAsBoundary (macros : MacroTable) (x : Expression) : Prop where
  upright : x.Positive → ∀ read target,
    ((x.quantified .one).Reads macros read target).IsBoundaries macros read target ∧
    ((∀ c ∈ x.children, c.Everywhere fun c => c.quantifier = .one) →
      (x.quantified .one).Reads macros read target = Terminal.boundary.Reads macros read target)
  inverted : x.isNegative = true → ∀ read target,
    (∀ i j, (x.quantified .one).Reads macros read target i j →
      Terminal.wildcard.Reads macros read target i j) ∧
    ((∀ c ∈ x.children, c.Positive ∧ c.Everywhere fun c => c.quantifier = .one) →
      (x.quantified .one).Reads macros read target = Terminal.wildcard.Reads macros read target)

theorem shapedAsBoundary_of_isOnlyBoundary {x : Expression} (h : x.isOnlyBoundary = true) :
    ShapedAsBoundary macros x where
  upright hpositive read target := by
    rw [quantified_one hpositive.self]
    exact ⟨isBoundaries_bare hpositive h, bare_reads_eq_boundary hpositive h⟩
  inverted hnegative read target :=
    ⟨fun _ _ => wildcard_of_inverted hnegative, fun hinside => inverted_reads_eq_wildcard hnegative
      (fun c hc => (hinside c hc).1) h fun c hc => (hinside c hc).2⟩

/-- An expression that is refused for its quantifier has the shape of a boundary: it reads
boundaries only, if nothing in it is inverted, but ordinary segments only, if it is inverted.
Neighbours that are refused both have a boundary where they meet, which neither of them reads if it
is inverted. -/
theorem refused_boundaries (hp : Pattern.ofText macros text = .ok p) :
    (∀ t, ofText macros side text = .error (.pattern (.boundaryQuantified t)) →
      ∃ x : Expression, x.Occurs (group p {}) ∧ x.text = t ∧ x.quantifier ≠ .one ∧
        ShapedAsBoundary macros x) ∧
    ∀ t, ofText macros side text = .error (.pattern (.adjacentBoundaries t)) →
      ∃ before a b after marks, (group (before ++ a :: b :: after) marks).Occurs (group p {}) ∧
        a.text ++ b.text = t ∧ MeetsBoundary macros .left a ∧ MeetsBoundary macros .right b := by
  constructor
  · intro t h
    cases blames_of_ofText hp h with
    | @quantified x hx honly hquantifier =>
      exact ⟨x, hx, rfl, hquantifier, shapedAsBoundary_of_isOnlyBoundary honly⟩
  · intro t h
    have hchoice : (group p {}).Everywhere HasChoice :=
      .intro trivial (Pattern.hasChoice_of_ofText hp)
    cases blames_of_ofText hp h with
    | @adjacent before after a b marks hrow ha hb =>
      have hitems : ∀ c ∈ before ++ a :: b :: after, c.Everywhere HasChoice := fun _ hc =>
        (hchoice.of_occurs hrow).child hc
      refine ⟨before, a, b, after, marks, hrow, rfl, ?_, ?_⟩
      · exact meetsBoundary_of_edgeIsBoundary (hitems a (by simp)) ha
      · exact meetsBoundary_of_edgeIsBoundary (hitems b (by simp)) hb

theorem refused_boundaries_group :
    (∃ (p : Pattern) (x : Expression), Pattern.ofText (.empty .empty) ".(#)?" = .ok p ∧
      ofText (.empty .empty) .right ".(#)?" = .error (.pattern (.boundaryQuantified x.text)) ∧
      x.Occurs (group p {}) ∧ x.quantifier ≠ .one ∧ ShapedAsBoundary (.empty .empty) x) ∧
    ∃ (p : Pattern) (a b : Expression),
      Pattern.ofText (.empty .empty) "(.#)\x7b.+ #\x7d" = .ok p ∧
      ofText (.empty .empty) .left "(.#)\x7b.+ #\x7d" =
        .error (.pattern (.adjacentBoundaries (a.text ++ b.text))) ∧
      MeetsBoundary (.empty .empty) .left a ∧ MeetsBoundary (.empty .empty) .right b := by
  have hquantified : Pattern.ofText (.empty .empty) ".(#)?" =
      .ok [.terminal .wildcard {}, .group [.terminal .boundary {}] ⟨.optional, false⟩] := by
    with_unfolding_all rfl
  have hadjacent : Pattern.ofText (.empty .empty) "(.#)\x7b.+ #\x7d" =
      .ok [.group [.terminal .wildcard {}, .terminal .boundary {}] {},
        .alternation [.terminal .wildcard ⟨.plus, false⟩, .terminal .boundary {}] {}] := by
    with_unfolding_all rfl
  have hfirst : ofText (.empty .empty) .right ".(#)?" =
      .error (.pattern (.boundaryQuantified "(#)?")) := by with_unfolding_all rfl
  have hsecond : ofText (.empty .empty) .left "(.#)\x7b.+ #\x7d" =
      .error (.pattern (.adjacentBoundaries "(.#)\x7b.+ #\x7d")) := by with_unfolding_all rfl
  obtain ⟨x, hx, htext, hone, hshape⟩ := (refused_boundaries hquantified).1 _ hfirst
  obtain ⟨-, a, b, -, -, -, hab, ha, hb⟩ := (refused_boundaries hadjacent).2 _ hsecond
  exact ⟨⟨_, x, hquantified, htext ▸ hfirst, hx, hone, hshape⟩, _, a, b, hadjacent, hab ▸ hsecond,
    ha, hb⟩

/-- Inverted boundaries are refused as if they were boundaries, though they read what the wildcard
reads and no boundary. Refused are also an item that may be left out, so that it can read nothing
as well as a boundary, and one that can never be read, so that no match gets past it. -/
theorem refused_unread :
    (∃ x : Expression, Pattern.ofText (.empty .empty) "!#+" = .ok [x] ∧
      ofText (.empty .empty) .right "!#+" = .error (.pattern (.boundaryQuantified x.text)) ∧
      ∀ read target, (x.quantified .one).Reads (.empty .empty) read target =
        Terminal.wildcard.Reads (.empty .empty) read target) ∧
    (∃ x : Expression, Pattern.ofText (.empty .empty) "!# !#" = .ok [x, x] ∧
      ofText (.empty .empty) .right "!# !#" =
        .error (.pattern (.adjacentBoundaries (x.text ++ x.text))) ∧
      ∀ read edge, ¬ x.ReadsBoundaryAt (.empty .empty) read edge) ∧
    (∃ x : Expression, Pattern.ofText (.empty .empty) "(#?)+" = .ok [x] ∧
      ofText (.empty .empty) .right "(#?)+" = .error (.pattern (.boundaryQuantified x.text)) ∧
      (x.quantified .one).Reads (.empty .empty) .right [] 0 0) ∧
    ∃ a b : Expression, Pattern.ofText (.empty .empty) "(!.#)#" = .ok [a, b] ∧
      ofText (.empty .empty) .right "(!.#)#" =
        .error (.pattern (.adjacentBoundaries (a.text ++ b.text))) ∧
      ∀ read target i j, ¬ a.Reads (.empty .empty) read target i j := by
  refine ⟨⟨.terminal .boundary ⟨.plus, true⟩, ?_, ?_, fun read target => ?_⟩,
    ⟨.terminal .boundary ⟨.one, true⟩, ?_, ?_, fun read edge => ?_⟩,
    ⟨.group [.terminal .boundary ⟨.optional, false⟩] ⟨.plus, false⟩, ?_, ?_, ?_⟩,
    .group [.terminal .wildcard ⟨.one, true⟩, .terminal .boundary {}] {}, .terminal .boundary {},
    ?_, ?_, ?_⟩
  · with_unfolding_all rfl
  · with_unfolding_all rfl
  · have hnone : ∀ P : Expression → Prop, ∀ c ∈ (terminal .boundary ⟨.plus, true⟩).children, P c :=
      fun _ _ hc => absurd hc List.not_mem_nil
    exact inverted_reads_eq_wildcard rfl (hnone _) rfl (hnone _)
  · with_unfolding_all rfl
  · with_unfolding_all rfl
  · exact not_readsBoundaryAt_of_isNegative rfl
  · with_unfolding_all rfl
  · with_unfolding_all rfl
  · exact ⟨0, .inl rfl, rfl⟩
  · with_unfolding_all rfl
  · with_unfolding_all rfl
  · intro read target i j hread
    have hnone : ∀ i j,
        ¬ (terminal .wildcard ⟨.one, true⟩).Reads (.empty .empty) read target i j := by
      rintro i j ⟨-, hinner, hnot⟩
      exact hnot (i + 1) ⟨rfl, hinner⟩
    cases read with
    | right =>
      obtain ⟨k, hread, -⟩ := hread
      exact hnone i k hread
    | left =>
      obtain ⟨k, -, l, hread, -⟩ := hread
      exact hnone k l hread

end Automaton

end SoundLaw
