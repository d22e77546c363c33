import SoundLaw.Proofs.Mirror
import SoundLaw.Proofs.Sentinel

/-!
# Boundaries at edges

Whether an expression is nothing but a boundary, or can have one at an edge, is told from the shape
of its tree, without its signs and quantifiers. Where nothing is inverted, the former reads
boundaries only, and a single one if nothing in it is quantified. The latter reads a boundary at
its edge as long as the items that stand between this boundary and the other edge can be read next
to one. An item that inverts nothing can be read somewhere, unless it depends on a macro without
alternatives. The shape of an inverted item misleads: such an item reads ordinary segments only.
-/

namespace SoundLaw
set_option autoImplicit false

variable {macros : MacroTable} {side edge : Side} {target : List Segment} {i j : Nat}

/-! ### Marks -/

namespace Quantifier
variable {q : Quantifier} {r : Passage}

theorem repeated_of_once (h : r i j) : q.repeated r i j := by
  cases q with
  | one => exact h
  | optional => exact .inr h
  | star => exact .single h
  | plus => exact .single h

theorem reflTransGen_of_repeated (h : q.repeated r i j) : Relation.ReflTransGen r i j := by
  cases q with
  | one => exact .single h
  | optional =>
    rcases h with rfl | h
    · exact .refl
    · exact .single h
  | star => exact h
  | plus => exact h.to_reflTransGen

end Quantifier

/-! ### Trees -/

namespace Expression
variable {P : Expression → Prop} {x e : Expression}

/-- An expression is in a tree: it is the tree itself, or in one of the trees directly below. -/
inductive Occurs (x : Expression) : Expression → Prop
  | here : Occurs x x
  | child {c e : Expression} (hc : c ∈ e.children) (h : Occurs x c) : Occurs x e

theorem Everywhere.of_occurs (h : e.Everywhere P) (hx : x.Occurs e) : x.Everywhere P := by
  induction hx with
  | here => exact h
  | child hc _ ih => exact ih (h.child hc)

def Positive (e : Expression) : Prop := e.Everywhere fun e => e.isNegative = false

theorem quantified_one (he : e.isNegative = false) : e.quantified .one = e.bare := by
  have hmarks : Marks.mk .one e.marks.negative = {} := congrArg (Marks.mk .one) he
  exact congrArg e.withMarks hmarks

theorem reads_of_not_negative (he : e.isNegative = false) :
    e.Reads macros side target = e.quantifier.repeated (e.bare.Reads macros side target) := by
  rw [reads_eq]
  exact Marks.apply_of_not_negative he

theorem reads_of_bare (he : e.isNegative = false) (h : e.bare.Reads macros side target i j) :
    e.Reads macros side target i j := by
  rw [reads_of_not_negative he]
  exact Quantifier.repeated_of_once h

/-- What inverts its item reads one segment where the item cannot be read. -/
theorem reads_quantified_one_of_isNegative (he : e.isNegative = true) :
    (e.quantified .one).Reads macros side target =
      (e.bare.Reads macros side target).absence target := by
  have hmarks : (e.quantified .one).marks = ⟨.one, true⟩ := by
    cases e <;> exact congrArg (Marks.mk .one) he
  have hbare : (e.quantified .one).bare = e.bare := by cases e <;> rfl
  rw [reads_eq, hmarks, hbare]
  rfl

theorem reads_of_isNegative (he : e.isNegative = true) : e.Reads macros side target =
    e.quantifier.repeated ((e.bare.Reads macros side target).absence target) := by
  rw [reads_eq, Marks.apply]
  exact congrArg (Quantifier.repeated e.quantifier) (if_pos he)

theorem reads_bare_group {es : List Expression} {marks : Marks} :
    (group es marks).bare.Reads macros side target =
      .composition ((side.orient es).map (Reads macros side target)) := by
  rw [Side.map_orient, ← passages_eq_map]
  rfl

theorem reads_bare_alternation {es : List Expression} {marks : Marks} :
    (alternation es marks).bare.Reads macros side target =
      .union (es.map (Reads macros side target)) := by
  rw [← passages_eq_map]
  rfl

end Expression

/-! ### Nothing but a boundary -/

/-- Reads a single boundary, and boundaries only. -/
structure Passage.IsBoundaries (macros : MacroTable) (side : Side) (target : List Segment)
    (r : Passage) : Prop where
  single : ∀ i j, Terminal.boundary.Reads macros side target i j → r i j
  only : ∀ i j, r i j → Relation.ReflTransGen (Terminal.boundary.Reads macros side target) i j

theorem Passage.IsBoundaries.repeated {r : Passage} (h : r.IsBoundaries macros side target)
    (q : Quantifier) : (q.repeated r).IsBoundaries macros side target where
  single _ _ hij := Quantifier.repeated_of_once (h.single _ _ hij)
  only _ _ hij :=
    Relation.reflTransGen_closed h.only _ _ (Quantifier.reflTransGen_of_repeated hij)

namespace Expression
variable {e : Expression}

theorem isSoleBoundary_iff {es : List Expression} :
    isSoleBoundary es = true ↔ ∃ e, es = [e] ∧ e.isOnlyBoundary = true := by
  rcases es with _ | ⟨e, _ | ⟨f, es⟩⟩ <;> simp [isSoleBoundary]

theorem areOnlyBoundaries_iff {es : List Expression} :
    areOnlyBoundaries es = true ↔ ∀ e ∈ es, e.isOnlyBoundary = true := by
  rw [areOnlyBoundaries_eq_all, List.all_eq_true]

theorem isBoundaries_bare (he : e.Positive) (h : e.isOnlyBoundary = true) :
    (e.bare.Reads macros side target).IsBoundaries macros side target := by
  induction e using Expression.induct with
  | terminal t m =>
    cases t with
    | boundary => exact ⟨fun _ _ => id, fun _ _ => .single⟩
    | literal | wildcard | reference => cases h
  | group children m ih =>
    obtain ⟨c, rfl, hc⟩ := isSoleBoundary_iff.mp h
    have hpositive := he.child (c := c) List.mem_cons_self
    rw [reads_bare_group, Side.orient_singleton, List.map_singleton,
      Passage.composition_singleton, reads_of_not_negative hpositive.self]
    exact (ih c List.mem_cons_self hpositive hc).repeated c.quantifier
  | alternation alternatives m ih =>
    rw [isOnlyBoundary, Bool.and_eq_true, areOnlyBoundaries_iff] at h
    have hall : ∀ c ∈ alternatives, (c.Reads macros side target).IsBoundaries macros side target :=
      fun c hc => by
        rw [reads_of_not_negative (he.child hc).self]
        exact (ih c hc (he.child hc) (h.2 c hc)).repeated c.quantifier
    rw [reads_bare_alternation]
    constructor
    · intro i j hij
      obtain ⟨c, hc⟩ := List.exists_mem_of_ne_nil alternatives (by simpa using h.1)
      exact ⟨_, List.mem_map_of_mem hc, (hall c hc).single i j hij⟩
    · rintro i j ⟨r, hr, hij⟩
      obtain ⟨c, hc, rfl⟩ := List.mem_map.mp hr
      exact (hall c hc).only i j hij

/-- Without quantifiers inside, what is nothing but a boundary reads the same as one. -/
theorem bare_reads_eq_boundary (he : e.Positive) (h : e.isOnlyBoundary = true)
    (hone : ∀ c ∈ e.children, c.Everywhere fun c => c.quantifier = .one) :
    e.bare.Reads macros side target = Terminal.boundary.Reads macros side target := by
  induction e using Expression.induct with
  | terminal t m =>
    cases t with
    | boundary => rfl
    | literal | wildcard | reference => cases h
  | group children m ih =>
    obtain ⟨c, rfl, hc⟩ := isSoleBoundary_iff.mp h
    have hmem : c ∈ [c] := List.mem_cons_self
    rw [reads_bare_group, Side.orient_singleton, List.map_singleton,
      Passage.composition_singleton, reads_of_not_negative (he.child hmem).self,
      (hone c hmem).self]
    exact ih c hmem (he.child hmem) hc fun d hd => (hone c hmem).child hd
  | alternation alternatives m ih =>
    rw [isOnlyBoundary, Bool.and_eq_true, areOnlyBoundaries_iff] at h
    have hall : ∀ c ∈ alternatives,
        c.Reads macros side target = Terminal.boundary.Reads macros side target := fun c hc => by
      rw [reads_of_not_negative (he.child hc).self, (hone c hc).self]
      exact ih c hc (he.child hc) (h.2 c hc) fun d hd => (hone c hc).child hd
    obtain ⟨c, hc⟩ := List.exists_mem_of_ne_nil alternatives (by simpa using h.1)
    rw [reads_bare_alternation, List.map_congr_left hall]
    funext i j
    refine propext ⟨?_, fun hij => ⟨_, List.mem_map_of_mem hc, hij⟩⟩
    rintro ⟨r, hr, hij⟩
    obtain ⟨d, -, rfl⟩ := List.mem_map.mp hr
    exact hij

end Expression

/-! ### Inverted boundaries -/

theorem Segment.isBoundary_of_fits {x : Segment} {m : FeatureModel}
    (h : x.fits (boundary m) = true) : x.isBoundary = true := by
  rw [fits, isFeatured_boundary, Bool.and_false, if_neg Bool.false_ne_true, Bool.and_eq_true] at h
  exact h.2

/-- Nothing that is inverted reads a boundary, neither first nor last. -/
theorem Passage.ordinary_of_repeated_absence {q : Quantifier} {r : Passage}
    (h : q.repeated (r.absence target) i j) (hlt : i < j) :
    target[i]?.any Segment.isBoundary = false ∧ target[j - 1]?.any Segment.isBoundary = false := by
  have hpath := Quantifier.reflTransGen_of_repeated h
  constructor
  · rcases hpath.cases_head with heq | ⟨_, ⟨-, ⟨x, hx, hordinary⟩, -⟩, -⟩
    · omega
    · rw [hx]
      exact hordinary
  · rcases hpath.cases_tail with heq | ⟨k, -, hj, ⟨x, hx, hordinary⟩, -⟩
    · omega
    · rw [hj, Nat.add_sub_cancel, hx]
      exact hordinary

namespace Expression
variable {e : Expression}

theorem wildcard_of_inverted (he : e.isNegative = true)
    (h : (e.quantified .one).Reads macros side target i j) :
    Terminal.wildcard.Reads macros side target i j := by
  rw [reads_quantified_one_of_isNegative he] at h
  exact ⟨h.1, h.2.1⟩

/-- What would be nothing but a boundary is nothing but an ordinary segment when it is inverted. -/
theorem inverted_reads_eq_wildcard (he : e.isNegative = true)
    (hpositive : ∀ c ∈ e.children, c.Positive) (h : e.isOnlyBoundary = true)
    (hone : ∀ c ∈ e.children, c.Everywhere fun c => c.quantifier = .one) :
    (e.quantified .one).Reads macros side target = Terminal.wildcard.Reads macros side target := by
  have hbare : e.bare.Reads macros side target = Terminal.boundary.Reads macros side target := by
    have hself : e.bare.bare = e.bare := by cases e <;> rfl
    rw [← hself]
    apply bare_reads_eq_boundary
    · cases e <;> exact .intro rfl hpositive
    · cases e <;> exact h
    · cases e <;> exact hone
  funext i j
  refine propext ⟨wildcard_of_inverted he, fun hread => ?_⟩
  rw [reads_quantified_one_of_isNegative he, hbare]
  refine ⟨hread.1, hread.2, fun k hboundary => ?_⟩
  obtain ⟨-, x, hx, hordinary⟩ := hread
  obtain ⟨-, y, hy, hfits⟩ := hboundary
  obtain rfl : x = y := Option.some.inj (hx.symm.trans hy)
  rw [Segment.isBoundary_of_fits hfits] at hordinary
  cases hordinary

end Expression

/-! ### Runs that are read -/

theorem Segment.fits_self (s : Segment) : s.fits s = true := by
  have hvector : ∀ v : FeatureVector, v.fits v = true := by
    intro v
    induction v with
    | nil => rfl
    | cons x v ih =>
      have hvalue : x.fits x = true := by
        cases x with
        | number value => exact value.same_refl
        | undefined | masked => rfl
      rw [FeatureVector.fits, List.zip_cons_cons, List.all_cons, hvalue, Bool.true_and]
      exact ih
  rw [fits, sameModel, FeatureModel.same, beq_self_eq_true, Bool.true_and]
  split
  · exact hvector s.features
  · exact beq_self_eq_true s.symbol

/-- The passage from one end of a run to the other, wherever the run stands. -/
def Fills (f : List Segment → Passage) (run : List Segment) : Prop :=
  ∀ before after, f (before ++ run ++ after) before.length (before.length + run.length)

section Runs
variable {f g : List Segment → Passage} {run : List Segment}

theorem Fills.mono (h : Fills f run) (hfg : ∀ target i j, f target i j → g target i j) :
    Fills g run :=
  fun before after => hfg _ _ _ (h before after)

theorem fills_stands (run : List Segment) :
    Fills (fun target i j => j = i + run.length ∧ Stands target i run) run := by
  intro before after
  refine ⟨rfl, fun k s hs => ⟨s, ?_, s.fits_self⟩⟩
  have hk := (List.getElem?_eq_some_iff.mp hs).1
  rw [List.append_assoc, List.getElem?_append_right (Nat.le_add_right _ _),
    Nat.add_sub_cancel_left, List.getElem?_append_left hk, hs]

/-- Runs that fill the items of a row fill the row, one behind the other. -/
theorem exists_fills_composition {es : List Expression} {f : Expression → List Segment → Passage}
    (h : ∀ e ∈ es, ∃ run, Fills (f e) run) :
    ∃ run, Fills (fun target => .composition (es.map (f · target))) run := by
  induction es with
  | nil => exact ⟨[], fun _ _ => rfl⟩
  | cons e es ih =>
    obtain ⟨⟨a, ha⟩, hes⟩ := List.forall_mem_cons.mp h
    obtain ⟨b, hb⟩ := ih hes
    refine ⟨a ++ b, fun before after => ⟨before.length + a.length, ?_, ?_⟩⟩
    · have hfirst := ha before (b ++ after)
      rwa [← List.append_assoc, List.append_assoc before] at hfirst
    · have hrest := hb (before ++ a) after
      rw [List.append_assoc before, List.length_append, Nat.add_assoc] at hrest
      rwa [List.length_append]

end Runs

theorem Terminal.exists_fills {t : Terminal}
    (h : ∀ name, t = .reference name → ∃ run runs, macros.find? name = some (run :: runs)) :
    ∃ run, Fills (t.Reads macros side) run := by
  cases t with
  | literal s =>
    refine ⟨[s], (fills_stands [s]).mono fun target i j hij => ?_⟩
    exact ⟨hij.1, stands_singleton.mp hij.2⟩
  | boundary =>
    refine ⟨[.boundary macros.model], (fills_stands _).mono fun target i j hij => ?_⟩
    exact ⟨hij.1, stands_singleton.mp hij.2⟩
  | wildcard =>
    let s := macros.model.resolve "a"
    refine ⟨[s], fun before after => ⟨rfl, s, ?_, rfl⟩⟩
    rw [List.append_assoc, List.getElem?_append_right (Nat.le_refl _), Nat.sub_self]
    rfl
  | reference name =>
    obtain ⟨run, runs, hfind⟩ := h name rfl
    refine ⟨side.orient run, (fills_stands _).mono fun target i j hij => ?_⟩
    refine ⟨_, hfind, run, List.mem_cons_self, ?_, hij.2⟩
    rw [← Side.length_orient side run]
    exact hij.1

namespace Expression
variable {e : Expression}

/-- Inverts nothing, and names no macro without alternatives. -/
structure IsPlain (macros : MacroTable) (e : Expression) : Prop where
  sign : e.isNegative = false
  macros : ∀ name marks, e = .terminal (.reference name) marks →
    ∃ run runs, macros.find? name = some (run :: runs)

theorem exists_fills_of_bare (he : e.isNegative = false)
    (h : ∃ run, Fills (e.bare.Reads macros side) run) : ∃ run, Fills (e.Reads macros side) run := by
  obtain ⟨run, hrun⟩ := h
  exact ⟨run, hrun.mono fun target i j hij => reads_of_bare he hij⟩

theorem exists_fills (he : e.Everywhere (IsPlain macros)) (hchoice : e.Everywhere HasChoice) :
    ∃ run, Fills (e.Reads macros side) run := by
  induction e using Expression.induct with
  | terminal t m =>
    refine exists_fills_of_bare he.self.sign (Terminal.exists_fills fun name ht => ?_)
    exact he.self.macros name m (ht ▸ rfl)
  | group children m ih =>
    refine exists_fills_of_bare he.self.sign ?_
    have hrow : ∀ c ∈ side.orient children, ∃ run, Fills (c.Reads macros side) run := fun c hc =>
      have hmem := Side.mem_orient.mp hc
      ih c hmem (he.child hmem) (hchoice.child hmem)
    obtain ⟨run, hrun⟩ := exists_fills_composition hrow
    refine ⟨run, hrun.mono fun target i j hij => ?_⟩
    rwa [reads_bare_group]
  | alternation alternatives m ih =>
    refine exists_fills_of_bare he.self.sign ?_
    obtain ⟨c, hc⟩ := List.exists_mem_of_ne_nil alternatives hchoice.self
    obtain ⟨run, hrun⟩ := ih c hc (he.child hc) (hchoice.child hc)
    refine ⟨run, hrun.mono fun target i j hij => ?_⟩
    rw [reads_bare_alternation]
    exact ⟨_, List.mem_map_of_mem hc, hij⟩

end Expression

/-! ### Boundaries at an edge -/

/-- The expression has a boundary at an edge. It is listed with the expressions around it, outermost
first, and with the row of the items between it and the other edge, the nearest one first. -/
inductive Expression.Borders (edge : Side) :
    Expression → List Expression → List Expression → Prop
  | boundary {marks : Marks} :
    Borders edge (.terminal .boundary marks) [.terminal .boundary marks] []
  | group {children around rest row : List Expression} {first : Expression} {marks : Marks}
    (hfirst : edge.orient children = first :: rest) (h : Borders edge first around row) :
    Borders edge (.group children marks) (.group children marks :: around) (row ++ rest)
  | alternation {alternatives around row : List Expression} {e : Expression} {marks : Marks}
    (he : e ∈ alternatives) (h : Borders edge e around row) :
    Borders edge (.alternation alternatives marks) (.alternation alternatives marks :: around) row

namespace Expression
variable {e : Expression} {around row : List Expression} {k : Nat}

/-- Read from its edge, an expression that inverts nothing around the boundary begins with it, if
the row can be read behind it. -/
theorem Borders.reads_onward (h : Borders edge e around row)
    (hsign : ∀ x ∈ around, x.isNegative = false)
    (hboundary : Terminal.boundary.Reads macros edge target i k)
    (hrow : Passage.composition (row.map (Reads macros edge target)) k j) :
    e.Reads macros edge target i j := by
  induction h generalizing j with
  | boundary =>
    obtain rfl : k = j := hrow
    exact reads_of_bare (hsign _ List.mem_cons_self) hboundary
  | group hfirst _ ih =>
    obtain ⟨hself, hsign⟩ := List.forall_mem_cons.mp hsign
    rw [List.map_append] at hrow
    obtain ⟨l, hrow, hrest⟩ := Passage.composition_append.mp hrow
    refine reads_of_bare hself ?_
    rw [reads_bare_group, hfirst]
    exact ⟨l, ih hsign hrow, hrest⟩
  | alternation he _ ih =>
    obtain ⟨hself, hsign⟩ := List.forall_mem_cons.mp hsign
    refine reads_of_bare hself ?_
    rw [reads_bare_alternation]
    exact ⟨_, List.mem_map_of_mem he, ih hsign hrow⟩

/-- Read towards its edge, it ends with the boundary, if the row can be read in front of it. -/
theorem Borders.reads_toward (h : Borders edge e around row)
    (hsign : ∀ x ∈ around, x.isNegative = false)
    (hrow : Passage.composition (row.reverse.map (Reads macros edge.opposite target)) i k)
    (hboundary : Terminal.boundary.Reads macros edge.opposite target k j) :
    e.Reads macros edge.opposite target i j := by
  induction h generalizing i with
  | boundary =>
    obtain rfl : i = k := hrow
    exact reads_of_bare (hsign _ List.mem_cons_self) hboundary
  | @group children around rest row first marks hfirst _ ih =>
    obtain ⟨hself, hsign⟩ := List.forall_mem_cons.mp hsign
    have horient : edge.opposite.orient children = (first :: rest).reverse := by
      rw [← hfirst]
      cases edge with
      | left => exact (List.reverse_reverse children).symm
      | right => rfl
    rw [List.reverse_append, List.map_append] at hrow
    obtain ⟨l, hrest, hrow⟩ := Passage.composition_append.mp hrow
    refine reads_of_bare hself ?_
    rw [reads_bare_group, horient, List.reverse_cons, List.map_append, List.map_singleton,
      Passage.composition_append_singleton]
    exact ⟨l, hrest, ih hsign hrow⟩
  | alternation he _ ih =>
    obtain ⟨hself, hsign⟩ := List.forall_mem_cons.mp hsign
    refine reads_of_bare hself ?_
    rw [reads_bare_alternation]
    exact ⟨_, List.mem_map_of_mem he, ih hsign hrow⟩

theorem Borders.everywhere {P : Expression → Prop} (h : Borders edge e around row)
    (he : e.Everywhere P) : (∀ x ∈ around, P x) ∧ ∀ x ∈ row, x.Everywhere P := by
  induction h with
  | boundary => exact ⟨List.forall_mem_singleton.mpr he.self, nofun⟩
  | @group children around rest row first marks hfirst _ ih =>
    have hall : ∀ c ∈ first :: rest, c.Everywhere P := fun c hc =>
      he.child (Side.mem_orient.mp (hfirst ▸ hc))
    obtain ⟨hfirst, hrest⟩ := List.forall_mem_cons.mp hall
    obtain ⟨haround, hrow⟩ := ih hfirst
    refine ⟨List.forall_mem_cons.mpr ⟨he.self, haround⟩, fun x hx => ?_⟩
    rcases List.mem_append.mp hx with hx | hx
    · exact hrow x hx
    · exact hrest x hx
  | alternation hmem _ ih =>
    obtain ⟨haround, hrow⟩ := ih (he.child hmem)
    exact ⟨List.forall_mem_cons.mpr ⟨he.self, haround⟩, hrow⟩

theorem edgeIsBoundary_group {es : List Expression} {marks : Marks} :
    (group es marks).edgeIsBoundary edge =
      ((edge.orient es).head?.map (edgeIsBoundary edge)).getD false := by
  cases edge with
  | right => rw [edgeIsBoundary, edgesAreBoundaries_eq_map, List.head?_map, Side.orient]
  | left =>
    rw [edgeIsBoundary, edgesAreBoundaries_eq_map, List.getLast?_map, Side.orient,
      List.head?_reverse]

theorem edgeIsBoundary_alternation {es : List Expression} {marks : Marks} :
    (alternation es marks).edgeIsBoundary edge = es.any (edgeIsBoundary edge) := by
  rw [edgeIsBoundary, edgesAreBoundaries_eq_map, List.any_map]
  rfl

theorem exists_borders (hedge : e.edgeIsBoundary edge = true) :
    ∃ around row, Borders edge e around row := by
  induction e using Expression.induct with
  | terminal t m =>
    cases t with
    | boundary => exact ⟨_, [], .boundary⟩
    | literal | wildcard | reference => cases hedge
  | group children m ih =>
    rw [edgeIsBoundary_group] at hedge
    cases hchildren : edge.orient children with
    | nil =>
      rw [hchildren] at hedge
      cases hedge
    | cons first rest =>
      have hfirst : first ∈ children :=
        Side.mem_orient.mp (hchildren ▸ List.mem_cons_self)
      rw [hchildren] at hedge
      obtain ⟨around, row, h⟩ := ih first hfirst hedge
      exact ⟨_, row ++ rest, .group hchildren h⟩
  | alternation alternatives m ih =>
    rw [edgeIsBoundary_alternation, List.any_eq_true] at hedge
    obtain ⟨c, hc, hedge⟩ := hedge
    obtain ⟨around, row, h⟩ := ih c hc hedge
    exact ⟨_, row, .alternation hc h⟩

end Expression

/-! ### Matches with a boundary at an edge -/

theorem Side.eq_opposite_of_ne {a b : Side} (h : a ≠ b) : a = b.opposite := by
  cases a <;> cases b <;> first | rfl | exact absurd rfl h

section Matches
variable {read : Side} {e : Expression} {around row : List Expression}

/-- Read from a side, the row can stand next to a boundary, which lies towards an edge. -/
def IsReadNextTo (macros : MacroTable) (read edge : Side) (row : List Expression) : Prop :=
  ∃ target i k j, i ≤ target.length ∧
    if read = edge then
      Terminal.boundary.Reads macros read target i k ∧
        Passage.composition (row.map (Expression.Reads macros read target)) k j
    else
      Passage.composition (row.reverse.map (Expression.Reads macros read target)) i k ∧
        Terminal.boundary.Reads macros read target k j

theorem isReadNextTo_of_isPlain (h : ∀ x ∈ row, x.Everywhere (Expression.IsPlain macros))
    (hchoice : ∀ x ∈ row, x.Everywhere Expression.HasChoice) :
    IsReadNextTo macros read edge row := by
  have hfills : ∀ es : List Expression, (∀ x ∈ es, x ∈ row) → ∃ run,
      Fills (fun target => .composition (es.map (Expression.Reads macros read target))) run :=
    fun es hes => exists_fills_composition fun x hx =>
      Expression.exists_fills (h x (hes x hx)) (hchoice x (hes x hx))
  by_cases hside : read = edge
  · obtain ⟨run, hrun⟩ := hfills row fun _ => id
    refine ⟨[.boundary macros.model] ++ run ++ [], 0, 1, 1 + run.length, Nat.zero_le _, ?_⟩
    rw [if_pos hside]
    exact ⟨⟨rfl, _, rfl, Segment.fits_self _⟩, hrun [.boundary macros.model] []⟩
  · obtain ⟨run, hrun⟩ := hfills row.reverse fun _ => List.mem_reverse.mp
    refine ⟨[] ++ run ++ [.boundary macros.model], 0, 0 + run.length, 0 + run.length + 1,
      Nat.zero_le _, ?_⟩
    rw [if_neg hside]
    refine ⟨hrun [] [.boundary macros.model], rfl, _, ?_, Segment.fits_self _⟩
    rw [List.nil_append, Nat.zero_add, List.getElem?_append_right (Nat.le_refl _), Nat.sub_self]
    rfl

/-- Read from a side, some match of the expression has a boundary at an edge. -/
def Expression.ReadsBoundaryAt (macros : MacroTable) (read edge : Side) (e : Expression) : Prop :=
  ∃ target i j, e.Reads macros read target i j ∧ i < j ∧
    (if read = edge then target[i]? else target[j - 1]?).any Segment.isBoundary = true

theorem Expression.not_readsBoundaryAt_of_isNegative (he : e.isNegative = true) :
    ¬ e.ReadsBoundaryAt macros read edge := by
  rintro ⟨target, i, j, hread, hlt, hboundary⟩
  rw [reads_of_isNegative he] at hread
  obtain ⟨hfirst, hlast⟩ := Passage.ordinary_of_repeated_absence hread hlt
  split at hboundary
  · cases hfirst.symm.trans hboundary
  · cases hlast.symm.trans hboundary

theorem forward_row (es : List Expression) :
    (Passage.composition (es.map (Expression.Reads macros side target))).Forward target.length := by
  refine Passage.forward_composition fun r hr => ?_
  obtain ⟨e, -, rfl⟩ := List.mem_map.mp hr
  exact e.forward_reads

theorem Expression.Borders.readsBoundaryAt (h : e.Borders edge around row)
    (hsign : ∀ x ∈ around, x.isNegative = false) (hrow : IsReadNextTo macros read edge row) :
    e.ReadsBoundaryAt macros read edge := by
  obtain ⟨target, i, k, j, hi, hread⟩ := hrow
  by_cases hside : read = edge
  · subst hside
    rw [if_pos rfl] at hread
    obtain ⟨hboundary, hrow⟩ := hread
    have hforward := Terminal.forward_reads _ hi hboundary
    have hj := forward_row row hforward.2 hrow
    refine ⟨target, i, j, h.reads_onward hsign hboundary hrow, ?_, ?_⟩
    · obtain ⟨rfl, -⟩ := hboundary
      exact hj.1
    · obtain ⟨-, x, hx, hfits⟩ := hboundary
      rw [if_pos rfl, hx]
      exact Segment.isBoundary_of_fits hfits
  · rw [if_neg hside] at hread
    obtain ⟨hrow, hboundary⟩ := hread
    have hk := forward_row _ hi hrow
    have hread : e.Reads macros read target i j := by
      obtain rfl := Side.eq_opposite_of_ne hside
      exact h.reads_toward hsign hrow hboundary
    obtain ⟨rfl, x, hx, hfits⟩ := hboundary
    refine ⟨target, i, k + 1, hread, Nat.lt_succ_of_le hk.1, ?_⟩
    rw [if_neg hside, Nat.add_sub_cancel, hx]
    exact Segment.isBoundary_of_fits hfits

/-- An expression without negations reads a boundary at its edge if its shape has one there. -/
theorem Expression.readsBoundaryAt_of_isPlain (he : e.Everywhere (IsPlain macros))
    (hchoice : e.Everywhere HasChoice) (hedge : e.edgeIsBoundary edge = true) :
    e.ReadsBoundaryAt macros read edge := by
  obtain ⟨around, row, h⟩ := exists_borders hedge
  obtain ⟨haround, hrow⟩ := h.everywhere he
  exact h.readsBoundaryAt (fun x hx => (haround x hx).sign)
    (isReadNextTo_of_isPlain hrow (h.everywhere hchoice).2)

end Matches

end SoundLaw
