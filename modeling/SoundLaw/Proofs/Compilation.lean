import SoundLaw.Proofs.Elements
import SoundLaw.Proofs.Wiring.Run

/-!
# Automata read what patterns mean

Every expression is built into a part that reads what the expression means without its marks, and
every row of expressions is wired into a row that reads what they mean one after the other. Such
a statement is relative to the list of all graphs, in which the graphs that a part rests on take
the places that their numbers say. Those are the only ones that a run of the part consults.
-/

namespace SoundLaw
set_option autoImplicit false

section Means
variable (graphs : List Graph) (target : List Segment)

/-- Inner graphs with numbers in a range are run as those of the automaton. -/
def Consults (inner : Nat → Nat → List Nat) (first last : Nat) : Prop :=
  ∀ id, first ≤ id → id < last → inner id = Automaton.run graphs target id

/-- A part, built with a supply, that reads as a passage leads. -/
structure Built.Means (b : Built) (s : Supply) (r : Passage) : Prop where
  state : s.state ≤ b.supply.state
  graph : b.supply.graph = s.graph + b.graphs.length
  reads : b.graphs <+: graphs.drop s.graph → ∀ inner,
    Consults graphs target inner s.graph b.supply.graph →
    (b.part.passage inner target).Agrees target.length r

/-- A wiring, made with a supply, that reads as a passage leads. -/
structure Wiring.Means (w : Wiring) (before behind : Nat) (s : Supply) (r : Passage) : Prop where
  graph : w.supply.graph = s.graph + w.graphs.length
  reads : w.graphs <+: graphs.drop s.graph → ∀ inner,
    Consults graphs target inner s.graph w.supply.graph →
    (w.passage inner target before behind).Agrees target.length r

end Means

section Parts
variable {graphs : List Graph} {target : List Segment}
variable {b : Built} {w : Wiring} {s : Supply} {r : Passage} {before : Nat} {q : Quantifier}

theorem Built.Means.wirePart (h : b.Means graphs target s r) (hr : r.Forward target.length)
    (hb : before < s.state) :
    (wirePart b q before).Means graphs target before (wirePart b q before).exit s
      (q.repeated r) where
  graph := by
    rw [supply_graph_wirePart, graphs_wirePart]
    exact h.graph
  reads hgraphs inner hinner := by
    rw [graphs_wirePart] at hgraphs
    rw [supply_graph_wirePart] at hinner
    intro i hi j
    rw [passage_wirePart b (Nat.lt_of_lt_of_le hb h.state)]
    exact (h.reads hgraphs inner hinner).repeated hr q i hi j

theorem Built.Means.isRow (h : b.Means graphs target s r) :
    (SoundLaw.wirePart b q before).IsRow before s.state :=
  (isRow_wirePart b).mono h.state

/-- A run of a graph consults only graphs with greater numbers. -/
theorem run_eq {id : Nat} {g : Graph} (h : graphs[id]? = some g) (i : Nat) :
    Automaton.run graphs target id i =
      g.run (fun sub position =>
        if id < sub ∧ sub < graphs.length then Automaton.run graphs target sub position else [])
        target i := by
  rw [Automaton.run, h]
  simp

theorem placed_cons {g : Graph} {gs : List Graph} {n : Nat} (h : g :: gs <+: graphs.drop n) :
    graphs[n]? = some g ∧ gs <+: graphs.drop (n + 1) := by
  obtain ⟨rest, hrest⟩ := h
  constructor
  · have hget : (graphs.drop n)[0]? = graphs[n]? := List.getElem?_drop
    rw [← hrest] at hget
    exact hget.symm
  · refine ⟨rest, ?_⟩
    have htail := congrArg List.tail hrest
    rwa [List.tail_drop] at htail

theorem placed_append {gs hs : List Graph} {n : Nat} (h : gs ++ hs <+: graphs.drop n) :
    gs <+: graphs.drop n ∧ hs <+: graphs.drop (n + gs.length) := by
  obtain ⟨rest, hrest⟩ := h
  constructor
  · exact ⟨hs ++ rest, by rw [← hrest, List.append_assoc]⟩
  · refine ⟨rest, ?_⟩
    rw [← List.drop_drop, ← hrest, List.append_assoc, List.drop_left]

/-- A graph reads what the wiring that it consists of reads. -/
theorem means_buildGraph {wire : Nat → Supply → Wiring}
    (hw : wire s.state ⟨s.state + 1, s.graph + 1⟩ = w) (hcloses : w.Closes s.state)
    (hle : s.state ≤ w.supply.state)
    (h : w.Means graphs target s.state w.exit ⟨s.state + 1, s.graph + 1⟩ r) :
    (buildGraph wire s).Means graphs target s r := by
  have hbuild : buildGraph wire s = ⟨.nested s.graph, w.close s.state :: w.graphs, w.supply⟩ := by
    rw [← hw]
    rfl
  have hgraph : w.supply.graph = s.graph + 1 + w.graphs.length := h.graph
  rw [hbuild]
  refine ⟨hle, ?_, ?_⟩
  · simp only [List.length_cons]
    omega
  · intro hgraphs inner hinner i hi j
    obtain ⟨hself, hrest⟩ := placed_cons hgraphs
    have hlast : w.supply.graph ≤ graphs.length := by
      have hlen := hgraphs.length_le
      simp only [List.length_cons, List.length_drop] at hlen
      omega
    have hrun : inner s.graph i = Automaton.run graphs target s.graph i := by
      rw [hinner s.graph (Nat.le_refl _) (by simp only; omega)]
    simp only [Part.passage]
    rw [hrun, run_eq hself, hcloses.mem_run_iff _ hi]
    · refine h.reads hrest _ ?_ i hi j
      intro id hfirst hid
      funext position
      exact if_pos ⟨hfirst, Nat.lt_of_lt_of_le hid hlast⟩
    · intro graph i j hj
      split at hj
      · exact Automaton.le_length_of_mem_run hj
      · cases hj

theorem mem_stops_absence {inner : Nat → Nat → List Nat} {graph i j : Nat} :
    j ∈ Graph.stops inner target i (.absence graph) ↔
      Passage.absence target ((Part.nested graph).passage inner target) i j := by
  simp only [Graph.stops, Passage.absence, Part.passage]
  split
  · rename_i h
    simp only [Bool.and_eq_true, List.isEmpty_iff, Option.any_eq_true, Bool.not_eq_true'] at h
    obtain ⟨⟨x, hx, hb⟩, hempty⟩ := h
    simp [hx, hb, hempty]
  · rename_i h
    simp only [List.not_mem_nil, false_iff]
    rintro ⟨_, ⟨x, hx, hb⟩, hnone⟩
    refine h ?_
    simp only [hx, Option.any_some, hb, Bool.not_false, Bool.true_and, List.isEmpty_iff]
    exact List.eq_nil_iff_forall_not_mem.mpr hnone

/-- Where a graph reads as a passage leads, its absence is found where the passage does not
begin. -/
theorem means_absence {graph : Nat} {gs : List Graph} {s' : Supply}
    (h : Built.Means graphs target ⟨.nested graph, gs, s'⟩ s r) :
    Built.Means graphs target ⟨.transition (.absence graph), gs, s'⟩ s (r.absence target) := by
  refine ⟨h.state, h.graph, ?_⟩
  intro hgraphs inner hinner i hi j
  have hread := (h.reads hgraphs inner hinner).absence i hi j
  simp only [Part.passage] at hread ⊢
  rw [mem_stops_absence]
  exact hread

section Item
variable {build : Supply → Built} {m : Marks}
variable (hbuild : ∀ s, (build s).Means graphs target s r) (hr : r.Forward target.length)
include hbuild hr

theorem means_negated :
    Built.Means graphs target
      { buildGraph (fun start s => wirePart (build s) .one start) s with
        part := .transition (.absence s.graph) } s (r.absence target) := by
  have hinner := hbuild ⟨s.state + 1, s.graph + 1⟩
  have hrow : (wirePart (build ⟨s.state + 1, s.graph + 1⟩) .one s.state).IsRow s.state
      (s.state + 1) := hinner.isRow
  have hgraph : (buildGraph (fun start s => wirePart (build s) .one start) s).Means graphs target
      s r :=
    means_buildGraph rfl hrow.closes (Nat.le_trans (Nat.le_succ _) hrow.le)
      (hinner.wirePart hr (Nat.lt_succ_self _))
  exact means_absence hgraph

theorem isRow_wireItem : (wireItem m build before s).IsRow before s.state := by
  unfold wireItem
  split
  · exact (means_negated hbuild hr).isRow
  · exact (hbuild s).isRow

theorem means_wireItem (hb : before < s.state) :
    (wireItem m build before s).Means graphs target before (wireItem m build before s).exit s
      (m.apply target r) := by
  unfold wireItem Marks.apply
  split
  · exact (means_negated hbuild hr).wirePart Passage.forward_absence hb
  · exact (hbuild s).wirePart hr hb

end Item

/-! ### Rows and fans -/

section Rows
variable {a rest : Wiring} {ra rb : Passage} {behind first : Nat}

theorem Consults.mono {inner : Nat → Nat → List Nat} {first last first' last' : Nat}
    (h : Consults graphs target inner first last) (hfirst : first ≤ first')
    (hlast : last' ≤ last) : Consults graphs target inner first' last' :=
  fun id hid hid' => h id (Nat.le_trans hfirst hid) (Nat.lt_of_lt_of_le hid' hlast)

theorem means_join (ha : a.IsRow before first) (hb : w.IsRow a.exit a.supply.state)
    (hbefore : before < first) (hra : ra.Forward target.length)
    (hma : a.Means graphs target before a.exit s ra)
    (hmb : w.Means graphs target a.exit w.exit a.supply rb) :
    (a.join w).Means graphs target before w.exit s
      (fun i j => ∃ k, ra i k ∧ rb k j) where
  graph := by
    have hga := hma.graph
    have hgb := hmb.graph
    simp only [Wiring.join, List.length_append]
    omega
  reads hgraphs inner hinner i hi j := by
    have hga := hma.graph
    have hgb := hmb.graph
    obtain ⟨hleft, hright⟩ := placed_append hgraphs
    rw [← hga] at hright
    have hreada := hma.reads hleft inner (hinner.mono (Nat.le_refl _) (by
      simp only [Wiring.join]
      omega))
    have hreadb := hmb.reads hright inner (hinner.mono (by omega) (Nat.le_refl _))
    rw [ha.passage_join hb hbefore]
    refine exists_congr fun k => ?_
    rw [hreada i hi k]
    exact and_congr_right fun hik => hreadb k (hra hi hik).2 j

theorem means_cons (hw : w.IsRow before first) (hrest : rest.IsFan before behind w.supply.state)
    (hbefore : before < first) (hbehind : behind < first) (hne : behind ≠ before)
    (hmw : w.Means graphs target before w.exit s ra)
    (hmrest : rest.Means graphs target before behind w.supply rb) :
    ((w.leadTo behind).join rest).Means graphs target before behind s
      (fun i j => ra i j ∨ rb i j) where
  graph := by
    have hgw := hmw.graph
    have hgrest := hmrest.graph
    simp only [Wiring.join, Wiring.leadTo, List.length_append]
    omega
  reads hgraphs inner hinner i hi j := by
    have hgw := hmw.graph
    have hgrest := hmrest.graph
    obtain ⟨hleft, hright⟩ := placed_append hgraphs
    rw [show s.graph + (w.leadTo behind).graphs.length = w.supply.graph from hgw.symm] at hright
    have hreadw := hmw.reads hleft inner (hinner.mono (Nat.le_refl _) (by
      simp only [Wiring.join]
      omega))
    have hreadrest := hmrest.reads hright inner (hinner.mono (by omega) (Nat.le_refl _))
    rw [Wiring.IsFan.passage_cons hw hrest hbefore hbehind hne, hreadw i hi j, hreadrest i hi j]

end Rows

end Parts

/-! ### Expressions -/

section Expressions
variable {graphs : List Graph} {target : List Segment} {macros : MacroTable} {side : Side}

/-- However an expression is built, its part reads what it means without its marks. -/
def Expression.IsSound (graphs : List Graph) (target : List Segment) (macros : MacroTable)
    (side : Side) (e : Expression) : Prop :=
  ∀ s, (buildItem macros side e s).Means graphs target s (e.bare.Reads macros side target)

theorem isSound_terminal (t : Terminal) (m : Marks) :
    (Expression.terminal t m).IsSound graphs target macros side := by
  intro s
  refine ⟨Nat.le_refl _, rfl, ?_⟩
  intro _ inner _ i hi j
  exact mem_readings_element t hi

section Marked
variable {e : Expression} (before : Nat) (s : Supply)
variable (he : e.IsSound graphs target macros side)
include he

theorem isRow_wireExpression :
    (wireItem e.marks (buildItem macros side e) before s).IsRow before s.state :=
  isRow_wireItem he e.bare.forward_reads

theorem means_wireExpression (hb : before < s.state) :
    (wireItem e.marks (buildItem macros side e) before s).Means graphs target before
      (wireItem e.marks (buildItem macros side e) before s).exit s
      (e.Reads macros side target) := by
  rw [e.reads_eq]
  exact means_wireItem he e.bare.forward_reads hb

end Marked

section List
variable {es : List Expression}
variable (hes : ∀ e ∈ es, e.IsSound graphs target macros side)
include hes

theorem means_wireRow (before : Nat) (s : Supply) (hb : before < s.state) :
    (wireRow macros side es before s).IsRow before s.state ∧
      (wireRow macros side es before s).Means graphs target before
        (wireRow macros side es before s).exit s
        (.composition (side.orient (Expression.passages macros side target es))) := by
  induction es generalizing before s with
  | nil =>
    refine ⟨Wiring.isRow_stay, rfl, ?_⟩
    intro _ inner _ i _ j
    have hnil : side.orient (Expression.passages macros side target []) = [] := by
      cases side <;> rfl
    rw [hnil]
    refine Wiring.path_stay.trans ?_
    simp [wireRow, Wiring.stay, Passage.composition]
  | cons e es ih =>
    have he := hes e List.mem_cons_self
    have hrest : ∀ e ∈ es, e.IsSound graphs target macros side :=
      fun e he => hes e (List.mem_cons_of_mem _ he)
    cases side with
    | right =>
      have hrow := isRow_wireExpression before s he
      have hmeans := means_wireExpression before s he hb
      obtain ⟨hrow', hmeans'⟩ := ih hrest _ _ (hrow.exit_lt hb)
      exact ⟨hrow.join hrow', means_join hrow hrow' hb e.forward_reads hmeans hmeans'⟩
    | left =>
      obtain ⟨hrow, hmeans⟩ := ih hrest before s hb
      have hrow' := isRow_wireExpression (wireRow macros .left es before s).exit
        (wireRow macros .left es before s).supply he
      have hmeans' := means_wireExpression _ _ he (hrow.exit_lt hb)
      refine ⟨hrow.join hrow', ?_⟩
      have hjoin := means_join hrow hrow' hb (Expression.group es {}).forward_reads hmeans hmeans'
      refine ⟨hjoin.graph, fun hgraphs inner hinner i hi j => ?_⟩
      rw [show Side.left.orient (Expression.passages macros .left target (e :: es)) =
        Side.left.orient (Expression.passages macros .left target es) ++
          [e.Reads macros .left target] from List.reverse_cons,
        Passage.composition_append_singleton]
      exact hjoin.reads hgraphs inner hinner i hi j

theorem means_wireEach (before behind : Nat) (s : Supply) (hb : before < s.state)
    (hbehind : behind < s.state) (hne : behind ≠ before) :
    (wireEach macros side es before behind s).IsFan before behind s.state ∧
      (wireEach macros side es before behind s).Means graphs target before behind s
        (.union (Expression.passages macros side target es)) := by
  induction es generalizing s with
  | nil =>
    refine ⟨Wiring.isFan_stay, rfl, ?_⟩
    intro _ inner _ i _ j
    refine Wiring.path_stay.trans ?_
    simp [Expression.passages, Passage.not_union_nil, hne.symm]
  | cons e es ih =>
    have he := hes e List.mem_cons_self
    have hrest : ∀ e ∈ es, e.IsSound graphs target macros side :=
      fun e he => hes e (List.mem_cons_of_mem _ he)
    have hrow := isRow_wireExpression before s he
    have hmeans := means_wireExpression before s he hb
    have hle := hrow.le
    obtain ⟨hfan, hmeans'⟩ := ih hrest
      (wireItem e.marks (buildItem macros side e) before s).supply (by omega) (by omega)
    refine ⟨.cons hrow hfan, ?_⟩
    have hcons := means_cons hrow hfan hb hbehind hne hmeans hmeans'
    refine ⟨hcons.graph, fun hgraphs inner hinner i hi j => ?_⟩
    exact (hcons.reads hgraphs inner hinner i hi j).trans Passage.union_cons.symm

theorem closes_wireEach (before behind : Nat) (s : Supply) (hchoice : es ≠ [])
    (hb : before < s.state) (hbehind : behind < s.state) (hne : behind ≠ before) :
    (wireEach macros side es before behind s).Closes before := by
  cases es with
  | nil => exact absurd rfl hchoice
  | cons e es =>
    have hrow := isRow_wireExpression before s (hes e List.mem_cons_self)
    have hle := hrow.le
    obtain ⟨hfan, -⟩ := means_wireEach (fun e he => hes e (List.mem_cons_of_mem _ he))
      before behind (wireItem e.marks (buildItem macros side e) before s).supply
      (by omega) (by omega) hne
    exact Wiring.IsFan.closes_cons hrow hfan hbehind

end List

/-- Every expression is built into a part that reads what the expression means. -/
theorem isSound_of_hasChoice {e : Expression} (he : e.Everywhere Expression.HasChoice) :
    e.IsSound graphs target macros side := by
  induction e using Expression.induct with
  | terminal t m => exact isSound_terminal t m
  | group children m ih =>
    intro s
    cases he with
    | intro _ hchildren =>
      obtain ⟨hrow, hmeans⟩ := means_wireRow (fun e he => ih e he (hchildren e he)) s.state
        ⟨s.state + 1, s.graph + 1⟩ (Nat.lt_succ_self s.state)
      exact means_buildGraph rfl hrow.closes (Nat.le_trans (Nat.le_succ _) hrow.le) hmeans
  | alternation alternatives m ih =>
    intro s
    cases he with
    | intro hchoice hchildren =>
      have hmeans_each := fun e he => ih e he (hchildren e he)
      obtain ⟨hfan, hmeans⟩ := means_wireEach hmeans_each s.state (s.state + 1)
        ⟨s.state + 2, s.graph + 1⟩ (by simp) (by simp) (by simp)
      have hcloses := closes_wireEach hmeans_each s.state (s.state + 1)
        ⟨s.state + 2, s.graph + 1⟩ hchoice (by simp) (by simp) (by simp)
      have hle := Nat.le_trans (Nat.le_add_right s.state 2) hfan.le
      rw [buildItem]
      refine means_buildGraph rfl hcloses hle ?_
      rw [hfan.exit]
      exact ⟨hmeans.graph, hmeans.reads⟩

end Expressions

end SoundLaw
