import SoundLaw.Proofs.Wiring.Row

/-!
# References between graphs

A graph refers to others through its bound states and through the labels that ask for their
absence. What one call of the construction adds to the list of graphs is closed: the graphs have
the numbers that were free when it began, each of them is referred to once, either from outside
or by one of the others, and no graph refers to one that was begun before it.
-/

namespace SoundLaw
set_option autoImplicit false

/-- The graph whose absence a label asks for. -/
def Label.absent? : Label → Option Nat
  | absence graph => some graph
  | _ => none

/-- The graphs that a graph refers to, each as often as it does. -/
def Graph.inner (g : Graph) : List Nat :=
  g.bound.map Prod.snd ++ g.transitions.filterMap (·.label.absent?)

def Wiring.inner (w : Wiring) : List Nat :=
  w.bound.map Prod.snd ++ w.transitions.filterMap (·.label.absent?)

def Part.inner : Part → List Nat
  | transition label => label.absent?.toList
  | nested graph => [graph]

/-- What two lists of graphs hold, each behind some more of it. -/
theorem perm_append_flatMap {as bs : List Nat} {gs hs : List Graph} (f : Graph → List Nat) :
    (as ++ bs ++ (gs ++ hs).flatMap f).Perm ((as ++ gs.flatMap f) ++ (bs ++ hs.flatMap f)) := by
  rw [List.flatMap_append, List.append_assoc, List.append_assoc]
  refine .append_left as ?_
  rw [← List.append_assoc, ← List.append_assoc]
  exact List.perm_append_comm.append_right _

/-- Graphs with the numbers from `first` to `last` that are referred to from outside by `refs`,
and otherwise by one another. -/
structure Nests (refs : List Nat) (graphs : List Graph) (first last : Nat) : Prop where
  last_eq : last = first + graphs.length
  once : (refs ++ graphs.flatMap Graph.inner).Perm (List.range' first graphs.length)
  later : ∀ {i g}, graphs[i]? = some g → ∀ sub ∈ g.inner, first + i < sub

namespace Nests
variable {refs refs' ra rb : List Nat} {graphs ga gb : List Graph} {g : Graph}
variable {first last middle i n : Nat}

theorem nil : Nests [] [] n n := ⟨rfl, .refl _, by simp⟩

theorem perm (h : Nests refs graphs first last) (hperm : refs'.Perm refs) :
    Nests refs' graphs first last :=
  ⟨h.last_eq, (hperm.append_right _).trans h.once, h.later⟩

theorem append (ha : Nests ra ga first middle) (hb : Nests rb gb middle last) :
    Nests (ra ++ rb) (ga ++ gb) first last where
  last_eq := by
    rw [hb.last_eq, ha.last_eq, List.length_append, Nat.add_assoc]
  once := by
    have hrange : List.range' first (ga ++ gb).length =
        List.range' first ga.length ++ List.range' middle gb.length := by
      rw [List.length_append, ha.last_eq, List.range'_append_1]
    rw [hrange]
    exact (perm_append_flatMap Graph.inner).trans (ha.once.append hb.once)
  later {i g} hg sub hsub := by
    rw [List.getElem?_append] at hg
    split at hg
    · exact ha.later hg sub hsub
    · have hlt := hb.later hg sub hsub
      have hmiddle := ha.last_eq
      omega

theorem cons (h : Nests g.inner graphs (first + 1) last) :
    Nests [first] (g :: graphs) first last where
  last_eq := by
    rw [h.last_eq, List.length_cons]
    omega
  once := by
    rw [List.length_cons, List.range'_succ, List.flatMap_cons]
    exact h.once.cons first
  later {i g'} hg sub hsub := by
    cases i with
    | zero =>
      obtain rfl : g = g' := Option.some.inj hg
      have hmem := h.once.mem_iff.mp (List.mem_append_left _ hsub)
      exact (List.mem_range'_1.mp hmem).1
    | succ i =>
      have hlt := h.later hg sub hsub
      omega

theorem lt_last (h : Nests refs graphs first last) {sub : Nat} (hg : g ∈ graphs)
    (hsub : sub ∈ g.inner) : sub < last := by
  have hmem : sub ∈ refs ++ graphs.flatMap Graph.inner :=
    List.mem_append_right _ (List.mem_flatMap.mpr ⟨g, hg, hsub⟩)
  rw [h.last_eq]
  exact (List.mem_range'_1.mp (h.once.mem_iff.mp hmem)).2

end Nests

/-! ### Parts and wirings -/

/-- A part, built with a supply, and the graphs it rests on. -/
def Built.Nests (b : Built) (s : Supply) : Prop :=
  SoundLaw.Nests b.part.inner b.graphs s.graph b.supply.graph

/-- A wiring, made with a supply, and the graphs it rests on. -/
def Wiring.Nests (w : Wiring) (s : Supply) : Prop :=
  SoundLaw.Nests w.inner w.graphs s.graph w.supply.graph

section Wirings
variable {b : Built} {w v : Wiring} {s : Supply} {before behind : Nat} {q : Quantifier}

theorem inner_wireLabel (label : Label) :
    (wireLabel label q before s).inner = label.absent?.toList := by
  cases q <;> cases label <;> rfl

theorem inner_wireNested (graph : Nat) : (wireNested graph q before s).inner = [graph] := by
  cases q <;> rfl

theorem inner_wirePart (b : Built) : (wirePart b q before).inner = b.part.inner := by
  obtain ⟨part, graphs, s⟩ := b
  cases part with
  | transition label => exact inner_wireLabel label
  | nested graph => exact inner_wireNested graph

theorem Built.Nests.wirePart (h : b.Nests s) : (wirePart b q before).Nests s := by
  unfold Wiring.Nests
  rw [inner_wirePart, graphs_wirePart, supply_graph_wirePart]
  exact h

theorem nests_buildGraph {wire : Nat → Supply → Wiring}
    (h : (wire s.state ⟨s.state + 1, s.graph + 1⟩).Nests ⟨s.state + 1, s.graph + 1⟩) :
    (buildGraph wire s).Nests s := by
  have hclose : SoundLaw.Nests
      ((wire s.state ⟨s.state + 1, s.graph + 1⟩).close s.state).inner
      (wire s.state ⟨s.state + 1, s.graph + 1⟩).graphs (s.graph + 1)
      (wire s.state ⟨s.state + 1, s.graph + 1⟩).supply.graph := h
  exact hclose.cons

theorem nests_wireItem {build : Supply → Built} {m : Marks} (h : ∀ s, (build s).Nests s) :
    (wireItem m build before s).Nests s := by
  unfold wireItem
  split
  · -- The label that asks for a graph's absence refers to it as a bound state would.
    have hgraph : (buildGraph (fun start s => wirePart (build s) .one start) s).Nests s :=
      nests_buildGraph (h _).wirePart
    have hpart : Built.Nests { buildGraph (fun start s => wirePart (build s) .one start) s with
        part := .transition (.absence s.graph) } s := hgraph
    exact hpart.wirePart
  · exact (h s).wirePart

theorem Wiring.nests_stay : (stay before s).Nests s := .nil

theorem Wiring.Nests.join (hw : w.Nests s) (hv : v.Nests w.supply) : (w.join v).Nests s := by
  refine (SoundLaw.Nests.append hw hv).perm ?_
  simp only [Wiring.inner, Wiring.join, List.map_append, List.filterMap_append]
  rw [List.append_assoc, List.append_assoc]
  refine .append_left _ ?_
  rw [← List.append_assoc, ← List.append_assoc]
  exact List.perm_append_comm.append_right _

theorem Wiring.Nests.leadTo (h : w.Nests s) : (w.leadTo behind).Nests s := by
  have hinner : (w.leadTo behind).inner = w.inner := by
    simp [Wiring.inner, Wiring.leadTo, skip, Label.absent?]
  unfold Wiring.Nests
  rw [hinner]
  exact h

end Wirings

/-! ### Expressions -/

section Expressions
variable {macros : MacroTable} {side : Side} {es : List Expression}

theorem nests_wireRow (h : ∀ e ∈ es, ∀ s, (buildItem macros side e s).Nests s) (before : Nat)
    (s : Supply) : (wireRow macros side es before s).Nests s := by
  induction es generalizing before s with
  | nil => exact Wiring.nests_stay
  | cons e es ih =>
    have he := h e List.mem_cons_self
    have hes := ih fun e he => h e (List.mem_cons_of_mem _ he)
    cases side with
    | right => exact (nests_wireItem he).join (hes _ _)
    | left => exact (hes before s).join (nests_wireItem he)

theorem nests_wireEach (h : ∀ e ∈ es, ∀ s, (buildItem macros side e s).Nests s)
    (before behind : Nat) (s : Supply) : (wireEach macros side es before behind s).Nests s := by
  induction es generalizing s with
  | nil => exact Wiring.nests_stay
  | cons e es ih =>
    have he := h e List.mem_cons_self
    have hes := ih fun e he => h e (List.mem_cons_of_mem _ he)
    exact (Wiring.Nests.leadTo (nests_wireItem he)).join (hes _)

theorem nests_buildItem (e : Expression) (s : Supply) : (buildItem macros side e s).Nests s := by
  induction e using Expression.induct generalizing s with
  | terminal t m => exact .nil
  | group children m ih => exact nests_buildGraph (nests_wireRow ih _ _)
  | alternation alternatives m ih =>
    -- The exit of the alternatives takes a state of the supply, but no graph.
    have heach : (wireEach macros side alternatives s.state (s.state + 1)
        ⟨s.state + 2, s.graph + 1⟩).Nests ⟨s.state + 1, s.graph + 1⟩ :=
      nests_wireEach ih _ _ ⟨s.state + 2, s.graph + 1⟩
    exact nests_buildGraph heach

/-- In an automaton the graph of the whole pattern is referred to once from outside. -/
theorem Automaton.nests_build (macros : MacroTable) (side : Side) (p : Pattern) :
    Nests [root] (build macros side p).graphs root (build macros side p).graphs.length := by
  have hbuilt : (buildGraph (wireRow macros side p) ⟨0, 0⟩).Nests ⟨0, 0⟩ :=
    nests_buildGraph (nests_wireRow (fun e _ => nests_buildItem e) _ _)
  have hlast := hbuilt.last_eq
  rw [Nat.zero_add] at hlast
  unfold Built.Nests at hbuilt
  rw [hlast] at hbuilt
  exact hbuilt

end Expressions

end SoundLaw
