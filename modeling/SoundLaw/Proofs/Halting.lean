import SoundLaw.Proofs.Matching
import SoundLaw.Proofs.Wiring.References
import SoundLaw.Proofs.Worklist

/-!
# Matching comes to an end

A run of a graph is a search, and to expand a point it may have to run other graphs first. The
search itself comes to an end since no label leads past the target, so that the points it can
meet are finitely many. The runs within it come to an end since a graph refers only to graphs
with larger numbers. This holds for the automaton of every pattern, also where the body of a loop
can match the empty span and leads back to the state that it was entered from.
-/

namespace SoundLaw
set_option autoImplicit false

namespace Graph
variable {g : Graph} {inner inner' : Nat → Nat → List Nat} {target : List Segment}
variable {label : Label} {p q : Point} {sub i first : Nat}

/-- The graphs that may be run when a point is expanded, all from the position of the point. -/
def calls (g : Graph) (p : Point) : List Nat :=
  match g.nested? p.state, p.entered with
  | some sub, false => [sub]
  | _, _ => (g.transitionsOf p.state).filterMap (·.label.absent?)

theorem mem_inner_of_mem_calls (h : sub ∈ g.calls p) : sub ∈ g.inner := by
  unfold calls at h
  split at h
  · rename_i hs _
    obtain rfl := List.mem_singleton.mp h
    obtain ⟨before, after, hbound, -⟩ := List.lookup_eq_some_iff.mp hs
    have hmem : (p.state, sub) ∈ g.bound := by
      rw [hbound]
      exact List.mem_append_right _ List.mem_cons_self
    exact List.mem_append_left _ (List.mem_map.mpr ⟨_, hmem, rfl⟩)
  · obtain ⟨t, ht, hlabel⟩ := List.mem_filterMap.mp h
    exact List.mem_append_right _ (List.mem_filterMap.mpr ⟨t, (List.mem_filter.mp ht).1, hlabel⟩)

theorem stops_congr (h : ∀ sub, label.absent? = some sub → inner sub i = inner' sub i) :
    stops inner target i label = stops inner' target i label := by
  cases label with
  | nothing => rfl
  | element e => rfl
  | absence sub => simp only [stops, h sub rfl]

theorem next_congr (h : ∀ sub ∈ g.calls p, inner sub p.position = inner' sub p.position) :
    g.next inner target p = g.next inner' target p := by
  unfold calls at h
  unfold next
  split
  · rename_i sub hs he
    simp only [hs, he] at h
    rw [h sub List.mem_cons_self]
  · rename_i hnot
    split at h
    · exact absurd ‹_› (hnot _ ‹_›)
    · rw [List.flatMap_def, List.flatMap_def]
      refine congrArg List.flatten (List.map_congr_left fun t ht => ?_)
      rw [stops_congr fun sub hsub => h sub (List.mem_filterMap.mpr ⟨t, ht, hsub⟩)]

theorem run_congr (h : ∀ sub ∈ g.inner, inner sub = inner' sub) :
    g.run inner target first = g.run inner' target first := by
  have hnext : g.next inner target = g.next inner' target := by
    funext p
    exact next_congr fun sub hsub => by rw [h sub (mem_inner_of_mem_calls hsub)]
  unfold run
  rw [hnext]

def area (g : Graph) (target : List Segment) : Area := ⟨target.length, g.states⟩

theorem contains_area_iff :
    (g.area target).contains p = true ↔ p.position ≤ target.length ∧ p.state ∈ g.states := by
  rw [Area.contains, Bool.and_eq_true, decide_eq_true_eq, List.contains_iff_mem, area]

theorem contains_start (hfirst : first ≤ target.length) :
    (g.area target).contains ⟨first, g.start, false⟩ = true :=
  contains_area_iff.mpr ⟨hfirst, List.mem_eraseDups.mpr List.mem_cons_self⟩

/-- A search by which a graph is run ends in whatever order it goes on, it meets no point outside
the area and expands none of them twice, whether one at a time or in layers, and in the end it has
found where the run can end. -/
structure Settles (g : Graph) (inner : Nat → Nat → List Nat) (target : List Segment)
    (first : Nat) (ends : List Nat) : Prop where
  acc : Acc (fun v w => Worklist.Turn (g.next inner target) w v) (.init ⟨first, g.start, false⟩)
  once : ∀ w, Worklist.Course (g.next inner target) ⟨first, g.start, false⟩ w →
    w.expanded.Nodup ∧ ∀ p ∈ w.expanded, (g.area target).contains p = true
  layers : (explore (g.area target) (g.next inner target) [] [⟨first, g.start, false⟩]).Nodup
  mem_ends_iff : ∀ w, Worklist.Course (g.next inner target) ⟨first, g.start, false⟩ w →
    w.waiting = [] → ∀ stop, stop ∈ ends ↔ ∃ p ∈ w.expanded, g.isEnd p = true ∧ p.position = stop

section Runs
variable (hinner : ∀ {sub i j}, j ∈ inner sub i → j ≤ target.length)
include hinner

theorem contains_of_mem_next (hp : (g.area target).contains p = true)
    (hq : q ∈ g.next inner target p) : (g.area target).contains q = true := by
  obtain ⟨hposition, hstate⟩ := contains_area_iff.mp hp
  unfold next at hq
  split at hq
  · obtain ⟨j, hj, rfl⟩ := List.mem_map.mp hq
    exact contains_area_iff.mpr ⟨hinner hj, hstate⟩
  · obtain ⟨t, ht, hq⟩ := List.mem_flatMap.mp hq
    obtain ⟨j, hj, rfl⟩ := List.mem_map.mp hq
    refine contains_area_iff.mpr ⟨le_length_of_mem_stops hposition hj, ?_⟩
    refine List.mem_eraseDups.mpr (List.mem_cons_of_mem _ (List.mem_cons_of_mem _ ?_))
    exact List.mem_flatMap.mpr ⟨t, (List.mem_filter.mp ht).1, by simp⟩

theorem settles_run (hfirst : first ≤ target.length) :
    g.Settles inner target first (g.run inner target first) where
  acc := Worklist.follows_init.acc (fun _ hp _ => contains_of_mem_next hinner hp)
    (contains_start hfirst)
  once w hw := by
    refine ⟨hw.follows.nodup, fun p hp => ?_⟩
    exact Worklist.contains_of_reaches (fun _ hp _ => contains_of_mem_next hinner hp)
      (contains_start hfirst) (hw.follows.reached p (.inl hp))
  layers := nodup_explore .nil
  mem_ends_iff w hw hdone stop := by
    have hmet : ∀ {p}, p ∈ w.expanded ↔
        p ∈ explore (g.area target) (g.next inner target) [] [⟨first, g.start, false⟩] :=
      hw.follows.mem_expanded_iff (fun _ hp _ => contains_of_mem_next hinner hp)
        (contains_start hfirst) hdone
    unfold run
    simp only [List.mem_filter, List.mem_range, List.any_eq_true, beq_iff_eq]
    constructor
    · rintro ⟨_, p, ⟨hp, hend⟩, rfl⟩
      exact ⟨p, hmet.mpr hp, hend, rfl⟩
    · rintro ⟨p, hp, hend, rfl⟩
      have hpos := Worklist.contains_of_reaches
        (fun _ hp _ => contains_of_mem_next hinner hp) (contains_start hfirst)
        (hw.follows.reached p (.inl hp))
      exact ⟨Nat.lt_succ_of_le (contains_area_iff.mp hpos).1, p, ⟨hmet.mp hp, hend⟩, rfl⟩

end Runs

end Graph

namespace Automaton
variable {graphs : List Graph} {target : List Segment} {id first : Nat}

/-- A run of a graph halts: its own search does, and so does each run that is made to expand one
of its points, which is a run of a graph with a larger number. -/
inductive Halts (graphs : List Graph) (target : List Segment) : (id first : Nat) → Prop
  | intro {id first : Nat} {g : Graph} (found : graphs[id]? = some g)
    (search : g.Settles (run graphs target) target first (run graphs target id first))
    (larger : ∀ w, Worklist.Course (g.next (run graphs target) target) ⟨first, g.start, false⟩ w →
      ∀ p ∈ w.expanded, ∀ sub ∈ g.calls p, id < sub)
    (inner : ∀ w, Worklist.Course (g.next (run graphs target) target) ⟨first, g.start, false⟩ w →
      ∀ p ∈ w.expanded, ∀ sub ∈ g.calls p, Halts graphs target sub p.position) :
    Halts graphs target id first

section Nested
variable (hnests : Nests [root] graphs root graphs.length)
include hnests

theorem bounds_of_mem_inner {g : Graph} (hg : graphs[id]? = some g) {sub : Nat}
    (hsub : sub ∈ g.inner) : id < sub ∧ sub < graphs.length := by
  have hlt := hnests.later hg sub hsub
  rw [root, Nat.zero_add] at hlt
  exact ⟨hlt, hnests.lt_last (List.mem_of_getElem? hg) hsub⟩

theorem run_eq_run {g : Graph} (hg : graphs[id]? = some g) (first : Nat) :
    run graphs target id first = g.run (run graphs target) target first := by
  rw [run_eq hg]
  -- the numbers of inner graphs need not be looked at, since these are the only ones asked for
  refine Graph.run_congr fun sub hsub => ?_
  funext position
  exact if_pos (bounds_of_mem_inner hnests hg hsub)

theorem halts {id first : Nat} (hid : id < graphs.length) (hfirst : first ≤ target.length) :
    Halts graphs target id first := by
  have hg : graphs[id]? = some graphs[id] := List.getElem?_eq_getElem hid
  have hsettles : graphs[id].Settles (run graphs target) target first
      (graphs[id].run (run graphs target) target first) :=
    Graph.settles_run (fun h => le_length_of_mem_run h) hfirst
  rw [← run_eq_run hnests hg] at hsettles
  refine ⟨hg, hsettles, ?_, ?_⟩
  · intro w _ p _ sub hsub
    exact (bounds_of_mem_inner hnests hg (Graph.mem_inner_of_mem_calls hsub)).1
  · -- fewer graphs lie behind the inner one, and it begins within the target
    intro w hw p hp sub hsub
    have hbounds := bounds_of_mem_inner hnests hg (Graph.mem_inner_of_mem_calls hsub)
    have hposition := (Graph.contains_area_iff.mp ((hsettles.once w hw).2 p hp)).1
    exact halts hbounds.2 hposition
termination_by graphs.length - id

end Nested

/-- A match lies between the position that it begins at and the end of the target. -/
theorem Finds.bounds_of_mem_ends {a : Automaton} {macros : MacroTable} {side : Side} {p : Pattern}
    {stop : Nat} (h : a.Finds macros side p) (hstop : stop ∈ a.ends target first) :
    first ≤ stop ∧ stop ≤ target.length := by
  obtain ⟨hfirst, j, hj, rfl⟩ := ((h target first).2 stop).mp hstop
  have hle := (p.forward_reads (Nat.le_trans hfirst (length_le_length_bounded _)) hj).1
  exact ⟨Nat.le_min.mpr ⟨hle, hfirst⟩, Nat.min_le_right _ _⟩

/-- Whatever an accepted text says, matching its automaton comes to an end, and every match that
is found lies within the target. -/
theorem ofText_halts {macros : MacroTable} {side : Side} {text : String} {a : Automaton}
    (h : ofText macros side text = .ok a) (target : List Segment) (first : Nat) :
    (first ≤ target.length → Halts a.graphs (bounded a.model target) root first) ∧
      ∀ stop ∈ a.ends target first, first ≤ stop ∧ stop ≤ target.length := by
  obtain ⟨p, -, hfinds⟩ := exists_finds h
  refine ⟨fun hfirst => ?_, fun stop hstop => hfinds.bounds_of_mem_ends hstop⟩
  obtain ⟨p, -, hp⟩ := bind_eq_ok.mp h
  obtain ⟨-, rfl⟩ := ofPattern_eq_ok.mp (mapError_eq_ok.mp hp)
  have hnests := nests_build macros side p
  have hroot : root < (build macros side p).graphs.length := Nat.zero_lt_succ _
  exact halts hnests hroot (Nat.le_trans hfirst (length_le_length_bounded _))

/-- Loops over what can be empty, over alternatives and over absences. -/
theorem ofText_halts_loops :
    ∃ a, ofText (.empty .empty) .right "()+(a*)*(\x7ba b\x7d?)+(!\x7bc (!d)*\x7d*)+" = .ok a ∧
      1 ≤ ["a", "b"].length ∧
      Halts a.graphs (bounded a.model (["a", "b"].map FeatureModel.empty.resolve)) root 1 ∧
      ∀ stop ∈ a.ends (["a", "b"].map FeatureModel.empty.resolve) 1, 1 ≤ stop ∧ stop ≤ 2 := by
  have hok : ((ofText (.empty .empty) .right
      "()+(a*)*(\x7ba b\x7d?)+(!\x7bc (!d)*\x7d*)+").toOption.any fun _ => true) = true := by
    decide +kernel
  obtain ⟨a, ha, -⟩ := exists_ok_of_any hok
  have hhalts := ofText_halts ha (["a", "b"].map FeatureModel.empty.resolve) 1
  exact ⟨a, ha, by decide, hhalts.1 (by decide), hhalts.2⟩

end Automaton

end SoundLaw
