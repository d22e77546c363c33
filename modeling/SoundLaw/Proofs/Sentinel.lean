import SoundLaw.Proofs.Matching
import SoundLaw.Proofs.Printing.Lexemes

/-!
# The boundary behind a target

An automaton reads a boundary behind every target that has none at its end. It is there for the
patterns that ask for it: where no leaf of a pattern does, the pattern reads the same with and
without it, and every match ends within the target itself. Of the leaves that can be written
down, only the boundary asks for one, and the names of macros that have it in an alternative.
-/

namespace SoundLaw
set_option autoImplicit false

theorem Segment.isFeatured_boundary (m : FeatureModel) : (boundary m).isFeatured = false := by
  simp [boundary, isFeatured, FeatureModel.undefined, FeatureVector.isSpecified,
    FeatureValue.isSpecified]

theorem Segment.fits_eq_false_of_boundary (m : FeatureModel) {s : Segment}
    (hs : s.isBoundary = false) : (boundary m).fits s = false := by
  have hsymbol : (boundarySymbol == s.symbol) = false := by
    rw [BEq.comm]
    exact hs
  rw [fits, isFeatured_boundary, Bool.false_and, if_neg Bool.false_ne_true]
  rw [show (boundary m).symbol = boundarySymbol from rfl, hsymbol, Bool.and_false]

def MacroTable.LacksBoundary (macros : MacroTable) (name : String) : Prop :=
  ∀ runs, macros.find? name = some runs → ∀ run ∈ runs, ∀ s ∈ run, s.isBoundary = false

/-- A leaf that never reads a boundary. -/
def Terminal.AvoidsBoundary (macros : MacroTable) : Terminal → Prop
  | literal s => s.isBoundary = false
  | boundary => False
  | wildcard => True
  | reference name => macros.LacksBoundary name

section Boundary
variable {macros : MacroTable} {side : Side} {m : FeatureModel} {word : List Segment}
variable {i j : Nat}

theorem exists_getElem?_append_boundary {P : Segment → Prop} (hP : ¬ P (.boundary m)) :
    (∃ x, (word ++ [.boundary m])[i]? = some x ∧ P x) ↔ ∃ x, word[i]? = some x ∧ P x := by
  constructor
  · rintro ⟨x, hx, hPx⟩
    rw [List.getElem?_append] at hx
    split at hx
    · exact ⟨x, hx, hPx⟩
    · obtain rfl := List.mem_singleton.mp (List.mem_of_getElem? hx)
      exact absurd hPx hP
  · rintro ⟨x, hx, hPx⟩
    exact ⟨x, List.getElem?_append_left (List.getElem?_eq_some_iff.mp hx).1 ▸ hx, hPx⟩

theorem exists_fits_append_boundary {s : Segment} (hs : s.isBoundary = false) :
    (∃ x, (word ++ [.boundary m])[i]? = some x ∧ x.fits s = true) ↔
      ∃ x, word[i]? = some x ∧ x.fits s = true := by
  refine exists_getElem?_append_boundary ?_
  rw [Segment.fits_eq_false_of_boundary m hs]
  exact Bool.false_ne_true

theorem exists_inner_append_boundary :
    (∃ x, (word ++ [.boundary m])[i]? = some x ∧ x.isBoundary = false) ↔
      ∃ x, word[i]? = some x ∧ x.isBoundary = false :=
  exists_getElem?_append_boundary (by simp [Segment.isBoundary, Segment.boundary])

theorem stands_append_boundary {run : List Segment} (hrun : ∀ s ∈ run, s.isBoundary = false) :
    Stands (word ++ [.boundary m]) i run ↔ Stands word i run := by
  refine forall_congr' fun k => forall_congr' fun s => ?_
  exact imp_congr_right fun hs => exists_fits_append_boundary (hrun s (List.mem_of_getElem? hs))

theorem Terminal.reads_append_boundary {t : Terminal} (h : t.AvoidsBoundary macros) :
    t.Reads macros side (word ++ [.boundary m]) i j ↔ t.Reads macros side word i j := by
  cases t with
  | literal s => exact and_congr_right fun _ => exists_fits_append_boundary h
  | boundary => exact h.elim
  | wildcard => exact and_congr_right fun _ => exists_inner_append_boundary
  | reference name =>
    refine exists_congr fun runs => and_congr_right fun hfind => exists_congr fun run => ?_
    refine and_congr_right fun hrun => and_congr_right fun _ => stands_append_boundary ?_
    intro s hs
    exact h runs hfind run hrun s (Side.mem_orient.mp hs)

/-! ### Whole patterns -/

namespace Passage
variable {n : Nat} {r s : Passage}

theorem Agrees.composition {es : List Expression} {f g : Expression → Passage}
    (h : ∀ e ∈ es, (f e).Agrees n (g e)) (hg : ∀ e ∈ es, (g e).Forward n) :
    Agrees n (.composition (es.map f)) (.composition (es.map g)) := by
  induction es with
  | nil => exact fun _ _ _ => Iff.rfl
  | cons e es ih =>
    intro i hi j
    have hes := ih (fun e he => h e (List.mem_cons_of_mem _ he))
      (fun e he => hg e (List.mem_cons_of_mem _ he))
    refine exists_congr fun k => ?_
    rw [h e List.mem_cons_self i hi k]
    exact and_congr_right fun hik => hes k (hg e List.mem_cons_self hi hik).2 j

theorem Agrees.union {es : List Expression} {f g : Expression → Passage}
    (h : ∀ e ∈ es, (f e).Agrees n (g e)) :
    Agrees n (.union (es.map f)) (.union (es.map g)) := by
  intro i hi j
  induction es with
  | nil => exact iff_of_false not_union_nil not_union_nil
  | cons e es ih =>
    rw [List.map_cons, List.map_cons, union_cons, union_cons]
    exact or_congr (h e List.mem_cons_self i hi j) (ih fun e he => h e (List.mem_cons_of_mem _ he))

theorem Agrees.absence_append_boundary (h : r.Agrees word.length s) :
    Agrees word.length (r.absence (word ++ [.boundary m])) (s.absence word) := by
  intro i hi j
  simp only [Passage.absence, exists_inner_append_boundary, h i hi]

theorem Agrees.apply_append_boundary (h : r.Agrees word.length s) (hs : s.Forward word.length)
    (marks : Marks) :
    Agrees word.length (marks.apply (word ++ [.boundary m]) r) (marks.apply word s) := by
  unfold Marks.apply
  split
  · exact h.absence_append_boundary.repeated forward_absence _
  · exact h.repeated hs _

end Passage

/-- Where no leaf asks for a boundary, an expression reads the same with one behind the word. -/
theorem Expression.agrees_append_boundary {e : Expression}
    (he : ∀ t ∈ e.leaves, t.AvoidsBoundary macros) :
    (e.Reads macros side (word ++ [.boundary m])).Agrees word.length
      (e.Reads macros side word) := by
  induction e using Expression.induct with
  | terminal t marks =>
    have hleaf : (t.Reads macros side (word ++ [.boundary m])).Agrees word.length
        (t.Reads macros side word) :=
      fun _ _ _ => Terminal.reads_append_boundary (he t List.mem_cons_self)
    exact hleaf.apply_append_boundary t.forward_reads marks
  | group children marks ih =>
    rw [leaves, leavesOfRow_eq_flatMap, List.forall_mem_flatMap] at he
    have hrow : Passage.Agrees word.length
        (.composition ((side.orient children).map (Reads macros side (word ++ [.boundary m]))))
        (.composition ((side.orient children).map (Reads macros side word))) := by
      apply Passage.Agrees.composition
      · intro e hmem
        have hchild := Side.mem_orient.mp hmem
        exact ih e hchild (he e hchild)
      · intro e _
        exact e.forward_reads
    have hforward : ((group children {}).Reads macros side word).Forward word.length :=
      forward_reads _
    rw [Side.map_orient, Side.map_orient, ← passages_eq_map, ← passages_eq_map] at hrow
    exact hrow.apply_append_boundary hforward marks
  | alternation alternatives marks ih =>
    rw [leaves, leavesOfRow_eq_flatMap, List.forall_mem_flatMap] at he
    have hchoice := Passage.Agrees.union (fun e hmem => ih e hmem (he e hmem))
    have hforward : ((alternation alternatives {}).Reads macros side word).Forward word.length :=
      forward_reads _
    rw [← passages_eq_map, ← passages_eq_map] at hchoice
    exact hchoice.apply_append_boundary hforward marks

theorem Pattern.reads_append_boundary {p : Pattern}
    (hp : ∀ t ∈ p.leaves, t.AvoidsBoundary macros) (hi : i ≤ word.length) :
    p.Reads macros side (word ++ [.boundary m]) i j ↔ p.Reads macros side word i j :=
  Expression.agrees_append_boundary (e := .group p {}) hp i hi j

theorem Pattern.reads_bounded {p : Pattern} (hp : ∀ t ∈ p.leaves, t.AvoidsBoundary macros)
    (hi : i ≤ word.length) :
    p.Reads macros side (Automaton.bounded m word) i j ↔ p.Reads macros side word i j := by
  unfold Automaton.bounded
  split
  · exact Iff.rfl
  · exact reads_append_boundary hp hi

/-- Where no leaf asks for a boundary, the matches of an automaton end where its pattern reads to
within the target. -/
theorem Automaton.Finds.mem_ends_iff_of_avoids {a : Automaton} {p : Pattern}
    (h : a.Finds macros side p) (hp : ∀ t ∈ p.leaves, t.AvoidsBoundary macros) :
    j ∈ a.ends word i ↔ i ≤ word.length ∧ p.Reads macros side word i j := by
  rw [(h word i).2]
  refine and_congr_right fun hi => ?_
  constructor
  · rintro ⟨k, hk, rfl⟩
    have hread := (Pattern.reads_bounded hp hi).mp hk
    rwa [Nat.min_eq_left (p.forward_reads hi hread).2]
  · intro hread
    have hle := (p.forward_reads hi hread).2
    exact ⟨j, (Pattern.reads_bounded hp hi).mpr hread, (Nat.min_eq_left hle).symm⟩

end Boundary

/-! ### Leaves that can be written down -/

theorem Terminal.IsRead.avoidsBoundary {macros : MacroTable} {t : Terminal} (h : t.IsRead macros)
    (hne : t.isBoundary = false) (hname : ∀ name, t = .reference name → macros.LacksBoundary name) :
    t.AvoidsBoundary macros := by
  cases t with
  | literal s =>
    refine Bool.eq_false_iff.mpr fun hs => ?_
    have hsymbol : s.symbol = Segment.boundarySymbol := beq_iff_eq.mp hs
    have hfound := h.found
    rw [atom, hsymbol, if_neg (by decide)] at hfound
    obtain ⟨-, -, hordinary⟩ := hfound.eq_ofSymbol rfl
    cases hordinary '#' (by decide)
  | boundary => cases hne
  | wildcard => trivial
  | reference name => exact hname name rfl

/-! ### Texts without a boundary -/

section Texts
variable {macros : MacroTable} {side : Side} {text : String} {lexemes : List Lexeme}

theorem Lexeme.eq_of_ofChar?_eq_boundary {c : Char} (h : ofChar? c = some (atom .boundary)) :
    c = '#' := by
  unfold ofChar? at h
  split at h <;> first | rfl | cases h | (split at h <;> cases h)

theorem Lexeme.boundary_not_mem_ofText (h : ofText macros text = .ok lexemes)
    (htext : '#' ∉ outsideBundles text.toList) : atom .boundary ∉ lexemes := by
  intro hmem
  have hsymbol : ∀ s, atom .boundary ≠ ofSymbol macros s := by
    intro s hs
    unfold ofSymbol at hs
    split at hs <;> cases hs
  obtain ⟨c, hc, hl⟩ := exists_ofChar?_of_mem_ofText h (l := atom .boundary) (fun _ => nofun)
    hsymbol hmem
  obtain rfl := eq_of_ofChar?_eq_boundary hl
  exact htext hc

theorem Atom.Denotes.eq_atom {m : FeatureModel} {a : Atom} {t : Terminal} (h : a.Denotes m t)
    (ht : ∀ s, t ≠ .literal s) : a = t.atom := by
  cases a with
  | boundary | wildcard | name =>
    cases h
    rfl
  | symbol =>
    cases h
    exact absurd rfl (ht _)
  | bundle descriptor =>
    obtain ⟨s, -, rfl⟩ := map_eq_ok.mp h
    exact absurd rfl (ht s)

/-- A pattern whose text has no boundary outside bundles avoids boundaries, unless a macro that it
names has one. -/
theorem Pattern.avoidsBoundary_of_ofText {p : Pattern} (h : ofText macros text = .ok p)
    (htext : '#' ∉ Lexeme.outsideBundles text.toList)
    (hmacros : ∀ lexemes, Lexeme.ofText macros text = .ok lexemes →
      ∀ name, .atom (.name name) ∈ lexemes → macros.LacksBoundary name) :
    ∀ t ∈ p.leaves, t.AvoidsBoundary macros := by
  obtain ⟨lexemes, hlexemes, hspells⟩ := ((ofText_iff_spells macros text).1 p).mp h
  intro t ht
  obtain ⟨a, ha, hdenotes⟩ := hspells.exists_atom t ht
  refine (isRead_of_ofText h t ht).avoidsBoundary (Bool.eq_false_iff.mpr fun hedge => ?_) ?_
  · cases t with
    | boundary =>
      rw [hdenotes.eq_atom nofun] at ha
      exact Lexeme.boundary_not_mem_ofText hlexemes htext ha
    | literal | wildcard | reference => cases hedge
  · rintro name rfl
    rw [hdenotes.eq_atom nofun] at ha
    exact hmacros lexemes hlexemes name ha

namespace Automaton
variable {a : Automaton} {target : List Segment} {first : Nat}

/-- Where no leaf asks for a boundary, a search on the target without one is all there is to it. -/
theorem run_eq_ends {p : Pattern} (hp : ∀ e ∈ p, e.Everywhere Expression.HasChoice)
    (havoids : ∀ t ∈ p.leaves, t.AvoidsBoundary macros) (hfirst : first ≤ target.length) :
    run (build macros side p).graphs target root first =
      (build macros side p).ends target first := by
  refine (pairwise_run _ _ _ _).eq_of_mem_iff pairwise_ends fun stop => ?_
  rw [mem_run_build_iff hp hfirst, (finds_build hp).mem_ends_iff_of_avoids havoids,
    and_iff_right hfirst]

/-- Without a boundary in the text of a pattern, and in its macros, a match neither depends on the
boundary behind a word nor reaches it: the ends are those of a search on the bare segments, and
those of a search with the boundary behind them are the same before they are cut to the length of
the word. -/
theorem ends_withBoundary (h : ofText macros side text = .ok a)
    (htext : '#' ∉ Lexeme.outsideBundles text.toList)
    (hmacros : ∀ lexemes, Lexeme.ofText macros text = .ok lexemes →
      ∀ name, .atom (.name name) ∈ lexemes → macros.LacksBoundary name)
    (w : Word) (hfirst : first ≤ w.length) :
    a.ends w.segments first = a.ends w.withBoundary.segments first ∧
      run a.graphs w.segments root first = a.ends w.segments first ∧
      run a.graphs (bounded a.model w.segments) root first = a.ends w.segments first ∧
      ∀ stop ∈ a.ends w.segments first, stop ≤ w.length := by
  obtain ⟨p, hp, rfl⟩ := exists_build h
  have hfirst : first ≤ w.segments.length := hfirst
  have hchoice := Pattern.hasChoice_of_ofText hp
  have havoids := Pattern.avoidsBoundary_of_ofText hp htext hmacros
  have hends : ∀ stop, stop ∈ (build macros side p).ends w.segments first ↔
      p.Reads macros side w.segments first stop := fun stop => by
    rw [(finds_build hchoice).mem_ends_iff_of_avoids havoids, and_iff_right hfirst]
  refine ⟨?_, run_eq_ends hchoice havoids hfirst, ?_, fun stop hstop => ?_⟩
  · refine pairwise_ends.eq_of_mem_iff pairwise_ends fun stop => ?_
    have hlonger : first ≤ w.withBoundary.segments.length :=
      Nat.le_trans hfirst (List.length_append ▸ Nat.le_add_right _ _)
    rw [hends, (finds_build hchoice).mem_ends_iff_of_avoids havoids, and_iff_right hlonger]
    exact (Pattern.reads_append_boundary havoids hfirst).symm
  · refine (pairwise_run _ _ _ _).eq_of_mem_iff pairwise_ends fun stop => ?_
    rw [hends, mem_run_build_iff hchoice (Nat.le_trans hfirst (length_le_length_bounded _))]
    exact Pattern.reads_bounded havoids hfirst
  · exact (p.forward_reads hfirst ((hends stop).mp hstop)).2

theorem ends_withBoundary_nested :
    let stops : MacroTable := ⟨.empty, [("C", ["p", "ts"].map (·.toList.map fun c =>
      FeatureModel.empty.resolve c.toString))]⟩
    let text := "!(C!a)*{.? a}"
    let w : Word := ⟨.empty, ["t", "s", "a"].map FeatureModel.empty.resolve⟩
    ∃ a, ofText stops .left text = .ok a ∧ '#' ∉ Lexeme.outsideBundles text.toList ∧
      (∀ lexemes, Lexeme.ofText stops text = .ok lexemes →
        ∀ name, .atom (.name name) ∈ lexemes → stops.LacksBoundary name) ∧
      a.ends w.segments 2 = a.ends w.withBoundary.segments 2 ∧
      run a.graphs w.segments root 2 = a.ends w.segments 2 ∧
      run a.graphs (bounded a.model w.segments) root 2 = a.ends w.segments 2 ∧
      ∀ stop ∈ a.ends w.segments 2, stop ≤ w.length := by
  intro stops text w
  have hok : ((ofText stops .left text).toOption.any fun _ => true) = true := by decide +kernel
  obtain ⟨a, ha, -⟩ := exists_ok_of_any hok
  have htext : '#' ∉ Lexeme.outsideBundles text.toList := by decide +kernel
  have hmacros : ∀ name, stops.LacksBoundary name := by
    intro name runs hruns
    obtain ⟨before, after, heq, -⟩ := List.lookup_eq_some_iff.mp hruns
    have hmem : (name, runs) ∈ stops.entries := heq ▸ List.mem_append_right _ List.mem_cons_self
    obtain rfl : runs = _ := (Prod.mk.inj (List.mem_singleton.mp hmem)).2
    decide
  exact ⟨a, ha, htext, fun _ _ name _ => hmacros name,
    ends_withBoundary ha htext (fun _ _ name _ => hmacros name) w (by decide)⟩

end Automaton

end Texts

end SoundLaw
