import SoundLaw.Proofs.Bounds

/-!
# Rearranging what was read

A target that repeats every element of its source once only changes the order of what was read.
The captures of a candidate lie one behind the other from the beginning of its span to the end, so
in the order of the source they are the span itself, whatever alternatives have been read, and in
any other order they hold the same segments. A rule with no other targets neither loses nor gains
a segment in any turn of its walk. The environment has no part in this: it only decides which
turns are made.
-/

namespace SoundLaw
set_option autoImplicit false

/-! ### Captures and their span -/

theorem take_append_take {α : Type} (xs : List α) {a b c : Nat} (hab : a ≤ b) (hbc : b ≤ c) :
    (xs.drop a).take (b - a) ++ (xs.drop b).take (c - b) = (xs.drop a).take (c - a) := by
  have hsplit : c - a = b - a + (c - b) := by omega
  rw [hsplit, List.take_add, List.drop_drop, Nat.add_sub_cancel' hab]

/-- The captures of a candidate, one after the other, are the span that was read. -/
theorem Candidate.Reads.flatMap_run {k : Candidate} {word : List Segment} {source : List Element}
    {start : Nat} (h : k.Reads word source start) (hstart : start ≤ word.length) :
    k.captures.flatMap (·.run word) = (word.drop start).take (k.stop - start) := by
  induction source generalizing start k with
  | nil =>
    rw [reads_nil.mp h, Nat.sub_self, List.take_zero]
    rfl
  | cons e source ih =>
    obtain ⟨r, hr, rest, hrest, rfl⟩ := reads_cons.mp h
    have hbounds := Element.readings_bounds hr
    have hstop := (Change.waysToRead_bounds hbounds.2 (Change.mem_waysToRead.mpr hrest)).1
    rw [List.flatMap_cons, ih hrest hbounds.2]
    exact take_append_take word hbounds.1 hstop

/-! ### Targets that repeat the source -/

namespace TargetItem

/-- The element that an item repeats, if that is all the item does. -/
def repeated? : TargetItem → Option Nat
  | repeated index => some index
  | literal _ | counterpart _ _ | overwritten _ _ => none

theorem eq_repeated_of_repeated? {item : TargetItem} {index : Nat}
    (h : item.repeated? = some index) : item = repeated index := by
  cases item with
  | repeated => rw [Option.some.inj h]
  | literal | counterpart | overwritten => cases h

end TargetItem

namespace Change

/-- The target repeats every element of the source, each of them once, and nothing else. -/
def Rearranges (c : Change) : Prop :=
  (c.target.map TargetItem.repeated?).Perm ((List.range c.source.length).map some)

/-- The target repeats the elements of the source in their order. -/
def Copies (c : Change) : Prop :=
  c.target.map TargetItem.repeated? = (List.range c.source.length).map some

instance (c : Change) : Decidable c.Rearranges :=
  inferInstanceAs (Decidable (List.Perm _ _))

instance (c : Change) : Decidable c.Copies :=
  inferInstanceAs (Decidable (_ = _))

def part (word : List Segment) (captures : List Capture) (index : Option Nat) : List Segment :=
  ((index.bind (captures[·]?)).map (·.run word)).getD []

section Rendering
variable {c : Change} {k : Candidate} {word : List Segment} {captures : List Capture} {pos : Nat}

theorem Rearranges.render_eq (h : c.Rearranges) : c.render word captures =
    (c.target.map TargetItem.repeated?).flatMap (part word captures) := by
  rw [List.flatMap_map]
  refine List.flatMap_congr fun item hitem => ?_
  obtain ⟨index, _, hindex⟩ := List.mem_map.mp (h.subset (List.mem_map_of_mem hitem))
  rw [TargetItem.eq_repeated_of_repeated? hindex.symm]
  rfl

theorem flatMap_part (word : List Segment) (captures : List Capture) :
    ((List.range captures.length).map some).flatMap (part word captures) =
      captures.flatMap (·.run word) := by
  have hcaptures : (List.range captures.length).map (captures[·]?) = captures.map some := by
    refine List.ext_getElem (by simp) fun i _ hi => ?_
    rw [List.length_map] at hi
    simp [hi]
  calc ((List.range captures.length).map some).flatMap (part word captures)
      = ((List.range captures.length).map (captures[·]?)).flatMap
          fun x => (x.map (·.run word)).getD [] := by
        rw [List.flatMap_map, List.flatMap_map]
        rfl
    _ = captures.flatMap (·.run word) := by
        rw [hcaptures, List.flatMap_map]
        rfl

theorem Rearranges.render_perm (h : c.Rearranges) (hk : k.Reads word c.source pos)
    (hpos : pos ≤ word.length) :
    (c.render word k.captures).Perm ((word.drop pos).take (k.stop - pos)) := by
  rw [h.render_eq, ← hk.flatMap_run hpos, ← flatMap_part, hk.length]
  exact h.flatMap_right _

theorem Copies.render_eq (h : c.Copies) (hk : k.Reads word c.source pos)
    (hpos : pos ≤ word.length) :
    c.render word k.captures = (word.drop pos).take (k.stop - pos) := by
  have hrearranges : c.Rearranges := .of_eq h
  rw [hrearranges.render_eq, h, ← hk.length, flatMap_part, hk.flatMap_run hpos]

end Rendering

end Change

/-! ### The walk -/

namespace Word
variable {segments run : List Segment} {first last : Nat}

theorem spliceRun_self (h : first ≤ last) :
    spliceRun segments first last ((segments.drop first).take (last - first)) = segments := by
  have hrest : segments.drop last = (segments.drop first).drop (last - first) := by
    rw [List.drop_drop, Nat.add_sub_cancel' h]
  rw [spliceRun, List.append_assoc, hrest, List.take_append_drop, List.take_append_drop]

theorem spliceRun_perm (h : first ≤ last)
    (hrun : run.Perm ((segments.drop first).take (last - first))) :
    (spliceRun segments first last run).Perm segments := by
  have hsplice := (hrun.append_left (segments.take first)).append_right (segments.drop last)
  rwa [← spliceRun, ← spliceRun, spliceRun_self h] at hsplice

end Word

namespace Rule
variable {r : Rule} {m : FeatureModel} {w : Word} {pos : Nat} {x y : List Segment × Nat}

theorem exists_reads_of_replacement? {x : Replacement} (h : r.replacement? w pos = some x) :
    ∃ c ∈ r.changes, ∃ k : Candidate, k.Reads w.segments c.source pos ∧
      x = ⟨k.stop, c.render w.segments k.captures⟩ := by
  obtain ⟨before, c, after, k, hchanges, _, hk, _, hx⟩ := replacement?_eq_some_iff.mp h
  exact ⟨c, hchanges ▸ List.mem_append_right before List.mem_cons_self, k, hk.1, hx⟩

theorem Turn.perm (h : ∀ c ∈ r.changes, c.Rearranges) (hturn : r.Turn m x y) : y.1.Perm x.1 := by
  cases hturn with
  | pass => exact .refl _
  | replace hpos hsome =>
    obtain ⟨c, hc, k, hk, rfl⟩ := exists_reads_of_replacement? hsome
    exact Word.spliceRun_perm (replacement?_bounds hpos hsome).1 ((h c hc).render_perm hk hpos)

theorem Turn.segments_eq (h : ∀ c ∈ r.changes, c.Copies) (hturn : r.Turn m x y) : y.1 = x.1 := by
  cases hturn with
  | pass => rfl
  | replace hpos hsome =>
    obtain ⟨c, hc, k, hk, rfl⟩ := exists_reads_of_replacement? hsome
    simp only [(h c hc).render_eq hk hpos]
    exact Word.spliceRun_self (replacement?_bounds hpos hsome).1

theorem walk_perm (h : ∀ c ∈ r.changes, c.Rearranges) (segments : List Segment) (pos : Nat) :
    (r.walk m segments pos).Perm segments := by
  obtain ⟨x, hturns, -, hwalk⟩ := r.exists_turns m segments pos
  rw [hwalk]
  clear hwalk
  induction hturns with
  | refl => exact .refl _
  | tail _ hturn ih => exact (hturn.perm h).trans ih

theorem walk_eq_self (h : ∀ c ∈ r.changes, c.Copies) (segments : List Segment) (pos : Nat) :
    r.walk m segments pos = segments := by
  obtain ⟨x, hturns, -, hwalk⟩ := r.exists_turns m segments pos
  rw [hwalk]
  clear hwalk
  induction hturns with
  | refl => rfl
  | tail _ hturn ih => exact (hturn.segments_eq h).trans ih

/-- A rule whose targets repeat every element of their sources once leaves a word with the same
segments, each as often as before. If they repeat them in order, it leaves the word as it is. -/
theorem apply_perm {r : Rule} (h : ∀ c ∈ r.changes, c.Rearranges) (w : Word) :
    (r.apply w).segments.Perm w.segments ∧ ((∀ c ∈ r.changes, c.Copies) → r.apply w = w) := by
  unfold apply
  split
  · refine ⟨walk_perm h w.segments 0, fun hcopies => ?_⟩
    rw [walk_eq_self hcopies]
  · exact ⟨.refl _, fun _ => rfl⟩

theorem apply_perm_classes :
    let classes : MacroTable :=
      ⟨.empty, [("C", [["t", "s"], ["p"]].map (·.map FeatureModel.empty.resolve))]⟩
    let w : Word := ⟨.empty, ["a", "p", "e", "t", "s"].map FeatureModel.empty.resolve⟩
    (∃ r, ofText classes "C.C 0 . > $3$1$2 0 $1 / _# or a_ not #_" = .ok r ∧
      (∀ c ∈ r.changes, c.Rearranges) ∧ (r.apply w).segments.Perm w.segments) ∧
    ∃ r, ofText classes "C.C 0 . > $1$2$3 0 $1 / _# or a_ not #_" = .ok r ∧
      (∀ c ∈ r.changes, c.Copies) ∧ r.apply w = w := by
  intro classes w
  constructor
  · have hok : ((ofText classes "C.C 0 . > $3$1$2 0 $1 / _# or a_ not #_").toOption.any
        fun r => decide (∀ c ∈ r.changes, c.Rearranges)) = true := by decide +kernel
    obtain ⟨r, hr, hchanges⟩ := exists_ok_of_any hok
    have hchanges := of_decide_eq_true hchanges
    exact ⟨r, hr, hchanges, (apply_perm hchanges w).1⟩
  · have hok : ((ofText classes "C.C 0 . > $1$2$3 0 $1 / _# or a_ not #_").toOption.any
        fun r => decide (∀ c ∈ r.changes, c.Copies)) = true := by decide +kernel
    obtain ⟨r, hr, hcopies⟩ := exists_ok_of_any hok
    have hcopies : ∀ c ∈ r.changes, c.Copies := of_decide_eq_true hcopies
    exact ⟨r, hr, hcopies, (apply_perm (fun c hc => .of_eq (hcopies c hc)) w).2 hcopies⟩

end Rule

end SoundLaw
