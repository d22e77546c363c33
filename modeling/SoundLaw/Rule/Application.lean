import SoundLaw.Rule.Reading

/-!
# Applying rules

A rule walks through a word from left to right. Where one of its changes is licensed, the
segments are replaced and the walk goes on behind the replacement, so that nothing it puts in is
changed again; behind an insertion it passes the next segment as well. A deletion leaves it
where it is. Every step brings the position closer to the end of the word, whatever the length
of the replacement.
-/

namespace SoundLaw
set_option autoImplicit false

theorem length_le_of_beginsWith {segments run : List Segment}
    (h : beginsWith segments run = true) : run.length ≤ segments.length := by
  induction run generalizing segments with
  | nil => exact Nat.zero_le _
  | cons t ts ih =>
    cases segments with
    | nil => cases h
    | cons s ss =>
      simp only [beginsWith, Bool.and_eq_true] at h
      exact Nat.succ_le_succ (ih h.2)

theorem le_length_of_matchesAt {segments run : List Segment} {pos : Nat}
    (h : matchesAt segments pos run = true) : pos + run.length ≤ segments.length := by
  simp only [matchesAt, Bool.and_eq_true, decide_eq_true_eq] at h
  have := length_le_of_beginsWith h.2
  rw [List.length_drop] at this
  omega

theorem Element.readings_bounds {e : Element} {target : List Segment} {pos : Nat} {r : Reading}
    (h : r ∈ e.readings target pos) : pos ≤ r.stop ∧ r.stop ≤ target.length := by
  cases e with
  | literal s =>
    simp only [readings] at h
    split at h
    · rename_i hm
      have := le_length_of_matchesAt hm
      rw [List.mem_singleton.mp h]
      exact ⟨Nat.le_succ _, this⟩
    · cases h
  | named name alternatives =>
    simp only [readings] at h
    generalize 0 = index at h
    induction alternatives generalizing index with
    | nil => cases h
    | cons run runs ih =>
      rw [readingsOf] at h
      split at h
      · rename_i hm
        have := le_length_of_matchesAt hm
        rcases List.mem_cons.mp h with rfl | h
        · exact ⟨Nat.le_add_right _ _, this⟩
        · exact ih _ h
      · exact ih _ h
  | wildcard =>
    simp only [readings] at h
    split at h
    · rename_i hget
      have := (List.getElem?_eq_some_iff.mp hget).1
      split at h
      · cases h
      · rw [List.mem_singleton.mp h]
        exact ⟨Nat.le_succ _, this⟩
    · cases h

namespace Change

theorem waysToRead_bounds {word : List Segment} {source : List Element} {pos : Nat}
    {c : Candidate} (hpos : pos ≤ word.length) (h : c ∈ waysToRead word source pos) :
    pos ≤ c.stop ∧ c.stop ≤ word.length := by
  induction source generalizing pos c with
  | nil =>
    rw [List.mem_singleton.mp h]
    exact ⟨Nat.le_refl _, hpos⟩
  | cons e es ih =>
    simp only [waysToRead, List.mem_flatMap, List.mem_map] at h
    obtain ⟨r, hr, d, hd, rfl⟩ := h
    have hb := Element.readings_bounds hr
    have := ih hb.2 hd
    exact ⟨Nat.le_trans hb.1 this.1, this.2⟩

theorem candidates_bounds {change : Change} {word : List Segment} {pos : Nat} {c : Candidate}
    (hpos : pos ≤ word.length) (h : c ∈ change.candidates word pos) :
    pos ≤ c.stop ∧ c.stop ≤ word.length :=
  waysToRead_bounds hpos (List.mem_mergeSort.mp h)

end Change

/-- A span that begins at the position in question is replaced by a run of segments. -/
structure Replacement where
  stop : Nat
  run : List Segment

namespace Rule

def licensed? (r : Rule) (w : Word) (pos : Nat) (c : Change) : Option Candidate :=
  (c.candidates w.segments pos).find? fun candidate => r.environment.holds w pos candidate.stop

def replacement? (r : Rule) (w : Word) (pos : Nat) : Option Replacement :=
  r.changes.findSome? fun c =>
    (r.licensed? w pos c).map fun candidate =>
      ⟨candidate.stop, c.render w.segments candidate.captures⟩

theorem replacement?_bounds {r : Rule} {w : Word} {pos : Nat} {x : Replacement}
    (hpos : pos ≤ w.length) (h : r.replacement? w pos = some x) :
    pos ≤ x.stop ∧ x.stop ≤ w.length := by
  obtain ⟨c, _, hc⟩ := List.exists_of_findSome?_eq_some h
  obtain ⟨candidate, hcandidate, rfl⟩ := Option.map_eq_some_iff.mp hc
  exact Change.candidates_bounds hpos (List.mem_of_find?_eq_some hcandidate)

/-- How far the walk moves over a replacement: behind what was put in, and past one more segment
where nothing was taken out. -/
def stride (pos : Nat) (x : Replacement) : Nat := x.run.length + if x.stop = pos then 1 else 0

def walk (r : Rule) (m : FeatureModel) (segments : List Segment) (pos : Nat) : List Segment :=
  if hpos : pos ≤ segments.length then
    match h : r.replacement? ⟨m, segments⟩ pos with
    | none => r.walk m segments (pos + 1)
    | some x =>
      have : pos ≤ x.stop ∧ x.stop ≤ segments.length := replacement?_bounds hpos h
      r.walk m (Word.spliceRun segments pos x.stop x.run) (pos + stride pos x)
  else segments
termination_by segments.length + 1 - pos
decreasing_by
  · omega
  · simp only [Word.spliceRun, stride, List.length_append, List.length_take, List.length_drop]
    split <;> omega

/-- The word after the rule. A word of another model is left alone. -/
def apply (r : Rule) (w : Word) : Word :=
  if w.model.same r.model then { w with segments := r.walk w.model w.segments 0 } else w

end Rule

end SoundLaw
