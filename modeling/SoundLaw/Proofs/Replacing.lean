import Mathlib.Data.Nat.Find
import SoundLaw.Proofs.Elements
import SoundLaw.Proofs.Models

/-!
# Replacing matches

The search for the first match and the replacement of all of them are loops of their own. One ends
where the run no longer fits into the word, the other goes on to the last segment and finds no match
there. They see the same matches nevertheless: the replacement takes the first one, puts the target
in its place and begins anew behind it. So a word falls apart into gaps, of which the target knows
nothing, and in the end the target stands between any two of them.
-/

namespace SoundLaw
set_option autoImplicit false

/-- The first position at which a list of segments has matches of a run. -/
structure IsFirstMatch (source segments : List Segment) (k : Nat) : Prop where
  stands : Stands segments k source
  first : ∀ i < k, ¬ Stands segments i source

/-- What stands before each match of a run and behind the last one, where every match is the first
one behind the match before it. -/
inductive Gaps (source : List Segment) : List Segment → List (List Segment) → Prop
  | last {segments : List Segment} : (∀ i, ¬ Stands segments i source) →
    Gaps source segments [segments]
  | next {segments : List Segment} {k : Nat} {gaps : List (List Segment)} :
    IsFirstMatch source segments k → Gaps source (segments.drop (k + source.length)) gaps →
    Gaps source segments (segments.take k :: gaps)

section Runs
variable {source segments : List Segment} {s : Segment} {gaps : List (List Segment)} {i k : Nat}

/-! ### The first match -/

theorem beginsWith_iff_stands : beginsWith segments source = true ↔ Stands segments 0 source := by
  simp only [beginsWith_iff, Stands, Nat.zero_add]

theorem stands_cons_succ : Stands (s :: segments) (i + 1) source ↔ Stands segments i source := by
  simp only [Stands, Nat.add_right_comm, List.getElem?_cons_succ]

theorem exists_isFirstMatch (h : Stands segments i source) :
    ∃ k, IsFirstMatch source segments k := by
  classical
  have hsome : ∃ i, Stands segments i source := ⟨i, h⟩
  exact ⟨Nat.find hsome, Nat.find_spec hsome, fun _ hi => Nat.find_min hsome hi⟩

theorem IsFirstMatch.le_length (h : IsFirstMatch source segments k) :
    k + source.length ≤ segments.length := by
  apply h.stands.le_length
  cases source with
  | nil =>
    have hk : ¬ 0 < k := fun hpos => h.first 0 hpos nofun
    omega
  | cons t ts =>
    obtain ⟨x, hx, -⟩ := h.stands 0 t rfl
    exact Nat.le_of_lt (List.getElem?_eq_some_iff.mp hx).1

theorem IsFirstMatch.exists_cons (h : IsFirstMatch source segments k) (hsource : source ≠ []) :
    ∃ s ss, segments = s :: ss := by
  apply List.exists_cons_of_ne_nil
  rintro rfl
  have hle := h.le_length
  have hpos := List.length_pos_of_ne_nil hsource
  rw [List.length_nil] at hle
  omega

/-! ### The replacement -/

theorem replaceRuns_of_not_stands (h : ∀ i, ¬ Stands segments i source) (target : List Segment) :
    replaceRuns source target segments = segments := by
  induction segments with
  | nil => rw [replaceRuns]
  | cons s ss ih =>
    have hhere : ¬ beginsWith (s :: ss) source = true :=
      fun hbegins => h 0 (beginsWith_iff_stands.mp hbegins)
    rw [replaceRuns, if_neg hhere, ih fun i hi => h (i + 1) (stands_cons_succ.mpr hi)]

/-- The first match is replaced, and the rest of the segments as if it stood alone. -/
theorem IsFirstMatch.replaceRuns_eq (h : IsFirstMatch source segments k) (hsource : source ≠ [])
    (target : List Segment) : replaceRuns source target segments =
      segments.take k ++ target ++
        replaceRuns source target (segments.drop (k + source.length)) := by
  induction k generalizing segments with
  | zero =>
    obtain ⟨s, ss, rfl⟩ := h.exists_cons hsource
    obtain ⟨t, ts, rfl⟩ := List.exists_cons_of_ne_nil hsource
    rw [replaceRuns, if_pos (beginsWith_iff_stands.mpr h.stands), List.take_zero, List.nil_append,
      Nat.zero_add, List.length_cons, Nat.add_sub_cancel, List.drop_succ_cons]
  | succ k ih =>
    obtain ⟨s, ss, rfl⟩ := h.exists_cons hsource
    have hhere : ¬ beginsWith (s :: ss) source = true :=
      fun hbegins => h.first 0 (Nat.succ_pos k) (beginsWith_iff_stands.mp hbegins)
    have hrest : IsFirstMatch source ss k := by
      refine ⟨stands_cons_succ.mp h.stands, fun i hi hstands => ?_⟩
      exact h.first (i + 1) (Nat.succ_lt_succ hi) (stands_cons_succ.mpr hstands)
    rw [replaceRuns, if_neg hhere, ih hrest, List.take_succ_cons, List.cons_append,
      List.cons_append, Nat.add_right_comm, List.drop_succ_cons]

theorem Gaps.ne_nil (h : Gaps source segments gaps) : gaps ≠ [] := by
  cases h <;> exact List.cons_ne_nil _ _

theorem exists_gaps (hsource : source ≠ []) (segments : List Segment) :
    ∃ gaps, Gaps source segments gaps := by
  induction hlength : segments.length using Nat.strong_induction_on generalizing segments with
  | _ n ih =>
    by_cases hsome : ∃ i, Stands segments i source
    · obtain ⟨i, hi⟩ := hsome
      obtain ⟨k, hk⟩ := exists_isFirstMatch hi
      have hle := hk.le_length
      have hpos := List.length_pos_of_ne_nil hsource
      have hshorter : (segments.drop (k + source.length)).length < n := by
        rw [List.length_drop]
        omega
      obtain ⟨gaps, hgaps⟩ := ih _ hshorter _ rfl
      exact ⟨segments.take k :: gaps, .next hk hgaps⟩
    · exact ⟨[segments], .last fun i hi => hsome ⟨i, hi⟩⟩

/-- Whatever the target is, it comes to stand between the gaps. -/
theorem Gaps.replaceRuns_eq (h : Gaps source segments gaps) (hsource : source ≠ [])
    (target : List Segment) : replaceRuns source target segments = target.intercalate gaps := by
  induction h with
  | last hnone => rw [replaceRuns_of_not_stands hnone, List.intercalate_singleton]
  | next hk hgaps ih =>
    rw [hk.replaceRuns_eq hsource, ih, List.intercalate_cons_of_ne_nil hgaps.ne_nil]

end Runs

namespace Word
variable {w source target : Word} {k : Nat}

theorem indexOf?_eq_some_iff :
    w.indexOf? source = some k ↔ IsFirstMatch source.segments w.segments k := by
  have hmatch : ∀ i, w.matchesAt i source.segments = true ↔
      i ≤ w.segments.length ∧ Stands w.segments i source.segments := fun _ => matchesAt_iff
  unfold indexOf?
  split
  · simp only [List.find?_range_eq_some, List.mem_range, Bool.not_eq_true', ← Bool.not_eq_true,
      hmatch]
    constructor
    · rintro ⟨⟨hle, hstands⟩, -, hfirst⟩
      refine ⟨hstands, fun i hi hearlier => hfirst i hi ⟨?_, hearlier⟩⟩
      exact Nat.le_trans (Nat.le_of_lt hi) hle
    · intro h
      have hle : k + source.length ≤ w.length := h.le_length
      refine ⟨⟨Nat.le_trans (Nat.le_add_right _ _) h.le_length, h.stands⟩, by omega, ?_⟩
      exact fun i hi hearlier => h.first i hi hearlier.2
  · rename_i hlong
    refine iff_of_false nofun fun h => hlong ?_
    exact Nat.le_trans (Nat.le_add_left _ _) h.le_length

theorem indexOf?_eq_none_iff :
    w.indexOf? source = none ↔ ∀ i, ¬ Stands w.segments i source.segments := by
  constructor
  · intro hnone i hi
    obtain ⟨k, hk⟩ := exists_isFirstMatch hi
    rw [indexOf?_eq_some_iff.mpr hk] at hnone
    cases hnone
  · intro h
    cases hindex : w.indexOf? source with
    | none => rfl
    | some k => exact absurd (indexOf?_eq_some_iff.mp hindex).stands (h k)

theorem replaceAll_eq (hsource : w.model.same source.model = true)
    (htarget : w.model.same target.model = true) (hsome : source.segments ≠ []) :
    w.replaceAll source target =
      .ok { w with segments := replaceRuns source.segments target.segments w.segments } := by
  have hfilled : source.isEmpty = false := List.isEmpty_eq_false_iff.mpr hsome
  refine Call.outcome_of_ok (a := ()) ?_
  rw [replacing, run_checking_bind, check, if_pos hsource, run_checking_bind, check,
    if_pos htarget, hfilled]
  rfl

theorem slice?_suffix (h : k ≤ w.length) :
    w.slice? k w.length = some { w with segments := w.segments.drop k } := by
  have hrest : (w.segments.drop k).length ≤ w.length - k := Nat.le_of_eq List.length_drop
  rw [slice?, if_pos ⟨h, Nat.le_refl _⟩, List.take_of_length_le hrest]

/-- Replacing is finding the first match, over and over: it is replaced, and the same is done to the
rest of the word behind it. The gaps between the matches are those of the word, whatever comes to
stand between them. A match is one segment by segment, where a missing value fits any other. -/
theorem replaceAll_indexOf (hsource : w.model.same source.model = true)
    (hsome : source.segments ≠ []) :
    (∀ target : Word, w.model.same target.model = true →
      (w.indexOf? source = none → w.replaceAll source target = .ok w) ∧
      ∀ k, w.indexOf? source = some k → k + source.length ≤ w.length ∧
        IsFirstMatch source.segments w.segments k ∧
        ∃ tail rest, w.slice? (k + source.length) w.length = some tail ∧
          tail.replaceAll source target = .ok rest ∧
          w.replaceAll source target =
            .ok { w with segments := w.segments.take k ++ target.segments ++ rest.segments }) ∧
    (w.indexOf? source = none ↔ ∀ i, ¬ Stands w.segments i source.segments) ∧
    (∃ gaps, Gaps source.segments w.segments gaps ∧
      ∀ target : Word, w.model.same target.model = true → w.replaceAll source target =
        .ok { w with segments := target.segments.intercalate gaps }) ∧
    ∃ (m : FeatureModel) (s t u : Segment), s.IsOn m ∧ t.IsOn m ∧ u.IsOn m ∧
      s.fits t = true ∧ t.fits u = true ∧ s.fits u = false := by
  refine ⟨fun target htarget => ⟨fun hnone => ?_, fun k hk => ?_⟩, indexOf?_eq_none_iff, ?_, ?_⟩
  · rw [replaceAll_eq hsource htarget hsome,
      replaceRuns_of_not_stands (indexOf?_eq_none_iff.mp hnone)]
  · have hfirst := indexOf?_eq_some_iff.mp hk
    have hle : k + source.length ≤ w.length := hfirst.le_length
    refine ⟨hle, hfirst, _, _, slice?_suffix hle, replaceAll_eq hsource htarget hsome, ?_⟩
    rw [replaceAll_eq hsource htarget hsome, hfirst.replaceRuns_eq hsome]
    rfl
  · obtain ⟨gaps, hgaps⟩ := exists_gaps hsome w.segments
    refine ⟨gaps, hgaps, fun target htarget => ?_⟩
    rw [replaceAll_eq hsource htarget hsome, hgaps.replaceRuns_eq hsome]
  · let m : FeatureModel := ⟨.numbered 1, ⟨["voice", "nasal"], []⟩, []⟩
    exact ⟨m, ⟨"d", [.plus, .undefined], m⟩, ⟨"[+nasal]", [.masked, .plus], m⟩,
      ⟨"t", [.minus, .undefined], m⟩, ⟨rfl, rfl⟩, ⟨rfl, rfl⟩, ⟨rfl, rfl⟩, by decide +kernel,
      by decide +kernel, by decide +kernel⟩

/-- The bundle matches two of three segments, and what is put in their places matches it again. -/
theorem replaceAll_indexOf_voiced :
    let m : FeatureModel :=
      ⟨.numbered 1, ⟨["voice"], []⟩, [("p", [.minus]), ("b", [.plus]), ("d", [.plus])]⟩
    let w : Word := ⟨m, ["p", "d", "b"].map m.resolve⟩
    let source : Word := ⟨m, [⟨"[+voice]", [.plus], m⟩]⟩
    let target : Word := ⟨m, ["b", "b"].map m.resolve⟩
    w.model.same source.model = true ∧ source.segments ≠ [] ∧
      w.model.same target.model = true ∧ w.indexOf? source = some 1 ∧
      IsFirstMatch source.segments w.segments 1 ∧
      ∃ tail rest, w.slice? 2 3 = some tail ∧ tail.replaceAll source target = .ok rest ∧
        w.replaceAll source target =
          .ok { w with segments := w.segments.take 1 ++ target.segments ++ rest.segments } ∧
        (w.segments.take 1 ++ target.segments ++ rest.segments).map Segment.symbol =
          ["p", "b", "b", "b", "b"] := by
  intro m w source target
  have hsource : w.model.same source.model = true := by decide +kernel
  have htarget : w.model.same target.model = true := by decide +kernel
  have hsome : source.segments ≠ [] := List.cons_ne_nil _ _
  have hindex : w.indexOf? source = some 1 := by decide +kernel
  obtain ⟨hwords, -⟩ := replaceAll_indexOf hsource hsome
  obtain ⟨-, hfirst, tail, rest, htail, hrest, hall⟩ := (hwords target htarget).2 1 hindex
  have hsymbols : (w.replaceAll source target).toOption.map (·.segments.map Segment.symbol) =
      some ["p", "b", "b", "b", "b"] := by decide +kernel
  rw [hall] at hsymbols
  exact ⟨hsource, hsome, htarget, hindex, hfirst, tail, rest, htail, hrest, hall,
    Option.some.inj hsymbols⟩

end Word

end SoundLaw
