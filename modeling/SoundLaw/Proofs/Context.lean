import SoundLaw.Environment
import SoundLaw.Proofs.EmptySpan
import SoundLaw.Proofs.Mirror

/-!
# Conditions

A condition holds around a span if its left pattern, read from left to right as it is written,
reads up to the span, and its right pattern reads on from behind it. The word is seen with a
boundary at either end, and what is in the span does not matter.
-/

namespace SoundLaw
set_option autoImplicit false
open Text

namespace Text
variable {sep : Char} {cs a b left right : List Char}

theorem eq_of_splitAt_singleton (h : splitAt sep cs = [a]) : cs = a := by
  have hjoin : [sep].intercalate (cs.splitOn sep) = cs := List.intercalate_splitOn sep
  rw [← splitAt_eq_splitOn, h, List.intercalate_singleton] at hjoin
  exact hjoin.symm

theorem eq_of_splitAt_pair (h : splitAt sep (left ++ sep :: right) = [a, b]) :
    left = a ∧ right = b := by
  rw [splitAt_append_cons] at h
  have hleft : splitAt sep left ≠ [] := by
    rw [splitAt_eq_splitOn]
    exact List.splitOn_ne_nil sep left
  have hright : splitAt sep right ≠ [] := by
    rw [splitAt_eq_splitOn]
    exact List.splitOn_ne_nil sep right
  obtain ⟨x, xs, hx⟩ := List.exists_cons_of_ne_nil hleft
  obtain ⟨y, ys, hy⟩ := List.exists_cons_of_ne_nil hright
  rw [hx, hy] at h
  cases xs with
  | nil =>
    cases h
    exact ⟨eq_of_splitAt_singleton hx, eq_of_splitAt_singleton hy⟩
  | cons x' xs => cases xs <;> cases h

end Text

/-- Read from its end, a pattern matches the reversed target outward if it reads up to the end of
the target. -/
theorem Pattern.exists_reads_reverse_iff {macros : MacroTable} {p : Pattern}
    {target : List Segment} (hp : p.Positive) :
    (∃ k, p.Reads macros .left target.reverse 0 k) ↔
      ∃ k ≤ target.length, p.Reads macros .right target k target.length := by
  have hmirror : ∀ k ≤ target.length, p.Reads macros .right target k target.length ↔
      p.Reads macros .left target.reverse 0 (target.length - k) := by
    intro k hk
    have h : p.Reads macros .right target k target.length ↔ _ :=
      Pattern.mirrors_reads hp k hk target.length (Nat.le_refl _)
    rwa [Nat.sub_self] at h
  constructor
  · intro ⟨k, hk⟩
    have hle := (p.forward_reads (Nat.zero_le _) hk).2
    rw [List.length_reverse] at hle
    refine ⟨target.length - k, Nat.sub_le _ _, (hmirror _ (Nat.sub_le _ _)).mpr ?_⟩
    rwa [Nat.sub_sub_self hle]
  · intro ⟨k, hk, hread⟩
    exact ⟨_, (hmirror k hk).mp hread⟩

namespace Condition
variable {macros : MacroTable} {text : String} {left right : List Char} {c : Condition}

theorem automata_of_ofText (htext : trim text.toList = left ++ '_' :: right)
    (h : ofText macros text = .ok c) :
    Automaton.ofText macros .left (String.ofList left) = .ok c.before ∧
      Automaton.ofText macros .right (String.ofList right) = .ok c.behind := by
  unfold ofText at h
  simp only at h
  split at h
  · rename_i a b hparts
    rw [htext] at hparts
    obtain ⟨rfl, rfl⟩ := eq_of_splitAt_pair hparts
    obtain ⟨before, hbefore, h⟩ := bind_eq_ok.mp h
    obtain ⟨behind, hbehind, h⟩ := bind_eq_ok.mp h
    cases h
    exact ⟨hbefore, hbehind⟩
  · cases h

theorem isMatch_iff {a : Automaton} {target : List Segment} {first : Nat} :
    a.isMatch target first = true ↔ ∃ stop, stop ∈ a.ends target first := by
  unfold Automaton.isMatch
  rw [Bool.not_eq_true', List.isEmpty_eq_false_iff_exists_mem]

section Holds
variable {p q : Pattern} {w : Word} {first last : Nat}

/-- The left pattern matches outward if it reads up to the span from left to right. -/
theorem isMatch_outward_iff {a : Automaton} (ha : a.Finds macros .left p) (hp : p.Positive)
    (hfirst : first ≤ w.length) :
    a.isMatch (outward w first) 0 = true ↔
      ∃ k ≤ first + 1, p.Reads macros .right (.boundary w.model :: w.segments.take first) k
        (first + 1) := by
  have hlength : (Segment.boundary w.model :: w.segments.take first).length = first + 1 := by
    rw [List.length_cons, List.length_take]
    exact congrArg Nat.succ (Nat.min_eq_left hfirst)
  have hlast : (outward w first).getLast?.any Segment.isBoundary = true := by
    rw [outward, List.getLast?_reverse]
    rfl
  rw [← hlength, ← Pattern.exists_reads_reverse_iff hp, isMatch_iff]
  exact exists_congr fun stop => ha.mem_ends_iff hlast (Nat.zero_le _)

theorem isMatch_onward_iff {a : Automaton} (ha : a.Finds macros .right q) :
    a.isMatch (onward w last) 0 = true ↔
      ∃ k, q.Reads macros .right (w.segments.drop last ++ [.boundary w.model]) 0 k := by
  have hlast : (onward w last).getLast?.any Segment.isBoundary = true := by
    rw [onward, List.getLast?_concat]
    rfl
  rw [isMatch_iff]
  exact exists_congr fun stop => ha.mem_ends_iff hlast (Nat.zero_le _)

theorem holds_iff (hbefore : c.before.Finds macros .left p) (hp : p.Positive)
    (hbehind : c.behind.Finds macros .right q) :
    c.holds w first last = true ↔ first ≤ last ∧ last ≤ w.length ∧
      (∃ k ≤ first + 1, p.Reads macros .right (.boundary w.model :: w.segments.take first) k
        (first + 1)) ∧
      ∃ k, q.Reads macros .right (w.segments.drop last ++ [.boundary w.model]) 0 k := by
  simp only [holds, Bool.and_eq_true, decide_eq_true_eq, and_assoc]
  refine and_congr_right fun hle => and_congr_right fun hlast => ?_
  rw [isMatch_outward_iff hbefore hp (Nat.le_trans hle hlast), isMatch_onward_iff hbehind]

theorem holds_append (c : Condition) (m : FeatureModel) (a b b' d : List Segment) :
    c.holds ⟨m, a ++ b ++ d⟩ a.length (a.length + b.length) =
      c.holds ⟨m, a ++ b' ++ d⟩ a.length (a.length + b'.length) := by
  have hbefore : ∀ b, outward ⟨m, a ++ b ++ d⟩ a.length = (.boundary m :: a).reverse := by
    intro b
    rw [outward, List.append_assoc, List.take_left]
  have hbehind : ∀ b, onward ⟨m, a ++ b ++ d⟩ (a.length + b.length) = d ++ [.boundary m] := by
    intro b
    rw [onward, ← List.length_append, List.drop_left]
  have hspan : ∀ b, c.holds ⟨m, a ++ b ++ d⟩ a.length (a.length + b.length) =
      (c.before.isMatch (.boundary m :: a).reverse 0 &&
        c.behind.isMatch (d ++ [.boundary m]) 0) := by
    intro b
    rw [holds, hbefore, hbehind]
    simp [Word.length]
  rw [hspan, hspan]

end Holds

/-- A condition `left_right` decides whether its left pattern reads up to the span and its right
pattern reads on from behind it. It does not look into the span, and where both patterns can
read nothing, it holds everywhere. -/
theorem holds_iff_reads (htext : trim text.toList = left ++ '_' :: right) (hleft : '!' ∉ left)
    (h : ofText macros text = .ok c) :
    ∃ p q, Pattern.ofText macros (String.ofList left) = .ok p ∧
      Pattern.ofText macros (String.ofList right) = .ok q ∧
      (∀ (w : Word) (first last : Nat), c.holds w first last = true ↔
        first ≤ last ∧ last ≤ w.length ∧
        (∃ k ≤ first + 1, p.Reads macros .right (.boundary w.model :: w.segments.take first) k
          (first + 1)) ∧
        ∃ k, q.Reads macros .right (w.segments.drop last ++ [.boundary w.model]) 0 k) ∧
      (∀ (m : FeatureModel) (a b b' d : List Segment),
        c.holds ⟨m, a ++ b ++ d⟩ a.length (a.length + b.length) =
          c.holds ⟨m, a ++ b' ++ d⟩ a.length (a.length + b'.length)) ∧
      ((∃ target, ∃ i ≤ target.length, p.Reads macros .right target i i) →
        (∃ target, ∃ i ≤ target.length, q.Reads macros .right target i i) →
        ∀ (w : Word) (first last : Nat), first ≤ last → last ≤ w.length →
          c.holds w first last = true) := by
  obtain ⟨hbefore, hbehind⟩ := automata_of_ofText htext h
  obtain ⟨p, hp, hfinds⟩ := Automaton.exists_finds hbefore
  obtain ⟨q, hq, hfinds'⟩ := Automaton.exists_finds hbehind
  have hpositive : p.Positive := Pattern.positive_of_ofText hp (by rwa [String.toList_ofList])
  have hiff : ∀ (w : Word) (first last : Nat), c.holds w first last = true ↔ _ :=
    fun w first last => holds_iff hfinds hpositive hfinds'
  refine ⟨p, q, hp, hq, hiff, c.holds_append, ?_⟩
  intro ⟨t, i, hi, hpi⟩ ⟨t', i', hi', hqi⟩ w first last hle hlast
  have hpnull := (Pattern.reads_self hi).mp hpi
  have hqnull := (Pattern.reads_self hi').mp hqi
  refine (hiff w first last).mpr ⟨hle, hlast, ⟨first + 1, Nat.le_refl _, ?_⟩, 0, ?_⟩
  · refine (Pattern.reads_self ?_).mpr hpnull
    have hfirst : first ≤ w.segments.length := Nat.le_trans hle hlast
    rw [List.length_cons, List.length_take]
    omega
  · exact (Pattern.reads_self (Nat.zero_le _)).mpr hqnull

theorem holds_iff_reads_optional : ∃ c, ofText (.empty .empty) " a*_b?" = .ok c ∧
    c.holds ⟨.empty, [.boundary .empty, .boundary .empty]⟩ 1 2 = true := by
  have htext : trim " a*_b?".toList = "a*".toList ++ '_' :: "b?".toList := by decide
  have hok : (ofText (.empty .empty) " a*_b?").isOk = true := by decide +kernel
  have hnull : ∀ text ∈ ["a*", "b?"], ∀ p, Pattern.ofText (.empty .empty) text = .ok p →
      p.Reads (.empty .empty) .right [] 0 0 := by
    intro text ht p hp
    have hall : ∀ text ∈ ["a*", "b?"], (Pattern.ofText (.empty .empty) text).toOption.all
        (Expression.areNullable (.empty .empty)) = true := by decide +kernel
    have hp' := hall text ht
    rw [hp] at hp'
    exact (Pattern.reads_self (Nat.le_refl 0)).mpr hp'
  cases h : ofText (.empty .empty) " a*_b?" with
  | error =>
    rw [h] at hok
    cases hok
  | ok c =>
    obtain ⟨p, q, hp, hq, -, -, hholds⟩ := holds_iff_reads htext (by decide) h
    refine ⟨c, rfl, hholds ?_ ?_ _ 1 2 (Nat.le_succ 1) (Nat.le_refl 2)⟩
    · exact ⟨[], 0, Nat.le_refl 0, hnull _ (by decide) p hp⟩
    · exact ⟨[], 0, Nat.le_refl 0, hnull _ (by decide) q hq⟩

end Condition

end SoundLaw
