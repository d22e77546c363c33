import Mathlib.Data.List.Chain
import SoundLaw.Proofs.Elements
import SoundLaw.Rule.Application

/-!
# The candidates of a change

A source is read element by element, each behind the one before. The candidates at a position
are all the ways to do so, each of them once. Longer ones come first, and of those that end at
the same place the one with the earlier alternatives. The sort by length is stable and the ways
are enumerated with the first element varying slowest, so this order is lexicographic.

A rule takes the first candidate that its environment licenses. Hence it makes the first of its
changes that is licensed anywhere, over the longest licensed span, with the earliest choice of
alternatives for that span.
-/

namespace SoundLaw
set_option autoImplicit false

/-! ### Sorting by a number -/

section Sorting
variable {α : Type} (f : α → Nat)

theorem descending_trans (a b c : α) (hab : decide (f b ≤ f a) = true)
    (hbc : decide (f c ≤ f b) = true) : decide (f c ≤ f a) = true := by
  simp only [decide_eq_true_eq] at hab hbc ⊢
  exact Nat.le_trans hbc hab

theorem descending_total (a b : α) : (decide (f b ≤ f a) || decide (f a ≤ f b)) = true := by
  simp only [Bool.or_eq_true, decide_eq_true_eq]
  exact Nat.le_total _ _

/-- Sorting leaves the entries with the same number in their order. -/
theorem filter_mergeSort_descending (xs : List α) (n : Nat) :
    (xs.mergeSort fun a b => f b ≤ f a).filter (f · = n) = xs.filter (f · = n) := by
  have hmem : ∀ x ∈ xs.filter (f · = n), f x = n := fun x hx =>
    of_decide_eq_true (List.mem_filter.mp hx).2
  have hsorted : (xs.filter (f · = n)).Pairwise fun a b => decide (f b ≤ f a) = true := by
    refine List.pairwise_of_forall_mem_list fun a ha b hb => ?_
    rw [hmem a ha, hmem b hb]
    exact decide_eq_true (Nat.le_refl n)
  have hsublist := (List.sublist_mergeSort (descending_trans f) (descending_total f) hsorted
    List.filter_sublist).filter (f · = n)
  rw [List.filter_filter] at hsublist
  simp only [Bool.and_self] at hsublist
  have hperm := (List.mergeSort_perm xs fun a b => decide (f b ≤ f a)).filter (f · = n)
  exact (hsublist.eq_of_length hperm.length_eq.symm).symm

end Sorting

/-- The first entry of an ordered list with a property comes before all the others that have it. -/
theorem find?_eq_some_iff_of_pairwise {α : Type} {R : α → α → Prop} {p : α → Bool} {xs : List α}
    {x : α} (hxs : xs.Pairwise R) (hasymm : ∀ a b, R a b → ¬ R b a) :
    xs.find? p = some x ↔ x ∈ xs ∧ p x = true ∧ ∀ y ∈ xs, p y = true → y = x ∨ R x y := by
  rw [List.find?_eq_some_iff_append]
  constructor
  · rintro ⟨hx, before, after, rfl, hbefore⟩
    refine ⟨List.mem_append_right _ List.mem_cons_self, hx, fun y hy hp => ?_⟩
    rcases List.mem_append.mp hy with hy | hy
    · have hnot := hbefore y hy
      rw [hp] at hnot
      cases hnot
    · rcases List.mem_cons.mp hy with rfl | hy
      · exact .inl rfl
      · exact .inr (List.rel_of_pairwise_cons (List.pairwise_append.mp hxs).2.1 hy)
  · rintro ⟨hmem, hx, hfirst⟩
    obtain ⟨before, after, rfl⟩ := List.append_of_mem hmem
    refine ⟨hx, before, after, rfl, fun y hy => ?_⟩
    have hyx := (List.pairwise_append.mp hxs).2.2 y hy x List.mem_cons_self
    rw [Bool.not_eq_true', Bool.eq_false_iff]
    intro hp
    rcases hfirst y (List.mem_append_left _ hy) hp with rfl | hxy
    · exact hasymm y y hyx hyx
    · exact hasymm y x hyx hxy

/-! ### Ways to read a source -/

namespace Candidate

/-- The captures lie one behind the other from a position on, and each of them is a reading of
the element in its place. -/
structure Reads (k : Candidate) (word : List Segment) (source : List Element) (start : Nat) :
    Prop where
  length : k.captures.length = source.length
  first : ∀ c ∈ k.captures.head?, c.first = start
  next : k.captures.IsChain fun a b => b.first = a.last
  reading : ∀ (i : Nat) (e : Element) (c : Capture), source[i]? = some e →
    k.captures[i]? = some c → ⟨c.last, c.choice⟩ ∈ e.readings word c.first
  stop : k.stop = (k.captures.getLast?.map Capture.last).getD start

def choices (k : Candidate) : List Nat := k.captures.filterMap Capture.choice

/-- Longer, or as long with an earlier choice of alternatives. -/
def Precedes (a b : Candidate) : Prop :=
  b.stop < a.stop ∨ a.stop = b.stop ∧ a.choices < b.choices

theorem Precedes.asymm {a b : Candidate} (h : a.Precedes b) : ¬ b.Precedes a := by
  rintro (hlt | ⟨heq, hlex⟩)
  · rcases h with hlt' | ⟨heq, -⟩
    · exact Nat.lt_asymm hlt hlt'
    · exact Nat.ne_of_lt hlt heq
  · rcases h with hlt | ⟨-, hlex'⟩
    · exact Nat.ne_of_lt hlt heq
    · exact List.lt_asymm hlex hlex'

variable {word : List Segment} {e : Element} {source : List Element} {start : Nat}

theorem reads_nil {k : Candidate} : k.Reads word [] start ↔ k = ⟨start, []⟩ := by
  constructor
  · intro h
    obtain ⟨stop, captures⟩ := k
    obtain rfl : captures = [] := List.eq_nil_of_length_eq_zero h.length
    rw [show stop = start from h.stop]
  · rintro rfl
    exact ⟨rfl, nofun, .nil, nofun, rfl⟩

theorem reads_cons {k : Candidate} : k.Reads word (e :: source) start ↔
    ∃ r ∈ e.readings word start, ∃ rest : Candidate, rest.Reads word source r.stop ∧
      k = { rest with captures := ⟨start, r.stop, r.choice⟩ :: rest.captures } := by
  constructor
  · intro h
    obtain ⟨stop, captures⟩ := k
    obtain ⟨c, captures, rfl⟩ := List.exists_cons_of_length_eq_add_one h.length
    obtain rfl : c.first = start := h.first c rfl
    have hnext := List.isChain_cons.mp h.next
    refine ⟨⟨c.last, c.choice⟩, h.reading 0 e c rfl rfl, ⟨stop, captures⟩, ?_, rfl⟩
    refine ⟨Nat.succ.inj h.length, hnext.1, hnext.2,
      fun i e' c' he hc => h.reading (i + 1) e' c' he hc, ?_⟩
    have hstop := h.stop
    cases captures with
    | nil => exact hstop
    | cons c' captures => exact hstop
  · rintro ⟨r, hr, rest, hrest, rfl⟩
    refine ⟨congrArg Nat.succ hrest.length, ?_, List.isChain_cons.mpr ⟨hrest.first, hrest.next⟩,
      ?_, ?_⟩
    · intro c hc
      rw [← Option.some.inj hc]
    · intro i e' c he hc
      cases i with
      | zero =>
        obtain rfl := Option.some.inj he
        obtain rfl := Option.some.inj hc
        exact hr
      | succ i => exact hrest.reading i e' c he hc
    · have hstop := hrest.stop
      cases hcaptures : rest.captures with
      | nil =>
        rw [hcaptures] at hstop
        exact hstop
      | cons c captures =>
        rw [hcaptures] at hstop
        exact hstop

end Candidate

theorem Element.pairwise_readings (e : Element) (word : List Segment) (pos : Nat) :
    (e.readings word pos).Pairwise fun r r' =>
      ∃ m n, r.choice = some m ∧ r'.choice = some n ∧ m < n := by
  cases e with
  | literal s =>
    rw [readings]
    split
    · exact List.pairwise_singleton _ _
    · exact .nil
  | named name alternatives =>
    rw [readings]
    generalize 0 = index
    induction alternatives generalizing index with
    | nil => exact .nil
    | cons run runs ih =>
      rw [readingsOf]
      split
      · refine .cons (fun r hr => ?_) (ih (index + 1))
        obtain ⟨k, _, _, _, rfl⟩ := mem_readingsOf.mp hr
        exact ⟨index, index + 1 + k, rfl, rfl, by omega⟩
      · exact ih (index + 1)
  | wildcard =>
    rw [readings]
    split
    · split
      · exact .nil
      · exact List.pairwise_singleton _ _
    · exact .nil

namespace Change
variable {word : List Segment} {source : List Element} {start : Nat} {k : Candidate}

theorem mem_waysToRead : k ∈ waysToRead word source start ↔ k.Reads word source start := by
  induction source generalizing start k with
  | nil => rw [waysToRead, List.mem_singleton, Candidate.reads_nil]
  | cons e source ih =>
    simp only [waysToRead, List.mem_flatMap, List.mem_map, ih, Candidate.reads_cons]
    refine exists_congr fun r => and_congr_right fun _ => exists_congr fun rest => ?_
    exact and_congr_right fun _ => eq_comm

theorem pairwise_waysToRead (word : List Segment) (source : List Element) (start : Nat) :
    (waysToRead word source start).Pairwise fun a b => a.choices < b.choices := by
  induction source generalizing start with
  | nil => exact List.pairwise_singleton _ _
  | cons e source ih =>
    rw [waysToRead, List.pairwise_flatMap]
    constructor
    · intro r _
      rw [List.pairwise_map]
      refine (ih r.stop).imp fun {a b} hab => ?_
      cases hchoice : r.choice with
      | none => simpa [Candidate.choices] using hab
      | some n => simpa [Candidate.choices, List.cons_lt_cons_iff] using hab
    · refine (e.pairwise_readings word start).imp ?_
      rintro r r' ⟨m, n, hr, hr', hlt⟩ _ ha _ hb
      obtain ⟨a, _, rfl⟩ := List.mem_map.mp ha
      obtain ⟨b, _, rfl⟩ := List.mem_map.mp hb
      simp [Candidate.choices, hr, hr', List.cons_lt_cons_iff, hlt]

theorem mem_candidates {c : Change} : k ∈ c.candidates word start ↔ k.Reads word c.source start :=
  List.mem_mergeSort.trans mem_waysToRead

theorem pairwise_candidates (c : Change) (word : List Segment) (start : Nat) :
    (c.candidates word start).Pairwise Candidate.Precedes := by
  have hstops : (c.candidates word start).Pairwise fun a b => b.stop ≤ a.stop :=
    (List.pairwise_mergeSort (descending_trans Candidate.stop)
      (descending_total Candidate.stop) _).imp of_decide_eq_true
  rw [List.pairwise_iff_forall_sublist] at hstops ⊢
  intro a b hab
  rcases Nat.lt_or_eq_of_le (hstops hab) with hlt | heq
  · exact .inl hlt
  · -- candidates of the same length are still in the order of the enumeration
    have hkeep : [a, b].filter (fun k => k.stop = b.stop) = [a, b] := by simp [heq]
    have hclass := hab.filter fun k => k.stop = b.stop
    rw [hkeep, candidates, filter_mergeSort_descending Candidate.stop] at hclass
    have hpair := hclass.trans List.filter_sublist
    have hways := pairwise_waysToRead word c.source start
    exact .inr ⟨heq.symm, List.pairwise_iff_forall_sublist.mp hways hpair⟩

end Change

/-! ### The choice of a rule -/

namespace Rule
variable {r : Rule} {w : Word} {pos : Nat} {c : Change} {k : Candidate}

/-- What a change reads over a span that the environment licenses. -/
def Licenses (r : Rule) (w : Word) (pos : Nat) (c : Change) (k : Candidate) : Prop :=
  k.Reads w.segments c.source pos ∧ r.environment.holds w pos k.stop = true

theorem licensed?_eq_some_iff : r.licensed? w pos c = some k ↔
    r.Licenses w pos c k ∧ ∀ j, r.Licenses w pos c j → j = k ∨ k.Precedes j := by
  rw [licensed?, find?_eq_some_iff_of_pairwise (c.pairwise_candidates w.segments pos)
    fun _ _ h => h.asymm]
  simp only [Change.mem_candidates, Licenses, and_assoc, and_imp]

theorem licensed?_eq_none_iff :
    r.licensed? w pos c = none ↔ ∀ k, ¬ r.Licenses w pos c k := by
  rw [licensed?, List.find?_eq_none]
  simp only [Change.mem_candidates, Licenses, not_and]

theorem replacement?_eq_some_iff {x : Replacement} : r.replacement? w pos = some x ↔
    ∃ before c after k, r.changes = before ++ c :: after ∧
      (∀ d ∈ before, ∀ j, ¬ r.Licenses w pos d j) ∧ r.Licenses w pos c k ∧
      (∀ j, r.Licenses w pos c j → j = k ∨ k.Precedes j) ∧
      x = ⟨k.stop, c.render w.segments k.captures⟩ := by
  rw [replacement?, List.findSome?_eq_some_iff]
  simp only [Option.map_eq_some_iff, Option.map_eq_none_iff, licensed?_eq_some_iff,
    licensed?_eq_none_iff]
  constructor
  · rintro ⟨before, c, after, hchanges, ⟨k, ⟨hk, hfirst⟩, rfl⟩, hbefore⟩
    exact ⟨before, c, after, k, hchanges, hbefore, hk, hfirst, rfl⟩
  · rintro ⟨before, c, after, k, hchanges, hbefore, hk, hfirst, rfl⟩
    exact ⟨before, c, after, hchanges, ⟨k, ⟨hk, hfirst⟩, rfl⟩, hbefore⟩

theorem replacement?_eq_none_iff :
    r.replacement? w pos = none ↔ ∀ c ∈ r.changes, ∀ k, ¬ r.Licenses w pos c k := by
  rw [replacement?, List.findSome?_eq_none_iff]
  simp only [Option.map_eq_none_iff, licensed?_eq_none_iff]

/-- The candidates of a change are its readings, each of them once, longer ones first and those
of the same length in the order of their alternatives. A rule replaces what the first of its
changes with a licensed span reads, over the longest such span and with the first choice of
alternatives for it. -/
theorem replacement?_first (r : Rule) (w : Word) (pos : Nat) :
    (∀ (c : Change) (word : List Segment) (start : Nat),
      (∀ k, k ∈ c.candidates word start ↔ k.Reads word c.source start) ∧
        (c.candidates word start).Nodup ∧
        (c.candidates word start).Pairwise Candidate.Precedes) ∧
    (∀ x, r.replacement? w pos = some x ↔ ∃ before c after k,
      r.changes = before ++ c :: after ∧ (∀ d ∈ before, ∀ j, ¬ r.Licenses w pos d j) ∧
        r.Licenses w pos c k ∧ (∀ j, r.Licenses w pos c j → j = k ∨ k.Precedes j) ∧
        x = ⟨k.stop, c.render w.segments k.captures⟩) ∧
    (r.replacement? w pos = none ↔ ∀ c ∈ r.changes, ∀ k, ¬ r.Licenses w pos c k) := by
  refine ⟨fun c word start => ⟨fun k => Change.mem_candidates, ?_,
    c.pairwise_candidates word start⟩, fun x => replacement?_eq_some_iff,
    replacement?_eq_none_iff⟩
  refine (c.pairwise_candidates word start).imp ?_
  rintro a _ hab rfl
  exact hab.asymm hab

end Rule

end SoundLaw
