import Mathlib.Data.List.Basic
import SoundLaw.Proofs.Elements
import SoundLaw.Proofs.Models
import SoundLaw.Proofs.Scan

/-!
# Rules on single segments

A rule whose sources are single elements, each of which reads one segment, and which has no
environment, cannot tell where in a word it is. It changes every segment by itself, whatever the
targets are, so its output is the images of the segments in a row. Such a rule is a homomorphism
of words.
-/

namespace SoundLaw
set_option autoImplicit false

namespace Element
variable {e : Element} {word done rest : List Segment} {s : Segment}

/-- Reads one segment at a time. -/
def IsSingle : Element → Prop
  | named _ alternatives => ∀ run ∈ alternatives, run.length = 1
  | literal _ | wildcard => True

instance (e : Element) : Decidable e.IsSingle :=
  match e with
  | named _ alternatives => inferInstanceAs (Decidable (∀ run ∈ alternatives, run.length = 1))
  | literal _ | wildcard => .isTrue trivial

theorem matchesAt_append (run : List Segment) :
    matchesAt (done ++ rest) done.length run = matchesAt rest 0 run := by
  simp [matchesAt]

theorem matchesAt_cons_of_length {run : List Segment} (h : run.length = 1) :
    matchesAt (s :: rest) 0 run = matchesAt [s] 0 run := by
  obtain ⟨t, rfl⟩ := List.length_eq_one_iff.mp h
  simp [matchesAt, beginsWith]

theorem readingsOf_single {runs : List (List Segment)} (h : ∀ run ∈ runs, run.length = 1)
    (index : Nat) :
    readingsOf (done ++ s :: rest) done.length index runs =
      (readingsOf [s] 0 index runs).map fun r => ⟨done.length + 1, r.choice⟩ := by
  induction runs generalizing index with
  | nil => rfl
  | cons run runs ih =>
    have hrun : run.length = 1 := h run List.mem_cons_self
    have hruns := ih fun run hmem => h run (List.mem_cons_of_mem _ hmem)
    rw [readingsOf, readingsOf, matchesAt_append, matchesAt_cons_of_length hrun, hruns, hrun]
    split
    · rfl
    · rfl

theorem readings_single (he : e.IsSingle) :
    e.readings (done ++ s :: rest) done.length =
      (e.readings [s] 0).map fun r => ⟨done.length + 1, r.choice⟩ := by
  cases e with
  | literal t =>
    have hmatch : matchesAt (done ++ s :: rest) done.length [t] = matchesAt [s] 0 [t] :=
      (matchesAt_append [t]).trans (matchesAt_cons_of_length rfl)
    rw [readings, readings, hmatch]
    split
    · rfl
    · rfl
  | named name alternatives => exact readingsOf_single he 0
  | wildcard =>
    simp only [readings, List.getElem?_append_right (Nat.le_refl _), Nat.sub_self,
      List.getElem?_cons_zero]
    split
    · rfl
    · rfl

theorem stop_of_mem_readings (he : e.IsSingle) {pos : Nat} {r : Reading}
    (h : r ∈ e.readings word pos) : r.stop = pos + 1 := by
  cases e with
  | literal t =>
    rw [readings] at h
    split at h
    · rw [List.mem_singleton.mp h]
    · cases h
  | named name alternatives =>
    obtain ⟨k, run, hk, -, rfl⟩ := mem_readingsOf.mp h
    exact congrArg (pos + ·) (he run (List.mem_of_getElem? hk))
  | wildcard =>
    simp only [readings] at h
    split at h
    · split at h
      · cases h
      · rw [List.mem_singleton.mp h]
    · cases h

theorem readings_end (he : e.IsSingle) : e.readings word word.length = [] := by
  refine List.eq_nil_iff_forall_not_mem.mpr fun r hr => ?_
  have hstop := stop_of_mem_readings he hr
  have hle := (readings_bounds hr).2
  omega

end Element

/-! ### Changes -/

namespace Capture

def ofSegment (pos : Nat) (choice : Option Nat) : Capture := ⟨pos, pos + 1, choice⟩

theorem run_ofSegment (done rest : List Segment) (s : Segment) (choice : Option Nat) :
    (ofSegment done.length choice).run (done ++ s :: rest) = [s] := by
  simp [run, ofSegment]

end Capture

theorem TargetItem.render_ofSegment (done rest : List Segment) (s : Segment)
    (choice : Option Nat) (item : TargetItem) :
    item.render (done ++ s :: rest) [.ofSegment done.length choice] =
      item.render [s] [.ofSegment 0 choice] := by
  have hrun : (Capture.ofSegment 0 choice).run [s] = [s] := Capture.run_ofSegment [] [] s choice
  cases item with
  | literal t => rfl
  | repeated index => cases index <;> simp [render, Capture.run_ofSegment, hrun]
  | counterpart index alternatives =>
    cases index with
    | zero =>
      simp only [render, List.getElem?_cons_zero, Capture.run_ofSegment, hrun]
      rfl
    | succ index => rfl
  | overwritten index bundle => cases index <;> simp [render, Capture.run_ofSegment, hrun]

namespace Change
variable {c : Change} {e : Element} {word done rest : List Segment} {s : Segment}

/-- The source is one element, and that reads one segment at a time. -/
def IsSingle (c : Change) : Prop := ∃ e, c.source = [e] ∧ e.IsSingle

theorem isSingle_iff : c.IsSingle ↔ c.source.length = 1 ∧ ∀ e ∈ c.source, e.IsSingle := by
  constructor
  · intro ⟨e, hsource, he⟩
    rw [hsource]
    exact ⟨rfl, fun x hx => List.mem_singleton.mp hx ▸ he⟩
  · intro ⟨hlength, hall⟩
    obtain ⟨e, hsource⟩ := List.length_eq_one_iff.mp hlength
    exact ⟨e, hsource, hall e (hsource ▸ List.mem_cons_self)⟩

instance (c : Change) : Decidable c.IsSingle := decidable_of_iff _ isSingle_iff.symm

theorem candidates_single (hsource : c.source = [e]) (he : e.IsSingle) :
    c.candidates (done ++ s :: rest) done.length = (e.readings [s] 0).map fun r =>
      ⟨done.length + 1, [.ofSegment done.length r.choice]⟩ := by
  have hways : waysToRead (done ++ s :: rest) c.source done.length =
      (e.readings [s] 0).map fun r => ⟨done.length + 1, [.ofSegment done.length r.choice]⟩ := by
    rw [hsource, waysToRead, Element.readings_single he, List.flatMap_map]
    exact List.map_eq_flatMap.symm
  -- all candidates are equally long, so sorting leaves them as they are
  rw [candidates, hways, List.mergeSort_of_pairwise]
  rw [List.pairwise_map]
  exact List.pairwise_of_forall fun _ _ => decide_eq_true (Nat.le_refl _)

theorem candidates_alone (hsource : c.source = [e]) (he : e.IsSingle) :
    c.candidates [s] 0 = (e.readings [s] 0).map fun r => ⟨1, [.ofSegment 0 r.choice]⟩ := by
  have halone : c.candidates ([] ++ s :: []) ([] : List Segment).length = _ :=
    candidates_single hsource he
  exact halone

theorem render_ofSegment (c : Change) (done rest : List Segment) (s : Segment)
    (choice : Option Nat) :
    c.render (done ++ s :: rest) [.ofSegment done.length choice] =
      c.render [s] [.ofSegment 0 choice] :=
  congrArg (c.target.flatMap ·) (funext (TargetItem.render_ofSegment done rest s choice))

def image? (c : Change) (s : Segment) : Option (List Segment) :=
  (c.candidates [s] 0).head?.map fun k => c.render [s] k.captures

/-- A change of single segments does with a segment in a word what it does with the segment by
itself. -/
theorem IsSingle.head?_candidates (hc : c.IsSingle) :
    ((c.candidates (done ++ s :: rest) done.length).head?.map fun k =>
      Replacement.mk k.stop (c.render (done ++ s :: rest) k.captures)) =
      (c.image? s).map (Replacement.mk (done.length + 1)) := by
  obtain ⟨e, hsource, he⟩ := hc
  rw [image?, candidates_alone hsource he, candidates_single hsource he]
  cases e.readings [s] 0 with
  | nil => rfl
  | cons r readings =>
    exact congrArg (fun run => some (Replacement.mk (done.length + 1) run))
      (c.render_ofSegment done rest s r.choice)

theorem IsSingle.candidates_end (hc : c.IsSingle) : c.candidates word word.length = [] := by
  obtain ⟨e, hsource, he⟩ := hc
  have hways : waysToRead word c.source word.length = [] := by
    rw [hsource, waysToRead, Element.readings_end he]
    rfl
  rw [candidates, hways, List.mergeSort_nil]

end Change

/-! ### Rules -/

theorem Environment.holds_of_isUnconditional {e : Environment} (h : e.isUnconditional = true)
    (w : Word) (first last : Nat) : e.holds w first last = true := by
  simp only [isUnconditional, Bool.and_eq_true, List.isEmpty_iff] at h
  simp [holds, h]

namespace Rule

/-- Every change is of single segments, and no environment restricts it. -/
structure IsLocal (r : Rule) : Prop where
  unconditional : r.environment.isUnconditional = true
  single : ∀ c ∈ r.changes, c.IsSingle

def image (r : Rule) (s : Segment) : List Segment :=
  (r.changes.findSome? (·.image? s)).getD [s]

variable {r : Rule} {m : FeatureModel} {done rest : List Segment} {s : Segment}

theorem licensed?_of_isUnconditional (h : r.environment.isUnconditional = true) (w : Word)
    (pos : Nat) (c : Change) : r.licensed? w pos c = (c.candidates w.segments pos).head? := by
  have hholds : (fun k : Candidate => r.environment.holds w pos k.stop) = fun _ => true :=
    funext fun k => Environment.holds_of_isUnconditional h w pos k.stop
  rw [licensed?, hholds]
  cases c.candidates w.segments pos with
  | nil => rfl
  | cons k candidates => rfl

theorem IsLocal.replacement?_cons (hr : r.IsLocal) :
    r.replacement? ⟨m, done ++ s :: rest⟩ done.length =
      (r.changes.findSome? (·.image? s)).map (Replacement.mk (done.length + 1)) := by
  rw [List.map_findSome?, replacement?, ← List.head?_filterMap, ← List.head?_filterMap]
  refine congrArg List.head? (List.filterMap_congr fun c hc => ?_)
  rw [licensed?_of_isUnconditional hr.unconditional]
  exact (hr.single c hc).head?_candidates

theorem IsLocal.replacement?_end (hr : r.IsLocal) (segments : List Segment) :
    r.replacement? ⟨m, segments⟩ segments.length = none := by
  refine List.findSome?_eq_none_iff.mpr fun c hc => ?_
  rw [licensed?_of_isUnconditional hr.unconditional, (hr.single c hc).candidates_end]
  rfl

theorem IsLocal.walk_append (hr : r.IsLocal) (done rest : List Segment) :
    r.walk m (done ++ rest) done.length = done ++ rest.flatMap r.image := by
  induction rest generalizing done with
  | nil =>
    rw [List.append_nil, walk_of_replacement?_none (Nat.le_refl _) (hr.replacement?_end done),
      walk_of_gt (Nat.lt_succ_self _), List.flatMap_nil, List.append_nil]
  | cons s rest ih =>
    have hpos : done.length ≤ (done ++ s :: rest).length := by simp
    have hreplace : r.replacement? ⟨m, done ++ s :: rest⟩ done.length = _ := hr.replacement?_cons
    rw [List.flatMap_cons]
    cases himage : r.changes.findSome? (·.image? s) with
    | none =>
      rw [himage] at hreplace
      have hrest := ih (done ++ [s])
      rw [List.append_assoc, List.length_append] at hrest
      rw [walk_of_replacement?_none hpos hreplace]
      simpa [image, himage] using hrest
    | some run =>
      rw [himage] at hreplace
      have hrest := ih (done ++ run)
      rw [List.length_append] at hrest
      rw [walk_of_replacement?_some hpos hreplace, spliceRun_append (Nat.le_succ _)]
      simpa [stride, image, himage] using hrest

theorem IsLocal.apply_eq (hr : r.IsLocal) {w : Word} (hmodel : w.model.same r.model = true) :
    r.apply w = { w with segments := w.segments.flatMap r.image } := by
  have hwalk : r.walk w.model w.segments 0 = w.segments.flatMap r.image :=
    hr.walk_append [] w.segments
  rw [apply, if_pos hmodel, hwalk]

end Rule

theorem Word.append_eq_ok {u v : Word} (h : u.model.same v.model = true) :
    u.append v = .ok { u with segments := u.segments ++ v.segments } := by
  refine Call.outcome_of_ok (a := ()) ?_
  rw [appending, run_checking_bind, check, if_pos h]
  rfl

namespace Rule

/-- Without an environment, a rule on single segments is a homomorphism of words. -/
theorem apply_append {r : Rule} (henvironment : r.environment.isUnconditional = true)
    (hsource : ∀ c ∈ r.changes, c.IsSingle) :
    (∀ u v : Word, u.model.same r.model = true → v.model.same r.model = true →
      ∃ uv, u.append v = .ok uv ∧ (r.apply u).append (r.apply v) = .ok (r.apply uv)) ∧
    ∀ m : FeatureModel, r.apply ⟨m, []⟩ = ⟨m, []⟩ := by
  have hr : r.IsLocal := ⟨henvironment, hsource⟩
  constructor
  · intro u v hu hv
    have huv : u.model.same v.model = true := by
      rw [FeatureModel.same_iff] at hu hv ⊢
      exact hu.trans hv.symm
    refine ⟨_, Word.append_eq_ok huv, ?_⟩
    have happly : r.apply { u with segments := u.segments ++ v.segments } = _ := hr.apply_eq hu
    rw [hr.apply_eq hu, hr.apply_eq hv, happly, List.flatMap_append]
    exact Word.append_eq_ok huv
  · intro m
    by_cases hm : m.same r.model = true
    · exact hr.apply_eq hm
    · exact if_neg hm

theorem apply_append_vowels :
    let vowels : MacroTable := ⟨.empty, [("V", ["a", "e"].map ([FeatureModel.empty.resolve ·]))]⟩
    let u : Word := ⟨.empty, ["a", "p"].map FeatureModel.empty.resolve⟩
    let v : Word := ⟨.empty, ["p", "t", "e"].map FeatureModel.empty.resolve⟩
    ∃ r, ofText vowels "V p . > $V1x 0 $1$1" = .ok r ∧
      ∃ uv, u.append v = .ok uv ∧ (r.apply u).append (r.apply v) = .ok (r.apply uv) := by
  intro vowels u v
  have hok : ((ofText vowels "V p . > $V1x 0 $1$1").toOption.any fun r =>
      r.environment.isUnconditional && decide (∀ c ∈ r.changes, c.IsSingle)
        && FeatureModel.empty.same r.model) = true := by decide +kernel
  cases h : ofText vowels "V p . > $V1x 0 $1$1" with
  | error =>
    rw [h] at hok
    cases hok
  | ok r =>
    rw [h] at hok
    simp only [Except.toOption, Option.any_some, Bool.and_eq_true, decide_eq_true_eq] at hok
    exact ⟨r, rfl, (apply_append hok.1.1 hok.1.2).1 u v hok.2 hok.2⟩

end Rule

end SoundLaw
