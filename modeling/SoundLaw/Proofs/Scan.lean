import Mathlib.Logic.Relation
import SoundLaw.Rule.Application

/-!
# A single pass

What the walk of a rule through a word amounts to can be said without positions. There is an
output, which is only ever added to, and a rest of the input, which has not been touched. Each
step takes a part of the rest away and puts its replacement at the end of the output.
-/

namespace SoundLaw
set_option autoImplicit false

/-- A part of the input, and what the output has in its place. -/
structure Piece where
  taken : List Segment
  put : List Segment

namespace Rule

/-- Every way to make a change at a position: change by change, and longer ones first. -/
def options (r : Rule) (word : List Segment) (pos : Nat) : List (Change × Candidate) :=
  r.changes.flatMap fun c => (c.candidates word pos).map (c, ·)

/-- The first way that the environment licenses. -/
def choice? (r : Rule) (w : Word) (pos : Nat) : Option (Change × Candidate) :=
  (r.options w.segments pos).find? fun x => r.environment.holds w pos x.2.stop

section Choice
variable {r : Rule} {w : Word} {pos : Nat} {c : Change} {k : Candidate}

theorem replacement?_eq (r : Rule) (w : Word) (pos : Nat) :
    r.replacement? w pos = (r.choice? w pos).map fun x =>
      ⟨x.2.stop, x.1.render w.segments x.2.captures⟩ := by
  unfold replacement? choice? options licensed?
  induction r.changes with
  | nil => rfl
  | cons c changes ih =>
    rw [List.findSome?_cons, List.flatMap_cons, List.find?_append, List.find?_map]
    have hcomp : (fun x : Change × Candidate => r.environment.holds w pos x.2.stop) ∘ (c, ·) =
        fun k : Candidate => r.environment.holds w pos k.stop := rfl
    rw [hcomp]
    cases (c.candidates w.segments pos).find? fun k => r.environment.holds w pos k.stop with
    | none => exact ih
    | some k => rfl

theorem replacement?_of_none (h : r.choice? w pos = none) : r.replacement? w pos = none := by
  rw [replacement?_eq, h]
  rfl

theorem replacement?_of_some (h : r.choice? w pos = some (c, k)) :
    r.replacement? w pos = some ⟨k.stop, c.render w.segments k.captures⟩ := by
  rw [replacement?_eq, h]
  rfl

theorem choice?_append_bounds {m : FeatureModel} {done rest : List Segment}
    (h : r.choice? ⟨m, done ++ rest⟩ done.length = some (c, k)) :
    done.length ≤ k.stop ∧ k.stop ≤ done.length + rest.length := by
  have hlength : (Word.mk m (done ++ rest)).length = done.length + rest.length :=
    List.length_append
  have hpos : done.length ≤ (Word.mk m (done ++ rest)).length := by
    rw [hlength]
    exact Nat.le_add_right _ _
  have hbounds := replacement?_bounds hpos (replacement?_of_some h)
  rwa [hlength] at hbounds

end Choice

/-- The output of a pass, given what has been put out so far and the rest of the input. -/
def scan (r : Rule) (m : FeatureModel) (done rest : List Segment) : List Segment :=
  match h : r.choice? ⟨m, done ++ rest⟩ done.length with
  | some (c, k) =>
    let run := c.render (done ++ rest) k.captures
    if k.stop = done.length then
      match rest with
      | [] => done ++ run
      | s :: rest => r.scan m (done ++ run ++ [s]) rest
    else
      have := choice?_append_bounds h
      r.scan m (done ++ run) (rest.drop (k.stop - done.length))
  | none =>
    match rest with
    | [] => done
    | s :: rest => r.scan m (done ++ [s]) rest
termination_by rest.length
decreasing_by
  · simp
  · simp only [List.length_drop]
    omega
  · simp

section Scan
variable {r : Rule} {m : FeatureModel} {done rest : List Segment} {s : Segment}
variable {c : Change} {k : Candidate}

theorem scan_of_none (h : r.choice? ⟨m, done ++ s :: rest⟩ done.length = none) :
    r.scan m done (s :: rest) = r.scan m (done ++ [s]) rest := by
  rw [scan]
  split
  · rename_i hk
    cases hk.symm.trans h
  · rfl

theorem scan_nil_of_none (h : r.choice? ⟨m, done ++ []⟩ done.length = none) :
    r.scan m done [] = done := by
  rw [scan]
  split
  · rename_i hk
    cases hk.symm.trans h
  · rfl

theorem scan_of_insertion (h : r.choice? ⟨m, done ++ s :: rest⟩ done.length = some (c, k))
    (hstop : k.stop = done.length) :
    r.scan m done (s :: rest) =
      r.scan m (done ++ c.render (done ++ s :: rest) k.captures ++ [s]) rest := by
  rw [scan]
  split
  · rename_i hk
    cases hk.symm.trans h
    rw [if_pos hstop]
  · rename_i hk
    cases hk.symm.trans h

theorem scan_nil_of_insertion (h : r.choice? ⟨m, done ++ []⟩ done.length = some (c, k))
    (hstop : k.stop = done.length) :
    r.scan m done [] = done ++ c.render (done ++ []) k.captures := by
  rw [scan]
  split
  · rename_i hk
    cases hk.symm.trans h
    rw [if_pos hstop]
  · rename_i hk
    cases hk.symm.trans h

theorem scan_of_replacement (h : r.choice? ⟨m, done ++ rest⟩ done.length = some (c, k))
    (hstop : k.stop ≠ done.length) :
    r.scan m done rest =
      r.scan m (done ++ c.render (done ++ rest) k.captures) (rest.drop (k.stop - done.length)) := by
  rw [scan]
  split
  · rename_i hk
    cases hk.symm.trans h
    rw [if_neg hstop]
  · rename_i hk
    cases hk.symm.trans h

end Scan

/-! ### The walk -/

section Walk
variable {r : Rule} {m : FeatureModel} {segments done rest : List Segment} {pos : Nat}
variable {c : Change} {k : Candidate}

theorem walk_of_gt (h : segments.length < pos) : r.walk m segments pos = segments := by
  rw [walk, dif_neg (Nat.not_le_of_lt h)]

theorem walk_of_replacement?_none (hpos : pos ≤ segments.length)
    (h : r.replacement? ⟨m, segments⟩ pos = none) :
    r.walk m segments pos = r.walk m segments (pos + 1) := by
  rw [walk, dif_pos hpos]
  split
  · rfl
  · rename_i hx
    cases hx.symm.trans h

theorem walk_of_replacement?_some {x : Replacement} (hpos : pos ≤ segments.length)
    (h : r.replacement? ⟨m, segments⟩ pos = some x) :
    r.walk m segments pos =
      r.walk m (Word.spliceRun segments pos x.stop x.run) (pos + stride pos x) := by
  rw [walk, dif_pos hpos]
  split
  · rename_i hx
    cases hx.symm.trans h
  · rename_i hx
    cases hx.symm.trans h
    rfl

theorem spliceRun_append {stop : Nat} {run : List Segment} (h : done.length ≤ stop) :
    Word.spliceRun (done ++ rest) done.length stop run =
      done ++ run ++ rest.drop (stop - done.length) := by
  rw [Word.spliceRun, List.take_left, List.drop_append, List.drop_eq_nil_of_le h, List.nil_append]

/-- A walk is a pass over what is behind its position. -/
theorem walk_append (r : Rule) (m : FeatureModel) (done rest : List Segment) :
    r.walk m (done ++ rest) done.length = r.scan m done rest := by
  have hpos : ∀ done rest : List Segment, done.length ≤ (done ++ rest).length := by
    intro done rest
    simp
  fun_induction scan r m done rest with
  | case1 done c k hstop h run =>
    rw [walk_of_replacement?_some (hpos done []) (replacement?_of_some h),
      spliceRun_append (Nat.le_of_eq hstop.symm), walk_of_gt]
    · simp [run]
    · simp [stride, hstop]
  | case2 done c k hstop s rest h run ih =>
    rw [walk_of_replacement?_some (hpos done (s :: rest)) (replacement?_of_some h),
      spliceRun_append (Nat.le_of_eq hstop.symm), ← ih]
    simp [stride, hstop, run]
  | case3 done rest c k h run hstop hbounds ih =>
    rw [walk_of_replacement?_some (hpos done rest) (replacement?_of_some h),
      spliceRun_append hbounds.1, ← ih]
    simp [stride, hstop, run]
  | case4 done h =>
    rw [walk_of_replacement?_none (hpos done []) (replacement?_of_none h), walk_of_gt]
    · exact List.append_nil done
    · simp
  | case5 done s rest h ih =>
    rw [walk_of_replacement?_none (hpos done (s :: rest)) (replacement?_of_none h), ← ih]
    simp

end Walk

/-! ### Pieces -/

theorem captures_bounds {word : List Segment} {source : List Element} {pos : Nat}
    {k : Candidate} (hpos : pos ≤ word.length) (h : k ∈ Change.waysToRead word source pos) :
    ∀ x ∈ k.captures, pos ≤ x.first ∧ x.last ≤ k.stop := by
  induction source generalizing pos k with
  | nil =>
    obtain rfl := List.mem_singleton.mp h
    intro x hx
    cases hx
  | cons e es ih =>
    simp only [Change.waysToRead, List.mem_flatMap, List.mem_map] at h
    obtain ⟨reading, hreading, k, hk, rfl⟩ := h
    have hbounds := Element.readings_bounds hreading
    intro x hx
    rcases List.mem_cons.mp hx with rfl | hx
    · exact ⟨Nat.le_refl _, (Change.waysToRead_bounds hbounds.2 hk).1⟩
    · obtain ⟨hfirst, hlast⟩ := ih hbounds.2 hk x hx
      exact ⟨Nat.le_trans hbounds.1 hfirst, hlast⟩

theorem captures_of_choice? {r : Rule} {w : Word} {pos : Nat} {c : Change} {k : Candidate}
    (hpos : pos ≤ w.length) (h : r.choice? w pos = some (c, k)) :
    ∀ x ∈ k.captures, pos ≤ x.first ∧ x.last ≤ k.stop := by
  obtain ⟨c', _, hk⟩ := List.mem_flatMap.mp (List.mem_of_find?_eq_some h)
  obtain ⟨k', hk', heq⟩ := List.mem_map.mp hk
  cases heq
  exact captures_bounds hpos (List.mem_mergeSort.mp hk')

/-- What becomes of a piece that stands between the output and the rest of the input. -/
inductive Makes (r : Rule) (m : FeatureModel) (done rest : List Segment) : Piece → Prop
  | pass {s : Segment} : r.choice? ⟨m, done ++ s :: rest⟩ done.length = none →
    Makes r m done rest ⟨[s], [s]⟩
  /-- Nothing but the piece is read. -/
  | replace {taken : List Segment} {c : Change} {k : Candidate} : taken ≠ [] →
    r.choice? ⟨m, done ++ (taken ++ rest)⟩ done.length = some (c, k) →
    k.stop = done.length + taken.length →
    (∀ x ∈ k.captures, done.length ≤ x.first ∧ x.last ≤ done.length + taken.length) →
    Makes r m done rest ⟨taken, c.render (done ++ (taken ++ rest)) k.captures⟩
  | insert {s : Segment} {c : Change} {k : Candidate} :
    r.choice? ⟨m, done ++ s :: rest⟩ done.length = some (c, k) → k.stop = done.length →
    Makes r m done rest ⟨[s], c.render (done ++ s :: rest) k.captures ++ [s]⟩
  | append {c : Change} {k : Candidate} : rest = [] →
    r.choice? ⟨m, done⟩ done.length = some (c, k) → k.stop = done.length →
    Makes r m done rest ⟨[], c.render done k.captures⟩

/-- The pieces that a pass over the rest of the input goes through. -/
structure Covers (r : Rule) (m : FeatureModel) (done rest : List Segment)
    (pieces : List Piece) : Prop where
  input : rest = pieces.flatMap Piece.taken
  output : r.scan m done rest = done ++ pieces.flatMap Piece.put
  length_le : pieces.length ≤ rest.length + 1
  makes : ∀ before p after, pieces = before ++ p :: after →
    r.Makes m (done ++ before.flatMap Piece.put) (after.flatMap Piece.taken) p

section Pieces
variable {r : Rule} {m : FeatureModel} {done rest : List Segment} {pieces : List Piece} {p : Piece}

theorem covers_nil (h : r.scan m done [] = done) : r.Covers m done [] [] where
  input := rfl
  output := h.trans (List.append_nil done).symm
  length_le := Nat.zero_le _
  makes := by
    intro before p after h
    cases before <;> cases h

theorem Makes.covers_cons (hp : r.Makes m done rest p)
    (h : r.Covers m (done ++ p.put) rest pieces)
    (hscan : r.scan m done (p.taken ++ rest) = r.scan m (done ++ p.put) rest)
    (htaken : p.taken ≠ []) : r.Covers m done (p.taken ++ rest) (p :: pieces) where
  input := by rw [List.flatMap_cons, ← h.input]
  output := by rw [hscan, h.output, List.flatMap_cons, List.append_assoc]
  length_le := by
    have hpos := List.length_pos_iff.mpr htaken
    have hle := h.length_le
    rw [List.length_cons, List.length_append]
    omega
  makes := by
    intro before q after heq
    cases before with
    | nil =>
      cases heq
      rw [List.flatMap_nil, List.append_nil, ← h.input]
      exact hp
    | cons p' before =>
      cases heq
      rw [List.flatMap_cons, ← List.append_assoc]
      exact h.makes before q after rfl

end Pieces

theorem exists_covers (r : Rule) (m : FeatureModel) (done rest : List Segment) :
    ∃ pieces, r.Covers m done rest pieces := by
  fun_induction scan r m done rest with
  | case1 done c k hstop h run =>
    have hscan := scan_nil_of_insertion h hstop
    rw [List.append_nil] at h hscan
    have happend : r.Makes m done [] ⟨[], c.render done k.captures⟩ := .append rfl h hstop
    refine ⟨[⟨[], c.render done k.captures⟩], rfl, ?_, Nat.le_refl 1, ?_⟩
    · simpa using hscan
    · intro before p after heq
      cases before with
      | nil =>
        cases heq
        simpa using happend
      | cons p' before => cases before <;> cases heq
  | case2 done c k hstop s rest h run ih =>
    obtain ⟨pieces, hpieces⟩ := ih
    rw [List.append_assoc] at hpieces
    have hinsert : r.Makes m done rest ⟨[s], run ++ [s]⟩ := .insert h hstop
    refine ⟨_, hinsert.covers_cons hpieces ?_ (List.cons_ne_nil s [])⟩
    rw [← List.append_assoc]
    exact scan_of_insertion h hstop
  | case3 done rest c k h run hstop hbounds ih =>
    obtain ⟨pieces, hpieces⟩ := ih
    have hscan := scan_of_replacement h hstop
    have hcaptures := captures_of_choice? (by simp [Word.length]) h
    obtain ⟨taken, rest', hrest, htaken⟩ : ∃ taken rest', rest = taken ++ rest' ∧
        taken.length = k.stop - done.length :=
      ⟨_, _, (List.take_append_drop (k.stop - done.length) rest).symm, by
        rw [List.length_take]
        omega⟩
    subst hrest
    rw [List.drop_left' htaken] at hpieces hscan
    have hend : k.stop = done.length + taken.length := by omega
    have hne : taken ≠ [] := by
      intro hnil
      rw [hnil, List.length_nil] at hend
      exact hstop hend
    rw [hend] at hcaptures
    have hreplace : r.Makes m done rest' ⟨taken, run⟩ := .replace hne h hend hcaptures
    exact ⟨_, hreplace.covers_cons hpieces hscan hne⟩
  | case4 done h => exact ⟨[], covers_nil (scan_nil_of_none h)⟩
  | case5 done s rest h ih =>
    obtain ⟨pieces, hpieces⟩ := ih
    have hpass : r.Makes m done rest ⟨[s], [s]⟩ := .pass h
    exact ⟨_, hpass.covers_cons hpieces (scan_of_none h) (List.cons_ne_nil s [])⟩

/-! ### Turns of the walk -/

/-- One turn of the walk, which leads from segments and a position to the next ones. -/
inductive Turn (r : Rule) (m : FeatureModel) :
    List Segment × Nat → List Segment × Nat → Prop
  | pass {segments : List Segment} {pos : Nat} : pos ≤ segments.length →
    r.replacement? ⟨m, segments⟩ pos = none → Turn r m (segments, pos) (segments, pos + 1)
  | replace {segments : List Segment} {pos : Nat} {x : Replacement} : pos ≤ segments.length →
    r.replacement? ⟨m, segments⟩ pos = some x →
    Turn r m (segments, pos)
      (Word.spliceRun segments pos x.stop x.run, pos + stride pos x)

section Turns
variable {r : Rule} {m : FeatureModel} {x y : List Segment × Nat}

theorem Turn.walk_eq (h : r.Turn m x y) : r.walk m x.1 x.2 = r.walk m y.1 y.2 := by
  cases h with
  | pass hpos hnone => exact walk_of_replacement?_none hpos hnone
  | replace hpos hsome => exact walk_of_replacement?_some hpos hsome

/-- What is behind the position is never written to. -/
theorem Turn.drop_suffix (h : r.Turn m x y) : y.1.drop y.2 <:+ x.1.drop x.2 := by
  cases h with
  | pass => exact List.drop_suffix_drop_left _ (Nat.le_succ _)
  | @replace segments pos x hpos hsome =>
    have hbounds := replacement?_bounds hpos hsome
    have hput : (segments.take pos ++ x.run).length = pos + x.run.length := by
      rw [List.length_append, List.length_take, Nat.min_eq_left hpos]
    have hdrop : (Word.spliceRun segments pos x.stop x.run).drop (pos + x.run.length) =
        segments.drop x.stop := by
      rw [Word.spliceRun, List.drop_left' hput]
    refine List.IsSuffix.trans ?_ (List.drop_suffix_drop_left segments hbounds.1)
    rw [← hdrop]
    refine List.drop_suffix_drop_left _ ?_
    simp only [stride]
    omega

theorem take_prefix_walk (segments : List Segment) (pos : Nat) :
    segments.take pos <+: r.walk m segments pos := by
  by_cases hpos : pos ≤ segments.length
  · obtain ⟨pieces, hpieces⟩ := r.exists_covers m (segments.take pos) (segments.drop pos)
    have hwalk := r.walk_append m (segments.take pos) (segments.drop pos)
    rw [List.take_append_drop, List.length_take, Nat.min_eq_left hpos, hpieces.output] at hwalk
    rw [hwalk]
    exact List.prefix_append _ _
  · rw [walk_of_gt (Nat.lt_of_not_le hpos)]
    exact List.take_prefix _ _

end Turns

/-- Applying a rule is a single pass over the word. It replaces pieces of the input, one after
the other, and at every turn the word is made of output in front of the position and an untouched
rest of the input behind it. -/
theorem apply_eq_scan {r : Rule} {w : Word} (hmodel : w.model.same r.model = true) :
    r.apply w = { w with segments := r.scan w.model [] w.segments } ∧
      (∃ pieces, r.Covers w.model [] w.segments pieces) ∧
      ∀ x, Relation.ReflTransGen (r.Turn w.model) (w.segments, 0) x →
        x.1.take x.2 <+: (r.apply w).segments ∧ x.1.drop x.2 <:+ w.segments := by
  have happly : r.apply w = { w with segments := r.walk w.model w.segments 0 } := if_pos hmodel
  have hscan : r.walk w.model w.segments 0 = r.scan w.model [] w.segments :=
    r.walk_append w.model [] w.segments
  refine ⟨by rw [happly, hscan], r.exists_covers w.model [] w.segments, ?_⟩
  intro x hx
  have hreached : r.walk w.model w.segments 0 = r.walk w.model x.1 x.2 ∧
      x.1.drop x.2 <:+ w.segments := by
    induction hx with
    | refl => exact ⟨rfl, List.suffix_refl _⟩
    | tail _ hturn ih =>
      exact ⟨ih.1.trans hturn.walk_eq, hturn.drop_suffix.trans ih.2⟩
  refine ⟨?_, hreached.2⟩
  rw [happly]
  simp only [hreached.1]
  exact take_prefix_walk x.1 x.2

theorem apply_eq_scan_parallel :
    ∃ r, ofText (.empty .empty) "a 0 > 0 x" = .ok r ∧
      r.apply ⟨.empty, ["a", "b"].map FeatureModel.empty.resolve⟩ =
        ⟨.empty, r.scan .empty [] (["a", "b"].map FeatureModel.empty.resolve)⟩ := by
  have hok : ((ofText (.empty .empty) "a 0 > 0 x").toOption.any
      fun r => FeatureModel.empty.same r.model) = true := by decide +kernel
  cases h : ofText (.empty .empty) "a 0 > 0 x" with
  | error =>
    rw [h] at hok
    cases hok
  | ok r =>
    rw [h] at hok
    have hmodel : FeatureModel.empty.same r.model = true := hok
    exact ⟨r, rfl, (apply_eq_scan hmodel).1⟩

end Rule

end SoundLaw
