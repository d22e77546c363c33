import SoundLaw.Proofs.Candidates
import SoundLaw.Proofs.Parsing
import SoundLaw.Proofs.Scan

/-!
# Applying stays in bounds

The items of a target refer to elements of the source by number, and a counterpart refers to an
alternative by the number of the one that was read. The numbers are checked when a rule is read,
against the source alone. They are used on captures, which belong to a word that has been edited
many times by then. Since every candidate has one capture for each element, whatever an item
refers to is there at every turn of the walk, and a counterpart never falls back on what was read.
-/

namespace SoundLaw
set_option autoImplicit false

/-! ### What reading a target makes sure of -/

/-- An item of a target for a source: it refers to an element, and a counterpart to a macro that
has as many alternatives as the element. -/
def TargetItem.IsFor (macros : MacroTable) (source : List Element) : TargetItem → Prop
  | literal _ => True
  | repeated index | overwritten index _ => index < source.length
  | counterpart index alternatives =>
    (∃ name others, source[index]? = some (.named name others) ∧
      others.length = alternatives.length) ∧
    ∃ other, macros.find? other = some alternatives

section Reading
variable {macros : MacroTable} {source : List Element} {word : String} {index : Nat}
variable {text rest : List Char} {item : TargetItem} {items : List TargetItem}

theorem MacroTable.alternatives_eq_ok {name : String} {runs : List (List Segment)} :
    macros.alternatives name = .ok runs ↔ macros.find? name = some runs := by
  unfold alternatives
  cases macros.find? name <;> simp

theorem elementAt_eq_ok {digits : List Char} {e : Element}
    (h : elementAt source word digits = .ok (index, e)) : source[index]? = some e := by
  unfold elementAt at h
  dsimp only at h
  split at h
  · cases h
  · split at h
    · rename_i he
      cases h
      exact he
    · cases h

theorem item_of_readReference (h : readReference macros source word text = .ok (item, rest)) :
    ∃ index e, source[index]? = some e ∧ (item = .repeated index ∨
      ∃ name others other alternatives, e = .named name others ∧
        others.length = alternatives.length ∧ macros.find? other = some alternatives ∧
        item = .counterpart index alternatives) := by
  unfold readReference at h
  dsimp only at h
  split at h
  · cases h
  · obtain ⟨⟨index, e⟩, he, h⟩ := bind_eq_ok.mp h
    refine ⟨index, e, elementAt_eq_ok he, ?_⟩
    dsimp only at h
    split at h
    · cases h
      exact .inl rfl
    · obtain ⟨alternatives, halternatives, h⟩ := bind_eq_ok.mp h
      have hfind := MacroTable.alternatives_eq_ok.mp (mapError_eq_ok.mp halternatives)
      split at h
      · split at h
        · rename_i hlength
          cases h
          exact .inr ⟨_, _, _, alternatives, rfl, hlength, hfind, rfl⟩
        · cases h
      · cases h

theorem item_of_readOverwrite
    (h : readOverwrite macros source word index text = .ok (item, rest)) :
    index < source.length ∧ ∃ descriptor bundle,
      macros.model.resolveBundle descriptor = .ok bundle ∧ item = .overwritten index bundle := by
  unfold readOverwrite at h
  split at h
  · cases h
  · obtain ⟨bundle, hbundle, h⟩ := bind_eq_ok.mp h
    dsimp only at h
    split at h
    · cases h
    · rename_i hlt
      cases h
      exact ⟨Nat.lt_of_not_le hlt, _, bundle, hbundle, rfl⟩

theorem isFor_of_readReference (h : readReference macros source word text = .ok (item, rest)) :
    item.IsFor macros source := by
  obtain ⟨index, e, he, hitem⟩ := item_of_readReference h
  rcases hitem with rfl | ⟨name, others, other, alternatives, rfl, hlength, hfind, rfl⟩
  · exact (List.getElem?_eq_some_iff.mp he).1
  · exact ⟨⟨name, others, he, hlength⟩, other, hfind⟩

theorem isFor_of_readOverwrite
    (h : readOverwrite macros source word index text = .ok (item, rest)) :
    item.IsFor macros source := by
  obtain ⟨hlt, descriptor, bundle, -, rfl⟩ := item_of_readOverwrite h
  exact hlt

/-- What reading makes sure of for an item of each kind holds of every item of a target. -/
theorem forall_of_readItems {P : TargetItem → Prop}
    (hreference : ∀ {text rest item},
      readReference macros source word text = .ok (item, rest) → P item)
    (hoverwrite : ∀ {index text rest item},
      readOverwrite macros source word index text = .ok (item, rest) → P item)
    (hliteral : ∀ run, ∀ item ∈ literalItems macros run, P item)
    (h : readItems macros source word index text = .ok items) : ∀ item ∈ items, P item := by
  fun_induction readItems macros source word index text generalizing items with
  | case1 =>
    cases h
    exact nofun
  | case2 => cases h
  | case3 _ _ _ _ hread _ ih =>
    obtain ⟨others, hothers, h⟩ := bind_eq_ok.mp h
    cases h
    exact List.forall_mem_cons.mpr ⟨hreference hread, ih hothers⟩
  | case4 => cases h
  | case5 _ _ _ _ hread _ _ ih =>
    obtain ⟨others, hothers, h⟩ := bind_eq_ok.mp h
    cases h
    exact List.forall_mem_cons.mpr ⟨hoverwrite hread, ih hothers⟩
  | case6 =>
    rename_i ih
    obtain ⟨others, hothers, h⟩ := bind_eq_ok.mp h
    cases h
    intro item hitem
    rcases List.mem_append.mp hitem with hitem | hitem
    · exact hliteral _ item hitem
    · exact ih hothers item hitem

theorem isFor_of_readItems (h : readItems macros source word index text = .ok items) :
    ∀ item ∈ items, item.IsFor macros source := by
  refine forall_of_readItems isFor_of_readReference isFor_of_readOverwrite ?_ h
  intro run item hitem
  obtain ⟨s, -, rfl⟩ := List.mem_map.mp hitem
  trivial

end Reading

theorem Change.target_of_ofWords {macros : MacroTable} {source target : String} {c : Change}
    (h : ofWords macros source target = .ok c) :
    c.target = [] ∨ readItems macros c.source target 0 target.toList = .ok c.target := by
  obtain ⟨elements, _, h⟩ := bind_eq_ok.mp h
  obtain ⟨items, hitems, h⟩ := bind_eq_ok.mp h
  cases h
  unfold readTarget at hitems
  split at hitems
  · cases hitems
    exact .inl rfl
  · exact .inr hitems

namespace Rule
variable {macros : MacroTable} {text : String} {r : Rule}

theorem exists_target_of_ofText (h : ofText macros text = .ok r) {c : Change}
    (hc : c ∈ r.changes) :
    c.target = [] ∨ ∃ word, readItems macros c.source word 0 word.toList = .ok c.target := by
  obtain ⟨changes, hchanges, h⟩ := bind_eq_ok.mp h
  obtain ⟨environment, _, h⟩ := bind_eq_ok.mp h
  cases h
  unfold readChanges at hchanges
  split at hchanges
  · obtain ⟨pairs, _, hchanges⟩ := bind_eq_ok.mp hchanges
    obtain ⟨⟨source, target⟩, _, hpair⟩ := exists_of_mem_mapM hchanges hc
    rcases Change.target_of_ofWords hpair with hnone | hread
    · exact .inl hnone
    · exact .inr ⟨target, hread⟩
  · cases hchanges

theorem isFor_of_ofText (h : ofText macros text = .ok r) :
    ∀ c ∈ r.changes, ∀ item ∈ c.target, item.IsFor macros c.source := by
  intro c hc
  rcases exists_target_of_ofText h hc with hnone | ⟨word, hread⟩
  · rw [hnone]
    exact nofun
  · exact isFor_of_readItems hread

end Rule

/-! ### What captures hold -/

namespace Candidate
variable {k : Candidate} {word : List Segment} {source : List Element} {start i : Nat}
variable {e : Element} {x : Capture}

theorem Reads.exists_capture (h : k.Reads word source start) (hi : i < source.length) :
    ∃ x, k.captures[i]? = some x :=
  ⟨_, List.getElem?_eq_getElem (Nat.lt_of_lt_of_eq hi h.length.symm)⟩

theorem Reads.capture_bounds (h : k.Reads word source start) (hx : x ∈ k.captures) :
    x.first ≤ x.last ∧ x.last ≤ word.length := by
  obtain ⟨i, hi⟩ := List.getElem?_of_mem hx
  have hlt := (List.getElem?_eq_some_iff.mp hi).1
  have hread := h.reading i _ x (List.getElem?_eq_getElem (Nat.lt_of_lt_of_eq hlt h.length)) hi
  exact Element.readings_bounds hread

theorem Reads.capture_named {name : String} {runs : List (List Segment)}
    (h : k.Reads word source start) (he : source[i]? = some (.named name runs))
    (hx : k.captures[i]? = some x) : ∃ n run, x.choice = some n ∧ runs[n]? = some run ∧
      matchesAt word x.first run = true ∧ x.last = x.first + run.length := by
  obtain ⟨n, run, hrun, hmatch, hreading⟩ := mem_readingsOf.mp (h.reading i _ x he hx)
  obtain ⟨hlast, hchoice⟩ := Reading.mk.inj hreading
  rw [Nat.zero_add] at hchoice
  exact ⟨n, run, hchoice, hrun, hmatch, hlast⟩

end Candidate

/-! ### What items refer to -/

/-- What an item refers to is there: the capture of an element, and for a counterpart the
alternative in the place of the one that was read, which is what the item becomes. -/
def TargetItem.Finds (macros : MacroTable) (source : List Element) (word : List Segment)
    (captures : List Capture) : TargetItem → Prop
  | literal _ => True
  | repeated index | overwritten index _ => index < captures.length
  | counterpart index alternatives => ∃ x n, captures[index]? = some x ∧ x.choice = some n ∧
    (∃ name runs run, source[index]? = some (.named name runs) ∧ runs[n]? = some run ∧
      matchesAt word x.first run = true ∧ x.last = x.first + run.length) ∧
    ∃ other run, macros.find? other = some alternatives ∧ alternatives[n]? = some run ∧
      (counterpart index alternatives).render word captures = run

theorem TargetItem.IsFor.finds {macros : MacroTable} {source : List Element} {word : List Segment}
    {start : Nat} {item : TargetItem} {k : Candidate} (hitem : item.IsFor macros source)
    (h : k.Reads word source start) : item.Finds macros source word k.captures := by
  cases item with
  | literal s => trivial
  | repeated index | overwritten index => exact Nat.lt_of_lt_of_eq hitem h.length.symm
  | counterpart index alternatives =>
    obtain ⟨⟨name, runs, he, hlength⟩, other, hother⟩ := hitem
    obtain ⟨x, hx⟩ := h.exists_capture (List.getElem?_eq_some_iff.mp he).1
    obtain ⟨n, run, hchoice, hrun, hmatch, hlast⟩ := h.capture_named he hx
    have hn : n < alternatives.length :=
      Nat.lt_of_lt_of_eq (List.getElem?_eq_some_iff.mp hrun).1 hlength
    have himage := List.getElem?_eq_getElem hn
    refine ⟨x, n, hx, hchoice, ⟨name, runs, run, he, hrun, hmatch, hlast⟩, other, _, hother,
      himage, ?_⟩
    simp only [render, hx, hchoice, Option.bind_some, himage, Option.getD_some]

/-! ### The walk -/

namespace Rule

/-- Nothing that is done at a position is out of bounds. -/
structure InBounds (r : Rule) (macros : MacroTable) (w : Word) (pos : Nat) : Prop where
  captures : ∀ c ∈ r.changes, ∀ k ∈ c.candidates w.segments pos,
    k.captures.length = c.source.length ∧ ∀ x ∈ k.captures, x.first ≤ x.last ∧ x.last ≤ w.length
  references : ∀ c ∈ r.changes, ∀ k ∈ c.candidates w.segments pos, ∀ item ∈ c.target,
    item.Finds macros c.source w.segments k.captures
  span : ∀ x, r.replacement? w pos = some x → pos ≤ x.stop ∧ x.stop ≤ w.length

theorem inBounds_of_isFor {r : Rule} {macros : MacroTable} {w : Word} {pos : Nat}
    (h : ∀ c ∈ r.changes, ∀ item ∈ c.target, item.IsFor macros c.source) (hpos : pos ≤ w.length) :
    r.InBounds macros w pos where
  captures c _ k hk := by
    have hreads := Change.mem_candidates.mp hk
    exact ⟨hreads.length, fun x hx => hreads.capture_bounds hx⟩
  references c hc k hk item hitem := (h c hc item hitem).finds (Change.mem_candidates.mp hk)
  span x hx := replacement?_bounds hpos hx

theorem exists_turns (r : Rule) (m : FeatureModel) (segments : List Segment) (pos : Nat) :
    ∃ x, Relation.ReflTransGen (r.Turn m) (segments, pos) x ∧ x.1.length < x.2 ∧
      r.walk m segments pos = x.1 := by
  fun_induction walk r m segments pos with
  | case1 segments pos hpos hnone ih =>
    obtain ⟨x, hturns, hend, hwalk⟩ := ih
    exact ⟨x, hturns.head (.pass hpos hnone), hend, hwalk⟩
  | case2 segments pos hpos x hsome _ ih =>
    obtain ⟨y, hturns, hend, hwalk⟩ := ih
    exact ⟨y, hturns.head (.replace hpos hsome), hend, hwalk⟩
  | case3 segments pos hpos =>
    exact ⟨(segments, pos), .refl, Nat.lt_of_not_le hpos, rfl⟩

/-- A rule that has been read applies to every word of its model in turns that end with the
outcome, and at none of them anything is out of bounds. -/
theorem apply_inBounds {macros : MacroTable} {text : String} {r : Rule}
    (h : ofText macros text = .ok r) {w : Word} (hmodel : w.model.same r.model = true) :
    (∃ x, Relation.ReflTransGen (r.Turn w.model) (w.segments, 0) x ∧ x.1.length < x.2 ∧
      r.apply w = { w with segments := x.1 }) ∧
    ∀ x, Relation.ReflTransGen (r.Turn w.model) (w.segments, 0) x → x.2 ≤ x.1.length →
      r.InBounds macros ⟨w.model, x.1⟩ x.2 := by
  constructor
  · obtain ⟨x, hturns, hend, hwalk⟩ := r.exists_turns w.model w.segments 0
    exact ⟨x, hturns, hend, by rw [apply, if_pos hmodel, hwalk]⟩
  · intro x _ hpos
    exact inBounds_of_isFor (isFor_of_ofText h) hpos

theorem apply_inBounds_classes :
    let stops : MacroTable := ⟨.empty, [("C", ["p", "t"].map ([FeatureModel.empty.resolve ·]))]⟩
    let w : Word := ⟨.empty, ["p", "a", "t"].map FeatureModel.empty.resolve⟩
    ∃ r, ofText stops "C.C > $3$C1x" = .ok r ∧ w.model.same r.model = true ∧
      (∃ x, Relation.ReflTransGen (r.Turn w.model) (w.segments, 0) x ∧ x.1.length < x.2 ∧
        r.apply w = { w with segments := x.1 }) ∧
      ∀ x, Relation.ReflTransGen (r.Turn w.model) (w.segments, 0) x → x.2 ≤ x.1.length →
        r.InBounds stops ⟨w.model, x.1⟩ x.2 := by
  intro stops w
  have hok : ((ofText stops "C.C > $3$C1x").toOption.any
      fun r => FeatureModel.empty.same r.model) = true := by decide +kernel
  cases h : ofText stops "C.C > $3$C1x" with
  | error =>
    rw [h] at hok
    cases hok
  | ok r =>
    rw [h] at hok
    have hmodel : w.model.same r.model = true := hok
    exact ⟨r, rfl, hmodel, apply_inBounds h hmodel⟩

end Rule

end SoundLaw
