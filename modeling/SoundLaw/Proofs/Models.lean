import SoundLaw.Proofs.Entries
import SoundLaw.Proofs.Parsing
import SoundLaw.Word

/-!
# Models that can be defined

A model comes from a draft, and a draft from a series of definitions. Whatever the series was,
every vector in the model has one slot for each of its features. Segments of a model that has no
features are therefore told apart by their symbols alone.
-/

namespace SoundLaw
set_option autoImplicit false
open Text

theorem FeatureValue.same_refl (x : FeatureValue) : x.same x = true := by
  cases x with
  | undefined | masked => rfl
  | number value => exact value.same_refl

theorem FeatureVector.same_refl (v : FeatureVector) : v.same v = true := by
  induction v with
  | nil => rfl
  | cons x xs ih => rw [same, FeatureValue.same_refl, ih, Bool.and_self]

namespace Schema

@[simp] theorem length_assign (v : FeatureVector) (assignments : List Assignment) :
    (assign v assignments).length = v.length := by
  induction assignments generalizing v with
  | nil => rfl
  | cons a assignments ih => exact (ih _).trans List.length_set

theorem length_of_read {s : Schema} {descriptor : String} {fill : FeatureValue}
    {v : FeatureVector} (h : s.read descriptor fill = .ok v) : v.length = s.features.length := by
  obtain ⟨assignments, _, h⟩ := bind_eq_ok.mp h
  cases h
  rw [length_assign, List.length_replicate]

/-- The slots that are assigned to exist, where this holds of the aliases. -/
theorem lt_of_entry {s : Schema} {e : List Char} {assignments : List Assignment}
    (haliases : ∀ p ∈ s.aliases, ∀ a ∈ p.2, a.1 < s.features.length)
    (h : s.entry e = .ok assignments) : ∀ a ∈ assignments, a.1 < s.features.length := by
  have hslot : ∀ {name e i}, s.slot name e = .ok i → i < s.features.length := by
    intro name e i hi
    rw [slot_eq, index?] at hi
    split at hi
    · rename_i j hj
      cases hi
      exact (List.idxOf?_eq_some_iff.mp hj).1
    · cases hi
  rw [entry_eq] at h
  split at h
  · obtain ⟨i, hi, h⟩ := bind_eq_ok.mp h
    split at h
    · cases h
      simpa using hslot hi
    · cases h
  · split at h
    · obtain ⟨i, hi, h⟩ := bind_eq_ok.mp h
      cases h
      simpa using hslot hi
    · obtain ⟨i, hi, h⟩ := bind_eq_ok.mp h
      cases h
      simpa using hslot hi
    · split at h
      · rename_i halias
        cases h
        exact haliases _ (mem_of_lookup_eq_some halias)
      · cases h

theorem lt_of_assignmentsOf {s : Schema} {es : List (List Char)} {assignments : List Assignment}
    (haliases : ∀ p ∈ s.aliases, ∀ a ∈ p.2, a.1 < s.features.length)
    (h : s.assignmentsOf es = .ok assignments) :
    ∀ a ∈ assignments, a.1 < s.features.length := by
  induction es generalizing assignments with
  | nil =>
    cases h
    exact nofun
  | cons e es ih =>
    obtain ⟨first, hfirst, h⟩ := bind_eq_ok.mp h
    obtain ⟨rest, hrest, h⟩ := bind_eq_ok.mp h
    cases h
    intro a ha
    rcases List.mem_append.mp ha with ha | ha
    · exact lt_of_entry haliases hfirst a ha
    · exact ih hrest a ha

end Schema

/-- A name without the blanks at its ends. -/
def trimmed (name : String) : String := String.ofList (trim name.toList)

namespace ModelDraft

/-- A draft that a series of definitions leads to. -/
inductive Defined : ModelDraft → Prop
  | empty : Defined .empty
  | addFeature {d d' : ModelDraft} {name : String} : Defined d →
    d.addFeature name = .ok d' → Defined d'
  | addAlias {d d' : ModelDraft} {name descriptor : String} : Defined d →
    d.addAlias name descriptor = .ok d' → Defined d'
  | addSymbol {d d' : ModelDraft} {symbol descriptor : String} : Defined d →
    d.addSymbol symbol descriptor = .ok d' → Defined d'

/-! ### What a definition does -/

section Steps
variable {d d' : ModelDraft} {name descriptor : String}

theorem addFeature_eq_ok : d.addFeature name = .ok d' ↔ trimmed name ∉ d.schema.features ∧
    d' = ⟨d.schema.addFeature (trimmed name),
      d.symbols.map fun p => (p.1, p.2 ++ [.undefined])⟩ := by
  simp only [addFeature, List.contains_iff_mem]
  by_cases hname : trimmed name ∈ d.schema.features
  · simp [trimmed] at hname
    simp [trimmed, hname]
  · simp [trimmed] at hname
    simp [trimmed, hname, eq_comm]

theorem addAlias_eq_ok : d.addAlias name descriptor = .ok d' ↔
    ∃ assignments, d.schema.assignments descriptor = .ok assignments ∧
      d' = ⟨d.schema.addAlias (trimmed name) assignments, d.symbols⟩ := by
  unfold addAlias
  cases d.schema.assignments descriptor with
  | error e => simp
  | ok assignments => simp [trimmed, eq_comm]

theorem addSymbol_eq_ok : d.addSymbol name descriptor = .ok d' ↔
    ∃ v, d.schema.read descriptor .undefined = .ok v ∧
      d' = ⟨d.schema, placed (trimmed name) v d.symbols⟩ := by
  unfold addSymbol
  cases d.schema.read descriptor .undefined with
  | error e => simp
  | ok v => simp [trimmed, define_eq, eq_comm]

end Steps

/-! ### What stays in step -/

/-- Features and symbols have one place each, and vectors and aliases fit the features. -/
structure Consistent (d : ModelDraft) : Prop where
  features : d.schema.features.Nodup
  symbols : (d.symbols.map Prod.fst).Nodup
  vectors : ∀ p ∈ d.symbols, p.2.length = d.schema.features.length
  aliases : ∀ p ∈ d.schema.aliases, ∀ a ∈ p.2, a.1 < d.schema.features.length

section Steps
variable {d d' : ModelDraft} {name descriptor : String}

theorem consistent_empty : Consistent .empty where
  features := List.nodup_nil
  symbols := List.nodup_nil
  vectors := by simp [empty]
  aliases := by simp [empty, Schema.empty]

theorem Consistent.addFeature (h : d.Consistent) (hstep : d.addFeature name = .ok d') :
    d'.Consistent := by
  obtain ⟨hname, rfl⟩ := addFeature_eq_ok.mp hstep
  constructor
  · rw [Schema.addFeature, ← List.concat_eq_append]
    exact List.Nodup.concat hname h.features
  · rw [List.map_map]
    exact h.symbols
  · intro p hp
    obtain ⟨q, hq, rfl⟩ := List.mem_map.mp hp
    simp [Schema.addFeature, h.vectors q hq]
  · intro p hp a ha
    have hlt := h.aliases p hp a ha
    simp only [Schema.addFeature, List.length_append, List.length_singleton]
    omega

theorem Consistent.addAlias (h : d.Consistent) (hstep : d.addAlias name descriptor = .ok d') :
    d'.Consistent := by
  obtain ⟨assignments, hassignments, rfl⟩ := addAlias_eq_ok.mp hstep
  refine ⟨h.features, h.symbols, h.vectors, ?_⟩
  intro p hp
  rcases List.mem_cons.mp hp with rfl | hp
  · have hlt := Schema.lt_of_assignmentsOf h.aliases hassignments
    exact hlt
  · exact h.aliases p hp

theorem Consistent.addSymbol (h : d.Consistent) (hstep : d.addSymbol name descriptor = .ok d') :
    d'.Consistent := by
  obtain ⟨v, hread, rfl⟩ := addSymbol_eq_ok.mp hstep
  refine ⟨h.features, ?_, ?_, h.aliases⟩
  · exact nodup_keys_placed h.symbols
  · intro p hp
    rcases mem_placed hp with rfl | hp
    · exact Schema.length_of_read hread
    · exact h.vectors p hp

theorem Defined.consistent (h : d.Defined) : d.Consistent := by
  induction h with
  | empty => exact consistent_empty
  | addFeature _ hstep ih => exact ih.addFeature hstep
  | addAlias _ hstep ih => exact ih.addAlias hstep
  | addSymbol _ hstep ih => exact ih.addSymbol hstep

end Steps

end ModelDraft

namespace FeatureModel
variable {m : FeatureModel}

/-- A model that can come up: the empty one, or one frozen from a draft. -/
inductive Defined : FeatureModel → Prop
  | empty : Defined .empty
  | freeze {d : ModelDraft} (h : d.Defined) (serial : Nat) : Defined (d.freeze serial)

/-- Every vector of a model has one slot for each feature. -/
theorem Defined.length_vector (h : m.Defined) (symbol : String) :
    (m.vector symbol).length = m.size := by
  have hall : ∀ p ∈ m.symbols, p.2.length = m.size := by
    cases h with
    | empty =>
      intro p hp
      cases hp
    | freeze h serial => exact h.consistent.vectors
  unfold vector
  cases hlookup : m.symbols.lookup symbol with
  | none => exact List.length_replicate
  | some v =>
    obtain ⟨before, after, heq, -⟩ := List.lookup_eq_some_iff.mp hlookup
    exact hall (symbol, v) (heq ▸ List.mem_append_right _ List.mem_cons_self)

theorem length_of_resolveBundle {descriptor : String} {s : Segment}
    (h : m.resolveBundle descriptor = .ok s) : s.features.length = m.size := by
  unfold resolveBundle at h
  split at h
  · cases h
  · rename_i v hread
    cases h
    exact Schema.length_of_read hread

/-- The first of the symbols, in the order of their definitions, whose vector is this one. -/
def IsFirstWith (m : FeatureModel) (v : FeatureVector) (symbol : String) : Prop :=
  ∃ before w after, m.symbols = before ++ (symbol, w) :: after ∧ w.same v = true ∧
    ∀ p ∈ before, FeatureVector.same p.2 v = false

theorem symbolFor?_eq_some_iff {v : FeatureVector} {symbol : String} :
    m.symbolFor? v = some symbol ↔ m.IsFirstWith v symbol := by
  simp only [symbolFor?, Option.map_eq_some_iff, List.find?_eq_some_iff_append,
    Bool.not_eq_true']
  constructor
  · rintro ⟨⟨name, w⟩, ⟨hsame, before, after, hsymbols, hbefore⟩, rfl⟩
    exact ⟨before, w, after, hsymbols, hsame, hbefore⟩
  · rintro ⟨before, w, after, hsymbols, hsame, hbefore⟩
    exact ⟨(symbol, w), ⟨hsame, before, after, hsymbols, hbefore⟩, rfl⟩

theorem symbolFor?_eq_none_iff {v : FeatureVector} :
    m.symbolFor? v = none ↔ ∀ p ∈ m.symbols, FeatureVector.same p.2 v = false := by
  simp [symbolFor?, List.find?_eq_none]

/-! ### Segments and words on a model -/

section Identity
variable {n k : FeatureModel}

theorem same_iff : m.same n = true ↔ m.id = n.id := by
  simp [same]

theorem same_self (m : FeatureModel) : m.same m = true := same_iff.mpr rfl

theorem same_trans (h : m.same n = true) (h' : n.same k = true) : m.same k = true :=
  same_iff.mpr ((same_iff.mp h).trans (same_iff.mp h'))

end Identity

end FeatureModel

/-- A segment of the model, with one slot for each feature. -/
structure Segment.IsOn (s : Segment) (m : FeatureModel) : Prop where
  model : s.model = m
  length : s.features.length = m.size

/-- A word of the model, all of whose segments are on the model too. -/
structure Word.IsOn (w : Word) (m : FeatureModel) : Prop where
  model : w.model = m
  segments : ∀ s ∈ w.segments, s.IsOn m

/-- What a call on a word does behind a check, it does only if the check succeeds. -/
theorem Word.run_checking_bind {α : Type} (w : Word) (m : FeatureModel) (text : String)
    (next : Unit → Call ModelFault Word α) :
    (checking m text >>= next).run w = match w.check m text with
      | .error f => .error f w
      | .ok _ => (next ()).run w := by
  cases h : w.check m text with
  | error e => exact Call.run_reading_bind_of_error (f := fun w => check w m text) h next
  | ok => exact Call.run_reading_bind_of_ok (f := fun w => check w m text) h next

/-! ### Without features -/

namespace FeatureModel
variable {m : FeatureModel}

theorem vector_eq_nil (h : m.Defined) (hnone : m.features = []) (symbol : String) :
    m.vector symbol = [] := by
  have hlength := h.length_vector symbol
  rw [size, hnone] at hlength
  exact List.eq_nil_of_length_eq_zero hlength

theorem fits_resolve (h : m.Defined) (hnone : m.features = []) (x y : String) :
    (m.resolve x).fits (m.resolve y) = (x == y) := by
  simp [Segment.fits, Segment.sameModel, same, resolve, Segment.isFeatured,
    FeatureVector.isSpecified, vector_eq_nil h hnone]

end FeatureModel

theorem Segment.IsOn.eq_resolve {s : Segment} {m : FeatureModel} (hs : s.IsOn m)
    (h : m.Defined) (hnone : m.features = []) : s = m.resolve s.symbol := by
  have hfeatures : s.features = [] := by
    have hlength := hs.length
    rw [FeatureModel.size, hnone] at hlength
    exact List.eq_nil_of_length_eq_zero hlength
  obtain ⟨symbol, features, model⟩ := s
  obtain rfl : model = m := hs.model
  rw [FeatureModel.resolve, FeatureModel.vector_eq_nil h hnone]
  exact congrArg (Segment.mk symbol · model) hfeatures

end SoundLaw
