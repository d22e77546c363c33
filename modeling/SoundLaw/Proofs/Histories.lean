import Mathlib.Data.List.Induction
import SoundLaw.Proofs.Models
import SoundLaw.Proofs.Stores

/-!
# Histories of drafts

A draft keeps five things in step: the names of the features, the vectors of the symbols, the
slots that the aliases assign to, the symbols themselves and their order. Features may come after
symbols, symbols and aliases may be defined again, and any call may fail. What a call does to a
draft is said once for each kind of call. What holds after a history of calls follows by induction
on the history from its end.
-/

namespace SoundLaw
set_option autoImplicit false
open Text

/-- A call on a draft. -/
inductive DraftStep
  | addFeature (name : String)
  | addAlias (name descriptor : String)
  | addSymbol (name descriptor : String)

namespace DraftStep

def run (d : ModelDraft) : DraftStep → Except Fault ModelDraft
  | addFeature name => d.addFeature name
  | addAlias name descriptor => d.addAlias name descriptor
  | addSymbol name descriptor => d.addSymbol name descriptor

/-- The call as it is made on the containers of a draft. -/
def call : DraftStep → Call Fault DraftStore Unit
  | addFeature name => DraftStore.addFeature name
  | addAlias name descriptor => DraftStore.addAlias name descriptor
  | addSymbol name descriptor => DraftStore.addSymbol name descriptor

theorem agrees {s : DraftStore} {d : ModelDraft} (h : s.Holds d) (step : DraftStep) :
    Agrees DraftStore.Holds s (step.call.run s) (step.run d) := by
  cases step with
  | addFeature name => exact h.addFeature name
  | addAlias name descriptor => exact h.addAlias name descriptor
  | addSymbol name descriptor => exact h.addSymbol name descriptor

def feature? : DraftStep → Option String
  | addFeature name => some (trimmed name)
  | _ => none

def alias? : DraftStep → Option String
  | addAlias name _ => some (trimmed name)
  | _ => none

def symbol? : DraftStep → Option String
  | addSymbol name _ => some (trimmed name)
  | _ => none

/-- What a call that succeeds makes of a draft. -/
inductive Makes (d : ModelDraft) : DraftStep → ModelDraft → Prop
  | addFeature {name : String} (fresh : trimmed name ∉ d.schema.features) :
    Makes d (.addFeature name) ⟨d.schema.addFeature (trimmed name),
      d.symbols.map fun p => (p.1, p.2 ++ [.undefined])⟩
  | addAlias {name descriptor : String} {assignments : List Assignment}
    (reads : d.schema.assignments descriptor = .ok assignments) :
    Makes d (.addAlias name descriptor) ⟨d.schema.addAlias (trimmed name) assignments, d.symbols⟩
  | addSymbol {name descriptor : String} {v : FeatureVector}
    (reads : d.schema.read descriptor .undefined = .ok v) :
    Makes d (.addSymbol name descriptor) ⟨d.schema, placed (trimmed name) v d.symbols⟩

theorem makes_of_run {d d' : ModelDraft} {step : DraftStep} (h : step.run d = .ok d') :
    step.Makes d d' := by
  cases step with
  | addFeature name =>
    rw [run] at h
    obtain ⟨hname, rfl⟩ := ModelDraft.addFeature_eq_ok.mp h
    exact .addFeature hname
  | addAlias name descriptor =>
    rw [run] at h
    obtain ⟨assignments, hreads, rfl⟩ := ModelDraft.addAlias_eq_ok.mp h
    exact .addAlias hreads
  | addSymbol name descriptor =>
    rw [run] at h
    obtain ⟨v, hreads, rfl⟩ := ModelDraft.addSymbol_eq_ok.mp h
    exact .addSymbol hreads

end DraftStep

namespace ModelDraft
variable {d d' : ModelDraft} {step : DraftStep} {steps before rest : List DraftStep}
variable {name descriptor symbol : String}

/-- The draft after a call. One that fails leaves it as it is, for it leaves the containers so
(`Agrees.run_eq_error`). -/
def after (d : ModelDraft) (step : DraftStep) : ModelDraft := (step.run d).toOption.getD d

def afterAll (d : ModelDraft) (steps : List DraftStep) : ModelDraft := steps.foldl after d

def ofSteps (steps : List DraftStep) : ModelDraft := empty.afterAll steps

def accepted : ModelDraft → List DraftStep → List DraftStep
  | _, [] => []
  | d, step :: steps =>
    ((step.run d).toOption.map fun _ => step).toList ++ accepted (d.after step) steps

theorem after_of_ok (h : step.run d = .ok d') : d.after step = d' := by
  simp [after, h, Except.toOption]

theorem after_of_error {e : Fault} (h : step.run d = .error e) : d.after step = d := by
  simp [after, h, Except.toOption]

theorem afterAll_append (d : ModelDraft) (steps steps' : List DraftStep) :
    d.afterAll (steps ++ steps') = (d.afterAll steps).afterAll steps' := by
  simp [afterAll]

theorem afterAll_cons (d : ModelDraft) (step : DraftStep) (steps : List DraftStep) :
    d.afterAll (step :: steps) = (d.after step).afterAll steps := rfl

theorem ofSteps_append (steps steps' : List DraftStep) :
    ofSteps (steps ++ steps') = (ofSteps steps).afterAll steps' :=
  afterAll_append empty steps steps'

theorem ofSteps_concat (steps : List DraftStep) (step : DraftStep) :
    ofSteps (steps ++ [step]) = (ofSteps steps).after step :=
  ofSteps_append steps [step]

theorem accepted_append (d : ModelDraft) (steps steps' : List DraftStep) :
    d.accepted (steps ++ steps') = d.accepted steps ++ (d.afterAll steps).accepted steps' := by
  induction steps generalizing d with
  | nil => rfl
  | cons step steps ih =>
    rw [List.cons_append, accepted, accepted, ih, List.append_assoc]
    rfl

theorem accepted_singleton_of_ok (h : step.run d = .ok d') : d.accepted [step] = [step] := by
  simp [accepted, h, Except.toOption]

theorem accepted_singleton_of_error {e : Fault} (h : step.run d = .error e) :
    d.accepted [step] = [] := by
  simp [accepted, h, Except.toOption]

theorem Defined.after (h : d.Defined) (step : DraftStep) : (d.after step).Defined := by
  cases hstep : step.run d with
  | error e => rwa [after_of_error hstep]
  | ok d' =>
    rw [after_of_ok hstep]
    cases step with
    | addFeature name =>
      rw [DraftStep.run] at hstep
      exact h.addFeature hstep
    | addAlias name descriptor =>
      rw [DraftStep.run] at hstep
      exact h.addAlias hstep
    | addSymbol name descriptor =>
      rw [DraftStep.run] at hstep
      exact h.addSymbol hstep

theorem defined_ofSteps (steps : List DraftStep) : (ofSteps steps).Defined := by
  induction steps using List.reverseRecOn with
  | nil => exact .empty
  | append_singleton steps step ih =>
    rw [ofSteps_concat]
    exact ih.after step

/-- A call that fails leaves no trace. -/
theorem ofSteps_of_error {e : Fault} (h : step.run (ofSteps before) = .error e) :
    ofSteps (before ++ step :: rest) = ofSteps (before ++ rest) := by
  rw [ofSteps_append, ofSteps_append, afterAll_cons, after_of_error h]

/-- The containers after a history of calls, each of which leaves them as it may. -/
def storeOf (steps : List DraftStep) : DraftStore :=
  steps.foldl (fun s step => step.call.left s) .empty

theorem holds_storeOf (steps : List DraftStep) : (storeOf steps).Holds (ofSteps steps) := by
  induction steps using List.reverseRecOn with
  | nil => exact .empty
  | append_singleton steps step ih =>
    rw [storeOf, List.foldl_append, ofSteps_concat]
    exact (step.agrees ih).left ih

/-! ### Names -/

/-- The features are the names declared, each in the place of its first declaration. -/
theorem features_ofSteps (steps : List DraftStep) :
    (ofSteps steps).schema.features = (steps.filterMap DraftStep.feature?).eraseDups := by
  induction steps using List.reverseRecOn with
  | nil => rfl
  | append_singleton steps step ih =>
    rw [ofSteps_concat, List.filterMap_append]
    cases hstep : step.run (ofSteps steps) with
    | error e =>
      rw [after_of_error hstep, ih]
      cases step with
      | addFeature name =>
        have hname : trimmed name ∈ (ofSteps steps).schema.features := by
          by_contra hname
          have hok := addFeature_eq_ok.mpr ⟨hname, rfl⟩
          rw [DraftStep.run, hok] at hstep
          cases hstep
        rw [ih, List.mem_eraseDups] at hname
        simp [DraftStep.feature?, eraseDups_concat, hname]
      | addAlias | addSymbol => simp [DraftStep.feature?, List.filterMap_cons]
    | ok d' =>
      rw [after_of_ok hstep]
      cases DraftStep.makes_of_run hstep with
      | addFeature hname =>
        rw [ih, List.mem_eraseDups] at hname
        simp [DraftStep.feature?, eraseDups_concat, hname, Schema.addFeature, ih]
      | addAlias =>
        simpa [DraftStep.feature?, List.filterMap_cons, Schema.addAlias] using ih
      | addSymbol =>
        simpa [DraftStep.feature?, List.filterMap_cons] using ih

/-- The symbols are those defined, each in the place of its first definition. -/
theorem symbols_ofSteps (steps : List DraftStep) : (ofSteps steps).symbols.map Prod.fst =
    ((empty.accepted steps).filterMap DraftStep.symbol?).eraseDups := by
  induction steps using List.reverseRecOn with
  | nil => rfl
  | append_singleton steps step ih =>
    rw [ofSteps_concat, accepted_append, List.filterMap_append]
    change _ = (_ ++ ((ofSteps steps).accepted [step]).filterMap _).eraseDups
    cases hstep : step.run (ofSteps steps) with
    | error e =>
      rw [after_of_error hstep, accepted_singleton_of_error hstep, ih]
      simp
    | ok d' =>
      rw [after_of_ok hstep, accepted_singleton_of_ok hstep]
      cases DraftStep.makes_of_run hstep with
      | addFeature =>
        simpa [DraftStep.symbol?, List.filterMap_cons, Function.comp_def] using ih
      | addAlias =>
        simpa [DraftStep.symbol?, List.filterMap_cons] using ih
      | addSymbol =>
        rw [keys_placed, ih]
        simp [DraftStep.symbol?, eraseDups_concat]

/-! ### Vectors -/

/-- The calls before and behind the one that defined a symbol last. -/
structure IsLastDefinition (steps before : List DraftStep) (name descriptor : String)
    (rest : List DraftStep) : Prop where
  split : steps = before ++ .addSymbol name descriptor :: rest
  last : trimmed name ∉ (((ofSteps before).after (.addSymbol name descriptor)).accepted
    rest).filterMap DraftStep.symbol?

theorem IsLastDefinition.concat (h : IsLastDefinition steps before name descriptor rest)
    (hstep : ∀ d', step.run (ofSteps steps) = .ok d' → step.symbol? ≠ some (trimmed name)) :
    IsLastDefinition (steps ++ [step]) before name descriptor (rest ++ [step]) := by
  have hdraft : ((ofSteps before).after (.addSymbol name descriptor)).afterAll rest =
      ofSteps steps := by
    rw [h.split, ofSteps_append, afterAll_cons]
  refine ⟨by rw [h.split, List.append_assoc, List.cons_append], ?_⟩
  rw [accepted_append, hdraft, List.filterMap_append, List.mem_append, not_or]
  refine ⟨h.last, ?_⟩
  cases hrun : step.run (ofSteps steps) with
  | error e => simp [accepted_singleton_of_error hrun]
  | ok d' => simpa [accepted_singleton_of_ok hrun] using hstep d' hrun

/-- The vector of a symbol is what the last definition of the symbol has read, and undefined in
the features declared since. -/
inductive Keeps (steps : List DraftStep) (symbol : String) (v : FeatureVector) : Prop
  | intro {before rest : List DraftStep} {name descriptor : String} {w : FeatureVector}
    (last : IsLastDefinition steps before name descriptor rest)
    (symbol : trimmed name = symbol)
    (read : (ofSteps before).schema.read descriptor .undefined = .ok w)
    (vector : v = w ++
      List.replicate ((ofSteps steps).schema.features.length - w.length) .undefined)

theorem Keeps.concat {v : FeatureVector} (h : Keeps steps symbol v)
    (hstep : ∀ d', step.run (ofSteps steps) = .ok d' → step.symbol? ≠ some symbol)
    (hsize : (ofSteps (steps ++ [step])).schema.features.length =
      (ofSteps steps).schema.features.length) : Keeps (steps ++ [step]) symbol v := by
  obtain ⟨hlast, rfl, hread, hvector⟩ := h
  exact ⟨hlast.concat hstep, rfl, hread, hsize.symm ▸ hvector⟩

/-- One more feature, and one more slot. -/
theorem Keeps.addFeature {v : FeatureVector} (h : Keeps steps symbol v)
    (hlength : v.length = (ofSteps steps).schema.features.length)
    (hsize : (ofSteps (steps ++ [.addFeature name])).schema.features.length = v.length + 1) :
    Keeps (steps ++ [.addFeature name]) symbol (v ++ [.undefined]) := by
  obtain @⟨_, _, _, _, w, hlast, rfl, hread, hvector⟩ := h
  refine ⟨hlast.concat (by simp [DraftStep.symbol?]), rfl, hread, ?_⟩
  have hw : w.length ≤ v.length := by
    rw [hvector, List.length_append]
    exact Nat.le_add_right _ _
  rw [hsize, Nat.succ_sub hw, List.replicate_succ', ← List.append_assoc, hlength, ← hvector]

theorem Keeps.addSymbol {v : FeatureVector} (hread :
    (ofSteps steps).schema.read descriptor .undefined = .ok v)
    (hsize : (ofSteps (steps ++ [.addSymbol name descriptor])).schema.features.length = v.length) :
    Keeps (steps ++ [.addSymbol name descriptor]) (trimmed name) v := by
  refine ⟨⟨rfl, by simp [accepted]⟩, rfl, hread, ?_⟩
  rw [hsize, Nat.sub_self, List.replicate_zero, List.append_nil]

theorem keeps_of_mem {v : FeatureVector} (h : (symbol, v) ∈ (ofSteps steps).symbols) :
    Keeps steps symbol v := by
  induction steps using List.reverseRecOn generalizing symbol v with
  | nil => cases h
  | append_singleton steps step ih =>
    rw [ofSteps_concat] at h
    cases hstep : step.run (ofSteps steps) with
    | error e =>
      rw [after_of_error hstep] at h
      refine (ih h).concat (fun d' hd' => ?_) (by rw [ofSteps_concat, after_of_error hstep])
      cases hstep.symm.trans hd'
    | ok d' =>
      have hdraft : ofSteps (steps ++ [step]) = d' := by rw [ofSteps_concat, after_of_ok hstep]
      rw [after_of_ok hstep] at h
      cases DraftStep.makes_of_run hstep with
      | addFeature =>
        obtain ⟨⟨other, u⟩, hmem, hpair⟩ := List.mem_map.mp h
        cases hpair
        have hlength := (defined_ofSteps steps).consistent.vectors _ hmem
        apply (ih hmem).addFeature hlength
        rw [hdraft, Schema.addFeature, List.length_append, ← hlength]
        rfl
      | addAlias =>
        exact (ih h).concat (by simp [DraftStep.symbol?]) (by rw [hdraft]; rfl)
      | @addSymbol name descriptor w hread =>
        have hnodup := (defined_ofSteps (steps ++ [.addSymbol name descriptor])).consistent.symbols
        rw [hdraft] at hnodup
        have hlookup := lookup_eq_some_of_mem hnodup h
        rw [lookup_placed] at hlookup
        split at hlookup
        · rename_i hsymbol
          cases hlookup
          rw [hsymbol]
          apply Keeps.addSymbol hread
          rw [hdraft, Schema.length_of_read hread]
        · rename_i hsymbol
          refine (ih (mem_of_lookup_eq_some hlookup)).concat (fun _ _ heq => ?_)
            (by rw [hdraft])
          exact hsymbol (Option.some.inj heq).symm

/-! ### The model -/

theorem Consistent.index?_eq_some_iff (h : d.Consistent) {i : Nat} :
    d.schema.index? name = some i ↔ d.schema.features[i]? = some name := by
  rw [Schema.index?, List.idxOf?_eq_some_iff, List.getElem?_eq_some_iff]
  constructor
  · rintro ⟨hi, hname, -⟩
    exact ⟨hi, hname⟩
  · rintro ⟨hi, rfl⟩
    refine ⟨hi, rfl, fun j hj heq => ?_⟩
    have hji := (h.features.getElem_inj_iff).mp heq
    omega

theorem Consistent.vector_eq (h : d.Consistent) {v : FeatureVector} {serial : Nat}
    (hmem : (symbol, v) ∈ d.symbols) : (d.freeze serial).vector symbol = v := by
  rw [FeatureModel.vector]
  change (d.symbols.lookup symbol).getD _ = v
  rw [lookup_eq_some_of_mem h.symbols hmem]
  rfl

/-- After any history of calls, failing ones included, the features are the declared names in
their order, a vector has a slot for each of them, the aliases assign to such slots, and the
symbols stand in the order of their first definitions. So in the finished model every segment has
a vector of this length, and the symbol found for a vector is the first that has it. The containers
behind the draft, which every call changes one by one, hold the same throughout, and are left as
they are by a call that fails. -/
theorem ofSteps_consistent (steps : List DraftStep) (serial : Nat) :
    let d := ofSteps steps
    let n := d.schema.features.length
    let m := d.freeze serial
    (d.schema.features = (steps.filterMap DraftStep.feature?).eraseDups ∧
      d.schema.features.Nodup ∧
      ∀ name i, d.schema.index? name = some i ↔ d.schema.features[i]? = some name) ∧
    (∀ symbol v, (symbol, v) ∈ d.symbols → v.length = n ∧ Keeps steps symbol v) ∧
    (∀ p ∈ d.schema.aliases, ∀ a ∈ p.2, a.1 < n) ∧
    (d.symbols.map Prod.fst = ((empty.accepted steps).filterMap DraftStep.symbol?).eraseDups ∧
      (d.symbols.map Prod.fst).Nodup) ∧
    (∀ before step rest e, steps = before ++ step :: rest →
      step.run (ofSteps before) = .error e → ofSteps (before ++ rest) = d) ∧
    (∀ symbol, (m.resolve symbol).features.length = n) ∧
    (∀ descriptor s, m.resolveBundle descriptor = .ok s → s.features.length = n) ∧
    (∀ v symbol, m.symbolFor? v = some symbol →
      m.IsFirstWith v symbol ∧ (m.resolve symbol).features.same v = true) ∧
    (∀ symbol ∈ d.symbols.map Prod.fst,
      (m.symbolFor? (m.resolve symbol).features).isSome = true) ∧
    ((storeOf steps).Holds d ∧ (storeOf steps).freeze serial = m ∧
      ∀ (step : DraftStep) e, step.run d = .error e →
        step.call.run (storeOf steps) = .error e (storeOf steps)) := by
  intro d n m
  have hdefined : d.Defined := defined_ofSteps steps
  have h : d.Consistent := hdefined.consistent
  have hvector : ∀ symbol v, (symbol, v) ∈ d.symbols → m.vector symbol = v :=
    fun symbol v hmem => h.vector_eq hmem
  have hstore : (storeOf steps).Holds d := holds_storeOf steps
  refine ⟨⟨features_ofSteps steps, h.features, fun name i => h.index?_eq_some_iff⟩,
    fun symbol v hmem => ⟨h.vectors _ hmem, keeps_of_mem hmem⟩, h.aliases,
    ⟨symbols_ofSteps steps, h.symbols⟩, ?_, ?_, ?_, ?_, ?_, hstore, hstore.freeze h serial, ?_⟩
  · rintro before step rest e hsplit herror
    rw [← ofSteps_of_error herror, ← hsplit]
  · intro symbol
    exact (FeatureModel.Defined.freeze hdefined serial).length_vector symbol
  · intro descriptor s hs
    exact FeatureModel.length_of_resolveBundle hs
  · intro v symbol hsymbol
    obtain ⟨before, w, after, hsymbols, hsame, hbefore⟩ :=
      FeatureModel.symbolFor?_eq_some_iff.mp hsymbol
    have hmem : (symbol, w) ∈ d.symbols := by
      change (symbol, w) ∈ m.symbols
      simp [hsymbols]
    refine ⟨⟨before, w, after, hsymbols, hsame, hbefore⟩, ?_⟩
    change (m.vector symbol).same v = true
    rwa [hvector symbol w hmem]
  · intro symbol hsymbol
    obtain ⟨⟨name, v⟩, hmem, rfl⟩ := List.mem_map.mp hsymbol
    change (m.symbolFor? (m.vector name)).isSome = true
    rw [hvector name v hmem]
    by_contra hnone
    have hdiffers := FeatureModel.symbolFor?_eq_none_iff.mp (by simpa using hnone) _ hmem
    rw [FeatureVector.same_refl] at hdiffers
    cases hdiffers
  · intro step e herror
    have hagrees := step.agrees hstore
    rw [herror] at hagrees
    exact hagrees.run_eq_error

theorem ofSteps_consistent_late :
    let failing : DraftStep := .addSymbol "p" "[-high]"
    let steps : List DraftStep := [.addFeature " cons ", .addSymbol "p" "[+cons]",
      .addFeature "voice", failing, .addSymbol "b" "[+cons]"]
    let m := (ofSteps steps).freeze 1
    let v : FeatureVector := [.plus, .undefined]
    ("p", v) ∈ (ofSteps steps).symbols ∧ v.length = 2 ∧ Keeps steps "p" v ∧
      m.symbolFor? v = some "p" ∧ m.IsFirstWith v "p" ∧
      (∃ e, failing.run (ofSteps (steps.take 3)) = .error e ∧
        failing.call.run (storeOf (steps.take 3)) = .error e (storeOf (steps.take 3))) ∧
      ofSteps (steps.take 3 ++ steps.drop 4) = ofSteps steps ∧ (storeOf steps).freeze 1 = m := by
  intro failing steps m v
  obtain ⟨-, hvectors, -, -, hfailing, -, -, hfirst, -, -, hfreeze, -⟩ :=
    ofSteps_consistent steps 1
  obtain ⟨-, -, -, -, -, -, -, -, -, -, -, hkept⟩ := ofSteps_consistent (steps.take 3) 1
  have hmem : ("p", v) ∈ (ofSteps steps).symbols := by decide +kernel
  have hsymbol : m.symbolFor? v = some "p" := by decide +kernel
  have hrejected : (failing.run (ofSteps (steps.take 3))).toOption.isNone = true := by
    decide +kernel
  cases herror : failing.run (ofSteps (steps.take 3)) with
  | ok d =>
    rw [herror] at hrejected
    cases hrejected
  | error e =>
    exact ⟨hmem, rfl, (hvectors "p" v hmem).2, hsymbol, (hfirst v "p" hsymbol).1,
      ⟨e, rfl, hkept failing e herror⟩, hfailing _ _ _ e rfl herror, hfreeze⟩

end ModelDraft

end SoundLaw
