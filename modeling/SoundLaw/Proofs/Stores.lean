import SoundLaw.Feature.Store
import SoundLaw.MacroStore
import SoundLaw.Proofs.Expansion
import SoundLaw.Proofs.Models

/-!
# What the containers hold

In a draft and in a table of macros a name has its value beside it, and its place is where it
stands. The containers say the same in several places, which are changed one after another: the slot
of a feature is a number in a map, and the order of symbols or macros a list that a name is added to
if the map did not have it. They stay in step because a call reads all that it needs before it
changes the first of them. For the same reason a call that fails leaves them as they were.
-/

namespace SoundLaw
set_option autoImplicit false
open Text

/-- A call on a store ends as a function on what it holds: with a store that holds the result, or
with the same fault and the store as it was. -/
inductive Agrees {ε σ τ : Type} (holds : σ → τ → Prop) (s : σ) :
    EStateM.Result ε σ Unit → Except ε τ → Prop
  | ok {s' : σ} {t' : τ} (h : holds s' t') : Agrees holds s (.ok () s') (.ok t')
  | error (e : ε) : Agrees holds s (.error e s) (.error e)

namespace Agrees
variable {ε σ τ α : Type} {holds : σ → τ → Prop} {call : Call ε σ Unit} {s : σ} {t : τ}

theorem left {x : Except ε τ} (h : Agrees holds s (call.run s) x) (hs : holds s t) :
    holds (call.left s) (x.toOption.getD t) := by
  rw [Call.left]
  generalize call.run s = result at h
  cases h with
  | ok h => exact h
  | error e => exact hs

theorem run_eq_error {e : ε} (h : Agrees holds s (call.run s) (.error e)) :
    call.run s = .error e s := by
  generalize call.run s = result at h
  cases h
  rfl

/-- Where both begin with reading the same, they are compared behind it. -/
theorem reading_bind {f : σ → Except ε α} {x : Except ε α} {next : α → Call ε σ Unit}
    {result : α → Except ε τ} (hread : f s = x)
    (h : ∀ a, x = .ok a → Agrees holds s ((next a).run s) (result a)) :
    Agrees holds s ((Call.reading f >>= next).run s) (x >>= result) := by
  cases hx : x with
  | error e =>
    rw [Call.run_reading_bind_of_error (hread.trans hx)]
    exact .error e
  | ok a =>
    rw [Call.run_reading_bind_of_ok (hread.trans hx)]
    exact h a hx

/-- A name is put into a map, and into the list beside it unless the map had it. -/
theorem put {known : σ → Bool} {put add : σ → σ} (hold : known s = true → holds (put s) t)
    (hnew : ¬ known s = true → holds (add (put s)) t) :
    Agrees holds s
      (EStateM.run (ε := ε) (do
        let isKnown ← modifyGet fun s => (known s, put s)
        unless isKnown do modify add) s)
      (.ok t) := by
  rw [EStateM.run_bind, EStateM.run_modifyGet]
  cases h : known s with
  | true =>
    change Agrees holds s (.ok () (put s)) _
    exact .ok (hold h)
  | false =>
    change Agrees holds s (.ok () (add (put s))) _
    exact .ok (hnew (Bool.eq_false_iff.mp h))

end Agrees

/-! ### Maps and lists -/

section Lists
variable {α : Type} {entries : List (String × α)} {key name : String}

theorem lookup_map_snd {f : α → α} :
    (entries.map fun p => (p.1, f p.2)).lookup key = (entries.lookup key).map f := by
  induction entries with
  | nil => rfl
  | cons p entries ih =>
    rw [List.map_cons, List.lookup_cons, List.lookup_cons, ih]
    cases key == p.1 <;> rfl

theorem lookup_cons_ite {value : α} :
    ((name, value) :: entries).lookup key =
      if key = name then some value else entries.lookup key := by
  rw [List.lookup_cons]
  by_cases h : key = name
  · rw [if_pos h, beq_iff_eq.mpr h]
  · rw [if_neg h, beq_eq_false_iff_ne.mpr h]

theorem isSome_lookup : (entries.lookup key).isSome = decide (key ∈ entries.map Prod.fst) := by
  rw [Bool.eq_iff_iff, decide_eq_true_iff, mem_keys_iff, Option.isSome_iff_exists]

/-- A map and the list of its keys, in the order in which they came up, against a list of
entries. -/
structure InStep (values : List (String × α)) (keys : List String)
    (entries : List (String × α)) : Prop where
  values : ∀ key, values.lookup key = entries.lookup key
  keys : keys = entries.map Prod.fst

namespace InStep
variable {values : List (String × α)} {keys : List String}

theorem put (h : InStep values keys entries) (key : String) (value : α) :
    InStep ((key, value) :: values)
      (if (values.lookup key).isSome then keys else keys ++ [key])
      (placed key value entries) where
  values other := by
    rw [lookup_cons_ite, lookup_placed, h.values]
  keys := by
    rw [keys_placed, h.values, isSome_lookup, h.keys]
    simp only [decide_eq_true_iff]

theorem put_old (h : InStep values keys entries) (hold : (values.lookup key).isSome = true)
    (value : α) : InStep ((key, value) :: values) keys (placed key value entries) := by
  have hput := h.put key value
  rwa [if_pos hold] at hput

theorem put_new (h : InStep values keys entries) (hnew : ¬ (values.lookup key).isSome = true)
    (value : α) : InStep ((key, value) :: values) (keys ++ [key]) (placed key value entries) := by
  have hput := h.put key value
  rwa [if_neg hnew] at hput

theorem map_snd (h : InStep values keys entries) (f : α → α) :
    InStep (values.map fun p => (p.1, f p.2)) keys (entries.map fun p => (p.1, f p.2)) where
  values key := by
    rw [lookup_map_snd, lookup_map_snd, h.values]
  keys := by
    rw [List.map_map]
    exact h.keys

/-- The keys in their order and the values by lookup make up the entries. -/
theorem filterMap_lookup (h : InStep values keys entries) (hnodup : (entries.map Prod.fst).Nodup) :
    (keys.filterMap fun key => (values.lookup key).map (key, ·)) = entries := by
  simp only [h.values, h.keys, List.filterMap_map]
  refine (List.filterMap_congr fun p hp => ?_).trans List.filterMap_some
  rw [Function.comp_apply, lookup_eq_some_of_mem hnodup hp]
  rfl

end InStep

theorem idxOf?_concat {names : List String} (h : name ∉ names) :
    (names ++ [name]).idxOf? key = if key = name then some names.length else names.idxOf? key := by
  rw [List.idxOf?, List.findIdx?_append, ← List.idxOf?]
  by_cases hkey : key = name
  · subst hkey
    rw [List.idxOf?_eq_none_iff.mpr h, if_pos rfl]
    simp
  · rw [if_neg hkey]
    simp [Ne.symm hkey]

theorem isSome_idxOf? (names : List String) (name : String) :
    (names.idxOf? name).isSome = names.contains name := by
  rw [Bool.eq_iff_iff, List.contains_iff_mem, Option.isSome_iff_ne_none, Ne,
    List.idxOf?_eq_none_iff, not_not]

end Lists

/-! ### Drafts -/

namespace DraftStore
variable {s : DraftStore} {d : ModelDraft}

/-- The containers say of every name what a draft says of it. -/
structure Holds (s : DraftStore) (d : ModelDraft) : Prop where
  features : s.features = d.schema.features
  slots : ∀ name, s.slots.lookup name = d.schema.index? name
  aliases : s.aliases = d.schema.aliases
  symbols : InStep s.vectors s.order d.symbols

namespace Holds

theorem empty : Holds .empty .empty where
  features := rfl
  slots _ := rfl
  aliases := rfl
  symbols := ⟨fun _ => rfl, rfl⟩

theorem glossary (h : s.Holds d) : s.glossary = d.schema.glossary := by
  rw [DraftStore.glossary, Schema.glossary, h.aliases]
  exact congrArg (Glossary.mk · _) (funext h.slots)

theorem addFeature (h : s.Holds d) (name : String) :
    Agrees Holds s ((DraftStore.addFeature name).run s) (d.addFeature name) := by
  have hdraft : d.addFeature name =
      (if d.schema.features.contains (trimmed name) then
        .error (.model (.duplicateFeature (trimmed name))) else .ok ()) >>= fun _ =>
          .ok ⟨d.schema.addFeature (trimmed name),
            d.symbols.map fun p => (p.1, p.2 ++ [.undefined])⟩ := by
    change (if d.schema.features.contains (trimmed name) then _ else _) = _
    split <;> rfl
  rw [DraftStore.addFeature, hdraft]
  refine .reading_bind ?_ fun _ hnew => ?_
  · rw [h.slots, Schema.index?, isSome_idxOf?]
    rfl
  change Agrees Holds s (.ok () { s with
    slots := (trimmed name, s.features.length) :: s.slots
    features := s.features ++ [trimmed name]
    vectors := s.vectors.map fun p => (p.1, p.2 ++ [.undefined]) }) _
  refine .ok ⟨?_, fun other => ?_, h.aliases, h.symbols.map_snd fun v => v ++ [.undefined]⟩
  · rw [h.features]
    rfl
  · have hname : trimmed name ∉ d.schema.features := by
      intro hname
      rw [if_pos (List.contains_iff_mem.mpr hname)] at hnew
      cases hnew
    rw [Schema.addFeature, Schema.index?, lookup_cons_ite, idxOf?_concat hname, h.slots,
      h.features]
    rfl

theorem addAlias (h : s.Holds d) (name descriptor : String) :
    Agrees Holds s ((DraftStore.addAlias name descriptor).run s) (d.addAlias name descriptor) := by
  have hdraft : d.addAlias name descriptor =
      (d.schema.assignments descriptor).mapError .rule >>= fun assignments =>
        .ok { d with schema := d.schema.addAlias (trimmed name) assignments } := by
    rw [ModelDraft.addAlias]
    cases d.schema.assignments descriptor <;> rfl
  rw [DraftStore.addAlias, hdraft]
  refine .reading_bind (by rw [h.glossary]; rfl) fun assignments _ => ?_
  change Agrees Holds s (.ok () { s with aliases := (trimmed name, assignments) :: s.aliases }) _
  refine .ok ⟨h.features, h.slots, ?_, h.symbols⟩
  rw [h.aliases]
  rfl

theorem addSymbol (h : s.Holds d) (name descriptor : String) :
    Agrees Holds s ((DraftStore.addSymbol name descriptor).run s)
      (d.addSymbol name descriptor) := by
  have hdraft : d.addSymbol name descriptor =
      (d.schema.read descriptor .undefined).mapError .rule >>= fun v =>
        .ok { d with symbols := placed (trimmed name) v d.symbols } := by
    rw [ModelDraft.addSymbol]
    cases d.schema.read descriptor .undefined with
    | error e => rfl
    | ok v =>
      have hsymbols := ModelDraft.define_eq (trimmed name) v d.symbols
      exact congrArg (fun symbols => Except.ok (ModelDraft.mk d.schema symbols)) hsymbols
  rw [DraftStore.addSymbol, hdraft]
  refine .reading_bind (by rw [h.glossary, h.features]; rfl) fun v _ => ?_
  exact .put (fun hold => ⟨h.features, h.slots, h.aliases, h.symbols.put_old hold v⟩)
    fun hnew => ⟨h.features, h.slots, h.aliases, h.symbols.put_new hnew v⟩

theorem freeze (h : s.Holds d) (hd : d.Consistent) (serial : Nat) :
    s.freeze serial = d.freeze serial := by
  rw [DraftStore.freeze, ModelDraft.freeze, h.symbols.filterMap_lookup hd.symbols, h.features,
    h.aliases]

end Holds

end DraftStore

/-! ### Tables of macros -/

namespace MacroStore
variable {s : MacroStore} {t : MacroTable}

structure Holds (s : MacroStore) (t : MacroTable) : Prop where
  model : s.model = t.model
  entries : InStep s.alternatives s.names t.entries

namespace Holds

theorem empty (m : FeatureModel) : Holds (.empty m) (.empty m) where
  model := rfl
  entries := ⟨fun _ => rfl, rfl⟩

/-- The tokens of a definition stand for the same, as they are looked up and not counted. -/
theorem define_eq (h : s.Holds t) (name : String) (tokens : List String) :
    t.define name tokens = s.expand name tokens >>= fun runs =>
      .ok { t with entries := MacroTable.put name runs t.entries } := by
  have hoptions : MacroTable.options ⟨t.model, s.alternatives⟩ name = t.options name := by
    funext symbol
    simp only [MacroTable.options, MacroTable.find?, h.entries.values]
  have hnames : s.names = t.names := h.entries.keys
  simp only [MacroTable.define, MacroStore.expand, MacroTable.expand, hoptions, h.model, hnames,
    bind_assoc]
  rfl

theorem define (h : s.Holds t) (name : String) (tokens : List String) :
    Agrees Holds s ((MacroStore.define name tokens).run s) (t.define name tokens) := by
  rw [h.define_eq]
  refine .reading_bind rfl fun runs _ => ?_
  rw [MacroTable.put_eq]
  exact .put (fun hold => ⟨h.model, h.entries.put_old hold runs⟩)
    fun hnew => ⟨h.model, h.entries.put_new hnew runs⟩

theorem add (h : s.Holds t) (definition : String) :
    Agrees Holds s ((MacroStore.add definition).run s) (t.add definition) :=
  .reading_bind rfl fun p _ => h.define p.1 p.2

end Holds

end MacroStore

end SoundLaw
