import SoundLaw.Proofs.Expansion

/-!
# Chains of definitions

A definition is expanded when it is stored, by the table as it is at that time. A symbol that
names no macro then is stored as a symbol, and stays one when it becomes the name of a macro. So a
run of definitions keeps clear of the names of macros as long as no name is defined after it has
been stored as a symbol, and a definition that reaches such a symbol through another macro takes
it over as it stands.
-/

namespace SoundLaw
set_option autoImplicit false
open Text

/-! ### Combinations -/

section Combinations
variable {options : List (List (List Segment))} {run r : List Segment} {o : List (List Segment)}

theorem exists_of_mem_combinations {x : Segment} (h : run ∈ combinations options) (hx : x ∈ run) :
    ∃ o ∈ options, ∃ r ∈ o, x ∈ r := by
  induction options generalizing run with
  | nil =>
    obtain rfl := List.mem_singleton.mp h
    cases hx
  | cons first rest ih =>
    obtain ⟨a, ha, b, hb, rfl⟩ := mem_combinations_cons.mp h
    rcases List.mem_append.mp hx with hx | hx
    · exact ⟨first, List.mem_cons_self, a, ha, hx⟩
    · obtain ⟨o, ho, hr⟩ := ih hb hx
      exact ⟨o, List.mem_cons_of_mem first ho, hr⟩

theorem ne_nil_of_mem_combinations (h : run ∈ combinations options) (ho : o ∈ options) :
    o ≠ [] := by
  induction options generalizing run with
  | nil => cases ho
  | cons first rest ih =>
    obtain ⟨a, ha, b, hb, -⟩ := mem_combinations_cons.mp h
    rcases List.mem_cons.mp ho with rfl | ho
    · exact List.ne_nil_of_mem ha
    · exact ih hb ho

theorem combinations_ne_nil (hall : ∀ o ∈ options, o ≠ []) : combinations options ≠ [] := by
  induction options with
  | nil => exact List.cons_ne_nil _ _
  | cons first rest ih =>
    obtain ⟨hfirst, hrest⟩ := List.forall_mem_cons.mp hall
    obtain ⟨a, ha⟩ := List.exists_mem_of_ne_nil first hfirst
    obtain ⟨b, hb⟩ := List.exists_mem_of_ne_nil _ (ih hrest)
    exact List.ne_nil_of_mem (mem_combinations_cons.mpr ⟨a, ha, b, hb, rfl⟩)

/-- Every run of every option is a part of some combination, unless one of the options is empty. -/
theorem exists_combination_of_mem (hall : ∀ o ∈ options, o ≠ []) (ho : o ∈ options) (hr : r ∈ o) :
    ∃ run ∈ combinations options, r ⊆ run := by
  induction options with
  | nil => cases ho
  | cons first rest ih =>
    obtain ⟨hfirst, hrest⟩ := List.forall_mem_cons.mp hall
    rcases List.mem_cons.mp ho with rfl | ho
    · obtain ⟨b, hb⟩ := List.exists_mem_of_ne_nil _ (combinations_ne_nil hrest)
      exact ⟨r ++ b, mem_combinations_cons.mpr ⟨r, hr, b, hb, rfl⟩,
        List.subset_append_left r b⟩
    · obtain ⟨a, ha⟩ := List.exists_mem_of_ne_nil first hfirst
      obtain ⟨b, hb, hsub⟩ := ih hrest ho
      exact ⟨a ++ b, mem_combinations_cons.mpr ⟨a, ha, b, hb, rfl⟩,
        List.subset_append_of_subset_right a hsub⟩

def symbolsOf (runs : List (List Segment)) : List String :=
  runs.flatMap fun run => run.map Segment.symbol

theorem mem_symbolsOf {runs : List (List Segment)} {s : String} :
    s ∈ symbolsOf runs ↔ ∃ run ∈ runs, ∃ x ∈ run, x.symbol = s := by
  simp only [symbolsOf, List.mem_flatMap, List.mem_map]

theorem mem_symbolsOf_combinations {s : String} : s ∈ symbolsOf (combinations options) ↔
    (∀ o ∈ options, o ≠ []) ∧ ∃ o ∈ options, s ∈ symbolsOf o := by
  constructor
  · intro h
    obtain ⟨run, hrun, x, hx, hs⟩ := mem_symbolsOf.mp h
    obtain ⟨o, ho, r, hr, hxr⟩ := exists_of_mem_combinations hrun hx
    exact ⟨fun _ => ne_nil_of_mem_combinations hrun, o, ho, mem_symbolsOf.mpr ⟨r, hr, x, hxr, hs⟩⟩
  · intro ⟨hall, o, ho, h⟩
    obtain ⟨r, hr, x, hx, hs⟩ := mem_symbolsOf.mp h
    obtain ⟨run, hrun, hsub⟩ := exists_combination_of_mem hall ho hr
    exact mem_symbolsOf.mpr ⟨run, hrun, x, hsub hx, hs⟩

end Combinations

/-! ### Definitions -/

namespace MacroTable
variable {t t' : MacroTable} {name s : String} {tokens : List String}

theorem mem_names_iff : s ∈ t.names ↔ ∃ runs, t.find? s = some runs := mem_keys_iff

theorem runsOf_of_not_mem (h : s ∉ t.names) : t.runsOf s = [[t.model.resolve s]] := by
  have hnone : t.find? s = none :=
    Option.eq_none_iff_forall_ne_some.mpr fun runs hfind => h (mem_names_iff.mpr ⟨runs, hfind⟩)
  rw [runsOf, hnone, Option.getD_none]

theorem define_name {x : String} (hx : x ∈ t.names) (hne : x ≠ name) (hempty : x ≠ "")
    (hblank : ∀ c ∈ x.toList, isBlank c = false) :
    t.define name [x] = .ok { t with entries := put name (t.runsOf x) t.entries } := by
  have hsplit : (Segmenter.withSymbols t.model (t.names ++ [name])).split x = [x] :=
    Segmenter.split_self (Segmenter.mem_symbols_withSymbols.mpr
      ⟨.inr (List.mem_append_left _ hx), hempty⟩) hblank
  have hexpand : t.expand name [x] = .ok (t.runsOf x) := by
    rw [expand_of_not_mem fun hmem => hne (List.mem_singleton.mp hmem).symm]
    simp [contribution, cartesianProduct, combinations]
  simp [define, hsplit, hexpand, pure, Except.pure, bind, Except.bind]

def Stored (t : MacroTable) (s : String) : Prop :=
  ∃ name ∈ t.names, s ∈ symbolsOf (t.runsOf name)

def Closed (t : MacroTable) : Prop :=
  ∀ name ∈ t.names, List.Disjoint (symbolsOf (t.runsOf name)) t.names

theorem mem_symbolsOf_contribution {symbols : List String} :
    s ∈ symbolsOf (t.contribution symbols) ↔
      (∀ part ∈ symbols, t.runsOf part ≠ []) ∧ ∃ part ∈ symbols, s ∈ symbolsOf (t.runsOf part) := by
  cases symbols with
  | nil => simp [contribution, cartesianProduct, symbolsOf]
  | cons part symbols =>
    rw [contribution, cartesianProduct_of_ne_nil (by simp), mem_symbolsOf_combinations]
    simp only [List.mem_map, exists_exists_and_eq_and, forall_exists_index, and_imp,
      forall_apply_eq_imp_iff₂]

theorem runsOf_define_of_ne (h : t.define name tokens = .ok t') (hs : s ≠ name) :
    t'.runsOf s = t.runsOf s := by
  have hdefines := defines_of_define h
  rw [runsOf, runsOf, hdefines.find?, if_neg hs, hdefines.model]

/-- A token leaves symbols behind if each of its parts stands for something, namely those of its
parts. -/
theorem mem_symbolsOf_define (h : t.define name tokens = .ok t') :
    s ∈ symbolsOf (t'.runsOf name) ↔ ∃ token ∈ tokens,
      (∀ part ∈ t'.segmenter.split token, t.runsOf part ≠ []) ∧
        ∃ part ∈ t'.segmenter.split token, s ∈ symbolsOf (t.runsOf part) := by
  simp only [← mem_symbolsOf_contribution]
  rw [runsOf, (defines_of_define h).find?, if_pos rfl, Option.getD_some, symbolsOf,
    List.flatMap_assoc]
  exact List.mem_flatMap

theorem disjoint_define_iff (h : t.define name tokens = .ok t') :
    List.Disjoint (symbolsOf (t'.runsOf name)) t'.names ↔ ∀ token ∈ tokens,
      (∀ part ∈ t'.segmenter.split token, t.runsOf part ≠ []) →
        ∀ part ∈ t'.segmenter.split token, part ∈ t.names →
          List.Disjoint (symbolsOf (t.runsOf part)) t'.names := by
  constructor
  · intro hdisjoint token htoken hsome part hpart _ s hs
    exact hdisjoint ((mem_symbolsOf_define h).mpr ⟨token, htoken, hsome, part, hpart, hs⟩)
  · intro hparts s hs hname
    obtain ⟨token, htoken, hsome, part, hpart, hs⟩ := (mem_symbolsOf_define h).mp hs
    by_cases hmacro : part ∈ t.names
    · exact hparts token htoken hsome part hpart hmacro hs hname
    · rw [runsOf_of_not_mem hmacro] at hs
      obtain rfl : s = part := by simpa [symbolsOf, FeatureModel.resolve] using hs
      rcases ((defines_of_define h).names s).mp hname with hold | rfl
      · exact hmacro hold
      · exact (defines_of_define h).not_mem token htoken hpart

theorem closed_define_iff (ht : t.Closed) (h : t.define name tokens = .ok t') :
    t'.Closed ↔ name ∈ t.names ∨ ¬ t.Stored name := by
  have hnames := (defines_of_define h).names
  constructor
  · intro ht'
    refine or_iff_not_imp_left.mpr fun hnew hstored => ?_
    obtain ⟨other, hother, hmem⟩ := hstored
    have hne : other ≠ name := fun heq => hnew (heq ▸ hother)
    rw [← runsOf_define_of_ne h hne] at hmem
    exact ht' other ((hnames other).mpr (.inl hother)) hmem ((hnames name).mpr (.inr rfl))
  · intro hfresh
    -- the old alternatives are as clear of the new name as of the old ones
    have hold : ∀ other ∈ t.names, List.Disjoint (symbolsOf (t.runsOf other)) t'.names := by
      intro other hother s hs hs'
      rcases (hnames s).mp hs' with hs' | rfl
      · exact ht other hother hs hs'
      · rcases hfresh with hdefined | hfresh
        · exact ht other hother hs hdefined
        · exact hfresh ⟨other, hother, hs⟩
    intro other hother
    by_cases hne : other = name
    · rw [hne]
      exact (disjoint_define_iff h).mpr fun _ _ _ part _ hpart => hold part hpart
    · rw [runsOf_define_of_ne h hne]
      exact hold other (((hnames other).mp hother).resolve_right hne)

/-! ### Runs of definitions -/

/-- A name is defined by tokens, either directly or by a line that consists of them. -/
inductive Stores (t : MacroTable) (name : String) (tokens : List String) (t' : MacroTable) : Prop
  | define (h : t.define name tokens = .ok t')
  | add {line : String} {left body : List Char} (hcut : cut? '=' line.toList = some (left, body))
      (hname : name = String.ofList (trim left))
      (htokens : tokens = (Text.words body).map String.ofList) (h : t.add line = .ok t')

theorem Stores.define_eq_ok (h : t.Stores name tokens t') : t.define name tokens = .ok t' := by
  cases h with
  | define h => exact h
  | add hcut hname htokens h =>
    obtain ⟨left, body, hparts, -, -, hdefine⟩ := exists_of_add h
    obtain ⟨rfl, rfl⟩ := Prod.mk.inj (Option.some.inj (hcut.symm.trans hparts))
    rwa [hname, htokens]

/-- The tables of the runs in which no name is defined after it has been stored as a symbol. -/
inductive Orderly (m : FeatureModel) : MacroTable → Prop
  | empty : Orderly m (.empty m)
  | store {t t' : MacroTable} {name : String} {tokens : List String} (ht : Orderly m t)
      (h : t.Stores name tokens t') (hfresh : name ∈ t.names ∨ ¬ t.Stored name) : Orderly m t'

theorem Orderly.closed {m : FeatureModel} (h : Orderly m t) : t.Closed := by
  induction h with
  | empty =>
    intro name hname
    cases hname
  | store _ h hfresh ih => exact (closed_define_iff ih h.define_eq_ok).mpr hfresh

/-- A definition is stored only if its tokens do not mention the name itself. What it stores is
clear of macros unless a macro that it mentions has a name among its symbols by then; and in a run
all that is stored is clear of macros up to the first name that has been stored as a symbol. -/
theorem stores_disjoint_iff (h : t.Stores name tokens t') :
    (∀ token ∈ tokens, name ∉ t'.segmenter.split token) ∧
    (List.Disjoint (symbolsOf (t'.runsOf name)) t'.names ↔ ∀ token ∈ tokens,
      (∀ part ∈ t'.segmenter.split token, t.runsOf part ≠ []) →
        ∀ part ∈ t'.segmenter.split token, part ∈ t.names →
          List.Disjoint (symbolsOf (t.runsOf part)) t'.names) ∧
    ∀ m, Orderly m t → t.Closed ∧ (t'.Closed ↔ name ∈ t.names ∨ ¬ t.Stored name) :=
  ⟨(defines_of_define h.define_eq_ok).not_mem, disjoint_define_iff h.define_eq_ok,
    fun _ horderly => ⟨horderly.closed, closed_define_iff horderly.closed h.define_eq_ok⟩⟩

/-- The name of a macro that has been stored as a symbol before: the table was closed and is not
any more. -/
theorem stores_disjoint_chain :
    let chain : MacroTable := ⟨.empty, [("X", ["a", "b"].map ([FeatureModel.empty.resolve ·]))]⟩
    ∃ t', chain.Stores "a" ["X"] t' ∧ Orderly .empty chain ∧ chain.Closed ∧ ¬ t'.Closed := by
  intro chain
  have hchain : (empty .empty).define "X" ["a", "b"] = .ok chain := by with_unfolding_all rfl
  have hblank : ∀ c ∈ "X".toList, isBlank c = false := by
    intro c hc
    obtain rfl : c = 'X' := by simpa using hc
    decide
  have hdefine := define_name (t := chain) (by decide) (show "X" ≠ "a" by decide) (by decide) hblank
  have horderly : Orderly .empty chain := by
    refine .store .empty (.define hchain) (.inr ?_)
    rintro ⟨name, hname, -⟩
    cases hname
  have hstored : chain.Stored "a" := ⟨"X", by decide, by decide⟩
  obtain ⟨hclosed, hiff⟩ := (stores_disjoint_iff (.define hdefine)).2.2 .empty horderly
  refine ⟨_, .define hdefine, horderly, hclosed, fun hclosed' => ?_⟩
  rcases hiff.mp hclosed' with hname | hfresh
  · exact absurd hname (by decide)
  · exact hfresh hstored

/-- A symbol that becomes a macro by a token that reaches it through another macro. The definition
is stored, and refers to itself. -/
theorem exists_stores_cyclic : ∃ t t', (empty .empty).Stores "X" ["a", "b"] t ∧
    t.Stores "a" ["X"] t' ∧ "a" ∈ t'.names ∧ "a" ∈ symbolsOf (t'.runsOf "a") := by
  let chain : MacroTable := ⟨.empty, [("X", ["a", "b"].map ([FeatureModel.empty.resolve ·]))]⟩
  have hchain : (empty .empty).define "X" ["a", "b"] = .ok chain := by with_unfolding_all rfl
  have hblank : ∀ c ∈ "X".toList, isBlank c = false := by
    intro c hc
    obtain rfl : c = 'X' := by simpa using hc
    decide
  have hdefine := define_name (t := chain) (by decide) (show "X" ≠ "a" by decide) (by decide) hblank
  exact ⟨chain, _, .define hchain, .define hdefine, by decide, by decide⟩

end MacroTable

end SoundLaw
