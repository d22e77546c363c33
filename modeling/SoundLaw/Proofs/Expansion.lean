import SoundLaw.Proofs.Entries
import SoundLaw.Proofs.Parsing
import SoundLaw.Proofs.Segmentation
import SoundLaw.Proofs.Texts

/-!
# Macros and their definitions

What a definition stores can be found again, and nothing else changes. A macro that has just been
defined stands for what its tokens stand for in the same table, since a token that mentions the
macro itself is refused. The runs that a token contributes, joined from every combination of
alternatives, are those that its symbols read one after another, from either side.
-/

namespace SoundLaw
set_option autoImplicit false
open Text

/-! ### Runs -/

namespace Passage

/-- Reads one of the runs, in the order of the side. -/
def ofRuns (side : Side) (target : List Segment) (runs : List (List Segment)) : Passage :=
  fun i j => ∃ run ∈ runs, j = i + run.length ∧ Stands target i (side.orient run)

end Passage

section Runs
variable {side : Side} {target : List Segment} {i j : Nat}

theorem stands_append {a b : List Segment} :
    Stands target i (a ++ b) ↔ Stands target i a ∧ Stands target (i + a.length) b := by
  constructor
  · intro h
    constructor
    · intro k s hs
      refine h k s ?_
      rw [List.getElem?_append_left (List.getElem?_eq_some_iff.mp hs).1, hs]
    · intro k s hs
      obtain ⟨x, hx, hfits⟩ := h (a.length + k) s (by
        rw [List.getElem?_append_right (Nat.le_add_right _ _), Nat.add_sub_cancel_left, hs])
      exact ⟨x, by rw [Nat.add_assoc, hx], hfits⟩
  · intro ⟨ha, hb⟩ k s hs
    by_cases hk : k < a.length
    · exact ha k s (by rw [← hs, List.getElem?_append_left hk])
    · have hle := Nat.le_of_not_lt hk
      rw [List.getElem?_append_right hle] at hs
      obtain ⟨x, hx, hfits⟩ := hb (k - a.length) s hs
      refine ⟨x, ?_, hfits⟩
      rw [← hx, Nat.add_assoc, Nat.add_sub_cancel' hle]

theorem stands_singleton {s : Segment} :
    Stands target i [s] ↔ ∃ x, target[i]? = some x ∧ x.fits s = true := by
  constructor
  · intro h
    exact h 0 s rfl
  · intro ⟨x, hx, hfits⟩ k s' hs'
    obtain ⟨hk, rfl⟩ := List.getElem?_eq_some_iff.mp hs'
    obtain rfl : k = 0 := Nat.lt_one_iff.mp hk
    exact ⟨x, hx, hfits⟩

theorem mem_combinations_cons {options : List (List Segment)} {rest : List (List (List Segment))}
    {run : List Segment} : run ∈ combinations (options :: rest) ↔
      ∃ a ∈ options, ∃ b ∈ combinations rest, run = a ++ b := by
  simp only [combinations, List.mem_flatMap, List.mem_map, eq_comm]

theorem ofRuns_nil : Passage.ofRuns side target [[]] i j ↔ i = j := by
  constructor
  · rintro ⟨run, hrun, rfl, -⟩
    obtain rfl := List.mem_singleton.mp hrun
    rfl
  · rintro rfl
    refine ⟨[], List.mem_singleton_self _, rfl, fun k s hs => ?_⟩
    cases side <;> cases hs

theorem ofRuns_flatMap {α : Type} {xs : List α} {f : α → List (List Segment)} :
    Passage.ofRuns side target (xs.flatMap f) i j ↔
      ∃ x ∈ xs, Passage.ofRuns side target (f x) i j := by
  constructor
  · rintro ⟨run, hrun, hread⟩
    obtain ⟨x, hx, hrun⟩ := List.mem_flatMap.mp hrun
    exact ⟨x, hx, run, hrun, hread⟩
  · rintro ⟨x, hx, run, hrun, hread⟩
    exact ⟨run, List.mem_flatMap.mpr ⟨x, hx, hrun⟩, hread⟩

/-- Every combination of options is read option by option. -/
theorem ofRuns_combinations {options : List (List (List Segment))} :
    Passage.ofRuns side target (combinations options) i j ↔
      Passage.composition (side.orient (options.map (Passage.ofRuns side target))) i j := by
  induction options generalizing i j with
  | nil =>
    rw [combinations, ofRuns_nil]
    cases side <;> exact Iff.rfl
  | cons first rest ih =>
    cases side with
    | right =>
      have hrest : ∀ {i j}, Passage.ofRuns .right target (combinations rest) i j ↔
          Passage.composition (rest.map (Passage.ofRuns .right target)) i j := ih
      simp only [Side.orient, List.map_cons, Passage.composition, ← hrest]
      constructor
      · rintro ⟨run, hrun, rfl, hstands⟩
        obtain ⟨a, ha, b, hb, rfl⟩ := mem_combinations_cons.mp hrun
        obtain ⟨hstandsa, hstandsb⟩ := stands_append.mp hstands
        refine ⟨i + a.length, ⟨a, ha, rfl, hstandsa⟩, b, hb, ?_, hstandsb⟩
        rw [List.length_append, Nat.add_assoc]
      · rintro ⟨_, ⟨a, ha, rfl, hstandsa⟩, b, hb, rfl, hstandsb⟩
        refine ⟨a ++ b, mem_combinations_cons.mpr ⟨a, ha, b, hb, rfl⟩, ?_,
          stands_append.mpr ⟨hstandsa, hstandsb⟩⟩
        rw [List.length_append, Nat.add_assoc]
    | left =>
      have hrest : ∀ {i j}, Passage.ofRuns .left target (combinations rest) i j ↔
          Passage.composition (rest.map (Passage.ofRuns .left target)).reverse i j := ih
      simp only [Side.orient, List.map_cons, List.reverse_cons,
        Passage.composition_append_singleton, ← hrest]
      constructor
      · rintro ⟨run, hrun, rfl, hstands⟩
        obtain ⟨a, ha, b, hb, rfl⟩ := mem_combinations_cons.mp hrun
        rw [Side.orient, List.reverse_append, stands_append, List.length_reverse] at hstands
        refine ⟨i + b.length, ⟨b, hb, rfl, hstands.1⟩, a, ha, ?_, hstands.2⟩
        rw [List.length_append]
        omega
      · rintro ⟨_, ⟨b, hb, rfl, hstandsb⟩, a, ha, rfl, hstandsa⟩
        refine ⟨a ++ b, mem_combinations_cons.mpr ⟨a, ha, b, hb, rfl⟩, ?_, ?_⟩
        · rw [List.length_append]
          omega
        · rw [Side.orient, List.reverse_append, stands_append, List.length_reverse]
          exact ⟨hstandsb, hstandsa⟩

theorem cartesianProduct_of_ne_nil {options : List (List (List Segment))} (h : options ≠ []) :
    cartesianProduct options = combinations options := by
  cases options with
  | nil => exact absurd rfl h
  | cons first rest => rfl

end Runs

/-! ### Tables -/

namespace MacroTable
variable {t t' : MacroTable} {name s : String} {tokens symbols : List String}
variable {runs : List (List Segment)}

/-- The alternatives of a macro, or the segment of any other symbol. -/
def runsOf (t : MacroTable) (s : String) : List (List Segment) :=
  (t.find? s).getD [[t.model.resolve s]]

/-- The runs that a token stands for. -/
def expansion (t : MacroTable) (token : String) : List (List Segment) :=
  combinations ((t.segmenter.split token).map t.runsOf)

theorem options_self : t.options name name = .error (.cyclicMacro name) := by
  rw [options, if_pos rfl]

theorem options_of_ne (h : s ≠ name) : t.options name s = .ok (t.runsOf s) := by
  rw [options, if_neg h, runsOf]
  cases t.find? s <;> rfl

theorem expand_of_mem (h : name ∈ symbols) :
    t.expand name symbols = .error (.cyclicMacro name) := by
  have hoptions : symbols.mapM (t.options name) = .error (.cyclicMacro name) := by
    refine mapM_eq_error h options_self fun s _ e he => ?_
    by_cases hs : s = name
    · rw [hs, options_self] at he
      exact (Except.error.inj he).symm
    · rw [options_of_ne hs] at he
      cases he
  rw [expand, hoptions]
  rfl

def contribution (t : MacroTable) (symbols : List String) : List (List Segment) :=
  cartesianProduct (symbols.map t.runsOf)

theorem expand_of_not_mem (h : name ∉ symbols) :
    t.expand name symbols = .ok (t.contribution symbols) := by
  have hoptions : symbols.mapM (t.options name) = .ok (symbols.map t.runsOf) :=
    mapM_eq_ok fun s hs => options_of_ne fun heq => h (heq ▸ hs)
  rw [expand, hoptions]
  rfl

theorem expand_eq_ok (h : t.expand name symbols = .ok runs) :
    (∀ s ∈ symbols, s ≠ name) ∧ runs = t.contribution symbols := by
  by_cases hmem : name ∈ symbols
  · rw [expand_of_mem hmem] at h
    cases h
  · rw [expand_of_not_mem hmem] at h
    cases h
    exact ⟨fun s hs heq => hmem (heq ▸ hs), rfl⟩

theorem lookup_put {entries : List (String × List (List Segment))} :
    (put name runs entries).lookup s = if s = name then some runs else entries.lookup s := by
  rw [put_eq, lookup_placed]

theorem mem_names_put {entries : List (String × List (List Segment))} :
    s ∈ (put name runs entries).map Prod.fst ↔ s ∈ entries.map Prod.fst ∨ s = name := by
  rw [put_eq, mem_keys_placed]

/-- What becomes of a table by a definition: it adds its name, and changes what this name stands for
alone. The tokens, which do not mention the name, are cut into symbols as they are in the table
behind it. -/
structure Defines (t : MacroTable) (name : String) (tokens : List String) (t' : MacroTable) :
    Prop where
  model : t'.model = t.model
  names : ∀ s, s ∈ t'.names ↔ s ∈ t.names ∨ s = name
  not_mem : ∀ token ∈ tokens, name ∉ t'.segmenter.split token
  find? : ∀ s, t'.find? s =
    if s = name then some (tokens.flatMap fun token => t.contribution (t'.segmenter.split token))
    else t.find? s

theorem defines_of_define (h : t.define name tokens = .ok t') : t.Defines name tokens t' := by
  obtain ⟨runs, hruns, h⟩ := bind_eq_ok.mp h
  cases h
  have hsplit : (Segmenter.withSymbols t.model (t.names ++ [name])).split =
      (segmenter ⟨t.model, put name runs.flatten t.entries⟩).split := by
    funext token
    refine Segmenter.split_withSymbols_congr (fun s => ?_) token
    rw [List.mem_append, List.mem_singleton]
    exact mem_names_put.symm
  rw [hsplit] at hruns
  obtain ⟨hname, heq⟩ := eq_map_of_mapM (fun token _ runs => expand_eq_ok) hruns
  refine ⟨rfl, fun _ => mem_names_put, fun token htoken hmem => ?_, fun s => ?_⟩
  · exact hname token htoken name hmem rfl
  · rw [List.flatMap_def, ← heq]
    exact lookup_put

/-- Right behind its definition a macro stands for what its tokens stand for. -/
theorem find?_define (h : t.define name tokens = .ok t')
    (hsome : ∀ token ∈ tokens, t'.segmenter.split token ≠ []) :
    name ∈ t'.names ∧ t'.find? name = some (tokens.flatMap t'.expansion) := by
  have hdefines := defines_of_define h
  refine ⟨(hdefines.names name).mpr (.inr rfl), ?_⟩
  rw [hdefines.find?, if_pos rfl]
  congr 1
  refine List.flatMap_congr fun token htoken => ?_
  rw [contribution, cartesianProduct_of_ne_nil (by simpa using hsome token htoken)]
  refine congrArg combinations (List.map_congr_left fun s hs => ?_)
  have hne : s ≠ name := fun heq => hdefines.not_mem token htoken (heq ▸ hs)
  rw [runsOf, runsOf, hdefines.find?, if_neg hne, hdefines.model]

end MacroTable

/-! ### Texts of definitions -/

/-- A character that means something of its own in a pattern. -/
def isReserved (c : Char) : Bool := "()\x7b\x7d[]?*+!#.".toList.contains c

/-- A token of a definition that brackets and marks have no part in. -/
structure IsToken (s : String) : Prop where
  ne_empty : s ≠ ""
  blank : ∀ c ∈ s.toList, isBlank c = false
  reserved : ∀ c ∈ s.toList, isReserved c = false

theorem isToken_iff {s : String} :
    IsToken s ↔ s ≠ "" ∧ s.toList.all (fun c => !isBlank c && !isReserved c) = true := by
  simp only [List.all_eq_true, Bool.and_eq_true, Bool.not_eq_true']
  constructor
  · intro h
    exact ⟨h.ne_empty, fun c hc => ⟨h.blank c hc, h.reserved c hc⟩⟩
  · intro ⟨hne, hall⟩
    exact ⟨hne, fun c hc => (hall c hc).1, fun c hc => (hall c hc).2⟩

instance (s : String) : Decidable (IsToken s) := decidable_of_iff _ isToken_iff.symm

namespace MacroTable
variable {t t' : MacroTable} {name : String} {tokens : List String}

def definitionText (name : String) (tokens : List String) : String :=
  name ++ " = " ++ " ".intercalate tokens

theorem exists_of_add {line : String} (h : t.add line = .ok t') : ∃ left body,
    cut? '=' line.toList = some (left, body) ∧ trim left ≠ [] ∧
      (∀ c ∈ trim left, isBlank c = false) ∧
        t.define (String.ofList (trim left)) ((Text.words body).map String.ofList) = .ok t' := by
  obtain ⟨⟨name, tokens⟩, hread, hdefine⟩ := bind_eq_ok.mp h
  unfold readDefinition at hread
  split at hread
  · cases hread
  · rename_i left body hcut
    dsimp only at hread
    split at hread
    · cases hread
    · rename_i hgood
      cases hread
      simp only [Bool.or_eq_true, not_or, Bool.not_eq_true, List.isEmpty_eq_false_iff,
        List.any_eq_false] at hgood
      exact ⟨left, body, hcut, hgood.1.1, hgood.1.2, hdefine⟩

/-- A definition that is stored defines its name, blanks around it left out, by its tokens. -/
theorem define_of_add (hname : '=' ∉ name.toList) (hall : ∀ token ∈ tokens, IsToken token)
    (h : t.add (definitionText name tokens) = .ok t') : ∃ before core after,
      name.toList = before ++ core.toList ++ after ∧ core ≠ "" ∧
        (∀ c ∈ before, isBlank c = true) ∧ (∀ c ∈ core.toList, isBlank c = false) ∧
          (∀ c ∈ after, isBlank c = true) ∧ t.define core tokens = .ok t' := by
  have htext : (definitionText name tokens).toList =
      (name.toList ++ [' ']) ++ '=' :: (' ' :: [' '].intercalate (tokens.map String.toList)) := by
    simp [definitionText, String.toList_intercalate]
  have hcut : cut? '=' (definitionText name tokens).toList =
      some (name.toList ++ [' '], ' ' :: [' '].intercalate (tokens.map String.toList)) := by
    rw [htext]
    refine cut?_append fun hmem => ?_
    rcases List.mem_append.mp hmem with hmem | hmem
    · exact hname hmem
    · cases List.mem_singleton.mp hmem
  have hspace : isBlank ' ' = true := by decide
  have hwords : (Text.words (' ' :: [' '].intercalate (tokens.map String.toList))).map
      String.ofList = tokens := by
    rw [words_blank hspace, words_intercalate]
    · simp
    · intro word hword
      obtain ⟨token, htoken, rfl⟩ := List.mem_map.mp hword
      exact ⟨fun hnil => (hall token htoken).ne_empty (String.toList_eq_nil_iff.mp hnil),
        (hall token htoken).blank⟩
  obtain ⟨before, after, hname, hbefore, hafter⟩ := exists_blanks_of_trim name.toList
  obtain ⟨left, body, hparts, hsome, hnotBlank, hdefine⟩ := exists_of_add h
  obtain ⟨rfl, rfl⟩ := Prod.mk.inj (Option.some.inj (hcut.symm.trans hparts))
  rw [trim_append_blank hspace] at hsome hnotBlank hdefine
  rw [hwords] at hdefine
  refine ⟨before, String.ofList (trim name.toList), after, ?_, ?_, hbefore, ?_, hafter, hdefine⟩
  · rwa [String.toList_ofList]
  · simpa using hsome
  · rwa [String.toList_ofList]

end MacroTable

end SoundLaw
