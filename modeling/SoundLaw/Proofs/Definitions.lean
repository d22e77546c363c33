import Mathlib.Data.List.Induction
import SoundLaw.Proofs.Closure
import SoundLaw.Proofs.Search
import SoundLaw.Proofs.Stores

/-!
# What a definition stores

A definition stores, token by token, every way of choosing one run for each piece of the token, in
the lexicographic order of the choices. The order counts, since a macro in a target is paired with
one in a source by the positions of their alternatives. A definition fails only where a piece is
the name that is being defined, and leaves the table as it was then; so the names of a table are
those of the definitions that succeeded, each in the place of the first of them.
-/

namespace SoundLaw
set_option autoImplicit false
open Text

/-! ### Products -/

/-- The runs at the chosen positions, joined. -/
def picked (options : List (List (List Segment))) (choice : List Nat) : List Segment :=
  (options.zip choice).flatMap fun p => p.1.getD p.2 []

/-- A choice is a position in each of the options. -/
def IsChoice (options : List (List (List Segment))) (choice : List Nat) : Prop :=
  List.Forall₂ (fun runs i => i < runs.length) options choice

/-- The runs of all choices in lexicographic order, so that the leftmost one varies slowest. -/
def IsProduct (options : List (List (List Segment))) (runs : List (List Segment)) : Prop :=
  ∃ choices : List (List Nat), choices.Pairwise (· < ·) ∧
    (∀ choice, choice ∈ choices ↔ IsChoice options choice) ∧ runs = choices.map (picked options)

section Products
variable {options : List (List (List Segment))} {runs : List (List Segment)}

theorem map_getD_range (runs : List (List Segment)) :
    (List.range runs.length).map (fun i => runs.getD i []) = runs := by
  refine List.ext_getElem (by simp) fun i hi hi' => ?_
  rw [List.getElem_map, List.getElem_range, List.getD_eq_getElem?_getD,
    List.getElem?_eq_getElem hi', Option.getD_some]

theorem isProduct_nil : IsProduct [] [[]] := by
  refine ⟨[[]], List.pairwise_singleton _ _, fun choice => ?_, rfl⟩
  rw [List.mem_singleton, IsChoice, List.forall₂_nil_left_iff]

theorem IsProduct.cons (first : List (List Segment)) (h : IsProduct options runs) :
    IsProduct (first :: options)
      (first.flatMap fun run => runs.map fun tail => run ++ tail) := by
  obtain ⟨choices, hsorted, hmem, rfl⟩ := h
  refine ⟨(List.range first.length).flatMap fun i => choices.map (i :: ·), ?_, fun choice => ?_, ?_⟩
  · rw [List.pairwise_flatMap]
    constructor
    · intro i _
      rw [List.pairwise_map]
      exact hsorted.imp fun hlt => List.Lex.cons hlt
    · refine List.pairwise_lt_range.imp fun {i j} hij => ?_
      intro c hc d hd
      obtain ⟨c, -, rfl⟩ := List.mem_map.mp hc
      obtain ⟨d, -, rfl⟩ := List.mem_map.mp hd
      exact List.Lex.rel hij
  · rw [IsChoice, List.forall₂_cons_left_iff]
    simp only [List.mem_flatMap, List.mem_range, List.mem_map, hmem]
    constructor
    · rintro ⟨i, hi, rest, hrest, rfl⟩
      exact ⟨i, rest, hi, hrest, rfl⟩
    · rintro ⟨i, rest, hi, hrest, rfl⟩
      exact ⟨i, hi, rest, hrest, rfl⟩
  · rw [List.map_flatMap]
    conv_lhs => rw [← map_getD_range first, List.flatMap_map]
    refine List.flatMap_congr fun i _ => ?_
    rw [List.map_map, List.map_map]
    rfl

theorem isProduct_combinations (options : List (List (List Segment))) :
    IsProduct options (combinations options) := by
  induction options with
  | nil => exact isProduct_nil
  | cons first rest ih => exact ih.cons first

end Products

namespace MacroTable
variable {t t' : MacroTable} {name s : String} {tokens parts : List String}

/-! ### One definition -/

/-- Nothing, if there are no parts, and else the product of what they stand for. -/
def Contributes (t : MacroTable) (parts : List String) (runs : List (List Segment)) : Prop :=
  (parts = [] → runs = []) ∧ (parts ≠ [] → IsProduct (parts.map t.runsOf) runs)

theorem contributes_contribution (t : MacroTable) (parts : List String) :
    t.Contributes parts (t.contribution parts) := by
  constructor
  · rintro rfl
    rfl
  · intro hne
    rw [contribution, cartesianProduct_of_ne_nil (by simpa using hne)]
    exact isProduct_combinations _

/-- The pieces of a token for a segmenter that knows the new name beside those of the table. -/
def pieces (t : MacroTable) (name token : String) : List String :=
  (Segmenter.withSymbols t.model (t.names ++ [name])).split token

/-- Names in the order in which they are tried need no sorting. -/
theorem pieces_of_pairwise {token : String}
    (hmodel : t.model.symbols = []) (hnonempty : ∀ s ∈ t.names ++ [name], s ≠ "")
    (hsorted : (t.names ++ [name]).Pairwise fun s s' => Segmenter.precedes s s' = true) :
    t.pieces name token = Segmenter.split ⟨t.model, t.names ++ [name]⟩ token := by
  have hfilter : (t.names ++ [name]).filter (!·.isEmpty) = t.names ++ [name] :=
    List.filter_eq_self.mpr fun s hs => by simpa using hnonempty s hs
  rw [pieces, Segmenter.withSymbols, hmodel, List.map_nil, List.nil_append, hfilter,
    List.mergeSort_of_pairwise hsorted]

theorem define_of_mem (h : ∃ token ∈ tokens, name ∈ t.pieces name token) :
    t.define name tokens = .error (.cyclicMacro name) := by
  obtain ⟨token, htoken, hmem⟩ := h
  have hruns : (tokens.mapM fun token => t.expand name (t.pieces name token)) =
      .error (.cyclicMacro name) := by
    refine mapM_eq_error htoken (expand_of_mem hmem) fun other _ e he => ?_
    by_cases hother : name ∈ t.pieces name other
    · rw [expand_of_mem hother] at he
      exact (Except.error.inj he).symm
    · rw [expand_of_not_mem hother] at he
      cases he
  unfold define
  exact congrArg (· >>= _) hruns

theorem define_of_not_mem (h : ∀ token ∈ tokens, name ∉ t.pieces name token) :
    t.define name tokens = .ok ⟨t.model,
      put name (tokens.flatMap fun token => t.contribution (t.pieces name token)) t.entries⟩ := by
  have hruns : (tokens.mapM fun token => t.expand name (t.pieces name token)) =
      .ok (tokens.map fun token => t.contribution (t.pieces name token)) :=
    mapM_eq_ok fun token htoken => expand_of_not_mem (h token htoken)
  exact bind_eq_ok.mpr ⟨_, hruns, by rw [List.flatMap_def]; rfl⟩

theorem names_define (h : t.define name tokens = .ok t') :
    t'.names = if name ∈ t.names then t.names else t.names ++ [name] := by
  obtain ⟨runs, -, h⟩ := bind_eq_ok.mp h
  cases h
  rw [names, put_eq, keys_placed]
  rfl

end MacroTable

/-! ### Histories -/

/-- A call that stores a macro: a line of text, or a name with its tokens. -/
inductive Definition
  | ofLine (text : String)
  | ofTokens (name : String) (tokens : List String)

namespace Definition

def run (t : MacroTable) : Definition → Except PatternFault MacroTable
  | .ofLine text => t.add text
  | .ofTokens name tokens => t.define name tokens

/-- The call as it is made on the containers of a table. -/
def call : Definition → Call PatternFault MacroStore Unit
  | .ofLine text => MacroStore.add text
  | .ofTokens name tokens => MacroStore.define name tokens

theorem agrees {s : MacroStore} {t : MacroTable} (h : s.Holds t) (d : Definition) :
    Agrees MacroStore.Holds s (d.call.run s) (d.run t) := by
  cases d with
  | ofLine text => exact h.add text
  | ofTokens name tokens => exact h.define name tokens

def name : Definition → String
  | .ofLine text => String.ofList (trim ((cut? '=' text.toList).elim [] Prod.fst))
  | .ofTokens name _ => name

theorem exists_stores {t t' : MacroTable} {d : Definition} (h : d.run t = .ok t') :
    ∃ tokens, t.Stores d.name tokens t' := by
  cases d with
  | ofTokens name tokens => exact ⟨tokens, .define h⟩
  | ofLine text =>
    obtain ⟨left, body, hcut, -⟩ := MacroTable.exists_of_add h
    refine ⟨_, .add hcut ?_ rfl h⟩
    rw [name, hcut]
    rfl

end Definition

namespace MacroTable
variable {t t' : MacroTable} {d : Definition}

/-- The table after a call. One that fails leaves it as it is, for it leaves the containers so
(`Agrees.run_eq_error`). -/
def after (t : MacroTable) (d : Definition) : MacroTable := (d.run t).toOption.getD t

def ofDefinitions (m : FeatureModel) (ds : List Definition) : MacroTable :=
  ds.foldl after (.empty m)

def definedNames (t : MacroTable) : List Definition → List String
  | [] => []
  | d :: ds => ((d.run t).toOption.map fun _ => d.name).toList ++ (t.after d).definedNames ds

theorem after_of_ok (h : d.run t = .ok t') : t.after d = t' := by
  rw [after, h]
  rfl

theorem after_of_error {e : PatternFault} (h : d.run t = .error e) : t.after d = t := by
  rw [after, h]
  rfl

theorem model_after (t : MacroTable) (d : Definition) : (t.after d).model = t.model := by
  cases h : d.run t with
  | error e => rw [after_of_error h]
  | ok t' =>
    obtain ⟨tokens, hstores⟩ := Definition.exists_stores h
    rw [after_of_ok h]
    exact (defines_of_define hstores.define_eq_ok).model

theorem ofDefinitions_concat (m : FeatureModel) (ds : List Definition) (d : Definition) :
    ofDefinitions m (ds ++ [d]) = (ofDefinitions m ds).after d := by
  rw [ofDefinitions, List.foldl_append]
  rfl

theorem model_ofDefinitions (m : FeatureModel) (ds : List Definition) :
    (ofDefinitions m ds).model = m := by
  induction ds using List.reverseRecOn with
  | nil => rfl
  | append_singleton ds d ih =>
    rw [ofDefinitions_concat]
    exact (model_after _ d).trans ih

theorem definedNames_append (t : MacroTable) (ds ds' : List Definition) :
    t.definedNames (ds ++ ds') = t.definedNames ds ++ (ds.foldl after t).definedNames ds' := by
  induction ds generalizing t with
  | nil => rfl
  | cons d ds ih =>
    rw [List.cons_append, definedNames, definedNames, ih, List.append_assoc]
    rfl

theorem names_ofDefinitions (m : FeatureModel) (ds : List Definition) :
    (ofDefinitions m ds).names = ((empty m).definedNames ds).eraseDups := by
  induction ds using List.reverseRecOn with
  | nil => rfl
  | append_singleton ds d ih =>
    rw [ofDefinitions_concat, definedNames_append]
    cases h : d.run (ofDefinitions m ds) with
    | error e =>
      have hnone : (ofDefinitions m ds).definedNames [d] = [] := by
        rw [definedNames, h]
        rfl
      rw [after_of_error h, ih]
      exact congrArg List.eraseDups ((congrArg _ hnone).trans (List.append_nil _)).symm
    | ok t' =>
      have hname : (ofDefinitions m ds).definedNames [d] = [d.name] := by
        rw [definedNames, h]
        rfl
      obtain ⟨tokens, hstores⟩ := Definition.exists_stores h
      rw [after_of_ok h, names_define hstores.define_eq_ok, ih]
      refine Eq.trans ?_ (congrArg List.eraseDups (congrArg _ hname)).symm
      rw [eraseDups_concat]
      simp only [List.mem_eraseDups]

/-- The containers behind a run of calls, each of which leaves them as it may. -/
def storeOf (m : FeatureModel) (ds : List Definition) : MacroStore :=
  ds.foldl (fun s d => d.call.left s) (.empty m)

theorem holds_storeOf (m : FeatureModel) (ds : List Definition) :
    (storeOf m ds).Holds (ofDefinitions m ds) := by
  induction ds using List.reverseRecOn with
  | nil => exact .empty m
  | append_singleton ds d ih =>
    rw [storeOf, List.foldl_append, ofDefinitions_concat]
    exact (d.agrees ih).left ih

/-- A definition fails exactly where a piece of a token is the name itself, and changes nothing
then. Else the name stands for the products of its tokens, one after another, and no other name
stands for anything else. In a run of definitions every name has the place where it came first. The
map and the list of names behind the table say the same throughout, and a call that fails leaves
both as they are. -/
theorem define_product (t : MacroTable) (name : String) (tokens : List String) :
    (t.define name tokens = .error (.cyclicMacro name) ↔
      ∃ token ∈ tokens, name ∈ t.pieces name token) ∧
    ((∃ token ∈ tokens, name ∈ t.pieces name token) → t.after (.ofTokens name tokens) = t) ∧
    ((∀ token ∈ tokens, name ∉ t.pieces name token) → ∃ t' runs,
      t.define name tokens = .ok t' ∧ t'.model = t.model ∧
      List.Forall₂ (fun token => t.Contributes (t.pieces name token)) tokens runs ∧
      t'.find? name = some runs.flatten ∧
      (∀ other, other ≠ name → t'.find? other = t.find? other) ∧
      t'.names = if name ∈ t.names then t.names else t.names ++ [name]) ∧
    ∀ m ds, ((ofDefinitions m ds).names = ((empty m).definedNames ds).eraseDups ∧
        (ofDefinitions m ds).names.Nodup) ∧
      (storeOf m ds).Holds (ofDefinitions m ds) ∧
      ∀ (d : Definition) e, d.run (ofDefinitions m ds) = .error e →
        d.call.run (storeOf m ds) = .error e (storeOf m ds) := by
  refine ⟨⟨fun herror => ?_, define_of_mem⟩, fun hmem => after_of_error (define_of_mem hmem),
    fun hnot => ?_, fun m ds => ⟨⟨names_ofDefinitions m ds, ?_⟩, holds_storeOf m ds,
      fun d e herror => ?_⟩⟩
  · by_contra hnone
    have hnot : ∀ token ∈ tokens, name ∉ t.pieces name token :=
      fun token htoken hmem => hnone ⟨token, htoken, hmem⟩
    rw [define_of_not_mem hnot] at herror
    cases herror
  · have hdefine := define_of_not_mem hnot
    refine ⟨_, tokens.map fun token => t.contribution (t.pieces name token), hdefine, rfl, ?_, ?_,
      fun other hother => ?_, names_define hdefine⟩
    · rw [List.forall₂_map_right_iff, List.forall₂_same]
      exact fun token _ => t.contributes_contribution _
    · rw [find?, lookup_put, if_pos rfl, List.flatMap_def]
    · rw [find?, lookup_put, if_neg hother]
      rfl
  · rw [names_ofDefinitions]
    exact nodup_eraseDups _
  · have hagrees := d.agrees (holds_storeOf m ds)
    rw [herror] at hagrees
    exact hagrees.run_eq_error

theorem define_product_vowels :
    let t : MacroTable := ⟨.empty, [("V", ["a", "o"].map ([FeatureModel.empty.resolve ·]))]⟩
    let ds : List Definition := [.ofTokens "V" ["a", "o"]]
    let malformed : Definition := .ofLine "V n"
    (∃ token ∈ ["n", "tV"], "V" ∈ t.pieces "V" token) ∧
      t.define "V" ["n", "tV"] = .error (.cyclicMacro "V") ∧
      (∀ token ∈ ["n", "tV"], "W" ∉ t.pieces "W" token) ∧
      ∃ t' runs, t.define "W" ["n", "tV"] = .ok t' ∧
        List.Forall₂ (fun token => t.Contributes (t.pieces "W" token)) ["n", "tV"] runs ∧
        t'.find? "W" = some runs.flatten ∧ t'.names = ["V", "W"] ∧
      ∃ e, malformed.run (ofDefinitions .empty ds) = .error e ∧
        malformed.call.run (storeOf .empty ds) = .error e (storeOf .empty ds) := by
  intro t ds malformed
  have hself : ∀ token, t.pieces "V" token = Segmenter.split ⟨.empty, ["V", "V"]⟩ token :=
    fun _ => pieces_of_pairwise rfl (by decide) (by decide +kernel)
  have hother : ∀ token, t.pieces "W" token = Segmenter.split ⟨.empty, ["V", "W"]⟩ token :=
    fun _ => pieces_of_pairwise rfl (by decide) (by decide +kernel)
  have hcyclic : ∃ token ∈ ["n", "tV"], "V" ∈ t.pieces "V" token := by
    simp only [hself]
    decide +kernel
  have hnot : ∀ token ∈ ["n", "tV"], "W" ∉ t.pieces "W" token := by
    simp only [hother]
    decide +kernel
  obtain ⟨t', runs, hdefine, -, hruns, hfind, -, hnames⟩ :=
    (define_product t "W" ["n", "tV"]).2.2.1 hnot
  have hrejected : (malformed.run (ofDefinitions .empty ds)).isOk = false := by decide +kernel
  cases herror : malformed.run (ofDefinitions .empty ds) with
  | ok made =>
    rw [herror] at hrejected
    cases hrejected
  | error e =>
    have hkept := ((define_product t "W" ["n", "tV"]).2.2.2 .empty ds).2.2 malformed e herror
    exact ⟨hcyclic, (define_product t "V" ["n", "tV"]).1.mpr hcyclic, hnot, t', runs, hdefine,
      hruns, hfind, hnames, e, rfl, hkept⟩

end MacroTable

end SoundLaw
