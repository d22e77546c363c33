import Mathlib.Data.List.TakeWhile
import SoundLaw.Proofs.Recutting

/-!
# Units of a text

What a segmenter reads from left to right is settled by the known symbols and the clusters of the
text: at each place there is one longest symbol, or one cluster, and the modifiers behind it go
with it. Nothing else about clusters is needed here than that the part between two boundaries of
a text is cut as it is cut there. A unit by itself is therefore read as it was read in its context,
where it had more to choose from, and a scan that cuts what remains of the text anew at every step
finds the same pieces.
-/

namespace SoundLaw
set_option autoImplicit false
open Text

/-! ### Reading from left to right -/

section Units
variable {symbols : List String} {clusters head behind unit : List (List Char)}
variable {units : List (List (List Char))} {s t : String}

def BeginsWith (clusters : List (List Char)) (s : String) : Prop :=
  ∃ taken behind, clusters = taken ++ behind ∧ taken.flatten = s.toList

/-- Of a text the longest symbol is taken, or one cluster if it begins with none. The empty
symbol does not count. -/
inductive IsHead (symbols : List String) (head behind : List (List Char)) : Prop
  | symbol {s : String} : s ∈ symbols → s ≠ "" → head.flatten = s.toList →
    (∀ t ∈ symbols, BeginsWith (head ++ behind) t → t.length ≤ s.length) →
    IsHead symbols head behind
  | cluster {cluster : List Char} : head = [cluster] →
    (∀ t ∈ symbols, t ≠ "" → ¬ BeginsWith (head ++ behind) t) → IsHead symbols head behind

/-- A head and the modifiers behind it, after which no other one comes. -/
inductive IsUnit (symbols : List String) : (unit behind : List (List Char)) → Prop
  | intro {head modifiers behind : List (List Char)} : IsHead symbols head (modifiers ++ behind) →
    (∀ cluster ∈ modifiers, isModifierCluster cluster = true) →
    (∀ cluster ∈ behind.head?, isModifierCluster cluster = false) →
    IsUnit symbols (head ++ modifiers) behind

/-- A text is read unit by unit. -/
inductive Reads (symbols : List String) : List (List Char) → List (List (List Char)) → Prop
  | nil : Reads symbols [] []
  | cons {unit behind : List (List Char)} {units : List (List (List Char))} :
    IsUnit symbols unit behind → Reads symbols behind units →
    Reads symbols (unit ++ behind) (unit :: units)

/-! ### There is one way to read -/

theorem eq_nil_of_flatten {xs : List (List Char)} (hne : ∀ cluster ∈ xs, cluster ≠ [])
    (h : xs.flatten.length = 0) : xs = [] := by
  cases xs with
  | nil => rfl
  | cons cluster xs =>
    rw [List.flatten_cons, List.length_append] at h
    exact absurd (List.length_eq_zero_iff.mp (by omega)) (hne cluster List.mem_cons_self)

/-- Clusters from one place on that make up texts of one length are the same. -/
theorem eq_of_length_flatten {xs ys xs' ys' : List (List Char)} (heq : xs ++ ys = xs' ++ ys')
    (hlength : xs.flatten.length = xs'.flatten.length)
    (hne : ∀ cluster ∈ xs ++ ys, cluster ≠ []) : xs = xs' := by
  rcases List.append_eq_append_iff.mp heq with ⟨more, rfl, rfl⟩ | ⟨more, rfl, rfl⟩
  · rw [List.flatten_append, List.length_append] at hlength
    have hmore : more = [] := eq_nil_of_flatten (fun x hx => hne x (by simp [hx])) (by omega)
    rw [hmore, List.append_nil]
  · rw [List.flatten_append, List.length_append] at hlength
    have hmore : more = [] := eq_nil_of_flatten (fun x hx => hne x (by simp [hx])) (by omega)
    rw [hmore, List.append_nil]

theorem IsHead.unique {head' behind' : List (List Char)} (h : IsHead symbols head behind)
    (h' : IsHead symbols head' behind') (heq : head ++ behind = head' ++ behind')
    (hne : ∀ cluster ∈ head ++ behind, cluster ≠ []) : head = head' := by
  cases h with
  | @symbol s hs hempty hhead hlongest =>
    cases h' with
    | @symbol s' hs' _ hhead' hlongest' =>
      have hle := hlongest s' hs' (heq ▸ ⟨head', behind', rfl, hhead'⟩)
      have hle' := hlongest' s hs (heq ▸ ⟨head, behind, rfl, hhead⟩)
      refine eq_of_length_flatten heq ?_ hne
      rw [hhead, hhead', String.length_toList, String.length_toList]
      exact Nat.le_antisymm hle' hle
    | cluster _ hnone => exact absurd ⟨head, behind, heq.symm, hhead⟩ (hnone s hs hempty)
  | @cluster cluster hcluster hnone =>
    cases h' with
    | @symbol s' hs' hempty' hhead' _ =>
      exact absurd ⟨head', behind', heq, hhead'⟩ (hnone s' hs' hempty')
    | cluster hcluster' =>
      subst hcluster hcluster'
      rw [(List.cons.inj heq).1]

theorem IsHead.ne_nil (h : IsHead symbols head behind) : head ≠ [] := by
  rintro rfl
  cases h with
  | symbol _ hempty hhead => exact hempty (String.toList_eq_nil_iff.mp hhead.symm)
  | cluster hcluster => cases hcluster

theorem IsUnit.ne_nil (h : IsUnit symbols unit behind) : unit ≠ [] := by
  obtain @⟨head, modifiers, _, hhead, -, -⟩ := h
  exact List.append_ne_nil_of_left_ne_nil hhead.ne_nil modifiers

theorem IsUnit.unique {unit' behind' : List (List Char)} (h : IsUnit symbols unit behind)
    (h' : IsUnit symbols unit' behind') (heq : unit ++ behind = unit' ++ behind')
    (hne : ∀ cluster ∈ unit ++ behind, cluster ≠ []) : unit = unit' := by
  obtain @⟨head, modifiers, _, hhead, hmodifiers, hbehind⟩ := h
  obtain @⟨head', modifiers', _, hhead', hmodifiers', hbehind'⟩ := h'
  rw [List.append_assoc, List.append_assoc] at heq
  rw [List.append_assoc] at hne
  obtain rfl := hhead.unique hhead' heq hne
  have hrest := List.append_cancel_left heq
  rw [← takeWhile_append_of_head hmodifiers hbehind, hrest,
    takeWhile_append_of_head hmodifiers' hbehind']

theorem Reads.unique {units' : List (List (List Char))} (h : Reads symbols clusters units)
    (h' : Reads symbols clusters units') (hne : ∀ cluster ∈ clusters, cluster ≠ []) :
    units = units' := by
  induction h generalizing units' with
  | nil =>
    generalize hnil : ([] : List (List Char)) = clusters at h'
    cases h' with
    | nil => rfl
    | cons hunit => exact absurd (List.append_eq_nil_iff.mp hnil.symm).1 hunit.ne_nil
  | @cons unit behind units hunit _ ih =>
    generalize heq : unit ++ behind = clusters at h'
    cases h' with
    | nil => exact absurd (List.append_eq_nil_iff.mp heq).1 hunit.ne_nil
    | cons hunit' hrest =>
      obtain rfl := hunit.unique hunit' heq hne
      obtain rfl := List.append_cancel_left heq
      rw [ih hrest fun cluster hcluster => hne cluster (List.mem_append_right _ hcluster)]

/-! ### A unit by itself -/

theorem BeginsWith.append (h : BeginsWith clusters s) (behind : List (List Char)) :
    BeginsWith (clusters ++ behind) s := by
  obtain ⟨taken, rest, rfl, hs⟩ := h
  exact ⟨taken, rest ++ behind, List.append_assoc _ _ _, hs⟩

/-- With less behind it a head has fewer rivals. -/
theorem IsHead.of_append {modifiers : List (List Char)}
    (h : IsHead symbols head (modifiers ++ behind)) : IsHead symbols head modifiers := by
  cases h with
  | symbol hs hempty hhead hlongest =>
    refine .symbol hs hempty hhead fun t ht hbegins => hlongest t ht ?_
    rw [← List.append_assoc]
    exact hbegins.append behind
  | cluster hcluster hnone =>
    refine .cluster hcluster fun t ht hempty hbegins => hnone t ht hempty ?_
    rw [← List.append_assoc]
    exact hbegins.append behind

theorem IsUnit.reads_singleton (h : IsUnit symbols unit behind) : Reads symbols unit [unit] := by
  obtain @⟨head, modifiers, _, hhead, hmodifiers, -⟩ := h
  have hunit : IsUnit symbols (head ++ modifiers) [] := by
    refine .intro ?_ hmodifiers nofun
    rw [List.append_nil]
    exact hhead.of_append
  have hreads := Reads.cons hunit .nil
  rwa [List.append_nil] at hreads

theorem Reads.exists_isUnit (h : Reads symbols clusters units) (hunit : unit ∈ units) :
    ∃ before behind, clusters = before ++ unit ++ behind ∧ IsUnit symbols unit behind := by
  induction h with
  | nil => cases hunit
  | @cons first behind units hfirst _ ih =>
    rcases List.mem_cons.mp hunit with rfl | hunit
    · exact ⟨[], behind, rfl, hfirst⟩
    · obtain ⟨before, rest, rfl, hrest⟩ := ih hunit
      exact ⟨first ++ before, rest, by simp, hrest⟩

theorem Reads.flatten (h : Reads symbols clusters units) : units.flatten = clusters := by
  induction h with
  | nil => rfl
  | cons _ _ ih => rw [List.flatten_cons, ih]

theorem Reads.flatten_ne_nil (h : Reads symbols clusters units)
    (hne : ∀ cluster ∈ clusters, cluster ≠ []) (hunit : unit ∈ units) : unit.flatten ≠ [] := by
  intro hnil
  obtain ⟨before, behind, rfl, hisUnit⟩ := h.exists_isUnit hunit
  refine hisUnit.ne_nil (eq_nil_of_flatten (fun cluster hcluster => hne cluster ?_) ?_)
  · exact List.mem_append_left _ (List.mem_append_right _ hcluster)
  · rw [hnil, List.length_nil]

end Units

/-! ### Segmenters -/

namespace Segmenter
variable {cut : List Char → List (List Char)} {m : FeatureModel} {extra : List String}
variable {rest : List (List Char)} {cluster : List Char}

/-- The symbols of a text that is cut into clusters in a given way, blanks left out. -/
def splitBy (cut : List Char → List (List Char)) (g : Segmenter) (text : String) : List String :=
  let units := unitsOf (g.symbols.map String.toList) (cut text.toList)
  ((units.map List.flatten).filter fun u => !u.all isBlank).map String.ofList

theorem split_eq_splitBy (g : Segmenter) : g.split = g.splitBy clusters := rfl

theorem rescan_eq_splitBy (hcut : IsClustering cut) (m : FeatureModel) (extra : List String)
    (text : String) :
    (withSymbols m extra).rescan cut text = (withSymbols m extra).splitBy cut text := by
  have hsymbols : ∀ s ∈ (withSymbols m extra).symbols.map String.toList, s ≠ [] := by
    intro s hs hnil
    obtain ⟨symbol, hsymbol, rfl⟩ := List.mem_map.mp hs
    exact (mem_symbols_withSymbols.mp hsymbol).2 (String.toList_eq_nil_iff.mp hnil)
  have hall : cut text.toList = [] ++ cut text.toList := rfl
  have hpieces := piecesFrom_flatten hcut hsymbols hall
  rw [hcut.flatten] at hpieces
  exact congrArg (List.map String.ofList) hpieces

theorem length_le_of_prefix_of_size_le {s t : String} {text : List Char}
    (hs : s.toList <+: text) (ht : t.toList <+: text) (hsize : t.utf8ByteSize ≤ s.utf8ByteSize) :
    t.length ≤ s.length := by
  rcases List.prefix_or_prefix_of_prefix hs ht with h | h
  · exact Nat.le_of_eq (congrArg String.length (eq_of_prefix_of_size_le h hsize).symm)
  · exact h.length_le

theorem isSome_of_beginsWith {clusters : List (List Char)} {s : String}
    (hne : ∀ cluster ∈ clusters, cluster ≠ []) (h : BeginsWith clusters s) :
    (afterSpelling? s.toList clusters).isSome := by
  obtain ⟨taken, behind, rfl, hs⟩ := h
  rw [← hs, afterSpelling?_append fun cluster hcluster =>
    hne cluster (List.mem_append_left _ hcluster)]
  rfl

theorem exists_isHead (m : FeatureModel) (extra : List String)
    (hne : ∀ x ∈ cluster :: rest, x ≠ []) :
    ∃ head, cluster :: rest =
        head ++ afterHead ((withSymbols m extra).symbols.map String.toList) cluster rest ∧
      IsHead (m.symbols.map Prod.fst ++ extra) head
        (afterHead ((withSymbols m extra).symbols.map String.toList) cluster rest) := by
  have hmem : ∀ t ∈ m.symbols.map Prod.fst ++ extra, t ≠ "" → t ∈ (withSymbols m extra).symbols :=
    fun t ht hempty => mem_symbols_withSymbols.mpr ⟨List.mem_append.mp ht, hempty⟩
  rw [afterHead, List.findSome?_map]
  cases hfind : (withSymbols m extra).symbols.findSome?
      ((afterSpelling? · (cluster :: rest)) ∘ String.toList) with
  | none =>
    refine ⟨[cluster], rfl, .cluster rfl fun t ht hempty hbegins => ?_⟩
    have hnone : afterSpelling? t.toList (cluster :: rest) = none :=
      List.findSome?_eq_none_iff.mp hfind t (hmem t ht hempty)
    have hsome := isSome_of_beginsWith hne hbegins
    rw [hnone] at hsome
    cases hsome
  | some behind =>
    obtain ⟨s, hs, hspell, hlongest⟩ :=
      exists_longest_of_findSome? (pairwise_mergeSort_precedes _) hfind
    obtain ⟨hs, hempty⟩ := mem_symbols_withSymbols.mp hs
    obtain ⟨taken, heq, htaken⟩ := exists_of_afterSpelling? hspell
    have hle : behind.length ≤ rest.length :=
      length_le_of_afterSpelling? (fun hnil => hempty (String.toList_eq_nil_iff.mp hnil)) hspell
    simp only [if_pos hle]
    refine ⟨taken, heq, .symbol (List.mem_append.mpr hs) hempty htaken fun t ht hbegins => ?_⟩
    rw [← heq] at hbegins
    by_cases ht' : t = ""
    · rw [ht']
      exact Nat.zero_le _
    · have hsome := isSome_of_beginsWith hne hbegins
      obtain ⟨behind', hspell'⟩ := Option.isSome_iff_exists.mp hsome
      exact length_le_of_prefix_of_size_le (prefix_of_afterSpelling? hspell)
        (prefix_of_afterSpelling? hspell') (hlongest t (hmem t ht ht') hsome)

theorem exists_isUnit (m : FeatureModel) (extra : List String)
    (hne : ∀ x ∈ cluster :: rest, x ≠ []) :
    ∃ unit, cluster :: rest =
        unit ++ afterUnit ((withSymbols m extra).symbols.map String.toList) cluster rest ∧
      IsUnit (m.symbols.map Prod.fst ++ extra) unit
        (afterUnit ((withSymbols m extra).symbols.map String.toList) cluster rest) := by
  obtain ⟨head, heq, hhead⟩ := exists_isHead m extra hne
  unfold afterUnit
  generalize afterHead ((withSymbols m extra).symbols.map String.toList) cluster rest = behind
    at heq hhead
  have hbehind : behind.takeWhile isModifierCluster ++ behind.dropWhile isModifierCluster =
    behind := List.takeWhile_append_dropWhile
  refine ⟨head ++ behind.takeWhile isModifierCluster, ?_, .intro ?_ ?_ ?_⟩
  · rw [List.append_assoc, hbehind, heq]
  · rwa [hbehind]
  · exact fun x hx => List.mem_takeWhile_imp hx
  · exact head_dropWhile behind

theorem reads_unitsOf (m : FeatureModel) (extra : List String) {clusters : List (List Char)}
    (hne : ∀ cluster ∈ clusters, cluster ≠ []) :
    Reads (m.symbols.map Prod.fst ++ extra) clusters
      (unitsOf ((withSymbols m extra).symbols.map String.toList) clusters) := by
  fun_induction unitsOf ((withSymbols m extra).symbols.map String.toList) clusters with
  | case1 => exact .nil
  | case2 cluster rest _ ih =>
    obtain ⟨unit, heq, hunit⟩ := exists_isUnit m extra hne
    have htake : (cluster :: rest).take (rest.length + 1 -
        (afterUnit ((withSymbols m extra).symbols.map String.toList) cluster rest).length) =
          unit := by
      rw [← List.length_cons, heq, List.length_append, Nat.add_sub_cancel, List.take_left]
    rw [htake]
    conv => arg 2; rw [heq]
    exact .cons hunit (ih fun x hx => hne x (heq ▸ List.mem_append_right _ hx))

/-- What is read in the text of a unit is this unit, whatever stood around it. -/
theorem unitsOf_unit (hcut : IsClustering cut) {text : List Char} {unit : List (List Char)}
    (hunit : unit ∈ unitsOf ((withSymbols m extra).symbols.map String.toList) (cut text)) :
    unitsOf ((withSymbols m extra).symbols.map String.toList) (cut unit.flatten) = [unit] := by
  have hreads := reads_unitsOf m extra fun x (hx : x ∈ cut text) =>
    hcut.ne_nil hx
  obtain ⟨before, behind, heq, hisUnit⟩ := hreads.exists_isUnit hunit
  have hself : cut unit.flatten = unit := hcut.within heq
  have hne : ∀ cluster ∈ unit, cluster ≠ [] := by
    rw [← hself]
    exact fun _ => hcut.ne_nil
  rw [hself]
  exact (reads_unitsOf m extra hne).unique hisUnit.reads_singleton hne

/-- A text is the concatenation of units, each the longest symbol or one cluster and the modifiers
behind it. The pieces of the text are those units that are not blank, also where what remains of the
text is cut anew at every step, and each is a piece by itself. -/
theorem splitBy_reads (hcut : IsClustering cut) (m : FeatureModel) (extra : List String)
    (text : String) :
    ∃ units, (∀ units', Reads (m.symbols.map Prod.fst ++ extra) (cut text.toList) units' ↔
        units' = units) ∧
      (units.map List.flatten).flatten = text.toList ∧
      (∀ unit ∈ units, unit.flatten ≠ []) ∧
      (withSymbols m extra).splitBy cut text =
        ((units.map List.flatten).filter fun u => !u.all isBlank).map String.ofList ∧
      (withSymbols m extra).rescan cut text = (withSymbols m extra).splitBy cut text ∧
      ∀ piece ∈ (withSymbols m extra).splitBy cut text,
        (withSymbols m extra).splitBy cut piece = [piece] := by
  have hne : ∀ cluster ∈ cut text.toList, cluster ≠ [] := fun _ => hcut.ne_nil
  have hreads := reads_unitsOf m extra hne
  refine ⟨_, fun units' => ⟨fun h => h.unique hreads hne, fun h => h ▸ hreads⟩, ?_, ?_, rfl,
    rescan_eq_splitBy hcut m extra text, ?_⟩
  · rw [← List.flatten_flatten, hreads.flatten, hcut.flatten]
  · exact fun _ => hreads.flatten_ne_nil hne
  · intro piece hpiece
    obtain ⟨u, hu, rfl⟩ := List.mem_map.mp hpiece
    obtain ⟨hu, hblank⟩ := List.mem_filter.mp hu
    obtain ⟨unit, hunit, rfl⟩ := List.mem_map.mp hu
    rw [splitBy, String.toList_ofList]
    simp only [unitsOf_unit hcut hunit, List.map_singleton, List.filter_cons, hblank,
      List.filter_nil, if_true]

theorem splitBy_reads_clusters :
    ∃ units, (∀ units', Reads ["t", "ts", "tsh"] (clusters "tstshʰat".toList) units' ↔
        units' = units) ∧
      (units.map List.flatten).flatten = "tstshʰat".toList ∧
      (∀ unit ∈ units, unit.flatten ≠ []) ∧
      (withSymbols .empty ["t", "ts", "tsh"]).split "tstshʰat" =
        ((units.map List.flatten).filter fun u => !u.all isBlank).map String.ofList ∧
      (withSymbols .empty ["t", "ts", "tsh"]).rescan clusters "tstshʰat" =
        (withSymbols .empty ["t", "ts", "tsh"]).split "tstshʰat" ∧
      ∀ piece ∈ (withSymbols .empty ["t", "ts", "tsh"]).split "tstshʰat",
        (withSymbols .empty ["t", "ts", "tsh"]).split piece = [piece] :=
  splitBy_reads isClustering_clusters .empty ["t", "ts", "tsh"] "tstshʰat"

end Segmenter

end SoundLaw
