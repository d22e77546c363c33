import Mathlib.Data.List.Basic
import SoundLaw.Proofs.Texts
import SoundLaw.Segmenter

/-!
# Symbols of a text

Segmentation loses nothing: the clusters of a text spell it, and so do its units. Of the symbols
that can be spelled at a place the longest is taken, and there is only one of any length, so a
segmenter depends on which symbols it knows but not on how often or in which order it was told
them. A text that is itself a known symbol is left whole.
-/

namespace SoundLaw
set_option autoImplicit false
open Text

/-! ### Clusters -/

namespace Text

theorem flatten_clusters (cs : List Char) : (clusters cs).flatten = cs := by
  fun_induction clusters cs with
  | case1 => rfl
  | case2 c cs _ ih => rw [List.flatten_cons, ih, List.cons_append, clusterTail_append]

theorem ne_nil_of_mem_clusters {cs cluster : List Char} (h : cluster ∈ clusters cs) :
    cluster ≠ [] := by
  fun_induction clusters cs with
  | case1 => cases h
  | case2 c cs _ ih =>
    rcases List.mem_cons.mp h with rfl | h
    · exact List.cons_ne_nil _ _
    · exact ih h

end Text

/-! ### Spelling -/

section Spelling
variable {text : List Char} {clusters behind : List (List Char)}

theorem exists_of_afterSpelling? (h : afterSpelling? text clusters = some behind) :
    ∃ taken, clusters = taken ++ behind ∧ taken.flatten = text := by
  induction clusters generalizing text with
  | nil =>
    cases text with
    | nil =>
      cases h
      exact ⟨[], rfl, rfl⟩
    | cons c cs => cases h
  | cons cluster rest ih =>
    cases text with
    | nil =>
      cases h
      exact ⟨[], rfl, rfl⟩
    | cons c cs =>
      rw [afterSpelling?] at h
      split at h
      · rename_i hcluster
        obtain ⟨others, hothers⟩ := List.isPrefixOf_iff_prefix.mp hcluster
        rw [← hothers, List.drop_left] at h
        obtain ⟨taken, rfl, rfl⟩ := ih h
        exact ⟨cluster :: taken, rfl, hothers⟩
      · cases h
      · exact List.cons_ne_nil c cs

theorem prefix_of_afterSpelling? (h : afterSpelling? text clusters = some behind) :
    text <+: clusters.flatten := by
  obtain ⟨taken, rfl, rfl⟩ := exists_of_afterSpelling? h
  rw [List.flatten_append]
  exact List.prefix_append _ _

theorem suffix_of_afterSpelling? (h : afterSpelling? text clusters = some behind) :
    behind <:+ clusters := by
  obtain ⟨taken, rfl, -⟩ := exists_of_afterSpelling? h
  exact List.suffix_append _ _

/-- A symbol that is not empty takes the first cluster at least. -/
theorem length_le_of_afterSpelling? {cluster : List Char} {rest : List (List Char)}
    (hne : text ≠ []) (h : afterSpelling? text (cluster :: rest) = some behind) :
    behind.length ≤ rest.length := by
  obtain ⟨taken, heq, rfl⟩ := exists_of_afterSpelling? h
  obtain ⟨first, others, rfl⟩ := List.exists_cons_of_ne_nil fun htaken : taken = [] =>
    hne (congrArg List.flatten htaken)
  have hrest : rest = others ++ behind := (List.cons.inj heq).2
  rw [hrest, List.length_append]
  exact Nat.le_add_left _ _

theorem afterSpelling?_append {taken : List (List Char)} (h : ∀ cluster ∈ taken, cluster ≠ []) :
    afterSpelling? taken.flatten (taken ++ behind) = some behind := by
  induction taken with
  | nil => cases behind <;> rfl
  | cons cluster rest ih =>
    have hrest := ih fun x hx => h x (List.mem_cons_of_mem _ hx)
    obtain ⟨c, cs, rfl⟩ := List.exists_cons_of_ne_nil (h cluster List.mem_cons_self)
    have hprefix : (c :: cs).isPrefixOf (c :: (cs ++ rest.flatten)) = true :=
      List.isPrefixOf_iff_prefix.mpr (List.prefix_append (c :: cs) rest.flatten)
    have hdrop : (c :: (cs ++ rest.flatten)).drop (c :: cs).length = rest.flatten :=
      List.drop_left
    rw [List.flatten_cons, List.cons_append, List.cons_append, afterSpelling?, if_pos hprefix,
      hdrop, hrest]
    exact List.cons_ne_nil c _

theorem afterSpelling?_flatten (h : ∀ cluster ∈ clusters, cluster ≠ []) :
    afterSpelling? clusters.flatten clusters = some [] := by
  have happend : afterSpelling? clusters.flatten (clusters ++ []) = some [] :=
    afterSpelling?_append h
  rwa [List.append_nil] at happend

end Spelling

/-! ### Known symbols -/

section Symbols
variable {symbols symbols' : List String} {clusters : List (List Char)} {s t : String}

theorem exists_append_of_isPrefix (h : s.toList <+: t.toList) : ∃ more, t = s ++ more := by
  obtain ⟨more, hmore⟩ := h
  refine ⟨String.ofList more, ?_⟩
  rw [← String.ofList_toList (s := t), ← hmore, String.ofList_append, String.ofList_toList]

theorem eq_of_prefix_of_size_le (h : s.toList <+: t.toList)
    (hsize : t.utf8ByteSize ≤ s.utf8ByteSize) : s = t := by
  obtain ⟨more, rfl⟩ := exists_append_of_isPrefix h
  have hmore : more.utf8ByteSize = 0 := by
    rw [String.utf8ByteSize_append] at hsize
    omega
  rw [String.utf8ByteSize_eq_zero_iff.mp hmore, String.append_empty]

/-- Of two equally long symbols at the same place, each is the other. -/
theorem eq_of_prefix_of_size {text : List Char} (hs : s.toList <+: text) (ht : t.toList <+: text)
    (hsize : s.utf8ByteSize = t.utf8ByteSize) : s = t := by
  rcases List.prefix_or_prefix_of_prefix hs ht with h | h
  · exact eq_of_prefix_of_size_le h (Nat.le_of_eq hsize.symm)
  · exact (eq_of_prefix_of_size_le h (Nat.le_of_eq hsize)).symm

theorem pairwise_mergeSort_precedes (symbols : List String) :
    (symbols.mergeSort Segmenter.precedes).Pairwise
      fun s t => t.utf8ByteSize ≤ s.utf8ByteSize := by
  have hiff : ∀ s t : String, Segmenter.precedes s t = true ↔ t.utf8ByteSize < s.utf8ByteSize ∨
      s.utf8ByteSize = t.utf8ByteSize ∧ s ≤ t := by
    intro s t
    simp [Segmenter.precedes]
  refine (List.pairwise_mergeSort ?_ ?_ symbols).imp ?_
  · intro a b c hab hbc
    rw [hiff] at hab hbc ⊢
    rcases hab with hab | ⟨hab, hle⟩
    · exact .inl (by omega)
    · rcases hbc with hbc | ⟨hbc, hle'⟩
      · exact .inl (by omega)
      · exact .inr ⟨hab.trans hbc, String.le_trans hle hle'⟩
  · intro a b
    rw [Bool.or_eq_true, hiff, hiff]
    rcases Nat.lt_trichotomy a.utf8ByteSize b.utf8ByteSize with h | h | h
    · exact .inr (.inl h)
    · rcases String.le_total a b with hle | hle
      · exact .inl (.inr ⟨h, hle⟩)
      · exact .inr (.inr ⟨h.symm, hle⟩)
    · exact .inl (.inl h)
  · intro a b hab
    rcases (hiff a b).mp hab with h | h
    · exact Nat.le_of_lt h
    · exact Nat.le_of_eq h.1.symm

/-- The first of sorted symbols that can be spelled is at least as long as any other. -/
theorem exists_longest_of_findSome? {behind : List (List Char)}
    (hsorted : symbols.Pairwise fun s t => t.utf8ByteSize ≤ s.utf8ByteSize)
    (h : symbols.findSome? (fun s => afterSpelling? s.toList clusters) = some behind) :
    ∃ s ∈ symbols, afterSpelling? s.toList clusters = some behind ∧
      ∀ t ∈ symbols, (afterSpelling? t.toList clusters).isSome →
        t.utf8ByteSize ≤ s.utf8ByteSize := by
  obtain ⟨before, s, after, rfl, hs, hbefore⟩ := List.findSome?_eq_some_iff.mp h
  refine ⟨s, List.mem_append_right _ List.mem_cons_self, hs, ?_⟩
  intro t ht hsome
  rcases List.mem_append.mp ht with ht | ht
  · rw [hbefore t ht] at hsome
    cases hsome
  · rcases List.mem_cons.mp ht with rfl | ht
    · exact Nat.le_refl _
    · exact List.rel_of_pairwise_cons (List.pairwise_append.mp hsorted).2.1 ht

/-- The symbol that is taken depends only on which ones are known. -/
theorem findSome?_afterSpelling?_congr
    (hsorted : symbols.Pairwise fun s t => t.utf8ByteSize ≤ s.utf8ByteSize)
    (hsorted' : symbols'.Pairwise fun s t => t.utf8ByteSize ≤ s.utf8ByteSize)
    (hmem : ∀ s, s ∈ symbols ↔ s ∈ symbols') :
    symbols.findSome? (fun s => afterSpelling? s.toList clusters) =
      symbols'.findSome? (fun s => afterSpelling? s.toList clusters) := by
  have hsome : (symbols.findSome? fun s => afterSpelling? s.toList clusters).isSome ↔
      (symbols'.findSome? fun s => afterSpelling? s.toList clusters).isSome := by
    rw [List.findSome?_isSome_iff, List.findSome?_isSome_iff]
    exact exists_congr fun s => and_congr_left fun _ => hmem s
  cases h : symbols.findSome? fun s => afterSpelling? s.toList clusters with
  | none =>
    rw [h] at hsome
    exact (Option.not_isSome_iff_eq_none.mp fun h' => by simpa using hsome.mpr h').symm
  | some behind =>
    obtain ⟨behind', h'⟩ := Option.isSome_iff_exists.mp (hsome.mp (by rw [h]; rfl))
    obtain ⟨s, hs, hbehind, hlongest⟩ := exists_longest_of_findSome? hsorted h
    obtain ⟨t, ht, hbehind', hlongest'⟩ := exists_longest_of_findSome? hsorted' h'
    have hst := hlongest' s ((hmem s).mp hs) (by rw [hbehind]; rfl)
    have hts := hlongest t ((hmem t).mpr ht) (by rw [hbehind']; rfl)
    obtain rfl : s = t := eq_of_prefix_of_size (prefix_of_afterSpelling? hbehind)
      (prefix_of_afterSpelling? hbehind') (Nat.le_antisymm hst hts)
    rw [h', ← hbehind, ← hbehind']

end Symbols

/-! ### Units -/

section Units
variable {symbols : List (List Char)} {cluster : List Char} {rest : List (List Char)}

theorem afterHead_suffix : afterHead symbols cluster rest <:+ rest := by
  unfold afterHead
  split
  · rename_i behind hfind
    obtain ⟨s, _, hs⟩ := List.exists_of_findSome?_eq_some hfind
    split
    · rename_i hle
      exact List.suffix_of_suffix_length_le (suffix_of_afterSpelling? hs)
        (List.suffix_cons _ _) hle
    · exact List.suffix_refl _
  · exact List.suffix_refl _

theorem afterUnit_suffix : afterUnit symbols cluster rest <:+ rest :=
  (List.dropWhile_suffix _).trans afterHead_suffix

theorem flatten_unitsOf (symbols clusters : List (List Char)) :
    (unitsOf symbols clusters).flatten = clusters := by
  fun_induction unitsOf symbols clusters with
  | case1 => rfl
  | case2 cluster rest _ ih =>
    have hsuffix : afterUnit symbols cluster rest <:+ cluster :: rest :=
      afterUnit_suffix.trans (List.suffix_cons _ _)
    rw [List.flatten_cons, ih]
    exact List.suffix_iff_eq_append.mp hsuffix

theorem ne_nil_of_mem_unitsOf {clusters unit : List (List Char)}
    (h : unit ∈ unitsOf symbols clusters) : unit ≠ [] := by
  fun_induction unitsOf symbols clusters with
  | case1 => cases h
  | case2 cluster rest hle ih =>
    rcases List.mem_cons.mp h with rfl | h
    · rw [show rest.length + 1 - (afterUnit symbols cluster rest).length =
        rest.length - (afterUnit symbols cluster rest).length + 1 by omega]
      exact List.cons_ne_nil _ _
    · exact ih h

end Units

/-! ### Segmenters -/

namespace Segmenter
variable {g : Segmenter} {m : FeatureModel} {text : String} {extra extra' : List String}

/-- Without blanks nothing is left out. -/
theorem flatten_split (htext : ∀ c ∈ text.toList, isBlank c = false) :
    ((g.split text).map String.toList).flatten = text.toList := by
  have hunits : ((unitsOf (g.symbols.map String.toList) (clusters text.toList)).map
      List.flatten).flatten = text.toList := by
    rw [← List.flatten_flatten, flatten_unitsOf, flatten_clusters]
  have hkeep : ∀ u ∈ (unitsOf (g.symbols.map String.toList) (clusters text.toList)).map
      List.flatten, (!u.all isBlank) = true := by
    intro u hu
    obtain ⟨unit, hunit, rfl⟩ := List.mem_map.mp hu
    obtain ⟨cluster, others, rfl⟩ := List.exists_cons_of_ne_nil (ne_nil_of_mem_unitsOf hunit)
    have hcluster : cluster ∈ clusters text.toList := by
      rw [← flatten_unitsOf (g.symbols.map String.toList) (clusters text.toList)]
      exact List.mem_flatten_of_mem hunit List.mem_cons_self
    obtain ⟨c, cs, rfl⟩ := List.exists_cons_of_ne_nil (ne_nil_of_mem_clusters hcluster)
    have hc : c ∈ text.toList := by
      rw [← flatten_clusters text.toList]
      exact List.mem_flatten_of_mem hcluster List.mem_cons_self
    simp [htext c hc]
  rw [split, List.filter_eq_self.mpr hkeep, map_toList_ofList, hunits]

theorem split_ne_nil (htext : ∀ c ∈ text.toList, isBlank c = false) (hne : text ≠ "") :
    g.split text ≠ [] := by
  intro hnil
  have hflatten := flatten_split (g := g) htext
  rw [hnil] at hflatten
  exact hne (String.toList_eq_nil_iff.mp hflatten.symm)

theorem mem_symbols_withSymbols {s : String} :
    s ∈ (withSymbols m extra).symbols ↔ (s ∈ m.symbols.map Prod.fst ∨ s ∈ extra) ∧ s ≠ "" := by
  rw [withSymbols, List.mem_mergeSort, List.mem_filter, List.mem_append]
  simp

/-- How a text is split depends only on which symbols are known. -/
theorem split_withSymbols_congr (h : ∀ s, s ∈ extra ↔ s ∈ extra') (text : String) :
    (withSymbols m extra).split text = (withSymbols m extra').split text := by
  have hmem : ∀ s, s ∈ (withSymbols m extra).symbols ↔ s ∈ (withSymbols m extra').symbols := by
    intro s
    rw [mem_symbols_withSymbols, mem_symbols_withSymbols, h]
  have hfind : ∀ clusters : List (List Char),
      ((withSymbols m extra).symbols.map String.toList).findSome? (afterSpelling? · clusters) =
        ((withSymbols m extra').symbols.map String.toList).findSome?
          (afterSpelling? · clusters) := by
    intro clusters
    rw [List.findSome?_map, List.findSome?_map]
    exact findSome?_afterSpelling?_congr (pairwise_mergeSort_precedes _)
      (pairwise_mergeSort_precedes _) hmem
  have hunits : ∀ clusters : List (List Char),
      unitsOf ((withSymbols m extra).symbols.map String.toList) clusters =
        unitsOf ((withSymbols m extra').symbols.map String.toList) clusters := by
    intro clusters
    fun_induction unitsOf ((withSymbols m extra).symbols.map String.toList) clusters with
    | case1 => rw [unitsOf]
    | case2 cluster rest _ ih =>
      have hhead : afterUnit ((withSymbols m extra).symbols.map String.toList) cluster rest =
          afterUnit ((withSymbols m extra').symbols.map String.toList) cluster rest := by
        rw [afterUnit, afterHead, hfind]
        rfl
      rw [unitsOf, ← hhead, ih]
  rw [split, split, hunits]

/-- A known symbol is left whole. -/
theorem split_self {x : String} (hx : x ∈ (withSymbols m extra).symbols)
    (hblank : ∀ c ∈ x.toList, isBlank c = false) : (withSymbols m extra).split x = [x] := by
  have hspell : afterSpelling? x.toList (clusters x.toList) = some [] := by
    have h : afterSpelling? (clusters x.toList).flatten (clusters x.toList) = some [] :=
      afterSpelling?_flatten fun _ => ne_nil_of_mem_clusters
    rwa [flatten_clusters] at h
  have hfind : ((withSymbols m extra).symbols.map String.toList).findSome?
      (afterSpelling? · (clusters x.toList)) = some [] := by
    have hsome : ((withSymbols m extra).symbols.findSome? fun s =>
        afterSpelling? s.toList (clusters x.toList)).isSome :=
      List.findSome?_isSome_iff.mpr ⟨x, hx, by rw [hspell]; rfl⟩
    obtain ⟨behind, hbehind⟩ := Option.isSome_iff_exists.mp hsome
    obtain ⟨s, _, hs, hlongest⟩ :=
      exists_longest_of_findSome? (pairwise_mergeSort_precedes _) hbehind
    have hprefix := prefix_of_afterSpelling? hs
    rw [flatten_clusters] at hprefix
    obtain rfl : s = x := eq_of_prefix_of_size_le hprefix (hlongest x hx (by rw [hspell]; rfl))
    rw [List.findSome?_map]
    exact hbehind.trans (hs.symm.trans hspell)
  have hne : x.toList ≠ [] := fun h =>
    (mem_symbols_withSymbols.mp hx).2 (String.toList_eq_nil_iff.mp h)
  obtain ⟨cluster, rest, hclusters⟩ : ∃ cluster rest, clusters x.toList = cluster :: rest := by
    refine List.exists_cons_of_ne_nil fun h => hne ?_
    rw [← flatten_clusters x.toList, h]
    rfl
  have hunit : afterUnit ((withSymbols m extra).symbols.map String.toList) cluster rest = [] := by
    rw [hclusters] at hfind
    rw [afterUnit, afterHead, hfind]
    simp
  have hunits : unitsOf ((withSymbols m extra).symbols.map String.toList) (clusters x.toList) =
      [clusters x.toList] := by
    rw [hclusters, unitsOf, hunit, unitsOf]
    simp
  obtain ⟨c, cs, hcs⟩ := List.exists_cons_of_ne_nil hne
  have hkeep : (!x.toList.all isBlank) = true := by
    simp [hcs, hblank c (hcs ▸ List.mem_cons_self)]
  rw [split, hunits, List.map_singleton, flatten_clusters, List.filter_singleton, hkeep,
    cond_true, List.map_singleton, String.ofList_toList]

end Segmenter

end SoundLaw
