import SoundLaw.Proofs.Segmentation

/-!
# Cutting anew

A text can be segmented without a list of its clusters at hand: what remains of it is cut into
clusters again at every step, for the head of a unit and for each modifier behind it, and a known
symbol is taken if it ends where a cluster of the whole text does. This comes to the same as cutting
once, provided that the part between two boundaries of a text is cut as it is cut there. Then the
clusters of what remains are those of the whole text from the same place on, and a symbol that ends
at one of their boundaries is a symbol that they spell.
-/

namespace SoundLaw
set_option autoImplicit false
open Text

/-! ### Cutting into clusters -/

/-- A way to cut texts into clusters such that what stands between two boundaries of a text is
cut as it is within the text. -/
structure IsClustering (cut : List Char → List (List Char)) : Prop where
  flatten (cs : List Char) : (cut cs).flatten = cs
  ne_nil {cs cluster : List Char} : cluster ∈ cut cs → cluster ≠ []
  within {cs : List Char} {before inner after : List (List Char)} :
    cut cs = before ++ inner ++ after → cut inner.flatten = inner

namespace Text

/-- A cluster ends where it ended, however much of the text behind it is left. -/
theorem clusterTail_of_prefix {s : ClusterState} {cs rest : List Char}
    (h : rest <+: (clusterTail s cs).2) :
    clusterTail s ((clusterTail s cs).1 ++ rest) = ((clusterTail s cs).1, rest) := by
  induction cs generalizing s with
  | nil =>
    obtain rfl := List.prefix_nil.mp h
    rfl
  | cons c cs ih =>
    rw [clusterTail] at h ⊢
    split at h
    · rename_i hjoins
      rw [if_pos hjoins, List.cons_append, clusterTail, if_pos hjoins, ih h]
    · rename_i hjoins
      rw [if_neg hjoins]
      cases rest with
      | nil => rfl
      | cons d rest =>
        obtain rfl := (List.cons_prefix_cons.mp h).1
        rw [List.nil_append, clusterTail, if_neg hjoins]

theorem clusters_eq_cons {cs cluster : List Char} {rest : List (List Char)}
    (h : clusters cs = cluster :: rest) : ∃ c tail, cs = c :: tail ∧
      cluster = c :: (clusterTail (.start (.of c)) tail).1 ∧
      rest = clusters (clusterTail (.start (.of c)) tail).2 := by
  cases cs with
  | nil =>
    rw [clusters] at h
    cases h
  | cons c tail =>
    rw [clusters] at h
    obtain ⟨rfl, rfl⟩ := List.cons.inj h
    exact ⟨c, tail, rfl, rfl, rfl⟩

theorem clusters_behind {cs : List Char} {before behind : List (List Char)}
    (h : clusters cs = before ++ behind) : clusters behind.flatten = behind := by
  induction before generalizing cs with
  | nil => rw [← List.nil_append behind, ← h, flatten_clusters]
  | cons cluster before ih =>
    obtain ⟨c, tail, -, -, hrest⟩ := clusters_eq_cons h
    exact ih hrest.symm

theorem clusters_before {cs : List Char} {before behind : List (List Char)}
    (h : clusters cs = before ++ behind) : clusters before.flatten = before := by
  induction before generalizing cs with
  | nil => rw [List.flatten_nil, clusters]
  | cons cluster before ih =>
    obtain ⟨c, tail, -, rfl, hrest⟩ := clusters_eq_cons h
    have hbegins : before.flatten <+: (clusterTail (.start (.of c)) tail).2 := by
      rw [← flatten_clusters (clusterTail (.start (.of c)) tail).2, ← hrest]
      exact ⟨behind.flatten, List.flatten_append.symm⟩
    rw [List.flatten_cons, List.cons_append, clusters, clusterTail_of_prefix hbegins,
      ih hrest.symm]

theorem isClustering_clusters : IsClustering clusters where
  flatten := flatten_clusters
  ne_nil := ne_nil_of_mem_clusters
  within h := by
    rw [List.append_assoc] at h
    exact clusters_before (clusters_behind h)

end Text

theorem IsClustering.cut_behind {cut : List Char → List (List Char)} (hcut : IsClustering cut)
    {text : List Char} {before behind : List (List Char)} (h : cut text = before ++ behind) :
    cut behind.flatten = behind := by
  rw [← List.append_nil (before ++ behind)] at h
  exact hcut.within h

/-! ### The loop -/

namespace Segmenter

/-- The places where the clusters of a text begin, and its end. -/
def bounds (clusters : List (List Char)) : List Nat :=
  clusters.scanl (fun position cluster => position + cluster.length) 0

section Loop
variable (cut : List Char → List (List Char)) (symbols : List (List Char)) (bounds : List Nat)

/-- The length of the first known symbol that stands at a position and ends at a bound, or of the
first cluster of what remains there. -/
def headLength (position : Nat) (rest : List Char) : Nat :=
  match symbols.find? fun s => s.isPrefixOf rest && bounds.contains (position + s.length) with
  | some s => s.length
  | none => ((cut rest).head?.map List.length).getD rest.length

def skipModifiers : List Char → List Char
  | [] => []
  | c :: cs =>
    match (cut (c :: cs)).head? with
    | some (m :: ms) => if isModifier m then skipModifiers (cs.drop ms.length) else c :: cs
    | _ => c :: cs
termination_by rest => rest.length
decreasing_by simp only [List.length_cons, List.length_drop]; omega

theorem length_skipModifiers_le (rest : List Char) :
    (skipModifiers cut rest).length ≤ rest.length := by
  fun_induction skipModifiers cut rest with
  | case1 => exact Nat.le_refl _
  | case2 c cs m ms hhead hm ih =>
    rw [List.length_drop] at ih
    exact (ih.trans (Nat.sub_le _ _)).trans (Nat.le_succ _)
  | case3 | case4 => exact Nat.le_refl _

def piecesFrom (position : Nat) : List Char → List (List Char)
  | [] => []
  | c :: cs =>
    -- a head takes at least one character
    let behind := skipModifiers cut (cs.drop (headLength cut symbols bounds position (c :: cs) - 1))
    let piece := (c :: cs).take (cs.length + 1 - behind.length)
    let pieces := piecesFrom (position + piece.length) behind
    if (trim piece).isEmpty then pieces else piece :: pieces
termination_by rest => rest.length
decreasing_by
  have hle := length_skipModifiers_le cut
    (cs.drop (headLength cut symbols bounds position (c :: cs) - 1))
  rw [List.length_drop] at hle
  simp only [List.length_cons]
  omega

end Loop

/-- The symbols of a text, where what remains of the text is cut anew at every step. -/
def rescan (cut : List Char → List (List Char)) (g : Segmenter) (text : String) : List String :=
  (piecesFrom cut (g.symbols.map String.toList) (bounds (cut text.toList)) 0 text.toList).map
    String.ofList

/-! ### The same pieces -/

theorem mem_bounds_iff {clusters : List (List Char)} {k : Nat} : k ∈ bounds clusters ↔
    ∃ before behind, clusters = before ++ behind ∧ before.flatten.length = k := by
  suffices hfrom : ∀ start, k ∈ clusters.scanl (fun position cluster => position + cluster.length)
      start ↔ ∃ before behind, clusters = before ++ behind ∧
        start + before.flatten.length = k by
    have h := hfrom 0
    simp only [Nat.zero_add] at h
    exact h
  induction clusters with
  | nil =>
    intro start
    simp [eq_comm]
  | cons cluster clusters ih =>
    intro start
    rw [List.scanl_cons, List.mem_cons, ih]
    constructor
    · rintro (rfl | ⟨before, behind, rfl, rfl⟩)
      · exact ⟨[], cluster :: clusters, rfl, rfl⟩
      · refine ⟨cluster :: before, behind, rfl, ?_⟩
        rw [List.flatten_cons, List.length_append, Nat.add_assoc]
    · rintro ⟨before, behind, heq, rfl⟩
      cases before with
      | nil => exact .inl rfl
      | cons first before =>
        obtain ⟨rfl, rfl⟩ := List.cons.inj heq
        refine .inr ⟨before, behind, rfl, ?_⟩
        rw [List.flatten_cons, List.length_append, Nat.add_assoc]

theorem isSome_afterSpelling?_iff {before behind : List (List Char)} {s : List Char}
    (hne : ∀ cluster ∈ before ++ behind, cluster ≠ []) : (afterSpelling? s behind).isSome ↔
      s <+: behind.flatten ∧ before.flatten.length + s.length ∈ bounds (before ++ behind) := by
  rw [Option.isSome_iff_exists, mem_bounds_iff]
  constructor
  · rintro ⟨rest, h⟩
    obtain ⟨taken, rfl, rfl⟩ := exists_of_afterSpelling? h
    refine ⟨prefix_of_afterSpelling? h, before ++ taken, rest, (List.append_assoc _ _ _).symm, ?_⟩
    rw [List.flatten_append, List.length_append]
  · rintro ⟨hbegins, before', rest, heq, hlength⟩
    rcases List.append_eq_append_iff.mp heq with ⟨taken, rfl, rfl⟩ | ⟨more, rfl, rfl⟩
    · rw [List.flatten_append, List.length_append, Nat.add_left_cancel_iff] at hlength
      have htaken : taken.flatten <+: (taken ++ rest).flatten :=
        ⟨rest.flatten, List.flatten_append.symm⟩
      have hs : taken.flatten = s :=
        (List.prefix_of_prefix_length_le htaken hbegins (Nat.le_of_eq hlength)).eq_of_length
          hlength
      refine ⟨rest, hs ▸ afterSpelling?_append fun cluster hcluster => hne cluster ?_⟩
      exact List.mem_append_right _ (List.mem_append_left _ hcluster)
    · rw [List.flatten_append, List.length_append] at hlength
      obtain rfl : s = [] := List.length_eq_zero_iff.mp (by omega)
      exact ⟨behind, by cases behind <;> rfl⟩

theorem findSome?_of_find? {α β : Type} {p : α → Bool} {f : α → Option β} {xs : List α}
    (h : ∀ x ∈ xs, p x = (f x).isSome) : xs.findSome? f = (xs.find? p).bind f := by
  induction xs with
  | nil => rfl
  | cons x xs ih =>
    have hx := h x List.mem_cons_self
    rw [List.findSome?_cons, List.find?_cons, ih fun y hy => h y (List.mem_cons_of_mem x hy), hx]
    cases hfx : f x with
    | none => rfl
    | some y => exact hfx.symm

section Agreement
variable {cut : List Char → List (List Char)} {symbols : List (List Char)} {text : List Char}
variable {before behind rest : List (List Char)} {cluster : List Char}

theorem exists_head (hcut : IsClustering cut) (hsymbols : ∀ s ∈ symbols, s ≠ [])
    (h : cut text = before ++ cluster :: rest) : ∃ head,
      cluster :: rest = head ++ afterHead symbols cluster rest ∧
      headLength cut symbols (bounds (cut text)) before.flatten.length
        (cluster :: rest).flatten = head.flatten.length ∧ head.flatten ≠ [] := by
  have hne : ∀ x ∈ before ++ cluster :: rest, x ≠ [] := h ▸ fun x hx => hcut.ne_nil hx
  have hspells : ∀ s : List Char, (s.isPrefixOf (cluster :: rest).flatten &&
      (bounds (cut text)).contains (before.flatten.length + s.length)) =
        (afterSpelling? s (cluster :: rest)).isSome := fun s => by
    rw [Bool.eq_iff_iff, isSome_afterSpelling?_iff hne, h]
    simp
  have hfind : symbols.findSome? (afterSpelling? · (cluster :: rest)) = _ :=
    findSome?_of_find? fun s _ => hspells s
  rw [headLength, afterHead, hfind]
  cases hknown : symbols.find? _ with
  | none =>
    refine ⟨[cluster], rfl, ?_, ?_⟩
    · rw [hcut.cut_behind h, List.flatten_singleton]
      rfl
    · rw [List.flatten_singleton]
      exact hne cluster (List.mem_append_right before List.mem_cons_self)
  | some s =>
    have hsome := List.find?_some hknown
    rw [hspells] at hsome
    obtain ⟨after, hafter⟩ := Option.isSome_iff_exists.mp hsome
    obtain ⟨head, heq, rfl⟩ := exists_of_afterSpelling? hafter
    have hfilled : head.flatten ≠ [] := hsymbols _ (List.mem_of_find?_eq_some hknown)
    have hle : after.length ≤ rest.length := length_le_of_afterSpelling? hfilled hafter
    refine ⟨head, ?_, rfl, hfilled⟩
    simp only [Option.bind_some, hafter, if_pos hle]
    exact heq

theorem skipModifiers_flatten (hcut : IsClustering cut) (h : cut text = before ++ behind) :
    skipModifiers cut behind.flatten = (behind.dropWhile isModifierCluster).flatten := by
  induction behind generalizing before with
  | nil => rw [List.flatten_nil, skipModifiers, List.dropWhile_nil, List.flatten_nil]
  | cons cluster rest ih =>
    have hcluster : cut text = (before ++ [cluster]) ++ rest := by
      rw [h, List.append_assoc]
      rfl
    have hrest := ih hcluster
    have hself := hcut.cut_behind h
    obtain ⟨m, ms, rfl⟩ := List.exists_cons_of_ne_nil
      (hcut.ne_nil (h ▸ List.mem_append_right before List.mem_cons_self))
    rw [List.flatten_cons, List.cons_append] at hself ⊢
    rw [skipModifiers, hself]
    simp only [List.head?_cons, List.drop_left, hrest]
    have hmodifier : isModifierCluster (m :: ms) = isModifier m := rfl
    rw [List.dropWhile_cons, hmodifier]
    cases isModifier m <;> rfl

theorem piecesFrom_of_ne_nil {bounds : List Nat} {position : Nat} {remaining : List Char}
    (hne : remaining ≠ []) (hhead : headLength cut symbols bounds position remaining ≠ 0) :
    piecesFrom cut symbols bounds position remaining =
      let behind := skipModifiers cut
        (remaining.drop (headLength cut symbols bounds position remaining))
      let piece := remaining.take (remaining.length - behind.length)
      let pieces := piecesFrom cut symbols bounds (position + piece.length) behind
      if (trim piece).isEmpty then pieces else piece :: pieces := by
  obtain ⟨c, cs, rfl⟩ := List.exists_cons_of_ne_nil hne
  obtain ⟨n, hn⟩ := Nat.exists_eq_succ_of_ne_zero hhead
  rw [piecesFrom, hn, List.drop_succ_cons]
  rfl

/-- From a boundary on, the pieces are the units of the clusters behind it that are not blank. -/
theorem piecesFrom_flatten (hcut : IsClustering cut) (hsymbols : ∀ s ∈ symbols, s ≠ [])
    (h : cut text = before ++ behind) :
    piecesFrom cut symbols (bounds (cut text)) before.flatten.length behind.flatten =
      ((unitsOf symbols behind).map List.flatten).filter fun u => !u.all isBlank := by
  fun_induction unitsOf symbols behind generalizing before with
  | case1 =>
    rw [List.flatten_nil, piecesFrom]
    rfl
  | case2 cluster rest _ ih =>
    obtain ⟨head, heq, hlength, hfilled⟩ := exists_head hcut hsymbols h
    have hsome : (cluster :: rest).flatten ≠ [] := by
      rw [heq, List.flatten_append]
      exact List.append_ne_nil_of_left_ne_nil hfilled _
    have hdrop : (cluster :: rest).flatten.drop head.flatten.length =
        (afterHead symbols cluster rest).flatten := by
      rw [congrArg List.flatten heq, List.flatten_append, List.drop_left]
    have hhead : cut text = (before ++ head) ++ afterHead symbols cluster rest := by
      rw [h, heq, List.append_assoc]
    have hskip : skipModifiers cut (afterHead symbols cluster rest).flatten =
        (afterUnit symbols cluster rest).flatten := skipModifiers_flatten hcut hhead
    rw [piecesFrom_of_ne_nil hsome (by rwa [hlength, ne_eq, List.length_eq_zero_iff]), hlength,
      hdrop, hskip]
    have hunit : (cluster :: rest).take (rest.length + 1 - (afterUnit symbols cluster rest).length)
        ++ afterUnit symbols cluster rest = cluster :: rest :=
      List.suffix_iff_eq_append.mp (afterUnit_suffix.trans (List.suffix_cons _ _))
    generalize (cluster :: rest).take (rest.length + 1 - (afterUnit symbols cluster rest).length) =
      unit at hunit
    have hpiece : (cluster :: rest).flatten.take ((cluster :: rest).flatten.length -
        (afterUnit symbols cluster rest).flatten.length) = unit.flatten := by
      rw [← hunit, List.flatten_append, List.length_append, Nat.add_sub_cancel, List.take_left]
    have hposition : before.flatten.length + unit.flatten.length =
        (before ++ unit).flatten.length := by
      rw [List.flatten_append, List.length_append]
    simp only [hpiece, hposition, isEmpty_trim]
    rw [ih (by rw [h, List.append_assoc, hunit]), List.map_cons, List.filter_cons]
    cases unit.flatten.all isBlank <;> rfl

end Agreement

end Segmenter

end SoundLaw
