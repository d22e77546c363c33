import Mathlib.Data.List.Chain
import SoundLaw.Proofs.Units

/-!
# Blanks in symbols

Blanks are left out only after a text has been cut into units, and only units of nothing else. A
blank stays in a symbol where a neighbour holds on to it: a modifier or a mark that follows it, or
a character that is prepended to it. A text without such neighbours loses all its blanks, and any
other text keeps one.
-/

namespace SoundLaw
set_option autoImplicit false
open Text

namespace Text
variable {a b c : Char} {s : ClusterState} {k : ClusterClass} {cs : List Char}

/-! ### Classes of blanks -/

namespace ClusterClass

/-- Joins the cluster before it unless that ends in a control character. -/
def isMark (k : ClusterClass) : Bool := k.isExtending || k == .joiner || k == .spacingMark

def isLineBreak (k : ClusterClass) : Bool := k == .carriageReturn || k == .lineFeed

end ClusterClass

def blanks : List Nat :=
  [9, 10, 11, 12, 13, 0x20, 0x85, 0xA0, 0x1680, 0x2000, 0x2001, 0x2002, 0x2003, 0x2004, 0x2005,
    0x2006, 0x2007, 0x2008, 0x2009, 0x200A, 0x2028, 0x2029, 0x202F, 0x205F, 0x3000]

theorem mem_blanks_of_isBlank (h : isBlank c = true) : c.toNat ∈ blanks := by
  simp only [isBlank, Bool.or_eq_true, Bool.and_eq_true, decide_eq_true_eq, beq_iff_eq] at h
  simp only [blanks, List.mem_cons, List.not_mem_nil]
  omega

theorem class_of_isBlank (h : isBlank c = true) :
    ClusterClass.of c = .other ∨ (ClusterClass.of c).isControl = true := by
  have hall : ∀ n ∈ blanks, ClusterClass.of (Char.ofNat n) = .other ∨
      (ClusterClass.of (Char.ofNat n)).isControl = true := by
    decide +kernel
  have hc := hall _ (mem_blanks_of_isBlank h)
  rwa [Char.ofNat_toNat] at hc

/-- The two characters of a line break have classes of their own, and both are blanks. -/
theorem isBlank_of_isLineBreak (h : (ClusterClass.of c).isLineBreak = true) :
    isBlank c = true := by
  revert h
  unfold ClusterClass.of
  refine iteInduction (motive := fun k : ClusterClass => k.isLineBreak = true → isBlank c = true)
    (fun hreturn _ => ?_) fun _ => ?_
  · simp [isBlank, eq_of_beq hreturn]
  refine iteInduction (motive := fun k : ClusterClass => k.isLineBreak = true → isBlank c = true)
    (fun hfeed _ => ?_) fun _ => ?_
  · simp [isBlank, eq_of_beq hfeed]
  iterate 11
    refine iteInduction (motive := fun k : ClusterClass => k.isLineBreak = true → isBlank c = true)
      (fun _ => nofun) fun _ => ?_
  unfold hangulClass?
  intro h
  split_ifs at h <;> cases h

theorem isModifier_of_isBlank (h : isBlank c = true) : isModifier c = false := by
  simp only [isBlank, Bool.or_eq_true, Bool.and_eq_true, decide_eq_true_eq, beq_iff_eq] at h
  refine Bool.eq_false_iff.mpr fun hc => ?_
  simp only [isModifier, Bool.or_eq_true, Bool.and_eq_true, decide_eq_true_eq, beq_iff_eq] at hc
  omega

/-! ### Joining a cluster -/

namespace ClusterState

theorem joins_of_isMark (hs : s.last.isControl = false) (hk : k.isMark = true) :
    s.joins k = true := by
  have hcontrol : k.isControl = false := by
    revert hk
    cases k <;> decide
  rw [joins]
  split
  · rfl
  · simp only [ClusterClass.isMark, Bool.or_eq_true] at hk
    rw [hs, hcontrol]
    rcases hk with (h | h) | h <;> simp [h]

theorem joins_of_prepended (hs : s.last = .prepended) (hk : k.isControl = false) :
    s.joins k = true := by
  rw [joins, hs, hk]
  simp [ClusterClass.isControl]

theorem last_of_joins_other (h : s.joins .other = true) : s.last = .prepended := by
  have hsyllable : syllable s.last .other = false := by
    cases s.last <;> rfl
  simp [joins, hsyllable, ClusterClass.isExtending] at h
  exact h.2

theorem eq_of_joins_control (h : s.joins k = true)
    (hcontrol : s.last.isControl = true ∨ k.isControl = true) :
    s.last = .carriageReturn ∧ k = .lineFeed := by
  rw [joins] at h
  split at h
  · rename_i hbreak
    simpa using hbreak
  · rw [if_pos (by simpa using hcontrol)] at h
    cases h

theorem isMark_of_start_joins (h : (start .other).joins k = true) : k.isMark = true := by
  revert h
  cases k <;> decide

end ClusterState

/-! ### Neighbours that hold on to a blank -/

/-- One of two neighbouring characters is a blank, and the other one keeps it: a modifier goes
with whatever is before it, and the cluster of a blank takes in marks and prepended characters. -/
inductive Clings (a b : Char) : Prop
  | modifier : isBlank a = true → isModifier b = true → Clings a b
  | mark : isBlank a = true → (ClusterClass.of a).isControl = false →
    (ClusterClass.of b).isMark = true → Clings a b
  | prepended : ClusterClass.of a = .prepended → isBlank b = true →
    (ClusterClass.of b).isControl = false → Clings a b

/-- No two neighbours hold on to a blank. -/
def Loose (cs : List Char) : Prop := cs.IsChain fun a b => ¬ Clings a b

theorem Clings.not_both (h : Clings a b) (ha : isBlank a = true) : isBlank b = false := by
  refine Bool.eq_false_iff.mpr fun hb => ?_
  cases h with
  | modifier _ hmodifier => cases (isModifier_of_isBlank hb).symm.trans hmodifier
  | mark _ _ hmark =>
    rcases class_of_isBlank hb with hclass | hclass
    · rw [hclass] at hmark
      cases hmark
    · revert hclass hmark
      cases ClusterClass.of b <;> decide
  | prepended hprepended =>
    rcases class_of_isBlank ha with hclass | hclass
    · cases hprepended.symm.trans hclass
    · rw [hprepended] at hclass
      cases hclass

theorem Clings.isBlank_or (h : Clings a b) : isBlank a = true ∨ isBlank b = true := by
  cases h with
  | modifier ha | mark ha => exact .inl ha
  | prepended _ hb => exact .inr hb

/-- Where a cluster ends, only a modifier can hold on to its last blank. -/
theorem Clings.isModifier_of_not_joins (h : Clings a b) (hs : s.last = ClusterClass.of a)
    (hjoins : s.joins (.of b) = false) : isModifier b = true := by
  cases h with
  | modifier _ hmodifier => exact hmodifier
  | mark _ hcontrol hmark =>
    cases (ClusterState.joins_of_isMark (hs ▸ hcontrol) hmark).symm.trans hjoins
  | prepended hprepended _ hcontrol =>
    cases (ClusterState.joins_of_prepended (hs.trans hprepended) hcontrol).symm.trans hjoins

/-! ### Blanks in clusters -/

/-- What joins a cluster behind a character that is no blank is none either. -/
theorem clusterTail_not_blank (hs : s.last = ClusterClass.of a) (ha : isBlank a = false)
    (hloose : Loose (a :: (clusterTail s cs).1)) :
    ∀ c ∈ (clusterTail s cs).1, isBlank c = false := by
  induction cs generalizing s a with
  | nil => exact List.forall_mem_nil _
  | cons c cs ih =>
    rw [clusterTail] at hloose ⊢
    split at hloose
    · rename_i hjoins
      obtain ⟨hclings, hloose⟩ := List.isChain_cons_cons.mp hloose
      have hc : isBlank c = false := by
        refine Bool.eq_false_iff.mpr fun hblank => ?_
        -- a blank joins only a prepended character, which would cling, or a carriage return
        rcases class_of_isBlank hblank with hclass | hcontrol
        · rw [hclass] at hjoins
          have hprepended := hs.symm.trans (ClusterState.last_of_joins_other hjoins)
          exact hclings (.prepended hprepended hblank (hclass ▸ rfl))
        · obtain ⟨hlast, -⟩ := ClusterState.eq_of_joins_control hjoins (.inr hcontrol)
          have hreturn := hs.symm.trans hlast
          cases ha.symm.trans (isBlank_of_isLineBreak (hreturn ▸ rfl))
      rw [if_pos hjoins]
      exact List.forall_mem_cons.mpr ⟨hc, ih rfl hc hloose⟩
    · rename_i hjoins
      rw [if_neg hjoins]
      exact List.forall_mem_nil _

theorem clusterTail_lineFeed (hs : s.last = .lineFeed) : (clusterTail s cs).1 = [] := by
  cases cs with
  | nil => rfl
  | cons c cs =>
    rw [clusterTail, if_neg]
    intro hjoins
    obtain ⟨hlast, -⟩ := ClusterState.eq_of_joins_control hjoins (.inl (hs ▸ rfl))
    cases hlast.symm.trans hs

/-- Only a line feed joins the cluster of a blank. -/
theorem clusterTail_blank (hc : isBlank c = true)
    (hloose : Loose (c :: (clusterTail (.start (.of c)) cs).1)) :
    ∀ d ∈ (clusterTail (.start (.of c)) cs).1, isBlank d = true := by
  cases cs with
  | nil => exact List.forall_mem_nil _
  | cons d cs =>
    rw [clusterTail] at hloose ⊢
    split at hloose
    · rename_i hjoins
      obtain ⟨hclings, -⟩ := List.isChain_cons_cons.mp hloose
      rw [if_pos hjoins]
      rcases class_of_isBlank hc with hclass | hcontrol
      · rw [hclass] at hjoins
        exact absurd (.mark hc (hclass ▸ rfl) (ClusterState.isMark_of_start_joins hjoins)) hclings
      · obtain ⟨-, hfeed⟩ := ClusterState.eq_of_joins_control hjoins (.inl hcontrol)
        refine List.forall_mem_cons.mpr ⟨isBlank_of_isLineBreak (hfeed ▸ rfl), ?_⟩
        show ∀ x ∈ (clusterTail ((ClusterState.start (.of c)).next (.of d)) cs).1, _
        rw [clusterTail_lineFeed hfeed]
        exact List.forall_mem_nil _
    · rename_i hjoins
      rw [if_neg hjoins]
      exact List.forall_mem_nil _

theorem blank_or_not_of_mem_clusters {cluster : List Char} (h : cluster ∈ clusters cs)
    (hloose : Loose cluster) :
    (∀ c ∈ cluster, isBlank c = true) ∨ ∀ c ∈ cluster, isBlank c = false := by
  fun_induction clusters cs with
  | case1 => cases h
  | case2 c cs _ ih =>
    rcases List.mem_cons.mp h with rfl | h
    · cases hc : isBlank c with
      | true => exact .inl (List.forall_mem_cons.mpr ⟨hc, clusterTail_blank hc hloose⟩)
      | false => exact .inr (List.forall_mem_cons.mpr ⟨hc, clusterTail_not_blank rfl hc hloose⟩)
    · exact ih h

/-! ### Boundaries of clusters -/

theorem exists_not_joins (hs : s.last = ClusterClass.of c)
    (hb : b ∈ (clusterTail s cs).2.head?) (ha : a ∈ (c :: (clusterTail s cs).1).getLast?) :
    ∃ s' : ClusterState, s'.last = ClusterClass.of a ∧ s'.joins (.of b) = false := by
  induction cs generalizing s c with
  | nil => cases hb
  | cons d cs ih =>
    rw [clusterTail] at hb ha
    split at hb
    · rename_i hjoins
      rw [if_pos hjoins, List.getLast?_cons_cons] at ha
      exact ih rfl hb ha
    · rename_i hjoins
      rw [if_neg hjoins] at ha
      cases hb
      cases ha
      exact ⟨s, hs, by simpa using hjoins⟩

/-- The last character of a cluster is not joined by the first of the next one. -/
theorem isChain_clusters (cs : List Char) : (clusters cs).IsChain fun x y =>
    ∀ a ∈ x.getLast?, ∀ b ∈ y.head?,
      ∃ s : ClusterState, s.last = ClusterClass.of a ∧ s.joins (.of b) = false := by
  fun_induction clusters cs with
  | case1 => exact .nil
  | case2 c cs _ ih =>
    refine List.isChain_cons.mpr ⟨fun y hy a ha b hb => exists_not_joins rfl ?_ ha, ih⟩
    obtain ⟨others, hothers⟩ := List.head?_eq_some_iff.mp hy
    obtain ⟨d, tail, hrest, rfl, -⟩ := clusters_eq_cons hothers
    rw [hrest]
    exact hb

end Text

/-! ### Blanks in units -/

section Units
variable {symbols : List String} {clusters unit behind : List (List Char)}
variable {units : List (List (List Char))}

theorem head_of_isModifierCluster {cluster : List Char} (h : isModifierCluster cluster = true) :
    ∃ c ∈ cluster.head?, isModifier c = true := by
  cases cluster with
  | nil => cases h
  | cons c cs => exact ⟨c, rfl, h⟩

/-- If no neighbours hold on to a blank, a unit consists of blanks or has none. -/
theorem IsUnit.blank_or_not (h : IsUnit symbols unit behind)
    (hsymbols : ∀ s ∈ symbols, ∀ c ∈ s.toList, isBlank c = false)
    (hclusters : ∀ x ∈ unit, Loose x → (∀ c ∈ x, isBlank c = true) ∨ ∀ c ∈ x, isBlank c = false)
    (hne : ∀ x ∈ unit, x ≠ []) (hloose : Loose unit.flatten) :
    (∀ c ∈ unit.flatten, isBlank c = true) ∨ ∀ c ∈ unit.flatten, isBlank c = false := by
  obtain @⟨head, modifiers, _, hhead, hmodifiers, -⟩ := h
  have hparts : ∀ x ∈ head ++ modifiers,
      (∀ c ∈ x, isBlank c = true) ∨ ∀ c ∈ x, isBlank c = false := fun x hx =>
    hclusters x hx (((List.isChain_flatten fun hnil => hne [] hnil rfl).mp hloose).1 x hx)
  have hbehind : ∀ c ∈ modifiers.flatten, isBlank c = false := by
    intro c hc
    obtain ⟨x, hx, hc⟩ := List.mem_flatten.mp hc
    obtain ⟨d, hd, hmodifier⟩ := head_of_isModifierCluster (hmodifiers x hx)
    rcases hparts x (List.mem_append_right _ hx) with hblank | hnone
    · have hd := hblank d (List.mem_of_mem_head? hd)
      cases (isModifier_of_isBlank hd).symm.trans hmodifier
    · exact hnone c hc
  rw [List.flatten_append] at hloose ⊢
  cases hhead with
  | symbol hs _ hflatten =>
    refine .inr (List.forall_mem_append.mpr ⟨?_, hbehind⟩)
    rw [hflatten]
    exact hsymbols _ hs
  | @cluster cluster hcluster =>
    subst hcluster
    rw [List.flatten_singleton] at hloose ⊢
    rcases hparts cluster List.mem_cons_self with hblank | hnone
    · refine .inl (List.forall_mem_append.mpr ⟨hblank, fun c hc => ?_⟩)
      -- a modifier would hold on to the last blank of the head
      exfalso
      obtain ⟨x, others, rfl⟩ : ∃ x others, modifiers = x :: others :=
        List.exists_cons_of_ne_nil fun hnil => by simp [hnil] at hc
      obtain ⟨d, hd, hmodifier⟩ := head_of_isModifierCluster (hmodifiers x List.mem_cons_self)
      have hlast := List.getLast?_eq_some_getLast (hne cluster (by simp))
      refine (List.isChain_append.mp hloose).2.2 _ hlast d ?_ (.modifier ?_ hmodifier)
      · rw [List.flatten_cons, List.head?_append, Option.mem_def.mp hd]
        rfl
      · exact hblank _ (List.getLast_mem _)
    · exact .inr (List.forall_mem_append.mpr ⟨hnone, hbehind⟩)

theorem IsUnit.not_isModifierCluster (h : IsUnit symbols unit behind) :
    ∀ cluster ∈ behind.head?, isModifierCluster cluster = false := by
  obtain ⟨-, -, hbehind⟩ := h
  exact hbehind

/-- Nothing holds on to a blank across the boundary between two units. -/
theorem Reads.isChain_flatten (h : Reads symbols clusters units)
    (hne : ∀ x ∈ clusters, x ≠ [])
    (hchain : clusters.IsChain fun x y => ∀ a ∈ x.getLast?, ∀ b ∈ y.head?,
      ∃ s : ClusterState, s.last = ClusterClass.of a ∧ s.joins (.of b) = false) :
    (units.map List.flatten).IsChain fun u v =>
      ∀ a ∈ u.getLast?, ∀ b ∈ v.head?, ¬ Clings a b := by
  induction h with
  | nil => exact .nil
  | @cons unit behind units hunit hreads ih =>
    obtain ⟨-, hrest, hboundary⟩ := List.isChain_append.mp hchain
    refine List.isChain_cons.mpr ⟨fun v hv a ha b hb hclings => ?_,
      ih (fun x hx => hne x (List.mem_append_right _ hx)) hrest⟩
    cases hreads with
    | nil => cases hv
    | @cons next behind units hnext _ =>
      cases hv
      obtain ⟨before, x, rfl⟩ : ∃ before x, unit = before ++ [x] := by
        simpa using (List.eq_nil_or_concat unit).resolve_left hunit.ne_nil
      obtain ⟨y, after, rfl⟩ := List.exists_cons_of_ne_nil hnext.ne_nil
      have hx : x ≠ [] := hne x (by simp)
      have hy : y ≠ [] := hne y (by simp)
      rw [List.flatten_append, List.flatten_singleton, List.getLast?_append_of_ne_nil _ hx] at ha
      rw [List.flatten_cons, List.head?_append_of_ne_nil _ hy] at hb
      obtain ⟨s, hs, hjoins⟩ := hboundary x (by simp) y rfl a ha b hb
      have hmodifier := hclings.isModifier_of_not_joins hs hjoins
      obtain ⟨others, rfl⟩ := List.head?_eq_some_iff.mp hb
      cases hmodifier.symm.trans (hunit.not_isModifierCluster (b :: others) rfl)

end Units

/-! ### Blanks in the symbols of a text -/

namespace Segmenter
variable {g : Segmenter} {m : FeatureModel} {extra : List String} {text : String}

theorem mem_split_iff {piece : String} : piece ∈ g.split text ↔
    ∃ unit ∈ unitsOf (g.symbols.map String.toList) (clusters text.toList),
      unit.flatten.all isBlank = false ∧ piece = String.ofList unit.flatten := by
  rw [split, List.mem_map]
  constructor
  · rintro ⟨u, hu, rfl⟩
    obtain ⟨hu, hblank⟩ := List.mem_filter.mp hu
    obtain ⟨unit, hunit, rfl⟩ := List.mem_map.mp hu
    exact ⟨unit, hunit, by simpa using hblank, rfl⟩
  · rintro ⟨unit, hunit, hblank, rfl⟩
    exact ⟨unit.flatten, List.mem_filter.mpr ⟨List.mem_map_of_mem hunit, by simp [hblank]⟩, rfl⟩

theorem not_blank_iff_loose
    (hsymbols : ∀ s ∈ m.symbols.map Prod.fst ++ extra, ∀ c ∈ s.toList, isBlank c = false) :
    (∀ piece ∈ (withSymbols m extra).split text, ∀ c ∈ piece.toList, isBlank c = false) ↔
      Loose text.toList := by
  have hne : ∀ x ∈ clusters text.toList, x ≠ [] := fun _ => ne_nil_of_mem_clusters
  have hreads := reads_unitsOf m extra hne
  have hchain := hreads.isChain_flatten hne (isChain_clusters text.toList)
  simp only [mem_split_iff]
  generalize unitsOf ((withSymbols m extra).symbols.map String.toList) (clusters text.toList) =
    units at hreads hchain
  have htext : text.toList = (units.map List.flatten).flatten := by
    rw [← List.flatten_flatten, hreads.flatten, flatten_clusters]
  have hnil : [] ∉ units.map List.flatten := by
    rintro hmem
    obtain ⟨unit, hunit, hflatten⟩ := List.mem_map.mp hmem
    exact hreads.flatten_ne_nil hne hunit hflatten
  constructor
  · intro hpieces
    rw [htext]
    refine (List.isChain_flatten hnil).mpr ⟨?_, hchain⟩
    intro u hu
    obtain ⟨unit, hunit, rfl⟩ := List.mem_map.mp hu
    rw [List.isChain_iff_forall_rel_of_append_cons_cons]
    intro a b before after heq hclings
    have ha : a ∈ unit.flatten := by simp [heq]
    have hb : b ∈ unit.flatten := by simp [heq]
    cases hall : unit.flatten.all isBlank with
    | true =>
      have hblank := List.all_eq_true.mp hall
      cases (hclings.not_both (hblank a ha)).symm.trans (hblank b hb)
    | false =>
      have hnone := hpieces _ ⟨unit, hunit, hall, rfl⟩
      rw [String.toList_ofList] at hnone
      rcases hclings.isBlank_or with h | h
      · cases (hnone a ha).symm.trans h
      · cases (hnone b hb).symm.trans h
  · rintro hloose piece ⟨unit, hunit, hall, rfl⟩
    obtain ⟨before, behind, heq, hisUnit⟩ := hreads.exists_isUnit hunit
    have hmem : ∀ x ∈ unit, x ∈ clusters text.toList := fun x hx => by simp [heq, hx]
    rw [htext] at hloose
    rw [String.toList_ofList]
    refine (hisUnit.blank_or_not hsymbols (fun x hx => blank_or_not_of_mem_clusters (hmem x hx))
      (fun x hx => hne x (hmem x hx)) ?_).resolve_left fun hblank => ?_
    · exact ((List.isChain_flatten hnil).mp hloose).1 _ (List.mem_map_of_mem hunit)
    · cases hall.symm.trans (List.all_eq_true.mpr hblank)

theorem filter_flatten_of_blank (units : List (List Char)) :
    (units.filter fun u => !u.all isBlank).flatten.filter (!isBlank ·) =
      units.flatten.filter (!isBlank ·) := by
  induction units with
  | nil => rfl
  | cons u units ih =>
    rw [List.filter_cons, List.flatten_cons, List.filter_append]
    split
    · rw [List.flatten_cons, List.filter_append, ih]
    · rename_i hblank
      have hnone : u.filter (!isBlank ·) = [] := List.filter_eq_nil_iff.mpr (by simpa using hblank)
      rw [ih, hnone, List.nil_append]

theorem filter_split (g : Segmenter) (text : String) :
    ((g.split text).flatMap String.toList).filter (!isBlank ·) =
      text.toList.filter (!isBlank ·) := by
  rw [split, List.flatMap_def, map_toList_ofList, filter_flatten_of_blank,
    ← List.flatten_flatten, flatten_unitsOf, flatten_clusters]

theorem flatMap_split_iff : (g.split text).flatMap String.toList =
      text.toList.filter (!isBlank ·) ↔
    ∀ piece ∈ g.split text, ∀ c ∈ piece.toList, isBlank c = false := by
  rw [← filter_split, eq_comm, List.filter_eq_self, List.forall_mem_flatMap]
  simp

theorem map_symbol_segment (g : Segmenter) (text : String) :
    (g.segment text).segments.map Segment.symbol = g.split text := by
  rw [segment, List.map_map]
  exact List.map_id _

/-- If no known symbol has a blank, the non-blank characters of a text are kept in order, and its
blanks are all left out exactly if no two neighbours in it hold on to one. -/
theorem split_blanks (m : FeatureModel) (extra : List String)
    (hsymbols : ∀ s ∈ m.symbols.map Prod.fst ++ extra, ∀ c ∈ s.toList, isBlank c = false)
    (text : String) :
    (((withSymbols m extra).split text).flatMap String.toList).filter (!isBlank ·) =
        text.toList.filter (!isBlank ·) ∧
      ((∀ piece ∈ (withSymbols m extra).split text, ∀ c ∈ piece.toList, isBlank c = false) ↔
        Loose text.toList) ∧
      (((withSymbols m extra).split text).flatMap String.toList =
          text.toList.filter (!isBlank ·) ↔ Loose text.toList) ∧
      ((∀ s ∈ ((withSymbols m extra).segment text).segments,
          ∀ c ∈ s.symbol.toList, isBlank c = false) ↔ Loose text.toList) := by
  have hpieces : _ ↔ Loose text.toList := not_blank_iff_loose hsymbols
  refine ⟨filter_split _ text, hpieces, flatMap_split_iff.trans hpieces, ?_⟩
  rw [← hpieces, ← map_symbol_segment, List.forall_mem_map]

theorem split_blanks_modifier :
    (∀ s ∈ FeatureModel.empty.symbols.map Prod.fst ++ ["tʰ"], ∀ c ∈ s.toList,
      isBlank c = false) ∧
    (((withSymbols .empty ["tʰ"]).split "a tʰa").flatMap String.toList).filter (!isBlank ·) =
        "a tʰa".toList.filter (!isBlank ·) ∧
      ((∀ piece ∈ (withSymbols .empty ["tʰ"]).split "a tʰa", ∀ c ∈ piece.toList,
        isBlank c = false) ↔ Loose "a tʰa".toList) ∧
      (((withSymbols .empty ["tʰ"]).split "a tʰa").flatMap String.toList =
          "a tʰa".toList.filter (!isBlank ·) ↔ Loose "a tʰa".toList) ∧
      ((∀ s ∈ ((withSymbols .empty ["tʰ"]).segment "a tʰa").segments,
          ∀ c ∈ s.symbol.toList, isBlank c = false) ↔ Loose "a tʰa".toList) := by
  have hsymbols : ∀ s ∈ FeatureModel.empty.symbols.map Prod.fst ++ ["tʰ"], ∀ c ∈ s.toList,
      isBlank c = false :=
    List.forall_mem_singleton.mpr (List.forall_iff_forall_mem.mp (by decide))
  exact ⟨hsymbols, split_blanks .empty ["tʰ"] hsymbols "a tʰa"⟩

/-- Blanks are kept in front of a modifier or a mark and behind a prepended character. -/
theorem split_keeps_blanks :
    (∀ s ∈ FeatureModel.empty.symbols.map Prod.fst ++ [], ∀ c ∈ s.toList, isBlank c = false) ∧
      (withSymbols .empty []).split " ʰ" = [" ʰ"] ∧
      (withSymbols .empty []).split " \u0301" = [" \u0301"] ∧
      (withSymbols .empty []).split "\u0600 " = ["\u0600 "] ∧
      ¬ ∀ piece ∈ (withSymbols .empty []).split " ʰ", ∀ c ∈ piece.toList, isBlank c = false := by
  have hmodifier : (withSymbols .empty []).split " ʰ" = [" ʰ"] := by decide +kernel
  refine ⟨List.forall_mem_nil _, hmodifier, by decide +kernel, by decide +kernel, fun h => ?_⟩
  rw [hmodifier] at h
  cases h " ʰ" List.mem_cons_self ' ' List.mem_cons_self

end Segmenter

end SoundLaw
