import Mathlib.Data.List.Basic
import Mathlib.Data.List.TakeWhile
import SoundLaw.Text.Blank

/-!
# Trims, cuts and words

Words with blanks between them are found again, a text is cut at the first separator, and what is
trimmed away is blank.
-/

namespace SoundLaw.Text
set_option autoImplicit false

variable {cs a b word rest : List Char} {words : List (List Char)}

/-! ### Runs -/

section Runs
variable {α : Type} {p : α → Bool} {xs ys : List α}

theorem head_dropWhile (xs : List α) : ∀ x ∈ (xs.dropWhile p).head?, p x = false := by
  intro x hx
  have h := List.head?_dropWhile_not p xs
  rw [Option.mem_def.mp hx] at h
  exact h

theorem takeWhile_append_of_head (hxs : ∀ x ∈ xs, p x = true)
    (hys : ∀ y ∈ ys.head?, p y = false) : (xs ++ ys).takeWhile p = xs := by
  rw [List.takeWhile_append_of_pos hxs]
  cases ys with
  | nil => exact List.append_nil xs
  | cons y ys => rw [List.takeWhile_cons_of_neg (by simp [hys y rfl]), List.append_nil]

theorem dropWhile_append_of_head (hxs : ∀ x ∈ xs, p x = true)
    (hys : ∀ y ∈ ys.head?, p y = false) : (xs ++ ys).dropWhile p = ys := by
  rw [List.dropWhile_append_of_pos hxs]
  cases ys with
  | nil => rfl
  | cons y ys => exact List.dropWhile_cons_of_neg (by simp [hys y rfl])

end Runs

theorem map_toList_ofList (words : List (List Char)) :
    (words.map String.ofList).map String.toList = words := by
  rw [List.map_map]
  exact (List.map_congr_left fun _ _ => String.toList_ofList).trans (List.map_id words)

theorem map_ofList_toList (words : List String) :
    (words.map String.toList).map String.ofList = words := by
  rw [List.map_map]
  exact (List.map_congr_left fun _ _ => String.ofList_toList).trans (List.map_id words)

/-! ### Trims -/

theorem dropWhile_isBlank_of_head (h : ∀ c ∈ cs.head?, isBlank c = false) :
    cs.dropWhile isBlank = cs := by
  cases cs with
  | nil => rfl
  | cons c cs => exact List.dropWhile_cons_of_neg (by simp [h c rfl])

theorem trim_eq_self (hfirst : ∀ c ∈ cs.head?, isBlank c = false)
    (hlast : ∀ c ∈ cs.getLast?, isBlank c = false) : trim cs = cs := by
  have hend : cs.reverse.dropWhile isBlank = cs.reverse := by
    apply dropWhile_isBlank_of_head
    rwa [List.head?_reverse]
  rw [trim, trimStart, dropWhile_isBlank_of_head hfirst, trimEnd, hend, List.reverse_reverse]

theorem trim_append_blank {c : Char} (hc : isBlank c = true) : trim (cs ++ [c]) = trim cs := by
  rw [trim, trimStart, List.dropWhile_append]
  split
  · rename_i hnone
    rw [trim, trimStart, List.isEmpty_iff.mp hnone, List.dropWhile_cons_of_pos hc]
    rfl
  · rw [trimEnd, List.reverse_append, List.reverse_singleton, List.singleton_append,
      List.dropWhile_cons_of_pos hc]
    rfl

/-- What is trimmed away is blank. -/
theorem exists_blanks_of_trim (cs : List Char) : ∃ before after, cs = before ++ trim cs ++ after ∧
    (∀ c ∈ before, isBlank c = true) ∧ ∀ c ∈ after, isBlank c = true := by
  refine ⟨cs.takeWhile isBlank, ((trimStart cs).reverse.takeWhile isBlank).reverse, ?_,
    fun c hc => List.mem_takeWhile_imp hc,
    fun c hc => List.mem_takeWhile_imp (List.mem_reverse.mp hc)⟩
  rw [List.append_assoc, trim, trimEnd, ← List.reverse_append, List.takeWhile_append_dropWhile,
    List.reverse_reverse, trimStart, List.takeWhile_append_dropWhile]

/-- What is trimmed from a text that does not begin with a blank stands at its end. -/
theorem exists_blanks_of_head (h : ∀ c ∈ cs.head?, isBlank c = false) :
    ∃ after, cs = trim cs ++ after ∧ ∀ c ∈ after, isBlank c = true := by
  refine ⟨(cs.reverse.takeWhile isBlank).reverse, ?_, fun c hc =>
    List.mem_takeWhile_imp (List.mem_reverse.mp hc)⟩
  rw [trim, trimStart, dropWhile_isBlank_of_head h, trimEnd, ← List.reverse_append,
    List.takeWhile_append_dropWhile, List.reverse_reverse]

theorem trim_ne_nil (h : ∀ c ∈ cs.head?, isBlank c = false) (hne : cs ≠ []) : trim cs ≠ [] := by
  intro hnil
  obtain ⟨after, hafter, hblank⟩ := exists_blanks_of_head h
  rw [hnil, List.nil_append] at hafter
  obtain ⟨c, cs, rfl⟩ := List.exists_cons_of_ne_nil hne
  cases (h c rfl).symm.trans (hblank c (hafter ▸ List.mem_cons_self))

/-- Nothing is left of a text that is blank, and of no other one. -/
theorem isEmpty_trim (cs : List Char) : (trim cs).isEmpty = cs.all isBlank := by
  rw [Bool.eq_iff_iff, List.isEmpty_iff, List.all_eq_true]
  constructor
  · intro hnil c hc
    obtain ⟨before, after, heq, hbefore, hafter⟩ := exists_blanks_of_trim cs
    rw [heq, hnil, List.append_nil] at hc
    exact (List.mem_append.mp hc).elim (hbefore c) (hafter c)
  · intro hblank
    rw [trim, trimStart, List.dropWhile_eq_nil_iff.mpr hblank]
    rfl

theorem trim_append (ha : ∀ c ∈ a.head?, isBlank c = false) (hne : a ≠ [])
    (hb : ∀ c ∈ b.head?, isBlank c = false) (hne' : b ≠ []) : trim (a ++ b) = a ++ trim b := by
  have hend : b.reverse.dropWhile isBlank ≠ [] := by
    have htrim := trim_ne_nil hb hne'
    rw [trim, trimStart, dropWhile_isBlank_of_head hb, trimEnd] at htrim
    exact fun hnil => htrim (by rw [hnil]; rfl)
  have hhead : ∀ c ∈ (a ++ b).head?, isBlank c = false := by
    rwa [List.head?_append_of_ne_nil _ hne]
  rw [trim, trimStart, dropWhile_isBlank_of_head hhead, trim, trimStart,
    dropWhile_isBlank_of_head hb, trimEnd, trimEnd, List.reverse_append, List.dropWhile_append,
    if_neg (by simpa using hend), List.reverse_append, List.reverse_reverse]

theorem trim_trim (cs : List Char) : trim (trim cs) = trim cs := by
  obtain ⟨after, hafter, -⟩ := exists_blanks_of_head (head_dropWhile cs)
  have htrim : trim (cs.dropWhile isBlank) = trim cs := by
    rw [trim, trimStart, dropWhile_isBlank_of_head (head_dropWhile cs)]
    rfl
  rw [htrim] at hafter
  apply trim_eq_self
  · intro c hc
    refine head_dropWhile cs c ?_
    rw [hafter, List.head?_append_of_ne_nil _ fun hnil => by rw [hnil] at hc; cases hc]
    exact hc
  · intro c hc
    rw [trim, trimEnd, List.getLast?_reverse] at hc
    exact head_dropWhile _ c hc

/-! ### Cuts -/

theorem cut?_eq_none {sep : Char} (h : sep ∉ cs) : cut? sep cs = none := by
  induction cs with
  | nil => rfl
  | cons c cs ih =>
    have hc : c ≠ sep := by
      rintro rfl
      exact h List.mem_cons_self
    rw [cut?, if_neg hc, ih fun hmem => h (List.mem_cons_of_mem c hmem)]
    rfl

theorem cut?_append {sep : Char} (h : sep ∉ cs) :
    cut? sep (cs ++ sep :: rest) = some (cs, rest) := by
  induction cs with
  | nil => rw [List.nil_append, cut?, if_pos rfl]
  | cons c cs ih =>
    have hc : c ≠ sep := by
      rintro rfl
      exact h List.mem_cons_self
    rw [List.cons_append, cut?, if_neg hc, ih fun hmem => h (List.mem_cons_of_mem c hmem)]
    rfl

theorem eq_of_cut? {sep : Char} (h : cut? sep cs = some (a, b)) : cs = a ++ sep :: b := by
  induction cs generalizing a with
  | nil => cases h
  | cons c cs ih =>
    rw [cut?] at h
    split at h
    · rename_i hc
      cases h
      rw [hc]
      rfl
    · obtain ⟨⟨a', b'⟩, hcut, h⟩ := Option.map_eq_some_iff.mp h
      cases h
      rw [ih hcut]
      rfl

theorem not_mem_of_cut? {sep : Char} (h : cut? sep cs = some (a, b)) : sep ∉ a := by
  induction cs generalizing a with
  | nil => cases h
  | cons c cs ih =>
    rw [cut?] at h
    split at h
    · cases h
      exact List.not_mem_nil
    · rename_i hc
      obtain ⟨⟨a', b'⟩, hcut, h⟩ := Option.map_eq_some_iff.mp h
      cases h
      exact List.not_mem_cons_of_ne_of_not_mem (fun h => hc h.symm) (ih hcut)

theorem cut?_eq_none_iff {sep : Char} : cut? sep cs = none ↔ sep ∉ cs := by
  refine ⟨fun hnone hmem => ?_, cut?_eq_none⟩
  obtain ⟨before, after, rfl, hbefore⟩ := List.eq_append_cons_of_mem hmem
  rw [cut?_append hbefore] at hnone
  cases hnone

theorem splitAt_eq_splitOn (sep : Char) (cs : List Char) : splitAt sep cs = cs.splitOn sep := by
  induction cs with
  | nil => rfl
  | cons c cs ih =>
    rw [splitAt, List.splitOn_cons_eq_if_modifyHead, ih]
    by_cases hc : c = sep
    · rw [if_pos hc, if_pos (beq_iff_eq.mpr hc)]
    · rw [if_neg hc, if_neg fun h => hc (beq_iff_eq.mp h)]
      cases hparts : cs.splitOn sep with
      | nil => exact absurd hparts (List.splitOn_ne_nil sep cs)
      | cons part parts => rfl

theorem splitAt_append_cons (sep : Char) (a b : List Char) :
    splitAt sep (a ++ sep :: b) = splitAt sep a ++ splitAt sep b := by
  rw [splitAt_eq_splitOn, splitAt_eq_splitOn, splitAt_eq_splitOn, List.splitOn_append_cons_self]

theorem splitAt_of_not_mem {sep : Char} (h : sep ∉ cs) : splitAt sep cs = [cs] := by
  rw [splitAt_eq_splitOn, List.splitOn_eq_singleton h]

/-! ### Words -/

theorem words_nil : Text.words [] = [] := by
  rw [Text.words.eq_def]

theorem words_blank {c : Char} (hc : isBlank c = true) : Text.words (c :: cs) = Text.words cs := by
  rw [Text.words.eq_def]
  exact if_pos hc

theorem words_cons {c : Char} (hc : isBlank c = false) : Text.words (c :: cs) =
    (c :: cs.takeWhile (!isBlank ·)) :: Text.words (cs.dropWhile (!isBlank ·)) := by
  rw [Text.words.eq_def]
  exact if_neg (by simp [hc])

theorem words_append (hne : word ≠ []) (hword : ∀ c ∈ word, isBlank c = false)
    (hrest : ∀ c ∈ rest.head?, isBlank c = true) :
    Text.words (word ++ rest) = word :: Text.words rest := by
  obtain ⟨c, cs, rfl⟩ := List.exists_cons_of_ne_nil hne
  have hc := hword c List.mem_cons_self
  have hcs : ∀ x ∈ cs, (!isBlank x) = true := fun x hx => by
    rw [hword x (List.mem_cons_of_mem c hx)]
    rfl
  have hafter : ∀ x ∈ rest.head?, (!isBlank x) = false := fun x hx => by
    rw [hrest x hx]
    rfl
  rw [List.cons_append, words_cons hc, takeWhile_append_of_head hcs hafter,
    dropWhile_append_of_head hcs hafter]

/-- Words with a blank between any two of them are found again. -/
theorem words_intercalate (hwords : ∀ word ∈ words, word ≠ [] ∧ ∀ c ∈ word, isBlank c = false) :
    Text.words ([' '].intercalate words) = words := by
  induction words with
  | nil => exact words_nil
  | cons word words ih =>
    obtain ⟨hne, hword⟩ := hwords word List.mem_cons_self
    have hothers := ih fun x hx => hwords x (List.mem_cons_of_mem word hx)
    cases words with
    | nil =>
      have hone : Text.words (word ++ []) = word :: Text.words [] :=
        words_append hne hword (by simp)
      rw [List.append_nil, words_nil] at hone
      rw [List.intercalate_singleton, hone]
    | cons next words =>
      have hspace : isBlank ' ' = true := by decide
      have hfirst : ∀ c ∈ (' ' :: [' '].intercalate (next :: words)).head?, isBlank c = true := by
        rintro c hc
        rwa [← Option.some.inj hc]
      rw [List.intercalate_cons_cons, List.append_assoc, List.singleton_append,
        words_append hne hword hfirst, words_blank hspace, hothers]

theorem forall_mem_intercalate {α : Type} {P : α → Prop} {sep : α} {rows : List (List α)}
    (hsep : P sep) (h : ∀ row ∈ rows, ∀ x ∈ row, P x) : ∀ x ∈ [sep].intercalate rows, P x := by
  induction rows with
  | nil => exact nofun
  | cons row rows ih =>
    obtain ⟨hrow, hothers⟩ := List.forall_mem_cons.mp h
    cases rows with
    | nil => rwa [List.intercalate_singleton]
    | cons next rows =>
      intro x hx
      rw [List.intercalate_cons_cons, List.append_assoc] at hx
      rcases List.mem_append.mp hx with hx | hx
      · exact hrow x hx
      · rcases List.mem_cons.mp hx with rfl | hx
        · exact hsep
        · exact ih hothers x hx

theorem head?_intercalate (hne : word ≠ []) (words : List (List Char)) :
    ([' '].intercalate (word :: words)).head? = word.head? := by
  cases words with
  | nil => rw [List.intercalate_singleton]
  | cons next words =>
    rw [List.intercalate_cons_cons, List.append_assoc, List.head?_append_of_ne_nil _ hne]

theorem intercalate_ne_nil (hne : word ≠ []) (words : List (List Char)) :
    [' '].intercalate (word :: words) ≠ [] := by
  intro hnil
  have hhead := head?_intercalate hne words
  rw [hnil] at hhead
  exact hne (List.head?_eq_none_iff.mp hhead.symm)

end SoundLaw.Text
