import Mathlib.Data.List.Forall2
import SoundLaw.Proofs.Printing.Lexemes

/-!
# Texts and their lexemes

Lexing loses nothing but blanks. A text is taken apart into bundles and single characters, and it
has lexemes whenever that is possible; rendered, they are the words between the blanks of the
text with one space between any two. The segmenter does not matter for this, as it only divides
runs of ordinary characters and every division of such a run makes up the same text. Nor does it
matter when the rendered text is read, since every run stands in it as it stood in the text.
-/

namespace SoundLaw
set_option autoImplicit false
open Text

namespace Lexeme

/-! ### Pieces of a text -/

/-- A bundle, given by what stands between its brackets, or a character outside of bundles. -/
inductive Piece where
  | bundle (inner : List Char)
  | char (c : Char)

namespace Piece

def text : Piece → List Char
  | bundle inner => '[' :: inner ++ [']']
  | char c => [c]

def isBlank : Piece → Bool
  | bundle _ => false
  | char c => Text.isBlank c

end Piece

/-- Reading from left to right, every opening bracket takes what follows it up to the next closing
one, and no closing bracket is left over. -/
inductive TakenApart : List Char → List Piece → Prop
  | nil : TakenApart [] []
  | bundle {inner rest : List Char} {pieces : List Piece} : ']' ∉ inner →
    TakenApart rest pieces → TakenApart ('[' :: (inner ++ ']' :: rest)) (.bundle inner :: pieces)
  | char {c : Char} {rest : List Char} {pieces : List Piece} : c ≠ '[' → c ≠ ']' →
    TakenApart rest pieces → TakenApart (c :: rest) (.char c :: pieces)

/-- The words between the blanks outside of bundles, with one space between any two. -/
def tidy (pieces : List Piece) : String :=
  " ".intercalate (((pieces.splitOnP Piece.isBlank).filter (· ≠ [])).map fun word =>
    String.ofList (word.flatMap Piece.text))

variable {macros : MacroTable} {whole text : String} {c : Char} {cs : List Char}
variable {l : Lexeme} {ls lexemes : List Lexeme} {pieces : List Piece}

namespace TakenApart
variable {chars rest : List Char}

theorem of_cons_char (hc : c ≠ '[') (h : TakenApart (c :: cs) pieces) :
    c ≠ ']' ∧ ∃ others, pieces = .char c :: others ∧ TakenApart cs others := by
  cases h with
  | bundle => exact absurd rfl hc
  | char _ hclose hrest => exact ⟨hclose, _, rfl, hrest⟩

theorem of_cons_bundle (h : TakenApart ('[' :: cs) pieces) :
    ∃ inner rest others, ']' ∉ inner ∧ cs = inner ++ ']' :: rest ∧
      pieces = .bundle inner :: others ∧ TakenApart rest others := by
  cases h with
  | bundle hinner hrest => exact ⟨_, _, _, hinner, rfl, rfl, hrest⟩
  | char hopen => exact absurd rfl hopen

theorem append_chars (hchars : ∀ c ∈ chars, isOrdinary c = true) (h : TakenApart rest pieces) :
    TakenApart (chars ++ rest) (chars.map .char ++ pieces) := by
  induction chars with
  | nil => exact h
  | cons c chars ih =>
    obtain ⟨hc, hchars⟩ := List.forall_mem_cons.mp hchars
    obtain ⟨hopen, hclose, -⟩ := isOrdinary_iff.mp hc
    exact .char hopen hclose (ih hchars)

theorem of_append_chars (hchars : ∀ c ∈ chars, isOrdinary c = true)
    (h : TakenApart (chars ++ rest) pieces) :
    ∃ others, pieces = chars.map .char ++ others ∧ TakenApart rest others := by
  induction chars generalizing pieces with
  | nil => exact ⟨pieces, rfl, h⟩
  | cons c chars ih =>
    obtain ⟨hc, hchars⟩ := List.forall_mem_cons.mp hchars
    obtain ⟨-, others, rfl, hrest⟩ := of_cons_char (isOrdinary_iff.mp hc).1 h
    obtain ⟨others, rfl, hothers⟩ := ih hchars hrest
    exact ⟨others, rfl, hothers⟩

end TakenApart

theorem exists_takenApart_of_scan (h : scan macros whole cs = .ok lexemes) :
    ∃ pieces, TakenApart cs pieces := by
  fun_induction scan macros whole cs generalizing lexemes with
  | case1 => exact ⟨[], .nil⟩
  | case2 => cases h
  | case3 => cases h
  | case4 cs inner rest hcut =>
    rename_i ih
    obtain ⟨ls, hls, -⟩ := bind_eq_ok.mp h
    obtain ⟨pieces, hpieces⟩ := ih hls
    rw [eq_of_cut? hcut]
    exact ⟨.bundle inner :: pieces, .bundle (not_mem_of_cut? hcut) hpieces⟩
  | case5 c cs hclose hopen l hl ih =>
    obtain ⟨ls, hls, -⟩ := bind_eq_ok.mp h
    obtain ⟨pieces, hpieces⟩ := ih hls
    exact ⟨.char c :: pieces, .char hopen hclose hpieces⟩
  | case6 c cs hclose hopen hnone =>
    rename_i ih
    obtain ⟨ls, hls, -⟩ := bind_eq_ok.mp h
    obtain ⟨pieces, hpieces⟩ := ih hls
    have hrun := hpieces.append_chars fun c (hc : c ∈ cs.takeWhile isOrdinary) =>
      List.mem_takeWhile_imp hc
    rw [List.takeWhile_append_dropWhile] at hrun
    exact ⟨_, .char hopen hclose hrun⟩

/-! ### Rows between spaces -/

theorem splitOnP_append_of_forall {α : Type} {p : α → Bool} {xs : List α}
    (hxs : ∀ x ∈ xs, p x = false) (ys : List α) :
    (xs ++ ys).splitOnP p = (ys.splitOnP p).modifyHead (xs ++ ·) := by
  induction xs with
  | nil =>
    rw [List.nil_append]
    cases ys.splitOnP p <;> rfl
  | cons x xs ih =>
    obtain ⟨hx, hxs⟩ := List.forall_mem_cons.mp hxs
    rw [List.cons_append, List.splitOnP_cons_eq_if_modifyHead, if_neg (by simp [hx]), ih hxs,
      List.modifyHead_modifyHead]
    rfl

/-- The lexemes of a word, of which there are none only if the word is empty. -/
def IsRowOf (row : List Lexeme) (word : List Piece) : Prop :=
  render row = String.ofList (word.flatMap Piece.text) ∧ (row = [] ↔ word = [])

theorem IsRowOf.nil : IsRowOf [] [] := ⟨rfl, iff_of_true rfl rfl⟩

/-- What stands between spaces are the words between blanks. -/
def Matches (lexemes : List Lexeme) (pieces : List Piece) : Prop :=
  List.Forall₂ IsRowOf (lexemes.splitOnP (· == space)) (pieces.splitOnP Piece.isBlank)

namespace Matches
variable {row : List Lexeme} {word : List Piece}

theorem nil : Matches [] [] := by
  rw [Matches, List.splitOnP_nil, List.splitOnP_nil]
  exact .cons .nil .nil

theorem blank (hc : isBlank c = true) (h : Matches ls pieces) :
    Matches (space :: ls) (.char c :: pieces) := by
  rw [Matches, List.splitOnP_cons_eq_if_modifyHead, List.splitOnP_cons_eq_if_modifyHead,
    if_pos (beq_self_eq_true _), if_pos (show (Piece.char c).isBlank = true from hc)]
  exact .cons .nil h

theorem append (hrow : ∀ l ∈ row, l ≠ space) (hword : ∀ piece ∈ word, piece.isBlank = false)
    (hrender : render row = String.ofList (word.flatMap Piece.text))
    (hnil : row = [] ↔ word = []) (h : Matches ls pieces) :
    Matches (row ++ ls) (word ++ pieces) := by
  rw [Matches, splitOnP_append_of_forall (fun l hl => by simpa using hrow l hl),
    splitOnP_append_of_forall hword]
  unfold Matches at h
  revert h
  generalize ls.splitOnP (· == space) = rows, pieces.splitOnP Piece.isBlank = words
  rintro (- | ⟨⟨htext, hempty⟩, htail⟩)
  · exact .nil
  · refine .cons ⟨?_, ?_⟩ htail
    · rw [render_append, hrender, htext, List.flatMap_append, String.ofList_append]
    · rw [List.append_eq_nil_iff, List.append_eq_nil_iff, hnil, hempty]

theorem map_filter (h : Matches ls pieces) :
    ((ls.splitOnP (· == space)).filter (· ≠ [])).map render =
      ((pieces.splitOnP Piece.isBlank).filter (· ≠ [])).map fun word =>
        String.ofList (word.flatMap Piece.text) := by
  have hfilter : List.Forall₂ IsRowOf ((ls.splitOnP (· == space)).filter (· ≠ []))
      ((pieces.splitOnP Piece.isBlank).filter (· ≠ [])) := by
    refine List.rel_filter (fun row word hrow => ?_) h
    simp only [decide_eq_true_eq, ne_eq, hrow.2]
  rw [← List.forall₂_eq_eq_eq, List.forall₂_map_left_iff, List.forall₂_map_right_iff]
  exact hfilter.imp fun row word hrow => hrow.1

end Matches

/-- A lexeme other than a space is printed as the character that it was found at. -/
theorem text_of_ofChar? (h : ofChar? c = some l) (hl : l ≠ space) : l.text.toList = [c] := by
  unfold ofChar? at h
  split at h
  case h_11 =>
    split at h
    · exact absurd (Option.some.inj h).symm hl
    · cases h
  all_goals
    cases h
    rfl

theorem render_map_ofSymbol (symbols : List String) :
    render (symbols.map (ofSymbol macros)) = String.join symbols := by
  rw [render, List.map_map]
  exact congrArg String.join ((List.map_congr_left fun s _ => text_ofSymbol).trans (List.map_id _))

theorem flatMap_text_chars (cs : List Char) : (cs.map Piece.char).flatMap Piece.text = cs := by
  rw [List.flatMap_map]
  exact List.flatMap_singleton' cs

theorem Matches.char (hc : ofChar? c = some l) (h : Matches ls pieces) :
    Matches (l :: ls) (.char c :: pieces) := by
  by_cases hl : l = space
  · rw [hl] at hc ⊢
    exact h.blank (isBlank_of_ofChar?_eq_space hc)
  · have hblank : isBlank c = false := by
      refine Bool.eq_false_iff.mpr fun hblank => hl ?_
      exact Option.some.inj (hc.symm.trans (ofChar?_of_isBlank hblank))
    show Matches ([l] ++ ls) ([.char c] ++ pieces)
    refine h.append (List.forall_mem_singleton.mpr hl) (List.forall_mem_singleton.mpr hblank) ?_
      (by simp)
    rw [← String.toList_inj, String.toList_ofList]
    simpa [render, Piece.text] using text_of_ofChar? hc hl

theorem Matches.bundle {inner : List Char} (h : Matches ls pieces) :
    Matches (atom (.bundle (String.ofList ('[' :: inner ++ [']']))) :: ls)
      (.bundle inner :: pieces) := by
  show Matches ([atom (.bundle _)] ++ ls) ([.bundle inner] ++ pieces)
  refine h.append (List.forall_mem_singleton.mpr nofun) (List.forall_mem_singleton.mpr rfl) ?_
    (by simp)
  simp [render, Lexeme.text, Atom.text, Piece.text]

theorem join_split {run : List Char} (hrun : ∀ c ∈ run, isOrdinary c = true) :
    String.join (macros.segmenter.split (String.ofList run)) = String.ofList run := by
  rw [← String.toList_inj, String.toList_join, List.flatMap_def,
    Segmenter.flatten_split (isBlank_run hrun)]

theorem Matches.symbols {run : List Char} (hrun : ∀ c ∈ run, isOrdinary c = true)
    (hne : run ≠ []) (h : Matches ls pieces) :
    Matches ((macros.segmenter.split (String.ofList run)).map (ofSymbol macros) ++ ls)
      (run.map .char ++ pieces) := by
  refine h.append (List.forall_mem_map.mpr fun s _ => ofSymbol_ne_space s)
    (List.forall_mem_map.mpr fun c hc => isBlank_of_isOrdinary (hrun c hc)) ?_ ?_
  · rw [render_map_ofSymbol, join_split hrun, flatMap_text_chars]
  · rw [List.map_eq_nil_iff, List.map_eq_nil_iff]
    exact iff_of_false (Segmenter.split_ne_nil (isBlank_run hrun) (by simpa using hne)) hne

theorem exists_scan_of_takenApart (macros : MacroTable) (whole : String)
    (h : TakenApart cs pieces) :
    ∃ lexemes, scan macros whole cs = .ok lexemes ∧ Matches lexemes pieces := by
  fun_induction scan macros whole cs generalizing pieces with
  | case1 =>
    cases h
    exact ⟨[], rfl, .nil⟩
  | case2 =>
    obtain ⟨hclose, -⟩ := h.of_cons_char (by decide)
    exact absurd rfl hclose
  | case3 =>
    rename_i hcut _
    obtain ⟨inner, rest, -, hinner, rfl, -⟩ := h.of_cons_bundle
    cases hcut.symm.trans (cut?_append hinner)
  | case4 cs inner rest hcut =>
    rename_i ih
    obtain ⟨inner', rest', others, hinner, rfl, rfl, hrest⟩ := h.of_cons_bundle
    cases hcut.symm.trans (cut?_append hinner)
    obtain ⟨ls, hls, hmatches⟩ := ih hrest
    exact ⟨_, by rw [hls]; rfl, hmatches.bundle⟩
  | case5 c cs hclose hopen l hl ih =>
    obtain ⟨-, others, rfl, hrest⟩ := h.of_cons_char hopen
    obtain ⟨ls, hls, hmatches⟩ := ih hrest
    exact ⟨_, by rw [hls]; rfl, hmatches.char hl⟩
  | case6 c cs hclose hopen hnone =>
    rename_i ih
    have hrun := isOrdinary_run (isOrdinary_iff.mpr ⟨hopen, hclose, hnone⟩) cs
    -- one turn of the scan reads a whole run, whose characters are pieces of their own
    have hcs : c :: cs = (c :: cs.takeWhile isOrdinary) ++ cs.dropWhile isOrdinary := by
      rw [List.cons_append, List.takeWhile_append_dropWhile]
    rw [hcs] at h
    obtain ⟨others, rfl, hrest⟩ := h.of_append_chars hrun
    obtain ⟨ls, hls, hmatches⟩ := ih hrest
    exact ⟨_, by rw [hls]; rfl, hmatches.symbols hrun (List.cons_ne_nil _ _)⟩

/-! ### One space for every run of blanks -/

theorem intercalate_cons_left {α : Type} {sep : List α} (x : α) (xs : List α)
    (rows : List (List α)) :
    sep.intercalate ((x :: xs) :: rows) = x :: sep.intercalate (xs :: rows) := by
  cases rows with
  | nil => rw [List.intercalate_singleton, List.intercalate_singleton]
  | cons row rows => rw [List.intercalate_cons_cons, List.intercalate_cons_cons]; rfl

theorem splitOnP_space_cons (ls : List Lexeme) :
    (space :: ls).splitOnP (· == space) = [] :: ls.splitOnP (· == space) := by
  rw [List.splitOnP_cons_eq_if_modifyHead, if_pos (beq_self_eq_true _)]

theorem splitOnP_cons_of_ne (hl : l ≠ space) {row : List Lexeme} {rows : List (List Lexeme)}
    (h : ls.splitOnP (· == space) = row :: rows) :
    (l :: ls).splitOnP (· == space) = (l :: row) :: rows := by
  rw [List.splitOnP_cons_eq_if_modifyHead, if_neg (by simpa using hl), h, List.modifyHead_cons]

theorem exists_cons_of_ne (hnil : ls ≠ []) (hspace : ∀ others, ls ≠ space :: others) :
    ∃ next others, ls = next :: others ∧ next ≠ space := by
  obtain ⟨next, others, rfl⟩ := List.exists_cons_of_ne_nil hnil
  refine ⟨next, others, rfl, ?_⟩
  rintro rfl
  exact hspace others rfl

/-- Rows with spaces between them, where an empty row counts only at the beginning. -/
theorem squeeze_eq_intercalate {row : List Lexeme} {rows : List (List Lexeme)}
    (h : ls.splitOnP (· == space) = row :: rows) :
    squeeze ls = [space].intercalate (row :: rows.filter (· ≠ [])) := by
  fun_induction squeeze ls generalizing row rows with
  | case1 =>
    rw [List.splitOnP_nil] at h
    cases h
    rfl
  | case2 =>
    rw [splitOnP_space_cons, List.splitOnP_nil] at h
    cases h
    rfl
  | case3 rest ih =>
    rw [splitOnP_space_cons, splitOnP_space_cons] at h
    cases h
    rw [ih (splitOnP_space_cons rest), List.filter_cons_of_neg (by simp)]
  | case4 l rest hlast hnext ih =>
    obtain ⟨first, others, hrest⟩ := List.exists_cons_of_ne_nil
      (List.splitOnP_ne_nil (· == space) rest)
    rw [ih hrest]
    by_cases hl : l = space
    · -- a space is left only in front of another lexeme, so the next row is not empty
      subst hl
      rw [splitOnP_space_cons, hrest] at h
      cases h
      obtain ⟨next, others', rfl, hne⟩ := exists_cons_of_ne (hlast rfl) (hnext · rfl)
      obtain ⟨row, rows, hrows⟩ := List.exists_cons_of_ne_nil
        (List.splitOnP_ne_nil (· == space) others')
      cases hrest.symm.trans (splitOnP_cons_of_ne hne hrows)
      rw [List.filter_cons_of_pos (by simp), List.intercalate_cons_cons]
      rfl
    · rw [splitOnP_cons_of_ne hl hrest] at h
      cases h
      rw [intercalate_cons_left]

theorem squeeze_dropWhile (ls : List Lexeme) : squeeze (ls.dropWhile (· == space)) =
    [space].intercalate ((ls.splitOnP (· == space)).filter (· ≠ [])) := by
  induction ls with
  | nil => rfl
  | cons l ls ih =>
    by_cases hl : l = space
    · rw [hl, List.dropWhile_cons_of_pos (by simp), ih, splitOnP_space_cons,
        List.filter_cons_of_neg (by simp)]
    · obtain ⟨row, rows, hrows⟩ := List.exists_cons_of_ne_nil
        (List.splitOnP_ne_nil (· == space) ls)
      have hsplit := splitOnP_cons_of_ne hl hrows
      rw [List.dropWhile_cons_of_neg (by simpa using hl), squeeze_eq_intercalate hsplit, hsplit,
        List.filter_cons_of_pos (by simp)]

/-! ### Reading the rendered text -/

theorem steady_squeeze (ls : List Lexeme) : Steady (squeeze ls) := by
  fun_induction squeeze ls with
  | case1 => exact .nil
  | case2 => exact .nil
  | case3 rest ih => exact ih
  | case4 l rest hlast hnext ih =>
    by_cases hl : l = space
    · subst hl
      obtain ⟨next, others, rfl, hne⟩ := exists_cons_of_ne (hlast rfl) (hnext · rfl)
      rw [squeeze_cons hne] at ih ⊢
      exact ih.space_cons hne
    · exact (Steady.single hl).append ih

theorem head_squeeze_dropWhile (ls : List Lexeme) :
    (squeeze (ls.dropWhile (· == space))).head? ≠ some space := by
  cases h : ls.dropWhile (· == space) with
  | nil => exact nofun
  | cons l rest =>
    have hhead := head_dropWhile (p := (· == space)) ls
    rw [h] at hhead
    have hl : l ≠ space := by simpa using hhead l rfl
    rw [squeeze_cons hl]
    exact fun heq => hl (Option.some.inj heq)

theorem symbolRunsFrom_squeeze_subset (run : List String) (ls : List Lexeme) :
    symbolRunsFrom run (squeeze ls) ⊆ symbolRunsFrom run ls := by
  fun_induction squeeze ls generalizing run with
  | case1 => exact List.Subset.refl _
  | case2 => exact List.cons_subset_cons run (List.nil_subset _)
  | case3 rest ih =>
    exact List.Subset.trans (ih run) (List.cons_subset_cons run (List.subset_cons_self _ _))
  | case4 l rest _ _ ih =>
    rw [symbolRunsFrom, symbolRunsFrom]
    cases l.symbol? with
    | some s => exact ih _
    | none => exact List.cons_subset_cons run (ih [])

theorem symbolRunsFrom_dropWhile_subset (ls : List Lexeme) :
    symbolRunsFrom [] (ls.dropWhile (· == space)) ⊆ symbolRunsFrom [] ls := by
  induction ls with
  | nil => exact List.Subset.refl _
  | cons l ls ih =>
    by_cases hl : l = space
    · rw [hl, List.dropWhile_cons_of_pos (by simp)]
      exact List.subset_cons_of_subset [] ih
    · rw [List.dropWhile_cons_of_neg (by simpa using hl)]
      exact List.Subset.refl _

namespace KeepApart

theorem squeeze_dropWhile (h : KeepApart macros ls) :
    KeepApart macros (squeeze (ls.dropWhile (· == space))) :=
  fun run hrun => h run
    (symbolRunsFrom_dropWhile_subset ls (symbolRunsFrom_squeeze_subset [] _ hrun))

theorem split_join_nil : macros.segmenter.split (String.join []) = [] :=
  List.map_eq_nil_iff.mp cutAnew_nil

theorem cons (hl : l.symbol? = none) (h : KeepApart macros ls) : KeepApart macros (l :: ls) := by
  rw [KeepApart, symbolRunsFrom, hl]
  exact List.forall_mem_cons.mpr ⟨split_join_nil, h⟩

theorem symbolRunsFrom_map_ofSymbol (run symbols : List String) (ls : List Lexeme) :
    symbolRunsFrom run (symbols.map (ofSymbol macros) ++ ls) =
      symbolRunsFrom (run ++ symbols) ls := by
  induction symbols generalizing run with
  | nil => rw [List.append_nil]; rfl
  | cons s symbols ih =>
    rw [List.map_cons, List.cons_append, symbolRunsFrom, symbol?_ofSymbol]
    exact (ih (run ++ [s])).trans (by rw [List.append_assoc]; rfl)

/-- Symbols of one run keep apart from the lexemes behind it, which do not begin with another. -/
theorem symbols {symbols : List String} (hsymbols : macros.segmenter.split (String.join symbols) =
    symbols) (hhead : ∀ l ∈ ls.head?, l.symbol? = none) (h : KeepApart macros ls) :
    KeepApart macros (symbols.map (ofSymbol macros) ++ ls) := by
  rw [KeepApart, symbolRunsFrom_map_ofSymbol, List.nil_append]
  cases ls with
  | nil => exact List.forall_mem_singleton.mpr hsymbols
  | cons l ls =>
    rw [KeepApart, symbolRunsFrom, hhead l rfl] at h
    rw [symbolRunsFrom, hhead l rfl]
    exact List.forall_mem_cons.mpr ⟨hsymbols, (List.forall_mem_cons.mp h).2⟩

end KeepApart

/-- Where no run begins, no symbol is found first. -/
theorem head_of_scan (h : scan macros whole cs = .ok lexemes)
    (hcs : ∀ c ∈ cs.head?, isOrdinary c = false) : ∀ l ∈ lexemes.head?, l.symbol? = none := by
  fun_induction scan macros whole cs with
  | case1 =>
    cases h
    intro l hl
    cases hl
  | case2 => cases h
  | case3 => cases h
  | case4 =>
    obtain ⟨ls, -, h⟩ := bind_eq_ok.mp h
    cases h
    exact fun l hl => Option.some.inj hl ▸ rfl
  | case5 c cs _ _ l hl =>
    obtain ⟨ls, -, h⟩ := bind_eq_ok.mp h
    cases h
    exact fun l' hl' => Option.some.inj hl' ▸ (exists_ofChar? hl).1
  | case6 c cs hclose hopen hnone =>
    cases (hcs c rfl).symm.trans (isOrdinary_iff.mpr ⟨hopen, hclose, hnone⟩)

/-- What is found in a text keeps apart, as every run there is one of the text. -/
theorem keepApart_of_scan (h : scan macros whole cs = .ok lexemes) : KeepApart macros lexemes := by
  fun_induction scan macros whole cs generalizing lexemes with
  | case1 =>
    cases h
    exact List.forall_mem_singleton.mpr KeepApart.split_join_nil
  | case2 => cases h
  | case3 => cases h
  | case4 =>
    rename_i ih
    obtain ⟨ls, hls, h⟩ := bind_eq_ok.mp h
    cases h
    exact (ih hls).cons rfl
  | case5 c cs _ _ l hl ih =>
    obtain ⟨ls, hls, h⟩ := bind_eq_ok.mp h
    cases h
    exact (ih hls).cons (exists_ofChar? hl).1
  | case6 c cs hclose hopen hnone =>
    rename_i ih
    obtain ⟨ls, hls, h⟩ := bind_eq_ok.mp h
    cases h
    have hrun := isOrdinary_run (isOrdinary_iff.mpr ⟨hopen, hclose, hnone⟩) cs
    refine KeepApart.symbols ?_ (head_of_scan hls (head_dropWhile cs)) (ih hls)
    rw [join_split hrun]

theorem ofText_render_of_ofText (h : ofText macros text = .ok lexemes) :
    ofText macros (render lexemes) = .ok lexemes := by
  have hfound := isFound_of_ofText h
  obtain ⟨ls, hls, h⟩ := bind_eq_ok.mp h
  obtain rfl := Except.ok.inj h
  exact ofText_render_eq hfound (keepApart_of_scan hls).squeeze_dropWhile (steady_squeeze _)
    (head_squeeze_dropWhile ls)

theorem render_of_takenApart (h : ofText macros text = .ok lexemes)
    (hpieces : TakenApart text.toList pieces) : render lexemes = tidy pieces := by
  obtain ⟨ls, hls, hmatches⟩ := exists_scan_of_takenApart macros text hpieces
  rw [ofText, hls] at h
  rw [← Except.ok.inj h, squeeze_dropWhile, render_intercalate, hmatches.map_filter]
  rfl

/-- A text has lexemes exactly if every bracket in it belongs to a bundle. Rendered, they are the
text with single spaces between its words, and they are found again in what is rendered. -/
theorem ofText_tidy (macros : MacroTable) (text : String) :
    ((∃ lexemes, ofText macros text = .ok lexemes) ↔
        ∃ pieces, TakenApart text.toList pieces) ∧
      ∀ lexemes, ofText macros text = .ok lexemes →
        (∀ pieces, TakenApart text.toList pieces → render lexemes = tidy pieces) ∧
          ofText macros (render lexemes) = .ok lexemes := by
  refine ⟨⟨?_, ?_⟩, fun lexemes h =>
    ⟨fun pieces hpieces => render_of_takenApart h hpieces, ofText_render_of_ofText h⟩⟩
  · rintro ⟨lexemes, h⟩
    obtain ⟨ls, hls, -⟩ := bind_eq_ok.mp h
    exact exists_takenApart_of_scan hls
  · rintro ⟨pieces, hpieces⟩
    obtain ⟨ls, hls, -⟩ := exists_scan_of_takenApart macros text hpieces
    exact ⟨_, by rw [ofText, hls]; rfl⟩

end Lexeme

end SoundLaw
