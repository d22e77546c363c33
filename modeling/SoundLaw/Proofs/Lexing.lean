import Mathlib.Data.List.TakeWhile
import SoundLaw.Proofs.Parsing
import SoundLaw.Proofs.Segmentation

/-!
# Runs of ordinary characters

A run of ordinary characters becomes the symbols that the segmenter finds in it, whatever stands
around it; every other character is a lexeme by itself or belongs to a bundle. A text that is
one symbol, and the same as this symbol, is made of ordinary characters.
-/

namespace SoundLaw
set_option autoImplicit false
open Text

namespace Lexeme
variable {macros : MacroTable} {whole : String} {c : Char} {cs run rest : List Char}
variable {l : Lexeme} {lexemes : List Lexeme}

/-! ### Characters -/

theorem isOrdinary_iff : isOrdinary c = true ↔ c ≠ '[' ∧ c ≠ ']' ∧ ofChar? c = none := by
  simp [isOrdinary, and_assoc]

theorem isBlank_of_isOrdinary (h : isOrdinary c = true) : isBlank c = false := by
  have hnone := (isOrdinary_iff.mp h).2.2
  unfold ofChar? at hnone
  split at hnone
  case h_11 =>
    split at hnone
    · cases hnone
    · rename_i hblank
      exact Bool.eq_false_iff.mpr hblank
  all_goals cases hnone

/-- A run of ordinary characters goes on as long as they do. -/
theorem isOrdinary_run (hc : isOrdinary c = true) (cs : List Char) :
    ∀ x ∈ c :: cs.takeWhile isOrdinary, isOrdinary x = true :=
  List.forall_mem_cons.mpr ⟨hc, fun _ hx => List.mem_takeWhile_imp hx⟩

theorem isBlank_run (hrun : ∀ c ∈ run, isOrdinary c = true) :
    ∀ c ∈ (String.ofList run).toList, isBlank c = false := by
  rw [String.toList_ofList]
  exact fun c hc => isBlank_of_isOrdinary (hrun c hc)

theorem ne_of_isOrdinary {d : Char} (h : isOrdinary c = true) (hd : isOrdinary d = false) :
    c ≠ d := by
  rintro rfl
  rw [h] at hd
  cases hd

theorem ofChar?_ne_symbol {s : String} : ofChar? c ≠ some (atom (.symbol s)) := by
  unfold ofChar?
  split
  case h_11 => split <;> exact nofun
  all_goals exact nofun

theorem ofChar?_of_isBlank (h : isBlank c = true) : ofChar? c = some space := by
  unfold ofChar?
  split
  case h_11 => rw [if_pos h]
  all_goals exact absurd h (by decide)

theorem isBlank_of_ofChar?_eq_space (h : ofChar? c = some space) : isBlank c = true := by
  unfold ofChar? at h
  split at h
  case h_11 =>
    split at h
    · assumption
    · cases h
  all_goals cases h

theorem ofSymbol_ne_space (s : String) : ofSymbol macros s ≠ space := nofun

theorem eq_of_ofSymbol_eq_symbol {s t : String} (h : ofSymbol macros t = atom (.symbol s)) :
    t = s := by
  unfold ofSymbol at h
  split at h
  · cases h
  · cases h
    rfl

/-! ### Scanning -/

theorem scan_of_ofChar? (hc : ofChar? c = some l) (h : scan macros whole cs = .ok lexemes) :
    scan macros whole (c :: cs) = .ok (l :: lexemes) := by
  have hclose : c ≠ ']' := by
    rintro rfl
    cases hc
  have hopen : c ≠ '[' := by
    rintro rfl
    cases hc
  rw [scan, if_neg hclose, if_neg hopen]
  split
  · rename_i hl
    cases hc.symm.trans hl
    rw [h]
    rfl
  · rename_i hnone
    cases hc.symm.trans hnone

/-- A run of ordinary characters is split into symbols, whatever follows it. -/
theorem scan_run (hrun : ∀ c ∈ run, isOrdinary c = true) (hne : run ≠ [])
    (hrest : ∀ c ∈ rest.head?, isOrdinary c = false) (h : scan macros whole rest = .ok lexemes) :
    scan macros whole (run ++ rest) =
      .ok ((macros.segmenter.split (String.ofList run)).map (ofSymbol macros) ++ lexemes) := by
  obtain ⟨c, cs, rfl⟩ := List.exists_cons_of_ne_nil hne
  obtain ⟨hopen, hclose, hnone⟩ := isOrdinary_iff.mp (hrun c List.mem_cons_self)
  have hcs : ∀ x ∈ cs, isOrdinary x = true := fun x hx => hrun x (List.mem_cons_of_mem _ hx)
  rw [List.cons_append, scan, if_neg hclose, if_neg hopen]
  split
  · rename_i hl
    cases hnone.symm.trans hl
  · simp only [takeWhile_append_of_head hcs hrest, dropWhile_append_of_head hcs hrest, h]
    rfl

theorem scan_blanks {blanks : List Char} (hblanks : ∀ c ∈ blanks, isBlank c = true)
    (h : scan macros whole rest = .ok lexemes) :
    scan macros whole (blanks ++ rest) = .ok (List.replicate blanks.length space ++ lexemes) := by
  induction blanks with
  | nil => exact h
  | cons c cs ih =>
    exact scan_of_ofChar? (ofChar?_of_isBlank (hblanks c List.mem_cons_self))
      (ih fun x hx => hblanks x (List.mem_cons_of_mem c hx))

/-! ### Blanks -/

theorem squeeze_cons (hl : l ≠ space) (lexemes : List Lexeme) :
    squeeze (l :: lexemes) = l :: squeeze lexemes := by
  cases l with
  | space => exact absurd rfl hl
  | opening | closing | quantifier | negation | atom => rw [squeeze] <;> exact nofun

theorem squeeze_append {ls : List Lexeme} (hls : ∀ l ∈ ls, l ≠ space) (lexemes : List Lexeme) :
    squeeze (ls ++ lexemes) = ls ++ squeeze lexemes := by
  induction ls with
  | nil => rfl
  | cons l ls ih =>
    rw [List.cons_append, squeeze_cons (hls l List.mem_cons_self),
      ih fun x hx => hls x (List.mem_cons_of_mem l hx)]
    rfl

theorem squeeze_space_cons (hl : l ≠ space) (lexemes : List Lexeme) :
    squeeze (space :: l :: lexemes) = space :: l :: squeeze lexemes := by
  rw [squeeze, squeeze_cons hl]
  · exact nofun
  · rintro rest - h
    exact hl (List.cons.inj h).1

theorem squeeze_replicate (n : Nat) (lexemes : List Lexeme) :
    squeeze (List.replicate (n + 1) space ++ lexemes) = squeeze (space :: lexemes) := by
  induction n with
  | zero => rfl
  | succ n ih =>
    rw [List.replicate_succ, List.replicate_succ, List.cons_append, List.cons_append, squeeze,
      ← List.cons_append, ← List.replicate_succ, ih]

/-- Single spaces between lexemes stay as they are. -/
theorem squeeze_intercalate {rows : List (List Lexeme)}
    (hrows : ∀ row ∈ rows, row ≠ [] ∧ ∀ l ∈ row, l ≠ space) (lexemes : List Lexeme) :
    squeeze ([space].intercalate rows ++ lexemes) =
      [space].intercalate rows ++ squeeze lexemes := by
  induction rows with
  | nil => rfl
  | cons row rows ih =>
    obtain ⟨_, hrow⟩ := hrows row List.mem_cons_self
    have hothers := ih fun r hr => hrows r (List.mem_cons_of_mem row hr)
    cases rows with
    | nil => rw [List.intercalate_singleton, squeeze_append hrow]
    | cons next rows =>
      obtain ⟨hne, hnext⟩ := hrows next (by simp)
      obtain ⟨l, ls, rfl⟩ := List.exists_cons_of_ne_nil hne
      obtain ⟨more, hmore⟩ : ∃ more, [space].intercalate ((l :: ls) :: rows) = l :: more := by
        cases rows with
        | nil => exact ⟨ls, List.intercalate_singleton⟩
        | cons third rows => exact ⟨_, by rw [List.intercalate_cons_cons]; rfl⟩
      have hl := hnext l List.mem_cons_self
      rw [hmore, List.cons_append, squeeze_cons hl] at hothers
      rw [List.intercalate_cons_cons, hmore, List.append_assoc, List.append_assoc,
        squeeze_append hrow, List.singleton_append, List.cons_append, squeeze_space_cons hl,
        hothers]
      simp

theorem filter_squeeze (lexemes : List Lexeme) :
    (squeeze lexemes).filter (· ≠ space) = lexemes.filter (· ≠ space) := by
  fun_induction squeeze lexemes with
  | case1 => rfl
  | case2 => rfl
  | case3 rest ih => rw [ih, List.filter_cons_of_neg (by simp) (l := space :: rest)]
  | case4 l rest _ _ ih => rw [List.filter_cons, List.filter_cons, ih]

theorem filter_dropWhile (lexemes : List Lexeme) :
    (lexemes.dropWhile (· == space)).filter (· ≠ space) = lexemes.filter (· ≠ space) := by
  induction lexemes with
  | nil => rfl
  | cons l lexemes ih =>
    by_cases hl : l = space
    · subst hl
      rw [List.dropWhile_cons_of_pos rfl, ih, List.filter_cons_of_neg (by simp)]
    · rw [List.dropWhile_cons_of_neg (by simpa using hl)]

/-- If only one lexeme is left of a run's symbols and what follows them, and that is a symbol,
then it is the run's only one. -/
theorem eq_singleton_of_filter_ofSymbol {symbols : List String} {s : String}
    (hne : symbols ≠ [])
    (hone : (symbols.map (ofSymbol macros) ++ lexemes).filter (· ≠ space) = [atom (.symbol s)]) :
    symbols = [s] := by
  have hmap : (symbols.map (ofSymbol macros)).filter (· ≠ space) =
      symbols.map (ofSymbol macros) := by
    refine List.filter_eq_self.mpr fun x hx => ?_
    obtain ⟨t, _, rfl⟩ := List.mem_map.mp hx
    exact decide_eq_true (ofSymbol_ne_space t)
  obtain ⟨t, others, rfl⟩ := List.exists_cons_of_ne_nil hne
  rw [List.filter_append, hmap, List.map_cons, List.cons_append] at hone
  obtain ⟨ht, hothers⟩ := List.cons.inj hone
  rw [eq_of_ofSymbol_eq_symbol ht, List.map_eq_nil_iff.mp (List.append_eq_nil_iff.mp hothers).1]

/-- If a text has only one lexeme, and that is a symbol, then the symbol is no longer than the
text, and as long only if the text is a run of ordinary characters. -/
theorem length_le_of_scan_symbol {s : String} (h : scan macros whole cs = .ok lexemes)
    (hone : lexemes.filter (· ≠ space) = [atom (.symbol s)]) :
    s.toList.length ≤ cs.length ∧
      (s.toList.length = cs.length → ∀ c ∈ cs, isOrdinary c = true) := by
  fun_induction scan macros whole cs generalizing lexemes with
  | case1 =>
    cases h
    cases hone
  | case2 => cases h
  | case3 => cases h
  | case4 cs inner rest hcut =>
    obtain ⟨ls, _, h⟩ := bind_eq_ok.mp h
    cases h
    rw [List.filter_cons_of_pos (by simp)] at hone
    cases (List.cons.inj hone).1
  | case5 c cs _ _ l hl ih =>
    obtain ⟨ls, hls, h⟩ := bind_eq_ok.mp h
    cases h
    by_cases hspace : l = space
    · rw [hspace, List.filter_cons_of_neg (by simp)] at hone
      obtain ⟨hle, -⟩ := ih hls hone
      rw [List.length_cons]
      exact ⟨Nat.le_succ_of_le hle, fun heq => by omega⟩
    · rw [List.filter_cons_of_pos (by simpa using hspace)] at hone
      rw [(List.cons.inj hone).1] at hl
      exact absurd hl ofChar?_ne_symbol
  | case6 c cs =>
    rename_i hclose hopen hnone _ symbols _
    obtain ⟨ls, _, h⟩ := bind_eq_ok.mp h
    cases h
    have hall := isOrdinary_run (isOrdinary_iff.mpr ⟨hopen, hclose, hnone⟩) cs
    have hflatten : (symbols.map String.toList).flatten = c :: cs.takeWhile isOrdinary := by
      rw [Segmenter.flatten_split (isBlank_run hall), String.toList_ofList]
    have hne : symbols ≠ [] := by
      intro hnil
      rw [hnil] at hflatten
      cases hflatten
    have hsymbols : symbols = [s] := eq_singleton_of_filter_ofSymbol hne hone
    have hs : s.toList = c :: cs.takeWhile isOrdinary := by
      rw [← hflatten, hsymbols]
      simp
    have hrun : cs.takeWhile isOrdinary <+: cs := List.takeWhile_prefix isOrdinary
    rw [hs, List.length_cons, List.length_cons]
    refine ⟨Nat.succ_le_succ hrun.length_le, fun heq => ?_⟩
    rwa [hrun.eq_of_length (Nat.succ.inj heq)] at hall

/-- A text that is one symbol by itself is made of ordinary characters. -/
theorem isOrdinary_of_ofText_symbol {s : String} (h : ofText macros s = .ok [atom (.symbol s)]) :
    ∀ c ∈ s.toList, isOrdinary c = true := by
  obtain ⟨ls, hls, h⟩ := bind_eq_ok.mp h
  have hone : ls.filter (· ≠ space) = [atom (.symbol s)] := by
    rw [← filter_dropWhile, ← filter_squeeze, Except.ok.inj h]
    rfl
  exact (length_le_of_scan_symbol hls hone).2 rfl

end Lexeme

end SoundLaw
