import SoundLaw.Proofs.Lexing
import SoundLaw.Proofs.Texts

/-!
# Reading rendered lexemes

The text of lexemes is broken into the same lexemes again, provided that the symbols in it keep
apart: symbols with no other lexeme between them become one run of characters, and it is up to
the segmenter whether it finds them again there. All other lexemes are found by their characters.
-/

namespace SoundLaw
set_option autoImplicit false
open Text

theorem Segmenter.ne_empty_of_mem_split {g : Segmenter} {s text : String} (h : s ∈ g.split text) :
    s ≠ "" := by
  obtain ⟨unit, hunit, rfl⟩ := List.mem_map.mp h
  rintro hnil
  obtain rfl : unit = [] := by simpa using hnil
  simp at hunit

theorem Segmenter.mem_of_mem_split {g : Segmenter} {s text : String} {c : Char}
    (htext : ∀ c ∈ text.toList, isBlank c = false) (hs : s ∈ g.split text) (hc : c ∈ s.toList) :
    c ∈ text.toList := by
  rw [← flatten_split (g := g) htext]
  exact List.mem_flatten_of_mem (List.mem_map_of_mem hs) hc

namespace Lexeme
variable {macros : MacroTable} {whole s text : String} {c : Char} {cs rest : List Char}
variable {run : List String} {l : Lexeme} {ls lexemes : List Lexeme}

/-! ### Lexemes in a text -/

/-- The lexemes that can be found in a text. -/
inductive IsFound (macros : MacroTable) : Lexeme → Prop
  | char {c : Char} {l : Lexeme} : ofChar? c = some l → IsFound macros l
  | bundle {inner : List Char} : ']' ∉ inner →
    IsFound macros (atom (.bundle (String.ofList ('[' :: inner ++ [']']))))
  | symbol {s : String} : s ≠ "" → (∀ c ∈ s.toList, isOrdinary c = true) →
    IsFound macros (ofSymbol macros s)

theorem isFound_of_scan (h : scan macros whole cs = .ok lexemes) :
    ∀ l ∈ lexemes, IsFound macros l := by
  fun_induction scan macros whole cs generalizing lexemes with
  | case1 =>
    cases h
    exact List.forall_mem_nil _
  | case2 => cases h
  | case3 => cases h
  | case4 cs inner rest hcut =>
    rename_i ih
    obtain ⟨ls, hls, h⟩ := bind_eq_ok.mp h
    cases h
    exact List.forall_mem_cons.mpr ⟨.bundle (not_mem_of_cut? hcut), ih hls⟩
  | case5 c cs _ _ l hl ih =>
    obtain ⟨ls, hls, h⟩ := bind_eq_ok.mp h
    cases h
    exact List.forall_mem_cons.mpr ⟨.char hl, ih hls⟩
  | case6 c cs hclose hopen hnone =>
    rename_i ih
    obtain ⟨ls, hls, h⟩ := bind_eq_ok.mp h
    cases h
    have hall := isOrdinary_run (isOrdinary_iff.mpr ⟨hopen, hclose, hnone⟩) cs
    intro l hl
    rcases List.mem_append.mp hl with hl | hl
    · obtain ⟨s, hs, rfl⟩ := List.mem_map.mp hl
      refine .symbol (Segmenter.ne_empty_of_mem_split hs) fun x hx => hall x ?_
      have hmem := Segmenter.mem_of_mem_split (isBlank_run hall) hs hx
      rwa [String.toList_ofList] at hmem
    · exact ih hls l hl

theorem isFound_of_ofText (h : ofText macros text = .ok lexemes) :
    ∀ l ∈ lexemes, IsFound macros l := by
  obtain ⟨ls, hls, h⟩ := bind_eq_ok.mp h
  cases h
  intro l hl
  exact isFound_of_scan hls l ((List.dropWhile_sublist (· == space)).subset (squeeze_subset _ hl))

/-- The symbol or the name of a macro that a lexeme is. -/
def symbol? : Lexeme → Option String
  | atom (.name s) | atom (.symbol s) => some s
  | _ => none

theorem symbol?_ofSymbol : (ofSymbol macros s).symbol? = some s := by
  unfold ofSymbol
  split <;> rfl

theorem text_ofSymbol : (ofSymbol macros s).text = s := by
  unfold ofSymbol
  split <;> rfl

theorem exists_ofChar? (h : ofChar? c = some l) :
    l.symbol? = none ∧ ∃ d, l.text.toList = [d] ∧ ofChar? d = some l := by
  unfold ofChar? at h
  split at h
  case h_11 =>
    split at h
    · cases h
      exact ⟨rfl, ' ', rfl, rfl⟩
    · cases h
  all_goals
    cases h
    exact ⟨rfl, _, rfl, rfl⟩

theorem IsFound.eq_ofSymbol (h : IsFound macros l) (hs : l.symbol? = some s) :
    l = ofSymbol macros s ∧ s ≠ "" ∧ ∀ c ∈ s.toList, isOrdinary c = true := by
  cases h with
  | char hc => cases (exists_ofChar? hc).1.symm.trans hs
  | bundle => cases hs
  | symbol hne hordinary =>
    rw [symbol?_ofSymbol] at hs
    cases hs
    exact ⟨rfl, hne, hordinary⟩

/-- A lexeme other than a symbol is found at its text, whatever stands around it. -/
theorem IsFound.scan_text (h : IsFound macros l) (hnone : l.symbol? = none)
    (hrest : scan macros whole rest = .ok lexemes) :
    scan macros whole (l.text.toList ++ rest) = .ok (l :: lexemes) ∧
      ∀ c ∈ (l.text.toList ++ rest).head?, isOrdinary c = false := by
  cases h with
  | char hc =>
    obtain ⟨-, d, htext, hd⟩ := exists_ofChar? hc
    rw [htext, List.singleton_append]
    refine ⟨scan_of_ofChar? hd hrest, fun c hc => ?_⟩
    obtain rfl := Option.some.inj hc
    refine Bool.eq_false_iff.mpr fun hordinary => ?_
    cases (isOrdinary_iff.mp hordinary).2.2.symm.trans hd
  | @bundle inner hinner =>
    have htext : (atom (.bundle (String.ofList ('[' :: inner ++ [']'])))).text.toList ++ rest =
        '[' :: (inner ++ ']' :: rest) := by
      simp [text, Atom.text]
    rw [htext]
    refine ⟨?_, fun c hc => ?_⟩
    · rw [scan, if_neg (by decide), if_pos rfl]
      split
      · rename_i hcut
        rw [cut?_append hinner] at hcut
        cases hcut
      · rename_i hcut
        rw [cut?_append hinner] at hcut
        cases hcut
        rw [hrest]
        rfl
    · rw [← Option.some.inj hc]
      rfl
  | symbol =>
    rw [symbol?_ofSymbol] at hnone
    cases hnone

theorem filterMap_symbol?_filter (ls : List Lexeme) :
    (ls.filter (· ≠ space)).filterMap symbol? = ls.filterMap symbol? := by
  induction ls with
  | nil => rfl
  | cons l ls ih =>
    by_cases hl : l = space
    · rw [hl, List.filter_cons_of_neg (by simp), ih]
      rfl
    · rw [List.filter_cons_of_pos (by simpa using hl), List.filterMap_cons, List.filterMap_cons, ih]

/-! ### Runs of symbols -/

/-- The symbols in the runs between other lexemes, the first of which has been read in part. -/
def symbolRunsFrom (run : List String) : List Lexeme → List (List String)
  | [] => [run]
  | l :: ls =>
    match l.symbol? with
    | some s => symbolRunsFrom (run ++ [s]) ls
    | none => run :: symbolRunsFrom [] ls

/-- Symbols that stand side by side are found again in the text that they make up. -/
def KeepApart (macros : MacroTable) (lexemes : List Lexeme) : Prop :=
  ∀ run ∈ symbolRunsFrom [] lexemes, macros.segmenter.split (String.join run) = run

instance (macros : MacroTable) (lexemes : List Lexeme) : Decidable (KeepApart macros lexemes) :=
  inferInstanceAs (Decidable (∀ run ∈ symbolRunsFrom [] lexemes, _))

/-- The symbols that are found in the text of a run. -/
def cutAnew (macros : MacroTable) (run : List String) : List Lexeme :=
  (macros.segmenter.split (String.join run)).map (ofSymbol macros)

/-- The lexemes with every run of symbols cut anew. -/
def recutFrom (macros : MacroTable) (run : List String) : List Lexeme → List Lexeme
  | [] => cutAnew macros run
  | l :: ls =>
    match l.symbol? with
    | some s => recutFrom macros (run ++ [s]) ls
    | none => cutAnew macros run ++ l :: recutFrom macros [] ls

def IsRun (run : List String) : Prop := ∀ s ∈ run, s ≠ "" ∧ ∀ c ∈ s.toList, isOrdinary c = true

theorem IsRun.nil : IsRun [] := List.forall_mem_nil _

theorem IsRun.append_singleton (hrun : IsRun run) (hne : s ≠ "")
    (hs : ∀ c ∈ s.toList, isOrdinary c = true) : IsRun (run ++ [s]) :=
  List.forall_mem_append.mpr ⟨hrun, List.forall_mem_singleton.mpr ⟨hne, hs⟩⟩

theorem IsRun.isOrdinary (hrun : IsRun run) :
    ∀ c ∈ (String.join run).toList, isOrdinary c = true := by
  intro c hc
  rw [String.toList_join] at hc
  obtain ⟨s, hs, hc⟩ := List.mem_flatMap.mp hc
  exact (hrun s hs).2 c hc

theorem cutAnew_nil : cutAnew macros [] = [] := by
  simp [cutAnew, Segmenter.split, clusters, unitsOf]

theorem filterMap_symbol?_cutAnew (run : List String) :
    (cutAnew macros run).filterMap symbol? = macros.segmenter.split (String.join run) := by
  rw [cutAnew, List.filterMap_map]
  exact (List.filterMap_congr fun s _ => symbol?_ofSymbol).trans List.filterMap_some

theorem scan_join (hrun : IsRun run) (hrest : ∀ c ∈ rest.head?, isOrdinary c = false)
    (h : scan macros whole rest = .ok lexemes) :
    scan macros whole ((String.join run).toList ++ rest) = .ok (cutAnew macros run ++ lexemes) := by
  cases run with
  | nil =>
    rw [cutAnew_nil]
    exact h
  | cons s others =>
    have hne : (String.join (s :: others)).toList ≠ [] := by
      rw [String.join_cons, String.toList_append]
      exact List.append_ne_nil_of_left_ne_nil
        (fun hnil => (hrun s List.mem_cons_self).1 (String.toList_eq_nil_iff.mp hnil)) _
    have hscan := scan_run hrun.isOrdinary hne hrest h
    rwa [String.ofList_toList] at hscan

/-- What is found at the text of lexemes is these lexemes, their symbols cut anew. -/
theorem scan_render (hrun : IsRun run) (hls : ∀ l ∈ ls, IsFound macros l) :
    scan macros whole ((String.join run).toList ++ (render ls).toList) =
      .ok (recutFrom macros run ls) := by
  -- the run collects symbols until a lexeme comes that ends it
  induction ls generalizing run with
  | nil =>
    have hnil : scan macros whole [] = .ok [] := by rw [scan]
    have hscan : scan macros whole ((String.join run).toList ++ []) = _ :=
      scan_join hrun (fun c hc => by cases hc) hnil
    rwa [List.append_nil (cutAnew macros run)] at hscan
  | cons l ls ih =>
    obtain ⟨hl, hrest⟩ := List.forall_mem_cons.mp hls
    have hrender : (render (l :: ls)).toList = l.text.toList ++ (render ls).toList := by
      rw [render, List.map_cons, String.join_cons, String.toList_append]
      rfl
    rw [recutFrom, hrender]
    cases hsymbol : l.symbol? with
    | some s =>
      obtain ⟨rfl, hne, hordinary⟩ := hl.eq_ofSymbol hsymbol
      have hscan := ih (hrun.append_singleton hne hordinary) hrest
      rw [String.join_append, String.toList_append, List.append_assoc] at hscan
      rw [text_ofSymbol]
      simpa using hscan
    | none =>
      obtain ⟨hscan, hhead⟩ := hl.scan_text hsymbol (ih .nil hrest)
      exact scan_join hrun hhead hscan

theorem recutFrom_eq (hls : ∀ l ∈ ls, IsFound macros l)
    (hapart : ∀ r ∈ symbolRunsFrom run ls, macros.segmenter.split (String.join r) = r) :
    recutFrom macros run ls = run.map (ofSymbol macros) ++ ls := by
  induction ls generalizing run with
  | nil => rw [recutFrom, cutAnew, hapart run List.mem_cons_self, List.append_nil]
  | cons l ls ih =>
    obtain ⟨hl, hrest⟩ := List.forall_mem_cons.mp hls
    rw [symbolRunsFrom] at hapart
    rw [recutFrom]
    cases hsymbol : l.symbol? with
    | some s =>
      obtain ⟨rfl, -, -⟩ := hl.eq_ofSymbol hsymbol
      rw [hsymbol] at hapart
      show recutFrom macros (run ++ [s]) ls = _
      rw [ih hrest hapart, List.map_append, List.append_assoc]
      rfl
    | none =>
      rw [hsymbol] at hapart
      obtain ⟨hfirst, hapart⟩ := List.forall_mem_cons.mp hapart
      show cutAnew macros run ++ l :: recutFrom macros [] ls = _
      rw [ih hrest hapart, cutAnew, hfirst]
      rfl

/-- Lists of symbols that begin alike and make up the same text are the same. -/
theorem eq_of_append_eq_append {xs ys as bs : List String} (h : xs ++ as = ys ++ bs)
    (hjoin : (xs.map String.toList).flatten = (ys.map String.toList).flatten)
    (hxs : ∀ s ∈ xs, s ≠ "") (hys : ∀ s ∈ ys, s ≠ "") : xs = ys := by
  induction xs generalizing ys with
  | nil =>
    cases ys with
    | nil => rfl
    | cons y ys =>
      have hnil := (List.append_eq_nil_iff.mp hjoin.symm).1
      exact absurd (String.toList_eq_nil_iff.mp hnil) (hys y List.mem_cons_self)
  | cons x xs ih =>
    cases ys with
    | nil =>
      have hnil := (List.append_eq_nil_iff.mp hjoin).1
      exact absurd (String.toList_eq_nil_iff.mp hnil) (hxs x List.mem_cons_self)
    | cons y ys =>
      obtain ⟨rfl, htail⟩ := List.cons.inj h
      rw [ih htail (List.append_cancel_left hjoin) (List.forall_mem_cons.mp hxs).2
        (List.forall_mem_cons.mp hys).2]

theorem split_join_of_recutFrom (hrun : IsRun run) (hls : ∀ l ∈ ls, IsFound macros l)
    (h : (recutFrom macros run ls).filterMap symbol? = run ++ ls.filterMap symbol?) :
    ∀ r ∈ symbolRunsFrom run ls, macros.segmenter.split (String.join r) = r := by
  induction ls generalizing run with
  | nil =>
    rw [recutFrom, filterMap_symbol?_cutAnew] at h
    rw [symbolRunsFrom, List.forall_mem_singleton, h]
    exact List.append_nil run
  | cons l ls ih =>
    obtain ⟨hl, hrest⟩ := List.forall_mem_cons.mp hls
    rw [recutFrom] at h
    rw [symbolRunsFrom]
    cases hsymbol : l.symbol? with
    | some s =>
      obtain ⟨rfl, hne, hordinary⟩ := hl.eq_ofSymbol hsymbol
      rw [hsymbol, List.filterMap_cons_some hsymbol] at h
      refine ih (hrun.append_singleton hne hordinary) hrest ?_
      rw [List.append_assoc]
      exact h
    | none =>
      rw [hsymbol, List.filterMap_cons_none hsymbol, List.filterMap_append,
        filterMap_symbol?_cutAnew, List.filterMap_cons_none hsymbol] at h
      -- both lists of symbols make up the text of the run, so neither goes on further
      have hfirst : macros.segmenter.split (String.join run) = run := by
        refine eq_of_append_eq_append h ?_ (fun s => Segmenter.ne_empty_of_mem_split)
          fun s hs => (hrun s hs).1
        rw [Segmenter.flatten_split fun c hc => isBlank_of_isOrdinary (hrun.isOrdinary c hc),
          String.toList_join, List.flatMap_def]
      rw [hfirst] at h
      exact List.forall_mem_cons.mpr ⟨hfirst, ih .nil hrest (List.append_cancel_left h)⟩

/-! ### Blanks -/

/-- No run of blanks is cut short, whatever follows. -/
def Steady (ls : List Lexeme) : Prop := ∀ lexemes, squeeze (ls ++ lexemes) = ls ++ squeeze lexemes

namespace Steady

theorem nil : Steady [] := fun _ => rfl

theorem single (hl : l ≠ space) : Steady [l] := fun lexemes => squeeze_cons hl lexemes

theorem append {a b : List Lexeme} (ha : Steady a) (hb : Steady b) : Steady (a ++ b) := by
  intro lexemes
  rw [List.append_assoc, ha, hb, List.append_assoc]

theorem space_cons (hl : l ≠ space) (h : Steady (l :: ls)) : Steady (space :: l :: ls) := by
  intro lexemes
  have hrest : squeeze (space :: (l :: ls ++ lexemes)) = space :: squeeze (l :: ls ++ lexemes) := by
    rw [List.cons_append, squeeze_space_cons hl, squeeze_cons hl]
  rw [List.cons_append, hrest, h]
  rfl

theorem intercalate {rows : List (List Lexeme)}
    (hrows : ∀ row ∈ rows, Steady row ∧ ∃ l rest, row = l :: rest ∧ l ≠ space) :
    Steady ([space].intercalate rows) := by
  induction rows with
  | nil => exact nil
  | cons row rows ih =>
    obtain ⟨⟨hrow, -⟩, hothers⟩ := List.forall_mem_cons.mp hrows
    cases rows with
    | nil =>
      rw [List.intercalate_singleton]
      exact hrow
    | cons next rows =>
      obtain ⟨⟨-, l, rest, hnext, hl⟩, -⟩ := List.forall_mem_cons.mp hothers
      obtain ⟨more, hmore⟩ : ∃ more, [space].intercalate (next :: rows) = l :: more := by
        rw [hnext]
        cases rows with
        | nil => exact ⟨rest, List.intercalate_singleton⟩
        | cons third rows => exact ⟨_, by rw [List.intercalate_cons_cons]; rfl⟩
      have htail := ih hothers
      rw [hmore] at htail
      rw [List.intercalate_cons_cons, hmore, List.append_assoc]
      exact hrow.append (htail.space_cons hl)

end Steady

/-- The text of lexemes consists of these lexemes with their symbols cut anew. -/
theorem ofText_render (hls : ∀ l ∈ ls, IsFound macros l) : ofText macros (render ls) =
    .ok (squeeze ((recutFrom macros [] ls).dropWhile (· == space))) := by
  have hscan : scan macros (render ls) (render ls).toList = _ := scan_render .nil hls
  rw [ofText, hscan]
  rfl

theorem filterMap_symbol?_squeeze (ls : List Lexeme) :
    (squeeze (ls.dropWhile (· == space))).filterMap symbol? = ls.filterMap symbol? := by
  rw [← filterMap_symbol?_filter, filter_squeeze, filter_dropWhile, filterMap_symbol?_filter]

theorem ofText_render_eq (hls : ∀ l ∈ ls, IsFound macros l) (hapart : KeepApart macros ls)
    (hsteady : Steady ls) (hhead : ls.head? ≠ some space) : ofText macros (render ls) = .ok ls := by
  have hdrop : ls.dropWhile (· == space) = ls := by
    cases ls with
    | nil => rfl
    | cons l ls => exact List.dropWhile_cons_of_neg (by simpa using hhead)
  have hsqueeze : squeeze ls = ls := by
    have hend := hsteady []
    rwa [List.append_nil, squeeze, List.append_nil] at hend
  rw [ofText_render hls, recutFrom_eq hls hapart, List.map_nil, List.nil_append, hdrop, hsqueeze]

/-- Symbols that are found again in the text of their lexemes keep apart. -/
theorem keepApart_of_ofText_render {found : List Lexeme} (hls : ∀ l ∈ ls, IsFound macros l)
    (h : ofText macros (render ls) = .ok found)
    (hsymbols : found.filterMap symbol? = ls.filterMap symbol?) : KeepApart macros ls := by
  rw [ofText_render hls] at h
  refine split_join_of_recutFrom .nil hls ?_
  rw [← filterMap_symbol?_squeeze, Except.ok.inj h, hsymbols, List.nil_append]

end Lexeme

end SoundLaw
