import SoundLaw.Proofs.Context
import SoundLaw.Proofs.Lexing
import SoundLaw.Proofs.Nesting
import SoundLaw.Rule.Reading

/-!
# Reading rules of plain words

Words that are single symbols come out of the text of a rule as they were put into it. Read
against each other, each of them becomes a change of one segment into another.
-/

namespace SoundLaw
set_option autoImplicit false
open Text

/-! ### Words -/

namespace Text
variable {c : Char} {cs word rest : List Char} {words : List (List Char)}

theorem splitAt_append {sep : Char} {left right : List Char} (hleft : sep ∉ left)
    (hright : sep ∉ right) : splitAt sep (left ++ sep :: right) = [left, right] := by
  rw [splitAt_append_cons, splitAt_of_not_mem hleft, splitAt_of_not_mem hright]
  rfl

end Text

/-! ### Symbols -/

/-- A symbol that stands for one segment on either side of a rule. -/
structure IsPlainSymbol (macros : MacroTable) (s : String) : Prop where
  lexeme : Lexeme.ofText macros s = .ok [.atom (.symbol s)]
  piece : (Segmenter.ofModel macros.model).split s = [s]
  ne_nothing : s ≠ "0"
  arrow : '>' ∉ s.toList
  slash : '/' ∉ s.toList
  dollar : '$' ∉ s.toList

namespace IsPlainSymbol
variable {macros : MacroTable} {s : String} {c : Char}

theorem isOrdinary (h : IsPlainSymbol macros s) : ∀ c ∈ s.toList, Lexeme.isOrdinary c = true :=
  Lexeme.isOrdinary_of_ofText_symbol h.lexeme

theorem isPlain (h : IsPlainSymbol macros s) (hc : c ∈ s.toList) : IsPlain c := by
  have hordinary := h.isOrdinary c hc
  have hbrackets : ∀ d ∈ brackets, Lexeme.isOrdinary d = false :=
    List.forall_iff_forall_mem.mp (by decide)
  refine ⟨Lexeme.isBlank_of_isOrdinary hordinary, fun hmem => ?_⟩
  cases hordinary.symm.trans (hbrackets c hmem)

theorem ne_empty (h : IsPlainSymbol macros s) : s.toList ≠ [] := by
  intro hnil
  have hlexeme := h.lexeme
  rw [Lexeme.ofText, hnil, Lexeme.scan] at hlexeme
  cases hlexeme

theorem readSource (h : IsPlainSymbol macros s) :
    readSource macros s = .ok [.literal (macros.model.resolve s)] := by
  rw [SoundLaw.readSource, if_neg h.ne_nothing, h.lexeme]
  rfl

theorem literalItems (h : IsPlainSymbol macros s) :
    literalItems macros s.toList = [.literal (macros.model.resolve s)] := by
  rw [SoundLaw.literalItems, String.ofList_toList, Segmenter.segment, h.piece]
  rfl

theorem readTarget (h : IsPlainSymbol macros s) (source : List Element) :
    readTarget macros source s = .ok [.literal (macros.model.resolve s)] := by
  have hliteral : ∀ c ∈ s.toList, isLiteral c = true := by
    intro c hc
    have hdollar : c ≠ '$' := fun heq => h.dollar (heq ▸ hc)
    have hopen : c ≠ '[' := Lexeme.ne_of_isOrdinary (h.isOrdinary c hc) (by decide)
    simp [isLiteral, hdollar, hopen]
  have hitems := h.literalItems
  obtain ⟨c, cs, hcs⟩ := List.exists_cons_of_ne_nil h.ne_empty
  rw [hcs] at hliteral hitems
  have hfirst := hliteral c List.mem_cons_self
  have hrest : ∀ x ∈ cs, isLiteral x = true := fun x hx => hliteral x (List.mem_cons_of_mem c hx)
  simp only [isLiteral, Bool.and_eq_true, bne_iff_ne] at hfirst
  rw [SoundLaw.readTarget, if_neg h.ne_nothing, hcs, readItems, if_neg hfirst.1,
    if_neg hfirst.2]
  simp only [List.takeWhile_eq_self_iff.mpr hrest, List.dropWhile_eq_nil_iff.mpr hrest, hitems,
    readItems]
  rfl

end IsPlainSymbol

/-! ### Rules -/

/-- A change of one segment into another. -/
def Change.substitution (m : FeatureModel) (a b : String) : Change :=
  ⟨[.literal (m.resolve a)], [.literal (m.resolve b)], s!"{a} > {b}"⟩

namespace Rule
variable {macros : MacroTable} {sources targets : List String}

/-- The text of a rule without an environment. -/
def plainText (sources targets : List String) : String :=
  " ".intercalate sources ++ " > " ++ " ".intercalate targets

theorem toList_plainText : (plainText sources targets).toList =
    ([' '].intercalate (sources.map String.toList) ++ [' ']) ++
      '>' :: (' ' :: [' '].intercalate (targets.map String.toList)) := by
  simp [plainText, String.toList_intercalate]

section Text
variable (hplain : ∀ s ∈ sources ++ targets, IsPlainSymbol macros s)
include hplain

theorem isClosed_words {words : List String} (hwords : words ⊆ sources ++ targets) :
    ∀ word ∈ words.map String.toList, IsClosed word := by
  intro word hword
  obtain ⟨s, hs, rfl⟩ := List.mem_map.mp hword
  have hsymbol := hplain s (hwords hs)
  exact isClosed_of_isPlain hsymbol.ne_empty fun c hc => hsymbol.isPlain hc

theorem trim_plainText (hsources : sources ≠ []) (htargets : targets ≠ []) :
    trim (plainText sources targets).toList = (plainText sources targets).toList := by
  have hwords : plainText sources targets = " ".intercalate (sources ++ ">" :: targets) := by
    rw [String.intercalate_append_of_ne_nil hsources (List.cons_ne_nil _ _),
      String.intercalate_cons_of_ne_nil htargets]
    exact String.toList_inj.mp (by simp [plainText])
  have hpointer : IsClosed ">".toList :=
    isClosed_of_isPlain (by decide) (List.forall_iff_forall_mem.mp (by decide))
  rw [hwords, String.toList_intercalate, List.map_append, List.map_cons]
  refine Settled.trim_intercalate_of_isClosed (List.forall_mem_append.mpr
    ⟨isClosed_words hplain (List.subset_append_left sources targets),
      List.forall_mem_cons.mpr ⟨hpointer,
        isClosed_words hplain (List.subset_append_right sources targets)⟩⟩)

theorem not_mem_intercalate {words : List String} (hwords : words ⊆ sources ++ targets) {d : Char}
    (hd : d ≠ ' ') (h : ∀ s, IsPlainSymbol macros s → d ∉ s.toList) :
    d ∉ [' '].intercalate (words.map String.toList) := by
  intro hmem
  refine forall_mem_intercalate (P := (d ≠ ·)) hd ?_ d hmem rfl
  intro word hword c hc heq
  obtain ⟨s, hs, rfl⟩ := List.mem_map.mp hword
  exact h s (hplain s (hwords hs)) (heq ▸ hc)

theorem readChanges_plainText (rule : String) (hsources : sources ≠ [])
    (hlength : sources.length = targets.length) :
    readChanges macros rule (plainText sources targets).toList =
      .ok ((sources.zip targets).map fun p => .substitution macros.model p.1 p.2) := by
  have hl := List.subset_append_left sources targets
  have hr := List.subset_append_right sources targets
  have hleft : outerWords (String.ofList ([' '].intercalate (sources.map String.toList) ++ [' ']))
      = sources := by
    rw [outerWords, String.toList_ofList,
      outerWordsFrom_closed (isClosed_words hplain hl) (by decide)]
    simp [outerWordsFrom, wordOf]
  have hright : outerWords (String.ofList (' ' :: [' '].intercalate (targets.map String.toList)))
      = targets := by
    rw [outerWords, String.toList_ofList, outerWordsFrom_blank (by decide),
      (Settled.of_isClosed (isClosed_words hplain hr)).outerWordsFrom_intercalate]
    simp [wordOf]
  have hzero : ∀ {words : List String}, words ⊆ sources ++ targets → words.count "0" = 0 := by
    intro words hwords
    refine List.count_eq_zero.mpr fun hmem => ?_
    exact (hplain "0" (hwords hmem)).ne_nothing rfl
  have hpairs : pairWords rule sources targets = .ok (sources.zip targets) := by
    have htargets : targets ≠ [] := by
      intro hnil
      rw [hnil] at hlength
      exact hsources (List.eq_nil_of_length_eq_zero hlength)
    have hnothing : targets ≠ ["0"] := by
      intro heq
      have hcount := hzero hr
      rw [heq] at hcount
      cases hcount
    rw [pairWords, if_neg (by simp [hsources, htargets]), if_neg (by simp [hzero hl, hzero hr]),
      if_neg hnothing, if_pos hlength]
  have harrow : ∀ s, IsPlainSymbol macros s → '>' ∉ s.toList := fun s hs => hs.arrow
  rw [readChanges, toList_plainText, splitAt_append]
  · simp only [hleft, hright, hpairs]
    refine mapM_eq_ok fun p hp => ?_
    have hmem := List.of_mem_zip hp
    have hsource := (hplain p.1 (hl hmem.1)).readSource
    have htarget := (hplain p.2 (hr hmem.2)).readTarget [.literal (macros.model.resolve p.1)]
    rw [Change.ofWords, hsource]
    simp only [htarget, bind, Except.bind]
    rfl
  · simpa using not_mem_intercalate hplain hl (by decide) harrow
  · simpa using not_mem_intercalate hplain hr (by decide) harrow

/-- A rule of plain symbols replaces each source by the target in its place. -/
theorem ofText_plainText (hsources : sources ≠ []) (hlength : sources.length = targets.length) :
    ofText macros (plainText sources targets) = .ok {
      text := plainText sources targets
      model := macros.model
      changes := (sources.zip targets).map fun p => .substitution macros.model p.1 p.2
      environment := ⟨[], []⟩ } := by
  have htargets : targets ≠ [] := by
    intro hnil
    rw [hnil] at hlength
    exact hsources (List.eq_nil_of_length_eq_zero hlength)
  have hslash : ∀ s, IsPlainSymbol macros s → '/' ∉ s.toList := fun s hs => hs.slash
  have hcut : cut? '/' (plainText sources targets).toList = none := by
    apply cut?_eq_none
    have hleft := not_mem_intercalate hplain (List.subset_append_left sources targets)
      (by decide) hslash
    have hright := not_mem_intercalate hplain (List.subset_append_right sources targets)
      (by decide) hslash
    simp [toList_plainText, hleft, hright]
  have henvironment : Environment.ofText macros (String.ofList []) = .ok ⟨[], []⟩ := by
    rw [Environment.ofText, outerWords, String.toList_ofList]
    rfl
  rw [ofText]
  simp only [trim_plainText hplain hsources htargets, hcut, Option.getD_none,
    readChanges_plainText hplain _ hsources hlength, henvironment, String.ofList_toList]
  rfl

end Text

end Rule

end SoundLaw
