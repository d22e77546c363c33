import SoundLaw.Proofs.Meaning
import SoundLaw.Proofs.Outcomes
import SoundLaw.Proofs.Texts

/-!
# What can be read

An alternation that is read has an alternative, and an expression that is read inverts its item
only where a negation stands among the lexemes. A text without an exclamation mark has none.
-/

namespace SoundLaw
set_option autoImplicit false

/-- An expression that can be read from lexemes. -/
structure Expression.Readable (lexemes : List Lexeme) (e : Expression) : Prop where
  choice : e.HasChoice
  sign : e.isNegative = true → .negation ∈ lexemes

/-- Every expression of a pattern, in whatever depth, can be read from lexemes. -/
def Pattern.Readable (lexemes : List Lexeme) (p : Pattern) : Prop :=
  ∀ e ∈ p, e.Everywhere (Expression.Readable lexemes)

/-! ### Parts of a row -/

theorem subset_of_findOpening {before : List Lexeme} :
    ∀ {depth : Nat} {passed : List Lexeme} {b : Bracketed},
      findOpening depth passed before = some b →
        b.inner ⊆ passed ++ before ∧ b.before ⊆ before := by
  induction before with
  | nil =>
    intro depth passed b h
    simp [findOpening] at h
  | cons l before ih =>
    intro depth passed b h
    have hmove : l :: passed ++ before ⊆ passed ++ l :: before := by
      intro x hx
      simp only [List.mem_append, List.mem_cons] at hx ⊢
      grind
    unfold findOpening at h
    split at h
    · cases h
      exact ⟨List.subset_append_left _ _, List.subset_cons_self _ _⟩
    all_goals
      obtain ⟨hinner, hrest⟩ := ih h
      exact ⟨List.Subset.trans hinner hmove, List.subset_cons_of_subset _ hrest⟩

theorem subset_of_mem_cutAtSpaces {lexemes : List Lexeme} :
    ∀ {depth : Nat} {row : List Lexeme}, row ∈ cutAtSpaces depth lexemes → row ⊆ lexemes := by
  induction lexemes with
  | nil =>
    intro depth row h
    obtain rfl := List.mem_singleton.mp h
    exact List.Subset.refl _
  | cons l rest ih =>
    intro depth row h
    rw [cutAtSpaces] at h
    split at h
    · rcases List.mem_cons.mp h with rfl | h
      · exact List.nil_subset _
      · exact List.subset_cons_of_subset l (ih h)
    · have hrest : ∀ row ∈ cutAtSpaces (depthBehind depth l) rest, row ⊆ rest := fun _ h => ih h
      split at h
      · obtain rfl := List.mem_singleton.mp h
        exact List.cons_subset_cons l (List.nil_subset rest)
      · rename_i part parts hcut
        rw [hcut] at hrest
        rcases List.mem_cons.mp h with rfl | h
        · exact List.cons_subset_cons l (hrest part List.mem_cons_self)
        · exact List.subset_cons_of_subset l (hrest row (List.mem_cons_of_mem part h))

theorem subset_of_mem_alternativesOf {inner row : List Lexeme} (h : row ∈ alternativesOf inner) :
    row ⊆ inner :=
  subset_of_mem_cutAtSpaces ((List.mem_filter.mp h).1)

theorem takeNegation_subset (before : List Lexeme) : (takeNegation before).2 ⊆ before := by
  unfold takeNegation
  split
  · exact List.subset_cons_self _ _
  · exact List.Subset.refl _

theorem mem_of_takeNegation {before : List Lexeme} (h : (takeNegation before).1 = true) :
    .negation ∈ before := by
  unfold takeNegation at h
  split at h
  · exact List.mem_cons_self
  · cases h

/-! ### Rows -/

namespace Pattern
variable {lexemes : List Lexeme} {m : FeatureModel}

theorem Readable.cons {e : Expression} {p : Pattern} (hp : Readable lexemes p)
    (he : e.Readable lexemes)
    (hchildren : ∀ c ∈ e.children, c.Everywhere (Expression.Readable lexemes)) :
    Readable lexemes (e :: p) := by
  intro x hx
  rcases List.mem_cons.mp hx with rfl | hx
  · exact ⟨he, hchildren⟩
  · exact hp x hx

theorem Readable.unify {p : Pattern} (hp : Readable lexemes p) :
    p.unify.Everywhere (Expression.Readable lexemes) := by
  unfold Pattern.unify
  split
  · exact hp _ List.mem_cons_self
  · exact ⟨⟨trivial, by simp [Expression.isNegative, Expression.marks]⟩, hp⟩

section Brackets
variable {row before : List Lexeme} {waiting : Option Quantifier} {behind p : Pattern}
variable {b : Bracketed} (hfind : findOpening 0 [] before = some b)
include hfind

theorem parts_subset (hbefore : before ⊆ lexemes) : b.inner ⊆ lexemes ∧ b.before ⊆ lexemes := by
  obtain ⟨hinner, hrest⟩ := subset_of_findOpening hfind
  rw [List.nil_append] at hinner
  exact ⟨List.Subset.trans hinner hbefore, List.Subset.trans hrest hbefore⟩

theorem readRow_mismatch {bracket : Bracket} (hb : b.bracket ≠ bracket) :
    readRow m row (.closing bracket :: before) waiting behind =
      .error (.pattern (.unmatchedBracket
        (Lexeme.render (.opening b.bracket :: b.inner ++ [.closing bracket])))) := by
  rw [readRow]
  split
  · rename_i hc
    cases hfind.symm.trans hc
  · rename_i c hc
    obtain rfl := Option.some.inj (hfind.symm.trans hc)
    rw [if_pos hb]

theorem readRow_round (hb : b.bracket = .round) :
    readRow m row (.closing .round :: before) waiting behind =
      readRow m b.inner b.inner.reverse none [] >>= fun children =>
        readRow m row (takeNegation b.before).2 none
          (.group children ⟨waiting.getD .one, (takeNegation b.before).1⟩ :: behind) := by
  rw [readRow]
  split
  · rename_i hc
    cases hfind.symm.trans hc
  · rename_i c hc
    obtain rfl := Option.some.inj (hfind.symm.trans hc)
    rw [if_neg (not_not_intro hb)]

theorem readRow_curly (hb : b.bracket = .curly) (hsome : ¬ (alternativesOf b.inner).isEmpty) :
    readRow m row (.closing .curly :: before) waiting behind =
      readAlternatives m (alternativesOf b.inner) >>= fun alternatives =>
        readRow m row (takeNegation b.before).2 none
          (.alternation alternatives ⟨waiting.getD .one, (takeNegation b.before).1⟩ :: behind) := by
  rw [readRow]
  split
  · rename_i hc
    cases hfind.symm.trans hc
  · rename_i c hc
    obtain rfl := Option.some.inj (hfind.symm.trans hc)
    rw [if_neg (not_not_intro hb)]
    simp only [hsome, Bool.false_eq_true, if_false]

theorem readRow_curly_empty (hb : b.bracket = .curly) (hnone : (alternativesOf b.inner).isEmpty) :
    readRow m row (.closing .curly :: before) waiting behind =
      .error (.pattern (.emptyAlternation
        (Lexeme.render (.opening b.bracket :: b.inner ++ [.closing .curly])))) := by
  rw [readRow]
  split
  · rename_i hc
    cases hfind.symm.trans hc
  · rename_i c hc
    obtain rfl := Option.some.inj (hfind.symm.trans hc)
    rw [if_neg (not_not_intro hb)]
    simp only [hnone, if_true]

end Brackets

theorem readRow_unopened {row before : List Lexeme} {waiting : Option Quantifier}
    {behind : Pattern} {bracket : Bracket} (hnone : findOpening 0 [] before = none) :
    readRow m row (.closing bracket :: before) waiting behind =
      .error (.pattern (.unmatchedBracket
        (Lexeme.render (before.reverse ++ [.closing bracket])))) := by
  rw [readRow]
  split
  · rfl
  · rename_i hsome
    cases hnone.symm.trans hsome

theorem Readable.nil : Readable lexemes [] := by
  intro e he
  cases he

/-- Induction along a row that can be read, given its lexemes from the end, the quantifier that
waits, the expressions behind and the result. -/
theorem read_induct (motive : List Lexeme → Option Quantifier → Pattern → Pattern → Prop)
    (motives : List (List Lexeme) → Pattern → Prop)
    (nil : ∀ behind, motive [] none behind behind)
    (space : ∀ before waiting behind p, motive before waiting behind p →
      motive (.space :: before) waiting behind p)
    (quantifier : ∀ q before behind p, motive before (some q) behind p →
      motive (.quantifier q :: before) none behind p)
    (round : ∀ before b waiting behind children p, findOpening 0 [] before = some b →
      b.bracket = .round → motive b.inner.reverse none [] children →
      motive (takeNegation b.before).2 none
        (.group children ⟨waiting.getD .one, (takeNegation b.before).1⟩ :: behind) p →
      motive (.closing .round :: before) waiting behind p)
    (curly : ∀ before b waiting behind alternatives p, findOpening 0 [] before = some b →
      b.bracket = .curly → alternativesOf b.inner ≠ [] →
      motives (alternativesOf b.inner) alternatives →
      motive (takeNegation b.before).2 none
        (.alternation alternatives ⟨waiting.getD .one, (takeNegation b.before).1⟩ :: behind) p →
      motive (.closing .curly :: before) waiting behind p)
    (atom : ∀ a t before waiting behind p, Terminal.ofAtom m a = .ok t →
      motive (takeNegation before).2 none
        (.terminal t ⟨waiting.getD .one, (takeNegation before).1⟩ :: behind) p →
      motive (.atom a :: before) waiting behind p)
    (empty : motives [] [])
    (alternative : ∀ row rows children others, motive row.reverse none [] children →
      motives rows others → motives (row :: rows) (children.unify :: others))
    {row before : List Lexeme} {waiting : Option Quantifier} {behind : Pattern} :
    ∀ p, readRow m row before waiting behind = .ok p → motive before waiting behind p := by
  apply readRow.induct
    (fun row before waiting behind => ∀ p, readRow m row before waiting behind = .ok p →
      motive before waiting behind p)
    (fun rows => ∀ p, readAlternatives m rows = .ok p → motives rows p)
  case case1 =>
    intro row waiting behind hw p h
    rw [readRow, if_pos hw] at h
    cases h
  case case2 =>
    intro row waiting behind hw p h
    rw [readRow, if_neg hw] at h
    cases h
    obtain rfl : waiting = none := by simpa using hw
    exact nil behind
  case case3 =>
    intro row waiting behind before ih p h
    rw [readRow] at h
    exact space before waiting behind p (ih p h)
  case case4 =>
    intro row waiting behind q before hw p h
    rw [readRow, if_pos hw] at h
    cases h
  case case5 =>
    intro row waiting behind q before hw ih p h
    rw [readRow, if_neg hw] at h
    obtain rfl : waiting = none := by simpa using hw
    exact quantifier q before behind p (ih p h)
  case case6 =>
    intro row waiting behind before p h
    rw [readRow] at h
    cases h
  case case7 =>
    intro row waiting behind bracket before p h
    rw [readRow] at h
    cases h
  case case8 =>
    intro row waiting behind bracket before hfind p h
    rw [readRow_unopened hfind] at h
    cases h
  case case9 =>
    intro row waiting behind bracket before b hfind _ _ _ hb p h
    rw [readRow_mismatch hfind hb] at h
    cases h
  case case10 =>
    intro row waiting behind before b hfind _ _ _ marks hb ihinner ih p h
    have hround := Classical.not_not.mp hb
    rw [readRow_round hfind hround, bind_eq_ok] at h
    obtain ⟨children, hchildren, h⟩ := h
    exact round before b waiting behind children p hfind hround (ihinner children hchildren)
      (ih children p h)
  case case11 =>
    intro row waiting behind before b hfind _ _ _ hnone hb p h
    rw [readRow_curly_empty hfind (Classical.not_not.mp hb) hnone] at h
    cases h
  case case12 =>
    intro row waiting behind before b hfind _ _ _ marks hsome hb ihinner ih p h
    have hcurly := Classical.not_not.mp hb
    rw [readRow_curly hfind hcurly hsome, bind_eq_ok] at h
    obtain ⟨alternatives, halternatives, h⟩ := h
    exact curly before b waiting behind alternatives p hfind hcurly
      (fun hnil => hsome (List.isEmpty_iff.mpr hnil)) (ihinner alternatives halternatives)
      (ih alternatives p h)
  case case13 =>
    intro row waiting behind a before ih p h
    rw [readRow, bind_eq_ok] at h
    obtain ⟨t, ht, h⟩ := h
    exact atom a t before waiting behind p ht (ih t p h)
  case case14 =>
    intro p h
    rw [readAlternatives] at h
    cases h
    exact empty
  case case15 =>
    intro row rows ih ihrows p h
    rw [readAlternatives, bind_eq_ok] at h
    obtain ⟨children, hchildren, h⟩ := h
    obtain ⟨others, hothers, h⟩ := bind_eq_ok.mp h
    cases h
    exact alternative row rows children others (ih children hchildren) (ihrows others hothers)

theorem readable_of_readRow {row before : List Lexeme} {waiting : Option Quantifier}
    {behind p : Pattern} (h : readRow m row before waiting behind = .ok p) :
    before ⊆ lexemes → Readable lexemes behind → Readable lexemes p := by
  refine read_induct (m := m)
    (fun before _ behind p => before ⊆ lexemes → Readable lexemes behind → Readable lexemes p)
    (fun rows p => (∀ row ∈ rows, row ⊆ lexemes) →
      p.length = rows.length ∧ Readable lexemes p) ?nil ?space ?quantifier ?round ?curly ?atom
      ?empty ?alternative p h
  case nil =>
    intro behind _ hbehind
    exact hbehind
  case space =>
    intro before waiting behind p ih hbefore hbehind
    exact ih (List.subset_of_cons_subset hbefore) hbehind
  case quantifier =>
    intro q before behind p ih hbefore hbehind
    exact ih (List.subset_of_cons_subset hbefore) hbehind
  case round =>
    intro before b waiting behind children p hfind _ ihinner ih hbefore hbehind
    obtain ⟨hinner, hrest⟩ := parts_subset hfind (List.subset_of_cons_subset hbefore)
    refine ih (List.Subset.trans (takeNegation_subset _) hrest) ?_
    refine hbehind.cons ⟨trivial, fun hsign => hrest (mem_of_takeNegation hsign)⟩ ?_
    exact ihinner (fun x hx => hinner (List.mem_reverse.mp hx)) .nil
  case curly =>
    intro before b waiting behind alternatives p hfind _ hsome ihinner ih hbefore hbehind
    obtain ⟨hinner, hrest⟩ := parts_subset hfind (List.subset_of_cons_subset hbefore)
    obtain ⟨hlength, hread⟩ := ihinner fun row hrow =>
      List.Subset.trans (subset_of_mem_alternativesOf hrow) hinner
    have hchoice : alternatives ≠ [] := by
      rintro rfl
      exact hsome (List.eq_nil_of_length_eq_zero hlength.symm)
    refine ih (List.Subset.trans (takeNegation_subset _) hrest) ?_
    exact hbehind.cons ⟨hchoice, fun hsign => hrest (mem_of_takeNegation hsign)⟩ hread
  case atom =>
    intro a t before waiting behind p _ ih hbefore hbehind
    have hrest := List.subset_of_cons_subset hbefore
    refine ih (List.Subset.trans (takeNegation_subset _) hrest) ?_
    exact hbehind.cons ⟨trivial, fun hsign => hrest (mem_of_takeNegation hsign)⟩ nofun
  case empty =>
    intro _
    exact ⟨rfl, .nil⟩
  case alternative =>
    intro row rows children others ih ihrows hrows
    obtain ⟨hlength, hread⟩ := ihrows fun r hr => hrows r (List.mem_cons_of_mem row hr)
    have hrow := hrows row List.mem_cons_self
    have hunify := (ih (fun x hx => hrow (List.mem_reverse.mp hx)) .nil).unify
    refine ⟨congrArg Nat.succ hlength, ?_⟩
    intro e he
    rcases List.mem_cons.mp he with rfl | he
    · exact hunify
    · exact hread e he

theorem readable_of_ofLexemes {p : Pattern} (h : ofLexemes m lexemes = .ok p) :
    Readable lexemes p :=
  readable_of_readRow h (fun _ hl => List.mem_reverse.mp hl) .nil

end Pattern

/-! ### Texts -/

namespace Lexeme
open Text

theorem eq_of_ofChar?_eq_negation {c : Char} (h : ofChar? c = some .negation) : c = '!' := by
  unfold ofChar? at h
  split at h <;> first | rfl | cases h | (split at h <;> cases h)

/-- The characters of a text that no bundle holds, brackets included. -/
def outsideBundles : List Char → List Char
  | [] => []
  | c :: cs =>
    if c = '[' then
      match h : cut? ']' cs with
      | none => []
      | some (_, rest) =>
        have := length_lt_of_cut? h
        outsideBundles rest
    else c :: outsideBundles cs
termination_by cs => cs.length
decreasing_by all_goals simp only [List.length_cons]; omega

theorem outsideBundles_cons {c : Char} (hc : c ≠ '[') (cs : List Char) :
    outsideBundles (c :: cs) = c :: outsideBundles cs := by
  rw [outsideBundles, if_neg hc]

theorem outsideBundles_bundle {cs inner rest : List Char} (h : cut? ']' cs = some (inner, rest)) :
    outsideBundles ('[' :: cs) = outsideBundles rest := by
  rw [outsideBundles, if_pos rfl]
  split
  · rename_i hnone
    cases h.symm.trans hnone
  · rename_i hsome
    cases h.symm.trans hsome
    rfl

theorem outsideBundles_subset (cs : List Char) : outsideBundles cs ⊆ cs := by
  fun_induction outsideBundles cs with
  | case1 => exact List.Subset.refl _
  | case2 => exact List.nil_subset _
  | case3 cs inner rest hcut _ ih =>
    rw [eq_of_cut? hcut]
    intro x hx
    exact List.mem_cons_of_mem _ (List.mem_append_right _ (List.mem_cons_of_mem _ (ih hx)))
  | case4 c cs _ ih => exact List.cons_subset_cons c ih

theorem outsideBundles_dropWhile_subset (cs : List Char) :
    outsideBundles (cs.dropWhile isOrdinary) ⊆ outsideBundles cs := by
  induction cs with
  | nil => exact List.Subset.refl _
  | cons c cs ih =>
    rw [List.dropWhile_cons]
    split
    · rename_i hc
      have hopen : c ≠ '[' := by
        rintro rfl
        cases hc
      rw [outsideBundles_cons hopen]
      exact List.subset_cons_of_subset c ih
    · exact List.Subset.refl _

/-- A lexeme that is no bundle and no symbol is a character by itself, outside bundles. -/
theorem exists_ofChar?_of_mem_scan {macros : MacroTable} {whole : String} {cs : List Char}
    {lexemes : List Lexeme} {l : Lexeme} (h : scan macros whole cs = .ok lexemes)
    (hbundle : ∀ descriptor, l ≠ atom (.bundle descriptor)) (hsymbol : ∀ s, l ≠ ofSymbol macros s)
    (hl : l ∈ lexemes) : ∃ c ∈ outsideBundles cs, ofChar? c = some l := by
  fun_induction scan macros whole cs generalizing lexemes with
  | case1 =>
    cases h
    cases hl
  | case2 => cases h
  | case3 => cases h
  | case4 cs inner rest hcut =>
    rename_i ih
    obtain ⟨ls, hls, h⟩ := bind_eq_ok.mp h
    cases h
    rw [outsideBundles_bundle hcut]
    rcases List.mem_cons.mp hl with hl | hl
    · exact absurd hl (hbundle _)
    · exact ih hls hl
  | case5 c cs _ hopen l' hl' ih =>
    obtain ⟨ls, hls, h⟩ := bind_eq_ok.mp h
    cases h
    rw [outsideBundles_cons hopen]
    rcases List.mem_cons.mp hl with rfl | hl
    · exact ⟨c, List.mem_cons_self, hl'⟩
    · obtain ⟨d, hd, hdl⟩ := ih hls hl
      exact ⟨d, List.mem_cons_of_mem c hd, hdl⟩
  | case6 c cs _ hopen =>
    rename_i ih
    obtain ⟨ls, hls, h⟩ := bind_eq_ok.mp h
    cases h
    rw [outsideBundles_cons hopen]
    rcases List.mem_append.mp hl with hl | hl
    · obtain ⟨s, _, rfl⟩ := List.mem_map.mp hl
      exact absurd rfl (hsymbol s)
    · obtain ⟨d, hd, hdl⟩ := ih hls hl
      exact ⟨d, List.mem_cons_of_mem c (outsideBundles_dropWhile_subset cs hd), hdl⟩

theorem squeeze_subset (lexemes : List Lexeme) : squeeze lexemes ⊆ lexemes := by
  fun_induction squeeze lexemes with
  | case1 => exact List.Subset.refl _
  | case2 => exact List.nil_subset _
  | case3 rest ih => exact List.subset_cons_of_subset _ ih
  | case4 l rest _ _ ih => exact List.cons_subset_cons l ih

theorem exists_ofChar?_of_mem_ofText {macros : MacroTable} {text : String}
    {lexemes : List Lexeme} {l : Lexeme} (h : ofText macros text = .ok lexemes)
    (hbundle : ∀ descriptor, l ≠ atom (.bundle descriptor)) (hsymbol : ∀ s, l ≠ ofSymbol macros s)
    (hl : l ∈ lexemes) : ∃ c ∈ outsideBundles text.toList, ofChar? c = some l := by
  obtain ⟨ls, hls, h⟩ := bind_eq_ok.mp h
  cases h
  exact exists_ofChar?_of_mem_scan hls hbundle hsymbol
    ((List.dropWhile_sublist (· == space)).subset (squeeze_subset _ hl))

/-- Only an exclamation mark is read as a negation. -/
theorem negation_not_mem_ofText {macros : MacroTable} {text : String} {lexemes : List Lexeme}
    (h : ofText macros text = .ok lexemes) (htext : '!' ∉ text.toList) : .negation ∉ lexemes := by
  intro hmem
  obtain ⟨c, hc, hl⟩ := exists_ofChar?_of_mem_ofText h (l := negation) (fun _ => nofun)
    (fun _ => nofun) hmem
  obtain rfl := eq_of_ofChar?_eq_negation hl
  exact htext (outsideBundles_subset _ hc)

end Lexeme

theorem Expression.Everywhere.mono {P Q : Expression → Prop} (h : ∀ e, P e → Q e)
    {e : Expression} (he : e.Everywhere P) : e.Everywhere Q := by
  induction he with
  | intro hp _ ih => exact ⟨h _ hp, ih⟩

namespace Pattern
variable {macros : MacroTable} {text : String} {p : Pattern}

/-- No expression of the pattern inverts its item. -/
def Positive (p : Pattern) : Prop := ∀ e ∈ p, e.Everywhere fun e => e.isNegative = false

theorem readable_of_ofText (h : ofText macros text = .ok p) :
    ∃ lexemes, Lexeme.ofText macros text = .ok lexemes ∧ Readable lexemes p := by
  obtain ⟨lexemes, hlexemes, h⟩ := bind_eq_ok.mp h
  exact ⟨lexemes, mapError_eq_ok.mp hlexemes, readable_of_ofLexemes h⟩

theorem hasChoice_of_ofText (h : ofText macros text = .ok p) :
    ∀ e ∈ p, e.Everywhere Expression.HasChoice := by
  obtain ⟨lexemes, _, hread⟩ := readable_of_ofText h
  intro e he
  exact (hread e he).mono fun _ h => h.choice

theorem positive_of_ofText (h : ofText macros text = .ok p) (htext : '!' ∉ text.toList) :
    p.Positive := by
  obtain ⟨lexemes, hlexemes, hread⟩ := readable_of_ofText h
  have hnone := Lexeme.negation_not_mem_ofText hlexemes htext
  intro e he
  refine (hread e he).mono fun e h => ?_
  exact Bool.eq_false_iff.mpr fun hsign => hnone (h.sign hsign)

end Pattern

end SoundLaw
