import SoundLaw.Proofs.Grammar.Phrases

/-!
# Reading and the grammar

The reader starts at the end of a row and finds the opener of a bracket by counting. It accepts
exactly what the grammar derives, and returns the expressions that the grammar builds.
-/

namespace SoundLaw
set_option autoImplicit false

/-! ### Reading what the grammar derives -/

namespace Pattern
variable {m : FeatureModel} {row before core : List Lexeme} {e : Expression} {p behind : Pattern}

theorem takeNegation_signLexemes (negative : Bool) (h : before.head? ≠ some .negation) :
    takeNegation (signLexemes negative ++ before) = (negative, before) := by
  cases negative with
  | true => rfl
  | false =>
    rw [signLexemes, if_neg Bool.false_ne_true, List.nil_append]
    unfold takeNegation
    split
    · exact absurd rfl h
    · rfl

theorem readRow_spaces (n : Nat) (waiting : Option Quantifier) :
    readRow m row (List.replicate n .space ++ before) waiting behind =
      readRow m row before waiting behind := by
  induction n with
  | zero => rfl
  | succ n ih => rw [List.replicate_succ, List.cons_append, readRow, ih]

theorem readRow_repeats {loose : Bool} {suffix : List Lexeme} {q : Option Quantifier}
    (h : Repeats loose suffix q) :
    readRow m row (suffix.reverse ++ before) none behind = readRow m row before q behind := by
  cases h with
  | once => rfl
  | mark =>
    rw [List.reverse_append, List.reverse_replicate, List.append_assoc, List.reverse_singleton,
      List.singleton_append, readRow, if_neg (by decide), readRow_spaces]

/-- What the reader does on the way over the lexemes of a phrase. -/
def Accepts (m : FeatureModel) : Phrase → List Lexeme → Pattern → Prop
  | .unit, ls, p => ∀ e, p = [e] → ∀ row before waiting behind,
    readRow m row (ls.reverse ++ before) waiting behind =
      readRow m row (takeNegation before).2 none
        (e.withMarks ⟨waiting.getD .one, (takeNegation before).1⟩ :: behind)
  | .row _, ls, p => ∀ row before behind, before.head? ≠ some .negation →
    readRow m row (ls.reverse ++ before) none behind = readRow m row before none (p ++ behind)
  | .choice, ls, p => readAlternatives m (alternativesOf ls) = .ok p

theorem Accepts.ofLexemes {loose : Bool} {ls : List Lexeme} (h : Accepts m (.row loose) ls p) :
    readRow m ls ls.reverse none [] = .ok p := by
  have hread := h ls [] [] nofun
  rw [List.append_nil, List.append_nil] at hread
  rw [hread, readRow]
  rfl

theorem head_of_unit {leaf : Atom → Terminal → Prop} (h : Spells leaf .unit core p) :
    (core.reverse ++ before).head? ≠ some .negation := by
  cases h with
  | atom => exact nofun
  | round | curly =>
    rw [List.reverse_append, List.reverse_singleton]
    exact nofun

theorem accepts_of_spells {phrase : Phrase} {ls : List Lexeme}
    (h : Spells (Atom.Denotes m) phrase ls p) : Accepts m phrase ls p := by
  induction h with
  | @atom a t hleaf =>
    intro e he row before waiting behind
    obtain rfl := (List.cons.inj he).1
    rw [Atom.Denotes] at hleaf
    rw [List.reverse_singleton, List.singleton_append, readRow, hleaf]
    rfl
  | @round inner children hinner ih =>
    intro e he row before waiting behind
    obtain rfl := (List.cons.inj he).1
    have hfind := hinner.balanced.findOpening_eq .round before
    simp only [List.reverse_append, List.reverse_cons, List.append_assoc, List.cons_append,
      List.nil_append, List.reverse_nil]
    rw [readRow_round hfind rfl, ih.ofLexemes]
    rfl
  | @curly inner alternatives hinner hsome ih =>
    intro e he row before waiting behind
    obtain rfl := (List.cons.inj he).1
    have hfind := hinner.balanced.findOpening_eq .curly before
    have hread : readAlternatives m (alternativesOf inner) = .ok alternatives := ih
    have hgiven : ¬ (alternativesOf inner).isEmpty := by
      intro hempty
      rw [List.isEmpty_iff.mp hempty, readAlternatives] at hread
      exact hsome (Except.ok.inj hread).symm
    simp only [List.reverse_append, List.reverse_cons, List.append_assoc, List.cons_append,
      List.nil_append, List.reverse_nil]
    rw [readRow_curly hfind rfl hgiven, hread]
    rfl
  | nil => exact fun _ _ _ _ => rfl
  | @space rest q _ ih =>
    intro row before behind hbefore
    have hhead : (Lexeme.space :: before).head? ≠ some .negation := by simp
    rw [List.reverse_cons, List.append_assoc, List.singleton_append, ih row _ behind hhead, readRow]
  | @item loose negative core suffix rest e q p hcore hrepeats _ ihcore ihrest =>
    intro row before behind hbefore
    -- the reader comes from the end: what follows the item is read first, then its quantifier,
    -- and the item itself takes the sign along
    have hhead : (suffix.reverse ++ (core.reverse ++ ((signLexemes negative).reverse ++
        before))).head? ≠ some .negation := by
      cases hrepeats with
      | once =>
        rw [List.reverse_nil, List.nil_append]
        exact head_of_unit hcore
      | mark => simp
    have hsign : (signLexemes negative).reverse = signLexemes negative := by
      cases negative <;> rfl
    rw [List.reverse_append, List.reverse_append, List.reverse_append, List.append_assoc,
      List.append_assoc, List.append_assoc, ihrest row _ behind hhead, readRow_repeats hrepeats,
      ihcore e rfl, hsign, takeNegation_signLexemes negative hbefore]
    rfl
  | none => exact readAlternatives.eq_def m _
  | gap _ ih =>
    rw [Accepts, alternativesOf_space]
    exact ih
  | @alternative row rest children p hrow hsome hrest _ ihrow ihrest =>
    have huncut := hrow.uncut 0 fun _ => .inr rfl
    have hread : readAlternatives m (alternativesOf rest) = .ok p := ihrest
    rw [Accepts, alternativesOf_append huncut hsome hrest, readAlternatives, ihrow.ofLexemes, hread]
    rfl

end Pattern

/-! ### Deriving what is read -/

theorem eq_of_findOpening {before : List Lexeme} :
    ∀ {depth : Nat} {passed : List Lexeme} {b : Bracketed},
      findOpening depth passed before = some b →
        before.reverse ++ passed = b.before.reverse ++ .opening b.bracket :: b.inner := by
  induction before with
  | nil =>
    intro depth passed b h
    cases h
  | cons l before ih =>
    intro depth passed b h
    rw [List.reverse_cons, List.append_assoc, List.singleton_append]
    unfold findOpening at h
    split at h
    · cases h
      rfl
    all_goals exact ih h

theorem reverse_of_findOpening {before : List Lexeme} {b : Bracketed} (closer : Bracket)
    (h : findOpening 0 [] before = some b) : (Lexeme.closing closer :: before).reverse =
      b.before.reverse ++ (.opening b.bracket :: b.inner ++ [.closing closer]) := by
  have heq := eq_of_findOpening h
  rw [List.append_nil] at heq
  rw [List.reverse_cons, heq, List.append_assoc]

namespace Pattern
variable {m : FeatureModel}

/-- Whatever is read is derived: what waits for an item is a suffix of the lexemes read. -/
theorem spells_of_readRow {row before : List Lexeme} {waiting : Option Quantifier}
    {behind p : Pattern} (h : readRow m row before waiting behind = .ok p) :
    ∃ q, p = q ++ behind ∧ ∀ suffix, Repeats true suffix waiting →
      Spells (Atom.Denotes m) (.row true) (before.reverse ++ suffix) q := by
  refine read_induct (m := m)
    (fun before waiting behind p => ∃ q, p = q ++ behind ∧ ∀ suffix, Repeats true suffix waiting →
      Spells (Atom.Denotes m) (.row true) (before.reverse ++ suffix) q)
    (List.Forall₂ fun row e => ∃ children, Spells (Atom.Denotes m) (.row true) row children ∧
      e = children.unify) ?nil ?space ?quantifier ?round ?curly ?atom ?empty ?alternative p h
  case nil =>
    intro behind
    refine ⟨[], rfl, fun suffix hsuffix => ?_⟩
    cases hsuffix
    exact .nil
  case space =>
    rintro before waiting behind _ ⟨q, rfl, hq⟩
    refine ⟨q, rfl, fun suffix hsuffix => ?_⟩
    rw [List.reverse_cons, List.append_assoc, List.singleton_append]
    -- a space belongs to the quantifier that waits, or to the row if none does
    cases hsuffix with
    | once =>
      have hend : Spells (Atom.Denotes m) (.row true) [.space] [] := .space .nil
      simpa only [List.append_nil] using (hq [] .once).row_append hend
    | @mark n mark _ => exact hq _ (.mark (n := n + 1) fun _ => rfl)
  case quantifier =>
    rintro mark before behind _ ⟨q, rfl, hq⟩
    refine ⟨q, rfl, fun suffix hsuffix => ?_⟩
    cases hsuffix
    rw [List.reverse_cons, List.append_nil]
    exact hq _ (.mark (n := 0) fun h => absurd rfl h)
  case round =>
    rintro before b waiting behind _ _ hfind hround ⟨inner, rfl, hinner⟩ ⟨q, rfl, hq⟩
    refine ⟨q ++ [.group (inner ++ []) ⟨waiting.getD .one, (takeNegation b.before).1⟩], by simp,
      fun suffix hsuffix => ?_⟩
    have hrow := hinner [] .once
    have hrest := hq [] .once
    rw [List.reverse_reverse, List.append_nil] at hrow
    rw [List.append_nil] at hrest
    rw [reverse_of_findOpening _ hfind, hround, List.append_nil]
    exact Spells.row_item (.round hrow) hsuffix hrest
  case curly =>
    rintro before b waiting behind alternatives _ hfind hcurly hsome hrows ⟨q, rfl, hq⟩
    refine ⟨q ++ [.alternation alternatives ⟨waiting.getD .one, (takeNegation b.before).1⟩],
      by simp, fun suffix hsuffix => ?_⟩
    have hgiven : alternatives ≠ [] := by
      rintro rfl
      exact hsome (List.forall₂_nil_right_iff.mp hrows)
    have hrest := hq [] .once
    rw [List.append_nil] at hrest
    rw [reverse_of_findOpening _ hfind, hcurly]
    exact Spells.row_item (.curly (spells_alternatives hrows) hgiven) hsuffix hrest
  case atom =>
    rintro a t before waiting behind _ ht ⟨q, rfl, hq⟩
    refine ⟨q ++ [.terminal t ⟨waiting.getD .one, (takeNegation before).1⟩], by simp,
      fun suffix hsuffix => ?_⟩
    have hrest := hq [] .once
    rw [List.append_nil] at hrest
    rw [List.reverse_cons]
    exact Spells.row_item (.atom ht) hsuffix hrest
  case empty => exact .nil
  case alternative =>
    rintro row rows _ others ⟨q, rfl, hq⟩ hothers
    have hrow := hq [] .once
    rw [List.reverse_reverse, List.append_nil] at hrow
    rw [List.append_nil]
    exact .cons ⟨q, hrow, rfl⟩ hothers

/-- A row is read as the expressions that the grammar derives from it. -/
theorem ofLexemes_eq_ok_iff {lexemes : List Lexeme} {p : Pattern} :
    ofLexemes m lexemes = .ok p ↔ Spells (Atom.Denotes m) (.row true) lexemes p := by
  constructor
  · intro h
    obtain ⟨q, rfl, hq⟩ := spells_of_readRow h
    have hrow := hq [] .once
    rw [List.reverse_reverse, List.append_nil] at hrow
    rw [List.append_nil]
    exact hrow
  · intro h
    exact (accepts_of_spells h).ofLexemes

end Pattern

/-! ### What can be read -/

theorem Atom.exists_denotes_iff {m : FeatureModel} {a : Atom} : (∃ t, a.Denotes m t) ↔
    ∀ descriptor, a = .bundle descriptor → ∃ s, m.resolveBundle descriptor = .ok s := by
  cases a with
  | boundary | wildcard | name | symbol => exact ⟨fun _ => nofun, fun _ => ⟨_, rfl⟩⟩
  | bundle descriptor =>
    cases hs : m.resolveBundle descriptor with
    | error fault => simp [Denotes, Terminal.ofAtom, hs, Except.map]
    | ok s => simp [Denotes, Terminal.ofAtom, hs, Except.map]

/-- Lexemes can be read when they form a row and every bundle among them can be resolved. -/
theorem exists_spells_iff {m : FeatureModel} {lexemes : List Lexeme} :
    (∃ p, Spells (Atom.Denotes m) (.row true) lexemes p) ↔ IsRow lexemes ∧
      ∀ descriptor, .atom (.bundle descriptor) ∈ lexemes →
        ∃ s, m.resolveBundle descriptor = .ok s := by
  constructor
  · rintro ⟨p, hp⟩
    obtain ⟨p', _, hp'⟩ := hp.relabel (fun _ _ => True) fun _ _ => ⟨.boundary, trivial⟩
    exact ⟨⟨p', hp'⟩, fun descriptor hmem =>
      Atom.exists_denotes_iff.mp (hp.exists_of_mem hmem) descriptor rfl⟩
  · rintro ⟨⟨p, hp⟩, hbundles⟩
    obtain ⟨p', _, hp'⟩ := hp.relabel (Atom.Denotes m) fun a ha =>
      Atom.exists_denotes_iff.mpr fun descriptor h => hbundles descriptor (h ▸ ha)
    exact ⟨p', hp'⟩

/-- The grammar is what the reader accepts: a text is read as the expressions that the grammar
derives from its lexemes, and it can be read when the lexemes form a row whose bundles can all
be resolved. -/
theorem Pattern.ofText_iff_spells (macros : MacroTable) (text : String) :
    (∀ p, ofText macros text = .ok p ↔ ∃ lexemes, Lexeme.ofText macros text = .ok lexemes ∧
      Spells (Atom.Denotes macros.model) (.row true) lexemes p) ∧
    ((∃ p, ofText macros text = .ok p) ↔ ∃ lexemes, Lexeme.ofText macros text = .ok lexemes ∧
      IsRow lexemes ∧ ∀ descriptor, .atom (.bundle descriptor) ∈ lexemes →
        ∃ s, macros.model.resolveBundle descriptor = .ok s) := by
  have hread : ∀ p, ofText macros text = .ok p ↔ ∃ lexemes,
      Lexeme.ofText macros text = .ok lexemes ∧
        Spells (Atom.Denotes macros.model) (.row true) lexemes p := by
    intro p
    simp only [ofText, bind_eq_ok, mapError_eq_ok, ofLexemes_eq_ok_iff]
  refine ⟨hread, ?_⟩
  simp only [hread, ← exists_spells_iff]
  rw [exists_comm]
  simp only [exists_and_left]

end SoundLaw
