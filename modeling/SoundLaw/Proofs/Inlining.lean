import Mathlib.Data.List.Sort
import SoundLaw.Proofs.Expansion
import SoundLaw.Proofs.Grammar.Reading
import SoundLaw.Proofs.Lexing
import SoundLaw.Proofs.Mirror

/-!
# Macros and alternations

A macro could as well be written out: right behind its definition, the alternation of the tokens
between braces matches wherever the name does, with the same marks on both. The macro was
expanded when it was stored, while the alternation is taken apart and wired anew; they agree
since the same symbols are found in the tokens, and no token mentions the macro itself.
-/

namespace SoundLaw
set_option autoImplicit false
open Text

/-! ### The alternation of the tokens -/

/-- What a symbol becomes in a pattern. -/
def Terminal.ofSymbol (t : MacroTable) (s : String) : Terminal :=
  if t.contains s then .reference s else .literal (t.model.resolve s)

namespace MacroTable

/-- The lexemes of a token. -/
def lexemesOf (t : MacroTable) (token : String) : List Lexeme :=
  (t.segmenter.split token).map (Lexeme.ofSymbol t)

/-- The expressions of a token. -/
def rowOf (t : MacroTable) (token : String) : Pattern :=
  (t.segmenter.split token).map fun s => .terminal (.ofSymbol t s) {}

/-- The alternation of tokens. -/
def choiceOf (t : MacroTable) (tokens : List String) (marks : Marks) : Expression :=
  .alternation (tokens.map fun token => (t.rowOf token).unify) marks

end MacroTable

section Meaning
variable {t : MacroTable} {side : Side} {target : List Segment} {s name : String}
variable {tokens : List String} {p : Pattern}

theorem Terminal.reads_reference {runs : List (List Segment)} (hfind : t.find? name = some runs) :
    (Terminal.reference name).Reads t side target = .ofRuns side target runs := by
  funext i j
  simp [Reads, Passage.ofRuns, hfind]

theorem Terminal.reads_ofSymbol :
    (Terminal.ofSymbol t s).Reads t side target = .ofRuns side target (t.runsOf s) := by
  unfold ofSymbol MacroTable.contains MacroTable.runsOf
  cases hfind : t.find? s with
  | none =>
    funext i j
    rw [Option.isSome_none, if_neg Bool.false_ne_true, Option.getD_none]
    simp [Reads, Passage.ofRuns, Side.orient_singleton, stands_singleton]
  | some runs =>
    rw [Option.isSome_some, if_pos rfl, Option.getD_some]
    exact reads_reference hfind

theorem Pattern.reads_unify : p.unify.Reads t side target = p.Reads t side target := by
  unfold Pattern.unify
  split
  · rename_i e
    rw [Pattern.Reads, Expression.passages_eq_map, List.map_singleton, Side.orient_singleton,
      Passage.composition_singleton]
  · rfl

theorem MacroTable.reads_rowOf (token : String) :
    (t.rowOf token).Reads t side target = .ofRuns side target (t.expansion token) := by
  have hpassages : Expression.passages t side target (t.rowOf token) =
      ((t.segmenter.split token).map t.runsOf).map (Passage.ofRuns side target) := by
    rw [Expression.passages_eq_map, rowOf, List.map_map, List.map_map]
    refine List.map_congr_left fun s _ => ?_
    exact Terminal.reads_ofSymbol
  funext i j
  rw [Pattern.Reads, hpassages, expansion, ofRuns_combinations]

/-- A name reads what the alternation of the tokens reads that it was defined by. -/
theorem MacroTable.reads_choiceOf (hfind : t.find? name = some (tokens.flatMap t.expansion))
    (marks : Marks) : (t.choiceOf tokens marks).Reads t side target =
      (Expression.terminal (.reference name) marks).Reads t side target := by
  have hunion : Passage.union (Expression.passages t side target
      (tokens.map fun token => (t.rowOf token).unify)) =
        (Terminal.reference name).Reads t side target := by
    rw [Terminal.reads_reference hfind]
    funext i j
    rw [Expression.passages_eq_map, List.map_map, ofRuns_flatMap]
    simp [Passage.union, Pattern.reads_unify, reads_rowOf]
  exact congrArg (marks.apply target) hunion

end Meaning

/-! ### Legality -/

section Legality
variable {t : MacroTable} {side : Side} {s name : String} {tokens : List String}
variable {e : Expression} {p : Pattern} {marks : Marks}

theorem Terminal.isBoundary_ofSymbol : (Terminal.ofSymbol t s).isBoundary = false := by
  unfold ofSymbol
  split <;> rfl

theorem Pattern.touching?_eq_none (h : ∀ e ∈ p, e.edgeIsBoundary .left = false) :
    p.touching? = none := by
  fun_induction Pattern.touching? p with
  | case1 a b rest hedges =>
    rw [h a List.mem_cons_self] at hedges
    cases hedges
  | case2 a b rest _ ih => exact ih fun e he => h e (List.mem_cons_of_mem a he)
  | case3 => rfl

theorem Pattern.checkQuantifier_eq_ok (h : e.isOnlyBoundary = false ∨ e.quantifier = .one) :
    checkQuantifier e = .ok () := by
  unfold checkQuantifier
  rcases h with h | h <;> simp [h]

theorem Pattern.check_singleton : check t side [e] = .ok () ↔ checkItem t side e = .ok () := by
  rw [check, seq_eq_ok, checkRow_eq_ok, List.forall_mem_singleton]
  exact and_iff_right rfl

theorem Pattern.checkItem_unify (h : ∀ e ∈ p, checkItem t side e = .ok ())
    (hedges : ∀ e ∈ p, e.edgeIsBoundary .left = false) : checkItem t side p.unify = .ok () := by
  unfold Pattern.unify
  split
  · exact h _ List.mem_cons_self
  · simp only [checkItem, seq_eq_ok, checkRow_eq_ok]
    refine ⟨checkQuantifier_eq_ok (.inr rfl), ?_, h⟩
    rw [checkNeighbours, touching?_eq_none hedges]

theorem Pattern.isOnlyBoundary_unify (h : ∀ e ∈ p, e.isOnlyBoundary = false) :
    p.unify.isOnlyBoundary = false := by
  cases p with
  | nil => rfl
  | cons e es =>
    cases es with
    | nil => exact h e List.mem_cons_self
    | cons => rfl

namespace MacroTable

theorem mem_rowOf {token : String} (he : e ∈ t.rowOf token) :
    ∃ s, e = .terminal (.ofSymbol t s) {} := by
  obtain ⟨s, _, rfl⟩ := List.mem_map.mp he
  exact ⟨s, rfl⟩

theorem checkItem_reference (hname : t.contains name = true) :
    Pattern.checkItem t side (.terminal (.reference name) marks) = .ok () := by
  obtain ⟨runs, hfind⟩ := Option.isSome_iff_exists.mp hname
  rw [Pattern.checkItem, Pattern.checkQuantifier_eq_ok (.inl rfl), alternatives, hfind]
  rfl

theorem checkItem_ofSymbol : Pattern.checkItem t side (.terminal (.ofSymbol t s) {}) = .ok () := by
  unfold Terminal.ofSymbol
  split
  · rename_i hname
    exact checkItem_reference hname
  · rfl

theorem checkItem_choiceOf (htokens : tokens ≠ []) :
    Pattern.checkItem t side (t.choiceOf tokens marks) = .ok () := by
  obtain ⟨token, rest, rfl⟩ := List.exists_cons_of_ne_nil htokens
  have honly : (t.rowOf token).unify.isOnlyBoundary = false := by
    refine Pattern.isOnlyBoundary_unify fun e he => ?_
    obtain ⟨s, rfl⟩ := mem_rowOf he
    exact Terminal.isBoundary_ofSymbol
  have hquantifier : Pattern.checkQuantifier (t.choiceOf (token :: rest) marks) = .ok () := by
    refine Pattern.checkQuantifier_eq_ok (.inl ?_)
    simp [choiceOf, Expression.isOnlyBoundary, Expression.areOnlyBoundaries, honly]
  rw [choiceOf] at hquantifier ⊢
  rw [Pattern.checkItem, hquantifier]
  refine Pattern.checkEach_eq_ok.mpr fun e he => ?_
  obtain ⟨token, _, rfl⟩ := List.mem_map.mp he
  refine Pattern.checkItem_unify (fun e he => ?_) fun e he => ?_
  · obtain ⟨s, rfl⟩ := mem_rowOf he
    exact checkItem_ofSymbol
  · obtain ⟨s, rfl⟩ := mem_rowOf he
    exact Terminal.isBoundary_ofSymbol

end MacroTable

end Legality

/-! ### Reading the texts -/

/-- An item as written, with its marks. -/
def Marks.around (marks : Marks) (item : String) : String :=
  (if marks.negative then "!" else "") ++ item ++ marks.quantifier.text

def Quantifier.lexemes : Quantifier → List Lexeme
  | one => []
  | q => [.quantifier q]

namespace MacroTable

/-- The alternation of tokens, as written. -/
def choiceText (tokens : List String) : String := "\x7b" ++ " ".intercalate tokens ++ "\x7d"

end MacroTable

section Texts
variable {t : MacroTable} {whole : String} {marks : Marks} {c : Char}
variable {text s : String} {tokens : List String} {core lexemes : List Lexeme} {e : Expression}

theorem isOrdinary_of_isReserved (hblank : isBlank c = false) (hreserved : isReserved c = false) :
    Lexeme.isOrdinary c = true := by
  have hne : ∀ d : Char, isReserved d = true → c ≠ d := by
    rintro d hd rfl
    exact Bool.false_ne_true (hreserved.symm.trans hd)
  refine Lexeme.isOrdinary_iff.mpr ⟨hne '[' (by decide), hne ']' (by decide), ?_⟩
  unfold Lexeme.ofChar?
  split
  case h_11 => rw [hblank, if_neg Bool.false_ne_true]
  all_goals exact absurd hreserved (by decide)

theorem Quantifier.scan_text (t : MacroTable) (whole : String) (q : Quantifier) :
    Lexeme.scan t whole q.text.toList = .ok q.lexemes := by
  have hnil : Lexeme.scan t whole [] = .ok [] := by rw [Lexeme.scan]
  cases q with
  | one => exact hnil
  | optional | star | plus => exact Lexeme.scan_of_ofChar? rfl hnil

theorem Quantifier.isOrdinary_head? (q : Quantifier) :
    ∀ c ∈ q.text.toList.head?, Lexeme.isOrdinary c = false := by
  intro c hc
  cases q with
  | one => cases hc
  | optional | star | plus =>
    rw [← Option.some.inj hc]
    rfl

theorem Quantifier.exists_repeats (q : Quantifier) (loose : Bool) :
    ∃ r, Repeats loose q.lexemes r ∧ r.getD .one = q := by
  cases q with
  | one => exact ⟨none, .once, rfl⟩
  | optional | star | plus => exact ⟨some _, .mark (n := 0) nofun, rfl⟩

/-- A quantifier, with blanks before it or without, repeats what stands before. -/
theorem Quantifier.repeats_squeeze (q : Quantifier) (n : Nat) :
    ∃ r, Repeats true (Lexeme.squeeze (List.replicate n .space ++ q.lexemes)) r ∧
      r.getD .one = q := by
  cases n with
  | zero =>
    have hsqueeze : Lexeme.squeeze q.lexemes = q.lexemes := by cases q <;> rfl
    rw [List.replicate_zero, List.nil_append, hsqueeze]
    exact q.exists_repeats true
  | succ n =>
    rw [Lexeme.squeeze_replicate]
    cases q with
    | one => exact ⟨none, .once, rfl⟩
    | optional | star | plus => exact ⟨some _, .mark (n := 1) fun _ => rfl, rfl⟩

theorem Marks.toList_around (marks : Marks) (item : String) :
    (marks.around item).toList = (if marks.negative then "!" else "").toList ++
      (item.toList ++ marks.quantifier.text.toList) := by
  rw [around, String.toList_append, String.toList_append, List.append_assoc]

theorem scan_sign {rest : List Char} (negative : Bool)
    (h : Lexeme.scan t whole rest = .ok lexemes) :
    Lexeme.scan t whole ((if negative then "!" else "").toList ++ rest) =
      .ok (signLexemes negative ++ lexemes) := by
  cases negative with
  | false => exact h
  | true => exact Lexeme.scan_of_ofChar? rfl h

theorem dropWhile_replicate_append (n : Nat) (hhead : lexemes.head? ≠ some .space) :
    (List.replicate n Lexeme.space ++ lexemes).dropWhile (· == .space) = lexemes := by
  induction n with
  | zero =>
    cases lexemes with
    | nil => rfl
    | cons l ls =>
      have hl : l ≠ .space := fun h => hhead (congrArg some h)
      exact List.dropWhile_cons_of_neg (by simpa using hl)
  | succ n ih => exact ih

/-- A text with one item is read as this item with the marks around it, wherever blanks may
stand. -/
theorem Pattern.ofText_of_scan {b n : Nat} (hscan : Lexeme.scan t text text.toList =
      .ok (List.replicate b .space ++ (signLexemes marks.negative ++ lexemes)))
    (hsqueeze : Lexeme.squeeze lexemes =
      core ++ Lexeme.squeeze (List.replicate n .space ++ marks.quantifier.lexemes))
    (hhead : lexemes.head? ≠ some .space) (hcore : Spells (Atom.Denotes t.model) .unit core [e]) :
    Pattern.ofText t text = .ok [e.withMarks marks] := by
  have hsign : ∀ l ∈ signLexemes marks.negative, l ≠ .space := by
    cases marks.negative <;> decide
  have hfirst : (signLexemes marks.negative ++ lexemes).head? ≠ some .space := by
    cases marks.negative with
    | true => exact nofun
    | false => exact hhead
  have hlexemes : Lexeme.ofText t text = .ok (signLexemes marks.negative ++ core ++
      Lexeme.squeeze (List.replicate n .space ++ marks.quantifier.lexemes)) := by
    rw [Lexeme.ofText, hscan, List.append_assoc, ← hsqueeze, ← Lexeme.squeeze_append hsign]
    exact congrArg (fun ls => Except.ok (Lexeme.squeeze ls)) (dropWhile_replicate_append b hfirst)
  obtain ⟨r, hrepeats, hr⟩ := marks.quantifier.repeats_squeeze n
  have hitem : Spells (Atom.Denotes t.model) (.row true) (signLexemes marks.negative ++ core ++
      Lexeme.squeeze (List.replicate n .space ++ marks.quantifier.lexemes) ++ [])
      [e.withMarks ⟨r.getD .one, marks.negative⟩] := .item hcore hrepeats .nil
  rw [List.append_nil, hr] at hitem
  rw [ofText, hlexemes]
  exact ofLexemes_eq_ok_iff.mpr hitem

/-- The text of a name has one item, which is the macro. -/
theorem Pattern.ofText_name {before after : List Char} {name x : String}
    (hname : name.toList = before ++ x.toList ++ after) (hne : x ≠ "")
    (hordinary : ∀ c ∈ x.toList, Lexeme.isOrdinary c = true)
    (hbefore : ∀ c ∈ before, isBlank c = true) (hafter : ∀ c ∈ after, isBlank c = true)
    (hmem : x ∈ t.names) (hcontains : t.contains x = true)
    (hsign : marks.negative = true → before = []) :
    Pattern.ofText t (marks.around name) = .ok [.terminal (.reference x) marks] := by
  have hsplit : t.segmenter.split (String.ofList x.toList) = [x] := by
    rw [String.ofList_toList]
    exact Segmenter.split_self (Segmenter.mem_symbols_withSymbols.mpr ⟨.inr hmem, hne⟩)
      fun c hc => Lexeme.isBlank_of_isOrdinary (hordinary c hc)
  have hsymbol : Lexeme.ofSymbol t x = .atom (.name x) := by
    rw [Lexeme.ofSymbol, if_pos hcontains]
  have hend : ∀ c ∈ (after ++ marks.quantifier.text.toList).head?,
      Lexeme.isOrdinary c = false := by
    intro c hc
    cases after with
    | nil => exact marks.quantifier.isOrdinary_head? c hc
    | cons d ds =>
      obtain rfl := Option.some.inj hc
      exact Bool.eq_false_iff.mpr fun h => Bool.false_ne_true
        ((Lexeme.isBlank_of_isOrdinary h).symm.trans (hafter d List.mem_cons_self))
  have htail := Lexeme.scan_blanks hafter (marks.quantifier.scan_text t (marks.around name))
  have hrun := Lexeme.scan_run hordinary (fun h => hne (String.toList_eq_nil_iff.mp h)) hend htail
  rw [hsplit, List.map_singleton, hsymbol, List.singleton_append] at hrun
  have hscan := scan_sign marks.negative (Lexeme.scan_blanks hbefore hrun)
  -- blanks before the name stand at the beginning, or there are none
  have hmove : ∀ ls : List Lexeme, signLexemes marks.negative ++
      (List.replicate before.length .space ++ ls) =
        List.replicate before.length .space ++ (signLexemes marks.negative ++ ls) := by
    intro ls
    cases hnegative : marks.negative with
    | true =>
      rw [hsign hnegative]
      rfl
    | false => rfl
  have htext : (marks.around name).toList = (if marks.negative then "!" else "").toList ++
      (before ++ (x.toList ++ (after ++ marks.quantifier.text.toList))) := by
    rw [marks.toList_around, hname, List.append_assoc, List.append_assoc]
  rw [← htext, hmove] at hscan
  have hcore : Spells (Atom.Denotes t.model) .unit [.atom (.name x)]
      [.terminal (.reference x) {}] := .atom rfl
  have hsqueeze : Lexeme.squeeze (.atom (.name x) :: (List.replicate after.length .space ++
      marks.quantifier.lexemes)) = [.atom (.name x)] ++ Lexeme.squeeze
        (List.replicate after.length .space ++ marks.quantifier.lexemes) :=
    Lexeme.squeeze_cons (l := .atom (.name x)) nofun _
  exact ofText_of_scan hscan hsqueeze nofun hcore

theorem Lexeme.denotes_ofSymbol (s : String) : ∃ a, Lexeme.ofSymbol t s = .atom a ∧
    a.Denotes t.model (.ofSymbol t s) := by
  refine ⟨_, rfl, ?_⟩
  unfold Terminal.ofSymbol
  split <;> rfl

theorem spells_rowOf (token : String) : Spells (Atom.Denotes t.model) (.row false)
    (t.lexemesOf token) (t.rowOf token) := by
  unfold MacroTable.lexemesOf MacroTable.rowOf
  induction t.segmenter.split token with
  | nil => exact .nil
  | cons s symbols ih =>
    obtain ⟨a, ha, hdenotes⟩ := Lexeme.denotes_ofSymbol (t := t) s
    have hitem : Spells (Atom.Denotes t.model) (.row false) (signLexemes false ++ [.atom a] ++ [] ++
        symbols.map (Lexeme.ofSymbol t)) _ := .item (.atom hdenotes) .once ih
    rw [List.map_cons, ha]
    exact hitem

/-- Between braces every token is an alternative. -/
theorem spells_choiceOf (hsome : ∀ token ∈ tokens, t.segmenter.split token ≠ []) :
    Spells (Atom.Denotes t.model) .choice
      ([Lexeme.space].intercalate (tokens.map t.lexemesOf))
      (tokens.map fun token => (t.rowOf token).unify) := by
  apply spells_choice
  rw [List.filter_eq_self.mpr]
  · rw [List.forall₂_map_left_iff, List.forall₂_map_right_iff, List.forall₂_same]
    intro token _
    exact ⟨t.rowOf token, spells_rowOf token, rfl⟩
  · intro row hrow
    obtain ⟨token, htoken, rfl⟩ := List.mem_map.mp hrow
    simpa [MacroTable.lexemesOf] using hsome token htoken

theorem scan_token {token : String} (htoken : IsToken token) {rest : List Char}
    (hrest : ∀ c ∈ rest.head?, Lexeme.isOrdinary c = false)
    (h : Lexeme.scan t whole rest = .ok lexemes) :
    Lexeme.scan t whole (token.toList ++ rest) = .ok (t.lexemesOf token ++ lexemes) := by
  have hordinary : ∀ c ∈ token.toList, Lexeme.isOrdinary c = true := fun c hc =>
    isOrdinary_of_isReserved (htoken.blank c hc) (htoken.reserved c hc)
  have hne : token.toList ≠ [] := fun h => htoken.ne_empty (String.toList_eq_nil_iff.mp h)
  have hrun := Lexeme.scan_run hordinary hne hrest h
  rwa [String.ofList_toList] at hrun

theorem scan_tokens (hall : ∀ token ∈ tokens, IsToken token) {rest : List Char}
    (hrest : ∀ c ∈ rest.head?, Lexeme.isOrdinary c = false)
    (h : Lexeme.scan t whole rest = .ok lexemes) :
    Lexeme.scan t whole ([' '].intercalate (tokens.map String.toList) ++ rest) =
      .ok ([Lexeme.space].intercalate (tokens.map t.lexemesOf) ++ lexemes) := by
  induction tokens with
  | nil => exact h
  | cons token tokens ih =>
    have htoken := hall token List.mem_cons_self
    have hothers := ih fun x hx => hall x (List.mem_cons_of_mem token hx)
    cases tokens with
    | nil =>
      rw [List.map_singleton, List.map_singleton, List.intercalate_singleton,
        List.intercalate_singleton]
      exact scan_token htoken hrest h
    | cons next tokens =>
      have hfirst : ∀ c ∈ (' ' :: ([' '].intercalate ((next :: tokens).map String.toList) ++
          rest)).head?, Lexeme.isOrdinary c = false := by
        intro c hc
        rw [← Option.some.inj hc]
        rfl
      have hspace := Lexeme.scan_of_ofChar? (c := ' ') (l := .space) rfl hothers
      simpa [List.intercalate_cons_cons] using scan_token htoken hfirst hspace

/-- The text of an alternation of tokens has one item, which is this alternation. -/
theorem Pattern.ofText_choiceText (htokens : tokens ≠ []) (hall : ∀ token ∈ tokens, IsToken token) :
    Pattern.ofText t (marks.around (MacroTable.choiceText tokens)) =
      .ok [t.choiceOf tokens marks] := by
  have hsome : ∀ token ∈ tokens, t.segmenter.split token ≠ [] := fun token htoken =>
    Segmenter.split_ne_nil (hall token htoken).blank (hall token htoken).ne_empty
  have htext : (marks.around (MacroTable.choiceText tokens)).toList =
      (if marks.negative then "!" else "").toList ++ ('\x7b' ::
        ([' '].intercalate (tokens.map String.toList) ++
          '\x7d' :: marks.quantifier.text.toList)) := by
    simp [marks.toList_around, MacroTable.choiceText, String.toList_intercalate]
  have hclose : ∀ c ∈ ('\x7d' :: marks.quantifier.text.toList).head?,
      Lexeme.isOrdinary c = false := by
    intro c hc
    rw [← Option.some.inj hc]
    rfl
  have hend := Lexeme.scan_of_ofChar? (c := '\x7d') (l := .closing .curly) rfl
    (marks.quantifier.scan_text t (marks.around (MacroTable.choiceText tokens)))
  have hopen := Lexeme.scan_of_ofChar? (c := '\x7b') (l := .opening .curly) rfl
    (scan_tokens hall hclose hend)
  have hscan := scan_sign marks.negative hopen
  rw [← htext] at hscan
  have hrows : ∀ row ∈ tokens.map t.lexemesOf, row ≠ [] ∧ ∀ l ∈ row, l ≠ .space := by
    intro row hrow
    obtain ⟨token, htoken, rfl⟩ := List.mem_map.mp hrow
    refine ⟨by simpa [MacroTable.lexemesOf] using hsome token htoken, fun l hl => ?_⟩
    obtain ⟨s, _, rfl⟩ := List.mem_map.mp hl
    exact Lexeme.ofSymbol_ne_space s
  have hcore : Spells (Atom.Denotes t.model) .unit _ [t.choiceOf tokens {}] :=
    .curly (spells_choiceOf hsome) (by simpa using htokens)
  refine ofText_of_scan (b := 0) (n := 0) hscan ?_ nofun hcore
  rw [Lexeme.squeeze_cons (l := .opening .curly) nofun, Lexeme.squeeze_intercalate hrows,
    Lexeme.squeeze_cons (l := .closing .curly) nofun]
  simp

end Texts

/-! ### Automata -/

namespace Automaton
variable {t : MacroTable} {side : Side} {text : String} {p q : Pattern}

theorem Finds.ends_eq {a b : Automaton} (ha : a.Finds t side p) (hb : b.Finds t side q)
    (h : ∀ target, p.Reads t side target = q.Reads t side target) (target : List Segment)
    (first : Nat) : a.ends target first = b.ends target first := by
  obtain ⟨hapairs, hamem⟩ := ha target first
  obtain ⟨hbpairs, hbmem⟩ := hb target first
  refine hapairs.eq_of_mem_iff hbpairs fun stop => ?_
  rw [hamem, hbmem, h]

theorem exists_ofText_finds (hp : Pattern.ofText t text = .ok p)
    (hcheck : p.check t side = .ok ()) : ∃ a, ofText t side text = .ok a ∧ a.Finds t side p := by
  refine ⟨build t side p, ?_, finds_build (Pattern.hasChoice_of_ofText hp)⟩
  rw [ofText, hp]
  exact mapError_eq_ok.mpr (ofPattern_eq_ok.mpr ⟨hcheck, rfl⟩)

end Automaton

namespace MacroTable
variable {t t' : MacroTable} {name : String} {tokens : List String}

/-- Right behind the definition of a macro, its name and the alternation of its tokens match the
same spans, with the same marks around both. -/
theorem ends_choiceText
    (hname : ∀ c ∈ name.toList, isReserved c = false ∧ c ≠ '=') (htokens : tokens ≠ [])
    (hall : ∀ token ∈ tokens, IsToken token) (hadd : t.add (definitionText name tokens) = .ok t')
    (side : Side) (marks : Marks)
    (hsign : marks.negative = true → ∀ c ∈ name.toList.head?, isBlank c = false) :
    ∃ a b, Automaton.ofText t' side (marks.around name) = .ok a ∧
      Automaton.ofText t' side (marks.around (choiceText tokens)) = .ok b ∧
        ∀ target first, a.ends target first = b.ends target first := by
  obtain ⟨before, x, after, hparts, hne, hbefore, hx, hafter, hdefine⟩ :=
    define_of_add (fun hmem => (hname _ hmem).2 rfl) hall hadd
  have hsplit : ∀ token ∈ tokens, t'.segmenter.split token ≠ [] := fun token htoken =>
    Segmenter.split_ne_nil (hall token htoken).blank (hall token htoken).ne_empty
  obtain ⟨hmem, hfind⟩ := find?_define hdefine hsplit
  have hcontains : t'.contains x = true := Option.isSome_iff_exists.mpr ⟨_, hfind⟩
  have hordinary : ∀ c ∈ x.toList, Lexeme.isOrdinary c = true := by
    intro c hc
    have hwhole : c ∈ name.toList := by
      rw [hparts]
      exact List.mem_append_left _ (List.mem_append_right _ hc)
    exact isOrdinary_of_isReserved (hx c hc) (hname c hwhole).1
  have hstart : marks.negative = true → before = [] := by
    intro hnegative
    cases hcases : before with
    | nil => rfl
    | cons c cs =>
      have hblank := hbefore c (by simp [hcases])
      rw [hsign hnegative c (by simp [hparts, hcases])] at hblank
      cases hblank
  have hleft := Pattern.ofText_name hparts hne hordinary hbefore hafter hmem hcontains hstart
  have hright : Pattern.ofText t' (marks.around (choiceText tokens)) =
      .ok [t'.choiceOf tokens marks] := Pattern.ofText_choiceText htokens hall
  have hleftcheck : Pattern.check t' side [.terminal (.reference x) marks] = .ok () :=
    Pattern.check_singleton.mpr (checkItem_reference hcontains)
  have hrightcheck : Pattern.check t' side [t'.choiceOf tokens marks] = .ok () :=
    Pattern.check_singleton.mpr (checkItem_choiceOf htokens)
  obtain ⟨a, ha, hafinds⟩ := Automaton.exists_ofText_finds hleft hleftcheck
  obtain ⟨b, hb, hbfinds⟩ := Automaton.exists_ofText_finds hright hrightcheck
  refine ⟨a, b, ha, hb, hafinds.ends_eq hbfinds fun target => ?_⟩
  have hreads : (t'.choiceOf tokens marks).Reads t' side target =
      (Expression.terminal (.reference x) marks).Reads t' side target :=
    reads_choiceOf hfind marks
  rw [Pattern.Reads, Pattern.Reads, Expression.passages_eq_map, Expression.passages_eq_map,
    List.map_singleton, List.map_singleton, hreads]

theorem ends_choiceText_negated : ∃ t', (empty .empty).add "V = a be" = .ok t' ∧
    ∃ a b, Automaton.ofText t' .left "!V*" = .ok a ∧
      Automaton.ofText t' .left "!\x7ba be\x7d*" = .ok b ∧
        ∀ target first, a.ends target first = b.ends target first := by
  have hok : ((empty .empty).add "V = a be").isOk = true := by decide +kernel
  cases h : (empty .empty).add "V = a be" with
  | error =>
    rw [h] at hok
    cases hok
  | ok t' =>
    have hadd : (empty .empty).add (definitionText "V" ["a", "be"]) = .ok t' := h
    have hname : ∀ c ∈ "V".toList, (isReserved c = false ∧ c ≠ '=') ∧ isBlank c = false := by
      intro c hc
      obtain rfl : c = 'V' := by simpa using hc
      decide
    exact ⟨t', rfl, ends_choiceText (fun c hc => (hname c hc).1) (by decide) (by decide) hadd
      .left ⟨.star, true⟩ fun _ c hc => (hname c (List.mem_of_head? hc)).2⟩

/-- A definition is cut at its first equals sign, and an exclamation mark must touch its item. -/
theorem not_ends_choiceText :
    (∃ t' a b, (empty .empty).add "a=b = c" = .ok t' ∧ Automaton.ofText t' .right "a=b" = .ok a ∧
      Automaton.ofText t' .right "\x7bc\x7d" = .ok b ∧
        a.ends [FeatureModel.empty.resolve "c"] 0 ≠ b.ends [FeatureModel.empty.resolve "c"] 0) ∧
    ∃ t' b, (empty .empty).add " V = c" = .ok t' ∧
      (∀ a, Automaton.ofText t' .right "! V" ≠ .ok a) ∧
        Automaton.ofText t' .right "!\x7bc\x7d" = .ok b := by
  constructor
  · have hends : (do
        let t' ← ((empty .empty).add "a=b = c").toOption
        let a ← (Automaton.ofText t' .right "a=b").toOption
        let b ← (Automaton.ofText t' .right "\x7bc\x7d").toOption
        return (a.ends [FeatureModel.empty.resolve "c"] 0,
          b.ends [FeatureModel.empty.resolve "c"] 0)) = some ([], [1]) := by decide +kernel
    simp only [Option.bind_eq_bind, Option.bind_eq_some_iff, toOption_eq_some] at hends
    obtain ⟨t', ht', a, ha, b, hb, hends⟩ := hends
    obtain ⟨hnone, hone⟩ := Prod.mk.inj (Option.some.inj hends)
    refine ⟨t', a, b, ht', ha, hb, ?_⟩
    rw [hnone, hone]
    decide
  · have hread : (do
        let t' ← ((empty .empty).add " V = c").toOption
        let b ← (Automaton.ofText t' .right "!\x7bc\x7d").toOption
        return (Automaton.ofText t' .right "! V").isOk) = some false := by decide +kernel
    simp only [Option.bind_eq_bind, Option.bind_eq_some_iff, toOption_eq_some] at hread
    obtain ⟨t', ht', b, hb, hread⟩ := hread
    refine ⟨t', b, ht', fun a ha => ?_, hb⟩
    rw [ha] at hread
    cases Option.some.inj hread

end MacroTable

end SoundLaw
