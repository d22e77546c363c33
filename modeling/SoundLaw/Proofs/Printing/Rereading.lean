import SoundLaw.Proofs.Printing.EmptyGroups

/-!
# Printing and reading again

A pattern is printed as the text of lexemes that spell it, with its alternatives unwrapped. So the
text is read as a pattern with the same meaning, unless the printer loses something. That happens
in two ways: an alternative that is a group of nothing leaves no text at all between the braces,
and symbols that only a space held apart can be taken for others.
-/

namespace SoundLaw
set_option autoImplicit false

theorem Spells.unit_ne_nil {leaf : Atom → Terminal → Prop} {ls : List Lexeme} {p : Pattern}
    (h : Spells leaf .unit ls p) : ls ≠ [] := by
  cases h <;> exact List.cons_ne_nil _ _

/-! ### Lexemes that stay as they are -/

namespace Lexeme.Steady

theorem signLexemes (negative : Bool) : Steady (signLexemes negative) := by
  cases negative with
  | false => exact nil
  | true => exact single nofun

theorem quantifier (q : Quantifier) : Steady q.lexemes := by
  cases q with
  | one => exact nil
  | optional | star | plus => exact single nofun

end Lexeme.Steady

/-- Lexemes that spell a phrase and of which no space is dropped where they are found. -/
structure Written (macros : MacroTable) (phrase : Phrase) (ls : List Lexeme) (p : Pattern) :
    Prop where
  spells : Spells (Atom.Denotes macros.model) phrase ls p
  steady : Lexeme.Steady ls
  begins : ls.head? ≠ some .space

namespace Written
variable {macros : MacroTable} {loose : Bool} {ls core rest : List Lexeme} {p : Pattern}
variable {e : Expression}

theorem nil : Written macros (.row loose) [] [] := ⟨.nil, .nil, nofun⟩

theorem atom {t : Terminal} (h : t.IsRead macros) :
    Written macros .unit [.atom t.atom] [.terminal t {}] :=
  ⟨.atom h.denotes, .single nofun, nofun⟩

theorem round (h : Written macros (.row true) ls p) :
    Written macros .unit (.opening .round :: ls ++ [.closing .round]) [.group p {}] where
  spells := .round h.spells
  steady := .append (.append (a := [.opening .round]) (.single nofun) h.steady) (.single nofun)
  begins := nofun

/-- Rows with something in them are alternatives. -/
theorem curly {es : List Expression} {r : Expression → List Lexeme} {f : Expression → Expression}
    (hes : es ≠ []) (h : ∀ e ∈ es, r e ≠ [] ∧ ∃ children,
      Written macros (.row false) (r e) children ∧ f e = children.unify) :
    Written macros .unit
      (.opening .curly :: [Lexeme.space].intercalate (es.map r) ++ [.closing .curly])
      [.alternation (es.map f) {}] where
  spells := by
    refine .curly (spells_choice ?_) (by simpa using hes)
    rw [List.filter_eq_self.mpr]
    · rw [List.forall₂_map_left_iff, List.forall₂_map_right_iff, List.forall₂_same]
      intro e he
      obtain ⟨-, children, hwritten, hf⟩ := h e he
      exact ⟨children, hwritten.spells, hf⟩
    · intro ls hls
      obtain ⟨e, he, rfl⟩ := List.mem_map.mp hls
      simpa using (h e he).1
  steady := by
    refine .append (.append (a := [.opening .curly]) (.single nofun) (.intercalate ?_))
      (.single nofun)
    rintro ls hls
    obtain ⟨e, he, rfl⟩ := List.mem_map.mp hls
    obtain ⟨hne, children, hwritten, -⟩ := h e he
    obtain ⟨l, rest, hrow⟩ := List.exists_cons_of_ne_nil hne
    refine ⟨hwritten.steady, l, rest, hrow, fun hl => hwritten.begins ?_⟩
    rw [hrow, hl]
    rfl
  begins := nofun

theorem row_ne_nil (h : Written macros (.row loose) ls p) (hp : p ≠ []) : ls ≠ [] := by
  obtain ⟨hspells, -, -⟩ := h
  cases hspells with
  | nil => exact absurd rfl hp
  | space => exact List.cons_ne_nil _ _
  | item hcore =>
    simp [hcore.unit_ne_nil]

theorem item (hcore : Written macros .unit core [e]) (m : Marks)
    (hrest : Written macros (.row loose) rest p) :
    Written macros (.row loose)
      (signLexemes m.negative ++ core ++ m.quantifier.lexemes ++ rest) (e.withMarks m :: p) where
  spells := by
    obtain ⟨q, hq, hm⟩ := m.quantifier.exists_repeats loose
    have hitem : Spells _ _ _ (e.withMarks ⟨q.getD .one, m.negative⟩ :: p) :=
      .item hcore.spells hq hrest.spells
    rwa [hm] at hitem
  steady := .append (.append (.append (.signLexemes _) hcore.steady) (.quantifier _)) hrest.steady
  begins := by
    cases m.negative with
    | true => exact nofun
    | false =>
      rw [List.append_assoc, List.append_assoc, signLexemes, if_neg Bool.false_ne_true,
        List.nil_append, List.head?_append_of_ne_nil _ hcore.spells.unit_ne_nil]
      exact hcore.begins

end Written

/-! ### What printed lexemes spell -/

namespace Expression
variable {macros : MacroTable} {e : Expression} {es : List Expression}

/-- What an expression is printed as without its marks spells it with its alternatives unwrapped:
the items of a group, or else a unit. -/
def IsWritten (macros : MacroTable) : Expression → Prop
  | group children _ => ∀ loose, Written macros (.row loose) (sequenceLexemes children)
    (unwrappedRow children)
  | e => Written macros .unit e.innerLexemes [e.unwrapped.bare]

theorem withMarks_bare (e : Expression) : e.bare.withMarks e.marks = e := by
  cases e <;> rfl

@[simp] theorem marks_unwrapped (e : Expression) : e.unwrapped.marks = e.marks := by
  cases e <;> rfl

theorem IsWritten.unit (h : e.IsWritten macros) :
    Written macros .unit
      (if e.isGroup then .opening .round :: e.innerLexemes ++ [.closing .round]
        else e.innerLexemes) [e.unwrapped.bare] := by
  cases e with
  | terminal | alternation => exact h
  | group children m => exact (h true).round

theorem IsWritten.item {loose : Bool} {rest : List Lexeme} {p : Pattern} (h : e.IsWritten macros)
    (hrest : Written macros (.row loose) rest p) :
    Written macros (.row loose) (e.dressLexemes e.innerLexemes ++ rest) (e.unwrapped :: p) := by
  have hitem := h.unit.item e.marks hrest
  rwa [← marks_unwrapped, withMarks_bare, marks_unwrapped] at hitem

theorem written_sequenceLexemes (h : ∀ e ∈ es, e.IsWritten macros) (loose : Bool) :
    Written macros (.row loose) (sequenceLexemes es) (unwrappedRow es) := by
  induction es with
  | nil => exact .nil
  | cons e es ih =>
    obtain ⟨he, hes⟩ := List.forall_mem_cons.mp h
    exact he.item (ih hes)

/-- An alternative that is not lost is printed as a row, which is read as the alternative
unwrapped. -/
theorem IsWritten.alternative (h : e.IsWritten macros)
    (hkept : e.isBareGroup = true → e.children ≠ []) :
    e.dressAlternativeLexemes e.innerLexemes ≠ [] ∧ ∃ children,
      Written macros (.row false) (e.dressAlternativeLexemes e.innerLexemes) children ∧
      e.unwrapped.unwrap = children.unify := by
  unfold dressAlternativeLexemes unwrap
  rw [isBareGroup_unwrapped]
  split
  · rename_i hbare
    obtain ⟨children, rfl⟩ := isBareGroup_iff.mp hbare
    have hchildren : children ≠ [] := hkept hbare
    have hne : unwrappedRow children ≠ [] := by
      rwa [unwrappedRow_eq_map, ne_eq, List.map_eq_nil_iff]
    exact ⟨(h false).row_ne_nil hne, unwrappedRow children, h false, rfl⟩
  · have hitem : Written macros (.row false) _ [e.unwrapped] := h.item .nil
    rw [List.append_nil] at hitem
    exact ⟨hitem.row_ne_nil (List.cons_ne_nil _ _), [e.unwrapped], hitem, rfl⟩

theorem isWritten_of_isRead (hread : ∀ t ∈ e.leaves, t.IsRead macros)
    (hchoice : e.Everywhere HasChoice) (hlost : e.lostAlternatives = 0) : e.IsWritten macros := by
  induction e using Expression.induct with
  | terminal t m => exact .atom (hread t List.mem_cons_self)
  | group children m ih =>
    rw [leaves, leavesOfRow_eq_flatMap, List.forall_mem_flatMap] at hread
    rw [lostAlternatives, lostOfRow_eq_zero] at hlost
    obtain ⟨-, hchoice⟩ := hchoice
    exact written_sequenceLexemes fun e he => ih e he (hread e he) (hchoice e he) (hlost e he)
  | alternation alternatives m ih =>
    rw [leaves, leavesOfRow_eq_flatMap, List.forall_mem_flatMap] at hread
    rw [lostAlternatives, lostOfEach_eq_zero] at hlost
    obtain ⟨hne, hchoice⟩ := hchoice
    have hcurly : Written macros .unit _ [.alternation (alternatives.map _) {}] :=
      .curly hne fun e he => (ih e he (hread e he) (hchoice e he) (hlost e he).2).alternative
        (hlost e he).1
    rw [← alternativeLexemes_eq_map, ← unwrappedEach_eq_map] at hcurly
    exact hcurly

end Expression

/-! ### Printing a pattern that was read -/

namespace Pattern
variable {macros : MacroTable} {text : String} {p : Pattern}

theorem written_lexemes (h : ofText macros text = .ok p) (hlost : p.lostAlternatives = 0) :
    Written macros (.row true) p.lexemes p.unwrapped := by
  have hread := isRead_of_ofText h
  rw [leaves, Expression.leavesOfRow_eq_flatMap, List.forall_mem_flatMap] at hread
  exact Expression.written_sequenceLexemes (fun e he => Expression.isWritten_of_isRead
    (hread e he) (hasChoice_of_ofText h e he) (Expression.lostOfRow_eq_zero.mp hlost e he)) true

/-- The text of a pattern that was read is read as the pattern with its alternatives unwrapped
exactly when no alternative is lost and the symbols in it keep apart. -/
theorem ofText_text_iff (h : ofText macros text = .ok p) :
    ofText macros p.text = .ok p.unwrapped ↔
      p.lostAlternatives = 0 ∧ Lexeme.KeepApart macros p.lexemes := by
  have hread := isRead_of_ofText h
  have hfound := found_lexemes hread
  constructor
  · -- once the symbols keep apart, the lexemes that are found are known up to spaces
    intro hsame
    obtain ⟨ls, hls, hspells⟩ := bind_eq_ok.mp hsame
    rw [mapError_eq_ok, ← render_lexemes] at hls
    rw [ofLexemes_eq_ok_iff] at hspells
    have hsymbols : ls.filterMap Lexeme.symbol? = p.lexemes.filterMap Lexeme.symbol? := by
      rw [filterMap_symbol?_lexemes, ← leaves_unwrapped]
      exact hspells.filterMap_symbol? fun a t ha =>
        Terminal.atom_of_denotes (Lexeme.isFound_of_ofText hls _ ha)
    have hapart := Lexeme.keepApart_of_ofText_render hfound hls hsymbols
    rw [Lexeme.ofText_render hfound, Lexeme.recutFrom_eq hfound hapart] at hls
    refine ⟨lostAlternatives_eq_zero hspells ?_, hapart⟩
    rw [← Except.ok.inj hls, Lexeme.filter_squeeze, Lexeme.filter_dropWhile]
    rfl
  · rintro ⟨hlost, hapart⟩
    have hwritten := written_lexemes h hlost
    have hlexemes := Lexeme.ofText_render_eq hfound hapart hwritten.steady hwritten.begins
    rw [render_lexemes] at hlexemes
    rw [ofText, hlexemes]
    exact ofLexemes_eq_ok_iff.mpr hwritten.spells

end Pattern

namespace Automaton
variable {macros : MacroTable} {text : String} {p : Pattern}

/-- The text that an automaton shows is read as its pattern, with alternatives unwrapped, exactly
when no alternative is lost and the symbols keep apart; then it makes an automaton with the same
matches. -/
theorem ends_text (hp : Pattern.ofText macros text = .ok p) :
    (Pattern.ofText macros p.text = .ok p.unwrapped ↔
      p.lostAlternatives = 0 ∧ Lexeme.KeepApart macros p.lexemes) ∧
    ∀ side a, ofText macros side text = .ok a → a.text = p.text ∧
      (p.lostAlternatives = 0 ∧ Lexeme.KeepApart macros p.lexemes →
        ∃ b, ofText macros side a.text = .ok b ∧
          ∀ target first, a.ends target first = b.ends target first) := by
  have hiff := Pattern.ofText_text_iff hp
  refine ⟨hiff, fun side a ha => ?_⟩
  obtain ⟨hcheck, rfl⟩ : p.check macros side = .ok () ∧ a = build macros side p := by
    rw [ofText, hp] at ha
    exact ofPattern_eq_ok.mp (mapError_eq_ok.mp ha)
  refine ⟨rfl, fun hkept => ?_⟩
  obtain ⟨b, hb, hbfinds⟩ :=
    exists_ofText_finds (hiff.mpr hkept) (Pattern.check_unwrapped hcheck)
  have hafinds : (build macros side p).Finds macros side p :=
    finds_build (Pattern.hasChoice_of_ofText hp)
  exact ⟨b, hb, hafinds.ends_eq hbfinds fun target => Pattern.reads_unwrapped.symm⟩

/-- Groups that only hold an alternative together, and symbols that keep apart without spaces. -/
theorem ends_text_groups :
    ∃ p, Pattern.ofText (.empty .empty) "\x7b(a) (b c ?)\x7d d" = .ok p ∧
      p.text = "\x7ba bc?\x7dd" ∧
      Pattern.ofText (.empty .empty) p.text = .ok p.unwrapped ∧
      ∃ a b, ofText (.empty .empty) .left "\x7b(a) (b c ?)\x7d d" = .ok a ∧
        ofText (.empty .empty) .left a.text = .ok b ∧
        ∀ target first, a.ends target first = b.ends target first := by
  have hok : (do
      let p ← (Pattern.ofText (.empty .empty) "\x7b(a) (b c ?)\x7d d").toOption
      let a ← (ofText (.empty .empty) .left "\x7b(a) (b c ?)\x7d d").toOption
      return (p.text, p.lostAlternatives, decide (Lexeme.KeepApart (.empty .empty) p.lexemes))) =
        some ("\x7ba bc?\x7dd", 0, true) := by decide +kernel
  simp only [Option.bind_eq_bind, Option.bind_eq_some_iff, toOption_eq_some] at hok
  obtain ⟨p, hp, a, ha, hok⟩ := hok
  simp only [pure, Option.some.injEq, Prod.mk.injEq, decide_eq_true_eq] at hok
  obtain ⟨htext, hkept⟩ := hok
  obtain ⟨hiff, hends⟩ := ends_text hp
  obtain ⟨-, hsame⟩ := hends .left a ha
  obtain ⟨b, hb, hsame⟩ := hsame hkept
  exact ⟨p, hp, htext, hiff.mpr hkept, a, b, ha, hb, hsame⟩

/-- An alternative that is a group of nothing is lost, and a letter that modifies the one before
it is taken for a part of it. -/
theorem not_ends_text :
    (∃ a, ofText (.empty .empty) .right "\x7b()\x7d" = .ok a ∧
      ∀ b, ofText (.empty .empty) .right a.text ≠ .ok b) ∧
    ∃ a b, ofText (.empty .empty) .right "p ʰ" = .ok a ∧
      ofText (.empty .empty) .right a.text = .ok b ∧
        a.ends (["p", "ʰ"].map FeatureModel.empty.resolve) 0 ≠
          b.ends (["p", "ʰ"].map FeatureModel.empty.resolve) 0 := by
  constructor
  · have hread : (do
        let a ← (ofText (.empty .empty) .right "\x7b()\x7d").toOption
        return (ofText (.empty .empty) .right a.text).isOk) = some false := by decide +kernel
    simp only [Option.bind_eq_bind, Option.bind_eq_some_iff, toOption_eq_some] at hread
    obtain ⟨a, ha, hread⟩ := hread
    refine ⟨a, ha, fun b hb => ?_⟩
    rw [hb] at hread
    cases Option.some.inj hread
  · have hends : (do
        let a ← (ofText (.empty .empty) .right "p ʰ").toOption
        let b ← (ofText (.empty .empty) .right a.text).toOption
        return (a.ends (["p", "ʰ"].map FeatureModel.empty.resolve) 0,
          b.ends (["p", "ʰ"].map FeatureModel.empty.resolve) 0)) = some ([2], []) := by
      decide +kernel
    simp only [Option.bind_eq_bind, Option.bind_eq_some_iff, toOption_eq_some] at hends
    obtain ⟨a, ha, b, hb, hends⟩ := hends
    obtain ⟨htwo, hnone⟩ := Prod.mk.inj (Option.some.inj hends)
    refine ⟨a, b, ha, hb, ?_⟩
    rw [htwo, hnone]
    decide

end Automaton

end SoundLaw
