import Mathlib.Data.List.Infix
import SoundLaw.Proofs.Descriptors
import SoundLaw.Proofs.Printing.Spacing

/-!
# The text of a fault

A fault is reported with the text of some lexemes, and these are put together anew at every depth:
between two brackets, in an alternative, in what was read of a row. What has to be kept on the way
is that a row stands within the lexemes of the pattern without gaps and that the lexemes still to
be read are its beginning. Then every text that is reported stands in the rendered pattern, and so
do the entries of its bundles. A text that cannot be broken into lexemes is reported as a whole.
-/

namespace SoundLaw
set_option autoImplicit false
open Text

/-! ### Pieces -/

theorem infix_intercalate_of_mem {α : Type} {row : List α} {rows : List (List α)}
    (sep : List α) (h : row ∈ rows) : row <:+: sep.intercalate rows := by
  induction rows with
  | nil => cases h
  | cons first rows ih =>
    cases rows with
    | nil =>
      obtain rfl := List.mem_singleton.mp h
      rw [List.intercalate_singleton]
    | cons next rows =>
      rw [List.intercalate_cons_cons]
      rcases List.mem_cons.mp h with rfl | h
      · rw [List.append_assoc]
        exact List.infix_append_left
      · exact (ih h).trans List.infix_append_right

namespace Text

theorem infix_trim (cs : List Char) : trim cs <:+: cs := by
  obtain ⟨before, after, hcs, -, -⟩ := exists_blanks_of_trim cs
  exact ⟨before, after, hcs.symm⟩

theorem infix_of_mem_splitAt {sep : Char} {cs part : List Char} (h : part ∈ splitAt sep cs) :
    part <:+: cs := by
  rw [splitAt_eq_splitOn] at h
  have hpart := infix_intercalate_of_mem [sep] h
  rwa [List.intercalate_splitOn] at hpart

end Text

namespace Schema

theorem infix_unbracket (descriptor : List Char) : unbracket descriptor <:+: descriptor := by
  refine List.IsInfix.trans ?_ (infix_trim descriptor)
  unfold unbracket
  dsimp only
  split
  · rename_i inner htrim
    rw [htrim]
    split
    · exact (List.dropLast_prefix inner).isInfix.trans (List.suffix_cons '[' inner).isInfix
    · exact List.infix_rfl
  · exact List.infix_rfl

theorem infix_of_mem_entryTexts {descriptor e : List Char} (h : e ∈ entryTexts descriptor) :
    e <:+: descriptor := by
  obtain ⟨part, hpart, rfl⟩ := List.mem_map.mp (List.mem_filter.mp h).1
  exact ((infix_trim part).trans (infix_of_mem_splitAt hpart)).trans (infix_unbracket descriptor)

end Schema

theorem Lexeme.infix_render {piece lexemes : List Lexeme} (h : piece <:+: lexemes) :
    (render piece).toList <:+: (render lexemes).toList := by
  obtain ⟨before, after, rfl⟩ := h
  rw [render_append, render_append, String.toList_append, String.toList_append]
  exact List.infix_append _ _ _

/-! ### What faults show -/

/-- A fault found among lexemes, and the text that it is reported with, which is a piece of them put
together or an entry of a bundle. -/
inductive Pattern.Shows (m : FeatureModel) (lexemes : List Lexeme) : Fault → String → Prop
  | bracket {piece : List Lexeme} (within : piece <:+: lexemes)
    (held : ∃ b, .opening b ∈ piece ∨ .closing b ∈ piece) :
    Shows m lexemes (.pattern (.unmatchedBracket (Lexeme.render piece))) (Lexeme.render piece)
  | mark {piece : List Lexeme} (within : piece <:+: lexemes)
    (held : .negation ∈ piece ∨ ∃ q, .quantifier q ∈ piece) :
    Shows m lexemes (.pattern (.danglingMark (Lexeme.render piece))) (Lexeme.render piece)
  | choice {inner : List Lexeme}
    (within : .opening .curly :: inner ++ [.closing .curly] <:+: lexemes)
    (blank : ∀ l ∈ inner, l = .space) : Shows m lexemes
      (.pattern (.emptyAlternation (Lexeme.render (.opening .curly :: inner ++ [.closing .curly]))))
      (Lexeme.render (.opening .curly :: inner ++ [.closing .curly]))
  | entry {descriptor : String} {e : List Char} (within : .atom (.bundle descriptor) ∈ lexemes)
    (listed : e ∈ Schema.entryTexts descriptor.toList) (faulty : m.schema.Faulty e) :
    Shows m lexemes (.rule (Schema.unknown e)) (String.ofList e)

namespace Pattern
variable {m : FeatureModel} {lexemes row before : List Lexeme} {waiting : Option Quantifier}
variable {fault : Fault} {text : String}

theorem Shows.infix_text (h : Shows m lexemes fault text) :
    text.toList <:+: (Lexeme.render lexemes).toList := by
  cases h with
  | bracket hwithin | mark hwithin | choice hwithin => exact Lexeme.infix_render hwithin
  | @entry descriptor e hwithin hlisted =>
    have hdescriptor := Lexeme.infix_render ((List.singleton_infix_iff _ _).mpr hwithin)
    have hrender : Lexeme.render [.atom (.bundle descriptor)] = descriptor := by
      simp [Lexeme.render, Lexeme.text, Atom.text]
    rw [hrender] at hdescriptor
    rw [String.toList_ofList]
    exact (Schema.infix_of_mem_entryTexts hlisted).trans hdescriptor

/-! ### Reading with a fault -/

theorem takeNegation_suffix (before : List Lexeme) : (takeNegation before).2 <:+ before := by
  unfold takeNegation
  split
  · exact List.suffix_cons _ _
  · exact List.suffix_rfl

theorem infix_of_mem_alternativesOf {inner : List Lexeme} (h : row ∈ alternativesOf inner) :
    row <:+: inner := by
  have hrow := infix_intercalate_of_mem [Lexeme.space] (List.mem_filter.mp h).1
  rwa [intercalate_cutAtSpaces] at hrow

theorem forall_eq_space_of_alternativesOf {inner : List Lexeme}
    (h : (alternativesOf inner).isEmpty) : ∀ l ∈ inner, l = .space := by
  have hparts : ∀ part ∈ cutAtSpaces 0 inner, part = [] := by
    simpa [alternativesOf] using h
  rw [← intercalate_cutAtSpaces 0 inner]
  refine forall_mem_intercalate rfl fun part hpart => ?_
  rw [hparts part hpart]
  exact List.forall_mem_nil _

theorem shows_of_ofAtom {a : Atom} (hatom : .atom a ∈ lexemes)
    (h : Terminal.ofAtom m a = .error fault) : Shows m lexemes fault fault.text := by
  cases a with
  | boundary | wildcard | name | symbol => cases h
  | bundle descriptor =>
    rw [Terminal.ofAtom, ModelDraft.resolveBundle_eq] at h
    cases hread : m.schema.assignments descriptor with
    | ok assignments =>
      rw [hread] at h
      cases h
    | error f =>
      rw [hread] at h
      cases h
      obtain ⟨before, e, after, hentries, -, hfaulty, rfl⟩ :=
        Schema.assignmentsOf_eq_error_iff.mp hread
      refine .entry hatom ?_ hfaulty
      rw [hentries]
      exact List.mem_append_right before List.mem_cons_self

/-- A row of lexemes that is being read towards its beginning, and what is left of it. -/
structure IsReading (lexemes row before : List Lexeme) (waiting : Option Quantifier) : Prop where
  within : row <:+: lexemes
  left : before <:+ row.reverse
  mark : ∀ q ∈ waiting, .quantifier q ∈ row

namespace IsReading

theorem start (h : row <:+: lexemes) : IsReading lexemes row row.reverse none :=
  ⟨h, List.suffix_rfl, nofun⟩

theorem mem {l : Lexeme} (h : IsReading lexemes row before waiting) (hl : l ∈ before) : l ∈ row :=
  List.mem_reverse.mp (h.left.subset hl)

/-- Less is left after an item, and no quantifier waits. -/
theorem next {rest : List Lexeme} (h : IsReading lexemes row before waiting)
    (hrest : rest <:+ before) : IsReading lexemes row rest none :=
  ⟨h.within, hrest.trans h.left, nofun⟩

theorem front (h : IsReading lexemes row before waiting) : before.reverse <:+: lexemes := by
  have hprefix := List.reverse_prefix.mpr h.left
  rw [List.reverse_reverse] at hprefix
  exact hprefix.isInfix.trans h.within

theorem dangling (h : IsReading lexemes row before waiting) (hwaiting : waiting.isSome) :
    Shows m lexemes (.pattern (.danglingMark (Lexeme.render row))) (Lexeme.render row) := by
  obtain ⟨q, hq⟩ := Option.isSome_iff_exists.mp hwaiting
  exact .mark h.within (.inr ⟨q, h.mark q hq⟩)

section Brackets
variable {closer : Bracket} {b : Bracketed}
variable (h : IsReading lexemes row (.closing closer :: before) waiting)
variable (hfind : findOpening 0 [] before = some b)
include h hfind

theorem enclosed : .opening b.bracket :: b.inner ++ [.closing closer] <:+: lexemes := by
  have hfront := h.front
  rw [reverse_of_findOpening closer hfind] at hfront
  exact List.infix_append_right.trans hfront

theorem inner : b.inner <:+: lexemes :=
  (List.infix_append [Lexeme.opening b.bracket] b.inner [.closing closer]).trans (h.enclosed hfind)

theorem behindBracket : IsReading lexemes row (takeNegation b.before).2 none := by
  refine h.next ((takeNegation_suffix b.before).trans ?_)
  have hbefore : before.reverse = b.before.reverse ++ .opening b.bracket :: b.inner := by
    simpa using eq_of_findOpening hfind
  refine List.IsSuffix.trans ?_ (List.suffix_cons _ before)
  rw [← List.reverse_prefix, hbefore]
  exact List.prefix_append _ _

end Brackets

end IsReading

theorem shows_of_readRow {behind : Pattern} : IsReading lexemes row before waiting →
    readRow m row before waiting behind = .error fault → Shows m lexemes fault fault.text := by
  revert fault
  apply readRow.induct
    (fun row before waiting behind => ∀ fault, IsReading lexemes row before waiting →
      readRow m row before waiting behind = .error fault → Shows m lexemes fault fault.text)
    (fun rows => ∀ fault, (∀ row ∈ rows, row <:+: lexemes) →
      readAlternatives m rows = .error fault → Shows m lexemes fault fault.text)
  case case1 =>
    intro row waiting behind hw fault hreading h
    rw [readRow, if_pos hw] at h
    cases h
    exact hreading.dangling hw
  case case2 =>
    intro row waiting behind hw fault hreading h
    rw [readRow, if_neg hw] at h
    cases h
  case case3 =>
    intro row waiting behind before ih fault hreading h
    rw [readRow] at h
    exact ih fault ⟨hreading.within, (List.suffix_cons _ _).trans hreading.left, hreading.mark⟩ h
  case case4 =>
    intro row waiting behind q before hw fault hreading h
    rw [readRow, if_pos hw] at h
    cases h
    exact hreading.dangling hw
  case case5 =>
    intro row waiting behind q before hw ih fault hreading h
    rw [readRow, if_neg hw] at h
    refine ih fault ⟨hreading.within, (List.suffix_cons _ _).trans hreading.left, ?_⟩ h
    intro q' hq'
    obtain rfl := Option.some.inj hq'
    exact hreading.mem List.mem_cons_self
  case case6 =>
    intro row waiting behind before fault hreading h
    rw [readRow] at h
    cases h
    exact .mark hreading.within (.inl (hreading.mem List.mem_cons_self))
  case case7 =>
    intro row waiting behind bracket before fault hreading h
    rw [readRow] at h
    cases h
    exact .bracket hreading.within ⟨bracket, .inl (hreading.mem List.mem_cons_self)⟩
  case case8 =>
    intro row waiting behind bracket before hfind fault hreading h
    rw [readRow_unopened hfind] at h
    cases h
    have hfront := hreading.front
    rw [List.reverse_cons] at hfront
    exact .bracket hfront ⟨bracket, .inr (by simp)⟩
  case case9 =>
    intro row waiting behind bracket before b hfind _ _ _ hb fault hreading h
    rw [readRow_mismatch hfind hb] at h
    cases h
    exact .bracket (hreading.enclosed hfind) ⟨bracket, .inr (by simp)⟩
  case case10 =>
    intro row waiting behind before b hfind _ _ _ marks hb ihinner ih fault hreading h
    rw [readRow_round hfind (Classical.not_not.mp hb)] at h
    rcases bind_eq_error.mp h with h | ⟨children, -, h⟩
    · exact ihinner fault (.start (hreading.inner hfind)) h
    · exact ih children fault (hreading.behindBracket hfind) h
  case case11 =>
    intro row waiting behind before b hfind _ _ _ hnone hb fault hreading h
    have hcurly := Classical.not_not.mp hb
    rw [readRow_curly_empty hfind hcurly hnone] at h
    cases h
    have henclosed := hreading.enclosed hfind
    rw [hcurly] at henclosed ⊢
    exact .choice henclosed (forall_eq_space_of_alternativesOf hnone)
  case case12 =>
    intro row waiting behind before b hfind _ _ _ marks hsome hb ihinner ih fault hreading h
    rw [readRow_curly hfind (Classical.not_not.mp hb) hsome] at h
    rcases bind_eq_error.mp h with h | ⟨alternatives, -, h⟩
    · refine ihinner fault (fun row hrow => ?_) h
      exact (infix_of_mem_alternativesOf hrow).trans (hreading.inner hfind)
    · exact ih alternatives fault (hreading.behindBracket hfind) h
  case case13 =>
    intro row waiting behind a before ih fault hreading h
    rw [readRow] at h
    rcases bind_eq_error.mp h with h | ⟨t, -, h⟩
    · exact shows_of_ofAtom (hreading.within.subset (hreading.mem List.mem_cons_self)) h
    · refine ih t fault (hreading.next ?_) h
      exact (takeNegation_suffix before).trans (List.suffix_cons _ _)
  case case14 =>
    intro fault _ h
    rw [readAlternatives] at h
    cases h
  case case15 =>
    intro row rows ih ihrows fault hrows h
    obtain ⟨hrow, hrows⟩ := List.forall_mem_cons.mp hrows
    rw [readAlternatives] at h
    rcases bind_eq_error.mp h with h | ⟨children, -, h⟩
    · exact ih fault (.start hrow) h
    · rcases bind_eq_error.mp h with h | ⟨others, -, h⟩
      · exact ihrows fault hrows h
      · cases h

end Pattern

/-! ### Texts -/

theorem Lexeme.eq_of_scan_eq_error {macros : MacroTable} {whole : String} {cs : List Char}
    {fault : PatternFault} (h : scan macros whole cs = .error fault) :
    fault = .unmatchedBracket (trimmed whole) := by
  fun_induction scan macros whole cs with
  | case1 => cases h
  | case2 | case3 => exact (Except.error.inj h).symm
  | case4 | case5 | case6 =>
    rename_i ih
    rcases bind_eq_error.mp h with h | ⟨_, -, h⟩
    · exact ih h
    · cases h

namespace Pattern
variable {macros : MacroTable} {text : String} {fault : Fault}

/-- A refused text is reported with a piece of itself if it has a bracket outside of bundles that
belongs to none. Otherwise it has lexemes, and the text of the fault is a piece of them put together
or an entry of one of their bundles; in either case it stands in what they are rendered as, which is
the text with single spaces between its words. -/
theorem ofText_fault_text (h : ofText macros text = .error fault) :
    ((¬ ∃ pieces, Lexeme.TakenApart text.toList pieces) ∧
        fault = .pattern (.unmatchedBracket (trimmed text)) ∧ fault.text = trimmed text ∧
        fault.text.toList <:+: text.toList) ∨
      ∃ lexemes pieces, Lexeme.ofText macros text = .ok lexemes ∧
        Lexeme.TakenApart text.toList pieces ∧ Lexeme.render lexemes = Lexeme.tidy pieces ∧
        Shows macros.model lexemes fault fault.text ∧
        fault.text.toList <:+: (Lexeme.render lexemes).toList := by
  rcases bind_eq_error.mp h with h | ⟨lexemes, hlexemes, h⟩
  · left
    obtain ⟨f, hf, rfl⟩ := mapError_eq_error.mp h
    rcases bind_eq_error.mp hf with hscan | ⟨ls, -, hf⟩
    · obtain rfl := Lexeme.eq_of_scan_eq_error hscan
      refine ⟨?_, rfl, rfl, ?_⟩
      · rintro ⟨pieces, hpieces⟩
        obtain ⟨ls, hls, -⟩ := Lexeme.exists_scan_of_takenApart macros text hpieces
        cases hscan.symm.trans hls
      · have htext : (Fault.pattern (.unmatchedBracket (trimmed text))).text.toList =
            trim text.toList := String.toList_ofList
        rw [htext]
        exact infix_trim text.toList
    · cases hf
  · right
    have hlexemes := mapError_eq_ok.mp hlexemes
    obtain ⟨ls, hls, -⟩ := bind_eq_ok.mp hlexemes
    obtain ⟨pieces, hpieces⟩ := Lexeme.exists_takenApart_of_scan hls
    have hshows : Shows macros.model lexemes fault fault.text :=
      shows_of_readRow (.start List.infix_rfl) h
    exact ⟨lexemes, pieces, hlexemes, hpieces, Lexeme.render_of_takenApart hlexemes hpieces,
      hshows, hshows.infix_text⟩

theorem ofText_fault_text_nested :
    let macros : MacroTable := .empty .empty
    (ofText macros " a  (b \x7bc (d+ \x7b   \x7d) e\x7d)*" =
        .error (.pattern (.emptyAlternation "\x7b \x7d")) ∧
      ∃ lexemes, Lexeme.ofText macros " a  (b \x7bc (d+ \x7b   \x7d) e\x7d)*" = .ok lexemes ∧
        "\x7b \x7d".toList <:+: (Lexeme.render lexemes).toList) ∧
    (ofText macros "(\x7ba  !b[x, + voice ]\x7d)" = .error (.rule (.unknownFeature "x")) ∧
      ∃ lexemes, Lexeme.ofText macros "(\x7ba  !b[x, + voice ]\x7d)" = .ok lexemes ∧
        Shows macros.model lexemes (.rule (.unknownFeature "x")) "x") ∧
    ofText macros " a (b] " = .error (.pattern (.unmatchedBracket "a (b]")) ∧
      "a (b]".toList <:+: " a (b] ".toList := by
  have hempty : ofText (.empty .empty) " a  (b \x7bc (d+ \x7b   \x7d) e\x7d)*" =
      .error (.pattern (.emptyAlternation "\x7b \x7d")) := by with_unfolding_all rfl
  have hbundle : ofText (.empty .empty) "(\x7ba  !b[x, + voice ]\x7d)" =
      .error (.rule (.unknownFeature "x")) := by with_unfolding_all rfl
  have hbracket : ofText (.empty .empty) " a (b] " =
      .error (.pattern (.unmatchedBracket "a (b]")) := by with_unfolding_all rfl
  refine ⟨⟨hempty, ?_⟩, ⟨hbundle, ?_⟩, hbracket, ?_⟩
  · rcases ofText_fault_text hempty with ⟨-, hwhole, -⟩ | ⟨lexemes, _, hlexemes, -, -, -, hpiece⟩
    · cases hwhole
    · exact ⟨lexemes, hlexemes, hpiece⟩
  · rcases ofText_fault_text hbundle with ⟨-, hwhole, -⟩ | ⟨lexemes, _, hlexemes, -, -, hshows, -⟩
    · cases hwhole
    · exact ⟨lexemes, hlexemes, hshows⟩
  · rcases ofText_fault_text hbracket with ⟨-, -, -, hpiece⟩ | ⟨lexemes, _, hlexemes, -⟩
    · exact hpiece
    · have hlexing : Lexeme.ofText (.empty .empty) " a (b] " =
          .error (.unmatchedBracket "a (b]") := by with_unfolding_all rfl
      cases hlexing.symm.trans hlexemes

end Pattern

end SoundLaw
