import Mathlib.Data.List.Forall2
import SoundLaw.Proofs.Parsing

/-!
# The grammar of patterns

Patterns have a grammar that says nothing about the order of reading. A row is loose or tight:
between braces a space ends an alternative, so alternatives are tight rows, while spaces may
stand between the items of a loose one and before their quantifiers. The grammar builds the
expressions of a pattern as it goes.

Whatever it derives is balanced, and has no cut where a tight row or an item stands. Conversely
the parts of a cut are tight.
-/

namespace SoundLaw
set_option autoImplicit false

/-- The kinds of phrases in a pattern. -/
inductive Phrase where
  | unit
  | row (loose : Bool)
  | choice

def signLexemes (negative : Bool) : List Lexeme := if negative then [.negation] else []

/-- The lexemes of a quantifier. In a loose row spaces may stand before it. -/
inductive Repeats (loose : Bool) : List Lexeme → Option Quantifier → Prop
  | once : Repeats loose [] none
  | mark {n : Nat} {q : Quantifier} : (n ≠ 0 → loose = true) →
    Repeats loose (List.replicate n .space ++ [.quantifier q]) (some q)

/-- The leaf that an atom becomes in the model. -/
def Atom.Denotes (m : FeatureModel) (a : Atom) (t : Terminal) : Prop :=
  Terminal.ofAtom m a = .ok t

/-- The lexemes spell a phrase that is made of the expressions, given what atoms stand for. -/
inductive Spells (leaf : Atom → Terminal → Prop) : Phrase → List Lexeme → Pattern → Prop
  | atom {a : Atom} {t : Terminal} : leaf a t → Spells leaf .unit [.atom a] [.terminal t {}]
  | round {inner : List Lexeme} {p : Pattern} : Spells leaf (.row true) inner p →
    Spells leaf .unit (.opening .round :: inner ++ [.closing .round]) [.group p {}]
  | curly {inner : List Lexeme} {p : Pattern} : Spells leaf .choice inner p → p ≠ [] →
    Spells leaf .unit (.opening .curly :: inner ++ [.closing .curly]) [.alternation p {}]
  | nil {loose : Bool} : Spells leaf (.row loose) [] []
  | space {rest : List Lexeme} {p : Pattern} : Spells leaf (.row true) rest p →
    Spells leaf (.row true) (.space :: rest) p
  | item {loose negative : Bool} {core suffix rest : List Lexeme} {e : Expression}
    {q : Option Quantifier} {p : Pattern} : Spells leaf .unit core [e] → Repeats loose suffix q →
    Spells leaf (.row loose) rest p →
    Spells leaf (.row loose) (signLexemes negative ++ core ++ suffix ++ rest)
      (e.withMarks ⟨q.getD .one, negative⟩ :: p)
  | none : Spells leaf .choice [] []
  | gap {rest : List Lexeme} {p : Pattern} : Spells leaf .choice rest p →
    Spells leaf .choice (.space :: rest) p
  | alternative {row rest : List Lexeme} {children p : Pattern} :
    Spells leaf (.row false) row children → row ≠ [] → (∀ l ∈ rest.head?, l = .space) →
    Spells leaf .choice rest p → Spells leaf .choice (row ++ rest) (children.unify :: p)

def IsRow (lexemes : List Lexeme) : Prop :=
  ∃ p, Spells (fun _ _ => True) (.row true) lexemes p

/-! ### Matching brackets -/

/-- A search for an opener passes over the lexemes and finds none of theirs. -/
def Balanced (ls : List Lexeme) : Prop :=
  ∀ depth passed before,
    findOpening depth passed (ls.reverse ++ before) = findOpening depth (ls ++ passed) before

namespace Balanced
variable {a b : List Lexeme}

theorem nil : Balanced [] := fun _ _ _ => rfl

theorem append (ha : Balanced a) (hb : Balanced b) : Balanced (a ++ b) := by
  intro depth passed before
  rw [List.reverse_append, List.append_assoc, hb, ha, List.append_assoc]

theorem enclose (ha : Balanced a) (opener closer : Bracket) :
    Balanced (.opening opener :: a ++ [.closing closer]) := by
  intro depth passed before
  have hclose : findOpening depth passed (.closing closer :: (a.reverse ++
      .opening opener :: before)) = findOpening (depth + 1) (.closing closer :: passed)
        (a.reverse ++ .opening opener :: before) := by
    rw [findOpening.eq_def]
  simp only [List.reverse_append, List.reverse_cons, List.append_assoc, List.cons_append,
    List.nil_append, List.reverse_nil]
  rw [hclose, ha, findOpening]

theorem single {l : Lexeme} (hopen : ∀ b, l ≠ .opening b) (hclose : ∀ b, l ≠ .closing b) :
    Balanced [l] := by
  intro depth passed before
  cases l with
  | opening b => exact absurd rfl (hopen b)
  | closing b => exact absurd rfl (hclose b)
  | quantifier | negation | space | atom => cases depth <;> rfl

theorem findOpening_eq (ha : Balanced a) (opener : Bracket) (before : List Lexeme) :
    findOpening 0 [] (a.reverse ++ .opening opener :: before) = some ⟨opener, a, before⟩ := by
  rw [ha, List.append_nil, findOpening]

end Balanced

theorem balanced_spaces (n : Nat) : Balanced (List.replicate n .space) := by
  induction n with
  | zero => exact .nil
  | succ n ih => exact .append (a := [.space]) (.single nofun nofun) ih

theorem balanced_signLexemes (negative : Bool) : Balanced (signLexemes negative) := by
  cases negative
  · exact .nil
  · exact .single nofun nofun

theorem Repeats.balanced {loose : Bool} {ls : List Lexeme} {q : Option Quantifier}
    (h : Repeats loose ls q) : Balanced ls := by
  cases h with
  | once => exact .nil
  | mark => exact (balanced_spaces _).append (.single nofun nofun)

theorem Spells.balanced {leaf : Atom → Terminal → Prop} {phrase : Phrase} {ls : List Lexeme}
    {p : Pattern} (h : Spells leaf phrase ls p) : Balanced ls := by
  induction h with
  | atom => exact .single nofun nofun
  | round _ ih => exact ih.enclose _ _
  | curly _ _ ih => exact ih.enclose _ _
  | nil => exact .nil
  | space _ ih => exact .append (a := [.space]) (.single nofun nofun) ih
  | item _ hrepeats _ ihcore ihrest =>
    exact (((balanced_signLexemes _).append ihcore).append hrepeats.balanced).append ihrest
  | none => exact .nil
  | gap _ ih => exact .append (a := [.space]) (.single nofun nofun) ih
  | alternative _ _ _ _ ihrow ihrest => exact ihrow.append ihrest

/-! ### Cuts at spaces -/

section Cuts
variable {depth : Nat} {l : Lexeme} {a b ls rest row : List Lexeme}

theorem cutAtSpaces_ne_nil (depth : Nat) (ls : List Lexeme) : cutAtSpaces depth ls ≠ [] := by
  cases ls with
  | nil => exact List.cons_ne_nil _ _
  | cons l rest =>
    rw [cutAtSpaces]
    split
    · exact List.cons_ne_nil _ _
    · split <;> exact List.cons_ne_nil _ _

theorem cutAtSpaces_space : cutAtSpaces 0 (.space :: rest) = [] :: cutAtSpaces 0 rest := by
  rw [cutAtSpaces, if_pos ⟨rfl, rfl⟩]

theorem cutAtSpaces_cons (hl : ¬ (l = .space ∧ depth = 0)) :
    cutAtSpaces depth (l :: rest) =
      (cutAtSpaces (depthBehind depth l) rest).modifyHead (l :: ·) := by
  obtain ⟨part, parts, hcut⟩ := List.exists_cons_of_ne_nil
    (cutAtSpaces_ne_nil (depthBehind depth l) rest)
  rw [cutAtSpaces, if_neg hl, hcut]
  rfl

theorem alternativesOf_space : alternativesOf (.space :: rest) = alternativesOf rest := by
  rw [alternativesOf, cutAtSpaces_space]
  rfl

/-- No cut is made among the lexemes when they stand at a depth. -/
def Uncut (depth : Nat) (ls : List Lexeme) : Prop :=
  ∀ rest, cutAtSpaces depth (ls ++ rest) = (cutAtSpaces depth rest).modifyHead (ls ++ ·)

namespace Uncut

theorem nil : Uncut depth [] := by
  intro rest
  exact (congrFun List.modifyHead_id _).symm

theorem append (ha : Uncut depth a) (hb : Uncut depth b) : Uncut depth (a ++ b) := by
  intro rest
  rw [List.append_assoc, ha, hb, List.modifyHead_modifyHead]
  congr 1
  funext part
  exact (List.append_assoc a b part).symm

theorem single (hl : ¬ (l = .space ∧ depth = 0)) (hdepth : depthBehind depth l = depth) :
    Uncut depth [l] := by
  intro rest
  rw [List.singleton_append, cutAtSpaces_cons hl, hdepth]
  rfl

theorem space (hdepth : depth ≠ 0) : Uncut depth [.space] :=
  single (fun h => hdepth h.2) rfl

theorem enclose (ha : Uncut (depth + 1) a) (opener closer : Bracket) :
    Uncut depth (.opening opener :: a ++ [.closing closer]) := by
  intro rest
  have hopen : ¬ (Lexeme.opening opener = .space ∧ depth = 0) := fun h => nomatch h.1
  have hclose : ¬ (Lexeme.closing closer = .space ∧ depth + 1 = 0) := fun h => nomatch h.1
  simp only [List.cons_append, List.append_assoc, List.nil_append]
  rw [cutAtSpaces_cons hopen, depthBehind, ha, cutAtSpaces_cons hclose, depthBehind,
    Nat.add_sub_cancel, List.modifyHead_modifyHead, List.modifyHead_modifyHead]
  rfl

/-- What follows lexemes without a cut has no cut of its own if the whole has none. -/
theorem cut_rest (ha : Uncut 0 a) (h : cutAtSpaces 0 (a ++ b) = [a ++ b]) :
    cutAtSpaces 0 b = [b] := by
  rw [ha] at h
  cases hcut : cutAtSpaces 0 b with
  | nil => exact absurd hcut (cutAtSpaces_ne_nil 0 b)
  | cons part parts =>
    rw [hcut, List.modifyHead_cons] at h
    obtain ⟨hpart, rfl⟩ := List.cons.inj h
    rw [List.append_cancel_left hpart]

end Uncut

theorem uncut_spaces (hdepth : depth ≠ 0) (n : Nat) : Uncut depth (List.replicate n .space) := by
  induction n with
  | zero => exact .nil
  | succ n ih => exact .append (a := [.space]) (.space hdepth) ih

theorem uncut_signLexemes (negative : Bool) : Uncut depth (signLexemes negative) := by
  cases negative
  · exact .nil
  · exact .single nofun rfl

theorem Repeats.uncut {loose : Bool} {q : Option Quantifier} (h : Repeats loose ls q)
    (hdepth : depth = 0 → loose = false) : Uncut depth ls := by
  cases h with
  | once => exact .nil
  | @mark n q hn =>
    refine .append ?_ (.single nofun rfl)
    by_cases hzero : n = 0
    · rw [hzero]
      exact .nil
    · refine uncut_spaces (fun h0 => ?_) n
      exact Bool.noConfusion ((hn hzero).symm.trans (hdepth h0))

/-- Inside brackets nothing is cut, and neither are items and tight rows outside. -/
theorem Spells.uncut {leaf : Atom → Terminal → Prop} {phrase : Phrase} {p : Pattern}
    (h : Spells leaf phrase ls p) :
    ∀ depth, (depth = 0 → phrase = .unit ∨ phrase = .row false) → Uncut depth ls := by
  induction h with
  | atom => exact fun _ _ => .single nofun rfl
  | round _ ih | curly _ _ ih => exact fun depth _ => (ih (depth + 1) nofun).enclose _ _
  | nil | none => exact fun _ _ => .nil
  | space _ ih =>
    intro depth hdepth
    have hinside : depth ≠ 0 := fun h0 => by rcases hdepth h0 with h | h <;> cases h
    exact .append (a := [.space]) (.space hinside) (ih depth hdepth)
  | @item loose _ _ _ _ _ _ _ _ hrepeats _ ihcore ihrest =>
    intro depth hdepth
    have htight : depth = 0 → loose = false := fun h0 => by
      cases hdepth h0 with
      | inl h => cases h
      | inr h => exact Phrase.row.inj h
    exact (((uncut_signLexemes _).append (ihcore depth fun _ => .inl rfl)).append
      (hrepeats.uncut htight)).append (ihrest depth hdepth)
  | gap _ ih =>
    intro depth hdepth
    have hinside : depth ≠ 0 := fun h0 => by rcases hdepth h0 with h | h <;> cases h
    exact .append (a := [.space]) (.space hinside) (ih depth hdepth)
  | alternative _ _ _ _ ihrow ihrest =>
    intro depth hdepth
    exact (ihrow depth fun _ => .inr rfl).append (ihrest depth hdepth)

theorem alternativesOf_append (ha : Uncut 0 a) (hsome : a ≠ [])
    (hrest : ∀ l ∈ rest.head?, l = .space) :
    alternativesOf (a ++ rest) = a :: alternativesOf rest := by
  have hkeep : ∀ parts : List (List Lexeme),
      (a :: parts).filter (!·.isEmpty) = a :: parts.filter (!·.isEmpty) := by
    intro parts
    rw [List.filter_cons_of_pos]
    rw [Bool.not_eq_true', List.isEmpty_eq_false_iff]
    exact hsome
  cases rest with
  | nil =>
    rw [alternativesOf, ha, cutAtSpaces, List.modifyHead_cons, List.append_nil,
      hkeep]
    rfl
  | cons l rest =>
    obtain rfl : l = .space := hrest l rfl
    rw [alternativesOf_space, alternativesOf, ha, cutAtSpaces_space, List.modifyHead_cons,
      List.append_nil, hkeep]
    rfl

end Cuts

/-! ### Parts of a cut -/

section Parts
variable {ls : List Lexeme}

/-- The parts of a cut have no cut of their own, the first one at the depth of the whole. -/
theorem cutAtSpaces_parts (depth : Nat) (ls : List Lexeme) :
    ∃ part parts, cutAtSpaces depth ls = part :: parts ∧
      cutAtSpaces depth part = [part] ∧ ∀ x ∈ parts, cutAtSpaces 0 x = [x] := by
  induction ls generalizing depth with
  | nil => exact ⟨[], [], rfl, rfl, nofun⟩
  | cons l rest ih =>
    by_cases hl : l = .space ∧ depth = 0
    · obtain ⟨rfl, rfl⟩ := hl
      obtain ⟨part, parts, hcut, hpart, hparts⟩ := ih 0
      refine ⟨[], cutAtSpaces 0 rest, cutAtSpaces_space, rfl, ?_⟩
      rw [hcut]
      intro x hx
      rcases List.mem_cons.mp hx with rfl | hx
      · exact hpart
      · exact hparts x hx
    · obtain ⟨part, parts, hcut, hpart, hparts⟩ := ih (depthBehind depth l)
      refine ⟨l :: part, parts, ?_, ?_, hparts⟩
      · rw [cutAtSpaces_cons hl, hcut, List.modifyHead_cons]
      · rw [cutAtSpaces_cons hl, hpart, List.modifyHead_cons]

theorem eq_singleton_of_mem_cutAtSpaces {x : List Lexeme} (hx : x ∈ cutAtSpaces 0 ls) :
    cutAtSpaces 0 x = [x] := by
  obtain ⟨part, parts, hcut, hpart, hparts⟩ := cutAtSpaces_parts 0 ls
  rw [hcut] at hx
  rcases List.mem_cons.mp hx with rfl | hx
  · exact hpart
  · exact hparts x hx

theorem intercalate_cutAtSpaces (depth : Nat) (ls : List Lexeme) :
    [Lexeme.space].intercalate (cutAtSpaces depth ls) = ls := by
  induction ls generalizing depth with
  | nil => rfl
  | cons l rest ih =>
    by_cases hl : l = .space ∧ depth = 0
    · obtain ⟨rfl, rfl⟩ := hl
      have hrest := ih 0
      obtain ⟨part, parts, hcut⟩ := List.exists_cons_of_ne_nil
        (cutAtSpaces_ne_nil 0 rest)
      rw [hcut] at hrest
      rw [cutAtSpaces_space, hcut, List.intercalate_cons_cons, hrest]
      rfl
    · have hrest := ih (depthBehind depth l)
      rw [cutAtSpaces_cons hl]
      cases hcut : cutAtSpaces (depthBehind depth l) rest with
      | nil => exact absurd hcut (cutAtSpaces_ne_nil _ rest)
      | cons part parts =>
        rw [hcut] at hrest
        rw [List.modifyHead_cons]
        cases parts with
        | nil =>
          rw [List.intercalate_singleton] at hrest ⊢
          rw [hrest]
        | cons next parts =>
          rw [List.intercalate_cons_cons] at hrest ⊢
          rw [List.cons_append, List.cons_append, hrest]

end Parts

/-! ### Derivations -/

section Derivations
variable {leaf : Atom → Terminal → Prop} {loose : Bool} {a b ls : List Lexeme} {p q : Pattern}

theorem Spells.row_append (ha : Spells leaf (.row loose) a p) (hb : Spells leaf (.row loose) b q) :
    Spells leaf (.row loose) (a ++ b) (p ++ q) := by
  generalize hphrase : Phrase.row loose = phrase at ha
  induction ha with
  | atom | round | curly | none | gap | alternative => cases hphrase
  | nil =>
    obtain rfl := Phrase.row.inj hphrase
    exact hb
  | space _ ih =>
    obtain rfl := Phrase.row.inj hphrase
    exact .space (ih rfl)
  | item hcore hrepeats _ _ ih =>
    obtain rfl := Phrase.row.inj hphrase
    rw [List.append_assoc]
    exact .item hcore hrepeats (ih rfl)

/-- A loose row without a cut is a tight one. -/
theorem Spells.tighten (h : Spells leaf (.row true) ls p) (hcut : cutAtSpaces 0 ls = [ls]) :
    Spells leaf (.row false) ls p := by
  generalize hphrase : Phrase.row true = phrase at h
  induction h with
  | atom | round | curly | none | gap | alternative => cases hphrase
  | nil => exact .nil
  | @space rest _ _ _ =>
    rw [cutAtSpaces_space] at hcut
    exact absurd (List.cons.inj hcut).1 nofun
  | @item loose negative core suffix rest e q p hcore hrepeats _ _ ih =>
    obtain rfl := Phrase.row.inj hphrase
    have huncut := (uncut_signLexemes negative).append (hcore.uncut 0 fun _ => .inl rfl)
    rw [List.append_assoc] at hcut
    have hbehind := huncut.cut_rest hcut
    cases hrepeats with
    | once => exact .item hcore .once (ih hbehind rfl)
    | @mark n q _ =>
      cases n with
      | succ n =>
        rw [List.replicate_succ, List.cons_append, List.cons_append, cutAtSpaces_space] at hbehind
        exact absurd (List.cons.inj hbehind).1 nofun
      | zero =>
        have hrest := (Uncut.single (l := .quantifier q) nofun rfl).cut_rest hbehind
        exact .item hcore (.mark fun h => absurd rfl h) (ih hrest rfl)

/-- Rows with a space between any two of them are alternatives, empty ones left out. -/
theorem spells_choice {rows : List (List Lexeme)} :
    List.Forall₂ (fun row e => ∃ children, Spells leaf (.row false) row children ∧
      e = children.unify) (rows.filter (!·.isEmpty)) p →
        Spells leaf .choice ([Lexeme.space].intercalate rows) p := by
  induction rows generalizing p with
  | nil =>
    intro h
    rw [List.filter_nil, List.forall₂_nil_left_iff] at h
    rw [h]
    exact .none
  | cons row rows ih =>
    intro h
    -- behind a row there is nothing, or a space and the other rows
    have hbehind : ∃ rest, [Lexeme.space].intercalate (row :: rows) = row ++ rest ∧
        (∀ l ∈ rest.head?, l = .space) ∧
        ∀ p, Spells leaf .choice ([Lexeme.space].intercalate rows) p →
          Spells leaf .choice rest p := by
      cases rows with
      | nil => exact ⟨[], by rw [List.intercalate_singleton, List.append_nil], nofun, fun _ => id⟩
      | cons next rows =>
        refine ⟨.space :: [Lexeme.space].intercalate (next :: rows), ?_, ?_, fun _ => .gap⟩
        · rw [List.intercalate_cons_cons, List.append_assoc]
          rfl
        · intro l hl
          exact (Option.some.inj hl).symm
    obtain ⟨rest, hwhole, hspace, hrest⟩ := hbehind
    rw [hwhole]
    by_cases hrow : row = []
    · rw [hrow, List.filter_cons_of_neg (by simp)] at h
      rw [hrow, List.nil_append]
      exact hrest p (ih h)
    · rw [List.filter_cons_of_pos (by simpa using hrow)] at h
      obtain ⟨e, p, ⟨children, hchildren, rfl⟩, hothers, rfl⟩ := List.forall₂_cons_left_iff.mp h
      exact .alternative hchildren hrow hspace (hrest p (ih hothers))

/-- Alternatives are rows of their own, which are tight since they have no cut. -/
theorem spells_alternatives {inner : List Lexeme}
    (h : List.Forall₂ (fun row e => ∃ children, Spells leaf (.row true) row children ∧
      e = children.unify) (alternativesOf inner) p) : Spells leaf .choice inner p := by
  have hcuts : ∀ row ∈ alternativesOf inner, cutAtSpaces 0 row = [row] := fun row hrow =>
    eq_singleton_of_mem_cutAtSpaces (List.mem_filter.mp hrow).1
  rw [← intercalate_cutAtSpaces 0 inner]
  have htight := (List.forall₂_and_left _ _).mpr ⟨hcuts, h⟩
  refine spells_choice (htight.imp ?_)
  rintro row e ⟨hcut, children, hchildren, rfl⟩
  exact ⟨children, hchildren.tighten hcut, rfl⟩

/-- One item at the end of a row, with its sign taken from what stands before it. -/
theorem Spells.row_item {core suffix before : List Lexeme} {e : Expression}
    {waiting : Option Quantifier} (hcore : Spells leaf .unit core [e])
    (hsuffix : Repeats true suffix waiting)
    (hq : Spells leaf (.row true) ((takeNegation before).2.reverse) q) :
    Spells leaf (.row true) (before.reverse ++ core ++ suffix)
      (q ++ [e.withMarks ⟨waiting.getD .one, (takeNegation before).1⟩]) := by
  have hbefore : before.reverse =
      (takeNegation before).2.reverse ++ signLexemes (takeNegation before).1 := by
    unfold takeNegation
    split
    · exact List.reverse_cons
    · exact (List.append_nil _).symm
  have hitem : Spells leaf (.row true)
      (signLexemes (takeNegation before).1 ++ core ++ suffix ++ [])
      [e.withMarks ⟨waiting.getD .one, (takeNegation before).1⟩] := .item hcore hsuffix .nil
  have hrow := hq.row_append hitem
  rw [hbefore]
  simpa only [List.append_assoc, List.append_nil] using hrow

end Derivations

/-! ### Rows without their meaning -/

section Shapes
variable {leaf : Atom → Terminal → Prop} {phrase : Phrase} {ls : List Lexeme} {p : Pattern}
variable {a : Atom}

theorem atom_mem_enclose {opener closer : Bracket} :
    .atom a ∈ Lexeme.opening opener :: ls ++ [.closing closer] ↔ .atom a ∈ ls := by
  simp

theorem atom_mem_item {loose negative : Bool} {core suffix rest : List Lexeme}
    {q : Option Quantifier} (h : Repeats loose suffix q) :
    .atom a ∈ signLexemes negative ++ core ++ suffix ++ rest ↔
      .atom a ∈ core ∨ .atom a ∈ rest := by
  have hsign : .atom a ∉ signLexemes negative := by cases negative <;> simp [signLexemes]
  have hsuffix : .atom a ∉ suffix := by cases h <;> simp
  simp only [List.mem_append, hsign, hsuffix, false_or, or_false]

theorem Spells.exists_of_mem (h : Spells leaf phrase ls p) (ha : .atom a ∈ ls) :
    ∃ t, leaf a t := by
  induction h with
  | atom hleaf =>
    obtain rfl := Lexeme.atom.inj (List.mem_singleton.mp ha)
    exact ⟨_, hleaf⟩
  | round _ ih | curly _ _ ih => exact ih (atom_mem_enclose.mp ha)
  | nil | none => cases ha
  | space _ ih | gap _ ih => exact ih ((List.mem_cons.mp ha).resolve_left nofun)
  | item _ hrepeats _ ihcore ihrest => exact ((atom_mem_item hrepeats).mp ha).elim ihcore ihrest
  | alternative _ _ _ _ ihrow ihrest => exact (List.mem_append.mp ha).elim ihrow ihrest

/-- Which expressions stand for the atoms does not matter for the shape of a phrase. -/
theorem Spells.relabel (leaf' : Atom → Terminal → Prop) (h : Spells leaf phrase ls p) :
    (∀ a, .atom a ∈ ls → ∃ t, leaf' a t) →
      ∃ p', p'.length = p.length ∧ Spells leaf' phrase ls p' := by
  induction h with
  | atom =>
    intro hleaf
    obtain ⟨t, ht⟩ := hleaf _ List.mem_cons_self
    exact ⟨[.terminal t {}], rfl, .atom ht⟩
  | round _ ih =>
    intro hleaf
    obtain ⟨p', _, hp'⟩ := ih fun a ha => hleaf a (atom_mem_enclose.mpr ha)
    exact ⟨[.group p' {}], rfl, .round hp'⟩
  | curly _ hsome ih =>
    intro hleaf
    obtain ⟨p', hlength, hp'⟩ := ih fun a ha => hleaf a (atom_mem_enclose.mpr ha)
    refine ⟨[.alternation p' {}], rfl, .curly hp' ?_⟩
    rintro rfl
    exact hsome (List.eq_nil_of_length_eq_zero hlength.symm)
  | nil => exact fun _ => ⟨_, rfl, .nil⟩
  | none => exact fun _ => ⟨_, rfl, .none⟩
  | space _ ih =>
    intro hleaf
    obtain ⟨p', hlength, hp'⟩ := ih fun a ha => hleaf a (List.mem_cons_of_mem _ ha)
    exact ⟨p', hlength, .space hp'⟩
  | gap _ ih =>
    intro hleaf
    obtain ⟨p', hlength, hp'⟩ := ih fun a ha => hleaf a (List.mem_cons_of_mem _ ha)
    exact ⟨p', hlength, .gap hp'⟩
  | item _ hrepeats _ ihcore ihrest =>
    intro hleaf
    obtain ⟨unit, hunit, hcore⟩ := ihcore fun a ha =>
      hleaf a ((atom_mem_item hrepeats).mpr (.inl ha))
    obtain ⟨p', hlength, hp'⟩ := ihrest fun a ha =>
      hleaf a ((atom_mem_item hrepeats).mpr (.inr ha))
    obtain ⟨e, rfl⟩ := List.length_eq_one_iff.mp hunit
    exact ⟨e.withMarks _ :: p', congrArg Nat.succ hlength, .item hcore hrepeats hp'⟩
  | alternative _ hsome hspace _ ihrow ihrest =>
    intro hleaf
    obtain ⟨children, _, hchildren⟩ := ihrow fun a ha => hleaf a (List.mem_append_left _ ha)
    obtain ⟨p', hlength, hp'⟩ := ihrest fun a ha => hleaf a (List.mem_append_right _ ha)
    exact ⟨children.unify :: p', congrArg Nat.succ hlength, .alternative hchildren hsome hspace hp'⟩

end Shapes

end SoundLaw
