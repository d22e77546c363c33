import SoundLaw.Proofs.Printing.Rendering
import SoundLaw.Proofs.Printing.Unwrapping

/-!
# Printed lexemes

A pattern is printed as the text of lexemes. Every leaf of a pattern that was read is printed as
the atom that it was read from, so these lexemes can be found again, and the symbols among them
are those of the leaves.
-/

namespace SoundLaw
set_option autoImplicit false
open Text

/-! ### Leaves -/

namespace Terminal
variable {macros : MacroTable} {t : Terminal} {a : Atom}

/-- The atom that a leaf is printed as. Only bundles begin with a bracket. -/
def atom : Terminal → Atom
  | literal s => if s.symbol.toList.head? = some '[' then .bundle s.symbol else .symbol s.symbol
  | boundary => .boundary
  | wildcard => .wildcard
  | reference name => .name name

/-- The symbol or the name of a macro that a leaf is printed as. -/
def symbol? (t : Terminal) : Option String := (Lexeme.atom t.atom).symbol?

theorem text_atom (t : Terminal) : t.atom.text = t.text := by
  cases t with
  | literal s =>
    rw [atom]
    split <;> rfl
  | boundary | wildcard | reference => rfl

/-- A leaf that is found again where it is printed, and read as itself. -/
structure IsRead (macros : MacroTable) (t : Terminal) : Prop where
  found : Lexeme.IsFound macros (.atom t.atom)
  denotes : t.atom.Denotes macros.model t

theorem exists_of_isFound_bundle {descriptor : String}
    (h : Lexeme.IsFound macros (.atom (.bundle descriptor))) :
    ∃ inner, descriptor.toList = '[' :: inner ++ [']'] := by
  generalize hl : Lexeme.atom (.bundle descriptor) = l at h
  cases h with
  | char hc =>
    subst hl
    unfold Lexeme.ofChar? at hc
    split at hc
    case h_11 => split at hc <;> cases hc
    all_goals cases hc
  | @bundle inner =>
    cases hl
    exact ⟨inner, String.toList_ofList⟩
  | symbol =>
    have hsymbol := congrArg Lexeme.symbol? hl
    rw [Lexeme.symbol?_ofSymbol] at hsymbol
    cases hsymbol

/-- A leaf is printed as the atom that it was read from. -/
theorem atom_of_denotes (hfound : Lexeme.IsFound macros (.atom a))
    (h : a.Denotes macros.model t) : t.atom = a := by
  cases a with
  | boundary | wildcard | name =>
    cases h
    rfl
  | symbol s =>
    cases h
    obtain ⟨-, -, hordinary⟩ := hfound.eq_ofSymbol rfl
    refine if_neg fun hhead => ?_
    cases hordinary '[' (List.mem_of_head? hhead)
  | bundle descriptor =>
    obtain ⟨inner, hinner⟩ := exists_of_isFound_bundle hfound
    have htrim : trim descriptor.toList = descriptor.toList := by
      rw [hinner]
      refine trim_eq_self (fun c hc => ?_) fun c hc => ?_
      · rw [← Option.some.inj hc]
        rfl
      · rw [List.cons_append, ← List.cons_append, List.getLast?_append_of_ne_nil _ (by simp)] at hc
        rw [← Option.some.inj hc]
        rfl
    rw [Atom.Denotes, ofAtom, FeatureModel.resolveBundle] at h
    split at h
    · cases h
    · cases h
      rw [atom, htrim, String.ofList_toList, if_pos (by rw [hinner]; rfl)]

theorem isRead_of_denotes (hfound : Lexeme.IsFound macros (.atom a))
    (h : a.Denotes macros.model t) : t.IsRead macros := by
  have hatom := atom_of_denotes hfound h
  exact ⟨hatom ▸ hfound, hatom ▸ h⟩

end Terminal

namespace Expression
variable {e : Expression}

mutual

/-- The leaves of an expression, from left to right. -/
def leaves : Expression → List Terminal
  | terminal t _ => [t]
  | group children _ | alternation children _ => leavesOfRow children

def leavesOfRow : List Expression → List Terminal
  | [] => []
  | e :: es => leaves e ++ leavesOfRow es

end

theorem leavesOfRow_eq_flatMap (es : List Expression) : leavesOfRow es = es.flatMap leaves := by
  induction es with
  | nil => rfl
  | cons e es ih => rw [leavesOfRow, ih, List.flatMap_cons]

theorem leaves_withMarks (e : Expression) (m : Marks) : (e.withMarks m).leaves = e.leaves := by
  cases e <;> rfl

theorem leaves_unify (p : Pattern) : p.unify.leaves = leavesOfRow p := by
  unfold Pattern.unify
  split
  · exact (List.append_nil _).symm
  · rfl

theorem leaves_unwrap (e : Expression) : e.unwrap.leaves = e.leaves := by
  rcases e.unwrap_cases with h | h
  · rw [h]
  · conv_rhs => rw [h]
    exact (List.append_nil _).symm

theorem leaves_unwrapped (e : Expression) : e.unwrapped.leaves = e.leaves := by
  induction e using Expression.induct with
  | terminal t m => rfl
  | group children m ih =>
    rw [unwrapped, leaves, leaves, leavesOfRow_eq_flatMap, leavesOfRow_eq_flatMap,
      unwrappedRow_eq_map, List.flatMap_map]
    exact List.flatMap_congr ih
  | alternation alternatives m ih =>
    rw [unwrapped, leaves, leaves, leavesOfRow_eq_flatMap, leavesOfRow_eq_flatMap,
      unwrappedEach_eq_map, List.flatMap_map]
    exact List.flatMap_congr fun e he => (leaves_unwrap e.unwrapped).trans (ih e he)

end Expression

/-- The leaves of a pattern, from left to right. -/
def Pattern.leaves (p : Pattern) : List Terminal := Expression.leavesOfRow p

theorem Pattern.leaves_unwrapped (p : Pattern) : p.unwrapped.leaves = p.leaves :=
  Expression.leaves_unwrapped (.group p {})

/-! ### Leaves that are spelled -/

section Spelled
variable {leaf : Atom → Terminal → Prop} {phrase : Phrase} {ls : List Lexeme} {p : Pattern}

/-- The leaves of what is spelled come from atoms among the lexemes. -/
theorem Spells.exists_atom (h : Spells leaf phrase ls p) :
    ∀ t ∈ p.leaves, ∃ a, .atom a ∈ ls ∧ leaf a t := by
  induction h with
  | @atom a t ht => exact List.forall_mem_singleton.mpr ⟨a, List.mem_cons_self, ht⟩
  | round _ ih | curly _ _ ih =>
    intro t ht
    obtain ⟨a, ha, hleaf⟩ := ih t (by simpa [Pattern.leaves, Expression.leaves,
      Expression.leavesOfRow] using ht)
    exact ⟨a, atom_mem_enclose.mpr ha, hleaf⟩
  | nil | none => exact nofun
  | space _ ih | gap _ ih =>
    intro t ht
    obtain ⟨a, ha, hleaf⟩ := ih t ht
    exact ⟨a, List.mem_cons_of_mem _ ha, hleaf⟩
  | item _ hrepeats _ ihcore ihrest =>
    intro t ht
    rcases List.mem_append.mp ht with ht | ht
    · rw [Expression.leaves_withMarks] at ht
      obtain ⟨a, ha, hleaf⟩ := ihcore t (List.mem_append_left _ ht)
      exact ⟨a, (atom_mem_item hrepeats).mpr (.inl ha), hleaf⟩
    · obtain ⟨a, ha, hleaf⟩ := ihrest t ht
      exact ⟨a, (atom_mem_item hrepeats).mpr (.inr ha), hleaf⟩
  | alternative _ _ _ _ ihrow ihrest =>
    intro t ht
    rcases List.mem_append.mp ht with ht | ht
    · rw [Expression.leaves_unify] at ht
      obtain ⟨a, ha, hleaf⟩ := ihrow t ht
      exact ⟨a, List.mem_append_left _ ha, hleaf⟩
    · obtain ⟨a, ha, hleaf⟩ := ihrest t ht
      exact ⟨a, List.mem_append_right _ ha, hleaf⟩

theorem filterMap_symbol?_enclose {opener closer : Bracket} {ls : List Lexeme} :
    (Lexeme.opening opener :: ls ++ [Lexeme.closing closer]).filterMap Lexeme.symbol? =
      ls.filterMap Lexeme.symbol? := by
  rw [List.cons_append, List.filterMap_cons_none rfl, List.filterMap_append]
  exact List.append_nil _

theorem filterMap_symbol?_signLexemes (negative : Bool) :
    (signLexemes negative).filterMap Lexeme.symbol? = [] := by
  cases negative <;> rfl

theorem Quantifier.filterMap_symbol?_lexemes (q : Quantifier) :
    q.lexemes.filterMap Lexeme.symbol? = [] := by
  cases q <;> rfl

theorem Repeats.filterMap_symbol? {loose : Bool} {suffix : List Lexeme} {q : Option Quantifier}
    (h : Repeats loose suffix q) : suffix.filterMap Lexeme.symbol? = [] := by
  cases h with
  | once => rfl
  | @mark n q _ =>
    rw [List.filterMap_append, List.filterMap_replicate_of_none rfl]
    rfl

/-- The symbols among the lexemes are those of the leaves. -/
theorem Spells.filterMap_symbol? (h : Spells leaf phrase ls p)
    (hleaf : ∀ a t, .atom a ∈ ls → leaf a t → t.atom = a) :
    ls.filterMap Lexeme.symbol? = p.leaves.filterMap Terminal.symbol? := by
  induction h with
  | @atom a t ht =>
    rw [← hleaf a t List.mem_cons_self ht]
    rfl
  | round _ ih | curly _ _ ih =>
    rw [filterMap_symbol?_enclose, ih fun a t ha => hleaf a t (atom_mem_enclose.mpr ha)]
    exact congrArg _ (List.append_nil _).symm
  | nil | none => rfl
  | space _ ih | gap _ ih => exact ih fun a t ha => hleaf a t (List.mem_cons_of_mem _ ha)
  | @item _ negative _ _ _ e _ p _ hrepeats _ ihcore ihrest =>
    have hcore := ihcore fun a t ha => hleaf a t ((atom_mem_item hrepeats).mpr (.inl ha))
    have hrest := ihrest fun a t ha => hleaf a t ((atom_mem_item hrepeats).mpr (.inr ha))
    have hsingle : Pattern.leaves [e] = e.leaves := List.append_nil _
    rw [Pattern.leaves, Expression.leavesOfRow, Expression.leaves_withMarks, List.filterMap_append,
      List.filterMap_append, List.filterMap_append, List.filterMap_append,
      filterMap_symbol?_signLexemes, hrepeats.filterMap_symbol?, hcore, hsingle, hrest,
      List.nil_append, List.append_nil]
    rfl
  | alternative _ _ _ _ ihrow ihrest =>
    rw [Pattern.leaves, Expression.leavesOfRow, Expression.leaves_unify, List.filterMap_append,
      List.filterMap_append, ihrow fun a t ha => hleaf a t (List.mem_append_left _ ha),
      ihrest fun a t ha => hleaf a t (List.mem_append_right _ ha)]
    rfl

end Spelled

theorem Pattern.isRead_of_ofText {macros : MacroTable} {text : String} {p : Pattern}
    (h : ofText macros text = .ok p) : ∀ t ∈ p.leaves, t.IsRead macros := by
  obtain ⟨lexemes, hlexemes, h⟩ := bind_eq_ok.mp h
  intro t ht
  obtain ⟨a, ha, hdenotes⟩ := (ofLexemes_eq_ok_iff.mp h).exists_atom t ht
  exact Terminal.isRead_of_denotes
    (Lexeme.isFound_of_ofText (mapError_eq_ok.mp hlexemes) _ ha) hdenotes

/-! ### The lexemes of a pattern -/

namespace Expression

/-- The marks of an expression around its lexemes. -/
def dressLexemes (e : Expression) (lexemes : List Lexeme) : List Lexeme :=
  signLexemes e.isNegative
    ++ (if e.isGroup then .opening .round :: lexemes ++ [.closing .round] else lexemes)
    ++ e.quantifier.lexemes

/-- An alternative between braces, where a group needs no parentheses. -/
def dressAlternativeLexemes (e : Expression) (lexemes : List Lexeme) : List Lexeme :=
  if e.isBareGroup then lexemes else e.dressLexemes lexemes

mutual

/-- The lexemes of an expression without its marks and, for a group, without its parentheses. -/
def innerLexemes : Expression → List Lexeme
  | terminal t _ => [.atom t.atom]
  | group children _ => sequenceLexemes children
  | alternation alternatives _ =>
    .opening .curly :: [Lexeme.space].intercalate (alternativeLexemes alternatives)
      ++ [.closing .curly]

def sequenceLexemes : List Expression → List Lexeme
  | [] => []
  | e :: es => dressLexemes e (innerLexemes e) ++ sequenceLexemes es

def alternativeLexemes : List Expression → List (List Lexeme)
  | [] => []
  | e :: es => dressAlternativeLexemes e (innerLexemes e) :: alternativeLexemes es

end

theorem sequenceLexemes_eq_flatMap (es : List Expression) :
    sequenceLexemes es = es.flatMap fun e => e.dressLexemes e.innerLexemes := by
  induction es with
  | nil => rfl
  | cons e es ih => rw [sequenceLexemes, ih, List.flatMap_cons]

theorem alternativeLexemes_eq_map (es : List Expression) :
    alternativeLexemes es = es.map fun e => e.dressAlternativeLexemes e.innerLexemes := by
  induction es with
  | nil => rfl
  | cons e es ih => exact congrArg _ ih

end Expression

/-- The lexemes that a pattern is printed as. -/
def Pattern.lexemes (p : Pattern) : List Lexeme := Expression.sequenceLexemes p

/-! ### Their text -/

namespace Lexeme

theorem render_append (a b : List Lexeme) : render (a ++ b) = render a ++ render b := by
  rw [render, List.map_append, String.join_append]
  rfl

theorem render_signLexemes (negative : Bool) :
    render (signLexemes negative) = if negative then "!" else "" := by
  cases negative <;> rfl

theorem render_quantifier (q : Quantifier) : render q.lexemes = q.text := by
  cases q <;> rfl

theorem render_intercalate (rows : List (List Lexeme)) :
    render ([space].intercalate rows) = " ".intercalate (rows.map render) := by
  induction rows with
  | nil => rfl
  | cons row rows ih =>
    cases rows with
    | nil => simp
    | cons next rows =>
      rw [List.intercalate_cons_cons, render_append, render_append, ih, List.map_cons,
        List.map_cons, List.map_cons, String.intercalate_cons_cons]
      rfl

end Lexeme

namespace Expression

theorem render_dressLexemes (e : Expression) (lexemes : List Lexeme) :
    Lexeme.render (e.dressLexemes lexemes) = e.dress (Lexeme.render lexemes) := by
  rw [dressLexemes, dress, Lexeme.render_append, Lexeme.render_append, Lexeme.render_signLexemes,
    Lexeme.render_quantifier]
  cases e.isGroup with
  | true =>
    rw [if_pos rfl, if_pos rfl, ← List.singleton_append, Lexeme.render_append,
      Lexeme.render_append]
    rfl
  | false => rfl

theorem render_dressAlternativeLexemes (e : Expression) (lexemes : List Lexeme) :
    Lexeme.render (e.dressAlternativeLexemes lexemes) =
      e.dressAlternative (Lexeme.render lexemes) := by
  rw [dressAlternativeLexemes, dressAlternative]
  split
  · rfl
  · exact render_dressLexemes e lexemes

theorem render_sequenceLexemes {es : List Expression}
    (h : ∀ e ∈ es, Lexeme.render e.innerLexemes = e.innerText) :
    Lexeme.render (sequenceLexemes es) = sequenceText es := by
  induction es with
  | nil => rfl
  | cons e es ih =>
    obtain ⟨he, hes⟩ := List.forall_mem_cons.mp h
    rw [sequenceLexemes, sequenceText, Lexeme.render_append, render_dressLexemes, he, ih hes]

theorem render_alternativeLexemes {es : List Expression}
    (h : ∀ e ∈ es, Lexeme.render e.innerLexemes = e.innerText) :
    (alternativeLexemes es).map Lexeme.render = alternativeTexts es := by
  induction es with
  | nil => rfl
  | cons e es ih =>
    obtain ⟨he, hes⟩ := List.forall_mem_cons.mp h
    rw [alternativeLexemes, alternativeTexts, List.map_cons, render_dressAlternativeLexemes, he,
      ih hes]

theorem render_innerLexemes (e : Expression) : Lexeme.render e.innerLexemes = e.innerText := by
  induction e using Expression.induct with
  | terminal t m =>
    have hrender : Lexeme.render [.atom t.atom] = t.atom.text := by
      simp [Lexeme.render, Lexeme.text]
    rw [innerLexemes, innerText, hrender, t.text_atom]
  | group children m ih => exact render_sequenceLexemes ih
  | alternation alternatives m ih =>
    rw [innerLexemes, innerText, ← List.singleton_append, Lexeme.render_append,
      Lexeme.render_append, Lexeme.render_intercalate, render_alternativeLexemes ih]
    rfl

end Expression

theorem Pattern.render_lexemes (p : Pattern) : Lexeme.render p.lexemes = p.text :=
  Expression.render_sequenceLexemes fun e _ => e.render_innerLexemes

/-! ### Finding them again -/

namespace Expression
variable {macros : MacroTable} {e : Expression} {ls : List Lexeme}

theorem found_dressLexemes (h : ∀ l ∈ ls, Lexeme.IsFound macros l) :
    ∀ l ∈ e.dressLexemes ls, Lexeme.IsFound macros l := by
  have hsign : ∀ l ∈ signLexemes e.isNegative, Lexeme.IsFound macros l := by
    cases e.isNegative with
    | false => exact List.forall_mem_nil _
    | true => exact List.forall_mem_singleton.mpr (.char (c := '!') rfl)
  have hquantifier : ∀ l ∈ e.quantifier.lexemes, Lexeme.IsFound macros l := by
    cases e.quantifier with
    | one => exact List.forall_mem_nil _
    | optional => exact List.forall_mem_singleton.mpr (.char (c := '?') rfl)
    | star => exact List.forall_mem_singleton.mpr (.char (c := '*') rfl)
    | plus => exact List.forall_mem_singleton.mpr (.char (c := '+') rfl)
  have hround : ∀ l ∈ .opening .round :: ls ++ [.closing .round], Lexeme.IsFound macros l :=
    List.forall_mem_append.mpr ⟨List.forall_mem_cons.mpr ⟨.char (c := '(') rfl, h⟩,
      List.forall_mem_singleton.mpr (.char (c := ')') rfl)⟩
  rw [dressLexemes, List.forall_mem_append, List.forall_mem_append]
  refine ⟨⟨hsign, ?_⟩, hquantifier⟩
  split
  · exact hround
  · exact h

theorem found_dressAlternativeLexemes (h : ∀ l ∈ ls, Lexeme.IsFound macros l) :
    ∀ l ∈ e.dressAlternativeLexemes ls, Lexeme.IsFound macros l := by
  rw [dressAlternativeLexemes]
  split
  · exact h
  · exact found_dressLexemes h

theorem found_innerLexemes (h : ∀ t ∈ e.leaves, t.IsRead macros) :
    ∀ l ∈ e.innerLexemes, Lexeme.IsFound macros l := by
  induction e using Expression.induct with
  | terminal t m => exact List.forall_mem_singleton.mpr (h t List.mem_cons_self).found
  | group children m ih =>
    rw [leaves, leavesOfRow_eq_flatMap, List.forall_mem_flatMap] at h
    rw [innerLexemes, sequenceLexemes_eq_flatMap, List.forall_mem_flatMap]
    exact fun e he => found_dressLexemes (ih e he (h e he))
  | alternation alternatives m ih =>
    rw [leaves, leavesOfRow_eq_flatMap, List.forall_mem_flatMap] at h
    rw [innerLexemes, alternativeLexemes_eq_map]
    refine List.forall_mem_append.mpr ⟨List.forall_mem_cons.mpr ⟨.char (c := '\x7b') rfl,
      forall_mem_intercalate (.char (c := ' ') rfl) ?_⟩,
      List.forall_mem_singleton.mpr (.char (c := '\x7d') rfl)⟩
    exact List.forall_mem_map.mpr fun e he => found_dressAlternativeLexemes (ih e he (h e he))

theorem filterMap_symbol?_dressLexemes (e : Expression) (ls : List Lexeme) :
    (e.dressLexemes ls).filterMap Lexeme.symbol? = ls.filterMap Lexeme.symbol? := by
  rw [dressLexemes, List.filterMap_append, List.filterMap_append, filterMap_symbol?_signLexemes,
    Quantifier.filterMap_symbol?_lexemes, List.nil_append, List.append_nil]
  split
  · exact filterMap_symbol?_enclose
  · rfl

theorem filterMap_symbol?_dressAlternativeLexemes (e : Expression) (ls : List Lexeme) :
    (e.dressAlternativeLexemes ls).filterMap Lexeme.symbol? = ls.filterMap Lexeme.symbol? := by
  rw [dressAlternativeLexemes]
  split
  · rfl
  · exact filterMap_symbol?_dressLexemes e ls

theorem filterMap_symbol?_intercalate (rows : List (List Lexeme)) :
    ([Lexeme.space].intercalate rows).filterMap Lexeme.symbol? =
      rows.flatMap fun row => row.filterMap Lexeme.symbol? := by
  induction rows with
  | nil => rfl
  | cons row rows ih =>
    cases rows with
    | nil => simp
    | cons next rows =>
      rw [List.intercalate_cons_cons, List.filterMap_append, List.filterMap_append, ih,
        List.flatMap_cons]
      exact congrArg (· ++ _) (List.append_nil _)

theorem filterMap_symbol?_innerLexemes (e : Expression) :
    e.innerLexemes.filterMap Lexeme.symbol? = e.leaves.filterMap Terminal.symbol? := by
  induction e using Expression.induct with
  | terminal t m => rfl
  | group children m ih =>
    rw [innerLexemes, leaves, sequenceLexemes_eq_flatMap, leavesOfRow_eq_flatMap,
      List.filterMap_flatMap, List.filterMap_flatMap]
    exact List.flatMap_congr fun e he =>
      (filterMap_symbol?_dressLexemes e e.innerLexemes).trans (ih e he)
  | alternation alternatives m ih =>
    rw [innerLexemes, leaves, filterMap_symbol?_enclose, filterMap_symbol?_intercalate,
      alternativeLexemes_eq_map, leavesOfRow_eq_flatMap, List.flatMap_map, List.filterMap_flatMap]
    exact List.flatMap_congr fun e he =>
      (filterMap_symbol?_dressAlternativeLexemes e e.innerLexemes).trans (ih e he)

end Expression

namespace Pattern
variable {macros : MacroTable} {p : Pattern}

theorem found_lexemes (h : ∀ t ∈ p.leaves, t.IsRead macros) :
    ∀ l ∈ p.lexemes, Lexeme.IsFound macros l :=
  Expression.found_innerLexemes (e := .group p {}) h

theorem filterMap_symbol?_lexemes (p : Pattern) :
    p.lexemes.filterMap Lexeme.symbol? = p.leaves.filterMap Terminal.symbol? :=
  Expression.filterMap_symbol?_innerLexemes (.group p {})

end Pattern

end SoundLaw
