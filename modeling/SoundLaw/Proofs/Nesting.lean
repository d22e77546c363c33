import SoundLaw.Proofs.Texts
import SoundLaw.Text.Nesting

/-!
# Words that are found again

A blank ends a word only where no bracket is open. So a word that another one follows leaves no
bracket open, and only the last word of a text may. Words like these are found again where they
stand with one space between any two of them.
-/

namespace SoundLaw.Text
set_option autoImplicit false

variable {depth first last last' : Nat} {c : Char} {cs a b word begun rest : List Char}
variable {words : List (List Char)}

/-! ### Brackets -/

def brackets : List Char := ['(', '[', '\x7b', ')', ']', '\x7d']

theorem nestingBehind_of_not_mem (h : c ∉ brackets) : nestingBehind depth c = depth := by
  simp only [brackets, List.mem_cons, List.not_mem_nil, or_false, not_or] at h
  obtain ⟨h1, h2, h3, h4, h5, h6⟩ := h
  rw [nestingBehind, if_neg (not_or.mpr ⟨h1, not_or.mpr ⟨h2, h3⟩⟩),
    if_neg (not_or.mpr ⟨h4, not_or.mpr ⟨h5, h6⟩⟩)]

theorem nestingBehind_of_isBlank (hc : isBlank c = true) : nestingBehind depth c = depth := by
  have hbrackets : ∀ d ∈ brackets, isBlank d = false :=
    List.forall_iff_forall_mem.mp (by decide)
  refine nestingBehind_of_not_mem fun hmem => ?_
  cases hc.symm.trans (hbrackets c hmem)

/-- A character that stands for itself within a word. -/
def IsPlain (c : Char) : Prop := isBlank c = false ∧ c ∉ brackets

instance (c : Char) : Decidable (IsPlain c) := inferInstanceAs (Decidable (_ ∧ _))

/-! ### Unbroken characters -/

/-- Characters among which no blank ends a word, and the numbers of brackets open before and
behind them. -/
inductive Unbroken : Nat → List Char → Nat → Prop
  | nil (depth : Nat) : Unbroken depth [] depth
  | cons {depth last : Nat} {c : Char} {cs : List Char} : ¬ (isBlank c = true ∧ depth = 0) →
    Unbroken (nestingBehind depth c) cs last → Unbroken depth (c :: cs) last

namespace Unbroken

theorem append (ha : Unbroken first a depth) (hb : Unbroken depth b last) :
    Unbroken first (a ++ b) last := by
  induction ha with
  | nil => exact hb
  | cons hc _ ih => exact .cons hc (ih hb)

theorem exists_of_append (h : Unbroken first (a ++ b) last) :
    ∃ depth, Unbroken first a depth ∧ Unbroken depth b last := by
  induction a generalizing first with
  | nil => exact ⟨first, .nil first, h⟩
  | cons c cs ih =>
    cases h with
    | cons hc h =>
      obtain ⟨depth, hcs, hb⟩ := ih h
      exact ⟨depth, .cons hc hcs, hb⟩

theorem last_unique (h : Unbroken first cs last) (h' : Unbroken first cs last') : last = last' := by
  induction h with
  | nil =>
    cases h'
    rfl
  | cons _ _ ih =>
    cases h' with
    | cons _ h' => exact ih h'

theorem head_not_blank (h : Unbroken 0 cs last) : ∀ c ∈ cs.head?, isBlank c = false := by
  cases h with
  | nil => exact nofun
  | cons hc _ =>
    intro d hd
    rw [← Option.some.inj hd]
    exact Bool.eq_false_iff.mpr fun hblank => hc ⟨hblank, rfl⟩

/-- What ends without an open bracket does not end in a blank, which would end a word. -/
theorem last_not_blank (h : Unbroken 0 cs 0) : ∀ c ∈ cs.getLast?, isBlank c = false := by
  rcases List.eq_nil_or_concat cs with rfl | ⟨init, d, rfl⟩
  · exact nofun
  · intro c hc
    rw [List.concat_eq_append] at h hc
    rw [List.getLast?_concat] at hc
    obtain rfl := Option.some.inj hc
    obtain ⟨depth, -, hd⟩ := h.exists_of_append
    cases hd with
    | cons hd hnil =>
      refine Bool.eq_false_iff.mpr fun hblank => hd ⟨hblank, ?_⟩
      rw [nestingBehind_of_isBlank hblank] at hnil
      cases hnil
      rfl

theorem trim_eq_self (h : Unbroken 0 cs 0) : trim cs = cs :=
  Text.trim_eq_self h.head_not_blank h.last_not_blank

/-- Trimming a word changes what brackets it leaves open, if it changes the word at all. -/
theorem trim_eq_self_of_trim (h : Unbroken 0 cs last) (htrim : Unbroken 0 (trim cs) 0) :
    trim cs = cs := by
  obtain ⟨after, hafter, hblank⟩ := exists_blanks_of_head h.head_not_blank
  obtain ⟨depth, hcs, hrest⟩ := (hafter ▸ h : Unbroken 0 (trim cs ++ after) last).exists_of_append
  obtain rfl := hcs.last_unique htrim
  cases after with
  | nil => exact (hafter.trans (List.append_nil _)).symm
  | cons c after => cases (hrest.head_not_blank c rfl).symm.trans (hblank c List.mem_cons_self)

/-- Characters that are neither blanks nor brackets. -/
theorem of_isPlain (h : ∀ c ∈ cs, IsPlain c) : Unbroken depth cs depth := by
  induction cs with
  | nil => exact .nil depth
  | cons c cs ih =>
    obtain ⟨⟨hblank, hbracket⟩, hcs⟩ := List.forall_mem_cons.mp h
    refine .cons (by simp [hblank]) ?_
    rw [nestingBehind_of_not_mem hbracket]
    exact ih hcs

theorem outerWordsFrom_append (h : Unbroken first word last) (begun rest : List Char) :
    outerWordsFrom first begun (word ++ rest) = outerWordsFrom last (begun ++ word) rest := by
  induction h generalizing begun with
  | nil => rw [List.nil_append, List.append_nil]
  | cons hc _ ih =>
    rw [List.cons_append, outerWordsFrom, if_neg hc, ih, List.append_assoc]
    rfl

end Unbroken

theorem outerWordsFrom_blank (hc : isBlank c = true) (begun : List Char) :
    outerWordsFrom 0 begun (c :: rest) = wordOf begun ++ outerWordsFrom 0 [] rest := by
  rw [outerWordsFrom, if_pos ⟨hc, rfl⟩]

theorem wordOf_of_ne_nil (h : word ≠ []) : wordOf word = [word] :=
  if_neg (by simpa using h)

/-! ### Words -/

/-- A word that leaves no bracket open. -/
structure IsClosed (word : List Char) : Prop where
  ne_nil : word ≠ []
  unbroken : Unbroken 0 word 0

theorem isClosed_of_isPlain (hne : word ≠ []) (h : ∀ c ∈ word, IsPlain c) : IsClosed word :=
  ⟨hne, .of_isPlain h⟩

/-- Closed words that a blank follows are found, whatever stands behind it. -/
theorem outerWordsFrom_closed (hwords : ∀ word ∈ words, IsClosed word) (hc : isBlank c = true)
    (rest : List Char) :
    outerWordsFrom 0 [] ([' '].intercalate words ++ c :: rest) =
      words ++ outerWordsFrom 0 [] rest := by
  have hspace : isBlank ' ' = true := by decide
  induction words with
  | nil => exact outerWordsFrom_blank hc []
  | cons word words ih =>
    obtain ⟨hword, hothers⟩ := List.forall_mem_cons.mp hwords
    cases words with
    | nil =>
      rw [List.intercalate_singleton, hword.unbroken.outerWordsFrom_append, List.nil_append,
        outerWordsFrom_blank hc, wordOf_of_ne_nil hword.ne_nil]
    | cons next words =>
      rw [List.intercalate_cons_cons, List.append_assoc, List.append_assoc,
        hword.unbroken.outerWordsFrom_append, List.nil_append, List.singleton_append,
        outerWordsFrom_blank hspace, wordOf_of_ne_nil hword.ne_nil, ih hothers]
      rfl

/-- Words as they are found in a text, of which only the last may leave brackets open. -/
inductive Settled : List (List Char) → Prop
  | nil : Settled []
  | cons {word : List Char} {words : List (List Char)} {depth : Nat} : word ≠ [] →
    Unbroken 0 word depth → (words ≠ [] → depth = 0) → Settled words → Settled (word :: words)

theorem settled_outerWordsFrom (h : Unbroken 0 begun depth) :
    Settled (outerWordsFrom depth begun cs) := by
  induction cs generalizing depth begun with
  | nil =>
    rw [outerWordsFrom]
    by_cases hbegun : begun = []
    · rw [hbegun]
      exact .nil
    · rw [wordOf_of_ne_nil hbegun]
      exact .cons hbegun h (absurd rfl) .nil
  | cons c cs ih =>
    rw [outerWordsFrom]
    split
    · rename_i hc
      obtain ⟨-, rfl⟩ := hc
      have hrest : Settled (outerWordsFrom 0 [] cs) := ih (.nil 0)
      by_cases hbegun : begun = []
      · rw [hbegun]
        exact hrest
      · rw [wordOf_of_ne_nil hbegun]
        exact .cons hbegun h (fun _ => rfl) hrest
    · rename_i hc
      exact ih (h.append (.cons hc (.nil _)))

namespace Settled
variable {others : List (List Char)}

theorem of_append_left (h : Settled (words ++ others)) : Settled words := by
  induction words with
  | nil => exact .nil
  | cons word words ih =>
    cases h with
    | cons hne hword hdepth hwords =>
      exact .cons hne hword (fun h => hdepth (List.append_ne_nil_of_left_ne_nil h others))
        (ih hwords)

theorem of_append_right (h : Settled (words ++ others)) : Settled others := by
  induction words with
  | nil => exact h
  | cons word words ih =>
    cases h with
    | cons _ _ _ hwords => exact ih hwords

theorem exists_unbroken (h : Settled words) : ∀ word ∈ words, ∃ depth, Unbroken 0 word depth := by
  induction h with
  | nil => exact List.forall_mem_nil _
  | cons _ hword _ _ ih => exact List.forall_mem_cons.mpr ⟨⟨_, hword⟩, ih⟩

/-- Words that others follow are closed. -/
theorem isClosed_of_append (h : Settled (words ++ others)) (hothers : others ≠ []) :
    ∀ word ∈ words, IsClosed word := by
  induction words with
  | nil => exact List.forall_mem_nil _
  | cons word words ih =>
    cases h with
    | cons hne hword hdepth hwords =>
      rw [hdepth (List.append_ne_nil_of_right_ne_nil words hothers)] at hword
      exact List.forall_mem_cons.mpr ⟨⟨hne, hword⟩, ih hwords⟩

theorem append (hwords : ∀ word ∈ words, IsClosed word) (h : Settled others) :
    Settled (words ++ others) := by
  induction words with
  | nil => exact h
  | cons word words ih =>
    obtain ⟨hword, hwords⟩ := List.forall_mem_cons.mp hwords
    exact .cons hword.ne_nil hword.unbroken (fun _ => rfl) (ih hwords)

theorem of_isClosed (h : ∀ word ∈ words, IsClosed word) : Settled words := by
  have hsettled := append h .nil
  rwa [List.append_nil] at hsettled

/-- Settled words with a space between any two of them are found again. -/
theorem outerWordsFrom_intercalate (h : Settled words) :
    outerWordsFrom 0 [] ([' '].intercalate words) = words := by
  induction h with
  | nil => rfl
  | @cons word words depth hne hword hdepth _ ih =>
    cases words with
    | nil =>
      have hscan := hword.outerWordsFrom_append [] []
      rw [List.append_nil] at hscan
      rw [List.intercalate_singleton, hscan]
      exact wordOf_of_ne_nil hne
    | cons next words =>
      obtain rfl := hdepth (List.cons_ne_nil next words)
      have hblank : isBlank ' ' = true := by decide
      have hscan := outerWordsFrom_closed (List.forall_mem_singleton.mpr ⟨hne, hword⟩) hblank
        ([' '].intercalate (next :: words))
      rw [List.intercalate_singleton, ih] at hscan
      rw [List.intercalate_cons_cons, List.append_assoc]
      exact hscan

theorem head?_intercalate (h : Settled words) :
    ∀ c ∈ ([' '].intercalate words).head?, isBlank c = false := by
  cases h with
  | nil => exact nofun
  | cons hne hword _ _ =>
    rw [Text.head?_intercalate hne]
    exact hword.head_not_blank

/-- The words of a trimmed text are the trimmed words, since there are no blanks to take away at
the beginning of a word or at the end of a closed one. -/
theorem trim_intercalate (h : Settled words) :
    trim ([' '].intercalate words) = [' '].intercalate (words.map trim) := by
  induction h with
  | nil => rfl
  | @cons word words depth hne hword hdepth hwords ih =>
    cases words with
    | nil => rw [List.map_singleton, List.intercalate_singleton, List.intercalate_singleton]
    | cons next words =>
      obtain rfl := hdepth (List.cons_ne_nil next words)
      have hnext : next ≠ [] := by
        cases hwords
        assumption
      have hhead : ∀ c ∈ (word ++ [' ']).head?, isBlank c = false := by
        rw [List.head?_append_of_ne_nil _ hne]
        exact hword.head_not_blank
      rw [List.map_cons, List.map_cons, List.intercalate_cons_cons, List.intercalate_cons_cons,
        trim_append hhead (List.append_ne_nil_of_left_ne_nil hne _) hwords.head?_intercalate
          (intercalate_ne_nil hnext words), ih, hword.trim_eq_self, List.map_cons]

theorem trim_intercalate_of_isClosed (h : ∀ word ∈ words, IsClosed word) :
    trim ([' '].intercalate words) = [' '].intercalate words := by
  have htrim : words.map trim = words.map id :=
    List.map_congr_left fun word hword => (h word hword).unbroken.trim_eq_self
  rw [(of_isClosed h).trim_intercalate, htrim, List.map_id]

theorem map_trim (h : Settled words) : Settled (words.map trim) := by
  induction h with
  | nil => exact .nil
  | @cons word words depth hne hword hdepth _ ih =>
    obtain ⟨after, hafter, -⟩ := exists_blanks_of_head hword.head_not_blank
    obtain ⟨behind, htrim, -⟩ := (hafter ▸ hword).exists_of_append
    refine .cons (trim_ne_nil hword.head_not_blank hne) htrim (fun hmap => ?_) ih
    obtain rfl := hdepth fun hnil => hmap (by rw [hnil]; rfl)
    rw [hword.trim_eq_self] at htrim
    exact htrim.last_unique hword

end Settled

/-! ### Texts -/

theorem settled_outerWords (text : String) : Settled ((outerWords text).map String.toList) := by
  rw [outerWords, map_toList_ofList]
  exact settled_outerWordsFrom (.nil 0)

theorem outerWords_intercalate {words : List String} (h : Settled (words.map String.toList)) :
    outerWords (" ".intercalate words) = words := by
  have hwords := h.outerWordsFrom_intercalate
  rw [outerWords, String.toList_intercalate]
  exact (congrArg (List.map String.ofList) hwords).trans (map_ofList_toList words)

end SoundLaw.Text
