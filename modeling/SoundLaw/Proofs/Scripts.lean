import SoundLaw.Proofs.Outcomes
import SoundLaw.Proofs.Texts
import SoundLaw.Script

/-!
# Scripts line by line

A script is read in one run over its lines, in which the macros grow and change. A line is read
with what the lines above it have defined, and with nothing else: the script of its first lines is
a stage of the run, the line that is refused is the first one that cannot be taken, and what a
later line defines does not reach the rules that are there already.
-/

namespace SoundLaw
set_option autoImplicit false
open Text

namespace Text
variable {a b cs : List Char}

/-! ### Lines -/

theorem lines_append_cons (h : '\n' ∉ a) : lines (a ++ '\n' :: b) =
    (if a.getLast? = some '\r' then a.dropLast else a) :: lines b := by
  have hparts : splitAt '\n' b ≠ [] := by
    rw [splitAt_eq_splitOn]
    exact List.splitOn_ne_nil '\n' b
  rw [lines, lines, splitAt_append_cons, splitAt_of_not_mem h, List.singleton_append]
  simp only [List.dropLast_cons_of_ne_nil hparts, List.map_cons,
    List.getLast?_cons_of_ne_nil hparts]
  split <;> rfl

theorem lines_of_not_mem (h : '\n' ∉ cs) (hne : cs ≠ []) : lines cs = [cs] := by
  rw [lines, splitAt_of_not_mem h]
  obtain ⟨c, cs, rfl⟩ := List.exists_cons_of_ne_nil hne
  rfl

/-- The beginning of a text, up to the end of the line with the given number. -/
def beginning : Nat → List Char → List Char
  | 0, _ => []
  | k + 1, cs => match cut? '\n' cs with
    | none => cs
    | some (line, rest) => line ++ '\n' :: beginning k rest

theorem prefix_beginning (k : Nat) (cs : List Char) : beginning k cs <+: cs := by
  induction k generalizing cs with
  | zero => exact List.nil_prefix
  | succ k ih =>
    rw [beginning]
    split
    · exact List.prefix_rfl
    · rename_i line rest hcut
      rw [eq_of_cut? hcut, List.prefix_append_right_inj, List.prefix_cons_inj]
      exact ih rest

theorem lines_beginning (k : Nat) (cs : List Char) :
    lines (beginning k cs) = (lines cs).take k := by
  induction k generalizing cs with
  | zero => rfl
  | succ k ih =>
    rw [beginning]
    split
    · rename_i hcut
      by_cases hne : cs = []
      · rw [hne]
        rfl
      · rw [lines_of_not_mem (cut?_eq_none_iff.mp hcut) hne, List.take_succ_cons, List.take_nil]
    · rename_i line rest hcut
      have hline := not_mem_of_cut? hcut
      rw [lines_append_cons hline, ih, eq_of_cut? hcut, lines_append_cons hline,
        List.take_succ_cons]

/-- The first lines of a text. -/
def firstLines (k : Nat) (text : String) : String := String.ofList (beginning k text.toList)

theorem toList_firstLines (k : Nat) (text : String) :
    (firstLines k text).toList = beginning k text.toList := String.toList_ofList

end Text

namespace Script
variable {s s' : Script} {line : List Char} {ls : List (List Char)} {n : Nat} {e : Fault}
variable {m : FeatureModel} {text : String}

/-! ### One line -/

/-- What a line makes of the script above it: a line that says nothing leaves it as it is, a
definition goes to the macros, and what is left are rules. -/
inductive Takes (s : Script) (line : List Char) : Script → Prop
  | nothing : content line = [] → Takes s line s
  | definition {macros : MacroTable} : content line ≠ [] → isDefinition (content line) = true →
    s.macros.add (String.ofList (content line)) = .ok macros →
    Takes s line { s with macros := macros }
  | rule {r : Rule} : content line ≠ [] → isDefinition (content line) = false →
    Rule.ofText s.macros (String.ofList (content line)) = .ok r →
    Takes s line { s with rules := s.rules ++ [r] }

/-- What is wrong with a line, given the macros above it. -/
inductive Refuses (macros : MacroTable) (line : List Char) : Fault → Prop
  | definition {e : PatternFault} : content line ≠ [] → isDefinition (content line) = true →
    macros.add (String.ofList (content line)) = .error e → Refuses macros line (.pattern e)
  | rule {e : Fault} : content line ≠ [] → isDefinition (content line) = false →
    Rule.ofText macros (String.ofList (content line)) = .error e → Refuses macros line e

theorem addLine_of_nothing (h : content line = []) : s.addLine line = .ok s := by
  rw [addLine, h]
  rfl

theorem addLine_of_definition (hne : content line ≠ [])
    (hline : isDefinition (content line) = true) : s.addLine line =
      (s.macros.add (String.ofList (content line))).mapError .pattern >>= fun macros =>
        .ok { s with macros := macros } := by
  rw [addLine]
  simp only [List.isEmpty_eq_false_iff.mpr hne, hline]
  rfl

theorem addLine_of_rule (hne : content line ≠ [])
    (hline : isDefinition (content line) = false) : s.addLine line =
      Rule.ofText s.macros (String.ofList (content line)) >>= fun r =>
        .ok { s with rules := s.rules ++ [r] } := by
  rw [addLine]
  simp only [List.isEmpty_eq_false_iff.mpr hne, hline]
  rfl

theorem addLine_eq_ok : s.addLine line = .ok s' ↔ s.Takes line s' := by
  constructor
  · intro h
    by_cases hne : content line = []
    · rw [addLine_of_nothing hne] at h
      cases h
      exact .nothing hne
    · cases hline : isDefinition (content line) with
      | true =>
        rw [addLine_of_definition hne hline] at h
        obtain ⟨macros, hmacros, h⟩ := bind_eq_ok.mp h
        cases h
        exact .definition hne hline (mapError_eq_ok.mp hmacros)
      | false =>
        rw [addLine_of_rule hne hline] at h
        obtain ⟨r, hr, h⟩ := bind_eq_ok.mp h
        cases h
        exact .rule hne hline hr
  · intro h
    cases h with
    | nothing hnone => exact addLine_of_nothing hnone
    | definition hne hline hadd =>
      rw [addLine_of_definition hne hline, hadd]
      rfl
    | rule hne hline hr =>
      rw [addLine_of_rule hne hline, hr]
      rfl

theorem addLine_eq_error : s.addLine line = .error e ↔ Refuses s.macros line e := by
  constructor
  · intro h
    by_cases hne : content line = []
    · rw [addLine_of_nothing hne] at h
      cases h
    · cases hline : isDefinition (content line) with
      | true =>
        rw [addLine_of_definition hne hline] at h
        rcases bind_eq_error.mp h with h | ⟨macros, -, h⟩
        · obtain ⟨fault, hadd, rfl⟩ := mapError_eq_error.mp h
          exact .definition hne hline hadd
        · cases h
      | false =>
        rw [addLine_of_rule hne hline] at h
        rcases bind_eq_error.mp h with h | ⟨r, -, h⟩
        · exact .rule hne hline h
        · cases h
  · intro h
    cases h with
    | definition hne hline hadd =>
      rw [addLine_of_definition hne hline, hadd]
      rfl
    | rule hne hline hr =>
      rw [addLine_of_rule hne hline, hr]
      rfl

theorem Takes.prefix_rules (h : s.Takes line s') : s.rules <+: s'.rules := by
  cases h with
  | nothing | definition => exact List.prefix_rfl
  | rule => exact List.prefix_append _ _

/-! ### A run of lines -/

theorem addLines_append (s : Script) (n : Nat) (before after : List (List Char)) :
    s.addLines n (before ++ after) =
      s.addLines n before >>= fun s' => s'.addLines (n + before.length) after := by
  induction before generalizing s n with
  | nil => rfl
  | cons line before ih =>
    rw [List.cons_append, addLines, addLines]
    cases s.addLine line with
    | error e => rfl
    | ok next =>
      dsimp only
      rw [ih, List.length_cons, Nat.add_assoc, Nat.add_comm 1]

/-- What comes out of a run went through each stage of it. -/
theorem exists_stage_of_addLines (h : s.addLines n ls = .ok s') (k : Nat) :
    ∃ stage, s.addLines n (ls.take k) = .ok stage ∧
      stage.addLines (n + (ls.take k).length) (ls.drop k) = .ok s' := by
  rw [← List.take_append_drop k ls, addLines_append] at h
  exact bind_eq_ok.mp h

theorem prefix_rules_of_addLines (h : s.addLines n ls = .ok s') : s.rules <+: s'.rules := by
  induction ls generalizing s n with
  | nil =>
    cases h
    exact List.prefix_rfl
  | cons line ls ih =>
    rw [addLines] at h
    cases hline : s.addLine line with
    | error e =>
      rw [hline] at h
      cases h
    | ok next =>
      rw [hline] at h
      exact (addLine_eq_ok.mp hline).prefix_rules.trans (ih h)

/-- A run fails at the first line that cannot be taken, with the number of this line. -/
theorem addLines_eq_error {k : Nat} : s.addLines n ls = .error ⟨k, e⟩ ↔ ∃ i line stage,
    k = n + i ∧ ls[i]? = some line ∧ s.addLines n (ls.take i) = .ok stage ∧
      Refuses stage.macros line e := by
  induction ls generalizing s n with
  | nil => simp [addLines]
  | cons line ls ih =>
    rw [addLines]
    cases hline : s.addLine line with
    | error fault =>
      constructor
      · intro h
        cases h
        exact ⟨0, line, s, rfl, rfl, rfl, addLine_eq_error.mp hline⟩
      · rintro ⟨i, other, stage, rfl, hget, hstage, hrefuses⟩
        cases i with
        | zero =>
          cases hget
          cases hstage
          rw [addLine_eq_error.mpr hrefuses] at hline
          cases hline
          rfl
        | succ i =>
          rw [List.take_succ_cons, addLines, hline] at hstage
          cases hstage
    | ok next =>
      dsimp only
      rw [ih]
      constructor
      · rintro ⟨i, other, stage, rfl, hget, hstage, hrefuses⟩
        refine ⟨i + 1, other, stage, by omega, hget, ?_, hrefuses⟩
        rw [List.take_succ_cons, addLines, hline]
        exact hstage
      · rintro ⟨i, other, stage, rfl, hget, hstage, hrefuses⟩
        cases i with
        | zero =>
          cases hget
          cases hstage
          rw [addLine_eq_error.mpr hrefuses] at hline
          cases hline
        | succ i =>
          rw [List.take_succ_cons, addLines, hline] at hstage
          exact ⟨i, other, stage, by omega, hget, hstage, hrefuses⟩

theorem ofText_firstLines (m : FeatureModel) (k : Nat) (text : String) :
    ofText m (firstLines k text) = (empty m).addLines 1 ((lines text.toList).take k) := by
  rw [ofText, toList_firstLines, lines_beginning]

/-- The stage behind a line is what this line makes of the stage above it. -/
theorem exists_takes_of_addLines {k : Nat} (h : s.addLines n ls = .ok s')
    (hget : ls[k]? = some line) {stage : Script} (hstage : s.addLines n (ls.take k) = .ok stage) :
    ∃ next, s.addLines n (ls.take (k + 1)) = .ok next ∧ stage.Takes line next := by
  obtain ⟨next, hnext, -⟩ := exists_stage_of_addLines h (k + 1)
  refine ⟨next, hnext, ?_⟩
  rw [List.take_add_one, hget, addLines_append, hstage] at hnext
  change stage.addLines _ [line] = .ok next at hnext
  rw [addLines] at hnext
  cases hline : stage.addLine line with
  | error e =>
    rw [hline] at hnext
    cases hnext
  | ok taken =>
    rw [hline] at hnext
    cases hnext
    exact addLine_eq_ok.mp hline

/-- Reading a script fails at a line exactly when the lines above it are a script and the line is
refused with the macros of that script. When it succeeds, the first lines are a script as well,
each line makes the next of these out of the one above it, and the rules of the text are those of
its first lines and then the later ones. So a word goes through the first lines as if there were
no others. -/
theorem ofText_line_by_line (m : FeatureModel) (text : String) :
    (∀ k, (firstLines k text).toList <+: text.toList ∧
      lines (firstLines k text).toList = (lines text.toList).take k) ∧
    (∀ n e, ofText m text = .error ⟨n, e⟩ ↔ ∃ i line stage, n = i + 1 ∧
      (lines text.toList)[i]? = some line ∧ ofText m (firstLines i text) = .ok stage ∧
      Refuses stage.macros line e) ∧
    ∀ s, ofText m text = .ok s → ∀ k, ∃ stage, ofText m (firstLines k text) = .ok stage ∧
      (∀ line, (lines text.toList)[k]? = some line → ∃ next,
        ofText m (firstLines (k + 1) text) = .ok next ∧ stage.Takes line next) ∧
      ∃ later, s.rules = stage.rules ++ later ∧
        ∀ w, s.apply w = later.foldl (fun w r => r.apply w) (stage.apply w) := by
  refine ⟨fun k => ?_, fun n e => ?_, fun s hs k => ?_⟩
  · rw [toList_firstLines]
    exact ⟨prefix_beginning k text.toList, lines_beginning k text.toList⟩
  · rw [ofText, addLines_eq_error]
    simp only [ofText_firstLines, Nat.add_comm 1]
  · obtain ⟨stage, hstage, hrest⟩ := exists_stage_of_addLines hs k
    obtain ⟨later, hlater⟩ := prefix_rules_of_addLines hrest
    simp only [ofText_firstLines]
    refine ⟨stage, hstage, fun line hline => exists_takes_of_addLines hs hline hstage, later,
      hlater.symm, fun w => ?_⟩
    rw [apply, apply, ← hlater, List.foldl_append]

theorem ofText_line_by_line_uneven :
    let text := "C = p t\nC > b\n\nC > g % again"
    let faulty := "C = p t\n\nC > b c % uneven"
    (∃ s stage later, ofText .empty text = .ok s ∧ ofText .empty (firstLines 2 text) = .ok stage ∧
      s.rules = stage.rules ++ later ∧ stage.rules.length = 1 ∧ later.length = 1) ∧
    ∃ e line stage, ofText .empty faulty = .error ⟨3, e⟩ ∧
      (lines faulty.toList)[2]? = some line ∧ ofText .empty (firstLines 2 faulty) = .ok stage ∧
      Refuses stage.macros line e := by
  intro text faulty
  constructor
  · have hok : (ofText .empty text).toOption.any (·.rules.length == 2) = true := by decide +kernel
    have hfirst :
        (ofText .empty (firstLines 2 text)).toOption.any (·.rules.length == 1) = true := by
      decide +kernel
    obtain ⟨s, hs, hlength⟩ := exists_ok_of_any hok
    obtain ⟨-, -, hstages⟩ := ofText_line_by_line .empty text
    obtain ⟨stage, hstage, -, later, hrules, -⟩ := hstages s hs 2
    rw [hstage] at hfirst
    have hone : stage.rules.length = 1 := beq_iff_eq.mp hfirst
    have htwo : s.rules.length = 2 := beq_iff_eq.mp hlength
    rw [hrules, List.length_append] at htwo
    exact ⟨s, stage, later, hs, hstage, hrules, hone, by omega⟩
  · obtain ⟨-, hfails, -⟩ := ofText_line_by_line .empty faulty
    cases hfaulty : ofText .empty faulty with
    | ok s =>
      have hnone : (ofText .empty faulty).toOption.isNone = true := by decide +kernel
      rw [hfaulty] at hnone
      cases hnone
    | error fault =>
      have hnumber : (match ofText .empty faulty with
        | .ok _ => 0
        | .error fault => fault.line) = 3 := by decide +kernel
      rw [hfaulty] at hnumber
      obtain ⟨number, e⟩ := fault
      obtain rfl : number = 3 := hnumber
      obtain ⟨i, line, stage, hi, hline, hstage, hrefuses⟩ := (hfails 3 e).mp hfaulty
      obtain rfl : i = 2 := by omega
      exact ⟨e, line, stage, rfl, hline, hstage, hrefuses⟩

end Script

end SoundLaw
