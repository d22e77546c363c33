import SoundLaw.Proofs.Context
import SoundLaw.Proofs.Nesting
import SoundLaw.Proofs.Outcomes

/-!
# Reading printed environments

An environment is printed as its clauses and, behind a `not`, its exclusions. No condition changes
its place by that, since `not` makes an exclusion of everything behind it. The words of a condition
are printed with one space between any two of them, and are found again there: only the last word
of a text can leave a bracket open, and it is printed last. So the printed text is read as the
same environment, however the text was written that it was read from.
-/

namespace SoundLaw
set_option autoImplicit false
open Text

namespace Condition
variable {macros : MacroTable} {text : String} {c : Condition}

theorem text_of_ofText (h : ofText macros text = .ok c) :
    c.text = String.ofList (trim text.toList) := by
  unfold ofText at h
  simp only at h
  split at h
  · obtain ⟨_, _, h⟩ := bind_eq_ok.mp h
    obtain ⟨_, _, h⟩ := bind_eq_ok.mp h
    cases h
    rfl
  · cases h

theorem ofText_trimmed (h : ofText macros text = .ok c) : ofText macros c.text = .ok c := by
  have htrim : trim c.text.toList = trim text.toList := by
    rw [text_of_ofText h, String.toList_ofList, trim_trim]
  rw [ofText, htrim]
  exact h

theorem ofText_empty (macros : MacroTable) : ∃ fault, ofText macros "" = .error fault := ⟨_, rfl⟩

end Condition

namespace Environment
variable {macros : MacroTable} {text word : String} {e : Environment}
variable {excluding leading : Bool} {condition group words rest : List String}
variable {groups clauses exclusions : List (List String)}

/-! ### Words -/

/-- A word that stands between conditions. -/
def IsKeyword (word : String) : Prop := word = "or" ∨ word = "not"

theorem isClosed_of_isKeyword (h : IsKeyword word) : IsClosed word.toList := by
  rcases h with rfl | rfl
  · exact isClosed_of_isPlain (by decide) (List.forall_iff_forall_mem.mp (by decide))
  · exact isClosed_of_isPlain (by decide) (List.forall_iff_forall_mem.mp (by decide))

theorem conditionTexts_of_isKeyword (hword : IsKeyword word) :
    conditionTexts excluding leading condition (word :: words) =
      if leading && condition.isEmpty && word == "not" then
        conditionTexts (excluding || word == "not") false [] words
      else
        (excluding, " ".intercalate condition) ::
          conditionTexts (excluding || word == "not") false [] words := by
  rw [conditionTexts]
  exact if_pos hword

theorem conditionTexts_keyword (hword : IsKeyword word) (hne : condition ≠ []) :
    conditionTexts excluding leading condition (word :: words) =
      (excluding, " ".intercalate condition) ::
        conditionTexts (excluding || word == "not") false [] words := by
  rw [conditionTexts_of_isKeyword hword, if_neg (by simp [hne])]

/-- A `not` at the very beginning begins the first condition. -/
theorem conditionTexts_leading :
    conditionTexts excluding true [] ("not" :: words) = conditionTexts true false [] words := by
  rw [conditionTexts_of_isKeyword (.inr rfl), if_pos (by decide), beq_self_eq_true, Bool.or_true]

/-- No other keyword can stand where a condition has no words yet. -/
theorem eq_not_of_conditionTexts (hword : IsKeyword word)
    (htexts : ∀ p ∈ conditionTexts excluding leading [] (word :: words), p.2 ≠ "") :
    word = "not" ∧ conditionTexts excluding leading [] (word :: words) =
      conditionTexts true false [] words := by
  by_cases hleading : leading = true ∧ word = "not"
  · obtain ⟨rfl, rfl⟩ := hleading
    exact ⟨rfl, conditionTexts_leading⟩
  · rw [conditionTexts_of_isKeyword hword, if_neg (by simpa using hleading)] at htexts
    exact absurd rfl (htexts _ List.mem_cons_self)

theorem conditionTexts_nil (hne : condition ≠ []) :
    conditionTexts excluding leading condition [] = [(excluding, " ".intercalate condition)] := by
  rw [conditionTexts]
  exact if_neg (by simp [hne])

theorem conditionTexts_append (hgroup : ∀ word ∈ group, ¬ IsKeyword word) :
    conditionTexts excluding leading condition (group ++ words) =
      conditionTexts excluding leading (condition ++ group) words := by
  induction group generalizing condition with
  | nil => rw [List.nil_append, List.append_nil]
  | cons word group ih =>
    obtain ⟨hword, hgroup⟩ := List.forall_mem_cons.mp hgroup
    rw [List.cons_append, conditionTexts]
    refine (if_neg hword).trans ?_
    rw [ih hgroup, List.append_assoc]
    rfl

/-! ### Conditions and their words -/

/-- The words of conditions as they are found in a text. -/
structure Phrases (groups : List (List String)) : Prop where
  ne_nil : ∀ group ∈ groups, group ≠ []
  plain : ∀ group ∈ groups, ∀ word ∈ group, ¬ IsKeyword word
  settled : Settled (groups.flatten.map String.toList)

/-- The texts of clauses and exclusions that consist of these words. -/
def entries (clauses exclusions : List (List String)) : List (Bool × String) :=
  clauses.map (fun group => (false, " ".intercalate group)) ++
    exclusions.map fun group => (true, " ".intercalate group)

/-- The words of the text that clauses and exclusions are printed as. -/
def printedWords (clauses exclusions : List (List String)) : List String :=
  ["or"].intercalate clauses ++
    if exclusions = [] then [] else "not" :: ["or"].intercalate exclusions

theorem Phrases.nil : Phrases [] :=
  ⟨List.forall_mem_nil _, List.forall_mem_nil _, .nil⟩

theorem Phrases.cons (hne : group ≠ []) (hplain : ∀ word ∈ group, ¬ IsKeyword word)
    (hclosed : ∀ word ∈ group.map String.toList, IsClosed word) (h : Phrases groups) :
    Phrases (group :: groups) := by
  refine ⟨List.forall_mem_cons.mpr ⟨hne, h.ne_nil⟩, List.forall_mem_cons.mpr ⟨hplain, h.plain⟩, ?_⟩
  rw [List.flatten_cons, List.map_append]
  exact h.settled.append hclosed

/-- The conditions that are found among words have words of their own, in the same order. -/
theorem exists_phrases (hcondition : ∀ word ∈ condition, ¬ IsKeyword word)
    (hsettled : Settled ((condition ++ words).map String.toList))
    (htexts : ∀ p ∈ conditionTexts excluding leading condition words, p.2 ≠ "") :
    ∃ clauses exclusions, conditionTexts excluding leading condition words =
        entries clauses exclusions ∧
      (excluding = true → clauses = []) ∧ Phrases (clauses ++ exclusions) := by
  -- the condition holds the words since the last keyword, which are no keywords themselves
  induction words generalizing excluding leading condition with
  | nil =>
    rw [List.append_nil] at hsettled
    by_cases hne : condition = []
    · subst hne
      cases leading with
      | true => exact ⟨[], [], rfl, fun _ => rfl, .nil⟩
      | false => exact absurd rfl (htexts _ List.mem_cons_self)
    · have hone : Phrases [condition] := by
        refine ⟨List.forall_mem_singleton.mpr hne, List.forall_mem_singleton.mpr hcondition, ?_⟩
        rwa [List.flatten_singleton]
      rw [conditionTexts_nil hne]
      cases excluding with
      | true => exact ⟨[], [condition], rfl, fun _ => rfl, hone⟩
      | false => exact ⟨[condition], [], rfl, nofun, hone⟩
  | cons word words ih =>
    by_cases hword : IsKeyword word
    · rw [List.map_append] at hsettled
      have hclosed := hsettled.isClosed_of_append (by simp)
      have hbehind : Settled ([word.toList] ++ words.map String.toList) :=
        hsettled.of_append_right
      have hwords : Settled ((([] : List String) ++ words).map String.toList) :=
        hbehind.of_append_right
      by_cases hne : condition = []
      · subst hne
        obtain ⟨rfl, heq⟩ := eq_not_of_conditionTexts hword htexts
        rw [heq] at htexts ⊢
        obtain ⟨clauses, exclusions, hentries, hclauses, hphrases⟩ :=
          ih (List.forall_mem_nil _) hwords htexts
        exact ⟨clauses, exclusions, hentries, fun _ => hclauses rfl, hphrases⟩
      · rw [conditionTexts_keyword hword hne] at htexts ⊢
        obtain ⟨clauses, exclusions, hentries, hclauses, hphrases⟩ :=
          ih (List.forall_mem_nil _) hwords fun p hp => htexts p (List.mem_cons_of_mem _ hp)
        rw [hentries]
        cases excluding with
        | true =>
          obtain rfl := hclauses rfl
          exact ⟨[], condition :: exclusions, rfl, fun _ => rfl,
            hphrases.cons hne hcondition hclosed⟩
        | false =>
          exact ⟨condition :: clauses, exclusions, rfl, nofun,
            hphrases.cons hne hcondition hclosed⟩
    · have happend : conditionTexts excluding leading condition ([word] ++ words) =
          conditionTexts excluding leading (condition ++ [word]) words :=
        conditionTexts_append (List.forall_mem_singleton.mpr hword)
      rw [List.singleton_append] at happend
      rw [happend] at htexts ⊢
      refine ih (List.forall_mem_append.mpr ⟨hcondition, List.forall_mem_singleton.mpr hword⟩) ?_
        htexts
      rwa [List.append_assoc]

/-! ### Reading what is printed -/

theorem conditionTexts_intercalate {others : List (Bool × String)} (hne : ∀ g ∈ groups, g ≠ [])
    (hplain : ∀ g ∈ groups, ∀ word ∈ g, ¬ IsKeyword word) (hgroups : groups ≠ [])
    (hrest : ∀ leading condition, condition ≠ [] →
      conditionTexts excluding leading condition rest =
        (excluding, " ".intercalate condition) :: others) :
    conditionTexts excluding leading [] (["or"].intercalate groups ++ rest) =
      groups.map (fun g => (excluding, " ".intercalate g)) ++ others := by
  induction groups generalizing leading with
  | nil => exact absurd rfl hgroups
  | cons g groups ih =>
    obtain ⟨hg, hne⟩ := List.forall_mem_cons.mp hne
    obtain ⟨hword, hplain⟩ := List.forall_mem_cons.mp hplain
    cases groups with
    | nil =>
      rw [List.intercalate_singleton, conditionTexts_append hword, List.nil_append,
        hrest leading g hg]
      rfl
    | cons next groups =>
      rw [List.intercalate_cons_cons, List.append_assoc, List.append_assoc,
        conditionTexts_append hword, List.nil_append, List.singleton_append,
        conditionTexts_keyword (.inl rfl) hg, show (excluding || "or" == "not") = excluding from
          Bool.or_false excluding, ih hne hplain (List.cons_ne_nil _ _)]
      rfl

theorem conditionTexts_printedWords (h : Phrases (clauses ++ exclusions)) :
    conditionTexts false true [] (printedWords clauses exclusions) =
      entries clauses exclusions := by
  obtain ⟨hne, hne'⟩ := List.forall_mem_append.mp h.ne_nil
  obtain ⟨hplain, hplain'⟩ := List.forall_mem_append.mp h.plain
  by_cases hexclusions : exclusions = []
  · subst hexclusions
    by_cases hclauses : clauses = []
    · subst hclauses
      rfl
    · exact conditionTexts_intercalate hne hplain hclauses fun _ _ => conditionTexts_nil
  · have hread : conditionTexts true false [] (["or"].intercalate exclusions ++ []) =
        exclusions.map (fun g => (true, " ".intercalate g)) ++ [] :=
      conditionTexts_intercalate hne' hplain' hexclusions fun _ _ => conditionTexts_nil
    rw [List.append_nil, List.append_nil] at hread
    rw [printedWords, entries, if_neg hexclusions, ← hread]
    by_cases hclauses : clauses = []
    · subst hclauses
      exact conditionTexts_leading
    · refine conditionTexts_intercalate hne hplain hclauses fun leading condition hcondition => ?_
      exact conditionTexts_keyword (.inr rfl) hcondition

/-! ### The printed text -/

theorem settled_intercalate (hne : ∀ g ∈ groups, g ≠ [])
    (h : Settled ((groups.flatten ++ rest).map String.toList)) :
    Settled ((["or"].intercalate groups ++ rest).map String.toList) := by
  induction groups with
  | nil => exact h
  | cons g groups ih =>
    obtain ⟨hg, hne⟩ := List.forall_mem_cons.mp hne
    cases groups with
    | nil =>
      rw [List.intercalate_singleton]
      rwa [List.flatten_singleton] at h
    | cons next groups =>
      rw [List.flatten_cons, List.append_assoc, List.map_append] at h
      rw [List.intercalate_cons_cons, List.append_assoc, List.append_assoc, List.map_append]
      have hnext : next ≠ [] := hne next List.mem_cons_self
      have hclosed := h.isClosed_of_append (by simp [hnext])
      have hor : IsClosed "or".toList := isClosed_of_isKeyword (.inl rfl)
      exact .append hclosed (.append (List.forall_mem_singleton.mpr hor) (ih hne h.of_append_right))

theorem settled_printedWords (h : Phrases (clauses ++ exclusions)) :
    Settled ((printedWords clauses exclusions).map String.toList) := by
  obtain ⟨hne, hne'⟩ := List.forall_mem_append.mp h.ne_nil
  have hsettled := h.settled
  rw [List.flatten_append] at hsettled
  refine settled_intercalate hne ?_
  split
  · rename_i hnil
    rwa [hnil] at hsettled
  · rename_i hexclusions
    rw [List.map_append] at hsettled ⊢
    obtain ⟨g, others, rfl⟩ := List.exists_cons_of_ne_nil hexclusions
    have hg : g ≠ [] := hne' g List.mem_cons_self
    have hnot : IsClosed "not".toList := isClosed_of_isKeyword (.inr rfl)
    have hbehind : Settled ((["or"].intercalate (g :: others) ++ []).map String.toList) :=
      settled_intercalate hne' (by simpa using hsettled.of_append_right)
    rw [List.append_nil] at hbehind
    exact .append (hsettled.isClosed_of_append (by simp [hg]))
      (.append (List.forall_mem_singleton.mpr hnot) hbehind)

theorem intercalate_ne_nil_of_phrases (hne : ∀ g ∈ groups, g ≠ []) (hgroups : groups ≠ []) :
    ["or"].intercalate groups ≠ [] := by
  obtain ⟨g, others, rfl⟩ := List.exists_cons_of_ne_nil hgroups
  have hg : g ≠ [] := hne g List.mem_cons_self
  cases others with
  | nil => rwa [List.intercalate_singleton]
  | cons next others =>
    rw [List.intercalate_cons_cons, List.append_assoc]
    exact List.append_ne_nil_of_left_ne_nil hg _

theorem intercalate_or (hne : ∀ g ∈ groups, g ≠ []) :
    " or ".intercalate (groups.map fun g => " ".intercalate g) =
      " ".intercalate (["or"].intercalate groups) := by
  induction groups with
  | nil => rfl
  | cons g groups ih =>
    obtain ⟨hg, hne⟩ := List.forall_mem_cons.mp hne
    cases groups with
    | nil => rw [List.map_singleton, String.intercalate_singleton, List.intercalate_singleton]
    | cons next groups =>
      rw [List.map_cons, String.intercalate_cons_of_ne_nil (by simp), ih hne,
        List.intercalate_cons_cons, List.append_assoc, List.singleton_append,
        String.intercalate_append_of_ne_nil hg (List.cons_ne_nil _ _),
        String.intercalate_cons_of_ne_nil
          (intercalate_ne_nil_of_phrases hne (List.cons_ne_nil _ _))]
      exact String.toList_inj.mp (by simp)

theorem text_eq_printedWords (hgroups : ∀ g ∈ clauses ++ exclusions, g ≠ [])
    (hclauses : e.clauses.map Condition.text = clauses.map fun g => " ".intercalate g)
    (hexclusions : e.exclusions.map Condition.text = exclusions.map fun g => " ".intercalate g) :
    e.text = " ".intercalate (printedWords clauses exclusions) := by
  obtain ⟨hne, hne'⟩ := List.forall_mem_append.mp hgroups
  have hempty : e.clauses.isEmpty = clauses.isEmpty := by
    rw [← List.isEmpty_map (f := Condition.text), hclauses, List.isEmpty_map]
  have hempty' : e.exclusions.isEmpty = exclusions.isEmpty := by
    rw [← List.isEmpty_map (f := Condition.text), hexclusions, List.isEmpty_map]
  rw [text, hclauses, hexclusions, hempty, hempty', intercalate_or hne, intercalate_or hne',
    printedWords]
  cases exclusions with
  | nil => rw [if_pos List.isEmpty_nil, if_pos rfl, List.append_nil]
  | cons g others =>
    have hbehind := intercalate_ne_nil_of_phrases hne' (List.cons_ne_nil g others)
    rw [if_neg (by simp), if_neg (List.cons_ne_nil _ _)]
    cases clauses with
    | nil =>
      rw [if_pos List.isEmpty_nil, List.intercalate_nil, List.nil_append,
        String.intercalate_cons_of_ne_nil hbehind]
      exact String.toList_inj.mp (by simp)
    | cons first clauses =>
      rw [if_neg (by simp), String.intercalate_append_of_ne_nil
        (intercalate_ne_nil_of_phrases hne (List.cons_ne_nil _ _)) (List.cons_ne_nil _ _),
        String.intercalate_cons_of_ne_nil hbehind]
      exact String.toList_inj.mp (by simp)

/-! ### Trimmed words -/

def trimWord (word : String) : String := String.ofList (trim word.toList)

theorem toList_comp_trimWord : String.toList ∘ trimWord = trim ∘ String.toList :=
  funext fun _ => String.toList_ofList

/-- Only the last word of a text can change when it is trimmed, and then it leaves a bracket open,
so that it is no keyword. -/
theorem Phrases.map_trimWord (h : Phrases groups) : Phrases (groups.map (·.map trimWord)) := by
  refine ⟨List.forall_mem_map.mpr fun g hg => ?_, List.forall_mem_map.mpr fun g hg => ?_, ?_⟩
  · simpa using h.ne_nil g hg
  · refine List.forall_mem_map.mpr fun word hword hkeyword => h.plain g hg word hword ?_
    have hmem : word.toList ∈ groups.flatten.map String.toList :=
      List.mem_map_of_mem (List.mem_flatten_of_mem hg hword)
    obtain ⟨depth, hdepth⟩ := h.settled.exists_unbroken _ hmem
    have hclosed := (isClosed_of_isKeyword hkeyword).unbroken
    rw [trimWord, String.toList_ofList] at hclosed
    rwa [trimWord, hdepth.trim_eq_self_of_trim hclosed, String.ofList_toList] at hkeyword
  · rw [← List.map_flatten, List.map_map, toList_comp_trimWord, ← List.map_map]
    exact h.settled.map_trim

theorem Phrases.settled_of_mem (h : Phrases groups) (hg : group ∈ groups) :
    Settled (group.map String.toList) := by
  obtain ⟨before, behind, rfl⟩ := List.append_of_mem hg
  have hsettled := h.settled
  rw [List.flatten_append, List.flatten_cons, List.map_append, List.map_append] at hsettled
  exact hsettled.of_append_right.of_append_left

theorem text_eq_of_ofText {c : Condition} (hgroup : Settled (group.map String.toList))
    (h : Condition.ofText macros (" ".intercalate group) = .ok c) :
    c.text = " ".intercalate (group.map trimWord) := by
  rw [Condition.text_of_ofText h, String.toList_intercalate]
  refine String.toList_inj.mp ?_
  rw [String.toList_ofList, String.toList_intercalate, List.map_map, toList_comp_trimWord,
    ← List.map_map]
  exact hgroup.trim_intercalate

/-! ### Environments -/

/-- Conditions that are read from the texts of words. -/
def Read (macros : MacroTable) (groups : List (List String)) (conditions : List Condition) : Prop :=
  List.Forall₂ (fun g c => Condition.ofText macros (" ".intercalate g) = .ok c) groups conditions

theorem readAll_cons {excluding : Bool} {text : String} {texts : List (Bool × String)} :
    readAll macros ((excluding, text) :: texts) = .ok e ↔
      ∃ c e', Condition.ofText macros text = .ok c ∧ readAll macros texts = .ok e' ∧
        (if excluding then { e' with exclusions := c :: e'.exclusions }
          else { e' with clauses := c :: e'.clauses }) = e := by
  rw [readAll, bind_eq_ok]
  constructor
  · intro ⟨c, hc, h⟩
    obtain ⟨e', he', h⟩ := bind_eq_ok.mp h
    exact ⟨c, e', hc, he', Except.ok.inj h⟩
  · intro ⟨c, e', hc, he', h⟩
    exact ⟨c, hc, bind_eq_ok.mpr ⟨e', he', congrArg Except.ok h⟩⟩

theorem readAll_entries : readAll macros (entries clauses exclusions) = .ok e ↔
    Read macros clauses e.clauses ∧ Read macros exclusions e.exclusions := by
  induction clauses generalizing e with
  | nil =>
    rw [entries, List.map_nil, List.nil_append]
    induction exclusions generalizing e with
    | nil =>
      obtain ⟨cs, xs⟩ := e
      simp [readAll, Read, eq_comm]
    | cons g exclusions ih =>
      rw [List.map_cons, readAll_cons]
      constructor
      · rintro ⟨c, e', hc, he', rfl⟩
        obtain ⟨hclauses, hexclusions⟩ := ih.mp he'
        exact ⟨hclauses, .cons hc hexclusions⟩
      · rintro ⟨hclauses, hexclusions⟩
        obtain ⟨cs, xs⟩ := e
        cases hexclusions with
        | @cons _ c _ xs hc hexclusions =>
          exact ⟨c, ⟨cs, xs⟩, hc, ih.mpr ⟨hclauses, hexclusions⟩, rfl⟩
  | cons g clauses ih =>
    rw [entries, List.map_cons, List.cons_append, readAll_cons]
    constructor
    · rintro ⟨c, e', hc, he', rfl⟩
      obtain ⟨hclauses, hexclusions⟩ := ih.mp he'
      exact ⟨.cons hc hclauses, hexclusions⟩
    · rintro ⟨hclauses, hexclusions⟩
      obtain ⟨cs, xs⟩ := e
      cases hclauses with
      | @cons _ c _ cs hc hclauses =>
        exact ⟨c, ⟨cs, xs⟩, hc, ih.mpr ⟨hclauses, hexclusions⟩, rfl⟩

theorem ne_empty_of_readAll {texts : List (Bool × String)} (h : readAll macros texts = .ok e) :
    ∀ p ∈ texts, p.2 ≠ "" := by
  induction texts generalizing e with
  | nil => exact List.forall_mem_nil _
  | cons p texts ih =>
    obtain ⟨c, e', hc, he', -⟩ := readAll_cons.mp h
    refine List.forall_mem_cons.mpr ⟨fun hempty => ?_, ih he'⟩
    obtain ⟨fault, hfault⟩ := Condition.ofText_empty macros
    rw [hempty, hfault] at hc
    cases hc

theorem Read.map_trimWord {conditions : List Condition} (h : Read macros groups conditions)
    (hgroups : ∀ g ∈ groups, Settled (g.map String.toList)) :
    conditions.map Condition.text = (groups.map (·.map trimWord)).map (fun g => " ".intercalate g) ∧
      Read macros (groups.map (·.map trimWord)) conditions := by
  induction h with
  | nil => exact ⟨rfl, .nil⟩
  | @cons g c groups conditions hc _ ih =>
    obtain ⟨hg, hgroups⟩ := List.forall_mem_cons.mp hgroups
    obtain ⟨htexts, hread⟩ := ih hgroups
    have htext := text_eq_of_ofText hg hc
    exact ⟨congrArg₂ List.cons htext htexts, .cons (htext ▸ Condition.ofText_trimmed hc) hread⟩

theorem ofText_of_read (hphrases : Phrases (clauses ++ exclusions))
    (hclauses : e.clauses.map Condition.text = clauses.map fun g => " ".intercalate g)
    (hexclusions : e.exclusions.map Condition.text = exclusions.map fun g => " ".intercalate g)
    (hread : Read macros clauses e.clauses) (hread' : Read macros exclusions e.exclusions) :
    ofText macros e.text = .ok e := by
  rw [ofText, text_eq_printedWords hphrases.ne_nil hclauses hexclusions,
    outerWords_intercalate (settled_printedWords hphrases), conditionTexts_printedWords hphrases]
  exact readAll_entries.mpr ⟨hread, hread'⟩

/-- The text of an environment is read as the same environment, with the same clauses and
exclusions in the same order. -/
theorem ofText_text (h : ofText macros text = .ok e) : ofText macros e.text = .ok e := by
  obtain ⟨clauses, exclusions, hentries, -, hphrases⟩ :
      ∃ clauses exclusions, conditionTexts false true [] (outerWords text) =
        entries clauses exclusions ∧ _ ∧ Phrases (clauses ++ exclusions) :=
    exists_phrases (List.forall_mem_nil _) (settled_outerWords text) (ne_empty_of_readAll h)
  rw [ofText, hentries] at h
  obtain ⟨hread, hread'⟩ := readAll_entries.mp h
  obtain ⟨hsettled, hsettled'⟩ :=
    List.forall_mem_append.mp fun g (hg : g ∈ clauses ++ exclusions) => hphrases.settled_of_mem hg
  obtain ⟨htexts, htrimmed⟩ := hread.map_trimWord hsettled
  obtain ⟨htexts', htrimmed'⟩ := hread'.map_trimWord hsettled'
  have hall := hphrases.map_trimWord
  rw [List.map_append] at hall
  exact ofText_of_read hall htexts htexts' htrimmed htrimmed'

theorem ofText_text_keywords : ∃ e,
    ofText (.empty .empty) " not {a  or}_\t not _(b not)+  or  x _ " = .ok e ∧
      e.text = "not {a  or}_ or _(b not)+ or x _" ∧ ofText (.empty .empty) e.text = .ok e := by
  have hok : ((ofText (.empty .empty) " not {a  or}_\t not _(b not)+  or  x _ ").toOption.any
      fun e => e.text == "not {a  or}_ or _(b not)+ or x _") = true := by decide +kernel
  obtain ⟨e, he, htext⟩ := exists_ok_of_any hok
  exact ⟨e, he, beq_iff_eq.mp htext, ofText_text he⟩

end Environment

end SoundLaw
