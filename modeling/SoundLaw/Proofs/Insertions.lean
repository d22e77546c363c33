import SoundLaw.Proofs.Definitions
import SoundLaw.Proofs.SourcePatterns

/-!
# Insertions

Whether a change inserts is written in its source word, which is `0` then. A walk learns it from
the span that a replacement takes out, and passes one more segment where there is none. The two
agree as long as no alternative of a macro is empty, and none ever becomes so: a token without
pieces contributes no alternative at all, and a product with a factor that has none has none
either. Every other source word has an element, and every element reads a segment.
-/

namespace SoundLaw
set_option autoImplicit false
open Text

/-! ### Alternatives -/

/-- A run of segments of a model, and not an empty one. -/
structure IsRunOf (m : FeatureModel) (run : List Segment) : Prop where
  ne_nil : run ≠ []
  resolved : ∀ s ∈ run, ∃ symbol, s = m.resolve symbol

namespace MacroTable
variable {t t' : MacroTable} {name : String} {tokens parts : List String}
variable {run : List Segment}

/-- Every alternative of every macro is a run of segments of the model. -/
def IsSolid (t : MacroTable) : Prop :=
  ∀ name runs, t.find? name = some runs → ∀ run ∈ runs, IsRunOf t.model run

theorem IsSolid.runsOf (ht : t.IsSolid) {s : String} (hrun : run ∈ t.runsOf s) :
    IsRunOf t.model run := by
  rw [MacroTable.runsOf] at hrun
  cases hfind : t.find? s with
  | none =>
    rw [hfind] at hrun
    obtain rfl := List.mem_singleton.mp hrun
    refine ⟨List.cons_ne_nil _ _, fun x hx => ⟨s, List.mem_singleton.mp hx⟩⟩
  | some runs =>
    rw [hfind] at hrun
    exact ht s runs hfind run hrun

theorem IsSolid.contribution (ht : t.IsSolid) (hrun : run ∈ t.contribution parts) :
    IsRunOf t.model run := by
  rw [MacroTable.contribution] at hrun
  cases parts with
  | nil => cases hrun
  | cons part parts =>
    rw [List.map_cons, cartesianProduct] at hrun
    constructor
    · obtain ⟨a, ha, b, -, rfl⟩ := mem_combinations_cons.mp hrun
      exact List.append_ne_nil_of_left_ne_nil (ht.runsOf ha).ne_nil b
    · intro s hs
      obtain ⟨runs, hruns, r, hr, hsr⟩ := exists_of_mem_combinations hrun hs
      rw [← List.map_cons] at hruns
      obtain ⟨part, -, rfl⟩ := List.mem_map.mp hruns
      exact (ht.runsOf hr).resolved s hsr

theorem IsSolid.define (ht : t.IsSolid) (h : t.define name tokens = .ok t') : t'.IsSolid := by
  have hdefines := defines_of_define h
  intro other alternatives hother run hrun
  rw [hdefines.model]
  rw [hdefines.find?] at hother
  split at hother
  · obtain rfl := Option.some.inj hother
    obtain ⟨token, -, hrun⟩ := List.mem_flatMap.mp hrun
    exact ht.contribution hrun
  · exact ht other alternatives hother run hrun

theorem IsSolid.after {d : Definition} (ht : t.IsSolid) : (t.after d).IsSolid := by
  cases h : d.run t with
  | error e => rwa [after_of_error h]
  | ok t' =>
    obtain ⟨tokens, hstores⟩ := Definition.exists_stores h
    rw [after_of_ok h]
    exact ht.define hstores.define_eq_ok

theorem isSolid_ofDefinitions (m : FeatureModel) (ds : List Definition) :
    (ofDefinitions m ds).IsSolid := by
  induction ds using List.reverseRecOn with
  | nil => exact nofun
  | append_singleton ds d ih =>
    rw [ofDefinitions_concat]
    exact ih.after

end MacroTable

/-! ### Readings -/

/-- Whatever a solid element reads, it reads a segment at least. -/
def Element.IsSolid : Element → Prop
  | named _ alternatives => ∀ run ∈ alternatives, run ≠ []
  | literal _ | wildcard => True

section Readings
variable {e : Element} {source : List Element} {word : List Segment} {pos : Nat}

theorem Element.IsSolid.lt_stop (he : e.IsSolid) {r : Reading} (h : r ∈ e.readings word pos) :
    pos < r.stop := by
  cases e with
  | literal s =>
    rw [readings] at h
    split at h
    · rw [List.mem_singleton.mp h]
      exact Nat.lt_succ_self pos
    · cases h
  | named name alternatives =>
    obtain ⟨k, run, hk, -, rfl⟩ := mem_readingsOf.mp h
    have hlength := List.length_pos_of_ne_nil (he run (List.mem_of_getElem? hk))
    exact Nat.lt_add_of_pos_right hlength
  | wildcard =>
    rw [readings] at h
    split at h
    · split at h
      · cases h
      · rw [List.mem_singleton.mp h]
        exact Nat.lt_succ_self pos
    · cases h

theorem Candidate.Reads.solid {k : Candidate} (hsource : ∀ e ∈ source, e.IsSolid)
    (h : k.Reads word source pos) :
    pos + source.length ≤ k.stop ∧ ∀ x ∈ k.captures, x.first < x.last := by
  induction source generalizing pos k with
  | nil =>
    obtain rfl := Candidate.reads_nil.mp h
    exact ⟨Nat.le_refl _, nofun⟩
  | cons e es ih =>
    obtain ⟨he, hes⟩ := List.forall_mem_cons.mp hsource
    obtain ⟨r, hr, rest, hrest, rfl⟩ := Candidate.reads_cons.mp h
    have hlt := he.lt_stop hr
    obtain ⟨hstop, hcaptures⟩ := ih hes hrest
    refine ⟨?_, List.forall_mem_cons.mpr ⟨hlt, hcaptures⟩⟩
    rw [List.length_cons]
    show pos + (es.length + 1) ≤ rest.stop
    omega

end Readings

/-! ### Source words -/

section Words
variable {macros : MacroTable} {word whole : String} {c : Char} {cs : List Char}

/-- A character that is no blank leaves a lexeme. -/
theorem Lexeme.exists_of_scan_cons {lexemes : List Lexeme} (hc : isBlank c = false)
    (h : scan macros whole (c :: cs) = .ok lexemes) :
    ∃ l rest, lexemes = l :: rest ∧ l ≠ space := by
  rw [scan] at h
  dsimp only at h
  split at h
  · cases h
  · rename_i hclose
    split at h
    · split at h
      · cases h
      · obtain ⟨rest, -, h⟩ := bind_eq_ok.mp h
        cases h
        refine ⟨_, rest, rfl, fun hspace => ?_⟩
        cases hspace
    · rename_i hopen
      split at h
      · rename_i l hl
        obtain ⟨rest, -, h⟩ := bind_eq_ok.mp h
        cases h
        refine ⟨l, rest, rfl, ?_⟩
        rintro rfl
        rw [isBlank_of_ofChar?_eq_space hl] at hc
        cases hc
      · rename_i hnone
        obtain ⟨rest, -, h⟩ := bind_eq_ok.mp h
        cases h
        have hordinary : ∀ x ∈ (String.ofList (c :: cs.takeWhile isOrdinary)).toList,
            isBlank x = false := by
          rw [String.toList_ofList]
          refine List.forall_mem_cons.mpr ⟨hc, fun x hx => ?_⟩
          exact isBlank_of_isOrdinary (List.mem_takeWhile_imp hx)
        have hsplit := Segmenter.split_ne_nil (g := macros.segmenter) hordinary fun hempty =>
          List.cons_ne_nil c _ (String.ofList_eq_empty_iff.mp hempty)
        obtain ⟨s, symbols, hsymbols⟩ := List.exists_cons_of_ne_nil hsplit
        rw [hsymbols]
        exact ⟨_, _, rfl, ofSymbol_ne_space s⟩

def BeginsSolid (cs : List Char) : Prop := ∃ c ∈ cs.head?, isBlank c = false

theorem Lexeme.ne_nil_of_ofText {lexemes : List Lexeme} (hword : BeginsSolid word.toList)
    (h : ofText macros word = .ok lexemes) : lexemes ≠ [] := by
  obtain ⟨c, hhead, hc⟩ := hword
  obtain ⟨cs, htext⟩ := List.head?_eq_some_iff.mp hhead
  obtain ⟨all, hall, h⟩ := bind_eq_ok.mp h
  cases h
  rw [htext] at hall
  obtain ⟨l, rest, rfl, hl⟩ := exists_of_scan_cons hc hall
  rw [List.dropWhile_cons_of_neg (by simpa using hl), squeeze_cons hl]
  exact List.cons_ne_nil _ _

theorem ne_nil_of_readSource {es : List Element} (hne : word ≠ "0")
    (hword : BeginsSolid word.toList) (h : readSource macros word = .ok es) : es ≠ [] := by
  rw [readSource, if_neg hne] at h
  obtain ⟨lexemes, hlexemes, h⟩ := bind_eq_ok.mp h
  have hsome := Lexeme.ne_nil_of_ofText hword (mapError_eq_ok.mp hlexemes)
  rintro rfl
  have hall := mapM_eq_ok_iff.mp h
  exact hsome (List.forall₂_nil_right_iff.mp hall)

theorem isSolid_of_elementOf {l : Lexeme} {e : Element} (hmacros : macros.IsSolid)
    (h : elementOf macros word l = .ok e) : e.IsSolid := by
  unfold elementOf at h
  split at h
  · cases h
    trivial
  · obtain ⟨s, -, rfl⟩ := map_eq_ok.mp h
    trivial
  · cases h
    trivial
  · rename_i name
    obtain ⟨runs, hruns, rfl⟩ := map_eq_ok.mp (mapError_eq_ok.mp h)
    have hfind := MacroTable.alternatives_eq_ok.mp hruns
    exact fun run hrun => (hmacros name runs hfind run hrun).ne_nil
  · cases h

theorem isSolid_of_readSource {es : List Element} (hmacros : macros.IsSolid)
    (h : readSource macros word = .ok es) : ∀ e ∈ es, e.IsSolid := by
  rw [readSource] at h
  split at h
  · cases h
    exact List.forall_mem_nil _
  · obtain ⟨lexemes, -, h⟩ := bind_eq_ok.mp h
    intro e he
    obtain ⟨l, -, hl⟩ := exists_of_mem_mapM h he
    exact isSolid_of_elementOf hmacros hl

/-- What an unfinished word looks like: there is no character of it yet, and no bracket is open
then, or it begins with one that is no blank. -/
theorem beginsSolid_outerWordsFrom {depth : Nat} {begun text w : List Char}
    (hbegun : begun = [] ∧ depth = 0 ∨ BeginsSolid begun)
    (hw : w ∈ outerWordsFrom depth begun text) : BeginsSolid w := by
  have hflush : w ∈ wordOf begun → BeginsSolid w := by
    intro hw
    rw [wordOf] at hw
    split at hw
    · cases hw
    · rename_i hsome
      rw [List.mem_singleton.mp hw]
      refine hbegun.resolve_left fun hempty => hsome ?_
      rw [hempty.1]
      rfl
  induction text generalizing depth begun with
  | nil => exact hflush hw
  | cons c cs ih =>
    rw [outerWordsFrom] at hw
    split at hw
    · rcases List.mem_append.mp hw with hw | hw
      · exact hflush hw
      · exact ih (.inl ⟨rfl, rfl⟩) hw nofun
    · rename_i hsame
      have hbegun' : BeginsSolid (begun ++ [c]) := by
        rcases hbegun with ⟨rfl, rfl⟩ | ⟨d, hd, hblank⟩
        · exact ⟨c, rfl, Bool.eq_false_iff.mpr fun hc => hsame ⟨hc, rfl⟩⟩
        · obtain ⟨ds, rfl⟩ := List.head?_eq_some_iff.mp hd
          exact ⟨d, rfl, hblank⟩
      refine ih (.inr hbegun') hw fun hw => ?_
      rw [wordOf, if_neg (by simp)] at hw
      rw [List.mem_singleton.mp hw]
      exact hbegun'

theorem beginsSolid_sourceWords {text source : String} (h : source ∈ Rule.sourceWords text) :
    BeginsSolid source.toList := by
  obtain ⟨w, hw, rfl⟩ := List.mem_map.mp h
  rw [String.toList_ofList]
  exact beginsSolid_outerWordsFrom (.inl ⟨rfl, rfl⟩) hw

end Words

/-! ### Candidates -/

def Change.Inserts (c : Change) : Prop :=
  ∀ word pos, c.candidates word pos = [⟨pos, []⟩]

/-- All that a change reads holds a segment, and so does all that one of its elements reads. -/
def Change.Consumes (c : Change) : Prop :=
  ∀ word pos, ∀ k ∈ c.candidates word pos, pos < k.stop ∧ ∀ x ∈ k.captures, x.first < x.last

namespace Rule
variable {macros : MacroTable} {source text : String} {c : Change} {r : Rule}

theorem inserts_of_readSource (h : readSource macros "0" = .ok c.source) :
    c.isInsertion = true ∧ c.Inserts := by
  rw [readSource, if_pos rfl] at h
  have hsource : c.source = [] := (Except.ok.inj h).symm
  refine ⟨by rw [Change.isInsertion, hsource]; rfl, fun word pos => ?_⟩
  rw [Change.candidates, hsource, Change.waysToRead, List.mergeSort_singleton]

theorem consumes_of_readSource (hmacros : macros.IsSolid) (hne : source ≠ "0")
    (hsource : BeginsSolid source.toList) (h : readSource macros source = .ok c.source) :
    c.isInsertion = false ∧ c.Consumes := by
  have hsome := ne_nil_of_readSource hne hsource h
  refine ⟨List.isEmpty_eq_false_iff.mpr hsome, fun word pos k hk => ?_⟩
  obtain ⟨hstop, hcaptures⟩ :=
    (Change.mem_candidates.mp hk).solid (isSolid_of_readSource hmacros h)
  have hlength := List.length_pos_of_ne_nil hsome
  exact ⟨by omega, hcaptures⟩

/-- A change inserts if its source word is `0`, and consumes if it is any other. -/
def FollowsSource (source : String) (c : Change) : Prop :=
  (source = "0" → c.isInsertion = true ∧ c.Inserts) ∧
    (source ≠ "0" → c.isInsertion = false ∧ c.Consumes)

theorem forall₂_followsSource (hmacros : macros.IsSolid) (h : ofText macros text = .ok r) :
    List.Forall₂ FollowsSource (sourceWords text) r.changes := by
  have hall := forall₂_sourceWords h
  rw [List.forall₂_iff_zip] at hall ⊢
  refine ⟨hall.1, fun {source c} hmem => ?_⟩
  have hread := hall.2 hmem
  constructor
  · rintro rfl
    exact inserts_of_readSource hread
  · intro hne
    exact consumes_of_readSource hmacros hne (beginsSolid_sourceWords (List.of_mem_zip hmem).1)
      hread

theorem FollowsSource.stop_eq_iff {word : List Segment} {pos : Nat} {k : Candidate}
    (h : FollowsSource source c) (hk : k ∈ c.candidates word pos) :
    k.stop = pos ↔ source = "0" := by
  constructor
  · intro hstop
    by_contra hne
    exact absurd hstop (Nat.ne_of_gt ((h.2 hne).2 word pos k hk).1)
  · intro hzero
    rw [(h.1 hzero).2 word pos] at hk
    rw [List.mem_singleton.mp hk]

/-- In every table that definitions lead to, all alternatives are runs of segments. A change of a
rule that is read with such a table follows its source word; and a walk takes the way of an
insertion where that word is `0`, and nowhere else. -/
theorem inserts_iff_zero (m : FeatureModel) (ds : List Definition) :
    let macros := MacroTable.ofDefinitions m ds
    macros.IsSolid ∧ ∀ text r, ofText macros text = .ok r →
      List.Forall₂ FollowsSource (sourceWords text) r.changes ∧
      ∀ w pos x, r.replacement? w pos = some x → ∃ (i : Nat) (source : String) (c : Change)
        (k : Candidate), (sourceWords text)[i]? = some source ∧ r.changes[i]? = some c ∧
          k ∈ c.candidates w.segments pos ∧ x = ⟨k.stop, c.render w.segments k.captures⟩ ∧
          (x.stop = pos ↔ source = "0") ∧
          stride pos x = x.run.length + if source = "0" then 1 else 0 := by
  intro macros
  have hmacros : macros.IsSolid := MacroTable.isSolid_ofDefinitions m ds
  refine ⟨hmacros, fun text r hr => ?_⟩
  have hall := forall₂_followsSource hmacros hr
  refine ⟨hall, fun w pos x hx => ?_⟩
  obtain ⟨before, c, after, k, hchanges, -, hk, -, rfl⟩ := replacement?_eq_some_iff.mp hx
  have hc : r.changes[before.length]? = some c := by
    rw [hchanges, List.getElem?_append_right (Nat.le_refl _), Nat.sub_self]
    rfl
  obtain ⟨source, hsource, hfollows⟩ := getElem?_of_forall₂ hall.flip hc
  have hmem : k ∈ c.candidates w.segments pos := Change.mem_candidates.mpr hk.1
  have hstop := FollowsSource.stop_eq_iff hfollows hmem
  refine ⟨_, source, c, k, hsource, hc, hmem, rfl, hstop, ?_⟩
  rw [stride]
  simp only [hstop]

theorem inserts_iff_zero_nasal :
    let ds : List Definition := [.ofLine "N", .ofLine "N = m ng"]
    let macros := MacroTable.ofDefinitions .empty ds
    let text := "Na 0 > a x / _g"
    let w : Word := ⟨.empty, ["a", "g"].map FeatureModel.empty.resolve⟩
    ∃ r x, ofText macros text = .ok r ∧ macros.names = ["N"] ∧ macros.IsSolid ∧
      List.Forall₂ FollowsSource (sourceWords text) r.changes ∧ r.replacement? w 1 = some x ∧
      ∃ source ∈ sourceWords text, (x.stop = 1 ↔ source = "0") ∧
        stride 1 x = x.run.length + if source = "0" then 1 else 0 := by
  intro ds macros text w
  have hok : ((ofText macros text).toOption.any fun r => (r.replacement? w 1).isSome) = true := by
    decide +kernel
  obtain ⟨r, hr, hsome⟩ := exists_ok_of_any hok
  obtain ⟨x, hx⟩ := Option.isSome_iff_exists.mp hsome
  have hnames : macros.names = ["N"] := by decide +kernel
  obtain ⟨hsolid, hread⟩ := inserts_iff_zero .empty ds
  obtain ⟨hall, hwalk⟩ := hread text r hr
  obtain ⟨i, source, c, k, hsource, -, -, -, hstop, hstride⟩ := hwalk w 1 x hx
  exact ⟨r, x, hr, hnames, hsolid, hall, hx, source, List.mem_of_getElem? hsource, hstop, hstride⟩

end Rule

end SoundLaw
