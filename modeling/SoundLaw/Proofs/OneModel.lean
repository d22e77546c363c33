import SoundLaw.Proofs.Overwriting
import SoundLaw.Proofs.Scripts

/-!
# Words of one model

When a word is put into another one, only the models of the two words are compared, and the
segments of the second one go in unseen. So it is not enough that every call checks what it is
given: each of them has to keep the segments of the words that it makes on the model of the word.
Calls that check nothing do so because they bring in nothing but what the word had or what the
model resolves; a rule does because the features that it writes over a segment leave it where it is.
-/

namespace SoundLaw
set_option autoImplicit false

theorem FeatureModel.Resolves.model {m : FeatureModel} {s : Segment} (h : m.Resolves s) :
    s.model = m := by
  rcases h with ⟨symbol, rfl⟩ | ⟨descriptor, hbundle⟩
  · rfl
  · exact (isOn_of_resolveBundle hbundle).model

def Word.IsUnmixed (w : Word) : Prop := ∀ s ∈ w.segments, w.model.same s.model = true

/-! ### Calls that bring something in -/

/-- A call that changes a word, with the data that it brings in. -/
inductive Edit
  | push (s : Segment)
  | append (v : Word)
  | splice (first last : Nat) (v : Word)
  | replaceAll (source target : Word)

namespace Edit

def call : Edit → Call ModelFault Word Bool
  | push s => do Word.pushing s; return true
  | append v => do Word.appending v; return true
  | splice first last v => Word.splicing first last v
  | replaceAll source target => do Word.replacing source target; return true

/-- The word that a call leads to. There is none if its span is not one of the word. -/
def run (w : Word) (e : Edit) : Except ModelFault (Option Word) :=
  match e.call.run w with
  | .ok true v => .ok (some v)
  | .ok false _ => .ok none
  | .error f _ => .error f

/-- The word that a call leaves behind, whether or not it fails. -/
def after (w : Word) (e : Edit) : Word := e.call.left w

/-- What a call is given, by model and text, in the order in which it is checked. -/
def arguments : Edit → List (FeatureModel × String)
  | push s => [(s.model, s.symbol)]
  | append v | splice _ _ v => [(v.model, v.text)]
  | replaceAll source target => [(source.model, source.text), (target.model, target.text)]

def words : Edit → List Word
  | push _ => []
  | append v | splice _ _ v => [v]
  | replaceAll source target => [source, target]

def InBounds (w : Word) : Edit → Prop
  | splice first last _ => first ≤ last ∧ last ≤ w.length
  | push _ | append _ | replaceAll _ _ => True

/-- What a call does once all that it was given has been checked. -/
def outcome (w : Word) : Edit → Option Word
  | push s => some { w with segments := w.segments ++ [s] }
  | append v => some { w with segments := w.segments ++ v.segments }
  | splice first last v =>
    if first ≤ last ∧ last ≤ w.length then
      some { w with segments := Word.spliceRun w.segments first last v.segments }
    else none
  | replaceAll source target =>
    if source.isEmpty then some w
    else some { w with segments := replaceRuns source.segments target.segments w.segments }

variable {w v : Word} {e : Edit}

/-- Whatever a call is given is checked before anything is changed. -/
theorem run_call (w : Word) (e : Edit) :
    e.call.run w = match forM e.arguments fun p => w.check p.1 p.2 with
      | .error f => .error f w
      | .ok _ => .ok (e.outcome w).isSome ((e.outcome w).getD w) := by
  cases e with
  | push s =>
    simp only [call, Word.pushing, bind_assoc, Word.run_checking_bind, arguments,
      List.forM_cons, List.forM_nil]
    cases w.check s.model s.symbol <;> rfl
  | append v =>
    simp only [call, Word.appending, bind_assoc, Word.run_checking_bind, arguments,
      List.forM_cons, List.forM_nil]
    cases w.check v.model v.text <;> rfl
  | splice first last v =>
    simp only [call, arguments, List.forM_cons, List.forM_nil, outcome]
    rw [Word.splicing, Word.run_checking_bind]
    cases w.check v.model v.text with
    | error f => rfl
    | ok =>
      simp only [EStateM.run_bind, EStateM.run_get]
      by_cases h : first ≤ last ∧ last ≤ w.length
      · simp only [if_pos h]
        rfl
      · simp only [if_neg h]
        rfl
  | replaceAll source target =>
    simp only [call, Word.replacing, bind_assoc, Word.run_checking_bind, arguments,
      List.forM_cons, List.forM_nil, outcome]
    cases w.check source.model source.text with
    | error f => rfl
    | ok =>
      cases w.check target.model target.text with
      | error f => rfl
      | ok => cases source.isEmpty <;> rfl

theorem run_eq (w : Word) (e : Edit) : e.run w =
    (forM e.arguments fun p => w.check p.1 p.2) >>= fun _ => .ok (e.outcome w) := by
  rw [run, run_call]
  cases forM e.arguments fun p => w.check p.1 p.2 with
  | error f => rfl
  | ok => cases houtcome : e.outcome w <;> rfl

theorem run_eq_ok_iff {x : Option Word} : e.run w = .ok x ↔
    (∀ p ∈ e.arguments, w.model.same p.1 = true) ∧ e.outcome w = x := by
  have hcheck : ∀ p : FeatureModel × String,
      w.check p.1 p.2 = .ok () ↔ w.model.same p.1 = true := by
    intro p
    rw [Word.check]
    split <;> simp_all
  rw [run_eq, bind_eq_ok]
  constructor
  · rintro ⟨_, hchecks, h⟩
    exact ⟨fun p hp => (hcheck p).mp (forM_eq_ok.mp hchecks p hp), Except.ok.inj h⟩
  · rintro ⟨hsame, rfl⟩
    exact ⟨(), forM_eq_ok.mpr fun p hp => (hcheck p).mpr (hsame p hp), rfl⟩

theorem exists_outcome (h : e.InBounds w) : ∃ v, e.outcome w = some v ∧ v.model = w.model := by
  cases e with
  | push s | append v => exact ⟨_, rfl, rfl⟩
  | splice first last v => exact ⟨_, if_pos h, rfl⟩
  | replaceAll source target =>
    rw [outcome]
    split
    · exact ⟨w, rfl, rfl⟩
    · exact ⟨_, rfl, rfl⟩

theorem run_push (w : Word) (s : Segment) : (push s).run w = (w.push s).map some := by
  rw [run, call, EStateM.run_bind, Word.push, Call.outcome]
  cases (Word.pushing s).run w <;> rfl

theorem after_of_error {f : ModelFault} (h : e.run w = .error f) : e.after w = w := by
  rw [run_eq] at h
  rw [after, Call.left, run_call]
  cases hchecks : forM e.arguments fun p => w.check p.1 p.2 with
  | error f' => rfl
  | ok =>
    rw [hchecks] at h
    cases h

theorem after_of_ok {x : Option Word} (h : e.run w = .ok x) : e.after w = x.getD w := by
  rw [run_eq] at h
  rw [after, Call.left, run_call]
  cases hchecks : forM e.arguments fun p => w.check p.1 p.2 with
  | error f' =>
    rw [hchecks] at h
    cases h
  | ok =>
    rw [hchecks] at h
    cases h
    rfl

theorem outcome_of_not_inBounds (h : ¬ e.InBounds w) : e.outcome w = none := by
  cases e with
  | push | append | replaceAll => exact absurd trivial h
  | splice first last v => exact if_neg h

/-- A call is refused for the first thing it is given that is of another model. -/
theorem run_eq_error {before after : List (FeatureModel × String)} {p : FeatureModel × String}
    (harguments : e.arguments = before ++ p :: after)
    (hbefore : ∀ q ∈ before, w.model.same q.1 = true) (hp : w.model.same p.1 = false) :
    e.run w = .error (.mismatch p.2) := by
  have hfirst : (forM before fun q => w.check q.1 q.2) = .ok () :=
    forM_eq_ok.mpr fun q hq => if_pos (hbefore q hq)
  have hforeign : w.check p.1 p.2 = .error (.mismatch p.2) := by
    rw [Word.check, hp]
    rfl
  rw [run_eq, harguments, List.forM_append, hfirst, List.forM_cons, hforeign]
  rfl

end Edit

theorem mem_of_mem_replaceRuns {source target segments : List Segment} {s : Segment}
    (h : s ∈ replaceRuns source target segments) : s ∈ target ∨ s ∈ segments := by
  fun_induction replaceRuns source target segments with
  | case1 => cases h
  | case2 x xs _ ih =>
    rcases List.mem_append.mp h with h | h
    · exact .inl h
    · exact (ih h).imp_right fun hs => List.mem_cons_of_mem x (List.mem_of_mem_drop hs)
  | case3 x xs _ ih =>
    rcases List.mem_cons.mp h with rfl | h
    · exact .inr List.mem_cons_self
    · exact (ih h).imp_right (List.mem_cons_of_mem x)

namespace Word.IsUnmixed
variable {w v : Word} {e : Edit} {m : FeatureModel}

theorem same (hv : v.IsUnmixed) (h : m.same v.model = true) {s : Segment} (hs : s ∈ v.segments) :
    m.same s.model = true :=
  FeatureModel.same_trans h (hv s hs)

theorem run (hw : w.IsUnmixed) (hwords : ∀ v ∈ e.words, v.IsUnmixed)
    (h : e.run w = .ok (some v)) : v.IsUnmixed := by
  obtain ⟨hsame, houtcome⟩ := Edit.run_eq_ok_iff.mp h
  cases e with
  | push s =>
    cases houtcome
    intro x hx
    rcases List.mem_append.mp hx with hx | hx
    · exact hw x hx
    · obtain rfl := List.mem_singleton.mp hx
      exact hsame _ List.mem_cons_self
  | append u =>
    cases houtcome
    intro x hx
    rcases List.mem_append.mp hx with hx | hx
    · exact hw x hx
    · exact (hwords u List.mem_cons_self).same (hsame _ List.mem_cons_self) hx
  | splice first last u =>
    rw [Edit.outcome] at houtcome
    split at houtcome
    · cases houtcome
      intro x hx
      simp only [Word.spliceRun, List.mem_append] at hx
      rcases hx with (hx | hx) | hx
      · exact hw x (List.mem_of_mem_take hx)
      · exact (hwords u List.mem_cons_self).same (hsame _ List.mem_cons_self) hx
      · exact hw x (List.mem_of_mem_drop hx)
    · cases houtcome
  | replaceAll source target =>
    rw [Edit.outcome] at houtcome
    split at houtcome
    · cases houtcome
      exact hw
    · cases houtcome
      intro x hx
      have htarget := List.mem_cons_of_mem source (List.mem_singleton_self target)
      rcases mem_of_mem_replaceRuns hx with hx | hx
      · refine (hwords target htarget).same (hsame (target.model, target.text) ?_) hx
        exact List.mem_cons_of_mem _ List.mem_cons_self
      · exact hw x hx

theorem ofSegments {segments : List Segment} (h : Word.ofSegments m segments = .ok w) :
    w.IsUnmixed := by
  have hempty : IsUnmixed ⟨m, []⟩ := List.forall_mem_nil _
  rw [Word.ofSegments] at h
  generalize (⟨m, []⟩ : Word) = u at h hempty
  induction segments generalizing u with
  | nil =>
    cases h
    exact hempty
  | cons s segments ih =>
    rw [List.foldlM_cons] at h
    obtain ⟨next, hpush, h⟩ := bind_eq_ok.mp h
    have hrun : (Edit.push s).run u = .ok (some next) := by
      rw [Edit.run_push, hpush]
      rfl
    exact ih next h (hempty.run (List.forall_mem_nil _) hrun)

end Word.IsUnmixed

/-! ### Rules and scripts -/

namespace Rule
variable {r : Rule} {m : FeatureModel} {ds : List Definition} {text : String} {w : Word}

theorem apply_of_not_same_model (h : w.model.same r.model = false) : r.apply w = w := by
  rw [apply, h]
  rfl

theorem isUnmixed_apply (h : ofText (.ofDefinitions m ds) text = .ok r) (hw : w.IsUnmixed) :
    (r.apply w).IsUnmixed := by
  cases hsame : w.model.same r.model with
  | false =>
    rw [apply_of_not_same_model hsame]
    exact hw
  | true =>
    have hbrings : ∀ c ∈ r.changes, ∀ item ∈ c.target,
        item.Brings fun s => w.model.same s.model = true := by
      intro c hc item hitem
      refine (brings_of_ofText (MacroTable.isSolid_ofDefinitions m ds) h c hc item hitem).mono ?_
      intro s hs
      rw [hs.model, ← model_of_ofText h]
      exact hsame
    rw [apply, if_pos hsame]
    exact forall_of_walk (fun _ _ hs _ => hs) hbrings hw

end Rule

namespace Script
variable {m : FeatureModel} {s s' : Script} {line : List Char} {w : Word}

/-- The macros of a script, and those that each of its rules was read with, come from definitions
for the model. -/
structure IsBuiltOn (s : Script) (m : FeatureModel) : Prop where
  macros : ∃ ds, s.macros = .ofDefinitions m ds
  rules : ∀ r ∈ s.rules, ∃ ds text, Rule.ofText (.ofDefinitions m ds) text = .ok r

theorem Takes.isBuiltOn (h : s.Takes line s') (hs : s.IsBuiltOn m) : s'.IsBuiltOn m := by
  obtain ⟨ds, hmacros⟩ := hs.macros
  cases h with
  | nothing => exact hs
  | definition _ _ hadd =>
    refine ⟨⟨ds ++ [.ofLine (String.ofList (content line))], ?_⟩, hs.rules⟩
    have hrun : (Definition.ofLine (String.ofList (content line))).run s.macros = .ok _ := hadd
    rw [MacroTable.ofDefinitions_concat, ← hmacros]
    exact (MacroTable.after_of_ok hrun).symm
  | rule _ _ hr =>
    refine ⟨⟨ds, hmacros⟩, fun r' hr' => ?_⟩
    rcases List.mem_append.mp hr' with hr' | hr'
    · exact hs.rules r' hr'
    · obtain rfl := List.mem_singleton.mp hr'
      exact ⟨ds, _, hmacros ▸ hr⟩

theorem isBuiltOn_of_addLines {lines : List (List Char)} {n : Nat}
    (h : s.addLines n lines = .ok s') (hs : s.IsBuiltOn m) : s'.IsBuiltOn m := by
  induction lines generalizing s n with
  | nil =>
    cases h
    exact hs
  | cons line lines ih =>
    rw [addLines] at h
    cases hline : s.addLine line with
    | error e =>
      rw [hline] at h
      cases h
    | ok next =>
      rw [hline] at h
      exact ih h ((addLine_eq_ok.mp hline).isBuiltOn hs)

theorem isBuiltOn_of_ofText {text : String} (h : ofText m text = .ok s) : s.IsBuiltOn m :=
  isBuiltOn_of_addLines h ⟨⟨[], rfl⟩, List.forall_mem_nil _⟩

theorem isUnmixed_apply (hs : s.IsBuiltOn m) (hw : w.IsUnmixed) : (s.apply w).IsUnmixed := by
  have hrules := hs.rules
  rw [apply]
  generalize s.rules = rules at hrules
  induction rules generalizing w with
  | nil => exact hw
  | cons r rules ih =>
    obtain ⟨⟨ds, text, hr⟩, hrules⟩ := List.forall_mem_cons.mp hrules
    exact ih (Rule.isUnmixed_apply hr hw) hrules

end Script

/-! ### Runs of calls -/

namespace Word

/-- The words that some run of calls makes out of segments of any models. -/
inductive Obtained : Word → Prop
  | ofSegments {m : FeatureModel} {segments : List Segment} {w : Word} :
    Word.ofSegments m segments = .ok w → Obtained w
  | edit {w v : Word} {e : Edit} : Obtained w → (∀ u ∈ e.words, Obtained u) →
    e.run w = .ok (some v) → Obtained v
  | slice {w v : Word} {first last : Nat} : Obtained w → w.slice? first last = some v → Obtained v
  | reversed {w : Word} : Obtained w → Obtained w.reversed
  | withBoundary {w : Word} : Obtained w → Obtained w.withBoundary
  | segment (g : Segmenter) (text : String) : Obtained (g.segment text)
  | alternative {m : FeatureModel} {ds : List Definition} {name : String}
    {runs : List (List Segment)} {run : List Segment} :
    (MacroTable.ofDefinitions m ds).find? name = some runs → run ∈ runs → Obtained ⟨m, run⟩
  | rule {m : FeatureModel} {ds : List Definition} {text : String} {r : Rule} {w : Word} :
    Rule.ofText (.ofDefinitions m ds) text = .ok r → Obtained w → Obtained (r.apply w)
  | script {m : FeatureModel} {text : String} {s : Script} {w : Word} :
    Script.ofText m text = .ok s → Obtained w → Obtained (s.apply w)

theorem Obtained.isUnmixed {w : Word} (h : w.Obtained) : w.IsUnmixed := by
  induction h with
  | ofSegments h => exact .ofSegments h
  | edit _ _ hrun ihw ihwords => exact ihw.run ihwords hrun
  | @slice w v first last _ hslice ih =>
    rw [slice?] at hslice
    split at hslice
    · cases hslice
      exact fun s hs => ih s (List.mem_of_mem_drop (List.mem_of_mem_take hs))
    · cases hslice
  | reversed _ ih => exact fun s hs => ih s (List.mem_reverse.mp hs)
  | @withBoundary w _ ih =>
    intro s hs
    rcases List.mem_append.mp hs with hs | hs
    · exact ih s hs
    · obtain rfl := List.mem_singleton.mp hs
      exact w.model.same_self
  | segment g text =>
    intro s hs
    obtain ⟨symbol, -, rfl⟩ := List.mem_map.mp hs
    exact g.model.same_self
  | @alternative m ds name runs run hfind hrun =>
    intro s hs
    obtain ⟨symbol, rfl⟩ := (MacroTable.isSolid_ofDefinitions m ds name runs hfind run
      hrun).resolved s hs
    rw [MacroTable.model_ofDefinitions]
    exact m.same_self
  | rule hr _ ih => exact Rule.isUnmixed_apply hr ih
  | script hs _ ih => exact Script.isUnmixed_apply (Script.isBuiltOn_of_ofText hs) ih

/-- Whatever is done with words of any models, no word comes to have segments of another model. A
call that is given data of another model is refused for the first such thing and leaves the word as
it is; a call that is given data of the model succeeds with its outcome unless its span is not one
of the word, and in that case leaves the word as it is. A rule leaves the words of other models
alone. -/
theorem obtained_unmixed :
    (∀ w : Word, w.Obtained → w.IsUnmixed) ∧
    (∀ (w : Word) (e : Edit),
      (∀ before p after, e.arguments = before ++ p :: after →
        (∀ q ∈ before, w.model.same q.1 = true) → w.model.same p.1 = false →
          e.run w = .error (.mismatch p.2) ∧ e.after w = w) ∧
      ((∀ p ∈ e.arguments, w.model.same p.1 = true) → e.InBounds w →
        ∃ v, e.run w = .ok (some v) ∧ e.after w = v ∧ v.model = w.model ∧
          e.outcome w = some v) ∧
      ((∀ p ∈ e.arguments, w.model.same p.1 = true) → ¬ e.InBounds w →
        e.run w = .ok none ∧ e.after w = w)) ∧
    ∀ (r : Rule) (w : Word), w.model.same r.model = false → r.apply w = w := by
  refine ⟨fun w hw => hw.isUnmixed, fun w e => ⟨?_, ?_, ?_⟩,
    fun r w => Rule.apply_of_not_same_model⟩
  · intro before p after harguments hbefore hp
    have herror := Edit.run_eq_error harguments hbefore hp
    exact ⟨herror, Edit.after_of_error herror⟩
  · intro hsame hbounds
    obtain ⟨v, houtcome, hmodel⟩ := Edit.exists_outcome hbounds
    have hrun := Edit.run_eq_ok_iff.mpr ⟨hsame, houtcome⟩
    exact ⟨v, hrun, Edit.after_of_ok hrun, hmodel, houtcome⟩
  · intro hsame hbounds
    have hrun := Edit.run_eq_ok_iff.mpr ⟨hsame, Edit.outcome_of_not_inBounds hbounds⟩
    exact ⟨hrun, Edit.after_of_ok hrun⟩

theorem obtained_unmixed_voiced :
    let m : FeatureModel := ⟨.numbered 1, ⟨["voice"], []⟩, [("b", [.plus])]⟩
    let w : Word := ⟨m, [⟨"p", [.minus], m⟩, m.resolve "a"]⟩
    let foreign := (Segmenter.ofModel .empty).segment "p"
    (∃ r v, Rule.ofText (.ofDefinitions m []) "[-voice] > [+voice]" = .ok r ∧
      (Edit.append w.reversed).run (r.apply w) = .ok (some v) ∧
      v.segments.map Segment.symbol = ["b", "a", "a", "p"] ∧ v.IsUnmixed ∧
      r.apply foreign = foreign) ∧
    ((Edit.replaceAll ⟨m, []⟩ foreign).run w = .error (.mismatch "p") ∧
      (Edit.replaceAll ⟨m, []⟩ foreign).after w = w) ∧
    (Edit.splice 1 3 w).run w = .ok none ∧ (Edit.splice 1 3 w).after w = w := by
  intro m w foreign
  obtain ⟨hunmixed, hedits, hrules⟩ := obtained_unmixed
  have hok : ((Rule.ofText (.ofDefinitions m []) "[-voice] > [+voice]").toOption.any fun r =>
      !foreign.model.same r.model && (r.apply w).model.same m &&
        ((Edit.append w.reversed).after (r.apply w)).segments.map Segment.symbol ==
          ["b", "a", "a", "p"]) = true := by decide +kernel
  obtain ⟨r, hr, hok⟩ := exists_ok_of_any hok
  simp only [Bool.and_eq_true, Bool.not_eq_true', beq_iff_eq] at hok
  obtain ⟨⟨hforeign, hmodel⟩, hsymbols⟩ := hok
  have hsegments : Word.ofSegments m w.segments = .ok w := rfl
  have hw : w.Obtained := .ofSegments hsegments
  obtain ⟨v, hrun, rfl, -⟩ := (hedits (r.apply w) (.append w.reversed)).2.1
    (List.forall_mem_singleton.mpr hmodel) trivial
  have hv := Obtained.edit (.rule hr hw) (List.forall_mem_singleton.mpr (.reversed hw)) hrun
  have hmismatch := (hedits w (.replaceAll ⟨m, []⟩ foreign)).1 [_] (_, foreign.text) [] rfl
    (List.forall_mem_singleton.mpr m.same_self) (by decide +kernel)
  have htext : foreign.text = "p" := by decide +kernel
  rw [htext] at hmismatch
  have hspan := (hedits w (.splice 1 3 w)).2.2 (List.forall_mem_singleton.mpr m.same_self)
    (by simp [Edit.InBounds, w, Word.length])
  exact ⟨⟨r, _, hr, hrun, hsymbols, hunmixed _ hv, hrules r foreign hforeign⟩, hmismatch, hspan⟩

end Word

end SoundLaw
