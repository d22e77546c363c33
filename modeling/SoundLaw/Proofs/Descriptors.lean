import SoundLaw.Proofs.Histories

/-!
# Descriptors and aliases

A descriptor is cut at its commas, and each entry is tried as an assignment, as a sign with a
feature and as an alias, in this order. Since an alias is stored with the assignments that its
descriptor had, mentioning it is the same as writing these assignments in its place, whatever has
become of the aliases in them. The vector of a descriptor has in each slot what was assigned last.
-/

namespace SoundLaw
set_option autoImplicit false
open Text

/-! ### Entries of a text -/

/-- The entries of a list of them, as written. -/
def listedEntries (cs : List Char) : List (List Char) :=
  ((splitAt ',' cs).map trim).filter (!·.isEmpty)

theorem listedEntries_append (p q : List Char) :
    listedEntries (p ++ ',' :: q) = listedEntries p ++ listedEntries q := by
  simp [listedEntries, splitAt_append_cons]

theorem listedEntries_of_not_mem {cs : List Char} (hcomma : ',' ∉ cs) (hne : trim cs ≠ []) :
    listedEntries cs = [trim cs] := by
  simp [listedEntries, splitAt_of_not_mem hcomma, hne]

/-- A list of entries in brackets. -/
def bracketed (cs : List Char) : String := String.ofList ('[' :: (cs ++ [']']))

theorem entryTexts_bracketed (cs : List Char) :
    Schema.entryTexts (bracketed cs).toList = listedEntries cs := by
  have htrim : trim ('[' :: (cs ++ [']'])) = '[' :: (cs ++ [']']) := by
    apply trim_eq_self
    · intro c hc
      obtain rfl : '[' = c := Option.some.inj hc
      decide
    · intro c hc
      rw [← List.cons_append, List.getLast?_append, List.getLast?_singleton] at hc
      obtain rfl : ']' = c := Option.some.inj hc
      decide
  simp [bracketed, Schema.entryTexts, Schema.unbracket, htrim, listedEntries]

namespace Schema
variable {s : Schema} {e name value : List Char} {es es' : List (List Char)} {f : RuleFault}

/-! ### Entries that are refused -/

theorem slot_of_not_mem (h : String.ofList (trim name) ∉ s.features) :
    s.slot name e = .error (unknown e) := by
  rw [slot_eq, index?, List.idxOf?_eq_none_iff.mpr h]

theorem not_mem_of_slot (h : s.slot name e = .error f) :
    String.ofList (trim name) ∉ s.features ∧ f = unknown e := by
  rw [slot_eq, index?] at h
  split at h
  · cases h
  · rename_i hnone
    cases h
    exact ⟨List.idxOf?_eq_none_iff.mp hnone, rfl⟩

/-- An entry that names no feature and no alias, or has a value that is not a number. -/
inductive Faulty (s : Schema) : List Char → Prop
  | feature {name value : List Char} (plain : '=' ∉ name)
    (missing : String.ofList (trim name) ∉ s.features) : Faulty s (name ++ '=' :: value)
  | value {name value : List Char} (plain : '=' ∉ name)
    (unreadable : ∀ x, Numeral.read (trim value) ≠ .number x) : Faulty s (name ++ '=' :: value)
  | signed {sign : Char} {name : List Char} (hsign : sign = '+' ∨ sign = '-')
    (plain : '=' ∉ name) (missing : String.ofList (trim name) ∉ s.features) :
    Faulty s (sign :: name)
  | unnamed {e : List Char} (plain : '=' ∉ e) (unsigned : ∀ c ∈ e.head?, c ≠ '+' ∧ c ≠ '-')
    (missing : String.ofList e ∉ s.aliases.map Prod.fst) : Faulty s e

theorem alias?_eq_none_iff {name : String} :
    s.alias? name = none ↔ name ∉ s.aliases.map Prod.fst := by
  rw [alias?, List.lookup_eq_none_iff]
  simp only [List.mem_map, not_exists, not_and, bne_iff_ne]
  exact forall₂_congr fun p _ => ne_comm

/-- An entry without an equals sign and without a sign is looked up as an alias. -/
theorem entry_of_unsigned (hplain : '=' ∉ e) (hsign : ∀ c ∈ e.head?, c ≠ '+' ∧ c ≠ '-') :
    s.entry e = match s.alias? (String.ofList e) with
      | some assignments => .ok assignments
      | none => .error (unknown e) := by
  rw [entry_eq, cut?_eq_none hplain]
  dsimp only
  split
  · exact absurd rfl (hsign '+' rfl).1
  · exact absurd rfl (hsign '-' rfl).2
  · rfl

theorem Faulty.entry (h : s.Faulty e) : s.entry e = .error (unknown e) := by
  rw [entry_eq]
  cases h with
  | feature hplain hmissing =>
    rw [cut?_append hplain]
    dsimp only
    rw [slot_of_not_mem hmissing]
    rfl
  | @value name value hplain hunreadable =>
    rw [cut?_append hplain]
    dsimp only
    cases hslot : s.slot name (name ++ '=' :: value) with
    | error f =>
      obtain ⟨-, rfl⟩ := not_mem_of_slot hslot
      rfl
    | ok i =>
      cases hread : Numeral.read (trim value) with
      | number x => exact absurd hread (hunreadable x)
      | notANumber | malformed => rfl
  | @signed sign name hsign hplain hmissing =>
    have hcut : '=' ∉ sign :: name := by
      rcases hsign with rfl | rfl <;> simp [hplain]
    rw [cut?_eq_none hcut]
    dsimp only
    split
    · rename_i heq
      cases heq
      rw [slot_of_not_mem hmissing]
      rfl
    · rename_i heq
      cases heq
      rw [slot_of_not_mem hmissing]
      rfl
    · rename_i hplus hminus
      rcases hsign with rfl | rfl
      · exact (hplus name rfl).elim
      · exact (hminus name rfl).elim
  | unnamed hplain hsign hmissing =>
    have hentry := entry_of_unsigned (s := s) hplain hsign
    rw [alias?_eq_none_iff.mpr hmissing] at hentry
    exact hentry

theorem faulty_of_entry (h : s.entry e = .error f) : s.Faulty e ∧ f = unknown e := by
  rw [entry_eq] at h
  split at h
  · rename_i name value hcut
    have hplain := not_mem_of_cut? hcut
    have he := eq_of_cut? hcut
    rcases bind_eq_error.mp h with h | ⟨i, -, h⟩
    · obtain ⟨hmissing, rfl⟩ := not_mem_of_slot h
      exact ⟨he ▸ .feature hplain hmissing, rfl⟩
    · split at h
      · cases h
      · rename_i hunreadable
        cases h
        exact ⟨he ▸ .value hplain hunreadable, rfl⟩
  · rename_i hcut
    have hplain := cut?_eq_none_iff.mp hcut
    split at h
    · rename_i name
      rcases bind_eq_error.mp h with h | ⟨i, -, h⟩
      · obtain ⟨hmissing, rfl⟩ := not_mem_of_slot h
        exact ⟨.signed (.inl rfl) (fun hmem => hplain (List.mem_cons_of_mem _ hmem)) hmissing, rfl⟩
      · cases h
    · rename_i name
      rcases bind_eq_error.mp h with h | ⟨i, -, h⟩
      · obtain ⟨hmissing, rfl⟩ := not_mem_of_slot h
        exact ⟨.signed (.inr rfl) (fun hmem => hplain (List.mem_cons_of_mem _ hmem)) hmissing, rfl⟩
      · cases h
    · rename_i hplus hminus
      split at h
      · cases h
      · rename_i hnone
        cases h
        refine ⟨.unnamed hplain (fun c hc => ?_) (alias?_eq_none_iff.mp hnone), rfl⟩
        obtain ⟨cs, rfl⟩ := List.head?_eq_some_iff.mp hc
        constructor
        · rintro rfl
          exact hplus cs rfl
        · rintro rfl
          exact hminus cs rfl

/-! ### Lists of entries -/

theorem assignmentsOf_append : s.assignmentsOf (es ++ es') = do
    let before ← s.assignmentsOf es
    let after ← s.assignmentsOf es'
    return before ++ after := by
  induction es with
  | nil =>
    rw [List.nil_append]
    cases s.assignmentsOf es' <;> rfl
  | cons e es ih =>
    rw [List.cons_append, assignmentsOf_cons, assignmentsOf_cons, ih]
    cases s.entry e with
    | error f => rfl
    | ok first =>
      cases s.assignmentsOf es with
      | error f => rfl
      | ok before =>
        cases s.assignmentsOf es' with
        | error f => rfl
        | ok after => exact congrArg Except.ok (List.append_assoc first before after).symm

/-- A list of entries is refused for the first of them that is faulty. -/
theorem assignmentsOf_eq_error_iff : s.assignmentsOf es = .error f ↔
    ∃ before e after, es = before ++ e :: after ∧ (∀ x ∈ before, ¬ s.Faulty x) ∧ s.Faulty e ∧
      f = unknown e := by
  induction es with
  | nil => simp [assignmentsOf_nil]
  | cons e es ih =>
    cases hentry : s.entry e with
    | error f' =>
      obtain ⟨hfaulty, rfl⟩ := faulty_of_entry hentry
      have herror : s.assignmentsOf (e :: es) = .error (unknown e) := by
        rw [assignmentsOf_cons, hentry]
        rfl
      rw [herror]
      constructor
      · intro h
        exact ⟨[], e, es, rfl, nofun, hfaulty, (Except.error.inj h).symm⟩
      · rintro ⟨before, e', after, heq, hbefore, -, rfl⟩
        cases before with
        | nil =>
          cases heq
          rfl
        | cons x before =>
          cases heq
          exact absurd hfaulty (hbefore e List.mem_cons_self)
    | ok first =>
      have hfine : ¬ s.Faulty e := by
        intro hfaulty
        rw [hfaulty.entry] at hentry
        cases hentry
      have hrest : s.assignmentsOf (e :: es) = .error f ↔ s.assignmentsOf es = .error f := by
        rw [assignmentsOf_cons, hentry]
        cases s.assignmentsOf es <;> simp [bind, Except.bind, pure, Except.pure]
      rw [hrest, ih]
      constructor
      · rintro ⟨before, e', after, rfl, hbefore, h⟩
        exact ⟨e :: before, e', after, rfl, List.forall_mem_cons.mpr ⟨hfine, hbefore⟩, h⟩
      · rintro ⟨before, e', after, heq, hbefore, hfaulty, rfl⟩
        cases before with
        | nil =>
          cases heq
          exact absurd hfaulty hfine
        | cons x before =>
          cases heq
          exact ⟨before, e', after, rfl, (List.forall_mem_cons.mp hbefore).2, hfaulty, rfl⟩

/-! ### Vectors -/

/-- The vector with the last value assigned to each slot, and a given one where there is none. -/
def lastValues (n : Nat) (fill : FeatureValue) (assignments : List Assignment) : FeatureVector :=
  (List.range n).map fun i => (assignments.reverse.lookup i).getD fill

theorem getElem?_assign (v : FeatureVector) (assignments : List Assignment) (i : Nat) :
    (assign v assignments)[i]? = v[i]?.map fun x => (assignments.reverse.lookup i).getD x := by
  induction assignments generalizing v with
  | nil => simp [assign]
  | cons a assignments ih =>
    obtain ⟨j, x⟩ := a
    rw [assign, ih, List.reverse_cons, List.lookup_append, List.getElem?_set]
    by_cases hij : j = i
    · subst hij
      by_cases hj : j < v.length
      · simp [hj]
      · simp [hj]
    · have hne : (i == j) = false := by simp [Ne.symm hij]
      simp [hij, List.lookup_cons, hne]

theorem read_eq (s : Schema) (descriptor : String) (fill : FeatureValue) :
    s.read descriptor fill =
      (s.assignments descriptor).map (lastValues s.features.length fill) := by
  rw [read]
  cases s.assignments descriptor with
  | error f => rfl
  | ok assignments =>
    refine congrArg Except.ok (List.ext_getElem? fun i => ?_)
    rw [getElem?_assign, lastValues, List.getElem?_map]
    by_cases hi : i < s.features.length
    · simp [hi]
    · simp [hi]

end Schema

/-! ### Aliases in histories -/

namespace ModelDraft
variable {d d' : ModelDraft} {steps : List DraftStep} {name descriptor : String}

/-- An alias that is not defined again stays as it is. -/
theorem alias?_afterAll (h : name ∉ (d.accepted steps).filterMap DraftStep.alias?) :
    (d.afterAll steps).schema.alias? name = d.schema.alias? name := by
  induction steps generalizing d with
  | nil => rfl
  | cons step steps ih =>
    rw [accepted, List.filterMap_append, List.mem_append, not_or] at h
    rw [afterAll_cons, ih h.2]
    cases hstep : step.run d with
    | error e => rw [after_of_error hstep]
    | ok d' =>
      have hname : name ∉ [step].filterMap DraftStep.alias? := by
        simpa [hstep, Except.toOption] using h.1
      rw [after_of_ok hstep]
      cases DraftStep.makes_of_run hstep with
      | addFeature | addSymbol => rfl
      | @addAlias other =>
        have hne : (name == trimmed other) = false := by
          simpa [DraftStep.alias?, List.filterMap_cons] using hname
        rw [Schema.alias?, Schema.addAlias, List.lookup_cons, hne]
        rfl

/-! ### What is read from a descriptor -/

/-- The outcome of a call that reads a descriptor and goes on with the assignments. -/
theorem addAlias_eq (d : ModelDraft) (name descriptor : String) : d.addAlias name descriptor =
    ((d.schema.assignments descriptor).map fun assignments =>
      { d with schema := d.schema.addAlias (trimmed name) assignments }).mapError .rule := by
  rw [addAlias]
  cases d.schema.assignments descriptor <;> rfl

theorem addSymbol_eq (d : ModelDraft) (name descriptor : String) : d.addSymbol name descriptor =
    ((d.schema.assignments descriptor).map fun assignments => { d with
      symbols := define (trimmed name)
        (Schema.lastValues d.schema.features.length .undefined assignments) d.symbols }).mapError
      .rule := by
  rw [addSymbol, Schema.read_eq]
  cases d.schema.assignments descriptor <;> rfl

theorem resolveBundle_eq (m : FeatureModel) (descriptor : String) : m.resolveBundle descriptor =
    ((m.schema.assignments descriptor).map fun assignments =>
      ⟨trimmed descriptor, Schema.lastValues m.size .masked assignments, m⟩).mapError .rule := by
  rw [FeatureModel.resolveBundle, Schema.read_eq]
  cases m.schema.assignments descriptor <;> rfl

/-- A name under which an alias can be mentioned. -/
structure IsMentionable (name : List Char) : Prop where
  ne_nil : name ≠ []
  comma : ',' ∉ name
  equals : '=' ∉ name
  sign : ∀ c ∈ name.head?, c ≠ '+' ∧ c ≠ '-'

theorem not_mem_of_trim {c : Char} {cs : List Char} (hc : isBlank c = false)
    (h : c ∉ trim cs) : c ∉ cs := by
  obtain ⟨before, after, hcs, hbefore, hafter⟩ := exists_blanks_of_trim cs
  rw [hcs]
  simp only [List.mem_append, not_or]
  refine ⟨⟨fun hmem => ?_, h⟩, fun hmem => ?_⟩
  · cases hc.symm.trans (hbefore c hmem)
  · cases hc.symm.trans (hafter c hmem)

/-- An alias keeps the assignments that its descriptor had when it was defined, whatever becomes of
the aliases in them and of the features, until it is defined again. A descriptor that mentions it
reads as if they stood in its place: the last assignment to a slot counts, a slot without any has
the value that fills the vector, and the first entry is refused that names no feature or alias or
has a value that is not a number. -/
theorem addAlias_transparent (hadd : d.addAlias name descriptor = .ok d')
    (hname : IsMentionable (trim name.toList))
    (hkept : trimmed name ∉ (d'.accepted steps).filterMap DraftStep.alias?) :
    (∀ p mention q : List Char, trim mention = trim name.toList →
      listedEntries (p ++ ',' :: (mention ++ ',' :: q)) =
        listedEntries p ++ trim name.toList :: listedEntries q) ∧
    ∃ given, d.schema.assignments descriptor = .ok given ∧
      ∀ (cs : List Char) (es es' : List (List Char)),
        listedEntries cs = es ++ trim name.toList :: es' →
        let later := d'.afterAll steps
        let n := later.schema.features.length
        let text := bracketed cs
        let assignments := do
          let before ← later.schema.assignmentsOf es
          let after ← later.schema.assignmentsOf es'
          return before ++ given ++ after
        Schema.entryTexts text.toList = listedEntries cs ∧
        later.schema.assignments text = assignments ∧
        (∀ f, assignments = .error f ↔ ∃ before e after, listedEntries cs = before ++ e :: after ∧
          (∀ x ∈ before, ¬ later.schema.Faulty x) ∧ later.schema.Faulty e ∧
          f = Schema.unknown e) ∧
        (∀ symbol, later.addSymbol symbol text = (assignments.map fun given => { later with
          symbols := define (trimmed symbol) (Schema.lastValues n .undefined given)
            later.symbols }).mapError .rule) ∧
        (∀ other, later.addAlias other text = (assignments.map fun given => { later with
          schema := later.schema.addAlias (trimmed other) given }).mapError .rule) ∧
        ∀ serial, (later.freeze serial).resolveBundle text = (assignments.map fun given =>
          ⟨trimmed text, Schema.lastValues n .masked given, later.freeze serial⟩).mapError
          .rule := by
  obtain ⟨given, hgiven, rfl⟩ := addAlias_eq_ok.mp hadd
  refine ⟨fun p mention q hmention => ?_, given, hgiven, fun cs es es' hentries => ?_⟩
  · have hcomma : ',' ∉ mention := by
      apply not_mem_of_trim (by decide)
      rw [hmention]
      exact hname.comma
    have hne : trim mention ≠ [] := by
      rw [hmention]
      exact hname.ne_nil
    rw [listedEntries_append, listedEntries_append, listedEntries_of_not_mem hcomma hne, hmention]
    rfl
  intro later n text assignments
  have htexts : Schema.entryTexts text.toList = listedEntries cs := entryTexts_bracketed cs
  have halias : later.schema.alias? (trimmed name) = some given := by
    rw [alias?_afterAll hkept, Schema.alias?, Schema.addAlias]
    exact List.lookup_cons_self
  have hentry : later.schema.entry (trim name.toList) = .ok given := by
    rw [Schema.entry_of_unsigned hname.equals hname.sign]
    rw [trimmed] at halias
    rw [halias]
  have hreads : later.schema.assignments text = assignments := by
    rw [Schema.assignments, htexts, hentries, Schema.assignmentsOf_append,
      Schema.assignmentsOf_cons, hentry]
    change _ = (do
      let before ← later.schema.assignmentsOf es
      let after ← later.schema.assignmentsOf es'
      return before ++ given ++ after)
    cases later.schema.assignmentsOf es with
    | error f => rfl
    | ok before =>
      cases later.schema.assignmentsOf es' with
      | error f => rfl
      | ok after => exact congrArg Except.ok (List.append_assoc before given after).symm
  refine ⟨htexts, hreads, fun f => ?_, fun symbol => ?_, fun other => ?_, fun serial => ?_⟩
  · rw [← hreads, Schema.assignments, htexts]
    exact Schema.assignmentsOf_eq_error_iff
  · rw [← hreads]
    exact addSymbol_eq later symbol text
  · rw [← hreads]
    exact addAlias_eq later other text
  · rw [← hreads]
    exact resolveBundle_eq (later.freeze serial) text

theorem addAlias_transparent_redefined :
    let d := ofSteps [.addFeature "cons", .addFeature "voice", .addAlias "stop" "[+cons]"]
    let d' := d.after (.addAlias " plosive " "[stop,-voice]")
    let steps : List DraftStep := [.addAlias "stop" "[-cons]", .addFeature "nasal"]
    d.addAlias " plosive " "[stop,-voice]" = .ok d' ∧ IsMentionable (trim " plosive ".toList) ∧
      trimmed " plosive " ∉ (d'.accepted steps).filterMap DraftStep.alias? ∧
      (d'.afterAll steps).schema.assignments "[+voice,plosive , +nasal]" =
        .ok [(1, .plus), (0, .plus), (1, .minus), (2, .plus)] := by
  intro d d' steps
  have hok : (d.addAlias " plosive " "[stop,-voice]").toOption.isSome = true := by decide +kernel
  have hadd : d.addAlias " plosive " "[stop,-voice]" = .ok d' := by
    cases h : d.addAlias " plosive " "[stop,-voice]" with
    | error e =>
      rw [h] at hok
      cases hok
    | ok made =>
      have hmade : d.after (.addAlias " plosive " "[stop,-voice]") = made := after_of_ok h
      exact congrArg Except.ok hmade.symm
  have hname : IsMentionable (trim " plosive ".toList) := by
    constructor
    · decide +kernel
    · decide +kernel
    · decide +kernel
    · intro c hc
      obtain rfl : 'p' = c := Option.some.inj hc
      decide
  have hkept : trimmed " plosive " ∉ (d'.accepted steps).filterMap DraftStep.alias? := by
    decide +kernel
  obtain ⟨hlisted, given, hgiven, h⟩ := addAlias_transparent hadd hname hkept
  obtain ⟨-, hreads, -⟩ := h _ _ _ (hlisted "+voice".toList "plosive ".toList " +nasal".toList
    (by decide +kernel))
  have hstop : d.schema.assignments "[stop,-voice]" = .ok [(0, .plus), (1, .minus)] :=
    toOption_eq_some.mp (by decide +kernel)
  have hbefore : (d'.afterAll steps).schema.assignmentsOf (listedEntries "+voice".toList) =
      .ok [(1, .plus)] := toOption_eq_some.mp (by decide +kernel)
  have hafter : (d'.afterAll steps).schema.assignmentsOf (listedEntries " +nasal".toList) =
      .ok [(2, .plus)] := toOption_eq_some.mp (by decide +kernel)
  obtain rfl : given = [(0, .plus), (1, .minus)] := Except.ok.inj (hgiven.symm.trans hstop)
  have htext :
      bracketed ("+voice".toList ++ ',' :: ("plosive ".toList ++ ',' :: " +nasal".toList)) =
        "[+voice,plosive , +nasal]" := by decide +kernel
  refine ⟨hadd, hname, hkept, ?_⟩
  rw [← htext, hreads, hbefore, hafter]
  rfl

end ModelDraft

end SoundLaw
