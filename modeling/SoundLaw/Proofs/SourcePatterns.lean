import SoundLaw.Proofs.Bounds
import SoundLaw.Proofs.Inlining
import SoundLaw.Proofs.Sentinel

/-!
# Sources as patterns

The source words of a rule are written in the language of patterns, without its marks and
brackets. A change enumerates the ways to read its source on the bare word, element by element;
an automaton made from the same text searches a graph on the word with a boundary behind it. Both
end at the same positions, as long as no macro of the word lets it read the boundary.
-/

namespace SoundLaw
set_option autoImplicit false
open Text

/-- Leaves without marks, one behind the other. -/
def Pattern.ofLeaves (ts : List Terminal) : Pattern := ts.map (.terminal · {})

namespace Pattern
variable {macros : MacroTable} {side : Side} {ts : List Terminal}

theorem leaves_ofLeaves : (ofLeaves ts).leaves = ts := by
  induction ts with
  | nil => rfl
  | cons t ts ih => exact congrArg (t :: ·) ih

theorem check_ofLeaves (hedges : ∀ t ∈ ts, t.isBoundary = false)
    (hnames : ∀ t ∈ ts, ∀ name, t = .reference name → macros.contains name = true) :
    (ofLeaves ts).check macros side = .ok () := by
  have hneighbours : (ofLeaves ts).touching? = none := by
    refine touching?_eq_none fun e he => ?_
    obtain ⟨t, ht, rfl⟩ := List.mem_map.mp he
    exact hedges t ht
  rw [check, seq_eq_ok, checkNeighbours, hneighbours, checkRow_eq_ok]
  refine ⟨rfl, fun e he => ?_⟩
  obtain ⟨t, ht, rfl⟩ := List.mem_map.mp he
  cases t with
  | literal | boundary | wildcard => rfl
  | reference name => exact MacroTable.checkItem_reference (hnames _ ht name rfl)

end Pattern

/-- The ways to read a row of elements end where their leaves read to. -/
theorem Change.exists_mem_waysToRead_iff {macros : MacroTable} {ts : List Terminal}
    {word : List Segment} {i j : Nat} (hi : i ≤ word.length) :
    (∃ k ∈ waysToRead word (ts.map (·.element macros .right)) i, k.stop = j) ↔
      (Pattern.ofLeaves ts).Reads macros .right word i j := by
  induction ts generalizing i with
  | nil =>
    constructor
    · rintro ⟨k, hk, rfl⟩
      rw [List.mem_singleton.mp hk]
      rfl
    · intro hread
      exact ⟨_, List.mem_singleton_self _, hread⟩
  | cons t ts ih =>
    have hcons : (Pattern.ofLeaves (t :: ts)).Reads macros .right word i j ↔
        ∃ l, t.Reads macros .right word i l ∧
          (Pattern.ofLeaves ts).Reads macros .right word l j := Iff.rfl
    rw [hcons, List.map_cons, waysToRead]
    simp only [List.mem_flatMap, List.mem_map]
    constructor
    · rintro ⟨k, ⟨r, hr, rest, hrest, rfl⟩, hk⟩
      have hread := (mem_readings_element t hi).mp (List.mem_map_of_mem hr)
      have hle := (t.forward_reads hi hread).2
      exact ⟨r.stop, hread, (ih hle).mp ⟨rest, hrest, hk⟩⟩
    · rintro ⟨l, hread, hrest⟩
      have hle := (t.forward_reads hi hread).2
      obtain ⟨r, hr, rfl⟩ := List.mem_map.mp ((mem_readings_element t hi).mpr hread)
      obtain ⟨rest, hmem, hstop⟩ := (ih hle).mpr hrest
      exact ⟨_, ⟨r, hr, rest, hmem, rfl⟩, hstop⟩

/-! ### Reading a source word -/

section Words
variable {macros : MacroTable} {word : String} {l : Lexeme} {lexemes : List Lexeme}
variable {e : Element} {es : List Element}

theorem exists_leaf_of_elementOf (h : elementOf macros word l = .ok e) : ∃ a t, l = .atom a ∧
    a.Denotes macros.model t ∧ t.element macros .right = e ∧ t.isBoundary = false ∧
    ∀ name, t = .reference name → a = .name name ∧ macros.contains name = true := by
  unfold elementOf at h
  split at h
  · rename_i symbol
    cases h
    refine ⟨_, .literal (macros.model.resolve symbol), rfl, rfl, rfl, rfl, ?_⟩
    intro name hname
    cases hname
  · rename_i descriptor
    obtain ⟨s, hs, rfl⟩ := map_eq_ok.mp h
    refine ⟨_, .literal s, rfl, ?_, rfl, rfl, ?_⟩
    · rw [Atom.Denotes, Terminal.ofAtom, hs]
      rfl
    · intro name hname
      cases hname
  · cases h
    refine ⟨_, .wildcard, rfl, rfl, rfl, rfl, ?_⟩
    intro name hname
    cases hname
  · rename_i name
    obtain ⟨runs, hruns, rfl⟩ := map_eq_ok.mp (mapError_eq_ok.mp h)
    have hfind := MacroTable.alternatives_eq_ok.mp hruns
    refine ⟨_, .reference name, rfl, rfl, ?_, rfl, ?_⟩
    · rw [Terminal.element, hfind, Option.getD_some]
      exact congrArg (Element.named name) (List.map_id runs)
    · intro name' hname
      cases hname
      exact ⟨rfl, Option.isSome_iff_exists.mpr ⟨runs, hfind⟩⟩
  · cases h

theorem exists_leaves_of_mapM (h : lexemes.mapM (elementOf macros word) = .ok es) :
    ∃ ts, Spells (Atom.Denotes macros.model) (.row true) lexemes (Pattern.ofLeaves ts) ∧
      es = ts.map (·.element macros .right) ∧ (∀ t ∈ ts, t.isBoundary = false) ∧
      ∀ t ∈ ts, ∀ name, t = .reference name →
        .atom (.name name) ∈ lexemes ∧ macros.contains name = true := by
  induction mapM_eq_ok_iff.mp h with
  | nil => exact ⟨[], .nil, rfl, nofun, nofun⟩
  | @cons l e lexemes es he hes ih =>
    obtain ⟨a, t, rfl, hdenotes, rfl, hedge, hname⟩ := exists_leaf_of_elementOf he
    obtain ⟨ts, hspells, rfl, hedges, hnames⟩ := ih (mapM_eq_ok_iff.mpr hes)
    have hitem : Spells (Atom.Denotes macros.model) (.row true)
        (signLexemes false ++ [.atom a] ++ [] ++ lexemes) (Pattern.ofLeaves (t :: ts)) :=
      .item (.atom hdenotes) .once hspells
    refine ⟨t :: ts, hitem, rfl, List.forall_mem_cons.mpr ⟨hedge, hedges⟩,
      List.forall_mem_cons.mpr ⟨fun name ht => ?_, fun t ht name hname => ?_⟩⟩
    · obtain ⟨rfl, hcontains⟩ := hname name ht
      exact ⟨List.mem_cons_self, hcontains⟩
    · obtain ⟨hmem, hcontains⟩ := hnames t ht name hname
      exact ⟨List.mem_cons_of_mem _ hmem, hcontains⟩

theorem exists_leaves_of_readSource (h : readSource macros word = .ok es) (hne : word ≠ "0") :
    ∃ ts, Pattern.ofText macros word = .ok (.ofLeaves ts) ∧
      es = ts.map (·.element macros .right) ∧
      (Pattern.ofLeaves ts).check macros .right = .ok () ∧
      ((∀ lexemes, Lexeme.ofText macros word = .ok lexemes →
          ∀ name, .atom (.name name) ∈ lexemes → macros.LacksBoundary name) →
        ∀ t ∈ ts, t.AvoidsBoundary macros) := by
  rw [readSource, if_neg hne] at h
  obtain ⟨lexemes, hlexemes, h⟩ := bind_eq_ok.mp h
  obtain ⟨ts, hspells, hes, hedges, hnames⟩ := exists_leaves_of_mapM h
  have hlexemes := mapError_eq_ok.mp hlexemes
  have hp := ((Pattern.ofText_iff_spells macros word).1 _).mpr ⟨lexemes, hlexemes, hspells⟩
  have hread := Pattern.isRead_of_ofText hp
  rw [Pattern.leaves_ofLeaves] at hread
  refine ⟨ts, hp, hes, ?_, fun hmacros t ht => ?_⟩
  · exact Pattern.check_ofLeaves hedges fun t ht name hname => (hnames t ht name hname).2
  · refine (hread t ht).avoidsBoundary (hedges t ht) fun name hname => ?_
    exact hmacros lexemes hlexemes name (hnames t ht name hname).1

end Words

/-! ### The words of a rule -/

theorem map_fst_of_pairWords {rule : String} {sources targets : List String}
    {pairs : List (String × String)} (h : pairWords rule sources targets = .ok pairs) :
    pairs.map Prod.fst = sources := by
  unfold pairWords at h
  split at h
  · cases h
  · split at h
    · cases h
    · split at h
      · cases h
        rw [List.map_map]
        exact List.map_id sources
      · split at h
        · rename_i hlength
          cases h
          exact List.map_fst_zip (Nat.le_of_eq hlength)
        · cases h

namespace Rule
variable {macros : MacroTable} {text source : String} {r : Rule} {i : Nat}

def sourceWords (text : String) : List String :=
  let trimmed := trim text.toList
  let change := ((cut? '/' trimmed).getD (trimmed, [])).1
  outerWords (String.ofList ((splitAt '>' change).headD []))

theorem forall₂_sourceWords (h : ofText macros text = .ok r) :
    List.Forall₂ (fun source c => readSource macros source = .ok c.source) (sourceWords text)
      r.changes := by
  obtain ⟨changes, hchanges, h⟩ := bind_eq_ok.mp h
  obtain ⟨environment, _, h⟩ := bind_eq_ok.mp h
  cases h
  unfold readChanges at hchanges
  split at hchanges
  · rename_i left right hsplit
    obtain ⟨pairs, hpairs, hchanges⟩ := bind_eq_ok.mp hchanges
    have hsplit : splitAt '>' ((cut? '/' (trim text.toList)).getD (trim text.toList, [])).1 =
        [left, right] := hsplit
    have hwords : sourceWords text = outerWords (String.ofList left) := by
      rw [sourceWords, hsplit]
      rfl
    rw [hwords, ← map_fst_of_pairWords (mapError_eq_ok.mp hpairs), List.forall₂_map_left_iff]
    refine (mapM_eq_ok_iff.mp hchanges).imp fun pair c hread => ?_
    obtain ⟨elements, helements, hread⟩ := bind_eq_ok.mp hread
    obtain ⟨items, _, hread⟩ := bind_eq_ok.mp hread
    cases hread
    exact helements
  · cases hchanges

theorem exists_change_of_sourceWords (h : ofText macros text = .ok r)
    (hsource : (sourceWords text)[i]? = some source) :
    ∃ c, r.changes[i]? = some c ∧ readSource macros source = .ok c.source :=
  getElem?_of_forall₂ (forall₂_sourceWords h) hsource

/-- The candidates of a change end where the automaton of its source word matches, unless a macro
lets the word read a boundary. -/
theorem mem_ends_iff_candidates (h : ofText macros text = .ok r)
    (hsource : (sourceWords text)[i]? = some source) (hne : source ≠ "0")
    (hmacros : ∀ lexemes, Lexeme.ofText macros source = .ok lexemes →
      ∀ name, .atom (.name name) ∈ lexemes → macros.LacksBoundary name) :
    ∃ c a, r.changes[i]? = some c ∧ readSource macros source = .ok c.source ∧
      Automaton.ofText macros .right source = .ok a ∧
      ∀ (word : List Segment) (pos : Nat), pos ≤ word.length →
        ∀ stop, stop ∈ a.ends word pos ↔ ∃ k ∈ c.candidates word pos, k.stop = stop := by
  obtain ⟨c, hc, hread⟩ := exists_change_of_sourceWords h hsource
  obtain ⟨ts, hp, hes, hcheck, havoids⟩ := exists_leaves_of_readSource hread hne
  obtain ⟨a, ha, hfinds⟩ := Automaton.exists_ofText_finds hp hcheck
  refine ⟨c, a, hc, hread, ha, fun word pos hpos stop => ?_⟩
  have hleaves : ∀ t ∈ (Pattern.ofLeaves ts).leaves, t.AvoidsBoundary macros := by
    rw [Pattern.leaves_ofLeaves]
    exact havoids hmacros
  rw [hfinds.mem_ends_iff_of_avoids hleaves, and_iff_right hpos,
    ← Change.exists_mem_waysToRead_iff hpos, ← hes]
  simp only [Change.candidates, List.mem_mergeSort]

theorem mem_ends_iff_candidates_stops :
    let stops : MacroTable := ⟨.empty, [("C", ["p", "ts"].map (·.toList.map fun c =>
      FeatureModel.empty.resolve c.toString))]⟩
    let text := "0 Ca. > x $1 / #_"
    ∃ r, ofText stops text = .ok r ∧ (sourceWords text)[1]? = some "Ca." ∧ "Ca." ≠ "0" ∧
      (∀ lexemes, Lexeme.ofText stops "Ca." = .ok lexemes →
        ∀ name, .atom (.name name) ∈ lexemes → stops.LacksBoundary name) ∧
      ∃ c a, r.changes[1]? = some c ∧ readSource stops "Ca." = .ok c.source ∧
        Automaton.ofText stops .right "Ca." = .ok a ∧
        ∀ (word : List Segment) (pos : Nat), pos ≤ word.length →
          ∀ stop, stop ∈ a.ends word pos ↔ ∃ k ∈ c.candidates word pos, k.stop = stop := by
  intro stops text
  have hok : ((ofText stops text).toOption.any fun _ => true) = true := by decide +kernel
  obtain ⟨r, hr, -⟩ := exists_ok_of_any hok
  have hsource : (sourceWords text)[1]? = some "Ca." := by decide +kernel
  have hmacros : ∀ name, stops.LacksBoundary name := by
    intro name runs hruns
    obtain ⟨before, after, heq, -⟩ := List.lookup_eq_some_iff.mp hruns
    have hmem : (name, runs) ∈ stops.entries := heq ▸ List.mem_append_right _ List.mem_cons_self
    obtain rfl : runs = _ := (Prod.mk.inj (List.mem_singleton.mp hmem)).2
    decide
  have hnames : ∀ lexemes, Lexeme.ofText stops "Ca." = .ok lexemes →
      ∀ name, .atom (.name name) ∈ lexemes → stops.LacksBoundary name :=
    fun _ _ name _ => hmacros name
  exact ⟨r, hr, hsource, by decide, hnames,
    mem_ends_iff_candidates hr hsource (by decide) hnames⟩

end Rule

end SoundLaw
