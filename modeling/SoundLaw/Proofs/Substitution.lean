import Mathlib.Data.List.Zip
import SoundLaw.Proofs.LocalRules
import SoundLaw.Proofs.Models
import SoundLaw.Proofs.RuleWords

/-!
# Parallel substitution

Where there are no features, a rule `a b > c d` exchanges symbols: every segment of a word is
looked up once, and what is put in its place is not looked up again. The rule with its sides
exchanged undoes this, as long as the word had none of the new symbols to begin with.
-/

namespace SoundLaw
set_option autoImplicit false

/-! ### Exchange of symbols -/

/-- The symbol in the place of another one. -/
def exchanged (sources targets : List String) (x : String) : String :=
  ((sources.zip targets).lookup x).getD x

section Exchange
variable {sources targets : List String} {x y : String}

theorem exchanged_of_mem_zip (hsources : sources.Nodup) (hlength : sources.length = targets.length)
    (h : (x, y) ∈ sources.zip targets) : exchanged sources targets x = y := by
  have hkeys : ((sources.zip targets).map Prod.fst).Nodup := by
    rwa [List.map_fst_zip (Nat.le_of_eq hlength)]
  rw [exchanged, lookup_eq_some_of_mem hkeys h]
  rfl

theorem exchanged_of_not_mem (h : x ∉ sources) : exchanged sources targets x = x := by
  have hnone : (sources.zip targets).lookup x = none := by
    refine List.lookup_eq_none_iff.mpr fun p hp => ?_
    refine bne_iff_ne.mpr fun heq => h ?_
    rw [heq]
    exact (List.of_mem_zip hp).1
  rw [exchanged, hnone]
  rfl

theorem exists_mem_zip (hlength : sources.length = targets.length) (h : x ∈ sources) :
    ∃ y, (x, y) ∈ sources.zip targets := by
  rw [← List.map_fst_zip (Nat.le_of_eq hlength)] at h
  obtain ⟨⟨x', y⟩, hp, rfl⟩ := List.mem_map.mp h
  exact ⟨y, hp⟩

/-- Exchanging back restores every symbol, unless it was one of the new ones before. -/
theorem exchanged_exchanged (hsources : sources.Nodup) (htargets : targets.Nodup)
    (hlength : sources.length = targets.length) (hx : x ∈ targets → x ∈ sources) :
    exchanged targets sources (exchanged sources targets x) = x := by
  by_cases hmem : x ∈ sources
  · obtain ⟨y, hy⟩ := exists_mem_zip hlength hmem
    have hback : (y, x) ∈ targets.zip sources := by
      rw [← List.zip_swap]
      exact List.mem_map.mpr ⟨(x, y), hy, rfl⟩
    rw [exchanged_of_mem_zip hsources hlength hy,
      exchanged_of_mem_zip htargets hlength.symm hback]
  · rw [exchanged_of_not_mem hmem, exchanged_of_not_mem fun h => hmem (hx h)]

end Exchange

/-! ### Substitutions -/

theorem Change.image?_substitution {m : FeatureModel} (hm : m.Defined) (hnone : m.features = [])
    (a b x : String) :
    (Change.substitution m a b).image? (m.resolve x) =
      if x == a then some [m.resolve b] else none := by
  have hreadings : (Element.literal (m.resolve a)).readings [m.resolve x] 0 =
      if x == a then [⟨1, none⟩] else [] := by
    simp [Element.readings, matchesAt, beginsWith, FeatureModel.fits_resolve hm hnone]
  have hcandidates : (Change.substitution m a b).candidates [m.resolve x] 0 = _ :=
    candidates_alone rfl trivial
  rw [image?, hcandidates, hreadings]
  split
  · rfl
  · rfl

namespace Rule
variable {macros : MacroTable} {sources targets : List String} {r : Rule}

/-- The rule is a row of substitutions in a model. -/
structure Substitutes (r : Rule) (m : FeatureModel) (sources targets : List String) : Prop where
  model : r.model = m
  changes : r.changes = (sources.zip targets).map fun p => .substitution m p.1 p.2
  environment : r.environment = ⟨[], []⟩

variable {m : FeatureModel}

theorem Substitutes.isLocal (hr : r.Substitutes m sources targets) : r.IsLocal where
  unconditional := by
    rw [hr.environment]
    rfl
  single := by
    rw [hr.changes]
    intro c hc
    obtain ⟨p, _, rfl⟩ := List.mem_map.mp hc
    exact ⟨.literal (m.resolve p.1), rfl, trivial⟩

theorem Substitutes.image_resolve (hr : r.Substitutes m sources targets) (hm : m.Defined)
    (hnone : m.features = []) (x : String) :
    r.image (m.resolve x) = [m.resolve (exchanged sources targets x)] := by
  have hfind : r.changes.findSome? (·.image? (m.resolve x)) =
      ((sources.zip targets).lookup x).map fun b => [m.resolve b] := by
    rw [hr.changes]
    induction sources.zip targets with
    | nil => rfl
    | cons p pairs ih =>
      rw [List.map_cons, List.findSome?_cons, Change.image?_substitution hm hnone,
        List.lookup_cons, ih]
      cases x == p.1 with
      | false => rfl
      | true => rfl
  rw [image, hfind, exchanged]
  cases (sources.zip targets).lookup x with
  | none => rfl
  | some b => rfl

/-- A row of substitutions exchanges the symbols of a word. -/
theorem Substitutes.apply_eq (hr : r.Substitutes m sources targets) (hm : m.Defined)
    (hnone : m.features = []) {w : Word} (hw : w.IsOn m) :
    r.apply w =
      ⟨m, w.segments.map fun s => m.resolve (exchanged sources targets s.symbol)⟩ := by
  have hmodel : w.model.same r.model = true :=
    FeatureModel.same_iff.mpr (congrArg _ (hw.model.trans hr.model.symm))
  have himages : w.segments.flatMap r.image =
      w.segments.flatMap fun s => [m.resolve (exchanged sources targets s.symbol)] := by
    refine List.flatMap_congr fun s hs => ?_
    conv_lhs => rw [(hw.segments s hs).eq_resolve hm hnone]
    exact hr.image_resolve hm hnone s.symbol
  rw [hr.isLocal.apply_eq hmodel, himages, hw.model, ← List.map_eq_flatMap]

theorem Substitutes.isOn_apply (hr : r.Substitutes m sources targets) (hm : m.Defined)
    (hnone : m.features = []) {w : Word} (hw : w.IsOn m) : (r.apply w).IsOn m := by
  rw [hr.apply_eq hm hnone hw]
  refine ⟨rfl, fun s hs => ?_⟩
  obtain ⟨x, -, rfl⟩ := List.mem_map.mp hs
  exact ⟨rfl, hm.length_vector _⟩

/-- Two rules of plain symbols with their sides exchanged undo each other, on every word that has
none of the new symbols but such as are replaced themselves. Where the rule permutes its symbols,
that is every word. Either rule replaces each segment by what its symbol is exchanged for. -/
theorem apply_apply_inverse {macros : MacroTable} (hm : macros.model.Defined)
    (hnone : macros.model.features = []) {sources targets : List String}
    (hne : sources ≠ []) (hlength : sources.length = targets.length) (hsources : sources.Nodup)
    (htargets : targets.Nodup) (hplain : ∀ s ∈ sources ++ targets, IsPlainSymbol macros s) :
    ∃ f g, ofText macros (plainText sources targets) = .ok f ∧
      ofText macros (plainText targets sources) = .ok g ∧
      (∀ w : Word, w.IsOn macros.model →
        (∀ s ∈ w.segments, s.symbol ∈ targets → s.symbol ∈ sources) → g.apply (f.apply w) = w) ∧
      (sources.Perm targets → ∀ w : Word, w.IsOn macros.model → g.apply (f.apply w) = w) ∧
      ∀ w : Word, w.IsOn macros.model →
        f.apply w = ⟨macros.model,
          w.segments.map fun s => macros.model.resolve (exchanged sources targets s.symbol)⟩ ∧
        g.apply w = ⟨macros.model,
          w.segments.map fun s => macros.model.resolve (exchanged targets sources s.symbol)⟩ := by
  have hplain' : ∀ s ∈ targets ++ sources, IsPlainSymbol macros s := by
    intro s hs
    exact hplain s (List.mem_append.mpr (List.mem_append.mp hs).symm)
  have htargets_ne : targets ≠ [] := by
    intro hnil
    rw [hnil] at hlength
    exact hne (List.eq_nil_of_length_eq_zero hlength)
  have hinverse : ∀ f g : Rule, f.Substitutes macros.model sources targets →
      g.Substitutes macros.model targets sources → ∀ w : Word, w.IsOn macros.model →
        (∀ s ∈ w.segments, s.symbol ∈ targets → s.symbol ∈ sources) →
          g.apply (f.apply w) = w := by
    intro f g hf hg w hw hclear
    have hback : (w.segments.map fun s =>
        macros.model.resolve (exchanged sources targets s.symbol)).map
          (fun s => macros.model.resolve (exchanged targets sources s.symbol)) = w.segments := by
      rw [List.map_map]
      refine (List.map_congr_left fun s hs => ?_).trans (List.map_id' _)
      have hsymbol := exchanged_exchanged hsources htargets hlength (hclear s hs)
      refine Eq.trans ?_ ((hw.segments s hs).eq_resolve hm hnone).symm
      exact congrArg macros.model.resolve hsymbol
    rw [hg.apply_eq hm hnone (hf.isOn_apply hm hnone hw), hf.apply_eq hm hnone hw, hback]
    obtain ⟨m, segments⟩ := w
    obtain rfl : m = macros.model := hw.model
    rfl
  refine ⟨_, _, ofText_plainText hplain hne hlength,
    ofText_plainText hplain' htargets_ne hlength.symm,
    hinverse _ _ ⟨rfl, rfl, rfl⟩ ⟨rfl, rfl, rfl⟩, fun hperm w hw => ?_, fun w hw => ⟨?_, ?_⟩⟩
  · exact hinverse _ _ ⟨rfl, rfl, rfl⟩ ⟨rfl, rfl, rfl⟩ w hw fun s _ hmem => hperm.mem_iff.mpr hmem
  · exact Substitutes.apply_eq ⟨rfl, rfl, rfl⟩ hm hnone hw
  · exact Substitutes.apply_eq ⟨rfl, rfl, rfl⟩ hm hnone hw

theorem apply_apply_inverse_shift :
    let w : Word := ⟨.empty, ["e", "t", "a"].map FeatureModel.empty.resolve⟩
    ∃ f g, ofText (.empty .empty) "a e > e o" = .ok f ∧
      ofText (.empty .empty) "e o > a e" = .ok g ∧
      f.apply w = ⟨.empty, ["o", "t", "e"].map FeatureModel.empty.resolve⟩ ∧
      g.apply (f.apply w) = w := by
  intro w
  have hplain : ∀ s ∈ ["a", "e"] ++ ["e", "o"], IsPlainSymbol (.empty .empty) s := by
    have hall : ∀ s ∈ ["a", "e"] ++ ["e", "o"],
        Lexeme.ofText (.empty .empty) s = .ok [.atom (.symbol s)] ∧
        (Segmenter.ofModel .empty).split s = [s] ∧ s ≠ "0" ∧
        '>' ∉ s.toList ∧ '/' ∉ s.toList ∧ '$' ∉ s.toList := by decide +kernel
    intro s hs
    obtain ⟨hlexeme, hpiece, hzero, harrow, hslash, hdollar⟩ := hall s hs
    exact ⟨hlexeme, hpiece, hzero, harrow, hslash, hdollar⟩
  obtain ⟨f, g, hf, hg, hinverse, -, hexchange⟩ := @apply_apply_inverse (.empty .empty) .empty rfl
    ["a", "e"] ["e", "o"] (by decide) rfl (by decide) (by decide) hplain
  have hw : w.IsOn .empty := by
    refine ⟨rfl, fun s hs => ?_⟩
    obtain ⟨x, _, rfl⟩ := List.mem_map.mp hs
    exact ⟨rfl, rfl⟩
  refine ⟨f, g, hf, hg, (hexchange w hw).1, hinverse w hw fun s hs => ?_⟩
  obtain ⟨x, hx, rfl⟩ := List.mem_map.mp hs
  exact (by decide : ∀ x ∈ ["e", "t", "a"], x ∈ ["e", "o"] → x ∈ ["a", "e"]) x hx

end Rule

end SoundLaw
