import SoundLaw.Proofs.Insertions
import SoundLaw.Proofs.Models
import SoundLaw.Proofs.Rearrangement

/-!
# Writing features over segments

A bundle is written over a segment slot by slot, the symbol is looked up by the vector that comes
out, and matching tolerates missing values. Each of the three has an equality of its own. A rule
writes bundles without a comparison of models. It needs none, since what it reads and what it
puts in are of one model from the first turn of the walk to the last.
-/

namespace SoundLaw
set_option autoImplicit false

theorem FeatureValue.fits_self (x : FeatureValue) : x.fits x = true := by
  cases x with
  | undefined | masked => rfl
  | number value => exact value.same_refl

/-! ### Vectors -/

namespace FeatureVector
variable {u v w : FeatureVector} {x y : FeatureValue}

/-- A vector with what the second one of two specifies, and what the first one has elsewhere. -/
structure IsOverlay (v w u : FeatureVector) : Prop where
  length : u.length = v.length
  written : ∀ (i : Nat) (x : FeatureValue), w[i]? = some x → x.isSpecified = true → u[i]? = some x
  kept : ∀ (i : Nat) (x : FeatureValue), w[i]? = some x → x.isSpecified = false → u[i]? = v[i]?

@[simp] theorem overwrite_nil (v : FeatureVector) : v.overwrite [] = [] := by
  rw [overwrite, List.zip_nil_right]
  rfl

@[simp] theorem nil_overwrite (w : FeatureVector) : overwrite [] w = [] := rfl

@[simp] theorem overwrite_cons : overwrite (x :: v) (y :: w) =
    (if y.isSpecified then y else x) :: v.overwrite w := rfl

theorem length_overwrite (h : v.length = w.length) : (v.overwrite w).length = v.length := by
  simp [overwrite, h]

theorem overwrite_assoc (u v w : FeatureVector) :
    (u.overwrite v).overwrite w = u.overwrite (v.overwrite w) := by
  induction u generalizing v w with
  | nil => rfl
  | cons x u ih =>
    cases v with
    | nil => simp
    | cons y v =>
      cases w with
      | nil => simp
      | cons z w =>
        rw [overwrite_cons, overwrite_cons, overwrite_cons, overwrite_cons, ih]
        cases hz : z.isSpecified <;> simp [hz]

theorem overwrite_self (w : FeatureVector) : w.overwrite w = w := by
  induction w with
  | nil => rfl
  | cons x w ih => rw [overwrite_cons, ite_self, ih]

theorem overwrite_overwrite (v w : FeatureVector) :
    (v.overwrite w).overwrite w = v.overwrite w := by
  rw [overwrite_assoc, overwrite_self]

/-- What was written fits, and what is not specified fits everything. -/
theorem fits_overwrite (v w : FeatureVector) : fits (v.overwrite w) w = true := by
  induction v generalizing w with
  | nil => rfl
  | cons x v ih =>
    cases w with
    | nil =>
      rw [overwrite_nil]
      rfl
    | cons y w =>
      have hfirst : (if y.isSpecified then y else x).fits y = true := by
        cases y with
        | number value => exact FeatureValue.fits_self (.number value)
        | undefined | masked => cases x <;> rfl
      have hrest : fits (overwrite v w) w = true := ih w
      rw [fits] at hrest
      rw [overwrite_cons, fits, List.zip_cons_cons, List.all_cons, hfirst, hrest]
      rfl

theorem isSpecified_overwrite (h : v.length = w.length) (hw : w.isSpecified = true) :
    (v.overwrite w).isSpecified = true := by
  obtain ⟨x, hx, hspecified⟩ := List.any_eq_true.mp hw
  obtain ⟨i, hi, rfl⟩ := List.getElem_of_mem hx
  refine List.any_eq_true.mpr ⟨w[i], ?_, hspecified⟩
  refine List.mem_map.mpr ⟨(v[i], w[i]), ?_, if_pos hspecified⟩
  exact List.mem_iff_getElem.mpr ⟨i, by simp [h, hi], List.getElem_zip⟩

theorem isOverlay_iff (h : v.length = w.length) : IsOverlay v w u ↔ u = v.overwrite w := by
  have hslot : ∀ (i : Nat) (hi : i < w.length), (v.overwrite w)[i]? =
      if w[i].isSpecified then some w[i] else v[i]? := by
    intro i hi
    have hi' : i < v.length := h ▸ hi
    rw [List.getElem?_eq_getElem (by rwa [length_overwrite h]), List.getElem?_eq_getElem hi']
    simp only [overwrite, List.getElem_map, List.getElem_zip]
    split <;> rfl
  constructor
  · intro hoverlay
    apply List.ext_getElem?
    intro i
    by_cases hi : i < w.length
    · have hget := List.getElem?_eq_getElem hi
      rw [hslot i hi]
      split
      · rename_i hspecified
        exact hoverlay.written i _ hget hspecified
      · rename_i hopen
        exact hoverlay.kept i _ hget (by simpa using hopen)
    · rw [List.getElem?_eq_none, List.getElem?_eq_none]
      · rw [length_overwrite h]
        omega
      · rw [hoverlay.length]
        omega
  · rintro rfl
    refine ⟨length_overwrite h, fun i x hx hspecified => ?_, fun i x hx hopen => ?_⟩
    · obtain ⟨hi, rfl⟩ := List.getElem?_eq_some_iff.mp hx
      rw [hslot i hi, if_pos hspecified]
    · obtain ⟨hi, rfl⟩ := List.getElem?_eq_some_iff.mp hx
      rw [hslot i hi, hopen, if_neg Bool.false_ne_true]

end FeatureVector

/-! ### Segments -/

namespace Segment
variable {m : FeatureModel} {s t b : Segment}

theorem alter_of_same (h : s.sameModel b = true) : s.alter b = .ok (s.altered b) := if_pos h

theorem alter_of_not_same (h : s.sameModel b = false) :
    s.alter b = .error (.mismatch b.symbol) := by
  rw [alter, h]
  rfl

theorem IsOn.sameModel (hs : s.IsOn m) (hb : b.IsOn m) : s.sameModel b = true := by
  rw [Segment.sameModel, hs.model, hb.model]
  exact m.same_self

theorem IsOn.alter (hs : s.IsOn m) (hb : b.IsOn m) : s.alter b = .ok (s.altered b) :=
  alter_of_same (hs.sameModel hb)

theorem IsOn.length_eq (hs : s.IsOn m) (hb : b.IsOn m) :
    s.features.length = b.features.length := hs.length.trans hb.length.symm

theorem IsOn.altered (hs : s.IsOn m) (hb : b.IsOn m) : (s.altered b).IsOn m where
  model := hs.model
  length := (FeatureVector.length_overwrite (hs.length_eq hb)).trans hs.length

theorem altered_altered (s b : Segment) : (s.altered b).altered b = s.altered b := by
  simp only [altered, FeatureVector.overwrite_overwrite]
  cases s.model.symbolFor? (s.features.overwrite b.features) <;> rfl

/-- The symbol is found by the vector, or stays where no symbol has this vector. -/
theorem symbol_altered (s b : Segment) :
    s.model.IsFirstWith (s.altered b).features (s.altered b).symbol ∨
      (∀ p ∈ s.model.symbols, FeatureVector.same p.2 (s.altered b).features = false) ∧
        (s.altered b).symbol = s.symbol := by
  cases hfound : s.model.symbolFor? (s.altered b).features with
  | none =>
    refine .inr ⟨FeatureModel.symbolFor?_eq_none_iff.mp hfound, ?_⟩
    change (s.model.symbolFor? (s.altered b).features).getD s.symbol = s.symbol
    rw [hfound]
    rfl
  | some symbol =>
    have hsymbol : (s.altered b).symbol = symbol := by
      change (s.model.symbolFor? (s.altered b).features).getD s.symbol = symbol
      rw [hfound]
      rfl
    rw [hsymbol]
    exact .inl (FeatureModel.symbolFor?_eq_some_iff.mp hfound)

/-- A bundle with a value matches what it was written over, whatever that was. -/
theorem IsOn.altered_fits (hs : s.IsOn m) (hb : b.IsOn m) (hfeatured : b.isFeatured = true) :
    (s.altered b).fits b = true := by
  have hmodel := (hs.altered hb).sameModel hb
  have hspecified : (s.altered b).isFeatured = true :=
    FeatureVector.isSpecified_overwrite (hs.length_eq hb) hfeatured
  rw [fits, hmodel, hspecified, hfeatured]
  exact FeatureVector.fits_overwrite s.features b.features

end Segment

/-! ### Words of one model -/

namespace FeatureModel
variable {m : FeatureModel}

theorem Defined.isOn_resolve (h : m.Defined) (symbol : String) : (m.resolve symbol).IsOn m where
  model := rfl
  length := h.length_vector symbol

theorem isOn_of_resolveBundle {descriptor : String} {s : Segment}
    (h : m.resolveBundle descriptor = .ok s) : s.IsOn m := by
  refine ⟨?_, length_of_resolveBundle h⟩
  unfold resolveBundle at h
  split at h
  · cases h
  · cases h
    rfl

end FeatureModel

/-- A segment of the model that a symbol or a bundle stands for. -/
def FeatureModel.Resolves (m : FeatureModel) (s : Segment) : Prop :=
  (∃ symbol, s = m.resolve symbol) ∨ ∃ descriptor, m.resolveBundle descriptor = .ok s

theorem FeatureModel.Defined.isOn_of_resolves {m : FeatureModel} (hm : m.Defined) {s : Segment}
    (h : m.Resolves s) : s.IsOn m := by
  rcases h with ⟨symbol, rfl⟩ | ⟨descriptor, hbundle⟩
  · exact hm.isOn_resolve symbol
  · exact isOn_of_resolveBundle hbundle

/-- What an item puts in of its own has a property. -/
def TargetItem.Brings (P : Segment → Prop) : TargetItem → Prop
  | literal s => P s
  | repeated _ => True
  | counterpart _ alternatives => ∀ run ∈ alternatives, ∀ s ∈ run, P s
  | overwritten _ bundle => P bundle

theorem TargetItem.Brings.mono {P Q : Segment → Prop} (h : ∀ s, P s → Q s) {item : TargetItem}
    (hitem : item.Brings P) : item.Brings Q := by
  cases item with
  | literal s => exact h s hitem
  | repeated => trivial
  | counterpart index alternatives => exact fun run hrun s hs => h s (hitem run hrun s hs)
  | overwritten index bundle => exact h bundle hitem

section Reading
variable {macros : MacroTable} {source : List Element} {word text : String} {index : Nat}
variable {chars rest : List Char} {item : TargetItem} {r : Rule}

theorem brings_of_readReference (hmacros : macros.IsSolid)
    (h : readReference macros source word chars = .ok (item, rest)) :
    item.Brings macros.model.Resolves := by
  obtain ⟨index, e, -, hitem⟩ := item_of_readReference h
  rcases hitem with rfl | ⟨name, others, other, alternatives, rfl, -, hfind, rfl⟩
  · trivial
  · exact fun run hrun s hs => .inl ((hmacros other alternatives hfind run hrun).resolved s hs)

theorem brings_of_readOverwrite
    (h : readOverwrite macros source word index chars = .ok (item, rest)) :
    item.Brings macros.model.Resolves := by
  obtain ⟨-, descriptor, bundle, hbundle, rfl⟩ := item_of_readOverwrite h
  exact .inr ⟨descriptor, hbundle⟩

theorem brings_of_ofText (hmacros : macros.IsSolid) (h : Rule.ofText macros text = .ok r) :
    ∀ c ∈ r.changes, ∀ item ∈ c.target, item.Brings macros.model.Resolves := by
  intro c hc
  rcases Rule.exists_target_of_ofText h hc with hnone | ⟨word, hread⟩
  · rw [hnone]
    exact nofun
  · refine forall_of_readItems (brings_of_readReference hmacros) brings_of_readOverwrite ?_ hread
    intro run item hitem
    obtain ⟨s, hs, rfl⟩ := List.mem_map.mp hitem
    obtain ⟨symbol, -, rfl⟩ := List.mem_map.mp hs
    exact .inl ⟨symbol, rfl⟩

end Reading

/-! ### The walk -/

theorem Capture.mem_of_mem_run {x : Capture} {word : List Segment} {s : Segment}
    (h : s ∈ x.run word) : s ∈ word :=
  List.mem_of_mem_drop (List.mem_of_mem_take h)

section Walk
variable {P : Segment → Prop} (haltered : ∀ s b, P s → P b → P (s.altered b))
include haltered

theorem TargetItem.Brings.render {item : TargetItem} {word : List Segment}
    (hitem : item.Brings P) (hword : ∀ s ∈ word, P s) (captures : List Capture) :
    ∀ s ∈ item.render word captures, P s := by
  have hruns : ∀ (index : Nat) (s : Segment),
      s ∈ (captures[index]?.map (·.run word)).getD [] → P s := by
    intro index s hs
    cases hx : captures[index]? with
    | none =>
      rw [hx] at hs
      cases hs
    | some x =>
      rw [hx] at hs
      exact hword s (Capture.mem_of_mem_run hs)
  intro s hs
  cases item with
  | literal t =>
    rw [List.mem_singleton.mp hs]
    exact hitem
  | repeated index => exact hruns index s hs
  | counterpart index alternatives =>
    rw [TargetItem.render] at hs
    split at hs
    · cases hs
    · rename_i x hx
      cases hchoice : x.choice.bind (alternatives[·]?) with
      | none =>
        rw [hchoice] at hs
        exact hword s (Capture.mem_of_mem_run hs)
      | some run =>
        rw [hchoice] at hs
        obtain ⟨n, -, hget⟩ := Option.bind_eq_some_iff.mp hchoice
        exact hitem run (List.mem_of_getElem? hget) s hs
  | overwritten index bundle =>
    obtain ⟨t, ht, rfl⟩ := List.mem_map.mp hs
    exact haltered t bundle (hruns index t ht) hitem

variable {r : Rule} {m : FeatureModel} {x y : List Segment × Nat}
variable (hr : ∀ c ∈ r.changes, ∀ item ∈ c.target, item.Brings P)
include hr

theorem Rule.Turn.forall_segments (h : r.Turn m x y) (hx : ∀ s ∈ x.1, P s) :
    ∀ s ∈ y.1, P s := by
  cases h with
  | pass => exact hx
  | replace hpos hsome =>
    obtain ⟨c, hc, k, -, rfl⟩ := Rule.exists_reads_of_replacement? hsome
    intro s hs
    simp only [Word.spliceRun, List.mem_append] at hs
    rcases hs with (hs | hs) | hs
    · exact hx s (List.mem_of_mem_take hs)
    · obtain ⟨item, hitem, hs⟩ := List.mem_flatMap.mp hs
      exact (hr c hc item hitem).render haltered hx k.captures s hs
    · exact hx s (List.mem_of_mem_drop hs)

theorem Rule.forall_of_turns (h : Relation.ReflTransGen (r.Turn m) x y) (hx : ∀ s ∈ x.1, P s) :
    ∀ s ∈ y.1, P s := by
  induction h with
  | refl => exact hx
  | tail _ hturn ih => exact hturn.forall_segments haltered hr ih

/-- What holds of the segments of a word, and of all that the rule brings in, holds of the
outcome. -/
theorem Rule.forall_of_walk {segments : List Segment} {pos : Nat} (h : ∀ s ∈ segments, P s) :
    ∀ s ∈ r.walk m segments pos, P s := by
  obtain ⟨x, hturns, -, hwalk⟩ := r.exists_turns m segments pos
  rw [hwalk]
  exact forall_of_turns haltered hr hturns h

end Walk

namespace Rule
variable {r : Rule} {m : FeatureModel} {word : List Segment}

/-- Wherever a bundle is written over what an element has read, each of its segments is altered,
and none is refused. -/
def AltersAt (r : Rule) (word : List Segment) (pos : Nat) : Prop :=
  ∀ c ∈ r.changes, ∀ k ∈ c.candidates word pos, ∀ index bundle,
    .overwritten index bundle ∈ c.target → ∃ x, k.captures[index]? = some x ∧
      (x.run word).mapM (·.alter bundle) =
        .ok ((TargetItem.overwritten index bundle).render word k.captures)

theorem altersAt_of_isOn {macros : MacroTable} {pos : Nat}
    (hfor : ∀ c ∈ r.changes, ∀ item ∈ c.target, item.IsFor macros c.source)
    (hr : ∀ c ∈ r.changes, ∀ item ∈ c.target, item.Brings (·.IsOn m))
    (hword : ∀ s ∈ word, s.IsOn m) : r.AltersAt word pos := by
  intro c hc k hk index bundle hitem
  have hlt : index < c.source.length := hfor c hc _ hitem
  have hbundle : bundle.IsOn m := hr c hc _ hitem
  obtain ⟨x, hx⟩ := (Change.mem_candidates.mp hk).exists_capture hlt
  refine ⟨x, hx, ?_⟩
  rw [TargetItem.render, hx]
  apply mapM_eq_ok
  intro s hs
  exact (hword s (Capture.mem_of_mem_run hs)).alter hbundle

theorem model_of_ofText {macros : MacroTable} {text : String} (h : ofText macros text = .ok r) :
    r.model = macros.model := by
  obtain ⟨changes, -, h⟩ := bind_eq_ok.mp h
  obtain ⟨environment, -, h⟩ := bind_eq_ok.mp h
  cases h
  rfl

section Texts
variable {ds : List Definition} {text : String} {w : Word}

theorem apply_of_not_same (h : ofText (.ofDefinitions m ds) text = .ok r)
    (hw : w.model.same m = false) : r.apply w = w := by
  rw [apply, model_of_ofText h, MacroTable.model_ofDefinitions, hw]
  rfl

/-- A rule keeps the words of its model on the model, and refuses nothing on the way. -/
theorem apply_isOn (hm : m.Defined) (h : ofText (.ofDefinitions m ds) text = .ok r)
    (hw : w.IsOn m) : (r.apply w).IsOn m ∧
      ∀ x, Relation.ReflTransGen (r.Turn m) (w.segments, 0) x → r.AltersAt x.1 x.2 := by
  have hmodel := MacroTable.model_ofDefinitions m ds
  have hon : ∀ c ∈ r.changes, ∀ item ∈ c.target, item.Brings (·.IsOn m) := by
    intro c hc item hitem
    have hbrings := brings_of_ofText (MacroTable.isSolid_ofDefinitions m ds) h c hc item hitem
    rw [hmodel] at hbrings
    exact hbrings.mono fun s hs => hm.isOn_of_resolves hs
  have haltered : ∀ s b : Segment, s.IsOn m → b.IsOn m → (s.altered b).IsOn m :=
    fun _ _ hs hb => hs.altered hb
  have happly : r.apply w = { w with segments := r.walk m w.segments 0 } := by
    rw [apply, model_of_ofText h, hmodel, hw.model, if_pos m.same_self]
  constructor
  · rw [happly]
    exact ⟨hw.model, forall_of_walk haltered hon hw.segments⟩
  · intro x hx
    exact altersAt_of_isOn (isFor_of_ofText h) hon (forall_of_turns haltered hon hx hw.segments)

end Texts

end Rule

/-- Writing a bundle over a segment of its model gives each slot the value that the bundle
specifies, and leaves it as it is where there is none. The symbol is the first one with the vector
that comes out, if there is one. Doing so again changes nothing, a bundle that specifies a value
matches the outcome, and two bundles in turn have the effect of the one that is made of both. A
segment of another model is refused. A rule does the same with what its elements read: its words
stay on the model, and there is nothing to refuse. -/
theorem Segment.alter_overlay {m : FeatureModel} {s b c : Segment} (hs : s.IsOn m)
    (hb : b.IsOn m) (hc : c.IsOn m) :
    (∃ t, s.alter b = .ok t ∧ t.IsOn m ∧
      FeatureVector.IsOverlay s.features b.features t.features ∧
      (m.IsFirstWith t.features t.symbol ∨
        (∀ p ∈ m.symbols, FeatureVector.same p.2 t.features = false) ∧ t.symbol = s.symbol) ∧
      t.alter b = .ok t ∧ (b.isFeatured = true → t.fits b = true) ∧
      ∃ twice, t.alter c = .ok twice ∧ ∀ bundle : Segment, bundle.IsOn m →
        FeatureVector.IsOverlay b.features c.features bundle.features →
        ∃ once, s.alter bundle = .ok once ∧ once.features = twice.features) ∧
    (∀ other : Segment, m.same other.model = false →
      s.alter other = .error (.mismatch other.symbol)) ∧
    (m.Defined → ∀ ds text r, Rule.ofText (.ofDefinitions m ds) text = .ok r →
      (∀ w : Word, w.model.same m = false → r.apply w = w) ∧
      ∀ w : Word, w.IsOn m → (r.apply w).IsOn m ∧
        ∀ x, Relation.ReflTransGen (r.Turn m) (w.segments, 0) x → r.AltersAt x.1 x.2) := by
  refine ⟨⟨s.altered b, hs.alter hb, hs.altered hb, ?_, ?_, ?_, fun hfeatured =>
    hs.altered_fits hb hfeatured, (s.altered b).altered c, (hs.altered hb).alter hc, ?_⟩, ?_, ?_⟩
  · exact (FeatureVector.isOverlay_iff (hs.length_eq hb)).mpr rfl
  · have hsymbol := s.symbol_altered b
    rwa [hs.model] at hsymbol
  · rw [(hs.altered hb).alter hb, Segment.altered_altered]
  · intro bundle hbundle hoverlay
    refine ⟨s.altered bundle, hs.alter hbundle, ?_⟩
    have hfeatures := (FeatureVector.isOverlay_iff (hb.length_eq hc)).mp hoverlay
    change s.features.overwrite bundle.features = _
    rw [hfeatures, ← FeatureVector.overwrite_assoc]
    rfl
  · intro other hother
    apply Segment.alter_of_not_same
    rw [Segment.sameModel, hs.model, hother]
  · intro hm ds text r hr
    exact ⟨fun w hw => Rule.apply_of_not_same hr hw, fun w hw => Rule.apply_isOn hm hr hw⟩

theorem Segment.alter_overlay_voiced :
    let m : FeatureModel :=
      ⟨.numbered 1, ⟨["cons", "voice"], []⟩, [("p", [.plus, .minus]), ("b", [.plus, .plus])]⟩
    let voiced : Segment := ⟨"[+voice]", [.masked, .plus], m⟩
    let glide : Segment := ⟨"[-cons]", [.minus, .masked], m⟩
    (m.resolve "p").IsOn m ∧ voiced.IsOn m ∧ glide.IsOn m ∧ voiced.isFeatured = true ∧
      m.same FeatureModel.empty = false ∧
      (m.resolve "p").alter (FeatureModel.empty.resolve "p") = .error (.mismatch "p") ∧
      ∃ t twice, (m.resolve "p").alter voiced = .ok t ∧ t.symbol = "b" ∧ t.alter voiced = .ok t ∧
        t.fits voiced = true ∧ t.alter glide = .ok twice ∧ twice.symbol = "b" ∧
        twice.features = [.minus, .plus] := by
  intro m voiced glide
  have hp : (m.resolve "p").IsOn m := ⟨rfl, rfl⟩
  have hvoiced : voiced.IsOn m := ⟨rfl, rfl⟩
  have hglide : glide.IsOn m := ⟨rfl, rfl⟩
  have hfeatured : voiced.isFeatured = true := by decide +kernel
  have hforeign : m.same FeatureModel.empty = false := by decide +kernel
  obtain ⟨⟨t, ht, -, -, -, hagain, hfits, twice, htwice, -⟩, hrefused, -⟩ :=
    Segment.alter_overlay hp hvoiced hglide
  have hsymbol : ((m.resolve "p").alter voiced).toOption.map Segment.symbol = some "b" := by
    decide +kernel
  have hboth : (((m.resolve "p").alter voiced).toOption.bind fun t =>
      (t.alter glide).toOption.map fun twice => (twice.symbol, twice.features)) =
      some ("b", [.minus, .plus]) := by decide +kernel
  rw [ht] at hsymbol hboth
  rw [Except.toOption, Option.bind_some, htwice] at hboth
  obtain ⟨hname, hvector⟩ := Prod.mk.inj (Option.some.inj hboth)
  exact ⟨hp, hvoiced, hglide, hfeatured, hforeign, hrefused _ hforeign, t, twice, ht,
    Option.some.inj hsymbol, hagain, hfits hfeatured, htwice, hname, hvector⟩

end SoundLaw
