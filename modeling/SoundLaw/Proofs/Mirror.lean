import SoundLaw.Proofs.Matching

/-!
# Left and right

Read from right to left, a pattern means the mirror image of what it means from left to right:
the target is reversed, and the two positions are counted from the other end and change places.
An item that is inverted looks only in the direction of reading, so such items are ruled out.
Whether an automaton can be made does not depend on the side at all.
-/

namespace SoundLaw
set_option autoImplicit false

namespace Passage
variable {n : Nat} {r s : Passage}

/-- The passages are mirror images of each other between the positions up to a last one. -/
def Mirrors (n : Nat) (r s : Passage) : Prop :=
  ∀ i ≤ n, ∀ j ≤ n, r i j ↔ s (n - j) (n - i)

theorem Mirrors.symm (h : r.Mirrors n s) : s.Mirrors n r := by
  intro i hi j hj
  rw [h (n - j) (Nat.sub_le n j) (n - i) (Nat.sub_le n i), Nat.sub_sub_self hi,
    Nat.sub_sub_self hj]

theorem mirrors_union {es : List Expression} {f g : Expression → Passage}
    (h : ∀ e ∈ es, (f e).Mirrors n (g e)) : (union (es.map f)).Mirrors n (union (es.map g)) := by
  intro i hi j hj
  induction es with
  | nil => exact iff_of_false not_union_nil not_union_nil
  | cons e es ih =>
    rw [List.map_cons, List.map_cons, union_cons, union_cons]
    exact or_congr (h e List.mem_cons_self i hi j hj)
      (ih fun e he => h e (List.mem_cons_of_mem _ he))

/-- One after the other, mirror images change places. -/
theorem Mirrors.comp {r' s' : Passage} (h : r.Mirrors n s) (h' : r'.Mirrors n s')
    (hr : r.Forward n) (hs' : s'.Forward n) :
    Mirrors n (fun i j => ∃ k, r i k ∧ r' k j) (fun i j => ∃ k, s' i k ∧ s k j) := by
  intro i hi j hj
  constructor
  · intro ⟨k, hik, hkj⟩
    have hk := (hr hi hik).2
    exact ⟨n - k, (h' k hk j hj).mp hkj, (h i hi k hk).mp hik⟩
  · intro ⟨k, hjk, hki⟩
    have hk := (hs' (Nat.sub_le n j) hjk).2
    have hk' : n - (n - k) = k := Nat.sub_sub_self hk
    refine ⟨n - k, (h i hi (n - k) (Nat.sub_le n k)).mpr ?_,
      (h' (n - k) (Nat.sub_le n k) j hj).mpr ?_⟩
    · rwa [hk']
    · rwa [hk']

theorem mirrors_composition {es : List Expression} {f g : Expression → Passage}
    (hf : ∀ e ∈ es, (f e).Forward n) (hg : ∀ e ∈ es, (g e).Forward n)
    (h : ∀ e ∈ es, (f e).Mirrors n (g e)) :
    (composition (es.map f)).Mirrors n (composition (es.map g).reverse) := by
  induction es with
  | nil =>
    intro i hi j hj
    simp only [List.map_nil, List.reverse_nil, composition]
    omega
  | cons e es ih =>
    have htail := ih (fun e he => hf e (List.mem_cons_of_mem _ he))
      (fun e he => hg e (List.mem_cons_of_mem _ he))
      (fun e he => h e (List.mem_cons_of_mem _ he))
    have hback : (composition (es.map g).reverse).Forward n := by
      apply forward_composition
      intro r hr
      obtain ⟨e', he', rfl⟩ := List.mem_map.mp (List.mem_reverse.mp hr)
      exact hg e' (List.mem_cons_of_mem _ he')
    intro i hi j hj
    rw [List.map_cons, List.map_cons, List.reverse_cons, composition_append_singleton]
    exact (h e List.mem_cons_self).comp htail (hf e List.mem_cons_self) hback i hi j hj

theorem Mirrors.reflTransGen_of (h : r.Mirrors n s) (hr : r.Forward n) {i j : Nat} (hi : i ≤ n)
    (hij : Relation.ReflTransGen r i j) : Relation.ReflTransGen s (n - j) (n - i) := by
  induction hij with
  | refl => exact .refl
  | tail hik hkj ih =>
    have hk := (forward_reflTransGen hr hi hik).2
    exact .head ((h _ hk _ (hr hk hkj).2).mp hkj) ih

theorem Mirrors.reflTransGen (h : r.Mirrors n s) (hr : r.Forward n) (hs : s.Forward n) :
    Mirrors n (Relation.ReflTransGen r) (Relation.ReflTransGen s) := by
  intro i hi j hj
  constructor
  · exact h.reflTransGen_of hr hi
  · intro hji
    have hij := h.symm.reflTransGen_of hs (Nat.sub_le n j) hji
    rwa [Nat.sub_sub_self hi, Nat.sub_sub_self hj] at hij

theorem Mirrors.repeated (h : r.Mirrors n s) (hr : r.Forward n) (hs : s.Forward n)
    (q : Quantifier) : Mirrors n (q.repeated r) (q.repeated s) := by
  intro i hi j hj
  cases q with
  | one => exact h i hi j hj
  | optional => exact or_congr (by omega) (h i hi j hj)
  | star => exact h.reflTransGen hr hs i hi j hj
  | plus =>
    -- the last step of one is the first step of the other
    simp only [Quantifier.repeated]
    rw [Relation.TransGen.tail'_iff, Relation.TransGen.head'_iff]
    exact (h.reflTransGen hr hs).comp h (forward_reflTransGen hr) hs i hi j hj

end Passage

/-! ### Reversed targets -/

section Targets
variable {target run : List Segment} {i : Nat}

theorem getElem?_reverse_sub {k : Nat} (hk : k < target.length) :
    target.reverse[target.length - (k + 1)]? = target[k]? := by
  rw [List.getElem?_reverse (by omega)]
  congr 1
  omega

theorem Stands.reverse (h : Stands target i run) (hi : i + run.length ≤ target.length) :
    Stands target.reverse (target.length - (i + run.length)) run.reverse := by
  intro k s hs
  have hk : k < run.length := by
    have hlt := (List.getElem?_eq_some_iff.mp hs).1
    rwa [List.length_reverse] at hlt
  rw [List.getElem?_reverse hk] at hs
  obtain ⟨x, hx, hfits⟩ := h _ s hs
  refine ⟨x, ?_, hfits⟩
  rw [← hx, List.getElem?_reverse (by omega)]
  congr 1
  omega

theorem stands_reverse_iff (hi : i + run.length ≤ target.length) :
    Stands target.reverse (target.length - (i + run.length)) run.reverse ↔
      Stands target i run := by
  constructor
  · intro h
    have hback := h.reverse (by
      rw [List.length_reverse, List.length_reverse]
      omega)
    rw [List.reverse_reverse, List.reverse_reverse, List.length_reverse, List.length_reverse,
      show target.length - (target.length - (i + run.length) + run.length) = i by omega] at hback
    exact hback
  · intro h
    exact h.reverse hi

theorem mirrors_single {P : Segment → Prop} :
    Passage.Mirrors target.length
      (fun i j => j = i + 1 ∧ ∃ x, target[i]? = some x ∧ P x)
      (fun i j => j = i + 1 ∧ ∃ x, target.reverse[i]? = some x ∧ P x) := by
  intro i hi j hj
  constructor
  · intro ⟨hstep, x, hx, hP⟩
    have hlt := (List.getElem?_eq_some_iff.mp hx).1
    refine ⟨by omega, x, ?_, hP⟩
    rw [hstep, getElem?_reverse_sub hlt, hx]
  · intro ⟨hstep, x, hx, hP⟩
    have hlt : i < target.length := by omega
    have hstep' : j = i + 1 := by omega
    rw [hstep', getElem?_reverse_sub hlt] at hx
    exact ⟨hstep', x, hx, hP⟩

theorem mirrors_alternatives {alternatives : List (List Segment)} :
    Passage.Mirrors target.length
      (fun i j => ∃ run ∈ alternatives, j = i + run.length ∧ Stands target i run)
      (fun i j => ∃ run ∈ alternatives, j = i + run.length ∧
        Stands target.reverse i run.reverse) := by
  intro i hi j hj
  refine exists_congr fun run => and_congr_right fun _ => ?_
  constructor
  · intro ⟨hstep, hrun⟩
    subst hstep
    exact ⟨by omega, hrun.reverse hj⟩
  · intro ⟨hstep, hrun⟩
    have hj' : j = i + run.length := by
      have hle := hrun.le_length (by rw [List.length_reverse]; omega)
      simp only [List.length_reverse] at hle
      omega
    subst hj'
    exact ⟨rfl, (stands_reverse_iff hj).mp hrun⟩

end Targets

/-! ### Expressions -/

section Expressions
variable {macros : MacroTable} {side : Side} {target : List Segment}

theorem Terminal.mirrors_reads (t : Terminal) :
    (t.Reads macros .right target).Mirrors target.length
      (t.Reads macros .left target.reverse) := by
  cases t with
  | literal => exact mirrors_single
  | boundary => exact mirrors_single
  | wildcard => exact mirrors_single
  | reference name =>
    intro i hi j hj
    refine exists_congr fun alternatives => and_congr_right fun _ => ?_
    exact mirrors_alternatives i hi j hj

theorem Expression.forward_reads_reverse (e : Expression) :
    (e.Reads macros side target.reverse).Forward target.length := by
  have h : (e.Reads macros side target.reverse).Forward target.reverse.length := e.forward_reads
  rwa [List.length_reverse] at h

namespace Marks
variable {r s : Passage}

theorem apply_of_not_negative {m : Marks} (hm : m.negative = false) :
    m.apply target r = m.quantifier.repeated r := by
  unfold apply
  rw [hm]
  rfl

theorem mirrors_apply {m : Marks} (hm : m.negative = false) (h : r.Mirrors target.length s)
    (hr : r.Forward target.length) (hs : s.Forward target.length) :
    (m.apply target r).Mirrors target.length (m.apply target.reverse s) := by
  rw [apply_of_not_negative hm, apply_of_not_negative hm]
  exact h.repeated hr hs m.quantifier

end Marks

namespace Expression

theorem mirrors_row {es : List Expression}
    (h : ∀ e ∈ es, (e.Reads macros .right target).Mirrors target.length
      (e.Reads macros .left target.reverse)) :
    (Passage.composition (Side.right.orient (passages macros .right target es))).Mirrors
      target.length
      (Passage.composition (Side.left.orient (passages macros .left target.reverse es))) := by
  rw [passages_eq_map, passages_eq_map]
  exact Passage.mirrors_composition (fun e _ => e.forward_reads)
    (fun e _ => e.forward_reads_reverse) h

/-- Without inverted items, what the left side reads is the mirror image of what the right side
reads. -/
theorem mirrors_reads {e : Expression} (he : e.Everywhere fun e => e.isNegative = false) :
    (e.Reads macros .right target).Mirrors target.length
      (e.Reads macros .left target.reverse) := by
  induction e using Expression.induct with
  | terminal t m =>
    cases he with
    | intro hsign _ =>
      refine Marks.mirrors_apply hsign t.mirrors_reads t.forward_reads ?_
      exact (terminal t {}).forward_reads_reverse
  | group children m ih =>
    cases he with
    | intro hsign hchildren =>
      refine Marks.mirrors_apply hsign (mirrors_row fun e he => ih e he (hchildren e he)) ?_ ?_
      · exact (group children {}).forward_reads
      · exact (group children {}).forward_reads_reverse
  | alternation alternatives m ih =>
    cases he with
    | intro hsign hchildren =>
      refine Marks.mirrors_apply hsign ?_ (alternation alternatives {}).forward_reads
        (alternation alternatives {}).forward_reads_reverse
      rw [passages_eq_map, passages_eq_map]
      exact Passage.mirrors_union fun e he => ih e he (hchildren e he)

end Expression

theorem Pattern.mirrors_reads {p : Pattern} (hp : p.Positive) :
    (p.Reads macros .right target).Mirrors target.length (p.Reads macros .left target.reverse) :=
  Expression.mirrors_row fun e he => Expression.mirrors_reads (hp e he)

end Expressions

/-! ### Legality -/

namespace Pattern
variable {macros : MacroTable} {side : Side} {p : Pattern}

theorem checkRow_eq_forM (es : List Expression) :
    checkRow macros side es = forM (side.orient es) (checkItem macros side) := by
  induction es with
  | nil => cases side <;> rfl
  | cons e es ih =>
    cases side with
    | right => rw [checkRow, ih, Side.orient, Side.orient, List.forM_cons]
    | left =>
      rw [checkRow, ih, Side.orient, Side.orient, List.reverse_cons, List.forM_append,
        List.forM_cons, List.forM_nil, bind_pure_unit]

theorem checkEach_eq_forM (es : List Expression) :
    checkEach macros side es = forM es (checkItem macros side) := by
  induction es with
  | nil => rfl
  | cons e es ih =>
    rw [checkEach, ih, List.forM_cons]

theorem checkRow_eq_ok {es : List Expression} :
    checkRow macros side es = .ok () ↔ ∀ e ∈ es, checkItem macros side e = .ok () := by
  rw [checkRow_eq_forM, forM_eq_ok]
  exact forall_congr' fun e => by rw [Side.mem_orient]

theorem checkEach_eq_ok {es : List Expression} :
    checkEach macros side es = .ok () ↔ ∀ e ∈ es, checkItem macros side e = .ok () := by
  rw [checkEach_eq_forM, forM_eq_ok]

theorem checkItem_eq_ok {e : Expression} (side' : Side) :
    checkItem macros side e = .ok () ↔ checkItem macros side' e = .ok () := by
  induction e using Expression.induct with
  | terminal t m => cases t <;> simp only [checkItem]
  | group children m ih =>
    simp only [checkItem, seq_eq_ok, checkRow_eq_ok]
    refine and_congr_right fun _ => and_congr_right fun _ => ?_
    exact forall₂_congr ih
  | alternation alternatives m ih =>
    simp only [checkItem, seq_eq_ok, checkEach_eq_ok]
    exact and_congr_right fun _ => forall₂_congr ih

theorem check_eq_ok (side' : Side) :
    p.check macros side = .ok () ↔ p.check macros side' = .ok () := by
  simp only [check, seq_eq_ok, checkRow_eq_ok]
  exact and_congr_right fun _ => forall₂_congr fun e _ => checkItem_eq_ok side'

end Pattern

/-! ### Automata -/

namespace Automaton
variable {macros : MacroTable} {side : Side} {text : String}

theorem exists_ofText_iff (side' : Side) :
    (∃ a, ofText macros side text = .ok a) ↔ ∃ a, ofText macros side' text = .ok a := by
  simp only [ofText, bind_eq_ok, mapError_eq_ok, ofPattern_eq_ok]
  constructor
  · intro ⟨_, p, hp, hcheck, _⟩
    exact ⟨_, p, hp, (Pattern.check_eq_ok side').mp hcheck, rfl⟩
  · intro ⟨_, p, hp, hcheck, _⟩
    exact ⟨_, p, hp, (Pattern.check_eq_ok side').mpr hcheck, rfl⟩

/-- A left context is the mirror image of the pattern. -/
theorem ends_mirror (htext : '!' ∉ text.toList) :
    ((∃ b, ofText macros .left text = .ok b) ↔ ∃ a, ofText macros .right text = .ok a) ∧
    ∀ a b, ofText macros .right text = .ok a → ofText macros .left text = .ok b →
      ∀ target : List Segment, target.head?.any Segment.isBoundary = true →
        target.getLast?.any Segment.isBoundary = true →
        ∀ i ≤ target.length, ∀ j ≤ target.length,
          j ∈ a.ends target i ↔
            target.length - i ∈ b.ends target.reverse (target.length - j) := by
  refine ⟨exists_ofText_iff .right, ?_⟩
  intro a b ha hb target hfirst hlast i hi j hj
  obtain ⟨p, hp, hfinds⟩ := exists_finds ha
  obtain ⟨q, hq, hfinds'⟩ := exists_finds hb
  obtain rfl : p = q := Except.ok.inj (hp.symm.trans hq)
  have hlast' : target.reverse.getLast?.any Segment.isBoundary = true := by
    rwa [List.getLast?_reverse]
  have hj' : target.length - j ≤ target.reverse.length := by
    rw [List.length_reverse]
    exact Nat.sub_le _ _
  rw [hfinds.mem_ends_iff hlast hi, hfinds'.mem_ends_iff hlast' hj']
  exact Pattern.mirrors_reads (Pattern.positive_of_ofText hp htext) i hi j hj

/-- The loop is run through twice, once with the longer alternative. -/
theorem ends_mirror_nested :
    let target : List Segment := .boundary .empty ::
      ["c", "a", "b", "b", "b"].map FeatureModel.empty.resolve ++ [.boundary .empty]
    ∃ a b, ofText (.empty .empty) .right "({b ca}+b)*#" = .ok a ∧
      ofText (.empty .empty) .left "({b ca}+b)*#" = .ok b ∧
      7 ∈ a.ends target 1 ∧ 6 ∈ b.ends target.reverse 0 := by
  intro target
  have htext : '!' ∉ "({b ca}+b)*#".toList := by decide
  have hok : ((ofText (.empty .empty) .right "({b ca}+b)*#").toOption.any
      fun a => decide (7 ∈ a.ends target 1)) = true := by decide +kernel
  obtain ⟨a, ha, hends⟩ := exists_ok_of_any hok
  have hends := of_decide_eq_true hends
  obtain ⟨b, hb⟩ := (ends_mirror htext).1.mpr ⟨a, ha⟩
  have hmirror := (ends_mirror htext).2 a b ha hb target rfl rfl 1 (by decide) 7 (by decide)
  exact ⟨a, b, ha, hb, hends, hmirror.mp hends⟩

end Automaton

end SoundLaw
