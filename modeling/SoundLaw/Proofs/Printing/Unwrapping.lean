import SoundLaw.Proofs.Inlining

/-!
# Groups that only hold an alternative together

Between braces a group needs no parentheses, so a row of items and a group of them are written
alike, and reading takes away one group from around an alternative that was written as a group in
the first place. What a pattern reads and whether it is legal do not depend on such groups.
-/

namespace SoundLaw
set_option autoImplicit false

namespace Expression

/-- An alternative without the group around its items. -/
def unwrap (e : Expression) : Expression := if e.isBareGroup then Pattern.unify e.children else e

mutual

/-- The expression with all its alternatives unwrapped, in whatever depth. -/
def unwrapped : Expression → Expression
  | terminal t m => terminal t m
  | group children m => group (unwrappedRow children) m
  | alternation alternatives m => alternation (unwrappedEach alternatives) m

def unwrappedRow : List Expression → List Expression
  | [] => []
  | e :: es => unwrapped e :: unwrappedRow es

def unwrappedEach : List Expression → List Expression
  | [] => []
  | e :: es => (unwrapped e).unwrap :: unwrappedEach es

end

variable {e : Expression} {es : List Expression}

theorem unwrappedRow_eq_map (es : List Expression) : unwrappedRow es = es.map unwrapped := by
  induction es with
  | nil => rfl
  | cons e es ih => exact congrArg _ ih

theorem unwrappedEach_eq_map (es : List Expression) :
    unwrappedEach es = es.map fun e => e.unwrapped.unwrap := by
  induction es with
  | nil => rfl
  | cons e es ih => exact congrArg _ ih

theorem isBareGroup_iff : e.isBareGroup = true ↔ ∃ children, e = group children {} := by
  constructor
  · intro h
    cases e with
    | terminal | alternation => cases h
    | group children m =>
      obtain ⟨q, negative⟩ := m
      simp only [isBareGroup, isGroup, quantifier, isNegative, marks, Bool.true_and,
        Bool.and_eq_true, beq_iff_eq, Bool.not_eq_true'] at h
      obtain ⟨rfl, rfl⟩ := h
      exact ⟨children, rfl⟩
  · rintro ⟨children, rfl⟩
    rfl

/-- Unwrapping changes nothing, or it leaves the only item of a group. -/
theorem unwrap_cases (e : Expression) : e.unwrap = e ∨ e = group [e.unwrap] {} := by
  unfold unwrap
  split
  · rename_i h
    obtain ⟨children, rfl⟩ := isBareGroup_iff.mp h
    unfold Pattern.unify
    split
    · rename_i x hx
      have hchildren : children = [x] := hx
      exact .inr (by rw [hchildren])
    · exact .inl rfl
  · exact .inl rfl

@[simp] theorem quantifier_unwrapped (e : Expression) : e.unwrapped.quantifier = e.quantifier := by
  cases e <;> rfl

@[simp] theorem isNegative_unwrapped (e : Expression) : e.unwrapped.isNegative = e.isNegative := by
  cases e <;> rfl

@[simp] theorem isGroup_unwrapped (e : Expression) : e.unwrapped.isGroup = e.isGroup := by
  cases e <;> rfl

theorem isBareGroup_unwrapped (e : Expression) : e.unwrapped.isBareGroup = e.isBareGroup := by
  rw [isBareGroup, isBareGroup, isGroup_unwrapped, quantifier_unwrapped, isNegative_unwrapped]

/-! ### Meaning -/

section Meaning
variable {macros : MacroTable} {side : Side} {target : List Segment}

theorem reads_unwrap (e : Expression) :
    e.unwrap.Reads macros side target = e.Reads macros side target := by
  rcases e.unwrap_cases with h | h
  · rw [h]
  · conv_rhs => rw [h]
    exact (Pattern.reads_unify (p := [e.unwrap])).trans rfl

theorem reads_unwrapped (e : Expression) :
    e.unwrapped.Reads macros side target = e.Reads macros side target := by
  induction e using Expression.induct with
  | terminal t m => rfl
  | group children m ih =>
    rw [unwrapped, Reads, Reads, passages_eq_map, passages_eq_map, unwrappedRow_eq_map,
      List.map_map]
    congr 3
    exact List.map_congr_left ih
  | alternation alternatives m ih =>
    rw [unwrapped, Reads, Reads, passages_eq_map, passages_eq_map, unwrappedEach_eq_map,
      List.map_map]
    congr 2
    exact List.map_congr_left fun e he => (reads_unwrap e.unwrapped).trans (ih e he)

end Meaning

/-! ### Boundaries -/

theorem isOnlyBoundary_unwrap (e : Expression) : e.unwrap.isOnlyBoundary = e.isOnlyBoundary := by
  rcases e.unwrap_cases with h | h
  · rw [h]
  · conv_rhs => rw [h]
    rfl

theorem areOnlyBoundaries_eq_all (es : List Expression) :
    areOnlyBoundaries es = es.all isOnlyBoundary := by
  induction es with
  | nil => rfl
  | cons e es ih => rw [areOnlyBoundaries, List.all_cons, ih]

theorem isOnlyBoundary_unwrapped (e : Expression) :
    e.unwrapped.isOnlyBoundary = e.isOnlyBoundary := by
  induction e using Expression.induct with
  | terminal t m => rfl
  | group children m ih =>
    rw [unwrapped, isOnlyBoundary, isOnlyBoundary, unwrappedRow_eq_map]
    rcases children with _ | ⟨x, _ | ⟨y, rest⟩⟩
    · rfl
    · exact ih x List.mem_cons_self
    · rfl
  | alternation alternatives m ih =>
    rw [unwrapped, isOnlyBoundary, isOnlyBoundary, unwrappedEach_eq_map, List.isEmpty_map,
      areOnlyBoundaries_eq_all, areOnlyBoundaries_eq_all, List.all_map]
    congr 1
    rw [Bool.eq_iff_iff, List.all_eq_true, List.all_eq_true]
    refine forall₂_congr fun e he => ?_
    rw [Function.comp_apply, isOnlyBoundary_unwrap, ih e he]

theorem edgesAreBoundaries_eq_map (side : Side) (es : List Expression) :
    edgesAreBoundaries side es = es.map (edgeIsBoundary side) := by
  induction es with
  | nil => rfl
  | cons e es ih => exact congrArg _ ih

theorem edgeIsBoundary_unwrap (side : Side) (e : Expression) :
    e.unwrap.edgeIsBoundary side = e.edgeIsBoundary side := by
  rcases e.unwrap_cases with h | h
  · rw [h]
  · conv_rhs => rw [h]
    cases side <;> rfl

theorem edgeIsBoundary_unwrapped (side : Side) (e : Expression) :
    e.unwrapped.edgeIsBoundary side = e.edgeIsBoundary side := by
  induction e using Expression.induct with
  | terminal t m => rfl
  | group children m ih =>
    have hedges : edgesAreBoundaries side (unwrappedRow children) =
        edgesAreBoundaries side children := by
      rw [edgesAreBoundaries_eq_map, edgesAreBoundaries_eq_map, unwrappedRow_eq_map, List.map_map]
      exact List.map_congr_left ih
    cases side <;> rw [unwrapped, edgeIsBoundary, edgeIsBoundary, hedges]
  | alternation alternatives m ih =>
    have hedges : edgesAreBoundaries side (unwrappedEach alternatives) =
        edgesAreBoundaries side alternatives := by
      rw [edgesAreBoundaries_eq_map, edgesAreBoundaries_eq_map, unwrappedEach_eq_map, List.map_map]
      exact List.map_congr_left fun e he => (edgeIsBoundary_unwrap side e.unwrapped).trans (ih e he)
    rw [unwrapped, edgeIsBoundary, edgeIsBoundary, hedges]

end Expression

/-! ### Legality -/

namespace Pattern
variable {macros : MacroTable} {side : Side} {e : Expression} {p : Pattern}
open Expression

/-- The pattern with all its alternatives unwrapped. -/
def unwrapped (p : Pattern) : Pattern := Expression.unwrappedRow p

theorem reads_unwrapped {target : List Segment} :
    p.unwrapped.Reads macros side target = p.Reads macros side target :=
  Expression.reads_unwrapped (.group p {})

theorem checkQuantifier_unwrapped (h : checkQuantifier e = .ok ()) :
    checkQuantifier e.unwrapped = .ok () := by
  refine checkQuantifier_eq_ok ?_
  rw [isOnlyBoundary_unwrapped, quantifier_unwrapped]
  unfold checkQuantifier at h
  split at h
  · cases h
  · rename_i hnot
    by_cases honly : e.isOnlyBoundary = true
    · exact .inr (by simpa [honly] using hnot)
    · exact .inl (Bool.eq_false_iff.mpr honly)

theorem touching?_map (p : Pattern) :
    touching? (p.map Expression.unwrapped) =
      p.touching?.map (Prod.map Expression.unwrapped Expression.unwrapped) := by
  fun_induction touching? p with
  | case1 a b rest hedges =>
    rw [List.map_cons, List.map_cons, touching?, edgeIsBoundary_unwrapped,
      edgeIsBoundary_unwrapped, if_pos hedges]
    rfl
  | case2 a b rest hedges ih =>
    rw [← ih, List.map_cons, List.map_cons, touching?, edgeIsBoundary_unwrapped,
      edgeIsBoundary_unwrapped, if_neg hedges]
  | case3 p hp =>
    match p with
    | [] | [_] => rfl
    | a :: b :: rest => exact absurd rfl (hp a b rest)

theorem checkNeighbours_unwrapped (h : checkNeighbours p = .ok ()) :
    checkNeighbours p.unwrapped = .ok () := by
  unfold checkNeighbours at h ⊢
  rw [unwrapped, unwrappedRow_eq_map, touching?_map]
  cases htouching : p.touching? with
  | none => rfl
  | some pair =>
    rw [htouching] at h
    cases h

theorem checkItem_unwrap (h : checkItem macros side e = .ok ()) :
    checkItem macros side e.unwrap = .ok () := by
  rcases e.unwrap_cases with heq | heq
  · rwa [heq]
  · rw [heq, checkItem, seq_eq_ok, seq_eq_ok, checkRow_eq_ok] at h
    exact h.2.2 _ List.mem_cons_self

theorem checkItem_unwrapped (h : checkItem macros side e = .ok ()) :
    checkItem macros side e.unwrapped = .ok () := by
  induction e using Expression.induct with
  | terminal t m => exact h
  | group children m ih =>
    rw [checkItem, seq_eq_ok, seq_eq_ok, checkRow_eq_ok] at h
    obtain ⟨hquantifier, hneighbours, hchildren⟩ := h
    rw [Expression.unwrapped, checkItem, seq_eq_ok, seq_eq_ok, checkRow_eq_ok]
    refine ⟨checkQuantifier_unwrapped hquantifier, checkNeighbours_unwrapped hneighbours, ?_⟩
    rw [unwrappedRow_eq_map]
    exact List.forall_mem_map.mpr fun e he => ih e he (hchildren e he)
  | alternation alternatives m ih =>
    rw [checkItem, seq_eq_ok, checkEach_eq_ok] at h
    obtain ⟨hquantifier, halternatives⟩ := h
    rw [Expression.unwrapped, checkItem, seq_eq_ok, checkEach_eq_ok]
    refine ⟨checkQuantifier_unwrapped hquantifier, ?_⟩
    rw [unwrappedEach_eq_map]
    exact List.forall_mem_map.mpr fun e he => checkItem_unwrap (ih e he (halternatives e he))

theorem check_unwrapped (h : p.check macros side = .ok ()) :
    p.unwrapped.check macros side = .ok () := by
  rw [check, seq_eq_ok, checkRow_eq_ok] at h ⊢
  refine ⟨checkNeighbours_unwrapped h.1, ?_⟩
  rw [unwrapped, unwrappedRow_eq_map]
  exact List.forall_mem_map.mpr fun e he => checkItem_unwrapped (h.2 e he)

end Pattern

end SoundLaw
