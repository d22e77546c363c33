import SoundLaw.Proofs.Meaning

/-!
# Reading nothing

Whether an expression can read the empty span is seen from the expression alone. It is the same
at every position of every target, in both directions, since what reads forward comes back to
its beginning only if each of its parts stays there.
-/

namespace SoundLaw
set_option autoImplicit false

/-- Whether a leaf can read nothing. -/
def Terminal.isNullable (macros : MacroTable) : Terminal → Bool
  | .reference name => ((macros.find? name).getD []).any List.isEmpty
  | _ => false

/-- Whether an item can read nothing, given whether it can without its marks. -/
def Marks.isNullable (m : Marks) (bare : Bool) : Bool :=
  m.quantifier.isOptional || !m.negative && bare

namespace Expression

mutual

/-- Whether an expression can read nothing. -/
def isNullable (macros : MacroTable) : Expression → Bool
  | .terminal t m => m.isNullable (t.isNullable macros)
  | .group children m => m.isNullable (areNullable macros children)
  | .alternation alternatives m => m.isNullable (isAnyNullable macros alternatives)

def areNullable (macros : MacroTable) : List Expression → Bool
  | [] => true
  | e :: es => isNullable macros e && areNullable macros es

def isAnyNullable (macros : MacroTable) : List Expression → Bool
  | [] => false
  | e :: es => isNullable macros e || isAnyNullable macros es

end

theorem areNullable_iff {macros : MacroTable} {es : List Expression} :
    areNullable macros es = true ↔ ∀ e ∈ es, e.isNullable macros = true := by
  induction es with
  | nil => simp [areNullable]
  | cons e es ih => simp [areNullable, ih]

theorem isAnyNullable_iff {macros : MacroTable} {es : List Expression} :
    isAnyNullable macros es = true ↔ ∃ e ∈ es, e.isNullable macros = true := by
  induction es with
  | nil => simp [isAnyNullable]
  | cons e es ih => simp [isAnyNullable, ih]

end Expression

section Passages
variable {n i : Nat} {r : Passage}

theorem composition_self {rs : List Passage} (h : ∀ r ∈ rs, r.Forward n) (hi : i ≤ n) :
    Passage.composition rs i i ↔ ∀ r ∈ rs, r i i := by
  induction rs with
  | nil => simp [Passage.composition]
  | cons r rs ih =>
    have hr := h r List.mem_cons_self
    have hrs : ∀ r ∈ rs, r.Forward n := fun s hs => h s (List.mem_cons_of_mem r hs)
    rw [List.forall_mem_cons, ← ih hrs]
    constructor
    · rintro ⟨k, hik, hki⟩
      have hk := hr hi hik
      have hback := (Passage.forward_composition hrs hk.2 hki).1
      obtain rfl : i = k := Nat.le_antisymm hk.1 hback
      exact ⟨hik, hki⟩
    · rintro ⟨hii, hrest⟩
      exact ⟨i, hii, hrest⟩

theorem transGen_self (h : r.Forward n) (hi : i ≤ n) : Relation.TransGen r i i ↔ r i i := by
  constructor
  · intro hii
    obtain ⟨k, hik, hki⟩ := Relation.TransGen.head'_iff.mp hii
    have hk := h hi hik
    have hback := (Passage.forward_reflTransGen h hk.2 hki).1
    obtain rfl : i = k := Nat.le_antisymm hk.1 hback
    exact hik
  · exact .single

theorem repeated_self (q : Quantifier) (h : r.Forward n) (hi : i ≤ n) :
    q.repeated r i i ↔ q.isOptional = true ∨ r i i := by
  cases q with
  | one => simp [Quantifier.repeated, Quantifier.isOptional]
  | optional => simp [Quantifier.repeated, Quantifier.isOptional]
  | star => exact iff_of_true .refl (.inl rfl)
  | plus => exact (transGen_self h hi).trans (by simp [Quantifier.isOptional])

end Passages

section Reads
variable {macros : MacroTable} {side : Side} {target : List Segment} {i : Nat} {r : Passage}

theorem apply_self (m : Marks) {bare : Bool} (h : r.Forward target.length)
    (hi : i ≤ target.length) (hbare : r i i ↔ bare = true) :
    m.apply target r i i ↔ m.isNullable bare = true := by
  have hself : ¬ Passage.absence target r i i := by
    intro ⟨hstep, _⟩
    omega
  unfold Marks.apply Marks.isNullable
  cases hm : m.negative with
  | true =>
    rw [if_pos rfl, repeated_self _ Passage.forward_absence hi]
    simp [hself]
  | false =>
    rw [if_neg Bool.false_ne_true, repeated_self _ h hi, hbare]
    simp

theorem Terminal.reads_self (t : Terminal) :
    t.Reads macros side target i i ↔ t.isNullable macros = true := by
  cases t with
  | literal => simp [Terminal.Reads, isNullable]
  | boundary => simp [Terminal.Reads, isNullable]
  | wildcard => simp [Terminal.Reads, isNullable]
  | reference name =>
    simp only [Terminal.Reads, isNullable, List.any_eq_true, List.isEmpty_iff]
    constructor
    · intro ⟨alternatives, hfind, run, hrun, hstep, _⟩
      have hnil : run = [] := List.eq_nil_of_length_eq_zero (by omega)
      exact ⟨run, by rwa [hfind], hnil⟩
    · intro ⟨run, hrun, hnil⟩
      cases hfind : macros.find? name with
      | none => simp [hfind] at hrun
      | some alternatives =>
        rw [hfind] at hrun
        refine ⟨alternatives, rfl, run, hrun, by simp [hnil], ?_⟩
        intro k s hs
        cases side <;> simp [hnil, Side.orient] at hs

theorem row_self {es : List Expression} (hi : i ≤ target.length)
    (h : ∀ e ∈ es, e.Reads macros side target i i ↔ e.isNullable macros = true) :
    Passage.composition (side.orient (Expression.passages macros side target es)) i i ↔
      Expression.areNullable macros es = true := by
  have hforward : ∀ r ∈ side.orient (Expression.passages macros side target es),
      r.Forward target.length := by
    intro r hr
    obtain ⟨e, _, rfl⟩ := Expression.mem_passages.mp (Side.mem_orient.mp hr)
    exact e.forward_reads
  rw [Expression.areNullable_iff]
  refine (composition_self hforward hi).trans ?_
  constructor
  · intro hall e he
    exact (h e he).mp (hall _ (Side.mem_orient.mpr (Expression.mem_passages.mpr ⟨e, he, rfl⟩)))
  · intro hall r hr
    obtain ⟨e, he, rfl⟩ := Expression.mem_passages.mp (Side.mem_orient.mp hr)
    exact (h e he).mpr (hall e he)

/-- An expression reads nothing at a position exactly if it can read nothing. -/
theorem Expression.reads_self {e : Expression} (hi : i ≤ target.length) :
    e.Reads macros side target i i ↔ e.isNullable macros = true := by
  induction e using Expression.induct with
  | terminal t m => exact apply_self m t.forward_reads hi t.reads_self
  | group children m ih =>
    exact apply_self m (group children {}).forward_reads hi (row_self hi ih)
  | alternation alternatives m ih =>
    refine apply_self m (alternation alternatives {}).forward_reads hi ?_
    rw [isAnyNullable_iff]
    constructor
    · intro ⟨r, hr, hii⟩
      obtain ⟨e, he, rfl⟩ := mem_passages.mp hr
      exact ⟨e, he, (ih e he).mp hii⟩
    · intro ⟨e, he, hnull⟩
      exact ⟨_, mem_passages.mpr ⟨e, he, rfl⟩, (ih e he).mpr hnull⟩

theorem Pattern.reads_self {p : Pattern} (hi : i ≤ target.length) :
    p.Reads macros side target i i ↔ Expression.areNullable macros p = true :=
  row_self hi fun _ _ => Expression.reads_self hi

end Reads

end SoundLaw
