import Mathlib.Logic.Relation
import SoundLaw.Pattern.Parsing

/-!
# The meaning of patterns

A pattern relates positions of a target: it holds of a first and a second position when the
segments between them can be read as the pattern asks. The relation is given by the syntax tree
alone, without automata. A side only decides in which order rows and macro alternatives are read;
everything else means the same on either side.

What reads never runs backwards and never leaves the target, and whether nothing can be read does
not depend on the target at all.
-/

namespace SoundLaw
set_option autoImplicit false

/-- Relations between the positions of a target. -/
abbrev Passage := Nat → Nat → Prop

/-- Segment by segment, the target has matches of a run from a position on. -/
def Stands (target : List Segment) (i : Nat) (run : List Segment) : Prop :=
  ∀ k s, run[k]? = some s → ∃ x, target[i + k]? = some x ∧ x.fits s = true

namespace Passage

/-- All the passages in a row. -/
def composition : List Passage → Passage
  | [] => fun i j => i = j
  | r :: rs => fun i j => ∃ k, r i k ∧ composition rs k j

def union (rs : List Passage) : Passage := fun i j => ∃ r ∈ rs, r i j

/-- A segment other than the boundary, where a passage does not begin. -/
def absence (target : List Segment) (r : Passage) : Passage := fun i j =>
  j = i + 1 ∧ (∃ x, target[i]? = some x ∧ x.isBoundary = false) ∧ ∀ k, ¬ r i k

end Passage

namespace Quantifier

/-- A passage, as often as the quantifier allows. -/
def repeated : Quantifier → Passage → Passage
  | one, r => r
  | optional, r => fun i j => i = j ∨ r i j
  | star, r => Relation.ReflTransGen r
  | plus, r => Relation.TransGen r

end Quantifier

namespace Marks

def apply (target : List Segment) (m : Marks) (r : Passage) : Passage :=
  m.quantifier.repeated (if m.negative then r.absence target else r)

end Marks

section Semantics
variable (macros : MacroTable) (side : Side) (target : List Segment)

namespace Terminal

def Reads : Terminal → Passage
  | literal s, i, j => j = i + 1 ∧ ∃ x, target[i]? = some x ∧ x.fits s = true
  | boundary, i, j =>
    j = i + 1 ∧ ∃ x, target[i]? = some x ∧ x.fits (.boundary macros.model) = true
  | wildcard, i, j => j = i + 1 ∧ ∃ x, target[i]? = some x ∧ x.isBoundary = false
  | reference name, i, j =>
    ∃ alternatives, macros.find? name = some alternatives ∧
      ∃ run ∈ alternatives, j = i + run.length ∧ Stands target i (side.orient run)

end Terminal

namespace Expression

mutual

def Reads : Expression → Passage
  | .terminal t m => m.apply target (t.Reads macros side target)
  | .group children m => m.apply target (.composition (side.orient (passages children)))
  | .alternation alternatives m => m.apply target (.union (passages alternatives))

def passages : List Expression → List Passage
  | [] => []
  | e :: es => Reads e :: passages es

end

end Expression

def Pattern.Reads (p : Pattern) : Passage :=
  .composition (side.orient (Expression.passages macros side target p))

end Semantics

/-! ### Trees -/

namespace Expression

/-- Induction over the tree, with the claim for every child at hand. -/
theorem induct {motive : Expression → Prop}
    (terminal : ∀ t m, motive (.terminal t m))
    (group : ∀ children m, (∀ e ∈ children, motive e) → motive (.group children m))
    (alternation : ∀ alternatives m, (∀ e ∈ alternatives, motive e) →
      motive (.alternation alternatives m))
    (e : Expression) : motive e := by
  apply @Expression.rec motive (fun es => ∀ e ∈ es, motive e)
  · exact terminal
  · exact group
  · exact alternation
  · intro e he
    cases he
  · intro e es he hes x hx
    rcases List.mem_cons.mp hx with rfl | hx
    · exact he
    · exact hes x hx

/-- The expressions directly below one. -/
def children : Expression → List Expression
  | terminal _ _ => []
  | group children _ | alternation children _ => children

/-- Holds of every expression in a tree. -/
inductive Everywhere (P : Expression → Prop) : Expression → Prop
  | intro {e : Expression} : P e → (∀ c ∈ e.children, Everywhere P c) → Everywhere P e

theorem Everywhere.self {P : Expression → Prop} {e : Expression} (h : e.Everywhere P) : P e := by
  cases h with
  | intro hself _ => exact hself

theorem Everywhere.child {P : Expression → Prop} {e c : Expression} (h : e.Everywhere P)
    (hc : c ∈ e.children) : c.Everywhere P := by
  cases h with
  | intro _ hchildren => exact hchildren c hc

def HasChoice : Expression → Prop
  | alternation alternatives _ => alternatives ≠ []
  | _ => True

variable {macros : MacroTable} {side : Side} {target : List Segment}

theorem passages_eq_map (es : List Expression) :
    passages macros side target es = es.map (Reads macros side target) := by
  induction es with
  | nil => rfl
  | cons e es ih => exact congrArg _ ih

theorem mem_passages {es : List Expression} {r : Passage} :
    r ∈ passages macros side target es ↔ ∃ e ∈ es, e.Reads macros side target = r := by
  rw [passages_eq_map, List.mem_map]

theorem reads_eq (e : Expression) :
    e.Reads macros side target = e.marks.apply target (e.bare.Reads macros side target) := by
  cases e <;> rfl

end Expression

/-! ### Direction

From within the target, what reads goes forward and stays in it.
-/

namespace Passage

theorem composition_singleton {r : Passage} : composition [r] = r := by
  funext i j
  simp [composition]

theorem composition_append {rs ss : List Passage} {i j : Nat} :
    composition (rs ++ ss) i j ↔ ∃ k, composition rs i k ∧ composition ss k j := by
  induction rs generalizing i with
  | nil => simp [composition]
  | cons r rs ih =>
    simp only [List.cons_append, composition, ih]
    constructor
    · intro ⟨l, hil, k, hlk, hkj⟩
      exact ⟨k, ⟨l, hil, hlk⟩, hkj⟩
    · intro ⟨k, ⟨l, hil, hlk⟩, hkj⟩
      exact ⟨l, hil, k, hlk, hkj⟩

theorem composition_append_singleton {rs : List Passage} {r : Passage} {i j : Nat} :
    composition (rs ++ [r]) i j ↔ ∃ k, composition rs i k ∧ r k j := by
  rw [composition_append, composition_singleton]

theorem not_union_nil {i j : Nat} : ¬ union [] i j := by simp [union]

theorem union_cons {r : Passage} {rs : List Passage} {i j : Nat} :
    union (r :: rs) i j ↔ r i j ∨ union rs i j := by simp [union]

/-- Leads from positions up to a last one only forward and not past it. -/
def Forward (n : Nat) (r : Passage) : Prop := ∀ ⦃i j⦄, i ≤ n → r i j → i ≤ j ∧ j ≤ n

variable {n : Nat}

theorem forward_composition {rs : List Passage} (h : ∀ r ∈ rs, r.Forward n) :
    (composition rs).Forward n := by
  induction rs with
  | nil =>
    intro i j hi hij
    obtain rfl : i = j := hij
    exact ⟨Nat.le_refl _, hi⟩
  | cons r rs ih =>
    intro i j hi ⟨k, hik, hkj⟩
    have hk := h r List.mem_cons_self hi hik
    have hj := ih (fun s hs => h s (List.mem_cons_of_mem r hs)) hk.2 hkj
    exact ⟨Nat.le_trans hk.1 hj.1, hj.2⟩

theorem forward_union {rs : List Passage} (h : ∀ r ∈ rs, r.Forward n) :
    (union rs).Forward n := by
  intro i j hi ⟨r, hr, hij⟩
  exact h r hr hi hij

theorem forward_absence {target : List Segment} {r : Passage} :
    (absence target r).Forward target.length := by
  intro i j _ ⟨hj, ⟨x, hx, _⟩, _⟩
  subst hj
  have := (List.getElem?_eq_some_iff.mp hx).1
  omega

theorem forward_reflTransGen {r : Passage} (h : r.Forward n) :
    Forward n (Relation.ReflTransGen r) := by
  intro i j hi hij
  induction hij with
  | refl => exact ⟨Nat.le_refl _, hi⟩
  | tail _ hkj ih =>
    have := h ih.2 hkj
    omega

end Passage

namespace Quantifier

theorem forward_repeated {n : Nat} {r : Passage} (h : r.Forward n) (q : Quantifier) :
    (q.repeated r).Forward n := by
  intro i j hi hij
  cases q with
  | one => exact h hi hij
  | optional =>
    rcases hij with rfl | hij
    · exact ⟨Nat.le_refl _, hi⟩
    · exact h hi hij
  | star => exact Passage.forward_reflTransGen h hi hij
  | plus => exact Passage.forward_reflTransGen h hi hij.to_reflTransGen

end Quantifier

namespace Marks

theorem forward_apply {target : List Segment} {r : Passage} (h : r.Forward target.length)
    (m : Marks) : (m.apply target r).Forward target.length := by
  apply Quantifier.forward_repeated
  split
  · exact Passage.forward_absence
  · exact h

end Marks

theorem Stands.le_length {target run : List Segment} {i : Nat} (h : Stands target i run)
    (hi : i ≤ target.length) : i + run.length ≤ target.length := by
  rcases Nat.eq_zero_or_pos run.length with hz | hp
  · omega
  · obtain ⟨x, hx, -⟩ := h (run.length - 1) _ (List.getElem?_eq_getElem (by omega))
    have := (List.getElem?_eq_some_iff.mp hx).1
    omega

@[simp] theorem Side.length_orient {α : Type} (side : Side) (xs : List α) :
    (side.orient xs).length = xs.length := by
  cases side
  · exact List.length_reverse
  · rfl

@[simp] theorem Side.mem_orient {α : Type} {side : Side} {x : α} {xs : List α} :
    x ∈ side.orient xs ↔ x ∈ xs := by
  cases side
  · exact List.mem_reverse
  · exact Iff.rfl

theorem Side.orient_singleton {α : Type} (side : Side) (x : α) : side.orient [x] = [x] := by
  cases side <;> rfl

theorem Side.map_orient {α β : Type} (side : Side) (f : α → β) (xs : List α) :
    (side.orient xs).map f = side.orient (xs.map f) := by
  cases side with
  | right => rfl
  | left => exact List.map_reverse

section
variable {macros : MacroTable} {side : Side} {target : List Segment}

theorem Terminal.forward_reads (t : Terminal) :
    (t.Reads macros side target).Forward target.length := by
  intro i j hi h
  cases t with
  | literal | boundary | wildcard =>
    obtain ⟨rfl, x, hx, -⟩ := h
    have := (List.getElem?_eq_some_iff.mp hx).1
    omega
  | reference name =>
    obtain ⟨_, _, run, _, rfl, hrun⟩ := h
    have := hrun.le_length hi
    rw [Side.length_orient] at this
    omega

theorem Expression.forward_reads (e : Expression) :
    (e.Reads macros side target).Forward target.length := by
  induction e using Expression.induct with
  | terminal t m => exact Marks.forward_apply t.forward_reads m
  | group children m ih =>
    refine Marks.forward_apply ?_ m
    apply Passage.forward_composition
    intro r hr
    obtain ⟨e, he, rfl⟩ := mem_passages.mp (Side.mem_orient.mp hr)
    exact ih e he
  | alternation alternatives m ih =>
    refine Marks.forward_apply ?_ m
    apply Passage.forward_union
    intro r hr
    obtain ⟨e, he, rfl⟩ := mem_passages.mp hr
    exact ih e he

theorem Pattern.forward_reads (p : Pattern) :
    (p.Reads macros side target).Forward target.length :=
  (Expression.group p {}).forward_reads

end

/-! ### Agreement

Passages that lead from positions of the target to the same positions can stand for one another.
-/

theorem reflTransGen_iff_of_invariant {α : Type} {r s : α → α → Prop} {P : α → Prop} {x y : α}
    (hx : P x) (hr : ∀ {p q}, P p → r p q → P q) (h : ∀ {p q}, P p → (r p q ↔ s p q)) :
    Relation.ReflTransGen r x y ↔ Relation.ReflTransGen s x y := by
  constructor
  · intro hxy
    have hboth : P y ∧ Relation.ReflTransGen s x y := by
      induction hxy with
      | refl => exact ⟨hx, .refl⟩
      | tail _ hpq ih => exact ⟨hr ih.1 hpq, ih.2.tail ((h ih.1).mp hpq)⟩
    exact hboth.2
  · intro hxy
    have hboth : P y ∧ Relation.ReflTransGen r x y := by
      induction hxy with
      | refl => exact ⟨hx, .refl⟩
      | tail _ hpq ih =>
        have hstep := (h ih.1).mpr hpq
        exact ⟨hr ih.1 hstep, ih.2.tail hstep⟩
    exact hboth.2

namespace Passage

/-- The passages lead from positions up to a last one to the same positions. -/
def Agrees (n : Nat) (r s : Passage) : Prop := ∀ i ≤ n, ∀ j, r i j ↔ s i j

variable {n : Nat} {r s : Passage}

theorem Agrees.reflTransGen (h : r.Agrees n s) (hs : s.Forward n) :
    Agrees n (Relation.ReflTransGen r) (Relation.ReflTransGen s) := by
  intro i hi j
  refine reflTransGen_iff_of_invariant hi ?_ (fun hk => h _ hk _)
  intro k l hk hkl
  exact (hs hk ((h k hk l).mp hkl)).2

theorem Agrees.absence {target : List Segment} (h : r.Agrees target.length s) :
    Agrees target.length (r.absence target) (s.absence target) := by
  intro i hi j
  simp only [Passage.absence, h i hi]

theorem Agrees.repeated (h : r.Agrees n s) (hs : s.Forward n) (q : Quantifier) :
    Agrees n (q.repeated r) (q.repeated s) := by
  intro i hi j
  cases q with
  | one => exact h i hi j
  | optional => exact or_congr Iff.rfl (h i hi j)
  | star => exact h.reflTransGen hs i hi j
  | plus =>
    simp only [Quantifier.repeated, Relation.TransGen.tail'_iff]
    refine exists_congr fun k => ?_
    rw [h.reflTransGen hs i hi k]
    refine and_congr_right fun hik => ?_
    exact h k (forward_reflTransGen hs hi hik).2 j

theorem Agrees.apply {target : List Segment} (h : r.Agrees target.length s)
    (hs : s.Forward target.length) (m : Marks) :
    Agrees target.length (m.apply target r) (m.apply target s) := by
  unfold Marks.apply
  split
  · exact h.absence.repeated forward_absence _
  · exact h.repeated hs _

end Passage

end SoundLaw
