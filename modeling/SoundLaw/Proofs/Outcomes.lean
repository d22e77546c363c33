import Mathlib.Data.List.Forall2

/-!
# Outcomes

Texts are read in steps, any of which may fail. What was read in the end came out of every step
on the way, and a list that was read came out of the members of another one, each in its place.
-/

namespace SoundLaw
set_option autoImplicit false

variable {ε ε' α β : Type}

theorem bind_eq_ok {x : Except ε α} {f : α → Except ε β} {b : β} :
    x >>= f = .ok b ↔ ∃ a, x = .ok a ∧ f a = .ok b := by
  cases x <;> simp [bind, Except.bind]

theorem mapError_eq_ok {x : Except ε α} {f : ε → ε'} {a : α} :
    x.mapError f = .ok a ↔ x = .ok a := by
  cases x with
  | error e => exact iff_of_false nofun nofun
  | ok b =>
    constructor <;>
    · intro h
      cases h
      rfl

theorem map_eq_ok {x : Except ε α} {f : α → β} {b : β} :
    x.map f = .ok b ↔ ∃ a, x = .ok a ∧ f a = b := by
  cases x <;> simp [Except.map]

theorem bind_eq_error {x : Except ε α} {f : α → Except ε β} {e : ε} :
    x >>= f = .error e ↔ x = .error e ∨ ∃ a, x = .ok a ∧ f a = .error e := by
  cases x <;> simp [bind, Except.bind]

theorem seq_eq_ok {x y : Except ε Unit} : (do x; y) = .ok () ↔ x = .ok () ∧ y = .ok () := by
  rw [bind_eq_ok]
  constructor
  · intro ⟨_, hx, hy⟩
    exact ⟨hx, hy⟩
  · intro ⟨hx, hy⟩
    exact ⟨(), hx, hy⟩

theorem seq_eq_error {x y : Except ε Unit} {e : ε} (h : (do x; y) = .error e) :
    x = .error e ∨ y = .error e := by
  rcases bind_eq_error.mp h with h | ⟨_, _, h⟩
  · exact .inl h
  · exact .inr h

theorem mapError_eq_error {x : Except ε α} {f : ε → ε'} {e' : ε'} :
    x.mapError f = .error e' ↔ ∃ e, x = .error e ∧ f e = e' := by
  cases x <;> simp [Except.mapError]

theorem toOption_eq_some {x : Except ε α} {a : α} :
    x.toOption = some a ↔ x = .ok a := by
  cases x <;> simp [Except.toOption]

theorem exists_ok_of_any {x : Except ε α} {p : α → Bool} (h : x.toOption.any p = true) :
    ∃ a, x = .ok a ∧ p a = true := by
  cases x with
  | error e => cases h
  | ok a => exact ⟨a, rfl, h⟩

/-! ### Lists -/

/-- A list of outcomes is there when each of them is. -/
theorem mapM_eq_ok_iff {f : α → Except ε β} {xs : List α} {ys : List β} :
    xs.mapM f = .ok ys ↔ List.Forall₂ (fun x y => f x = .ok y) xs ys := by
  induction xs generalizing ys with
  | nil =>
    constructor
    · intro h
      cases h
      exact .nil
    · intro h
      cases h
      rfl
  | cons x xs ih =>
    simp only [List.mapM_cons, bind_eq_ok, ih]
    constructor
    · intro ⟨y, hy, ys, hys, h⟩
      cases h
      exact .cons hy hys
    · intro h
      cases h with
      | cons hy hys => exact ⟨_, hy, _, hys, rfl⟩

theorem mapM_eq_ok {f : α → Except ε β} {g : α → β} {xs : List α}
    (h : ∀ x ∈ xs, f x = .ok (g x)) : xs.mapM f = .ok (xs.map g) := by
  rw [mapM_eq_ok_iff, List.forall₂_map_right_iff, List.forall₂_same]
  exact h

theorem eq_map_of_mapM {f : α → Except ε β} {g : α → β} {P : α → Prop}
    {xs : List α} {ys : List β} (hf : ∀ x ∈ xs, ∀ y, f x = .ok y → P x ∧ y = g x)
    (h : xs.mapM f = .ok ys) : (∀ x ∈ xs, P x) ∧ ys = xs.map g := by
  induction mapM_eq_ok_iff.mp h with
  | nil => exact ⟨nofun, rfl⟩
  | @cons x y xs ys hy hys ih =>
    obtain ⟨hx, rfl⟩ := hf x List.mem_cons_self y hy
    obtain ⟨hxs, rfl⟩ := ih (fun z hz => hf z (List.mem_cons_of_mem x hz)) (mapM_eq_ok_iff.mpr hys)
    exact ⟨List.forall_mem_cons.mpr ⟨hx, hxs⟩, rfl⟩

/-- Where all that can fail fails alike, one failure is enough. -/
theorem mapM_eq_error {f : α → Except ε β} {xs : List α} {x : α} {e : ε} (hx : x ∈ xs)
    (hfail : f x = .error e) (halike : ∀ y ∈ xs, ∀ e', f y = .error e' → e' = e) :
    xs.mapM f = .error e := by
  induction xs with
  | nil => cases hx
  | cons y ys ih =>
    rw [List.mapM_cons]
    cases hy : f y with
    | error e' =>
      rw [halike y List.mem_cons_self e' hy]
      rfl
    | ok b =>
      rcases List.mem_cons.mp hx with rfl | hx
      · rw [hfail] at hy
        cases hy
      · rw [ih hx fun z hz => halike z (List.mem_cons_of_mem y hz)]
        rfl

theorem forM_eq_ok {f : α → Except ε Unit} {xs : List α} :
    forM xs f = .ok () ↔ ∀ x ∈ xs, f x = .ok () := by
  induction xs with
  | nil => exact iff_of_true rfl nofun
  | cons x xs ih =>
    rw [List.forM_cons, seq_eq_ok, List.forall_mem_cons]
    exact and_congr_right fun _ => ih

/-- The failure of a list of checks is that of one of them. -/
theorem exists_of_forM_eq_error {f : α → Except ε Unit} {xs : List α} {e : ε}
    (h : forM xs f = .error e) : ∃ x ∈ xs, f x = .error e := by
  induction xs with
  | nil => cases h
  | cons x xs ih =>
    rw [List.forM_cons] at h
    rcases seq_eq_error h with h | h
    · exact ⟨x, List.mem_cons_self, h⟩
    · obtain ⟨y, hy, h⟩ := ih h
      exact ⟨y, List.mem_cons_of_mem x hy, h⟩

theorem exists_of_mem_mapM {f : α → Except ε β} {xs : List α} {ys : List β}
    (h : xs.mapM f = .ok ys) {y : β} (hy : y ∈ ys) : ∃ x ∈ xs, f x = .ok y := by
  have hall := mapM_eq_ok_iff.mp h
  obtain ⟨i, hi, rfl⟩ := List.getElem_of_mem hy
  have hlength := hall.length_eq
  exact ⟨xs[i], List.getElem_mem _, (List.forall₂_iff_get.mp hall).2 i (by omega) hi⟩

theorem getElem?_of_forall₂ {R : α → β → Prop} {xs : List α} {ys : List β} {x : α} {i : Nat}
    (h : List.Forall₂ R xs ys) (hx : xs[i]? = some x) : ∃ y, ys[i]? = some y ∧ R x y := by
  obtain ⟨hi, rfl⟩ := List.getElem?_eq_some_iff.mp hx
  have hi' : i < ys.length := h.length_eq ▸ hi
  exact ⟨ys[i], List.getElem?_eq_getElem hi', (List.forall₂_iff_get.mp h).2 i hi hi'⟩

end SoundLaw
