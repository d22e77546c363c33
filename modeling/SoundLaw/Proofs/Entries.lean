import Mathlib.Data.List.Nodup
import SoundLaw.Macros

/-!
# Lists of entries

Macros and symbols are kept in lists of entries, in the order in which their names came up first.
A new value for a name takes the place of the old one, and a new name comes last.
-/

namespace SoundLaw
set_option autoImplicit false

theorem lookup_eq_some_of_mem {α β : Type} [BEq α] [LawfulBEq α] {pairs : List (α × β)}
    (hkeys : (pairs.map Prod.fst).Nodup) {x : α} {y : β} (h : (x, y) ∈ pairs) :
    pairs.lookup x = some y := by
  induction pairs with
  | nil => cases h
  | cons p pairs ih =>
    rw [List.map_cons, List.nodup_cons] at hkeys
    rcases List.mem_cons.mp h with rfl | h
    · exact List.lookup_cons_self
    · have hne : (x == p.1) = false := by
        refine beq_eq_false_iff_ne.mpr fun heq => hkeys.1 ?_
        exact List.mem_map.mpr ⟨(x, y), h, heq⟩
      rw [List.lookup_cons, hne]
      exact ih hkeys.2 h

theorem mem_of_lookup_eq_some {α β : Type} [BEq α] [LawfulBEq α] {pairs : List (α × β)} {x : α}
    {y : β} (h : pairs.lookup x = some y) : (x, y) ∈ pairs := by
  obtain ⟨before, after, rfl, -⟩ := List.lookup_eq_some_iff.mp h
  exact List.mem_append_right before List.mem_cons_self

theorem eraseDups_concat (xs : List String) (x : String) :
    (xs ++ [x]).eraseDups = if x ∈ xs then xs.eraseDups else xs.eraseDups ++ [x] := by
  rw [List.eraseDups_append, List.removeAll, List.filter_cons]
  by_cases hx : x ∈ xs
  · simp [hx]
  · simp [hx, List.eraseDups_cons]

variable {α : Type} {key s : String} {value : α} {entries : List (String × α)}

theorem mem_keys_iff : s ∈ entries.map Prod.fst ↔ ∃ value, entries.lookup s = some value := by
  rw [← Option.ne_none_iff_exists', Ne, List.lookup_eq_none_iff, List.mem_map]
  constructor
  · rintro ⟨e, he, rfl⟩ hnone
    exact bne_iff_ne.mp (hnone e he) rfl
  · intro h
    by_contra hnone
    exact h fun e he => bne_iff_ne.mpr fun hs => hnone ⟨e, he, hs.symm⟩

/-- The entries with a new value for a key. -/
def placed (key : String) (value : α) : List (String × α) → List (String × α)
  | [] => [(key, value)]
  | e :: es => if e.1 = key then (key, value) :: es else e :: placed key value es

theorem MacroTable.put_eq (name : String) (runs : List (List Segment))
    (entries : List (String × List (List Segment))) :
    put name runs entries = placed name runs entries := by
  induction entries with
  | nil => rfl
  | cons e es ih => rw [put, placed, ih]

theorem ModelDraft.define_eq (symbol : String) (v : FeatureVector)
    (symbols : List (String × FeatureVector)) :
    define symbol v symbols = placed symbol v symbols := by
  induction symbols with
  | nil => rfl
  | cons p ps ih => rw [define, placed, ih]

theorem lookup_placed :
    (placed key value entries).lookup s = if s = key then some value else entries.lookup s := by
  induction entries with
  | nil =>
    rw [placed, List.lookup_cons]
    split <;> simp_all
  | cons e es ih =>
    rw [placed]
    split
    · rename_i he
      rw [List.lookup_cons, List.lookup_cons, he]
      split <;> simp_all
    · rename_i he
      rw [List.lookup_cons, List.lookup_cons, ih]
      split
      · rename_i hs
        rw [if_neg (fun h => he ((beq_iff_eq.mp hs).symm.trans h))]
      · rfl

/-- A key that has a value keeps its place. -/
theorem keys_placed : (placed key value entries).map Prod.fst =
    if key ∈ entries.map Prod.fst then entries.map Prod.fst
    else entries.map Prod.fst ++ [key] := by
  induction entries with
  | nil => rfl
  | cons e es ih =>
    rw [placed]
    by_cases he : e.1 = key
    · rw [if_pos he, if_pos (List.mem_map.mpr ⟨e, List.mem_cons_self, he⟩), List.map_cons,
        List.map_cons, he]
    · have hiff : key ∈ (e :: es).map Prod.fst ↔ key ∈ es.map Prod.fst := by
        rw [List.map_cons, List.mem_cons, or_iff_right (Ne.symm he)]
      rw [if_neg he, List.map_cons, ih, apply_ite (e.1 :: ·), List.map_cons, ← List.cons_append,
        ← List.map_cons]
      simp only [hiff]

theorem mem_keys_placed :
    s ∈ (placed key value entries).map Prod.fst ↔ s ∈ entries.map Prod.fst ∨ s = key := by
  rw [keys_placed]
  split
  · rename_i hkey
    constructor
    · exact .inl
    · rintro (hs | rfl)
      · exact hs
      · exact hkey
  · simp

theorem nodup_keys_placed (h : (entries.map Prod.fst).Nodup) :
    ((placed key value entries).map Prod.fst).Nodup := by
  rw [keys_placed]
  split
  · exact h
  · rename_i hkey
    rw [← List.concat_eq_append]
    exact List.Nodup.concat hkey h

theorem mem_placed {e : String × α} (h : e ∈ placed key value entries) :
    e = (key, value) ∨ e ∈ entries := by
  induction entries with
  | nil => exact .inl (List.mem_singleton.mp h)
  | cons e' es ih =>
    rw [placed] at h
    split at h
    · rcases List.mem_cons.mp h with h | h
      · exact .inl h
      · exact .inr (List.mem_cons_of_mem e' h)
    · rcases List.mem_cons.mp h with rfl | h
      · exact .inr List.mem_cons_self
      · exact (ih h).imp_right (List.mem_cons_of_mem e')

end SoundLaw
