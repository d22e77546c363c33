import SoundLaw.Proofs.Printing.Lexemes

/-!
# Groups of nothing

Parentheses with nothing between them are a group without items, wherever they stand. As an
alternative such a group is printed without its parentheses, so it is lost. The pairs of
parentheses that are left in the lexemes of a pattern are therefore too few to spell it again.
-/

namespace SoundLaw
set_option autoImplicit false

/-! ### Empty pairs of parentheses -/

namespace Lexeme
variable {a b ls : List Lexeme} {l : Lexeme} {m n : Nat} {x y : Bool}

/-- How many pairs of parentheses have nothing but spaces between them, where `isOpen` says
whether a parenthesis has just been opened. -/
def emptyPairs : Bool → List Lexeme → Nat
  | _, [] => 0
  | _, opening .round :: ls => emptyPairs true ls
  | isOpen, closing .round :: ls => isOpen.toNat + emptyPairs false ls
  | isOpen, space :: ls => emptyPairs isOpen ls
  | _, _ :: ls => emptyPairs false ls

theorem emptyPairs_filter (isOpen : Bool) (ls : List Lexeme) :
    emptyPairs isOpen (ls.filter (· ≠ space)) = emptyPairs isOpen ls := by
  fun_induction emptyPairs isOpen ls with
  | case1 => rfl
  | case2 _ ls ih => exact ih
  | case3 isOpen ls ih => exact congrArg _ ih
  | case4 isOpen ls ih => exact ih
  | case5 isOpen l ls hopening hclosing hspace ih =>
    rw [List.filter_cons_of_pos (by simpa using hspace), emptyPairs, ih] <;> assumption

/-- The lexemes contain so many empty pairs, whatever stands around them. They are blank if a
parenthesis that is opened before them and one that is closed behind them make another. -/
def HasPairs (ls : List Lexeme) (n : Nat) (blank : Bool) : Prop :=
  ∀ isOpen behind,
    emptyPairs isOpen (ls ++ behind) = n + emptyPairs (isOpen && blank) behind

namespace HasPairs

theorem nil : HasPairs [] 0 true := by
  intro isOpen behind
  rw [List.nil_append, Bool.and_true, Nat.zero_add]

/-- Whatever is neither a parenthesis nor a space stands between the parentheses around it. -/
theorem single (h : ∀ isOpen behind, emptyPairs isOpen (l :: behind) = emptyPairs false behind) :
    HasPairs [l] 0 false := by
  intro isOpen behind
  rw [Bool.and_false, Nat.zero_add]
  exact h isOpen behind

theorem space : HasPairs [space] 0 true := by
  intro isOpen behind
  rw [Bool.and_true, Nat.zero_add]
  rfl

theorem append (ha : HasPairs a m x) (hb : HasPairs b n y) :
    HasPairs (a ++ b) (m + n) (x && y) := by
  intro isOpen behind
  rw [List.append_assoc, ha, hb, Bool.and_assoc, Nat.add_assoc]

theorem round (h : HasPairs ls n x) :
    HasPairs (opening .round :: ls ++ [closing .round]) (x.toNat + n) false := by
  intro isOpen behind
  have hinner := h true (closing .round :: behind)
  rw [Bool.true_and, emptyPairs] at hinner
  rw [Bool.and_false, List.append_assoc]
  exact hinner.trans (by omega)

theorem curly (h : HasPairs ls n x) :
    HasPairs (opening .curly :: ls ++ [closing .curly]) n false := by
  intro isOpen behind
  have hinner := h false (closing .curly :: behind)
  rw [Bool.false_and] at hinner
  rw [Bool.and_false, List.append_assoc]
  exact hinner

theorem signLexemes (negative : Bool) : HasPairs (signLexemes negative) 0 (!negative) := by
  cases negative with
  | false => exact nil
  | true => exact single fun _ _ => rfl

theorem quantifier (q : Quantifier) : HasPairs q.lexemes 0 (q == .one) := by
  cases q with
  | one => exact nil
  | optional | star | plus => exact single fun _ _ => rfl

theorem replicate (n : Nat) : HasPairs (List.replicate n .space) 0 true := by
  induction n with
  | zero => exact nil
  | succ n ih => exact space.append ih

end HasPairs

end Lexeme

open Lexeme

theorem Repeats.exists_hasPairs {loose : Bool} {suffix : List Lexeme} {q : Option Quantifier}
    (h : Repeats loose suffix q) : ∃ blank, HasPairs suffix 0 blank := by
  cases h with
  | once => exact ⟨true, .nil⟩
  | @mark n q _ => exact ⟨_, (HasPairs.replicate n).append (.single fun _ _ => rfl)⟩

/-! ### Groups without items -/

namespace Expression
variable {e : Expression} {es : List Expression}

mutual

/-- How many groups without items there are in an expression, in whatever depth. -/
def emptyGroups : Expression → Nat
  | terminal _ _ => 0
  | group children _ => children.isEmpty.toNat + emptyGroupsOfRow children
  | alternation alternatives _ => emptyGroupsOfRow alternatives

def emptyGroupsOfRow : List Expression → Nat
  | [] => 0
  | e :: es => emptyGroups e + emptyGroupsOfRow es

end

mutual

/-- How many alternatives in an expression, in whatever depth, are groups without items and
without marks. They are printed as nothing. -/
def lostAlternatives : Expression → Nat
  | terminal _ _ => 0
  | group children _ => lostOfRow children
  | alternation alternatives _ => lostOfEach alternatives

def lostOfRow : List Expression → Nat
  | [] => 0
  | e :: es => lostAlternatives e + lostOfRow es

def lostOfEach : List Expression → Nat
  | [] => 0
  | e :: es => (e.isBareGroup && e.children.isEmpty).toNat + lostAlternatives e + lostOfEach es

end

theorem emptyGroups_eq (e : Expression) :
    e.emptyGroups = (e.isGroup && e.children.isEmpty).toNat + emptyGroupsOfRow e.children := by
  cases e with
  | terminal => rfl
  | group => rfl
  | alternation => exact (Nat.zero_add _).symm

theorem emptyGroups_withMarks (e : Expression) (m : Marks) :
    (e.withMarks m).emptyGroups = e.emptyGroups := by
  cases e <;> rfl

theorem emptyGroupsOfRow_map {f : Expression → Expression}
    (h : ∀ e ∈ es, (f e).emptyGroups = e.emptyGroups) :
    emptyGroupsOfRow (es.map f) = emptyGroupsOfRow es := by
  induction es with
  | nil => rfl
  | cons e es ih =>
    obtain ⟨he, hes⟩ := List.forall_mem_cons.mp h
    rw [List.map_cons, emptyGroupsOfRow, emptyGroupsOfRow, he, ih hes]

theorem emptyGroups_unify {p : Pattern} (hp : p ≠ []) :
    p.unify.emptyGroups = emptyGroupsOfRow p := by
  unfold Pattern.unify
  split
  · exact (Nat.add_zero _).symm
  · rw [emptyGroups, List.isEmpty_eq_false_iff.mpr hp]
    exact Nat.zero_add _

theorem emptyGroups_unwrap (e : Expression) : e.unwrap.emptyGroups = e.emptyGroups := by
  rcases e.unwrap_cases with h | h
  · rw [h]
  · conv_rhs => rw [h]
    exact (emptyGroups_unify (p := [e.unwrap]) (List.cons_ne_nil _ [])).trans (Nat.zero_add _).symm

theorem emptyGroups_unwrapped (e : Expression) : e.unwrapped.emptyGroups = e.emptyGroups := by
  induction e using Expression.induct with
  | terminal t m => rfl
  | group children m ih =>
    rw [unwrapped, emptyGroups, emptyGroups, unwrappedRow_eq_map, List.isEmpty_map,
      emptyGroupsOfRow_map ih]
  | alternation alternatives m ih =>
    rw [unwrapped, emptyGroups, emptyGroups, unwrappedEach_eq_map]
    exact emptyGroupsOfRow_map fun e he => (emptyGroups_unwrap e.unwrapped).trans (ih e he)

theorem lostOfRow_eq_zero : lostOfRow es = 0 ↔ ∀ e ∈ es, e.lostAlternatives = 0 := by
  induction es with
  | nil => exact iff_of_true rfl (List.forall_mem_nil _)
  | cons e es ih => rw [lostOfRow, Nat.add_eq_zero_iff, ih, List.forall_mem_cons]

theorem lostOfEach_eq_zero : lostOfEach es = 0 ↔
    ∀ e ∈ es, (e.isBareGroup = true → e.children ≠ []) ∧ e.lostAlternatives = 0 := by
  induction es with
  | nil => exact iff_of_true rfl (List.forall_mem_nil _)
  | cons e es ih =>
    rw [lostOfEach, Nat.add_eq_zero_iff, Nat.add_eq_zero_iff, ih, List.forall_mem_cons,
      Bool.toNat_eq_zero, Bool.and_eq_false_imp, List.isEmpty_eq_false_iff]

end Expression

open Expression

/-- Every group without items is spelled as an empty pair of parentheses. -/
theorem Spells.hasPairs {leaf : Atom → Terminal → Prop} {phrase : Phrase} {ls : List Lexeme}
    {p : Pattern} (h : Spells leaf phrase ls p) :
    HasPairs ls (emptyGroupsOfRow p) p.isEmpty := by
  induction h with
  | atom => exact .single fun _ _ => rfl
  | round _ ih => exact ih.round
  | curly _ _ ih => exact ih.curly
  | nil | none => exact .nil
  | space _ ih | gap _ ih =>
    have hpairs := HasPairs.space.append ih
    rwa [Nat.zero_add, Bool.true_and] at hpairs
  | @item _ negative _ _ _ e _ p _ hrepeats _ ihcore ihrest =>
    obtain ⟨blank, hsuffix⟩ := hrepeats.exists_hasPairs
    have hpairs := (((HasPairs.signLexemes negative).append ihcore).append hsuffix).append ihrest
    have hcount : 0 + emptyGroupsOfRow [e] + 0 + emptyGroupsOfRow p = e.emptyGroups +
        emptyGroupsOfRow p := by
      rw [emptyGroupsOfRow, emptyGroupsOfRow]
      omega
    rw [List.isEmpty_cons, Bool.and_false, Bool.false_and, Bool.false_and, hcount] at hpairs
    rwa [emptyGroupsOfRow, emptyGroups_withMarks, List.isEmpty_cons]
  | @alternative row _ children p hrow hne _ _ ihrow ihrest =>
    -- no alternative is blank, so a group that holds one together has items
    have hchildren : children ≠ [] := by
      rintro rfl
      cases hrow
      exact hne rfl
    have hpairs := ihrow.append ihrest
    rw [List.isEmpty_eq_false_iff.mpr hchildren, Bool.false_and] at hpairs
    rwa [emptyGroupsOfRow, emptyGroups_unify hchildren, List.isEmpty_cons]

/-! ### What printing loses -/

namespace Expression
variable {es : List Expression}

theorem hasPairs_dressLexemes {e : Expression} {ls : List Lexeme} {n : Nat}
    (h : HasPairs ls n (e.isGroup && e.children.isEmpty)) :
    HasPairs (e.dressLexemes ls) ((e.isGroup && e.children.isEmpty).toNat + n) false := by
  have hcore : HasPairs (if e.isGroup then .opening .round :: ls ++ [.closing .round] else ls)
      ((e.isGroup && e.children.isEmpty).toNat + n) false := by
    split
    · exact h.round
    · rename_i hgroup
      rw [Bool.eq_false_iff.mpr hgroup, Bool.false_and] at h ⊢
      rwa [Bool.toNat_false, Nat.zero_add]
  have hpairs := ((HasPairs.signLexemes e.isNegative).append hcore).append
    (.quantifier e.quantifier)
  rwa [Nat.zero_add, Nat.add_zero, Bool.and_false, Bool.false_and] at hpairs

/-- The empty pairs in lexemes and the alternatives that are lost account for all groups without
items in a number of expressions. -/
def Accounts (ls : List Lexeme) (lost groups : Nat) (blank : Bool) : Prop :=
  ∃ n, HasPairs ls n blank ∧ n + lost = groups

theorem Accounts.append {a b : List Lexeme} {i j m n : Nat} {x y : Bool} (ha : Accounts a i m x)
    (hb : Accounts b j n y) : Accounts (a ++ b) (i + j) (m + n) (x && y) := by
  obtain ⟨k, hk, rfl⟩ := ha
  obtain ⟨l, hl, rfl⟩ := hb
  exact ⟨k + l, hk.append hl, by omega⟩

theorem accounts_dressLexemes {e : Expression} {ls : List Lexeme} {lost : Nat}
    (h : Accounts ls lost (emptyGroupsOfRow e.children) (e.isGroup && e.children.isEmpty)) :
    Accounts (e.dressLexemes ls) lost e.emptyGroups false := by
  obtain ⟨n, hn, hsum⟩ := h
  refine ⟨_, hasPairs_dressLexemes hn, ?_⟩
  rw [emptyGroups_eq, ← hsum, Nat.add_assoc]

theorem accounts_dressAlternativeLexemes {e : Expression} {ls : List Lexeme} {lost : Nat}
    (h : Accounts ls lost (emptyGroupsOfRow e.children) (e.isGroup && e.children.isEmpty)) :
    ∃ blank, Accounts (e.dressAlternativeLexemes ls)
      ((e.isBareGroup && e.children.isEmpty).toNat + lost) e.emptyGroups blank := by
  rw [dressAlternativeLexemes]
  split
  · rename_i hbare
    obtain ⟨n, hn, hsum⟩ := h
    obtain ⟨children, rfl⟩ := isBareGroup_iff.mp hbare
    refine ⟨_, n, hn, ?_⟩
    rw [emptyGroups_eq, ← hsum, hbare]
    exact Nat.add_left_comm _ _ _
  · rename_i hbare
    rw [Bool.eq_false_iff.mpr hbare, Bool.false_and, Bool.toNat_false, Nat.zero_add]
    exact ⟨_, accounts_dressLexemes h⟩

theorem accounts_sequenceLexemes
    (h : ∀ e ∈ es, Accounts e.innerLexemes e.lostAlternatives (emptyGroupsOfRow e.children)
      (e.isGroup && e.children.isEmpty)) :
    Accounts (sequenceLexemes es) (lostOfRow es) (emptyGroupsOfRow es) es.isEmpty := by
  induction es with
  | nil => exact ⟨0, .nil, rfl⟩
  | cons e es ih =>
    obtain ⟨he, hes⟩ := List.forall_mem_cons.mp h
    exact (accounts_dressLexemes he).append (ih hes)

theorem accounts_alternativeLexemes
    (h : ∀ e ∈ es, Accounts e.innerLexemes e.lostAlternatives (emptyGroupsOfRow e.children)
      (e.isGroup && e.children.isEmpty)) :
    ∃ blank, Accounts ([Lexeme.space].intercalate (alternativeLexemes es)) (lostOfEach es)
      (emptyGroupsOfRow es) blank := by
  induction es with
  | nil => exact ⟨true, 0, .nil, rfl⟩
  | cons e es ih =>
    obtain ⟨he, hes⟩ := List.forall_mem_cons.mp h
    obtain ⟨first, hfirst⟩ := accounts_dressAlternativeLexemes he
    obtain ⟨others, hothers⟩ := ih hes
    cases es with
    | nil =>
      refine ⟨first, ?_⟩
      rw [alternativeLexemes, alternativeLexemes, List.intercalate_singleton]
      exact hfirst
    | cons next es =>
      have hspace : Accounts [Lexeme.space] 0 0 true := ⟨0, .space, rfl⟩
      refine ⟨first && true && others, ?_⟩
      rw [alternativeLexemes, alternativeLexemes, List.intercalate_cons_cons]
      exact (hfirst.append hspace).append hothers

theorem accounts_innerLexemes (e : Expression) :
    Accounts e.innerLexemes e.lostAlternatives (emptyGroupsOfRow e.children)
      (e.isGroup && e.children.isEmpty) := by
  induction e using Expression.induct with
  | terminal t m => exact ⟨0, .single fun _ _ => rfl, rfl⟩
  | group children m ih => exact accounts_sequenceLexemes ih
  | alternation alternatives m ih =>
    obtain ⟨blank, n, hn, hsum⟩ := accounts_alternativeLexemes ih
    exact ⟨n, hn.curly, hsum⟩

end Expression

namespace Pattern

/-- How many alternatives, in whatever depth, are printed as nothing. -/
def lostAlternatives (p : Pattern) : Nat := Expression.lostOfRow p

/-- Lexemes that spell a pattern like its own, but for spaces, have lost no alternative. -/
theorem lostAlternatives_eq_zero {leaf : Atom → Terminal → Prop} {ls : List Lexeme} {p : Pattern}
    (h : Spells leaf (.row true) ls p.unwrapped)
    (hsame : ls.filter (· ≠ .space) = p.lexemes.filter (· ≠ .space)) :
    p.lostAlternatives = 0 := by
  obtain ⟨n, hn, hsum⟩ := accounts_innerLexemes (.group p {})
  have hspelled : emptyPairs false ls = emptyGroupsOfRow p.unwrapped := by
    have hpairs := h.hasPairs false []
    rwa [List.append_nil] at hpairs
  have hprinted : emptyPairs false p.lexemes = n := by
    have hpairs := hn false []
    rwa [List.append_nil] at hpairs
  have hunwrapped : emptyGroupsOfRow p.unwrapped = emptyGroupsOfRow p := by
    rw [unwrapped, unwrappedRow_eq_map]
    exact emptyGroupsOfRow_map fun e _ => e.emptyGroups_unwrapped
  have hequal : emptyPairs false ls = emptyPairs false p.lexemes := by
    rw [← emptyPairs_filter, hsame, emptyPairs_filter]
  have htotal : n + p.lostAlternatives = emptyGroupsOfRow p := hsum
  omega

end Pattern

end SoundLaw
