/-!
# Blanks and cuts

White space in the sense of the Unicode property White_Space, and the ways in which a text is
trimmed, cut and split. Texts are lists of characters here, so that each operation follows the
list.
-/

namespace SoundLaw.Text
set_option autoImplicit false

/-- The characters with the property White_Space. -/
def isBlank (c : Char) : Bool :=
  let n := c.toNat
  9 ≤ n && n ≤ 13 || n == 0x20 || n == 0x85 || n == 0xA0 || n == 0x1680
    || 0x2000 ≤ n && n ≤ 0x200A || n == 0x2028 || n == 0x2029 || n == 0x202F
    || n == 0x205F || n == 0x3000

def trimStart (cs : List Char) : List Char := cs.dropWhile isBlank

def trimEnd (cs : List Char) : List Char := (cs.reverse.dropWhile isBlank).reverse

def trim (cs : List Char) : List Char := trimEnd (trimStart cs)

def cut? (sep : Char) : List Char → Option (List Char × List Char)
  | [] => none
  | c :: cs => if c = sep then some ([], cs) else (cut? sep cs).map fun p => (c :: p.1, p.2)

theorem length_lt_of_cut? {sep : Char} {cs a b : List Char} (h : cut? sep cs = some (a, b)) :
    b.length < cs.length := by
  induction cs generalizing a with
  | nil => simp [cut?] at h
  | cons c cs ih =>
    rw [cut?] at h
    split at h
    · simp only [Option.some.injEq, Prod.mk.injEq] at h
      simp [← h.2]
    · obtain ⟨⟨a', b'⟩, hp, he⟩ := Option.map_eq_some_iff.mp h
      simp only [Prod.mk.injEq] at he
      have := ih (a := a') (he.2 ▸ hp)
      simp only [List.length_cons]
      omega

def splitAt (sep : Char) : List Char → List (List Char)
  | [] => [[]]
  | c :: cs =>
    if c = sep then [] :: splitAt sep cs
    else match splitAt sep cs with
      | [] => [[c]]
      | part :: parts => (c :: part) :: parts

theorem length_dropWhile_le {α : Type} (p : α → Bool) (cs : List α) :
    (cs.dropWhile p).length ≤ cs.length :=
  (List.dropWhile_sublist p).length_le

def words : List Char → List (List Char)
  | [] => []
  | c :: cs =>
    if isBlank c then words cs
    else
      have := length_dropWhile_le (!isBlank ·) cs
      (c :: cs.takeWhile (!isBlank ·)) :: words (cs.dropWhile (!isBlank ·))
termination_by cs => cs.length
decreasing_by all_goals simp only [List.length_cons]; omega

/-- The lines of a text. A line ends before a line feed or the pair of carriage return and line
feed, and nothing after the last line feed counts as no line. -/
def lines (cs : List Char) : List (List Char) :=
  let parts := splitAt '\n' cs
  let full := parts.dropLast.map fun l => if l.getLast? = some '\r' then l.dropLast else l
  match parts.getLast? with
  | none | some [] => full
  | some rest => full ++ [rest]

end SoundLaw.Text
