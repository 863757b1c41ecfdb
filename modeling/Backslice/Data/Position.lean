/-! # Positions counted from either end of a list

A position is an integer. From zero up it counts from the front; a negative one counts back from the end, so
`-1` is the last element. Cuts clamp to the two ends, a single element has to exist. Where it does not, the
reader tells a position that fits a signed word from one that does not. -/

namespace Backslice.Position

set_option autoImplicit false

variable {α : Type}

/-- The number of elements in front of position `i` in a list of length `n`. -/
def cut (n : Nat) (i : Int) : Nat := (if i < 0 then i + n else i).toNat

def get? (l : List α) (i : Int) : Option α :=
  if 0 ≤ i then l[i.toNat]? else if 0 ≤ i + l.length then l[(i + l.length).toNat]? else none

/-- Bits of a word, without its sign. -/
def wordBits : Nat := 63

/-- Whether a position fits a signed word. -/
def fits (i : Int) : Bool := -(Nat.pow 2 wordBits : Int) ≤ i && i < (Nat.pow 2 wordBits : Int)

def takeTo (l : List α) (i : Int) : List α := l.take (cut l.length i)

def dropTo (l : List α) (i : Int) : List α := l.drop (cut l.length i)

/-- The elements from position `i` up to position `j`. -/
def between (l : List α) (i j : Int) : List α := (takeTo l j).drop (cut l.length i)

theorem cut_ofNat (n k : Nat) : cut n k = k := by
  have h : ¬ (k : Int) < 0 := by omega
  simp [cut, h]

theorem takeTo_ofNat (l : List α) (k : Nat) : takeTo l k = l.take k := by rw [takeTo, cut_ofNat]

theorem dropTo_ofNat (l : List α) (k : Nat) : dropTo l k = l.drop k := by rw [dropTo, cut_ofNat]

theorem get?_ofNat (l : List α) (k : Nat) : get? l k = l[k]? := by simp [get?]

/-- A list has an element at each position from the last counted back to the last counted on. -/
theorem exists_get? {l : List α} {i : Int} (hlow : -(l.length : Int) ≤ i) (hhigh : i < l.length) :
    ∃ a, get? l i = some a := by
  unfold get?
  by_cases hi : 0 ≤ i
  · rw [if_pos hi]
    exact ⟨_, List.getElem?_eq_getElem (by omega)⟩
  · rw [if_neg hi, if_pos (by omega)]
    exact ⟨_, List.getElem?_eq_getElem (by omega)⟩

theorem mem_of_get? {l : List α} {i : Int} {a : α} (h : get? l i = some a) : a ∈ l := by
  unfold get? at h
  split at h
  · exact List.mem_of_getElem? h
  · split at h
    · exact List.mem_of_getElem? h
    · cases h

end Backslice.Position
