import Mathlib.Data.List.Basic
import Mathlib.Tactic.Common

/-!
Ring buffers over a source that is read from the front: writing a chunk behind the last one and
reading a slice, neither of them past the end of the buffer.
-/

set_option autoImplicit false

namespace Anoncoin.Lib

section Ring
variable {α : Type}

/-- The items from `pos` on replaced. -/
def overwrite (buf : List α) (pos : Nat) (items : List α) : List α :=
  buf.take pos ++ items ++ buf.drop (pos+items.length)

/-- The last of the first `n` items of the source, as many as the buffer has places, each at its
place. -/
def RingHolds (buf source : List α) (n : Nat) : Prop :=
  ∀ i < n, n ≤ i+buf.length → buf[i%buf.length]? = source[i]?

variable {buf source items : List α} {n pos i k : Nat}

theorem length_overwrite (h : pos+items.length ≤ buf.length) :
    (overwrite buf pos items).length = buf.length := by
  simp [overwrite]
  omega

theorem overwrite_inside (h : pos+items.length ≤ buf.length) (hi : i < items.length) :
    (overwrite buf pos items)[pos+i]? = items[i]? := by
  have hpos : (buf.take pos).length = pos := List.length_take_of_le (by omega)
  rw [overwrite,List.append_assoc,List.getElem?_append_right (by omega),hpos,Nat.add_sub_cancel_left,
    List.getElem?_append_left hi]

theorem overwrite_outside (h : pos+items.length ≤ buf.length)
    (hi : i < pos ∨ pos+items.length ≤ i) : (overwrite buf pos items)[i]? = buf[i]? := by
  have hpos : (buf.take pos).length = pos := List.length_take_of_le (by omega)
  rw [overwrite]
  obtain hi | hi := hi
  · rw [List.append_assoc,List.getElem?_append_left (by omega),List.getElem?_take_of_lt hi]
  · have hlen : (buf.take pos ++ items).length = pos+items.length := by
      rw [List.length_append,hpos]
    rw [List.getElem?_append_right (by omega),hlen,List.getElem?_drop]
    congr 1
    omega

/-- As long as the end of the ring is not passed, places follow one another. -/
theorem add_mod_of_lt {i k n : Nat} (h : i%n+k < n) : (i+k)%n = i%n+k := by
  rw [Nat.add_mod,Nat.mod_eq_of_lt (by omega : k < n),Nat.mod_eq_of_lt h]

/-- Items less than one round apart have different places. -/
theorem mod_ne_of_lt {i j n : Nat} (hij : i < j) (hj : j < i+n) : i%n ≠ j%n := by
  intro h
  have hmod : (j-i)%n = 0 := Nat.sub_mod_eq_zero_of_mod_eq h.symm
  rw [Nat.mod_eq_of_lt (by omega)] at hmod
  omega

theorem RingHolds.zero : RingHolds buf source 0 := by
  intro i hi
  omega

/-- A chunk of the source that ends at the end of the buffer or before. -/
theorem RingHolds.write (h : RingHolds buf source n) (hend : n%buf.length+k ≤ buf.length)
    (hk : items = (source.drop n).take k) (hlen : items.length = k) :
    RingHolds (overwrite buf (n%buf.length) items) source (n+k) := by
  have hlength : (overwrite buf (n%buf.length) items).length = buf.length :=
    length_overwrite (by omega)
  intro i hi hlast
  rw [hlength] at hlast ⊢
  by_cases hnew : n ≤ i
  · obtain ⟨j,rfl⟩ := Nat.exists_eq_add_of_le hnew
    rw [add_mod_of_lt (by omega),overwrite_inside (by omega) (by omega),hk,
      List.getElem?_take_of_lt (by omega),List.getElem?_drop]
  · -- the chunk covers the places of items that are a whole round behind
    have hplace : i%buf.length < n%buf.length ∨ n%buf.length+items.length ≤ i%buf.length := by
      by_contra hcovered
      obtain ⟨j,hj⟩ := Nat.exists_eq_add_of_le (by omega : n%buf.length ≤ i%buf.length)
      have hsame : (n+j)%buf.length = i%buf.length := by
        rw [add_mod_of_lt (by omega),hj]
      exact mod_ne_of_lt (by omega) (by omega) hsame.symm
    rw [overwrite_outside (by omega) hplace]
    exact h i (by omega) (by omega)

/-- A slice that the ring holds and that ends at the end of the buffer or before. -/
theorem RingHolds.slice (h : RingHolds buf source n) (hheld : n ≤ i+buf.length) (hi : i+k ≤ n)
    (hend : i%buf.length+k ≤ buf.length) :
    (buf.drop (i%buf.length)).take k = (source.drop i).take k := by
  apply List.ext_getElem?
  intro j
  by_cases hj : j < k
  · rw [List.getElem?_take_of_lt hj,List.getElem?_take_of_lt hj,List.getElem?_drop,List.getElem?_drop,
      ← add_mod_of_lt (by omega)]
    exact h (i+j) (by omega) (by omega)
  · rw [List.getElem?_take_eq_none (by omega),List.getElem?_take_eq_none (by omega)]

end Ring

end Anoncoin.Lib
