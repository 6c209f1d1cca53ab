import GalaLua.GalaDB.Element

/-!
# Paths and serials

A path with a name behind it, and the serials of the items of a vector.
-/

namespace GalaLua.GalaDB

open Library.Lua

variable {s key n name : Str}

theorem join_eq (hkey : Clean key) (hname : Clean name) : join key name = key ++ '/' :: name := by
  rw [join, hkey, hname]

theorem clean_join (key name : Str) : Clean (join key name) := by
  have hkey := clean_iff.mp (clean_fmt key)
  have hname := clean_iff.mp (clean_fmt name)
  rw [clean_iff, join]
  simp only [List.mem_append, List.mem_cons, List.length_append, List.length_cons]
  rintro (h | h | h)
  · have := hkey h
    omega
  · exact absurd h (by decide)
  · have := hname h
    omega

theorem tonumber_tostring (n : Nat) : tonumber (tostring n) = some n := by
  have hdigits : (tostring n).all Char.isDigit = true := List.all_eq_true.mpr fun _ => isDigit_tostring
  rw [tonumber, if_pos ⟨Nat.toDigits_ne_nil, hdigits⟩, tostring, Nat.ofDigitChars_ten_toDigits]

theorem slash_notMem_tostring (n : Nat) : '/' ∉ tostring n := fun h =>
  absurd (isDigit_tostring h) (by decide)

theorem tonumber_digits {m : Nat} (h : tonumber s = some m) : ∀ ch ∈ s, ch.isDigit = true := by
  rw [tonumber] at h
  split at h
  · next hs => exact List.all_eq_true.mp hs.2
  · cases h

theorem xpathSplit_eq (hn : '/' ∉ n) : xpathSplit (key ++ '/' :: n) = (key, n) := by
  have hall : ∀ ch ∈ n.reverse, decide (ch ≠ '/') = true := fun ch hch =>
    decide_eq_true fun heq => hn (heq ▸ List.mem_reverse.mp hch)
  rw [xpathSplit, List.rdropWhile, List.rtakeWhile, List.reverse_append, List.reverse_cons, List.append_assoc,
    List.takeWhile_append_of_pos hall, List.dropWhile_append_of_pos hall]
  simp

end GalaLua.GalaDB
