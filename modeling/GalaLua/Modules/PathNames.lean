import GalaLua.Modules.NormPath

/-!
# Names of paths

`dir_name` joins the components of a path but for the last one, `base_name` gives the last
one. The components are kept in the variable that held the path, so for the empty path
`base_name` returns a table: `lossless_iff`.
-/

namespace GalaLua.Modules.Path

open Library.LuaPattern (Text)

inductive Returned
  | text (s : Text)
  | components (t : List Text)
  deriving DecidableEq, Repr

/-- `table.concat(t, "/", i, j)` for a first index `i` of at least 1. -/
def concatRange (t : List Text) (i j : Int) : Text := concat ((t.take j.toNat).drop (i.toNat - 1))

def dirName (s : Text) : Text :=
  let path := split s
  concatRange path 1 (path.length - 1)

def baseName (s : Text) : Returned :=
  let path := split s
  if path[0]? = none then .components path else .text (concatRange path path.length path.length)

/-- What is expected of the components of `s` and of its two names. -/
structure Lossless (s : Text) : Prop where
  joined : concat (split s) = s
  named : ∃ base, baseName s = .text base ∧ if '/' ∈ s then dirName s ++ '/' :: base = s else base = s

-- ---------------------------------------------------------------------------
-- The last component
-- ---------------------------------------------------------------------------

variable {s k : Text} {ys : List Text}

theorem concatRange_init (ys : List Text) (k : Text) :
    concatRange (ys ++ [k]) 1 ((ys ++ [k]).length - 1) = concat ys := by
  have hlast : ((ys ++ [k]).length - 1 : Int).toNat = ys.length := by
    rw [List.length_append, List.length_singleton]
    omega
  rw [concatRange, hlast, List.take_left]
  rfl

theorem concatRange_last (ys : List Text) (k : Text) :
    concatRange (ys ++ [k]) (ys ++ [k]).length (ys ++ [k]).length = k := by
  rw [concatRange, Int.toNat_natCast, List.take_length, List.length_append, List.length_singleton,
    Nat.add_sub_cancel, List.drop_left, concat, List.flatMap_nil, List.append_nil]

theorem split_joined (s : Text) : concat (split s) = s := by
  cases h : split s with
  | nil => rw [split_eq_nil.mp h, concat]
  | cons k xs => exact (concat_split h).symm

theorem exists_last (h : s ≠ []) : ∃ ys k, split s = ys ++ [k] ∧ '/' ∉ k := by
  rcases List.eq_nil_or_concat (split s) with hnil | ⟨ys, k, heq⟩
  · exact absurd (split_eq_nil.mp hnil) h
  · rw [List.concat_eq_append] at heq
    have hmem : k ∈ split s := heq ▸ List.mem_append_right ys List.mem_cons_self
    exact ⟨ys, k, heq, split_slashFree s k hmem⟩

theorem dirName_eq (h : split s = ys ++ [k]) : dirName s = concat ys := by
  simp only [dirName, h]
  exact concatRange_init ys k

theorem baseName_eq (h : split s = ys ++ [k]) : baseName s = .text k := by
  have hfirst : (ys ++ [k])[0]? ≠ none := by simp
  simp only [baseName, h]
  rw [if_neg hfirst, concatRange_last]

theorem baseName_nil : baseName [] = .components [] := rfl

theorem lossless_iff (s : Text) : Lossless s ↔ s ≠ [] := by
  constructor
  · rintro ⟨-, base, hbase, -⟩ rfl
    rw [baseName_nil] at hbase
    cases hbase
  · intro hne
    obtain ⟨ys, k, hsplit, hk⟩ := exists_last hne
    have hjoined : s = concat (ys ++ [k]) := by rw [← hsplit, split_joined]
    refine ⟨split_joined s, k, baseName_eq hsplit, ?_⟩
    rw [dirName_eq hsplit]
    by_cases hys : ys = []
    · -- A single component is the path itself.
      subst hys
      have hself : s = k := hjoined.trans (List.append_nil k)
      rw [hself, if_neg hk]
    · rw [concat_append hys, List.flatMap_singleton] at hjoined
      have hmem : '/' ∈ s := hjoined ▸ List.mem_append_right _ List.mem_cons_self
      rw [if_pos hmem, ← hjoined]

theorem empty_not_lossless : ¬ Lossless [] := by
  rintro ⟨-, base, hbase, -⟩
  rw [baseName_nil] at hbase
  cases hbase

end GalaLua.Modules.Path
