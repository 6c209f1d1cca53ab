import GalaLua.GalaDB.Adding
import GalaLua.GalaDB.Links

/-!
# Updating an attribute

An attribute is read as the last of its records in byte order, and `remove_attrib`
deletes that record alone. The update law therefore holds where the attribute has one
record at most, written as `add_attrib` writes it, and LMDB takes the new record
(`updates_iff`). `add_attrib` of a second value leaves two records.
-/

namespace GalaLua.GalaDB

open Library.Lua

variable {db db' : Store} {fits : Str → Bool} {key k v w r r' : Str}

-- ---------------------------------------------------------------------------
-- The records of one attribute
-- ---------------------------------------------------------------------------

/-- A record of the attribute `k`. -/
def AttribRec (k r : Str) : Prop := ∃ w, attribOf r = some (k, w)

theorem attribOf_cut (hquote : backquote ∉ k) (v : Str) : attribOf (attribRecord k v) = some (fmt k, fmt v) := by
  refine attribOf_record (fun h => hquote ?_) (fmt v)
  rw [fmt] at h
  split at h
  · exact (List.takeWhile_prefix _).subset h
  · exact h

theorem lookup_some (h : (getAttrib db key).lookup k = some v) : ∃ r ∈ db.dups key, attribOf r = some (k, v) :=
  List.mem_filterMap.mp (mem_of_lookup_setKeys h)

theorem lookup_none_iff : (getAttrib db key).lookup k = none ↔ ∀ r ∈ db.dups key, ¬ AttribRec k r := by
  constructor
  · rintro h r hr ⟨w, hw⟩
    -- the last record of the attribute decides, so there is some value
    have hfold (as : List (Str × Str)) (d : List (Str × Str)) (hd : (d.lookup k).isSome ∨ ∃ w, (k, w) ∈ as) :
        ((setKeys d as).lookup k).isSome := by
      induction as generalizing d with
      | nil => exact hd.resolve_right fun ⟨_, h⟩ => absurd h List.not_mem_nil
      | cons a as ih =>
        refine ih _ ?_
        rw [lookup_setKey]
        by_cases hk : k = a.1
        · exact .inl (by rw [if_pos hk]; rfl)
        · rw [if_neg hk]
          refine hd.imp_right ?_
          rintro ⟨w, hw⟩
          rcases List.mem_cons.mp hw with rfl | hw
          · exact absurd rfl hk
          · exact ⟨w, hw⟩
    have hsome := hfold ((db.dups key).filterMap attribOf) [] (.inr ⟨w, List.mem_filterMap.mpr ⟨r, hr, hw⟩⟩)
    rw [getAttrib] at h
    rw [h] at hsome
    cases hsome
  · exact fun h => lookup_getAttrib_none fun r hr w hw => h r hr ⟨w, hw⟩

-- ---------------------------------------------------------------------------
-- Removing and setting
-- ---------------------------------------------------------------------------

/-- The attribute has one record at most, and it is written as `add_attrib` writes it. -/
def Single (db : Store) (key k : Str) : Prop :=
  ∀ r ∈ db.dups key, ∀ r' ∈ db.dups key, AttribRec k r' → ∀ w, attribOf r = some (k, w) → r' = attribRecord k w

theorem removeAttrib_none_iff :
    (getAttrib (removeAttrib key k db) key).lookup k = none ↔ Single db key k := by
  rw [removeAttrib, lookup_none_iff]
  split
  · next v hv =>
    obtain ⟨r₀, hr₀, hof⟩ := lookup_some hv
    simp only [Library.MultiMap.mem_del, true_and, and_imp]
    constructor
    · intro h r hr r' hr' hrec w hw
      -- what is left of the attribute is nothing, so each of its records was the deleted one
      have hdel {r : Str} (hr : r ∈ db.dups key) (hrec : AttribRec k r) : r = attribRecord k v :=
        Decidable.byContradiction fun hne => h r hne hr hrec
      have hreq := hdel hr ⟨w, hw⟩
      have h₀ := hdel hr₀ ⟨v, hof⟩
      rw [hreq, ← h₀, hof] at hw
      cases hw
      exact hdel hr' hrec
    · intro h r hne hr hrec
      exact hne (h r₀ hr₀ r hr hrec v hof)
  · next hv =>
    have hno := lookup_none_iff.mp hv
    refine iff_of_true hno ?_
    intro r hr _ _ _ w hw
    exact absurd ⟨w, hw⟩ (hno r hr)

theorem mem_removeAttrib (hk : Clean k) (hquote : backquote ∉ k) (hne : ¬ (w = key ∧ AttribRec k r)) :
    r ∈ (removeAttrib key k db).dups w ↔ r ∈ db.dups w := by
  rw [removeAttrib]
  split
  · next v _ =>
    rw [Library.MultiMap.mem_del, and_iff_right]
    rintro ⟨rfl, rfl⟩
    refine hne ⟨rfl, fmt v, ?_⟩
    rw [attribOf_cut hquote, hk]
  · exact Iff.rfl

-- ---------------------------------------------------------------------------
-- The update law
-- ---------------------------------------------------------------------------

/-- What `set_attrib` and `remove_attrib` of `k` promise for this store. -/
structure Updates (fits : Str → Bool) (db : Store) (key k v : Str) : Prop where
  set : ∃ db', setAttrib fits key k v db = .ok db' ∧ (getAttrib db' key).lookup k = some v ∧
    ∀ key' r, ¬ (key' = key ∧ AttribRec k r) → (r ∈ db'.dups key' ↔ r ∈ db.dups key')
  remove : (getAttrib (removeAttrib key k db) key).lookup k = none

theorem rawPut_eq_ok (h : rawPut fits key v db = .ok db') : Table.Takes fits key v ∧ db' = db.put key v := by
  have houtcome := rawPut_outcome fits key v db
  rw [h] at houtcome
  exact houtcome

/-- For every store the law holds if and only if the attribute has no record or a single
one, neither the key nor the value is cut at a NUL, and LMDB takes the new record. -/
theorem updates_iff (fits : Str → Bool) (db : Store) (key k v : Str) (hquote : backquote ∉ k) :
    Updates fits db key k v ↔
      Single db key k ∧ Clean k ∧ Clean v ∧ fits key = true ∧ fits (attribRecord k v) = true := by
  constructor
  · rintro ⟨⟨db', hset, hget, -⟩, hremove⟩
    obtain ⟨⟨hkey, hrec⟩, rfl⟩ := rawPut_eq_ok hset
    obtain ⟨r, hr, hof⟩ := lookup_some hget
    -- no old record of the attribute is left, so what is read is the new one
    rcases Library.MultiMap.mem_put.mp hr with ⟨-, rfl⟩ | hr
    · rw [attribOf_cut hquote] at hof
      obtain ⟨hk, hv⟩ := Prod.mk.inj (Option.some.inj hof)
      exact ⟨removeAttrib_none_iff.mp hremove, hk, hv, hkey, hrec⟩
    · exact absurd ⟨v, hof⟩ (lookup_none_iff.mp hremove r hr)
  · rintro ⟨hsingle, hk, hv, hkey, hrec⟩
    have hremove := removeAttrib_none_iff.mpr hsingle
    have hof : attribOf (attribRecord k v) = some (k, v) := by rw [attribOf_cut hquote, hk, hv]
    refine ⟨⟨(removeAttrib key k db).put key (attribRecord k v), ?_, ?_, ?_⟩, hremove⟩
    · rw [setAttrib, addAttrib, rawPut, hkey, hrec]
      rfl
    · refine lookup_getAttrib (Library.MultiMap.mem_put.mpr (.inl ⟨rfl, rfl⟩)) hof fun r' hr' v' hof' => ?_
      rcases Library.MultiMap.mem_put.mp hr' with ⟨-, rfl⟩ | hr'
      · rw [hof] at hof'
        cases hof'
        rfl
      · exact absurd ⟨v', hof'⟩ (lookup_none_iff.mp hremove r' hr')
    · intro key' r hne
      rw [Library.MultiMap.mem_put, mem_removeAttrib hk hquote hne]
      refine or_iff_right ?_
      rintro ⟨rfl, rfl⟩
      exact hne ⟨rfl, v, hof⟩

/-- An attribute with one value. -/
theorem updates_one_value :
    Updates anySize (.put .empty ['/', 'r'] (attribRecord ['k'] ['1'])) ['/', 'r'] ['k'] ['2'] := by
  refine (updates_iff anySize _ _ _ _ (by decide)).mpr ⟨?_, by decide, by decide, rfl, rfl⟩
  intro r hr r' hr' _ w hw
  simp only [Library.MultiMap.mem_put, Library.MultiMap.dups_empty, List.not_mem_nil, or_false, true_and] at hr hr'
  rw [hr] at hw
  rw [hr']
  cases hw
  rfl

/-- Two values were added: `remove_attrib` leaves the first one, and so `set_attrib` of a
value in front of it in byte order has no effect on what is read. -/
theorem first_value_stays :
    ∃ db, (addAttrib anySize ['/', 'r'] ['k'] ['1'] .empty).bind (addAttrib anySize ['/', 'r'] ['k'] ['2']) = .ok db ∧
      (∃ db', setAttrib anySize ['/', 'r'] ['k'] ['0'] db = .ok db' ∧
        (getAttrib db' ['/', 'r']).lookup ['k'] = some ['1']) ∧
      (getAttrib (removeAttrib ['/', 'r'] ['k'] db) ['/', 'r']).lookup ['k'] = some ['1'] ∧
      ¬ Updates anySize db ['/', 'r'] ['k'] ['0'] := by
  refine ⟨_, rfl, ⟨_, rfl, by decide⟩, by decide, fun h => ?_⟩
  have hremove := h.remove
  revert hremove
  decide

end GalaLua.GalaDB
