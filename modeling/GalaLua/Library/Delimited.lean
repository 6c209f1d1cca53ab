import Mathlib.Data.List.Basic
import Mathlib.Tactic.Common

/-!
# Readers that know where what they read ends

A reader takes something off the front of a list. It is delimited when what it
took is read the same whatever follows, and is missing something when it is cut
off anywhere: the lists that it takes are free of prefixes. Readers that are
put together of delimited ones are delimited.
-/

namespace GalaLua.Library

variable {σ ε α β : Type}

abbrev Reader (σ ε α : Type) := List σ → Except ε (α × List σ)

def Reader.andThen (d : Reader σ ε α) (next : α → Reader σ ε β) : Reader σ ε β := fun c =>
  match d c with
  | .ok (a, r) => next a r
  | .error e => .error e

def Reader.lift (x : Except ε α) : Reader σ ε α := fun c =>
  match x with
  | .ok a => .ok (a, c)
  | .error e => .error e

/-- The next `m` symbols. -/
def Reader.take (eof : ε) (m : Nat) : Reader σ ε (List σ) := fun c =>
  if c.length < m then .error eof else .ok (c.take m, c.drop m)

theorem Reader.take_append {eof : ε} {bs : List σ} {m : Nat} (h : bs.length = m)
    (next : List σ → Reader σ ε β) (r : List σ) :
    ((Reader.take eof m).andThen next : Reader σ ε β) (bs ++ r) = next bs r := by
  have hge : ¬(bs ++ r).length < m := by
    rw [List.length_append]
    omega
  simp only [Reader.andThen, Reader.take, if_neg hge, List.take_left' h, List.drop_left' h]

/-- What a reader took: `used`, in front of anything of at most `n` symbols. -/
structure Takes (eof : ε) (n : Nat) (d : Reader σ ε α) (used : List σ) (a : α) : Prop where
  always : ∀ r, (used ++ r).length < n → d (used ++ r) = .ok (a, r)
  missing : ∀ k < used.length, used.length < n → d (used.take k) = .error eof

/-- The reader is delimited on lists of less than `n` symbols. -/
def Delimited (eof : ε) (n : Nat) (d : Reader σ ε α) : Prop :=
  ∀ c a r, c.length < n → d c = .ok (a, r) → ∃ used, c = used ++ r ∧ Takes eof n d used a

namespace Delimited

variable {eof : ε} {n : Nat}

theorem pure (a : α) : Delimited eof n (fun c : List σ => .ok (a, c)) := by
  intro c a' r _ h
  obtain ⟨rfl, rfl⟩ := Prod.mk.inj (Except.ok.inj h)
  refine ⟨[], rfl, fun r _ => rfl, fun k hk => absurd hk (Nat.not_lt_zero k)⟩

theorem fail (e : ε) : Delimited eof n (fun _ : List σ => (.error e : Except ε (α × List σ))) := by
  intro c a r _ h
  cases h

theorem lift (x : Except ε α) : Delimited eof n (Reader.lift x : Reader σ ε α) := by
  cases x with
  | ok a => exact pure a
  | error e => exact fail e

theorem andThen {d : Reader σ ε α} {next : α → Reader σ ε β} (hd : Delimited eof n d)
    (hnext : ∀ a, Delimited eof n (next a)) : Delimited eof n (d.andThen next) := by
  intro c b r hc h
  simp only [Reader.andThen] at h
  cases hfirst : d c with
  | error e =>
    rw [hfirst] at h
    cases h
  | ok p =>
    obtain ⟨a, mid⟩ := p
    rw [hfirst] at h
    obtain ⟨u, rfl, htakes⟩ := hd c a mid hc hfirst
    have hmid : mid.length < n := by
      rw [List.length_append] at hc
      omega
    obtain ⟨w, rfl, hrest⟩ := hnext a mid b r hmid h
    refine ⟨u ++ w, (List.append_assoc ..).symm, fun r' hr' => ?_, fun k hk hlen => ?_⟩
    · rw [List.append_assoc] at hr' ⊢
      have hw : (w ++ r').length < n := by
        rw [List.length_append] at hr'
        omega
      simp only [Reader.andThen, htakes.always _ hr', hrest.always r' hw]
    · rw [List.length_append] at hk hlen
      simp only [Reader.andThen]
      rcases Nat.lt_or_ge k u.length with hlt | hge
      · rw [List.take_append_of_le_length (Nat.le_of_lt hlt), htakes.missing k hlt (by omega)]
      · -- the cut is in what the second reader takes
        have hcut : (u ++ w).take k = u ++ w.take (k - u.length) := by
          rw [List.take_append, List.take_of_length_le hge]
        have hbound : (u ++ w.take (k - u.length)).length < n := by
          rw [List.length_append, List.length_take]
          omega
        rw [hcut, htakes.always _ hbound]
        exact hrest.missing _ (by omega) (by omega)

theorem take (m : Nat) : Delimited eof n (Reader.take eof m : Reader σ ε (List σ)) := by
  intro c a r _ h
  simp only [Reader.take] at h
  split at h
  · cases h
  · rename_i hle
    obtain ⟨rfl, rfl⟩ := Prod.mk.inj (Except.ok.inj h)
    have hlen : (c.take m).length = m := by
      rw [List.length_take]
      omega
    refine ⟨c.take m, (List.take_append_drop m c).symm, fun r' _ => ?_, fun k hk _ => ?_⟩
    · have hge : ¬(c.take m ++ r').length < m := by
        rw [List.length_append]
        omega
      simp only [Reader.take, if_neg hge, List.take_left' hlen, List.drop_left' hlen]
    · have hlt : ((c.take m).take k).length < m := by
        rw [List.length_take]
        omega
      simp only [Reader.take, if_pos hlt]

/-- A reader that goes by the first symbol. -/
theorem head {d : Reader σ ε α} (hnil : d [] = .error eof)
    (hcons : ∀ s, Delimited eof n (fun c => d (s :: c))) : Delimited eof n d := by
  intro c a r hc h
  cases c with
  | nil =>
    rw [hnil] at h
    cases h
  | cons s c =>
    obtain ⟨used, rfl, htakes⟩ := hcons s c a r (Nat.lt_of_succ_lt hc) h
    refine ⟨s :: used, rfl, fun r' hr' => htakes.always r' (Nat.lt_of_succ_lt hr'), fun k hk hlen => ?_⟩
    cases k with
    | zero => exact hnil
    | succ k => exact htakes.missing k (Nat.lt_of_succ_lt_succ hk) (Nat.lt_of_succ_lt hlen)

theorem congr {d d' : Reader σ ε α} (hd : Delimited eof n d)
    (h : ∀ c, c.length < n → d' c = d c) : Delimited eof n d' := by
  intro c a r hc hok
  obtain ⟨used, rfl, htakes⟩ := hd c a r hc (h c hc ▸ hok)
  refine ⟨used, rfl, fun r' hr' => (h _ hr').trans (htakes.always r' hr'), fun k hk hlen => ?_⟩
  have hcut : (used.take k).length < n := by
    rw [List.length_take]
    omega
  exact (h _ hcut).trans (htakes.missing k hk hlen)

/-- What is left is at the end of what there was. -/
theorem suffix {d : Reader σ ε α} (hd : Delimited eof n d) {c r : List σ} {a : α} (hc : c.length < n)
    (h : d c = .ok (a, r)) : r <:+ c := by
  obtain ⟨used, rfl, -⟩ := hd c a r hc h
  exact List.suffix_append ..

end Delimited

-- ---------------------------------------------------------------------------
-- Readers of short lists
-- ---------------------------------------------------------------------------

/-- Two readers do the same with lists of at most `m` symbols. -/
def Agree (m : Nat) (d d' : Reader σ ε α) : Prop := ∀ c, c.length ≤ m → d c = d' c

theorem Agree.andThen {eof : ε} {n m : Nat} {d d' : Reader σ ε α} {next next' : α → Reader σ ε β}
    (hm : m < n) (hd : Delimited eof n d) (h : Agree m d d') (hnext : ∀ a, Agree m (next a) (next' a)) :
    Agree m (d.andThen next) (d'.andThen next') := by
  intro c hc
  simp only [Reader.andThen, ← h c hc]
  cases hfirst : d c with
  | error e => rfl
  | ok p =>
    have hle := (hd.suffix (by omega) hfirst).length_le
    exact hnext p.1 p.2 (by omega)

/-- A failure of one kind is at a place where `P` holds. -/
def Blames (n : Nat) (e : ε) (P : List σ → Prop) (d : Reader σ ε α) : Prop :=
  ∀ c, c.length < n → d c = .error e → ∃ place, place <:+ c ∧ P place

theorem Blames.andThen {eof e : ε} {n : Nat} {P : List σ → Prop} {d : Reader σ ε α}
    {next : α → Reader σ ε β} (hd : Delimited eof n d) (h : Blames n e P d)
    (hnext : ∀ a, Blames n e P (next a)) : Blames n e P (d.andThen next) := by
  intro c hc herr
  simp only [Reader.andThen] at herr
  cases hfirst : d c with
  | error e' =>
    rw [hfirst] at herr
    have he : e' = e := Except.error.inj herr
    exact h c hc (he ▸ hfirst)
  | ok p =>
    rw [hfirst] at herr
    have hsuf := hd.suffix hc hfirst
    obtain ⟨place, hplace, hP⟩ := hnext p.1 p.2 (Nat.lt_of_le_of_lt hsuf.length_le hc) herr
    exact ⟨place, hplace.trans hsuf, hP⟩

end GalaLua.Library
