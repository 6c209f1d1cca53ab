import GalaLua.Frameworks.Queue
import Mathlib.Data.List.Rotate

/-!
# collections.queue is a sequence

All methods of the queue: the table is at every time a list between `head` and
`tail`, with nothing else in it, and each method answers as the list does. What
is removed from the middle is closed up by moving what is behind it.
-/

namespace GalaLua.Frameworks.Queue.Deque

variable {α : Type}

-- ---------------------------------------------------------------------------
-- Methods
-- ---------------------------------------------------------------------------

def pushLeft (q : Deque α) : Option α → Option (Deque α)
  | none => none
  | some x => some { q with head := q.head - 1, self := Function.update q.self q.head (some x) }

def peekRight (q : Deque α) : Option α := q.self q.tail

def peekLeft (q : Deque α) : Option α := q.self (q.head + 1)

def popRight (q : Deque α) : Option α × Deque α :=
  if q.isEmpty then (none, q)
  else (q.self q.tail, { q with tail := q.tail - 1, self := Function.update q.self q.tail none })

/-- `n` times from one end to the other. -/
def rotateRightLoop : Nat → Deque α → Option (Deque α)
  | 0, q => some q
  | n + 1, q => (q.popRight.2.pushLeft q.popRight.1).bind (rotateRightLoop n)

def rotateLeftLoop : Nat → Deque α → Option (Deque α)
  | 0, q => some q
  | n + 1, q => (q.popLeft.2.pushRight q.popLeft.1).bind (rotateLeftLoop n)

/-- `for i=idx,tail do self[i] = self[i+1] end`, for `n` turns. -/
def closeUp : Nat → Int → (Int → Option α) → Int → Option α
  | 0, _, self => self
  | n + 1, i, self => closeUp n (i + 1) (Function.update self i (self (i + 1)))

def removeAtInternal (q : Deque α) (idx : Int) : Deque α :=
  { q with tail := q.tail - 1, self := closeUp (q.tail - idx + 1).toNat idx q.self }

section
variable [DecidableEq α]

/-- The first index with the element, from `i` on in steps of `step`. -/
def find (self : Int → Option α) (x : Option α) (step : Int) : Nat → Int → Option Int
  | 0, _ => none
  | n + 1, i => if self i = x then some i else find self x step n (i + step)

def removeRight (q : Deque α) (x : Option α) : Bool × Deque α :=
  match find q.self x (-1) (q.tail - q.head).toNat q.tail with
  | some i => (true, q.removeAtInternal i)
  | none => (false, q)

def removeLeft (q : Deque α) (x : Option α) : Bool × Deque α :=
  match find q.self x 1 (q.tail - q.head).toNat (q.head + 1) with
  | some i => (true, q.removeAtInternal i)
  | none => (false, q)

end

/-- A call of the function that `iter_right` returns. -/
def nextRight (q : Deque α) (i : Int) : Option α × Int :=
  if i > q.head + 1 then (q.self (i - 1), i - 1) else (none, i)

def nextLeft (q : Deque α) (i : Int) : Option α × Int :=
  if i < q.tail then (q.self (i + 1), i + 1) else (none, i)

/-- A `for` over an iterator, for `n` turns at most. -/
def forIn (next : Int → Option α × Int) : Nat → Int → List α
  | 0, _ => []
  | n + 1, i =>
    match next i with
    | (some x, i') => x :: forIn next n i'
    | (none, _) => []

def iterRight (q : Deque α) : List α := forIn q.nextRight (q.tail - q.head + 1).toNat (q.tail + 1)

def iterLeft (q : Deque α) : List α := forIn q.nextLeft (q.tail - q.head + 1).toNat q.head

inductive Op (α : Type)
  | pushRight (x : Option α)
  | pushLeft (x : Option α)
  | peekRight
  | peekLeft
  | popRight
  | popLeft
  | rotateRight (n : Option Int)
  | rotateLeft (n : Option Int)
  | removeRight (x : Option α)
  | removeLeft (x : Option α)
  | iterRight
  | iterLeft
  | length
  | isEmpty
  | contents

inductive Answer (α : Type)
  | done
  | value (x : Option α)
  | flag (b : Bool)
  | number (n : Int)
  | list (xs : List α)
  /-- assertion failed! -/
  | failed

/-- After a failed assertion the table is what it was. -/
def assigned (q : Deque α) : Option (Deque α) → Answer α × Deque α
  | some q' => (.done, q')
  | none => (.failed, q)

section
variable [DecidableEq α]

/-- One call on the table. -/
def perform (q : Deque α) : Op α → Answer α × Deque α
  | .pushRight x => q.assigned (q.pushRight x)
  | .pushLeft x => q.assigned (q.pushLeft x)
  | .peekRight => (.value q.peekRight, q)
  | .peekLeft => (.value q.peekLeft, q)
  | .popRight => (.value q.popRight.1, q.popRight.2)
  | .popLeft => (.value q.popLeft.1, q.popLeft.2)
  | .rotateRight n => if q.isEmpty then (.value none, q) else q.assigned (rotateRightLoop (n.getD 1).toNat q)
  | .rotateLeft n => if q.isEmpty then (.value none, q) else q.assigned (rotateLeftLoop (n.getD 1).toNat q)
  | .removeRight x => (.flag (q.removeRight x).1, (q.removeRight x).2)
  | .removeLeft x => (.flag (q.removeLeft x).1, (q.removeLeft x).2)
  | .iterRight => (.list q.iterRight, q)
  | .iterLeft => (.list q.iterLeft, q)
  | .length => (.number q.length, q)
  | .isEmpty => (.flag q.isEmpty, q)
  | .contents => (.list q.contents, q)

/-- The same call on a list. -/
def onList (xs : List α) : Op α → Answer α × List α
  | .pushRight none => (.failed, xs)
  | .pushRight (some x) => (.done, xs ++ [x])
  | .pushLeft none => (.failed, xs)
  | .pushLeft (some x) => (.done, x :: xs)
  | .peekRight => (.value xs.getLast?, xs)
  | .peekLeft => (.value xs.head?, xs)
  | .popRight => (.value xs.getLast?, xs.dropLast)
  | .popLeft => (.value xs.head?, xs.tail)
  | .rotateRight n => (if xs = [] then .value none else .done, (xs.reverse.rotate (n.getD 1).toNat).reverse)
  | .rotateLeft n => (if xs = [] then .value none else .done, xs.rotate (n.getD 1).toNat)
  | .removeRight none => (.flag false, xs)
  | .removeRight (some x) => (.flag (decide (x ∈ xs)), (xs.reverse.erase x).reverse)
  | .removeLeft none => (.flag false, xs)
  | .removeLeft (some x) => (.flag (decide (x ∈ xs)), xs.erase x)
  | .iterRight => (.list xs.reverse, xs)
  | .iterLeft => (.list xs, xs)
  | .length => (.number xs.length, xs)
  | .isEmpty => (.flag (decide (xs = [])), xs)
  | .contents => (.list xs, xs)

end

/-- What the calls of a run answer. -/
def answers {σ : Type} (call : σ → Op α → Answer α × σ) : σ → List (Op α) → List (Answer α)
  | _, [] => []
  | s, op :: ops => (call s op).1 :: answers call (call s op).2 ops

-- ---------------------------------------------------------------------------
-- Slots
-- ---------------------------------------------------------------------------

/-- The fields of a table that holds `xs` behind `head`. -/
def slots (head : Int) (xs : List α) : Int → Option α :=
  fun i => if head < i then xs[(i - head - 1).toNat]? else none

/-- The table holds `xs` and nothing else. -/
structure Spans (q : Deque α) (xs : List α) : Prop where
  tail : q.tail = q.head + xs.length
  self : q.self = slots q.head xs

variable {q : Deque α} {xs : List α} {x : α} {head : Int}

theorem slots_at (k : Nat) : slots head xs (head + 1 + k) = xs[k]? := by
  have hk : (head + 1 + k - head - 1).toNat = k := by omega
  rw [slots, if_pos (by omega), hk]

theorem slots_of_le {i : Int} (h : i ≤ head) : slots head xs i = none := if_neg (by omega)

theorem slots_ext {f : Int → Option α} (hle : ∀ i ≤ head, f i = none) (hat : ∀ k : Nat, f (head + 1 + k) = xs[k]?) :
    f = slots head xs := by
  funext i
  by_cases h : i ≤ head
  · rw [hle i h, slots_of_le h]
  · obtain ⟨k, rfl⟩ : ∃ k : Nat, i = head + 1 + k := ⟨(i - head - 1).toNat, by omega⟩
    rw [hat, slots_at]

theorem slots_pushLeft (x : α) : Function.update (slots head xs) head (some x) = slots (head - 1) (x :: xs) := by
  refine slots_ext (fun i hi => ?_) fun k => ?_
  · rw [Function.update_of_ne (by omega), slots_of_le (by omega)]
  · cases k with
    | zero =>
      have hi : head - 1 + 1 + ((0 : Nat) : Int) = head := by omega
      rw [hi, Function.update_self, List.getElem?_cons_zero]
    | succ k =>
      have hi : head - 1 + 1 + ((k + 1 : Nat) : Int) = head + 1 + k := by omega
      rw [hi, Function.update_of_ne (by omega), slots_at, List.getElem?_cons_succ]

theorem slots_pushRight (x : α) :
    Function.update (slots head xs) (head + xs.length + 1) (some x) = slots head (xs ++ [x]) := by
  refine slots_ext (fun i hi => ?_) fun k => ?_
  · rw [Function.update_of_ne (by omega), slots_of_le hi]
  · rcases Nat.lt_trichotomy k xs.length with hk | rfl | hk
    · rw [Function.update_of_ne (by omega), slots_at, List.getElem?_append_left hk]
    · rw [Int.add_right_comm, Function.update_self, List.getElem?_concat_length]
    · rw [Function.update_of_ne (by omega), slots_at, List.getElem?_eq_none (by omega),
        List.getElem?_eq_none (by rw [List.length_append, List.length_singleton]; omega)]

theorem slots_popLeft : Function.update (slots head (x :: xs)) (head + 1) none = slots (head + 1) xs := by
  refine slots_ext (fun i hi => ?_) fun k => ?_
  · by_cases h : i = head + 1
    · rw [h, Function.update_self]
    · rw [Function.update_of_ne h, slots_of_le (by omega)]
  · have hi : head + 1 + 1 + (k : Int) = head + 1 + ((k + 1 : Nat) : Int) := by omega
    rw [hi, Function.update_of_ne (by omega), slots_at, List.getElem?_cons_succ]

theorem slots_popRight :
    Function.update (slots head (xs ++ [x])) (head + xs.length + 1) none = slots head xs := by
  refine slots_ext (fun i hi => ?_) fun k => ?_
  · rw [Function.update_of_ne (by omega), slots_of_le hi]
  · rcases Nat.lt_trichotomy k xs.length with hk | rfl | hk
    · rw [Function.update_of_ne (by omega), slots_at, List.getElem?_append_left hk]
    · rw [Int.add_right_comm, Function.update_self, List.getElem?_eq_none (Nat.le_refl _)]
    · rw [Function.update_of_ne (by omega), slots_at, List.getElem?_eq_none (l := xs) (by omega),
        List.getElem?_eq_none (by rw [List.length_append, List.length_singleton]; omega)]

theorem closeUp_eq (n : Nat) (i : Int) (self : Int → Option α) (j : Int) :
    closeUp n i self j = if i ≤ j ∧ j < i + n then self (j + 1) else self j := by
  induction n generalizing i self with
  | zero => rw [closeUp, if_neg (by omega)]
  | succ n ih =>
    rw [closeUp, ih]
    by_cases hj : j = i
    · subst hj
      rw [if_neg (by omega), Function.update_self, if_pos (by omega)]
    · by_cases hin : i + 1 ≤ j ∧ j < i + 1 + n
      · rw [if_pos hin, if_pos (by omega), Function.update_of_ne (by omega)]
      · rw [if_neg hin, if_neg (by omega), Function.update_of_ne hj]

theorem slots_closeUp {k n : Nat} (hn : xs.length = k + n) :
    closeUp n (head + 1 + k) (slots head xs) = slots head (xs.eraseIdx k) := by
  refine slots_ext (fun i hi => ?_) fun j => ?_
  · rw [closeUp_eq, if_neg (by omega), slots_of_le hi]
  · rw [closeUp_eq, List.getElem?_eraseIdx]
    by_cases hj : j < k
    · rw [if_neg (by omega), if_pos hj, slots_at]
    · rw [if_neg hj]
      have hi : head + 1 + (j : Int) + 1 = head + 1 + ((j + 1 : Nat) : Int) := by omega
      by_cases hin : j < k + n
      · rw [if_pos (by omega), hi, slots_at]
      · rw [if_neg (by omega), slots_at, List.getElem?_eq_none (by omega), List.getElem?_eq_none (by omega)]

-- ---------------------------------------------------------------------------
-- Methods on what is held
-- ---------------------------------------------------------------------------

theorem spans_new : Spans (new : Deque α) [] where
  tail := rfl
  self := slots_ext (fun _ _ => rfl) fun _ => rfl

theorem Spans.length_eq (h : Spans q xs) : q.length = xs.length := by
  have := h.tail
  unfold Deque.length
  omega

theorem Spans.isEmpty_iff (h : Spans q xs) : q.isEmpty = true ↔ xs = [] := by
  rw [Deque.isEmpty, h.length_eq, beq_iff_eq, Int.natCast_eq_zero, List.length_eq_zero_iff]

theorem Spans.pushRight (h : Spans q xs) (x : α) :
    ∃ q', q.pushRight (some x) = some q' ∧ Spans q' (xs ++ [x]) := by
  refine ⟨_, rfl, ?_, ?_⟩
  · have := h.tail
    simp only [List.length_append, List.length_singleton]
    omega
  · dsimp only
    rw [h.self, h.tail, slots_pushRight]

theorem Spans.pushLeft (h : Spans q xs) (x : α) :
    ∃ q', q.pushLeft (some x) = some q' ∧ Spans q' (x :: xs) := by
  refine ⟨_, rfl, ?_, ?_⟩
  · have := h.tail
    simp only [List.length_cons]
    omega
  · dsimp only
    rw [h.self, slots_pushLeft]

theorem Spans.peekLeft (h : Spans q xs) : q.peekLeft = xs.head? := by
  have hat : slots q.head xs (q.head + 1 + (0 : Nat)) = xs[0]? := slots_at 0
  rw [Int.natCast_zero, Int.add_zero] at hat
  rw [Deque.peekLeft, h.self, hat, List.head?_eq_getElem?]

theorem Spans.peekRight (h : Spans q xs) : q.peekRight = xs.getLast? := by
  rw [Deque.peekRight, h.self, h.tail, List.getLast?_eq_getElem?]
  cases hn : xs.length with
  | zero =>
    rw [slots_of_le (by omega), List.getElem?_eq_none (by omega)]
  | succ n =>
    have hi : q.head + ((n + 1 : Nat) : Int) = q.head + 1 + n := by omega
    rw [hi, slots_at, Nat.add_sub_cancel]

theorem Spans.popLeft_nil (h : Spans q []) : q.popLeft = (none, q) := if_pos (h.isEmpty_iff.mpr rfl)

theorem Spans.popRight_nil (h : Spans q []) : q.popRight = (none, q) := if_pos (h.isEmpty_iff.mpr rfl)

theorem Spans.popLeft (h : Spans q (x :: xs)) : ∃ q', q.popLeft = (some x, q') ∧ Spans q' xs := by
  have hne : ¬q.isEmpty = true := fun he => List.cons_ne_nil x xs (h.isEmpty_iff.mp he)
  have hx : q.self (q.head + 1) = some x := h.peekLeft
  refine ⟨{ q with head := q.head + 1, self := Function.update q.self (q.head + 1) none }, ?_, ?_, ?_⟩
  · rw [Deque.popLeft, if_neg hne, hx]
  · have := h.tail
    simp only [List.length_cons] at this
    simp only
    omega
  · simp only
    rw [h.self, slots_popLeft]

theorem Spans.popRight (h : Spans q (xs ++ [x])) : ∃ q', q.popRight = (some x, q') ∧ Spans q' xs := by
  have hne : ¬q.isEmpty = true := fun he => by
    have := congrArg List.length (h.isEmpty_iff.mp he)
    simp only [List.length_append, List.length_singleton, List.length_nil] at this
    omega
  have hx : q.self q.tail = some x := h.peekRight.trans List.getLast?_concat
  have htail := h.tail
  rw [List.length_append, List.length_singleton] at htail
  refine ⟨{ q with tail := q.tail - 1, self := Function.update q.self q.tail none }, ?_, ?_, ?_⟩
  · rw [Deque.popRight, if_neg hne, hx]
  · simp only
    omega
  · have hend : q.tail = q.head + xs.length + 1 := by omega
    simp only
    rw [h.self, hend, slots_popRight]

theorem Spans.rotateLeftLoop (h : Spans q xs) (hne : xs ≠ []) (n : Nat) :
    ∃ q', Deque.rotateLeftLoop n q = some q' ∧ Spans q' (xs.rotate n) := by
  induction n generalizing q xs with
  | zero => exact ⟨q, rfl, (List.rotate_zero xs).symm ▸ h⟩
  | succ n ih =>
    obtain ⟨x, xs, rfl⟩ := List.exists_cons_of_ne_nil hne
    obtain ⟨q₁, hpop, h₁⟩ := h.popLeft
    obtain ⟨q₂, hpush, h₂⟩ := h₁.pushRight x
    obtain ⟨q₃, hloop, h₃⟩ := ih h₂ (List.append_ne_nil_of_right_ne_nil _ (List.cons_ne_nil _ _))
    refine ⟨q₃, ?_, (List.rotate_cons_succ ..).symm ▸ h₃⟩
    rw [Deque.rotateLeftLoop, hpop]
    simp only
    rw [hpush]
    exact hloop

theorem Spans.rotateRightLoop (h : Spans q xs) (hne : xs ≠ []) (n : Nat) :
    ∃ q', Deque.rotateRightLoop n q = some q' ∧ Spans q' (xs.reverse.rotate n).reverse := by
  induction n generalizing q xs with
  | zero => exact ⟨q, rfl, by rwa [List.rotate_zero, List.reverse_reverse]⟩
  | succ n ih =>
    rcases List.eq_nil_or_concat' xs with rfl | ⟨xs, x, rfl⟩
    · exact absurd rfl hne
    obtain ⟨q₁, hpop, h₁⟩ := h.popRight
    obtain ⟨q₂, hpush, h₂⟩ := h₁.pushLeft x
    obtain ⟨q₃, hloop, h₃⟩ := ih h₂ (List.cons_ne_nil _ _)
    refine ⟨q₃, ?_, ?_⟩
    · rw [Deque.rotateRightLoop, hpop]
      simp only
      rw [hpush]
      exact hloop
    · rwa [List.reverse_append, List.reverse_singleton, List.singleton_append, List.rotate_cons_succ,
        ← List.reverse_cons]

theorem forIn_eq {next : Int → Option α × Int} {d : Int} {ys : List α} {n : Nat} {i : Int}
    (hin : ∀ k : Nat, k < ys.length → next (i + d * k) = (ys[k]?, i + d * k + d))
    (hend : (next (i + d * ys.length)).1 = none) (hn : ys.length < n) : forIn next n i = ys := by
  induction ys generalizing n i with
  | nil =>
    obtain ⟨n, rfl⟩ : ∃ m, n = m + 1 := ⟨n - 1, by omega⟩
    simp only [List.length_nil, Int.natCast_zero, Int.mul_zero, Int.add_zero] at hend
    rw [forIn]
    cases hnext : next i with
    | mk x i' =>
      rw [hnext] at hend
      cases hend
      rfl
  | cons y ys ih =>
    obtain ⟨n, rfl⟩ : ∃ m, n = m + 1 := ⟨n - 1, by omega⟩
    have hfirst := hin 0 (Nat.zero_lt_succ _)
    rw [Int.natCast_zero, Int.mul_zero, Int.add_zero, List.getElem?_cons_zero] at hfirst
    rw [forIn, hfirst]
    have hstep : ∀ k : Nat, i + d * ((k + 1 : Nat) : Int) = i + d + d * k := by
      intro k
      rw [Int.natCast_add, Int.mul_add, Int.natCast_one, Int.mul_one]
      omega
    refine congrArg (y :: ·) (ih (fun k hk => ?_) ?_ (Nat.lt_of_succ_lt_succ hn))
    · have := hin (k + 1) (Nat.succ_lt_succ hk)
      rwa [hstep, List.getElem?_cons_succ] at this
    · rwa [List.length_cons, hstep] at hend

theorem Spans.iterLeft (h : Spans q xs) : q.iterLeft = xs := by
  have htail := h.tail
  refine forIn_eq (d := 1) (fun k hk => ?_) ?_ (by omega)
  · have hi : q.head + 1 * (k : Int) + 1 = q.head + 1 + k := by omega
    rw [nextLeft, if_pos (by omega), hi, h.self, slots_at]
  · rw [nextLeft, if_neg (by omega)]

theorem Spans.iterRight (h : Spans q xs) : q.iterRight = xs.reverse := by
  have htail := h.tail
  have hlen : xs.reverse.length = xs.length := List.length_reverse
  refine forIn_eq (d := -1) (fun k hk => ?_) ?_ (by omega)
  · rw [hlen] at hk
    have hi : q.tail + 1 + -1 * (k : Int) - 1 = q.head + 1 + ((xs.length - 1 - k : Nat) : Int) := by omega
    rw [nextRight, if_pos (by omega), hi, h.self, slots_at, List.getElem?_reverse hk, ← hi]
    rfl
  · rw [nextRight, if_neg (by omega)]

theorem Spans.contents (h : Spans q xs) : q.contents = xs :=
  Holds.contents_eq ⟨h.tail, fun k => by rw [h.self, slots_at]⟩

theorem Spans.removeAt (h : Spans q xs) {k : Nat} (hk : k < xs.length) :
    Spans (q.removeAtInternal (q.head + 1 + k)) (xs.eraseIdx k) := by
  have htail := h.tail
  refine ⟨?_, ?_⟩
  · rw [removeAtInternal, List.length_eraseIdx_of_lt hk]
    simp only
    omega
  · have hn : xs.length = k + (q.tail - (q.head + 1 + k) + 1).toNat := by omega
    rw [removeAtInternal]
    simp only
    rw [h.self, slots_closeUp hn]

theorem reverse_eraseIdx_reverse {k : Nat} (hk : k < xs.length) :
    (xs.reverse.eraseIdx k).reverse = xs.eraseIdx (xs.length - 1 - k) := by
  have hlast : xs.length - 1 - k + 1 = xs.length - k := by omega
  rw [List.eraseIdx_eq_take_drop_succ, List.eraseIdx_eq_take_drop_succ, List.take_reverse, List.drop_reverse,
    List.reverse_append, List.reverse_reverse, List.reverse_reverse, hlast, Nat.sub_add_eq, Nat.sub_right_comm]

section
variable [DecidableEq α]

/-- The search finds the first of the elements that it comes to. -/
theorem find_eq {self : Int → Option α} {step : Int} {ys : List α} {i : Int}
    (hin : ∀ k : Nat, k < ys.length → self (i + step * k) = ys[k]?) (x : α) :
    find self (some x) step ys.length i = if x ∈ ys then some (i + step * (ys.idxOf x : Nat)) else none := by
  induction ys generalizing i with
  | nil => rfl
  | cons y ys ih =>
    have hfirst := hin 0 (Nat.zero_lt_succ _)
    rw [Int.natCast_zero, Int.mul_zero, Int.add_zero, List.getElem?_cons_zero] at hfirst
    have hstep : ∀ k : Nat, i + step * ((k + 1 : Nat) : Int) = i + step + step * k := by
      intro k
      rw [Int.natCast_add, Int.mul_add, Int.natCast_one, Int.mul_one]
      omega
    have hrest := ih (i := i + step) fun k hk => by
      have := hin (k + 1) (Nat.succ_lt_succ hk)
      rwa [hstep, List.getElem?_cons_succ] at this
    rw [List.length_cons, find, hfirst, hrest]
    by_cases hy : y = x
    · subst hy
      rw [if_pos rfl, if_pos List.mem_cons_self, List.idxOf_cons_self, Int.natCast_zero, Int.mul_zero, Int.add_zero]
    · have hsome : ¬some y = some x := fun he => hy (Option.some.inj he)
      have hmem : x ∈ y :: ys ↔ x ∈ ys := by
        rw [List.mem_cons]
        exact ⟨fun hm => hm.resolve_left (Ne.symm hy), .inr⟩
      rw [if_neg hsome, List.idxOf_cons_ne _ hy, hstep]
      simp only [hmem]

theorem find_none {self : Int → Option α} {step : Int} {n : Nat} {i : Int}
    (hin : ∀ k : Nat, k < n → self (i + step * k) ≠ none) : find self none step n i = none := by
  induction n generalizing i with
  | zero => rfl
  | succ n ih =>
    have hfirst := hin 0 (Nat.zero_lt_succ _)
    rw [Int.natCast_zero, Int.mul_zero, Int.add_zero] at hfirst
    rw [find, if_neg hfirst]
    refine ih fun k hk => ?_
    have := hin (k + 1) (Nat.succ_lt_succ hk)
    rwa [Int.natCast_add, Int.mul_add, Int.natCast_one, Int.mul_one, Int.add_comm (step * k), ← Int.add_assoc] at this

theorem Spans.removeLeft (h : Spans q xs) (x : α) :
    ∃ q', q.removeLeft (some x) = (decide (x ∈ xs), q') ∧ Spans q' (xs.erase x) := by
  have hlen : (q.tail - q.head).toNat = xs.length := by
    have := h.tail
    omega
  have hfind : find q.self (some x) 1 xs.length (q.head + 1) = _ :=
    find_eq (fun k _ => by rw [Int.one_mul, h.self, slots_at]) x
  rw [Deque.removeLeft, hlen, hfind]
  by_cases hx : x ∈ xs
  · refine ⟨_, ?_, (List.erase_eq_eraseIdx_of_idxOf (l := xs) (a := x) rfl).symm ▸ h.removeAt (List.idxOf_lt_length_iff.mpr hx)⟩
    rw [if_pos hx, Int.one_mul]
    simp only [hx, decide_true]
  · refine ⟨q, ?_, (List.erase_of_not_mem hx).symm ▸ h⟩
    rw [if_neg hx]
    simp only [hx, decide_false]

theorem Spans.removeRight (h : Spans q xs) (x : α) :
    ∃ q', q.removeRight (some x) = (decide (x ∈ xs), q') ∧ Spans q' (xs.reverse.erase x).reverse := by
  have htail := h.tail
  have hlen : (q.tail - q.head).toNat = xs.reverse.length := by
    rw [List.length_reverse]
    omega
  have hfind : find q.self (some x) (-1) xs.reverse.length q.tail = _ := find_eq (fun k hk => by
    rw [List.length_reverse] at hk
    have hi : q.tail + -1 * (k : Int) = q.head + 1 + ((xs.length - 1 - k : Nat) : Int) := by omega
    rw [hi, h.self, slots_at, List.getElem?_reverse hk]) x
  rw [Deque.removeRight, hlen, hfind]
  by_cases hx : x ∈ xs
  · have hk : xs.reverse.idxOf x < xs.length := by
      have := List.idxOf_lt_length_iff.mpr (List.mem_reverse.mpr hx)
      rwa [List.length_reverse] at this
    have hi : q.tail + -1 * ((xs.reverse.idxOf x : Nat) : Int) =
        q.head + 1 + ((xs.length - 1 - xs.reverse.idxOf x : Nat) : Int) := by omega
    have herase : (xs.reverse.erase x).reverse = xs.eraseIdx (xs.length - 1 - xs.reverse.idxOf x) := by
      rw [List.erase_eq_eraseIdx_of_idxOf (l := xs.reverse) (a := x) rfl, reverse_eraseIdx_reverse hk]
    refine ⟨_, ?_, herase ▸ h.removeAt (by omega)⟩
    rw [if_pos (List.mem_reverse.mpr hx), hi]
    simp only [hx, decide_true]
  · have hx' : x ∉ xs.reverse := fun hm => hx (List.mem_reverse.mp hm)
    refine ⟨q, ?_, ?_⟩
    · rw [if_neg hx']
      simp only [hx, decide_false]
    · rwa [List.erase_of_not_mem hx', List.reverse_reverse]

theorem Spans.removeLeft_none (h : Spans q xs) : q.removeLeft none = (false, q) := by
  have htail := h.tail
  have hnone : find q.self none 1 (q.tail - q.head).toNat (q.head + 1) = none :=
    find_none fun k hk => by
      rw [Int.one_mul, h.self, slots_at, List.getElem?_eq_getElem (by omega)]
      exact Option.some_ne_none _
  rw [Deque.removeLeft, hnone]

theorem Spans.removeRight_none (h : Spans q xs) : q.removeRight none = (false, q) := by
  have htail := h.tail
  have hnone : find q.self none (-1) (q.tail - q.head).toNat q.tail = none := find_none
    fun k hk => by
      have hi : q.tail + -1 * (k : Int) = q.head + 1 + ((xs.length - 1 - k : Nat) : Int) := by omega
      rw [hi, h.self, slots_at, List.getElem?_eq_getElem (by omega)]
      exact Option.some_ne_none _
  rw [Deque.removeRight, hnone]

-- ---------------------------------------------------------------------------
-- Runs
-- ---------------------------------------------------------------------------

/-- A call on the table answers as on the list, and leaves the table of the list. -/
theorem perform_onList (h : Spans q xs) (op : Op α) :
    (q.perform op).1 = (onList xs op).1 ∧ Spans (q.perform op).2 (onList xs op).2 := by
  cases op with
  | pushRight x =>
    cases x with
    | none => exact ⟨rfl, h⟩
    | some x =>
      obtain ⟨q', hq, h'⟩ := h.pushRight x
      rw [perform, hq]
      exact ⟨rfl, h'⟩
  | pushLeft x =>
    cases x with
    | none => exact ⟨rfl, h⟩
    | some x =>
      obtain ⟨q', hq, h'⟩ := h.pushLeft x
      rw [perform, hq]
      exact ⟨rfl, h'⟩
  | peekRight => exact ⟨congrArg Answer.value h.peekRight, h⟩
  | peekLeft => exact ⟨congrArg Answer.value h.peekLeft, h⟩
  | popRight =>
    rcases List.eq_nil_or_concat' xs with rfl | ⟨xs, x, rfl⟩
    · rw [perform, h.popRight_nil]
      exact ⟨rfl, h⟩
    · obtain ⟨q', hq, h'⟩ := h.popRight
      rw [perform, hq, onList, List.getLast?_concat, List.dropLast_concat]
      exact ⟨rfl, h'⟩
  | popLeft =>
    cases xs with
    | nil =>
      rw [perform, h.popLeft_nil]
      exact ⟨rfl, h⟩
    | cons x xs =>
      obtain ⟨q', hq, h'⟩ := h.popLeft
      rw [perform, hq]
      exact ⟨rfl, h'⟩
  | rotateRight n =>
    rw [perform, onList]
    by_cases hne : xs = []
    · subst hne
      rw [if_pos (h.isEmpty_iff.mpr rfl), if_pos rfl, List.reverse_nil, List.rotate_nil]
      exact ⟨rfl, h⟩
    · obtain ⟨q', hq, h'⟩ := h.rotateRightLoop hne (n.getD 1).toNat
      rw [if_neg fun he => hne (h.isEmpty_iff.mp he), if_neg hne, hq]
      exact ⟨rfl, h'⟩
  | rotateLeft n =>
    rw [perform, onList]
    by_cases hne : xs = []
    · subst hne
      rw [if_pos (h.isEmpty_iff.mpr rfl), if_pos rfl, List.rotate_nil]
      exact ⟨rfl, h⟩
    · obtain ⟨q', hq, h'⟩ := h.rotateLeftLoop hne (n.getD 1).toNat
      rw [if_neg fun he => hne (h.isEmpty_iff.mp he), if_neg hne, hq]
      exact ⟨rfl, h'⟩
  | removeRight x =>
    cases x with
    | none =>
      rw [perform, h.removeRight_none]
      exact ⟨rfl, h⟩
    | some x =>
      obtain ⟨q', hq, h'⟩ := h.removeRight x
      rw [perform, hq]
      exact ⟨rfl, h'⟩
  | removeLeft x =>
    cases x with
    | none =>
      rw [perform, h.removeLeft_none]
      exact ⟨rfl, h⟩
    | some x =>
      obtain ⟨q', hq, h'⟩ := h.removeLeft x
      rw [perform, hq]
      exact ⟨rfl, h'⟩
  | iterRight => exact ⟨congrArg Answer.list h.iterRight, h⟩
  | iterLeft => exact ⟨congrArg Answer.list h.iterLeft, h⟩
  | length => exact ⟨congrArg Answer.number h.length_eq, h⟩
  | isEmpty =>
    refine ⟨congrArg Answer.flag ?_, h⟩
    rw [Bool.eq_iff_iff, h.isEmpty_iff, decide_eq_true_iff]
  | contents => exact ⟨congrArg Answer.list h.contents, h⟩

theorem answers_onList (h : Spans q xs) (ops : List (Op α)) :
    answers perform q ops = answers onList xs ops := by
  induction ops generalizing q xs with
  | nil => rfl
  | cons op ops ih =>
    obtain ⟨hanswer, hspans⟩ := perform_onList h op
    rw [answers, answers, hanswer, ih hspans]

/-- Every run of calls on a new queue answers as the run on the empty list does. -/
theorem queue_is_sequence (ops : List (Op α)) : answers perform (new : Deque α) ops = answers onList [] ops :=
  answers_onList spans_new ops

end

end GalaLua.Frameworks.Queue.Deque
