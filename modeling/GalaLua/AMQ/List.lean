import GalaLua.Library.Chain
import Mathlib.Data.List.Basic

/-!
# The self-relative list

`CSQList` keeps a count and two links, and its elements keep one link each.
A link is the distance in bytes from the object that stores it to the object
it denotes, with 0 for NULL, so that a media can be mapped anywhere. Addresses
and links are exact integers here.

`CSQList.Repr` relates the stored words to the sequence they stand for; each
operation has one lemma that says what it does to the sequence, and one that
says which cells of the memory it relinks.
-/

namespace GalaLua.AMQ

open Library (Chain)

-- ---------------------------------------------------------------------------
-- Links
-- ---------------------------------------------------------------------------

/-- The word stored in the object at `self` to denote `p`. -/
def offset (self : Int) : Option Int → Int
  | none => 0
  | some a => a - self

/-- The object denoted by the word `d` stored in the object at `self`. -/
def pointer (self d : Int) : Option Int :=
  if d = 0 then none else some (self + d)

@[simp] theorem pointer_zero (self : Int) : pointer self 0 = none := rfl

theorem pointer_offset {self : Int} {p : Option Int} (h : p ≠ some self) :
    pointer self (offset self p) = p := by
  cases p with
  | none => rfl
  | some a =>
    have ha : a - self ≠ 0 := fun h0 => h (by rw [show a = self by omega])
    simp only [offset, pointer, ha, if_false, Option.some.injEq]
    omega

theorem pointer_eq_some {self d a : Int} : pointer self d = some a ↔ d ≠ 0 ∧ d = a - self := by
  unfold pointer
  split
  · simp_all
  · simp only [Option.some.injEq]
    omega

theorem pointer_eq_none {self d : Int} : pointer self d = none ↔ d = 0 := by
  unfold pointer
  split <;> simp_all

theorem pointer_injective {self d e : Int} (h : pointer self d = pointer self e) : d = e := by
  unfold pointer at h
  split at h <;> split at h <;> simp_all

/-- What the list template asks of its element type: a `_Next` link. -/
class Linked (E : Type) where
  next : E → Int
  setNext : Int → E → E
  next_setNext : ∀ d e, next (setNext d e) = d
  setNext_next : ∀ e, setNext (next e) e = e
  setNext_setNext : ∀ c d e, setNext c (setNext d e) = setNext c e

attribute [simp] Linked.next_setNext Linked.setNext_next Linked.setNext_setNext

variable {E : Type} [Linked E]

/-- `_T_::Next()`. -/
def nextPtr (mem : Int → E) (a : Int) : Option Int :=
  pointer a (Linked.next (mem a))

/-- `_T_::Next(p)`. -/
def setNextPtr (mem : Int → E) (a : Int) (p : Option Int) : Int → E :=
  Function.update mem a (Linked.setNext (offset a p) (mem a))

variable {mem mem' mem'' : Int → E} {a b this : Int} {p : Option Int} {xs : List Int}

theorem setNextPtr_of_ne (h : b ≠ a) : setNextPtr mem a p b = mem b := by
  simp [setNextPtr, h]

theorem nextPtr_setNextPtr_self (h : p ≠ some a) : nextPtr (setNextPtr mem a p) a = p := by
  simp [nextPtr, setNextPtr, pointer_offset h]

theorem nextPtr_setNextPtr_of_ne (h : b ≠ a) : nextPtr (setNextPtr mem a p) b = nextPtr mem b := by
  simp [nextPtr, setNextPtr_of_ne h]

/-- Only the links of the cells in `xs` differ. -/
def Relinked (mem mem' : Int → E) (xs : List Int) : Prop :=
  (∀ b, b ∉ xs → mem' b = mem b) ∧ ∀ b, ∃ d, mem' b = Linked.setNext d (mem b)

theorem Relinked.refl (mem : Int → E) (xs : List Int) : Relinked mem mem xs :=
  ⟨fun _ _ => rfl, fun b => ⟨Linked.next (mem b), by simp⟩⟩

theorem Relinked.mono {ys : List Int} (h : Relinked mem mem' xs) (hs : ∀ a ∈ xs, a ∈ ys) :
    Relinked mem mem' ys :=
  ⟨fun b hb => h.1 b fun hx => hb (hs b hx), h.2⟩

theorem Relinked.trans (h : Relinked mem mem' xs) (h' : Relinked mem' mem'' xs) :
    Relinked mem mem'' xs := by
  refine ⟨fun b hb => (h'.1 b hb).trans (h.1 b hb), fun b => ?_⟩
  obtain ⟨d, hd⟩ := h.2 b
  obtain ⟨e, he⟩ := h'.2 b
  exact ⟨e, by rw [he, hd, Linked.setNext_setNext]⟩

theorem relinked_setNextPtr (h : a ∈ xs) : Relinked mem (setNextPtr mem a p) xs := by
  refine ⟨fun b hb => setNextPtr_of_ne fun hba => hb (hba ▸ h), fun b => ?_⟩
  rcases eq_or_ne b a with rfl | hb
  · exact ⟨offset b p, by simp [setNextPtr]⟩
  · exact ⟨_, by rw [setNextPtr_of_ne hb, Linked.setNext_next]⟩

-- ---------------------------------------------------------------------------
-- The list
-- ---------------------------------------------------------------------------

structure CSQList where
  total : Nat
  first : Int
  last : Int
  deriving DecidableEq, Repr

def CSQList.init : CSQList := ⟨0, 0, 0⟩

def CSQList.count (l : CSQList) : Nat := l.total

/-- Take the first element off the list at `this`. A count above zero with no
first element does not occur; the source would read through NULL there. -/
def CSQList.get (this : Int) (l : CSQList) (mem : Int → E) : Option Int × CSQList × (Int → E) :=
  if 0 < l.total then
    match pointer this l.first with
    | none => (none, l, mem)
    | some n =>
      let first := if l.first = l.last then 0 else offset this (nextPtr mem n)
      let last := if l.first = l.last then 0 else l.last
      (some n, ⟨l.total - 1, first, last⟩, setNextPtr mem n none)
  else (none, l, mem)

def CSQList.put2Head (this : Int) (l : CSQList) (mem : Int → E) (n : Int) :
    CSQList × (Int → E) :=
  let last := if l.first = 0 then offset this (some n) else l.last
  (⟨l.total + 1, offset this (some n), last⟩, setNextPtr mem n (pointer this l.first))

def CSQList.put2Tail (this : Int) (l : CSQList) (mem : Int → E) (n : Int) :
    CSQList × (Int → E) :=
  let first := if l.first = 0 then offset this (some n) else l.first
  let mem := setNextPtr mem n none
  let mem := match pointer this l.last with
    | none => mem
    | some tail => setNextPtr mem tail (some n)
  (⟨l.total + 1, first, offset this (some n)⟩, mem)

/-- The list at `this`, with its elements' links in `mem`, stands for `xs`. -/
structure CSQList.Repr (this : Int) (l : CSQList) (mem : Int → E) (xs : List Int) : Prop where
  total : l.total = xs.length
  chain : Chain (nextPtr mem) (pointer this l.first) xs
  last : pointer this l.last = xs.getLast?
  outside : this ∉ xs

namespace CSQList

variable {l : CSQList}

theorem repr_init (this : Int) (mem : Int → E) : Repr this init mem [] :=
  ⟨rfl, rfl, rfl, by simp⟩

theorem Repr.congr (h : Repr this l mem xs)
    (hn : ∀ a ∈ xs, Linked.next (mem' a) = Linked.next (mem a)) : Repr this l mem' xs :=
  ⟨h.total, h.chain.congr fun a ha => by simp [nextPtr, hn a ha], h.last, h.outside⟩

theorem Repr.frame {ys : List Int} (h : Repr this l mem xs) (hr : Relinked mem mem' ys)
    (hd : ∀ a ∈ xs, a ∉ ys) : Repr this l mem' xs :=
  h.congr fun a ha => by rw [hr.1 a (hd a ha)]

theorem Repr.nodup (h : Repr this l mem xs) : xs.Nodup := h.chain.nodup

theorem Repr.count_eq (h : Repr this l mem xs) : l.count = xs.length := h.total

theorem Repr.get_nil (h : Repr this l mem []) : l.get this mem = (none, l, mem) := by
  simp [get, h.total]

theorem Repr.get_cons (h : Repr this l mem (a :: xs)) :
    ∃ l', l.get this mem = (some a, l', setNextPtr mem a none) ∧
      Repr this l' (setNextPtr mem a none) xs := by
  have hfirst : pointer this l.first = some a := h.chain.1
  have hnot : a ∉ xs := (List.nodup_cons.mp h.nodup).1
  have hthis : this ∉ xs := fun hx => h.outside (List.mem_cons_of_mem _ hx)
  have htail : Chain (nextPtr (setNextPtr mem a none)) (nextPtr mem a) xs :=
    h.chain.2.congr fun b hb => nextPtr_setNextPtr_of_ne fun hba => hnot (hba ▸ hb)
  refine ⟨_, by simp only [get, h.total, hfirst, List.length_cons, Nat.succ_pos, if_true]; rfl, ?_⟩
  -- `_First == _Last` decides whether `a` was the only element
  cases xs with
  | nil =>
    have hsame : l.first = l.last := pointer_injective (hfirst.trans h.last.symm)
    exact ⟨by simp, by simp [hsame], by simp [hsame], by simp⟩
  | cons b ys =>
    have hdiff : l.first ≠ l.last := by
      intro heq
      have hlast := h.last
      rw [← heq, hfirst, List.getLast?_cons_cons] at hlast
      exact hnot (List.mem_of_getLast? hlast.symm)
    have hb : nextPtr mem a = some b := h.chain.2.1
    simp only [hdiff, if_false]
    refine ⟨by simp, ?_, ?_, hthis⟩
    · rw [pointer_offset]
      · exact htail
      · rw [hb]
        rintro ⟨⟩
        exact hthis List.mem_cons_self
    · exact h.last.trans List.getLast?_cons_cons

theorem Repr.put2Head (h : Repr this l mem xs) (ha : a ∉ xs) (hthis : a ≠ this) :
    Repr this (l.put2Head this mem a).1 (l.put2Head this mem a).2 (a :: xs) := by
  have hself : pointer this l.first ≠ some a := by
    intro hp
    cases xs with
    | nil => exact absurd (h.chain.symm.trans hp) (by simp)
    | cons b ys =>
      rw [h.chain.1] at hp
      exact ha (Option.some.inj hp ▸ List.mem_cons_self)
  refine ⟨by simp [CSQList.put2Head, h.total], ⟨?_, ?_⟩, ?_, ?_⟩
  · exact pointer_offset fun hp => hthis (Option.some.inj hp)
  · simp only [CSQList.put2Head, nextPtr_setNextPtr_self hself]
    exact h.chain.congr fun b hb => nextPtr_setNextPtr_of_ne fun hba => ha (hba ▸ hb)
  · cases xs with
    | nil =>
      have h0 : l.first = 0 := pointer_eq_none.mp h.chain
      simp only [CSQList.put2Head, h0, if_true]
      exact pointer_offset fun hp => hthis (Option.some.inj hp)
    | cons b ys =>
      have h0 : l.first ≠ 0 := (pointer_eq_some.mp h.chain.1).1
      simp only [CSQList.put2Head, h0, if_false, h.last, List.getLast?_cons_cons]
  · simp only [List.mem_cons, not_or]
    exact ⟨Ne.symm hthis, h.outside⟩

theorem Repr.put2Tail (h : Repr this l mem xs) (ha : a ∉ xs) (hthis : a ≠ this) :
    Repr this (l.put2Tail this mem a).1 (l.put2Tail this mem a).2 (xs ++ [a]) := by
  have hptr : pointer this (offset this (some a)) = some a :=
    pointer_offset fun hp => hthis (Option.some.inj hp)
  have hout : this ∉ xs ++ [a] := by
    simp only [List.mem_append, List.mem_singleton, not_or]
    exact ⟨h.outside, Ne.symm hthis⟩
  rcases List.eq_nil_or_concat' xs with rfl | ⟨ys, b, rfl⟩
  · have h0 : l.first = 0 := pointer_eq_none.mp h.chain
    have h1 : pointer this l.last = none := h.last
    refine ⟨by simp [CSQList.put2Tail, h.total], ?_, by simp [CSQList.put2Tail, hptr], hout⟩
    simp only [CSQList.put2Tail, h0, h1, if_true, List.nil_append, Library.chain_cons, hptr,
      Library.chain_nil, true_and]
    exact nextPtr_setNextPtr_self (by simp)
  · have h1 : pointer this l.last = some b := by rw [h.last]; simp
    have h0 : l.first ≠ 0 := by
      intro hz
      have hc := h.chain
      rw [hz] at hc
      cases ys <;> simp at hc
    have hba : b ≠ a := fun hba => ha (by simp [hba])
    refine ⟨by simp [CSQList.put2Tail, h.total], ?_, by simp [CSQList.put2Tail, hptr], hout⟩
    simp only [CSQList.put2Tail, h0, h1, if_false]
    refine Chain.snoc h.chain ha ?_ ?_ fun c hc => ?_
    · exact nextPtr_setNextPtr_self fun hp => hba (Option.some.inj hp).symm
    · rw [nextPtr_setNextPtr_of_ne hba.symm]
      exact nextPtr_setNextPtr_self (by simp)
    · have hnd := List.nodup_append.mp h.nodup
      have hcb : c ≠ b := hnd.2.2 c hc b (List.mem_singleton.mpr rfl)
      have hca : c ≠ a := fun hca => ha (by simp [← hca, hc])
      rw [nextPtr_setNextPtr_of_ne hcb, nextPtr_setNextPtr_of_ne hca]

theorem put2Head_relinked (h : a ∈ xs) : Relinked mem (l.put2Head this mem a).2 xs :=
  relinked_setNextPtr h

theorem Repr.put2Tail_relinked (h : Repr this l mem xs) :
    Relinked mem (l.put2Tail this mem a).2 (a :: xs) := by
  have h1 : Relinked mem (setNextPtr mem a none) (a :: xs) :=
    relinked_setNextPtr List.mem_cons_self
  simp only [CSQList.put2Tail]
  cases hp : pointer this l.last with
  | none => exact h1
  | some b =>
    rw [h.last] at hp
    exact h1.trans (relinked_setNextPtr (List.mem_cons_of_mem _ (List.mem_of_getLast? hp)))

end CSQList

end GalaLua.AMQ
