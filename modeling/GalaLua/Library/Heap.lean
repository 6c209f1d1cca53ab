import Mathlib.Data.List.Basic
import Mathlib.Logic.Equiv.Basic
import Mathlib.Tactic.Common

/-!
# Binary heaps

`std::push_heap` and `std::pop_heap` on the elements of a vector. The heap is a
max-heap for the comparison it is given: no element is less than a child of its.
-/

namespace GalaLua.Library.Heap

variable {α : Type} (lt : α → α → Bool)

/-- What a comparison has to be for the heap algorithms. -/
structure StrictWeak : Prop where
  asymm : ∀ {a b}, lt a b = true → lt b a = false
  negTrans : ∀ {a b c}, lt a b = false → lt b c = false → lt a c = false

/-- The elements at two positions. -/
def less (l : List α) (i j : Nat) : Bool :=
  match l[i]?, l[j]? with
  | some a, some b => lt a b
  | _, _ => false

def swap (l : List α) (i j : Nat) : List α :=
  match l[i]?, l[j]? with
  | some a, some b => (l.set i b).set j a
  | _, _ => l

def siftUp : Nat → List α → Nat → List α
  | 0, l, _ => l
  | fuel + 1, l, i =>
    if 0 < i ∧ less lt l ((i - 1) / 2) i = true then siftUp fuel (swap l ((i - 1) / 2) i) ((i - 1) / 2)
    else l

/-- The child that is not less than the other one, among the first `n`. -/
def greaterChild (l : List α) (n i : Nat) : Nat :=
  if 2 * i + 2 < n ∧ less lt l (2 * i + 2) (2 * i + 1) = false then 2 * i + 2 else 2 * i + 1

def siftDown : Nat → List α → Nat → Nat → List α
  | 0, l, _, _ => l
  | fuel + 1, l, n, i =>
    let c := greaterChild lt l n i
    if c < n ∧ less lt l i c = true then siftDown fuel (swap l i c) n c else l

/-- The last element is brought into the heap of the others. -/
def pushHeap (l : List α) : List α := siftUp lt l.length l (l.length - 1)

/-- The first element is brought to the end, behind the heap of the others. -/
def popHeap (l : List α) : List α :=
  siftDown lt l.length (swap l 0 (l.length - 1)) (l.length - 1) 0

def IsChild (i c : Nat) : Prop := c = 2 * i + 1 ∨ c = 2 * i + 2

/-- The first `n` elements are a heap. -/
def IsHeap (l : List α) (n : Nat) : Prop := ∀ i c, IsChild i c → c < n → less lt l i c = false

-- ---------------------------------------------------------------------------
-- Positions
-- ---------------------------------------------------------------------------

variable {lt} {l : List α} {n i j k c : Nat}

theorem IsChild.pos (h : IsChild i c) : i < c := by
  unfold IsChild at h
  omega

theorem IsChild.parent_eq (h : IsChild i c) : i = (c - 1) / 2 := by
  unfold IsChild at h
  omega

theorem isChild_parent (h : 0 < c) : IsChild ((c - 1) / 2) c := by
  unfold IsChild
  omega

theorem IsChild.unique (hi : IsChild i c) (hj : IsChild j c) : i = j :=
  hi.parent_eq.trans hj.parent_eq.symm

theorem less_eq (hi : i < l.length) (hj : j < l.length) : less lt l i j = lt l[i] l[j] := by
  simp only [less, List.getElem?_eq_getElem hi, List.getElem?_eq_getElem hj]

theorem swap_eq (hi : i < l.length) (hj : j < l.length) :
    swap l i j = (l.set i l[j]).set j l[i] := by
  simp only [swap, List.getElem?_eq_getElem hi, List.getElem?_eq_getElem hj]

theorem swap_perm (l : List α) (i j : Nat) : (swap l i j).Perm l := by
  unfold swap
  split
  · next a b ha hb =>
    obtain ⟨hi, rfl⟩ := List.getElem?_eq_some_iff.mp ha
    obtain ⟨hj, rfl⟩ := List.getElem?_eq_some_iff.mp hb
    exact List.set_set_perm hi hj
  · exact List.Perm.refl l

@[simp] theorem length_swap (l : List α) (i j : Nat) : (swap l i j).length = l.length :=
  (swap_perm l i j).length_eq

theorem getElem?_swap (hi : i < l.length) (hj : j < l.length) (k : Nat) :
    (swap l i j)[k]? = l[Equiv.swap i j k]? := by
  rw [swap_eq hi hj]
  by_cases hkj : k = j
  · subst hkj
    rw [Equiv.swap_apply_right, List.getElem?_set_self (by rwa [List.length_set]),
      List.getElem?_eq_getElem hi]
  · rw [List.getElem?_set_ne (Ne.symm hkj)]
    by_cases hki : k = i
    · subst hki
      rw [Equiv.swap_apply_left, List.getElem?_set_self hi, List.getElem?_eq_getElem hj]
    · rw [List.getElem?_set_ne (Ne.symm hki), Equiv.swap_apply_of_ne_of_ne hki hkj]

theorem less_swap (lt : α → α → Bool) (hi : i < l.length) (hj : j < l.length) (a b : Nat) :
    less lt (swap l i j) a b = less lt l (Equiv.swap i j a) (Equiv.swap i j b) := by
  simp only [less, getElem?_swap hi hj]

-- ---------------------------------------------------------------------------
-- The comparison
-- ---------------------------------------------------------------------------

theorem StrictWeak.irrefl (h : StrictWeak lt) (a : α) : lt a a = false := by
  cases ha : lt a a with
  | false => rfl
  | true => exact ha.symm.trans (h.asymm ha)

theorem less_self (h : StrictWeak lt) (l : List α) (i : Nat) : less lt l i i = false := by
  unfold less
  cases l[i]? with
  | none => rfl
  | some a => exact h.irrefl a

theorem less_asymm (h : StrictWeak lt) (hlt : less lt l i j = true) : less lt l j i = false := by
  unfold less at hlt ⊢
  cases hi : l[i]? with
  | none => cases l[j]? <;> rfl
  | some a =>
    cases hj : l[j]? with
    | none => rfl
    | some b =>
      simp only [hi, hj] at hlt
      exact h.asymm hlt

theorem less_negTrans (h : StrictWeak lt) (hj : j < l.length) (hij : less lt l i j = false)
    (hjk : less lt l j k = false) : less lt l i k = false := by
  unfold less at hij hjk ⊢
  rw [List.getElem?_eq_getElem hj] at hij hjk
  cases hi : l[i]? with
  | none => rfl
  | some a =>
    cases hk : l[k]? with
    | none => rfl
    | some b =>
      simp only [hi, hk] at hij hjk
      exact h.negTrans hij hjk

theorem IsHeap.front (h : StrictWeak lt) (hheap : IsHeap lt l n) (hn : n ≤ l.length) (i : Nat)
    (hi : i < n) : less lt l 0 i = false := by
  induction i using Nat.strongRecOn with
  | ind i ih =>
    rcases Nat.eq_zero_or_pos i with rfl | hpos
    · exact less_self h l 0
    · have hchild := isChild_parent hpos
      have hlt := hchild.pos
      exact less_negTrans h (by omega) (ih _ hlt (by omega)) (hheap _ i hchild hi)

-- ---------------------------------------------------------------------------
-- Sifting
-- ---------------------------------------------------------------------------

/-- A heap but for the element at `k`, which may be too great for its place. -/
structure Rising (lt : α → α → Bool) (l : List α) (n k : Nat) : Prop where
  rest : ∀ i c, IsChild i c → c < n → c ≠ k → less lt l i c = false
  grand : ∀ i c, IsChild i k → IsChild k c → c < n → less lt l i c = false

/-- A heap but for the element at `k`, which may be too small for its place. -/
structure Sinking (lt : α → α → Bool) (l : List α) (n k : Nat) : Prop where
  rest : ∀ i c, IsChild i c → c < n → i ≠ k → less lt l i c = false
  grand : ∀ i c, IsChild i k → IsChild k c → c < n → less lt l i c = false

theorem Rising.swap (h : StrictWeak lt) (hr : Rising lt l n k) (hn : n ≤ l.length) (hk : k < n)
    (hchild : IsChild i k) (hlt : less lt l i k = true) : Rising lt (swap l i k) n i := by
  have hik := hchild.pos
  have hback := less_asymm h hlt
  have hswap := less_swap lt (l := l) (show i < l.length by omega) (show k < l.length by omega)
  constructor
  · intro a c hac hc hne
    rw [hswap]
    by_cases hck : c = k
    · subst hck
      rw [hac.unique hchild, Equiv.swap_apply_left, Equiv.swap_apply_right]
      exact hback
    · rw [Equiv.swap_apply_of_ne_of_ne hne hck]
      by_cases hai : a = i
      · -- a sibling
        subst hai
        rw [Equiv.swap_apply_left]
        exact less_negTrans h (by omega) hback (hr.rest a c hac hc hck)
      · by_cases hak : a = k
        · subst hak
          rw [Equiv.swap_apply_right]
          exact hr.grand i c hchild hac hc
        · rw [Equiv.swap_apply_of_ne_of_ne hai hak]
          exact hr.rest a c hac hc hck
  · intro a c hai hic hc
    have haip := hai.pos
    have habove := hr.rest a i hai (by omega) (by omega)
    rw [hswap, Equiv.swap_apply_of_ne_of_ne (by omega) (by omega)]
    by_cases hck : c = k
    · subst hck
      rw [Equiv.swap_apply_right]
      exact habove
    · rw [Equiv.swap_apply_of_ne_of_ne (Nat.ne_of_gt hic.pos) hck]
      exact less_negTrans h (by omega) habove (hr.rest i c hic hc hck)

theorem Rising.isHeap (hr : Rising lt l n k) (hstop : ∀ i, IsChild i k → less lt l i k = false) :
    IsHeap lt l n := by
  intro i c hic hc
  by_cases hck : c = k
  · subst hck
    exact hstop i hic
  · exact hr.rest i c hic hc hck

theorem siftUp_isHeap (h : StrictWeak lt) {fuel : Nat} (hfuel : k ≤ fuel) (hr : Rising lt l n k)
    (hn : n ≤ l.length) (hk : k < n) : IsHeap lt (siftUp lt fuel l k) n := by
  induction fuel generalizing l k with
  | zero => exact hr.isHeap fun i hi => absurd hi.pos (by omega)
  | succ fuel ih =>
    unfold siftUp
    split
    · next hup =>
      obtain ⟨hpos, hlt⟩ := hup
      have hchild := isChild_parent hpos
      have hp := hchild.pos
      exact ih (by omega) (hr.swap h hn hk hchild hlt) (by rwa [length_swap]) (by omega)
    · next hup =>
      refine hr.isHeap fun i hi => ?_
      have hnot : ¬less lt l ((k - 1) / 2) k = true := fun hlt => hup ⟨by have := hi.pos; omega, hlt⟩
      rw [hi.parent_eq]
      exact (Bool.not_eq_true _).mp hnot

theorem siftUp_perm (fuel : Nat) (l : List α) (i : Nat) : (siftUp lt fuel l i).Perm l := by
  induction fuel generalizing l i with
  | zero => exact List.Perm.refl l
  | succ fuel ih =>
    unfold siftUp
    split
    · exact (ih _ _).trans (swap_perm l _ _)
    · exact List.Perm.refl l

theorem isChild_greaterChild (lt : α → α → Bool) (l : List α) (n i : Nat) :
    IsChild i (greaterChild lt l n i) := by
  unfold greaterChild
  split
  · exact .inr rfl
  · exact .inl rfl

theorem greaterChild_greatest (h : StrictWeak lt) (hc : IsChild i c) (hlt : c < n) :
    less lt l (greaterChild lt l n i) c = false := by
  unfold greaterChild
  split
  · next hright =>
    rcases hc with rfl | rfl
    · exact hright.2
    · exact less_self h l _
  · next hright =>
    rcases hc with rfl | rfl
    · exact less_self h l _
    · refine less_asymm h ?_
      exact (Bool.not_eq_false _).mp fun hfalse => hright ⟨hlt, hfalse⟩

theorem Sinking.swap (h : StrictWeak lt) (hs : Sinking lt l n k) (hn : n ≤ l.length) (hk : c < n)
    (hchild : IsChild k c) (hgreat : ∀ d, IsChild k d → d < n → less lt l c d = false)
    (hlt : less lt l k c = true) : Sinking lt (swap l k c) n c := by
  have hkc := hchild.pos
  have hswap := less_swap lt (l := l) (show k < l.length by omega) (show c < l.length by omega)
  constructor
  · intro a d had hd hne
    rw [hswap]
    by_cases hak : a = k
    · subst hak
      rw [Equiv.swap_apply_left]
      by_cases hdc : d = c
      · subst hdc
        rw [Equiv.swap_apply_right]
        exact less_asymm h hlt
      · rw [Equiv.swap_apply_of_ne_of_ne (Nat.ne_of_gt had.pos) hdc]
        exact hgreat d had hd
    · rw [Equiv.swap_apply_of_ne_of_ne hak hne]
      have hdc : d ≠ c := by
        rintro rfl
        exact hak (had.unique hchild)
      by_cases hdk : d = k
      · subst hdk
        rw [Equiv.swap_apply_left]
        exact hs.grand a c had hchild hk
      · rw [Equiv.swap_apply_of_ne_of_ne hdk hdc]
        exact hs.rest a d had hd hak
  · intro a d hac hcd hd
    rw [hswap, hac.unique hchild, Equiv.swap_apply_left,
      Equiv.swap_apply_of_ne_of_ne (by have := hcd.pos; omega) (Nat.ne_of_gt hcd.pos)]
    exact hs.rest c d hcd hd (Nat.ne_of_gt hkc)

theorem Sinking.isHeap (hs : Sinking lt l n k)
    (hstop : ∀ c, IsChild k c → c < n → less lt l k c = false) : IsHeap lt l n := by
  intro i c hic hc
  by_cases hik : i = k
  · subst hik
    exact hstop c hic hc
  · exact hs.rest i c hic hc hik

theorem siftDown_isHeap (h : StrictWeak lt) {fuel : Nat} (hfuel : n ≤ fuel + k)
    (hs : Sinking lt l n k) (hn : n ≤ l.length) : IsHeap lt (siftDown lt fuel l n k) n := by
  induction fuel generalizing l k with
  | zero => exact hs.isHeap fun c hc hlt => absurd hc.pos (by omega)
  | succ fuel ih =>
    have hchild := isChild_greaterChild lt l n k
    have hpos := hchild.pos
    have hgreat := fun d => greaterChild_greatest (l := l) (n := n) (i := k) (c := d) h
    unfold siftDown
    dsimp only
    split
    · next hdown =>
      refine ih (by omega) (hs.swap h hn hdown.1 hchild hgreat hdown.2) ?_
      rwa [length_swap]
    · next hdown =>
      refine hs.isHeap fun c hc hlt => ?_
      by_cases hin : greaterChild lt l n k < n
      · refine less_negTrans h (by omega) ?_ (hgreat c hc hlt)
        exact (Bool.not_eq_true _).mp fun htrue => hdown ⟨hin, htrue⟩
      · -- the greater child is the first one when only that is inside
        unfold greaterChild at hin
        unfold IsChild at hc
        split at hin <;> omega

theorem siftDown_perm (fuel : Nat) (l : List α) (n i : Nat) : (siftDown lt fuel l n i).Perm l := by
  induction fuel generalizing l i with
  | zero => exact List.Perm.refl l
  | succ fuel ih =>
    unfold siftDown
    dsimp only
    split
    · exact (ih _ _).trans (swap_perm l _ _)
    · exact List.Perm.refl l

theorem getElem?_siftDown (fuel : Nat) (hn : n ≤ l.length) (hk : n ≤ k) :
    (siftDown lt fuel l n i)[k]? = l[k]? := by
  induction fuel generalizing l i with
  | zero => rfl
  | succ fuel ih =>
    unfold siftDown
    dsimp only
    split
    · next hdown =>
      have hpos := (isChild_greaterChild lt l n i).pos
      obtain ⟨hin, -⟩ := hdown
      rw [ih (by rwa [length_swap]), getElem?_swap (by omega) (by omega),
        Equiv.swap_apply_of_ne_of_ne (by omega) (by omega)]
    · rfl

-- ---------------------------------------------------------------------------
-- The algorithms
-- ---------------------------------------------------------------------------

theorem pushHeap_perm (l : List α) : (pushHeap lt l).Perm l := siftUp_perm _ l _

theorem popHeap_perm (l : List α) : (popHeap lt l).Perm l :=
  (siftDown_perm _ _ _ _).trans (swap_perm l _ _)

theorem less_append (hi : i < l.length) (hj : j < l.length) (m : List α) :
    less lt (l ++ m) i j = less lt l i j := by
  simp only [less, List.getElem?_append_left hi, List.getElem?_append_left hj]

theorem IsHeap.push (h : StrictWeak lt) (hheap : IsHeap lt l l.length) (x : α) :
    IsHeap lt (pushHeap lt (l ++ [x])) (l.length + 1) := by
  have hlen : (l ++ [x]).length = l.length + 1 := by rw [List.length_append, List.length_singleton]
  unfold pushHeap
  rw [hlen, Nat.add_sub_cancel]
  refine siftUp_isHeap h (Nat.le_succ _) ⟨fun i c hic hc hne => ?_, fun i c _ hkc hc => ?_⟩
    (Nat.le_of_eq hlen.symm) (Nat.lt_succ_self _)
  · have hpos := hic.pos
    rw [less_append (by omega) (by omega)]
    exact hheap i c hic (by omega)
  · exact absurd hkc.pos (by omega)

/-- `pop_heap` and `pop_back`: the front is gone and the others are a heap. -/
theorem IsHeap.pop (h : StrictWeak lt) {a : α} (hheap : IsHeap lt (a :: l) (l.length + 1)) :
    IsHeap lt (popHeap lt (a :: l)).dropLast l.length ∧
      ((popHeap lt (a :: l)).dropLast).Perm l := by
  have hlen : (popHeap lt (a :: l)).length = l.length + 1 := (popHeap_perm _).length_eq
  have hswap := length_swap (a :: l) 0 l.length
  have hlast : (popHeap lt (a :: l))[l.length]? = some a := by
    unfold popHeap
    rw [List.length_cons, Nat.add_sub_cancel,
      getElem?_siftDown _ (by rw [hswap]; exact Nat.le_succ _) (Nat.le_refl _),
      getElem?_swap (Nat.succ_pos _) (Nat.lt_succ_self _), Equiv.swap_apply_right]
    rfl
  have hsplit : (popHeap lt (a :: l)).dropLast ++ [a] = popHeap lt (a :: l) := by
    have hne : popHeap lt (a :: l) ≠ [] := List.ne_nil_of_length_pos (by omega)
    have heq : (popHeap lt (a :: l)).getLast hne = a := by
      rw [List.getLast_eq_getElem]
      have := (List.getElem?_eq_some_iff.mp hlast).2
      simpa only [hlen, Nat.add_sub_cancel] using this
    have hall := List.dropLast_append_getLast hne
    rwa [heq] at hall
  constructor
  · have hfull : IsHeap lt (popHeap lt (a :: l)) l.length := by
      unfold popHeap
      rw [List.length_cons, Nat.add_sub_cancel]
      refine siftDown_isHeap h (by omega) ⟨fun i c hic hc hne => ?_, fun i c hi => absurd hi.pos (by omega)⟩
        (by rw [hswap]; exact Nat.le_succ _)
      have hpos := hic.pos
      rw [less_swap lt (Nat.succ_pos _) (Nat.lt_succ_self _), Equiv.swap_apply_of_ne_of_ne hne (by omega),
        Equiv.swap_apply_of_ne_of_ne (by omega) (by omega)]
      exact hheap i c hic (by omega)
    intro i c hic hc
    have hpos := hic.pos
    have hdrop : (popHeap lt (a :: l)).dropLast.length = l.length := by rw [List.length_dropLast, hlen]; rfl
    have := hfull i c hic hc
    rwa [← hsplit, less_append (by omega) (by omega)] at this
  · have hperm : ((popHeap lt (a :: l)).dropLast ++ [a]).Perm (a :: l) := by
      rw [hsplit]
      exact popHeap_perm _
    exact ((List.perm_append_singleton a _).symm.trans hperm).cons_inv

end GalaLua.Library.Heap
