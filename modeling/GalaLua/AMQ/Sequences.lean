import GalaLua.AMQ.Media
import GalaLua.Library.Transition

/-!
# Lists and sequences

Any number of lists over one memory of elements, run side by side with the sequences
that they stand for. An element that is in no list may be chained by its `_Next`, as
the allocator does with pages. Whatever is done, every list that was set up stands for
its sequence (`list_refines_sequence`).
-/

namespace GalaLua.AMQ.Sequences

open Library (Chain Reach)

-- ---------------------------------------------------------------------------
-- Lists in memory
-- ---------------------------------------------------------------------------

inductive Op where
  | init (this : Int)
  | put2Head (this n : Int)
  | put2Tail (this n : Int)
  | get (this : Int)
  /-- `n.Next(p)` -/
  | next (n : Int) (p : Option Int)

structure Store (E : Type) where
  list : Int → CSQList
  mem : Int → E

variable {E : Type} [Linked E]

namespace Store

def set (s : Store E) (this : Int) (l : CSQList) (mem : Int → E) : Store E :=
  ⟨Function.update s.list this l, mem⟩

/-- What the operation returns, and the memory after it. -/
def run (s : Store E) : Op → Option Int × Store E
  | .init this => (none, s.set this .init s.mem)
  | .put2Head this n =>
    let r := (s.list this).put2Head this s.mem n
    (none, s.set this r.1 r.2)
  | .put2Tail this n =>
    let r := (s.list this).put2Tail this s.mem n
    (none, s.set this r.1 r.2)
  | .get this =>
    let r := (s.list this).get this s.mem
    (r.1, s.set this r.2.1 r.2.2)
  | .next n p => (none, { s with mem := setNextPtr s.mem n p })

end Store

-- ---------------------------------------------------------------------------
-- Sequences
-- ---------------------------------------------------------------------------

abbrev Seqs := Int → Option (List Int)

namespace Seqs

def run (a : Seqs) : Op → Option Int × Seqs
  | .init this => (none, Function.update a this (some []))
  | .put2Head this n => (none, Function.update a this ((a this).map (n :: ·)))
  | .put2Tail this n => (none, Function.update a this ((a this).map (· ++ [n])))
  | .get this => (((a this).bind List.head?), Function.update a this ((a this).map List.tail))
  | .next _ _ => (none, a)

def Member (a : Seqs) (n : Int) : Prop := ∃ this xs, a this = some xs ∧ n ∈ xs

/-- Lists are set up before they are used, and an element that is inserted or chained is
in no list. `IsList` are the addresses of the lists, where no element is. -/
def Allowed (IsList : Int → Prop) (a : Seqs) : Op → Prop
  | .init this => IsList this
  | .put2Head this n => (a this).isSome ∧ ¬ IsList n ∧ ¬ a.Member n
  | .put2Tail this n => (a this).isSome ∧ ¬ IsList n ∧ ¬ a.Member n
  | .get this => (a this).isSome
  | .next n _ => ¬ a.Member n

end Seqs

variable {IsList : Int → Prop} {s : Store E} {a : Seqs} {this n : Int} {xs : List Int} {op : Op}

/-- Every list stands for its sequence, and no element is in two of them. -/
structure Represents (IsList : Int → Prop) (s : Store E) (a : Seqs) : Prop where
  repr : ∀ {this xs}, a this = some xs → (s.list this).Repr this s.mem xs
  isList : ∀ {this xs}, a this = some xs → IsList this
  element : ∀ {this xs n}, a this = some xs → n ∈ xs → ¬ IsList n
  disjoint : ∀ {this this' xs xs' n}, a this = some xs → a this' = some xs' → n ∈ xs → n ∈ xs' → this = this'

-- ---------------------------------------------------------------------------
-- One operation
-- ---------------------------------------------------------------------------

/-- One list changes, by links of its own elements and of elements in no list. -/
theorem Represents.set (h : Represents IsList s a) {l : CSQList} {mem : Int → E} {ys : List Int} (hthis : IsList this)
    (hl : l.Repr this mem xs) (hrel : Relinked s.mem mem ys)
    (hys : ∀ m ∈ ys, (∃ zs, a this = some zs ∧ m ∈ zs) ∨ ¬ a.Member m)
    (hxs : ∀ m ∈ xs, (∃ zs, a this = some zs ∧ m ∈ zs) ∨ (¬ IsList m ∧ ¬ a.Member m)) :
    Represents IsList (s.set this l mem) (Function.update a this (some xs)) where
  repr {this' zs} hzs := by
    by_cases heq : this' = this
    · subst heq
      rw [Function.update_self] at hzs
      cases hzs
      simp only [Store.set, Function.update_self]
      exact hl
    · rw [Function.update_of_ne heq] at hzs
      simp only [Store.set, Function.update_of_ne heq]
      refine (h.repr hzs).frame hrel fun m hm hmy => ?_
      rcases hys m hmy with ⟨zs', hzs', hm'⟩ | hout
      · exact heq (h.disjoint hzs hzs' hm hm')
      · exact hout ⟨this', zs, hzs, hm⟩
  isList {this' zs} hzs := by
    by_cases heq : this' = this
    · rw [heq]
      exact hthis
    · rw [Function.update_of_ne heq] at hzs
      exact h.isList hzs
  element {this' zs m} hzs hm := by
    by_cases heq : this' = this
    · subst heq
      rw [Function.update_self] at hzs
      cases hzs
      rcases hxs m hm with ⟨zs, hzs, hm⟩ | ⟨hm, -⟩
      · exact h.element hzs hm
      · exact hm
    · rw [Function.update_of_ne heq] at hzs
      exact h.element hzs hm
  disjoint {this₁ this₂ zs₁ zs₂ m} h₁ h₂ hm₁ hm₂ := by
    -- an element of the list that changed was in it or in none before
    have hold : ∀ {this' zs}, this' ≠ this → a this' = some zs → m ∈ zs → m ∈ xs → False := by
      intro this' zs hne hzs hm hmx
      rcases hxs m hmx with ⟨zs', hzs', hm'⟩ | ⟨-, hout⟩
      · exact hne (h.disjoint hzs hzs' hm hm')
      · exact hout ⟨this', zs, hzs, hm⟩
    by_cases heq₁ : this₁ = this
    · by_cases heq₂ : this₂ = this
      · rw [heq₁, heq₂]
      · subst heq₁
        rw [Function.update_self] at h₁
        rw [Function.update_of_ne heq₂] at h₂
        cases h₁
        exact (hold heq₂ h₂ hm₂ hm₁).elim
    · rw [Function.update_of_ne heq₁] at h₁
      by_cases heq₂ : this₂ = this
      · subst heq₂
        rw [Function.update_self] at h₂
        cases h₂
        exact (hold heq₁ h₁ hm₁ hm₂).elim
      · rw [Function.update_of_ne heq₂] at h₂
        exact h.disjoint h₁ h₂ hm₁ hm₂

theorem Represents.run_get (h : Represents IsList s a) (hxs : a this = some xs) :
    (s.run (.get this)).1 = xs.head? ∧
      Represents IsList (s.run (.get this)).2 (Function.update a this (some xs.tail)) := by
  have hrepr := h.repr hxs
  have hthis := h.isList hxs
  cases xs with
  | nil =>
    have hget := hrepr.get_nil
    refine ⟨by simp only [Store.run, hget, List.head?_nil], ?_⟩
    simp only [Store.run, hget]
    exact h.set hthis hrepr (.refl s.mem []) (by simp) (by simp)
  | cons n xs =>
    obtain ⟨l, hget, hl⟩ := hrepr.get_cons
    refine ⟨by simp only [Store.run, hget, List.head?_cons], ?_⟩
    simp only [Store.run, hget]
    refine h.set hthis hl (@relinked_setNextPtr _ _ _ _ _ [n] (by simp)) (fun m hm => ?_) fun m hm => ?_
    · rw [List.mem_singleton] at hm
      exact .inl ⟨_, hxs, hm ▸ List.mem_cons_self⟩
    · exact .inl ⟨_, hxs, List.mem_cons_of_mem _ hm⟩

/-- One operation: the same result, and again a representation. -/
theorem Represents.run (h : Represents IsList s a) (hop : a.Allowed IsList op) :
    (s.run op).1 = (a.run op).1 ∧ Represents IsList (s.run op).2 (a.run op).2 := by
  cases op with
  | init this => exact ⟨rfl, h.set hop (CSQList.repr_init this s.mem) (.refl s.mem []) (by simp) (by simp)⟩
  | put2Head this n =>
    obtain ⟨hset, hn, hout⟩ := hop
    obtain ⟨xs, hxs⟩ := Option.isSome_iff_exists.mp hset
    have hne : n ≠ this := fun heq => hn (heq ▸ h.isList hxs)
    have hnot : n ∉ xs := fun hm => hout ⟨this, xs, hxs, hm⟩
    refine ⟨rfl, ?_⟩
    simp only [Seqs.run, hxs, Option.map_some]
    refine h.set (h.isList hxs) ((h.repr hxs).put2Head hnot hne) (@CSQList.put2Head_relinked _ _ _ _ _ [n] _ (by simp))
      (fun m hm => .inr ?_) fun m hm => ?_
    · rw [List.mem_singleton.mp hm]
      exact hout
    · rcases List.mem_cons.mp hm with rfl | hm
      · exact .inr ⟨hn, hout⟩
      · exact .inl ⟨xs, hxs, hm⟩
  | put2Tail this n =>
    obtain ⟨hset, hn, hout⟩ := hop
    obtain ⟨xs, hxs⟩ := Option.isSome_iff_exists.mp hset
    have hne : n ≠ this := fun heq => hn (heq ▸ h.isList hxs)
    have hnot : n ∉ xs := fun hm => hout ⟨this, xs, hxs, hm⟩
    refine ⟨rfl, ?_⟩
    simp only [Seqs.run, hxs, Option.map_some]
    refine h.set (h.isList hxs) ((h.repr hxs).put2Tail hnot hne) (h.repr hxs).put2Tail_relinked
      (fun m hm => ?_) fun m hm => ?_
    · rcases List.mem_cons.mp hm with rfl | hm
      · exact .inr hout
      · exact .inl ⟨xs, hxs, hm⟩
    · rcases List.mem_append.mp hm with hm | hm
      · exact .inl ⟨xs, hxs, hm⟩
      · rw [List.mem_singleton.mp hm]
        exact .inr ⟨hn, hout⟩
  | get this =>
    obtain ⟨xs, hxs⟩ := Option.isSome_iff_exists.mp hop
    simp only [Seqs.run, hxs, Option.bind_some, Option.map_some]
    exact h.run_get hxs
  | next n p =>
    refine ⟨rfl, fun hxs => (h.repr hxs).frame (@relinked_setNextPtr _ _ _ _ _ [n] (by simp)) fun m hm hmn => ?_, h.isList,
      h.element, h.disjoint⟩
    exact hop ⟨_, _, hxs, List.mem_singleton.mp hmn ▸ hm⟩

-- ---------------------------------------------------------------------------
-- Runs
-- ---------------------------------------------------------------------------

/-- Both sides take the operation. -/
def step (p : Store E × Seqs) (op : Op) : Option (Store E × Seqs) := some ((p.1.run op).2, (p.2.run op).2)

theorem reach_represents {s₀ : Store E} {p : Store E × Seqs}
    (h : Reach step (fun p op => p.2.Allowed IsList op) (s₀, fun _ => none) p) : Represents IsList p.1 p.2 := by
  refine h.invariant (I := fun p => Represents IsList p.1 p.2) ?_ ?_
  · exact ⟨nofun, nofun, nofun, nofun⟩
  · rintro p op p' hrep hop hstep
    cases hstep
    exact (hrep.run hop).2

/-- The words of a list, read off the sequence. -/
structure Words (this : Int) (l : CSQList) (mem : Int → E) (xs : List Int) : Prop where
  total : l.total = xs.length
  first : l.first = 0 ↔ l.last = 0
  empty : l.last = 0 ↔ l.total = 0
  distinct : xs.Nodup
  chain : Chain (nextPtr mem) (pointer this l.first) xs
  last : pointer this l.last = xs.getLast?
  end_next : ∀ n, xs.getLast? = some n → Linked.next (mem n) = 0

theorem words_of_repr {l : CSQList} {mem : Int → E} (h : l.Repr this mem xs) : Words this l mem xs := by
  have hfirst : l.first = 0 ↔ xs = [] := by
    rw [← @pointer_eq_none this]
    cases xs with
    | nil => exact iff_of_true h.chain rfl
    | cons n xs => exact iff_of_false (by rw [h.chain.1]; simp) (by simp)
  have hlast : l.last = 0 ↔ xs = [] := by rw [← @pointer_eq_none this, h.last, List.getLast?_eq_none_iff]
  refine ⟨h.total, hfirst.trans hlast.symm, ?_, h.nodup, h.chain, h.last, fun n hn => ?_⟩
  · rw [hlast, h.total, List.length_eq_zero_iff]
  · obtain ⟨ys, rfl⟩ := List.getLast?_eq_some_iff.mp hn
    exact pointer_eq_none.mp h.chain.drop.2

/-- In every run of the operations, each list that was set up has the words of its
sequence; every operation returns what it returns on the sequences, and `Get` on an empty
list changes nothing. -/
theorem list_refines_sequence (E : Type) [Linked E] (IsList : Int → Prop) (s₀ s : Store E) (a : Seqs)
    (h : Reach step (fun p op => p.2.Allowed IsList op) (s₀, fun _ => none) (s, a)) :
    (∀ this xs, a this = some xs → Words this (s.list this) s.mem xs) ∧
      (∀ op, a.Allowed IsList op → (s.run op).1 = (a.run op).1) ∧
      ∀ this, a this = some [] → s.run (.get this) = (none, s) := by
  have hrep := reach_represents h
  refine ⟨fun this xs hxs => words_of_repr (hrep.repr hxs), fun op hop => (hrep.run hop).1, fun this hnil => ?_⟩
  have hget := (hrep.repr hnil).get_nil
  simp only [Store.run, hget, Store.set, Function.update_eq_self]

theorem not_member_update (h : ¬ a.Member n) (hn : n ∉ xs) : ¬ Seqs.Member (Function.update a this (some xs)) n := by
  rintro ⟨this', ys, hys, hmem⟩
  by_cases heq : this' = this
  · subst heq
    rw [Function.update_self] at hys
    cases hys
    exact hn hmem
  · rw [Function.update_of_ne heq] at hys
    exact h ⟨this', ys, hys, hmem⟩

/-- The list at 0 with the nodes at 24 and 12, of which the first is taken off. -/
theorem words_after_get :
    let s₀ : Store CSQNode := ⟨fun _ => .init, fun _ => .init⟩
    let s := ((((s₀.run (.init 0)).2.run (.put2Tail 0 12)).2.run (.put2Head 0 24)).2.run (.get 0)).2
    Words 0 (s.list 0) s.mem [12] := by
  intro s₀ s
  have hnone : ∀ n, ¬ Seqs.Member (fun _ => none) n := nofun
  have hinit : Reach step (fun p op => p.2.Allowed (· = 0) op) (s₀, fun _ => none) _ :=
    Reach.init.next (a := Op.init 0) (show (0 : Int) = 0 from rfl) rfl
  have hallowed : Seqs.Allowed (· = 0) (Function.update (fun _ => none) 0 (some [])) (.put2Tail 0 12) :=
    ⟨rfl, by decide, not_member_update (hnone 12) (by decide)⟩
  have htail := hinit.next (a := Op.put2Tail 0 12) hallowed rfl
  have hallowed' : Seqs.Allowed (· = 0) (Function.update (Function.update (fun _ => none) 0 (some [])) 0 (some [12]))
      (.put2Head 0 24) :=
    ⟨rfl, by decide, not_member_update (not_member_update (hnone 24) (by decide)) (by decide)⟩
  have hhead := htail.next (a := Op.put2Head 0 24) hallowed' rfl
  exact (list_refines_sequence CSQNode (· = 0) s₀ _ _ (hhead.next (a := Op.get 0) rfl rfl)).1 0 [12] rfl

end GalaLua.AMQ.Sequences
