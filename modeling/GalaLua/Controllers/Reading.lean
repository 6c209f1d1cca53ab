import GalaLua.Controllers.Stacks
import GalaLua.Controllers.TcpCache
import GalaLua.Library.Loop

/-!
# The loop of `Response`

A turn answers the head of the receive queue, takes it off unanswered or leaves
the loop; only a POLL on an empty cache does none of these. The loop ends exactly
if it comes to no such POLL (`response_ends_iff`).
-/

namespace GalaLua.Controllers

open Library.Loop

/-- What the bus answers in a turn; `IsCanceled` of a process that is gone
throws. -/
structure Answer where
  canceled : Option Bool
  answered : Bool
  deriving DecidableEq, Repr

namespace StreamLinkStack

/-- A turn of `Response`, with what `IsCanceled` throws. -/
def turn (fd : Fd) (a : Answer) (ls : StreamLinkStack) :
    Turn StreamLinkStack (StreamLinkStack × Ending) :=
  if a.canceled = none ∧ ls.recvTasks.head?.any (·.type ≠ .POLL) then .done (ls, .throws)
  else
    match ls.response fd { canceled := a.canceled.getD false, answered := a.answered } with
    | (ls, .response _) => .again ls
    | (ls, .recvLast _) => .done (ls, .returns)
    | (ls, _) => .done (ls, .throws)

/-- The tasks that are put into the receive queue of a link. -/
def Reads (ls : StreamLinkStack) : Prop :=
  ∀ t ∈ ls.recvTasks, t.type = .RECV ∨ t.type = .RECV_LINE ∨ t.type = .POLL

instance (ls : StreamLinkStack) : Decidable ls.Reads :=
  inferInstanceAs (Decidable (∀ t ∈ ls.recvTasks, _))

end StreamLinkStack

/-- The bytes that a RECV or RECV_LINE waits for. -/
def Task.want (t : Task) (cache : List UInt8) : Option Nat :=
  if t.type = .RECV then StreamLinkStack.enough t.len cache else getLine cache

/-- The cache after a task has been taken off the queue; nothing if it stays. -/
def Task.serve (t : Task) (a : Answer) (cache : List UInt8) : Option (List UInt8) :=
  if t.type = .POLL then
    if cache = [] then none else some cache
  else
    match a.canceled with
    | none => none
    | some true => some cache
    | some false => (t.want cache).map fun k => if a.answered then cache.drop k else cache

/-- The tasks in front of some POLL are all taken off and use up the cache. -/
inductive Starved : List Task → List UInt8 → (Nat → Answer) → Prop
  | poll {t : Task} {rest : List Task} {as : Nat → Answer} : t.type = .POLL → Starved (t :: rest) [] as
  | served {t : Task} {rest : List Task} {cache cache' : List UInt8} {as : Nat → Answer} :
      t.serve (as 0) cache = some cache' → Starved rest cache' (later as) →
      Starved (t :: rest) cache as

-- ---------------------------------------------------------------------------
-- One turn
-- ---------------------------------------------------------------------------

namespace StreamLinkStack

variable {ls : StreamLinkStack} {fd : Fd} {a : Answer} {t : Task} {rest : List Task}

theorem turn_nil (h : ls.recvTasks = []) : ls.turn fd a = .done (ls, .returns) := by
  simp only [turn, response, h, List.head?_nil, Option.any_none, Bool.false_eq_true, and_false,
    if_false]

theorem turn_throws (h : ls.recvTasks = t :: rest) (ht : t.type ≠ .POLL) (ha : a.canceled = none) :
    ls.turn fd a = .done (ls, .throws) := by
  simp only [turn, h, ha, List.head?_cons, Option.any_some, ne_eq, ht, not_false_eq_true,
    decide_true, and_self, if_true]

theorem turn_eq (h : ls.recvTasks = t :: rest) (ha : a.canceled ≠ none ∨ t.type = .POLL) :
    ls.turn fd a =
      match ls.response fd { canceled := a.canceled.getD false, answered := a.answered } with
      | (ls, .response _) => .again ls
      | (ls, .recvLast _) => .done (ls, .returns)
      | (ls, _) => .done (ls, .throws) := by
  refine if_neg ?_
  simp only [h, List.head?_cons, Option.any_some, decide_eq_true_eq]
  rintro ⟨hnone, hpoll⟩
  exact ha.elim (· hnone) hpoll

theorem turn_poll (h : ls.recvTasks = t :: rest) (ht : t.type = .POLL) (hc : ls.cache = []) :
    ls.turn fd a = .again ls := by
  rw [turn_eq h (.inr ht)]
  simp only [response, h, ht, hc, ne_eq, not_true_eq_false, false_and, if_false]

theorem turn_canceled (h : ls.recvTasks = t :: rest) (ht : t.type ≠ .POLL)
    (ha : a.canceled = some true) : ls.turn fd a = .again { ls with recvTasks := rest } := by
  rw [turn_eq h (.inl (by simp only [ha, ne_eq, reduceCtorEq, not_false_eq_true]))]
  simp only [response, h, ht, ha, Option.getD_some, ne_eq, not_false_eq_true, and_self, if_true]

theorem turn_live (h : ls.recvTasks = t :: rest) (ht : t.type = .RECV ∨ t.type = .RECV_LINE)
    (ha : a.canceled = some false) :
    ls.turn fd a =
      match ls.respond fd rest a.answered (t.want ls.cache) with
      | (ls, .response _) => .again ls
      | (ls, .recvLast _) => .done (ls, .returns)
      | (ls, _) => .done (ls, .throws) := by
  rw [turn_eq h (.inl (by simp only [ha, ne_eq, reduceCtorEq, not_false_eq_true]))]
  rcases ht with ht | ht <;>
    simp only [response, Task.want, h, ht, ha, Option.getD_some, Bool.false_eq_true, and_false,
      if_false, reduceCtorEq, if_true]

/-- A task that is served is taken off the queue. -/
theorem turn_served (h : ls.recvTasks = t :: rest)
    (ht : t.type = .RECV ∨ t.type = .RECV_LINE ∨ t.type = .POLL) {cache : List UInt8}
    (hs : t.serve a ls.cache = some cache) :
    ls.turn fd a = .again { ls with recvTasks := rest, cache } := by
  by_cases hpoll : t.type = .POLL
  · simp only [Task.serve, if_pos hpoll] at hs
    split at hs
    · cases hs
    · next hne =>
      obtain rfl := Option.some.inj hs
      rw [turn_eq h (.inr hpoll)]
      simp only [response, h, hpoll, ne_eq, not_true_eq_false, false_and, if_false, hne,
        not_false_eq_true, if_true]
  · have hread : t.type = .RECV ∨ t.type = .RECV_LINE := (or_assoc.mpr ht).resolve_right hpoll
    simp only [Task.serve, if_neg hpoll] at hs
    split at hs
    · cases hs
    · next ha =>
      obtain rfl := Option.some.inj hs
      exact turn_canceled h hpoll ha
    · next ha =>
      obtain ⟨k, hk, rfl⟩ := Option.map_eq_some_iff.mp hs
      rw [turn_live h hread ha, hk]
      cases a.answered <;> rfl

/-- A task that stays in the queue ends the loop, a POLL apart. -/
theorem turn_stays (h : ls.recvTasks = t :: rest)
    (ht : t.type = .RECV ∨ t.type = .RECV_LINE ∨ t.type = .POLL)
    (hs : t.serve a ls.cache = none) (hne : ¬(t.type = .POLL ∧ ls.cache = [])) :
    ∃ r, ls.turn fd a = .done r := by
  by_cases hpoll : t.type = .POLL
  · simp only [Task.serve, if_pos hpoll, ite_eq_left_iff, reduceCtorEq, imp_false,
      Decidable.not_not] at hs
    exact absurd ⟨hpoll, hs⟩ hne
  · have hread : t.type = .RECV ∨ t.type = .RECV_LINE := (or_assoc.mpr ht).resolve_right hpoll
    simp only [Task.serve, if_neg hpoll] at hs
    split at hs
    · next ha => exact ⟨_, turn_throws h hpoll ha⟩
    · cases hs
    · next ha =>
      rw [Option.map_eq_none_iff] at hs
      rw [turn_live h hread ha, hs]
      cases hg : ls.hanguped <;> simp only [respond, hg] <;> exact ⟨_, rfl⟩

-- ---------------------------------------------------------------------------
-- The loop
-- ---------------------------------------------------------------------------

theorem reads_rest (hq : ls.Reads) (h : ls.recvTasks = t :: rest) {cache : List UInt8} :
    ({ ls with recvTasks := rest, cache } : StreamLinkStack).Reads :=
  fun t' ht' => hq t' (h ▸ List.mem_cons_of_mem _ ht')

/-- Every turn but the last one shortens the queue. -/
theorem response_within (as : Nat → Answer) (hq : ls.Reads)
    (h : ¬Starved ls.recvTasks ls.cache as) :
    EndsWithin (turn fd) (ls.recvTasks.length + 1) as ls := by
  generalize htasks : ls.recvTasks = tasks at h ⊢
  induction tasks generalizing ls as with
  | nil => exact endsWithin_of_done _ (turn_nil htasks)
  | cons t rest ih =>
    have ht := hq t (htasks ▸ List.mem_cons_self)
    cases hs : t.serve (as 0) ls.cache with
    | none =>
      have hne : ¬(t.type = .POLL ∧ ls.cache = []) := by
        rintro ⟨hpoll, hempty⟩
        exact h (hempty ▸ .poll hpoll)
      obtain ⟨r, hr⟩ : ∃ r, ls.turn fd (as 0) = .done r := turn_stays htasks ht hs hne
      exact endsWithin_of_done _ hr
    | some cache =>
      refine (endsWithin_succ_iff (turn_served htasks ht hs)).mpr ?_
      exact ih (later as) (reads_rest hq htasks) rfl fun hstarved => h (.served hs hstarved)

theorem response_loops {as : Nat → Answer} (hq : ls.Reads)
    (h : Starved ls.recvTasks ls.cache as) : ¬Ends (turn fd) as ls := by
  generalize htasks : ls.recvTasks = tasks at h
  generalize hcache : ls.cache = cache at h
  induction h generalizing ls with
  | poll hpoll => exact not_ends_of_fixed fun a => turn_poll htasks hpoll hcache
  | served hs _ ih =>
    have ht := hq _ (htasks ▸ List.mem_cons_self)
    rw [ends_iff (turn_served htasks ht (hcache ▸ hs))]
    exact ih (reads_rest hq htasks) rfl rfl

/-- Whatever the bus answers, `Response` ends exactly if it comes to no POLL
with the cache used up. -/
theorem response_ends_iff (fd : Fd) (ls : StreamLinkStack) (hq : ls.Reads) (as : Nat → Answer) :
    Ends (turn fd) as ls ↔ ¬Starved ls.recvTasks ls.cache as :=
  ⟨fun hends hstarved => response_loops hq hstarved hends,
    fun h => ⟨_, response_within as hq h⟩⟩

/-- A line of two bytes is answered, then a POLL, and a RECV has to wait. -/
theorem response_ends_waiting :
    Ends (turn 7) (fun _ => ⟨some false, true⟩)
      { recvTasks := [{ type := .RECV_LINE, pid := 1 }, { type := .POLL, pid := 2 },
          { type := .RECV, pid := 3, len := 5 }],
        cache := [1, 10, 3] } := by
  refine (response_ends_iff 7 _ (by decide) _).mpr fun h => ?_
  cases h with
  | served hline h =>
    obtain rfl := Option.some.inj hline
    cases h with
    | served hpoll h =>
      obtain rfl := Option.some.inj hpoll
      cases h with
      | served hrecv h => cases hrecv

/-- One byte comes in on a link with a RECV of one byte and a POLL. -/
theorem poll_spins :
    ¬∀ (fd : Fd) (ls : StreamLinkStack), ls.Reads → ∀ as : Nat → Answer, Ends (turn fd) as ls := by
  intro h
  have hends := h 7 (((({} : StreamLinkStack).putRecvTask 1 1 0).putPollTask 2).onRecv 7 (.data [65])).1
    (by decide) fun _ => ⟨some false, true⟩
  have hserved : ({ type := .RECV, pid := 1, len := 1, tick := 0 } : Task).serve ⟨some false, true⟩ [65] =
      some [] := rfl
  exact response_loops (by decide) (.served hserved (.poll rfl)) hends

end StreamLinkStack

end GalaLua.Controllers
