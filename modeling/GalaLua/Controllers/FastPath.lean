import GalaLua.Controllers.Reading

/-!
# Reads that are answered at once

`FastRecvReturn` answers a read from the cache before it is put into the queue,
`Response` does so afterwards. The first hands its string to `Bus::Return`, the
second to `Bus::ResponseEx`, which measures a string of length 0 itself. Both are
modelled on the bytes of the cache, stale ones included; `turn_abs` is the
connection to the loop on the contents alone.
-/

namespace GalaLua.Controllers

open Library
open Library.Loop (Turn)

-- ---------------------------------------------------------------------------
-- Strings for Lua
-- ---------------------------------------------------------------------------

/-- `va_arg(argp, int)` of a `size_t` or an `ssize_t`. -/
def vaInt (k : Nat) : Int := (BitVec.ofNat 32 k).toInt

def LJ_MAX_STR : Int := 0x7fffff00

/-- `lua_pushlstring` of what is in memory at `str`; a negative length is a very
great one, and nothing is pushed for the error that follows. -/
def pushlstring (str : List UInt8) (len : Int) : Option (List UInt8) :=
  if 0 ≤ len ∧ len < LJ_MAX_STR then some (str.take len.toNat) else none

/-- A string has a 0 behind its last byte. -/
def strlen (str : List UInt8) : Nat := (str.takeWhile (· ≠ 0)).length

/-- A LUA_TSTRING of `Bus::Return`. -/
def returnString (str : List UInt8) (number : Int) : Option (List UInt8) := pushlstring str number

/-- A LUA_TSTRING of `Bus::ResponseEx`. -/
def responseString (str : List UInt8) (number : Int) : Option (List UInt8) :=
  if number = 0 then pushlstring str (strlen str) else pushlstring str number

/-- The memory at `Get()`, stale bytes included. -/
def TcpCache.get (c : TcpCache) : List UInt8 := c.buf.drop c.begin

-- ---------------------------------------------------------------------------
-- The fast path
-- ---------------------------------------------------------------------------

inductive Read
  | recv (len : Nat)
  | line
  deriving DecidableEq, Repr

/-- What comes of `FastRecvReturn`: true with the string and the cache, false,
an error of Lua or an exception of `Eat`. -/
inductive Fast
  | answers (str : List UInt8) (cache : TcpCache)
  | declines
  | raises
  | throws
  deriving DecidableEq, Repr

namespace TcpCache

/-- `Return` and `Eat`. -/
def give (c : TcpCache) (k : Nat) : Fast :=
  match returnString c.get (vaInt k) with
  | none => .raises
  | some str =>
    match c.eat k with
    | (cache, .returns) => .answers str cache
    | (_, .throws) => .throws

def fastRecvReturn (c : TcpCache) : Read → Fast
  | .recv len => if c.dataSize ≥ len then c.give len else .declines
  | .line => if c.getLine ≠ -1 then c.give c.getLine.toNat else .declines

end TcpCache

-- ---------------------------------------------------------------------------
-- The slow path
-- ---------------------------------------------------------------------------

/-- A link with the bytes of its cache and the strings that processes have got
from it. -/
structure CacheLink where
  cache : TcpCache
  recvTasks : List Task := []
  hanguped : Bool := false
  delivered : List (Nat × List UInt8) := []
  deriving DecidableEq, Repr

/-- How `Response` is left; an error of Lua on this thread is a panic. -/
inductive Left
  | returns
  | throws
  | panics
  deriving DecidableEq, Repr

namespace CacheLink

/-- `ResponseEx`, `Get` and `Eat`. -/
def answer (l : CacheLink) (t : Task) (rest : List Task) (answered : Bool) (k : Nat) :
    Turn CacheLink (CacheLink × Left) :=
  if answered then
    match responseString l.cache.get (vaInt k) with
    | none => .done (l, .panics)
    | some str =>
      let l := { l with recvTasks := rest, delivered := l.delivered ++ [(t.pid, str)] }
      match l.cache.eat k with
      | (cache, .returns) => .again { l with cache }
      | (_, .throws) => .done (l, .throws)
  else .again { l with recvTasks := rest }

/-- There is too little in the cache. -/
def wait (l : CacheLink) : Turn CacheLink (CacheLink × Left) :=
  .done (l, if l.hanguped then .throws else .returns)

/-- A turn of the loop of `Response`. -/
def turn (a : Answer) (l : CacheLink) : Turn CacheLink (CacheLink × Left) :=
  match l.recvTasks with
  | [] => .done (l, .returns)
  | t :: rest =>
    if t.type ≠ .POLL ∧ a.canceled = none then .done (l, .throws)
    else if t.type ≠ .POLL ∧ a.canceled = some true then .again { l with recvTasks := rest }
    else
      match t.type with
      | .RECV => if l.cache.dataSize ≥ t.len then l.answer t rest a.answered t.len else l.wait
      | .RECV_LINE =>
        if l.cache.getLine ≠ -1 then l.answer t rest a.answered l.cache.getLine.toNat else l.wait
      | .POLL => if l.cache.dataSize ≠ 0 then .again { l with recvTasks := rest } else .again l
      | _ => .again l

/-- The link with the contents of its cache. -/
def abs (l : CacheLink) : StreamLinkStack :=
  { recvTasks := l.recvTasks, cache := l.cache.data, hanguped := l.hanguped }

end CacheLink

/-- The task that `PutRecvTask` or `PutRecvLineTask` puts. -/
def Read.task (pid tick : Nat) : Read → Task
  | .recv len => { type := .RECV, pid, len, tick }
  | .line => { type := .RECV_LINE, pid, tick }

/-- The bus finds the process with the tick of its request, and waiting. -/
def live : Answer := ⟨some false, true⟩

/-- The request in an empty queue; it takes one turn, the end of the loop another. -/
def slow (c : TcpCache) (hanguped : Bool) (pid tick : Nat) (r : Read) :
    Turn CacheLink (CacheLink × Left) :=
  Loop.run CacheLink.turn 2 (fun _ => live) { cache := c, recvTasks := [r.task pid tick], hanguped }

/-- The two paths do the same for the request. -/
def Agree (c : TcpCache) (hanguped : Bool) (pid tick : Nat) (r : Read) : Prop :=
  match c.fastRecvReturn r with
  | .answers str cache =>
    slow c hanguped pid tick r =
      .done ({ cache, hanguped, delivered := [(pid, str)] }, .returns)
  | .declines =>
    ∃ e, slow c hanguped pid tick r =
      .done ({ cache := c, recvTasks := [r.task pid tick], hanguped }, e)
  | .raises | .throws => True

def TcpCache.wants (c : TcpCache) : Read → Option Nat
  | .recv len => if c.dataSize ≥ len then some len else none
  | .line => if c.getLine ≠ -1 then some c.getLine.toNat else none

/-- A string whose length is 0 as an `int` measures 0 as well. -/
def Measured (c : TcpCache) (r : Read) : Prop :=
  ∀ k, c.wants r = some k → vaInt k = 0 → strlen c.get = 0

-- ---------------------------------------------------------------------------
-- Contents
-- ---------------------------------------------------------------------------

theorem getLine_eq_findIdx (bs : List UInt8) :
    getLine bs = (bs.findIdx? (· = 10)).map (· + 1) := by
  induction bs with
  | nil => rfl
  | cons b bs ih =>
    rw [getLine, ih, List.findIdx?_cons]
    by_cases hlf : b = 10
    · simp only [hlf, if_true, decide_true, Option.map_some, Nat.zero_add]
    · simp only [hlf, if_false, decide_false, Bool.false_eq_true, Option.map_map]

namespace TcpCache

variable {c : TcpCache} {k : Nat} {r : Read}

theorem getLine_data (h : c.Ordered) :
    Controllers.getLine c.data = if c.getLine ≠ -1 then some c.getLine.toNat else none := by
  rw [getLine_eq_findIdx, getLine_eq h, lineLength]
  cases c.data.findIdx? (· = 10) with
  | none => rfl
  | some i =>
    simp only [Option.map_some]
    rw [if_pos (by omega)]
    exact congrArg some (by omega)

theorem getLine_le (hl : Controllers.getLine bs = some k) : k ≤ bs.length := by
  rw [getLine_eq_findIdx, Option.map_eq_some_iff] at hl
  obtain ⟨i, hi, rfl⟩ := hl
  exact (List.findIdx?_eq_some_iff_findIdx_eq.mp hi).1

theorem wants_le (h : c.Ordered) (hw : c.wants r = some k) : k ≤ c.dataSize := by
  cases r with
  | recv len =>
    simp only [wants, Option.ite_none_right_eq_some, Option.some.injEq] at hw
    obtain ⟨hle, rfl⟩ := hw
    exact hle
  | line =>
    rw [← h.length_data]
    exact getLine_le ((getLine_data h).trans hw)

theorem eat_ok (h : c.Ordered) (hk : k ≤ c.dataSize) : c.eat k = ((c.eat k).1, .returns) :=
  Prod.ext rfl (eat_inside h hk).2.2

theorem fastRecvReturn_eq (r : Read) :
    c.fastRecvReturn r =
      match c.wants r with
      | some k => c.give k
      | none => .declines := by
  cases r <;> simp only [fastRecvReturn, wants] <;> split <;> rfl

theorem give_eq (h : c.Ordered) (hk : k ≤ c.dataSize) :
    c.give k =
      match returnString c.get (vaInt k) with
      | none => .raises
      | some str => .answers str (c.eat k).1 := by
  rw [give, eat_ok h hk]

end TcpCache

-- ---------------------------------------------------------------------------
-- The loop on the bytes and on the contents
-- ---------------------------------------------------------------------------

namespace CacheLink

open TcpCache

variable {l : CacheLink} {a : Answer} {t : Task} {rest : List Task} {k : Nat}

/-- A turn on the bytes is a turn on the contents, unless it ends in a panic. -/
inductive Follows (fd : Fd) (a : Answer) (l : CacheLink) : Turn CacheLink (CacheLink × Left) → Prop
  | again {l' : CacheLink} : l.abs.turn fd a = .again l'.abs → l'.cache.Ordered →
      Follows fd a l (.again l')
  | returns {l' : CacheLink} : l.abs.turn fd a = .done (l'.abs, .returns) →
      Follows fd a l (.done (l', .returns))
  | throws {l' : CacheLink} : l.abs.turn fd a = .done (l'.abs, .throws) →
      Follows fd a l (.done (l', .throws))
  | panics {l' : CacheLink} : Follows fd a l (.done (l', .panics))

theorem want_le (h : l.cache.Ordered) (hw : t.want l.cache.data = some k) : k ≤ l.cache.dataSize := by
  rw [← h.length_data]
  unfold Task.want at hw
  split at hw
  · simp only [StreamLinkStack.enough, Option.ite_none_right_eq_some, Option.some.injEq] at hw
    obtain ⟨hle, rfl⟩ := hw
    exact hle
  · exact getLine_le hw

theorem answer_follows {fd : Fd} (h : l.cache.Ordered) (hq : l.recvTasks = t :: rest)
    (ht : t.type = .RECV ∨ t.type = .RECV_LINE) (ha : a.canceled = some false)
    (hw : t.want l.cache.data = some k) : Follows fd a l (l.answer t rest a.answered k) := by
  have hturn : l.abs.turn fd a = _ := StreamLinkStack.turn_live hq ht ha
  rw [show l.abs.cache = l.cache.data from rfl, hw] at hturn
  have hk := want_le h hw
  unfold answer
  cases hanswered : a.answered with
  | false =>
    rw [hanswered] at hturn
    exact .again hturn h
  | true =>
    rw [hanswered] at hturn
    obtain ⟨hord, hdata, -⟩ := eat_inside h hk
    simp only [if_true]
    split
    · exact .panics
    · rw [eat_ok h hk]
      refine .again (hturn.trans ?_) hord
      simp only [StreamLinkStack.respond, if_true, abs, hdata]

theorem wait_follows {fd : Fd} (hq : l.recvTasks = t :: rest)
    (ht : t.type = .RECV ∨ t.type = .RECV_LINE) (ha : a.canceled = some false)
    (hw : t.want l.cache.data = none) : Follows fd a l l.wait := by
  have hturn : l.abs.turn fd a = _ := StreamLinkStack.turn_live hq ht ha
  rw [show l.abs.cache = l.cache.data from rfl, hw] at hturn
  have hhang : l.abs.hanguped = l.hanguped := rfl
  unfold wait
  cases hg : l.hanguped with
  | false =>
    simp only [StreamLinkStack.respond, hhang, hg, Bool.false_eq_true, if_false] at hturn
    exact .returns hturn
  | true =>
    simp only [StreamLinkStack.respond, hhang, hg, if_true] at hturn
    exact .throws hturn

/-- The tasks that are put into the receive queue of a link. -/
def Reads (l : CacheLink) : Prop :=
  ∀ t ∈ l.recvTasks, t.type = .RECV ∨ t.type = .RECV_LINE ∨ t.type = .POLL

theorem turn_live (h : l.cache.Ordered) (hq : l.recvTasks = t :: rest)
    (ht : t.type = .RECV ∨ t.type = .RECV_LINE) (ha : a.canceled = some false) :
    l.turn a =
      match t.want l.cache.data with
      | some k => l.answer t rest a.answered k
      | none => l.wait := by
  simp only [turn, hq, ha, reduceCtorEq, and_false, if_false, Option.some.injEq, Bool.false_eq_true]
  rcases ht with ht | ht
  · simp only [Task.want, ht, if_true, StreamLinkStack.enough, h.length_data]
    by_cases hle : t.len ≤ l.cache.dataSize <;> simp only [ge_iff_le, hle, if_true, if_false]
  · simp only [Task.want, ht, reduceCtorEq, if_false, getLine_data h]
    by_cases hl : l.cache.getLine = -1 <;>
      simp only [hl, ne_eq, not_true_eq_false, not_false_eq_true, if_true, if_false]

theorem data_ne_nil (h : l.cache.Ordered) : l.cache.data ≠ [] ↔ l.cache.dataSize ≠ 0 := by
  rw [← h.length_data, ne_eq, ne_eq, List.length_eq_zero_iff]

/-- Every turn of `Response` on the bytes of the cache is one on its contents. -/
theorem turn_abs (h : l.cache.Ordered) (hreads : l.Reads) (fd : Fd) (a : Answer) :
    Follows fd a l (l.turn a) := by
  cases hq : l.recvTasks with
  | nil =>
    simp only [turn, hq]
    exact .returns (StreamLinkStack.turn_nil hq)
  | cons t rest =>
    by_cases hpoll : t.type = .POLL
    · simp only [turn, hq, hpoll, ne_eq, not_true_eq_false, false_and, if_false]
      split
      · next hdata =>
        refine .again (StreamLinkStack.turn_served hq (.inr (.inr hpoll)) ?_) h
        simp only [Task.serve, if_pos hpoll]
        exact if_neg ((data_ne_nil h).mpr hdata)
      · next hdata =>
        exact .again (StreamLinkStack.turn_poll hq hpoll
          (Decidable.not_not.mp (mt (data_ne_nil h).mp hdata))) h
    · have ht : t.type = .RECV ∨ t.type = .RECV_LINE :=
        (or_assoc.mpr (hreads t (hq ▸ List.mem_cons_self))).resolve_right hpoll
      rcases ha : a.canceled with _ | _ | _
      · simp only [turn, hq, ha, ne_eq, hpoll, not_false_eq_true, and_self, if_true]
        exact .throws (StreamLinkStack.turn_throws hq hpoll ha)
      · rw [turn_live h hq ht ha]
        split
        · next hw => exact answer_follows h hq ht ha hw
        · next hw => exact wait_follows hq ht ha hw
      · simp only [turn, hq, ha, ne_eq, hpoll, not_false_eq_true, and_self, if_true, reduceCtorEq,
          and_false, if_false]
        exact .again (StreamLinkStack.turn_canceled hq hpoll ha) h

end CacheLink

-- ---------------------------------------------------------------------------
-- The two paths
-- ---------------------------------------------------------------------------

open TcpCache

variable {c : TcpCache} {k : Nat} {r : Read} {hanguped : Bool} {pid tick : Nat}

theorem turn_request (rest : List Task) (delivered : List (Nat × List UInt8)) :
    CacheLink.turn live { cache := c, recvTasks := r.task pid tick :: rest, hanguped, delivered } =
      match c.wants r with
      | some k =>
        CacheLink.answer
          { cache := c, recvTasks := r.task pid tick :: rest, hanguped, delivered }
          (r.task pid tick) rest true k
      | none =>
        CacheLink.wait { cache := c, recvTasks := r.task pid tick :: rest, hanguped, delivered } := by
  simp only [CacheLink.turn, Read.task, wants, live, Option.some.injEq, Bool.false_eq_true,
    reduceCtorEq, and_false, if_false]
  cases r with
  | recv len => by_cases hle : c.dataSize ≥ len <;> simp only [hle, if_true, if_false]
  | line =>
    by_cases hl : c.getLine = -1 <;>
      simp only [hl, ne_eq, not_true_eq_false, not_false_eq_true, if_true, if_false]

theorem answer_eq (h : c.Ordered) (hk : k ≤ c.dataSize) (t : Task) :
    CacheLink.answer { cache := c, recvTasks := [t], hanguped } t [] true k =
      match responseString c.get (vaInt k) with
      | none => .done ({ cache := c, recvTasks := [t], hanguped }, .panics)
      | some str => .again { cache := (c.eat k).1, hanguped, delivered := [(t.pid, str)] } := by
  simp only [CacheLink.answer, if_true]
  cases responseString c.get (vaInt k) with
  | none => rfl
  | some str =>
    simp only
    rw [eat_ok h hk]
    rfl

theorem slow_waits (hw : c.wants r = none) :
    ∃ e, slow c hanguped pid tick r =
      .done ({ cache := c, recvTasks := [r.task pid tick], hanguped }, e) := by
  refine ⟨if hanguped then .throws else .returns, ?_⟩
  simp only [slow, Loop.run, turn_request, hw, CacheLink.wait]

theorem slow_answers (h : c.Ordered) (hw : c.wants r = some k) :
    slow c hanguped pid tick r =
      match responseString c.get (vaInt k) with
      | none => .done ({ cache := c, recvTasks := [r.task pid tick], hanguped }, .panics)
      | some str => .done ({ cache := (c.eat k).1, hanguped, delivered := [(pid, str)] }, .returns) := by
  have hpid : (r.task pid tick).pid = pid := by cases r <;> rfl
  simp only [slow, Loop.run, turn_request, hw, answer_eq h (wants_le h hw), hpid]
  cases responseString c.get (vaInt k) with
  | none => rfl
  | some str => rfl

theorem responseString_of_ne (str : List UInt8) {number : Int} (h : number ≠ 0) :
    responseString str number = returnString str number := if_neg h

theorem returnString_zero (str : List UInt8) : returnString str 0 = some [] := by
  simp [returnString, pushlstring, LJ_MAX_STR]

/-- `Return` pushes an empty string for a length of 0, and so does `ResponseEx`
if there is a 0 in front. -/
theorem responseString_zero (str : List UInt8) : responseString str 0 = some [] ↔ strlen str = 0 := by
  have hle : strlen str ≤ str.length := (List.takeWhile_sublist _).length_le
  simp only [responseString, if_true, pushlstring, Option.ite_none_right_eq_some, Option.some.injEq,
    Int.toNat_natCast, List.take_eq_nil_iff]
  constructor
  · rintro ⟨-, hzero | rfl⟩
    · exact hzero
    · rfl
  · intro hzero
    exact ⟨⟨by omega, by rw [hzero]; decide⟩, .inl hzero⟩

theorem agree_some (h : c.Ordered) (hw : c.wants r = some k) :
    Agree c hanguped pid tick r ↔
      ∀ str, returnString c.get (vaInt k) = some str →
        responseString c.get (vaInt k) = some str := by
  rw [Agree, fastRecvReturn_eq, slow_answers h hw, hw]
  simp only [give_eq h (wants_le h hw)]
  cases returnString c.get (vaInt k) with
  | none => exact iff_of_true trivial nofun
  | some str =>
    simp only [Option.some.injEq, forall_eq']
    cases responseString c.get (vaInt k) with
    | none =>
      refine iff_of_false (fun hd => ?_) nofun
      simp only [Turn.done.injEq, Prod.mk.injEq, reduceCtorEq, and_false] at hd
    | some str' => simp

theorem measured_of_agree (h : c.Ordered) (ha : Agree c hanguped pid tick r) : Measured c r := by
  intro k hw hzero
  have hstr := (agree_some h hw).mp ha
  rw [hzero] at hstr
  exact (responseString_zero _).mp (hstr _ (returnString_zero _))

theorem agree_of_measured (h : c.Ordered) (hm : Measured c r) : Agree c hanguped pid tick r := by
  cases hw : c.wants r with
  | none =>
    rw [Agree, fastRecvReturn_eq, hw]
    exact slow_waits hw
  | some k =>
    refine (agree_some h hw).mpr fun str hstr => ?_
    by_cases hzero : vaInt k = 0
    · rw [hzero, returnString_zero] at hstr
      rw [hzero, ← hstr]
      exact (responseString_zero _).mpr (hm k hw hzero)
    · rwa [responseString_of_ne _ hzero]

/-- For every cache and every request of a live process: both paths do the same
exactly if a string of length 0 measures 0. -/
theorem fast_slow_iff (h : c.Ordered) (hanguped : Bool) (pid tick : Nat) (r : Read) :
    Agree c hanguped pid tick r ↔ Measured c r :=
  ⟨measured_of_agree h, agree_of_measured h⟩

/-- A line of two bytes, with a third byte behind it. -/
theorem line_agrees : Agree ⟨[65, 10, 66, 0], 1, 0, 3⟩ false 7 0 .line := by
  refine (fast_slow_iff ⟨by decide, by decide, by decide, by decide, by decide⟩ false 7 0 .line).mpr ?_
  intro k hk
  obtain rfl : 2 = k := Option.some.inj hk
  intro hzero
  exact absurd hzero (by decide)

/-- The cache of a link after one byte has come in and been read: a RECV of 0
bytes gets an empty string from the fast path, and the byte again from the slow
one. -/
theorem stale_byte_read :
    ¬∀ c : TcpCache, c.Ordered → ∀ (hanguped : Bool) (pid tick : Nat) (r : Read),
      Agree c hanguped pid tick r := by
  intro h
  have hord : (⟨65 :: List.replicate 4095 0, 1024, 0, 0⟩ : TcpCache).Ordered := by
    refine ⟨?_, ?_, ?_, ?_, ?_⟩ <;>
      simp only [List.length_cons, List.length_replicate] <;> decide
  have hempty : strlen _ = 0 := measured_of_agree hord (h _ hord false 7 0 (.recv 0)) 0 rfl rfl
  revert hempty
  decide

end GalaLua.Controllers
