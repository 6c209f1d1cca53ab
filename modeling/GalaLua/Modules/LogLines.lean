import GalaLua.Modules.LogServer

/-!
# No line is lost

A file process ends with the last logger it has counted, and another one may just
have been given its address: its lines are lost (`line_lost`). As long as no process
ends while a logger has its address or a line waits for it, and the dispatcher gives
out no dead address, every line is written once and in order (`lines_written`).
-/

namespace GalaLua.Modules.LogServer

open Library Function

-- ---------------------------------------------------------------------------
-- What is promised
-- ---------------------------------------------------------------------------

def Line.isKept (l : Line) : Bool := l.kept

def Msg.lines : Msg → List Line
  | .line l => [l]
  | _ => []

def keptLines (ms : List Msg) : List Line := (ms.flatMap Msg.lines).filter Line.isKept

/-- All mailboxes are empty. -/
structure State.Quiet (s : State) : Prop where
  dispatcher : s.mailbox = []
  exits : s.exits = []
  processes : ∀ p pr, s.processes p = some pr → pr.mailbox = []
  loggers : ∀ l ∈ s.loggers, ∀ path p, l ≠ .replied path p

def State.Flushed (s : State) (path : Str) : Prop := s.last path = some .flush ∨ s.last path = some .closing

def State.Good (s : State) : Prop :=
  s.Quiet → ∀ path, s.Flushed path → (s.written path).filter Line.isKept = s.sent path

-- ---------------------------------------------------------------------------
-- When it is kept
-- ---------------------------------------------------------------------------

/-- The process of a logger that has its address and has not closed. -/
def Logger.holds : Logger → Option (Str × Pid)
  | .replied path p => some (path, p)
  | .opened path p => some (path, p)
  | _ => none

/-- No logger has the address of `p`, and no line of one waits among the messages. -/
def State.Released (s : State) (p : Pid) (ms : List Msg) : Prop :=
  (∀ l ∈ s.loggers, ∀ h ∈ l.holds, h.2 ≠ p) ∧ keptLines ms = []

def IsFile (path : Option Str) : Prop := path ≠ none ∧ path ≠ some [] ∧ path ≠ some stdout

/-- The process that the dispatcher knows is alive, and a new one has a gpid that is not known. -/
def State.Known (s : State) (addr : Pid) : Request → Prop
  | .flush => True
  | .openLogger _ path =>
    match s.nameDict (target path).1 with
    | some p => s.processes p ≠ none
    | none => s.pidDict addr = none

def Ok (s : State) : Act → Prop
  | .init _ path => IsFile path
  | .dispatch addr => ∀ r ∈ s.mailbox.head?, s.Known addr r
  | .handle p => ∀ pr ∈ s.processes p, pr.mailbox.head? = some .closing → pr.refCount = 1 → s.Released p pr.mailbox.tail
  | .exit p => ∀ pr ∈ s.processes p, s.Released p pr.mailbox ∧ pr.cache.cache.filter Line.isKept = []
  | _ => True

instance (s : State) (p : Pid) (ms : List Msg) : Decidable (s.Released p ms) := inferInstanceAs (Decidable (_ ∧ _))

instance (path : Option Str) : Decidable (IsFile path) := inferInstanceAs (Decidable (_ ∧ _ ∧ _))

instance (s : State) (addr : Pid) : (r : Request) → Decidable (s.Known addr r)
  | .flush => isTrue trivial
  | .openLogger _ path =>
    match h : s.nameDict (target path).1 with
    | some p => decidable_of_iff (s.processes p ≠ none) (by rw [State.Known, h])
    | none => decidable_of_iff (s.pidDict addr = none) (by rw [State.Known, h])

instance (s : State) : (a : Act) → Decidable (Ok s a)
  | .init _ path => inferInstanceAs (Decidable (IsFile path))
  | .dispatch addr => inferInstanceAs (Decidable (∀ r ∈ s.mailbox.head?, s.Known addr r))
  | .handle p => inferInstanceAs (Decidable (∀ pr ∈ s.processes p,
      pr.mailbox.head? = some .closing → pr.refCount = 1 → s.Released p pr.mailbox.tail))
  | .exit p => inferInstanceAs (Decidable (∀ pr ∈ s.processes p,
      s.Released p pr.mailbox ∧ pr.cache.cache.filter Line.isKept = []))
  | .received _ | .log _ _ | .flush _ | .close _ | .tick | .onExit _ => isTrue trivial

-- ---------------------------------------------------------------------------
-- The cache
-- ---------------------------------------------------------------------------

variable {b b' : Buffer} {l : Line} {out : List Line} {pr pr' : Processor} {m : Msg} {rest : List Msg}

/-- There is room in the cache. -/
def Buffer.Valid (b : Buffer) : Prop := b.length < b.total

theorem Buffer.valid_init : (Buffer.init 1024).Valid := by
  show 0 < 1024
  decide

theorem Buffer.Valid.clean (h : b.Valid) : b.clean.Valid := Nat.lt_of_le_of_lt (Nat.zero_le _) h

theorem Buffer.put_of_lt (h : b.length + l.text.length < b.total) :
    b.put l = some { b with cache := b.cache ++ [l], length := b.length + l.text.length } := by
  have hfull : b.isfull = false := by
    rw [Buffer.isfull, decide_eq_false_iff_not]
    omega
  rw [Buffer.put, hfull, if_neg (by decide), if_pos (by omega)]

/-- A line is behind those before it, in the file or in the cache. -/
theorem Buffer.Valid.log (h : b.Valid) (l : Line) :
    ∃ b', (b.log l).2 = some b' ∧ (b.log l).1 ++ b'.cache = b.cache ++ [l] ∧ b'.Valid := by
  rw [Buffer.log]
  by_cases hfull : b.total ≤ b.length + l.text.length
  · rw [if_pos hfull, if_pos hfull]
    by_cases hlong : b.clean.total ≤ l.text.length
    · rw [if_pos hlong]
      exact ⟨b.clean, rfl, List.append_nil _, h.clean⟩
    · have hroom : b.clean.length + l.text.length < b.clean.total := by
        show 0 + l.text.length < b.total
        have : ¬ b.total ≤ l.text.length := hlong
        omega
      rw [if_neg hlong, Buffer.put_of_lt hroom]
      exact ⟨_, rfl, rfl, hroom⟩
  · have hroom : b.length + l.text.length < b.total := by omega
    rw [if_neg hfull, if_neg hfull, if_neg (by omega), Buffer.put_of_lt hroom]
    exact ⟨_, rfl, rfl, hroom⟩

/-- A turn of the loop moves lines on, and the process ends with its last logger only. -/
theorem Processor.handle_spec (h : pr.cache.Valid) (m : Msg) :
    (∃ pr', (pr.handle m).2 = some pr' ∧ (pr.handle m).1 ++ pr'.cache.cache = pr.cache.cache ++ m.lines ∧
        pr'.path = pr.path ∧ pr'.cache.Valid ∧ (m = .flush ∨ m = .closing → pr'.cache.cache = [])) ∨
      (pr.handle m).2 = none ∧ (pr.handle m).1 = pr.cache.cache ∧ m = .closing ∧ pr.refCount = 1 := by
  cases m with
  | opened => exact .inl ⟨_, rfl, (List.append_nil _).symm, rfl, h, by rintro (h | h) <;> cases h⟩
  | flush => exact .inl ⟨_, rfl, rfl, rfl, h.clean, fun _ => rfl⟩
  | closing =>
    by_cases hlast : pr.refCount - 1 = 0
    · exact .inr ⟨if_pos hlast, rfl, rfl, by omega⟩
    · exact .inl ⟨_, if_neg hlast, rfl, rfl, h.clean, fun _ => rfl⟩
  | line l =>
    obtain ⟨b', hb, hcache, hvalid⟩ := h.log l
    refine .inl ⟨{ pr with cache := b' }, ?_, hcache, rfl, hvalid, by rintro (h | h) <;> cases h⟩
    rw [Processor.handle, hb]
    rfl

-- ---------------------------------------------------------------------------
-- The invariant
-- ---------------------------------------------------------------------------

variable {s s' : State} {path : Str} {p : Pid}

theorem keptLines_append (ms ms' : List Msg) : keptLines (ms ++ ms') = keptLines ms ++ keptLines ms' := by
  rw [keptLines, List.flatMap_append, List.filter_append]
  rfl

/-- The lines that a process has not written yet. -/
def Processor.pending (pr : Processor) : List Line := pr.cache.cache.filter Line.isKept ++ keptLines pr.mailbox

/-- The lines for a path that are not written yet. -/
def State.pending (s : State) (path : Str) : List Line :=
  match (s.nameDict path).bind s.processes with
  | some pr => pr.pending
  | none => []

structure State.Inv (s : State) : Prop where
  names : ∀ path p, s.nameDict path = some p ↔ s.pidDict p = some path
  processes : ∀ p pr, s.processes p = some pr → ∃ path, pr.path = some path ∧ s.pidDict p = some path ∧
    pr.cache.Valid ∧ (s.Flushed path → pr.cache.cache = [])
  loggers : ∀ l ∈ s.loggers, ∀ h ∈ l.holds, ∃ pr, s.processes h.2 = some pr ∧ pr.path = some h.1
  exits : ∀ p ∈ s.exits, s.processes p = none ∧ s.pidDict p ≠ none
  nodup : s.exits.Nodup
  requests : ∀ logger path, .openLogger logger path ∈ s.mailbox → IsFile path
  lines : ∀ path, s.sent path = (s.written path).filter Line.isKept ++ s.pending path

theorem State.Inv.good (h : s.Inv) : s.Good := by
  intro hquiet path hflushed
  have hpending : s.pending path = [] := by
    rw [State.pending]
    cases hp : (s.nameDict path).bind s.processes with
    | none => rfl
    | some pr =>
      obtain ⟨p, hname, hproc⟩ := Option.bind_eq_some_iff.mp hp
      obtain ⟨path', -, hpid, -, hcache⟩ := h.processes p pr hproc
      have heq : path' = path := Option.some.inj (hpid.symm.trans ((h.names _ _).mp hname))
      subst heq
      show pr.pending = []
      rw [Processor.pending, hcache hflushed, hquiet.processes p pr hproc]
      rfl
  rw [h.lines path, hpending, List.append_nil]

theorem inv_init (n : Nat) : (State.init n).Inv where
  names := fun _ _ => ⟨nofun, nofun⟩
  processes := nofun
  loggers := by
    intro l hl h hh
    rw [List.eq_of_mem_replicate hl] at hh
    cases hh
  exits := nofun
  nodup := List.nodup_nil
  requests := nofun
  lines := fun _ => rfl

-- ---------------------------------------------------------------------------
-- Messages
-- ---------------------------------------------------------------------------

theorem State.Inv.setMailbox (h : s.Inv) {ms : List Request}
    (hms : ∀ logger path, .openLogger logger path ∈ ms → IsFile path) : ({ s with mailbox := ms } : State).Inv :=
  ⟨h.names, h.processes, h.loggers, h.exits, h.nodup, hms, h.lines⟩

theorem State.Inv.setLogger (h : s.Inv) {l : Logger}
    (hl : ∀ e ∈ l.holds, ∃ pr, s.processes e.2 = some pr ∧ pr.path = some e.1) (n : Nat) : ({ s with loggers := s.loggers.set n l } : State).Inv := by
  refine ⟨h.names, h.processes, fun l' hl' => ?_, h.exits, h.nodup, h.requests, h.lines⟩
  rcases List.mem_or_eq_of_mem_set hl' with hold | rfl
  · exact h.loggers l' hold
  · exact hl

theorem pending_push (pr : Processor) (m : Msg) : (pr.push m).pending = pr.pending ++ keptLines [m] := by
  rw [Processor.pending, Processor.push, keptLines_append, ← List.append_assoc]
  rfl

theorem send_processes (p q : Pid) (m : Msg) : (s.send p m).processes q =
    if q = p then (s.processes p).map (Processor.push m) else s.processes q := update_apply ..

theorem processes_send {q : Pid} (hq : (s.send p m).processes q = some pr) :
    ∃ pr₀, s.processes q = some pr₀ ∧ (pr = pr₀ ∨ pr = pr₀.push m) := by
  rw [send_processes] at hq
  split at hq
  · next heq =>
    obtain ⟨pr₀, hpr₀, rfl⟩ := Option.map_eq_some_iff.mp hq
    exact ⟨pr₀, heq ▸ hpr₀, .inr rfl⟩
  · exact ⟨pr, hq, .inl rfl⟩

theorem send_some {q : Pid} (hq : s.processes q = some pr) :
    ∃ pr', (s.send p m).processes q = some pr' ∧ pr'.path = pr.path := by
  rw [send_processes]
  split
  · next heq =>
    subst heq
    rw [hq]
    exact ⟨pr.push m, rfl, rfl⟩
  · exact ⟨pr, hq, rfl⟩

theorem pending_send (path : Str) : (s.send p m).pending path =
    s.pending path ++ if s.nameDict path = some p ∧ s.processes p ≠ none then keptLines [m] else [] := by
  rw [State.pending, State.pending]
  show (match (s.nameDict path).bind (s.send p m).processes with | some pr => pr.pending | none => []) = _
  cases hname : s.nameDict path with
  | none => simp
  | some q =>
    rw [Option.bind_some, Option.bind_some, send_processes]
    rcases eq_or_ne q p with rfl | hne
    · cases hq : s.processes q with
      | none => simp
      | some pr => simp [pending_push]
    · simp [hne]

/-- A message is sent; the lines in it are added to those that were sent. -/
theorem State.Inv.sending (h : s.Inv) (p : Pid) (m : Msg) {sent : Str → List Line}
    (hsent : ∀ path, sent path =
      s.sent path ++ if s.nameDict path = some p ∧ s.processes p ≠ none then keptLines [m] else []) :
    ({ s.send p m with sent := sent } : State).Inv := by
  refine ⟨h.names, fun q pr hq => ?_, fun l hl e he => ?_, fun q hq => ?_, h.nodup, h.requests, fun path => ?_⟩
  · obtain ⟨pr₀, hpr₀, hpr⟩ := processes_send hq
    obtain ⟨path, hpath, hpid, hvalid, hcache⟩ := h.processes q pr₀ hpr₀
    refine ⟨path, ?_⟩
    rcases hpr with rfl | rfl
    · exact ⟨hpath, hpid, hvalid, hcache⟩
    · exact ⟨hpath, hpid, hvalid, hcache⟩
  · obtain ⟨pr, hpr, hpath⟩ := h.loggers l hl e he
    obtain ⟨pr', hpr', hpath'⟩ := send_some (p := p) (m := m) hpr
    exact ⟨pr', hpr', hpath'.trans hpath⟩
  · obtain ⟨hnone, hpid⟩ := h.exits q hq
    refine ⟨?_, hpid⟩
    show (s.send p m).processes q = none
    rw [send_processes]
    split
    · next heq =>
      subst heq
      rw [hnone]
      rfl
    · exact hnone
  · show sent path = (s.written path).filter Line.isKept ++ (s.send p m).pending path
    rw [pending_send, hsent, h.lines path, List.append_assoc]

theorem State.Inv.send (h : s.Inv) (p : Pid) (hm : keptLines [m] = []) : (s.send p m).Inv :=
  h.sending p m fun path => by rw [hm, ite_self, List.append_nil]

theorem State.Inv.sendKept (h : s.Inv) (hproc : s.processes p = some pr) (hpath : pr.path = some path) (text : Str) :
    ({ s.send p (.line ⟨text, true⟩) with sent := update s.sent path (s.sent path ++ [⟨text, true⟩]) } : State).Inv := by
  have hname : ∀ path', s.nameDict path' = some p ↔ path' = path := by
    intro path'
    obtain ⟨path₀, hpath₀, hpid, -⟩ := h.processes p pr hproc
    obtain rfl : path₀ = path := Option.some.inj (hpath₀.symm.trans hpath)
    rw [h.names, hpid, Option.some.injEq, eq_comm]
  refine h.sending p _ fun path' => ?_
  rw [update_apply]
  by_cases heq : path' = path
  · subst heq
    rw [if_pos rfl, if_pos ⟨(hname _).mpr rfl, by rw [hproc]; exact Option.some_ne_none _⟩]
    rfl
  · rw [if_neg heq, if_neg fun hboth => heq ((hname _).mp hboth.1), List.append_nil]

-- ---------------------------------------------------------------------------
-- Processes
-- ---------------------------------------------------------------------------

theorem State.Inv.path_of (h : s.Inv) (hp : s.processes p = some pr) :
    ∃ path, pr.path = some path ∧ s.pidDict p = some path ∧ ∀ path', s.nameDict path' = some p ↔ path' = path := by
  obtain ⟨path, hpath, hpid, -⟩ := h.processes p pr hp
  exact ⟨path, hpath, hpid, fun path' => by rw [h.names, hpid, Option.some.injEq, eq_comm]⟩

theorem pending_of (hname : s.nameDict path = some p) (hp : s.processes p = some pr) : s.pending path = pr.pending := by
  rw [State.pending, hname, Option.bind_some, hp]

theorem pending_congr {t : State} (hname : t.nameDict path = s.nameDict path)
    (hproc : ∀ q, s.nameDict path = some q → t.processes q = s.processes q) : t.pending path = s.pending path := by
  rw [State.pending, State.pending, hname]
  cases hq : s.nameDict path with
  | none => rfl
  | some q => rw [Option.bind_some, Option.bind_some, hproc q hq]

/-- A process that nobody needs ends. -/
theorem State.Inv.gone (h : s.Inv) (hp : s.processes p = some pr) (hreleased : s.Released p pr.mailbox)
    (hcache : pr.cache.cache.filter Line.isKept = []) : (s.gone p).Inv := by
  obtain ⟨path, hpath, hpid, hname⟩ := h.path_of hp
  have hproc : ∀ q, q ≠ p → (s.gone p).processes q = s.processes q := fun q hq => update_of_ne hq _ _
  have hself : (s.gone p).processes p = none := update_self ..
  have hnew : p ∉ s.exits := fun hmem => by
    rw [(h.exits p hmem).1] at hp
    cases hp
  refine ⟨h.names, fun q pr' hq => ?_, fun l hl e he => ?_, fun q hq => ?_, List.nodup_cons.mpr ⟨hnew, h.nodup⟩, h.requests,
    fun path' => ?_⟩
  · have hne : q ≠ p := by
      rintro rfl
      rw [hself] at hq
      cases hq
    rw [hproc q hne] at hq
    exact h.processes q pr' hq
  · rw [hproc _ (hreleased.1 l hl e he)]
    exact h.loggers l hl e he
  · rcases List.mem_cons.mp hq with rfl | hmem
    · exact ⟨hself, by rw [State.gone, hpid]; exact Option.some_ne_none _⟩
    · rw [hproc q fun heq => hnew (heq ▸ hmem)]
      exact h.exits q hmem
  · show s.sent path' = (s.written path').filter Line.isKept ++ (s.gone p).pending path'
    rw [h.lines path']
    by_cases heq : path' = path
    · subst heq
      have hname' := (hname _).mpr rfl
      have hgone : (s.gone p).pending path' = [] := by
        rw [State.pending]
        show (match (s.nameDict path').bind (s.gone p).processes with | some pr => pr.pending | none => []) = _
        rw [hname', Option.bind_some, hself]
      rw [hgone, pending_of hname' hp, Processor.pending, hcache, hreleased.2]
      rfl
    · have hsame : (s.gone p).pending path' = s.pending path' := by
        refine pending_congr rfl fun q hq => hproc q ?_
        rintro rfl
        exact heq ((hname _).mp hq)
      rw [hsame]

/-- A process has handled a message and goes on as `pr'`. -/
theorem State.Inv.wrote (h : s.Inv) (hp : s.processes p = some pr) (hmail : pr.mailbox = m :: rest)
    (hpath : pr.path = some path) (hpath' : pr'.path = some path) (hrest : pr'.mailbox = rest) (hvalid : pr'.cache.Valid)
    (hlines : out ++ pr'.cache.cache = pr.cache.cache ++ m.lines)
    (hflush : m = .flush ∨ m = .closing → pr'.cache.cache = []) :
    ({ s.wrote (some path) m out with processes := update s.processes p (some pr') } : State).Inv := by
  obtain ⟨path₀, hpath₀, hpid, hname⟩ := h.path_of hp
  obtain rfl : path₀ = path := Option.some.inj (hpath₀.symm.trans hpath)
  have hother : ∀ q path', q ≠ p → s.pidDict q = some path' → path' ≠ path₀ := by
    rintro q path' hne hq rfl
    have := (h.names _ _).mpr hq
    rw [(hname _).mpr rfl, Option.some.injEq] at this
    exact hne this.symm
  refine ⟨h.names, fun q pr₁ hq => ?_, fun l hl e he => ?_, fun q hq => ?_, h.nodup, h.requests, fun path' => ?_⟩
  · dsimp only at hq
    rcases eq_or_ne q p with rfl | hne
    · rw [update_self, Option.some.injEq] at hq
      subst hq
      refine ⟨path₀, hpath', hpid, hvalid, fun hlast => hflush ?_⟩
      have hself : update s.last path₀ (some m) path₀ = some m := update_self ..
      rcases hlast with hlast | hlast
      · exact .inl (Option.some.inj (hself.symm.trans hlast))
      · exact .inr (Option.some.inj (hself.symm.trans hlast))
    · rw [update_of_ne hne] at hq
      obtain ⟨path', hpath', hpid', hvalid', hcache⟩ := h.processes q pr₁ hq
      refine ⟨path', hpath', hpid', hvalid', fun hlast => hcache ?_⟩
      have hsame : update s.last path₀ (some m) path' = s.last path' := update_of_ne (hother q path' hne hpid') _ _
      exact hlast.imp hsame.symm.trans hsame.symm.trans
  · obtain ⟨pr₁, hpr₁, hpath₁⟩ := h.loggers l hl e he
    dsimp only
    by_cases heq : e.2 = p
    · rw [heq] at hpr₁ ⊢
      rw [hp, Option.some.injEq] at hpr₁
      subst hpr₁
      exact ⟨pr', update_self .., hpath'.trans (hpath.symm.trans hpath₁)⟩
    · exact ⟨pr₁, (update_of_ne heq _ _).trans hpr₁, hpath₁⟩
  · have hne : q ≠ p := by
      rintro rfl
      rw [(h.exits q hq).1] at hp
      cases hp
    exact ⟨(update_of_ne hne _ _).trans (h.exits q hq).1, (h.exits q hq).2⟩
  · show s.sent path' = (update s.written path₀ (s.written path₀ ++ out) path').filter Line.isKept ++
      State.pending { s.wrote (some path₀) m out with processes := update s.processes p (some pr') } path'
    rw [h.lines path']
    by_cases heq : path' = path₀
    · subst heq
      have hname' := (hname _).mpr rfl
      have hpending : State.pending { s.wrote (some path') m out with processes := update s.processes p (some pr') } path' =
          pr'.pending := pending_of (p := p) hname' (update_self ..)
      have hmsg : keptLines (m :: rest) = m.lines.filter Line.isKept ++ keptLines rest := by
        rw [keptLines, List.flatMap_cons, List.filter_append]
        rfl
      rw [hpending, pending_of hname' hp, update_self, Processor.pending, Processor.pending, hmail, hrest, hmsg,
        List.filter_append, List.append_assoc, ← List.append_assoc (pr.cache.cache.filter _), ← List.filter_append, ← hlines,
        List.filter_append, List.append_assoc]
    · have hsame : State.pending { s.wrote (some path₀) m out with processes := update s.processes p (some pr') } path' =
          s.pending path' := by
        refine pending_congr rfl fun q hq => update_of_ne ?_ _ _
        rintro rfl
        exact heq ((hname _).mp hq)
      rw [hsame, update_of_ne heq]

theorem State.Inv.handle (h : s.Inv) (hok : Ok s (.handle p)) (hs : s.handle p = some s') : s'.Inv := by
  rw [State.handle] at hs
  cases hp : s.processes p with
  | none =>
    rw [hp] at hs
    cases hs
  | some pr =>
    rw [hp] at hs
    dsimp only at hs
    cases hmail : pr.mailbox with
    | nil =>
      rw [hmail] at hs
      cases hs
    | cons m rest =>
      obtain ⟨path, hpath, -, hvalid, -⟩ := h.processes p pr hp
      rw [hmail, hpath] at hs
      dsimp only at hs
      rcases Processor.handle_spec hvalid m with ⟨pr', hpr', hlines, hpath', hvalid', hflush⟩ | ⟨hnone, hout, rfl, hcount⟩
      · rw [hpr', Option.some.injEq] at hs
        subst hs
        exact @State.Inv.wrote _ _ { pr' with mailbox := rest } _ _ _ _ _ h hp hmail hpath (hpath'.trans hpath) rfl hvalid'
          hlines hflush
      · -- the process ends as if it went on with an empty cache and then was gone
        have hreleased := hok pr hp (by rw [hmail]; rfl) hcount
        rw [hmail] at hreleased
        have hwrote := @State.Inv.wrote pr.cache.cache pr { pr with cache := pr.cache.clean, mailbox := rest } _ _ _ _ _ h hp
          hmail hpath hpath rfl hvalid.clean rfl fun _ => rfl
        have hgone := hwrote.gone (update_self ..) hreleased rfl
        rw [hnone, hout, Option.some.injEq] at hs
        subst hs
        rw [State.gone] at hgone ⊢
        dsimp only at hgone
        rw [update_idem] at hgone
        exact hgone

theorem State.Inv.onExit (h : s.Inv) (hp : p ∈ s.exits) : (s.onExit p).Inv := by
  obtain ⟨hnone, hpid⟩ := h.exits p hp
  obtain ⟨key, hkey⟩ := Option.ne_none_iff_exists'.mp hpid
  have hname := (h.names key p).mpr hkey
  rw [State.onExit]
  dsimp only
  rw [hkey]
  have hother : ∀ q, s.pidDict q = some key → q = p := fun q hq =>
    Option.some.inj (((h.names key q).mpr hq).symm.trans hname)
  refine ⟨fun path q => ?_, fun q pr hq => ?_, h.loggers, fun q hq => ?_, h.nodup.erase p, h.requests, fun path => ?_⟩
  · dsimp only
    rw [update_apply, update_apply]
    by_cases hpath : path = key
    · subst hpath
      rw [if_pos rfl]
      refine iff_of_false nofun fun hq => ?_
      split at hq
      · cases hq
      · next hne => exact hne (hother q hq)
    · rw [if_neg hpath]
      by_cases heq : q = p
      · subst heq
        rw [if_pos rfl, h.names, hkey]
        exact iff_of_false (fun hsome => hpath (Option.some.inj hsome).symm) nofun
      · rw [if_neg heq, h.names]
  · have hne : q ≠ p := by
      rintro rfl
      rw [show s.processes q = some pr from hq] at hnone
      cases hnone
    obtain ⟨path, hpath, hpid', hrest⟩ := h.processes q pr hq
    exact ⟨path, hpath, (update_of_ne hne _ _).trans hpid', hrest⟩
  · have hne : q ≠ p := fun heq => h.nodup.not_mem_erase (heq ▸ hq)
    obtain ⟨hnone', hpid'⟩ := h.exits q (List.mem_of_mem_erase hq)
    refine ⟨hnone', ?_⟩
    show update s.pidDict p none q ≠ none
    rwa [update_of_ne hne]
  · show s.sent path = (s.written path).filter Line.isKept ++ State.pending _ path
    rw [h.lines path]
    by_cases hpath : path = key
    · subst hpath
      have hold : s.pending path = [] := by
        rw [State.pending, hname, Option.bind_some, hnone]
      rw [hold, State.pending]
      dsimp only
      rw [update_self]
      rfl
    · congr 1
      symm
      exact pending_congr (update_of_ne hpath _ _) fun q _ => rfl

theorem flushAll_processes (q : Pid) : s.flushAll.processes q =
    if s.pidDict q = none then s.processes q else (s.processes q).map (Processor.push .flush) := rfl

theorem State.Inv.flushAll (h : s.Inv) : s.flushAll.Inv := by
  have hof : ∀ {q pr}, s.flushAll.processes q = some pr →
      ∃ pr₀, s.processes q = some pr₀ ∧ (pr = pr₀ ∨ pr = pr₀.push .flush) := by
    intro q pr hq
    rw [flushAll_processes] at hq
    split at hq
    · exact ⟨pr, hq, .inl rfl⟩
    · obtain ⟨pr₀, hpr₀, rfl⟩ := Option.map_eq_some_iff.mp hq
      exact ⟨pr₀, hpr₀, .inr rfl⟩
  refine ⟨h.names, fun q pr hq => ?_, fun l hl e he => ?_, fun q hq => ?_, h.nodup, h.requests, fun path => ?_⟩
  · obtain ⟨pr₀, hpr₀, hpr⟩ := hof hq
    obtain ⟨path, hpath, hpid, hvalid, hcache⟩ := h.processes q pr₀ hpr₀
    refine ⟨path, ?_⟩
    rcases hpr with rfl | rfl
    · exact ⟨hpath, hpid, hvalid, hcache⟩
    · exact ⟨hpath, hpid, hvalid, hcache⟩
  · obtain ⟨pr, hpr, hpath⟩ := h.loggers l hl e he
    rw [flushAll_processes, hpr]
    split
    · exact ⟨pr, rfl, hpath⟩
    · exact ⟨pr.push .flush, rfl, hpath⟩
  · obtain ⟨hnone, hpid⟩ := h.exits q hq
    rw [flushAll_processes, hnone]
    exact ⟨by split <;> rfl, hpid⟩
  · have hpending : s.flushAll.pending path = s.pending path := by
      rw [State.pending, State.pending]
      show (match (s.nameDict path).bind s.flushAll.processes with | some pr => pr.pending | none => []) = _
      cases hname : s.nameDict path with
      | none => rfl
      | some q =>
        rw [Option.bind_some, Option.bind_some, flushAll_processes, (h.names path q).mp hname, if_neg nofun]
        cases hq : s.processes q with
        | none => rfl
        | some pr =>
          rw [Option.map_some]
          exact (pending_push pr .flush).trans (List.append_nil _)
    rw [hpending]
    exact h.lines path

theorem State.Inv.answer (h : s.Inv) (hp : s.processes p = some pr) (hpath : pr.path = some path) (logger : Nat) :
    (s.answer logger path p).Inv := by
  refine (h.send p (m := .opened) rfl).setLogger (fun e he => ?_) logger
  obtain rfl : (path, p) = e := Option.some.inj he
  obtain ⟨pr', hpr', hpath'⟩ := send_some (p := p) (m := .opened) hp
  exact ⟨pr', hpr', hpath'.trans hpath⟩

/-- A new process for a path that has none. -/
theorem State.Inv.spawn (h : s.Inv) (hname : s.nameDict path = none) (hpid : s.pidDict p = none) (hp : s.processes p = none) :
    ({ s with
        processes := update s.processes p (some (.start (some path)))
        nameDict := update s.nameDict path (some p)
        pidDict := update s.pidDict p (some path) } : State).Inv := by
  refine ⟨fun path' q => ?_, fun q pr hq => ?_, fun l hl e he => ?_, fun q hq => ?_, h.nodup, h.requests, fun path' => ?_⟩
  · dsimp only
    rw [update_apply, update_apply]
    by_cases hpath : path' = path
    · subst hpath
      rw [if_pos rfl, Option.some.injEq]
      by_cases heq : q = p
      · rw [if_pos heq]
        exact iff_of_true heq.symm rfl
      · rw [if_neg heq, ← h.names, hname]
        exact iff_of_false (Ne.symm heq) nofun
    · rw [if_neg hpath]
      by_cases heq : q = p
      · subst heq
        rw [if_pos rfl, h.names, hpid]
        exact iff_of_false nofun fun hsome => hpath (Option.some.inj hsome).symm
      · rw [if_neg heq, h.names]
  · dsimp only at hq
    rcases eq_or_ne q p with rfl | hne
    · rw [update_self, Option.some.injEq] at hq
      subst hq
      exact ⟨path, rfl, update_self .., Buffer.valid_init, fun _ => rfl⟩
    · rw [update_of_ne hne] at hq
      obtain ⟨path', hpath', hpid', hrest⟩ := h.processes q pr hq
      exact ⟨path', hpath', (update_of_ne hne _ _).trans hpid', hrest⟩
  · obtain ⟨pr, hpr, hpath⟩ := h.loggers l hl e he
    have hne : e.2 ≠ p := by
      rintro heq
      rw [heq, hp] at hpr
      cases hpr
    exact ⟨pr, (update_of_ne hne _ _).trans hpr, hpath⟩
  · obtain ⟨hnone, hpid'⟩ := h.exits q hq
    have hne : q ≠ p := by
      rintro rfl
      exact hpid' hpid
    dsimp only
    rw [update_of_ne hne, update_of_ne hne]
    exact ⟨hnone, hpid'⟩
  · show s.sent path' = (s.written path').filter Line.isKept ++ State.pending _ path'
    rw [h.lines path']
    congr 1
    by_cases hpath : path' = path
    · subst hpath
      rw [State.pending, State.pending, hname]
      dsimp only
      rw [update_self, Option.bind_some, update_self]
      rfl
    · symm
      refine pending_congr (update_of_ne hpath _ _) fun q hq => update_of_ne ?_ _ _
      rintro rfl
      rw [h.names, hpid] at hq
      cases hq

theorem State.Inv.openLogger (h : s.Inv) {logger : Nat} {path : Option Str} {addr : Pid} (hfile : IsFile path)
    (hknown : s.Known addr (.openLogger logger path)) (hs : s.openLogger logger path addr = some s') : s'.Inv := by
  obtain ⟨name, rfl⟩ := Option.ne_none_iff_exists'.mp hfile.1
  have htarget : target (some name) = (name, .start (some name)) := by
    cases name with
    | nil => exact absurd rfl hfile.2.1
    | cons c name => rfl
  rw [State.Known] at hknown
  rw [State.openLogger] at hs
  rw [htarget] at hknown hs
  dsimp only at hknown hs
  cases hname : s.nameDict name with
  | some p =>
    rw [hname] at hknown hs
    obtain ⟨pr, hp⟩ := Option.ne_none_iff_exists'.mp hknown
    obtain ⟨path, hpath, -, hnames⟩ := h.path_of hp
    obtain rfl : name = path := (hnames name).mp hname
    cases hs
    exact h.answer hp hpath logger
  | none =>
    rw [hname] at hknown hs
    dsimp only at hknown hs
    split at hs
    · next hp =>
      cases hs
      exact (h.spawn hname hknown hp).answer (update_self ..) rfl logger
    · cases hs

-- ---------------------------------------------------------------------------
-- Steps keep the invariant
-- ---------------------------------------------------------------------------

theorem State.Inv.log (h : s.Inv) {l : Logger} (hl : l ∈ s.loggers) {text : Str} (hs : s.log text l = some s') : s'.Inv := by
  cases l with
  | opened path p =>
    obtain ⟨pr, hpr, hpath⟩ := h.loggers _ hl (path, p) rfl
    cases hs
    exact h.sendKept hpr hpath text
  | closed path p =>
    cases hs
    exact h.send p rfl
  | created => cases hs
  | waiting => cases hs
  | replied path p => cases hs

theorem State.Inv.tail (h : s.Inv) {r : Request} {ms : List Request} (hms : s.mailbox = r :: ms) :
    ({ s with mailbox := ms } : State).Inv :=
  h.setMailbox fun logger path hr => h.requests logger path (by rw [hms]; exact List.mem_cons_of_mem _ hr)

theorem State.Inv.dispatch (h : s.Inv) {addr : Pid} (hok : Ok s (.dispatch addr)) (hs : step s (.dispatch addr) = some s') :
    s'.Inv := by
  simp only [step] at hs
  cases hms : s.mailbox with
  | nil =>
    rw [hms] at hs
    cases hs
  | cons r ms =>
    have hknown : s.Known addr r := hok r (by rw [hms]; rfl)
    rw [hms] at hs
    cases r with
    | flush =>
      cases hs
      exact (h.tail hms).flushAll
    | openLogger logger path =>
      have hfile := h.requests logger path (by rw [hms]; exact List.mem_cons_self)
      exact (h.tail hms).openLogger hfile hknown hs

theorem inv_step {a : Act} (h : s.Inv) (hok : Ok s a) (hs : step s a = some s') : s'.Inv := by
  cases a with
  | init logger path =>
    simp only [step] at hs
    split at hs
    · cases hs
    · cases hs
    · cases hs
    · cases hs
      have hmail : ({ s with mailbox := s.mailbox ++ [.openLogger logger path] } : State).Inv := by
        refine h.setMailbox fun logger' path' hr => ?_
        rcases List.mem_append.mp hr with hr | hr
        · exact h.requests logger' path' hr
        · cases List.mem_singleton.mp hr
          exact hok
      exact hmail.setLogger (l := .waiting) (fun e he => by cases he) logger
  | received logger =>
    simp only [step] at hs
    split at hs
    · next path p hl =>
      cases hs
      exact h.setLogger (l := .opened path p) (fun e he => h.loggers _ (List.mem_of_getElem? hl) e he) logger
    · cases hs
  | log logger text =>
    obtain ⟨l, hl, hs⟩ := Option.bind_eq_some_iff.mp hs
    exact h.log (List.mem_of_getElem? hl) hs
  | flush logger =>
    obtain ⟨e, -, rfl⟩ := Option.map_eq_some_iff.mp hs
    exact h.send _ rfl
  | close logger =>
    obtain ⟨e, -, rfl⟩ := Option.map_eq_some_iff.mp hs
    exact ((h.send _ rfl).send _ rfl).setLogger (l := .closed e.1 e.2.1) (fun e he => by cases he) logger
  | tick =>
    cases hs
    refine h.setMailbox fun logger path hr => ?_
    rcases List.mem_append.mp hr with hr | hr
    · exact h.requests logger path hr
    · cases List.mem_singleton.mp hr
  | dispatch addr => exact h.dispatch hok hs
  | onExit p =>
    simp only [step] at hs
    split at hs
    · next hp =>
      cases hs
      exact h.onExit hp
    · cases hs
  | handle p => exact h.handle hok hs
  | exit p =>
    obtain ⟨pr, hp, rfl⟩ := Option.map_eq_some_iff.mp hs
    obtain ⟨hreleased, hcache⟩ := hok pr hp
    exact h.gone hp hreleased hcache

/-- In a run whose steps are all `Ok`, a path that was flushed has all its lines, each of them
once and in the order in which they came to its process. -/
theorem lines_written {n : Nat} (h : Reach step Ok (State.init n) s) : s.Good :=
  State.Inv.good (Reach.invariant (inv_init n) (fun _ _ _ hi hok hs => inv_step hi hok hs) h)

/-- Two loggers of one file, the second of which comes while the first is open. -/
def twoLoggers : List Act :=
  [.init 0 (some ['f']), .dispatch 20, .received 0, .handle 20, .log 0 ['a'], .init 1 (some ['f']), .dispatch 20, .received 1,
    .close 0, .log 1 ['b'], .flush 1, .close 1, .handle 20, .handle 20, .handle 20, .handle 20, .handle 20, .handle 20,
    .handle 20, .handle 20, .onExit 20]

theorem twoLoggers_written : ∃ s, Reach step Ok (State.init 2) s ∧ s.Good ∧
    s.written ['f'] = [⟨['a'], true⟩, ⟨['b'], true⟩] := by
  obtain ⟨s, hreach, hs⟩ := @reach_of_runIf _ _ step Ok (State.init 2) _ twoLoggers
    (fun s => decide (s.written ['f'] = [⟨['a'], true⟩, ⟨['b'], true⟩])) (by decide)
  exact ⟨s, hreach, lines_written hreach, of_decide_eq_true hs⟩

-- ---------------------------------------------------------------------------
-- A lost line
-- ---------------------------------------------------------------------------

/-- The second logger gets the address of a process that has its last close in the mailbox. -/
def lateLogger : List Act :=
  [.init 0 (some ['f']), .dispatch 20, .received 0, .handle 20, .close 0, .init 1 (some ['f']), .dispatch 20, .received 1,
    .handle 20, .handle 20, .log 1 ['b'], .flush 1, .close 1, .onExit 20]

theorem send_none {q : Pid} (hp : s.processes p = none) : (s.send q m).processes p = none := by
  rw [send_processes]
  split
  · next heq => rw [← heq, hp]; rfl
  · exact hp

theorem update_none {q : Pid} {o : Option Processor} (hp : s.processes p = none) (ho : o = none ∨ q ≠ p) :
    update s.processes q o p = none := by
  rcases eq_or_ne q p with rfl | hne
  · rw [update_self]
    exact ho.resolve_right fun h => h rfl
  · rw [update_of_ne hne.symm, hp]

theorem openLogger_processes {logger : Nat} {path : Option Str} {addr : Pid} (hs : s.openLogger logger path addr = some s')
    (hp : s.processes p = none) (hne : addr ≠ p) : s'.processes p = none := by
  rw [State.openLogger] at hs
  dsimp only at hs
  split at hs
  · cases hs
    exact send_none hp
  · split at hs
    · cases hs
      exact send_none (update_none hp (.inr hne))
    · cases hs

theorem handle_processes {q : Pid} (hs : s.handle q = some s') (hp : s.processes p = none) : s'.processes p = none := by
  rw [State.handle] at hs
  cases hq : s.processes q with
  | none =>
    rw [hq] at hs
    cases hs
  | some pr =>
    have hne : q ≠ p := by
      rintro rfl
      rw [hp] at hq
      cases hq
    rw [hq] at hs
    dsimp only at hs
    split at hs
    · cases hs
    · split at hs
      · cases hs
        exact update_none hp (.inr hne)
      · split at hs
        · cases hs
          exact update_none hp (.inr hne)
        · cases hs
          exact update_none hp (.inr hne)

/-- A process comes from the dispatcher only, with the gpid that it was given. -/
theorem step_processes {a : Act} (hs : step s a = some s') (hp : s.processes p = none) (ha : a ≠ .dispatch p) :
    s'.processes p = none := by
  cases a with
  | init logger path =>
    simp only [step] at hs
    split at hs <;> cases hs
    exact hp
  | received logger =>
    simp only [step] at hs
    split at hs <;> cases hs
    exact hp
  | log logger text =>
    obtain ⟨l, -, hs⟩ := Option.bind_eq_some_iff.mp hs
    cases l with
    | opened path q =>
      cases hs
      exact send_none hp
    | closed path q =>
      cases hs
      exact send_none hp
    | created => cases hs
    | waiting => cases hs
    | replied path q => cases hs
  | flush logger =>
    obtain ⟨e, -, rfl⟩ := Option.map_eq_some_iff.mp hs
    exact send_none hp
  | close logger =>
    obtain ⟨e, -, rfl⟩ := Option.map_eq_some_iff.mp hs
    exact send_none (send_none hp)
  | tick =>
    cases hs
    exact hp
  | dispatch addr =>
    simp only [step] at hs
    split at hs
    · cases hs
    · cases hs
      rw [flushAll_processes]
      show (if s.pidDict p = none then s.processes p else (s.processes p).map _) = none
      rw [hp]
      split <;> rfl
    · exact openLogger_processes hs hp fun heq => ha (by rw [heq])
  | onExit q =>
    simp only [step] at hs
    split at hs
    · cases hs
      rw [State.onExit]
      dsimp only
      split <;> exact hp
    · cases hs
  | handle q => exact handle_processes hs hp
  | exit q =>
    obtain ⟨pr, -, rfl⟩ := Option.map_eq_some_iff.mp hs
    exact update_none hp (.inl rfl)

theorem run_processes {as : List Act} (hs : run step s as = some s') (hp : s.processes p = none)
    (has : ∀ a ∈ as, a ≠ .dispatch p) : s'.processes p = none := by
  induction as generalizing s with
  | nil =>
    cases hs
    exact hp
  | cons a as ih =>
    obtain ⟨t, ht, hs⟩ := Option.bind_eq_some_iff.mp hs
    obtain ⟨ha, has⟩ := List.forall_mem_cons.mp has
    exact ih hs (step_processes ht hp ha) has

theorem line_lost : ∃ s, run step (State.init 2) lateLogger = some s ∧ ¬ s.Good := by
  obtain ⟨s, hs, hend⟩ := (Option.any_eq_true ..).mp (show (run step (State.init 2) lateLogger).any (fun s =>
    decide (s.mailbox = [] ∧ s.exits = [] ∧ s.processes 20 = none ∧ s.loggers = [.closed ['f'] 20, .closed ['f'] 20] ∧
      s.last ['f'] = some .closing ∧ s.written ['f'] = [] ∧ s.sent ['f'] = [⟨['b'], true⟩])) = true by decide)
  obtain ⟨hmail, hexits, hproc, hloggers, hlast, hwritten, hsent⟩ := of_decide_eq_true hend
  have hnone : ∀ p, s.processes p = none := by
    intro p
    by_cases hp : p = 20
    · rw [hp, hproc]
    · refine run_processes hs rfl ?_
      simp [lateLogger, Ne.symm hp]
  have hquiet : s.Quiet := by
    refine ⟨hmail, hexits, fun p pr hp => ?_, ?_⟩
    · rw [hnone p] at hp
      cases hp
    · rintro l hl path p rfl
      rw [hloggers] at hl
      simp at hl
  refine ⟨s, hs, fun hgood => ?_⟩
  have hwrong := hgood hquiet ['f'] (.inr hlast)
  rw [hwritten, hsent] at hwrong
  exact absurd hwrong (by decide)

end GalaLua.Modules.LogServer
