import GalaLua.Library.Transition
import Mathlib.Data.List.Nodup
import Mathlib.Logic.Function.Basic

/-!
# The log server

Loggers get the address of a file process from the dispatcher and send it their
lines; it keeps them in a cache and writes them when the cache is full or on a
flush. The process counts its loggers and ends with the last of them, and the
dispatcher learns this from an EXIT message. A file that got too long is renamed
and opened anew, which changes nothing in what is written and is left out.
-/

namespace GalaLua.Modules.LogServer

open Library Function

abbrev Str := List Char

abbrev Pid := Nat

/-- A line of `_log`. Not in the source: whether its logger was between `init` and `close`. -/
structure Line where
  text : Str
  kept : Bool
  deriving DecidableEq

-- ---------------------------------------------------------------------------
-- GlrBuffer
-- ---------------------------------------------------------------------------

structure Buffer where
  cache : List Line
  length : Nat
  total : Nat
  deriving DecidableEq

def Buffer.init (size : Nat) : Buffer := ⟨[], 0, size⟩

def Buffer.isfull (b : Buffer) : Bool := b.total = b.length

/-- `put` of a string, which is lost in a full buffer; `none` is an error. -/
def Buffer.put (b : Buffer) (str : Line) : Option Buffer :=
  if b.isfull then some b
  else if str.text.length + b.length ≤ b.total then
    some { b with cache := b.cache ++ [str], length := b.length + str.text.length }
  else none

def Buffer.clean (b : Buffer) : Buffer := { b with cache := [], length := 0 }

-- ---------------------------------------------------------------------------
-- glrFileLoggerProcessor
-- ---------------------------------------------------------------------------

inductive Msg
  /-- `^^` -/
  | opened
  /-- `!!` -/
  | flush
  /-- `!#` -/
  | closing
  /-- a line begins with a bracket -/
  | line (l : Line)
  deriving DecidableEq

/-- A file process, or `glrStdLoggerProcessor` if there is no path. -/
structure Processor where
  path : Option Str
  refCount : Int
  cache : Buffer
  mailbox : List Msg
  deriving DecidableEq

def Processor.start (path : Option Str) : Processor := ⟨path, 0, .init 1024, []⟩

/-- What a line writes, and the cache, unless there is an error. -/
def Buffer.log (cache : Buffer) (l : Line) : List Line × Option Buffer :=
  let full := cache.total ≤ cache.length + l.text.length
  let out := if full then cache.cache else []
  let cache := if full then cache.clean else cache
  if cache.total ≤ l.text.length then (out ++ [l], some cache) else (out, cache.put l)

/-- One turn of the loop: what is written, and the process unless it ends. -/
def Processor.handle (pr : Processor) : Msg → List Line × Option Processor
  | .opened => ([], some { pr with refCount := pr.refCount + 1 })
  | .flush => (pr.cache.cache, some { pr with cache := pr.cache.clean })
  | .closing =>
    (pr.cache.cache,
      if pr.refCount - 1 = 0 then none else some { pr with refCount := pr.refCount - 1, cache := pr.cache.clean })
  | .line l => ((pr.cache.log l).1, (pr.cache.log l).2.map fun cache => { pr with cache := cache })

-- ---------------------------------------------------------------------------
-- The system
-- ---------------------------------------------------------------------------

inductive Logger
  | created
  /-- in `init`, for the answer of the dispatcher -/
  | waiting
  /-- the answer is in its mailbox -/
  | replied (path : Str) (handler : Pid)
  | opened (path : Str) (handler : Pid)
  | closed (path : Str) (handler : Pid)
  deriving DecidableEq

/-- The messages to the dispatcher. -/
inductive Request
  | openLogger (logger : Nat) (path : Option Str)
  | flush
  deriving DecidableEq

structure State where
  processes : Pid → Option Processor
  nameDict : Str → Option Pid
  pidDict : Pid → Option Str
  mailbox : List Request
  /-- the processes whose EXIT the dispatcher has not handled -/
  exits : List Pid
  loggers : List Logger
  -- the lines that were sent by a logger between `init` and `close`, the file writes, the
  -- message handled last
  sent : Str → List Line
  written : Str → List Line
  last : Str → Option Msg

def State.init (loggers : Nat) : State :=
  ⟨fun _ => none, fun _ => none, fun _ => none, [], [], .replicate loggers .created, fun _ => [], fun _ => [], fun _ => none⟩

def stdout : Str := "stdout".toList

def Processor.push (m : Msg) (pr : Processor) : Processor := { pr with mailbox := pr.mailbox ++ [m] }

/-- `glr.send` to a process; a message to a dead one is dropped. -/
def State.send (s : State) (p : Pid) (m : Msg) : State :=
  { s with processes := update s.processes p ((s.processes p).map (Processor.push m)) }

/-- The address of the process goes to the logger. -/
def State.answer (s : State) (logger : Nat) (path : Str) (p : Pid) : State :=
  { s.send p .opened with loggers := s.loggers.set logger (.replied path p) }

/-- The name of a path and the process for it. -/
def target : Option Str → Str × Processor
  | none => (stdout, .start none)
  | some [] => (stdout, .start none)
  | some path => (path, .start (some path))

/-- `!@`: `addr` is the gpid of the new process, if there is one. -/
def State.openLogger (s : State) (logger : Nat) (path : Option Str) (addr : Pid) : Option State :=
  let (name, process) := target path
  match s.nameDict name with
  | some p => some (s.answer logger name p)
  | none =>
    if s.processes addr = none then
      some (State.answer
        { s with
          processes := update s.processes addr (some process)
          nameDict := update s.nameDict name (some addr)
          pidDict := if process.path = none then s.pidDict else update s.pidDict addr (some name) }
        logger name addr)
    else none

/-- `!!`: the flush goes to all file processes. -/
def State.flushAll (s : State) : State :=
  { s with processes := fun p => if s.pidDict p = none then s.processes p else (s.processes p).map (Processor.push .flush) }

def State.gone (s : State) (p : Pid) : State :=
  { s with processes := update s.processes p none, exits := p :: s.exits }

/-- The file process has handled `m` and written `out`. -/
def State.wrote (s : State) (path : Option Str) (m : Msg) (out : List Line) : State :=
  match path with
  | none => s
  | some path =>
    { s with written := update s.written path (s.written path ++ out), last := update s.last path (some m) }

/-- A process handles the next message. -/
def State.handle (s : State) (p : Pid) : Option State :=
  match s.processes p with
  | none => none
  | some pr =>
    match pr.mailbox with
    | [] => none
    | m :: rest =>
      match pr.path with
      | none => some { s with processes := update s.processes p (some { pr with mailbox := rest }) }
      | some path =>
        let s := s.wrote (some path) m (pr.handle m).1
        match (pr.handle m).2 with
        | none => some (s.gone p)
        | some pr' => some { s with processes := update s.processes p (some { pr' with mailbox := rest }) }

/-- The EXIT of a process. -/
def State.onExit (s : State) (p : Pid) : State :=
  let s := { s with exits := s.exits.erase p }
  match s.pidDict p with
  | none => s
  | some key => { s with nameDict := update s.nameDict key none, pidDict := update s.pidDict p none }

inductive Act
  | init (logger : Nat) (path : Option Str)
  | received (logger : Nat)
  | log (logger : Nat) (text : Str)
  | flush (logger : Nat)
  | close (logger : Nat)
  /-- the timed flusher -/
  | tick
  /-- the dispatcher handles the next message; `addr` is for a new process -/
  | dispatch (addr : Pid)
  | onExit (p : Pid)
  | handle (p : Pid)
  /-- a process ends by itself -/
  | exit (p : Pid)

/-- Where the logger sends to, and whether it is open. -/
def Logger.handler : Logger → Option (Str × Pid × Bool)
  | .opened path p => some (path, p, true)
  | .closed path p => some (path, p, false)
  | _ => none

def State.log (s : State) (text : Str) : Logger → Option State
  | .opened path p => some { s.send p (.line ⟨text, true⟩) with sent := update s.sent path (s.sent path ++ [⟨text, true⟩]) }
  | .closed _ p => some (s.send p (.line ⟨text, false⟩))
  | _ => none

def step (s : State) : Act → Option State
  | .init logger path =>
    match s.loggers[logger]? with
    | none | some .waiting | some (.replied _ _) => none
    | some _ =>
      some { s with mailbox := s.mailbox ++ [.openLogger logger path], loggers := s.loggers.set logger .waiting }
  | .received logger =>
    match s.loggers[logger]? with
    | some (.replied path p) => some { s with loggers := s.loggers.set logger (.opened path p) }
    | _ => none
  | .log logger text => (s.loggers[logger]?).bind (s.log text)
  | .flush logger => ((s.loggers[logger]?).bind Logger.handler).map fun h => s.send h.2.1 .flush
  | .close logger =>
    ((s.loggers[logger]?).bind Logger.handler).map fun h =>
      { (s.send h.2.1 .flush).send h.2.1 .closing with loggers := s.loggers.set logger (.closed h.1 h.2.1) }
  | .tick => some { s with mailbox := s.mailbox ++ [.flush] }
  | .dispatch addr =>
    match s.mailbox with
    | [] => none
    | .flush :: rest => some { s with mailbox := rest }.flushAll
    | .openLogger logger path :: rest => { s with mailbox := rest }.openLogger logger path addr
  | .onExit p => if p ∈ s.exits then some (s.onExit p) else none
  | .handle p => s.handle p
  | .exit p => (s.processes p).map fun _ => s.gone p

end GalaLua.Modules.LogServer
