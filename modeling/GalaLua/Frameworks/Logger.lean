import GalaLua.Library.Rotation
import Mathlib.Data.List.Induction
import Mathlib.Data.Nat.Digits.Defs

/-!
# The logger of a process

Lines wait in a buffer, are appended to the log's file, and the file is copied
to number 0 and emptied when it has grown too large. The system calls succeed
and write all they are given. Of what the numbered files, the file and the
buffer hold, read in this order, only the front is ever lost, and only when
number 8 is renamed to a number 9 that is there (`text_run`).
-/

namespace GalaLua.Frameworks.Logger

open Library.Rotation

-- ---------------------------------------------------------------------------
-- The logger
-- ---------------------------------------------------------------------------

/-- Texts of bytes, and names that the shell reads as they are. -/
abbrev Str := List Char

abbrev Disk := Str → Option Str

inductive Output
  | print
  | write
  deriving DecidableEq, Repr

/-- `fd` is the file it was opened on, and `none` for -1. -/
structure State where
  logLevel : Nat
  buf : List Str
  bufLen : Nat
  logPath : Str
  times : Nat
  fd : Option Str
  output : Output
  disk : Disk

def bufMaxLen : Nat := 500

def fileSize : Nat := 4 * 1024 * 1024

def maxFileNum : Nat := 10

def timesToGetFilesize : Nat := 64

/-- `file_path..'.'..i` -/
def numbered (path : Str) (i : Nat) : Str := path ++ '.' :: Nat.toDigits 10 i

namespace State

variable (s : State)

/-- `cio.open` with `O_CREAT` and `O_APPEND`. -/
def reopen : State :=
  { s with
    fd := some s.logPath
    disk := Function.update s.disk s.logPath (some ((s.disk s.logPath).getD [])) }

/-- `_wirte_v`: one `writev` of the lines. -/
def writeV : State :=
  if s.buf.length = 0 then s
  else
    match s.fd with
    | none => s
    | some fd =>
      { s with
        buf := []
        disk := Function.update s.disk fd (some ((s.disk fd).getD [] ++ s.buf.flatten)) }

def flush : State := if s.buf.length ≠ 0 then s.writeV else s

def finalize : State :=
  let s := s.flush
  if s.fd = none then s else { s with fd := none }

def setPath (path : Str) : State :=
  let s := { s with logPath := path }.finalize.reopen
  if s.fd ≠ none then { s with output := .write } else s

/-- `_f_size`, which is -1 where there is no file. -/
def fSize : Option Str → Int
  | none => -1
  | some fd => ((s.disk fd).getD []).length

/-- `_rename`: `cp`, and `true>` when that has worked. -/
def copyOut (oldPath newPath : Str) (d : Disk) : Disk :=
  match d oldPath with
  | none => d
  | some c => Function.update (Function.update d newPath (some c)) oldPath (some [])

def logFull (filePath : Str) : State :=
  if s.fSize s.fd ≥ fileSize then
    let moved := shiftUp (numbered filePath) (maxFileNum - 1) s.disk
    { s with disk := copyOut filePath (numbered filePath 0) moved }.reopen
  else s

def write (msg : Str) : State :=
  let s := { s with buf := s.buf ++ [msg], bufLen := s.bufLen + msg.length }
  let s := if s.times ≥ timesToGetFilesize then { s with times := 0 }.logFull s.logPath else s
  let s := { s with times := s.times + 1 }
  if s.bufLen ≥ bufMaxLen then s.flush else s

def logLocal : Option Str → State
  | none => s
  | some msg => if s.output = .write then s.write msg else s

/-- `_log`, with the line it has put together. -/
def log (level : Nat) (line : Str) : State :=
  if s.logLevel ≤ level then s.logLocal (some line) else s

end State

def enumDebug : Nat := 1

/-- `init`, the level being that of the process where it has one. -/
def State.init (logLevel : Option Nat) (logPath : Str) (disk : Disk) : State :=
  State.setPath
    { logLevel := logLevel.getD enumDebug, buf := [], bufLen := 0, logPath := logPath, times := 0,
      fd := none, output := .print, disk := disk } logPath

inductive Op
  | log (level : Nat) (line : Str)
  | flush
  | sizeCheck
  deriving DecidableEq, Repr

def step (s : State) : Op → State
  | .log level line => s.log level line
  | .flush => s.flush
  | .sizeCheck => s.logFull s.logPath

def run (s : State) (ops : List Op) : State := ops.foldl step s

def Op.message (logLevel : Nat) : Op → Str
  | .log level line => if logLevel ≤ level then line else []
  | .flush | .sizeCheck => []

/-- The files from the highest number down to 0, the file and the buffer. -/
def State.text (s : State) : Str :=
  joined (fun i => s.disk (numbered s.logPath i)) maxFileNum ++ (s.disk s.logPath).getD [] ++
    s.buf.flatten

-- ---------------------------------------------------------------------------
-- Names
-- ---------------------------------------------------------------------------

theorem numbered_inj (path : Str) :
    ∀ i ≤ 9, ∀ j ≤ 9, numbered path i = numbered path j → i = j := by
  intro i hi j hj h
  have hdigits : Nat.toDigits 10 i = Nat.toDigits 10 j := by simpa [numbered] using h
  have hsmall : ∀ i ≤ 9, ∀ j ≤ 9, Nat.toDigits 10 i = Nat.toDigits 10 j → i = j := by decide
  exact hsmall i hi j hj hdigits

theorem path_ne_numbered (path : Str) (i : Nat) : path ≠ numbered path i := by
  intro h
  have := congrArg List.length h
  simp [numbered] at this

-- ---------------------------------------------------------------------------
-- One operation
-- ---------------------------------------------------------------------------

variable {s s' : State} {msg : Str}

/-- What a logger is after `setPath`. -/
structure Opened (s : State) : Prop where
  fd : s.fd = some s.logPath
  output : s.output = .write
  file : ∃ c, s.disk s.logPath = some c

/-- Number 9 is replaced by number 8, and its text is what is lost. -/
def PushedOut (s s' : State) (msg : Str) : Prop :=
  ∃ out c, s.disk (numbered s.logPath 9) = some out ∧ s.disk (numbered s.logPath 8) = some c ∧
    s'.disk (numbered s.logPath 9) = some c ∧ s.text ++ msg = out ++ s'.text

theorem joined_update (d : Disk) (path : Str) (c : Option Str) (n : Nat) :
    joined (fun i => Function.update d path c (numbered path i)) n =
      joined (fun i => d (numbered path i)) n :=
  joined_congr fun i _ => Function.update_of_ne (path_ne_numbered path i).symm c d

theorem flush_eq (h : s.fd = some s.logPath) :
    s.flush = if s.buf = [] then s else
      { s with
        buf := []
        disk := Function.update s.disk s.logPath
          (some ((s.disk s.logPath).getD [] ++ s.buf.flatten)) } := by
  simp only [State.flush, State.writeV, h, ne_eq, ite_not, List.length_eq_zero_iff]
  split <;> rfl

theorem text_flush (h : s.fd = some s.logPath) : s.flush.text = s.text := by
  rw [flush_eq h]
  split
  · rfl
  · simp only [State.text, joined_update, Function.update_self, Option.getD_some, List.flatten_nil,
      List.append_nil, List.append_assoc]

theorem disk_flush (h : s.fd = some s.logPath) (i : Nat) :
    s.flush.disk (numbered s.logPath i) = s.disk (numbered s.logPath i) := by
  rw [flush_eq h]
  split
  · rfl
  · exact Function.update_of_ne (path_ne_numbered s.logPath i).symm _ _

theorem logPath_flush (h : s.fd = some s.logPath) : s.flush.logPath = s.logPath := by
  rw [flush_eq h]
  split <;> rfl

theorem Opened.flush (h : Opened s) : Opened s.flush := by
  rw [flush_eq h.fd]
  split
  · exact h
  · exact ⟨h.fd, h.output, _, Function.update_self ..⟩

/-- What a rotation makes of the disk `d`. -/
structure Rotated (path : Str) (d d' : Disk) : Prop where
  file : d' path = some []
  copied : d' (numbered path 0) = d path
  moved : ∀ i < 8, d' (numbered path (i + 1)) = d (numbered path i)
  top : d' (numbered path 9) = (d (numbered path 8)).or (d (numbered path 9))

theorem rotated_copyOut {path c : Str} {d : Disk} (hc : d path = some c) :
    Rotated path d
      (State.copyOut path (numbered path 0) (shiftUp (numbered path) (maxFileNum - 1) d)) := by
  have hself : shiftUp (numbered path) (maxFileNum - 1) d path = some c :=
    (shiftUp_of_ne fun i _ => path_ne_numbered path i).trans hc
  -- a number above 0 is left as it was moved
  have hup : ∀ i < 9, State.copyOut path (numbered path 0)
      (shiftUp (numbered path) (maxFileNum - 1) d) (numbered path (i + 1)) =
        shiftUp (numbered path) (maxFileNum - 1) d (numbered path (i + 1)) := by
    intro i hi
    have h0 : numbered path (i + 1) ≠ numbered path 0 := fun heq => by
      have := numbered_inj path (i + 1) (by omega) 0 (by omega) heq
      omega
    simp only [State.copyOut, hself]
    rw [Function.update_of_ne (path_ne_numbered path (i + 1)).symm, Function.update_of_ne h0]
  refine ⟨?_, ?_, fun i hi => ?_, ?_⟩
  · simp only [State.copyOut, hself, Function.update_self]
  · simp only [State.copyOut, hself, hc]
    rw [Function.update_of_ne (path_ne_numbered path 0).symm, Function.update_self]
  · rw [hup i (by omega)]
    exact shiftUp_succ (numbered_inj path) (by simp only [maxFileNum]; omega)
  · rw [hup 8 (by omega)]
    exact shiftUp_top (numbered_inj path)

theorem logFull_cases (h : Opened s) :
    s.logFull s.logPath = s ∨
      ∃ d, s.logFull s.logPath = { s with disk := d } ∧ Rotated s.logPath s.disk d := by
  simp only [State.logFull]
  split
  case isFalse => exact .inl rfl
  obtain ⟨c, hc⟩ := h.file
  have hrot := rotated_copyOut hc
  refine .inr ⟨_, ?_, hrot⟩
  simp only [State.reopen, hrot.file, Option.getD_some, h.fd]
  rw [← hrot.file, Function.update_eq_self]

theorem Opened.logFull (h : Opened s) : Opened (s.logFull s.logPath) := by
  rcases logFull_cases h with heq | ⟨d, heq, hrot⟩
  · rw [heq]
    exact h
  · rw [heq]
    exact ⟨h.fd, h.output, _, hrot.file⟩

/-- A rotation keeps the text, but for what number 9 held when number 8 moves there. -/
theorem text_logFull (h : Opened s) :
    s.text = (s.logFull s.logPath).text ∨ PushedOut s (s.logFull s.logPath) [] := by
  rcases logFull_cases h with heq | ⟨d, heq, hrot⟩
  · exact .inl (congrArg State.text heq.symm)
  rw [heq]
  have hfile : (d (numbered s.logPath 0)).getD [] = (s.disk s.logPath).getD [] := by
    rw [hrot.copied]
  -- the file emptied has become number 0
  have htext : ∀ out : Str, joined (fun i => s.disk (numbered s.logPath i)) maxFileNum ++
      (d (numbered s.logPath 0)).getD [] = out ++ joined (fun i => d (numbered s.logPath i)) maxFileNum →
      s.text = out ++ { s with disk := d }.text := by
    intro out hjoined
    simp only [State.text, hrot.file, ← hfile, hjoined, Option.getD_some, List.append_assoc,
      List.nil_append]
  have hshift := joined_shiftUp (n := 8) (f := fun i => s.disk (numbered s.logPath i))
    (g := fun i => d (numbered s.logPath i)) hrot.moved hrot.top
  rcases hshift with hsame | ⟨out, c, h9, h8, hnew, hjoined⟩
  · exact .inl (htext [] hsame)
  · refine .inr ⟨out, c, h9, h8, hnew, ?_⟩
    rw [List.append_nil]
    exact htext out hjoined

-- ---------------------------------------------------------------------------
-- Messages
-- ---------------------------------------------------------------------------

theorem logPath_logFull (h : Opened s) : (s.logFull s.logPath).logPath = s.logPath := by
  rcases logFull_cases h with heq | ⟨d, heq, -⟩ <;> rw [heq]

theorem logLevel_logFull (h : Opened s) : (s.logFull s.logPath).logLevel = s.logLevel := by
  rcases logFull_cases h with heq | ⟨d, heq, -⟩ <;> rw [heq]

theorem logLevel_flush (s : State) : s.flush.logLevel = s.logLevel := by
  simp only [State.flush, State.writeV]
  split
  · split
    · rfl
    · cases s.fd <;> rfl
  · rfl

/-- What a step of an opened logger does that logs `msg`. -/
structure Keeps (s s' : State) (msg : Str) : Prop where
  opened : Opened s'
  logPath : s'.logPath = s.logPath
  logLevel : s'.logLevel = s.logLevel
  text : s'.text = s.text ++ msg ∨ PushedOut s s' msg

theorem Keeps.refl (h : Opened s) : Keeps s s [] :=
  ⟨h, rfl, rfl, .inl (List.append_nil _).symm⟩

theorem keeps_logFull (h : Opened s) : Keeps s (s.logFull s.logPath) [] := by
  refine ⟨h.logFull, logPath_logFull h, logLevel_logFull h, ?_⟩
  rcases text_logFull h with heq | hout
  · exact .inl (by rw [← heq, List.append_nil])
  · exact .inr hout

theorem Keeps.flush (h : Keeps s s' msg) : Keeps s s'.flush msg := by
  have hfd := h.opened.fd
  refine ⟨h.opened.flush, (logPath_flush hfd).trans h.logPath, (logLevel_flush s').trans h.logLevel, ?_⟩
  rcases h.text with htext | ⟨out, c, h9, h8, hnew, htext⟩
  · exact .inl ((text_flush hfd).trans htext)
  · refine .inr ⟨out, c, h9, h8, ?_, ?_⟩
    · rw [← h.logPath, disk_flush hfd, h.logPath]
      exact hnew
    · rw [text_flush hfd]
      exact htext

theorem text_buffered (n : Nat) :
    { s with buf := s.buf ++ [msg], bufLen := n }.text = s.text ++ msg := by
  simp [State.text, List.append_assoc]

theorem Keeps.buffered (n : Nat) (h : Keeps { s with buf := s.buf ++ [msg], bufLen := n } s' []) :
    Keeps s s' msg := by
  refine ⟨h.opened, h.logPath, h.logLevel, ?_⟩
  rcases h.text with htext | ⟨out, c, h9, h8, hnew, htext⟩
  · rw [text_buffered, List.append_nil] at htext
    exact .inl htext
  · rw [text_buffered, List.append_nil] at htext
    exact .inr ⟨out, c, h9, h8, hnew, htext⟩

theorem keeps_write (h : Opened s) (msg : Str) : Keeps s (s.write msg) msg := by
  have hbuffered : Opened { s with buf := s.buf ++ [msg], bufLen := s.bufLen + msg.length } :=
    ⟨h.fd, h.output, h.file⟩
  have hchecked : Keeps s
      (if s.times ≥ timesToGetFilesize then
        { s with buf := s.buf ++ [msg], bufLen := s.bufLen + msg.length, times := 0 }.logFull s.logPath
      else { s with buf := s.buf ++ [msg], bufLen := s.bufLen + msg.length }) msg := by
    split
    · have hfull := keeps_logFull (s := { s with
          buf := s.buf ++ [msg], bufLen := s.bufLen + msg.length, times := 0 }) ⟨h.fd, h.output, h.file⟩
      exact Keeps.buffered (s.bufLen + msg.length) ⟨hfull.opened, hfull.logPath, hfull.logLevel, hfull.text⟩
    · exact Keeps.buffered _ (Keeps.refl hbuffered)
  simp only [State.write]
  generalize (if s.times ≥ timesToGetFilesize then
    { s with buf := s.buf ++ [msg], bufLen := s.bufLen + msg.length, times := 0 }.logFull s.logPath
    else { s with buf := s.buf ++ [msg], bufLen := s.bufLen + msg.length }) = checked at hchecked ⊢
  have htimes : Keeps s { checked with times := checked.times + 1 } msg :=
    ⟨⟨hchecked.opened.fd, hchecked.opened.output, hchecked.opened.file⟩, hchecked.logPath,
      hchecked.logLevel, hchecked.text⟩
  split
  · exact htimes.flush
  · exact htimes

theorem keeps_step (h : Opened s) (op : Op) : Keeps s (step s op) (op.message s.logLevel) := by
  cases op with
  | log level line =>
    simp only [step, State.log, Op.message, State.logLocal, h.output, if_true]
    split
    · exact keeps_write h line
    · exact Keeps.refl h
  | flush => exact (Keeps.refl h).flush
  | sizeCheck => exact keeps_logFull h

theorem opened_setPath (s : State) (path : Str) : Opened (s.setPath path) := by
  have hopen : ∀ s : State, Opened { s.reopen with output := .write } := fun s =>
    ⟨rfl, rfl, _, Function.update_self ..⟩
  exact hopen _

theorem logLevel_setPath (s : State) (path : Str) : (s.setPath path).logLevel = s.logLevel := by
  have hfinal : ∀ s : State, s.finalize.logLevel = s.logLevel := fun s => by
    simp only [State.finalize]
    split <;> exact logLevel_flush s
  exact hfinal _

/-- The messages of a run. -/
def logged (logLevel : Nat) (ops : List Op) : Str := ops.flatMap (Op.message logLevel)

theorem run_keeps (h : Opened s) (ops : List Op) :
    Opened (run s ops) ∧ (run s ops).logPath = s.logPath ∧ (run s ops).logLevel = s.logLevel ∧
      (run s ops).text <:+ s.text ++ logged s.logLevel ops := by
  induction ops using List.reverseRecOn with
  | nil => exact ⟨h, rfl, rfl, by simp [run, logged]⟩
  | append_singleton ops op ih =>
    obtain ⟨hopened, hpath, hlevel, front, hfront⟩ := ih
    have hstep := keeps_step hopened op
    have hrun : run s (ops ++ [op]) = step (run s ops) op := by simp [run]
    have hlogged : logged s.logLevel (ops ++ [op]) =
        logged s.logLevel ops ++ op.message (run s ops).logLevel := by simp [logged, hlevel]
    rw [hrun, hlogged]
    refine ⟨hstep.opened, hstep.logPath.trans hpath, hstep.logLevel.trans hlevel, ?_⟩
    rcases hstep.text with htext | ⟨out, c, -, -, -, htext⟩
    · exact ⟨front, by rw [htext, ← List.append_assoc, hfront, List.append_assoc]⟩
    · exact ⟨front ++ out, by
        rw [List.append_assoc, ← htext, ← List.append_assoc, hfront, List.append_assoc]⟩

/-- After `setPath`, what is kept is the end of what the files and the buffer
held then and of all messages since, and a step loses only what is pushed out. -/
theorem text_run (s : State) (path : Str) (ops : List Op) (op : Op) :
    (run (s.setPath path) ops).text <:+ (s.setPath path).text ++ logged s.logLevel ops ∧
      ((run (s.setPath path) (ops ++ [op])).text =
          (run (s.setPath path) ops).text ++ op.message s.logLevel ∨
        PushedOut (run (s.setPath path) ops) (run (s.setPath path) (ops ++ [op]))
          (op.message s.logLevel)) := by
  have hopened := opened_setPath s path
  have hlevel := logLevel_setPath s path
  obtain ⟨hrun, -, hrunLevel, hsuffix⟩ := run_keeps hopened ops
  have hstep := (keeps_step hrun op).text
  have hlast : run (s.setPath path) (ops ++ [op]) = step (run (s.setPath path) ops) op := by
    simp [run]
  rw [hlevel] at hsuffix
  rw [hrunLevel, hlevel] at hstep
  rw [hlast]
  exact ⟨hsuffix, hstep⟩

/-- A file that was there before: its text is kept, and is no message. -/
theorem old_text_kept :
    ¬∀ (logLevel : Option Nat) (path : Str) (disk : Disk) (ops : List Op),
      (run (State.init logLevel path disk) ops).text <:+ logged (logLevel.getD enumDebug) ops := by
  intro h
  have hold := h none ['a'] (fun p => if p = ['a'] then some ['o', 'l', 'd'] else none) []
  exact absurd hold (by decide)

end GalaLua.Frameworks.Logger
