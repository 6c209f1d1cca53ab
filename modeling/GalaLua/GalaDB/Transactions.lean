import GalaLua.Library.Prefixes
import Mathlib.Data.List.Basic

/-!
# Transactions

`with` and `withReadOnly` run an action in a transaction and abort what it leaves
open, also a transaction that LMDB has freed because it refused the commit. The
writes of an outermost call are numbered, and the run records each call of the two
methods that an action makes: what was pending before and after it, and how many
commits had been called.
-/

namespace GalaLua.GalaDB.Transactions

open Library.Prefixes (getElem?_of_isPrefix)

-- ---------------------------------------------------------------------------
-- Data
-- ---------------------------------------------------------------------------

inductive Method
  | with'
  | withReadOnly
  deriving DecidableEq

/-- What an action does. A step that raises ends it, unless the step is in a `pcall`. -/
inductive Action
  | done
  | fail
  | write (guarded : Bool) (next : Action)
  /-- `ok` is the answer of LMDB, which takes every commit of a read-only transaction -/
  | commit (ok guarded : Bool) (next : Action)
  /-- `begins` is the answer of LMDB where a transaction is begun -/
  | call (method : Method) (begins guarded : Bool) (inner next : Action)

structure Txn where
  readOnly : Bool
  /-- a commit was refused, and LMDB has freed the transaction -/
  failed : Bool
  pending : List ℕ

/-- A call of `with` or `withReadOnly` that an action made. -/
structure Visit where
  method : Method
  before : List ℕ
  after : List ℕ
  /-- the number of commits before the call, and behind it -/
  commits : ℕ
  commitsAfter : ℕ

structure State where
  txn : Option Txn
  persisted : List ℕ
  /-- the number of the next write -/
  write : ℕ
  /-- the answers to the commits of an open transaction -/
  commits : List Bool
  visits : List Visit
  /-- LMDB was called with a transaction that it had freed; what the program does from
  there on is undefined -/
  misused : Bool

def State.failed (s : State) : Bool := (s.txn.map Txn.failed).getD false

def State.pending (s : State) : List ℕ := (s.txn.map Txn.pending).getD []

-- ---------------------------------------------------------------------------
-- mdb
-- ---------------------------------------------------------------------------

/-- A method: the state behind it, and if it raises. -/
abbrev Run := State → State × Bool

/-- `txn:put` -/
def put : Run := fun s =>
  match s.txn with
  | none => (s, true)
  | some t =>
    if t.failed then ({ s with misused := true }, true)
    else if t.readOnly then (s, true)
    else ({ s with txn := some { t with pending := t.pending ++ [s.write] }, write := s.write + 1 }, false)

def commit (ok : Bool) : Run := fun s =>
  match s.txn with
  | none => (s, true)
  | some t =>
    if t.failed then ({ s with misused := true }, true)
    else if t.readOnly || ok then
      ({ s with txn := none, persisted := s.persisted ++ t.pending, commits := s.commits ++ [true] }, false)
    -- `assert` raises, and `txn` is not cleared
    else ({ s with txn := some ⟨t.readOnly, true, []⟩, commits := s.commits ++ [false] }, true)

/-- `abort`, where there is something to abort. -/
def State.abort (s : State) : State := { s with txn := none, misused := s.misused || s.failed }

def withTxn (action : Run) : Run := fun s =>
  let r := action s
  (r.1.abort, r.2)

def State.begin (s : State) (readOnly : Bool) : State := { s with txn := some ⟨readOnly, false, []⟩ }

/-- `with` and `withReadOnly`. -/
def Method.run (method : Method) (begins : Bool) (action : Run) : Run := fun s =>
  match method, s.txn with
  | .with', some _ => withTxn action s
  | .with', none => if begins then withTxn action (s.begin false) else (s, true)
  -- Alredy in Transaction
  | .withReadOnly, some _ => (s, true)
  | .withReadOnly, none => if begins then withTxn action (s.begin true) else (s, true)

def State.visit (s t : State) (method : Method) : State :=
  { t with visits := t.visits ++ [⟨method, s.pending, t.pending, s.commits.length, t.commits.length⟩] }

def visited (method : Method) (call : Run) : Run := fun s =>
  let r := call s
  (s.visit r.1 method, r.2)

/-- A step, and the rest of the action unless the step raises. -/
def andThen (step : Run) (guarded : Bool) (next : Run) : Run := fun s =>
  let r := step s
  if r.2 && !guarded then r else next r.1

def Action.run : Action → Run
  | .done => fun s => (s, false)
  | .fail => fun s => (s, true)
  | .write guarded next => andThen put guarded next.run
  | .commit ok guarded next => andThen (Transactions.commit ok) guarded next.run
  | .call method begins guarded inner next =>
    andThen (visited method (method.run begins inner.run)) guarded next.run

def State.init : State := ⟨none, [], 0, [], [], false⟩

/-- The state after an outermost call. -/
def outermost (method : Method) (begins : Bool) (action : Action) : State :=
  (method.run begins action.run .init).1

-- ---------------------------------------------------------------------------
-- The scope of a transaction
-- ---------------------------------------------------------------------------

def Visit.Called (v : Visit) : Prop := v.commits < v.commitsAfter

/-- The call ends with nothing undefined and no transaction open. What is pending
before an inner `with` is pending after it if no commit was called in it, and persists
if and only if the next commit is called and succeeds. -/
structure State.Scoped (s : State) : Prop where
  defined : s.misused = false
  closed : s.txn = none
  pending : ∀ v ∈ s.visits, v.method = .with' → ¬ v.Called → v.before ⊆ v.after
  persisted : ∀ v ∈ s.visits, v.method = .with' → ∀ w ∈ v.before,
    w ∈ s.persisted ↔ s.commits[v.commits]? = some true

/-- An inner `with` that is called with writes pending calls `commit`. -/
def Visit.Commits (v : Visit) : Prop := v.method = .with' → v.before ≠ [] → v.Called

/-- A freed transaction is the one of a refused commit, until something is done with it. -/
def State.Sound (s : State) : Prop := false ∈ s.commits ↔ s.misused = true ∨ s.failed = true

variable {s t u : State}

/-- A write is persisted or not, and not pending any more. -/
structure State.Resolved (s : State) (w : ℕ) (b : Bool) : Prop where
  made : w < s.write
  settled : w ∉ s.pending
  persisted : w ∈ s.persisted ↔ b = true

/-- What every part of a run keeps. -/
structure Grows (s t : State) : Prop where
  visits : s.visits <+: t.visits
  commits : s.commits <+: t.commits
  persisted : s.persisted ⊆ t.persisted
  write : s.write ≤ t.write
  /-- no write is pending or persisted again -/
  pending_old : ∀ w < s.write, w ∈ t.pending → w ∈ s.pending
  persisted_old : ∀ w < s.write, w ∈ t.persisted → w ∈ s.persisted ∨ w ∈ s.pending
  /-- an inner `with` leaves nothing pending -/
  emptied : ∀ v ∈ t.visits, v ∈ s.visits ∨ (v.method = .with' → v.after = [])

structure State.Numbered (s : State) : Prop where
  pending : ∀ w ∈ s.pending, w < s.write ∧ w ∉ s.persisted
  persisted : ∀ w ∈ s.persisted, w < s.write

/-- What becomes of pending writes where every inner `with` calls `commit`. -/
structure Keeps (s t : State) : Prop where
  pending : t.commits.length = s.commits.length → s.pending ⊆ t.pending
  resolved : ∀ b, t.commits[s.commits.length]? = some b → ∀ w ∈ s.pending, t.Resolved w b
  visits : ∀ v ∈ t.visits, v ∈ s.visits ∨
    (v.method = .with' → ∀ w ∈ v.before, ∃ b, t.commits[v.commits]? = some b ∧ t.Resolved w b)

/-- A part of a run. -/
structure Part (s t : State) : Prop where
  grows : Grows s t
  sound : s.Sound → t.Sound
  numbered : s.Numbered → t.Numbered
  keeps : s.Numbered → (∀ v ∈ t.visits, v.Commits) → Keeps s t

theorem Grows.refl (s : State) : Grows s s :=
  ⟨List.prefix_rfl, List.prefix_rfl, List.Subset.refl _, Nat.le_refl _, fun _ _ h => h, fun _ _ h => .inl h,
    fun _ hv => .inl hv⟩

theorem Grows.trans (hs : Grows s t) (ht : Grows t u) : Grows s u where
  visits := hs.visits.trans ht.visits
  commits := hs.commits.trans ht.commits
  persisted := List.Subset.trans hs.persisted ht.persisted
  write := Nat.le_trans hs.write ht.write
  pending_old w hw h := hs.pending_old w hw (ht.pending_old w (Nat.lt_of_lt_of_le hw hs.write) h)
  persisted_old w hw h := by
    rcases ht.persisted_old w (Nat.lt_of_lt_of_le hw hs.write) h with h | h
    · exact hs.persisted_old w hw h
    · exact .inr (hs.pending_old w hw h)
  emptied v hv := by
    rcases ht.emptied v hv with hv | hv
    · exact hs.emptied v hv
    · exact .inr hv

theorem State.Resolved.grow {w : ℕ} {b : Bool} (h : s.Resolved w b) (hs : Grows s t) : t.Resolved w b where
  made := Nat.lt_of_lt_of_le h.made hs.write
  settled hmem := h.settled (hs.pending_old w h.made hmem)
  persisted := by
    rw [← h.persisted]
    exact ⟨fun hmem => (hs.persisted_old w h.made hmem).resolve_right h.settled, fun hmem => hs.persisted hmem⟩

theorem Keeps.refl (s : State) : Keeps s s where
  pending _ := List.Subset.refl _
  resolved b hb := by simp at hb
  visits v hv := .inl hv

theorem Keeps.trans (hs : Keeps s t) (ht : Keeps t u) (hst : Grows s t) (htu : Grows t u) : Keeps s u where
  pending h := by
    have hle := hst.commits.length_le
    have hle' := htu.commits.length_le
    exact List.Subset.trans (hs.pending (by omega)) (ht.pending (by omega))
  resolved b hb w hw := by
    have hle := hst.commits.length_le
    rcases Nat.lt_or_ge s.commits.length t.commits.length with hlt | hge
    · -- the commit was called in the first part
      have hfirst := getElem?_of_isPrefix htu.commits (List.getElem?_eq_getElem hlt)
      rw [hb] at hfirst
      obtain rfl := Option.some.inj hfirst
      exact (hs.resolved _ (List.getElem?_eq_getElem hlt) w hw).grow htu
    · have hlength : t.commits.length = s.commits.length := by omega
      exact ht.resolved b (hlength ▸ hb) w (hs.pending hlength hw)
  visits v hv := by
    rcases ht.visits v hv with hv | hv
    · refine (hs.visits v hv).imp_right fun h hwith w hw => ?_
      obtain ⟨b, hb, hresolved⟩ := h hwith w hw
      exact ⟨b, getElem?_of_isPrefix htu.commits hb, hresolved.grow htu⟩
    · exact .inr hv

theorem Part.refl (s : State) : Part s s := ⟨.refl s, id, id, fun _ _ => .refl s⟩

theorem Part.misused (hfailed : s.failed = true) : Part s { s with misused := true } where
  grows := ⟨List.prefix_rfl, List.prefix_rfl, List.Subset.refl _, Nat.le_refl _, fun _ _ h => h, fun _ _ h => .inl h,
    fun _ hv => .inl hv⟩
  sound h := iff_of_true (h.mpr (.inr hfailed)) (.inl rfl)
  numbered h := ⟨h.pending, h.persisted⟩
  keeps _ _ := ⟨fun _ => List.Subset.refl _, fun b hb => by simp at hb, fun v hv => .inl hv⟩

theorem Part.trans (hs : Part s t) (ht : Part t u) : Part s u where
  grows := hs.grows.trans ht.grows
  sound h := ht.sound (hs.sound h)
  numbered h := ht.numbered (hs.numbered h)
  keeps h hv := (hs.keeps h fun v hmem => hv v (ht.grows.visits.subset hmem)).trans (ht.keeps (hs.numbered h) hv)
    hs.grows ht.grows

-- ---------------------------------------------------------------------------
-- Steps
-- ---------------------------------------------------------------------------

theorem put_part (s : State) : Part s (put s).1 := by
  rw [put]
  cases htxn : s.txn with
  | none => exact .refl s
  | some txn =>
    dsimp only
    split
    · next hfailed =>
      have hfreed : s.failed = true := by simpa [State.failed, htxn] using hfailed
      rw [← htxn]
      exact .misused hfreed
    split
    · exact .refl s
    · have hpending : s.pending = txn.pending := by simp [State.pending, htxn]
      refine ⟨⟨List.prefix_rfl, List.prefix_rfl, List.Subset.refl _, Nat.le_succ _, fun w hw hmem => ?_,
        fun w _ h => .inl h, fun v hv => .inl hv⟩, fun h => ?_, fun h => ⟨fun w hw => ?_, fun w hw => ?_⟩, fun _ _ => ?_⟩
      · rw [hpending]
        simp only [State.pending, Option.map_some, Option.getD_some, List.mem_append, List.mem_singleton] at hmem
        exact hmem.resolve_right (Nat.ne_of_lt hw)
      · simpa only [State.Sound, State.failed, htxn, Option.map_some, Option.getD_some] using h
      · simp only [State.pending, Option.map_some, Option.getD_some, List.mem_append, List.mem_singleton] at hw
        rcases hw with hw | rfl
        · obtain ⟨hlt, hnot⟩ := h.pending w (hpending ▸ hw)
          exact ⟨Nat.lt_succ_of_lt hlt, hnot⟩
        · exact ⟨Nat.lt_succ_self _, fun hmem => absurd (h.persisted _ hmem) (Nat.lt_irrefl _)⟩
      · exact Nat.lt_succ_of_lt (h.persisted w hw)
      · refine ⟨fun _ => ?_, fun b hb => by simp at hb, fun v hv => .inl hv⟩
        rw [hpending]
        exact List.subset_append_left _ _

theorem commit_part (ok : Bool) (s : State) : Part s (commit ok s).1 := by
  rw [commit]
  cases htxn : s.txn with
  | none => exact .refl s
  | some txn =>
    have hpending : s.pending = txn.pending := by simp [State.pending, htxn]
    dsimp only
    split
    · next hfailed =>
      have hfreed : s.failed = true := by simpa [State.failed, htxn] using hfailed
      rw [← htxn]
      exact .misused hfreed
    · next hfailed =>
      have hsound : s.Sound → (false ∈ s.commits ↔ s.misused = true) := fun h => by
        simpa [State.Sound, State.failed, htxn, hfailed] using h
      split
      · refine ⟨⟨List.prefix_rfl, List.prefix_append _ _, List.subset_append_left _ _, Nat.le_refl _,
          fun w _ hmem => ?_, fun w _ hmem => ?_, fun v hv => .inl hv⟩, fun h => ?_,
          fun h => ⟨fun w hw => ?_, fun w hw => ?_⟩, fun h _ => ?_⟩
        · cases hmem
        · rw [hpending]
          exact List.mem_append.mp hmem
        · simpa [State.Sound, State.failed] using hsound h
        · cases hw
        · rcases List.mem_append.mp hw with hw | hw
          · exact h.persisted w hw
          · exact (h.pending w (hpending ▸ hw)).1
        · refine ⟨fun hlength => by simp at hlength, fun b hb w hw => ?_, fun v hv => .inl hv⟩
          obtain rfl : true = b := by simpa using hb
          exact ⟨(h.pending w hw).1, List.not_mem_nil, by simp [← hpending, hw]⟩
      · refine ⟨⟨List.prefix_rfl, List.prefix_append _ _, List.Subset.refl _, Nat.le_refl _, fun w _ hmem => ?_,
          fun w _ hmem => .inl hmem, fun v hv => .inl hv⟩,
          fun _ => iff_of_true (List.mem_append_right _ List.mem_cons_self) (.inr rfl),
          fun h => ⟨fun w hw => ?_, h.persisted⟩, fun h _ => ?_⟩
        · cases hmem
        · cases hw
        · refine ⟨fun hlength => by simp at hlength, fun b hb w hw => ?_, fun v hv => .inl hv⟩
          obtain rfl : false = b := by simpa using hb
          exact ⟨(h.pending w hw).1, List.not_mem_nil, by simp [(h.pending w hw).2]⟩

theorem andThen_part {step next : Run} (hstep : ∀ s, Part s (step s).1) (hnext : ∀ s, Part s (next s).1)
    (guarded : Bool) (s : State) : Part s (andThen step guarded next s).1 := by
  rw [andThen]
  split
  · exact hstep s
  · exact (hstep s).trans (hnext _)

theorem begin_part (htxn : s.txn = none) (readOnly : Bool) : Part s (s.begin readOnly) := by
  have hpending : s.pending = [] := by simp [State.pending, htxn]
  refine ⟨⟨List.prefix_rfl, List.prefix_rfl, List.Subset.refl _, Nat.le_refl _, fun w _ hmem => ?_, fun w _ h => .inl h,
    fun v hv => .inl hv⟩, fun h => ?_, fun h => ⟨fun w hw => ?_, h.persisted⟩, fun _ _ => ?_⟩
  · cases hmem
  · simpa [State.Sound, State.failed, State.begin, htxn] using h
  · cases hw
  · exact ⟨fun _ => by simp [hpending], fun b hb => by simp [State.begin] at hb, fun v hv => .inl hv⟩

theorem grows_abort (s : State) : Grows s s.abort :=
  ⟨List.prefix_rfl, List.prefix_rfl, List.Subset.refl _, Nat.le_refl _, nofun, fun _ _ h => .inl h, fun _ hv => .inl hv⟩

theorem sound_abort (h : s.Sound) : s.abort.Sound := by
  simpa [State.Sound, State.failed, State.abort] using h

/-- The visit changes nothing but the record. -/
theorem Part.visit (h : Part s t) (method : Method) (hafter : method = .with' → t.pending = [])
    (hbefore : method = .with' → s.pending = []) : Part s (s.visit t method) where
  grows :=
    { h.grows with
      visits := h.grows.visits.trans (List.prefix_append _ _)
      emptied := fun v hv => by
        rcases List.mem_append.mp hv with hv | hv
        · exact h.grows.emptied v hv
        · rw [List.mem_singleton.mp hv]
          exact .inr hafter }
  sound hs := h.sound hs
  numbered hs := ⟨(h.numbered hs).pending, (h.numbered hs).persisted⟩
  keeps hs hv := by
    have hkeeps := h.keeps hs fun v hmem => hv v (List.mem_append_left _ hmem)
    refine ⟨hkeeps.pending, fun b hb w hw => ?_, fun v hmem => ?_⟩
    · have hresolved := hkeeps.resolved b hb w hw
      exact ⟨hresolved.made, hresolved.settled, hresolved.persisted⟩
    · rcases List.mem_append.mp hmem with hmem | hmem
      · refine (hkeeps.visits v hmem).imp_right fun hvisit hwith w hw => ?_
        obtain ⟨b, hb, hresolved⟩ := hvisit hwith w hw
        exact ⟨b, hb, hresolved.made, hresolved.settled, hresolved.persisted⟩
      · rw [List.mem_singleton.mp hmem]
        refine .inr fun hwith w hw => ?_
        rw [hbefore hwith] at hw
        cases hw

/-- The visit of a call that aborts what its action leaves open. What was pending is
resolved by a commit in the action, or it was nothing. -/
theorem Part.visit_abort (h : Part s t) (method : Method) (hmethod : method = .with' ∨ s.pending = []) :
    Part s (s.visit t.abort method) where
  grows :=
    { h.grows.trans (grows_abort t) with
      visits := h.grows.visits.trans (List.prefix_append _ _)
      emptied := fun v hv => by
        rcases List.mem_append.mp hv with hv | hv
        · exact h.grows.emptied v hv
        · rw [List.mem_singleton.mp hv]
          exact .inr fun _ => rfl }
  sound hs := sound_abort (h.sound hs)
  numbered hs := ⟨nofun, (h.numbered hs).persisted⟩
  keeps hs hv := by
    have hkeeps := h.keeps hs fun v hmem => hv v (List.mem_append_left _ hmem)
    have hcalled : s.pending = [] ∨ s.commits.length < t.commits.length := by
      rcases hmethod with hwith | hnone
      · rw [or_iff_not_imp_left]
        exact hv _ (List.mem_append_right _ (List.mem_singleton_self _)) hwith
      · exact .inl hnone
    have hgrow : ∀ {w b}, t.Resolved w b → (s.visit t.abort method).Resolved w b := fun hresolved =>
      ⟨hresolved.made, List.not_mem_nil, hresolved.persisted⟩
    refine ⟨fun hlength => ?_, fun b hb w hw => hgrow (hkeeps.resolved b hb w hw), fun v hmem => ?_⟩
    · rw [hcalled.resolve_right (Nat.not_lt.mpr (Nat.le_of_eq hlength))]
      exact List.nil_subset _
    · rcases List.mem_append.mp hmem with hmem | hmem
      · refine (hkeeps.visits v hmem).imp_right fun hvisit hwith w hw => ?_
        obtain ⟨b, hb, hresolved⟩ := hvisit hwith w hw
        exact ⟨b, hb, hgrow hresolved⟩
      · rw [List.mem_singleton.mp hmem]
        refine .inr fun _ w hw => ?_
        have hlt := hcalled.resolve_left (List.ne_nil_of_mem hw)
        have hfirst := List.getElem?_eq_getElem hlt
        exact ⟨_, hfirst, hgrow (hkeeps.resolved _ hfirst w hw)⟩

theorem visited_part (method : Method) (begins : Bool) {action : Run} (haction : ∀ s, Part s (action s).1) (s : State) :
    Part s (visited method (method.run begins action) s).1 := by
  have hpending : s.txn = none → s.pending = [] := fun htxn => by simp [State.pending, htxn]
  rw [visited, Method.run.eq_def]
  split
  · exact (haction s).visit_abort .with' (.inl rfl)
  · next htxn =>
    split
    · exact ((begin_part htxn false).trans (haction _)).visit_abort .with' (.inl rfl)
    · exact (Part.refl s).visit .with' (fun _ => hpending htxn) fun _ => hpending htxn
  · exact (Part.refl s).visit .withReadOnly nofun nofun
  · next htxn =>
    split
    · exact ((begin_part htxn true).trans (haction _)).visit_abort .withReadOnly (.inr (hpending htxn))
    · exact (Part.refl s).visit .withReadOnly nofun nofun

theorem action_part (action : Action) (s : State) : Part s (action.run s).1 := by
  induction action generalizing s with
  | done => exact .refl s
  | fail => exact .refl s
  | write guarded next ih => exact andThen_part put_part ih guarded s
  | commit ok guarded next ih => exact andThen_part (commit_part ok) ih guarded s
  | call method begins guarded inner next ihInner ih =>
    exact andThen_part (visited_part method begins ihInner) ih guarded s

-- ---------------------------------------------------------------------------
-- The outermost call
-- ---------------------------------------------------------------------------

theorem numbered_init : State.init.Numbered := ⟨nofun, nofun⟩

theorem outermost_cases (method : Method) (begins : Bool) (action : Action) :
    outermost method begins action = .init ∨
      ∃ s, Part .init s ∧ outermost method begins action = s.abort := by
  have hbegin : ∀ readOnly, Part .init (action.run (State.init.begin readOnly)).1 := fun readOnly =>
    (begin_part rfl readOnly).trans (action_part action _)
  cases method <;> cases begins
  · exact .inl rfl
  · exact .inr ⟨_, hbegin false, rfl⟩
  · exact .inl rfl
  · exact .inr ⟨_, hbegin true, rfl⟩

theorem sound_init : State.init.Sound := iff_of_false List.not_mem_nil (by decide)

/-- Writes keep their transaction through the calls of an action if and only if every
`with` that is called with writes pending calls `commit`, and LMDB takes every commit:
one that it refuses is aborted once more. -/
theorem scoped_iff (method : Method) (begins : Bool) (action : Action) :
    (outermost method begins action).Scoped ↔
      (∀ v ∈ (outermost method begins action).visits, v.Commits) ∧
        false ∉ (outermost method begins action).commits := by
  rcases outermost_cases method begins action with hinit | ⟨s, hpart, hs⟩
  · rw [hinit]
    exact iff_of_true ⟨rfl, rfl, nofun, nofun⟩ ⟨nofun, List.not_mem_nil⟩
  · rw [hs]
    have hdefined : s.abort.misused = false ↔ false ∉ s.abort.commits := by
      have hsound := sound_abort (hpart.sound sound_init)
      rw [State.Sound, or_iff_left (show ¬s.abort.failed = true from Bool.false_ne_true)] at hsound
      rw [hsound, Bool.not_eq_true]
    constructor
    · intro h
      refine ⟨fun v hv hwith hne => ?_, hdefined.mp h.defined⟩
      by_contra hnot
      have hafter := ((hpart.grows.emptied v hv).resolve_left List.not_mem_nil) hwith
      have hsub := h.pending v hv hwith hnot
      rw [hafter] at hsub
      exact hne (List.subset_nil.mp hsub)
    · rintro ⟨hv, htaken⟩
      have hkeeps := hpart.keeps numbered_init hv
      refine ⟨hdefined.mpr htaken, rfl, fun v hmem hwith hnot => ?_, fun v hmem hwith w hw => ?_⟩
      · have hnil : v.before = [] := by
          by_contra hne
          exact hnot (hv v hmem hwith hne)
        rw [hnil]
        exact List.nil_subset _
      · obtain ⟨b, hb, hresolved⟩ := ((hkeeps.visits v hmem).resolve_left List.not_mem_nil) hwith w hw
        have hgrow := hresolved.grow (grows_abort s)
        rw [hgrow.persisted]
        exact ⟨fun htrue => htrue ▸ hb, fun hsome => Option.some.inj (hb.symm.trans hsome)⟩

/-- The inner `with` drops the write of the outer action. -/
theorem write_dropped : ¬ (outermost .with' true (.write false (.call .with' true false .done .done))).Scoped := by
  intro h
  have hsub := h.pending ⟨.with', [0], [], 0, 0⟩ List.mem_cons_self rfl (Nat.lt_irrefl 0)
  exact absurd (hsub List.mem_cons_self) List.not_mem_nil

end GalaLua.GalaDB.Transactions
