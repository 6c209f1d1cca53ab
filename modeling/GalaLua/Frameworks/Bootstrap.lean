import GalaLua.Modules.Path
import Mathlib.Data.Finset.Basic
import Mathlib.Data.Finite.Prod
import Mathlib.Logic.Relation
import Mathlib.Order.WellFoundedSet

/-!
# Starting applications

`bootstrap` starts an application after its dependencies. A dependency is the name
of an application or a table with a name, an instance and arguments of its own. An
application counts as started when its own start-up has returned.

A start-up may do anything and raise; what a call does is an action on a state,
and `none` is a call that needs more stack than it was given.
-/

namespace GalaLua.Frameworks.Bootstrap

open Modules.Path (formatArg)
open Relation

abbrev Name := List Char

variable {κ σ : Type}

-- ---------------------------------------------------------------------------
-- Actions
-- ---------------------------------------------------------------------------

inductive Outcome (σ : Type)
  | returned (s : σ)
  | raised (s : σ)
  deriving DecidableEq, Repr

abbrev Action (σ : Type) := σ → Option (Outcome σ)

def Action.andThen (a b : Action σ) : Action σ := fun s =>
  match a s with
  | some (.returned s') => b s'
  | other => other

/-- What holds after a call that returns, that raises, or that runs out of stack. -/
def Holds (Q E : σ → Prop) (N : Prop) : Option (Outcome σ) → Prop
  | some (.returned s) => Q s
  | some (.raised s) => E s
  | none => N

theorem Holds.andThen {a b : Action σ} {s : σ} {Q R E : σ → Prop} {N : Prop}
    (ha : Holds R E N (a s)) (hb : ∀ s', R s' → Holds Q E N (b s')) :
    Holds Q E N (a.andThen b s) := by
  unfold Action.andThen
  cases h : a s with
  | none => simpa [h, Holds] using ha
  | some out =>
    cases out with
    | returned s' => exact hb s' (by simpa [h, Holds] using ha)
    | raised s' => simpa [h, Holds] using ha

-- ---------------------------------------------------------------------------
-- Dependencies
-- ---------------------------------------------------------------------------

inductive Dep (κ : Type)
  | plain (name : Name)
  | table (appName instName : Option Name) (kwargs : Option κ)
  deriving DecidableEq, Repr

def appSep : Name := ['-']

def getAppModule (appName : Name) : Name := appName.takeWhile (· ≠ '-')

def getAppName (appMod instName : Option Name) : Option Name :=
  match instName with
  | none => appMod
  -- `string.format` writes `nil` as a word
  | some inst => some (formatArg (appMod.getD ['n', 'i', 'l']) ++ appSep ++ formatArg inst)

def Dep.name : Dep κ → Option Name
  | .plain name => some name
  | .table appName instName _ => getAppName appName instName

def Dep.kwargs : Dep κ → Option κ
  | .plain _ => none
  | .table _ _ kwargs => kwargs

/-- The loop of `_start_deps`. `kwargs` is declared outside of it. -/
def startDeps (startApp : Name → Option κ → Action σ) (kwargs : Option κ) : List (Dep κ) → Action σ
  | [] => fun s => some (.returned s)
  | dep :: deps =>
    match dep with
    | .plain name => (startApp name kwargs).andThen (startDeps startApp kwargs deps)
    | .table appName instName kwargs =>
      match getAppName appName instName with
      | none => startDeps startApp kwargs deps
      | some name => (startApp name kwargs).andThen (startDeps startApp kwargs deps)

/-- What the loop is for: every dependency by its own name, with its own arguments. -/
def startOwn (startApp : Name → Option κ → Action σ) : List (Dep κ) → Action σ
  | [] => fun s => some (.returned s)
  | dep :: deps =>
    match dep.name with
    | none => startOwn startApp deps
    | some name => (startApp name dep.kwargs).andThen (startOwn startApp deps)

-- ---------------------------------------------------------------------------
-- The calls that are made
-- ---------------------------------------------------------------------------

/-- The calls that `startDeps` makes when all of them return. -/
def calls (kwargs : Option κ) : List (Dep κ) → List (Name × Option κ)
  | [] => []
  | .plain name :: deps => (name, kwargs) :: calls kwargs deps
  | .table appName instName kwargs :: deps =>
    match getAppName appName instName with
    | none => calls kwargs deps
    | some name => (name, kwargs) :: calls kwargs deps

def ownCalls : List (Dep κ) → List (Name × Option κ)
  | [] => []
  | dep :: deps =>
    match dep.name with
    | none => ownCalls deps
    | some name => (name, dep.kwargs) :: ownCalls deps

/-- A `_start_app` that keeps a list of its calls. -/
def logged (name : Name) (kwargs : Option κ) : Action (List (Name × Option κ)) :=
  fun s => some (.returned (s ++ [(name, kwargs)]))

/-- The state after a call that returns or raises. -/
def Outcome.state : Outcome σ → σ
  | .returned s => s
  | .raised s => s

theorem logged_startDeps (deps : List (Dep κ)) (kwargs : Option κ) (s : List (Name × Option κ)) :
    (startDeps logged kwargs deps s).map Outcome.state = some (s ++ calls kwargs deps) := by
  induction deps generalizing kwargs s with
  | nil => simp [startDeps, calls, Outcome.state]
  | cons dep deps ih =>
    cases dep with
    | plain name => simp [startDeps, calls, Action.andThen, logged, ih]
    | table appName instName kwargs =>
      simp only [startDeps, calls]
      cases getAppName appName instName with
      | none => exact ih kwargs s
      | some name => simp [Action.andThen, logged, ih]

theorem logged_startOwn (deps : List (Dep κ)) (s : List (Name × Option κ)) :
    (startOwn logged deps s).map Outcome.state = some (s ++ ownCalls deps) := by
  induction deps generalizing s with
  | nil => simp [startOwn, ownCalls, Outcome.state]
  | cons dep deps ih =>
    simp only [startOwn, ownCalls]
    cases dep.name with
    | none => exact ih s
    | some name => simp [Action.andThen, logged, ih]

-- ---------------------------------------------------------------------------
-- The arguments left over
-- ---------------------------------------------------------------------------

/-- The arguments left over after some dependencies: those of the last table. -/
def leftOver (kwargs : Option κ) (deps : List (Dep κ)) : Option κ :=
  deps.foldl (fun left dep => match dep with | .plain _ => left | .table _ _ own => own) kwargs

/-- No plain name has arguments left over before it. -/
def Cleared (kwargs : Option κ) (deps : List (Dep κ)) : Prop :=
  ∀ before name after, deps = before ++ .plain name :: after → leftOver kwargs before = none

theorem cleared_nil (kwargs : Option κ) : Cleared kwargs ([] : List (Dep κ)) := by
  intro before name after h
  simp at h

theorem cleared_plain (kwargs : Option κ) (name : Name) (deps : List (Dep κ)) :
    Cleared kwargs (.plain name :: deps) ↔ kwargs = none ∧ Cleared kwargs deps := by
  constructor
  · intro h
    refine ⟨h [] name deps rfl, fun before other after hdeps => ?_⟩
    exact h (.plain name :: before) other after (by rw [hdeps]; rfl)
  · rintro ⟨hnone, h⟩ before other after hdeps
    cases before with
    | nil => exact hnone
    | cons dep before =>
      obtain ⟨rfl, hrest⟩ := List.cons.inj hdeps
      exact h before other after hrest

theorem cleared_table (kwargs own : Option κ) (appName instName : Option Name) (deps : List (Dep κ)) :
    Cleared kwargs (.table appName instName own :: deps) ↔ Cleared own deps := by
  constructor
  · intro h before other after hdeps
    exact h (.table appName instName own :: before) other after (by rw [hdeps]; rfl)
  · intro h before other after hdeps
    cases before with
    | nil => simp at hdeps
    | cons dep before =>
      obtain ⟨rfl, hrest⟩ := List.cons.inj hdeps
      exact h before other after hrest

theorem startDeps_of_cleared (startApp : Name → Option κ → Action σ) (deps : List (Dep κ))
    (kwargs : Option κ) (h : Cleared kwargs deps) : startDeps startApp kwargs deps = startOwn startApp deps := by
  induction deps generalizing kwargs with
  | nil => rfl
  | cons dep deps ih =>
    cases dep with
    | plain name =>
      obtain ⟨rfl, h⟩ := (cleared_plain kwargs name deps).mp h
      simp only [startDeps, startOwn, Dep.name, Dep.kwargs, ih none h]
    | table appName instName own =>
      have h := (cleared_table kwargs own appName instName deps).mp h
      simp only [startDeps, startOwn, Dep.name, Dep.kwargs]
      cases getAppName appName instName with
      | none => exact ih own h
      | some name => simp only [ih own h]

theorem cleared_of_calls (deps : List (Dep κ)) (kwargs : Option κ) (h : calls kwargs deps = ownCalls deps) :
    Cleared kwargs deps := by
  induction deps generalizing kwargs with
  | nil => exact cleared_nil kwargs
  | cons dep deps ih =>
    cases dep with
    | plain name =>
      simp only [calls, ownCalls, Dep.name, Dep.kwargs, List.cons.injEq, Prod.mk.injEq, true_and] at h
      exact (cleared_plain kwargs name deps).mpr ⟨h.1, ih kwargs h.2⟩
    | table appName instName own =>
      refine (cleared_table kwargs own appName instName deps).mpr (ih own ?_)
      simp only [calls, ownCalls, Dep.name, Dep.kwargs] at h
      cases hdep : getAppName appName instName with
      | none => rwa [hdep] at h
      | some name =>
        rw [hdep] at h
        exact (List.cons.inj h).2

/-- Every dependency is started with its own arguments if and only if no plain
name comes after a table with arguments, with no other table between them. -/
theorem startDeps_own_iff (deps : List (Dep κ)) :
    (∀ (σ : Type) (startApp : Name → Option κ → Action σ),
      startDeps startApp none deps = startOwn startApp deps) ↔ Cleared none deps := by
  constructor
  · intro h
    have hcalls := congrArg (Option.map Outcome.state) (congrFun (h _ logged) [])
    rw [logged_startDeps, logged_startOwn] at hcalls
    exact cleared_of_calls deps none (by simpa using hcalls)
  · exact fun h σ startApp => startDeps_of_cleared startApp deps none h

/-- The second application gets the port of the first one. -/
theorem plain_after_table :
    ¬ ∀ (σ : Type) (startApp : Name → Option Nat → Action σ),
      startDeps startApp none [.table (some ['w', 'e', 'b']) none (some 80), .plain ['d', 'b']] =
        startOwn startApp [.table (some ['w', 'e', 'b']) none (some 80), .plain ['d', 'b']] := by
  intro h
  have hcalls := congrFun (h _ logged) []
  simp [startDeps, startOwn, getAppName, Dep.name, Dep.kwargs, Action.andThen, logged] at hcalls

-- ---------------------------------------------------------------------------
-- Rule of the loop
-- ---------------------------------------------------------------------------

/-- The names that are started for some dependencies. -/
def names (deps : List (Dep κ)) : List Name := deps.filterMap Dep.name

/-- `I` is about the names that are done, the last one first. -/
theorem Holds.startDeps (startApp : Name → Option κ → Action σ) {I : List Name → σ → Prop} {E : σ → Prop}
    {N : Prop} (deps : List (Dep κ)) (done : List Name)
    (hstep : ∀ name ∈ names deps, ∀ kwargs done s, I done s →
      Holds (I (name :: done)) E N (startApp name kwargs s))
    {s : σ} (hs : I done s) (kwargs : Option κ) :
    Holds (I ((names deps).reverse ++ done)) E N (startDeps startApp kwargs deps s) := by
  induction deps generalizing done s kwargs with
  | nil => exact hs
  | cons dep deps ih =>
    have next : ∀ name, dep.name = some name → ∀ own left,
        Holds (I ((names (dep :: deps)).reverse ++ done)) E N
          ((startApp name own).andThen (Bootstrap.startDeps startApp left deps) s) := by
      intro name hname own left
      have hcons : names (dep :: deps) = name :: names deps := by simp [names, hname]
      rw [hcons] at hstep ⊢
      refine Holds.andThen (hstep name List.mem_cons_self own done s hs) fun s' hs' => ?_
      simpa using ih (name :: done) (fun n hn => hstep n (List.mem_cons_of_mem _ hn)) hs' left
    cases dep with
    | plain name => exact next name rfl kwargs kwargs
    | table appName instName own =>
      simp only [Bootstrap.startDeps]
      cases hname : getAppName appName instName with
      | none =>
        have hskip : names (.table appName instName own :: deps) = names deps := by simp [names, Dep.name, hname]
        rw [hskip] at hstep ⊢
        exact ih done hstep hs own
      | some name => exact next name hname own own

-- ---------------------------------------------------------------------------
-- Applications
-- ---------------------------------------------------------------------------

/-- The table `app` of an application's module. -/
structure App (κ : Type) where
  deps : Option (List (Dep κ))
  isDummyApp : Bool

structure Boot where
  /-- the keys of `_apps` -/
  apps : List Name
  /-- the start-ups that were begun, in order -/
  started : List Name

/-- Applications with their dependencies. -/
structure Catalogue (κ : Type) where
  /-- `require` of a module -/
  app : Name → App κ
  names : Finset Name
  closed : ∀ name ∈ names, ∀ dep ∈ Bootstrap.names ((app (getAppModule name)).deps.getD []), dep ∈ names

/-- `_start_app`. `launch` tells if the start-up of an application, the last in the
list, returns. -/
def startApp (app : Name → App κ) (launch : List Name → Option κ → Bool) :
    ℕ → Name → Option κ → Action Boot
  | 0 => fun _ _ _ => none
  | fuel + 1 => fun appName kwargs s =>
    if appName ∈ s.apps then some (.returned s)
    else
      let theApp := app (getAppModule appName)
      (startDeps (startApp app launch fuel) none (theApp.deps.getD [])).andThen (fun s =>
        if theApp.isDummyApp then some (.returned s)
        else
          let s := { s with started := s.started ++ [appName] }
          if launch s.started kwargs then some (.returned { s with apps := appName :: s.apps })
          else some (.raised s)) s

theorem startApp_succ (app : Name → App κ) (launch : List Name → Option κ → Bool) (fuel : ℕ) (appName : Name)
    (kwargs : Option κ) (s : Boot) : startApp app launch (fuel + 1) appName kwargs s =
      if appName ∈ s.apps then some (.returned s)
      else
        (startDeps (startApp app launch fuel) none ((app (getAppModule appName)).deps.getD [])).andThen (fun s =>
          if (app (getAppModule appName)).isDummyApp then some (.returned s)
          else if launch (s.started ++ [appName]) kwargs then
            some (.returned { s with apps := appName :: s.apps, started := s.started ++ [appName] })
          else some (.raised { s with started := s.started ++ [appName] })) s := rfl

namespace Catalogue

variable (C : Catalogue κ)

def deps (name : Name) : List Name := Bootstrap.names ((C.app (getAppModule name)).deps.getD [])

def IsDummy (name : Name) : Prop := (C.app (getAppModule name)).isDummyApp = true

/-- A dependency of an application, and the dependencies of that one. -/
def DependsOn : Name → Name → Prop := TransGen fun name dep => dep ∈ C.deps name

/-- An application is in place when it was started; a dummy, when all that it
depends on is. -/
inductive Up (apps : Name → Prop) : Name → Prop
  | started {name : Name} (h : apps name) : Up apps name
  | dummy {name : Name} (h : C.IsDummy name) (hdeps : ∀ dep ∈ C.deps name, Up apps dep) : Up apps name

theorem Up.mono {C : Catalogue κ} {apps more : Name → Prop} {name : Name} (h : C.Up apps name)
    (hmore : ∀ n, apps n → more n) : C.Up more name := by
  induction h with
  | started h => exact .started (hmore _ h)
  | dummy h _ ih => exact .dummy h ih

/-- The start-ups of a call, when `apps` were started before it. -/
structure InOrder (apps started : List Name) : Prop where
  once : started.Nodup
  fresh : ∀ name ∈ started, name ∉ apps
  after : ∀ before name rest, started = before ++ name :: rest →
    ∀ dep ∈ C.deps name, ¬ C.DependsOn dep name → C.Up (fun n => n ∈ apps ∨ n ∈ before) dep

/-- `_start_app` terminates, whatever the start-ups do, and starts in order. -/
def FollowsGraph (apps : List Name) (name : Name) (kwargs : Option κ) : Prop :=
  ∀ launch, ∃ fuel out, startApp C.app launch fuel name kwargs ⟨apps, []⟩ = some out ∧
    C.InOrder apps out.state.started

/-- One that was not started depends on another one. -/
def Pending (apps : List Name) (name dep : Name) : Prop := name ∉ apps ∧ dep ∉ apps ∧ dep ∈ C.deps name

/-- A cycle of applications that were not started is come to. -/
def Cyclic (apps : List Name) (name : Name) : Prop :=
  ∃ n, ReflTransGen (C.Pending apps) name n ∧ TransGen (C.Pending apps) n n

variable {C : Catalogue κ} {apps : List Name} {launch : List Name → Option κ → Bool}

-- ---------------------------------------------------------------------------
-- Cycles
-- ---------------------------------------------------------------------------

theorem Cyclic.next {name : Name} (h : C.Cyclic apps name) :
    name ∉ apps ∧ ∃ dep ∈ C.deps name, C.Cyclic apps dep := by
  obtain ⟨n, hreach, hcycle⟩ := h
  rcases ReflTransGen.cases_head hreach with rfl | ⟨dep, hdep, hreach⟩
  · obtain ⟨dep, hdep, hback⟩ := TransGen.head'_iff.mp hcycle
    exact ⟨hdep.1, dep, hdep.2.2, name, hback, hcycle⟩
  · exact ⟨hdep.1, dep, hdep.2.2, n, hreach, hcycle⟩

/-- With finitely many applications, one that is not cyclic can be started by
recursion on its dependencies. -/
theorem acc_of_not_cyclic {name : Name} (hname : name ∈ C.names) (h : ¬ C.Cyclic apps name) :
    Acc (fun dep n => C.Pending apps n dep) name := by
  let Reached := {n // n ∈ C.names ∧ ReflTransGen (C.Pending apps) name n}
  let below : Reached → Reached → Prop := fun dep n => TransGen (C.Pending apps) n.1 dep.1
  have : Finite Reached := Finite.of_injective (fun n : Reached => (⟨n.1, n.2.1⟩ : C.names))
    fun _ _ heq => Subtype.ext (congrArg (fun n : C.names => n.1) heq)
  have : IsTrans Reached below := ⟨fun _ _ _ hab hbc => hbc.trans hab⟩
  have : Std.Irrefl below := ⟨fun n hn => h ⟨n.1, n.2.2, hn⟩⟩
  have hwf : WellFounded below := Finite.wellFounded_of_trans_of_irrefl below
  suffices hall : ∀ n : Reached, Acc (fun dep n => C.Pending apps n dep) n.1 from hall ⟨name, hname, .refl⟩
  intro n
  induction n using hwf.induction with
  | _ n ih =>
    refine ⟨_, fun dep hdep => ?_⟩
    exact ih ⟨dep, C.closed n.1 n.2.1 dep hdep.2.2, n.2.2.tail hdep⟩ (TransGen.single hdep)

theorem not_cycle_of_acc {name : Name} (h : Acc (fun dep n => C.Pending apps n dep) name) :
    ¬ TransGen (C.Pending apps) name name := by
  induction h with
  | intro n _ ih =>
    intro hcycle
    obtain ⟨dep, hdep, hback⟩ := TransGen.head'_iff.mp hcycle
    exact ih dep hdep (TransGen.tail' hback hdep)

-- ---------------------------------------------------------------------------
-- Order
-- ---------------------------------------------------------------------------

/-- Every start-up comes after all that the application depends on. -/
inductive Ordered (C : Catalogue κ) (apps : List Name) : List Name → Prop
  | nil : Ordered C apps []
  | snoc {started : List Name} {name : Name} (h : Ordered C apps started) (hnew : name ∉ started)
      (hfresh : name ∉ apps) (hdeps : ∀ dep ∈ C.deps name, C.Up (fun n => n ∈ apps ∨ n ∈ started) dep) :
      Ordered C apps (started ++ [name])

theorem Ordered.inOrder {started : List Name} (h : Ordered C apps started) : C.InOrder apps started := by
  induction h with
  | nil => exact ⟨List.nodup_nil, by simp, by simp⟩
  | @snoc started name _ hnew hfresh hdeps ih =>
    refine ⟨?_, ?_, ?_⟩
    · exact List.nodup_append.mpr ⟨ih.once, by simp, by simp; exact fun n hn heq => hnew (heq ▸ hn)⟩
    · intro n hn
      rcases List.mem_append.mp hn with hn | hn
      · exact ih.fresh n hn
      · rwa [List.mem_singleton.mp hn]
    · intro before n rest hsplit dep hdep hback
      rcases List.eq_nil_or_concat rest with rfl | ⟨rest, last, rfl⟩
      · obtain ⟨rfl, hn⟩ := List.append_inj' hsplit rfl
        obtain rfl : name = n := by simpa using hn
        exact hdeps dep hdep
      · have hsplit : started ++ [name] = (before ++ n :: rest) ++ [last] := by simpa using hsplit
        exact ih.after before n rest (List.append_inj_left' hsplit rfl) dep hdep hback

/-- Between two calls of `_start_app`. -/
structure Kept (C : Catalogue κ) (apps : List Name) (s : Boot) : Prop where
  ordered : Ordered C apps s.started
  recorded : ∀ n, n ∈ s.apps ↔ n ∈ apps ∨ n ∈ s.started

/-- After a call of `_start_app` that returns. -/
structure Grown (C : Catalogue κ) (apps : List Name) (origin : Name → Prop) (s s' : Boot) : Prop where
  kept : Kept C apps s'
  more : ∀ n ∈ s.apps, n ∈ s'.apps
  new : ∀ n ∈ s'.apps, n ∈ s.apps ∨
    ∃ name, origin name ∧ name ∉ apps ∧ ReflTransGen (C.Pending apps) name n

/-- With this much stack, `_start_app` starts an application or raises. -/
def Starts (C : Catalogue κ) (apps : List Name) (launch : List Name → Option κ → Bool) (name : Name)
    (fuel : ℕ) : Prop :=
  ∀ kwargs s, Kept C apps s →
    Holds (fun s' => Grown C apps (· = name) s s' ∧ C.Up (· ∈ s'.apps) name)
      (fun s' => Ordered C apps s'.started) False (startApp C.app launch fuel name kwargs s)

theorem starts_of_mem {name : Name} (h : name ∈ apps) (fuel : ℕ) : Starts C apps launch name (fuel + 1) := by
  intro kwargs s hs
  have hmem : name ∈ s.apps := (hs.recorded name).mpr (.inl h)
  simp only [startApp_succ, if_pos hmem, Holds]
  exact ⟨⟨hs, fun _ hn => hn, fun _ hn => .inl hn⟩, .started hmem⟩

theorem exists_enough {P : Name → ℕ → Prop} (l : List Name) (h : ∀ n ∈ l, ∃ f, ∀ fuel ≥ f, P n fuel) :
    ∃ f, ∀ fuel ≥ f, ∀ n ∈ l, P n fuel := by
  induction l with
  | nil => exact ⟨0, by simp⟩
  | cons n l ih =>
    obtain ⟨f, hf⟩ := h n List.mem_cons_self
    obtain ⟨g, hg⟩ := ih fun m hm => h m (List.mem_cons_of_mem _ hm)
    refine ⟨max f g, fun fuel hfuel => List.forall_mem_cons.mpr ⟨hf fuel ?_, hg fuel ?_⟩⟩
    · exact le_trans (le_max_left f g) hfuel
    · exact le_trans (le_max_right f g) hfuel

/-- The start of all dependencies, when each of them starts. -/
theorem deps_start {name : Name} {fuel : ℕ}
    (hdeps : ∀ dep ∈ C.deps name, Starts C apps launch dep fuel) {s : Boot} (hs : Kept C apps s) :
    Holds (fun s' => Grown C apps (· ∈ C.deps name) s s' ∧ ∀ dep ∈ C.deps name, C.Up (· ∈ s'.apps) dep)
      (fun s' => Ordered C apps s'.started) False
      (startDeps (startApp C.app launch fuel) none ((C.app (getAppModule name)).deps.getD []) s) := by
  have hloop := Holds.startDeps (startApp C.app launch fuel)
    (I := fun done s' => Grown C apps (· ∈ C.deps name) s s' ∧ ∀ dep ∈ done, C.Up (· ∈ s'.apps) dep)
    (E := fun s' => Ordered C apps s'.started) (N := False) ((C.app (getAppModule name)).deps.getD []) [] ?_
    ⟨⟨hs, fun _ hn => hn, fun _ hn => .inl hn⟩, by simp⟩ none
  · simpa [deps] using hloop
  · rintro dep hdep own done s₁ ⟨hgrown, hup⟩
    have hstart := hdeps dep hdep own s₁ hgrown.kept
    revert hstart
    rcases startApp C.app launch fuel dep own s₁ with _ | s₂ | s₂ <;> simp only [Holds]
    · exact id
    · rintro ⟨hdepGrown, hdepUp⟩
      refine ⟨⟨hdepGrown.kept, fun n hn => hdepGrown.more n (hgrown.more n hn), fun n hn => ?_⟩, ?_⟩
      · rcases hdepGrown.new n hn with hn | ⟨_, rfl, hdepFresh, hreach⟩
        · exact hgrown.new n hn
        · exact .inr ⟨_, hdep, hdepFresh, hreach⟩
      · exact List.forall_mem_cons.mpr ⟨hdepUp, fun d hd => (hup d hd).mono hdepGrown.more⟩
    · exact id

/-- What was started for the dependencies was started for the application. -/
theorem Grown.new_of_deps {name : Name} {s s' : Boot} (h : Grown C apps (· ∈ C.deps name) s s') (hfresh : name ∉ apps) :
    ∀ n ∈ s'.apps, n ∈ s.apps ∨ TransGen (C.Pending apps) name n := by
  intro n hn
  refine (h.new n hn).imp_right ?_
  rintro ⟨dep, hdep, hdepFresh, hreach⟩
  exact TransGen.head' ⟨hfresh, hdepFresh, hdep⟩ hreach

/-- The step: an application starts when its dependencies do and none of them
needs it. -/
theorem starts_succ {name : Name} {fuel : ℕ} (hfresh : name ∉ apps)
    (hcycle : ¬ TransGen (C.Pending apps) name name) (hdeps : ∀ dep ∈ C.deps name, Starts C apps launch dep fuel) :
    Starts C apps launch name (fuel + 1) := by
  intro kwargs s hs
  by_cases hmem : name ∈ s.apps
  · simp only [startApp_succ, if_pos hmem, Holds]
    exact ⟨⟨hs, fun _ hn => hn, fun _ hn => .inl hn⟩, .started hmem⟩
  simp only [startApp_succ, if_neg hmem]
  refine Holds.andThen (deps_start hdeps hs) fun s' hs' => ?_
  obtain ⟨hgrown, hup⟩ := hs'
  have hnew := hgrown.new_of_deps hfresh
  by_cases hdummy : (C.app (getAppModule name)).isDummyApp = true
  · simp only [if_pos hdummy, Holds]
    refine ⟨⟨hgrown.kept, hgrown.more, fun n hn => (hnew n hn).imp_right fun hreach => ?_⟩, .dummy hdummy hup⟩
    exact ⟨name, rfl, hfresh, hreach.to_reflTransGen⟩
  · have hname' : name ∉ s'.apps := fun hn => (hnew name hn).elim hmem hcycle
    have hordered : Ordered C apps (s'.started ++ [name]) := by
      refine .snoc hgrown.kept.ordered (fun hn => hname' ((hgrown.kept.recorded name).mpr (.inr hn))) hfresh ?_
      exact fun dep hdep => (hup dep hdep).mono fun n hn => (hgrown.kept.recorded n).mp hn
    simp only [if_neg hdummy]
    by_cases hlaunch : launch (s'.started ++ [name]) kwargs = true
    · simp only [if_pos hlaunch, Holds]
      refine ⟨⟨⟨hordered, fun n => ?_⟩, fun n hn => List.mem_cons_of_mem _ (hgrown.more n hn), fun n hn => ?_⟩,
        .started List.mem_cons_self⟩
      · simp only [List.mem_cons, hgrown.kept.recorded n, List.mem_append, List.not_mem_nil, or_false]
        tauto
      · rcases List.mem_cons.mp hn with rfl | hn
        · exact .inr ⟨n, rfl, hfresh, .refl⟩
        · exact (hnew n hn).imp_right fun hreach => ⟨name, rfl, hfresh, hreach.to_reflTransGen⟩
    · simp only [if_neg hlaunch, Holds]
      exact hordered

theorem starts_of_acc {name : Name} (h : Acc (fun dep n => C.Pending apps n dep) name) (hname : name ∈ C.names) :
    ∃ f, ∀ fuel ≥ f, Starts C apps launch name fuel := by
  induction h with
  | intro name hacc ih =>
    by_cases hmem : name ∈ apps
    · refine ⟨1, fun fuel hfuel => ?_⟩
      obtain ⟨fuel, rfl⟩ : ∃ k, fuel = k + 1 := ⟨fuel - 1, by omega⟩
      exact starts_of_mem hmem fuel
    have hcycle : ¬ TransGen (C.Pending apps) name name := not_cycle_of_acc ⟨name, hacc⟩
    have hdeps : ∀ dep ∈ C.deps name, ∃ f, ∀ fuel ≥ f, Starts C apps launch dep fuel := by
      intro dep hdep
      by_cases hdepMem : dep ∈ apps
      · refine ⟨1, fun fuel hfuel => ?_⟩
        obtain ⟨fuel, rfl⟩ : ∃ k, fuel = k + 1 := ⟨fuel - 1, by omega⟩
        exact starts_of_mem hdepMem fuel
      · exact ih dep ⟨hmem, hdepMem, hdep⟩ (C.closed name hname dep hdep)
    obtain ⟨f, hf⟩ := exists_enough (C.deps name) hdeps
    refine ⟨f + 1, fun fuel hfuel => ?_⟩
    obtain ⟨fuel, rfl⟩ : ∃ k, fuel = k + 1 := ⟨fuel - 1, by omega⟩
    exact starts_succ hmem hcycle (hf fuel (by omega))

-- ---------------------------------------------------------------------------
-- Endless recursion
-- ---------------------------------------------------------------------------

/-- Where every start-up returns, only an application that comes to no cycle is
ever done. -/
theorem done_not_cyclic (fuel : ℕ) {name : Name} (hname : name ∈ C.names) (kwargs : Option κ) {s : Boot}
    (hs : (∀ n ∈ apps, n ∈ s.apps) ∧ ∀ n ∈ s.apps, ¬ C.Cyclic apps n) :
    Holds (fun s' => ((∀ n ∈ apps, n ∈ s'.apps) ∧ ∀ n ∈ s'.apps, ¬ C.Cyclic apps n) ∧
      ¬ C.Cyclic apps name) (fun _ => False) True (startApp C.app (fun _ _ => true) fuel name kwargs s) := by
  induction fuel generalizing name kwargs s with
  | zero => trivial
  | succ fuel ih =>
    by_cases hmem : name ∈ s.apps
    · simp only [startApp_succ, if_pos hmem, Holds]
      exact ⟨hs, hs.2 name hmem⟩
    simp only [startApp_succ, if_neg hmem]
    refine Holds.andThen (Holds.startDeps (I := fun done s' => ((∀ n ∈ apps, n ∈ s'.apps) ∧
      ∀ n ∈ s'.apps, ¬ C.Cyclic apps n) ∧ ∀ dep ∈ done, ¬ C.Cyclic apps dep) _ _ [] ?_
      ⟨hs, by simp⟩ none) fun s' hs' => ?_
    · rintro dep hdep own done s₁ ⟨hs₁, hdone⟩
      have hstart := ih (C.closed name hname dep hdep) own hs₁
      revert hstart
      rcases startApp C.app (fun _ _ => true) fuel dep own s₁ with _ | s₂ | s₂ <;> simp only [Holds]
      · exact id
      · exact fun hs₂ => ⟨hs₂.1, List.forall_mem_cons.mpr ⟨hs₂.2, hdone⟩⟩
      · exact id
    · obtain ⟨hs', hdone⟩ := hs'
      have hnot : ¬ C.Cyclic apps name := by
        intro hcyclic
        obtain ⟨-, dep, hdep, hdepCyclic⟩ := hcyclic.next
        exact hdone dep (by simpa [deps] using hdep) hdepCyclic
      by_cases hdummy : (C.app (getAppModule name)).isDummyApp = true
      · simp only [if_pos hdummy, Holds]
        exact ⟨hs', hnot⟩
      · simp only [if_neg hdummy, ↓reduceIte, Holds]
        refine ⟨⟨fun n hn => List.mem_cons_of_mem _ (hs'.1 n hn), ?_⟩, hnot⟩
        exact List.forall_mem_cons.mpr ⟨hnot, hs'.2⟩

theorem not_cyclic_of_followsGraph {name : Name} (hname : name ∈ C.names) {kwargs : Option κ}
    (h : C.FollowsGraph apps name kwargs) : ¬ C.Cyclic apps name := by
  obtain ⟨fuel, out, hout, -⟩ := h fun _ _ => true
  have hs : (∀ n ∈ apps, n ∈ (⟨apps, []⟩ : Boot).apps) ∧ ∀ n ∈ (⟨apps, []⟩ : Boot).apps, ¬ C.Cyclic apps n :=
    ⟨fun _ hn => hn, fun n hn hcyclic => hcyclic.next.1 hn⟩
  have hdone := done_not_cyclic fuel hname kwargs hs
  rw [hout] at hdone
  cases out with
  | returned s => exact hdone.2
  | raised s => exact hdone.elim

/-- `_start_app` follows the dependencies if and only if it comes to no cycle of
applications that were not started. -/
theorem followsGraph_iff (C : Catalogue κ) (apps : List Name) (name : C.names) (kwargs : Option κ) :
    C.FollowsGraph apps name kwargs ↔ ¬ C.Cyclic apps name := by
  constructor
  · exact not_cyclic_of_followsGraph name.2
  · intro h launch
    obtain ⟨f, hf⟩ := starts_of_acc (acc_of_not_cyclic name.2 h) name.2
    have hstarts : Holds _ _ _ (startApp C.app launch f _ _ _) := hf f le_rfl kwargs ⟨apps, []⟩ ⟨.nil, by simp⟩
    cases hout : startApp C.app launch f name kwargs ⟨apps, []⟩ with
    | none => rw [hout] at hstarts; exact hstarts.elim
    | some out =>
      rw [hout] at hstarts
      refine ⟨f, out, hout, ?_⟩
      cases out with
      | returned s => exact hstarts.1.kept.ordered.inOrder
      | raised s => exact Ordered.inOrder hstarts

/-- Two applications with each other as their dependency. -/
def circle : Catalogue Unit where
  app name := ⟨some [.plain (if name = ['a'] then ['b'] else ['a'])], false⟩
  names := {['a'], ['b']}
  closed := by simp [Bootstrap.names, Dep.name, getAppModule]

/-- The recursion has no end. -/
theorem circle_endless : ¬ circle.FollowsGraph [] ['a'] none := by
  intro h
  have hab : circle.Pending [] ['a'] ['b'] := by
    simp [Pending, circle, deps, Bootstrap.names, Dep.name, getAppModule]
  have hba : circle.Pending [] ['b'] ['a'] := by
    simp [Pending, circle, deps, Bootstrap.names, Dep.name, getAppModule]
  exact not_cyclic_of_followsGraph (by simp [circle]) h ⟨['a'], .refl, .tail (.single hab) hba⟩

end Catalogue

end GalaLua.Frameworks.Bootstrap
